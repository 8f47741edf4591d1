import Or1ksim.Cpu.Outcome
import Or1ksim.Cpu.Run
import Or1ksim.Lib.Runs

/-!
# Privilege

In user mode the supervision register changes in its arithmetic flags, by the entry of an
exception, or by `l.rfe`, which does not look at the mode.

* `effect_userSafe` — what the execution functions ask for;
* `apply_userStep` — what doing it does to the supervision register;
* `privilegeContained_iff` — **privilege containment**, with the exact condition it holds under.
-/

namespace Or1ksim
namespace Cpu

open Bits Insn

/-! ### What an instruction may ask for in user mode -/

/-- Two supervision registers agree apart from carry and overflow. -/
def SameButCarries (sr sr' : Word) : Prop :=
  ∀ k, k ≠ srCY → k ≠ srOV → sr'.getLsbD k = sr.getLsbD k

/-- An effect that keeps to its privileges: it writes flags only, raises synchronous exceptions
only, and moves to special purpose registers in supervisor mode only. -/
def Effect.UserSafe (v : View) : Effect → Prop
  | .arith _ sr _ => SameButCarries v.sr sr
  | .raise e | .raiseEear e => e.Sync
  | .mtspr .. => v.sr.getLsbD srSM = true
  | .rfe => False
  | _ => True

theorem sameButCarries_assign (sr : Word) (ov cy : Bool) :
    SameButCarries sr (assignBit (assignBit sr srOV ov) srCY cy) := by
  intro k hcy hov
  simp [hcy, hov]

theorem sameButCarries_divide (sr : Word) (cy : Bool) :
    SameButCarries sr (clearBit (assignBit sr srCY cy) srOV) := by
  intro k hcy hov
  simp [hcy, hov]

theorem hard_userSafe {cfg : Config} {e : Effect} {v : View} (h : e.UserSafe v) :
    (hard cfg e v).UserSafe v := by
  unfold hard
  split
  · exact h
  · exact (by decide : Exception.illegal.Sync)

theorem effect_userSafe (cfg : Config) {f : ExecFn} (hf : f ≠ .lRfe) (v : View) :
    (effect cfg f v).UserSafe v := by
  cases f with
  | lRfe => exact absurd rfl hf
  | lAdd | lAddc | lSub | lMul => exact sameButCarries_assign v.sr _ _
  | lMulu => exact sameButCarries_assign v.sr false _
  | lDiv | lDivu => exact sameButCarries_divide v.sr _
  | lBf | lBnf | lJ =>
    simp only [effect, lBf, lBnf, lJ]
    split <;> trivial
  | lJr =>
    simp only [effect, lJr]
    split
    · exact (by decide : Exception.align.Sync)
    · trivial
  | lJalr =>
    simp only [effect, lJalr]
    split
    · exact (by decide : Exception.illegal.Sync)
    · split
      · exact (by decide : Exception.align.Sync)
      · trivial
  | lSys => exact (by decide : Exception.syscall.Sync)
  | lTrap => exact (by decide : Exception.trap.Sync)
  | lMtspr =>
    simp only [effect, lMtspr]
    split
    case isTrue hsm => exact hsm
    case isFalse => trivial
  | lMfspr =>
    simp only [effect, lMfspr]
    split <;> trivial
  | lfAddS | lfSubS | lfMulS | lfDivS | lfItofS | lfFtoiS | lfRemS | lfMaddS | lfSfeqS | lfSfneS
  | lfSfgtS | lfSfgeS | lfSfltS | lfSfleS => exact hard_userSafe trivial
  | _ => trivial

/-! ### What it does to the supervision register -/

/-- The state `t` comes from `s` by an exception whose handler starts at `vector`: the register of
`s` is saved, up to the carries that the instruction of a range exception has written. -/
def EnteredFrom (s t : Sim) (vector : Addr) : Prop :=
  ∃ e : Exception, vector = exceptVector s.sr e ∧ t.sr = entrySr (t.sprs sprESR) ∧
    SameButCarries s.sr (t.sprs sprESR) ∧ (e ≠ .range → t.sprs sprESR = s.sr)

/-- An instruction of user mode leaves all bits but the flags, or enters an exception. -/
def UserStep (s t : Sim) : Prop :=
  t.srBit srSM = s.srBit srSM ∨ EnteredFrom s t t.pcnext

theorem SameButCarries.exceptVector_eq {sr sr' : Word} (h : SameButCarries sr sr') (e : Exception) :
    exceptVector sr' e = exceptVector sr e := by
  rw [exceptVector, exceptVector, h srEPH (by decide) (by decide)]

theorem SameButCarries.refl (sr : Word) : SameButCarries sr sr := fun _ _ _ => rfl

theorem enteredFrom_enterException {s q : Sim} {e : Exception} (hsync : e.Sync) (ea : Addr)
    (hsr : SameButCarries s.sr q.sr) (he : e ≠ .range → q.sr = s.sr) :
    EnteredFrom s (enterException q e ea) (enterException q e ea).pcnext := by
  refine ⟨e, ?_, ?_, ?_, ?_⟩
  · rw [enterException_pcnext q hsync, hsr.exceptVector_eq]
  · rw [enterException_sr, enterException_esr]
  · rwa [enterException_esr]
  · rwa [enterException_esr]

theorem Outcome.userStep {s t : Sim} (h : Outcome s t) : UserStep s t := by
  cases h with
  | quiet h => exact .inl (by rw [Sim.srBit, Sim.srBit, h.sr])
  | entered q e ea h hsync ht =>
    subst ht
    refine .inr (enteredFrom_enterException hsync ea ?_ fun _ => h.sr)
    rw [h.sr]
    exact .refl _

theorem exceptHandle_range_userStep {s q : Sim} (hsr : SameButCarries s.sr q.sr) (ea : Addr) :
    UserStep s (exceptHandle q .range ea) := by
  have hq := (Quiet.debugIgnoreException q .range).sr
  unfold exceptHandle
  dsimp only
  split
  · exact .inl (by rw [Sim.srBit, Sim.srBit, hq, hsr srSM (by decide) (by decide)])
  · refine .inr (enteredFrom_enterException (by decide) ea ?_ (absurd rfl))
    rwa [hq]

theorem UserStep.setReg {s t : Sim} (h : UserStep s t) (d : BitVec 5) (v : Word) :
    UserStep s (t.setReg d v) := h

theorem setParam0_sprs (s : Sim) (d : BitVec 5) (v : Option Word) :
    (setParam0 s d v).sprs = s.sprs := by
  cases v <;> rfl

theorem nopService_userStep {cfg : Config} {s t : Sim} {k : Word}
    (h : nopService cfg s k = .ok t) : UserStep s t := by
  unfold nopService at h
  split_ifs at h <;> cases h <;> exact .inl rfl

theorem apply_userStep {cfg : Config} {d : BitVec 5} {s t : Sim} {eff : Effect} {v : View}
    (hv : v.sr = s.sr) (hsm : s.srBit srSM = false) (hsafe : eff.UserSafe v)
    (h : eff.apply cfg d s = .ok t) : UserStep s t := by
  cases eff with
  | skip => cases h; exact .inl rfl
  | set w => cases h; exact .inl rfl
  | arith w sr range =>
    have hsr : SameButCarries s.sr ((setParam0 s d w).setSpr sprSR sr).sr := by
      rw [← hv, Sim.setSpr_sr]
      exact hsafe
    cases range with
    | true => cases h; exact exceptHandle_range_userStep hsr _
    | false => cases h; exact .inl (hsr srSM (by decide) (by decide))
  | flag f =>
    cases h
    refine .inl ?_
    rw [Sim.srBit, Sim.setSpr_sr, getLsbD_assignBit, if_neg (by decide), Sim.srBit]
  | load n extend a =>
    have hmem := (evalMem_outcome cfg s a n).userStep
    simp only [Effect.apply, Except.ok.injEq] at h
    subst h
    split
    · exact hmem
    · exact hmem.setReg d _
  | store n a w => cases h; exact (setMem_outcome cfg s a w n).userStep
  | jump target link => cases h; cases link <;> exact .inl rfl
  | raise e => cases h; exact (exceptHandle_outcome s hsafe _).userStep
  | raiseEear e => cases h; exact (exceptHandle_outcome s hsafe _).userStep
  | mac w hi lo =>
    cases h
    refine .inl ?_
    rw [Sim.srBit, Sim.setSpr_sr_of_ne (by decide), Sim.setSpr_sr_of_ne (by decide), Sim.sr,
      setParam0_sprs, Sim.srBit, Sim.sr]
  | mtspr regno value =>
    have hv' : s.srBit srSM = true := by rw [Sim.srBit, ← hv]; exact hsafe
    simp [hsm] at hv'
  | mfspr regno => cases h; exact .inl rfl
  | rfe => exact absurd hsafe id
  | nop k => exact nopService_userStep h
  | float w flags =>
    cases h
    refine .inl ?_
    rw [Sim.srBit, Sim.setSpr_sr_of_ne (by decide), Sim.setReg_sr, Sim.srBit]
  | floatFlag f flags =>
    cases h
    refine .inl ?_
    rw [Sim.srBit, Sim.setSpr_sr_of_ne (by decide), Sim.setSpr_sr, getLsbD_assignBit,
      if_neg (by decide), Sim.srBit]
  | done => cases h

/-! ### One instruction -/

/-- The row of the opcode table that the processor executes next, unless fetching it raises an
exception or there is none. -/
def executes (cfg : Config) (s : Sim) : Option Opcode :=
  if (fetch cfg s).2.exceptPending then none else decodeInsn cfg.haveUnsignedXori (fetch cfg s).1

/-- The processor executes `l.rfe` next. -/
def ExecutesRfe (cfg : Config) (s : Sim) : Prop := ∃ o, executes cfg s = some o ∧ o.function = .lRfe

/-- A step into supervisor mode is the entry of an exception. -/
def PrivilegeContained (s t : Sim) : Prop := t.srBit srSM = true → EnteredFrom s t t.pc

theorem updatePc_sr (s : Sim) : (updatePc s).sr = s.sr := updatePc_sprs s (by decide)

theorem UserStep.contained {s t : Sim} (hsm : s.srBit srSM = false) (h : UserStep s t) :
    PrivilegeContained s (updatePc t) := by
  intro htsm
  rw [Sim.srBit, updatePc_sr, ← Sim.srBit] at htsm
  rcases h with h | ⟨e, hpc, hsr, hcarries, hsave⟩
  · rw [h, hsm] at htsm
    cases htsm
  · refine ⟨e, hpc, ?_, ?_, ?_⟩
    · rw [updatePc_sr, updatePc_sprs _ (by decide), hsr]
    · rwa [updatePc_sprs _ (by decide)]
    · rwa [updatePc_sprs _ (by decide)]

/-- A step reads nothing but the supervision register of the state before it. -/
theorem UserStep.of_sr {s q t : Sim} (hq : q.sr = s.sr) (h : UserStep q t) : UserStep s t := by
  unfold UserStep EnteredFrom Sim.srBit at h ⊢
  rwa [hq] at h

theorem executeOpcode_userStep {cfg : Config} {s t : Sim} {o : Opcode} {insn : Word}
    (hsm : s.srBit srSM = false) (ho : o.function ≠ .lRfe)
    (h : executeOpcode cfg s o insn = .ok t) : UserStep s t := by
  obtain ⟨t', happly, rfl⟩ := Runs.map_eq_ok_iff.1 h
  have hstep := apply_userStep rfl hsm (effect_userSafe cfg ho _) happly
  split
  · exact hstep.setReg 0 0
  · exact hstep

theorem decodeExecute_userStep {cfg : Config} {s t : Sim} {insn : Word}
    (hsm : s.srBit srSM = false)
    (ho : ∀ o, decodeInsn cfg.haveUnsignedXori insn = some o → o.function ≠ .lRfe)
    (h : decodeExecute cfg s insn = .ok t) : UserStep s t := by
  cases hdec : decodeInsn cfg.haveUnsignedXori insn with
  | some o =>
    rw [decodeExecute_of_some hdec] at h
    exact executeOpcode_userStep hsm (ho o hdec) h
  | none =>
    rcases decodeExecute_of_none s hdec with ⟨-, hexec⟩ | hexec | hexec <;> rw [hexec] at h <;>
      cases h
    · exact (exceptHandle_outcome s (by decide) _).userStep
    · exact .inl rfl
    · exact .inl rfl

/-- `l.rfe` copies `SPR_ESR_BASE`, whatever the mode. -/
theorem executeOpcode_rfe {cfg : Config} {s t : Sim} {o : Opcode} {insn : Word}
    (ho : o.function = .lRfe) (h : executeOpcode cfg s o insn = .ok t) :
    t.sr = setBit (s.sprs sprESR) srFO ∧ t.sprs sprESR = s.sprs sprESR := by
  obtain ⟨t', happly, rfl⟩ := Runs.map_eq_ok_iff.1 h
  have hsprs : t'.sprs = (s.setSpr sprSR (setBit (s.sprs sprESR) srFO)).sprs := by
    rw [insnEffect, ho] at happly
    simp only [effect, lRfe, Effect.apply, mtspr_sr] at happly
    split at happly
    · obtain ⟨q, rfl⟩ := picIntsEn_eq_ok happly
      rfl
    · cases happly
      rfl
  have hsprs' : (if writeToReg o then t'.setReg 0 0 else t').sprs = t'.sprs := by
    split <;> rfl
  rw [Sim.sr, hsprs', hsprs]
  exact ⟨Sim.setSpr_sprs_self, Sim.setSpr_sprs_of_ne (by decide)⟩

/-- So it takes the processor out of user mode exactly when that holds a supervisor's register. -/
theorem rfe_contained_iff {cfg : Config} {s q t : Sim} {o : Opcode} {insn : Word}
    (hsm : s.srBit srSM = false) (hq : q.sprs sprESR = s.sprs sprESR) (ho : o.function = .lRfe)
    (h : executeOpcode cfg q o insn = .ok t) :
    PrivilegeContained s (updatePc t) ↔ (s.sprs sprESR).getLsbD srSM = false := by
  obtain ⟨hsr, hesr⟩ := executeOpcode_rfe ho h
  rw [hq] at hsr hesr
  have hbit : (updatePc t).srBit srSM = (s.sprs sprESR).getLsbD srSM := by
    rw [Sim.srBit, updatePc_sr, hsr, getLsbD_setBit]
    simp [srSM, srFO]
  constructor
  · intro hcont
    by_contra hesm
    rw [Bool.not_eq_false] at hesm
    obtain ⟨e, -, -, hcarries, -⟩ := hcont (hbit.trans hesm)
    have := hcarries srSM (by decide) (by decide)
    rw [updatePc_sprs _ (by decide), hesr, hesm, ← Sim.srBit, hsm] at this
    cases this
  · intro hesm htsm
    rw [hbit, hesm] at htsm
    cases htsm

theorem fetch_outcome (cfg : Config) (s : Sim) :
    Outcome { s with exceptPending := false, nextDelayInsn := false } (fetch cfg s).2 :=
  evalInsn_outcome cfg _ s.pc

/-- **Privilege containment.**  An instruction that takes the processor from user to supervisor
mode enters an exception, unless it is `l.rfe` and `SPR_ESR_BASE` holds a supervisor's register. -/
theorem privilegeContained_iff (cfg : Config) {s t : Sim} (hsm : s.srBit srSM = false)
    (h : cpuClock cfg s = .ok t) :
    PrivilegeContained s t ↔
      ¬(ExecutesRfe cfg s ∧ (s.sprs sprESR).getLsbD srSM = true) := by
  have hout := fetch_outcome cfg s
  unfold ExecutesRfe executes
  unfold cpuClock at h
  generalize hfetch : fetch cfg s = f at h hout
  obtain ⟨insn, q⟩ := f
  dsimp only at h hout ⊢
  split at h
  case isTrue hpending =>
    -- The fetch raised an exception.
    cases h
    rw [if_pos hpending]
    have hstep : PrivilegeContained s (updatePc q) := UserStep.contained hsm hout.userStep
    refine iff_of_true hstep ?_
    simp
  case isFalse hpending =>
    rw [if_neg hpending]
    obtain ⟨t', hexec, rfl⟩ := Runs.map_eq_ok_iff.1 h
    have hq : Quiet { s with exceptPending := false, nextDelayInsn := false } q := by
      cases hout with
      | quiet h => exact h
      | entered q' e ea _ _ ht => exact absurd (ht ▸ enterException_exceptPending q' e ea) hpending
    have hqsm : q.srBit srSM = false := by rw [Sim.srBit, hq.sr]; exact hsm
    by_cases hrfe : ∃ o, decodeInsn cfg.haveUnsignedXori insn = some o ∧ o.function = .lRfe
    · obtain ⟨o, hdec, ho⟩ := hrfe
      rw [decodeExecute_of_some hdec] at hexec
      rw [rfe_contained_iff hsm (hq.sprs sprESR (by decide)) ho hexec, ← Bool.not_eq_true]
      exact not_congr ⟨fun hesm => ⟨⟨o, hdec, ho⟩, hesm⟩, And.right⟩
    · refine iff_of_true (UserStep.contained hsm ?_) fun hno => hrfe hno.1
      exact (decodeExecute_userStep hqsm (fun o hdec ho => hrfe ⟨o, hdec, ho⟩) hexec).of_sr hq.sr

/-- `l.mtspr r0,r0,17` and `l.rfe` at the reset vector. -/
def leaveAndReturn : Memory :=
  ((Memory.flat fun _ => 0).setProgram32 0x100 0xc0000011).setProgram32 0x104 0x24000000

theorem leaveAndReturn_first :
    ∃ s₁ s, simReset defaultConfig (powerOn 0x601 0x8001 leaveAndReturn) = .ok s₁ ∧
      exec defaultConfig s₁ [.clock] = .ok s ∧ s.sr = 0x8000 ∧ s.sprs sprESR = 0x8001 ∧
      s.mem.evalsimMem s.pc .w4 = some 0x24000000#32 := by
  obtain ⟨s₁, hreset, hs₁⟩ := simReset_powerOn defaultConfig 0x601 0x8001 leaveAndReturn
  have hfirst := cpuClock_clearSr defaultConfig (s := s₁)
    (by rw [Sim.srBit, hs₁.sr]; decide) (by rw [Sim.srBit, hs₁.sr]; decide) (congrFun hs₁.reg 0)
    (by rw [hs₁.mem, hs₁.pc]; decide)
  refine ⟨s₁, _, hreset, Runs.foldlM_cons_eq_ok_iff.2 ⟨_, hfirst, rfl⟩, ?_, ?_, ?_⟩
  · rw [updatePc_sr, Sim.setSpr_sr]
    decide
  · rw [updatePc_sprs _ (by decide), Sim.setSpr_sprs_of_ne (by decide)]
    exact hs₁.esr
  · show s₁.mem.evalsimMem s₁.pcnext .w4 = _
    rw [hs₁.mem, hs₁.pcnext]
    decide

theorem leaveAndReturn_second {s : Sim} (hsr : s.sr = 0x8000) (hesr : s.sprs sprESR = 0x8001)
    (hmem : s.mem.evalsimMem s.pc .w4 = some 0x24000000#32) :
    ∃ t, cpuClock defaultConfig s = .ok t ∧ t.sr = 0x8001 ∧ t.sprs sprESR = 0x8001 := by
  have hclock := cpuClock_rfe defaultConfig (by rw [Sim.srBit, hsr]; decide) hmem
  rw [mtspr_sr, hesr] at hclock
  refine ⟨_, hclock, ?_, ?_⟩
  · rw [updatePc_sr, Sim.setSpr_sr]
    decide
  · rw [updatePc_sprs _ (by decide), Sim.setSpr_sprs_of_ne (by decide)]
    exact hesr

/-- A program in user mode becomes supervisor without an exception. -/
theorem leaveAndReturn_not_contained :
    ∃ s₁ s t, simReset defaultConfig (powerOn 0x601 0x8001 leaveAndReturn) = .ok s₁ ∧
      exec defaultConfig s₁ [.clock] = .ok s ∧ s.srBit srSM = false ∧
      cpuClock defaultConfig s = .ok t ∧ t.srBit srSM = true ∧ ¬PrivilegeContained s t := by
  obtain ⟨s₁, s, hreset, hrun, hsr, hesr, hmem⟩ := leaveAndReturn_first
  obtain ⟨t, hclock, htsr, htesr⟩ := leaveAndReturn_second hsr hesr hmem
  have htsm : t.srBit srSM = true := by rw [Sim.srBit, htsr]; decide
  refine ⟨s₁, s, t, hreset, hrun, by rw [Sim.srBit, hsr]; decide, hclock, htsm, fun hcont => ?_⟩
  obtain ⟨e, -, -, hcarries, -⟩ := hcont htsm
  have := hcarries srSM (by decide) (by decide)
  rw [htesr, hsr] at this
  revert this
  decide

/-- The condition in the state that program reaches. -/
theorem privilegeContained_leaveAndReturn :
    ∃ s t, s.srBit srSM = false ∧ cpuClock defaultConfig s = .ok t ∧
      (PrivilegeContained s t ↔
        ¬(ExecutesRfe defaultConfig s ∧ (s.sprs sprESR).getLsbD srSM = true)) := by
  obtain ⟨s₁, s, hreset, hrun, hsr, hesr, hmem⟩ := leaveAndReturn_first
  obtain ⟨t, hclock, -, -⟩ := leaveAndReturn_second hsr hesr hmem
  have hsm : s.srBit srSM = false := by rw [Sim.srBit, hsr]; decide
  exact ⟨s, t, hsm, hclock, privilegeContained_iff defaultConfig hsm hclock⟩

end Cpu
end Or1ksim
