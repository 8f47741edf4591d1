import Or1ksim.Cpu.Privilege
import Or1ksim.Insn.Rows

/-!
# Register zero

The general purpose registers change in the instructions that have a result, in the links of calls
and services, and through their window among the special purpose registers.

* `mtspr_reg` — a write to a special purpose register is a write through the window, if that;
* `opcodes_destination` — every row whose function has a result has a destination register, so
  that register zero is repaired after it;
* `exec_reg_zero_iff` — **what keeps register zero at zero**.
-/

namespace Or1ksim
namespace Cpu

open Bits Insn
open Decoder (Encoding)

variable {cfg : Config} {s t : Sim}

/-! ### What leaves the registers alone -/

theorem enterException_reg (s : Sim) (e : Exception) (ea : Addr) :
    (enterException s e ea).reg = s.reg := by
  unfold enterException
  cases e <;> rfl

theorem exceptHandle_reg (s : Sim) (e : Exception) (ea : Addr) :
    (exceptHandle s e ea).reg = s.reg := by
  have hdebug := (Quiet.debugIgnoreException s e).reg
  unfold exceptHandle
  dsimp only
  split
  · exact hdebug
  · rw [enterException_reg, hdebug]

theorem Outcome.reg (h : Outcome s t) : t.reg = s.reg := by
  cases h with
  | quiet h => exact h.reg
  | entered q e ea h _ ht => rw [ht, enterException_reg, h.reg]

theorem withSched_reg {q : Option (Sched.State Job Unit)} (h : s.withSched q = .ok t) :
    t.reg = s.reg := by
  cases q with
  | some q => cases h; rfl
  | none => cases h

theorem picIntsEn_reg (h : picIntsEn s = .ok t) : t.reg = s.reg := by
  obtain ⟨q, rfl⟩ := picIntsEn_eq_ok h
  rfl

theorem unqueueRaise_reg {prev : Word} (h : unqueueRaise s prev = .ok t) : t.reg = s.reg := by
  unfold unqueueRaise at h
  split at h
  · exact withSched_reg h
  · cases h; rfl

theorem unqueueMode_reg {prev : Word} (h : unqueueMode s prev = .ok t) : t.reg = s.reg := by
  unfold unqueueMode at h
  split at h
  · exact withSched_reg h
  · split at h
    · exact withSched_reg h
    · cases h; rfl

theorem queueRaise_reg {cycles : ℕ} (h : queueRaise s cycles = .ok t) : t.reg = s.reg := by
  unfold queueRaise at h
  split at h
  · exact withSched_reg h
  · cases h; rfl

theorem queueRaise_after_reg {job : Job} {time : ℤ} {cycles : ℕ}
    (h : (s.schedAdd job time >>= fun s => queueRaise s cycles) = .ok t) : t.reg = s.reg := by
  obtain ⟨u, hu, h⟩ := Runs.bind_eq_ok_iff.1 h
  exact (queueRaise_reg h).trans (withSched_reg hu)

theorem queueMode_reg {cycles : ℕ} (h : queueMode s cycles = .ok t) : t.reg = s.reg := by
  unfold queueMode at h
  dsimp only at h
  split at h
  · split at h
    · exact queueRaise_reg h
    · cases h; rfl
  · split at h
    · exact queueRaise_after_reg h
    · split at h
      · split at h
        · exact queueRaise_after_reg h
        · cases h; rfl
      · exact queueRaise_reg h

theorem schedTimerJob_reg {prev : Word} (h : schedTimerJob s prev = .ok t) : t.reg = s.reg := by
  obtain ⟨u, hu, h⟩ := Runs.bind_eq_ok_iff.1 h
  obtain ⟨v, hv, h⟩ := Runs.bind_eq_ok_iff.1 h
  exact ((queueMode_reg h).trans (unqueueMode_reg hv)).trans (unqueueRaise_reg hu)

theorem sprWriteTtcr_reg {value : Word} (h : sprWriteTtcr s value = .ok t) : t.reg = s.reg :=
  (schedTimerJob_reg h).trans rfl

theorem sprWriteTtmr_reg {prev : Word} (h : sprWriteTtmr s prev = .ok t) : t.reg = s.reg := by
  refine (schedTimerJob_reg h).trans ?_
  dsimp only
  split <;> rfl

/-! ### The window among the special purpose registers -/

theorem maskTlb_reg (cfg : Config) (s : Sim) (regno : Regno) (value : Word) :
    (maskTlb cfg s regno value).reg = s.reg := by
  unfold maskTlb
  dsimp only
  split_ifs <;> rfl

theorem writeNpc_reg (s : Sim) (value : Addr) : (writeNpc s value).reg = s.reg := by
  unfold writeNpc
  split <;> rfl

theorem linkGpr_reg_of_not {regno : Regno} {value : Word}
    (h : ¬(0x0400 ≤ regno ∧ regno < 0x0420)) : (linkGpr s regno value).reg = s.reg := by
  rw [linkGpr, if_neg h]

theorem linkGpr_congr {regno : Regno} {value : Word} (h : t.reg = s.reg) :
    (linkGpr t regno value).reg = (linkGpr s regno value).reg := by
  unfold linkGpr
  split
  · simp only [Sim.setReg, h]
  · exact h

theorem reg_eq_linkGpr {regno r : Regno} {value : Word} (he : regno = r)
    (hr : ¬(0x0400 ≤ r ∧ r < 0x0420)) (h : t.reg = s.reg) :
    t.reg = (linkGpr s regno value).reg := by
  rw [he, linkGpr_reg_of_not hr, h]

theorem evalsimMem_reg (s : Sim) (pa va : Addr) (n : Width) :
    (evalsimMem s pa va n).2.reg = s.reg := (evalsimMem_outcome s pa va n).reg

theorem mtspr_reg {regno : Regno} {value : Word} (h : mtspr cfg s regno value = .ok t) :
    t.reg = (linkGpr s regno value).reg := by
  obtain ⟨f, hf, hform⟩ := mtspr_form cfg regno value
  rw [hf] at h
  cases hform with
  | ttcr hr => exact reg_eq_linkGpr hr (by decide) ((sprWriteTtcr_reg h).trans rfl)
  | ttmr hr => exact reg_eq_linkGpr hr (by decide) ((sprWriteTtmr_reg h).trans rfl)
  | dcbpr hr | icbpr hr =>
    cases h
    exact reg_eq_linkGpr hr (by decide) (evalsimMem_reg ..)
  | command r left hmem hr =>
    cases h
    exact reg_eq_linkGpr hr (cacheCommands_apart r hmem).2.2 rfl
  | sr hr =>
    refine reg_eq_linkGpr hr (by decide) ?_
    beta_reduce at h
    split at h
    · exact (picIntsEn_reg h).trans rfl
    · cases h; rfl
  | npc hr =>
    cases h
    exact reg_eq_linkGpr hr (by decide) (writeNpc_reg _ _)
  | picsr hr =>
    cases h
    refine reg_eq_linkGpr hr (by decide) ?_
    split <;> rfl
  | picmr hr =>
    refine reg_eq_linkGpr hr (by decide) ?_
    have hnmi : (if cfg.useNmi then (s.setSpr regno value).setSpr sprPICMR
        ((s.setSpr regno value).sprs sprPICMR ||| 3) else s.setSpr regno value).reg = s.reg := by
      split <;> rfl
    rw [← hnmi]
    dsimp only at h
    generalize (if cfg.useNmi then (s.setSpr regno value).setSpr sprPICMR
      ((s.setSpr regno value).sprs sprPICMR ||| 3) else s.setSpr regno value) = u at h
    split at h
    · exact picIntsEn_reg h
    · cases h; rfl
  | pmr hr =>
    beta_reduce at h
    split at h
    · cases h
    · cases h
      exact reg_eq_linkGpr hr (by decide) rfl
  | other =>
    cases h
    exact linkGpr_congr (maskTlb_reg ..)

/-- The special purpose register that is register zero. -/
def sprGPR0 : Regno := 0x0400

theorem linkGpr_gpr0 (s : Sim) (value : Word) : (linkGpr s sprGPR0 value).reg 0#5 = value := by
  have hwin : (0x0400 : Regno) ≤ sprGPR0 ∧ sprGPR0 < 0x0420 := by decide
  rw [linkGpr, if_pos hwin]
  exact Function.update_self (0#5) value s.reg

/-- A write through the window changes register zero only if it names it. -/
theorem linkGpr_reg_zero {regno : Regno} {value : Word} (hs : s.reg 0#5 = 0) :
    (linkGpr s regno value).reg 0#5 = 0 ↔ ¬(regno = sprGPR0 ∧ value ≠ 0) := by
  by_cases hzero : regno = sprGPR0
  · subst hzero
    rw [linkGpr_gpr0]
    simp
  · refine iff_of_true ?_ fun h => hzero h.1
    unfold linkGpr
    split
    case isTrue hwin =>
      have hne : (0#5 : BitVec 5) ≠ (regno - 0x0400).setWidth 5 := by
        intro h
        have hlow := BitVec.le_def.1 hwin.1
        have hhigh := BitVec.lt_def.1 hwin.2
        have hmod := congrArg BitVec.toNat h
        rw [BitVec.toNat_setWidth, BitVec.toNat_sub] at hmod
        simp only [BitVec.toNat_ofNat, BitVec.ofNat_eq_ofNat] at hlow hhigh hmod
        apply hzero
        apply BitVec.eq_of_toNat_eq
        rw [show sprGPR0.toNat = 1024 from rfl]
        omega
      exact (Function.update_of_ne hne ..).trans hs
    case isFalse => exact hs

/-! ### Instructions with a result -/

/-- The effect writes the register of the first operand. -/
def Effect.setsParam0 : Effect → Bool
  | .set _ | .arith (some _) _ _ | .load _ _ _ | .mac (some _) _ _ | .mfspr _ | .float _ _ => true
  | _ => false

/-- The execution functions that have a result. -/
def hasResult : ExecFn → Bool
  | .lMovhi | .lMacrc | .lLwz | .lLws | .lLbz | .lLbs | .lLhz | .lLhs | .lAdd | .lAddc | .lAnd
  | .lOr | .lXor | .lMul | .lMfspr | .lSll | .lSrl | .lSra | .lRor | .lfAddS | .lfSubS | .lfMulS
  | .lfDivS | .lfItofS | .lfFtoiS | .lfRemS | .lfMaddS | .lSub | .lDiv | .lDivu | .lMulu | .lExtbs
  | .lExths | .lExtws | .lExtbz | .lExthz | .lExtwz | .lCmov | .lFf1 | .lFl1 => true
  | _ => false

theorem hard_setsParam0 {e : Effect} {v : View} (h : e.setsParam0 = false) :
    (hard cfg e v).setsParam0 = false := by
  unfold hard
  split
  · exact h
  · rfl

theorem effect_setsParam0 {f : ExecFn} (hf : hasResult f = false) (v : View) :
    (effect cfg f v).setsParam0 = false := by
  cases f with
  | lBf | lBnf | lJ | lJr | lMtspr =>
    simp only [effect, lBf, lBnf, lJ, lJr, lMtspr]
    split <;> rfl
  | lJalr =>
    simp only [effect, lJalr]
    split
    · rfl
    · split <;> rfl
  | lfSfeqS | lfSfneS | lfSfgtS | lfSfgeS | lfSfltS | lfSfleS => exact hard_setsParam0 rfl
  | _ => first | rfl | cases hf

theorem hard_ne_mtspr {e : Effect} {v : View} {regno : Regno} {value : Word}
    (h : e ≠ .mtspr regno value) : hard cfg e v ≠ .mtspr regno value := by
  unfold hard
  split
  · exact h
  · exact Effect.noConfusion

theorem effect_ne_mtspr {f : ExecFn} (hf : f ≠ .lMtspr) (v : View) (regno : Regno) (value : Word) :
    effect cfg f v ≠ .mtspr regno value := by
  cases f with
  | lMtspr => exact absurd rfl hf
  | lBf | lBnf | lJ | lJr | lMfspr =>
    simp only [effect, lBf, lBnf, lJ, lJr, lMfspr]
    split <;> exact Effect.noConfusion
  | lJalr =>
    simp only [effect, lJalr]
    split
    · exact Effect.noConfusion
    · split <;> exact Effect.noConfusion
  | lfAddS | lfSubS | lfMulS | lfDivS | lfItofS | lfFtoiS | lfRemS | lfMaddS | lfSfeqS | lfSfneS
  | lfSfgtS | lfSfgeS | lfSfltS | lfSfleS => exact hard_ne_mtspr Effect.noConfusion
  | _ => exact Effect.noConfusion

/-- The operand program of the texts of a row has a destination. -/
def textsDestination (args : List Char) (enc : Encoding) : Bool :=
  ((if args = [] then some [⟨{ reg := true, op := true, last := true }, 0⟩]
    else (parseArgs 32 enc args {} 0 []).map List.reverse).getD []).any fun d => d.type.dst

/-- A row has a destination register if its function has a result; `l.mtspr` has none. -/
def checkDestination (args : List Char) (enc : Encoding) (f : ExecFn) : Bool :=
  (!hasResult f || textsDestination args enc) && (f != .lMtspr || !textsDestination args enc)

set_option maxRecDepth 20000 in
theorem opcodes_destination {haveUnsignedXori : Bool} {o : Opcode}
    (h : o ∈ opcodes haveUnsignedXori) :
    (hasResult o.function = true → writeToReg o = true) ∧
      (o.function = .lMtspr → writeToReg o = false) := by
  have hcheck : ((tableTexts.1.zip ((xoriSigned :: opcodes true).map Opcode.function)).all
      fun r => checkDestination r.1.1 r.1.2 r.2) = true := by decide
  rw [← tableTexts.2.map_eq, List.zip_map', List.all_map, List.all_eq_true] at hcheck
  have hrow := hcheck o ((mem_opcodes h).elim (.tail _) fun he => he ▸ .head _)
  have hwrite : writeToReg o = textsDestination o.args.toList o.enc := rfl
  simp only [Function.comp_apply, checkDestination, ← hwrite, Bool.and_eq_true, Bool.or_eq_true,
    Bool.not_eq_true', bne_iff_ne] at hrow
  refine ⟨fun hres => hrow.1.resolve_left ?_, fun hmtspr => hrow.2.resolve_left ?_⟩
  · simp [hres]
  · simp [hmtspr]

/-! ### One instruction -/

theorem nopService_reg_zero {k : Word} (hs : s.reg 0#5 = 0) (h : nopService cfg s k = .ok t) :
    t.reg 0#5 = 0 := by
  unfold nopService at h
  split_ifs at h <;> cases h <;> exact hs

theorem apply_reg_zero {d : BitVec 5} {eff : Effect} (hs : s.reg 0#5 = 0)
    (hset : eff.setsParam0 = false) (hno : ∀ value, eff = .mtspr sprGPR0 value → value = 0)
    (h : eff.apply cfg d s = .ok t) : t.reg 0#5 = 0 := by
  cases eff with
  | skip => cases h; exact hs
  | set w => cases hset
  | arith w sr range =>
    cases w with
    | some w => cases hset
    | none =>
      cases range with
      | true => cases h; exact (congrFun (exceptHandle_reg _ _ _) _).trans hs
      | false => cases h; exact hs
  | flag f => cases h; exact hs
  | load n extend a => cases hset
  | store n a w => cases h; exact (congrFun (setMem_outcome cfg s a w n).reg _).trans hs
  | jump target link => cases h; cases link <;> exact hs
  | raise e => cases h; exact (congrFun (exceptHandle_reg _ _ _) _).trans hs
  | raiseEear e => cases h; exact (congrFun (exceptHandle_reg _ _ _) _).trans hs
  | mac w hi lo =>
    cases w with
    | some w => cases hset
    | none => cases h; exact hs
  | mtspr regno value =>
    rw [mtspr_reg h, linkGpr_reg_zero hs]
    rintro ⟨rfl, hvalue⟩
    exact hvalue (hno value rfl)
  | mfspr regno => cases hset
  | rfe =>
    have hpc : { s with pcnext := s.sprs sprEPCR }.reg 0#5 = 0 := hs
    rw [Effect.apply] at h
    rw [mtspr_reg h, linkGpr_reg_zero hpc]
    exact fun hno => absurd hno.1 (by decide)
  | nop k => exact nopService_reg_zero hs h
  | float w flags => cases hset
  | floatFlag f flags => cases h; exact hs
  | done => cases h

/-- A row keeps register zero unless it moves something else to it through the window. -/
theorem executeOpcode_reg_zero {o : Opcode} {insn : Word}
    (ho : o ∈ opcodes cfg.haveUnsignedXori) (hs : s.reg 0#5 = 0)
    (hno : ∀ value, insnEffect cfg s o insn = .mtspr sprGPR0 value → value = 0)
    (h : executeOpcode cfg s o insn = .ok t) : t.reg 0#5 = 0 := by
  obtain ⟨u, happly, rfl⟩ := Runs.map_eq_ok_iff.1 h
  split
  case isTrue => exact Function.update_self (0#5) 0 u.reg
  case isFalse hwrite =>
    have hres : hasResult o.function = false := by
      rw [← Bool.not_eq_true]
      exact fun hres => hwrite ((opcodes_destination ho).1 hres)
    exact apply_reg_zero hs (effect_setsParam0 hres _) hno happly

/-- Moving to register zero through the window is not repaired. -/
theorem executeOpcode_gpr0 {o : Opcode} {insn value : Word}
    (ho : o ∈ opcodes cfg.haveUnsignedXori)
    (heff : insnEffect cfg s o insn = .mtspr sprGPR0 value) :
    ∃ t, executeOpcode cfg s o insn = .ok t ∧ t.reg 0#5 = value := by
  have hfn : o.function = .lMtspr := by
    by_contra hfn
    exact effect_ne_mtspr hfn _ _ _ heff
  have hmtspr : mtspr cfg s sprGPR0 value =
      .ok (linkGpr (maskTlb cfg (s.setSpr sprGPR0 value) sprGPR0 value) sprGPR0 value) := rfl
  refine ⟨linkGpr (maskTlb cfg (s.setSpr sprGPR0 value) sprGPR0 value) sprGPR0 value, ?_, ?_⟩
  · rw [executeOpcode, heff, Effect.apply, hmtspr, (opcodes_destination ho).2 hfn]
    rfl
  · exact linkGpr_gpr0 _ value

/-- The processor executes an `l.mtspr` of supervisor mode next that moves a nonzero value to
register zero. -/
def StoresGpr0 (cfg : Config) (s : Sim) : Prop :=
  ∃ o value, executes cfg s = some o ∧
    insnEffect cfg (fetch cfg s).2 o (fetch cfg s).1 = .mtspr sprGPR0 value ∧ value ≠ 0

theorem cpuClock_reg_zero_iff (hs : s.reg 0#5 = 0) :
    (∀ t, cpuClock cfg s = .ok t → t.reg 0#5 = 0) ↔ ¬StoresGpr0 cfg s := by
  have hfetch : (fetch cfg s).2.reg 0#5 = 0 := (congrFun (fetch_outcome cfg s).reg _).trans hs
  unfold StoresGpr0 executes cpuClock
  generalize fetch cfg s = f at hfetch
  obtain ⟨insn, q⟩ := f
  dsimp only at hfetch ⊢
  split
  case isTrue hpending =>
    -- The fetch raised an exception.
    refine iff_of_true (fun t h => ?_) ?_
    · cases h
      exact hfetch
    · simp
  case isFalse hpending =>
    constructor
    · rintro hall ⟨o, value, hdec, heff, hvalue⟩
      have ho := (decodeInsn_eq_some_iff.1 hdec).1
      obtain ⟨t, ht, hreg⟩ := executeOpcode_gpr0 ho heff
      refine hvalue ?_
      rw [← hreg]
      refine hall (updatePc t) ?_
      rw [decodeExecute_of_some hdec]
      exact Runs.map_eq_ok_iff.2 ⟨t, ht, rfl⟩
    · intro hno t h
      obtain ⟨u, hu, rfl⟩ := Runs.map_eq_ok_iff.1 h
      show u.reg 0#5 = 0
      cases hdec : decodeInsn cfg.haveUnsignedXori insn with
      | some o =>
        rw [decodeExecute_of_some hdec] at hu
        have ho := (decodeInsn_eq_some_iff.1 hdec).1
        refine executeOpcode_reg_zero ho hfetch (fun value heff => ?_) hu
        by_contra hvalue
        exact hno ⟨o, value, hdec, heff, hvalue⟩
      | none =>
        rcases decodeExecute_of_none q hdec with ⟨-, hexec⟩ | hexec | hexec <;>
          rw [hexec] at hu <;> cases hu
        · exact (congrFun (exceptHandle_reg _ _ _) _).trans hfetch
        · exact hfetch
        · exact Function.update_self (0#5) 0 q.reg

/-! ### The main loop -/

theorem schedAdd_reg {job : Job} {time : ℤ} (h : s.schedAdd job time = .ok t) : t.reg = s.reg :=
  withSched_reg h

theorem reportInterrupt_reg {line : Fin 32} (h : reportInterrupt cfg s line = .ok t) :
    t.reg = s.reg := by
  unfold reportInterrupt at h
  dsimp only at h
  split at h
  · cases h
    split
    · exact exceptHandle_reg ..
    · rfl
  · split at h
    · cases h; rfl
    · split at h
      · exact (schedAdd_reg h).trans rfl
      · cases h; rfl

theorem LineOp.exec_reg {op : LineOp} (h : op.exec cfg s = .ok t) : t.reg = s.reg := by
  cases op with
  | report line => exact reportInterrupt_reg h
  | clear line => cases h; rfl

theorem tickRaiseExcept_reg (h : tickRaiseExcept s = .ok t) : t.reg = s.reg := by
  obtain ⟨u, hu, h⟩ := Runs.bind_eq_ok_iff.1 h
  have hu := (withSched_reg hu).trans rfl
  cases h
  split
  · exact (exceptHandle_reg ..).trans hu
  · exact hu

theorem picRepInt_reg (s : Sim) : (picRepInt s).reg = s.reg := by
  unfold picRepInt
  split
  · exact exceptHandle_reg ..
  · rfl

theorem Job.exec_reg {job : Job} (h : job.exec cfg s = .ok t) : t.reg = s.reg := by
  cases job with
  | schedGuard => exact withSched_reg h
  | picRepInt => cases h; exact picRepInt_reg s
  | tickRaiseExcept => exact tickRaiseExcept_reg h
  | tickRestart => exact (withSched_reg h).trans rfl
  | tickOneShot => cases h; rfl
  | device ops =>
    refine Runs.foldlM_invariant (C := fun _ _ => True) (P := fun u => u.reg = s.reg) ?_ rfl
      (Runs.along_of_forall (fun _ _ => trivial) s) h
    intro u op v hu _ hv
    exact (LineOp.exec_reg hv).trans hu

/-- The events that leave register zero: all but moving another value to it. -/
def Event.KeepsGpr0 (cfg : Config) (s : Sim) : Event → Prop
  | .clock => ¬StoresGpr0 cfg s
  | _ => True

/-- **What keeps register zero at zero**, and exactly that. -/
theorem exec_reg_zero_iff (hs : s.reg 0#5 = 0) (e : Event) :
    (∀ t, e.exec cfg s = .ok t → t.reg 0#5 = 0) ↔ e.KeepsGpr0 cfg s := by
  cases e with
  | clock => exact cpuClock_reg_zero_iff hs
  | charge cycles =>
    refine iff_of_true (fun t h => ?_) trivial
    rw [withSched_reg h]
    exact hs
  | job =>
    refine iff_of_true (fun t h => ?_) trivial
    obtain rfl | ⟨tmp, q, -, h⟩ := Event.exec_job_cases h
    · exact hs
    · have hreg : t.reg = { s with sched := q }.reg := Job.exec_reg h
      exact (congrFun hreg 0#5).trans hs
  | line op =>
    refine iff_of_true (fun t h => ?_) trivial
    rwa [LineOp.exec_reg h]
  | queue ops time =>
    refine iff_of_true (fun t h => ?_) trivial
    rwa [schedAdd_reg h]

theorem cpuReset_reg (s : Sim) : (cpuReset s).reg = fun _ => 0 :=
  exceptHandle_reg { s with
    cycles := 0
    reg := fun _ => 0
    pc := if s.srBit srEPH then 0xf0000000 else 0
    pcnext := (if s.srBit srEPH then 0xf0000000 else 0) + 4 } .reset 0

end Cpu
end Or1ksim
