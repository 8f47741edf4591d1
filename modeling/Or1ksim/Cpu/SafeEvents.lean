import Or1ksim.Cpu.Armed

/-!
# Events that leave queued interrupts their grounds

* `Event.Safe` — an event takes no queued interrupt's grounds away;
* `cpuClock_armed`, `lineOp_armed`, `job_armed` — instructions, lines and jobs;
* `event_armed` — **queued interrupts stay deliverable over a safe event**.
-/

namespace Or1ksim
namespace Cpu

open Bits Insn

/-! ### Instructions -/

/-- An effect that leaves a queued interrupt its grounds. -/
def Effect.Keeps (cfg : Config) (s : Sim) : Effect → Prop
  | .arith _ _ range => s.sprs sprPICSR = 0 ∨ range = false ∨ intercepted s .range = true
  | .load n _ a => s.sprs sprPICSR = 0 ∨ (evalMem cfg s a n).2.exceptPending = false
  | .store n a v => s.sprs sprPICSR = 0 ∨ (setMem cfg s a v n).exceptPending = false
  | .raise e | .raiseEear e => s.sprs sprPICSR = 0 ∨ intercepted s e = true
  | .mtspr regno value => MtsprKeeps cfg s regno value
  | .rfe => s.sprs sprPICSR = 0 ∨ (s.sprs sprESR).getLsbD srIEE = true
  | _ => True

section Instructions

variable {cfg : Config} {s t : Sim}

theorem setParam0_sameInts (s : Sim) (d : BitVec 5) (v : Option Word) :
    SameInts s (setParam0 s d v) := by
  cases v <;> exact .of_sprs rfl rfl

theorem nopService_sameInts {k : Word} (h : nopService cfg s k = .ok t) : SameInts s t := by
  unfold nopService at h
  split_ifs at h <;> cases h <;> exact .of_sprs rfl rfl

theorem arith_sameInts {d : BitVec 5} {v : View} {w : Option Word} {sr : Word} (hv : v.sr = s.sr)
    (hsr : SameButCarries v.sr sr) : SameInts s ((setParam0 s d w).setSpr sprSR sr) := by
  refine (setParam0_sameInts s d w).trans (.setSr ?_)
  rw [hsr srIEE (by decide) (by decide), hv, Sim.srBit, Sim.sr, Sim.sr, setParam0_sprs]

theorem flag_sameInts (s : Sim) (f : Bool) :
    SameInts s (s.setSpr sprSR (assignBit s.sr srF f)) := by
  refine .setSr ?_
  rw [getLsbD_assignBit, if_neg (by decide), Sim.srBit]

theorem mac_sameInts (s : Sim) (d : BitVec 5) (w : Option Word) (hi lo : Word) :
    SameInts s (((setParam0 s d w).setSpr sprMACLO lo).setSpr sprMACHI hi) := by
  refine (setParam0_sameInts s d w).trans ?_
  exact SameInts.trans (.setSpr (r := sprMACLO) (by decide) (by decide) (by decide) _)
    (.setSpr (r := sprMACHI) (by decide) (by decide) (by decide) _)

theorem fpcsr_sameInts (s : Sim) (w : Word) : SameInts s (s.setSpr sprFPCSR w) :=
  .setSpr (by decide) (by decide) (by decide) w

theorem apply_armed {d : BitVec 5} {eff : Effect} {v : View} (hv : v.sr = s.sr)
    (hsafe : eff = .rfe ∨ eff.UserSafe v) (hs : Armed s) (hk : PicQueued s → eff.Keeps cfg s)
    (h : eff.apply cfg d s = .ok t) : Armed t := by
  cases eff with
  | skip => cases h; exact hs
  | set w => cases h; exact hs
  | arith w sr range =>
    have hsame : SameInts s ((setParam0 s d w).setSpr sprSR sr) :=
      arith_sameInts hv (hsafe.resolve_left nofun)
    cases range with
    | true =>
      cases h
      refine exceptHandle_armed (hsame.armed hs) fun hqueued => ?_
      rw [hsame.picsr]
      refine (hk (hsame.queued hqueued)).imp_right fun hint => ?_
      have := hint.resolve_left nofun
      rwa [intercepted, Sim.setSpr_sprs_of_ne (by decide), setParam0_sprs]
    | false => cases h; exact hsame.armed hs
  | flag f => cases h; exact (flag_sameInts s f).armed hs
  | load n extend a =>
    have hmem := (evalMem_outcome cfg s a n).armed hs hk
    simp only [Effect.apply, Except.ok.injEq] at h
    subst h
    split
    · exact hmem
    · exact (SameInts.of_sprs rfl rfl).armed hmem
  | store n a w => cases h; exact (setMem_outcome cfg s a w n).armed hs hk
  | jump target link =>
    cases h
    cases link <;> exact (SameInts.of_sprs rfl rfl).armed hs
  | raise e => cases h; exact exceptHandle_armed hs hk
  | raiseEear e => cases h; exact exceptHandle_armed hs hk
  | mac w hi lo => cases h; exact (mac_sameInts s d w hi lo).armed hs
  | mtspr regno value => exact mtspr_armed hs hk h
  | mfspr regno => cases h; exact (SameInts.of_sprs rfl rfl).armed hs
  | rfe =>
    have hs' : Armed { s with pcnext := s.sprs sprEPCR } := (SameInts.of_sprs rfl rfl).armed hs
    exact @mtspr_sr_armed cfg _ _ _ hs' hk h
  | nop k => exact (nopService_sameInts h).armed hs
  | float w flags =>
    cases h
    exact (SameInts.trans (q := s.setReg d w) (.of_sprs rfl rfl) (fpcsr_sameInts _ _)).armed hs
  | floatFlag f flags =>
    cases h
    exact ((flag_sameInts s f).trans (fpcsr_sameInts _ _)).armed hs
  | done => cases h

/-- The next instruction leaves a queued interrupt its grounds. -/
def ClockKeeps (cfg : Config) (s : Sim) : Prop :=
  if (fetch cfg s).2.exceptPending then s.sprs sprPICSR = 0
  else
    match decodeInsn cfg.haveUnsignedXori (fetch cfg s).1 with
    | some o => (insnEffect cfg (fetch cfg s).2 o (fetch cfg s).1).Keeps cfg (fetch cfg s).2
    | none =>
      raisesIllegal cfg (fetch cfg s).1 = true →
        s.sprs sprPICSR = 0 ∨ intercepted (fetch cfg s).2 .illegal = true

theorem updatePc_sameInts : SameInts s (updatePc s) :=
  .of_agree (fun _ hr => updatePc_sprs s fun he => absurd (he ▸ hr) (by decide)) rfl

theorem executeOpcode_armed {o : Opcode} {insn : Word} (hs : Armed s)
    (hk : PicQueued s → (insnEffect cfg s o insn).Keeps cfg s)
    (h : executeOpcode cfg s o insn = .ok t) : Armed t := by
  obtain ⟨t', happly, rfl⟩ := Runs.map_eq_ok_iff.1 h
  have ht' := apply_armed rfl (insnEffect_userSafe cfg s o insn) hs hk happly
  split
  · exact (SameInts.of_sprs rfl rfl).armed ht'
  · exact ht'

theorem cpuClock_armed (hs : Armed s) (hk : PicQueued s → ClockKeeps cfg s)
    (h : cpuClock cfg s = .ok t) : Armed t := by
  have hout := fetch_outcome cfg s
  unfold ClockKeeps at hk
  unfold cpuClock at h
  generalize fetch cfg s = f at h hout hk
  obtain ⟨insn, q⟩ := f
  dsimp only at h hout hk
  have hsame : SameInts s { s with exceptPending := false, nextDelayInsn := false } :=
    .of_sprs rfl rfl
  have hq : Armed q := by
    refine hout.armed (hsame.armed hs) fun hqueued => ?_
    cases hpending : q.exceptPending with
    | false => exact .inr rfl
    | true =>
      have hk := hk hqueued
      rw [if_pos hpending] at hk
      exact .inl hk
  split at h
  case isTrue =>
    cases h
    exact (updatePc_sameInts.trans (.of_sprs rfl rfl)).armed hq
  case isFalse hpending =>
    obtain ⟨t', hexec, rfl⟩ := Runs.map_eq_ok_iff.1 h
    refine updatePc_sameInts.armed ?_
    have hquiet : Quiet { s with exceptPending := false, nextDelayInsn := false } q := by
      cases hout with
      | quiet h => exact h
      | entered q' e ea _ _ ht => exact absurd (ht ▸ enterException_exceptPending q' e ea) hpending
    have hqsame := hsame.trans (.of_quiet hquiet)
    simp only [if_neg hpending] at hk
    cases hdec : decodeInsn cfg.haveUnsignedXori insn with
    | some o =>
      simp only [hdec] at hk
      rw [decodeExecute_of_some hdec] at hexec
      exact executeOpcode_armed hq (fun hqueued => hk (hqsame.queued hqueued)) hexec
    | none =>
      simp only [hdec] at hk
      rcases decodeExecute_of_none q hdec with ⟨hraises, h⟩ | h | h <;> rw [h] at hexec <;>
        cases hexec
      · refine exceptHandle_armed hq fun hqueued => ?_
        rw [hqsame.picsr]
        exact hk (hqsame.queued hqueued) hraises
      · exact hq
      · exact (SameInts.of_sprs rfl rfl).armed hq

end Instructions

/-! ### Events -/

/-- A peripheral's request that leaves a queued interrupt its grounds: a line asserted while none
is pending is deliverable, a line cleared leaves one that is not masked or none. -/
def LineOp.Safe (s : Sim) : LineOp → Prop
  | .report line => PicQueued s → s.sprs sprPICSR = 0 →
      s.srBit srIEE = true ∧ s.sprs sprPICMR &&& BitVec.twoPow 32 line ≠ 0
  | .clear line => PicQueued s →
      let picsr := s.sprs sprPICSR &&& ~~~BitVec.twoPow 32 line
      picsr = 0 ∨ s.sprs sprPICMR &&& picsr ≠ 0

/-- A job that leaves the interrupts queued behind it their grounds: it enters no exception. -/
def Job.Safe (cfg : Config) (s : Sim) : Job → Prop
  | .picRepInt => PicQueued s → s.sprs sprPICSR = 0 ∨ intercepted s .int = true
  | .tickRaiseExcept => PicQueued s →
      s.sprs sprPICSR = 0 ∨ s.srBit srTEE = false ∨ intercepted s .tick = true
  | .device ops => Runs.Along (LineOp.exec cfg) LineOp.Safe s ops
  | _ => True

/-- An event that takes no queued interrupt's grounds away. -/
def Event.Safe (cfg : Config) (s : Sim) : Event → Prop
  | .clock => PicQueued s → ClockKeeps cfg s
  | .job => ∀ tmp q, Sched.popJob s.sched = some (tmp, q) → tmp.func.Safe cfg { s with sched := q }
  | .line op => op.Safe s
  | _ => True

section Events

variable {cfg : Config} {s t : Sim}

theorem reportInterrupt_armed {line : Fin 32} (hpic : cfg.picEnabled = true) (hs : Armed s)
    (hsafe : (LineOp.report line).Safe s) (h : reportInterrupt cfg s line = .ok t) : Armed t := by
  have hpmr : ∀ v, SameInts s (s.setSpr sprPMR v) := fun v =>
    .setSpr (by decide) (by decide) (by decide) v
  unfold reportInterrupt at h
  simp only [hpic, Bool.not_true, Bool.false_eq_true, if_false] at h
  generalize hu : s.setSpr sprPMR (s.sprs sprPMR &&& ~~~0x30#32) = u at h
  have hsame : SameInts s u := hu ▸ hpmr _
  split at h
  · cases h
    exact hsame.armed hs
  · have hset : Armed (u.setSpr sprPICSR (u.sprs sprPICSR ||| BitVec.twoPow 32 line)) := by
      intro hqueued
      have hq : PicQueued s := hsame.queued hqueued
      refine .inr ?_
      rw [Deliverable, Sim.srBit, Sim.setSpr_sr_of_ne (by decide), ← Sim.srBit,
        Sim.setSpr_sprs_of_ne (by decide), Sim.setSpr_sprs_self, hsame.iee, hsame.picmr,
        hsame.picsr]
      rcases hs hq with hzero | hdel
      · obtain ⟨hiee, hmask⟩ := hsafe hq hzero
        exact ⟨hiee, and_or_ne_zero_right _ hmask⟩
      · exact ⟨hdel.1, and_or_ne_zero_left hdel.2 _⟩
    split at h
    case isTrue hon =>
      have hdel : Deliverable (u.setSpr sprPICSR (u.sprs sprPICSR ||| BitVec.twoPow 32 line)) := by
        have hmask := hon.1
        refine ⟨hon.2, ?_⟩
        rw [Sim.setSpr_sprs_of_ne (by decide)] at hmask ⊢
        rw [Sim.setSpr_sprs_self]
        exact and_or_ne_zero_right _ hmask
      obtain ⟨q, -, rfl⟩ := withSched_eq_ok h
      exact fun _ => .inr hdel
    case isFalse =>
      cases h
      exact hset

theorem clearInterrupt_armed {line : Fin 32} (hs : Armed s) (hsafe : (LineOp.clear line).Safe s) :
    Armed (clearInterrupt s line) := by
  intro hqueued
  rw [clearInterrupt, Deliverable, Sim.srBit, Sim.setSpr_sr_of_ne (by decide), Sim.setSpr_sprs_self,
    Sim.setSpr_sprs_of_ne (by decide)]
  rcases hs hqueued with hzero | hdel
  · left
    rw [hzero]
    exact BitVec.zero_and
  · exact (hsafe hqueued).imp_right fun hmask => ⟨hdel.1, hmask⟩

theorem lineOp_armed {op : LineOp} (hpic : cfg.picEnabled = true) (hs : Armed s)
    (hsafe : op.Safe s) (h : op.exec cfg s = .ok t) : Armed t := by
  cases op with
  | report line => exact reportInterrupt_armed hpic hs hsafe h
  | clear line =>
    cases h
    exact clearInterrupt_armed hs hsafe

theorem tickRaiseExcept_armed (hs : Armed s) (hsafe : Job.tickRaiseExcept.Safe cfg s)
    (h : tickRaiseExcept s = .ok t) : Armed t := by
  obtain ⟨u, hu, h⟩ := Runs.bind_eq_ok_iff.1 h
  have hsame : SameInts s u := (SameInts.setSpr (by decide) (by decide) (by decide) _).trans
    (schedNextInsn_sameInts (by decide) hu)
  have hsprs : ∀ r, r ≠ sprTTMR → u.sprs r = s.sprs r := by
    obtain ⟨q, -, rfl⟩ := withSched_eq_ok hu
    exact fun r hr => Sim.setSpr_sprs_of_ne hr
  cases h
  split
  case isTrue htee =>
    refine exceptHandle_armed (hsame.armed hs) fun hqueued => ?_
    rw [Sim.srBit, Sim.sr, hsprs _ (by decide), ← Sim.sr, ← Sim.srBit] at htee
    rw [hsame.picsr, intercepted, hsprs _ (by decide), ← intercepted]
    refine (hsafe (hsame.queued hqueued)).imp_right fun hno => hno.resolve_left ?_
    rw [htee]
    exact Bool.noConfusion
  case isFalse => exact hsame.armed hs

theorem job_armed {job : Job} (hpic : cfg.picEnabled = true) (hs : Armed s)
    (hsafe : job.Safe cfg s) (h : job.exec cfg s = .ok t) : Armed t := by
  cases job with
  | schedGuard =>
    obtain ⟨q, hq, rfl⟩ := withSched_eq_ok h
    exact (withSched_sameInts (Sched.keepsJob_schedGuard (by decide) hq)).armed hs
  | picRepInt =>
    cases h
    unfold picRepInt
    split
    · exact exceptHandle_armed hs hsafe
    · exact hs
  | tickRaiseExcept => exact tickRaiseExcept_armed hs hsafe h
  | tickRestart =>
    refine SameInts.armed ?_ hs
    refine SameInts.trans ?_ (schedAdd_sameInts (by decide) h)
    exact (SameInts.setSpr (r := sprTTCR) (by decide) (by decide) (by decide) 0).trans
      (.of_sprs rfl rfl)
  | tickOneShot =>
    cases h
    refine SameInts.armed ?_ hs
    exact (SameInts.setSpr (r := sprTTCR) (by decide) (by decide) (by decide) _).trans
      (.of_sprs rfl rfl)
  | device ops =>
    exact Runs.foldlM_invariant (fun s op t hs hsafe h => lineOp_armed hpic hs hsafe h) hs hsafe h

theorem event_armed {e : Event} (hpic : cfg.picEnabled = true) (hs : Armed s) (hsafe : e.Safe cfg s)
    (h : e.exec cfg s = .ok t) : Armed t := by
  cases e with
  | clock => exact cpuClock_armed hs hsafe h
  | charge cycles =>
    obtain ⟨q, hq, rfl⟩ := withSched_eq_ok h
    have hsame : SameInts s { s with cycles := s.cycles + BitVec.ofNat 64 cycles, sched := q } :=
      ⟨rfl, rfl, rfl, Sched.keepsJob_charge (Int.natCast_nonneg cycles) hq⟩
    exact hsame.armed hs
  | job =>
    obtain rfl | ⟨tmp, q, hpop, h⟩ := Event.exec_job_cases h
    · exact hs
    · have hpopped : Armed { s with sched := q } := by
        refine fun hqueued => hs ?_
        rw [PicQueued, Sched.funcs_popJob hpop]
        exact .tail _ hqueued
      exact job_armed hpic hpopped (hsafe tmp q hpop) h
  | line op => exact lineOp_armed hpic hs hsafe h
  | queue ops time =>
    have hjob : Job.picRepInt ≠ .device ops := by
      intro h
      cases h
    exact (schedAdd_sameInts hjob h).armed hs

end Events

end Cpu
end Or1ksim
