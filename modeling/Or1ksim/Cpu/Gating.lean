import Or1ksim.Cpu.SafeEvents

/-!
# Interrupt gating

What happens between the queueing of an interrupt and its job may take the grounds of the check
away.

* `event_disabled` — only an instruction enables interrupts;
* `interrupt_gated` — **interrupt gating** in every run of safe events;
* `second_interrupt_not_gated` — a second interrupt that is taken behind the first.
-/

namespace Or1ksim
namespace Cpu

open Bits Insn

/-! ### Between two instructions

Nothing but an instruction enables interrupts, so no exception is entered on top of another one
while they are disabled. -/

section Disabled

variable {cfg : Config} {s t : Sim}

theorem exceptHandle_disabled {e : Exception} {ea : Addr} (hs : s.srBit srIEE = false) :
    (exceptHandle s e ea).srBit srIEE = false := by
  unfold exceptHandle
  dsimp only
  split
  · rw [(SameInts.of_quiet (.debugIgnoreException s e)).iee, hs]
  · exact enterException_iee _ e ea

theorem schedAdd_srBit {job : Job} {time : ℤ} {k : ℕ} (h : s.schedAdd job time = .ok t) :
    t.srBit k = s.srBit k := by
  obtain ⟨q, -, rfl⟩ := withSched_eq_ok h
  rfl

theorem setSpr_srBit {r : Regno} (hr : sprSR ≠ r) (v : Word) (k : ℕ) :
    (s.setSpr r v).srBit k = s.srBit k := by
  rw [Sim.srBit, Sim.setSpr_sr_of_ne hr, Sim.srBit]

theorem lineOp_srBit {op : LineOp} (hpic : cfg.picEnabled = true) (k : ℕ)
    (h : op.exec cfg s = .ok t) : t.srBit k = s.srBit k := by
  cases op with
  | report line =>
    simp only [LineOp.exec, reportInterrupt, hpic, Bool.not_true, Bool.false_eq_true,
      if_false] at h
    split_ifs at h
    · cases h
      exact setSpr_srBit (by decide) _ k
    · rw [schedAdd_srBit h, setSpr_srBit (by decide), setSpr_srBit (by decide)]
    · cases h
      rw [setSpr_srBit (by decide), setSpr_srBit (by decide)]
  | clear line =>
    cases h
    exact setSpr_srBit (by decide) _ k

theorem job_disabled {job : Job} (hpic : cfg.picEnabled = true) (hs : s.srBit srIEE = false)
    (h : job.exec cfg s = .ok t) : t.srBit srIEE = false := by
  cases job with
  | schedGuard =>
    obtain ⟨q, -, rfl⟩ := withSched_eq_ok h
    exact hs
  | picRepInt =>
    cases h
    unfold picRepInt
    split
    · exact exceptHandle_disabled hs
    · exact hs
  | tickRaiseExcept =>
    obtain ⟨u, hu, h⟩ := Runs.bind_eq_ok_iff.1 h
    obtain ⟨q, -, rfl⟩ := withSched_eq_ok hu
    cases h
    have hset : (s.setSpr sprTTMR (setBit (s.sprs sprTTMR) ttmrIP)).srBit srIEE = false :=
      (setSpr_srBit (by decide) _ _).trans hs
    split
    · exact exceptHandle_disabled hset
    · exact hset
  | tickRestart =>
    refine (schedAdd_srBit h).trans ?_
    exact (setSpr_srBit (s := s) (r := sprTTCR) (by decide) 0 _).trans hs
  | tickOneShot =>
    cases h
    exact (setSpr_srBit (s := s) (r := sprTTCR) (by decide) (s.sprs sprTTMR &&& ttmrTP) _).trans hs
  | device ops =>
    have hstep : ∀ (s : Sim) (op : LineOp) (t : Sim), s.srBit srIEE = false → True →
        op.exec cfg s = .ok t → t.srBit srIEE = false :=
      fun s op t hs _ h => (lineOp_srBit hpic _ h).trans hs
    exact Runs.foldlM_invariant hstep hs (Runs.along_of_forall (fun _ _ => trivial) s) h

theorem event_disabled {e : Event} (hpic : cfg.picEnabled = true) (he : e ≠ .clock)
    (hs : s.srBit srIEE = false) (h : e.exec cfg s = .ok t) : t.srBit srIEE = false := by
  cases e with
  | clock => exact absurd rfl he
  | charge cycles =>
    obtain ⟨q, -, rfl⟩ := withSched_eq_ok h
    exact hs
  | job =>
    obtain rfl | ⟨tmp, q, -, h⟩ := Event.exec_job_cases h
    · exact hs
    · exact job_disabled (s := { s with sched := q }) hpic hs h
  | line op => exact (lineOp_srBit hpic _ h).trans hs
  | queue ops time => exact (schedAdd_srBit h).trans hs

end Disabled

/-! ### Gating -/

/-- The next round of the scheduler runs `pic_rep_int` and that enters the exception. -/
def TakesInterrupt (s : Sim) : Prop :=
  ∃ tmp q, Sched.headDue s.sched = true ∧ Sched.popJob s.sched = some (tmp, q) ∧
    tmp.func = .picRepInt ∧ s.sprs sprPICSR ≠ 0 ∧ intercepted s .int = false

/-- **Interrupt gating.**  In every run of safe events from a reset, `pic_rep_int` enters the
exception only while interrupts are enabled and an interrupt that is not masked is pending; and
interrupts have been enabled ever since the last instruction, so no exception entered since then
is lost. -/
theorem interrupt_gated {cfg : Config} (hpic : cfg.picEnabled = true) {upr sr : Word} {mem : Memory}
    {s₁ s : Sim} {es : List Event} (hreset : simReset cfg (powerOn upr sr mem) = .ok s₁)
    (hsafe : Runs.Along (Event.exec cfg) (Event.Safe cfg) s₁ es) (hrun : exec cfg s₁ es = .ok s)
    (htake : TakesInterrupt s) :
    Deliverable s ∧ ∀ es₁ es₂ u, es = es₁ ++ es₂ → exec cfg s₁ es₁ = .ok u → .clock ∉ es₂ →
      u.srBit srIEE = true := by
  obtain ⟨s₁', hreset', hs₁⟩ := simReset_powerOn cfg upr sr mem
  cases hreset.symm.trans hreset'
  have harmed₁ : Armed s₁ := by
    intro hqueued
    rw [PicQueued, hs₁.sched] at hqueued
    exact absurd (List.mem_singleton.1 hqueued) (by decide)
  have harmed : Armed s :=
    Runs.foldlM_invariant (fun s e t hs hsafe h => event_armed hpic hs hsafe h) harmed₁ hsafe hrun
  obtain ⟨tmp, q, -, hpop, hfunc, hpending, -⟩ := htake
  have hqueued : PicQueued s := by
    rw [PicQueued, Sched.funcs_popJob hpop, hfunc]
    exact .head _
  have hdel : Deliverable s := (harmed hqueued).resolve_left hpending
  refine ⟨hdel, fun es₁ es₂ u hes hu hclock => ?_⟩
  by_contra hoff
  rw [Bool.not_eq_true] at hoff
  subst hes
  obtain ⟨u', hu', hrest⟩ := Runs.foldlM_append_eq_ok_iff.1 hrun
  cases hu.symm.trans hu'
  have hs := Runs.foldlM_invariant (C := fun _ e => e ≠ .clock)
    (fun s e t hs he h => event_disabled hpic he hs h) hoff
    (Runs.along_of_forall (C := (· ≠ Event.clock)) (fun e he h => hclock (h ▸ he)) u) hrest
  rw [hdel.1] at hs
  cases hs

/-! ### Two interrupts at once -/

/-- `l.rfe` at the reset vector, which restores the configured supervision register. -/
def returnAtReset : Memory := (Memory.flat fun _ => 0).setProgram32 0x100 0x24000000

/-- What matters in the runs below. -/
structure Waiting (picsr : Word) (q : Sched.State Job Unit) (s : Sim) : Prop where
  sr : s.sr = 0x8005
  picmr : s.sprs sprPICMR = 3
  picsr : s.sprs sprPICSR = picsr
  dsr : s.sprs sprDSR = 0
  pc : s.pc = 0
  delayInsn : s.delayInsn = false
  sched : s.sched = q

/-- With a supervision register that enables interrupts, the first instruction enables them. -/
theorem returnAtReset_first (cfg : Config) (hnmi : cfg.useNmi = true) :
    ∃ s₁ s, simReset cfg (powerOn 0x601 0x8005 returnAtReset) = .ok s₁ ∧
      s₁.sched = resetSched ∧ s₁.sprs sprDSR = 0 ∧ cpuClock cfg s₁ = .ok s ∧
      Waiting 0 resetSched s := by
  obtain ⟨s₁, hreset, hs₁⟩ := simReset_powerOn cfg 0x601 0x8005 returnAtReset
  have hpicmr : s₁.sprs sprPICMR = 3 := hs₁.picmr.trans (if_pos hnmi)
  have hclock := cpuClock_rfe cfg (s := s₁) (by rw [Sim.srBit, hs₁.sr]; decide)
    (by rw [hs₁.mem, hs₁.pc]; decide)
  have hmasked : s₁.sprs sprPICMR &&& s₁.sprs sprPICSR = 0 := by
    rw [hs₁.picsr]
    exact BitVec.and_zero
  rw [mtspr_sr_of_masked] at hclock
  swap
  · exact hmasked
  rw [hs₁.esr, hs₁.epcr] at hclock
  have hsprs : ∀ r, r ≠ sprPPC → r ≠ sprSR → ∀ s : Sim,
      (updatePc (s.setSpr sprSR (setBit 0x8005 srFO))).sprs r = s.sprs r :=
    fun r hppc hsr s => (updatePc_sprs _ hppc).trans (Sim.setSpr_sprs_of_ne hsr)
  refine ⟨s₁, _, hreset, hs₁.sched, hs₁.dsr, hclock, ?_⟩
  constructor
  case sr => exact (updatePc_sr _).trans Sim.setSpr_sr
  case picmr => exact (hsprs _ (by decide) (by decide) _).trans hpicmr
  case picsr => exact (hsprs _ (by decide) (by decide) _).trans hs₁.picsr
  case dsr => exact (hsprs _ (by decide) (by decide) _).trans hs₁.dsr
  case pc => rfl
  case delayInsn => rfl
  case sched => exact hs₁.sched

theorem Waiting.report (cfg : Config) (hpic : cfg.picEnabled = true) {picsr : Word}
    {q q' : Sched.State Job Unit} {s : Sim} (hs : Waiting picsr q s) (line : Fin 32)
    (hnew : picsr &&& BitVec.twoPow 32 line = 0)
    (hmask : 3 &&& BitVec.twoPow 32 line ≠ 0)
    (hq : Sched.schedAdd q .picRepInt () 0 = some q') :
    ∃ t, (LineOp.report line).exec cfg s = .ok t ∧
      Waiting (picsr ||| BitVec.twoPow 32 line) q' t := by
  have hiee : s.srBit srIEE = true := by rw [Sim.srBit, hs.sr]; decide
  have hexec : (LineOp.report line).exec cfg s =
      ((s.setSpr sprPMR (s.sprs sprPMR &&& ~~~0x30#32)).setSpr sprPICSR
        (s.sprs sprPICSR ||| BitVec.twoPow 32 line)).schedAdd .picRepInt 0 := by
    simp only [LineOp.exec, reportInterrupt, hpic, Bool.not_true, Bool.false_eq_true, if_false]
    rw [Sim.setSpr_sprs_of_ne (by decide), if_neg (by rw [hs.picsr]; exact not_not.2 hnew), if_pos]
    rw [Sim.setSpr_sprs_of_ne (by decide), Sim.setSpr_sprs_of_ne (by decide), hs.picmr,
      setSpr_srBit (by decide), setSpr_srBit (by decide)]
    exact ⟨hmask, hiee⟩
  obtain ⟨u, hu⟩ : ∃ u, u = (s.setSpr sprPMR (s.sprs sprPMR &&& ~~~0x30#32)).setSpr sprPICSR
      (s.sprs sprPICSR ||| BitVec.twoPow 32 line) := ⟨_, rfl⟩
  have hsprs : ∀ r, r ≠ sprPMR → r ≠ sprPICSR → u.sprs r = s.sprs r := by
    intro r hpmr hpicsr
    rw [hu, Sim.setSpr_sprs_of_ne hpicsr, Sim.setSpr_sprs_of_ne hpmr]
  have hpicsr : u.sprs sprPICSR = picsr ||| BitVec.twoPow 32 line := by
    rw [hu, Sim.setSpr_sprs_self, hs.picsr]
  have hsched : u.sched = q := by rw [hu, Sim.setSpr_sched, Sim.setSpr_sched, hs.sched]
  rw [hexec, ← hu, Sim.schedAdd, hsched, hq]
  refine ⟨_, rfl, ?_⟩
  constructor
  case sr => exact (hsprs _ (by decide) (by decide)).trans hs.sr
  case picmr => exact (hsprs _ (by decide) (by decide)).trans hs.picmr
  case picsr => exact hpicsr
  case dsr => exact (hsprs _ (by decide) (by decide)).trans hs.dsr
  case pc => rw [hu]; exact hs.pc
  case delayInsn => rw [hu]; exact hs.delayInsn
  case sched => rfl

theorem resetSched_one : ∃ q tmp q', Sched.schedAdd resetSched .picRepInt () 0 = some q ∧
    Sched.headDue q = true ∧ Sched.popJob q = some (tmp, q') ∧ tmp.func = .picRepInt :=
  ⟨_, _, _, rfl, rfl, rfl, rfl⟩

/-- Two interrupts are queued, which the next two rounds take. -/
theorem resetSched_two : ∃ q₁ q₂ tmp₁ tmp₂ q₃ q₄,
    Sched.schedAdd resetSched .picRepInt () 0 = some q₁ ∧
    Sched.schedAdd q₁ .picRepInt () 0 = some q₂ ∧
    Sched.headDue q₂ = true ∧ Sched.popJob q₂ = some (tmp₁, q₃) ∧ tmp₁.func = .picRepInt ∧
    Sched.headDue q₃ = true ∧ Sched.popJob q₃ = some (tmp₂, q₄) ∧ tmp₂.func = .picRepInt :=
  ⟨_, _, _, _, _, _, rfl, rfl, rfl, rfl, rfl, rfl, rfl, rfl⟩

theorem job_exec_of_takes {cfg : Config} {s : Sim} {tmp : Sched.Entry Job Unit}
    {q : Sched.State Job Unit} (hdue : Sched.headDue s.sched = true)
    (hpop : Sched.popJob s.sched = some (tmp, q)) (hfunc : tmp.func = .picRepInt)
    (hpending : s.sprs sprPICSR ≠ 0) (hdsr : s.sprs sprDSR = 0) :
    ∃ t, Event.job.exec cfg s = .ok t ∧ t.sr = entrySr s.sr ∧
      t.sprs sprEPCR = s.pc - (if s.delayInsn then 4 else 0) ∧ t.pc = exceptVector s.sr .int ∧
      t.delayInsn = false ∧ t.sprs sprPICSR = s.sprs sprPICSR ∧ t.sprs sprDSR = 0 ∧
      t.sched = q := by
  have hint : intercepted { s with sched := q } .int = false := by
    rw [intercepted, hdsr]
    exact BitVec.getLsbD_zero
  obtain ⟨u, hu⟩ : ∃ u, u = debugIgnoreException { s with sched := q } .int := ⟨_, rfl⟩
  have hquiet : Quiet { s with sched := q } u := hu ▸ .debugIgnoreException _ _
  have hexec : Event.job.exec cfg s = .ok (enterException u .int (s.sprs sprEEAR)) := by
    simp only [Event.exec, hdue, if_true, runJob, hpop, hfunc, Job.exec, picRepInt]
    rw [if_pos hpending, exceptHandle, hint, ← hu]
    rfl
  refine ⟨_, hexec, ?_, ?_, ?_, ?_, ?_, ?_, ?_⟩
  · rw [enterException_sr, hquiet.sr]
    rfl
  · rw [enterException_epcr u .int _ rfl, hquiet.pc, hquiet.delayInsn]
  · rw [enterException_pc u (.inr rfl), hquiet.sr]
    rfl
  · rfl
  · rw [enterException_sprs _ _ _ (by decide) (by decide) (by decide) (by decide)]
    exact hquiet.sprs _ (by decide)
  · rw [enterException_sprs _ _ _ (by decide) (by decide) (by decide) (by decide)]
    exact (hquiet.sprs _ (by decide)).trans hdsr
  · rw [enterException_sched, hquiet.sched]

/-- The first of the two disables interrupts; the second is taken all the same, and the return
address of the first is lost. -/
theorem second_interrupt_not_gated :
    ∃ s₁ s t, simReset defaultConfig (powerOn 0x601 0x8005 returnAtReset) = .ok s₁ ∧
      exec defaultConfig s₁ [.clock, .line (.report 0), .line (.report 1), .job] = .ok s ∧
      TakesInterrupt s ∧ ¬Deliverable s ∧ s.sprs sprEPCR = 0 ∧
      Event.job.exec defaultConfig s = .ok t ∧ t.sprs sprEPCR = 0x800 := by
  obtain ⟨s₁, s₂, hreset, -, -, hclock, hs₂⟩ := returnAtReset_first defaultConfig rfl
  obtain ⟨q₁, q₂, tmp₁, tmp₂, q₃, q₄, hq₁, hq₂, hdue₂, hpop₂, hfunc₁, hdue₃, hpop₃, hfunc₂⟩ :=
    resetSched_two
  obtain ⟨s₃, hreport₀, hs₃⟩ := Waiting.report defaultConfig rfl hs₂ 0 (by decide) (by decide) hq₁
  obtain ⟨s₄, hreport₁, hs₄⟩ := Waiting.report defaultConfig rfl hs₃ 1 (by decide) (by decide) hq₂
  obtain ⟨s₅, hjob, hsr, hepcr, hpc, hdelay, hpicsr, hdsr, hsched⟩ :=
    job_exec_of_takes (by rw [hs₄.sched]; exact hdue₂) (by rw [hs₄.sched]; exact hpop₂) hfunc₁
      (by rw [hs₄.picsr]; decide) hs₄.dsr
  have hpicsr₅ : s₅.sprs sprPICSR ≠ 0 := by rw [hpicsr, hs₄.picsr]; decide
  obtain ⟨t, hjob', -, hepcr', -⟩ :=
    job_exec_of_takes (by rw [hsched]; exact hdue₃) (by rw [hsched]; exact hpop₃) hfunc₂
      hpicsr₅ hdsr
  refine ⟨s₁, s₅, t, hreset, ?_, ⟨tmp₂, q₄, ?_, ?_, hfunc₂, hpicsr₅, ?_⟩, ?_, ?_, hjob', ?_⟩
  · refine Runs.foldlM_cons_eq_ok_iff.2 ⟨s₂, hclock, ?_⟩
    refine Runs.foldlM_cons_eq_ok_iff.2 ⟨s₃, hreport₀, ?_⟩
    refine Runs.foldlM_cons_eq_ok_iff.2 ⟨s₄, hreport₁, ?_⟩
    exact Runs.foldlM_cons_eq_ok_iff.2 ⟨s₅, hjob, rfl⟩
  · rw [hsched]; exact hdue₃
  · rw [hsched]; exact hpop₃
  · rw [intercepted, hdsr]
    exact BitVec.getLsbD_zero
  · rintro ⟨hiee, -⟩
    rw [Sim.srBit, hsr, hs₄.sr] at hiee
    revert hiee
    decide
  · rw [hepcr, hs₄.pc, hs₄.delayInsn]
    decide
  · rw [hepcr', hpc, hdelay, hs₄.sr]
    decide

/-- One interrupt is taken in its right. -/
theorem interrupt_gated_first :
    ∃ s₁ s, simReset defaultConfig (powerOn 0x601 0x8005 returnAtReset) = .ok s₁ ∧
      exec defaultConfig s₁ [.clock, .line (.report 0)] = .ok s ∧ TakesInterrupt s ∧
      Deliverable s := by
  obtain ⟨s₁, s₂, hreset, hsched₁, -, hclock, hs₂⟩ :=
    returnAtReset_first defaultConfig rfl
  obtain ⟨q, tmp, q', hq, hdue, hpop, hfunc⟩ := resetSched_one
  obtain ⟨s₃, hreport, hs₃⟩ := Waiting.report defaultConfig rfl hs₂ 0 (by decide) (by decide) hq
  have hrun : exec defaultConfig s₁ [.clock, .line (.report 0)] = .ok s₃ :=
    Runs.foldlM_cons_eq_ok_iff.2 ⟨s₂, hclock, Runs.foldlM_cons_eq_ok_iff.2 ⟨s₃, hreport, rfl⟩⟩
  have htake : TakesInterrupt s₃ := by
    refine ⟨tmp, q', ?_, ?_, hfunc, ?_, ?_⟩
    · rw [hs₃.sched]; exact hdue
    · rw [hs₃.sched]; exact hpop
    · rw [hs₃.picsr]; decide
    · rw [intercepted, hs₃.dsr]
      exact BitVec.getLsbD_zero
  have hempty : ∀ s : Sim, s.sched = resetSched → ¬PicQueued s := by
    intro s hs hqueued
    rw [PicQueued, hs] at hqueued
    exact absurd (List.mem_singleton.1 hqueued) (by decide)
  have hsafe : Runs.Along (Event.exec defaultConfig) (Event.Safe defaultConfig) s₁
      [.clock, .line (.report 0)] := by
    refine ⟨fun hqueued => absurd hqueued (hempty s₁ hsched₁), fun u hu => ⟨?_, fun _ _ => trivial⟩⟩
    cases hclock.symm.trans hu
    exact fun hqueued => absurd hqueued (hempty s₂ hs₂.sched)
  exact ⟨s₁, s₃, hreset, hrun, htake, (interrupt_gated rfl hreset hsafe hrun htake).1⟩

end Cpu
end Or1ksim
