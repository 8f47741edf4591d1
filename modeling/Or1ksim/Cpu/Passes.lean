import Or1ksim.Cpu.Delivery
import Or1ksim.Cpu.TickMatch

/-!
# Calls of the scheduler

How many jobs a call of `do_scheduler` runs, when some jobs queue themselves again.

* `afterJobs` — the rounds of a call; `PassOk` — there are finitely many of them;
* `JobQueues` — **what a job does to the queue**: nothing, or it queues itself, or interrupts;
* `jobWeight` — what a round takes off the work that is due;
* `passOk_iff` — a call ends unless the timer restarts itself with a period of zero;
* `Spinning` — the queue of a timer that does.
-/

namespace Or1ksim
namespace Cpu

open Bits

/-! ### The rounds of a call -/

/-- One round of `do_scheduler`, if the head of the queue is due. -/
def schedulerRound (cfg : Config) (s : Sim) : Option Sim :=
  if Sched.headDue s.sched then (runJob cfg s).toOption else none

/-- The period of the timer. -/
def tickPeriod (s : Sim) : Word := s.sprs sprTTMR &&& ttmrTP

/-! ### What a job does to the queue -/

/-- What a job does to the queue. -/
inductive JobQueues (s : Sim) (job : Job) (q : Sched.State Job Unit) : Prop where
  | nothing (hjob : job ≠ .tickRestart) (h : q = s.sched)
  /-- Only the restart of the timer may be due at once. -/
  | itself (time : ℤ) (ht : 0 ≤ time)
    (hzero : time = 0 ↔ job = .tickRestart ∧ tickPeriod s = 0)
    (h : Sched.schedAdd s.sched job () time = some q)
  | requests (ops : List LineOp) (n : ℕ) (hjob : job = .device ops) (hn : n ≤ ops.length)
    (h : Sched.execOps s.sched (List.replicate n (.add .picRepInt () 0)) = some q)

section Job

variable {cfg : Config} {s t : Sim} {job : Job}

theorem exceptHandle_sched (s : Sim) (e : Exception) (ea : Addr) :
    (exceptHandle s e ea).sched = s.sched := by
  unfold exceptHandle
  dsimp only
  split
  · exact (Quiet.debugIgnoreException s e).sched
  · rw [enterException_sched]
    exact (Quiet.debugIgnoreException s e).sched

theorem lineOp_queues {op : LineOp} (h : op.exec cfg s = .ok t) :
    t.sched = s.sched ∨ Sched.schedAdd s.sched .picRepInt () 0 = some t.sched := by
  cases op with
  | report line =>
    unfold LineOp.exec reportInterrupt at h
    dsimp only at h
    split at h
    · cases h
      refine .inl ?_
      split
      · exact exceptHandle_sched _ _ _
      · rfl
    · split at h
      · cases h
        exact .inl rfl
      · split at h
        · obtain ⟨q, hq, rfl⟩ := withSched_eq_ok h
          exact .inr hq
        · cases h
          exact .inl rfl
  | clear line =>
    cases h
    exact .inl rfl

theorem device_queues {ops : List LineOp} (h : ops.foldlM (LineOp.exec cfg) s = .ok t) :
    ∃ n ≤ ops.length,
      Sched.execOps s.sched (List.replicate n (.add .picRepInt () 0)) = some t.sched := by
  induction ops generalizing s with
  | nil =>
    cases h
    exact ⟨0, le_rfl, rfl⟩
  | cons op ops ih =>
    obtain ⟨u, hu, h⟩ := Runs.foldlM_cons_eq_ok_iff.1 h
    obtain ⟨n, hn, hops⟩ := ih h
    rcases lineOp_queues hu with hsame | hadd
    · exact ⟨n, hn.trans (Nat.le_succ _), hsame ▸ hops⟩
    · exact ⟨n + 1, Nat.succ_le_succ hn, Option.bind_eq_some_iff.2 ⟨u.sched, hadd, hops⟩⟩

/-- **What a job does to the queue.** -/
theorem job_queues (hqueue : s.sched.jobQueue ≠ []) (h : job.exec cfg s = .ok t) :
    JobQueues s job t.sched := by
  -- Three jobs queue themselves again; an interrupt and a one-shot timer queue nothing.
  cases job with
  | schedGuard =>
    obtain ⟨q, hq, rfl⟩ := withSched_eq_ok h
    unfold Sched.schedGuard at hq
    split at hq
    case h_1 => exact .itself _ (by decide) (iff_of_false (by decide) nofun) hq
    case h_2 hnil _ => exact absurd hnil hqueue
    case h_3 => cases hq
  | picRepInt =>
    cases h
    refine .nothing nofun ?_
    unfold picRepInt
    split
    · exact exceptHandle_sched _ _ _
    · rfl
  | tickRaiseExcept =>
    obtain ⟨u, hu, h⟩ := Runs.bind_eq_ok_iff.1 h
    obtain ⟨q, hq, rfl⟩ := withSched_eq_ok hu
    obtain ⟨cycles, hcycles, hadd⟩ := Option.bind_eq_some_iff.1 hq
    have hpos : 1 ≤ cycles := Sched.le_nextInsnCycles hcycles
    have hsched : t.sched = q := by
      cases h
      split
      · exact exceptHandle_sched _ _ _
      · rfl
    exact .itself cycles (by omega) (iff_of_false (by omega) nofun) (hsched ▸ hadd)
  | tickRestart =>
    obtain ⟨q, hq, rfl⟩ := withSched_eq_ok h
    refine .itself _ (Int.natCast_nonneg _) ?_ hq
    rw [Int.natCast_eq_zero, and_iff_right rfl]
    exact ⟨fun h => BitVec.eq_of_toNat_eq h, fun h => congrArg BitVec.toNat h⟩
  | tickOneShot =>
    cases h
    exact .nothing nofun rfl
  | device ops =>
    obtain ⟨n, hn, hops⟩ := device_queues h
    exact .requests ops n rfl hn hops

end Job

/-! ### The work that is due -/

section Queue

variable {s : Sim} {job : Job} {q q' : Sched.State Job Unit} {n : ℕ}

/-- What holds of a queue holds with more interrupts queued, if it holds with one more. -/
theorem requests_induction {I : Sched.State Job Unit → Prop}
    (hstep : ∀ {q q'}, I q → Sched.schedAdd q .picRepInt () 0 = some q' → I q') (hq : I q)
    (h : Sched.execOps q (List.replicate n (.add .picRepInt () 0)) = some q') : I q' := by
  induction n generalizing q with
  | zero =>
    cases h
    exact hq
  | succ n ih =>
    obtain ⟨u, hu, h⟩ := Option.bind_eq_some_iff.1 h
    exact ih (hstep hq hu) h

namespace JobQueues

theorem inv (h : JobQueues s job q) (hs : Sched.Inv s.sched) : Sched.Inv q := by
  cases h with
  | nothing _ h => rwa [h]
  | itself time ht _ h => exact hs.schedAdd ht h
  | requests ops n _ _ h => exact requests_induction (fun hq h => hq.schedAdd le_rfl h) hs h

/-- What a job adds to the queue as itself is due later, with a period that is not zero. -/
theorem later (h : JobQueues s job q) (hlater : job = .tickRestart → tickPeriod s ≠ 0)
    {x : (ℕ × Job × Unit) × ℤ} (hx : x ∈ q.dues) (hnew : x ∉ s.sched.dues)
    (hfunc : x.1.2.1 = job) : 0 < x.2 := by
  cases h with
  | nothing _ h => exact absurd (h ▸ hx) hnew
  | itself time ht hzero h =>
    rcases Sched.mem_dues_schedAdd ht h hx with hold | ⟨-, htime⟩
    · exact absurd hold hnew
    · refine lt_of_le_of_ne (htime ▸ ht) fun h0 => ?_
      obtain ⟨hjob, hperiod⟩ := hzero.1 (htime.symm.trans h0.symm)
      exact hlater hjob hperiod
  | requests ops n hjob _ h =>
    -- what a peripheral queues is an interrupt, and no peripheral's job is one
    have hmem : x ∈ s.sched.dues ∨ x.1.2.1 = .picRepInt := by
      refine requests_induction (I := fun q => x ∈ q.dues → x ∈ s.sched.dues ∨ x.1.2.1 = .picRepInt)
        (fun hq h hx => ?_) .inl h hx
      rcases Sched.mem_dues_schedAdd le_rfl h hx with hold | ⟨hnew, -⟩
      · exact hq hold
      · exact .inr (congrArg Prod.fst hnew)
    rcases hmem with hold | hnew'
    · exact absurd hold hnew
    · rw [hnew', hjob] at hfunc
      cases hfunc

end JobQueues

end Queue

/-! ### Every reachable queue is ordered -/

section Reachable

variable {cfg : Config} {s t : Sim}

theorem mtspr_inv {regno : Regno} {value : Word} (hs : Sched.Inv s.sched)
    (h : mtspr cfg s regno value = .ok t) : Sched.Inv t.sched := by
  -- `SR` and the two registers of the interrupt controller queue the interrupts that they enable.
  by_cases hsr : regno = sprSR
  · rw [hsr, mtspr_sr] at h
    dsimp only at h
    split at h
    · exact (picIntsEn_noLoss (s := s.setSpr sprSR _) hs h).inv
    · cases h
      exact hs
  by_cases hpicmr : regno = sprPICMR
  · rw [hpicmr, mtspr_picmr] at h
    dsimp only at h
    split at h
    · exact (picIntsEn_noLoss (s := s.setSpr sprPICMR _) hs h).inv
    · cases h
      exact hs
  by_cases hpicsr : regno = sprPICSR
  · have hraw : mtspr cfg s sprPICSR value =
        .ok (if cfg.edgeTrigger then s.setSpr sprPICSR value
          else (s.setSpr sprPICSR value).setSpr sprPICSR (s.sprs sprPICSR)) := rfl
    rw [hpicsr, hraw] at h
    cases h
    split <;> exact hs
  cases mtspr_step hsr hpicmr hpicsr h with
  | plain h => exact h.jobs.inv hs
  | prefetch pa h _ =>
    have hset : Sched.Inv (s.setSpr regno value).sched := hs
    exact h.jobs.inv ((evalsimMem_outcome (s.setSpr regno value) pa value .w4).mild.inv hset)

theorem inv_keeps : Keeps cfg fun s => Sched.Inv s.sched where
  calm h hs := by rwa [h.sched]
  enter hs := by rwa [enterException_sched]
  mtspr h hs := mtspr_inv hs h

theorem event_inv {e : Event} (hs : Sched.Inv s.sched) (h : e.exec cfg s = .ok t) :
    Sched.Inv t.sched := by
  cases e with
  | clock => exact cpuClock_keeps inv_keeps hs h
  | charge cycles =>
    obtain ⟨q, hq, rfl⟩ := withSched_eq_ok h
    exact hs.charge hq
  | job =>
    obtain rfl | ⟨tmp, q, hpop, h⟩ := Event.exec_job_cases h
    · exact hs
    · exact (job_queues (Sched.popJob_jobQueue_ne_nil hpop) h).inv (hs.popJob hpop)
  | line op =>
    rcases lineOp_queues h with hsame | hadd
    · rwa [hsame]
    · exact hs.schedAdd le_rfl hadd
  | queue ops time =>
    obtain ⟨q, hq, rfl⟩ := withSched_eq_ok h
    exact hs.schedAdd (Int.natCast_nonneg time) hq

theorem Reachable.inv (h : Reachable cfg s) : Sched.Inv s.sched := by
  obtain ⟨upr, sr, mem, s₁, es, hreset, hrun⟩ := h
  obtain ⟨s₁', hreset', hs₁⟩ := simReset_powerOn cfg upr sr mem
  cases hreset.symm.trans hreset'
  have hinv : Sched.Inv s₁.sched := hs₁.sched ▸ inv_resetSched
  exact Runs.foldlM_invariant (C := fun _ _ => True) (fun s e t hs _ h => event_inv hs h) hinv
    (Runs.along_of_forall (fun _ _ => trivial) _) hrun

end Reachable

/-! ### Calls that end -/

section Calls

variable {cfg : Config} {s t : Sim}

end Calls

/-! ### A timer without a period -/

/-- The restart and the guard, the only jobs. -/
def Spinning (s : Sim) : Prop :=
  tickPeriod s = 0 ∧ ∃ c c' free, s.sched =
    { freeJobQueue := free
      jobQueue := [⟨c, 0, (), .tickRestart⟩, ⟨c', Sched.schedTimeMax, (), .schedGuard⟩] }

theorem Spinning.round (cfg : Config) {s : Sim} (hs : Spinning s) :
    ∃ t, schedulerRound cfg s = some t ∧ Spinning t := by
  obtain ⟨hzero, c, c', free, hsched⟩ := hs
  have hpop : Sched.popJob s.sched = some (⟨c, 0, (), .tickRestart⟩,
      { freeJobQueue := ⟨c, 0, (), .tickRestart⟩ :: free
        jobQueue := [⟨c', Sched.schedTimeMax, (), .schedGuard⟩] }) := by
    rw [hsched]
    rfl
  have hhead : Sched.headDue s.sched = true := by
    rw [hsched]
    rfl
  have hset : (s.setSpr sprTTCR 0).sprs sprTTMR = s.sprs sprTTMR :=
    Sim.setSpr_sprs_of_ne (by decide)
  have htime : (((s.setSpr sprTTCR 0).sprs sprTTMR &&& ttmrTP).toNat : ℤ) = 0 := by
    rw [hset]
    exact congrArg (fun v : Word => (v.toNat : ℤ)) hzero
  -- the job that was taken off is the first free one, so the queue is what it was
  have hadd : Sched.schedAdd
      { freeJobQueue := ⟨c, 0, (), .tickRestart⟩ :: free
        jobQueue := [⟨c', Sched.schedTimeMax, (), .schedGuard⟩] } Job.tickRestart () 0 =
      some s.sched := by
    rw [hsched]
    rfl
  have hrun : runJob cfg s =
      .ok { s.setSpr sprTTCR 0 with cycleCountAtTickStart := s.cycles, sched := s.sched } := by
    unfold runJob
    rw [hpop]
    change Sim.withSched _ (Sched.schedAdd _ Job.tickRestart ()
      (((s.setSpr sprTTCR 0).sprs sprTTMR &&& ttmrTP).toNat : ℤ)) = _
    rw [htime]
    change Sim.withSched _ (Sched.schedAdd
      { freeJobQueue := ⟨c, 0, (), .tickRestart⟩ :: free
        jobQueue := [⟨c', Sched.schedTimeMax, (), .schedGuard⟩] } Job.tickRestart () 0) = _
    rw [hadd]
    rfl
  refine ⟨{ s.setSpr sprTTCR 0 with cycleCountAtTickStart := s.cycles, sched := s.sched }, ?_, ?_,
    c, c', free, hsched⟩
  · rw [schedulerRound, if_pos hhead, hrun]
    rfl
  · change (s.setSpr sprTTCR 0).sprs sprTTMR &&& ttmrTP = 0
    rw [hset]
    exact hzero

end Cpu
end Or1ksim
