import Or1ksim.Cpu.Gating

/-!
# The jobs of the tick timer

The timer keeps up to three jobs on the queue: the exception, the restart of the auto-restart mode
and the stop of the one-shot mode.  A write to `SPR_TTMR` or `SPR_TTCR` withdraws the jobs of the
old mode and queues those of the new one.

* `Ready` — the jobs of the old mode are withdrawn;
* `TickInv` — which jobs are queued, by the mode and the flags of `SPR_TTMR`;
* `tick_jobs` — **the timer's jobs** in every reachable state.
-/

namespace Or1ksim
namespace Cpu

open Bits Insn

/-! ### The jobs on the queue -/

/-- The jobs of the tick timer. -/
def Job.isTick : Job → Bool
  | .tickRaiseExcept | .tickRestart | .tickOneShot => true
  | _ => false

namespace Sim

/-- The jobs of the tick timer on the queue, head first. -/
def tickJobs (s : Sim) : List Job := s.sched.jobsOf Job.isTick

/-- `SPR_TTMR[M]`. -/
def tickMode (s : Sim) : Word := s.sprs sprTTMR &&& ttmrM

/-- A flag of `SPR_TTMR`. -/
def ttmrBit (s : Sim) (k : ℕ) : Bool := (s.sprs sprTTMR).getLsbD k

end Sim

/-- Which jobs of the timer are queued. -/
structure TickInv (s : Sim) : Prop where
  nodup : s.tickJobs.Nodup
  restart : .tickRestart ∈ s.tickJobs ↔ s.tickMode = ttmrRT
  oneShot : .tickOneShot ∈ s.tickJobs → s.tickMode = ttmrSR ∧ s.tickCounting ≠ 0
  enabled : .tickRaiseExcept ∈ s.tickJobs → s.ttmrBit ttmrIE = true
  pending : s.ttmrBit ttmrIP = true → .tickRaiseExcept ∈ s.tickJobs
  /-- A restarting timer counts. -/
  counting : s.tickMode = ttmrRT → s.tickCounting ≠ 0
  /-- A one-shot timer raises its exception before it stops. -/
  armed : s.tickMode = ttmrSR → s.ttmrBit ttmrIE = true → s.ttmrBit ttmrIP = false →
    [.tickRaiseExcept, .tickOneShot].Sublist s.tickJobs

/-- Nothing about the timer changes. -/
structure SameTick (s t : Sim) : Prop where
  ttmr : t.sprs sprTTMR = s.sprs sprTTMR
  counting : t.tickCounting = s.tickCounting
  jobs : t.tickJobs = s.tickJobs

namespace SameTick

variable {s q t : Sim}

theorem trans (h : SameTick s q) (h' : SameTick q t) : SameTick s t :=
  ⟨h'.ttmr.trans h.ttmr, h'.counting.trans h.counting, h'.jobs.trans h.jobs⟩

theorem of_calm (h : Calm s t) : SameTick s t :=
  ⟨h.sprs _ (by decide), h.tickCounting, by rw [Sim.tickJobs, Sim.tickJobs, h.sched]⟩

theorem setSpr {r : Regno} (hr : sprTTMR ≠ r) (v : Word) : SameTick s (s.setSpr r v) :=
  ⟨Sim.setSpr_sprs_of_ne hr, rfl, rfl⟩

theorem schedAdd {job : Job} {time : ℤ} (hjob : job.isTick = false)
    (h : s.schedAdd job time = .ok t) : SameTick s t := by
  obtain ⟨q, hq, rfl⟩ := withSched_eq_ok h
  exact ⟨rfl, rfl, Sched.jobsOf_schedAdd_of_not hjob hq⟩

theorem enterException {e : Exception} {ea : Addr} : SameTick s (enterException s e ea) := by
  refine ⟨?_, ?_, ?_⟩
  · exact enterException_sprs s e ea (by decide) (by decide) (by decide) (by decide)
  · unfold Cpu.enterException
    cases e <;> rfl
  · rw [Sim.tickJobs, Sim.tickJobs, enterException_sched]

theorem exceptHandle {e : Exception} {ea : Addr} : SameTick s (exceptHandle s e ea) := by
  have hdebug : SameTick s (debugIgnoreException s e) :=
    .of_calm (.of_quiet (.debugIgnoreException s e))
  unfold Cpu.exceptHandle
  dsimp only
  split
  · exact hdebug
  · exact hdebug.trans enterException

theorem tickInv (h : SameTick s t) (hs : TickInv s) : TickInv t := by
  have hmode : t.tickMode = s.tickMode := by rw [Sim.tickMode, Sim.tickMode, h.ttmr]
  have hbit : ∀ k, t.ttmrBit k = s.ttmrBit k := fun k => by rw [Sim.ttmrBit, Sim.ttmrBit, h.ttmr]
  refine ⟨?_, ?_, ?_, ?_, ?_, ?_, ?_⟩ <;> simp only [h.jobs, hmode, hbit, h.counting]
  · exact hs.nodup
  · exact hs.restart
  · exact hs.oneShot
  · exact hs.enabled
  · exact hs.pending
  · exact hs.counting
  · exact hs.armed

end SameTick

/-! ### Writes to the registers of the timer -/

/-- The jobs of the old mode are withdrawn: only a pending exception is queued. -/
def Ready (s : Sim) : Prop :=
  s.tickJobs = if s.ttmrBit ttmrIP then [.tickRaiseExcept] else []

/-- The jobs on the queue are those of an old value of `SPR_TTMR`, the flags are those of the new
one. -/
structure QueuedUnder (s : Sim) (prevTtmr : Word) : Prop where
  nodup : s.tickJobs.Nodup
  enabled : .tickRaiseExcept ∈ s.tickJobs → prevTtmr.getLsbD ttmrIE = true
  restart : .tickRestart ∈ s.tickJobs → prevTtmr &&& ttmrM = ttmrRT
  oneShot : .tickOneShot ∈ s.tickJobs → prevTtmr &&& ttmrM = ttmrSR
  pending : s.ttmrBit ttmrIP = true → .tickRaiseExcept ∈ s.tickJobs ∧ s.ttmrBit ttmrIE = true

/-- Only the queue changes. -/
def OnlySched (s t : Sim) : Prop := t = { s with sched := t.sched }

namespace OnlySched

variable {s q t : Sim}

theorem refl (s : Sim) : OnlySched s s := rfl

theorem trans (h : OnlySched s q) (h' : OnlySched q t) : OnlySched s t := by
  unfold OnlySched at *
  rw [h', h]

theorem of_withSched {o : Option (Sched.State Job Unit)} (h : s.withSched o = .ok t) :
    OnlySched s t := by
  obtain ⟨q, -, rfl⟩ := withSched_eq_ok h
  rfl

theorem sprs (h : OnlySched s t) : t.sprs = s.sprs := by rw [h]

theorem tickCounting (h : OnlySched s t) : t.tickCounting = s.tickCounting := by rw [h]

theorem tickMode (h : OnlySched s t) : t.tickMode = s.tickMode := by
  rw [Sim.tickMode, Sim.tickMode, h.sprs]

theorem ttmrBit (h : OnlySched s t) (k : ℕ) : t.ttmrBit k = s.ttmrBit k := by
  rw [Sim.ttmrBit, Sim.ttmrBit, h.sprs]

end OnlySched

section Timer

variable {s q t : Sim} {prevTtmr : Word} {job : Job}

theorem schedFindRemove_tickJobs (h : s.schedFindRemove job = .ok t) :
    OnlySched s t ∧ t.tickJobs = s.tickJobs.erase job := by
  refine ⟨.of_withSched h, ?_⟩
  obtain ⟨q, hq, rfl⟩ := withSched_eq_ok h
  exact Sched.jobsOf_schedFindRemove hq

theorem schedAdd_tickJobs {time : ℤ} (hjob : job.isTick = true) (h : s.schedAdd job time = .ok t) :
    OnlySched s t ∧ ∃ pre post, s.tickJobs = pre ++ post ∧ t.tickJobs = pre ++ job :: post := by
  refine ⟨.of_withSched h, ?_⟩
  obtain ⟨q, hq, rfl⟩ := withSched_eq_ok h
  exact Sched.jobsOf_schedAdd hjob hq

theorem schedNextInsn_tickJobs (hjob : job.isTick = true) (h : s.schedNextInsn job = .ok t) :
    OnlySched s t ∧ ∃ pre post, s.tickJobs = pre ++ post ∧ t.tickJobs = pre ++ job :: post := by
  refine ⟨.of_withSched h, ?_⟩
  obtain ⟨q, hq, rfl⟩ := withSched_eq_ok h
  exact Sched.jobsOf_schedNextInsn hjob hq

theorem unqueueRaise_spec (h : unqueueRaise s prevTtmr = .ok t) :
    OnlySched s t ∧ t.tickJobs =
      if prevTtmr.getLsbD ttmrIE = true ∧ s.ttmrBit ttmrIP = false then
        s.tickJobs.erase .tickRaiseExcept
      else s.tickJobs := by
  unfold unqueueRaise at h
  rw [← Sim.ttmrBit] at h
  split at h
  case isTrue hoff =>
    rw [if_pos hoff]
    exact schedFindRemove_tickJobs h
  case isFalse hno =>
    cases h
    rw [if_neg hno]
    exact ⟨.refl s, rfl⟩

theorem unqueueMode_spec (h : unqueueMode s prevTtmr = .ok t) :
    OnlySched s t ∧ t.tickJobs =
      if prevTtmr &&& ttmrM = ttmrRT then s.tickJobs.erase .tickRestart
      else if prevTtmr &&& ttmrM = ttmrSR then s.tickJobs.erase .tickOneShot
      else s.tickJobs := by
  unfold unqueueMode at h
  split at h
  case isTrue hrt =>
    rw [if_pos hrt]
    exact schedFindRemove_tickJobs h
  case isFalse hrt =>
    rw [if_neg hrt]
    split at h
    case isTrue hsr =>
      rw [if_pos hsr]
      exact schedFindRemove_tickJobs h
    case isFalse hsr =>
      cases h
      rw [if_neg hsr]
      exact ⟨.refl s, rfl⟩

theorem mem_tickJobs_isTick (h : job ∈ s.tickJobs) : job.isTick = true := (Sched.mem_jobsOf.1 h).2

theorem eq_singleton_of_nodup {α : Type} {l : List α} {a : α} (hnodup : l.Nodup)
    (hmem : a ∈ l) (hall : ∀ x ∈ l, x = a) : l = [a] := by
  cases l with
  | nil => cases hmem
  | cons b l =>
    cases l with
    | nil => rw [hall b (.head _)]
    | cons c l =>
      have hb := hall b (.head _)
      have hc := hall c (.tail _ (.head _))
      refine absurd ?_ (List.nodup_cons.1 hnodup).1
      rw [hb, hc]
      exact .head _

/-- The jobs queued under the old value of `SPR_TTMR` are withdrawn, apart from an exception that is
still pending. -/
theorem unqueue_ready (hold : QueuedUnder s prevTtmr)
    (h₁ : unqueueRaise s prevTtmr = .ok q) (h₂ : unqueueMode q prevTtmr = .ok t) :
    OnlySched s t ∧ Ready t := by
  obtain ⟨hs, hq⟩ := unqueueRaise_spec h₁
  obtain ⟨hs', ht⟩ := unqueueMode_spec h₂
  have hsubq : q.tickJobs.Sublist s.tickJobs := by
    rw [hq]
    split
    · exact List.erase_sublist
    · exact .refl _
  have hsubt : t.tickJobs.Sublist q.tickJobs := by
    rw [ht]
    split_ifs
    · exact List.erase_sublist
    · exact List.erase_sublist
    · exact .refl _
  have hnodupq := hold.nodup.sublist hsubq
  have hnodupt := hnodupq.sublist hsubt
  -- The jobs of the mode are gone.
  have hmode : ∀ j ∈ t.tickJobs, j = .tickRaiseExcept := by
    intro j hj
    have htick := mem_tickJobs_isTick hj
    have hjs := hsubq.subset (hsubt.subset hj)
    have hrt : j ≠ .tickRestart := by
      rintro rfl
      rw [ht, if_pos (hold.restart hjs)] at hj
      exact hnodupq.not_mem_erase hj
    have hsr : j ≠ .tickOneShot := by
      rintro rfl
      have hne : ¬prevTtmr &&& ttmrM = ttmrRT := by rw [hold.oneShot hjs]; decide
      rw [ht, if_neg hne, if_pos (hold.oneShot hjs)] at hj
      exact hnodupq.not_mem_erase hj
    cases j with
    | tickRaiseExcept => rfl
    | tickRestart => exact absurd rfl hrt
    | tickOneShot => exact absurd rfl hsr
    | schedGuard => cases htick
    | picRepInt => cases htick
    | device ops => cases htick
  refine ⟨hs.trans hs', ?_⟩
  unfold Ready
  rw [(hs.trans hs').ttmrBit]
  cases hip : s.ttmrBit ttmrIP with
  | true =>
    rw [if_pos rfl]
    refine eq_singleton_of_nodup hnodupt ?_ hmode
    have hqs : .tickRaiseExcept ∈ q.tickJobs := by
      rw [hq, if_neg (by simp [hip])]
      exact (hold.pending hip).1
    rw [ht]
    split_ifs
    · exact (List.mem_erase_of_ne (by decide)).2 hqs
    · exact (List.mem_erase_of_ne (by decide)).2 hqs
    · exact hqs
  | false =>
    rw [if_neg Bool.false_ne_true]
    refine List.eq_nil_iff_forall_not_mem.2 fun j hj => ?_
    obtain rfl := hmode j hj
    have hjq := hsubt.subset hj
    have hjs := hsubq.subset hjq
    rw [hq, if_pos ⟨hold.enabled hjs, hip⟩] at hjq
    exact hold.nodup.not_mem_erase hjq

/-- The job of the mode. -/
def Sim.modeJobs (s : Sim) : List Job :=
  if s.tickMode = ttmrRT then [.tickRestart]
  else if s.tickMode = ttmrSR ∧ s.tickCounting ≠ 0 then [.tickOneShot]
  else []

theorem nodup_modeJobs (s : Sim) : s.modeJobs.Nodup := by
  unfold Sim.modeJobs
  split_ifs <;> simp

theorem tickRestart_mem_modeJobs : .tickRestart ∈ s.modeJobs ↔ s.tickMode = ttmrRT := by
  unfold Sim.modeJobs
  split_ifs with hrt hsr
  · exact iff_of_true (.head _) hrt
  · exact iff_of_false (by simp) hrt
  · exact iff_of_false (by simp) hrt

theorem tickOneShot_mem_modeJobs :
    .tickOneShot ∈ s.modeJobs ↔ s.tickMode = ttmrSR ∧ s.tickCounting ≠ 0 := by
  unfold Sim.modeJobs
  split_ifs with hrt hsr
  · refine iff_of_false (by simp) fun h => ?_
    rw [hrt] at h
    exact absurd h.1 (by decide)
  · exact iff_of_true (.head _) hsr
  · exact iff_of_false (by simp) hsr

theorem tickRaiseExcept_not_mem_modeJobs : .tickRaiseExcept ∉ s.modeJobs := by
  unfold Sim.modeJobs
  split_ifs <;> simp

theorem schedAdd_perm {time : ℤ} (hjob : job.isTick = true) (h : s.schedAdd job time = .ok t) :
    OnlySched s t ∧ t.tickJobs.Perm (job :: s.tickJobs) := by
  obtain ⟨honly, pre, post, hs, ht⟩ := schedAdd_tickJobs hjob h
  refine ⟨honly, ?_⟩
  rw [hs, ht]
  exact List.perm_middle

theorem queueRaise_eq (s : Sim) (cycles : ℕ) :
    queueRaise s cycles =
      if s.ttmrBit ttmrIE = true ∧ s.ttmrBit ttmrIP = false then
        s.schedAdd .tickRaiseExcept cycles
      else .ok s := by
  unfold queueRaise
  rw [← Sim.ttmrBit, ← Sim.ttmrBit]
  cases s.ttmrBit ttmrIE <;> cases s.ttmrBit ttmrIP <;> rfl

theorem queueRaise_perm {cycles : ℕ} (h : queueRaise s cycles = .ok t) :
    OnlySched s t ∧ ∃ r : Bool,
      (r = true → s.ttmrBit ttmrIE = true ∧ s.ttmrBit ttmrIP = false) ∧
      t.tickJobs.Perm ((if r then [.tickRaiseExcept] else []) ++ s.tickJobs) := by
  rw [queueRaise_eq] at h
  split at h
  case isTrue hon =>
    obtain ⟨honly, hperm⟩ := schedAdd_perm rfl h
    exact ⟨honly, true, fun _ => hon, hperm⟩
  case isFalse =>
    cases h
    exact ⟨.refl s, false, nofun, .refl _⟩

/-- The job of the mode is queued, and perhaps the exception. -/
theorem queueMode_perm {cycles : ℕ} (h : queueMode s cycles = .ok t) :
    OnlySched s t ∧ ∃ r : Bool,
      (r = true → s.ttmrBit ttmrIE = true ∧ s.ttmrBit ttmrIP = false) ∧
      t.tickJobs.Perm ((if r then [.tickRaiseExcept] else []) ++ (s.modeJobs ++ s.tickJobs)) := by
  unfold queueMode at h
  dsimp only at h
  rw [← Sim.tickMode] at h
  -- A job of the mode, then the exception.
  have hboth : ∀ {job : Job}, job.isTick = true → s.modeJobs = [job] →
      (do let s ← s.schedAdd job cycles; queueRaise s cycles) = .ok t →
      OnlySched s t ∧ ∃ r : Bool,
        (r = true → s.ttmrBit ttmrIE = true ∧ s.ttmrBit ttmrIP = false) ∧
        t.tickJobs.Perm ((if r then [.tickRaiseExcept] else []) ++ (s.modeJobs ++ s.tickJobs)) := by
    intro job hjob hmode h
    obtain ⟨q, hq, h⟩ := Runs.bind_eq_ok_iff.1 h
    obtain ⟨hs, hpermq⟩ := schedAdd_perm hjob hq
    obtain ⟨hq, r, hr, hperm⟩ := queueRaise_perm h
    simp only [hs.ttmrBit] at hr
    refine ⟨hs.trans hq, r, hr, hperm.trans ?_⟩
    rw [hmode]
    exact hpermq.append_left _
  split_ifs at h with h0 hcycles hrt hsr hcounting
  · have hmode : s.modeJobs = [] := by
      rw [Sim.modeJobs, h0]
      rfl
    rw [hmode]
    exact queueRaise_perm h
  · have hmode : s.modeJobs = [] := by
      rw [Sim.modeJobs, h0]
      rfl
    cases h
    exact ⟨.refl s, false, nofun, by rw [hmode]; exact .refl _⟩
  · exact hboth rfl (by rw [Sim.modeJobs, if_pos hrt]) h
  · exact hboth rfl (by rw [Sim.modeJobs, if_neg hrt, if_pos ⟨hsr, hcounting⟩]) h
  · have hmode : s.modeJobs = [] := by
      rw [Sim.modeJobs, if_neg hrt, if_neg fun hno => hcounting hno.2]
    cases h
    exact ⟨.refl s, false, nofun, by rw [hmode]; exact .refl _⟩
  · have hmode : s.modeJobs = [] := by
      rw [Sim.modeJobs, if_neg hrt, if_neg fun hno => hsr hno.1]
    rw [hmode]
    exact queueRaise_perm h

/-- The exception of a one-shot timer stands before its stop. -/
theorem queueMode_armed {cycles : ℕ} (hmode : s.tickMode = ttmrSR) (hcounting : s.tickCounting ≠ 0)
    (hie : s.ttmrBit ttmrIE = true) (hip : s.ttmrBit ttmrIP = false)
    (h : queueMode s cycles = .ok t) : [.tickRaiseExcept, .tickOneShot].Sublist t.tickJobs := by
  unfold queueMode at h
  dsimp only at h
  rw [← Sim.tickMode, hmode, if_neg (by decide), if_neg (by decide), if_pos rfl,
    if_pos hcounting] at h
  obtain ⟨q, hq, h⟩ := Runs.bind_eq_ok_iff.1 h
  obtain ⟨p, hp, rfl⟩ := withSched_eq_ok hq
  rw [queueRaise_eq] at h
  change (if s.ttmrBit ttmrIE = true ∧ s.ttmrBit ttmrIP = false then _ else _) = _ at h
  rw [if_pos ⟨hie, hip⟩] at h
  obtain ⟨p', hp', rfl⟩ := withSched_eq_ok h
  obtain ⟨pre, post, -, hfuncs, hmem⟩ := Sched.schedAdd_schedAdd (Int.natCast_nonneg _) hp hp'
  have hpost : [Job.tickOneShot].Sublist (post.filter Job.isTick) :=
    List.singleton_sublist.2 (List.mem_filter.2 ⟨hmem, rfl⟩)
  change List.Sublist _ (p'.funcs.filter Job.isTick)
  rw [hfuncs, List.filter_append, List.filter_cons_of_pos rfl]
  exact (hpost.cons_cons _).trans (List.sublist_append_right _ _)

/-- **The jobs of the new mode.** -/
theorem queueMode_tickInv {cycles : ℕ} (hs : Ready s)
    (hpending : s.ttmrBit ttmrIP = true → s.ttmrBit ttmrIE = true)
    (hcounting : s.tickMode = ttmrRT → s.tickCounting ≠ 0)
    (harmed : s.tickMode = ttmrSR → s.ttmrBit ttmrIE = true → s.ttmrBit ttmrIP = false →
      s.tickCounting ≠ 0)
    (h : queueMode s cycles = .ok t) : TickInv t := by
  obtain ⟨honly, r, hr, hperm⟩ := queueMode_perm h
  rw [hs] at hperm
  -- The exception is queued or pending, not both.
  have hraise : .tickRaiseExcept ∈ t.tickJobs ↔ r = true ∨ s.ttmrBit ttmrIP = true := by
    rw [hperm.mem_iff]
    cases r <;> cases s.ttmrBit ttmrIP <;> simp [tickRaiseExcept_not_mem_modeJobs]
  have hmode : ∀ job, job ≠ .tickRaiseExcept → (job ∈ t.tickJobs ↔ job ∈ s.modeJobs) := by
    intro job hjob
    rw [hperm.mem_iff]
    cases r <;> cases s.ttmrBit ttmrIP <;> simp [hjob]
  refine ⟨?_, ?_, ?_, ?_, ?_, ?_, ?_⟩
  · rw [hperm.nodup_iff]
    cases r with
    | true =>
      rw [(hr rfl).2]
      simpa using ⟨tickRaiseExcept_not_mem_modeJobs, nodup_modeJobs s⟩
    | false =>
      cases s.ttmrBit ttmrIP with
      | true =>
        have hperm' : (s.modeJobs ++ [Job.tickRaiseExcept]).Perm (.tickRaiseExcept :: s.modeJobs) :=
          List.perm_append_singleton ..
        refine hperm'.nodup_iff.2 ?_
        exact List.nodup_cons.2 ⟨tickRaiseExcept_not_mem_modeJobs, nodup_modeJobs s⟩
      | false => simpa using nodup_modeJobs s
  · rw [hmode _ (by decide), tickRestart_mem_modeJobs, honly.tickMode]
  · rw [hmode _ (by decide), tickOneShot_mem_modeJobs, honly.tickMode, honly.tickCounting]
    exact id
  · rw [hraise, honly.ttmrBit]
    rintro (hon | hip)
    · exact (hr hon).1
    · exact hpending hip
  · rw [honly.ttmrBit]
    exact fun hip => hraise.2 (.inr hip)
  · rw [honly.tickMode, honly.tickCounting]
    exact hcounting
  · rw [honly.tickMode, honly.ttmrBit, honly.ttmrBit]
    exact fun hm hie hip => queueMode_armed hm (harmed hm hie hip) hie hip h

/-- **`sched_timer_job`**, with jobs queued under the old value of `SPR_TTMR`. -/
theorem schedTimerJob_tickInv (hold : QueuedUnder s prevTtmr)
    (hcounting : s.tickMode = ttmrRT → s.tickCounting ≠ 0)
    (harmed : s.tickMode = ttmrSR → s.ttmrBit ttmrIE = true → s.ttmrBit ttmrIP = false →
      s.tickCounting ≠ 0)
    (h : schedTimerJob s prevTtmr = .ok t) : TickInv t := by
  obtain ⟨q, h₁, h⟩ := Runs.bind_eq_ok_iff.1 h
  obtain ⟨u, h₂, h⟩ := Runs.bind_eq_ok_iff.1 h
  obtain ⟨honly, hready⟩ := unqueue_ready hold h₁ h₂
  refine queueMode_tickInv hready ?_ ?_ ?_ h
  · simp only [honly.ttmrBit]
    exact fun hip => (hold.pending hip).2
  · simp only [honly.tickMode, honly.tickCounting]
    exact hcounting
  · simp only [honly.tickMode, honly.ttmrBit, honly.tickCounting]
    exact harmed

theorem TickInv.queuedUnder (hs : TickInv s) : QueuedUnder s (s.sprs sprTTMR) where
  nodup := hs.nodup
  enabled := hs.enabled
  restart := hs.restart.1
  oneShot hmem := (hs.oneShot hmem).1
  pending hip := ⟨hs.pending hip, hs.enabled (hs.pending hip)⟩

/-- A one-shot timer with its exception still to come counts. -/
theorem TickInv.armed_counting (hs : TickInv s) (hmode : s.tickMode = ttmrSR)
    (hie : s.ttmrBit ttmrIE = true) (hip : s.ttmrBit ttmrIP = false) : s.tickCounting ≠ 0 :=
  (hs.oneShot ((hs.armed hmode hie hip).subset (.tail _ (.head _)))).2

/-- The state in which `spr_write_ttcr` calls `sched_timer_job`. -/
def ttcrWritten (s : Sim) (value : Word) : Sim :=
  { s.setSpr sprTTCR value with cycleCountAtTickStart := s.cycles - value.setWidth 64 }

theorem sprWriteTtcr_setSpr (s : Sim) (value : Word) :
    sprWriteTtcr (s.setSpr sprTTCR value) value =
      schedTimerJob (ttcrWritten s value) (s.sprs sprTTMR) := rfl

theorem ttcrWritten_sameTick (s : Sim) (value : Word) : SameTick s (ttcrWritten s value) :=
  ⟨rfl, rfl, rfl⟩

theorem TickInv.sprWriteTtcr {value : Word} (hs : TickInv s)
    (h : sprWriteTtcr (s.setSpr sprTTCR value) value = .ok t) : TickInv t := by
  rw [sprWriteTtcr_setSpr] at h
  have hu : TickInv (ttcrWritten s value) := (ttcrWritten_sameTick s value).tickInv hs
  exact schedTimerJob_tickInv hu.queuedUnder hu.counting hu.armed_counting h

theorem clearBit_and_ttmrM (v : Word) : clearBit v ttmrIP &&& ttmrM = v &&& ttmrM := by
  refine BitVec.eq_of_getLsbD_eq fun i hi => ?_
  rw [BitVec.getLsbD_and, BitVec.getLsbD_and, getLsbD_clearBit]
  by_cases hip : i = ttmrIP
  · subst hip
    rw [show ttmrM.getLsbD ttmrIP = false by decide, Bool.and_false, Bool.and_false]
  · simp [hip]

/-- The state in which `spr_write_ttmr` calls `sched_timer_job`. -/
def ttmrWritten (s : Sim) (value : Word) : Sim :=
  let s := s.setSpr sprTTMR (clearBit value ttmrIP)
  let s := if s.tickCounting ≠ 0 then
      s.setSpr sprTTCR ((s.cycles - s.cycleCountAtTickStart).setWidth 32)
    else s
  let s := { s with cycleCountAtTickStart := s.cycles - (s.sprs sprTTCR).setWidth 64 }
  let counting := value &&& ttmrM
  { s with tickCounting := if counting = ttmrCR ∧ s.sprs sprTTCR = value &&& ttmrTP then 0
      else counting }

theorem sprWriteTtmr_setSpr (s : Sim) (value prevVal : Word) :
    sprWriteTtmr (s.setSpr sprTTMR value) prevVal =
      schedTimerJob (ttmrWritten s value) prevVal := by
  unfold sprWriteTtmr ttmrWritten
  simp only [Sim.setSpr_sprs_self, Sim.setSpr_setSpr]

theorem ttmrWritten_ttmr (s : Sim) (value : Word) :
    (ttmrWritten s value).sprs sprTTMR = clearBit value ttmrIP := by
  unfold ttmrWritten
  dsimp only
  split
  · rw [Sim.setSpr_sprs_of_ne (by decide), Sim.setSpr_sprs_self]
  · rw [Sim.setSpr_sprs_self]

theorem ttmrWritten_tickMode (s : Sim) (value : Word) :
    (ttmrWritten s value).tickMode = value &&& ttmrM := by
  rw [Sim.tickMode, ttmrWritten_ttmr, clearBit_and_ttmrM]

theorem ttmrWritten_ip (s : Sim) (value : Word) :
    (ttmrWritten s value).ttmrBit ttmrIP = false := by
  rw [Sim.ttmrBit, ttmrWritten_ttmr, getLsbD_clearBit]
  simp

theorem ttmrWritten_sched (s : Sim) (value : Word) : (ttmrWritten s value).sched = s.sched := by
  unfold ttmrWritten
  dsimp only
  split <;> rfl

theorem ttmrWritten_tickJobs (s : Sim) (value : Word) :
    (ttmrWritten s value).tickJobs = s.tickJobs := by
  rw [Sim.tickJobs, ttmrWritten_sched, Sim.tickJobs]

theorem ttmrWritten_ttcr {s : Sim} (hstop : s.tickCounting = 0) (value : Word) :
    (ttmrWritten s value).sprs sprTTCR = s.sprs sprTTCR := by
  unfold ttmrWritten
  dsimp only
  have hno : ¬(s.setSpr sprTTMR (clearBit value ttmrIP)).tickCounting ≠ 0 := not_not.2 hstop
  rw [if_neg hno, Sim.setSpr_sprs_of_ne (by decide)]

theorem sprReadTtcr_ttmrWritten (s : Sim) (value : Word) :
    sprReadTtcr (ttmrWritten s value) = (ttmrWritten s value).sprs sprTTCR := by
  have hstart : (ttmrWritten s value).cycleCountAtTickStart =
      (ttmrWritten s value).cycles - ((ttmrWritten s value).sprs sprTTCR).setWidth 64 := by
    unfold ttmrWritten
    rfl
  have hcancel : ∀ a b : BitVec 64, a - (a - b) = b := fun a b => by bv_omega
  rw [sprReadTtcr, hstart]
  split
  · rfl
  · rw [hcancel, BitVec.setWidth_setWidth_of_le _ (by decide), BitVec.setWidth_eq]

theorem ttmrWritten_tickCounting {value : Word} (hcr : value &&& ttmrM ≠ ttmrCR) :
    (ttmrWritten s value).tickCounting = value &&& ttmrM := by
  unfold ttmrWritten
  dsimp only
  rw [if_neg fun h => hcr h.1]

theorem TickInv.queuedUnder_ttmrWritten (hs : TickInv s) (value : Word) :
    QueuedUnder (ttmrWritten s value) (s.sprs sprTTMR) := by
  refine ⟨?_, ?_, ?_, ?_, ?_⟩
  · rw [ttmrWritten_tickJobs]
    exact hs.nodup
  · rw [ttmrWritten_tickJobs]
    exact hs.enabled
  · rw [ttmrWritten_tickJobs]
    exact hs.restart.1
  · rw [ttmrWritten_tickJobs]
    exact fun hmem => (hs.oneShot hmem).1
  · rw [ttmrWritten_ip]
    exact fun hip => absurd hip Bool.false_ne_true

theorem ttmrWritten_counting {value m : Word} (hm : m ≠ 0) (hcr : m ≠ ttmrCR)
    (hmode : (ttmrWritten s value).tickMode = m) : (ttmrWritten s value).tickCounting ≠ 0 := by
  rw [ttmrWritten_tickMode] at hmode
  rwa [ttmrWritten_tickCounting (hmode ▸ hcr), hmode]

theorem TickInv.sprWriteTtmr {value : Word} (hs : TickInv s)
    (h : sprWriteTtmr (s.setSpr sprTTMR value) (s.sprs sprTTMR) = .ok t) : TickInv t := by
  rw [sprWriteTtmr_setSpr] at h
  refine schedTimerJob_tickInv (hs.queuedUnder_ttmrWritten value) ?_ ?_ h
  · exact ttmrWritten_counting (by decide) (by decide)
  · exact fun hm _ _ => ttmrWritten_counting (by decide) (by decide) hm

end Timer

/-! ### Instructions -/

section Run

variable {cfg : Config} {s t : Sim}

theorem picIntsEn_sameTick (h : picIntsEn s = .ok t) : SameTick s t := by
  unfold picIntsEn at h
  split at h
  · exact .schedAdd rfl h
  · cases h
    exact .of_calm (.of_sprs rfl rfl rfl rfl)

theorem TickInv.mtspr {regno : Regno} {value : Word} (h : mtspr cfg s regno value = .ok t)
    (hs : TickInv s) : TickInv t := by
  cases mtspr_cases h with
  | ttcr hr h =>
    subst hr
    exact hs.sprWriteTtcr h
  | ttmr hr h =>
    subst hr
    exact hs.sprWriteTtmr h
  | special hr =>
    rcases hr with rfl | rfl | rfl
    · rw [mtspr_sr] at h
      dsimp only at h
      split at h
      · exact ((SameTick.setSpr (by decide) _).trans (picIntsEn_sameTick h)).tickInv hs
      · cases h
        exact (SameTick.setSpr (by decide) _).tickInv hs
    · have hraw : Cpu.mtspr cfg s sprPICSR value =
          .ok (if cfg.edgeTrigger then s.setSpr sprPICSR value
            else (s.setSpr sprPICSR value).setSpr sprPICSR (s.sprs sprPICSR)) := rfl
      rw [hraw] at h
      cases h
      split
      · exact (SameTick.setSpr (by decide) _).tickInv hs
      · exact ((SameTick.setSpr (by decide) _).trans (.setSpr (by decide) _)).tickInv hs
    · rw [mtspr_picmr] at h
      dsimp only at h
      split at h
      · exact ((SameTick.setSpr (by decide) _).trans (picIntsEn_sameTick h)).tickInv hs
      · cases h
        exact (SameTick.setSpr (by decide) _).tickInv hs
  | prefetch pa hpa ht =>
    have hregno : sprTTMR ≠ regno := by rcases hpa with ⟨rfl, -⟩ | ⟨rfl, -⟩ <;> decide
    have hmem : SameTick (s.setSpr regno value)
        (evalsimMem (s.setSpr regno value) pa value .w4).2 := by
      unfold evalsimMem
      split
      · exact .of_calm (.of_sprs rfl rfl rfl rfl)
      · exact .exceptHandle
    subst ht
    exact (((SameTick.setSpr hregno value).trans hmem).trans (.setSpr hregno 0)).tickInv hs
  | plain _ httmr hsprs hsched htick _ _ =>
    refine SameTick.tickInv ⟨hsprs _ (Ne.symm httmr), htick, ?_⟩ hs
    rw [Sim.tickJobs, Sim.tickJobs, hsched]

theorem tickInv_keeps : Keeps cfg TickInv where
  calm h hs := (SameTick.of_calm h).tickInv hs
  enter hs := SameTick.enterException.tickInv hs
  mtspr := .mtspr

/-! ### Jobs and requests -/

theorem reportInterrupt_sameTick {line : Fin 32} (h : reportInterrupt cfg s line = .ok t) :
    SameTick s t := by
  unfold reportInterrupt at h
  dsimp only at h
  have hpmr : SameTick s (s.setSpr sprPMR (s.sprs sprPMR &&& ~~~0x30#32)) := .setSpr (by decide) _
  split_ifs at h
  · cases h
    exact hpmr.trans .exceptHandle
  · cases h
    exact hpmr
  · cases h
    exact hpmr
  · exact (hpmr.trans (.setSpr (by decide) _)).trans (.schedAdd rfl h)
  · cases h
    exact hpmr.trans (.setSpr (by decide) _)

theorem lineOp_sameTick {op : LineOp} (h : op.exec cfg s = .ok t) : SameTick s t := by
  cases op with
  | report line => exact reportInterrupt_sameTick h
  | clear line =>
    cases h
    exact .setSpr (by decide) _

theorem tickJobs_popJob {tmp : Sched.Entry Job Unit} {q : Sched.State Job Unit}
    (hpop : Sched.popJob s.sched = some (tmp, q)) (htick : tmp.func.isTick = true) :
    s.tickJobs = tmp.func :: Sim.tickJobs { s with sched := q } := by
  rw [Sim.tickJobs, Sched.jobsOf_popJob hpop, if_pos htick]
  rfl

theorem TickInv.of_perm {u : Sim} (hs : TickInv s) (hjobs : u.tickJobs.Perm s.tickJobs)
    (hmode : u.tickMode = s.tickMode) (hcounting : u.tickCounting = s.tickCounting)
    (hie : u.ttmrBit ttmrIE = s.ttmrBit ttmrIE)
    (hpending : u.ttmrBit ttmrIP = true → .tickRaiseExcept ∈ s.tickJobs)
    (hnot : u.tickMode = ttmrSR → u.ttmrBit ttmrIP = true) : TickInv u := by
  refine ⟨hjobs.nodup_iff.2 hs.nodup, ?_, ?_, ?_, ?_, ?_, ?_⟩
  · rw [hjobs.mem_iff, hmode]
    exact hs.restart
  · rw [hjobs.mem_iff, hmode, hcounting]
    exact hs.oneShot
  · rw [hjobs.mem_iff, hie]
    exact hs.enabled
  · rw [hjobs.mem_iff]
    exact hpending
  · rw [hmode, hcounting]
    exact hs.counting
  · intro hm _ hip
    rw [hnot hm] at hip
    cases hip

theorem tickRaiseExcept_tickInv {q : Sched.State Job Unit} (hs : TickInv s)
    (hjobs : s.tickJobs = .tickRaiseExcept :: Sim.tickJobs { s with sched := q })
    (h : tickRaiseExcept { s with sched := q } = .ok t) : TickInv t := by
  obtain ⟨u, hu, h⟩ := Runs.bind_eq_ok_iff.1 h
  obtain ⟨honly, pre, post, hsplit, hjobs'⟩ := schedNextInsn_tickJobs rfl hu
  have hperm : u.tickJobs.Perm s.tickJobs := by
    rw [hjobs', hjobs]
    exact List.perm_middle.trans (.of_eq (congrArg _ hsplit.symm))
  have httmr : u.sprs sprTTMR = setBit (s.sprs sprTTMR) ttmrIP := by
    rw [honly.sprs, Sim.setSpr_sprs_self]
  have hbit : ∀ k, u.ttmrBit k = (s.ttmrBit k || decide (k = ttmrIP)) := by
    intro k
    rw [Sim.ttmrBit, httmr, getLsbD_setBit, Sim.ttmrBit]
    by_cases hk : k = ttmrIP
    · subst hk
      simp [ttmrIP]
    · simp [hk]
  have hmode : u.tickMode = s.tickMode := by
    rw [Sim.tickMode, httmr, ← clearBit_and_ttmrM, Sim.tickMode, ← clearBit_and_ttmrM (s.sprs _)]
    congr 1
    refine BitVec.eq_of_getLsbD_eq fun i hi => ?_
    rw [getLsbD_clearBit, getLsbD_clearBit, getLsbD_setBit]
    by_cases hip : i = ttmrIP <;> simp [hip]
  have hip : u.ttmrBit ttmrIP = true := by
    rw [hbit]
    simp
  have hinv : TickInv u := by
    refine hs.of_perm hperm hmode honly.tickCounting ?_ (fun _ => ?_) fun _ => hip
    · rw [hbit]
      simp [ttmrIE, ttmrIP]
    · rw [hjobs]
      exact .head _
  cases h
  split
  · exact SameTick.exceptHandle.tickInv hinv
  · exact hinv

theorem tickRestart_tickInv {q : Sched.State Job Unit} (hs : TickInv s)
    (hjobs : s.tickJobs = .tickRestart :: Sim.tickJobs { s with sched := q })
    (h : tickRestart { s with sched := q } = .ok t) : TickInv t := by
  obtain ⟨honly, hperm⟩ := schedAdd_perm rfl h
  have hperm' : t.tickJobs.Perm s.tickJobs := by
    rw [hjobs]
    exact hperm
  have httmr : t.sprs sprTTMR = s.sprs sprTTMR := by
    rw [honly.sprs]
    rfl
  have hmode : t.tickMode = s.tickMode := by rw [Sim.tickMode, Sim.tickMode, httmr]
  have hbit : ∀ k, t.ttmrBit k = s.ttmrBit k := fun k => by rw [Sim.ttmrBit, Sim.ttmrBit, httmr]
  have hrt : s.tickMode = ttmrRT := by
    refine hs.restart.1 ?_
    rw [hjobs]
    exact .head _
  refine hs.of_perm hperm' hmode honly.tickCounting (hbit _) (fun hip => ?_) fun hsr => ?_
  · rw [hbit] at hip
    exact hs.pending hip
  · rw [hmode, hrt] at hsr
    exact absurd hsr (by decide)

theorem tickOneShot_tickInv {q : Sched.State Job Unit} (hs : TickInv s)
    (hjobs : s.tickJobs = .tickOneShot :: Sim.tickJobs { s with sched := q }) :
    TickInv (tickOneShot { s with sched := q }) := by
  generalize hu : tickOneShot { s with sched := q } = u
  have hrest : u.tickJobs = Sim.tickJobs { s with sched := q } := hu ▸ rfl
  rw [← hrest] at hjobs
  have hnodup : Job.tickOneShot ∉ u.tickJobs ∧ u.tickJobs.Nodup := by
    have := hs.nodup
    rwa [hjobs, List.nodup_cons] at this
  have httmr : u.sprs sprTTMR = s.sprs sprTTMR := by
    subst hu
    rfl
  have hmode : u.tickMode = s.tickMode := by rw [Sim.tickMode, Sim.tickMode, httmr]
  have hbit : ∀ k, u.ttmrBit k = s.ttmrBit k := fun k => by rw [Sim.ttmrBit, Sim.ttmrBit, httmr]
  have hsr : s.tickMode = ttmrSR := by
    refine (hs.oneShot ?_).1
    rw [hjobs]
    exact .head _
  have hrt : s.tickMode ≠ ttmrRT := by
    rw [hsr]
    decide
  have hmem : ∀ job, job ∈ u.tickJobs → job ∈ s.tickJobs := fun job hjob => by
    rw [hjobs]
    exact .tail _ hjob
  refine ⟨hnodup.2, ?_, fun h => absurd h hnodup.1, ?_, ?_, ?_, ?_⟩
  · rw [hmode]
    exact iff_of_false (fun h => hrt (hs.restart.1 (hmem _ h))) hrt
  · rw [hbit]
    exact fun h => hs.enabled (hmem _ h)
  · rw [hbit]
    intro hip
    have hraise := hs.pending hip
    rw [hjobs] at hraise
    exact (List.mem_cons.1 hraise).resolve_left (by decide)
  · rw [hmode]
    exact fun h => absurd h hrt
  · -- The stop was not first while the exception was to come.
    rw [hmode, hbit, hbit]
    intro hm hie hip
    have harmed := hs.armed hm hie hip
    rw [hjobs] at harmed
    cases harmed with
    | cons _ h => exact h

theorem job_tickInv {tmp : Sched.Entry Job Unit} {q : Sched.State Job Unit} (hs : TickInv s)
    (hpop : Sched.popJob s.sched = some (tmp, q))
    (h : tmp.func.exec cfg { s with sched := q } = .ok t) : TickInv t := by
  have hother : tmp.func.isTick = false → SameTick s { s with sched := q } := by
    intro hjob
    refine ⟨rfl, rfl, ?_⟩
    rw [Sim.tickJobs, Sim.tickJobs, Sched.jobsOf_popJob hpop, if_neg (by rw [hjob]; decide)]
  have hself := tickJobs_popJob hpop
  generalize tmp.func = job at h hother hself
  cases job with
  | schedGuard =>
    obtain ⟨q', hq', rfl⟩ := withSched_eq_ok h
    have hjobs : q'.jobsOf Job.isTick = q.jobsOf Job.isTick := Sched.jobsOf_schedGuard rfl hq'
    have hguard : SameTick { s with sched := q } { s with sched := q' } := ⟨rfl, rfl, hjobs⟩
    exact ((hother rfl).trans hguard).tickInv hs
  | picRepInt =>
    cases h
    refine SameTick.tickInv ((hother rfl).trans ?_) hs
    unfold picRepInt
    split
    · exact .exceptHandle
    · exact .of_calm (.of_sprs rfl rfl rfl rfl)
  | tickRaiseExcept => exact tickRaiseExcept_tickInv hs (hself rfl) h
  | tickRestart => exact tickRestart_tickInv hs (hself rfl) h
  | tickOneShot =>
    cases h
    exact tickOneShot_tickInv hs (hself rfl)
  | device ops =>
    have hstep : ∀ (s : Sim) (op : LineOp) (t : Sim), TickInv s → True →
        op.exec cfg s = .ok t → TickInv t := fun s op t hs _ h => (lineOp_sameTick h).tickInv hs
    exact Runs.foldlM_invariant hstep ((hother rfl).tickInv hs)
      (Runs.along_of_forall (fun _ _ => trivial) _) h

/-! ### Runs -/

theorem event_tickInv {e : Event} (hs : TickInv s) (h : e.exec cfg s = .ok t) : TickInv t := by
  cases e with
  | clock => exact cpuClock_keeps tickInv_keeps hs h
  | charge cycles =>
    obtain ⟨q, hq, rfl⟩ := withSched_eq_ok h
    have hjobs : q.jobsOf Job.isTick = s.sched.jobsOf Job.isTick := Sched.jobsOf_charge hq
    have hsame : SameTick s { s with cycles := s.cycles + BitVec.ofNat 64 cycles, sched := q } :=
      ⟨rfl, rfl, hjobs⟩
    exact hsame.tickInv hs
  | job =>
    obtain rfl | ⟨tmp, q, hpop, h⟩ := Event.exec_job_cases h
    · exact hs
    · exact job_tickInv hs hpop h
  | line op => exact (lineOp_sameTick h).tickInv hs
  | queue ops time => exact (SameTick.schedAdd rfl h).tickInv hs

theorem tickInv_of_reset {sr : Word} {mem : Memory} (h : AfterReset cfg sr mem s) :
    TickInv s := by
  have hjobs : s.tickJobs = [] := by
    rw [Sim.tickJobs, h.sched]
    rfl
  have hmode : s.tickMode = 0 := by
    rw [Sim.tickMode, h.ttmr]
    rfl
  have hbit : ∀ k, s.ttmrBit k = false := fun k => by
    rw [Sim.ttmrBit, h.ttmr]
    exact BitVec.getLsbD_zero
  refine ⟨?_, ?_, ?_, ?_, ?_, ?_, ?_⟩ <;> simp only [hjobs, hmode, hbit]
  · exact List.nodup_nil
  · exact iff_of_false (by simp) (by decide)
  · exact fun h => absurd h (by simp)
  · exact fun h => absurd h (by simp)
  · exact fun h => absurd h (by simp)
  · exact fun h => absurd h (by decide)
  · exact fun h => absurd h (by decide)

theorem Reachable.tickInv (h : Reachable cfg s) : TickInv s := by
  obtain ⟨upr, sr, mem, s₁, es, hreset, hrun⟩ := h
  obtain ⟨s₁', hreset', hs₁⟩ := simReset_powerOn cfg upr sr mem
  cases hreset.symm.trans hreset'
  exact Runs.foldlM_invariant (C := fun _ _ => True) (fun s e t hs _ h => event_tickInv hs h)
    (tickInv_of_reset hs₁) (Runs.along_of_forall (fun _ _ => trivial) _) hrun

theorem count_tickJobs {job : Job} (hjob : job.isTick = true) (s : Sim) :
    s.sched.funcs.count job = s.tickJobs.count job := (List.count_filter hjob).symm

theorem mem_tickJobs {job : Job} (hjob : job.isTick = true) :
    job ∈ s.tickJobs ↔ job ∈ s.sched.funcs := by
  rw [Sim.tickJobs, Sched.mem_jobsOf]
  exact and_iff_left hjob

/-- **The jobs of the tick timer**, in every reachable state: each is queued at most once, the
restart exactly in the auto-restart mode, the stop only while a one-shot timer counts, and the
exception whenever it is pending and enabled. -/
theorem tick_jobs (hs : Reachable cfg s) :
    (∀ job ∈ [Job.tickRestart, .tickOneShot, .tickRaiseExcept], s.sched.funcs.count job ≤ 1) ∧
      (Job.tickRestart ∈ s.sched.funcs ↔ s.tickMode = ttmrRT) ∧
      (Job.tickOneShot ∈ s.sched.funcs → s.tickMode = ttmrSR ∧ s.tickCounting ≠ 0) ∧
      (s.ttmrBit ttmrIP = true → s.ttmrBit ttmrIE = true →
        Job.tickRaiseExcept ∈ s.sched.funcs) := by
  have hinv := hs.tickInv
  refine ⟨fun job hjob => ?_, ?_, ?_, fun hip _ => ?_⟩
  · have htick : job.isTick = true := by
      simp only [List.mem_cons, List.not_mem_nil, or_false] at hjob
      rcases hjob with rfl | rfl | rfl <;> rfl
    rw [count_tickJobs htick]
    exact List.nodup_iff_count_le_one.1 hinv.nodup job
  · rw [← mem_tickJobs rfl]
    exact hinv.restart
  · rw [← mem_tickJobs rfl]
    exact hinv.oneShot
  · rw [← mem_tickJobs rfl]
    exact hinv.pending hip

/-- The program `l.movhi r1,0x6001` and `l.mtspr r0,r1,0x5000`: the timer restarts after 65536
cycles, with an exception. -/
def restartProgram : Memory :=
  ((Memory.flat fun _ => 0).setProgram32 0x100 0x18206001).setProgram32 0x104 0xc1400800

/-- With `l.movhi r1,0xa001`: the timer stops after 65536 cycles, with an exception. -/
def oneShotProgram : Memory :=
  ((Memory.flat fun _ => 0).setProgram32 0x100 0x1820a001).setProgram32 0x104 0xc1400800

/-- Events after the first program lead to reachable states. -/
theorem restartProgram_run {es : List Event} {p : Sim → Bool}
    (h : (timerWritten defaultConfig restartProgram 0x6001 >>= fun s =>
      exec defaultConfig s es).toOption.any p = true) :
    ∃ s, Reachable defaultConfig s ∧ p s = true := by
  have hdec : decodeInsn defaultConfig.haveUnsignedXori 0x18206001#32 = some movhiRow :=
    decodeInsn_eq_some_iff.2 ⟨List.mem_of_getElem? (i := 5) rfl, by decide⟩
  exact exists_reachable_of_any (by decide) (by decide) hdec (fun _ => rfl) h

theorem oneShotProgram_run {es : List Event} {p : Sim → Bool}
    (h : (timerWritten defaultConfig oneShotProgram 0xa001 >>= fun s =>
      exec defaultConfig s es).toOption.any p = true) :
    ∃ s, Reachable defaultConfig s ∧ p s = true := by
  have hdec : decodeInsn defaultConfig.haveUnsignedXori 0x1820a001#32 = some movhiRow :=
    decodeInsn_eq_some_iff.2 ⟨List.mem_of_getElem? (i := 5) rfl, by decide⟩
  exact exists_reachable_of_any (by decide) (by decide) hdec (fun _ => rfl) h

/-- A timer with its restart and its exception queued, each once, and one with its stop and its
exception queued. -/
theorem tick_jobs_queued :
    (∃ s, Reachable defaultConfig s ∧ s.sched.funcs.count .tickRestart ≤ 1 ∧
      s.sched.funcs.count .tickRaiseExcept ≤ 1 ∧ Job.tickRestart ∈ s.sched.funcs ∧
      Job.tickRaiseExcept ∈ s.sched.funcs) ∧
    ∃ s, Reachable defaultConfig s ∧ s.sched.funcs.count .tickOneShot ≤ 1 ∧
      Job.tickOneShot ∈ s.sched.funcs ∧ s.tickMode = ttmrSR ∧ s.tickCounting ≠ 0 ∧
      Job.tickRaiseExcept ∈ s.sched.funcs := by
  constructor
  · -- once round: the exception is pending, and both jobs are queued again
    obtain ⟨s, hs, hcheck⟩ := @restartProgram_run [.charge 65536, .job, .job]
      (fun s => decide (s.tickMode = ttmrRT) && s.ttmrBit ttmrIP && s.ttmrBit ttmrIE)
      (by decide)
    simp only [Bool.and_eq_true, decide_eq_true_eq] at hcheck
    obtain ⟨hcount, hrestart, -, hraise⟩ := tick_jobs hs
    exact ⟨s, hs, hcount _ (by decide), hcount _ (by decide), hrestart.2 hcheck.1.1,
      hraise hcheck.1.2 hcheck.2⟩
  · -- the exception is pending, and the timer is about to stop
    obtain ⟨s, hs, hcheck⟩ := @oneShotProgram_run [.charge 65536, .job]
      (fun s => decide (Job.tickOneShot ∈ s.sched.funcs) && s.ttmrBit ttmrIP &&
        s.ttmrBit ttmrIE)
      (by decide)
    simp only [Bool.and_eq_true, decide_eq_true_eq] at hcheck
    obtain ⟨hcount, -, hstop, hraise⟩ := tick_jobs hs
    have hqueued := hcheck.1.1
    exact ⟨s, hs, hcount _ (by decide), hqueued, (hstop hqueued).1, (hstop hqueued).2,
      hraise hcheck.1.2 hcheck.2⟩

end Run

end Cpu
end Or1ksim
