import Or1ksim.Sched.Jobs

/-!
# The queue of a device

The queue as one device sees it: its own jobs, the guard, and the jobs of the other devices, which
come and go.

* `Queue.pending` — how often a job of the device is queued;
* `Outside.exec` — what the rest of the simulator does to the queue;
* `dispatch` — a round of `do_scheduler`, up to the call of a job of the device.
-/

namespace Or1ksim
namespace Sched

/-- What is on the queue of a device whose own jobs are the `J`. -/
inductive Fn (J : Type) where
  | schedGuard
  | job (j : J)
  /-- A job of another device. -/
  | other (n : ℕ)
deriving DecidableEq

/-- The scheduler; what a job is called with is part of the job. -/
abbrev Queue (J : Type) := State (Fn J) Unit

/-- What the rest of the simulator does to the queue. -/
inductive Outside where
  /-- Another device queues a job. -/
  | add (n : ℕ) (time : ℤ)
  /-- Another device withdraws a job. -/
  | remove (n : ℕ)
  /-- The main loop charges cycles to the queue. -/
  | charge (cycles : ℤ)
deriving DecidableEq

variable {J : Type} [DecidableEq J]

/-- The queue after it. -/
def Outside.exec (q : Queue J) : Outside → Option (Queue J)
  | .add n time => schedAdd q (.other n) () time
  | .remove n => schedFindRemove q (.other n) ()
  | .charge cycles => Sched.charge q cycles

/-- A round of `do_scheduler`, if a job is due: the job of the device that it calls, and the queue
it calls it with.  Jobs of other devices do nothing to this one. -/
def dispatch (q : Queue J) : Option (Option J × Queue J) :=
  if !headDue q then some (none, q)
  else (popJob q).bind fun r =>
    match r.1.func with
    | .schedGuard => (schedGuard .schedGuard r.2 ()).map (none, ·)
    | .job j => some (some j, r.2)
    | .other _ => some (none, r.2)

/-- How often a job of the device is queued. -/
def Queue.pending (q : Queue J) (j : J) : ℕ := q.funcs.count (.job j)

/-- The queue that `sched_init` leaves when it finds the cells zeroed: only the guard. -/
def idleQueue : Queue J where
  freeJobQueue := (List.range 127).reverse.map fun i => ⟨i, 0, (), .schedGuard⟩
  jobQueue := [⟨127, schedTimeMax, (), .schedGuard⟩]

section Pending

variable {q q' : Queue J} {i j : J}

theorem count_schedAdd {f : Fn J} {t : ℤ} (h : schedAdd q f () t = some q') (g : Fn J) :
    q'.funcs.count g = q.funcs.count g + if f = g then 1 else 0 := by
  obtain ⟨pre, post, hq, hq'⟩ := funcs_schedAdd h
  rw [hq, hq', List.count_append, List.count_append, List.count_cons, ← Nat.add_assoc]
  simp only [beq_iff_eq]

theorem pending_schedAdd {t : ℤ} (h : schedAdd q (.job j) () t = some q') (i : J) :
    Queue.pending q' i = Queue.pending q i + if j = i then 1 else 0 := by
  rw [Queue.pending, count_schedAdd h]
  simp only [Fn.job.injEq, Queue.pending]

theorem pending_schedFindRemove (h : schedFindRemove q (.job j) () = some q') (i : J) :
    Queue.pending q' i = Queue.pending q i - if j = i then 1 else 0 := by
  rw [Queue.pending, funcs_schedFindRemove h, List.count_erase]
  simp only [beq_iff_eq, Fn.job.injEq, Queue.pending]

theorem pending_schedGuard (h : schedGuard .schedGuard q () = some q') (i : J) :
    Queue.pending q' i = Queue.pending q i := by
  have hjobs := jobsOf_schedGuard (k := (· == Fn.job i)) (by simp) h
  rw [Queue.pending, Queue.pending, List.count_eq_length_filter, List.count_eq_length_filter]
  exact congrArg List.length hjobs

theorem pending_outside {e : Outside} (h : e.exec q = some q') (i : J) :
    Queue.pending q' i = Queue.pending q i := by
  cases e with
  | add n time =>
    rw [Queue.pending, count_schedAdd h, if_neg nofun, Nat.add_zero, Queue.pending]
  | remove n =>
    have h : schedFindRemove q (.other n) () = some q' := h
    rw [Queue.pending, funcs_schedFindRemove h, List.count_erase, Queue.pending]
    simp
  | charge cycles =>
    have h : Sched.charge q cycles = some q' := h
    rw [Queue.pending, funcs_charge h, Queue.pending]

/-- A round of the scheduler takes the job that it calls off the queue. -/
theorem pending_dispatch {r : Option J} (h : dispatch q = some (r, q')) (i : J) :
    Queue.pending q i = Queue.pending q' i + if r = some i then 1 else 0 := by
  unfold dispatch at h
  split at h
  · cases h
    simp
  · obtain ⟨⟨e, u⟩, hpop, h⟩ := Option.bind_eq_some_iff.1 h
    have hcount : Queue.pending q i = Queue.pending u i + if e.func = .job i then 1 else 0 := by
      rw [Queue.pending, funcs_popJob hpop, List.count_cons, Queue.pending]
      simp only [beq_iff_eq]
    rw [hcount]
    dsimp only at h
    split at h
    case h_1 hf =>
      obtain ⟨v, hv, h⟩ := Option.map_eq_some_iff.1 h
      cases h
      rw [pending_schedGuard hv, hf, if_neg nofun, if_neg nofun]
    case h_2 j hf =>
      cases h
      simp only [hf, Fn.job.injEq, Option.some.injEq]
    case h_3 n hf =>
      cases h
      rw [hf, if_neg nofun, if_neg nofun]

theorem pending_idleQueue (j : J) : Queue.pending (idleQueue : Queue J) j = 0 := rfl

end Pending

end Sched
end Or1ksim
