import Or1ksim.Sched.Jobs

/-!
# Jobs for after the next instruction

`sched_next_insn` is called from inside a pass of `do_scheduler`, when other jobs may be overdue.

* `Pass` — the rest of a pass; `Instruction` — what the next instruction does to the queue;
* `RunsNext` — a queued job runs after the next instruction, neither earlier nor later;
* `run_dues` — a job stays queued, at its due time, until a round takes it;
* `exists_pass` — a pass whose jobs ask nothing of the scheduler;
* `runsNext_iff` — when `sched_next_insn` does what it is for.
-/

namespace Or1ksim
namespace Sched

variable {F P : Type} [DecidableEq F] [DecidableEq P]

/-! ### What comes after the call -/

/-- The event does not withdraw the jobs of a function with a parameter. -/
def Event.Spares (job : F × P) : Event F P → Prop
  | .remove f p => (f, p) ≠ job
  | _ => True

/-- The rest of a pass: rounds, and what their jobs ask of the scheduler, until nothing is due; with
the jobs that ran. -/
structure Pass (s : State F P) (es : List (Event F P)) (s' : State F P)
    (ran : List ((ℕ × F × P) × ℤ)) : Prop where
  calls : ∀ e ∈ es, e.Ok ∧ e.elapsed = 0
  run : run 0 s es = some (s', ran)
  idle : headDue s' = false

/-- An instruction: its scheduler calls and then its cycles. -/
structure Instruction (s : State F P) (es : List (Event F P)) (n : ℤ) (s' : State F P) :
    Prop where
  calls : ∀ e ∈ es, e.Ok ∧ e.elapsed = 0
  cycles : 1 ≤ n
  run : ∃ u, run 0 s es = some (u, []) ∧ charge u n = some s'

/-- The queued job runs after the next instruction: not in the rest of this pass, and at the latest
in the pass that follows the instruction, unless it is withdrawn. -/
structure RunsNext (s : State F P) (job : ℕ × F × P) : Prop where
  notNow : ∀ {es s₁ ran}, Pass s es s₁ ran → (∀ e ∈ es, e.Spares job.2) → ∀ x ∈ ran, x.1 ≠ job
  next : ∀ {es s₁ ran ops n s₂ es' s₃ ran'}, Pass s es s₁ ran → (∀ e ∈ es, e.Spares job.2) →
    Instruction s₁ ops n s₂ → (∀ e ∈ ops, e.Spares job.2) →
    Pass s₂ es' s₃ ran' → (∀ e ∈ es', e.Spares job.2) → ∃ x ∈ ran', x.1 = job

/-! ### A job until it runs -/

section Dues

variable {s s' : State F P} {x : (ℕ × F × P) × ℤ}

omit [DecidableEq F] [DecidableEq P] in
theorem cell_of_mem_dues (hx : x ∈ s.dues) : x.1.1 ∈ s.jobQueue.map Entry.cell := by
  have hdues : ∀ (base : ℤ) (q : List (Entry F P)), x ∈ DeltaQueue.dues base (q.map Entry.item) →
      x.1.1 ∈ q.map Entry.cell := by
    intro base q
    induction q generalizing base with
    | nil => intro h; cases h
    | cons cur rest ih =>
      intro h
      rcases List.mem_cons.1 h with rfl | h
      · exact .head _
      · exact .tail _ (ih _ h)
  exact hdues 0 s.jobQueue hx

omit [DecidableEq F] [DecidableEq P] in
theorem Inv.nodup (hs : Inv s) : (s.jobQueue.map Entry.cell).Nodup := by
  have hcells : s.cells.Nodup := hs.cells.nodup_iff.2 List.nodup_range
  rw [cells_eq] at hcells
  exact (List.nodup_append.1 hcells).1

omit [DecidableEq F] [DecidableEq P] in
theorem mem_dues_popJob {e : Entry F P} (hs : Inv s) (hx : x ∈ s.dues)
    (h : popJob s = some (e, s')) : x = e.item ∨ x ∈ s'.dues ∧ e.item.1 ≠ x.1 := by
  rw [dues_popJob h, List.mem_cons] at hx
  refine hx.imp_right fun hx => ⟨hx, fun hsame => ?_⟩
  obtain ⟨rest, hq, -, -, hcells⟩ := popJob_spec h
  have hnodup := hs.nodup
  rw [hq, List.map_cons, List.nodup_cons] at hnodup
  have hcell := cell_of_mem_dues hx
  rw [hcells, ← hsame] at hcell
  exact hnodup.1 hcell

/-- A job stays queued, at its due time, or a round takes it, when it is due. -/
theorem exec_dues {e : Event F P} {ran : List (Entry F P)} (hs : Inv s) (hok : e.Ok)
    (hel : e.elapsed = 0) (hspares : e.Spares x.1.2) (hx : x ∈ s.dues)
    (h : e.exec s = some (s', ran)) :
    (x ∈ s'.dues ∧ ∀ j ∈ ran, j.item.1 ≠ x.1) ∨ ran.map Entry.item = [x] ∧ x.2 ≤ 0 := by
  obtain ⟨f, p, t, rfl, h', rfl⟩ | ⟨f, p, rfl, h', rfl⟩ | ⟨n, rfl, h', rfl⟩ |
    ⟨j, rfl, hdue, h', rfl⟩ := exec_cases h
  · obtain ⟨c, l₁, l₂, hdues, hdues'⟩ := dues_schedAdd hok h'
    refine .inl ⟨?_, nofun⟩
    rw [hdues, List.mem_append] at hx
    rw [hdues', List.mem_append, List.mem_cons]
    tauto
  · refine .inl ⟨?_, nofun⟩
    rcases dues_schedFindRemove h' with ⟨hdues, -⟩ | ⟨c, d, l₁, l₂, hdues, -, hdues'⟩
    · rwa [hdues]
    · rw [hdues, List.mem_append, List.mem_cons] at hx
      rw [hdues', List.mem_append]
      rcases hx with hx | rfl | hx
      · exact .inl hx
      · exact absurd rfl hspares
      · exact .inr hx
  · refine .inl ⟨?_, nofun⟩
    obtain rfl : n = 0 := hel
    rw [dues_charge h']
    refine List.mem_map.2 ⟨x, hx, ?_⟩
    rw [sub_zero]
  · -- a round takes the head, which is this job or another one
    rcases mem_dues_popJob hs hx h' with rfl | ⟨hx, hne⟩
    · refine .inr ⟨rfl, ?_⟩
      obtain ⟨rest, hq, -⟩ := popJob_spec h'
      rw [headDue, hq] at hdue
      exact of_decide_eq_true hdue
    · refine .inl ⟨hx, fun j hj => ?_⟩
      rwa [List.mem_singleton.1 hj]

/-- **A job stays queued**, at its due time, until a round takes it, when it is due. -/
theorem run_dues {now : ℤ} {es : List (Event F P)} {ran : List ((ℕ × F × P) × ℤ)} (hs : Inv s)
    (hcalls : ∀ e ∈ es, e.Ok ∧ e.elapsed = 0) (hspares : ∀ e ∈ es, e.Spares x.1.2)
    (hx : x ∈ s.dues) (h : run now s es = some (s', ran)) :
    (x ∈ s'.dues ∧ ∀ y ∈ ran, y.1 ≠ x.1) ∨ (∃ y ∈ ran, y.1 = x.1) ∧ x.2 ≤ 0 := by
  induction es generalizing now s ran with
  | nil =>
    cases h
    exact .inl ⟨hx, nofun⟩
  | cons e es ih =>
    obtain ⟨⟨u, ran₁⟩, h₁, h⟩ := Option.bind_eq_some_iff.1 h
    obtain ⟨⟨v, ran₂⟩, h₂, h⟩ := Option.map_eq_some_iff.1 h
    cases h
    obtain ⟨hok, hel⟩ := hcalls e (.head _)
    rcases exec_dues hs hok hel (hspares e (.head _)) hx h₁ with ⟨hu, hne⟩ | ⟨hran, hdue⟩
    · refine (ih (hs.exec hok h₁) (fun e he => hcalls e (.tail _ he))
        (fun e he => hspares e (.tail _ he)) hu h₂).imp ?_ ?_
      · rintro ⟨hv, hne₂⟩
        refine ⟨hv, fun y hy => ?_⟩
        rcases List.mem_append.1 hy with hy | hy
        · obtain ⟨j, hj, rfl⟩ := List.mem_map.1 hy
          exact hne j hj
        · exact hne₂ y hy
      · rintro ⟨⟨y, hy, hyx⟩, hdue⟩
        exact ⟨⟨y, List.mem_append_right _ hy, hyx⟩, hdue⟩
    · refine .inr ⟨?_, hdue⟩
      obtain ⟨j, rfl, hj⟩ := List.map_eq_singleton_iff.1 hran
      have hjob : j.item.1 = x.1 := congrArg Prod.fst hj
      exact ⟨ranAt now j, .head _, hjob⟩

end Dues

/-! ### Passes that end -/

section InRange

variable {s s' : State F P} {f : F} {p : P} {t : ℤ}

omit [DecidableEq F] [DecidableEq P]

/-- The stored times are values of an `int32_t`. -/
def State.InRange (s : State F P) : Prop := ∀ e ∈ s.jobQueue, -2 ^ 31 ≤ e.time ∧ e.time < 2 ^ 31

theorem int32_range {x y : ℤ} (h : int32 x = some y) : -2 ^ 31 ≤ y ∧ y < 2 ^ 31 := by
  unfold int32 at h
  split at h
  case isTrue hrange =>
    cases h
    exact hrange
  case isFalse => cases h

theorem int32_of_range {x : ℤ} (h : -2 ^ 31 ≤ x ∧ x < 2 ^ 31) : int32 x = some x := if_pos h

theorem adjustNext_range {k : ℤ} {q q' : List (Entry F P)}
    (hq : ∀ e ∈ q, -2 ^ 31 ≤ e.time ∧ e.time < 2 ^ 31) (h : adjustNext k q = some q') :
    ∀ e ∈ q', -2 ^ 31 ≤ e.time ∧ e.time < 2 ^ 31 := by
  cases q with
  | nil =>
    cases h
    exact hq
  | cons cur rest =>
    obtain ⟨t, ht, rfl⟩ := Option.map_eq_some_iff.1 h
    intro e he
    rcases List.mem_cons.1 he with rfl | he
    · exact int32_range ht
    · exact hq e (.tail _ he)

theorem State.InRange.schedAdd (hs : s.InRange) (ht : 0 ≤ t ∧ t < 2 ^ 31)
    (h : schedAdd s f p t = some s') : s'.InRange := by
  obtain ⟨head, rest, new, free, pre, post, alltime, x, post', hqueue, -, hwalk, hx, hpost', rfl⟩ :=
    schedAdd_eq_some h
  have hsplit : s.jobQueue = pre ++ post := hqueue.trans (addWalk_append hwalk)
  have hpost : ∀ e ∈ post, -2 ^ 31 ≤ e.time ∧ e.time < 2 ^ 31 :=
    fun e he => hs e (by rw [hsplit]; exact List.mem_append_right _ he)
  -- the jobs before the new one, the new one, and those after it, of which one is adjusted
  intro e he
  rcases List.mem_append.1 he with he | he
  · exact hs e (by rw [hsplit]; exact List.mem_append_left _ he)
  · rcases List.mem_cons.1 he with rfl | he
    · unfold newJobTime at hx
      split at hx
      case h_1 =>
        obtain ⟨before, -, hx⟩ := Option.bind_eq_some_iff.1 hx
        exact int32_range hx
      case h_2 =>
        rw [if_pos ht.1] at hx
        cases hx
        exact ⟨by dsimp only; omega, ht.2⟩
    · exact adjustNext_range hpost hpost' e he

theorem State.InRange.popJob {e : Entry F P} (hs : s.InRange)
    (h : popJob s = some (e, s')) : s'.InRange := by
  obtain ⟨next, rest, t, hqueue, ht, rfl⟩ := popJob_eq_some h
  intro e' he
  rcases List.mem_cons.1 he with rfl | he
  · exact int32_range ht
  · exact hs e' (by rw [hqueue]; exact .tail _ (.tail _ he))

theorem State.InRange.charge {n : ℤ} (hs : s.InRange) (h : charge s n = some s') :
    s'.InRange := by
  obtain ⟨free, queue⟩ := s
  cases queue with
  | nil => cases h
  | cons head rest =>
    obtain ⟨t, ht, rfl⟩ := Option.map_eq_some_iff.1 h
    intro e he
    rcases List.mem_cons.1 he with rfl | he
    · exact int32_range ht
    · exact hs e (.tail _ he)

/-- While a job is queued that is not due, a round does not run out of jobs or out of range. -/
theorem exists_popJob {x : (ℕ × F × P) × ℤ} (hs : Inv s) (hr : s.InRange) (hx : x ∈ s.dues)
    (hlater : 0 < x.2) (hdue : headDue s = true) : ∃ e s', Sched.popJob s = some (e, s') := by
  obtain ⟨free, queue⟩ := s
  match queue with
  | [] => cases hx
  | [tmp] =>
    have htmp : tmp.time ≤ 0 := of_decide_eq_true hdue
    obtain rfl := List.mem_singleton.1 hx
    change 0 < 0 + tmp.time at hlater
    omega
  | tmp :: next :: rest =>
    have htmp : tmp.time ≤ 0 := of_decide_eq_true hdue
    have hnext : 0 ≤ next.time := hs.ordered next.item (.head _)
    have hrange : -2 ^ 31 ≤ next.time + tmp.time ∧ next.time + tmp.time < 2 ^ 31 := by
      have := hr tmp (.head _)
      have := hr next (.tail _ (.head _))
      omega
    exact ⟨_, _, Option.map_eq_some_iff.2 ⟨_, int32_of_range hrange, rfl⟩⟩

end InRange

/-- A pass whose jobs ask nothing of the scheduler ends, if some job is queued for later. -/
theorem exists_pass {s : State F P} {x : (ℕ × F × P) × ℤ} (hs : Inv s) (hr : s.InRange)
    (hx : x ∈ s.dues) (hlater : 0 < x.2) :
    ∃ n s' ran, Pass s (List.replicate n .pop) s' ran ∧ s'.InRange := by
  -- Each round takes a job off the queue, and never the one that is queued for later.
  induction hlen : s.jobQueue.length generalizing s with
  | zero =>
    rw [State.dues, State.items, List.eq_nil_of_length_eq_zero hlen] at hx
    cases hx
  | succ m ih =>
    cases hdue : headDue s with
    | false => exact ⟨0, s, [], ⟨List.forall_mem_nil _, rfl, hdue⟩, hr⟩
    | true =>
      obtain ⟨e, u, hpop⟩ := exists_popJob hs hr hx hlater hdue
      have hexec : (Event.pop : Event F P).exec s = some (u, [e]) := by
        rw [Event.exec, if_pos hdue, hpop]
        rfl
      have hxu : x ∈ u.dues := by
        rcases exec_dues hs (e := .pop) trivial rfl trivial hx hexec with ⟨hx, -⟩ | ⟨-, hle⟩
        · exact hx
        · omega
      have hshorter : u.jobQueue.length = m := by
        obtain ⟨rest, hq, -, -, hcells⟩ := popJob_spec hpop
        have hlength := congrArg List.length hcells
        rw [List.length_map, List.length_map] at hlength
        rw [hq, List.length_cons] at hlen
        omega
      obtain ⟨n, v, ran, hpass, hrv⟩ := ih (hs.popJob hpop) (hr.popJob hpop) hxu hshorter
      refine ⟨n + 1, v, ranAt 0 e :: ran, ⟨?_, ?_, hpass.idle⟩, hrv⟩
      · intro e he
        rw [List.eq_of_mem_replicate he]
        exact ⟨trivial, rfl⟩
      · rw [List.replicate_succ, run, hexec, Option.bind_some]
        simp only [Event.elapsed, add_zero, hpass.run]
        rfl

/-! ### The due time of the job -/

section NextInsn

variable {s s' : State F P} {f : F} {p : P} {new : Entry F P}

omit [DecidableEq F] [DecidableEq P] in
/-- In an ordered queue only the head is overdue by itself. -/
theorem nextInsnCycles_of_ordered {head : Entry F P} {rest : List (Entry F P)} {c : ℤ}
    (hordered : ∀ e ∈ rest, 0 ≤ e.time) (h : nextInsnCycles (head :: rest) 1 = some c) :
    c = 1 - min 0 head.time ∧ c < 2 ^ 31 := by
  rw [nextInsnCycles] at h
  split at h
  case isTrue hneg =>
    obtain ⟨c', hc', h⟩ := Option.bind_eq_some_iff.1 h
    have hrange := int32_range hc'
    have hc := int32_eq_some hc'
    have hrest : nextInsnCycles rest c' = some c' := by
      cases rest with
      | nil => rfl
      | cons next rest => exact if_neg (not_lt.2 (hordered next (.head _)))
    cases hrest.symm.trans h
    rw [min_eq_right hneg.le]
    exact ⟨hc, hrange.2⟩
  case isFalse hneg =>
    cases h
    rw [min_eq_left (not_lt.1 hneg)]
    exact ⟨rfl, by decide⟩

omit [DecidableEq F] [DecidableEq P] in
/-- `sched_next_insn` queues its job for one cycle more than the head is overdue. -/
theorem schedNextInsn_spec (hs : Inv s) (hr : s.InRange) (hnew : s.freeJobQueue.head? = some new)
    (h : schedNextInsn s f p = some s') :
    ∃ head, s.jobQueue.head? = some head ∧
      ((new.cell, f, p), 1 - min 0 head.time) ∈ s'.dues ∧ Inv s' ∧ s'.InRange := by
  obtain ⟨c, hc, h⟩ := Option.bind_eq_some_iff.1 h
  cases hq : s.jobQueue with
  | nil =>
    unfold schedAdd at h
    rw [hq] at h
    cases h
  | cons head rest =>
    rw [hq] at hc
    -- only the head can be overdue, so the walk adds its delay and stops
    have hordered : ∀ e ∈ rest, 0 ≤ e.time := by
      intro e he
      refine hs.ordered e.item ?_
      rw [State.items, hq]
      exact List.mem_map_of_mem he
    obtain ⟨hcycles, hlt⟩ := nextInsnCycles_of_ordered hordered hc
    have hpos : 0 ≤ c := by
      have := min_le_left 0 head.time
      omega
    refine ⟨head, rfl, ?_, hs.schedAdd hpos h, hr.schedAdd ⟨hpos, hlt⟩ h⟩
    obtain ⟨new', pre, post, x, hfree, hsplit, hx, -, -, hitems, -⟩ := schedAdd_spec hpos h
    rw [hfree, List.head?_cons] at hnew
    cases hnew
    rw [State.dues, hitems, DeltaQueue.dues_insert, zero_add, hx, add_sub_cancel, ← hcycles]
    exact List.mem_append_right _ (.head _)

/-- A job that is due one cycle from now runs after the next instruction. -/
theorem runsNext_of_due {job : ℕ × F × P} (hs : Inv s) (hx : (job, 1) ∈ s.dues) :
    RunsNext s job where
  notNow hpass hspares := by
    rcases run_dues hs hpass.calls hspares hx hpass.run with ⟨-, hne⟩ | ⟨-, hle⟩
    · exact hne
    · exact absurd hle (not_le.2 Int.one_pos)
  next {es s₁ ran ops n s₂ es' s₃ ran'} hpass hspares hinsn hspares₁ hpass' hspares' := by
    have hs₁ : Inv s₁ := hs.run (fun e he => (hpass.calls e he).1) hpass.run
    have hx₁ : (job, (1 : ℤ)) ∈ s₁.dues := by
      rcases run_dues hs hpass.calls hspares hx hpass.run with ⟨hx₁, -⟩ | ⟨-, hle⟩
      · exact hx₁
      · exact absurd hle (not_le.2 Int.one_pos)
    obtain ⟨u, hrun, hcharge⟩ := hinsn.run
    have hu : Inv u := hs₁.run (fun e he => (hinsn.calls e he).1) hrun
    have hxu : (job, (1 : ℤ)) ∈ u.dues := by
      rcases run_dues hs₁ hinsn.calls hspares₁ hx₁ hrun with ⟨hxu, -⟩ | ⟨-, hle⟩
      · exact hxu
      · exact absurd hle (not_le.2 Int.one_pos)
    -- The cycles of the instruction make it due.
    have hx₂ : (job, 1 - n) ∈ s₂.dues := by
      rw [dues_charge hcharge]
      exact List.mem_map_of_mem hxu
    have hs₂ : Inv s₂ := hu.charge hcharge
    have hdue : 1 - n ≤ 0 := by
      have := hinsn.cycles
      omega
    rcases run_dues hs₂ hpass'.calls hspares' hx₂ hpass'.run with ⟨hx₃, -⟩ | ⟨hran, -⟩
    · have hs₃ : Inv s₃ := hs₂.run (fun e he => (hpass'.calls e he).1) hpass'.run
      exact absurd ⟨_, hx₃, rfl, hdue⟩ (not_due_of_headDue hs₃ hpass'.idle)
    · exact hran

/-- A job that is due later does not run after an instruction of one cycle. -/
theorem not_runsNext_of_due {job : ℕ × F × P} {t : ℤ} (hs : Inv s) (hr : s.InRange)
    (ht : 1 < t) (hx : (job, t) ∈ s.dues) : ¬RunsNext s job := by
  intro hnext
  have hpops : ∀ {n : ℕ} {e : Event F P}, e ∈ List.replicate n Event.pop → e.Spares job.2 := by
    intro n e he
    rw [List.eq_of_mem_replicate he]
    trivial
  obtain ⟨n, s₁, ran, hpass, hr₁⟩ := exists_pass hs hr hx (by dsimp only; omega)
  have hs₁ : Inv s₁ := hs.run (fun e he => (hpass.calls e he).1) hpass.run
  have hx₁ : (job, t) ∈ s₁.dues := by
    rcases run_dues hs hpass.calls (fun _ => hpops) hx hpass.run with ⟨hx₁, -⟩ | ⟨-, hle⟩
    · exact hx₁
    · exact absurd hle (by dsimp only; omega)
  -- The head is not due, so that a cycle can be charged to it.
  obtain ⟨s₂, hcharge⟩ : ∃ s₂, charge s₁ 1 = some s₂ := by
    have hidle := hpass.idle
    obtain ⟨free, queue⟩ := s₁
    cases queue with
    | nil => cases hx₁
    | cons head rest =>
      simp only [headDue, decide_eq_false_iff_not] at hidle
      have hhead := hr₁ head (.head _)
      exact ⟨_, Option.map_eq_some_iff.2 ⟨_, int32_of_range (by omega), rfl⟩⟩
  have hx₂ : (job, t - 1) ∈ s₂.dues := by
    rw [dues_charge hcharge]
    exact List.mem_map_of_mem hx₁
  have hs₂ : Inv s₂ := hs₁.charge hcharge
  have hinsn : Instruction s₁ [] 1 s₂ := ⟨List.forall_mem_nil _, le_rfl, s₁, rfl, hcharge⟩
  obtain ⟨m, s₃, ran', hpass', -⟩ :=
    exists_pass hs₂ (hr₁.charge hcharge) hx₂ (by dsimp only; omega)
  obtain ⟨y, hy, hjob⟩ := hnext.next hpass (fun _ => hpops) hinsn (List.forall_mem_nil _) hpass'
    (fun _ => hpops)
  rcases run_dues hs₂ hpass'.calls (fun _ => hpops) hx₂ hpass'.run with ⟨-, hne⟩ | ⟨-, hle⟩
  · exact hne y hy hjob
  · exact absurd hle (by dsimp only; omega)

/-- **`sched_next_insn` queues its job for after the next instruction** exactly if the job at the
head of the queue is not overdue. -/
theorem runsNext_iff {guard : F} {null : P} (hs : Reachable guard null s) (hr : s.InRange)
    (hnew : s.freeJobQueue.head? = some new) (h : schedNextInsn s f p = some s') :
    RunsNext s' (new.cell, f, p) ↔ ∀ head ∈ s.jobQueue.head?, 0 ≤ head.time := by
  obtain ⟨head, hhead, hx, hs', hr'⟩ := schedNextInsn_spec hs.inv hr hnew h
  constructor
  · intro hnext head' hhead'
    cases hhead.symm.trans hhead'
    by_contra hneg
    rw [min_eq_right (not_le.1 hneg).le] at hx
    exact not_runsNext_of_due hs' hr' (by omega) hx hnext
  · intro hnot
    rw [min_eq_left (hnot head hhead)] at hx
    exact runsNext_of_due hs' hx

/-- In the pass after an instruction of some cycles that follows two jobs queued for one cycle: the
queue when the first of them calls `sched_next_insn`. -/
theorem pass_run (cycles : ℤ) (hcycles : cycles = 1 ∨ cycles = 5) :
    ∃ s s' : State Bool ℕ, ∃ new, Reachable true 0 s ∧ s.InRange ∧
      s.freeJobQueue.head? = some new ∧ schedNextInsn s false 2 = some s' ∧
      s.jobQueue.head?.map Entry.time = some (1 - cycles) := by
  obtain ⟨s₀, s, s', ran, new, hinit, hrun, hnew, hnext, htimes⟩ :
      ∃ (s₀ s s' : State Bool ℕ) (ran : List ((ℕ × Bool × ℕ) × ℤ)) (new : Entry Bool ℕ),
        schedInit true 0 (fun _ => (0, 0, false)) = some s₀ ∧
        run 0 s₀ [.add false 0 1, .add false 1 1, .charge cycles, .pop] = some (s, ran) ∧
        s.freeJobQueue.head? = some new ∧ schedNextInsn s false 2 = some s' ∧
        s.jobQueue.map Entry.time = [1 - cycles, 2 ^ 31 - 2] := by
    rcases hcycles with rfl | rfl <;> exact ⟨_, _, _, _, _, rfl, rfl, rfl, rfl, rfl⟩
  have hok : ∀ e ∈ ([.add false 0 1, .add false 1 1, .charge cycles, .pop] :
      List (Event Bool ℕ)), e.Ok := by
    intro e he
    simp only [List.mem_cons, List.not_mem_nil, or_false] at he
    rcases he with rfl | rfl | rfl | rfl
    · exact Int.one_nonneg
    · exact Int.one_nonneg
    · show 0 ≤ cycles
      omega
    · trivial
  refine ⟨s, s', new, (Reachable.init hinit).run hok hrun, fun e he => ?_, hnew, hnext, ?_⟩
  · have hmem : e.time ∈ s.jobQueue.map Entry.time := List.mem_map_of_mem he
    rw [htimes] at hmem
    simp only [List.mem_cons, List.not_mem_nil, or_false] at hmem
    omega
  · rw [← List.head?_map, htimes]
    rfl

/-- After an instruction of five cycles the second job is overdue by four, and the new job waits for
five cycles. -/
theorem not_runsNext_overdue :
    ¬∀ (s s' : State Bool ℕ) (f : Bool) (p : ℕ) (new : Entry Bool ℕ), Reachable true 0 s →
      s.InRange → s.freeJobQueue.head? = some new → schedNextInsn s f p = some s' →
      RunsNext s' (new.cell, f, p) := by
  intro h
  obtain ⟨s, s', new, hs, hr, hnew, hnext, htime⟩ := pass_run 5 (.inr rfl)
  obtain ⟨head, hhead, hx, hs', hr'⟩ := schedNextInsn_spec hs.inv hr hnew hnext
  rw [hhead] at htime
  have htime : head.time = 1 - 5 := Option.some.inj htime
  rw [htime] at hx
  exact not_runsNext_of_due hs' hr' (by decide) hx (h s s' false 2 new hs hr hnew hnext)

/-- After an instruction of one cycle the second job is due but not overdue. -/
theorem runsNext_pass :
    ∃ s s' : State Bool ℕ, ∃ new : Entry Bool ℕ, Reachable true 0 s ∧ s.InRange ∧
      s.freeJobQueue.head? = some new ∧ schedNextInsn s false 2 = some s' ∧
      (RunsNext s' (new.cell, false, 2) ↔ ∀ head ∈ s.jobQueue.head?, 0 ≤ head.time) := by
  obtain ⟨s, s', new, hs, hr, hnew, hnext, -⟩ := pass_run 1 (.inl rfl)
  exact ⟨s, s', new, hs, hr, hnew, hnext, runsNext_iff hs hr hnew hnext⟩

end NextInsn

end Sched
end Or1ksim
