import Mathlib.Data.List.Perm.Basic
import Or1ksim.Sched.Basic

/-!
# The scheduler keeps due times

The queue of the scheduler is a delta queue over its cells.  Each operation is matched with the
operation of `DeltaQueue` it performs, and what one operation preserves is carried along every run.

* `schedAdd_spec`, `schedFindRemove_spec`, `popJob_spec` — the operations on the queue;
* `Inv` — stored times behind the head are non-negative and the 128 cells are shared out between
  the two lists;
* `Event`, `run` — the scheduler as the simulator drives it, on a clock;
* `run_pairwise` — **jobs run in non-decreasing due time**;
* `doScheduler_run` — a pass of `do_scheduler` with re-entrant jobs is such a run;
* `sched_correct` — **scheduler correctness** in every reachable state.
-/

namespace Or1ksim
namespace Sched

open DeltaQueue

variable {F P : Type}

/-- A job as an item of a delta queue: its cell, function and parameter, and its stored time. -/
def Entry.item (e : Entry F P) : (ℕ × F × P) × ℤ := ((e.cell, e.func, e.param), e.time)

/-- The job queue as a delta queue. -/
def State.items (s : State F P) : List ((ℕ × F × P) × ℤ) := s.jobQueue.map Entry.item

/-- The queued jobs with their due times: the sum of the time fields from the head up to them. -/
def State.dues (s : State F P) : List ((ℕ × F × P) × ℤ) := DeltaQueue.dues 0 s.items

/-- The cells of both lists. -/
def State.cells (s : State F P) : List ℕ := (s.jobQueue ++ s.freeJobQueue).map Entry.cell

theorem int32_eq_some {x y : ℤ} (h : int32 x = some y) : y = x := by
  unfold int32 at h
  split_ifs at h
  exact (Option.some.inj h).symm

/-! ### The operations on the queue -/

theorem schedAdd_eq_some {s s' : State F P} {f : F} {p : P} {t : ℤ}
    (h : schedAdd s f p t = some s') :
    ∃ head rest new free pre post alltime x post',
      s.jobQueue = head :: rest ∧ s.freeJobQueue = new :: free ∧
      addWalk t (head :: rest) head.time = some (pre, post, alltime) ∧
      newJobTime t alltime pre post = some x ∧ adjustNext (-x) post = some post' ∧
      s' = ⟨free, pre ++ { new with time := x, param := p, func := f } :: post'⟩ := by
  obtain ⟨free, queue⟩ := s
  cases queue with
  | nil => cases h
  | cons head rest =>
    cases free with
    | nil => cases h
    | cons new free =>
      obtain ⟨⟨pre, post, alltime⟩, hwalk, h⟩ := Option.bind_eq_some_iff.1 h
      obtain ⟨x, hx, h⟩ := Option.bind_eq_some_iff.1 h
      obtain ⟨post', hpost', h⟩ := Option.bind_eq_some_iff.1 h
      cases h
      exact ⟨head, rest, new, free, pre, post, alltime, x, post', rfl, rfl, hwalk, hx, hpost', rfl⟩

theorem popJob_eq_some {s s' : State F P} {e : Entry F P} (h : popJob s = some (e, s')) :
    ∃ next rest t, s.jobQueue = e :: next :: rest ∧ int32 (next.time + e.time) = some t ∧
      s' = ⟨e :: s.freeJobQueue, { next with time := t } :: rest⟩ := by
  obtain ⟨free, queue⟩ := s
  match queue with
  | [] => cases h
  | [_] => cases h
  | tmp :: next :: rest =>
    obtain ⟨t, ht, h⟩ := Option.map_eq_some_iff.1 h
    cases h
    exact ⟨next, rest, t, rfl, ht, rfl⟩

theorem adjustNext_spec {k : ℤ} {q q' : List (Entry F P)} (h : adjustNext k q = some q') :
    q'.map Entry.item = bump k (q.map Entry.item) ∧ q'.map Entry.cell = q.map Entry.cell := by
  cases q with
  | nil =>
    cases h
    exact ⟨rfl, rfl⟩
  | cons cur rest =>
    obtain ⟨t, ht, rfl⟩ := Option.map_eq_some_iff.1 h
    rw [int32_eq_some ht]
    exact ⟨rfl, rfl⟩

theorem accTime_spec {alltime next : ℤ} {rest : List (Entry F P)}
    (h : accTime alltime rest = some next) : ∀ c ∈ rest.head?, next = alltime + c.time := by
  intro c hc
  cases rest with
  | nil => cases hc
  | cons d rest =>
    cases hc
    exact int32_eq_some h

/-- What the search loop of `sched_add` establishes, counting due times from `base`. -/
theorem addWalk_spec {jobTime base alltime alltime' : ℤ} {q pre post : List (Entry F P)}
    (h : addWalk jobTime q alltime = some (pre, post, alltime'))
    (hall : ∀ c ∈ q.head?, alltime = base + c.time) :
    q = pre ++ post ∧
      (q ≠ [] → alltime' - timeOf post = base + total (pre.map Entry.item)) ∧
      (pre ≠ [] → base + total (pre.map Entry.item) < jobTime) ∧
      ∀ c ∈ post.head?, jobTime ≤ base + total (pre.map Entry.item) + c.time := by
  induction q generalizing base alltime pre with
  | nil =>
    cases h
    simp
  | cons cur rest ih =>
    have hcur : alltime = base + cur.time := hall cur rfl
    rw [addWalk] at h
    split_ifs at h with hlt
    · obtain ⟨next, hnext, h⟩ := Option.bind_eq_some_iff.1 h
      obtain ⟨⟨pre', post', all'⟩, hwalk, h⟩ := Option.bind_eq_some_iff.1 h
      cases h
      -- The loop goes on from the next job, whose due times count from this one.
      have hhead : ∀ c ∈ rest.head?, next = base + cur.time + c.time := hcur ▸ accTime_spec hnext
      obtain ⟨hsplit, hbefore, hpre, hpost⟩ := ih hwalk hhead
      have htotal : base + cur.time + total (pre'.map Entry.item) =
          base + total ((cur :: pre').map Entry.item) := by
        rw [List.map_cons, total_cons, ← add_assoc]
        rfl
      rw [htotal] at hbefore hpre hpost
      refine ⟨by rw [hsplit, List.cons_append], fun _ => ?_, fun _ => ?_, hpost⟩
      · cases rest with
        | nil =>
          cases hwalk
          cases hnext
          simp only [timeOf, sub_zero, hcur, List.map_cons, List.map_nil, total_cons, total_nil,
            add_zero]
          rfl
        | cons d rest => exact hbefore (List.cons_ne_nil _ _)
      · cases pre' with
        | nil =>
          rw [← htotal]
          simp only [List.map_nil, total_nil, add_zero]
          omega
        | cons d pre' => exact hpre (List.cons_ne_nil _ _)
    · cases h
      refine ⟨rfl, fun _ => ?_, fun hne => absurd rfl hne, fun c hc => ?_⟩
      · simp only [timeOf, hcur, List.map_nil, total_nil]
        omega
      · cases hc
        simp only [List.map_nil, total_nil]
        omega

/-- The jobs that the search loop of `sched_add` passes are due before the new one. -/
theorem dues_addWalk {jobTime base alltime alltime' : ℤ} {q pre post : List (Entry F P)}
    (h : addWalk jobTime q alltime = some (pre, post, alltime'))
    (hall : ∀ c ∈ q.head?, alltime = base + c.time) :
    ∀ x ∈ DeltaQueue.dues base (pre.map Entry.item), x.2 < jobTime := by
  induction q generalizing base alltime pre with
  | nil =>
    cases h
    nofun
  | cons cur rest ih =>
    have hcur : alltime = base + cur.time := hall cur rfl
    rw [addWalk] at h
    split_ifs at h with hlt
    · obtain ⟨next, hnext, h⟩ := Option.bind_eq_some_iff.1 h
      obtain ⟨⟨pre', post', all'⟩, hwalk, h⟩ := Option.bind_eq_some_iff.1 h
      cases h
      have hhead : ∀ c ∈ rest.head?, next = base + cur.time + c.time := hcur ▸ accTime_spec hnext
      intro x hx
      rcases List.mem_cons.1 hx with rfl | hx
      · exact hcur ▸ hlt
      · exact ih hwalk hhead x hx
    · cases h
      nofun

/-- **`sched_add`** inserts the new job where the due times reach `jobTime`, with the rest of its
time as stored time, and takes that off the job behind it. -/
theorem schedAdd_spec {s s' : State F P} {f : F} {p : P} {t : ℤ} (ht : 0 ≤ t)
    (h : schedAdd s f p t = some s') :
    ∃ new pre post x, s.freeJobQueue = new :: s'.freeJobQueue ∧ s.jobQueue = pre ++ post ∧
      x = t - total (pre.map Entry.item) ∧ (pre ≠ [] → 0 ≤ x) ∧ (∀ c ∈ post.head?, x ≤ c.time) ∧
      s'.items = pre.map Entry.item ++ ((new.cell, f, p), x) :: bump (-x) (post.map Entry.item) ∧
      s'.jobQueue.map Entry.cell = pre.map Entry.cell ++ new.cell :: post.map Entry.cell ∧
      ∀ y ∈ DeltaQueue.dues 0 (pre.map Entry.item), y.2 < t := by
  obtain ⟨head, rest, new, free, pre, post, alltime, x, post', hqueue, hfree, hwalk, hx, hpost',
      rfl⟩ :=
    schedAdd_eq_some h
  have hhead : ∀ c ∈ (head :: rest).head?, head.time = 0 + c.time := by
    rintro c ⟨⟩
    rw [zero_add]
  obtain ⟨hsplit, hbefore, hpre, hpost⟩ := addWalk_spec hwalk hhead
  have hbefore := hbefore (List.cons_ne_nil _ _)
  simp only [zero_add] at hbefore hpre hpost
  have hval : x = t - total (pre.map Entry.item) := by
    cases pre with
    | nil =>
      rw [newJobTime, if_pos ht] at hx
      cases hx
      simp
    | cons a pre =>
      obtain ⟨before, hb, hx⟩ := Option.bind_eq_some_iff.1 hx
      rw [int32_eq_some hx, int32_eq_some hb, hbefore]
  obtain ⟨hitems, hcells⟩ := adjustNext_spec hpost'
  refine ⟨new, pre, post, x, hfree, hqueue.trans hsplit, hval, fun hne => ?_, fun c hc => ?_, ?_,
    ?_,
    dues_addWalk hwalk hhead⟩
  · have := hpre hne
    omega
  · have := hpost c hc
    omega
  · simp only [State.items, List.map_append, List.map_cons, hitems]
    rfl
  · simp only [List.map_append, List.map_cons, hcells]

section Remove

variable [DecidableEq F] [DecidableEq P]

theorem findJob_spec {f : F} {p : P} {q pre post : List (Entry F P)} {cur : Entry F P}
    (h : findJob f p q = some (pre, cur, post)) :
    q = pre ++ cur :: post ∧ cur.func = f ∧ cur.param = p ∧
      ∀ c ∈ pre, ¬(c.func = f ∧ c.param = p) := by
  induction q generalizing pre with
  | nil => cases h
  | cons c q ih =>
    rw [findJob] at h
    split_ifs at h with hc
    · cases h
      exact ⟨rfl, hc.1, hc.2, by simp⟩
    · obtain ⟨⟨pre', cur', post'⟩, hfind, h⟩ := Option.map_eq_some_iff.1 h
      cases h
      obtain ⟨hq, hf, hp, hpre⟩ := ih hfind
      refine ⟨by rw [hq, List.cons_append], hf, hp, ?_⟩
      intro d hd
      rcases List.mem_cons.1 hd with rfl | hd
      · exact hc
      · exact hpre d hd

theorem findJob_eq_none {f : F} {p : P} {q : List (Entry F P)} (h : findJob f p q = none) :
    ∀ c ∈ q, ¬(c.func = f ∧ c.param = p) := by
  induction q with
  | nil => simp
  | cons c q ih =>
    rw [findJob] at h
    split_ifs at h with hc
    rw [Option.map_eq_none_iff] at h
    intro d hd
    rcases List.mem_cons.1 hd with rfl | hd
    · exact hc
    · exact ih h d hd

/-- **`sched_find_remove`** unlinks the first matching job and gives its stored time to the job
behind it, or does nothing. -/
theorem schedFindRemove_spec {s s' : State F P} {f : F} {p : P}
    (h : schedFindRemove s f p = some s') :
    (s' = s ∧ ∀ c ∈ s.jobQueue, ¬(c.func = f ∧ c.param = p)) ∨
      ∃ pre cur post, s.jobQueue = pre ++ cur :: post ∧ cur.func = f ∧ cur.param = p ∧
        (∀ c ∈ pre, ¬(c.func = f ∧ c.param = p)) ∧ s'.freeJobQueue = cur :: s.freeJobQueue ∧
        s'.items = pre.map Entry.item ++ bump cur.time (post.map Entry.item) ∧
        s'.jobQueue.map Entry.cell = pre.map Entry.cell ++ post.map Entry.cell := by
  unfold schedFindRemove at h
  cases hfind : findJob f p s.jobQueue with
  | none =>
    rw [hfind] at h
    cases h
    exact .inl ⟨rfl, findJob_eq_none hfind⟩
  | some r =>
    obtain ⟨pre, cur, post⟩ := r
    rw [hfind] at h
    obtain ⟨post', hpost', rfl⟩ := Option.map_eq_some_iff.1 h
    obtain ⟨hq, hf, hp, hpre⟩ := findJob_spec hfind
    obtain ⟨hitems, hcells⟩ := adjustNext_spec hpost'
    refine .inr ⟨pre, cur, post, hq, hf, hp, hpre, rfl, ?_, ?_⟩
    · simp only [State.items, List.map_append, hitems]
    · simp only [List.map_append, hcells]

end Remove

/-- **Popping** frees the head and gives its stored time to the next job. -/
theorem popJob_spec {s s' : State F P} {e : Entry F P} (h : popJob s = some (e, s')) :
    ∃ rest, s.jobQueue = e :: rest ∧ s'.freeJobQueue = e :: s.freeJobQueue ∧
      s'.items = bump e.time (rest.map Entry.item) ∧
      s'.jobQueue.map Entry.cell = rest.map Entry.cell := by
  obtain ⟨next, rest, t, hqueue, ht, rfl⟩ := popJob_eq_some h
  rw [int32_eq_some ht]
  exact ⟨next :: rest, hqueue, rfl, rfl, rfl⟩

theorem charge_spec {s s' : State F P} {n : ℤ} (h : charge s n = some s') :
    s'.freeJobQueue = s.freeJobQueue ∧ s'.items = bump (-n) s.items ∧
      s'.jobQueue.map Entry.cell = s.jobQueue.map Entry.cell := by
  obtain ⟨free, queue⟩ := s
  cases queue with
  | nil => cases h
  | cons head rest =>
    obtain ⟨t, ht, rfl⟩ := Option.map_eq_some_iff.1 h
    rw [int32_eq_some ht]
    exact ⟨rfl, rfl, rfl⟩

/-! ### Due times -/

theorem dues_eq_append {s : State F P} {pre post : List (Entry F P)}
    (h : s.jobQueue = pre ++ post) :
    s.dues = DeltaQueue.dues 0 (pre.map Entry.item) ++
      DeltaQueue.dues (total (pre.map Entry.item)) (post.map Entry.item) := by
  rw [State.dues, State.items, h, List.map_append, dues_append, zero_add]

/-- `sched_add` inserts one job, due at `t`, behind jobs that are due before it, and leaves every
other due time alone. -/
theorem dues_schedAdd_lt {s s' : State F P} {f : F} {p : P} {t : ℤ} (ht : 0 ≤ t)
    (h : schedAdd s f p t = some s') :
    ∃ c l₁ l₂, s.dues = l₁ ++ l₂ ∧ s'.dues = l₁ ++ ((c, f, p), t) :: l₂ ∧ ∀ y ∈ l₁, y.2 < t := by
  obtain ⟨new, pre, post, x, -, hq, hx, -, -, hitems, -, hlt⟩ := schedAdd_spec ht h
  refine ⟨new.cell, _, _, dues_eq_append hq, ?_, hlt⟩
  rw [State.dues, hitems, dues_insert, zero_add, hx]
  congr 3
  ring

theorem dues_schedAdd {s s' : State F P} {f : F} {p : P} {t : ℤ} (ht : 0 ≤ t)
    (h : schedAdd s f p t = some s') :
    ∃ c l₁ l₂, s.dues = l₁ ++ l₂ ∧ s'.dues = l₁ ++ ((c, f, p), t) :: l₂ := by
  obtain ⟨c, l₁, l₂, hs, hs', -⟩ := dues_schedAdd_lt ht h
  exact ⟨c, l₁, l₂, hs, hs'⟩

/-- Popping drops the head, due at its own time, and leaves every other due time alone. -/
theorem dues_popJob {s s' : State F P} {e : Entry F P} (h : popJob s = some (e, s')) :
    s.dues = e.item :: s'.dues := by
  obtain ⟨rest, hq, -, hitems, -⟩ := popJob_spec h
  rw [State.dues, State.items, hq, State.dues, hitems, dues_bump, zero_add, List.map_cons]
  change (_, 0 + e.time) :: DeltaQueue.dues (0 + e.time) _ = _
  rw [zero_add]
  rfl

theorem dues_charge {s s' : State F P} {n : ℤ} (h : charge s n = some s') :
    s'.dues = s.dues.map fun x => (x.1, x.2 - n) := by
  rw [State.dues, (charge_spec h).2.1, dues_advance, State.dues]

section Remove

variable [DecidableEq F] [DecidableEq P]

/-- `sched_find_remove` drops the first matching job, or none, and leaves every other due time
alone. -/
theorem dues_schedFindRemove {s s' : State F P} {f : F} {p : P}
    (h : schedFindRemove s f p = some s') :
    (s'.dues = s.dues ∧ ∀ x ∈ s.dues, x.1.2 ≠ (f, p)) ∨
      ∃ c d l₁ l₂, s.dues = l₁ ++ ((c, f, p), d) :: l₂ ∧ (∀ x ∈ l₁, x.1.2 ≠ (f, p)) ∧
        s'.dues = l₁ ++ l₂ := by
  -- The jobs of `dues` are those of the queue, in order.
  have hjobs : ∀ (base : ℤ) (q : List (Entry F P)), (∀ c ∈ q, ¬(c.func = f ∧ c.param = p)) →
      ∀ x ∈ DeltaQueue.dues base (q.map Entry.item), x.1.2 ≠ (f, p) := by
    intro base q
    induction q generalizing base with
    | nil => intro _ x hx; cases hx
    | cons c q ih =>
      intro hq x hx
      rcases List.mem_cons.1 hx with rfl | hx
      · intro heq
        exact hq c (List.mem_cons_self ..) (Prod.mk.inj heq)
      · exact ih _ (fun d hd => hq d (List.mem_cons_of_mem _ hd)) x hx
  rcases schedFindRemove_spec h with ⟨rfl, hno⟩ | ⟨pre, cur, post, hq, rfl, rfl, hpre, -, hitems, -⟩
  · exact .inl ⟨rfl, hjobs 0 _ hno⟩
  · refine .inr ⟨cur.cell, total (pre.map Entry.item) + cur.time, _,
      DeltaQueue.dues (total (pre.map Entry.item) + cur.time) (post.map Entry.item), ?_,
      hjobs 0 pre hpre, ?_⟩
    · exact dues_eq_append hq
    · rw [State.dues, hitems, dues_remove, zero_add]

end Remove

/-! ### The invariant -/

/-- What every reachable scheduler state satisfies. -/
structure Inv (s : State F P) : Prop where
  /-- Stored times behind the head are non-negative. -/
  ordered : Ordered s.items
  /-- The two lists share out the allocated cells. -/
  cells : s.cells.Perm (List.range schedHeapSize)

theorem cells_eq (s : State F P) :
    s.cells = s.jobQueue.map Entry.cell ++ s.freeJobQueue.map Entry.cell := by
  rw [State.cells, List.map_append]

theorem Inv.schedAdd {s s' : State F P} (hs : Inv s) {f : F} {p : P} {t : ℤ} (ht : 0 ≤ t)
    (h : schedAdd s f p t = some s') : Inv s' := by
  obtain ⟨new, pre, post, x, hfree, hq, -, hpre, hpost, hitems, hcells, -⟩ := schedAdd_spec ht h
  refine ⟨?_, List.Perm.trans ?_ hs.cells⟩
  · rw [hitems]
    refine Ordered.insert ?_ (fun hne => hpre (by simpa using hne)) ?_
    · have hord := hs.ordered
      rwa [State.items, hq, List.map_append] at hord
    · intro y hy
      rw [List.head?_map] at hy
      obtain ⟨c, hc, rfl⟩ := Option.map_eq_some_iff.1 hy
      exact hpost c hc
  · rw [cells_eq, cells_eq, hcells, hfree, hq, List.map_append, List.map_cons, List.append_assoc,
      List.append_assoc, List.cons_append]
    exact List.Perm.append_left _ List.perm_middle.symm

theorem Inv.popJob {s s' : State F P} (hs : Inv s) {e : Entry F P}
    (h : popJob s = some (e, s')) : Inv s' := by
  obtain ⟨rest, hq, hfree, hitems, hcells⟩ := popJob_spec h
  refine ⟨?_, List.Perm.trans ?_ hs.cells⟩
  · have hord := hs.ordered
    rw [State.items, hq] at hord
    rw [hitems]
    exact (Ordered.tail hord).bump
  · rw [cells_eq, cells_eq, hcells, hfree, hq, List.map_cons, List.map_cons, List.cons_append]
    exact List.perm_middle

theorem Inv.charge {s s' : State F P} (hs : Inv s) {n : ℤ} (h : charge s n = some s') :
    Inv s' := by
  obtain ⟨hfree, hitems, hcells⟩ := charge_spec h
  refine ⟨by rw [hitems]; exact hs.ordered.bump, ?_⟩
  rw [cells_eq, hcells, hfree, ← cells_eq]
  exact hs.cells

theorem Inv.schedFindRemove [DecidableEq F] [DecidableEq P] {s s' : State F P} (hs : Inv s)
    {f : F} {p : P} (h : schedFindRemove s f p = some s') : Inv s' := by
  rcases schedFindRemove_spec h with ⟨rfl, -⟩ | ⟨pre, cur, post, hq, -, -, -, hfree, hitems, hcells⟩
  · exact hs
  · refine ⟨?_, List.Perm.trans ?_ hs.cells⟩
    · have hord := hs.ordered
      rw [State.items, hq, List.map_append, List.map_cons] at hord
      rw [hitems]
      exact hord.remove
    · rw [cells_eq, cells_eq, hcells, hfree, hq, List.map_append, List.map_cons, List.map_cons,
        List.append_assoc, List.append_assoc, List.cons_append]
      exact List.Perm.append_left _ List.perm_middle

/-- A guard in an otherwise empty queue over all the cells. -/
theorem inv_of_guard {guard : F} {dat : P} {free : List (Entry F P)} {s : State F P}
    (hcells : (free.map Entry.cell).Perm (List.range schedHeapSize))
    (h : schedGuard guard { freeJobQueue := free, jobQueue := [] } dat = some s) : Inv s := by
  cases free with
  | nil => cases h
  | cons new free =>
    cases h
    exact ⟨fun x hx => (List.not_mem_nil hx).elim, hcells⟩

theorem Inv.schedReset {guard : F} {null : P} {s s' : State F P} (hs : Inv s)
    (h : schedReset guard null s = some s') : Inv s' := by
  refine inv_of_guard ?_ h
  rw [List.map_append, List.map_reverse]
  refine List.Perm.trans ?_ hs.cells
  rw [cells_eq]
  exact (List.reverse_perm _).append_right _

theorem inv_schedInit {guard : F} {null : P} {junk : ℕ → ℤ × P × F} {s : State F P}
    (h : schedInit guard null junk = some s) : Inv s := by
  refine inv_of_guard ?_ h
  rw [List.map_map, List.map_reverse]
  refine (List.reverse_perm _).trans ?_
  rw [show (Entry.cell ∘ fun i => (⟨i, (junk i).1, (junk i).2.1, (junk i).2.2⟩ : Entry F P)) = id
    from rfl, List.map_id]

/-! ### Runs -/

section Run

variable [DecidableEq F] [DecidableEq P]

/-- What happens to the scheduler, one call at a time. -/
inductive Event (F P : Type) where
  /-- `sched_add`. -/
  | add (func : F) (param : P) (time : ℤ)
  /-- `sched_find_remove`. -/
  | remove (func : F) (param : P)
  /-- A main loop charges the cycles of an instruction. -/
  | charge (cycles : ℤ)
  /-- A round of `do_scheduler` takes the head, which is due. -/
  | pop

/-- Jobs are not queued in the past and the clock does not run backwards. -/
def Event.Ok : Event F P → Prop
  | .add _ _ t => 0 ≤ t
  | .charge n => 0 ≤ n
  | _ => True

/-- How far the event moves the clock. -/
def Event.elapsed : Event F P → ℤ
  | .charge n => n
  | _ => 0

/-- The state after the event, and the job it took to run. -/
def Event.exec (s : State F P) : Event F P → Option (State F P × List (Entry F P))
  | .add f p t => (schedAdd s f p t).map fun s' => (s', [])
  | .remove f p => (schedFindRemove s f p).map fun s' => (s', [])
  | .charge n => (Sched.charge s n).map fun s' => (s', [])
  | .pop => if headDue s then (popJob s).map fun r => (r.2, [r.1]) else none

/-- A job that ran and when it was due on the clock. -/
def ranAt (now : ℤ) (e : Entry F P) : (ℕ × F × P) × ℤ := (e.item.1, now + e.time)

/-- A sequence of events from clock time `now`, with the jobs that ran on the way. -/
def run (now : ℤ) (s : State F P) :
    List (Event F P) → Option (State F P × List ((ℕ × F × P) × ℤ))
  | [] => some (s, [])
  | e :: es =>
    (e.exec s).bind fun r =>
      (run (now + e.elapsed) r.1 es).map fun r' => (r'.1, r.2.map (ranAt now) ++ r'.2)

theorem exec_cases {s s' : State F P} {ran : List (Entry F P)} {e : Event F P}
    (h : e.exec s = some (s', ran)) :
    (∃ f p t, e = .add f p t ∧ schedAdd s f p t = some s' ∧ ran = []) ∨
    (∃ f p, e = .remove f p ∧ schedFindRemove s f p = some s' ∧ ran = []) ∨
    (∃ n, e = .charge n ∧ charge s n = some s' ∧ ran = []) ∨
    ∃ j, e = .pop ∧ headDue s = true ∧ popJob s = some (j, s') ∧ ran = [j] := by
  cases e with
  | add f p t =>
    obtain ⟨s₁, h₁, h⟩ := Option.map_eq_some_iff.1 h
    cases h
    exact .inl ⟨f, p, t, rfl, h₁, rfl⟩
  | remove f p =>
    obtain ⟨s₁, h₁, h⟩ := Option.map_eq_some_iff.1 h
    cases h
    exact .inr (.inl ⟨f, p, rfl, h₁, rfl⟩)
  | charge n =>
    obtain ⟨s₁, h₁, h⟩ := Option.map_eq_some_iff.1 h
    cases h
    exact .inr (.inr (.inl ⟨n, rfl, h₁, rfl⟩))
  | pop =>
    rw [Event.exec] at h
    split_ifs at h with hdue
    obtain ⟨⟨j, s₁⟩, h₁, h⟩ := Option.map_eq_some_iff.1 h
    cases h
    exact .inr (.inr (.inr ⟨j, rfl, hdue, h₁, rfl⟩))

theorem Inv.exec {s s' : State F P} {ran : List (Entry F P)} (hs : Inv s) {e : Event F P}
    (he : e.Ok) (h : e.exec s = some (s', ran)) : Inv s' := by
  obtain ⟨f, p, t, rfl, h, -⟩ | ⟨f, p, rfl, h, -⟩ | ⟨n, rfl, h, -⟩ | ⟨j, rfl, -, h, -⟩ :=
    exec_cases h
  · exact hs.schedAdd he h
  · exact hs.schedFindRemove h
  · exact hs.charge h
  · exact hs.popJob h

theorem Inv.run {now : ℤ} {s s' : State F P} {es : List (Event F P)}
    {tr : List ((ℕ × F × P) × ℤ)} (hs : Inv s) (hes : ∀ e ∈ es, e.Ok)
    (h : run now s es = some (s', tr)) : Inv s' := by
  induction es generalizing now s tr with
  | nil =>
    cases h
    exact hs
  | cons e es ih =>
    obtain ⟨⟨s₁, ran⟩, h₁, h⟩ := Option.bind_eq_some_iff.1 h
    obtain ⟨⟨s₂, tr₂⟩, h₂, h⟩ := Option.map_eq_some_iff.1 h
    cases h
    exact ih (hs.exec (hes e (List.mem_cons_self ..)) h₁)
      (fun e he => hes e (List.mem_cons_of_mem _ he)) h₂

/-- `L` is a time before which nothing can run any more: neither the clock nor a queued job is
behind it. -/
def NotBefore (L now : ℤ) (s : State F P) : Prop := L ≤ now ∧ ∀ x ∈ s.dues, L ≤ now + x.2

theorem NotBefore.exec {L now : ℤ} {s s' : State F P} {ran : List (Entry F P)} {e : Event F P}
    (hL : NotBefore L now s) (he : e.Ok) (h : e.exec s = some (s', ran)) :
    NotBefore L (now + e.elapsed) s' ∧ ∀ j ∈ ran, L ≤ now + j.time := by
  obtain ⟨hnow, hdues⟩ := hL
  obtain ⟨f, p, t, rfl, hop, rfl⟩ | ⟨f, p, rfl, hop, rfl⟩ | ⟨n, rfl, hop, rfl⟩ |
    ⟨j, rfl, -, hop, rfl⟩ := exec_cases h
  · obtain ⟨c, l₁, l₂, hs, hs'⟩ := dues_schedAdd he hop
    have ht : 0 ≤ t := he
    refine ⟨⟨by simpa [Event.elapsed] using hnow, fun x hx => ?_⟩, by simp⟩
    simp only [Event.elapsed, add_zero]
    rw [hs', List.mem_append, List.mem_cons] at hx
    rcases hx with hx | rfl | hx
    · exact hdues x (by rw [hs]; exact List.mem_append_left _ hx)
    · change L ≤ now + t
      omega
    · exact hdues x (by rw [hs]; exact List.mem_append_right _ hx)
  · refine ⟨⟨by simpa [Event.elapsed] using hnow, fun x hx => ?_⟩, by simp⟩
    simp only [Event.elapsed, add_zero]
    rcases dues_schedFindRemove hop with ⟨hs', -⟩ | ⟨c, d, l₁, l₂, hs, -, hs'⟩
    · exact hdues x (hs' ▸ hx)
    · rw [hs', List.mem_append] at hx
      refine hdues x ?_
      rw [hs, List.mem_append, List.mem_cons]
      exact hx.imp_right Or.inr
  · have hn : 0 ≤ n := he
    refine ⟨⟨?_, fun x hx => ?_⟩, by simp⟩
    · change L ≤ now + n
      omega
    · rw [dues_charge hop] at hx
      obtain ⟨y, hy, rfl⟩ := List.mem_map.1 hx
      have := hdues y hy
      change L ≤ now + n + (y.2 - n)
      omega
  · have hs := dues_popJob hop
    refine ⟨⟨by simpa [Event.elapsed] using hnow, fun x hx => ?_⟩, fun i hi => ?_⟩
    · simp only [Event.elapsed, add_zero]
      exact hdues x (by rw [hs]; exact List.mem_cons_of_mem _ hx)
    · rw [List.mem_singleton.1 hi]
      exact hdues j.item (by rw [hs]; exact List.mem_cons_self ..)

theorem NotBefore.run {L now : ℤ} {s s' : State F P} {es : List (Event F P)}
    {tr : List ((ℕ × F × P) × ℤ)} (hL : NotBefore L now s) (hes : ∀ e ∈ es, e.Ok)
    (h : run now s es = some (s', tr)) : ∀ x ∈ tr, L ≤ x.2 := by
  induction es generalizing now s tr with
  | nil =>
    cases h
    simp
  | cons e es ih =>
    obtain ⟨⟨s₁, ran⟩, h₁, h⟩ := Option.bind_eq_some_iff.1 h
    obtain ⟨⟨s₂, tr₂⟩, h₂, h⟩ := Option.map_eq_some_iff.1 h
    cases h
    obtain ⟨hL', hran⟩ := hL.exec (hes e (List.mem_cons_self ..)) h₁
    intro x hx
    rcases List.mem_append.1 hx with hx | hx
    · obtain ⟨j, hj, rfl⟩ := List.mem_map.1 hx
      exact hran j hj
    · exact ih hL' (fun e he => hes e (List.mem_cons_of_mem _ he)) h₂ x hx

omit [DecidableEq F] [DecidableEq P] in
/-- A job taken to run was due, and nothing behind it is due earlier. -/
theorem notBefore_of_pop (now : ℤ) {s s' : State F P} {j : Entry F P} (hs : Inv s)
    (hdue : headDue s = true) (h : popJob s = some (j, s')) :
    NotBefore (now + j.time) now s' := by
  obtain ⟨rest, hq, -⟩ := popJob_spec h
  have htime : j.time ≤ 0 := by
    rw [headDue, hq] at hdue
    exact of_decide_eq_true hdue
  refine ⟨by omega, fun x hx => ?_⟩
  have hord : Ordered (j.item :: rest.map Entry.item) := by
    have := hs.ordered
    rwa [State.items, hq] at this
  have hmem : x ∈ DeltaQueue.dues 0 (j.item :: rest.map Entry.item) := by
    have hsd : s.dues = DeltaQueue.dues 0 (j.item :: rest.map Entry.item) := by
      rw [State.dues, State.items, hq]
      rfl
    rw [← hsd, dues_popJob h]
    exact List.mem_cons_of_mem _ hx
  have hle : 0 + j.time ≤ x.2 := head_le_of_mem_dues hord hmem
  omega

/-- **Jobs run in non-decreasing due time**, whatever is queued and withdrawn in between. -/
theorem run_pairwise {now : ℤ} {s s' : State F P} {es : List (Event F P)}
    {tr : List ((ℕ × F × P) × ℤ)} (hs : Inv s) (hes : ∀ e ∈ es, e.Ok)
    (h : run now s es = some (s', tr)) : tr.Pairwise fun x y => x.2 ≤ y.2 := by
  induction es generalizing now s tr with
  | nil =>
    cases h
    exact List.Pairwise.nil
  | cons e es ih =>
    obtain ⟨⟨s₁, ran⟩, h₁, h⟩ := Option.bind_eq_some_iff.1 h
    obtain ⟨⟨s₂, tr₂⟩, h₂, h⟩ := Option.map_eq_some_iff.1 h
    cases h
    have hok := hes e (List.mem_cons_self ..)
    have hoks : ∀ e ∈ es, e.Ok := fun e he => hes e (List.mem_cons_of_mem _ he)
    have hrest := ih (hs.exec hok h₁) hoks h₂
    obtain ⟨f, p, t, rfl, -, rfl⟩ | ⟨f, p, rfl, -, rfl⟩ | ⟨n, rfl, -, rfl⟩ |
      ⟨j, rfl, hdue, hpop, rfl⟩ := exec_cases h₁
    · exact hrest
    · exact hrest
    · exact hrest
    · have hL := (notBefore_of_pop now hs hdue hpop).run hoks
        (by simpa [Event.elapsed] using h₂)
      exact List.pairwise_cons.2 ⟨hL, hrest⟩

/-! ### Passes of `do_scheduler` -/

theorem run_append {now : ℤ} {s s₁ s₂ : State F P} {es fs : List (Event F P)}
    {tr ts : List ((ℕ × F × P) × ℤ)} (h₁ : run now s es = some (s₁, tr))
    (hel : ∀ e ∈ es, e.elapsed = 0) (h₂ : run now s₁ fs = some (s₂, ts)) :
    run now s (es ++ fs) = some (s₂, tr ++ ts) := by
  induction es generalizing s tr with
  | nil =>
    cases h₁
    exact h₂
  | cons e es ih =>
    obtain ⟨⟨s₃, ran⟩, hex, h₁⟩ := Option.bind_eq_some_iff.1 h₁
    obtain ⟨⟨s₄, tr₄⟩, hrun, h₁⟩ := Option.map_eq_some_iff.1 h₁
    cases h₁
    have hzero := hel e (List.mem_cons_self ..)
    rw [hzero, add_zero] at hrun
    rw [List.cons_append, run, hex, Option.bind_some, hzero, add_zero,
      ih hrun (fun e he => hel e (List.mem_cons_of_mem _ he)), Option.map_some, List.append_assoc]

/-- The event of a job's scheduler call. -/
def Op.event : Op F P → Event F P
  | .add f p t => .add f p t
  | .remove f p => .remove f p

theorem execOps_run {now : ℤ} {s s' : State F P} {ops : List (Op F P)}
    (h : execOps s ops = some s') : run now s (ops.map Op.event) = some (s', []) := by
  induction ops generalizing s with
  | nil =>
    cases h
    rfl
  | cons op ops ih =>
    obtain ⟨s₁, h₁, h⟩ := Option.bind_eq_some_iff.1 h
    have hex : op.event.exec s = some (s₁, []) ∧ op.event.elapsed = 0 := by
      cases op with
      | add f p t => exact ⟨Option.map_eq_some_iff.2 ⟨s₁, h₁, rfl⟩, rfl⟩
      | remove f p => exact ⟨Option.map_eq_some_iff.2 ⟨s₁, h₁, rfl⟩, rfl⟩
    rw [List.map_cons, run, hex.1, Option.bind_some, hex.2, add_zero, ih h]
    rfl

/-- The jobs only queue jobs that are not in the past. -/
def JobsOk {X : Type} (call : X → State F P → F → P → X × List (Op F P)) : Prop :=
  ∀ x s f p, ∀ op ∈ (call x s f p).2, op.event.Ok

/-- **A pass of `do_scheduler`**, entered with a head that is due, is a run of events, and the jobs
it calls are the jobs of that run. -/
theorem doScheduler_run {X : Type} {call : X → State F P → F → P → X × List (Op F P)}
    (hcall : JobsOk call) {fuel : ℕ} {x x' : X} {s s' : State F P} {ran : List (Entry F P)}
    (hdue : headDue s = true) (h : doScheduler call fuel x s = some (x', s', ran)) (now : ℤ) :
    ∃ es, (∀ e ∈ es, e.Ok ∧ e.elapsed = 0) ∧
      run now s es = some (s', ran.map (ranAt now)) := by
  induction fuel generalizing x s ran with
  | zero => cases h
  | succ fuel ih =>
    obtain ⟨⟨tmp, s₁⟩, hpop, h⟩ := Option.bind_eq_some_iff.1 h
    obtain ⟨s₂, hops, h⟩ := Option.bind_eq_some_iff.1 h
    -- One round: the pop and the scheduler calls of the job.
    have hround : run now s (.pop :: (call x s₁ tmp.func tmp.param).2.map Op.event) =
        some (s₂, [ranAt now tmp]) := by
      have hexec : (Event.pop : Event F P).exec s = some (s₁, [tmp]) := by
        rw [Event.exec, if_pos hdue, hpop]
        rfl
      rw [run, hexec, Option.bind_some]
      simp only [Event.elapsed, add_zero, execOps_run hops]
      rfl
    have hok : ∀ e ∈ Event.pop :: (call x s₁ tmp.func tmp.param).2.map Op.event,
        e.Ok ∧ e.elapsed = 0 := by
      intro e he
      rcases List.mem_cons.1 he with rfl | he
      · exact ⟨trivial, rfl⟩
      · obtain ⟨op, hop, rfl⟩ := List.mem_map.1 he
        refine ⟨hcall _ _ _ _ op hop, ?_⟩
        cases op <;> rfl
    split_ifs at h with hnil hdue₂
    · obtain ⟨⟨x₃, s₃, ran₃⟩, hrec, h⟩ := Option.bind_eq_some_iff.1 h
      cases h
      obtain ⟨es, hes, hrun⟩ := ih hdue₂ hrec
      refine ⟨_, ?_, run_append hround (fun e he => (hok e he).2) hrun⟩
      intro e he
      exact (List.mem_append.1 he).elim (hok e) (hes e)
    · cases h
      exact ⟨_, hok, hround⟩

/-! ### Reachable states -/

/-- The states the scheduler reaches after `sched_init` and any number of resets. -/
inductive Reachable (guard : F) (null : P) : State F P → Prop where
  /-- After `sched_init`, whatever the fresh cells held. -/
  | init {junk : ℕ → ℤ × P × F} {s : State F P} (h : schedInit guard null junk = some s) :
      Reachable guard null s
  /-- After `sched_reset`. -/
  | reset {s s' : State F P} (hs : Reachable guard null s)
      (h : schedReset guard null s = some s') : Reachable guard null s'
  /-- After one more event. -/
  | step {s s' : State F P} {ran : List (Entry F P)} (hs : Reachable guard null s)
      (e : Event F P) (he : e.Ok) (h : e.exec s = some (s', ran)) : Reachable guard null s'

theorem Reachable.inv {guard : F} {null : P} {s : State F P} (hs : Reachable guard null s) :
    Inv s := by
  induction hs with
  | init h => exact inv_schedInit h
  | reset _ h ih => exact ih.schedReset h
  | step _ e he h ih => exact ih.exec he h

theorem Reachable.run {guard : F} {null : P} {now : ℤ} {s s' : State F P}
    {es : List (Event F P)} {tr : List ((ℕ × F × P) × ℤ)} (hs : Reachable guard null s)
    (hes : ∀ e ∈ es, e.Ok) (h : run now s es = some (s', tr)) : Reachable guard null s' := by
  induction es generalizing now s tr with
  | nil =>
    cases h
    exact hs
  | cons e es ih =>
    obtain ⟨⟨s₁, ran⟩, h₁, h⟩ := Option.bind_eq_some_iff.1 h
    obtain ⟨⟨s₂, tr₂⟩, h₂, h⟩ := Option.map_eq_some_iff.1 h
    cases h
    exact ih (hs.step e (hes e (List.mem_cons_self ..)) h₁)
      (fun e he => hes e (List.mem_cons_of_mem _ he)) h₂

/-- **Scheduler correctness.**  In every reachable state: `sched_add` inserts exactly one job, due
at the requested time; `sched_find_remove` removes exactly the first matching job, or none;
popping removes exactly the head; none of them moves any other due time.  Jobs run in
non-decreasing due time along every run, passes of `do_scheduler` with re-entrant jobs included,
and these lead to reachable states again.  The two lists share out the 128 cells. -/
theorem sched_correct {guard : F} {null : P} {s : State F P} (hs : Reachable guard null s) :
    (∀ f p t s', 0 ≤ t → schedAdd s f p t = some s' →
      ∃ c l₁ l₂, s.dues = l₁ ++ l₂ ∧ s'.dues = l₁ ++ ((c, f, p), t) :: l₂) ∧
    (∀ f p s', schedFindRemove s f p = some s' →
      (s'.dues = s.dues ∧ ∀ x ∈ s.dues, x.1.2 ≠ (f, p)) ∨
        ∃ c d l₁ l₂, s.dues = l₁ ++ ((c, f, p), d) :: l₂ ∧ (∀ x ∈ l₁, x.1.2 ≠ (f, p)) ∧
          s'.dues = l₁ ++ l₂) ∧
    (∀ e s', popJob s = some (e, s') → s.dues = e.item :: s'.dues) ∧
    (∀ now es s' tr, (∀ e ∈ es, Event.Ok e) → run now s es = some (s', tr) →
      Reachable guard null s' ∧ tr.Pairwise fun x y => x.2 ≤ y.2) ∧
    (∀ (X : Type) (call : X → State F P → F → P → X × List (Op F P)) fuel x x' s' ran,
      JobsOk call → headDue s = true → doScheduler call fuel x s = some (x', s', ran) →
        Reachable guard null s' ∧ ran.Pairwise fun i j => i.time ≤ j.time) ∧
    s.cells.Perm (List.range schedHeapSize) := by
  refine ⟨fun f p t s' ht h => dues_schedAdd ht h, fun f p s' h => dues_schedFindRemove h,
    fun e s' h => dues_popJob h,
    fun now es s' tr hes h => ⟨hs.run hes h, run_pairwise hs.inv hes h⟩,
    fun X call fuel x x' s' ran hcall hdue h => ?_, hs.inv.cells⟩
  obtain ⟨es, hes, hrun⟩ := doScheduler_run hcall hdue h 0
  have hok : ∀ e ∈ es, e.Ok := fun e he => (hes e he).1
  refine ⟨hs.run hok hrun, ?_⟩
  have hsorted := run_pairwise hs.inv hok hrun
  rw [List.pairwise_map] at hsorted
  refine hsorted.imp fun {i j} hij => ?_
  simpa [ranAt] using hij

/-! ### A run -/

/-- Two jobs for one time and two for others; one is removed, the earliest runs, and the two are
due. -/
def schedCalls : List (Event ℕ ℕ) :=
  [.add 1 0 5, .add 2 0 5, .add 3 0 3, .add 4 0 9, .remove 4 0, .charge 4, .pop, .charge 1]

/-- The job 2 queues one for the same time and one for later; the jobs are counted. -/
def reentrantJob (ran : ℕ) (_ : State ℕ ℕ) (f _ : ℕ) : ℕ × List (Op ℕ ℕ) :=
  (ran + 1, if f = 2 then [.add 5 0 0, .add 2 0 3] else [])

/-- After these calls the scheduler is at work, and then a pass of `do_scheduler` runs the two jobs
and the one that is queued for the same time. -/
theorem sched_correct_calls :
    ∃ s₀ s tr, schedInit 0 0 (fun _ => (0, 0, 0)) = some s₀ ∧ run 0 s₀ schedCalls = some (s, tr) ∧
      tr.map (fun x => x.1.2.1) = [3] ∧
      (∃ s', schedAdd s 6 0 2 = some s' ∧
        ∃ c l₁ l₂, s.dues = l₁ ++ l₂ ∧ s'.dues = l₁ ++ ((c, 6, 0), 2) :: l₂) ∧
      (∃ s', schedFindRemove s 1 0 = some s' ∧
        ∃ c d l₁ l₂, s.dues = l₁ ++ ((c, 1, 0), d) :: l₂ ∧ (∀ x ∈ l₁, x.1.2 ≠ (1, 0)) ∧
          s'.dues = l₁ ++ l₂) ∧
      (∃ e s', popJob s = some (e, s') ∧ s.dues = e.item :: s'.dues) ∧
      (∃ s' tr', run 5 s [.pop, .charge 2, .pop] = some (s', tr') ∧ Reachable 0 0 s' ∧
        tr'.length = 2 ∧ tr'.Pairwise fun x y => x.2 ≤ y.2) ∧
      (∃ s' ran, doScheduler reentrantJob 4 0 s = some (3, s', ran) ∧ Reachable 0 0 s' ∧
        ran.Pairwise fun i j => i.time ≤ j.time) ∧
      s.cells.Perm (List.range schedHeapSize) := by
  obtain ⟨s₀, hs₀⟩ : ∃ s₀, schedInit 0 (0 : ℕ) (fun _ => (0, 0, 0)) = some s₀ := ⟨_, rfl⟩
  have hcheck : ((schedInit 0 (0 : ℕ) (fun _ => (0, 0, 0))).bind fun s₀ =>
      run 0 s₀ schedCalls).any (fun r => decide (r.2.map (fun x => x.1.2.1) = [3]) &&
        (schedAdd r.1 6 0 2).isSome && (schedFindRemove r.1 1 0).isSome &&
        decide ((1, 0) ∈ r.1.dues.map fun x => x.1.2) && (popJob r.1).isSome &&
        (run 5 r.1 [.pop, .charge 2, .pop]).any (fun r => r.2.length == 2) && headDue r.1 &&
        (doScheduler reentrantJob 4 0 r.1).any fun r => r.1 == 3) = true := by
    decide
  rw [hs₀, Option.bind_some, Option.any_eq_true] at hcheck
  obtain ⟨⟨s, tr⟩, hs, hcheck⟩ := hcheck
  simp only [Bool.and_eq_true, decide_eq_true_eq, Option.isSome_iff_exists, Option.any_eq_true,
    beq_iff_eq] at hcheck
  obtain ⟨⟨⟨⟨⟨⟨⟨htr, sAdd, hadd⟩, sRemove, hremove⟩, hmem⟩, ⟨e, sPop⟩, hpop⟩, ⟨sRun, trRun⟩, hrun,
    hlen⟩, hdue⟩, ⟨x, sPass, ran⟩, hpass, hx⟩ := hcheck
  dsimp only at hlen hx
  subst hx
  have hok : ∀ e ∈ schedCalls, e.Ok := by
    simp [schedCalls, Event.Ok]
  have hreach : Reachable 0 0 s := (Reachable.init hs₀).run hok hs
  obtain ⟨hadds, hremoves, hpops, hruns, hpasses, hcells⟩ := sched_correct hreach
  refine ⟨s₀, s, tr, hs₀, hs, htr, ⟨sAdd, hadd, hadds 6 0 2 sAdd (by decide) hadd⟩,
    ⟨sRemove, hremove, ?_⟩, ⟨e, sPop, hpop, hpops e sPop hpop⟩, ⟨sRun, trRun, hrun, ?_⟩,
    ⟨sPass, ran, hpass, ?_⟩, hcells⟩
  · refine (hremoves 1 0 sRemove hremove).resolve_left fun hnone => ?_
    obtain ⟨x, hxmem, hxjob⟩ := List.mem_map.1 hmem
    exact hnone.2 x hxmem hxjob
  · obtain ⟨hreach', hsorted⟩ := hruns 5 _ sRun trRun (by simp [Event.Ok]) hrun
    exact ⟨hreach', hlen, hsorted⟩
  · refine hpasses ℕ reentrantJob 4 0 3 sPass ran (fun x s f p op hop => ?_) hdue hpass
    unfold reentrantJob at hop
    dsimp only at hop
    split at hop
    · rcases List.mem_pair.1 hop with rfl | rfl <;> simp [Op.event, Event.Ok]
    · cases hop

end Run

end Sched
end Or1ksim
