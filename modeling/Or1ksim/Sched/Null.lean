import Or1ksim.Lib.Runs
import Or1ksim.Sched.Jobs

/-!
# Null pointers in the scheduler

The functions of `support/sched.c` follow `job_queue` and `free_job_queue` without a test; the guard
job is there to keep the queue from emptying.

* `Fault`, `blame` — a null pointer is followed, or a sum overflows;
* `step` — what the main loop and one round of `do_scheduler` do;
* `Guarded` — the guard is queued once, and all cells are in one of the lists;
* `Guarded.step` — what a step keeps, and when it follows a null pointer;
* `sched_never_null` — **no null pointer is followed**, exactly if the guard is never the only job
  when it becomes due;
* `guard_alone_null` — which it is after `2 ^ 31 - 1` idle cycles.
-/

namespace Or1ksim
namespace Sched

variable {F P : Type}

/-! ### Steps -/

/-- Why the source has no defined behaviour. -/
inductive Fault where
  /-- It follows a null pointer. -/
  | null
  /-- A sum does not fit `int32_t`. -/
  | overflow
deriving DecidableEq

/-- A result, or why there is none: `null` says that a pointer to be followed is null. -/
def blame {α : Type} (null : Bool) : Option α → Except Fault α
  | some a => .ok a
  | none => .error (if null then .null else .overflow)

/-- A call of the scheduler. -/
inductive Call (F P : Type) where
  /-- `sched_add`. -/
  | add (func : F) (param : P) (time : ℤ)
  /-- `sched_next_insn`. -/
  | nextInsn (func : F) (param : P)
  /-- `sched_find_remove`. -/
  | remove (func : F) (param : P)

/-- One of the lists that `sched_add` follows is empty. -/
def addNull (s : State F P) : Bool := s.jobQueue.isEmpty || s.freeJobQueue.isEmpty

/-- The queue has no second job, which `do_scheduler` follows. -/
def popNull (s : State F P) : Bool := decide (s.jobQueue.length < 2)

section

variable [DecidableEq F] [DecidableEq P]

/-- A call. -/
def Call.exec (s : State F P) : Call F P → Except Fault (State F P)
  | .add f p t => blame (addNull s) (schedAdd s f p t)
  | .nextInsn f p => blame (addNull s) (schedNextInsn s f p)
  | .remove f p => blame false (schedFindRemove s f p)

/-- What the job that was due does: the guard requeues itself, another makes calls. -/
def runJob (guard : F) (s : State F P) (job : Entry F P) (calls : List (Call F P)) :
    Except Fault (State F P) :=
  if job.func = guard then blame s.freeJobQueue.isEmpty (schedGuard guard s job.param)
  else calls.foldlM Call.exec s

/-- One round of the loop of `do_scheduler`. -/
def round (guard : F) (s : State F P) (calls : List (Call F P)) : Except Fault (State F P) :=
  blame (popNull s) (popJob s) >>= fun r => runJob guard r.2 r.1 calls

/-- The scheduler, and whether `do_scheduler` is about to take the next job. -/
structure Machine (F P : Type) where
  /-- The scheduler. -/
  sched : State F P
  /-- The head of the queue is due. -/
  due : Bool

/-- What happens next; what does not fit the machine is passed over. -/
inductive Step (F P : Type) where
  /-- An instruction makes calls, and its cycles are charged to the head of the queue. -/
  | clock (calls : List (Call F P)) (cycles : ℤ)
  /-- A job that is due makes calls. -/
  | round (calls : List (Call F P))

/-- The machine after a scheduler function, which reads the head of the queue. -/
def settle (s : State F P) : Except Fault (Machine F P) :=
  if s.jobQueue.isEmpty then .error .null else .ok ⟨s, headDue s⟩

/-- A step of the main loop. -/
def step (guard : F) (m : Machine F P) : Step F P → Except Fault (Machine F P)
  | .clock calls cycles =>
    if m.due then .ok m
    else calls.foldlM Call.exec m.sched >>= fun s =>
      blame s.jobQueue.isEmpty (charge s cycles) >>= settle
  | .round calls => if m.due then round guard m.sched calls >>= settle else .ok m

end

/-! ### What the environment promises -/

/-- The jobs that are queued besides the guard. -/
def others [DecidableEq F] (guard : F) (s : State F P) : ℕ := s.funcs.countP (· ≠ guard)

section

variable [DecidableEq F] [DecidableEq P]

/-- No call is about the guard, and at most 127 jobs are queued besides it. -/
def Call.Allowed (guard : F) (s : State F P) : Call F P → Prop
  | .add f _ _ => f ≠ guard ∧ others guard s < 127
  | .nextInsn f _ => f ≠ guard ∧ others guard s < 127
  | .remove f _ => f ≠ guard

/-- All calls of a step are allowed. -/
def Step.Allowed (guard : F) (m : Machine F P) : Step F P → Prop
  | .clock calls _ => Runs.Along Call.exec (Call.Allowed guard) m.sched calls
  | .round calls => ∀ job s, popJob m.sched = some (job, s) → job.func ≠ guard →
      Runs.Along Call.exec (Call.Allowed guard) s calls

/-- If a job is due, the guard is not the only one. -/
def NotAlone (guard : F) (m : Machine F P) : Step F P → Prop
  | .clock _ _ => True
  | .round _ => m.due = true → m.sched.funcs ≠ [guard]

instance Call.decidableAllowed (guard : F) (s : State F P) :
    (c : Call F P) → Decidable (c.Allowed guard s)
  | .add f _ _ => inferInstanceAs (Decidable (f ≠ guard ∧ others guard s < 127))
  | .nextInsn f _ => inferInstanceAs (Decidable (f ≠ guard ∧ others guard s < 127))
  | .remove f _ => inferInstanceAs (Decidable (f ≠ guard))

instance Step.decidableAllowed (guard : F) (m : Machine F P) :
    (e : Step F P) → Decidable (e.Allowed guard m)
  | .clock calls _ =>
    inferInstanceAs (Decidable (Runs.Along Call.exec (Call.Allowed guard) m.sched calls))
  | .round calls =>
    decidable_of_iff
      (∀ r ∈ popJob m.sched, r.1.func ≠ guard →
        Runs.Along Call.exec (Call.Allowed guard) r.2 calls)
      ⟨fun h job s hpop => h (job, s) hpop, fun h r hpop => h r.1 r.2 hpop⟩

instance decidableNotAlone (guard : F) (m : Machine F P) :
    (e : Step F P) → Decidable (NotAlone guard m e)
  | .clock _ _ => isTrue trivial
  | .round _ => inferInstanceAs (Decidable (m.due = true → m.sched.funcs ≠ [guard]))

end

/-! ### The invariant -/

/-- The guard is queued once, and each of the 128 cells is in one of the lists. -/
structure Guarded [DecidableEq F] (guard : F) (s : State F P) : Prop where
  once : s.funcs.count guard = 1
  cells : s.jobQueue.length + s.freeJobQueue.length = schedHeapSize

section

variable {α : Type} {guard f : F} {p : P} {s s' : State F P} {null : Bool} {r : Option α} {a : α}

theorem blame_eq_ok (h : blame null r = .ok a) : r = some a := by
  cases r with
  | none => cases h
  | some b =>
    cases h
    rfl

theorem blame_ne_null (h : null = false) : blame null r ≠ .error .null := by
  subst h
  cases r <;> exact fun hc => nomatch hc

theorem length_funcs (s : State F P) : s.funcs.length = s.jobQueue.length := List.length_map _

theorem popJob_eq_none (h : s.jobQueue.length < 2) : popJob s = none := by
  unfold popJob
  split
  case h_1 heq =>
    rw [heq, List.length_cons, List.length_cons] at h
    omega
  case h_2 => rfl

theorem schedAdd_cells {t : ℤ} (h : schedAdd s f p t = some s') :
    s'.jobQueue.length = s.jobQueue.length + 1 ∧
      s.freeJobQueue.length = s'.freeJobQueue.length + 1 := by
  constructor
  · obtain ⟨pre, post, hs, hs'⟩ := funcs_schedAdd h
    rw [← length_funcs, ← length_funcs, hs, hs']
    simp only [List.length_append, List.length_cons]
    omega
  · obtain ⟨head, rest, new, free, -, -, -, -, -, -, hfree, -, -, -, rfl⟩ := schedAdd_eq_some h
    rw [hfree]
    rfl

end

section

variable [DecidableEq F]
variable {guard f : F} {p : P} {s s' : State F P}

theorem count_schedAdd_of {t : ℤ} (h : schedAdd s f p t = some s') :
    s'.funcs.count guard = s.funcs.count guard + if f = guard then 1 else 0 := by
  obtain ⟨pre, post, hs, hs'⟩ := funcs_schedAdd h
  rw [hs, hs', List.count_append, List.count_append, List.count_cons]
  simp only [beq_iff_eq]
  omega

theorem Guarded.others (h : Guarded guard s) : others guard s + 1 = s.jobQueue.length := by
  have hsplit := List.length_eq_countP_add_countP (fun f => decide (f ≠ guard)) (l := s.funcs)
  have hguard : s.funcs.countP (fun f => decide ¬decide (f ≠ guard) = true) =
      s.funcs.count guard := by
    refine List.countP_congr fun f _ => ?_
    simp
  rw [hguard, h.once, length_funcs] at hsplit
  exact hsplit.symm

theorem Guarded.isEmpty_queue (h : Guarded guard s) : s.jobQueue.isEmpty = false := by
  have hlen := h.others
  cases hq : s.jobQueue with
  | nil =>
    rw [hq] at hlen
    cases hlen
  | cons e rest => rfl

theorem Guarded.queue_ne_nil (h : Guarded guard s) : s.jobQueue ≠ [] :=
  List.isEmpty_eq_false_iff.1 h.isEmpty_queue

theorem Guarded.alone_iff (h : Guarded guard s) : s.funcs = [guard] ↔ s.jobQueue.length < 2 := by
  rw [← length_funcs]
  constructor
  · intro hs
    rw [hs]
    exact Nat.one_lt_two
  · intro hlen
    have hmem : guard ∈ s.funcs := List.count_pos_iff.1 (by rw [h.once]; decide)
    cases hs : s.funcs with
    | nil =>
      rw [hs] at hmem
      cases hmem
    | cons g rest =>
      rw [hs, List.length_cons] at hlen
      have hrest : rest = [] := List.length_eq_zero_iff.1 (by omega)
      rw [hs, hrest, List.mem_singleton] at hmem
      rw [hrest, hmem]

/-- A job can be added while fewer than 127 others are queued. -/
theorem Guarded.add_ok (h : Guarded guard s) (hothers : Sched.others guard s < 127) :
    addNull s = false := by
  have hlen := h.others
  have hcells := h.cells
  rw [schedHeapSize] at hcells
  have hfree : s.freeJobQueue ≠ [] := by
    intro hnil
    rw [hnil, List.length_nil] at hcells
    omega
  rw [addNull, h.isEmpty_queue, Bool.false_or]
  exact List.isEmpty_eq_false_iff.2 hfree

theorem Guarded.schedAdd (h : Guarded guard s) (hf : f ≠ guard) {t : ℤ}
    (hadd : schedAdd s f p t = some s') : Guarded guard s' := by
  obtain ⟨hqueue, hfree⟩ := schedAdd_cells hadd
  refine ⟨by rw [count_schedAdd_of hadd, if_neg hf, h.once], ?_⟩
  have hcells := h.cells
  omega

theorem Guarded.charge (h : Guarded guard s) {n : ℤ} (hcharge : charge s n = some s') :
    Guarded guard s' := by
  refine ⟨by rw [funcs_charge hcharge, h.once], ?_⟩
  have hfuncs := congrArg List.length (funcs_charge hcharge)
  rw [length_funcs, length_funcs] at hfuncs
  have hfree : s'.freeJobQueue = s.freeJobQueue := by
    unfold Sched.charge at hcharge
    split at hcharge
    · obtain ⟨t, -, rfl⟩ := Option.map_eq_some_iff.1 hcharge
      rfl
    · cases hcharge
  rw [hfuncs, hfree, h.cells]

variable [DecidableEq P]

theorem Guarded.schedFindRemove (h : Guarded guard s) (hf : f ≠ guard)
    (hremove : schedFindRemove s f p = some s') : Guarded guard s' := by
  -- The cell that is taken out of one list is put in the other.
  unfold Sched.schedFindRemove at hremove
  cases hfind : findJob f p s.jobQueue with
  | none =>
    rw [hfind] at hremove
    cases hremove
    exact h
  | some r =>
    obtain ⟨pre, cur, post⟩ := r
    rw [hfind] at hremove
    obtain ⟨post', hpost', rfl⟩ := Option.map_eq_some_iff.1 hremove
    obtain ⟨hq, hcur, -, -⟩ := findJob_spec hfind
    have hlen := congrArg List.length (adjustNext_funcs hpost')
    rw [List.length_map, List.length_map] at hlen
    have honce := h.once
    have hcells := h.cells
    refine ⟨?_, ?_⟩
    · rw [State.funcs, hq, List.map_append, List.map_cons, List.count_append, hcur,
        List.count_cons_of_ne hf] at honce
      rw [State.funcs, List.map_append, adjustNext_funcs hpost', List.count_append, honce]
    · rw [hq, List.length_append, List.length_cons] at hcells
      simp only [List.length_append, List.length_cons]
      omega

/-! ### What a step keeps -/

/-- A run of the source goes well if it follows no null pointer and ends with the guard queued. -/
def Well (guard : F) (r : Except Fault (State F P)) : Prop :=
  Runs.Avoids .null (Guarded guard) r

omit [DecidableEq P] in
theorem well_blame {r : Option (State F P)} (h : ∀ t, r = some t → Guarded guard t) :
    Well guard (blame false r) :=
  ⟨blame_ne_null rfl, fun t ht => h t (blame_eq_ok ht)⟩

theorem Guarded.exec (h : Guarded guard s) {c : Call F P} (hc : c.Allowed guard s) :
    Well guard (c.exec s) := by
  cases c with
  | add f p t =>
    obtain ⟨hf, hothers⟩ := hc
    rw [Call.exec, h.add_ok hothers]
    exact well_blame fun t ht => h.schedAdd hf ht
  | nextInsn f p =>
    obtain ⟨hf, hothers⟩ := hc
    rw [Call.exec, h.add_ok hothers]
    refine well_blame fun t ht => ?_
    obtain ⟨cycles, -, ht⟩ := Option.bind_eq_some_iff.1 ht
    exact h.schedAdd hf ht
  | remove f p => exact well_blame fun t ht => h.schedFindRemove hc ht

theorem Guarded.calls (h : Guarded guard s) {calls : List (Call F P)}
    (hcalls : Runs.Along Call.exec (Call.Allowed guard) s calls) :
    Well guard (calls.foldlM Call.exec s) := by
  induction calls generalizing s with
  | nil => exact Runs.avoids_ok h
  | cons c calls ih =>
    obtain ⟨hc, hrest⟩ := hcalls
    rw [List.foldlM_cons]
    exact (h.exec hc).bind fun t hexec ht => ih ht (hrest t hexec)

/-- A job that is taken off the queue leaves another there; if it was the guard, it comes back. -/
theorem Guarded.round (h : Guarded guard s) {calls : List (Call F P)}
    (hcalls : ∀ job t, popJob s = some (job, t) → job.func ≠ guard →
      Runs.Along Call.exec (Call.Allowed guard) t calls)
    (hlen : 2 ≤ s.jobQueue.length) : Well guard (round guard s calls) := by
  have hpop : popNull s = false := decide_eq_false (Nat.not_lt.2 hlen)
  unfold Sched.round
  rw [hpop]
  cases hjob : popJob s with
  | none => exact ⟨(fun he => nomatch he), fun t ht => nomatch ht⟩
  | some r =>
    obtain ⟨job, t⟩ := r
    have hfuncs := funcs_popJob hjob
    obtain ⟨rest, hqueue, hfree, -, -⟩ := popJob_spec hjob
    have hlent := congrArg List.length hfuncs
    rw [length_funcs, List.length_cons, length_funcs] at hlent
    have hcells := h.cells
    have honce := h.once
    have hfreelen : t.freeJobQueue.length = s.freeJobQueue.length + 1 := by
      rw [hfree, List.length_cons]
    change Well guard (runJob guard t job calls)
    unfold runJob
    -- The cell of the job is free again, so `sched_guard` finds one.
    by_cases hg : job.func = guard
    · rw [if_pos hg, hfree]
      refine well_blame fun u hu => ?_
      have hadd : Sched.schedAdd t guard job.param schedTimeMax = some u := by
        unfold schedGuard at hu
        split at hu
        case h_1 => exact hu
        case h_2 hnil _ =>
          rw [hnil, List.length_nil] at hlent
          omega
        case h_3 hnil _ =>
          rw [hnil, List.length_nil] at hlent
          omega
      obtain ⟨hq, hf⟩ := schedAdd_cells hadd
      refine ⟨?_, by omega⟩
      rw [hfuncs, hg, List.count_cons_self] at honce
      rw [count_schedAdd_of hadd, if_pos rfl, honce]
    · rw [if_neg hg]
      refine Guarded.calls ⟨?_, by omega⟩ (hcalls job t hjob hg)
      rw [hfuncs, List.count_cons_of_ne hg] at honce
      exact honce

omit [DecidableEq P] in
theorem Guarded.settle (h : Guarded guard s) :
    Runs.Avoids .null (fun t => Guarded guard t.sched) (settle s) := by
  rw [Sched.settle, h.isEmpty_queue, if_neg Bool.false_ne_true]
  exact Runs.avoids_ok h

theorem Guarded.clock (h : Guarded guard s) {calls : List (Call F P)}
    (hcalls : Runs.Along Call.exec (Call.Allowed guard) s calls) (cycles : ℤ) :
    Runs.Avoids .null (fun t => Guarded guard t.sched)
      (calls.foldlM Call.exec s >>= fun t =>
        blame t.jobQueue.isEmpty (Sched.charge t cycles) >>= Sched.settle) := by
  refine (h.calls hcalls).bind fun t _ ht => ?_
  have hcharge : Well guard (blame t.jobQueue.isEmpty (Sched.charge t cycles)) := by
    rw [ht.isEmpty_queue]
    exact well_blame fun u hu => ht.charge hu
  exact hcharge.bind fun u _ hu => hu.settle

/-- A null pointer is followed exactly if the guard becomes due as the only job. -/
theorem Guarded.step {m : Machine F P} (h : Guarded guard m.sched) {e : Step F P}
    (he : e.Allowed guard m) :
    (step guard m e ≠ .error .null ↔ NotAlone guard m e) ∧
      ∀ t, step guard m e = .ok t → Guarded guard t.sched := by
  obtain ⟨s, due⟩ := m
  cases e with
  | clock calls cycles =>
    cases due with
    | true =>
      refine ⟨iff_of_true (fun hc => nomatch hc) trivial, fun t ht => ?_⟩
      cases ht
      exact h
    | false =>
      obtain ⟨hnull, hkeep⟩ := h.clock he cycles
      exact ⟨iff_of_true hnull trivial, hkeep⟩
  | round calls =>
    cases due with
    | false =>
      refine ⟨iff_of_true (fun hc => nomatch hc) (fun hc => nomatch hc), fun t ht => ?_⟩
      cases ht
      exact h
    | true =>
      have hstep : Sched.step guard ⟨s, true⟩ (.round calls) =
          Sched.round guard s calls >>= Sched.settle := rfl
      rw [hstep]
      rcases Nat.lt_or_ge s.jobQueue.length 2 with hlen | hlen
      · -- the guard is taken off, and the time of the job behind it is read
        have hpop : popJob s = none := popJob_eq_none hlen
        have hround : Sched.round guard s calls = .error .null := by
          rw [Sched.round, popNull, decide_eq_true hlen, hpop]
          rfl
        rw [hround]
        refine ⟨iff_of_false (fun hc => hc rfl) fun hc => ?_, fun t ht => nomatch ht⟩
        exact hc rfl (h.alone_iff.2 hlen)
      · obtain ⟨hnull, hkeep⟩ := (h.round he hlen).bind fun t _ ht => ht.settle
        refine ⟨iff_of_true hnull fun _ halone => ?_, hkeep⟩
        exact absurd (h.alone_iff.1 halone) (Nat.not_lt.2 hlen)

/-! ### Runs -/

/-- A run follows no null pointer, and never leaves the queue empty. -/
def Safe (guard : F) (m : Machine F P) (es : List (Step F P)) : Prop :=
  ∀ pre, pre <+: es →
    Runs.Avoids .null (fun t => t.sched.jobQueue ≠ []) (pre.foldlM (Sched.step guard) m)

omit [DecidableEq P] in
theorem guarded_schedReset {null : P} {s₀ : State F P}
    (hcells : s₀.jobQueue.length + s₀.freeJobQueue.length = schedHeapSize)
    (h : schedReset guard null s₀ = some s) : Guarded guard s := by
  unfold schedReset schedGuard at h
  split at h
  case h_1 heq => cases heq
  case h_2 new free _ hfree =>
    obtain rfl := Option.some.inj h
    have hlen := congrArg List.length hfree
    rw [List.length_append, List.length_reverse, hcells, List.length_cons] at hlen
    refine ⟨?_, ?_⟩
    · rw [State.funcs, List.map_singleton, List.count_singleton_self]
    · rw [List.length_singleton, hlen, Nat.add_comm]
  case h_3 => cases h

/-- **Nothing is read through a null `job_queue` or `free_job_queue`**, and a job stays queued,
exactly if another job is queued whenever the guard becomes due. -/
theorem sched_never_null {null : P} {s₀ : State F P} {es : List (Step F P)}
    (hcells : s₀.jobQueue.length + s₀.freeJobQueue.length = schedHeapSize)
    (hreset : schedReset guard null s₀ = some s)
    (hes : Runs.Along (Sched.step guard) (Step.Allowed guard) ⟨s, false⟩ es) :
    Safe guard ⟨s, false⟩ es ↔ Runs.Along (Sched.step guard) (NotAlone guard) ⟨s, false⟩ es := by
  have hs : Guarded guard s := guarded_schedReset hcells hreset
  have hqueue : ∀ m : Machine F P, Guarded guard m.sched → m.sched.jobQueue ≠ [] :=
    fun _ h => h.queue_ne_nil
  exact Runs.avoids_run_iff (fun _ _ h he => Guarded.step h he) hqueue hs hes

/-! ### The guard alone -/

theorem run_idle {free : List (Entry F P)} {e : Entry F P} (hpos : 0 < e.time)
    (hmax : e.time ≤ schedTimeMax) {n : ℕ} (hn : (n : ℤ) ≤ e.time) :
    (List.replicate n (Step.clock [] 1)).foldlM (Sched.step guard) ⟨⟨free, [e]⟩, false⟩ =
      .ok ⟨⟨free, [{ e with time := e.time - n }]⟩, decide (e.time - n ≤ 0)⟩ := by
  rw [schedTimeMax] at hmax
  induction n with
  | zero =>
    have hdue : ¬e.time - (0 : ℕ) ≤ 0 := by omega
    rw [decide_eq_false hdue, Int.natCast_zero, Int.sub_zero]
    rfl
  | succ n ih =>
    have hdue : ¬e.time - (n : ℤ) ≤ 0 := by omega
    rw [List.replicate_succ', List.foldlM_append, ih (by omega), decide_eq_false hdue]
    have htime : int32 (e.time - n - 1) = some (e.time - (n + 1 : ℕ)) := by
      rw [int32, if_pos ⟨by omega, by omega⟩]
      congr 1
      omega
    change (blame false ((int32 (e.time - n - 1)).map fun t =>
      (⟨free, [{ e with time := t }]⟩ : State F P)) >>= settle) >>= pure = _
    rw [htime]
    rfl

/-- If nothing else is queued until the guard is due, a null pointer is followed. -/
theorem run_idle_round {free : List (Entry F P)} {e : Entry F P} (hpos : 0 < e.time)
    (hmax : e.time ≤ schedTimeMax) {n : ℕ} (hn : (n : ℤ) = e.time) :
    (List.replicate n (Step.clock [] 1) ++ [Step.round []]).foldlM (Sched.step guard)
      ⟨⟨free, [e]⟩, false⟩ = .error .null := by
  have hdue : e.time - (n : ℤ) ≤ 0 := by omega
  rw [List.foldlM_append, run_idle hpos hmax (le_of_eq hn), decide_eq_true hdue]
  rfl

end

/-- 128 free cells. -/
def freshCells : State Bool Unit :=
  ⟨(List.range schedHeapSize).map fun i => ⟨i, 0, (), false⟩, []⟩

/-- The guard alone, after `sched_reset`. -/
def guardAlone : State Bool Unit :=
  ⟨freshCells.freeJobQueue.tail, [⟨0, schedTimeMax, (), true⟩]⟩

theorem length_freshCells :
    freshCells.jobQueue.length + freshCells.freeJobQueue.length = schedHeapSize := by
  rw [freshCells, List.length_nil, List.length_map, List.length_range, Nat.zero_add]

theorem schedReset_freshCells : schedReset true () freshCells = some guardAlone := rfl

theorem silent_allowed {es : List (Step Bool Unit)}
    (h : ∀ e ∈ es, e = .clock [] 1 ∨ e = .round []) (m : Machine Bool Unit) :
    Runs.Along (step true) (Step.Allowed true) m es := by
  refine Runs.along_of_mem (fun e he m => ?_) m
  obtain rfl | rfl := h e he
  · exact trivial
  · exact fun _ _ _ _ => trivial

/-- A job that queues itself again is due twice, and then one of its two entries is taken back. -/
def periodicJob : List (Step Bool Unit) :=
  [.clock [.add false () 2] 1, .clock [] 1, .round [.add false () 3], .clock [] 2, .clock [] 1,
    .round [.add false () 4, .nextInsn false ()], .clock [.remove false ()] 1]

/-- The guard stays behind the job, and no pointer is null. -/
theorem sched_never_null_periodic :
    (periodicJob.foldlM (step true) ⟨guardAlone, false⟩).toOption.map (fun m => m.sched.funcs) =
        some [false, true] ∧
      Safe true ⟨guardAlone, false⟩ periodicJob :=
  ⟨by decide,
    (sched_never_null length_freshCells schedReset_freshCells (by decide)).2
      (by decide)⟩

/-- Without any job the guard is due after `2 ^ 31 - 1` cycles, and a null pointer is followed. -/
theorem guard_alone_null : ∃ s : State Bool Unit, ∃ es : List (Step Bool Unit),
    freshCells.jobQueue.length + freshCells.freeJobQueue.length = schedHeapSize ∧
      schedReset true () freshCells = some s ∧
      Runs.Along (step true) (Step.Allowed true) ⟨s, false⟩ es ∧
      es.foldlM (step true) ⟨s, false⟩ = .error .null ∧ ¬Safe true ⟨s, false⟩ es := by
  have hrun : (List.replicate (2 ^ 31 - 1) (Step.clock [] 1) ++ [Step.round []]).foldlM (step true)
      ⟨guardAlone, false⟩ = .error .null :=
    run_idle_round (by decide) le_rfl (by decide)
  refine ⟨guardAlone, _, length_freshCells, schedReset_freshCells, silent_allowed ?_ _, hrun,
    fun hsafe => (hsafe _ (List.prefix_refl _)).1 hrun⟩
  intro e he
  rcases List.mem_append.1 he with hidle | hround
  · exact .inl (List.eq_of_mem_replicate hidle)
  · exact .inr (List.mem_singleton.1 hround)

end Sched
end Or1ksim
