import Or1ksim.Cuc.Memory
import Or1ksim.Cuc.Relocate
import Or1ksim.Lib.Pull
import Mathlib.Data.List.GetD

/-!
# The schedule of the memory accesses

`add_memory_dep` and the first part of `schedule_memory` in `cuc/memory.c`: every memory instruction
depends on the earlier ones that it conflicts with, and within its block it may be put in front of
those that it does not depend on.

* `addMemoryDep` — the dependencies;
* `Marked`, `unscheduled` — a function with `IT_FLAG1`, and the schedule it starts with;
* `best`, `scheduleStep`, `reorder` — the loop that reorders the schedule;
* `step_ordered`, `reorder_ordered` — a step keeps every dependency, and so does the loop;
* `reorder_scheduled` — **the schedule respects all dependencies and the blocks**.
-/

namespace Or1ksim
namespace Cuc

open Pull

variable {W : ℕ}

/-- `add_dep` -/
def addDep (list : List Ref) (dep : Ref) : List Ref := if dep ∈ list then list else list ++ [dep]

/-- The conflicts of one instruction with those in `all_mem`. -/
def conflictDeps (f : Func W) (otype : MemoryOrder) (r : Ref) (dep : List Ref) (allMem : List Ref) :
    Option (List Ref) :=
  allMem.foldlM (fun dep q =>
    (checkMemoryConflict f (f.insn r) (f.insn q) otype).map fun conflict =>
      if conflict then addDep dep q else dep) dep

/-- The loop body of `add_memory_dep`: the dependencies, and `all_mem`. -/
def memoryDepStep (f : Func W) (otype : MemoryOrder) (s : (Ref → List Ref) × List Ref) (r : Ref) :
    Option ((Ref → List Ref) × List Ref) :=
  if (f.insn r).memory then
    (conflictDeps f otype r (s.1 r) s.2).map fun dep => (Function.update s.1 r dep, addDep s.2 r)
  else some s

/-- `add_memory_dep`; it is `none` where an assertion fails. -/
def addMemoryDep (otype : MemoryOrder) (f : Linked W) : Option (Linked W) :=
  (f.insns.foldlM (memoryDepStep f.toFunc otype) (f.dep, [])).map fun s => { f with dep := s.1 }

/-- A function with `IT_FLAG1` of its instructions. -/
structure Marked (W : ℕ) extends Linked W where
  flag1 : Ref → Bool

/-- The memory instructions of a function. -/
def Func.memoryInsns (f : Func W) : List Ref := f.insns.filter fun r => (f.insn r).memory

/-- The start of `schedule_memory`: all memory instructions in `msched`, and marked if the order may
change. -/
def unscheduled (otype : MemoryOrder) (f : Marked W) : Marked W :=
  { f with
    msched := f.memoryInsns
    flag1 := fun r =>
      if (otype = .none ∨ otype = .weak) ∧ r ∈ f.memoryInsns then true else f.flag1 r }

/-- `mem_ordering_cmp` -/
def memOrderingCmp (f : Func W) (a b : Insn W) : Bool :=
  match a.op 1, b.op 1 with
  | .ref qa, .ref qb =>
    if (f.insn qa).index = .add ∧ (f.insn qb).index = .add then
      if (f.insn qa).op 1 ≠ (f.insn qb).op 1 then false
      else
        match (f.insn qa).op 2, (f.insn qb).op 2 with
        | .const x, .const y => decide (x < y)
        | _, _ => false
    else false
  | _, _ => false

/-- `msched[j]` -/
def Linked.scheduled (f : Linked W) (j : ℕ) : Ref := f.msched.getD j ⟨0, 0⟩

/-- The instruction at `j` is to be put in front of the one at `best`, and may be. -/
def better (f : Marked W) (best j : ℕ) : Bool :=
  decide ((f.scheduled j).bb = (f.scheduled best).bb) &&
    memOrderingCmp f.toFunc (f.insn (f.scheduled j)) (f.insn (f.scheduled best)) &&
      !(f.dep (f.scheduled j)).any f.flag1

/-- The loop that looks for the best instruction from `i` on. -/
def best (f : Marked W) (i : ℕ) : ℕ :=
  (List.range' (i + 1) (f.msched.length - (i + 1))).foldl
    (fun best j => if better f best j then j else best) i

/-- The best instruction is put at `i`, and is no longer marked. -/
def scheduleStep (f : Marked W) (i : ℕ) : Marked W :=
  { f with
    msched := pull f.msched i (best f i)
    flag1 := Function.update f.flag1 (f.scheduled (best f i)) false }

/-- `schedule_memory`, up to the end of the loop that reorders `msched`. -/
def reorder (otype : MemoryOrder) (f : Marked W) : Marked W :=
  let f := unscheduled otype f
  if otype = .weak ∨ otype = .none then (List.range f.msched.length).foldl scheduleStep f else f

/-! ### The order of the instructions -/

/-- The instruction comes first in the loops over the function. -/
def Ref.Before (q r : Ref) : Prop := q.bb < r.bb ∨ q.bb = r.bb ∧ q.i < r.i

theorem Ref.Before.irrefl {q : Ref} : ¬q.Before q := by
  unfold Ref.Before
  omega

theorem Ref.Before.asymm {q r : Ref} (h : q.Before r) : ¬r.Before q := by
  unfold Ref.Before at h ⊢
  omega

theorem insns_pairwise (f : Func W) : f.insns.Pairwise Ref.Before := by
  unfold Func.insns
  rw [List.pairwise_flatMap]
  refine ⟨fun b _ => ?_, ?_⟩
  · rw [List.pairwise_map]
    exact List.pairwise_lt_range.imp fun h => .inr ⟨rfl, h⟩
  · refine List.pairwise_lt_range.imp fun {b b'} hlt q hq r hr => ?_
    obtain ⟨i, -, rfl⟩ := List.mem_map.1 hq
    obtain ⟨j, -, rfl⟩ := List.mem_map.1 hr
    exact .inl hlt

theorem memoryInsns_pairwise (f : Func W) : f.memoryInsns.Pairwise Ref.Before :=
  (insns_pairwise f).sublist List.filter_sublist

theorem memoryInsns_nodup (f : Func W) : f.memoryInsns.Nodup := by
  refine List.Pairwise.imp (fun {q r} hbefore he => ?_) (memoryInsns_pairwise f)
  subst he
  exact hbefore.irrefl

/-! ### Dependencies -/

theorem mem_addDep {list : List Ref} {dep q : Ref} : q ∈ addDep list dep ↔ q ∈ list ∨ q = dep := by
  unfold addDep
  split_ifs with h
  · exact ⟨.inl, fun hq => hq.elim id fun he => he ▸ h⟩
  · rw [List.mem_append, List.mem_singleton]

theorem mem_conflictDeps {f : Func W} {otype : MemoryOrder} {r : Ref} {dep dep' allMem : List Ref}
    (h : conflictDeps f otype r dep allMem = some dep') {q : Ref} (hq : q ∈ dep') :
    q ∈ dep ∨ q ∈ allMem := by
  unfold conflictDeps at h
  induction allMem generalizing dep with
  | nil =>
    cases h
    exact .inl hq
  | cons p allMem ih =>
    rw [List.foldlM_cons] at h
    obtain ⟨dep₁, h₁, h⟩ := Option.bind_eq_some_iff.1 h
    obtain ⟨conflict, -, rfl⟩ := Option.map_eq_some_iff.1 h₁
    rcases ih h with hdep | hall
    · split_ifs at hdep
      · rcases mem_addDep.1 hdep with hdep | rfl
        · exact .inl hdep
        · exact .inr List.mem_cons_self
      · exact .inl hdep
    · exact .inr (List.mem_cons_of_mem p hall)

/-- **`add_memory_dep`** adds only instructions that come first, by induction on the loop. -/
theorem foldlM_memoryDepStep {f : Func W} {otype : MemoryOrder} {rs : List Ref}
    {s t : (Ref → List Ref) × List Ref} (h : rs.foldlM (memoryDepStep f otype) s = some t)
    (hrs : rs.Pairwise Ref.Before) (hall : ∀ q ∈ s.2, ∀ r ∈ rs, q.Before r) {q r : Ref}
    (hq : q ∈ t.1 r) : q ∈ s.1 r ∨ q.Before r := by
  induction rs generalizing s with
  | nil =>
    cases h
    exact .inl hq
  | cons p rs ih =>
    obtain ⟨hp, hrs⟩ := List.pairwise_cons.1 hrs
    rw [List.foldlM_cons] at h
    obtain ⟨u, hu, h⟩ := Option.bind_eq_some_iff.1 h
    unfold memoryDepStep at hu
    split_ifs at hu with hmem
    · obtain ⟨dep, hdep, rfl⟩ := Option.map_eq_some_iff.1 hu
      have hnext : ∀ q' ∈ addDep s.2 p, ∀ r' ∈ rs, q'.Before r' := by
        intro q' hq' r' hr'
        rcases mem_addDep.1 hq' with hq' | rfl
        · exact hall q' hq' r' (List.mem_cons_of_mem p hr')
        · exact hp r' hr'
      rcases ih h hrs hnext with hold | hbefore
      · by_cases hr : r = p
        · subst hr
          dsimp only at hold
          rw [Function.update_self] at hold
          exact (mem_conflictDeps hdep hold).imp_right fun hq =>
            hall q hq r List.mem_cons_self
        · dsimp only at hold
          rw [Function.update_of_ne hr] at hold
          exact .inl hold
      · exact .inr hbefore
    · cases hu
      exact ih h hrs (fun q' hq' r' hr' => hall q' hq' r' (List.mem_cons_of_mem p hr'))

/-- What an instruction depends on is what it did before, or a conflict with one before it. -/
theorem addMemoryDep_before {otype : MemoryOrder} {f g : Linked W}
    (h : addMemoryDep otype f = some g)
    {q r : Ref} (hq : q ∈ g.dep r) : q ∈ f.dep r ∨ q.Before r := by
  obtain ⟨t, ht, rfl⟩ := Option.map_eq_some_iff.1 h
  exact foldlM_memoryDepStep ht (insns_pairwise f.toFunc) (fun q hq => nomatch hq) hq

/-! ### The loop -/

/-- One may stand in front of the other: its block is not behind, and it does not depend on it. -/
def InOrder (dep : Ref → List Ref) (q r : Ref) : Prop :=
  q.bb ≤ r.bb ∧ ¬(r ∈ dep q ∧ r.Before q)

/-- The first `i` instructions are scheduled, the others are marked. -/
structure Ordered (f₀ : Func W) (dep : Ref → List Ref) (i : ℕ) (f : Marked W) : Prop where
  dep_eq : f.dep = dep
  perm : f.msched.Perm f₀.memoryInsns
  inOrder : f.msched.Pairwise (InOrder dep)
  marked : ∀ r ∈ f.msched.drop i, f.flag1 r = true

variable {f₀ : Func W} {dep : Ref → List Ref} {f : Marked W} {i : ℕ}

theorem scheduled_eq {f : Linked W} {j : ℕ} (hj : j < f.msched.length) :
    f.scheduled j = f.msched[j] :=
  List.getD_eq_getElem _ _ hj

/-- The best instruction is the one at `i`, or one of its block that depends on none that is marked.
-/
theorem best_spec (f : Marked W) (hi : i < f.msched.length) :
    i ≤ best f i ∧ best f i < f.msched.length ∧ (best f i = i ∨
      (f.scheduled (best f i)).bb = (f.scheduled i).bb ∧
        ∀ q ∈ f.dep (f.scheduled (best f i)), f.flag1 q = false) := by
  have hloop : ∀ (js : List ℕ) (b : ℕ), (∀ j ∈ js, i < j ∧ j < f.msched.length) →
      (i ≤ b ∧ b < f.msched.length ∧ (b = i ∨ (f.scheduled b).bb = (f.scheduled i).bb ∧
        ∀ q ∈ f.dep (f.scheduled b), f.flag1 q = false)) →
      ∀ c, js.foldl (fun best j => if better f best j then j else best) b = c →
        i ≤ c ∧ c < f.msched.length ∧ (c = i ∨ (f.scheduled c).bb = (f.scheduled i).bb ∧
          ∀ q ∈ f.dep (f.scheduled c), f.flag1 q = false) := by
    intro js
    induction js with
    | nil =>
      rintro b - hb c rfl
      exact hb
    | cons j js ih =>
      intro b hjs hb c hc
      have hrest := fun j' hj' => hjs j' (List.mem_cons_of_mem j hj')
      rw [List.foldl_cons] at hc
      by_cases hbetter : better f b j = true
      · rw [if_pos hbetter] at hc
        obtain ⟨hlt, hlen⟩ := hjs j List.mem_cons_self
        refine ih j hrest ⟨hlt.le, hlen, .inr ?_⟩ c hc
        unfold better at hbetter
        simp only [Bool.and_eq_true, decide_eq_true_eq, Bool.not_eq_true', List.any_eq_false,
          Bool.not_eq_true] at hbetter
        refine ⟨hbetter.1.1.trans ?_, hbetter.2⟩
        rcases hb.2.2 with rfl | ⟨hbb, -⟩
        · rfl
        · exact hbb
      · rw [if_neg hbetter] at hc
        exact ih b hrest hb c hc
  refine hloop _ i (fun j hj => ?_) ⟨le_rfl, hi, .inl rfl⟩ _ rfl
  rw [List.mem_range'_1] at hj
  omega

/-- **A step of the loop** keeps the order. -/
theorem step_ordered (h : Ordered f₀ dep i f) (hi : i < f.msched.length) :
    Ordered f₀ dep (i + 1) (scheduleStep f i) := by
  obtain ⟨hle, hlt, hbest⟩ := best_spec f hi
  have hnodup : f.msched.Nodup := h.perm.nodup_iff.2 (memoryInsns_nodup f₀)
  refine ⟨h.dep_eq, (pull_perm hle hlt).trans h.perm, ?_, fun r hr => ?_⟩
  · change (pull f.msched i (best f i)).Pairwise (InOrder dep)
    rcases hbest with hself | ⟨hbb, hfree⟩
    · rw [hself, pull_self hi]
      exact h.inOrder
    · refine pull_pairwise hle hlt h.inOrder fun y hy => ⟨?_, fun hdep => ?_⟩
      · -- The blocks stay in their order, as the instruction has the block of the one at `i`.
        rw [← scheduled_eq hlt, hbb, scheduled_eq hi]
        rw [List.drop_eq_getElem_cons hi] at hy
        rcases List.mem_cons.1 hy with rfl | hy
        · exact le_rfl
        · have hdrop := h.inOrder.sublist (List.drop_sublist i f.msched)
          rw [List.drop_eq_getElem_cons hi] at hdrop
          exact ((List.pairwise_cons.1 hdrop).1 y hy).1
      · -- All that are not scheduled are marked, so that it does not depend on any of them.
        rw [← scheduled_eq hlt, ← h.dep_eq] at hdep
        have hmark := h.marked y hy
        rw [hfree y hdep.1] at hmark
        cases hmark
  · obtain ⟨hold, hne⟩ := mem_drop_pull hle hlt hnodup hr
    rw [← scheduled_eq hlt] at hne
    exact (Function.update_of_ne hne _ _).trans (h.marked r hold)

theorem length_scheduleStep (f : Marked W) (hi : i < f.msched.length) :
    (scheduleStep f i).msched.length = f.msched.length := by
  obtain ⟨hle, hlt, -⟩ := best_spec f hi
  exact (pull_perm hle hlt).length_eq

/-- The first steps of the loop, by induction on their number. -/
theorem steps_ordered (h : Ordered f₀ dep 0 f) {n : ℕ} (hn : n ≤ f.msched.length) :
    Ordered f₀ dep n ((List.range n).foldl scheduleStep f) ∧
      ((List.range n).foldl scheduleStep f).msched.length = f.msched.length := by
  induction n with
  | zero => exact ⟨h, rfl⟩
  | succ n ih =>
    obtain ⟨hordered, hlen⟩ := ih (by omega)
    rw [List.range_succ, List.foldl_append]
    have hlt : n < ((List.range n).foldl scheduleStep f).msched.length := by omega
    exact ⟨step_ordered hordered hlt, (length_scheduleStep _ hlt).trans hlen⟩

theorem unscheduled_inOrder (otype : MemoryOrder) (f : Marked W) :
    (unscheduled otype f).msched.Pairwise (InOrder f.dep) := by
  refine (memoryInsns_pairwise f.toFunc).imp fun {q r} hbefore => ⟨?_, fun hdep => ?_⟩
  · unfold Ref.Before at hbefore
    omega
  · exact hbefore.asymm hdep.2

/-- **The loop** keeps the order, and loses nothing. -/
theorem reorder_ordered (otype : MemoryOrder) (f : Marked W) :
    (reorder otype f).msched.Perm f.memoryInsns ∧
      (reorder otype f).msched.Pairwise (InOrder f.dep) := by
  unfold reorder
  dsimp only
  split_ifs with hloose
  · have hstart : Ordered f.toFunc f.dep 0 (unscheduled otype f) := by
      refine ⟨rfl, .refl _, unscheduled_inOrder otype f, fun r hr => if_pos ⟨hloose.symm, ?_⟩⟩
      rwa [List.drop_zero] at hr
    obtain ⟨hend, -⟩ := steps_ordered hstart le_rfl
    exact ⟨hend.perm, hend.inOrder⟩
  · exact ⟨.refl _, unscheduled_inOrder otype f⟩

/-! ### Main results -/

/-- `schedule` is a schedule of the memory instructions of `g`, whose dependencies have been added
to those of `f`.  A dependency that was there before counts if it comes first in the function. -/
structure Scheduled (f g : Linked W) (schedule : List Ref) : Prop where
  perm : schedule.Perm g.memoryInsns
  deps : ∀ r ∈ schedule, ∀ q ∈ schedule, q ∈ g.dep r → (q ∈ f.dep r → q.Before r) →
    [q, r].Sublist schedule
  blocks : ∀ q ∈ schedule, ∀ r ∈ schedule, q.bb < r.bb → [q, r].Sublist schedule

/-- **Scheduling respects the dependencies**: after `add_memory_dep` and the loop of
`schedule_memory`, with the same order type, every memory instruction is in the schedule once,
behind all that it depends on, and the blocks are in their order. -/
theorem reorder_scheduled {otype : MemoryOrder} {f g : Linked W} (flag1 : Ref → Bool)
    (h : addMemoryDep otype f = some g) : Scheduled f g (reorder otype ⟨g, flag1⟩).msched := by
  obtain ⟨hperm, hinOrder⟩ := reorder_ordered otype ⟨g, flag1⟩
  refine ⟨hperm, fun r hr q hq hdep hold => ?_, fun q hq r hr hbb => ?_⟩
  · have hbefore : q.Before r := (addMemoryDep_before h hdep).elim hold id
    refine sublist_of_pairwise hinOrder hq hr (fun he => ?_) fun hin => hin.2 ⟨hdep, hbefore⟩
    subst he
    exact hbefore.irrefl
  · refine sublist_of_pairwise hinOrder hq hr (fun he => ?_) fun hin => ?_
    · subst he
      exact lt_irrefl _ hbb
    · exact Nat.not_lt.2 hin.1 hbb

/-- A byte is stored into the word that has been loaded. -/
theorem reorder_scheduled_loadAndStore :
    ∃ g, g.dep ⟨0, 3⟩ = [⟨0, 1⟩] ∧
      Scheduled ⟨loadAndStore 8 9, fun _ => [], fun _ => [], []⟩ g [⟨0, 1⟩, ⟨0, 3⟩] := by
  have hdep : ∃ g, addMemoryDep .weak ⟨loadAndStore 8 9, fun _ => [], fun _ => [], []⟩ = some g ∧
      g.dep ⟨0, 3⟩ = [⟨0, 1⟩] ∧ (reorder .weak ⟨g, fun _ => false⟩).msched = [⟨0, 1⟩, ⟨0, 3⟩] :=
    ⟨_, rfl, by decide, by decide⟩
  obtain ⟨g, hg, hconflict, hschedule⟩ := hdep
  have h := reorder_scheduled (fun _ => false) hg
  rw [hschedule] at h
  exact ⟨g, hconflict, h⟩

end Cuc
end Or1ksim
