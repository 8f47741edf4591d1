import Mathlib.Data.Fintype.Fin
import Or1ksim.Lib.Select
import Or1ksim.Profiler.Basic

/-!
# The report of the profiling utility

`prof_print` looks for the function with the most cycles, prints it, and marks it as printed; once
for each function.

* `bestIndex`, `printRows`, `profPrint` — the report;
* `Printable` — all functions but the first have taken some time, and no time is too long;
* `Chosen`, `AllChosen` — a round prints one of the longest functions that are left;
* `printRows_iff`, `allChosen_iff` — the rounds and the report;
* `sorted_iff` — **the report lists every function once, the longest first**, exactly if the table
  is printable.
-/

namespace Or1ksim
namespace Profiler

/-- The time in an `int`. -/
def toInt32 (cycles : ℤ) : ℤ := cycles.bmod (2 ^ 32)

/-- An entry that has been printed is marked. -/
def Func.printed (f : Func) : Func := { f with cumCycles := -1 }

variable {n : ℕ}

/-- The entry to print next. -/
def bestIndex [NeZero n] (profFunc : Fin n → Func) : Fin n :=
  ((List.finRange n).foldl (fun (best : Fin n × ℤ) i =>
    if best.2 < (profFunc i).cumCycles then (i, toInt32 (profFunc i).cumCycles) else best) (0, 0)).1

/-- So many lines of the table. -/
def printRows [NeZero n] : ℕ → (Fin n → Func) → List Func
  | 0, _ => []
  | j + 1, profFunc =>
    profFunc (bestIndex profFunc) ::
      printRows j (Function.update profFunc (bestIndex profFunc)
        (profFunc (bestIndex profFunc)).printed)

/-- What is printed, without averages and percentages. -/
structure Report where
  cumulative : Bool
  /-- The lines of the table: name, address, calls and cycles. -/
  rows : List Func
  functions : ℕ
  cycles : Word
  /-- Calls that have returned, all calls, and the greatest depth. -/
  covered : ℕ
  total : ℕ
  maxDepth : ℕ
deriving DecidableEq

/-- `prof_print` -/
def profPrint (m : Mode) (s : State) : Report where
  cumulative := m.cumulative
  rows :=
    if h : s.funcs.length = 0 then []
    else
      have : NeZero s.funcs.length := ⟨h⟩
      printRows s.funcs.length s.funcs.get
  functions := s.funcs.length
  cycles := s.cycles
  covered := s.nfunccalls
  total := s.ntotcalls
  maxDepth := s.maxDepth

/-- The condition for a table to be printed in order. -/
structure Printable (funcs : Fin n → Func) : Prop where
  /-- All functions but the first have taken some time. -/
  positive : ∀ j : Fin n, 0 < j.val → 0 < (funcs j).cumCycles
  /-- In an `int` the time of a function is still not less than that of a shorter one further down,
  or of one that has been printed. -/
  fits : ∀ p j : Fin n, p < j →
    if (funcs j).cumCycles < (funcs p).cumCycles then
      (funcs j).cumCycles ≤ toInt32 (funcs p).cumCycles
    else -1 ≤ toInt32 (funcs p).cumCycles

/-! ### One round -/

theorem toInt32_le {x : ℤ} (hx : 0 < x) : toInt32 x ≤ x := by
  rw [toInt32, Int.bmod_def]
  split <;> omega

/-- The table when some entries have been printed. -/
def mark (funcs : Fin n → Func) (done : Finset (Fin n)) : Fin n → Func :=
  fun i => if i ∈ done then (funcs i).printed else funcs i

variable {funcs : Fin n → Func} {done : Finset (Fin n)} {i : Fin n}

theorem mark_of_mem (h : i ∈ done) : (mark funcs done i).cumCycles = -1 := by
  rw [mark, if_pos h]
  rfl

theorem mark_of_notMem (h : i ∉ done) : mark funcs done i = funcs i := if_neg h

theorem update_mark (funcs : Fin n → Func) (done : Finset (Fin n)) (p : Fin n) :
    Function.update (mark funcs done) p (mark funcs done p).printed =
      mark funcs (insert p done) := by
  funext i
  by_cases hi : i = p
  · subst hi
    rw [Function.update_self, mark, mark, if_pos (Finset.mem_insert_self i done)]
    split <;> rfl
  · rw [Function.update_of_ne hi, mark, mark]
    simp only [Finset.mem_insert, hi, false_or]

theorem notMem_of_pos (h : 0 < (mark funcs done i).cumCycles) : i ∉ done := by
  intro hi
  rw [mark_of_mem hi] at h
  omega

/-- What has been printed is not shorter than what has not. -/
def Ordered (funcs : Fin n → Func) (done : Finset (Fin n)) : Prop :=
  ∀ i ∈ done, ∀ j ∉ done, (funcs j).cumCycles ≤ (funcs i).cumCycles

/-- A round prints one of the longest functions that are left. -/
def Chosen (funcs : Fin n → Func) (done : Finset (Fin n)) (p : Fin n) : Prop :=
  p ∉ done ∧ ∀ j ∉ done, (funcs j).cumCycles ≤ (funcs p).cumCycles

theorem Ordered.insert {p : Fin n} (h : Ordered funcs done) (hp : Chosen funcs done p) :
    Ordered funcs (insert p done) := by
  intro i hi j hj
  rw [Finset.mem_insert, not_or] at hj
  rcases Finset.mem_insert.1 hi with rfl | hi
  · exact hp.2 j hj.2
  · exact h i hi j hj.2

theorem exists_left {k : ℕ} (hcard : done.card + (k + 1) = n) : ∃ i, i ∉ done := by
  by_contra hall
  simp only [not_exists, not_not] at hall
  have huniv := Finset.eq_univ_iff_forall.2 hall
  rw [huniv, Finset.card_univ, Fintype.card_fin] at hcard
  omega

theorem card_insert {k : ℕ} {p : Fin n} (hcard : done.card + (k + 1) = n) (hp : p ∉ done) :
    (insert p done).card + k = n := by
  rw [Finset.card_insert_of_notMem hp]
  omega

theorem compl_map {p : Fin n} (hp : p ∉ done) :
    doneᶜ.val.map funcs = funcs p ::ₘ (insert p done)ᶜ.val.map funcs := by
  have hinsert : doneᶜ = insert p (insert p done)ᶜ := by
    ext i
    simp only [Finset.mem_compl, Finset.mem_insert, not_or]
    by_cases hi : i = p
    · simp [hi, hp]
    · simp [hi]
  rw [hinsert, Finset.insert_val_of_notMem (by simp), Multiset.map_cons]

variable [NeZero n]

/-- **A round of a printable table** prints one of the longest functions that are left. -/
theorem Printable.chosen (hfuncs : Printable funcs) (hordered : Ordered funcs done)
    (hleft : ∃ i, i ∉ done) : Chosen funcs done (bestIndex (mark funcs done)) := by
  by_cases hsome : ∃ i ∉ done, 0 < (funcs i).cumCycles
  · obtain ⟨i, hi, hlt⟩ := hsome
    have hmark : mark funcs done i = funcs i := mark_of_notMem hi
    rw [← hmark] at hlt
    have hround : (List.finRange n).Pairwise fun p j => 0 < (mark funcs done p).cumCycles →
        (mark funcs done j).cumCycles ≤ toInt32 (mark funcs done p).cumCycles ∨
          (mark funcs done p).cumCycles ≤ (mark funcs done j).cumCycles := by
      refine (List.pairwise_lt_finRange n).imp fun {p j} hpj hp => ?_
      have hpdone := notMem_of_pos hp
      have hfits := hfuncs.fits p j hpj
      rw [mark_of_notMem hpdone]
      by_cases hj : j ∈ done
      · rw [if_neg (not_lt.2 (hordered j hj p hpdone))] at hfits
        exact .inl (by rwa [mark_of_mem hj])
      · rw [mark_of_notMem hj]
        split_ifs at hfits with hlt
        · exact .inl hfits
        · exact .inr (not_lt.1 hlt)
    obtain ⟨m, -, hfold, hmax⟩ := foldl_rounded_greatest (fun i => (mark funcs done i).cumCycles)
      toInt32 (fun _ => toInt32_le) (0 : Fin n) hround ⟨i, List.mem_finRange i, hlt⟩
    have hm : m ∉ done := notMem_of_pos (hlt.trans_le (hmax i (List.mem_finRange i)))
    rw [bestIndex, hfold]
    refine ⟨hm, fun j hj => ?_⟩
    have hle := hmax j (List.mem_finRange j)
    rwa [mark_of_notMem hj, mark_of_notMem hm] at hle
  · -- Nothing but the first function is left, and that has taken no time.
    simp only [not_exists, not_and, not_lt] at hsome
    have hzero : ∀ i ∉ done, i = 0 := by
      intro i hi
      by_contra hne
      exact absurd (hfuncs.positive i (Nat.pos_of_ne_zero (Fin.val_ne_zero_iff.2 hne)))
        (not_lt.2 (hsome i hi))
    obtain ⟨i, hi⟩ := hleft
    obtain rfl := hzero i hi
    rcases foldl_rounded (fun i => (mark funcs done i).cumCycles) toInt32 (List.finRange n) 0 0 with
      ⟨hfold, -⟩ | ⟨-, m, -, -, -, ⟨j, -, hj⟩, -⟩
    · rw [bestIndex, hfold]
      refine ⟨hi, fun j hj => ?_⟩
      rw [hzero j hj]
    · have hjdone := notMem_of_pos hj
      rw [mark_of_notMem hjdone] at hj
      exact absurd hj (not_lt.2 (hsome j hjdone))

/-- The function that a round chooses is not the first unless it has taken no time, and it fits. -/
theorem Chosen.fits (hpos : ∀ i, 0 ≤ (funcs i).cumCycles) (hordered : Ordered funcs done)
    (hchosen : Chosen funcs done (bestIndex (mark funcs done))) :
    (0 < (bestIndex (mark funcs done)).val → 0 < (funcs (bestIndex (mark funcs done))).cumCycles) ∧
      ∀ j, bestIndex (mark funcs done) < j →
        if (funcs j).cumCycles < (funcs (bestIndex (mark funcs done))).cumCycles then
          (funcs j).cumCycles ≤ toInt32 (funcs (bestIndex (mark funcs done))).cumCycles
        else -1 ≤ toInt32 (funcs (bestIndex (mark funcs done))).cumCycles := by
  rcases foldl_rounded (fun i => (mark funcs done i).cumCycles) toInt32 (List.finRange n) 0 0 with
    ⟨hfold, hle⟩ | ⟨pre, m, post, hsplit, hfold, ⟨q, -, hq⟩, hpost⟩
  · have hbest : bestIndex (mark funcs done) = 0 := by rw [bestIndex, hfold]
    rw [hbest] at hchosen ⊢
    have hzero : (funcs 0).cumCycles = 0 := by
      have h := hle 0 (List.mem_finRange 0)
      rw [mark_of_notMem hchosen.1] at h
      exact le_antisymm h (hpos 0)
    refine ⟨fun h => absurd h (by simp), fun j _ => ?_⟩
    rw [hzero, if_neg (not_lt.2 (hpos j))]
    decide
  · have hbest : bestIndex (mark funcs done) = m := by rw [bestIndex, hfold]
    rw [hbest] at hchosen ⊢
    have hqdone := notMem_of_pos hq
    rw [mark_of_notMem hqdone] at hq
    refine ⟨fun _ => hq.trans_le (hchosen.2 q hqdone), fun j hj => ?_⟩
    have hround := hpost j (mem_post_of_lt (List.pairwise_lt_finRange n) hsplit
      (List.mem_finRange j) hj)
    rw [mark_of_notMem hchosen.1] at hround
    split_ifs with hlt
    · have hjdone : j ∉ done := fun hmem => absurd (hordered j hmem m hchosen.1) (not_le.2 hlt)
      rwa [mark_of_notMem hjdone] at hround
    · by_cases hjdone : j ∈ done
      · rwa [mark_of_mem hjdone] at hround
      · rw [mark_of_notMem hjdone] at hround
        exact le_trans (by have := hpos j; omega) hround

/-! ### All rounds -/

/-- So many rounds print the longest functions that are left. -/
def AllChosen (funcs : Fin n → Func) : ℕ → Finset (Fin n) → Prop
  | 0, _ => True
  | k + 1, done =>
    Chosen funcs done (bestIndex (mark funcs done)) ∧
      AllChosen funcs k (insert (bestIndex (mark funcs done)) done)

theorem Printable.allChosen (hfuncs : Printable funcs) {k : ℕ} (hcard : done.card + k = n)
    (hordered : Ordered funcs done) : AllChosen funcs k done := by
  induction k generalizing done with
  | zero => trivial
  | succ k ih =>
    have hchosen := hfuncs.chosen hordered (exists_left hcard)
    exact ⟨hchosen, ih (card_insert hcard hchosen.1) (hordered.insert hchosen)⟩

theorem AllChosen.fits (hpos : ∀ i, 0 ≤ (funcs i).cumCycles) {k : ℕ} (hcard : done.card + k = n)
    (hordered : Ordered funcs done) (h : AllChosen funcs k done) {p : Fin n} (hp : p ∉ done) :
    (0 < p.val → 0 < (funcs p).cumCycles) ∧ ∀ j, p < j →
      if (funcs j).cumCycles < (funcs p).cumCycles then
        (funcs j).cumCycles ≤ toInt32 (funcs p).cumCycles
      else -1 ≤ toInt32 (funcs p).cumCycles := by
  induction k generalizing done with
  | zero =>
    have huniv := Finset.eq_univ_of_card done (hcard.trans (Fintype.card_fin n).symm)
    exact absurd (huniv ▸ Finset.mem_univ p) hp
  | succ k ih =>
    obtain ⟨hchosen, hrest⟩ := h
    by_cases hbest : p = bestIndex (mark funcs done)
    · rw [hbest]
      exact hchosen.fits hpos hordered
    · exact ih (card_insert hcard hchosen.1) (hordered.insert hchosen) hrest
        (by simp [Finset.mem_insert, hbest, hp])

/-- **The rounds are right exactly if the table is printable.** -/
theorem allChosen_iff (hpos : ∀ i, 0 ≤ (funcs i).cumCycles) :
    AllChosen funcs n ∅ ↔ Printable funcs := by
  have hcard : (∅ : Finset (Fin n)).card + n = n := by rw [Finset.card_empty, Nat.zero_add]
  have hempty : Ordered funcs ∅ := fun i hi => absurd hi (Finset.notMem_empty i)
  constructor
  · intro h
    have hfits := fun p => h.fits hpos hcard hempty (Finset.notMem_empty p)
    exact ⟨fun p => (hfits p).1, fun p => (hfits p).2⟩
  · exact fun h => h.allChosen hcard hempty

/-- **The lines are the functions that are left, the longest first, exactly if every round chooses
one of the longest.** -/
theorem printRows_iff (hpos : ∀ i, 0 ≤ (funcs i).cumCycles) {k : ℕ} (hcard : done.card + k = n) :
    ((printRows k (mark funcs done) : Multiset Func) = doneᶜ.val.map funcs ∧
        (printRows k (mark funcs done)).Pairwise fun f g => g.cumCycles ≤ f.cumCycles) ↔
      AllChosen funcs k done := by
  induction k generalizing done with
  | zero =>
    have huniv := Finset.eq_univ_of_card done (hcard.trans (Fintype.card_fin n).symm)
    simp [printRows, AllChosen, huniv]
  | succ k ih =>
    rw [printRows, update_mark, AllChosen, List.pairwise_cons]
    constructor
    · rintro ⟨hsame, hfirst, hrest⟩
      -- A line with the mark is none of a function.
      have hp : bestIndex (mark funcs done) ∉ done := by
        intro hmem
        have hin := Multiset.mem_coe.2 (List.mem_cons_self (a := mark funcs done (bestIndex
          (mark funcs done))) (l := printRows k (mark funcs (insert (bestIndex (mark funcs done))
            done))))
        rw [hsame, Multiset.mem_map] at hin
        obtain ⟨i, -, hi⟩ := hin
        have hneg : (mark funcs done (bestIndex (mark funcs done))).cumCycles = -1 :=
          mark_of_mem hmem
        rw [← hi] at hneg
        exact absurd (hpos i) (by omega)
      rw [mark_of_notMem hp, compl_map hp, ← Multiset.cons_coe, Multiset.cons_inj_right] at hsame
      rw [mark_of_notMem hp] at hfirst
      refine ⟨⟨hp, fun j hj => ?_⟩, (ih (card_insert hcard hp)).1 ⟨hsame, hrest⟩⟩
      by_cases hjp : j = bestIndex (mark funcs done)
      · rw [← hjp]
      · refine hfirst (funcs j) (Multiset.mem_coe.1 ?_)
        rw [hsame]
        refine Multiset.mem_map_of_mem funcs (Finset.mem_compl.2 ?_)
        simp [Finset.mem_insert, hjp, hj]
    · rintro ⟨⟨hp, hmax⟩, hrest⟩
      obtain ⟨hsame, hordered⟩ := (ih (card_insert hcard hp)).2 hrest
      rw [mark_of_notMem hp, compl_map hp, ← Multiset.cons_coe, hsame]
      refine ⟨rfl, fun g hg => ?_, hordered⟩
      rw [← Multiset.mem_coe, hsame, Multiset.mem_map] at hg
      obtain ⟨j, hj, rfl⟩ := hg
      refine hmax j fun hdone => ?_
      exact Finset.mem_compl.1 hj (Finset.mem_insert_of_mem hdone)

/-! ### The report -/

/-- **The report lists every function of the table once, with its own calls and cycles, in the order
of the cycles, exactly if the table is printable.** -/
theorem sorted_iff (m : Mode) {s : State} (hpos : ∀ f ∈ s.funcs, 0 ≤ f.cumCycles) :
    ((profPrint m s).rows.Perm s.funcs ∧
        (profPrint m s).rows.Pairwise fun f g => g.cumCycles ≤ f.cumCycles) ↔
      Printable s.funcs.get := by
  by_cases h : s.funcs.length = 0
  · have hnil := List.length_eq_zero_iff.1 h
    have hrows : (profPrint m s).rows = [] := dif_pos h
    rw [hrows, hnil]
    refine iff_of_true ⟨.nil, .nil⟩ ⟨fun j => j.elim0, fun j => j.elim0⟩
  · have : NeZero s.funcs.length := ⟨h⟩
    have hrows : (profPrint m s).rows = printRows s.funcs.length (mark s.funcs.get ∅) := by
      rw [show mark s.funcs.get ∅ = s.funcs.get from
        funext fun i => mark_of_notMem (Finset.notMem_empty i)]
      exact dif_neg h
    have hget : ∀ i, 0 ≤ (s.funcs.get i).cumCycles := fun i => hpos _ (List.get_mem s.funcs i)
    have hall : ((∅ : Finset (Fin s.funcs.length))ᶜ.val.map s.funcs.get) =
        (s.funcs : Multiset Func) := by
      rw [Finset.compl_empty, Fin.univ_val_map, List.ofFn_get]
    rw [hrows, ← allChosen_iff hget, ← printRows_iff hget (by simp), hall, Multiset.coe_eq_coe]

/-- A table of functions that have all taken some time, no more than fits an `int`. -/
def timedState : State :=
  { State.init with funcs := [⟨100, [], 3, 1⟩, ⟨200, [], 13, 2⟩, ⟨300, [], 5, 1⟩] }

theorem sorted_iff_timed :
    (profPrint ⟨true, false⟩ timedState).rows.Perm timedState.funcs ∧
      (profPrint ⟨true, false⟩ timedState).rows.Pairwise fun f g => g.cumCycles ≤ f.cumCycles :=
  (sorted_iff ⟨true, false⟩ (by decide)).2
    ⟨by decide, by decide⟩

/-- A function that only calls another one, which has taken no time of its own. -/
def idleState : State :=
  { State.init with funcs := [⟨100, [], 5, 1⟩, ⟨200, [], 0, 1⟩] }

/-- **A function that has taken no time is not printed**: the first one is printed again instead. -/
theorem second_not_printed :
    (profPrint ⟨true, false⟩ idleState).rows = [⟨100, [], 5, 1⟩, ⟨100, [], -1, 1⟩] ∧
      ¬(profPrint ⟨true, false⟩ idleState).rows.Perm idleState.funcs := by
  decide

end Profiler
end Or1ksim
