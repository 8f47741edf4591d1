import Mathlib.Order.Lattice
import Mathlib.Data.List.Pairwise
import Mathlib.Data.Nat.Notation
import Mathlib.Order.Basic
import Mathlib.Order.Nat

/-!
# Selections by a loop

Loops that go through a list and keep one element: the first of the least, the last that satisfies a
condition, or one of the greatest.

* `foldl_first_least` — a loop that carries the running minimum keeps the first least element;
* `foldl_last` — a loop that does not keeps the last;
* `foldl_rounded` — a loop that carries the running maximum after some rounding;
* `foldl_rounded_greatest` — it keeps a greatest element if no rounding lets a smaller one in;
* `mem_split_range` — before and after an element of `List.range`.
-/

namespace Or1ksim

variable {ι α : Type}

/-- A loop that carries the running minimum keeps the first least element below the limit it starts
with, if there is one. -/
theorem foldl_first_least [LinearOrder α] (f : ι → α) (l : List ι) (d : ι) (top : α) :
    (l.foldl (fun (m : ι × α) i => if f i < m.2 then (i, f i) else m) (d, top) = (d, top) ∧
        ∀ i ∈ l, top ≤ f i) ∨
      ∃ pre m post, l = pre ++ m :: post ∧
        l.foldl (fun (m : ι × α) i => if f i < m.2 then (i, f i) else m) (d, top) = (m, f m) ∧
        f m < top ∧ (∀ i ∈ pre, f m < f i) ∧ ∀ i ∈ post, f m ≤ f i := by
  induction l generalizing d top with
  | nil => exact .inl ⟨rfl, fun i hi => absurd hi List.not_mem_nil⟩
  | cons x l ih =>
    rw [List.foldl_cons]
    by_cases hx : f x < top
    · rw [if_pos hx]
      refine .inr ?_
      rcases ih x (f x) with ⟨hfold, hle⟩ | ⟨pre, m, post, hl, hfold, hlt, hpre, hpost⟩
      · exact ⟨[], x, l, rfl, hfold, hx, fun i hi => absurd hi List.not_mem_nil, hle⟩
      · refine ⟨x :: pre, m, post, by rw [hl]; rfl, hfold, hlt.trans hx, fun i hi => ?_, hpost⟩
        rcases List.mem_cons.1 hi with rfl | hi
        · exact hlt
        · exact hpre i hi
    · rw [if_neg hx]
      rcases ih d top with ⟨hfold, hle⟩ | ⟨pre, m, post, hl, hfold, hlt, hpre, hpost⟩
      · refine .inl ⟨hfold, fun i hi => ?_⟩
        rcases List.mem_cons.1 hi with rfl | hi
        · exact not_lt.1 hx
        · exact hle i hi
      · refine .inr ⟨x :: pre, m, post, by rw [hl]; rfl, hfold, hlt, fun i hi => ?_, hpost⟩
        rcases List.mem_cons.1 hi with rfl | hi
        · exact hlt.trans_le (not_lt.1 hx)
        · exact hpre i hi

/-- A loop that overwrites keeps the last element that satisfies the condition, if there is one. -/
theorem foldl_last (p : ι → Prop) [DecidablePred p] (l : List ι) (d : ι) :
    (l.foldl (fun m i => if p i then i else m) d = d ∧ ∀ i ∈ l, ¬p i) ∨
      ∃ pre m post, l = pre ++ m :: post ∧ l.foldl (fun m i => if p i then i else m) d = m ∧
        p m ∧ ∀ i ∈ post, ¬p i := by
  induction l generalizing d with
  | nil => exact .inl ⟨rfl, fun i hi => absurd hi List.not_mem_nil⟩
  | cons x l ih =>
    rw [List.foldl_cons]
    rcases ih (if p x then x else d) with ⟨hfold, hnone⟩ | ⟨pre, m, post, hl, hfold, hm, hpost⟩
    · by_cases hx : p x
      · rw [if_pos hx] at hfold ⊢
        exact .inr ⟨[], x, l, rfl, hfold, hx, hnone⟩
      · rw [if_neg hx] at hfold ⊢
        refine .inl ⟨hfold, fun i hi => ?_⟩
        rcases List.mem_cons.1 hi with rfl | hi
        · exact hx
        · exact hnone i hi
    · exact .inr ⟨x :: pre, m, post, by rw [hl]; rfl, hfold, hm, hpost⟩

/-- A loop that carries the running maximum, rounded by `t`: what follows the element that it keeps
is not above that. -/
theorem foldl_rounded [LinearOrder α] (f : ι → α) (t : α → α) (l : List ι) (d : ι) (top : α) :
    (l.foldl (fun (m : ι × α) i => if m.2 < f i then (i, t (f i)) else m) (d, top) = (d, top) ∧
        ∀ i ∈ l, f i ≤ top) ∨
      ∃ pre m post, l = pre ++ m :: post ∧
        l.foldl (fun (m : ι × α) i => if m.2 < f i then (i, t (f i)) else m) (d, top) =
          (m, t (f m)) ∧ (∃ i ∈ l, top < f i) ∧ ∀ i ∈ post, f i ≤ t (f m) := by
  induction l generalizing d top with
  | nil => exact .inl ⟨rfl, fun i hi => absurd hi List.not_mem_nil⟩
  | cons x l ih =>
    rw [List.foldl_cons]
    by_cases hx : top < f x
    · rw [if_pos hx]
      refine .inr ?_
      rcases ih x (t (f x)) with ⟨hfold, hle⟩ | ⟨pre, m, post, hl, hfold, -, hpost⟩
      · exact ⟨[], x, l, rfl, hfold, ⟨x, List.mem_cons_self, hx⟩, hle⟩
      · exact ⟨x :: pre, m, post, by rw [hl]; rfl, hfold, ⟨x, List.mem_cons_self, hx⟩, hpost⟩
    · rw [if_neg hx]
      rcases ih d top with ⟨hfold, hle⟩ | ⟨pre, m, post, hl, hfold, ⟨i, hi, hlt⟩, hpost⟩
      · refine .inl ⟨hfold, fun i hi => ?_⟩
        rcases List.mem_cons.1 hi with rfl | hi
        · exact not_lt.1 hx
        · exact hle i hi
      · exact .inr ⟨x :: pre, m, post, by rw [hl]; rfl, hfold, ⟨i, .tail _ hi, hlt⟩, hpost⟩

/-- Such a loop once it keeps `q`, if the rounded value of an element lets in only what is not less
than that. -/
theorem foldl_rounded_from [LinearOrder α] (f : ι → α) (t : α → α) {top : α}
    (ht : ∀ x, top < x → t x ≤ x) {l : List ι} {q : ι} (hq : top < f q)
    (hl : (q :: l).Pairwise fun i j => top < f i → f j ≤ t (f i) ∨ f i ≤ f j) :
    ∃ m ∈ q :: l,
      l.foldl (fun (m : ι × α) i => if m.2 < f i then (i, t (f i)) else m) (q, t (f q)) =
        (m, t (f m)) ∧ ∀ i ∈ q :: l, f i ≤ f m := by
  induction l generalizing q with
  | nil =>
    refine ⟨q, List.mem_cons_self, rfl, fun i hi => ?_⟩
    rw [List.mem_singleton.1 hi]
  | cons x l ih =>
    obtain ⟨hfirst, hrest⟩ := List.pairwise_cons.1 hl
    have hxq := hfirst x List.mem_cons_self hq
    rw [List.foldl_cons]
    by_cases hx : t (f q) < f x
    · have hle : f q ≤ f x := hxq.resolve_left hx.not_ge
      rw [if_pos hx]
      obtain ⟨m, hm, hfold, hmax⟩ := ih (hq.trans_le hle) hrest
      refine ⟨m, .tail _ hm, hfold, fun i hi => ?_⟩
      rcases List.mem_cons.1 hi with rfl | hi
      · exact hle.trans (hmax x List.mem_cons_self)
      · exact hmax i hi
    · rw [if_neg hx]
      have hskip : (q :: l).Pairwise fun i j => top < f i → f j ≤ t (f i) ∨ f i ≤ f j :=
        hl.sublist ((List.sublist_cons_self x l).cons_cons q)
      obtain ⟨m, hm, hfold, hmax⟩ := ih hq hskip
      have hsub : ∀ i, i ∈ q :: l → i ∈ q :: x :: l := fun i hi =>
        (List.mem_cons.1 hi).elim (fun h => h ▸ List.mem_cons_self) fun h => .tail _ (.tail _ h)
      refine ⟨m, hsub m hm, hfold, fun i hi => ?_⟩
      rcases List.mem_cons.1 hi with rfl | hi
      · exact hmax i List.mem_cons_self
      rcases List.mem_cons.1 hi with rfl | hi
      · exact ((not_lt.1 hx).trans (ht _ hq)).trans (hmax q List.mem_cons_self)
      · exact hmax i (.tail _ hi)

/-- **A loop that carries a rounded maximum** keeps a greatest element above the limit it starts
with, if there is one and the rounding lets in no smaller element. -/
theorem foldl_rounded_greatest [LinearOrder α] (f : ι → α) (t : α → α) {top : α}
    (ht : ∀ x, top < x → t x ≤ x) {l : List ι} (d : ι)
    (hl : l.Pairwise fun i j => top < f i → f j ≤ t (f i) ∨ f i ≤ f j)
    (hsome : ∃ i ∈ l, top < f i) :
    ∃ m ∈ l, l.foldl (fun (m : ι × α) i => if m.2 < f i then (i, t (f i)) else m) (d, top) =
      (m, t (f m)) ∧ ∀ i ∈ l, f i ≤ f m := by
  induction l with
  | nil => exact absurd hsome (by simp)
  | cons x l ih =>
    rw [List.foldl_cons]
    by_cases hx : top < f x
    · rw [if_pos hx]
      exact foldl_rounded_from f t ht hx hl
    · rw [if_neg hx]
      obtain ⟨i, hi, hlt⟩ := hsome
      have hi' : i ∈ l := (List.mem_cons.1 hi).resolve_left fun h => hx (h ▸ hlt)
      obtain ⟨m, hm, hfold, hmax⟩ := ih (List.pairwise_cons.1 hl).2 ⟨i, hi', hlt⟩
      refine ⟨m, .tail _ hm, hfold, fun j hj => ?_⟩
      rcases List.mem_cons.1 hj with rfl | hj
      · exact (not_lt.1 hx).trans (hlt.le.trans (hmax i hi'))
      · exact hmax j hj

theorem mem_post_of_lt [Preorder α] {l pre post : List α} {m j : α} (hl : l.Pairwise (· < ·))
    (hsplit : l = pre ++ m :: post) (hj : j ∈ l) (hlt : m < j) : j ∈ post := by
  rw [hsplit] at hl hj
  rcases List.mem_append.1 hj with hpre | hj
  · exact absurd ((List.pairwise_append.1 hl).2.2 j hpre m List.mem_cons_self) hlt.asymm
  · exact (List.mem_cons.1 hj).resolve_left hlt.ne'

theorem mem_split_range {n m : ℕ} {pre post : List ℕ} (h : List.range n = pre ++ m :: post) :
    m < n ∧ (∀ i, i ∈ pre ↔ i < m) ∧ ∀ i, i ∈ post ↔ m < i ∧ i < n := by
  have hmem : ∀ i, i < n ↔ i ∈ pre ∨ i = m ∨ i ∈ post := fun i => by
    rw [← List.mem_range, h, List.mem_append, List.mem_cons]
  have hsorted := List.pairwise_lt_range (n := n)
  rw [h, List.pairwise_append, List.pairwise_cons] at hsorted
  obtain ⟨-, ⟨hpost, -⟩, hpre⟩ := hsorted
  have hm : m < n := (hmem m).2 (.inr (.inl rfl))
  have hbefore : ∀ i ∈ pre, i < m := fun i hi => hpre i hi m (List.mem_cons_self ..)
  refine ⟨hm, fun i => ⟨hbefore i, fun hi => ?_⟩, fun i => ⟨fun hi => ?_, fun ⟨hmi, hi⟩ => ?_⟩⟩
  · rcases (hmem i).1 (hi.trans hm) with hin | rfl | hin
    · exact hin
    · exact absurd hi (lt_irrefl i)
    · exact absurd hi (hpost i hin).asymm
  · exact ⟨hpost i hi, (hmem i).2 (.inr (.inr hi))⟩
  · rcases (hmem i).1 hi with hin | rfl | hin
    · exact absurd hmi (hbefore i hin).asymm
    · exact absurd hmi (lt_irrefl i)
    · exact hin

end Or1ksim
