import Mathlib.Data.List.Nodup
import Mathlib.Data.Nat.Cast.Defs

/-!
# What was seen, and when

* `distinct` — the elements of a list, in the order in which they are first seen;
* `touch`, `touch_distinct` — **a list with the least recently used element dropped** holds the
  first distinct elements of the past;
* `countSteps` — the steps of a run at which something holds of the past;
* `foldl_past`, `foldl_countSteps` — **what a run keeps of its past, and what it counts**.
-/

namespace Or1ksim
namespace Recency

variable {α : Type} [DecidableEq α]

/-- The elements of a list, in the order in which they are first seen. -/
def distinct : List α → List α
  | [] => []
  | a :: l => a :: (distinct l).filter (· ≠ a)

variable {a b : α} {l : List α}

@[simp]
theorem mem_distinct : a ∈ distinct l ↔ a ∈ l := by
  induction l with
  | nil => exact Iff.rfl
  | cons b l ih =>
    rw [distinct, List.mem_cons, List.mem_filter, ih, List.mem_cons]
    by_cases h : a = b <;> simp [h]

theorem nodup_distinct (l : List α) : (distinct l).Nodup := by
  induction l with
  | nil => exact List.nodup_nil
  | cons b l ih =>
    refine List.nodup_cons.2 ⟨fun h => ?_, ih.filter _⟩
    simpa using (List.mem_filter.1 h).2

theorem distinct_append (l : List α) (a : α) :
    distinct (l ++ [a]) = distinct l ++ if a ∈ l then [] else [a] := by
  induction l with
  | nil => rfl
  | cons b l ih =>
    rw [List.cons_append, distinct, distinct, ih, List.filter_append]
    by_cases hl : a ∈ l
    · rw [if_pos hl, if_pos (List.mem_cons_of_mem b hl)]
      rfl
    · rw [if_neg hl, List.filter_singleton]
      by_cases hb : a = b <;> simp [hb, hl]

/-- A list without an element, cut to one less than before it was taken out. -/
theorem take_filter_ne {n : ℕ} (hl : l.Nodup) :
    ((l.take (n + 1)).filter (· ≠ a)).take n = (l.filter (· ≠ a)).take n := by
  induction l generalizing n with
  | nil => rfl
  | cons b l ih =>
    obtain ⟨hb, hl⟩ := List.nodup_cons.1 hl
    rw [List.take_succ_cons]
    by_cases hab : b = a
    · have hfilter : ∀ m : List α, (∀ x ∈ m, x ∈ l) → m.filter (· ≠ a) = m := fun m hm =>
        List.filter_eq_self.2 fun x hx => decide_eq_true fun hxa => hb (hab ▸ hxa ▸ hm x hx)
      have hcons : ∀ m : List α, (b :: m).filter (· ≠ a) = m.filter (· ≠ a) := fun m =>
        List.filter_cons_of_neg (by simpa using hab)
      rw [hcons, hcons, hfilter _ fun x hx => List.mem_of_mem_take hx, hfilter _ fun x hx => hx,
        List.take_take, Nat.min_self]
    · have hcons : ∀ m : List α, (b :: m).filter (· ≠ a) = b :: m.filter (· ≠ a) := fun m =>
        List.filter_cons_of_pos (by simpa using hab)
      rw [hcons, hcons]
      cases n with
      | zero => rfl
      | succ n => rw [List.take_succ_cons, List.take_succ_cons, ih hl]

/-! ### The least recently used element -/

/-- `a` is used: it moves to the front, and the last of more than `n` elements is dropped. -/
def touch (n : ℕ) (a : α) (l : List α) : List α := (a :: l.erase a).take n

/-- **Using elements keeps the first distinct ones of the past**, the last one first. -/
theorem touch_distinct {n : ℕ} (a : α) (l : List α) :
    touch (n + 1) a ((distinct l).take (n + 1)) = (distinct (a :: l)).take (n + 1) := by
  have hnodup : ((distinct l).take (n + 1)).Nodup :=
    (nodup_distinct l).sublist (List.take_sublist _ _)
  rw [touch, distinct, List.take_succ_cons, List.take_succ_cons, hnodup.erase_eq_filter,
    ← take_filter_ne (nodup_distinct l)]
  have hfilter : ∀ m : List α, m.filter (· != a) = m.filter (· ≠ a) := fun m =>
    List.filter_congr fun x _ => (decide_not).symm
  rw [hfilter]

/-! ### Counting -/

/-- The number of steps at which `p` holds of the past, the last step first, and of the step. -/
def countSteps (p : List α → α → Bool) : List α → List α → ℕ
  | _, [] => 0
  | past, a :: l => (if p past a then 1 else 0) + countSteps p (a :: past) l

omit [DecidableEq α] in
theorem countSteps_add_not (p : List α → α → Bool) (past l : List α) :
    countSteps p past l + countSteps (fun past a => !p past a) past l = l.length := by
  induction l generalizing past with
  | nil => rfl
  | cons a l ih =>
    rw [countSteps, countSteps, List.length_cons, ← ih (a :: past)]
    cases p past a <;> simp <;> omega

omit [DecidableEq α] in
theorem countSteps_const (q : α → Bool) (past l : List α) :
    countSteps (fun _ a => q a) past l = l.countP q := by
  induction l generalizing past with
  | nil => rfl
  | cons a l ih => rw [countSteps, ih (a :: past), List.countP_cons, Nat.add_comm]

section Run

omit [DecidableEq α]

variable {σ M : Type} {step : σ → α → σ} {Inv : List α → σ → Prop}

theorem foldl_past (hstep : ∀ past s a, Inv past s → Inv (a :: past) (step s a)) {past : List α}
    {s : σ} (h : Inv past s) (l : List α) : Inv (l.reverse ++ past) (l.foldl step s) := by
  induction l generalizing past s with
  | nil => exact h
  | cons a l ih =>
    rw [List.reverse_cons, List.append_assoc]
    exact ih (hstep past s a h)

theorem foldl_countSteps [AddCommMonoidWithOne M] {n : σ → M} {p : List α → α → Bool}
    (hstep : ∀ past s a, Inv past s → Inv (a :: past) (step s a))
    (hcount : ∀ past s a, Inv past s → n (step s a) = n s + if p past a then 1 else 0)
    {past : List α} {s : σ} (h : Inv past s) (l : List α) :
    n (l.foldl step s) = n s + (countSteps p past l : M) := by
  induction l generalizing past s with
  | nil => rw [countSteps, Nat.cast_zero, add_zero, List.foldl_nil]
  | cons a l ih =>
    rw [List.foldl_cons, ih (hstep past s a h), hcount past s a h, countSteps, Nat.cast_add,
      add_assoc]
    cases p past a <;> simp

end Run

end Recency
end Or1ksim
