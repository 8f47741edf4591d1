import Mathlib.Data.List.Basic
import Mathlib.Logic.Function.Basic

/-!
# Linked lists

Cells of a heap that are linked by `next`.

* `Seg` — the cells from one pointer to another;
* `seg_append`, `seg_concat` — segments put together;
* `Seg.congr`, `Seg.update` — a segment depends on its own cells only;
* `Seg.redirect` — the last cell of a segment is linked to another pointer;
* `Seg.unique`, `Seg.mem_of_seg` — the cells of a list are determined by its first pointer.
-/

namespace Or1ksim
namespace Linked

variable {α : Type} {next next' : α → Option α} {p q r : Option α} {a : α} {as bs : List α}

/-- Following `next` from `p`, one meets the cells `as` and then the pointer `q`. -/
def Seg (next : α → Option α) : Option α → List α → Option α → Prop
  | p, [], q => p = q
  | p, a :: as, q => p = some a ∧ Seg next (next a) as q

@[simp] theorem seg_nil : Seg next p [] q ↔ p = q := Iff.rfl

@[simp] theorem seg_cons : Seg next p (a :: as) q ↔ p = some a ∧ Seg next (next a) as q := Iff.rfl

theorem seg_append : Seg next p (as ++ bs) q ↔ ∃ r, Seg next p as r ∧ Seg next r bs q := by
  induction as generalizing p with
  | nil => simp
  | cons a as ih => simp [ih, and_assoc]

theorem seg_concat : Seg next p (as ++ [a]) q ↔ Seg next p as (some a) ∧ next a = q := by
  rw [seg_append]
  constructor
  · rintro ⟨r, has, rfl, hq⟩
    exact ⟨has, hq⟩
  · rintro ⟨has, hq⟩
    exact ⟨_, has, rfl, hq⟩

theorem Seg.congr (h : Seg next p as q) (hsame : ∀ a ∈ as, next' a = next a) :
    Seg next' p as q := by
  induction as generalizing p with
  | nil => exact h
  | cons a as ih =>
    obtain ⟨hp, hrest⟩ := h
    refine ⟨hp, ?_⟩
    rw [hsame a List.mem_cons_self]
    exact ih hrest fun b hb => hsame b (List.mem_cons_of_mem _ hb)

theorem Seg.update [DecidableEq α] (h : Seg next p as q) (ha : a ∉ as) :
    Seg (Function.update next a r) p as q := by
  refine h.congr fun b hb => Function.update_of_ne ?_ _ _
  rintro rfl
  exact ha hb

/-- The last cell of a segment is linked to another pointer. -/
theorem Seg.redirect [DecidableEq α] (h : Seg next p (as ++ [a]) q) (ha : a ∉ as) :
    Seg (Function.update next a r) p (as ++ [a]) r :=
  seg_concat.2 ⟨(seg_concat.1 h).1.update ha, Function.update_self _ _ _⟩

theorem Seg.unique (has : Seg next p as none) (hbs : Seg next p bs none) : as = bs := by
  induction as generalizing p bs with
  | nil =>
    obtain rfl : p = none := has
    cases bs with
    | nil => rfl
    | cons b bs => exact absurd hbs.1 (by simp)
  | cons a as ih =>
    obtain ⟨rfl, has⟩ := has
    cases bs with
    | nil => exact absurd (seg_nil.1 hbs) (by simp)
    | cons b bs =>
      obtain ⟨hab, hbs⟩ := hbs
      obtain rfl := Option.some.inj hab
      rw [ih has hbs]

theorem Seg.mem_of_seg (has : Seg next p as (some a)) (hbs : Seg next p bs none) : a ∈ bs := by
  induction as generalizing p bs with
  | nil =>
    obtain rfl : p = some a := has
    cases bs with
    | nil => exact absurd (seg_nil.1 hbs) (by simp)
    | cons b bs =>
      obtain rfl := Option.some.inj hbs.1
      exact List.mem_cons_self
  | cons c as ih =>
    obtain ⟨rfl, has⟩ := has
    cases bs with
    | nil => exact absurd (seg_nil.1 hbs) (by simp)
    | cons b bs =>
      obtain ⟨hcb, hbs⟩ := hbs
      obtain rfl := Option.some.inj hcb
      exact List.mem_cons_of_mem _ (ih has hbs)

end Linked
end Or1ksim
