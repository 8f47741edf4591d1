import Mathlib.Data.List.Basic
import Mathlib.Data.List.Perm.Basic
import Mathlib.Data.Nat.Notation

/-!
# Elements pulled forward

A loop over an array that takes one of the later elements to the place it has come to, and moves up
those in between.

* `pull` — the element at `k` is put at `i`;
* `pull_perm`, `mem_drop_pull` — nothing is lost, and what is left behind the place was there
before;
* `pull_pairwise` — a relation is kept that the element has with all that it passes;
* `sublist_of_pairwise` — which of two elements stands in front.
-/

namespace Or1ksim
namespace Pull

variable {α β : Type} {l : List α} {i k : ℕ}

/-- The element at `k` is put at `i`; those from there on move up by one. -/
def pull (l : List α) (i k : ℕ) : List α :=
  l.take i ++ ((l.drop k).take 1 ++ (l.take k).drop i ++ l.drop (k + 1))

/-- What is in front of the two places, between them, and behind. -/
theorem exists_split (hik : i ≤ k) (hk : k < l.length) :
    ∃ pre mid x post, l = pre ++ (mid ++ x :: post) ∧ pre.length = i ∧ pre.length + mid.length = k ∧
      pull l i k = pre ++ (x :: mid ++ post) := by
  refine ⟨l.take i, (l.take k).drop i, l[k], l.drop (k + 1), ?_, ?_, ?_, ?_⟩
  · have hdrop : l.drop i = (l.take k).drop i ++ l.drop k := by
      conv_lhs => rw [← List.take_append_drop k l]
      rw [List.drop_append_of_le_length (by rw [List.length_take]; omega)]
    rw [← List.drop_eq_getElem_cons hk, ← hdrop, List.take_append_drop]
  · rw [List.length_take]
    omega
  · rw [List.length_take, List.length_drop, List.length_take]
    omega
  · rw [pull, List.drop_eq_getElem_cons hk]
    rfl

theorem pull_perm (hik : i ≤ k) (hk : k < l.length) : (pull l i k).Perm l := by
  obtain ⟨pre, mid, x, post, hl, -, -, hpull⟩ := exists_split hik hk
  rw [hpull, hl, List.cons_append]
  exact List.Perm.append_left pre List.perm_middle.symm

theorem pull_self (hk : k < l.length) : pull l k k = l := by
  obtain ⟨pre, mid, x, post, hl, hpre, hmid, hpull⟩ := exists_split (Nat.le_refl k) hk
  have hnil : mid = [] := List.eq_nil_of_length_eq_zero (by omega)
  rw [hpull, hl, hnil]
  rfl

theorem mem_drop_pull (hik : i ≤ k) (hk : k < l.length) (hl : l.Nodup) {y : α}
    (hy : y ∈ (pull l i k).drop (i + 1)) : y ∈ l.drop i ∧ y ≠ l[k] := by
  obtain ⟨pre, mid, x, post, hsplit, hpre, hmid, hpull⟩ := exists_split hik hk
  have hx : l[k]? = some x := by
    rw [hsplit, List.getElem?_append_right (by omega), List.getElem?_append_right (by omega),
      show k - pre.length - mid.length = 0 by omega]
    rfl
  have hleft : (pull l i k).drop (i + 1) = mid ++ post := by
    rw [hpull, ← hpre, ← List.drop_drop, List.drop_left]
    rfl
  rw [hleft] at hy
  rw [hsplit] at hl
  have hnodup := (List.nodup_append.1 hl).2.1
  rw [List.perm_middle.nodup_iff, List.nodup_cons] at hnodup
  refine ⟨?_, fun he => ?_⟩
  · rw [hsplit, ← hpre, List.drop_left]
    rcases List.mem_append.1 hy with hy | hy
    · exact List.mem_append_left _ hy
    · exact List.mem_append_right _ (.tail x hy)
  · rw [List.getElem?_eq_getElem hk] at hx
    exact hnodup.1 (Option.some.inj hx ▸ he ▸ hy)

/-- A relation is kept that the element has with all that it passes. -/
theorem pull_pairwise {R : α → α → Prop} (hik : i ≤ k) (hk : k < l.length) (h : l.Pairwise R)
    (hpass : ∀ y ∈ l.drop i, R l[k] y) : (pull l i k).Pairwise R := by
  obtain ⟨pre, mid, x, post, hl, hpre, hmid, hpull⟩ := exists_split hik hk
  have hx : l[k] = x := by
    subst hl
    rw [List.getElem_append_right (by omega), List.getElem_append_right (by omega)]
    simp [← hmid]
  rw [hx] at hpass
  have hdrop : l.drop i = mid ++ x :: post := by
    rw [hl, ← hpre, List.drop_left]
  rw [hdrop] at hpass
  rw [hpull]
  subst hl
  simp only [List.pairwise_append, List.pairwise_cons, List.mem_append, List.mem_cons,
    List.cons_append] at h ⊢
  obtain ⟨hpre', ⟨hmid', ⟨hxpost, hpost⟩, hmx⟩, hcross⟩ := h
  refine ⟨hpre', ⟨fun y hy => hpass y ?_, hmid', hpost, fun a ha b hb => hmx a ha b (.inr hb)⟩,
    fun a ha b hb => hcross a ha b ?_⟩
  · simp only [List.mem_append, List.mem_cons]
    tauto
  · tauto

/-- The elements in their order, one of two in front of the other. -/
theorem sublist_or_sublist {q r : α} (hq : q ∈ l) (hr : r ∈ l) (hne : q ≠ r) :
    [q, r].Sublist l ∨ [r, q].Sublist l := by
  induction l with
  | nil => cases hq
  | cons a l ih =>
    rcases List.mem_cons.1 hq with rfl | hq'
    · have hr' := (List.mem_cons.1 hr).resolve_left fun he => hne he.symm
      exact .inl (List.cons_sublist_cons.2 (List.singleton_sublist.2 hr'))
    · rcases List.mem_cons.1 hr with rfl | hr'
      · exact .inr (List.cons_sublist_cons.2 (List.singleton_sublist.2 hq'))
      · exact (ih hq' hr').imp (fun h => h.cons a) fun h => h.cons a

/-- An element is in front of another one if the relation does not allow the other order. -/
theorem sublist_of_pairwise {R : α → α → Prop} (h : l.Pairwise R) {q r : α} (hq : q ∈ l)
    (hr : r ∈ l)
    (hne : q ≠ r) (hno : ¬R r q) : [q, r].Sublist l := by
  refine (sublist_or_sublist hq hr hne).resolve_right fun hsub => hno ?_
  exact (List.pairwise_pair.1 (h.sublist hsub))

end Pull
end Or1ksim
