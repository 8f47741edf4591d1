import Mathlib.Data.List.Basic
import Mathlib.Data.List.Find
import Mathlib.Data.List.Induction
import Mathlib.Data.Nat.Find

/-!
# Buckets

A table of chains, each with the elements of one bucket in the order in which they were appended.

* `append`, `foldl_append_apply` — a chain holds the elements of its bucket;
* `search`, `search_foldl_append` — **a search through all chains** finds the first of the elements
  in the lowest bucket.
-/

namespace Or1ksim
namespace Buckets

variable {α : Type*} (bucket : α → ℕ)

/-- An element comes to the end of its chain. -/
def append (t : ℕ → List α) (a : α) : ℕ → List α :=
  Function.update t (bucket a) (t (bucket a) ++ [a])

/-- The first element with `p` of the first chain, of `n`, that has one. -/
def search (n : ℕ) (t : ℕ → List α) (p : α → Bool) : Option α :=
  (List.range n).findSome? fun i => (t i).find? p

theorem foldl_append_apply (l : List α) (i : ℕ) :
    l.foldl (append bucket) (fun _ => []) i = l.filter fun a => bucket a = i := by
  induction l using List.reverseRecOn with
  | nil => rfl
  | append_singleton l a ih =>
    rw [List.foldl_append, List.foldl_cons, List.foldl_nil, List.filter_append,
      List.filter_singleton, append]
    by_cases h : i = bucket a
    · subst h
      rw [Function.update_self, ih, decide_eq_true rfl, cond_true]
    · rw [Function.update_of_ne h, ih, decide_eq_false (Ne.symm h), cond_false, List.append_nil]

variable {bucket} {n : ℕ} {l : List α} {p : α → Bool}

theorem findSome?_range {f : ℕ → Option α} {i : ℕ} (hi : i < n) (hsome : (f i).isSome)
    (hnone : ∀ j < i, f j = none) : (List.range n).findSome? f = f i := by
  have hsplit : List.range n = List.range i ++ i :: (List.range n).drop (i + 1) := by
    have htake : (List.range n).take i = List.range i := by
      rw [List.take_range, Nat.min_eq_left (Nat.le_of_lt hi)]
    rw [← htake]
    refine (List.take_append_drop i (List.range n)).symm.trans ?_
    rw [List.drop_eq_getElem_cons (by simpa using hi), List.getElem_range]
  have hbefore : (List.range i).findSome? f = none :=
    List.findSome?_eq_none_iff.2 fun j hj => hnone j (List.mem_range.1 hj)
  obtain ⟨a, ha⟩ := Option.isSome_iff_exists.1 hsome
  rw [hsplit, List.findSome?_append, hbefore, Option.none_or, List.findSome?_cons, ha]

/-- **A search through all chains** finds the first of the elements in the lowest bucket. -/
theorem search_foldl_append (hbucket : ∀ a, bucket a < n) :
    search n (l.foldl (append bucket) fun _ => []) p =
      l.find? fun a => p a && l.all fun b => !p b || bucket a ≤ bucket b := by
  have hchain : ∀ i, ((l.foldl (append bucket) fun _ => []) i).find? p =
      l.find? fun a => decide (bucket a = i) && p a := fun i => by
    rw [foldl_append_apply, List.find?_filter]
    exact List.find?_congr fun a _ => by simp
  unfold search
  simp only [hchain]
  by_cases hex : ∃ i, ∃ a ∈ l, p a = true ∧ bucket a = i
  · -- the lowest bucket
    classical
    obtain ⟨a, ha, hpa, hai⟩ := Nat.find_spec hex
    have hmin : ∀ b ∈ l, p b = true → Nat.find hex ≤ bucket b := fun b hb hpb =>
      Nat.find_min' hex ⟨b, hb, hpb, rfl⟩
    have hlow : ∀ b ∈ l, (decide (bucket b = Nat.find hex) && p b) =
        (p b && l.all fun c => !p c || bucket b ≤ bucket c) := fun b hb => by
      cases hpb : p b with
      | false => rw [Bool.and_false, Bool.false_and]
      | true =>
        rw [Bool.and_true, Bool.true_and, Bool.eq_iff_iff, decide_eq_true_eq, List.all_eq_true]
        constructor
        · intro h c hc
          cases hpc : p c with
          | false => rfl
          | true => simpa [h] using hmin c hc hpc
        · intro h
          have hba : bucket b ≤ bucket a := by simpa [hpa] using h a ha
          exact Nat.le_antisymm (hai ▸ hba) (hmin b hb hpb)
    rw [findSome?_range (hai ▸ hbucket a) ?_ fun j hj => ?_]
    · exact List.find?_congr hlow
    · exact List.find?_isSome.2 ⟨a, ha, by simp [hpa, hai]⟩
    · refine List.find?_eq_none.2 fun b hb h => ?_
      rw [Bool.and_eq_true, decide_eq_true_eq] at h
      exact Nat.not_lt_of_le (hmin b hb h.2) (h.1.symm ▸ hj)
  · have hnone : ∀ b ∈ l, p b = false := fun b hb =>
      Bool.eq_false_iff.2 fun hpb => hex ⟨_, b, hb, hpb, rfl⟩
    have hleft : (List.range n).findSome? (fun i => l.find? fun a => decide (bucket a = i) && p a) =
        none := by
      refine List.findSome?_eq_none_iff.2 fun i _ => List.find?_eq_none.2 fun b hb => ?_
      simp [hnone b hb]
    rw [hleft]
    refine (List.find?_eq_none.2 fun b hb => ?_).symm
    simp [hnone b hb]

end Buckets
end Or1ksim
