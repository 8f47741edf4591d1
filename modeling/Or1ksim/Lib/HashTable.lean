import Mathlib.Data.List.Nodup
import Mathlib.Data.List.Range

/-!
# Chained hash tables

A table of chains indexed by the hash of the key, with the three operations of an insert-only-if-
absent dictionary.  Chains hold whole entries, so two keys with one hash share a chain.

* `WF` — every entry sits in the chain of its key, and no chain repeats a key;
* `lookup_add`, `lookup_delete`, `lookup_modify` — the operations seen through `lookup`;
* `mem_entries_iff`, `nodup_keys_entries` — the entries of a well-formed table are its graph.
-/

namespace Or1ksim
namespace HashTable

variable {K V : Type*} [DecidableEq K] (hash : K → ℕ)

/-- Chains of entries, indexed by hash value. -/
abbrev Table (K V : Type*) := ℕ → List (K × V)

/-- The value of the first entry for `k` in its chain. -/
def lookup (T : Table K V) (k : K) : Option V :=
  ((T (hash k)).find? fun e => decide (e.1 = k)).map Prod.snd

/-- Add an entry at the head of its chain unless the key is already there. -/
def add (T : Table K V) (k : K) (v : V) : Table K V :=
  if (T (hash k)).any (fun e => decide (e.1 = k)) then T
  else Function.update T (hash k) ((k, v) :: T (hash k))

/-- Unlink the first entry for `k`, returning its value. -/
def delete (T : Table K V) (k : K) : Option V × Table K V :=
  (lookup hash T k,
    Function.update T (hash k) ((T (hash k)).eraseP fun e => decide (e.1 = k)))

/-- Change the value of the first entry for `k`. -/
def modify (T : Table K V) (k : K) (f : V → V) : Table K V :=
  Function.update T (hash k) ((T (hash k)).modify
    ((T (hash k)).findIdx fun e => decide (e.1 = k)) fun e => (e.1, f e.2))

/-- Every entry is in the chain of its key and no chain repeats a key. -/
structure WF (T : Table K V) : Prop where
  /-- Entries sit in the chain their key hashes to. -/
  placed : ∀ h e, e ∈ T h → hash e.1 = h
  /-- No chain holds two entries for one key. -/
  nodup : ∀ h, ((T h).map Prod.fst).Nodup

variable {hash} {T : Table K V} {k k' : K} {v v' : V}

/-! ### Chains -/

theorem find?_eq_some_iff_mem {c : List (K × V)} (hc : (c.map Prod.fst).Nodup) :
    (c.find? fun e => decide (e.1 = k)).map Prod.snd = some v ↔ (k, v) ∈ c := by
  induction c with
  | nil => simp
  | cons e c ih =>
    rw [List.map_cons, List.nodup_cons] at hc
    by_cases he : e.1 = k
    · subst he
      have hout : (e.1, v) ∉ c := fun hm => hc.1 (List.mem_map.2 ⟨_, hm, rfl⟩)
      rw [List.find?_cons_of_pos (by simp)]
      simp only [Option.map_some, Option.some.injEq, List.mem_cons, hout, or_false]
      exact ⟨fun h => by rw [← h], fun h => by rw [← h]⟩
    · rw [List.find?_cons_of_neg (by simpa using he), ih hc.2, List.mem_cons]
      exact ⟨Or.inr, fun h => h.resolve_left fun h => he (by rw [← h])⟩

theorem find?_eraseP {c : List (K × V)} (hc : (c.map Prod.fst).Nodup) :
    ((c.eraseP fun e => decide (e.1 = k)).find? fun e => decide (e.1 = k')) =
      if k' = k then none else c.find? fun e => decide (e.1 = k') := by
  induction c with
  | nil => simp
  | cons e c ih =>
    rw [List.map_cons, List.nodup_cons] at hc
    by_cases he : e.1 = k
    · subst he
      rw [List.eraseP_cons_of_pos (by simp)]
      split_ifs with hk
      · subst hk
        rw [List.find?_eq_none]
        intro x hx
        simpa using fun h : x.1 = e.1 => hc.1 (h ▸ List.mem_map_of_mem hx)
      · rw [List.find?_cons_of_neg (by simpa using fun h : e.1 = k' => hk h.symm)]
    · rw [List.eraseP_cons_of_neg (by simpa using he)]
      by_cases he' : e.1 = k'
      · rw [List.find?_cons_of_pos (by simpa using he'),
          List.find?_cons_of_pos (by simpa using he'), if_neg (fun h => he (he'.trans h))]
      · rw [List.find?_cons_of_neg (by simpa using he'),
          List.find?_cons_of_neg (by simpa using he'), ih hc.2]

theorem find?_modify (c : List (K × V)) (f : V → V) :
    ((c.modify (c.findIdx fun e => decide (e.1 = k)) fun e => (e.1, f e.2)).find?
        fun e => decide (e.1 = k')).map Prod.snd =
      if k' = k then ((c.find? fun e => decide (e.1 = k)).map Prod.snd).map f
      else (c.find? fun e => decide (e.1 = k')).map Prod.snd := by
  induction c with
  | nil => simp
  | cons e c ih =>
    by_cases he : e.1 = k
    · subst he
      rw [List.findIdx_cons, decide_eq_true rfl, cond_true, List.modify_zero_cons]
      split_ifs with hk
      · subst hk
        rw [List.find?_cons_of_pos (by simp), List.find?_cons_of_pos (by simp)]
        rfl
      · rw [List.find?_cons_of_neg (by simpa using fun h : e.1 = k' => hk h.symm),
          List.find?_cons_of_neg (by simpa using fun h : e.1 = k' => hk h.symm)]
    · rw [List.findIdx_cons, decide_eq_false he, cond_false, List.modify_succ_cons]
      by_cases he' : e.1 = k'
      · rw [List.find?_cons_of_pos (by simpa using he'), if_neg fun h => he (he'.trans h),
          List.find?_cons_of_pos (by simpa using he')]
      · rw [List.find?_cons_of_neg (by simpa using he'), ih,
          List.find?_cons_of_neg (by simpa using he), List.find?_cons_of_neg (by simpa using he')]

/-! ### Operations seen through `lookup` -/

theorem delete_snd : (delete hash T k).2 =
    Function.update T (hash k) ((T (hash k)).eraseP fun e => decide (e.1 = k)) := rfl

theorem lookup_eq_none_iff : lookup hash T k = none ↔ ∀ e ∈ T (hash k), e.1 ≠ k := by
  simp [lookup]

theorem lookup_eq_some_iff (h : WF hash T) : lookup hash T k = some v ↔ (k, v) ∈ T (hash k) :=
  find?_eq_some_iff_mem (h.nodup _)

/-- **Adding** keeps an existing entry and otherwise stores the new value. -/
theorem lookup_add :
    lookup hash (add hash T k v) k' =
      if k' = k then some ((lookup hash T k).getD v) else lookup hash T k' := by
  unfold add
  by_cases hk : (T (hash k)).any (fun e => decide (e.1 = k)) = true
  · rw [if_pos hk]
    split_ifs with hkk
    · subst hkk
      cases hl : lookup hash T k' with
      | none =>
        rw [lookup_eq_none_iff] at hl
        obtain ⟨e, he, hek⟩ := List.any_eq_true.1 hk
        exact absurd (of_decide_eq_true hek) (hl e he)
      | some v' => rfl
    · rfl
  · have hnone : lookup hash T k = none := by
      rw [lookup_eq_none_iff]
      intro e he hek
      exact hk (List.any_eq_true.2 ⟨e, he, by simpa using hek⟩)
    rw [if_neg hk, hnone]
    by_cases hh : hash k' = hash k
    · rw [lookup, hh, Function.update_self]
      split_ifs with hkk
      · subst hkk
        rw [List.find?_cons_of_pos (by simp)]
        rfl
      · rw [List.find?_cons_of_neg (by simpa using fun h : k = k' => hkk h.symm), lookup, hh]
    · rw [lookup, Function.update_of_ne hh, if_neg (fun h => hh (by rw [h])), lookup]

/-- **Deleting** removes the key and nothing else. -/
theorem lookup_delete (h : WF hash T) :
    lookup hash (delete hash T k).2 k' = if k' = k then none else lookup hash T k' := by
  by_cases hh : hash k' = hash k
  · rw [lookup, delete_snd, hh, Function.update_self, find?_eraseP (h.nodup _)]
    split_ifs with hkk
    · rfl
    · rw [lookup, hh]
  · rw [lookup, delete_snd, Function.update_of_ne hh, if_neg (fun e => hh (by rw [e])), lookup]

/-- **Modifying** changes the value of the key and no other. -/
theorem lookup_modify (f : V → V) :
    lookup hash (modify hash T k f) k' =
      if k' = k then (lookup hash T k).map f else lookup hash T k' := by
  by_cases hh : hash k' = hash k
  · rw [lookup, modify, hh, Function.update_self, find?_modify, lookup, lookup, hh]
  · rw [lookup, modify, Function.update_of_ne hh, if_neg (fun h => hh (by rw [h])), lookup]

omit [DecidableEq K] in
theorem wf_empty : WF hash (fun _ => ([] : List (K × V))) :=
  ⟨by simp, by simp⟩

theorem WF.add (h : WF hash T) : WF hash (add hash T k v) := by
  unfold HashTable.add
  split_ifs with hk
  · exact h
  · refine ⟨fun i e he => ?_, fun i => ?_⟩
    · by_cases hi : i = hash k
      · subst hi
        rw [Function.update_self, List.mem_cons] at he
        rcases he with rfl | he
        · rfl
        · exact h.placed _ _ he
      · rw [Function.update_of_ne hi] at he
        exact h.placed _ _ he
    · by_cases hi : i = hash k
      · subst hi
        rw [Function.update_self, List.map_cons, List.nodup_cons]
        refine ⟨fun hm => hk ?_, h.nodup _⟩
        obtain ⟨e, he, hek⟩ := List.mem_map.1 hm
        exact List.any_eq_true.2 ⟨e, he, by simpa using hek⟩
      · rw [Function.update_of_ne hi]
        exact h.nodup _

theorem WF.delete (h : WF hash T) : WF hash (delete hash T k).2 := by
  refine ⟨fun i e he => ?_, fun i => ?_⟩
  · rw [delete_snd] at he
    by_cases hi : i = hash k
    · subst hi
      rw [Function.update_self] at he
      exact h.placed _ _ (List.mem_of_mem_eraseP he)
    · rw [Function.update_of_ne hi] at he
      exact h.placed _ _ he
  · rw [delete_snd]
    by_cases hi : i = hash k
    · subst hi
      rw [Function.update_self]
      exact (h.nodup _).sublist ((List.eraseP_sublist ..).map _)
    · rw [Function.update_of_ne hi]
      exact h.nodup _

/-! ### All entries -/

/-- The entries of the first `n` chains, chain by chain. -/
def entries (n : ℕ) (T : Table K V) : List (K × V) := (List.range n).flatMap T

theorem mem_entries_iff {n : ℕ} (h : WF hash T) (hn : ∀ k, hash k < n) :
    (k, v) ∈ entries n T ↔ lookup hash T k = some v := by
  rw [lookup_eq_some_iff h, entries, List.mem_flatMap]
  constructor
  · rintro ⟨i, -, hi⟩
    rwa [h.placed i _ hi]
  · exact fun hm => ⟨hash k, List.mem_range.2 (hn k), hm⟩

omit [DecidableEq K] in
theorem nodup_keys_entries (n : ℕ) (h : WF hash T) : ((entries n T).map Prod.fst).Nodup := by
  rw [entries, List.map_flatMap, List.nodup_flatMap]
  refine ⟨fun i _ => h.nodup i, ?_⟩
  refine (List.nodup_range (n := n)).imp fun {i j} hij => ?_
  intro k hi hj
  obtain ⟨e, he, rfl⟩ := List.mem_map.1 hi
  obtain ⟨e', he', hkey⟩ := List.mem_map.1 hj
  exact hij (by rw [← h.placed i e he, ← h.placed j e' he', hkey])

end HashTable
end Or1ksim
