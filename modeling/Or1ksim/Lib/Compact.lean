import Mathlib.Data.List.Nodup
import Mathlib.Data.List.Range
import Mathlib.Order.Basic

/-!
# Compaction

Positions of a sequence are dropped, and the others move together in their order.

* `kept`, `place` — the positions that are kept, and where a position comes to lie;
* `getElem?_kept_place` — what lies there afterwards;
* `place_lt_place`, `place_injective` — **the order is kept**, and no two positions meet;
* `place_eq_self_iff` — a position stays when none before it is dropped.
-/

namespace Or1ksim
namespace Compact

/-- The positions below `n` that are kept. -/
def kept (p : ℕ → Bool) (n : ℕ) : List ℕ := (List.range n).filter p

/-- The number of positions before `i` that are kept. -/
def place (p : ℕ → Bool) (i : ℕ) : ℕ := (kept p i).length

variable {p q : ℕ → Bool} {i j n : ℕ}

theorem kept_succ (p : ℕ → Bool) (n : ℕ) :
    kept p (n + 1) = kept p n ++ if p n then [n] else [] := by
  rw [kept, List.range_succ, List.filter_append, List.filter_singleton, kept]
  cases p n <;> rfl

theorem place_succ (p : ℕ → Bool) (n : ℕ) :
    place p (n + 1) = place p n + if p n then 1 else 0 := by
  rw [place, kept_succ, List.length_append, ← place]
  split <;> rfl

theorem mem_kept : i ∈ kept p n ↔ i < n ∧ p i = true := by
  rw [kept, List.mem_filter, List.mem_range]

theorem place_congr (h : ∀ k < i, p k = q k) : place p i = place q i := by
  rw [place, place, kept, kept]
  exact congrArg List.length (List.filter_congr fun k hk => h k (List.mem_range.1 hk))

/-- A position that is not kept, put in at `m`, moves no place. -/
theorem place_insert {m : ℕ} (hbefore : ∀ k < m, q k = p k) (hm : q m = false)
    (hafter : ∀ k, m ≤ k → k < n → q (k + 1) = p k) (hmi : m ≤ i) (hin : i ≤ n) :
    place q (i + 1) = place p i := by
  induction i, hmi using Nat.le_induction with
  | base => rw [place_succ, hm, place_congr hbefore]; rfl
  | succ i hle ih => rw [place_succ q (i + 1), place_succ p i, ih (by omega),
      hafter i hle (by omega)]

theorem place_mono (h : i ≤ j) : place p i ≤ place p j := by
  induction j, h using Nat.le_induction with
  | base => exact Nat.le_refl _
  | succ j _ ih =>
    rw [place_succ]
    exact Nat.le_add_right_of_le ih

/-- **The order is kept.** -/
theorem place_lt_place (hp : p i = true) (h : i < j) : place p i < place p j := by
  refine Nat.lt_of_lt_of_le ?_ (place_mono (Nat.succ_le_of_lt h))
  rw [place_succ, if_pos hp]
  exact Nat.lt_succ_self _

theorem place_injective (hi : p i = true) (hj : p j = true) (h : place p i = place p j) :
    i = j := by
  rcases Nat.lt_trichotomy i j with hlt | heq | hgt
  · exact absurd h (Nat.ne_of_lt (place_lt_place hi hlt))
  · exact heq
  · exact absurd h.symm (Nat.ne_of_lt (place_lt_place hj hgt))

theorem getElem?_kept_place (hp : p i = true) (h : i < n) : (kept p n)[place p i]? = some i := by
  induction n with
  | zero => exact absurd h (Nat.not_lt_zero i)
  | succ n ih =>
    rw [kept_succ]
    rcases Nat.lt_succ_iff_lt_or_eq.1 h with hlt | rfl
    · rw [List.getElem?_append_left (place_lt_place hp hlt)]
      exact ih hlt
    · rw [if_pos hp, place, List.getElem?_append_right (Nat.le_refl _), Nat.sub_self]
      rfl

theorem exists_place (h : j < place p n) : ∃ i < n, p i = true ∧ place p i = j := by
  have hj : j < (kept p n).length := h
  have hmem : (kept p n)[j] ∈ kept p n := List.getElem_mem hj
  obtain ⟨hlt, hp⟩ := mem_kept.1 hmem
  refine ⟨(kept p n)[j], hlt, hp, ?_⟩
  have hplace := getElem?_kept_place hp hlt
  have hnodup : (kept p n).Nodup := List.nodup_range.filter _
  have hlen : place p (kept p n)[j] < (kept p n).length := place_lt_place hp hlt
  rw [List.getElem?_eq_getElem hlen, Option.some.injEq] at hplace
  exact (List.Nodup.getElem_inj_iff hnodup).1 hplace

theorem place_le (p : ℕ → Bool) (i : ℕ) : place p i ≤ i :=
  (List.length_filter_le _ _).trans_eq List.length_range

theorem place_eq_self_iff : place p i = i ↔ ∀ k < i, p k = true := by
  induction i with
  | zero => exact iff_of_true rfl fun k hk => absurd hk (Nat.not_lt_zero k)
  | succ i ih =>
    have hle := place_le p i
    rw [place_succ, Nat.forall_lt_succ_right, ← ih]
    constructor
    · intro h
      split at h
      · next hp => exact ⟨by omega, hp⟩
      · omega
    · rintro ⟨hplace, hp⟩
      rw [if_pos hp, hplace]

end Compact
end Or1ksim
