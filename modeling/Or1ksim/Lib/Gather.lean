import Or1ksim.Lib.Bits

/-!
# Gathering bits of a word

An operand whose bits lie scattered in a word can be read in two ways:

* `gather w ps` — bit by bit, from a list of bit positions, the most significant one first;
* `orFields w fs` — field by field, from a list of fields `(shr, len)`, the least significant one
  first, each shifted down, masked and put on top of the fields before it.

`orFields_eq_gather` says that the two agree when the fields, written out, are the positions in
reverse.
-/

namespace Or1ksim
namespace Gather

open Bits

variable {w : ℕ}

/-- The bits of `x` at the positions `ps`, the most significant first. -/
def gather (x : BitVec w) : List ℕ → BitVec w
  | [] => 0
  | p :: ps => (((x >>> p) &&& 1) <<< ps.length) + gather x ps

/-- The positions of a list of fields, the least significant first. -/
def positions (fs : List (ℕ × ℕ)) : List ℕ := fs.flatMap fun f => List.range' f.1 f.2

/-- Read the fields of `x` on top of `acc`, which has `nbits` bits. -/
def orFields (x : BitVec w) : List (ℕ × ℕ) → BitVec w → ℕ → BitVec w
  | [], acc, _ => acc
  | f :: fs, acc, nbits =>
    orFields x fs (acc ||| (((x >>> f.1) &&& lowMask w f.2) <<< nbits)) (nbits + f.2)

@[simp] theorem positions_nil : positions [] = [] := rfl

@[simp] theorem positions_cons (f : ℕ × ℕ) (fs : List (ℕ × ℕ)) :
    positions (f :: fs) = List.range' f.1 f.2 ++ positions fs := rfl

theorem getLsbD_shiftLeft_and_one (x : BitVec w) (p n i : ℕ) :
    (((x >>> p) &&& 1) <<< n).getLsbD i = (decide (i < w) && decide (i = n) && x.getLsbD p) := by
  rcases Nat.lt_trichotomy i n with h | rfl | h
  · simp [h, Nat.ne_of_lt h]
  · by_cases hi : i < w
    · simp [hi]
    · simp [hi]
  · have h0 : i - n ≠ 0 := by omega
    simp [h0, Nat.ne_of_gt h]

theorem and_one_eq_zero_iff (x : BitVec w) : x &&& 1 = 0 ↔ x.getLsbD 0 = false := by
  constructor
  · intro h
    have h0 := congrArg (fun y => y.getLsbD 0) h
    by_cases hw : 0 < w
    · simpa [hw] using h0
    · exact BitVec.getLsbD_of_ge x 0 (by omega)
  · intro h
    apply BitVec.eq_of_getLsbD_eq
    intro i hi
    by_cases h0 : i = 0
    · subst h0
      simp [h]
    · simp [h0]

/-- Bit `i` of a gathered value is the bit at the `i`-th position from the end. -/
theorem getLsbD_gather (x : BitVec w) : ∀ (ps : List ℕ), ps.length ≤ w → ∀ i,
    (gather x ps).getLsbD i = (ps.reverse[i]?).any x.getLsbD := by
  intro ps
  induction ps with
  | nil => simp [gather]
  | cons p ps ih =>
    intro hlen i
    simp only [List.length_cons] at hlen
    have ih := ih (by omega)
    -- The new bit lies above everything gathered so far, so that the sum is a disjunction.
    have hdisj : (((x >>> p) &&& 1) <<< ps.length) &&& gather x ps = 0#w := by
      apply BitVec.eq_of_getLsbD_eq
      intro j hj
      rw [BitVec.getLsbD_and, getLsbD_shiftLeft_and_one, ih j]
      by_cases h : j = ps.length
      · subst h
        simp
      · simp [h]
    rw [gather, BitVec.add_eq_or_of_and_eq_zero _ _ hdisj, BitVec.getLsbD_or,
      getLsbD_shiftLeft_and_one, ih i, List.reverse_cons]
    rcases Nat.lt_trichotomy i ps.length with h | rfl | h
    · rw [List.getElem?_append_left (by simpa using h)]
      simp [Nat.ne_of_lt h]
    · simp
      omega
    · have h1 : (ps.reverse ++ [p])[i]? = none := by simp; omega
      have h2 : ps.reverse[i]? = none := by simp; omega
      simp [h1, h2, Nat.ne_of_gt h]

theorem getLsbD_orFields (x : BitVec w) : ∀ (fs : List (ℕ × ℕ)) (acc : BitVec w) (nbits i : ℕ),
    (orFields x fs acc nbits).getLsbD i =
      (acc.getLsbD i ||
        (decide (i < w) && decide (nbits ≤ i) && ((positions fs)[i - nbits]?).any x.getLsbD)) := by
  intro fs
  induction fs with
  | nil => simp [orFields]
  | cons f fs ih =>
    intro acc nbits i
    obtain ⟨s, n⟩ := f
    simp only [orFields, positions_cons]
    rw [ih]
    by_cases hi : i < w
    swap
    · simp [hi]
    by_cases hn : nbits ≤ i
    swap
    · have hn' : ¬nbits + n ≤ i := by omega
      simp [hn, hn', hi, Nat.lt_of_not_le hn]
    by_cases hin : i - nbits < n
    · have hge : ¬nbits + n ≤ i := by omega
      rw [List.getElem?_append_left (by simpa using hin)]
      simp [hi, hn, hge, hin, Nat.not_lt_of_le hn]
    · have hge : nbits + n ≤ i := by omega
      rw [List.getElem?_append_right (by simpa using Nat.le_of_not_lt hin)]
      simp [hi, hn, hge, hin, Nat.sub_sub]

/-- **Field by field and bit by bit.**  Reading the fields of a word gathers the bits at their
positions. -/
theorem orFields_eq_gather (x : BitVec w) {fs : List (ℕ × ℕ)} {ps : List ℕ}
    (h : positions fs = ps.reverse) (hlen : ps.length ≤ w) :
    orFields x fs 0 0 = gather x ps := by
  apply BitVec.eq_of_getLsbD_eq
  intro i hi
  rw [getLsbD_orFields, getLsbD_gather x ps hlen, h]
  simp [hi]

end Gather
end Or1ksim
