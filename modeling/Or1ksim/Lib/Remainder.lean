import Mathlib
import Or1ksim.Lib.Crc

/-!
# Checks as remainders

Words and bit strings stand for polynomials over GF(2), and the bit-serial check divides by one:
its word is the part of the divisor below the leading term.

* `Crc.toPoly`, `Crc.bitsPoly` — the polynomials of a word and of a bit string;
* `Crc.divisor` — what a check divides by;
* `Crc.toPoly_step` — one bit multiplies by `X`, and subtracts the divisor if it goes in;
* `Crc.toPoly_run` — **a check is a remainder**.
-/

namespace Or1ksim
namespace Crc

open Polynomial

/-! ### Polynomials -/

/-- A bit as a coefficient. -/
def coef (b : Bool) : ZMod 2 := if b then 1 else 0

@[simp] theorem coef_false : coef false = 0 := rfl

theorem coef_xor (a b : Bool) : coef (a ^^ b) = coef a + coef b := by
  cases a <;> cases b <;> decide

/-- The polynomial of a word: its lowest bit is the constant term. -/
noncomputable def toPoly {w : ℕ} (v : BitVec w) : (ZMod 2)[X] :=
  ∑ i ∈ Finset.range w, C (coef (v.getLsbD i)) * X ^ i

/-- The polynomial of a bit string: its first bit is the leading coefficient. -/
noncomputable def bitsPoly : List Bool → (ZMod 2)[X]
  | [] => 0
  | b :: bs => C (coef b) * X ^ bs.length + bitsPoly bs

variable {w : ℕ}

@[simp] theorem coeff_toPoly (v : BitVec w) (k : ℕ) :
    (toPoly v).coeff k = coef (v.getLsbD k) := by
  simp only [toPoly, finsetSum_coeff, coeff_C_mul_X_pow, Finset.sum_ite_eq, Finset.mem_range]
  split
  · rfl
  · rw [BitVec.getLsbD_of_ge v k (by omega), coef_false]

theorem degree_toPoly_lt (v : BitVec w) : (toPoly v).degree < w := by
  rw [degree_lt_iff_coeff_zero]
  intro k hk
  rw [coeff_toPoly, BitVec.getLsbD_of_ge v k hk, coef_false]

theorem bitsPoly_range (v : BitVec w) (n : ℕ) :
    bitsPoly ((List.range n).map fun k => v.getLsbD (n - 1 - k)) =
      ∑ i ∈ Finset.range n, C (coef (v.getLsbD i)) * X ^ i := by
  induction n with
  | zero => rfl
  | succ n ih =>
    have htail : (List.range n).map ((fun k => v.getLsbD (n + 1 - 1 - k)) ∘ Nat.succ) =
        (List.range n).map fun k => v.getLsbD (n - 1 - k) :=
      List.map_congr_left fun k _ => congrArg v.getLsbD (by omega)
    rw [List.range_succ_eq_map, List.map_cons, List.map_map, htail, bitsPoly, ih, List.length_map,
      List.length_range, Finset.sum_range_succ, add_comm]
    rfl

theorem toPoly_eq_bitsPoly {v : BitVec w} {n : ℕ} (h : v.toNat < 2 ^ n) :
    toPoly v = bitsPoly ((List.range n).map fun k => v.getLsbD (n - 1 - k)) := by
  rw [bitsPoly_range]
  ext k
  simp only [coeff_toPoly, finsetSum_coeff, coeff_C_mul_X_pow, Finset.sum_ite_eq,
    Finset.mem_range]
  split
  · rfl
  · have hk : v.toNat < 2 ^ k := h.trans_le (Nat.pow_le_pow_right (by decide) (by omega))
    rw [← BitVec.testBit_toNat, Nat.testBit_lt_two_pow hk, coef_false]

/-! ### Words -/

theorem toPoly_xor (u v : BitVec w) : toPoly (u ^^^ v) = toPoly u + toPoly v := by
  ext k
  rw [coeff_add, coeff_toPoly, coeff_toPoly, coeff_toPoly, BitVec.getLsbD_xor, coef_xor]

theorem toPoly_ite (b : Bool) (v : BitVec w) :
    toPoly (if b then v else 0#w) = C (coef b) * toPoly v := by
  ext k
  cases b <;> simp [coef]

/-- A shift multiplies by `X`, apart from the bit that is shifted out. -/
theorem toPoly_shiftLeft_one (v : BitVec w) :
    toPoly (v <<< 1) + C (coef v.msb) * X ^ w = X * toPoly v := by
  ext k
  rw [coeff_add, coeff_toPoly, coeff_C_mul_X_pow, BitVec.getLsbD_shiftLeft]
  cases k with
  | zero =>
    rw [coeff_X_mul_zero]
    split
    case isTrue hw =>
      subst hw
      rw [BitVec.eq_nil v]
      rfl
    case isFalse => simp
  | succ k =>
    rw [coeff_X_mul, coeff_toPoly, Nat.add_sub_cancel]
    rcases Nat.lt_trichotomy (k + 1) w with hlt | rfl | hlt
    · rw [if_neg hlt.ne]
      simp [hlt]
    · rw [if_pos rfl, BitVec.msb_eq_getLsbD_last]
      simp
    · rw [if_neg hlt.ne', BitVec.getLsbD_of_ge v k (by omega)]
      simp

/-! ### Division -/

/-- What the check with a word divides by. -/
noncomputable def divisor (poly : BitVec w) : (ZMod 2)[X] := X ^ w + toPoly poly

variable (poly : BitVec w)

theorem divisor_monic : (divisor poly).Monic := monic_X_pow_add (degree_toPoly_lt poly)

theorem degree_divisor : (divisor poly).degree = w := by
  rw [divisor, degree_add_eq_left_of_degree_lt] <;> rw [degree_X_pow]
  exact degree_toPoly_lt poly

theorem toPoly_step (c : BitVec w) (b : Bool) :
    toPoly (step poly c b) =
      X * toPoly c + C (coef b) * X ^ w + C (coef (b ^^ c.msb)) * divisor poly := by
  have htwo : (2 : (ZMod 2)[X]) = 0 := CharTwo.two_eq_zero
  have hshift := toPoly_shiftLeft_one c
  rw [step, toPoly_xor, toPoly_ite, divisor, coef_xor, C_add]
  linear_combination hshift - (C (coef b) + C (coef c.msb)) * X ^ w * htwo

theorem exists_toPoly_run (bs : List Bool) (c : BitVec w) :
    ∃ q, toPoly (run poly c bs) =
      toPoly c * X ^ bs.length + bitsPoly bs * X ^ w + divisor poly * q := by
  induction bs generalizing c with
  | nil =>
    refine ⟨0, ?_⟩
    rw [run, List.foldl_nil, List.length_nil, bitsPoly]
    ring
  | cons b bs ih =>
    obtain ⟨q, hq⟩ := ih (step poly c b)
    refine ⟨C (coef (b ^^ c.msb)) * X ^ bs.length + q, ?_⟩
    rw [toPoly_step] at hq
    rw [run, List.foldl_cons, ← run, hq, List.length_cons, bitsPoly]
    ring

/-- **A check is a remainder**: of the string at `X ^ w` and the check so far in front of it. -/
theorem toPoly_run (bs : List Bool) (c : BitVec w) :
    toPoly (run poly c bs) =
      (toPoly c * X ^ bs.length + bitsPoly bs * X ^ w) %ₘ divisor poly := by
  obtain ⟨q, hq⟩ := exists_toPoly_run poly bs c
  have hdegree : (toPoly (run poly c bs)).degree < (divisor poly).degree := by
    rw [degree_divisor]
    exact degree_toPoly_lt _
  refine ((div_modByMonic_unique (-q) _ (divisor_monic poly) ⟨?_, hdegree⟩).2).symm
  rw [hq]
  ring

end Crc
end Or1ksim
