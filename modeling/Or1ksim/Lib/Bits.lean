import Mathlib.Data.Nat.Bitwise
import Mathlib.Tactic.Ring

/-!
# Bit-vector address arithmetic

General facts about masking a bit vector by a power of two, used wherever an address is split
into an aligned base and an offset inside the unit:

* `lowMask w k` — the `w`-bit vector with the low `k` bits set (`2 ^ k - 1`);
* `toNat_and_lowMask` / `toNat_and_not_lowMask` — masking is `%` and rounding down;
* `toNat_and_not_lowMask_add` — an offset below the unit adds on without a carry;
* `insertField` — overwriting a bit field;
* `setWidth_extractLsb'` — reading one.
-/

namespace Or1ksim
namespace Bits

variable {w : ℕ}

/-- The `w`-bit vector whose low `k` bits are set. -/
def lowMask (w k : ℕ) : BitVec w := BitVec.ofNat w (2 ^ k - 1)

@[simp] theorem getLsbD_lowMask (k i : ℕ) :
    (lowMask w k).getLsbD i = (decide (i < w) && decide (i < k)) := by
  simp [lowMask, BitVec.getLsbD_ofNat, Nat.testBit_two_pow_sub_one]

@[simp] theorem getElem_lowMask (k i : ℕ) (hi : i < w) :
    (lowMask w k)[i] = decide (i < k) := by
  rw [← BitVec.getLsbD_eq_getElem, getLsbD_lowMask]
  simp [hi]

theorem toNat_lowMask {k : ℕ} (hk : k ≤ w) : (lowMask w k).toNat = 2 ^ k - 1 := by
  have h : 2 ^ k ≤ 2 ^ w := Nat.pow_le_pow_right (by decide) hk
  have h' : 0 < 2 ^ k := Nat.two_pow_pos k
  rw [lowMask, BitVec.toNat_ofNat, Nat.mod_eq_of_lt (by omega)]

theorem toNat_and_lowMask (a : BitVec w) {k : ℕ} (hk : k ≤ w) :
    (a &&& lowMask w k).toNat = a.toNat % 2 ^ k := by
  rw [BitVec.toNat_and, toNat_lowMask hk, Nat.and_two_pow_sub_one_eq_mod]

theorem and_not_lowMask (a : BitVec w) (k : ℕ) :
    a &&& ~~~lowMask w k = (a >>> k) <<< k := by
  apply BitVec.eq_of_getLsbD_eq
  intro i hi
  by_cases h : i < k
  · simp [h, hi]
  · have hik : k + (i - k) = i := by omega
    simp [h, hi, hik]

theorem toNat_and_not_lowMask (a : BitVec w) (k : ℕ) :
    (a &&& ~~~lowMask w k).toNat = a.toNat / 2 ^ k * 2 ^ k := by
  have hle : a.toNat / 2 ^ k * 2 ^ k ≤ a.toNat := Nat.div_mul_le_self _ _
  have hlt : a.toNat < 2 ^ w := a.isLt
  rw [and_not_lowMask, BitVec.toNat_shiftLeft, BitVec.toNat_ushiftRight, Nat.shiftLeft_eq,
    Nat.shiftRight_eq_div_pow, Nat.mod_eq_of_lt (by omega)]

/-- A `w`-bit vector is its low `k` bits on top of its aligned base. -/
theorem and_not_lowMask_or (a : BitVec w) (k : ℕ) :
    (a &&& ~~~lowMask w k) ||| (a &&& lowMask w k) = a := by
  apply BitVec.eq_of_getLsbD_eq
  intro i hi
  by_cases h : i < k <;> simp [h, hi]

theorem toNat_or_of_disjoint {a b : BitVec w} {k : ℕ} (ha : a.toNat % 2 ^ k = 0)
    (hb : b.toNat < 2 ^ k) : (a ||| b).toNat = a.toNat + b.toNat := by
  obtain ⟨c, hc⟩ := Nat.dvd_of_mod_eq_zero ha
  rw [BitVec.toNat_or, hc, Nat.mul_comm, ← Nat.shiftLeft_eq, Nat.shiftLeft_add_eq_or_of_lt hb]

/-- Replace the `n`-bit field of `x` that starts at bit `k` by `v`. -/
def insertField {n : ℕ} (x : BitVec w) (k : ℕ) (v : BitVec n) : BitVec w :=
  (x &&& ~~~(lowMask w n <<< k)) ||| (v.setWidth w <<< k)

theorem getLsbD_insertField {n : ℕ} (x : BitVec w) (k : ℕ) (v : BitVec n) {i : ℕ} (hi : i < w) :
    (insertField x k v).getLsbD i =
      if k ≤ i ∧ i < k + n then v.getLsbD (i - k) else x.getLsbD i := by
  simp only [insertField, BitVec.getLsbD_or, BitVec.getLsbD_and, BitVec.getLsbD_not,
    BitVec.getLsbD_shiftLeft, getLsbD_lowMask, BitVec.getLsbD_setWidth, hi, decide_true,
    Bool.true_and]
  by_cases hk : i < k
  · simp [hk]
  · have hw : i - k < w := by omega
    by_cases hn : i - k < n
    · simp [hk, hw, hn, show k ≤ i ∧ i < k + n by omega]
    · have hv : v.getLsbD (i - k) = false := BitVec.getLsbD_of_ge _ _ (by omega)
      simp [hk, hw, hn, hv, show ¬(k ≤ i ∧ i < k + n) by omega]

theorem setWidth_extractLsb' (x : BitVec w) (k n : ℕ) :
    (x.extractLsb' k n).setWidth w = (x >>> k) &&& lowMask w n := by
  apply BitVec.eq_of_getLsbD_eq
  intro i hi
  simp only [BitVec.getLsbD_setWidth, BitVec.getLsbD_extractLsb', BitVec.getLsbD_and,
    BitVec.getLsbD_ushiftRight, getLsbD_lowMask, hi, decide_true, Bool.true_and]
  rw [Bool.and_comm]

theorem setWidth_setWidth_eq_and (x : BitVec w) (n : ℕ) :
    (x.setWidth n).setWidth w = x &&& lowMask w n := by
  apply BitVec.eq_of_getLsbD_eq
  intro i hi
  simp only [BitVec.getLsbD_setWidth, BitVec.getLsbD_and, getLsbD_lowMask, hi, decide_true,
    Bool.true_and]
  rw [Bool.and_comm]

/-! ### Single bits -/

/-- `x | (1 << k)`. -/
def setBit (x : BitVec w) (k : ℕ) : BitVec w := x ||| BitVec.twoPow w k

/-- `x & ~(1 << k)`. -/
def clearBit (x : BitVec w) (k : ℕ) : BitVec w := x &&& ~~~BitVec.twoPow w k

/-- Set or clear bit `k`. -/
def assignBit (x : BitVec w) (k : ℕ) (b : Bool) : BitVec w :=
  if b then setBit x k else clearBit x k

@[simp] theorem getLsbD_setBit (x : BitVec w) (k i : ℕ) :
    (setBit x k).getLsbD i = (x.getLsbD i || (decide (i < w) && decide (i = k))) := by
  rw [setBit, BitVec.getLsbD_or, BitVec.getLsbD_twoPow]
  by_cases hi : i < w
  · by_cases hk : i = k
    · subst hk
      simp [hi]
    · simp [hi, hk, Ne.symm hk]
  · by_cases hk : i = k
    · subst hk
      simp [hi]
    · simp [hi, Ne.symm hk]

@[simp] theorem getLsbD_clearBit (x : BitVec w) (k i : ℕ) :
    (clearBit x k).getLsbD i = (x.getLsbD i && !decide (i = k)) := by
  rw [clearBit, BitVec.getLsbD_and, BitVec.getLsbD_not, BitVec.getLsbD_twoPow]
  by_cases hi : i < w
  · by_cases hk : i = k
    · subst hk
      simp [hi]
    · simp [hi, hk, Ne.symm hk]
  · rw [BitVec.getLsbD_of_ge x i (Nat.le_of_not_lt hi)]
    rfl

@[simp] theorem getLsbD_assignBit (x : BitVec w) (k : ℕ) (b : Bool) (i : ℕ) :
    (assignBit x k b).getLsbD i = if i < w ∧ i = k then b else x.getLsbD i := by
  cases b with
  | false =>
    rw [assignBit, if_neg Bool.false_ne_true, getLsbD_clearBit]
    by_cases hi : i < w
    · simp only [hi, true_and]
      split_ifs with hk <;> simp [hk]
    · rw [BitVec.getLsbD_of_ge x i (Nat.le_of_not_lt hi), if_neg fun h => hi h.1]
      rfl
  | true =>
    rw [assignBit, if_pos rfl, getLsbD_setBit]
    by_cases hi : i < w
    · simp only [hi, true_and, decide_true, Bool.true_and]
      split_ifs with hk <;> simp [hk]
    · simp [hi]

theorem and_or_ne_zero_left {x y : BitVec w} (h : x &&& y ≠ 0) (z : BitVec w) :
    x &&& (y ||| z) ≠ 0 := by
  intro hzero
  rw [BitVec.and_or_distrib_left] at hzero
  exact h (BitVec.or_eq_zero_iff.1 hzero).1

theorem and_or_ne_zero_right {x z : BitVec w} (y : BitVec w) (h : x &&& z ≠ 0) :
    x &&& (y ||| z) ≠ 0 := by
  rw [BitVec.or_comm]
  exact and_or_ne_zero_left h y

theorem getLsbD_foldl_or {α : Type} {w : ℕ} (g : α → BitVec w) (l : List α) (v : BitVec w)
    (i : ℕ) :
    (l.foldl (fun v a => v ||| g a) v).getLsbD i =
      (v.getLsbD i || l.any fun a => (g a).getLsbD i) := by
  induction l generalizing v with
  | nil => exact (Bool.or_false _).symm
  | cons a l ih => rw [List.foldl_cons, ih, BitVec.getLsbD_or, List.any_cons, Bool.or_assoc]

theorem foldl_or_eq_zero_iff {α : Type} {w : ℕ} (g : α → BitVec w) (l : List α) (v : BitVec w) :
    l.foldl (fun v a => v ||| g a) v = 0#w ↔ v = 0#w ∧ ∀ a ∈ l, g a = 0#w := by
  induction l generalizing v with
  | nil => simp
  | cons a l ih => rw [List.foldl_cons, ih, BitVec.or_eq_zero_iff, List.forall_mem_cons, and_assoc]

end Bits
end Or1ksim
