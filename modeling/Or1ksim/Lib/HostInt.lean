import Mathlib.Algebra.Group.Int.Defs
import Mathlib.Data.Nat.Notation
import Mathlib.Logic.Basic

/-!
# Integer operations of the host

The arithmetic of C on words: an operation without a defined result gives nothing.

* `addS`, `subS`, `divS`, `divU`, `shl`, `shr`, `sar` — the operations;
* `toInt_add_of_signed` — a signed addition is exact where it is defined;
* `divS_eq_some_iff` — a signed division is defined unless it divides by zero or overflows;
* `ofInt_tdiv`, `ofNat_div` — the divisions of bit vectors.
-/

namespace Or1ksim
namespace HostInt

variable {w : ℕ}

/-- The integer is a signed word. -/
def Signed (w : ℕ) (z : ℤ) : Prop := -2 ^ (w - 1) ≤ z ∧ z < 2 ^ (w - 1)

instance (w : ℕ) (z : ℤ) : Decidable (Signed w z) := inferInstanceAs (Decidable (_ ∧ _))

/-- Signed addition: the sum must be a signed word. -/
def addS (x y : BitVec w) : Option (BitVec w) :=
  if Signed w (x.toInt + y.toInt) then some (x + y) else none

/-- Signed subtraction: the difference must be a signed word. -/
def subS (x y : BitVec w) : Option (BitVec w) :=
  if Signed w (x.toInt - y.toInt) then some (x - y) else none

/-- Signed division: the quotient must be a signed word. -/
def divS (x y : BitVec w) : Option (BitVec w) :=
  let q := x.toInt.tdiv y.toInt
  if y ≠ 0 ∧ -2 ^ (w - 1) ≤ q ∧ q < 2 ^ (w - 1) then some (BitVec.ofInt w q) else none

/-- Unsigned division. -/
def divU (x y : BitVec w) : Option (BitVec w) :=
  if y ≠ 0 then some (BitVec.ofNat w (x.toNat / y.toNat)) else none

/-- A shift is defined if its count is less than the width. -/
def shift (op : BitVec w → ℕ → BitVec w) (x : BitVec w) (n : ℕ) : Option (BitVec w) :=
  if n < w then some (op x n) else none

/-- `<<` -/
def shl : BitVec w → ℕ → Option (BitVec w) := shift fun x n => x <<< n

/-- `>>` of an unsigned word. -/
def shr : BitVec w → ℕ → Option (BitVec w) := shift fun x n => x >>> n

/-- `>>` of a signed word. -/
def sar : BitVec w → ℕ → Option (BitVec w) := shift BitVec.sshiftRight

/-- The sum of words is the integer sum where that is a signed word. -/
theorem toInt_add_of_signed (hw : 0 < w) {x y : BitVec w} (h : Signed w (x.toInt + y.toInt)) :
    (x + y).toInt = x.toInt + y.toInt := by
  obtain ⟨hle, hlt⟩ := h
  have hpow : (2 : ℤ) ^ w = 2 * 2 ^ (w - 1) := by
    rw [← Int.pow_succ', Nat.sub_add_cancel hw]
  rw [BitVec.toInt_add]
  exact Int.bmod_eq_of_le (by push_cast; omega) (by push_cast; omega)

/-- The quotient of two signed words is a signed word with one exception. -/
theorem quotient_fits_iff (hw : 0 < w) (x y : BitVec w) :
    (-2 ^ (w - 1) ≤ x.toInt.tdiv y.toInt ∧ x.toInt.tdiv y.toInt < 2 ^ (w - 1)) ↔
      ¬(x = BitVec.intMin w ∧ y = BitVec.allOnes w) := by
  constructor
  · rintro ⟨-, hlt⟩ ⟨rfl, rfl⟩
    rw [BitVec.toInt_intMin_of_pos hw, BitVec.toInt_allOnes, if_pos hw, Int.tdiv_neg,
      Int.tdiv_one, Int.neg_neg] at hlt
    exact Int.lt_irrefl _ hlt
  · intro h
    rw [← BitVec.toInt_sdiv_of_ne_or_ne x y (by
      rw [BitVec.neg_one_eq_allOnes]
      exact not_and_or.1 h)]
    exact ⟨BitVec.le_toInt _, BitVec.toInt_lt⟩

/-- A signed division is defined unless it divides by zero or overflows. -/
theorem divS_eq_some_iff (hw : 0 < w) (x y q : BitVec w) :
    divS x y = some q ↔ y ≠ 0 ∧ ¬(x = BitVec.intMin w ∧ y = BitVec.allOnes w) ∧
      BitVec.ofInt w (x.toInt.tdiv y.toInt) = q := by
  rw [divS, Option.ite_none_right_eq_some, quotient_fits_iff hw, Option.some.injEq, and_assoc]

/-- The division of bit vectors is total, and agrees with the host where that is defined. -/
theorem ofInt_tdiv (x y : BitVec w) : BitVec.ofInt w (x.toInt.tdiv y.toInt) = x.sdiv y := by
  rw [← BitVec.toInt_inj, BitVec.toInt_sdiv, BitVec.toInt_ofInt]

theorem ofNat_div (x y : BitVec w) : BitVec.ofNat w (x.toNat / y.toNat) = x / y := by
  rw [← BitVec.toNat_inj, BitVec.toNat_udiv, BitVec.toNat_ofNat]
  exact Nat.mod_eq_of_lt (Nat.lt_of_le_of_lt (Nat.div_le_self _ _) x.isLt)

end HostInt
end Or1ksim
