import Mathlib.Tactic.IntervalCases
import Or1ksim.Lib.Crc
import Or1ksim.Memory.Area

/-!
# JTAG registers

A JTAG register is an array of bytes that is shifted out of the array from the low bit of the first
byte on (`debug/jtag.c`).  Its fields are shifted most significant bit first, so that they are
reversed in the array and straddle its bytes.

* `bit`, `bits` — the register as a bit string;
* `reverseBits`, `reverseByte`, `crc32` — the utility functions;
* `crc32_eq_run` — the check of a value is the check of its bits;
* `msbFirst_reverseBits` — a reversed field read as a number.
-/

namespace Or1ksim
namespace Jtag

/-- `unsigned char *jreg`. -/
abbrev Jreg := ℕ → Byte

/-- A bit of the register, in the order of the shift. -/
def bit (jreg : Jreg) (i : ℕ) : Bool := (jreg (i / 8)).getLsbD (i % 8)

/-- `n` bits of the register from bit `off` on. -/
def bits (jreg : Jreg) (off n : ℕ) : List Bool := (List.range n).map fun i => bit jreg (off + i)

/-! ### Utility functions -/

/-- `CRC32_POLY`. -/
def crc32Poly : Word := 0x04c11db7#32

/-- `crc32`: the bits of the value are incorporated most significant bit first. -/
def crc32 (value : BitVec 64) (numBits : ℕ) (crcIn : Word) : Word :=
  (List.range numBits).foldl
    (fun crcIn k =>
      let i := numBits - 1 - k
      let d : Word := if (value >>> i) &&& 1#64 = 1#64 then 0xfffffff#32 else 0#32
      let t : Word := if (crcIn >>> 31) &&& 1#32 = 1#32 then 0xfffffff#32 else 0#32
      (crcIn <<< 1) ^^^ ((d ^^^ t) &&& crc32Poly))
    crcIn

/-- One round of `reverse_bits`: exchange the bits `j` apart. -/
def swapBits (hi lo : BitVec 64) (j : ℕ) (val : BitVec 64) : BitVec 64 :=
  ((val &&& hi) >>> j) ||| ((val &&& lo) <<< j)

/-- `reverse_bits`. -/
def reverseBits (val : BitVec 64) (numBits : ℕ) : BitVec 64 :=
  let val := swapBits 0xaaaaaaaaaaaaaaaa#64 0x5555555555555555#64 1 val
  let val := swapBits 0xcccccccccccccccc#64 0x3333333333333333#64 2 val
  let val := swapBits 0xf0f0f0f0f0f0f0f0#64 0x0f0f0f0f0f0f0f0f#64 4 val
  let val := swapBits 0xff00ff00ff00ff00#64 0x00ff00ff00ff00ff#64 8 val
  let val := swapBits 0xffff0000ffff0000#64 0x0000ffff0000ffff#64 16 val
  let val := (val >>> 32) ||| (val <<< 32)
  val >>> (64 - numBits)

/-- `reverse_byte`. -/
def reverseByte (byte : Byte) : Byte :=
  let byte := ((byte &&& 0xaa#8) >>> 1) ||| ((byte &&& 0x55#8) <<< 1)
  let byte := ((byte &&& 0xcc#8) >>> 2) ||| ((byte &&& 0x33#8) <<< 2)
  (byte >>> 4) ||| (byte <<< 4)

/-! ### Fields

Each handler collects the bytes that a field is spread over.  The source does so in integers that
just hold the field, and no bit is shifted out of them. -/

/-- Four bits from bit 5 of the first byte on. -/
def nibble5 (jreg : Jreg) : BitVec 64 :=
  ((jreg 0 &&& 0xe0#8).setWidth 64 >>> 5) ||| ((jreg 1 &&& 0x01#8).setWidth 64 <<< 3)

/-- Eight bits from bit 5 of byte `o` on. -/
def byte5 (jreg : Jreg) (o : ℕ) : BitVec 64 :=
  ((jreg o &&& 0xe0#8).setWidth 64 >>> 5) ||| ((jreg (o + 1) &&& 0x1f#8).setWidth 64 <<< 3)

/-- 32 bits from bit 5 of byte `o` on. -/
def word5 (jreg : Jreg) (o : ℕ) : BitVec 64 :=
  ((jreg o &&& 0xe0#8).setWidth 64 >>> 5) ||| ((jreg (o + 1)).setWidth 64 <<< 3) |||
    ((jreg (o + 2)).setWidth 64 <<< 11) ||| ((jreg (o + 3)).setWidth 64 <<< 19) |||
    ((jreg (o + 4) &&& 0x1f#8).setWidth 64 <<< 27)

/-- 52 bits from bit 5 of the first byte on. -/
def control5 (jreg : Jreg) : BitVec 64 :=
  ((jreg 0 &&& 0xe0#8).setWidth 64 >>> 5) ||| ((jreg 1).setWidth 64 <<< 3) |||
    ((jreg 2).setWidth 64 <<< 11) ||| ((jreg 3).setWidth 64 <<< 19) |||
    ((jreg 4).setWidth 64 <<< 27) ||| ((jreg 5).setWidth 64 <<< 35) |||
    ((jreg 6).setWidth 64 <<< 43) ||| ((jreg 7 &&& 0x01#8).setWidth 64 <<< 51)

/-- 16 bits from bit 1 of byte `o` on. -/
def half1 (jreg : Jreg) (o : ℕ) : BitVec 64 :=
  ((jreg o &&& 0xfe#8).setWidth 64 >>> 1) ||| ((jreg (o + 1)).setWidth 64 <<< 7) |||
    ((jreg (o + 2) &&& 0x01#8).setWidth 64 <<< 15)

/-- 32 bits from bit 1 of byte `o` on. -/
def word1 (jreg : Jreg) (o : ℕ) : BitVec 64 :=
  ((jreg o &&& 0xfe#8).setWidth 64 >>> 1) ||| ((jreg (o + 1)).setWidth 64 <<< 7) |||
    ((jreg (o + 2)).setWidth 64 <<< 15) ||| ((jreg (o + 3)).setWidth 64 <<< 23) |||
    ((jreg (o + 4) &&& 0x01#8).setWidth 64 <<< 31)

/-! ### Bit strings -/

@[simp] theorem length_bits (jreg : Jreg) (off n : ℕ) : (bits jreg off n).length = n := by
  simp [bits]

theorem bit_mul_add (jreg : Jreg) (o i : ℕ) :
    bit jreg (8 * o + i) = (jreg (o + i / 8)).getLsbD (i % 8) := by
  rw [bit, Nat.mul_add_div (by decide), Nat.mul_add_mod]

theorem bits_add (jreg : Jreg) (off m n : ℕ) :
    bits jreg off (m + n) = bits jreg off m ++ bits jreg (off + m) n := by
  simp only [bits, List.range_add, List.map_append, List.map_map]
  congr 2
  funext i
  simp [Nat.add_assoc]

section Fields

variable (jreg : Jreg) (o : ℕ) {i : ℕ}

theorem getLsbD_nibble5 (hi : i < 4) : (nibble5 jreg).getLsbD i = bit jreg (5 + i) := by
  have hbit := bit_mul_add jreg 0 (5 + i)
  rw [Nat.mul_zero, Nat.zero_add] at hbit
  rw [hbit]
  simp only [nibble5, BitVec.getLsbD_or, BitVec.getLsbD_shiftLeft, BitVec.getLsbD_ushiftRight,
    BitVec.getLsbD_setWidth, BitVec.getLsbD_and]
  interval_cases i <;> simp

theorem getLsbD_byte5 (hi : i < 8) : (byte5 jreg o).getLsbD i = bit jreg (8 * o + 5 + i) := by
  rw [Nat.add_assoc, bit_mul_add]
  simp only [byte5, BitVec.getLsbD_or, BitVec.getLsbD_shiftLeft, BitVec.getLsbD_ushiftRight,
    BitVec.getLsbD_setWidth, BitVec.getLsbD_and]
  interval_cases i <;> simp

theorem getLsbD_word5 (hi : i < 32) : (word5 jreg o).getLsbD i = bit jreg (8 * o + 5 + i) := by
  rw [Nat.add_assoc, bit_mul_add]
  simp only [word5, BitVec.getLsbD_or, BitVec.getLsbD_shiftLeft, BitVec.getLsbD_ushiftRight,
    BitVec.getLsbD_setWidth, BitVec.getLsbD_and]
  interval_cases i <;> simp

theorem getLsbD_control5 (hi : i < 52) : (control5 jreg).getLsbD i = bit jreg (5 + i) := by
  have hbit := bit_mul_add jreg 0 (5 + i)
  rw [Nat.mul_zero, Nat.zero_add] at hbit
  rw [hbit]
  simp only [control5, BitVec.getLsbD_or, BitVec.getLsbD_shiftLeft, BitVec.getLsbD_ushiftRight,
    BitVec.getLsbD_setWidth, BitVec.getLsbD_and]
  interval_cases i <;> simp

theorem getLsbD_half1 (hi : i < 16) : (half1 jreg o).getLsbD i = bit jreg (8 * o + 1 + i) := by
  rw [Nat.add_assoc, bit_mul_add]
  simp only [half1, BitVec.getLsbD_or, BitVec.getLsbD_shiftLeft, BitVec.getLsbD_ushiftRight,
    BitVec.getLsbD_setWidth, BitVec.getLsbD_and]
  interval_cases i <;> simp

theorem getLsbD_word1 (hi : i < 32) : (word1 jreg o).getLsbD i = bit jreg (8 * o + 1 + i) := by
  rw [Nat.add_assoc, bit_mul_add]
  simp only [word1, BitVec.getLsbD_or, BitVec.getLsbD_shiftLeft, BitVec.getLsbD_ushiftRight,
    BitVec.getLsbD_setWidth, BitVec.getLsbD_and]
  interval_cases i <;> simp

end Fields

/-! ### The check -/

theorem and_one_eq_iff {w : ℕ} (hw : 0 < w) (x : BitVec w) (i : ℕ) :
    ((x >>> i) &&& 1#w = 1#w) ↔ x.getLsbD i = true := by
  constructor
  · intro h
    have hbit := congrArg (fun v : BitVec w => v.getLsbD 0) h
    simpa [hw] using hbit
  · intro h
    apply BitVec.eq_of_getLsbD_eq
    intro k hk
    by_cases hk0 : k = 0
    · subst hk0
      simp [h, hw]
    · simp [hk0]

/-- The check of a value is the check of its bits, most significant first. -/
theorem crc32_eq_run (value : BitVec 64) (n : ℕ) (crcIn : Word) :
    crc32 value n crcIn =
      Crc.run crc32Poly crcIn ((List.range n).map fun k => value.getLsbD (n - 1 - k)) := by
  rw [Crc.run, List.foldl_map, crc32]
  congr 1
  funext crc k
  have hmsb : crc.msb = crc.getLsbD 31 := by simp [BitVec.msb, BitVec.getMsbD]
  simp only [and_one_eq_iff (by decide : 0 < 64), and_one_eq_iff (by decide : 0 < 32), Crc.step,
    hmsb]
  congr 1
  cases value.getLsbD (n - 1 - k) <;> cases crc.getLsbD 31 <;> decide

/-! ### Reversal -/

/-- Where a round of `reverse_bits` takes a bit from. -/
def swapIndex (j i : ℕ) : ℕ := if i / j % 2 = 0 then j + i else i - j

/-- The masks of a round select the bits that move down and those that move up. -/
def MasksOk (hi lo : BitVec 64) (j : ℕ) : Prop :=
  ∀ i < 64, (hi.getLsbD (j + i), decide (j ≤ i) && lo.getLsbD (i - j)) =
    (decide (i / j % 2 = 0), decide (i / j % 2 ≠ 0))

theorem getLsbD_swapBits {hi lo : BitVec 64} {j : ℕ} (h : MasksOk hi lo j) (val : BitVec 64) {i : ℕ}
    (hi64 : i < 64) : (swapBits hi lo j val).getLsbD i = val.getLsbD (swapIndex j i) := by
  obtain ⟨hdown, hup⟩ := Prod.mk.inj (h i hi64)
  simp only [swapBits, BitVec.getLsbD_or, BitVec.getLsbD_ushiftRight, BitVec.getLsbD_and,
    BitVec.getLsbD_shiftLeft, hdown, swapIndex]
  by_cases hpar : i / j % 2 = 0
  · have hlo : (decide (j ≤ i) && lo.getLsbD (i - j)) = false := by rw [hup]; simp [hpar]
    by_cases hj : j ≤ i
    · have hlo' : lo.getLsbD (i - j) = false := by simpa [hj] using hlo
      simp [hpar, hlo']
    · simp [hpar, Nat.lt_of_not_le hj]
  · have hlo : (decide (j ≤ i) && lo.getLsbD (i - j)) = true := by rw [hup]; simp [hpar]
    obtain ⟨hj, hlo'⟩ := Bool.and_eq_true_iff.1 hlo
    simp [hpar, hlo', of_decide_eq_true hj, hi64]

instance (hi lo : BitVec 64) (j : ℕ) : Decidable (MasksOk hi lo j) :=
  inferInstanceAs (Decidable (∀ i < 64, _ = _))

theorem swapIndex_lt :
    ∀ i < 64, ∀ j ∈ [1, 2, 4, 8, 16, 32], swapIndex j i < 64 := by decide

theorem swapIndex_rounds :
    ∀ i < 64, swapIndex 1 (swapIndex 2 (swapIndex 4 (swapIndex 8 (swapIndex 16
      (swapIndex 32 i))))) = 63 - i := by decide

theorem getLsbD_reverseBits (val : BitVec 64) {n i : ℕ} (hn : n ≤ 64) (hi : i < n) :
    (reverseBits val n).getLsbD i = val.getLsbD (n - 1 - i) := by
  have hlt : 64 - n + i < 64 := by omega
  have hlast : ∀ v : BitVec 64, (v >>> 32) ||| (v <<< 32) =
      swapBits (BitVec.allOnes 64) (BitVec.allOnes 64) 32 v := by
    intro v
    rw [swapBits, BitVec.and_allOnes]
  have h32 := swapIndex_lt _ hlt 32 (by decide)
  have h16 := swapIndex_lt _ h32 16 (by decide)
  have h8 := swapIndex_lt _ h16 8 (by decide)
  have h4 := swapIndex_lt _ h8 4 (by decide)
  have h2 := swapIndex_lt _ h4 2 (by decide)
  simp only [reverseBits, BitVec.getLsbD_ushiftRight, hlast]
  rw [getLsbD_swapBits (by decide) _ hlt, getLsbD_swapBits (by decide) _ h32,
    getLsbD_swapBits (by decide) _ h16, getLsbD_swapBits (by decide) _ h8,
    getLsbD_swapBits (by decide) _ h4, getLsbD_swapBits (by decide) _ h2,
    swapIndex_rounds _ hlt]
  congr 1
  omega

theorem getLsbD_reverseByte (byte : Byte) {i : ℕ} (hi : i < 8) :
    (reverseByte byte).getLsbD i = byte.getLsbD (7 - i) := by
  have hall : ∀ b : Byte, ∀ i < 8, (reverseByte b).getLsbD i = b.getLsbD (7 - i) := by
    decide
  exact hall byte i hi

theorem msbFirst_reverseBits {jreg : Jreg} {x : BitVec 64} {off n : ℕ} (hn : n ≤ 64)
    (hx : ∀ i < n, x.getLsbD i = bit jreg (off + i)) :
    msbFirst ((reverseBits x n).setWidth n) = bits jreg off n := by
  refine List.map_congr_left fun i hi => ?_
  have hi := List.mem_range.1 hi
  have hrev := getLsbD_reverseBits x hn (by omega : n - 1 - i < n)
  rw [BitVec.getMsbD_eq_getLsbD, BitVec.getLsbD_setWidth, hrev,
    show n - 1 - (n - 1 - i) = i by omega, hx i hi]
  simp [hi, show n - 1 - i < n by omega]

/-- The check of a field of the register is the check of its bits. -/
theorem crc32_reverseBits {jreg : Jreg} {x v : BitVec 64} {off n : ℕ} (hn : n ≤ 64)
    (hx : ∀ i < n, x.getLsbD i = bit jreg (off + i))
    (hv : ∀ i < n, v.getLsbD i = (reverseBits x n).getLsbD i) (crcIn : Word) :
    crc32 v n crcIn = Crc.run crc32Poly crcIn (bits jreg off n) := by
  rw [crc32_eq_run]
  congr 1
  refine List.map_congr_left fun i hi => ?_
  have hi := List.mem_range.1 hi
  rw [hv _ (by omega), getLsbD_reverseBits x hn (by omega : n - 1 - i < n),
    show n - 1 - (n - 1 - i) = i by omega, hx i hi]

end Jtag
end Or1ksim
