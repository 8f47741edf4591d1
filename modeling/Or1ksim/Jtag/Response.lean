import Or1ksim.Jtag.Gating

/-!
# JTAG responses, bit by bit

A response is put into the array that still holds the request.

* `bit_put`, `bit_orIn`, `bit_storeByte` — what each store does to the bits;
* `store_loop` — the loops that put data into the register;
* `bit_constructResponse` — **the bits of a response**: the status and the CRC are laid over the
  request in the byte that they start in, and replace it in the others; `bits_constructResponse` has
  its fields;
* `bit_readCommand_fields` — the fields of a response to `READ_COMMAND`, laid over the request.
-/

namespace Or1ksim
namespace Jtag

open Cpu

variable {jreg : Jreg} {k i : ℕ} {v : Byte}

/-! ### Stores -/

theorem bit_put (k : ℕ) (v : Byte) (jreg : Jreg) (i : ℕ) :
    bit (put k v jreg) i = if i / 8 = k then v.getLsbD (i % 8) else bit jreg i := by
  rw [bit, put, Function.update_apply]
  split <;> rfl

theorem bit_orIn (k : ℕ) (v : Byte) (jreg : Jreg) (i : ℕ) :
    bit (orIn k v jreg) i = (bit jreg i || (decide (i / 8 = k) && v.getLsbD (i % 8))) := by
  rw [bit, orIn, Function.update_apply]
  split
  case isTrue h => rw [BitVec.getLsbD_or, bit, h, decide_eq_true rfl, Bool.true_and]
  case isFalse h => rw [decide_eq_false h, Bool.false_and, Bool.or_false, bit]

theorem storeByte_self (k : ℕ) (byte : Byte) (jreg : Jreg) :
    storeByte k byte jreg k = ((jreg k <<< 3) >>> 3) ||| (byte <<< 5) := by
  simp [storeByte, orIn, put]

theorem storeByte_succ (k : ℕ) (byte : Byte) (jreg : Jreg) :
    storeByte k byte jreg (k + 1) = ((jreg (k + 1) >>> 5) <<< 5) ||| (byte >>> 3) := by
  simp [storeByte, orIn, put]

theorem storeByte_of_ne {k q : ℕ} (hk : q ≠ k) (hk' : q ≠ k + 1) (byte : Byte) (jreg : Jreg) :
    storeByte k byte jreg q = jreg q := by
  simp [storeByte, orIn, put, hk, hk']

theorem bit_storeByte (k : ℕ) (byte : Byte) (jreg : Jreg) (i : ℕ) :
    bit (storeByte k byte jreg) i =
      if 8 * k + 5 ≤ i ∧ i < 8 * k + 13 then byte.getLsbD (i - (8 * k + 5)) else bit jreg i := by
  obtain ⟨q, r, hr, rfl⟩ : ∃ q r, r < 8 ∧ i = 8 * q + r :=
    ⟨i / 8, i % 8, Nat.mod_lt _ (by decide), (Nat.div_add_mod i 8).symm⟩
  rw [bit_mul_add, bit_mul_add, Nat.div_eq_of_lt hr, Nat.mod_eq_of_lt hr, Nat.add_zero]
  rcases eq_or_ne q k with rfl | hk
  · rw [storeByte_self, BitVec.getLsbD_or, BitVec.getLsbD_ushiftRight, BitVec.getLsbD_shiftLeft,
      BitVec.getLsbD_shiftLeft]
    by_cases hr5 : 5 ≤ r
    · rw [if_pos (by omega), show 8 * q + r - (8 * q + 5) = r - 5 by omega]
      simp [hr, show ¬3 + r < 8 by omega, show ¬r < 5 by omega]
    · rw [if_neg (by omega)]
      simp [show 3 + r < 8 by omega, show r < 5 by omega]
  rcases eq_or_ne q (k + 1) with rfl | hk'
  · rw [storeByte_succ, BitVec.getLsbD_or, BitVec.getLsbD_shiftLeft, BitVec.getLsbD_ushiftRight,
      BitVec.getLsbD_ushiftRight]
    by_cases hr5 : 5 ≤ r
    · rw [if_neg (by omega)]
      simp [hr, show ¬r < 5 by omega, show 5 + (r - 5) = r by omega,
        BitVec.getLsbD_of_ge byte (3 + r) (by omega)]
    · rw [if_pos (by omega), show 8 * (k + 1) + r - (8 * k + 5) = 3 + r by omega]
      simp [show r < 5 by omega]
  · rw [storeByte_of_ne hk hk', if_neg (by omega)]

theorem crc32_byte (byte : Byte) (crc : Word) :
    crc32 (byte.setWidth 64) 8 crc = Crc.run crc32Poly crc (msbFirst byte) := by
  rw [crc32_eq_run]
  congr 1

/-- **The loops that read**: the bytes are in the register from bit 37 on, the CRC is theirs, and
the other bits of the register have not changed. -/
theorem store_loop (byte : ℕ → Byte) (next : ℕ → Byte → Byte) (j : Jreg) (status : Byte) (n : ℕ) :
    ∃ reg, (List.range n).foldl (fun (r : ReadResult) i => r.store i (byte i) (next i r.status))
        ⟨j, 0xffffffff#32, status⟩ =
          ⟨reg, crcOfBits ((List.range n).flatMap fun i => msbFirst (byte i)),
            (List.range n).foldl (fun st i => next i st) status⟩ ∧
      bits reg 37 (8 * n) = ((List.range n).flatMap fun i => msbFirst (byte i)) ∧
      ∀ i, i < 37 ∨ 37 + 8 * n ≤ i → bit reg i = bit j i := by
  induction n with
  | zero => exact ⟨j, rfl, rfl, fun _ _ => rfl⟩
  | succ n ih =>
    obtain ⟨reg, hfold, hdata, hkeep⟩ := ih
    refine ⟨storeByte (37 / 8 + n) (reverseByte (byte n)) reg, ?_, ?_, ?_⟩
    · rw [List.range_succ, List.foldl_append, hfold, List.foldl_cons, List.foldl_nil,
        List.flatMap_append, crcOfBits_append, List.flatMap_singleton, List.foldl_append,
        ReadResult.store, crc32_byte]
      rfl
    · rw [Nat.mul_succ, bits_add, List.range_succ, List.flatMap_append, List.flatMap_singleton,
        ← hdata]
      congr 1
      · refine List.map_congr_left fun k hk => ?_
        have hk := List.mem_range.1 hk
        rw [bit_storeByte, if_neg (by omega)]
      · refine List.map_congr_left fun k hk => ?_
        have hk := List.mem_range.1 hk
        rw [bit_storeByte, if_pos (by omega), getLsbD_reverseByte _ (by omega),
          BitVec.getMsbD_eq_getLsbD,
          show 37 + 8 * n + k - (8 * (37 / 8 + n) + 5) = k by omega]
        simp [hk]
    · intro i hi
      rw [bit_storeByte, if_neg (by omega)]
      exact hkeep i (by omega)

/-! ### Responses -/

theorem bits_eq_replicate {jreg : Jreg} {off n : ℕ}
    (h : ∀ i, off ≤ i → i < off + n → bit jreg i = false) :
    bits jreg off n = List.replicate n false := by
  refine List.eq_replicate_iff.2 ⟨length_bits _ _ _, fun b hb => ?_⟩
  obtain ⟨k, hk, rfl⟩ := List.mem_map.1 hb
  have hk := List.mem_range.1 hk
  exact h (off + k) (by omega) (by omega)

theorem reverseBits_setWidth (x : BitVec 64) {n : ℕ} (hn : n ≤ 64) (m : ℕ) :
    (reverseBits x n).setWidth m = ((reverseBits x n).setWidth n).setWidth m := by
  apply BitVec.eq_of_getLsbD_eq
  intro i hi
  by_cases hin : i < n
  · simp [hi, hin]
  · have hzero : (reverseBits x n).getLsbD i = false := by
      simp only [reverseBits, BitVec.getLsbD_ushiftRight]
      exact BitVec.getLsbD_of_ge _ _ (by omega)
    simp [hin, hzero]

/-- The register with its zero bits cleared. -/
def clearZeros (zeroBits : ℕ) (jreg : Jreg) : Jreg :=
  let zeroed : Jreg := fun k => if k < zeroBits / 8 then 0 else jreg k
  put (zeroBits / 8) ((zeroed (zeroBits / 8) >>> (zeroBits % 8)) <<< (zeroBits % 8)) zeroed

theorem bit_clearZeros (zeroBits : ℕ) (jreg : Jreg) (i : ℕ) :
    bit (clearZeros zeroBits jreg) i = (decide (zeroBits ≤ i) && bit jreg i) := by
  rw [clearZeros, bit_put]
  split
  case isTrue h =>
    have hlt : i % 8 < 8 := Nat.mod_lt _ (by decide)
    dsimp only
    rw [if_neg (Nat.lt_irrefl _), BitVec.getLsbD_shiftLeft, BitVec.getLsbD_ushiftRight, bit, h]
    by_cases hle : zeroBits % 8 ≤ i % 8
    · rw [decide_eq_true (by omega : zeroBits ≤ i), decide_eq_true hlt,
        decide_eq_false (by omega : ¬i % 8 < zeroBits % 8), Nat.add_sub_of_le hle]
      rfl
    · rw [decide_eq_false (by omega : ¬zeroBits ≤ i),
        decide_eq_true (by omega : i % 8 < zeroBits % 8)]
      simp
  case isFalse h =>
    rw [bit]
    split
    · rw [decide_eq_false (by omega : ¬zeroBits ≤ i)]
      simp
    · rw [decide_eq_true (by omega : zeroBits ≤ i), Bool.true_and, bit]

/-- The bits of the status and the CRC. -/
def tailBit (status : Byte) (crcIn : Word) (k : ℕ) : Bool :=
  if k < 4 then status.getLsbD (3 - k) else (crc32 (status.setWidth 64) 4 crcIn).getLsbD (35 - k)

/-- The status of a response, reversed. -/
def statusR (status : Byte) : Byte := (reverseBits (status.setWidth 64) 4).setWidth 8

/-- The CRC of a response, reversed. -/
def crcOutR (status : Byte) (crcIn : Word) : Word :=
  (reverseBits ((crc32 (status.setWidth 64) 4 crcIn).setWidth 64) 32).setWidth 32

theorem getLsbD_statusR (status : Byte) (j : ℕ) :
    (statusR status).getLsbD j = (decide (j < 4) && status.getLsbD (3 - j)) := by
  rw [statusR, reverseBits_setWidth _ (by decide), BitVec.getLsbD_setWidth,
    BitVec.getLsbD_setWidth]
  by_cases hj : j < 4
  · rw [getLsbD_reverseBits _ (by decide) hj, BitVec.getLsbD_setWidth,
      decide_eq_true (by omega : j < 8), decide_eq_true hj,
      decide_eq_true (by omega : 4 - 1 - j < 64)]
    simp
  · simp [hj]

theorem getLsbD_crcOutR (status : Byte) (crcIn : Word) {j : ℕ} (hj : j < 32) :
    (crcOutR status crcIn).getLsbD j =
      (crc32 (status.setWidth 64) 4 crcIn).getLsbD (31 - j) := by
  rw [crcOutR, BitVec.getLsbD_setWidth, getLsbD_reverseBits _ (by decide) hj,
    BitVec.getLsbD_setWidth, decide_eq_true hj, decide_eq_true (by omega : 32 - 1 - j < 64),
    Bool.true_and, Bool.true_and]

/-- A response whose status starts at bit 5 of byte `skip`. -/
theorem constructResponse_five (jreg : Jreg) (status : Byte) (crcIn : Word) {ign zeros skip : ℕ}
    (hlt : ign + zeros < 2 ^ 32) (h : ign + zeros = 8 * skip + 5) :
    constructResponse jreg status crcIn ign zeros =
      put (skip + 5) ((crcOutR status crcIn >>> 31).setWidth 8)
        (put (skip + 4) ((crcOutR status crcIn >>> 23).setWidth 8)
          (put (skip + 3) ((crcOutR status crcIn >>> 15).setWidth 8)
            (put (skip + 2) ((crcOutR status crcIn >>> 7).setWidth 8)
              (put (skip + 1) ((statusR status >>> 3) ||| (crcOutR status crcIn <<< 1).setWidth 8)
                (orIn skip (statusR status <<< 5) (clearZeros zeros jreg)))))) := by
  have hzeros : zeros % 2 ^ 32 = zeros := Nat.mod_eq_of_lt (by omega)
  have hdiv : (ign + zeros) / 8 = skip := by omega
  have hmod : (ign + zeros) % 8 = 5 := by omega
  simp only [constructResponse, hzeros, Nat.mod_eq_of_lt hlt, hdiv, hmod]
  rfl

/-- A response whose status starts at bit 1 of byte `skip`. -/
theorem constructResponse_one (jreg : Jreg) (status : Byte) (crcIn : Word) {ign zeros skip : ℕ}
    (hlt : ign + zeros < 2 ^ 32) (h : ign + zeros = 8 * skip + 1) :
    constructResponse jreg status crcIn ign zeros =
      put (skip + 4) ((crcOutR status crcIn >>> 27).setWidth 8)
        (put (skip + 3) ((crcOutR status crcIn >>> 19).setWidth 8)
          (put (skip + 2) ((crcOutR status crcIn >>> 11).setWidth 8)
            (put (skip + 1) ((crcOutR status crcIn >>> 3).setWidth 8)
              (orIn skip (((statusR status &&& 0xf#8) <<< 1) |||
                (crcOutR status crcIn <<< 5).setWidth 8) (clearZeros zeros jreg))))) := by
  have hzeros : zeros % 2 ^ 32 = zeros := Nat.mod_eq_of_lt (by omega)
  have hdiv : (ign + zeros) / 8 = skip := by omega
  have hmod : (ign + zeros) % 8 = 1 := by omega
  simp only [constructResponse, hzeros, Nat.mod_eq_of_lt hlt, hdiv, hmod]
  rfl

theorem getLsbD_crcByte (status : Byte) (crcIn : Word) {j r : ℕ} (hr : r < 8) (hj : j + r < 32) :
    ((crcOutR status crcIn >>> j).setWidth 8).getLsbD r = tailBit status crcIn (j + r + 4) := by
  rw [BitVec.getLsbD_setWidth, BitVec.getLsbD_ushiftRight, getLsbD_crcOutR _ _ hj,
    decide_eq_true hr, Bool.true_and, tailBit, if_neg (by omega)]
  congr 1
  omega

theorem getLsbD_secondByte (status : Byte) (crcIn : Word) {r : ℕ} (hr : r < 8) :
    ((statusR status >>> 3) ||| (crcOutR status crcIn <<< 1).setWidth 8).getLsbD r =
      tailBit status crcIn (r + 3) := by
  rw [BitVec.getLsbD_or, BitVec.getLsbD_ushiftRight, getLsbD_statusR, BitVec.getLsbD_setWidth,
    BitVec.getLsbD_shiftLeft]
  rcases Nat.eq_zero_or_pos r with rfl | hpos
  · simp [tailBit]
  · rw [getLsbD_crcOutR _ _ (by omega), tailBit, if_neg (by omega),
      show 31 - (r - 1) = 35 - (r + 3) by omega]
    simp [hr, show ¬3 + r < 4 by omega, show r < 32 by omega, show ¬r < 1 by omega]

theorem getLsbD_firstByte_five (status : Byte) (crcIn : Word) {r : ℕ} (hr : r < 8) :
    (statusR status <<< 5).getLsbD r = (decide (5 ≤ r) && tailBit status crcIn (r - 5)) := by
  rw [BitVec.getLsbD_shiftLeft, getLsbD_statusR, tailBit, if_pos (by omega)]
  by_cases h : 5 ≤ r
  · simp [h, hr, show ¬r < 5 by omega, show r - 5 < 4 by omega]
  · simp [h, show r < 5 by omega]

theorem getLsbD_firstByte_one (status : Byte) (crcIn : Word) {r : ℕ} (hr : r < 8) :
    (((statusR status &&& 0xf#8) <<< 1) ||| (crcOutR status crcIn <<< 5).setWidth 8).getLsbD r =
      (decide (1 ≤ r) && tailBit status crcIn (r - 1)) := by
  have hmask : ∀ j < 8, (0xf#8).getLsbD j = decide (j < 4) := by decide
  rw [BitVec.getLsbD_or, BitVec.getLsbD_shiftLeft, BitVec.getLsbD_and, getLsbD_statusR,
    BitVec.getLsbD_setWidth, BitVec.getLsbD_shiftLeft, hmask _ (by omega), tailBit]
  rcases Nat.eq_zero_or_pos r with rfl | hpos
  · simp
  by_cases h : r - 1 < 4
  · rw [if_pos h]
    simp [h, hr, show 1 ≤ r from hpos, show ¬r = 0 by omega, show r < 5 by omega]
  · rw [if_neg h, getLsbD_crcOutR _ _ (by omega), show 31 - (r - 5) = 35 - (r - 1) by omega]
    simp [h, hr, show 1 ≤ r from hpos, show ¬r < 5 by omega, show r < 32 by omega]

/-- **A response, bit by bit**: zeros, then the request, and the status and the CRC over what is
left of the request in the byte that they start in. -/
theorem bit_constructResponse (jreg : Jreg) (status : Byte) (crcIn : Word) {ign zeros i : ℕ}
    (hlt : ign + zeros < 2 ^ 32)
    (hoff : (ign + zeros) % 8 = 5 ∨ (ign + zeros) % 8 = 1) (hi : i < ign + zeros + 36) :
    bit (constructResponse jreg status crcIn ign zeros) i =
      ((decide (zeros ≤ i ∧ i < 8 * ((ign + zeros) / 8 + 1)) && bit jreg i) ||
        (decide (ign + zeros ≤ i) && tailBit status crcIn (i - (ign + zeros)))) := by
  obtain ⟨q, r, hr, rfl⟩ : ∃ q r, r < 8 ∧ i = 8 * q + r :=
    ⟨i / 8, i % 8, Nat.mod_lt _ (by decide), (Nat.div_add_mod i 8).symm⟩
  have hq : (8 * q + r) / 8 = q := by omega
  have hrmod : (8 * q + r) % 8 = r := by omega
  generalize hskip : (ign + zeros) / 8 = skip
  -- the bytes after the first one hold nothing but the CRC
  have hcrcByte : ∀ j, j + r < 32 → 8 * skip + 8 ≤ 8 * q + r →
      8 * q + r - (ign + zeros) = j + r + 4 →
      ((crcOutR status crcIn >>> j).setWidth 8).getLsbD r =
        ((decide (zeros ≤ 8 * q + r ∧ 8 * q + r < 8 * (skip + 1)) && bit jreg (8 * q + r)) ||
          (decide (ign + zeros ≤ 8 * q + r) &&
            tailBit status crcIn (8 * q + r - (ign + zeros)))) := by
    intro j hj hge heq
    rw [getLsbD_crcByte _ _ hr hj, heq, decide_eq_false (by omega),
      decide_eq_true (by omega : ign + zeros ≤ 8 * q + r), Bool.false_and, Bool.true_and,
      Bool.false_or]
  -- the byte that the status starts in keeps what it held
  have hfirst : ∀ d, ign + zeros = 8 * skip + d → q ≤ skip →
      ((decide (zeros ≤ 8 * q + r) && bit jreg (8 * q + r)) ||
          (decide (q = skip) && (decide (d ≤ r) && tailBit status crcIn (r - d)))) =
        ((decide (zeros ≤ 8 * q + r ∧ 8 * q + r < 8 * (skip + 1)) && bit jreg (8 * q + r)) ||
          (decide (ign + zeros ≤ 8 * q + r) &&
            tailBit status crcIn (8 * q + r - (ign + zeros)))) := by
    intro d hsum hle
    rw [decide_eq_decide.2 (by omega : (zeros ≤ 8 * q + r ∧ 8 * q + r < 8 * (skip + 1)) ↔
      zeros ≤ 8 * q + r)]
    by_cases hqs : q = skip
    · rw [decide_eq_true hqs, Bool.true_and, show 8 * q + r - (ign + zeros) = r - d by omega,
        decide_eq_decide.2 (by omega : d ≤ r ↔ ign + zeros ≤ 8 * q + r)]
    · rw [decide_eq_false hqs, decide_eq_false (by omega : ¬ign + zeros ≤ 8 * q + r),
        Bool.false_and, Bool.false_and]
  rcases hoff with hoff | hoff
  · have hsum : ign + zeros = 8 * skip + 5 := by omega
    rw [constructResponse_five _ _ _ hlt hsum]
    simp only [bit_put, bit_orIn, bit_clearZeros, hq, hrmod]
    split_ifs with h5 h4 h3 h2 h1
    · exact hcrcByte 31 (by omega) (by omega) (by omega)
    · exact hcrcByte 23 (by omega) (by omega) (by omega)
    · exact hcrcByte 15 (by omega) (by omega) (by omega)
    · exact hcrcByte 7 (by omega) (by omega) (by omega)
    · -- the last bit of the status and the first seven of the CRC
      rw [getLsbD_secondByte _ _ hr, decide_eq_false (by omega),
        decide_eq_true (by omega : ign + zeros ≤ 8 * q + r),
        show 8 * q + r - (ign + zeros) = r + 3 by omega]
      rfl
    · -- the first three bits of the status
      rw [getLsbD_firstByte_five status crcIn hr]
      exact hfirst 5 hsum (by omega)
  · have hsum : ign + zeros = 8 * skip + 1 := by omega
    rw [constructResponse_one _ _ _ hlt hsum]
    simp only [bit_put, bit_orIn, bit_clearZeros, hq, hrmod]
    split_ifs with h4 h3 h2 h1
    · exact hcrcByte 27 (by omega) (by omega) (by omega)
    · exact hcrcByte 19 (by omega) (by omega) (by omega)
    · exact hcrcByte 11 (by omega) (by omega) (by omega)
    · exact hcrcByte 3 (by omega) (by omega) (by omega)
    · -- the status and the first three bits of the CRC
      rw [getLsbD_firstByte_one status crcIn hr]
      exact hfirst 1 hsum (by omega)

/-- The fields of a response that is constructed over clear bits. -/
theorem bits_constructResponse (jreg : Jreg) (status : Byte) (crcIn : Word) (ign zeros : ℕ)
    (hlt : ign + zeros < 2 ^ 32) (hoff : (ign + zeros) % 8 = 5 ∨ (ign + zeros) % 8 = 1)
    (hclear : ∀ i, ign + zeros ≤ i → i < 8 * ((ign + zeros) / 8 + 1) → bit jreg i = false) :
    bits (constructResponse jreg status crcIn ign zeros) 0 zeros = List.replicate zeros false ∧
      bits (constructResponse jreg status crcIn ign zeros) zeros ign = bits jreg zeros ign ∧
      bits (constructResponse jreg status crcIn ign zeros) (zeros + ign) 4 =
        msbFirst (status.setWidth 4) ∧
      bits (constructResponse jreg status crcIn ign zeros) (zeros + ign + 4) 32 =
        msbFirst (crc32 (status.setWidth 64) 4 crcIn) := by
  -- the byte that the status starts in was clear after the data, so nothing is laid over the status
  have htail : ∀ k < 36, bit (constructResponse jreg status crcIn ign zeros) (zeros + ign + k) =
      tailBit status crcIn k := by
    intro k hk
    rw [bit_constructResponse _ _ _ hlt hoff (by omega),
      decide_eq_true (by omega : ign + zeros ≤ _),
      show zeros + ign + k - (ign + zeros) = k by omega, Bool.true_and]
    by_cases hin : zeros + ign + k < 8 * ((ign + zeros) / 8 + 1)
    · rw [hclear _ (by omega) hin, Bool.and_false, Bool.false_or]
    · rw [decide_eq_false (fun h => hin h.2), Bool.false_and, Bool.false_or]
  refine ⟨bits_eq_replicate fun i _ hi => ?_, ?_, ?_, ?_⟩
  · rw [bit_constructResponse _ _ _ hlt hoff (by omega), decide_eq_false (by omega),
      decide_eq_false (by omega)]
    rfl
  · refine List.map_congr_left fun k hk => ?_
    have hk := List.mem_range.1 hk
    rw [bit_constructResponse _ _ _ hlt hoff (by omega),
      decide_eq_true (by omega : zeros ≤ zeros + k ∧ _), decide_eq_false (by omega), Bool.true_and,
      Bool.false_and, Bool.or_false]
  · refine List.map_congr_left fun k hk => ?_
    have hk := List.mem_range.1 hk
    rw [htail k (by omega), tailBit, if_pos hk, BitVec.getMsbD_eq_getLsbD, decide_eq_true hk,
      BitVec.getLsbD_setWidth, decide_eq_true (by omega : 4 - 1 - k < 4)]
    rfl
  · refine List.map_congr_left fun k hk => ?_
    have hk := List.mem_range.1 hk
    rw [Nat.add_assoc, htail (4 + k) (by omega), tailBit, if_neg (by omega),
      BitVec.getMsbD_eq_getLsbD, decide_eq_true hk, Bool.true_and]
    congr 1
    omega

theorem crc32_status (status : Byte) (crc : Word) :
    crc32 (status.setWidth 64) 4 crc = Crc.run crc32Poly crc (msbFirst (status.setWidth 4)) := by
  rw [crc32_eq_run]
  congr 1
  refine List.map_congr_left fun k hk => ?_
  have hk := List.mem_range.1 hk
  rw [BitVec.getMsbD_eq_getLsbD, decide_eq_true hk, BitVec.getLsbD_setWidth,
    BitVec.getLsbD_setWidth, decide_eq_true (by omega : 4 - 1 - k < 4),
    decide_eq_true (by omega : 4 - 1 - k < 64)]
  rfl

/-! ### Fields -/

section Fields

variable {w : ℕ} (x : BitVec w) (s : ℕ) {r : ℕ}

/-- The bits of a field in a byte in its middle, in its first byte and in its last byte. -/
theorem getLsbD_middle (hr : r < 8) :
    ((x >>> s).setWidth 8).getLsbD r = x.getLsbD (s + r) := by
  rw [BitVec.getLsbD_setWidth, BitVec.getLsbD_ushiftRight, decide_eq_true hr, Bool.true_and]

theorem getLsbD_first (hw : 8 ≤ w) (hr : r < 8) :
    ((x <<< 1).setWidth 8 &&& 0xfe#8).getLsbD r = (decide (1 ≤ r) && x.getLsbD (r - 1)) := by
  have hmask : ∀ k < 8, (0xfe#8).getLsbD k = decide (1 ≤ k) := by decide
  rw [BitVec.getLsbD_and, BitVec.getLsbD_setWidth, BitVec.getLsbD_shiftLeft, hmask r hr,
    decide_eq_true hr, decide_eq_true (by omega : r < w)]
  cases Nat.decLt r 1 with
  | isTrue h => simp [show r = 0 by omega]
  | isFalse h => simp [h, Bool.and_comm]

theorem getLsbD_last (hr : r < 8) :
    ((x >>> s).setWidth 8 &&& 0x01#8).getLsbD r = (decide (r = 0) && x.getLsbD s) := by
  have hmask : ∀ k < 8, (0x01#8).getLsbD k = decide (k = 0) := by decide
  rw [BitVec.getLsbD_and, getLsbD_middle x s hr, hmask r hr, Bool.and_comm]
  by_cases h : r = 0
  · simp [h]
  · simp [h]

end Fields

theorem getLsbD_reverseField {w k : ℕ} (x : BitVec w) (hw : w ≤ 64) (hk : k < w) :
    ((reverseBits (x.setWidth 64) w).setWidth w).getLsbD k = x.getLsbD (w - 1 - k) := by
  rw [BitVec.getLsbD_setWidth, getLsbD_reverseBits _ hw hk, BitVec.getLsbD_setWidth,
    decide_eq_true hk, decide_eq_true (by omega : w - 1 - k < 64), Bool.true_and, Bool.true_and]

/-- The data of a response to `READ_COMMAND`: the access type, the address and the length. -/
def readCommandBit (accType : Byte) (addr : Word) (len : BitVec 16) (k : ℕ) : Bool :=
  if k < 4 then accType.getLsbD (3 - k)
  else if k < 36 then addr.getLsbD (35 - k) else len.getLsbD (51 - k)

theorem bit_readCommand_fields (accType : Byte) (addr : Word) (len : BitVec 16) (j : Jreg) (i : ℕ) :
    bit (orIn 11 (((reverseBits (len.setWidth 64) 16).setWidth 16 >>> 15).setWidth 8 &&& 0x01#8)
      (orIn 10 (((reverseBits (len.setWidth 64) 16).setWidth 16 >>> 7).setWidth 8)
      (orIn 9 (((reverseBits (len.setWidth 64) 16).setWidth 16 <<< 1).setWidth 8 &&& 0xfe#8)
      (orIn 9 (((reverseBits (addr.setWidth 64) 32).setWidth 32 >>> 31).setWidth 8 &&& 0x01#8)
      (orIn 8 (((reverseBits (addr.setWidth 64) 32).setWidth 32 >>> 23).setWidth 8)
      (orIn 7 (((reverseBits (addr.setWidth 64) 32).setWidth 32 >>> 15).setWidth 8)
      (orIn 6 (((reverseBits (addr.setWidth 64) 32).setWidth 32 >>> 7).setWidth 8)
      (orIn 5 (((reverseBits (addr.setWidth 64) 32).setWidth 32 <<< 1).setWidth 8 &&& 0xfe#8)
      (orIn 5 (((reverseBits (accType.setWidth 64) 4).setWidth 8 >>> 3) &&& 0x01#8)
      (orIn 4 (((reverseBits (accType.setWidth 64) 4).setWidth 8 <<< 5) &&& 0xe0#8)
        j)))))))))) i =
      (bit j i || (decide (37 ≤ i ∧ i < 89) && readCommandBit accType addr len (i - 37))) := by
  have hacc := getLsbD_statusR accType
  have haddr := fun k (hk : k < 32) => getLsbD_reverseField addr (by decide) hk
  have hlen := fun k (hk : k < 16) => getLsbD_reverseField len (by decide) hk
  unfold statusR at hacc
  generalize (reverseBits (accType.setWidth 64) 4).setWidth 8 = accTypeR at hacc ⊢
  generalize (reverseBits (addr.setWidth 64) 32).setWidth 32 = addrR at haddr ⊢
  generalize (reverseBits (len.setWidth 64) 16).setWidth 16 = lenR at hlen ⊢
  obtain ⟨q, r, hr, rfl⟩ : ∃ q r, r < 8 ∧ i = 8 * q + r :=
    ⟨i / 8, i % 8, Nat.mod_lt _ (by decide), (Nat.div_add_mod i 8).symm⟩
  have hq : (8 * q + r) / 8 = q := by omega
  have hrmod : (8 * q + r) % 8 = r := by omega
  -- the data, field by field
  have hdataAcc : ∀ k < 4, readCommandBit accType addr len k = accTypeR.getLsbD k :=
    fun k hk => by rw [readCommandBit, if_pos hk, hacc, decide_eq_true hk, Bool.true_and]
  have hdataAddr : ∀ k < 32, readCommandBit accType addr len (k + 4) = addrR.getLsbD k :=
    fun k hk => by
      rw [readCommandBit, if_neg (by omega), if_pos (by omega), haddr k hk]
      congr 1
      omega
  have hdataLen : ∀ k < 16, readCommandBit accType addr len (k + 36) = lenR.getLsbD k :=
    fun k hk => by
      rw [readCommandBit, if_neg (by omega), if_neg (by omega), hlen k hk]
      congr 1
      omega
  have hfirst : ((accTypeR <<< 5) &&& 0xe0#8).getLsbD r =
      (decide (5 ≤ r) && accTypeR.getLsbD (r - 5)) := by
    have hmask : ∀ k < 8, (0xe0#8).getLsbD k = decide (5 ≤ k) := by decide
    rw [BitVec.getLsbD_and, BitVec.getLsbD_shiftLeft, hmask r hr, decide_eq_true hr]
    by_cases h : 5 ≤ r
    · simp [h, show ¬r < 5 by omega]
    · simp [h]
  have hlast := getLsbD_last accTypeR 3 hr
  rw [BitVec.setWidth_eq] at hlast
  simp only [bit_orIn, hq, hrmod, getLsbD_middle _ _ hr, getLsbD_last _ _ hr, hfirst, hlast,
    getLsbD_first addrR (by decide) hr, getLsbD_first lenR (by decide) hr]
  rcases (by omega : q < 4 ∨ q = 4 ∨ q = 5 ∨ q = 6 ∨ q = 7 ∨ q = 8 ∨ q = 9 ∨ q = 10 ∨ q = 11 ∨
    11 < q) with h | rfl | rfl | rfl | rfl | rfl | rfl | rfl | rfl | h
  · rw [decide_eq_false (by omega : ¬(37 ≤ 8 * q + r ∧ 8 * q + r < 89))]
    simp [show ∀ c ≥ 4, ¬q = c by omega]
  · by_cases h : 5 ≤ r
    · rw [show 8 * 4 + r - 37 = r - 5 by omega, hdataAcc _ (by omega),
        decide_eq_true (by omega : 37 ≤ 8 * 4 + r ∧ 8 * 4 + r < 89)]
      simp [h]
    · rw [decide_eq_false (by omega : ¬(37 ≤ 8 * 4 + r ∧ 8 * 4 + r < 89))]
      simp [h]
  · rcases Nat.eq_zero_or_pos r with rfl | hpos
    · rw [show 8 * 5 + 0 - 37 = 3 by rfl, hdataAcc 3 (by decide)]
      simp
    · rw [show 8 * 5 + r - 37 = r - 1 + 4 by omega, hdataAddr _ (by omega),
        decide_eq_true (by omega : 37 ≤ 8 * 5 + r ∧ 8 * 5 + r < 89)]
      simp [show ¬r = 0 by omega, show 1 ≤ r from hpos]
  · rw [show 8 * 6 + r - 37 = 7 + r + 4 by omega, hdataAddr _ (by omega),
      decide_eq_true (by omega : 37 ≤ 8 * 6 + r ∧ 8 * 6 + r < 89)]
    simp
  · rw [show 8 * 7 + r - 37 = 15 + r + 4 by omega, hdataAddr _ (by omega),
      decide_eq_true (by omega : 37 ≤ 8 * 7 + r ∧ 8 * 7 + r < 89)]
    simp
  · rw [show 8 * 8 + r - 37 = 23 + r + 4 by omega, hdataAddr _ (by omega),
      decide_eq_true (by omega : 37 ≤ 8 * 8 + r ∧ 8 * 8 + r < 89)]
    simp
  · rcases Nat.eq_zero_or_pos r with rfl | hpos
    · rw [show 8 * 9 + 0 - 37 = 31 + 4 by rfl, hdataAddr 31 (by decide)]
      simp
    · rw [show 8 * 9 + r - 37 = r - 1 + 36 by omega, hdataLen _ (by omega),
        decide_eq_true (by omega : 37 ≤ 8 * 9 + r ∧ 8 * 9 + r < 89)]
      simp [show ¬r = 0 by omega, show 1 ≤ r from hpos]
  · rw [show 8 * 10 + r - 37 = 7 + r + 36 by omega, hdataLen _ (by omega),
      decide_eq_true (by omega : 37 ≤ 8 * 10 + r ∧ 8 * 10 + r < 89)]
    simp
  · rcases Nat.eq_zero_or_pos r with rfl | hpos
    · rw [show 8 * 11 + 0 - 37 = 15 + 36 by rfl, hdataLen 15 (by decide)]
      simp
    · rw [decide_eq_false (by omega : ¬(37 ≤ 8 * 11 + r ∧ 8 * 11 + r < 89))]
      simp [show ¬r = 0 by omega]
  · rw [decide_eq_false (by omega : ¬(37 ≤ 8 * q + r ∧ 8 * q + r < 89))]
    simp [show ∀ c ≤ 11, ¬q = c by omega]

end Jtag
end Or1ksim
