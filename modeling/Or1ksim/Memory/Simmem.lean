import Mathlib.Logic.Function.Basic
import Or1ksim.Lib.Bits

/-!
# Simulated memory

The byte store behind a `memory` section (`peripheral/memory.c`) on a little-endian host.  A word
is kept in host order, so the sub-word accessors move the address inside the word: `simmemRead8`
reads the mirrored byte and `simmemRead16` the other half.

* `simmemRead8_eq`, `simmemRead16_eq` — sub-word reads are fields of the enclosing word;
* `wordAt_simmemWrite8`, `wordAt_simmemWrite16`, `wordAt_simmemWrite32` — a write replaces its
  field of the enclosing word and leaves every other word alone.
-/

namespace Or1ksim

/-- Physical and effective addresses (`oraddr_t`). -/
abbrev Addr := BitVec 32

/-- Target words (`uint32_t`). -/
abbrev Word := BitVec 32

/-- Target half words (`uint16_t`). -/
abbrev Half := BitVec 16

/-- Target bytes (`uint8_t`). -/
abbrev Byte := BitVec 8

/-- Memory contents, one host byte per address.  Areas are disjoint and aligned, so the buffer
cell `mem + (addr & size_mask)` of an area is named by the address itself. -/
abbrev Bytes := Addr → Byte

/-- The host byte that holds target byte `a`. -/
def hostByte (a : Addr) : Addr := (a &&& ~~~3#32) ||| (3#32 - (a &&& 3#32))

/-- `simmem_read32`. -/
def simmemRead32 (m : Bytes) (a : Addr) : Word :=
  m (a + 3#32) ++ m (a + 2#32) ++ m (a + 1#32) ++ m a

/-- `simmem_read16`. -/
def simmemRead16 (m : Bytes) (a : Addr) : Half := m ((a ^^^ 2#32) + 1#32) ++ m (a ^^^ 2#32)

/-- `simmem_read8`. -/
def simmemRead8 (m : Bytes) (a : Addr) : Byte := m (hostByte a)

/-- `simmem_write32`. -/
def simmemWrite32 (m : Bytes) (a : Addr) (v : Word) : Bytes := fun b =>
  if b = a then v.extractLsb' 0 8
  else if b = a + 1#32 then v.extractLsb' 8 8
  else if b = a + 2#32 then v.extractLsb' 16 8
  else if b = a + 3#32 then v.extractLsb' 24 8
  else m b

/-- `simmem_write16`. -/
def simmemWrite16 (m : Bytes) (a : Addr) (v : Half) : Bytes := fun b =>
  if b = a ^^^ 2#32 then v.extractLsb' 0 8
  else if b = (a ^^^ 2#32) + 1#32 then v.extractLsb' 8 8
  else m b

/-- `simmem_write8`. -/
def simmemWrite8 (m : Bytes) (a : Addr) (v : Byte) : Bytes := Function.update m (hostByte a) v

/-- The aligned word address that contains `a`. -/
def wordBase (a : Addr) : Addr := a &&& ~~~3#32

/-- The word that contains the byte at `a`. -/
def wordAt (m : Bytes) (a : Addr) : Word := simmemRead32 m (wordBase a)

/-! ### Addresses inside a word -/

theorem three_eq_lowMask : (3#32 : Addr) = Bits.lowMask 32 2 := rfl

theorem toNat_wordBase (a : Addr) : (wordBase a).toNat = a.toNat / 4 * 4 := by
  rw [wordBase, three_eq_lowMask, Bits.toNat_and_not_lowMask]
  rfl

theorem toNat_and_three (a : Addr) : (a &&& 3#32).toNat = a.toNat % 4 := by
  rw [three_eq_lowMask, Bits.toNat_and_lowMask a (by decide)]
  rfl

theorem and_three_eq_zero {a : Addr} : a &&& 3#32 = 0#32 ↔ a.toNat % 4 = 0 := by
  rw [← toNat_and_three]
  exact ⟨fun h => by rw [h]; rfl, fun h => BitVec.eq_of_toNat_eq (by simpa using h)⟩

theorem wordBase_of_aligned {a : Addr} (h : a.toNat % 4 = 0) : wordBase a = a := by
  apply BitVec.eq_of_toNat_eq
  rw [toNat_wordBase]
  omega

@[simp] theorem wordBase_wordBase (a : Addr) : wordBase (wordBase a) = wordBase a :=
  wordBase_of_aligned (by rw [toNat_wordBase]; omega)

theorem wordBase_eq_iff {a b : Addr} : wordBase a = wordBase b ↔ a.toNat / 4 = b.toNat / 4 := by
  rw [← BitVec.toNat_inj, toNat_wordBase, toNat_wordBase]
  omega

theorem toNat_hostByte (a : Addr) :
    (hostByte a).toNat = a.toNat / 4 * 4 + (3 - a.toNat % 4) := by
  have hsub : (3#32 - (a &&& 3#32)).toNat = 3 - a.toNat % 4 := by
    have h3 := toNat_and_three a
    rw [BitVec.toNat_sub_of_le]
    · rw [h3]; rfl
    · rw [BitVec.le_def, h3]
      simp only [BitVec.toNat_ofNat]
      omega
  have hbase : (a &&& ~~~3#32).toNat = a.toNat / 4 * 4 := toNat_wordBase a
  have hor := Bits.toNat_or_of_disjoint (a := a &&& ~~~3#32) (b := 3#32 - (a &&& 3#32)) (k := 2)
    (by rw [hbase]; omega) (by rw [hsub]; omega)
  rw [hostByte, hor, hbase, hsub]

theorem toNat_xor_two {a : Addr} (h : a.toNat % 2 = 0) :
    (a ^^^ 2#32).toNat = a.toNat / 4 * 4 + (2 - a.toNat % 4) := by
  have h3 : a &&& 3#32 = 0#32 ∨ a &&& 3#32 = 2#32 := by
    have hk : a.toNat % 4 = 0 ∨ a.toNat % 4 = 2 := by omega
    refine hk.imp (fun hk => and_three_eq_zero.2 hk) fun hk => ?_
    apply BitVec.eq_of_toNat_eq
    rw [toNat_and_three, hk]
    rfl
  -- Only the two low bits take part in the exclusive or.
  have hsplit : a ^^^ 2#32 = (a &&& ~~~3#32) ||| ((a &&& 3#32) ^^^ 2#32) := by
    apply BitVec.eq_of_getLsbD_eq
    intro i hi
    rw [three_eq_lowMask]
    by_cases h2 : i < 2
    · simp [hi, h2]
    · have hbit : (2#32).getLsbD i = false := by
        rw [BitVec.getLsbD_ofNat, Nat.testBit_lt_two_pow (lt_of_lt_of_le (by decide)
          (Nat.pow_le_pow_right (by decide : 0 < 2) (by omega : 2 ≤ i))), Bool.and_false]
      simp only [BitVec.getLsbD_xor, BitVec.getLsbD_or, BitVec.getLsbD_and, BitVec.getLsbD_not,
        Bits.getLsbD_lowMask, hbit]
      simp [hi, h2]
  have hbase : (a &&& ~~~3#32).toNat = a.toNat / 4 * 4 := toNat_wordBase a
  have hlow := toNat_and_three a
  rw [hsplit, Bits.toNat_or_of_disjoint (k := 2) (by rw [hbase]; omega), hbase]
  · rcases h3 with h3 | h3 <;> rw [h3] at hlow ⊢ <;> rw [← hlow] <;> rfl
  · rcases h3 with h3 | h3 <;> rw [h3] <;> decide

/-! ### Words and their fields -/

theorem getLsbD_simmemRead32 (m : Bytes) (p : Addr) {i : ℕ} (hi : i < 32) :
    (simmemRead32 m p).getLsbD i = (m (p + BitVec.ofNat 32 (i / 8))).getLsbD (i % 8) := by
  have hq : i / 8 = 0 ∨ i / 8 = 1 ∨ i / 8 = 2 ∨ i / 8 = 3 := by omega
  unfold simmemRead32
  rcases hq with hq | hq | hq | hq <;> rw [hq] <;> simp only [BitVec.getLsbD_append]
  · rw [if_pos (by omega), show i % 8 = i by omega]
    simp
  · rw [if_neg (by omega), if_pos (by omega), show i % 8 = i - 8 by omega]
  · rw [if_neg (by omega), if_neg (by omega), if_pos (by omega), show i % 8 = i - 8 - 8 by omega]
  · rw [if_neg (by omega), if_neg (by omega), if_neg (by omega),
      show i % 8 = i - 8 - 8 - 8 by omega]

theorem toNat_add_lt {p : Addr} {j : ℕ} (hp : p.toNat % 4 = 0) (hj : j < 4) :
    (p + BitVec.ofNat 32 j).toNat = p.toNat + j := by
  have := p.isLt
  rw [BitVec.toNat_add, BitVec.toNat_ofNat]
  omega

theorem toNat_wordBase_add (a : Addr) {j : ℕ} (hj : j < 4) :
    (wordBase a + BitVec.ofNat 32 j).toNat = a.toNat / 4 * 4 + j := by
  rw [toNat_add_lt (by rw [toNat_wordBase]; omega) hj, toNat_wordBase]

theorem hostByte_eq (a : Addr) : hostByte a = wordBase a + BitVec.ofNat 32 (3 - a.toNat % 4) := by
  apply BitVec.eq_of_toNat_eq
  rw [toNat_hostByte, toNat_wordBase_add a (by omega)]

theorem getLsbD_wordAt (m : Bytes) (a : Addr) {i : ℕ} (hi : i < 32) :
    (wordAt m a).getLsbD i = (m (wordBase a + BitVec.ofNat 32 (i / 8))).getLsbD (i % 8) :=
  getLsbD_simmemRead32 m _ hi

theorem ext_wordAt {m n : Bytes} (h : ∀ a, wordAt m a = wordAt n a) : m = n := by
  funext a
  apply BitVec.eq_of_getLsbD_eq
  intro i hi
  have hbit := congrArg (fun x => BitVec.getLsbD x (8 * (a.toNat % 4) + i)) (h a)
  have hdiv : (8 * (a.toNat % 4) + i) / 8 = a.toNat % 4 := by omega
  have hmod : (8 * (a.toNat % 4) + i) % 8 = i := by omega
  have hself : wordBase a + BitVec.ofNat 32 (a.toNat % 4) = a := by
    apply BitVec.eq_of_toNat_eq
    rw [toNat_wordBase_add a (by omega)]
    omega
  simp only [getLsbD_wordAt _ _ (show 8 * (a.toNat % 4) + i < 32 by omega), hdiv, hmod,
    hself] at hbit
  exact hbit

/-- **A byte read is a field of the enclosing word.** -/
theorem simmemRead8_eq (m : Bytes) (a : Addr) :
    simmemRead8 m a = (wordAt m a).extractLsb' (8 * (3 - a.toNat % 4)) 8 := by
  apply BitVec.eq_of_getLsbD_eq
  intro i hi
  have hdiv : (8 * (3 - a.toNat % 4) + i) / 8 = 3 - a.toNat % 4 := by omega
  have hmod : (8 * (3 - a.toNat % 4) + i) % 8 = i := by omega
  rw [BitVec.getLsbD_extractLsb', getLsbD_wordAt m a (by omega), hdiv, hmod, simmemRead8,
    hostByte_eq]
  simp [hi]

/-- **A half-word read is a field of the enclosing word.** -/
theorem simmemRead16_eq (m : Bytes) {a : Addr} (ha : a.toNat % 2 = 0) :
    simmemRead16 m a = (wordAt m a).extractLsb' (8 * (2 - a.toNat % 4)) 16 := by
  have hbase : a ^^^ 2#32 = wordBase a + BitVec.ofNat 32 (2 - a.toNat % 4) := by
    apply BitVec.eq_of_toNat_eq
    rw [toNat_xor_two ha, toNat_wordBase_add a (by omega)]
  have hsucc : (a ^^^ 2#32) + 1#32 = wordBase a + BitVec.ofNat 32 (3 - a.toNat % 4) := by
    apply BitVec.eq_of_toNat_eq
    rw [hbase, BitVec.add_assoc, show BitVec.ofNat 32 (2 - a.toNat % 4) + 1#32 =
      BitVec.ofNat 32 (3 - a.toNat % 4) from ?_]
    rw [show 3 - a.toNat % 4 = 2 - a.toNat % 4 + 1 by omega]
    simp [BitVec.ofNat_add]
  apply BitVec.eq_of_getLsbD_eq
  intro i hi
  rw [BitVec.getLsbD_extractLsb', getLsbD_wordAt m a (by omega), simmemRead16, hsucc, hbase,
    BitVec.getLsbD_append]
  by_cases h8 : i < 8
  · have hdiv : (8 * (2 - a.toNat % 4) + i) / 8 = 2 - a.toNat % 4 := by omega
    have hmod : (8 * (2 - a.toNat % 4) + i) % 8 = i := by omega
    rw [hdiv, hmod, if_pos h8]
    simp [hi]
  · have hdiv : (8 * (2 - a.toNat % 4) + i) / 8 = 3 - a.toNat % 4 := by omega
    have hmod : (8 * (2 - a.toNat % 4) + i) % 8 = i - 8 := by omega
    rw [hdiv, hmod, if_neg h8]
    simp [hi]

/-- A byte address lies in the word at `b` exactly when it is one of that word's four bytes. -/
theorem wordBase_add_eq_iff {a b : Addr} {j : ℕ} (hj : j < 4) :
    wordBase b + BitVec.ofNat 32 j = a ↔ wordBase b = wordBase a ∧ a.toNat % 4 = j := by
  rw [← BitVec.toNat_inj, toNat_wordBase_add b hj, wordBase_eq_iff]
  omega

/-- **A byte write replaces its field of the enclosing word.** -/
theorem wordAt_simmemWrite8 (m : Bytes) (a b : Addr) (v : Byte) :
    wordAt (simmemWrite8 m a v) b =
      if wordBase b = wordBase a then
        Bits.insertField (wordAt m b) (8 * (3 - a.toNat % 4)) v
      else wordAt m b := by
  have hhost : wordBase (hostByte a) = wordBase a := by
    rw [wordBase_eq_iff, toNat_hostByte]
    omega
  have hlow : (hostByte a).toNat % 4 = 3 - a.toNat % 4 := by
    rw [toNat_hostByte]
    omega
  apply BitVec.eq_of_getLsbD_eq
  intro i hi
  simp only [getLsbD_wordAt _ _ hi, simmemWrite8, Function.update_apply,
    wordBase_add_eq_iff (show i / 8 < 4 by omega), hhost, hlow]
  by_cases hb : wordBase b = wordBase a
  · rw [if_pos hb, Bits.getLsbD_insertField _ _ _ hi]
    by_cases hf : 3 - a.toNat % 4 = i / 8
    · rw [if_pos ⟨hb, hf⟩, if_pos (by omega), show i - 8 * (3 - a.toNat % 4) = i % 8 by omega]
    · rw [if_neg (fun h => hf h.2), if_neg (by omega), getLsbD_wordAt _ _ hi]
  · rw [if_neg (fun h => hb h.1), if_neg hb, getLsbD_wordAt _ _ hi]

/-- **A half-word write replaces its field of the enclosing word.** -/
theorem wordAt_simmemWrite16 (m : Bytes) {a : Addr} (ha : a.toNat % 2 = 0) (b : Addr) (v : Half) :
    wordAt (simmemWrite16 m a v) b =
      if wordBase b = wordBase a then
        Bits.insertField (wordAt m b) (8 * (2 - a.toNat % 4)) v
      else wordAt m b := by
  have hlo : wordBase (a ^^^ 2#32) = wordBase a ∧ (a ^^^ 2#32).toNat % 4 = 2 - a.toNat % 4 := by
    rw [wordBase_eq_iff, toNat_xor_two ha]
    omega
  have hhi : wordBase ((a ^^^ 2#32) + 1#32) = wordBase a ∧
      ((a ^^^ 2#32) + 1#32).toNat % 4 = 3 - a.toNat % 4 := by
    have h1 : ((a ^^^ 2#32) + 1#32).toNat = a.toNat / 4 * 4 + (3 - a.toNat % 4) := by
      have := a.isLt
      rw [BitVec.toNat_add, toNat_xor_two ha]
      simp only [BitVec.toNat_ofNat]
      omega
    rw [wordBase_eq_iff, h1]
    omega
  apply BitVec.eq_of_getLsbD_eq
  intro i hi
  simp only [getLsbD_wordAt _ _ hi, simmemWrite16, wordBase_add_eq_iff (show i / 8 < 4 by omega),
    hlo.1, hlo.2, hhi.1, hhi.2]
  by_cases hb : wordBase b = wordBase a
  · rw [if_pos hb, Bits.getLsbD_insertField _ _ _ hi]
    by_cases hf : 2 - a.toNat % 4 = i / 8
    · rw [if_pos ⟨hb, hf⟩, if_pos (by omega), BitVec.getLsbD_extractLsb']
      simp [show i - 8 * (2 - a.toNat % 4) = i % 8 by omega, show i % 8 < 8 by omega]
    · by_cases hf' : 3 - a.toNat % 4 = i / 8
      · rw [if_neg (fun h => hf h.2), if_pos ⟨hb, hf'⟩, if_pos (by omega),
          BitVec.getLsbD_extractLsb']
        simp [show i - 8 * (2 - a.toNat % 4) = 8 + i % 8 by omega, show i % 8 < 8 by omega]
      · rw [if_neg (fun h => hf h.2), if_neg (fun h => hf' h.2), if_neg (by omega),
          getLsbD_wordAt _ _ hi]
  · rw [if_neg (fun h => hb h.1), if_neg (fun h => hb h.1), if_neg hb, getLsbD_wordAt _ _ hi]

/-- **A word write replaces the word.** -/
theorem wordAt_simmemWrite32 (m : Bytes) {a : Addr} (ha : a.toNat % 4 = 0) (b : Addr) (v : Word) :
    wordAt (simmemWrite32 m a v) b = if wordBase b = wordBase a then v else wordAt m b := by
  have hoff : ∀ j < 4, wordBase (a + BitVec.ofNat 32 j) = wordBase a ∧
      (a + BitVec.ofNat 32 j).toNat % 4 = j := by
    intro j hj
    rw [wordBase_eq_iff, toNat_add_lt ha hj]
    omega
  apply BitVec.eq_of_getLsbD_eq
  intro i hi
  have hq : i / 8 < 4 := by omega
  have h1 := hoff 1 (by decide)
  have h2 := hoff 2 (by decide)
  have h3 := hoff 3 (by decide)
  simp only [getLsbD_wordAt _ _ hi, simmemWrite32, wordBase_add_eq_iff hq, h1.1, h1.2, h2.1, h2.2,
    h3.1, h3.2, ha]
  by_cases hb : wordBase b = wordBase a
  · simp only [hb, true_and, if_true]
    have hcase : i / 8 = 0 ∨ i / 8 = 1 ∨ i / 8 = 2 ∨ i / 8 = 3 := by omega
    have hlt : i % 8 < 8 := by omega
    rcases hcase with h | h | h | h
    · simp [h, show i % 8 = i by omega, show i < 8 by omega]
    · simp [h, hlt, show 8 + i % 8 = i by omega]
    · simp [h, hlt, show 16 + i % 8 = i by omega]
    · simp [h, hlt, show 24 + i % 8 = i by omega]
  · simp [hb, getLsbD_wordAt _ _ hi]

end Or1ksim
