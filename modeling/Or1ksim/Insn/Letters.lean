import Or1ksim.Insn.Operands
import Or1ksim.Lib.Gather

/-!
# Where the letters of an operand lie

Both readings of an encoding string are described by `letterPositions`, the bit positions of a
letter from the top down:

* `getLsbD_insnExtract` — `insn_extract` sets exactly these bits;
* `or32Extract_eq_gather` — `or1ksim_or32_extract` gathers them;
* `positions_splitArg` — the pieces `parse_params` splits a mask into cover them;
* `numOnes_insnExtract` — `num_ones` counts them.
-/

namespace Or1ksim
namespace Insn

open Decoder (Encoding insnExtract insnExtractFrom)
open Gather Scan

/-- The bit positions of `l` in an encoding, in the order of the text. -/
def letterPositionsFrom (l : Char) : Encoding → ℕ → ℕ → List ℕ
  | [], _, _ => []
  | _ :: cs, skip + 1, opcPos => letterPositionsFrom l cs skip opcPos
  | c :: cs, 0, opcPos =>
    if c = '0' ∧ cs.head? = some 'x' then letterPositionsFrom l cs 2 (opcPos - 4)
    else if c = '0' || c = '1' || c = '-' || isAlpha c then
      if l = c then (opcPos - 1) :: letterPositionsFrom l cs 0 (opcPos - 1)
      else letterPositionsFrom l cs 0 (opcPos - 1)
    else letterPositionsFrom l cs 0 opcPos

/-- The bit positions of `l` in an instruction word. -/
def letterPositions (l : Char) (enc : Encoding) : List ℕ := letterPositionsFrom l enc 0 32

/-- A character that can stand for an operand in an encoding. -/
def IsOperandLetter (l : Char) : Prop := isAlpha l = true ∧ isLower l = false

instance (l : Char) : Decidable (IsOperandLetter l) := inferInstanceAs (Decidable (_ ∧ _))

theorem IsOperandLetter.ne_zero {l : Char} (h : IsOperandLetter l) : l ≠ '0' := by
  rintro rfl
  exact absurd h.1 (by decide)

theorem IsOperandLetter.ne_one {l : Char} (h : IsOperandLetter l) : l ≠ '1' := by
  rintro rfl
  exact absurd h.1 (by decide)

section Extract

variable {W : ℕ} {l : Char}

theorem getLsbD_signExtend_one_shiftLeft (hW : 32 ≤ W) {p : ℕ} (hp : p < 31) (i : ℕ) :
    ((1#32 <<< p).signExtend W).getLsbD i = decide (i = p) := by
  rw [BitVec.getLsbD_signExtend, BitVec.msb_eq_getLsbD_last]
  have h31 : 31 - p ≠ 0 := by omega
  by_cases hi : i < 32
  · rcases Nat.lt_trichotomy i p with h | rfl | h
    · simp [hi, h, Nat.ne_of_lt h]
    · simp [hi]
      omega
    · have h0 : i - p ≠ 0 := by omega
      simp [hi, h0, Nat.ne_of_gt h]
  · have hne : i ≠ p := by omega
    simp [hi, hne, h31]

/-- The loop of `insn_extract` adds the positions of the letter to what it has. -/
theorem getLsbD_insnExtractFrom (hW : 32 ≤ W) (hl : IsOperandLetter l) (i : ℕ) :
    ∀ (enc : Encoding) (skip opcPos : ℕ) (ret : BitVec W),
      (∀ p ∈ letterPositionsFrom l enc skip opcPos, p < 31) →
      (insnExtractFrom W l enc skip opcPos ret).getLsbD i =
        (ret.getLsbD i || decide (i ∈ letterPositionsFrom l enc skip opcPos)) := by
  intro enc
  induction enc with
  | nil => simp [insnExtractFrom, letterPositionsFrom]
  | cons c cs ih =>
    intro skip opcPos ret hp
    cases skip with
    | succ skip => exact ih skip opcPos ret hp
    | zero =>
      rw [insnExtractFrom, letterPositionsFrom]
      rw [letterPositionsFrom] at hp
      split_ifs at hp ⊢ with hx h0 h1 hc hlc
      · exact absurd h0 hl.ne_zero
      · exact absurd h1 hl.ne_one
      · exact ih _ _ _ hp
      · rw [ih _ _ _ fun p h => hp p (List.mem_cons_of_mem _ h), BitVec.getLsbD_or,
          getLsbD_signExtend_one_shiftLeft hW (hp _ List.mem_cons_self)]
        simp [Bool.or_assoc]
      · exact ih _ _ _ hp
      · exact ih _ _ _ hp

theorem getLsbD_insnExtract (hW : 32 ≤ W) (hl : IsOperandLetter l) {enc : Encoding}
    (hp : ∀ p ∈ letterPositions l enc, p < 31) (i : ℕ) :
    (insnExtract W l enc).getLsbD i = decide (i ∈ letterPositions l enc) := by
  have h0 : (0 : BitVec W).getLsbD i = false := by simp
  rw [insnExtract, getLsbD_insnExtractFrom hW hl i enc 0 32 0 hp, h0, Bool.false_or]
  rfl

/-- The loop of `or1ksim_or32_extract` adds the gathered bits to what it has, when it starts
with the right number of bits to come. -/
theorem or32ExtractFrom_eq (hl : IsOperandLetter l) (insn : BitVec W) :
    ∀ (enc : Encoding) (skip opcPos paramPos : ℕ) (ret : BitVec W),
      paramPos = (letterPositionsFrom l enc skip opcPos).length →
      or32ExtractFrom l insn enc skip opcPos paramPos ret =
        ret + gather insn (letterPositionsFrom l enc skip opcPos) := by
  intro enc
  induction enc with
  | nil => simp [or32ExtractFrom, letterPositionsFrom, gather]
  | cons c cs ih =>
    intro skip opcPos paramPos ret hn
    cases skip with
    | succ skip => exact ih skip opcPos paramPos ret hn
    | zero =>
      rw [or32ExtractFrom, letterPositionsFrom]
      rw [letterPositionsFrom] at hn
      by_cases hx : c = '0' ∧ cs.head? = some 'x'
      · simp only [hx, and_self, if_true] at hn ⊢
        simpa [hl.ne_zero, hl.ne_one] using ih 2 (opcPos - 4) paramPos ret hn
      simp only [hx, if_false] at hn ⊢
      by_cases h01 : c = '0' ∨ c = '1'
      · have hne : l ≠ c := by
          rintro rfl
          exact h01.elim hl.ne_zero hl.ne_one
        have hcls : (c = '0' || c = '1' || c = '-' || isAlpha c) = true := by
          rcases h01 with rfl | rfl <;> rfl
        simp only [hcls, if_true, hne, if_false] at hn ⊢
        rw [if_pos h01]
        exact ih 0 (opcPos - 1) paramPos ret hn
      rw [if_neg h01]
      by_cases hlc : c = l
      · subst hlc
        have hcls : (c = '0' || c = '1' || c = '-' || isAlpha c) = true := by simp [hl.1]
        simp only [hcls, if_true] at hn ⊢
        rw [List.length_cons] at hn
        rw [hl.2, ih 0 (opcPos - 1) (paramPos - 1) _ (by omega), gather, hn]
        simp [BitVec.add_assoc]
      · simp only [hlc, if_false, Ne.symm hlc] at hn ⊢
        by_cases hcls : isAlpha c = true ∨ c = '-'
        · have hcls' : (c = '0' || c = '1' || c = '-' || isAlpha c) = true := by
            rcases hcls with h | h <;> simp [h]
          rw [if_pos hcls] at *
          simp only [hcls', if_true] at hn ⊢
          exact ih 0 (opcPos - 1) paramPos ret hn
        · have hcls' : (c = '0' || c = '1' || c = '-' || isAlpha c) = false := by
            simp only [not_or] at h01 hcls
            simp [h01, hcls]
          rw [if_neg hcls]
          simp only [hcls', Bool.false_eq_true, if_false] at hn ⊢
          exact ih 0 opcPos paramPos ret hn

theorem or32Extract_eq_gather (hl : IsOperandLetter l) {enc : Encoding}
    (hn : paramCount l enc none none 0 = (letterPositions l enc).length) (insn : BitVec W) :
    or32Extract l enc insn = gather insn (letterPositions l enc) := by
  rw [or32Extract, or32ExtractFrom_eq hl insn enc 0 32 _ 0 hn]
  simp [letterPositions]

end Extract

/-! ### Splitting a mask into pieces -/

section Split

variable {W : ℕ}

/-- The bits an operand piece takes: where it starts and how many there are. -/
def InsnOp.field (o : InsnOp) : ℕ × ℕ := (o.type.shr.toNat, o.data)

theorem ushiftRight_and_one_eq_zero_iff (arg : BitVec W) (s : ℕ) :
    (arg >>> s) &&& 1 = 0 ↔ arg.getLsbD s = false := by
  rw [and_one_eq_zero_iff, BitVec.getLsbD_ushiftRight, Nat.add_zero]

/-- `skip_zeros` stops at the lowest set bit from `shr` on. -/
theorem skipZeros_spec (arg : BitVec W) : ∀ (k shr : ℕ),
    (∃ i, shr ≤ i ∧ i < shr + k ∧ arg.getLsbD i = true) →
      shr ≤ skipZeros arg k shr ∧ arg.getLsbD (skipZeros arg k shr) = true ∧
        ∀ i, shr ≤ i → arg.getLsbD i = true → skipZeros arg k shr ≤ i := by
  intro k
  induction k with
  | zero =>
    rintro shr ⟨i, h1, h2, -⟩
    omega
  | succ k ih =>
    rintro shr ⟨i, h1, h2, hi⟩
    rw [skipZeros]
    split_ifs with hz
    · rw [ushiftRight_and_one_eq_zero_iff] at hz
      have hne : i ≠ shr := by
        rintro rfl
        simp [hz] at hi
      obtain ⟨hle, hset, hmin⟩ := ih (shr + 1) ⟨i, by omega, by omega, hi⟩
      refine ⟨by omega, hset, fun j hj hjset => hmin j ?_ hjset⟩
      have hjne : j ≠ shr := by
        rintro rfl
        simp [hz] at hjset
      omega
    · rw [ushiftRight_and_one_eq_zero_iff, Bool.not_eq_false] at hz
      exact ⟨le_refl _, hz, fun j hj _ => hj⟩

theorem countOnes_spec (arg : BitVec W) (shr : ℕ) : ∀ (k mask : ℕ), W ≤ shr + mask + k →
    mask ≤ countOnes arg shr k mask ∧
      (∀ i, mask ≤ i → i < countOnes arg shr k mask → arg.getLsbD (shr + i) = true) ∧
      arg.getLsbD (shr + countOnes arg shr k mask) = false := by
  intro k
  induction k with
  | zero =>
    intro mask hk
    exact ⟨le_refl _, fun i h1 h2 => absurd h2 (Nat.not_lt_of_le h1),
      BitVec.getLsbD_of_ge _ _ (by simpa [countOnes] using hk)⟩
  | succ k ih =>
    intro mask hk
    rw [countOnes]
    split_ifs with hz
    · rw [ushiftRight_and_one_eq_zero_iff] at hz
      exact ⟨le_refl _, fun i h1 h2 => absurd h2 (Nat.not_lt_of_le h1), hz⟩
    · rw [ushiftRight_and_one_eq_zero_iff, Bool.not_eq_false] at hz
      obtain ⟨hle, hones, hend⟩ := ih (mask + 1) (by omega)
      refine ⟨by omega, fun i h1 h2 => ?_, hend⟩
      rcases Nat.eq_or_lt_of_le h1 with rfl | h1
      · exact hz
      · exact hones i h1 h2

theorem one_shiftLeft_sub_one (k : ℕ) : (1#32 <<< k) - 1 = Bits.lowMask 32 k := by
  apply BitVec.eq_of_toNat_eq
  rw [BitVec.toNat_sub, BitVec.toNat_shiftLeft, Bits.lowMask, BitVec.toNat_ofNat]
  rcases Nat.lt_or_ge k 32 with h | h
  · have h1 : 2 ^ k < 2 ^ 32 := Nat.pow_lt_pow_right (by decide) h
    have h0 : 0 < 2 ^ k := Nat.two_pow_pos k
    simp [Nat.shiftLeft_eq]
    omega
  · obtain ⟨j, rfl⟩ := Nat.exists_eq_add_of_le h
    simp [Nat.shiftLeft_eq, Nat.pow_add]
    have h0 : 0 < 2 ^ j := Nat.two_pow_pos j
    omega

/-- The mask of a run that stays below the sign bit of an `int`. -/
theorem getLsbD_runMask (hW : 32 ≤ W) {shr mask : ℕ} (h : shr + mask < 32) (i : ℕ) :
    ((((1#32 <<< mask) - 1) <<< shr).signExtend W).getLsbD i =
      (decide (shr ≤ i) && decide (i < shr + mask)) := by
  rw [one_shiftLeft_sub_one, BitVec.getLsbD_signExtend, BitVec.msb_eq_getLsbD_last]
  have h31 : ¬31 - shr < mask := by omega
  by_cases hi : i < 32
  · rcases Nat.lt_or_ge i shr with hs | hs
    · simp [hi, hs, Nat.not_le_of_lt hs]
    · have h1 : (i - shr < mask) = (i < shr + mask) := by
        apply propext
        omega
      simp [hi, hs, h1, Nat.not_lt_of_le hs]
      omega
  · have h2 : ¬i < shr + mask := by omega
    simp [hi, h2, h31]

/-- The run of ones that a round of the splitting loop finds is the lowest one. -/
theorem lowestRun_spec (hW : 32 ≤ W) {lo : ℕ} {arg : BitVec W} (hne : arg ≠ 0)
    (hbits : ∀ i, arg.getLsbD i = true → lo ≤ i ∧ i < 31) {shr mask : ℕ}
    (hs : shr = skipZeros arg W 0) (hm : mask = countOnes arg shr W 0) :
    lo ≤ shr ∧ 0 < mask ∧ shr + mask ≤ 31 ∧
      (∀ i, shr ≤ i → i < shr + mask → arg.getLsbD i = true) ∧
      ∀ i, arg.getLsbD i = true → shr ≤ i := by
  obtain ⟨i₀, hi₀⟩ : ∃ i, arg.getLsbD i = true := by
    by_contra hno
    refine hne (BitVec.eq_of_getLsbD_eq fun i _ => ?_)
    simpa using fun h => hno ⟨i, h⟩
  have hlt : i₀ < 0 + W := by
    have := hbits i₀ hi₀
    omega
  obtain ⟨-, hset, hmin⟩ := skipZeros_spec arg W 0 ⟨i₀, Nat.zero_le _, hlt, hi₀⟩
  rw [← hs] at hset hmin
  obtain ⟨-, hones, hend⟩ := countOnes_spec arg shr W 0 (by omega)
  rw [← hm] at hones hend
  have hpos : 0 < mask := by
    rcases Nat.eq_zero_or_pos mask with h0 | h0
    · rw [h0, Nat.add_zero, hset] at hend
      cases hend
    · exact h0
  have hrun := hbits (shr + (mask - 1)) (hones (mask - 1) (by omega) (by omega))
  refine ⟨(hbits shr hset).1, hpos, by omega, fun i h1 h2 => ?_, fun i => hmin i (Nat.zero_le i)⟩
  have h3 := hones (i - shr) (Nat.zero_le _) (by omega)
  rwa [Nat.add_sub_cancel' h1] at h3

theorem getLsbD_and_not_runMask (hW : 32 ≤ W) {arg : BitVec W} {shr mask : ℕ}
    (h31 : shr + mask ≤ 31) (hmin : ∀ i, arg.getLsbD i = true → shr ≤ i) (i : ℕ) :
    (arg &&& ~~~((((1#32 <<< mask) - 1) <<< shr).signExtend W)).getLsbD i = true ↔
      arg.getLsbD i = true ∧ shr + mask ≤ i := by
  by_cases hi : arg.getLsbD i = true
  · have hiW : i < W := by
      by_contra hge
      rw [BitVec.getLsbD_of_ge _ _ (by omega)] at hi
      cases hi
    rw [BitVec.getLsbD_and, BitVec.getLsbD_not, getLsbD_runMask hW (by omega)]
    simp [hi, hmin i hi, hiW]
  · rw [BitVec.getLsbD_and]
    simp [hi]

theorem shr_or_ofNat {type : OpType} (htype : type.shr = 0) {shr : ℕ} (h : shr < 32) :
    (type ||| { shr := BitVec.ofNat 5 shr } : OpType).shr.toNat = shr := by
  change (type.shr ||| BitVec.ofNat 5 shr).toNat = shr
  rw [htype]
  simpa using h

/-- The pieces of a mask cover its bits, in ascending order.  `lo` bounds the bits from below; it
moves past a run with every piece, so that the rounds cannot run out. -/
theorem splitArg_covers (hW : 32 ≤ W) (type : OpType) (htype : type.shr = 0) :
    ∀ (k lo : ℕ) (arg : BitVec W), W ≤ lo + k →
      (∀ i, arg.getLsbD i = true → lo ≤ i ∧ i < 31) →
      (∀ i, i ∈ positions ((splitArg type k arg).map InsnOp.field) ↔ arg.getLsbD i = true) ∧
        (positions ((splitArg type k arg).map InsnOp.field)).Pairwise (· < ·) := by
  intro k
  induction k with
  | zero =>
    intro lo arg hk hbits
    refine ⟨fun i => ?_, List.Pairwise.nil⟩
    simp only [splitArg, List.map_nil, positions_nil, List.not_mem_nil, false_iff]
    intro hi
    have := hbits i hi
    omega
  | succ k ih =>
    intro lo arg hk hbits
    rw [splitArg]
    split_ifs with hz
    · subst hz
      exact ⟨fun i => by simp, List.Pairwise.nil⟩
    · dsimp only
      generalize hs : skipZeros arg W 0 = shr
      generalize hm : countOnes arg shr W 0 = mask
      obtain ⟨hlo, hpos, h31, hones, hmin⟩ := lowestRun_spec hW hz hbits hs.symm hm.symm
      have hrest := getLsbD_and_not_runMask hW h31 hmin
      obtain ⟨hmem, hsorted⟩ := ih (shr + mask)
        (arg &&& ~~~((((1#32 <<< mask) - 1) <<< shr).signExtend W)) (by omega) fun i hi =>
          ⟨((hrest i).1 hi).2, (hbits i ((hrest i).1 hi).1).2⟩
      simp only [List.map_cons, InsnOp.field, shr_or_ofNat htype (show shr < 32 by omega),
        positions_cons]
      refine ⟨fun i => ?_, List.pairwise_append.2 ⟨List.pairwise_lt_range', hsorted, ?_⟩⟩
      · rw [List.mem_append, hmem, hrest, List.mem_range'_1]
        constructor
        · rintro (⟨h1, h2⟩ | ⟨h1, -⟩)
          · exact hones i h1 h2
          · exact h1
        · intro hi
          by_cases h2 : i < shr + mask
          · exact .inl ⟨hmin i hi, h2⟩
          · exact .inr ⟨hi, Nat.le_of_not_lt h2⟩
      · intro a ha b hb
        rw [List.mem_range'_1] at ha
        rw [hmem, hrest] at hb
        omega

/-- **The pieces of an operand** are its positions from the bottom up. -/
theorem positions_splitArg (hW : 32 ≤ W) {type : OpType} (htype : type.shr = 0) {l : Char}
    (hl : IsOperandLetter l) {enc : Encoding} (hp : ∀ p ∈ letterPositions l enc, p < 31)
    (hdesc : (letterPositions l enc).Pairwise (· > ·)) :
    positions ((splitArg type W (insnExtract W l enc)).map InsnOp.field) =
      (letterPositions l enc).reverse := by
  have hbits : ∀ i, (insnExtract W l enc).getLsbD i = true ↔ i ∈ letterPositions l enc := by
    intro i
    rw [getLsbD_insnExtract hW hl hp, decide_eq_true_eq]
  obtain ⟨hmem, hsorted⟩ := splitArg_covers hW type htype W 0 (insnExtract W l enc) (by omega)
    fun i hi => ⟨Nat.zero_le i, hp i ((hbits i).1 hi)⟩
  have hrev : (letterPositions l enc).reverse.Pairwise (· < ·) := List.pairwise_reverse.2 hdesc
  have hperm : (positions ((splitArg type W (insnExtract W l enc)).map InsnOp.field)).Perm
      (letterPositions l enc).reverse :=
    (List.perm_ext_iff_of_nodup (hsorted.imp Nat.ne_of_lt) (hrev.imp Nat.ne_of_lt)).2 fun i => by
      rw [hmem, hbits, List.mem_reverse]
  exact hperm.eq_of_pairwise (fun a b _ _ hab hba => absurd hab (Nat.lt_asymm hba)) hsorted hrev

/-- The loop of `num_ones` counts the bits that `k` shifts bring down. -/
theorem numOnesFrom_eq : ∀ (k c : ℕ) (value : BitVec W),
    numOnesFrom k value c = c + (List.range k).countP value.getLsbD := by
  intro k
  induction k with
  | zero => simp [numOnesFrom]
  | succ k ih =>
    intro c value
    have hshift : (List.range k).countP (value >>> 1).getLsbD =
        ((List.range k).map Nat.succ).countP value.getLsbD := by
      rw [List.countP_map]
      refine List.countP_congr fun i _ => ?_
      rw [BitVec.getLsbD_ushiftRight, Function.comp_apply, Nat.succ_eq_add_one, Nat.add_comm]
    rw [numOnesFrom, ih, hshift, List.range_succ_eq_map, List.countP_cons]
    by_cases hz : value = 0
    · subst hz
      simp
    · rw [if_neg hz]
      cases hb : value.getLsbD 0 with
      | false =>
        rw [(and_one_eq_zero_iff value).2 hb]
        simp
      | true =>
        have hne : value &&& 1 ≠ 0 := by
          rw [ne_eq, and_one_eq_zero_iff, hb]
          decide
        rw [if_pos hne, if_pos rfl]
        omega

theorem numOnes_insnExtract (hW : 32 ≤ W) {l : Char} (hl : IsOperandLetter l) {enc : Encoding}
    (hp : ∀ p ∈ letterPositions l enc, p < 31)
    (hdesc : (letterPositions l enc).Pairwise (· > ·)) :
    numOnes (insnExtract W l enc) = (letterPositions l enc).length := by
  have hbits := getLsbD_insnExtract hW hl hp
  have hperm : ((List.range W).filter (insnExtract W l enc).getLsbD).Perm
      (letterPositions l enc) := by
    refine (List.perm_ext_iff_of_nodup (List.nodup_range.filter _)
      (hdesc.imp Nat.ne_of_gt)).2 fun i => ?_
    rw [List.mem_filter, hbits, decide_eq_true_eq, List.mem_range]
    constructor
    · exact fun h => h.2
    · intro h
      have := hp i h
      exact ⟨by omega, h⟩
  rw [numOnes, numOnesFrom_eq, Nat.zero_add, List.countP_eq_length_filter, hperm.length_eq]

end Split

end Insn
end Or1ksim
