import Or1ksim.Cpu.Run

/-!
# Matchpoints

The first part of `calculate_watchpoints` (`debug/debug-unit.c`): an access is compared with the
pairs of `SPR_DVR` and `SPR_DCR`.

* `matchpoint` — an entry of `mp`;
* `MatchHolds` — what `SPR_DCR` asks for;
* `matchpoint_iff` — when the one is the other.
-/

namespace Or1ksim
namespace Cpu

open Bits

/-! ### The registers -/

/-- `SPR_DVR`. -/
def sprDVR (i : Fin 8) : Regno := BitVec.ofNat 16 (0x3000 + i)
/-- `SPR_DCR`. -/
def sprDCR (i : Fin 8) : Regno := BitVec.ofNat 16 (0x3008 + i)

/-- `SPR_DCR_DP`. -/
def dcrDP : Word := 0x1
/-- `SPR_DCR_CC`. -/
def dcrCC : Word := 0xe
/-- `SPR_DCR_SC`. -/
def dcrSC : Word := 0x10
/-- `SPR_DCR_CT`. -/
def dcrCT : Word := 0xe0

/-- `SPR_DCR_CC_MASKED`. -/
def ccMASKED : Word := 0x0
/-- `SPR_DCR_CC_EQUAL`. -/
def ccEQUAL : Word := 0x2
/-- `SPR_DCR_CC_LESS`. -/
def ccLESS : Word := 0x4
/-- `SPR_DCR_CC_LESSE`. -/
def ccLESSE : Word := 0x6
/-- `SPR_DCR_CC_GREAT`. -/
def ccGREAT : Word := 0x8
/-- `SPR_DCR_CC_GREATE`. -/
def ccGREATE : Word := 0xa
/-- `SPR_DCR_CC_NEQUAL`. -/
def ccNEQUAL : Word := 0xc

/-- `SPR_DCR_CT_IFEA`. -/
def ctIFEA : Word := 0x20
/-- `SPR_DCR_CT_LEA`. -/
def ctLEA : Word := 0x40
/-- `SPR_DCR_CT_SEA`. -/
def ctSEA : Word := 0x60
/-- `SPR_DCR_CT_LD`. -/
def ctLD : Word := 0x80
/-- `SPR_DCR_CT_SD`. -/
def ctSD : Word := 0xa0
/-- `SPR_DCR_CT_LSEA`. -/
def ctLSEA : Word := 0xc0
/-- `SPR_DCR_CT_LSD`. -/
def ctLSD : Word := 0xe0

/-- `enum debug_unit_action`. -/
inductive Action where
  /-- `DebugInstructionFetch`. -/
  | instructionFetch
  /-- `DebugLoadAddress`. -/
  | loadAddress
  /-- `DebugStoreAddress`. -/
  | storeAddress
  /-- `DebugLoadData`. -/
  | loadData
  /-- `DebugStoreData`. -/
  | storeData
deriving DecidableEq, Repr

/-! ### Matchpoints -/

/-- The accesses that `SPR_DCR` compares to: `match_so_far`. -/
def compareTo (ct : Word) (action : Action) : Bool :=
  if ct = ctIFEA then action == .instructionFetch
  else if ct = ctLEA then action == .loadAddress
  else if ct = ctSEA then action == .storeAddress
  else if ct = ctLD then action == .loadData
  else if ct = ctSD then action == .storeData
  else if ct = ctLSEA then action == .loadAddress || action == .storeAddress
  else if ct = ctLSD then action == .loadData || action == .storeData
  else false

/-- The comparison of two words of the host, as an `unsigned char`. -/
def compareCond (lt le : BitVec 64 → BitVec 64 → Bool) (cc : Word) (op1 op2 : BitVec 64) :
    BitVec 8 :=
  let char (b : Bool) : BitVec 8 := if b then 1 else 0
  if cc = ccMASKED then (op1 &&& op2).setWidth 8
  else if cc = ccEQUAL then char (op1 == op2)
  else if cc = ccNEQUAL then char (op1 != op2)
  else if cc = ccLESS then char (lt op1 op2)
  else if cc = ccLESSE then char (le op1 op2)
  else if cc = ccGREAT then char (lt op2 op1)
  else if cc = ccGREATE then char (le op2 op1)
  else 0

/-- `mp[i]`. -/
def matchpoint (s : Sim) (action : Action) (udata : BitVec 64) (i : Fin 8) : BitVec 8 :=
  let dcr := s.sprs (sprDCR i)
  if dcr &&& dcrDP ≠ dcrDP then 0
  else if !compareTo (dcr &&& dcrCT) action then 0
  else
    let dvr := (s.sprs (sprDVR i)).setWidth 64
    if dcr &&& dcrSC = dcrSC then
      -- The operands are zero-extended, though `long`.
      compareCond BitVec.slt BitVec.sle (dcr &&& dcrCC) udata dvr
    else compareCond BitVec.ult BitVec.ule (dcr &&& dcrCC) udata dvr

/-- What the compare condition means: of 32-bit numbers, signed or not. -/
def condHolds (signed : Bool) (cc data dvr : Word) : Bool :=
  let lt (x y : Word) : Bool := if signed then x.slt y else x.ult y
  if cc = ccMASKED then data &&& dvr != 0
  else if cc = ccEQUAL then data == dvr
  else if cc = ccNEQUAL then data != dvr
  else if cc = ccLESS then lt data dvr
  else if cc = ccLESSE then !lt dvr data
  else if cc = ccGREAT then lt dvr data
  else if cc = ccGREATE then !lt data dvr
  else false

/-- The conditions that depend on the order. -/
def ordered (cc : Word) : Bool :=
  cc == ccLESS || cc == ccLESSE || cc == ccGREAT || cc == ccGREATE

/-- What the matchpoint is for: the pair is there, the access is of its class and the condition
holds. -/
def MatchHolds (dcr dvr : Word) (action : Action) (data : Word) : Prop :=
  dcr &&& dcrDP = dcrDP ∧ compareTo (dcr &&& dcrCT) action = true ∧
    condHolds (decide (dcr &&& dcrSC = dcrSC)) (dcr &&& dcrCC) data dvr = true

/-- The comparisons that come out right: a masked value that is not zero has a low byte that is not,
and values in a signed order have the same sign. -/
def ComparesRight (dcr dvr data : Word) : Prop :=
  (dcr &&& dcrCC = ccMASKED → data &&& dvr = 0 ∨ (data &&& dvr).setWidth 8 ≠ 0) ∧
    (dcr &&& dcrSC = dcrSC → ordered (dcr &&& dcrCC) = true → data.msb = dvr.msb)

section Matchpoint

variable {x y cc data dvr : Word}

theorem ult_setWidth (x y : Word) : (x.setWidth 64).ult (y.setWidth 64) = x.ult y := by
  simp only [BitVec.ult, BitVec.toNat_setWidth]
  congr 1
  have := x.isLt
  have := y.isLt
  rw [Nat.mod_eq_of_lt (by omega), Nat.mod_eq_of_lt (by omega)]

theorem msb_setWidth_word (x : Word) : (x.setWidth 64).msb = false := by
  rw [BitVec.msb_eq_decide, BitVec.toNat_setWidth]
  have := x.isLt
  have := Nat.mod_le x.toNat (2 ^ 64)
  exact decide_eq_false (by omega)

/-- Signed comparison of zero-extended values is unsigned comparison. -/
theorem slt_setWidth (x y : Word) : (x.setWidth 64).slt (y.setWidth 64) = x.ult y := by
  rw [BitVec.slt_eq_ult_of_msb_eq ((msb_setWidth_word x).trans (msb_setWidth_word y).symm),
    ult_setWidth]

theorem beq_setWidth {v w : ℕ} (hvw : v ≤ w) (x y : BitVec v) :
    (x.setWidth w == y.setWidth w) = (x == y) := by
  rw [Bool.eq_iff_iff, beq_iff_eq, beq_iff_eq]
  refine ⟨fun h => ?_, fun h => h ▸ rfl⟩
  have hback := congrArg (BitVec.setWidth v) h
  rwa [BitVec.setWidth_setWidth_of_le _ hvw, BitVec.setWidth_setWidth_of_le _ hvw,
    BitVec.setWidth_eq, BitVec.setWidth_eq] at hback

theorem ite_char_ne_zero (b : Bool) : (if b then (1 : BitVec 8) else 0) ≠ 0 ↔ b = true := by
  cases b <;> decide

/-- The comparison the code makes is one of unsigned numbers, but for the masked one. -/
theorem compareCond_ne_zero {lt le : BitVec 64 → BitVec 64 → Bool}
    (hlt : ∀ x y : Word, lt (x.setWidth 64) (y.setWidth 64) = x.ult y)
    (hle : ∀ x y, le x y = !lt y x) :
    compareCond lt le cc (data.setWidth 64) (dvr.setWidth 64) ≠ 0 ↔
      if cc = ccMASKED then (data &&& dvr).setWidth 8 ≠ 0
      else condHolds false cc data dvr = true := by
  unfold compareCond condHolds
  have hbeq : (data.setWidth 64 == dvr.setWidth 64) = (data == dvr) := beq_setWidth (by decide) _ _
  simp only [hle, hlt, bne, hbeq, Bool.false_eq_true, if_false]
  by_cases hmasked : cc = ccMASKED
  · rw [if_pos hmasked, if_pos hmasked, ← BitVec.setWidth_and,
      BitVec.setWidth_setWidth_of_le _ (by decide)]
  · rw [if_neg hmasked, if_neg hmasked, if_neg hmasked]
    -- The other conditions give zero or one.
    split
    · exact ite_char_ne_zero _
    split
    · exact ite_char_ne_zero _
    split
    · exact ite_char_ne_zero _
    split
    · exact ite_char_ne_zero _
    split
    · exact ite_char_ne_zero _
    split
    · exact ite_char_ne_zero _
    · exact iff_of_false (fun h => h rfl) Bool.false_ne_true

theorem slt_eq_ult_iff (x y : Word) : x.slt y = x.ult y ↔ x.msb = y.msb := by
  rw [BitVec.slt_eq_ult]
  cases x.msb <;> cases y.msb <;> cases x.ult y <;> decide

/-- A signed condition is the unsigned one exactly if the order does not matter or the signs are
the same. -/
theorem condHolds_signed_iff :
    condHolds true cc data dvr = condHolds false cc data dvr ↔
      (ordered cc = true → data.msb = dvr.msb) := by
  have hunordered : ∀ {c : Word} {P : Prop}, ordered c = false → (ordered c = true → P) := by
    intro c P h h'
    exact absurd (h.symm.trans h') Bool.false_ne_true
  have hswap : dvr.slt data = dvr.ult data ↔ data.msb = dvr.msb :=
    (slt_eq_ult_iff dvr data).trans eq_comm
  unfold condHolds
  simp only [if_true, Bool.false_eq_true, if_false]
  -- three codes without an order, four with one, and the codes that have no meaning
  split
  case isTrue h => exact iff_of_true rfl (hunordered (h ▸ rfl))
  split
  case isTrue h => exact iff_of_true rfl (hunordered (h ▸ rfl))
  split
  case isTrue h => exact iff_of_true rfl (hunordered (h ▸ rfl))
  split
  case isTrue h => rw [h, slt_eq_ult_iff, forall_prop_of_true (by decide)]
  split
  case isTrue h => rw [h, Bool.not_inj_iff, hswap, forall_prop_of_true (by decide)]
  split
  case isTrue h => rw [h, hswap, forall_prop_of_true (by decide)]
  split
  case isTrue h => rw [h, Bool.not_inj_iff, slt_eq_ult_iff, forall_prop_of_true (by decide)]
  case isFalse =>
    refine iff_of_true rfl (hunordered ?_)
    simp only [ordered, Bool.or_eq_false_iff, beq_eq_false_iff_ne]
    exact ⟨⟨⟨‹_›, ‹_›⟩, ‹_›⟩, ‹_›⟩

/-- The low byte of a masked value tells whether it is zero exactly if it is zero only with it. -/
theorem masked_iff {v : Word} :
    ((v.setWidth 8 ≠ 0) ↔ v ≠ 0) ↔ (v = 0 ∨ v.setWidth 8 ≠ 0) := by
  have hzero : v = 0 → v.setWidth 8 = 0 := by
    rintro rfl
    rfl
  tauto

/-- What a matchpoint compares, once its pair is there and the access is of its class. -/
theorem compare_iff (dcr data dvr : Word) :
    ((if dcr &&& dcrSC = dcrSC then
        compareCond BitVec.slt BitVec.sle (dcr &&& dcrCC) (data.setWidth 64) (dvr.setWidth 64)
      else compareCond BitVec.ult BitVec.ule (dcr &&& dcrCC) (data.setWidth 64)
        (dvr.setWidth 64)) ≠ 0 ↔
      condHolds (decide (dcr &&& dcrSC = dcrSC)) (dcr &&& dcrCC) data dvr = true) ↔
      ComparesRight dcr dvr data := by
  have hcode : (if dcr &&& dcrSC = dcrSC then
        compareCond BitVec.slt BitVec.sle (dcr &&& dcrCC) (data.setWidth 64) (dvr.setWidth 64)
      else compareCond BitVec.ult BitVec.ule (dcr &&& dcrCC) (data.setWidth 64)
        (dvr.setWidth 64)) ≠ 0 ↔
      if dcr &&& dcrCC = ccMASKED then (data &&& dvr).setWidth 8 ≠ 0
      else condHolds false (dcr &&& dcrCC) data dvr = true := by
    split
    · exact compareCond_ne_zero slt_setWidth fun x y => BitVec.sle_eq_not_slt
    · exact compareCond_ne_zero ult_setWidth BitVec.ule_eq_not_ult
  rw [hcode, ComparesRight]
  -- The masked comparison loses all but a byte, the others lose the sign.
  by_cases hmasked : dcr &&& dcrCC = ccMASKED
  · have hcond : ∀ signed, condHolds signed (dcr &&& dcrCC) data dvr = true ↔ data &&& dvr ≠ 0 := by
      intro signed
      unfold condHolds
      rw [if_pos hmasked, bne_iff_ne]
    rw [if_pos hmasked, hcond, masked_iff, forall_prop_of_true hmasked]
    refine (and_iff_left fun _ hordered => ?_).symm
    rw [hmasked] at hordered
    exact absurd hordered (by decide)
  · rw [if_neg hmasked, forall_prop_of_false hmasked, true_and]
    by_cases hsc : dcr &&& dcrSC = dcrSC
    · rw [decide_eq_true hsc, forall_prop_of_true hsc, ← condHolds_signed_iff]
      exact ⟨fun h => Bool.eq_iff_iff.2 h.symm, fun h => h ▸ Iff.rfl⟩
    · rw [decide_eq_false hsc]
      exact iff_of_true Iff.rfl fun h => absurd h hsc

/-- **A matchpoint fires when `SPR_DCR` says so** exactly if the pair is not there, the access is of
another class or the comparison comes out right. -/
theorem matchpoint_iff (s : Sim) (action : Action) (data : Word) (i : Fin 8) :
    (matchpoint s action (data.setWidth 64) i ≠ 0 ↔
        MatchHolds (s.sprs (sprDCR i)) (s.sprs (sprDVR i)) action data) ↔
      (s.sprs (sprDCR i) &&& dcrDP = dcrDP →
        compareTo (s.sprs (sprDCR i) &&& dcrCT) action = true →
        ComparesRight (s.sprs (sprDCR i)) (s.sprs (sprDVR i)) data) := by
  unfold matchpoint MatchHolds
  dsimp only
  generalize s.sprs (sprDCR i) = dcr
  generalize s.sprs (sprDVR i) = dvr
  by_cases hdp : dcr &&& dcrDP = dcrDP
  · rw [if_neg (not_not.2 hdp), and_iff_right hdp, forall_prop_of_true hdp]
    cases hct : compareTo (dcr &&& dcrCT) action with
    | false => simp
    | true =>
      rw [Bool.not_true, if_neg Bool.false_ne_true, and_iff_right rfl, forall_prop_of_true rfl]
      exact compare_iff dcr data dvr
  · rw [if_pos hdp]
    exact iff_of_true (iff_of_false (fun h => h rfl) fun h => hdp h.1) fun h => absurd h hdp

/-- A masked comparison of values that share only their ninth bit: the result is cut to zero. -/
theorem matchpoint_masked :
    ¬∀ (s : Sim) (action : Action) (data : Word) (i : Fin 8),
      (matchpoint s action (data.setWidth 64) i ≠ 0 ↔
        MatchHolds (s.sprs (sprDCR i)) (s.sprs (sprDVR i)) action data) := by
  intro h
  have hsprs : ∀ i, i = sprDCR 0 ∨ i = sprDVR 0 →
      (((powerOn 0x601 0 (Memory.flat fun _ => 0)).setSpr (sprDCR 0) 0x81).setSpr (sprDVR 0)
        0x100).sprs i = if i = sprDCR 0 then 0x81 else 0x100 := by
    rintro i (rfl | rfl) <;> rfl
  have hmatch := h (((powerOn 0x601 0 (Memory.flat fun _ => 0)).setSpr (sprDCR 0) 0x81).setSpr
    (sprDVR 0)
    0x100) .loadData 0x100 0
  unfold matchpoint at hmatch
  dsimp only at hmatch
  rw [hsprs _ (.inl rfl), hsprs _ (.inr rfl)] at hmatch
  exact absurd hmatch (by unfold MatchHolds; decide)

end Matchpoint

end Cpu
end Or1ksim
