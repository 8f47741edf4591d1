import Or1ksim.Cpu.Run

/-!
# The registers of the TLBs

A write of `cpu/or1k/sprs.c` to a register of a TLB clears the reserved bits.

* `TlbReg` — a match or translate register, by MMU, way and set;
* `TlbReg.masked` — what a write should leave in it;
* `mtspr_tlb` — what it does;
* `tlb_masked` — **reserved bits are never stored**, exactly except for the very last register of
  each TLB;
* `tlb_last_unmasked` — which keeps whatever is written.
-/

namespace Or1ksim
namespace Cpu

open Bits

/-! ### Registers -/

-- The ways and the sets are written as literals.
scoped instance neZero_four : NeZero 4 := ⟨by decide⟩
scoped instance neZero_128 : NeZero 128 := ⟨by decide⟩

/-- A register of a TLB. -/
structure TlbReg where
  /-- It belongs to the instruction MMU. -/
  insn : Bool
  /-- The way. -/
  way : Fin 4
  /-- It is a translate register. -/
  translate : Bool
  /-- The set. -/
  set : Fin 128
deriving DecidableEq

namespace TlbReg

/-- The geometry of the MMU. -/
def config (cfg : Config) (r : TlbReg) : MmuConfig := if r.insn then cfg.immu else cfg.dmmu

/-- `SPR_DTLBMR_BASE`, `SPR_DTLBTR_BASE`, `SPR_ITLBMR_BASE` and `SPR_ITLBTR_BASE`, and the set. -/
def regno (r : TlbReg) : Regno :=
  (if r.insn then sprITLBMR else sprDTLBMR) +
    BitVec.ofNat 16 (r.way * 256 + (if r.translate then 128 else 0) + r.set)

/-- The bits of the register, apart from its page number: only the translate registers of the data
MMU have ten. -/
def keep (r : TlbReg) : Word := if r.insn = false ∧ r.translate then 0x3ff else 0xff

/-- A value without reserved bits. -/
def masked (cfg : Config) (r : TlbReg) (value : Word) : Word :=
  (value &&& (r.config cfg).pageMask) ||| (value &&& r.keep)

/-- The last register of a TLB, `SPR_DTLBTR_LAST (3)` or `SPR_ITLBTR_LAST (3)`. -/
def Last (r : TlbReg) : Prop := r.way = 3 ∧ r.translate = true ∧ r.set = 127

instance (r : TlbReg) : Decidable r.Last := inferInstanceAs (Decidable (_ ∧ _))

theorem toNat_regno (r : TlbReg) :
    r.regno.toNat = (if r.insn then 0x1200 else 0x0a00) + r.way * 256 +
      (if r.translate then 128 else 0) + r.set := by
  have hway := r.way.isLt
  have hset := r.set.isLt
  rw [regno, BitVec.toNat_add, BitVec.toNat_ofNat]
  cases r.insn <;> cases r.translate <;> simp [sprITLBMR, sprDTLBMR] <;> omega

theorem last_iff (r : TlbReg) : r.Last ↔ r.regno.toNat = (if r.insn then 0x15ff else 0x0dff) := by
  have hway := r.way.isLt
  have hset := r.set.isLt
  rw [toNat_regno, Last, Fin.ext_iff, Fin.ext_iff]
  cases r.insn <;> cases r.translate <;> simp <;> omega

end TlbReg

/-! ### Writes -/

/-- The numbers of the registers of the TLBs. -/
def InTlb (r : Regno) : Prop := (0x0a00 ≤ r ∧ r ≤ 0x0dff) ∨ (0x1200 ≤ r ∧ r ≤ 0x15ff)

instance (r : Regno) : Decidable (InTlb r) := inferInstanceAs (Decidable (_ ∨ _))

theorem TlbReg.inTlb (r : TlbReg) : InTlb r.regno := by
  have hway := r.way.isLt
  have hset := r.set.isLt
  have hnat := r.toNat_regno
  rw [InTlb, BitVec.le_def, BitVec.le_def, BitVec.le_def, BitVec.le_def, hnat]
  cases r.insn <;> cases r.translate <;> simp <;> omega

theorem mtspr_tlb (cfg : Config) (s : Sim) {r : Regno} (hr : InTlb r) (value : Word) :
    mtspr cfg s r value = .ok (maskTlb cfg (s.setSpr r value) r value) := by
  have hne : ∀ q : Regno, ¬InTlb q → r ≠ q := fun q hq h => hq (h ▸ hr)
  have hgpr : ¬(0x0400 ≤ r ∧ r < 0x0420) := by
    unfold InTlb at hr
    bv_omega
  unfold mtspr
  dsimp only
  rw [if_neg (hne _ (by decide)), if_neg (hne _ (by decide)), if_neg (hne _ (by decide)),
    if_neg (hne _ (by decide)), if_neg (hne _ (by decide)), if_neg (hne _ (by decide)),
    if_neg (hne _ (by decide)), if_neg (hne _ (by decide)), if_neg (hne _ (by decide)),
    if_neg (hne _ (by decide)), if_neg (hne _ (by decide)), if_neg (hne _ (by decide)),
    if_neg (hne _ (by decide)), if_neg (hne _ (by decide)), if_neg (hne _ (by decide)),
    linkGpr, if_neg hgpr]

/-- The range test for the data MMU leaves its last register out. -/
theorem inData_iff (r : TlbReg) :
    sprDTLBMR ≤ r.regno ∧ r.regno < 0x0dff ↔ r.insn = false ∧ ¬r.Last := by
  have hway := r.way.isLt
  have hset := r.set.isLt
  have hnat := r.toNat_regno
  rw [r.last_iff, BitVec.le_def, BitVec.lt_def]
  cases hi : r.insn <;> cases ht : r.translate <;> simp [hi, ht, sprDTLBMR] at hnat ⊢ <;> omega

theorem inInsn_iff (r : TlbReg) :
    sprITLBMR ≤ r.regno ∧ r.regno < 0x15ff ↔ r.insn = true ∧ ¬r.Last := by
  have hway := r.way.isLt
  have hset := r.set.isLt
  have hnat := r.toNat_regno
  rw [r.last_iff, BitVec.le_def, BitVec.lt_def]
  cases hi : r.insn <;> cases ht : r.translate <;> simp [hi, ht, sprITLBMR] at hnat ⊢ <;> omega

theorem match_iff (r : TlbReg) : r.regno &&& 0xff < 0x80 ↔ r.translate = false := by
  have hset := r.set.isLt
  rw [BitVec.lt_def, BitVec.toNat_and]
  change r.regno.toNat &&& (2 ^ 8 - 1) < 128 ↔ _
  rw [Nat.and_two_pow_sub_one_eq_mod, r.toNat_regno]
  cases r.insn <;> cases r.translate <;> simp <;> omega

theorem maskTlb_self (cfg : Config) (s : Sim) (r : TlbReg) (value : Word) :
    (maskTlb cfg (s.setSpr r.regno value) r.regno value).sprs r.regno =
      if r.Last then value else r.masked cfg value := by
  unfold maskTlb
  simp only [inData_iff, inInsn_iff, match_iff]
  unfold TlbReg.masked TlbReg.config TlbReg.keep
  by_cases hlast : r.Last
  · simp [hlast]
  · cases hi : r.insn <;> cases ht : r.translate <;> simp [hlast]

theorem mfspr_tlb (cfg : Config) (s : Sim) {r : Regno} (hr : InTlb r) :
    mfspr cfg s r = s.sprs r := by
  have hne : ∀ q : Regno, ¬InTlb q → r ≠ q := fun q hq h => hq (h ▸ hr)
  have hgpr : ¬(0x0400 ≤ r ∧ r < 0x0420) := by
    unfold InTlb at hr
    bv_omega
  unfold mfspr
  rw [if_neg (hne _ (by decide)), if_neg (hne _ (by decide)), if_neg (hne _ (by decide)),
    if_neg hgpr]

/-! ### Main results -/

/-- **Reserved bits of the TLB registers are never stored**: for every match and translate register
of every way and set, a write leaves the page number, masked by the page size, and the bits of its
kind, and a read gives these back, exactly if it is not the last register of its TLB, or the value
has no reserved bits. -/
theorem tlb_masked (cfg : Config) (s : Sim) (r : TlbReg) (value : Word) :
    ∃ t, mtspr cfg s r.regno value = .ok t ∧
      (t.sprs r.regno = r.masked cfg value ∧ mfspr cfg t r.regno = r.masked cfg value ↔
        ¬r.Last ∨ r.masked cfg value = value) := by
  refine ⟨_, mtspr_tlb cfg s r.inTlb value, ?_⟩
  rw [mfspr_tlb cfg _ r.inTlb, maskTlb_self, and_self]
  by_cases hlast : r.Last
  · rw [if_pos hlast, eq_comm]
    exact ⟨.inr, fun h => h.resolve_left (not_not.2 hlast)⟩
  · rw [if_neg hlast]
    exact iff_of_true rfl (.inl hlast)

/-- The last register keeps reserved bits. -/
theorem tlb_last_unmasked :
    ∃ t, mtspr defaultConfig (powerOn 0x601 0x8001 (.flat fun _ => 0))
        (TlbReg.regno ⟨false, 3, true, 127⟩) 0x1c00 = .ok t ∧
      t.sprs (TlbReg.regno ⟨false, 3, true, 127⟩) = 0x1c00 ∧
      TlbReg.masked defaultConfig ⟨false, 3, true, 127⟩ 0x1c00 = 0 := by
  refine ⟨_, mtspr_tlb _ _ (TlbReg.inTlb _) _, (maskTlb_self ..).trans ?_, ?_⟩
  · exact if_pos ⟨rfl, rfl, rfl⟩
  · decide

end Cpu
end Or1ksim
