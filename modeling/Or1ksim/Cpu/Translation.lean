import Or1ksim.Cpu.Lru
import Or1ksim.Cpu.Tlb

/-!
# Frames and offsets

What `mmu/dmmu.c` makes of the registers of its TLB.

* `PageBits` — a page size as the configuration accepts it;
* `TlbRun` — machines whose data TLB is written through `mtspr` only;
* `Composes` — a translation is a frame and an offset;
* `translation_composes` — **every translation is**, exactly if the frame has no bits below 8 KB;
* `frame_truncated` — with pages of 4 KB some do.
-/

namespace Or1ksim
namespace Cpu

open Bits

/-! ### Masks -/

/-- The page size is `2 ^ k`: "DMMU page size must be power of 2". -/
def PageBits (c : MmuConfig) (k : ℕ) : Prop := k ≤ 30 ∧ c.pagesize = BitVec.ofNat 32 (2 ^ k)

section Masks

variable {c : MmuConfig} {k : ℕ}

theorem ofNat_two_pow_sub_one (n : ℕ) : BitVec.ofNat 32 (2 ^ n) - 1 = lowMask 32 n := by
  rw [BitVec.sub_eq_iff_eq_add, lowMask]
  apply BitVec.eq_of_toNat_eq
  have hpos := Nat.two_pow_pos n
  rw [BitVec.toNat_add, BitVec.toNat_ofNat, BitVec.toNat_ofNat]
  change _ = ((2 ^ n - 1) % 2 ^ 32 + 1) % 2 ^ 32
  rw [Nat.mod_add_mod, Nat.sub_add_cancel hpos]

theorem PageBits.offsetMask (h : PageBits c k) : c.pageOffsetMask = lowMask 32 k := by
  rw [MmuConfig.pageOffsetMask, h.2, ofNat_two_pow_sub_one]

theorem PageBits.pageMask (h : PageBits c k) : c.pageMask = ~~~lowMask 32 k := by
  rw [MmuConfig.pageMask, h.offsetMask]

theorem PageBits.vpnMask (h : PageBits c k) : ∃ n, k ≤ n ∧ c.vpnMask = ~~~lowMask 32 n := by
  obtain ⟨j, -, hj⟩ := c.nsets_le
  refine ⟨k + j, Nat.le_add_right k j, ?_⟩
  rw [MmuConfig.vpnMask, h.2, hj, ← BitVec.ofNat_mul, ← Nat.pow_add, ofNat_two_pow_sub_one]

theorem MmuConfig.set_congr {va a : Addr} (ha : a &&& c.pageMask = va &&& c.pageMask) :
    c.set a = c.set va := by
  rw [MmuConfig.set, ha, MmuConfig.set]

theorem not_lowMask_and_of_le {j n : ℕ} (h : j ≤ n) :
    ~~~lowMask 32 n &&& ~~~lowMask 32 j = ~~~lowMask 32 n := by
  ext i hi
  rw [BitVec.getElem_and, BitVec.getElem_not, BitVec.getElem_not, getElem_lowMask,
    getElem_lowMask]
  by_cases hj : i < j
  · simp [hj, hj.trans_le h]
  · simp [hj]

/-- A page number has all of the bits the entries are compared in. -/
theorem PageBits.pageMask_and_vpnMask (h : PageBits c k) (v : Word) :
    v &&& c.pageMask &&& c.vpnMask = v &&& c.vpnMask := by
  obtain ⟨n, hn, hvpn⟩ := h.vpnMask
  rw [h.pageMask, hvpn, BitVec.and_assoc, BitVec.and_comm (~~~lowMask 32 k),
    not_lowMask_and_of_le hn]

end Masks

/-! ### Registers written -/

/-- The register of an address's set in a way of the data MMU. -/
def entry (cfg : Config) (va : Addr) (w : ℕ) (translate : Bool) : TlbReg where
  insn := false
  way := Fin.ofNat 4 w
  translate := translate
  set := Fin.ofNat 128 (cfg.dmmu.set va).toNat

/-- A machine whose data TLB is written through `mtspr` only, and the last value written to each of
its registers. -/
inductive TlbRun (cfg : Config) : (TlbReg → Option Word) → Sim → Prop
  /-- Nothing is written. -/
  | start (s : Sim) : TlbRun cfg (fun _ => none) s
  /-- A register is written. -/
  | write {written : TlbReg → Option Word} {s t : Sim} (h : TlbRun cfg written s) (r : TlbReg)
      (value : Word) (ht : mtspr cfg s r.regno value = .ok t) :
      TlbRun cfg (Function.update written r (some value)) t
  /-- An address is translated. -/
  | translate {written : TlbReg → Option Word} {s : Sim} (h : TlbRun cfg written s) (va : Addr)
      (write : Bool) : TlbRun cfg written (dmmuTranslate cfg s va write).2
  /-- Anything else happens. -/
  | other {written : TlbReg → Option Word} {s t : Sim} (h : TlbRun cfg written s)
      (ht : ∀ r : TlbReg, r.insn = false → t.sprs r.regno = s.sprs r.regno) : TlbRun cfg written t

namespace TlbReg

theorem regno_injective {r q : TlbReg} (h : r.regno = q.regno) : r = q := by
  have hnat := congrArg BitVec.toNat h
  rw [r.toNat_regno, q.toNat_regno] at hnat
  obtain ⟨ri, rw, rt, rs⟩ := r
  obtain ⟨qi, qw, qt, qs⟩ := q
  have hrw := rw.isLt
  have hrs := rs.isLt
  have hqw := qw.isLt
  have hqs := qs.isLt
  rw [TlbReg.mk.injEq, Fin.ext_iff, Fin.ext_iff]
  cases ri <;> cases qi <;> cases rt <;> cases qt <;> simp at hnat ⊢ <;> omega

/-- What a write leaves, up to the ageing of match registers. -/
def Keeps (cfg : Config) (r : TlbReg) (value stored : Word) : Prop :=
  if r.translate then stored = if r.Last then value else r.masked cfg value
  else stored &&& ~~~MmuConfig.lruField = r.masked cfg value &&& ~~~MmuConfig.lruField

theorem keeps_stored (cfg : Config) (r : TlbReg) (value : Word) :
    r.Keeps cfg value (if r.Last then value else r.masked cfg value) := by
  unfold Keeps
  split
  case isTrue => rfl
  case isFalse ht => rw [if_neg fun hlast => ht hlast.2.1]

end TlbReg

theorem maskTlb_of_ne (cfg : Config) (s : Sim) {r q : Regno} (h : q ≠ r) (value : Word) :
    (maskTlb cfg (s.setSpr r value) r value).sprs q = s.sprs q := by
  have hset : ∀ (t : Sim) (v : Word), (t.setSpr r v).sprs q = t.sprs q := fun t v =>
    Sim.setSpr_sprs_of_ne h
  unfold maskTlb
  dsimp only
  split <;> split <;> (try split) <;> simp only [hset]

section

variable {cfg : Config} {s : Sim} {va a : Addr} {w k : ℕ} {r : TlbReg}
  {written : TlbReg → Option Word}

theorem TlbReg.tlbReg (r : TlbReg) : tlbReg r.regno := by
  have hway := r.way.isLt
  have hset := r.set.isLt
  rw [tlbReg_iff, r.toNat_regno]
  cases r.insn <;> cases r.translate <;> simp <;> omega

theorem TlbReg.matchReg_iff (r : TlbReg) : matchReg r.regno ↔ r.translate = false := by
  have hset := r.set.isLt
  rw [matchReg, and_iff_right r.tlbReg, getLsbD_seven_iff, r.toNat_regno]
  cases r.insn <;> cases r.translate <;> simp <;> omega

theorem sprs_translate (cfg : Config) (s : Sim) (va : Addr) (write : Bool) {r : Regno}
    (hr : tlbReg r) :
    (dmmuTranslate cfg s va write).2.sprs r &&& ~~~MmuConfig.lruField =
        s.sprs r &&& ~~~MmuConfig.lruField ∧
      (¬matchReg r → (dmmuTranslate cfg s va write).2.sprs r = s.sprs r) := by
  have htouch : ∀ hit, (∃ w < cfg.dmmu.nways, hit = cfg.dataMmu.mr va w) →
      (cfg.dataMmu.touchLru s va hit).sprs r &&& ~~~MmuConfig.lruField =
          s.sprs r &&& ~~~MmuConfig.lruField ∧
        (¬matchReg r → (cfg.dataMmu.touchLru s va hit).sprs r = s.sprs r) := by
    rintro _ ⟨w, hw, rfl⟩
    unfold Mmu.touchLru
    dsimp only
    have hage := sprs_age s _ (nodup_ways cfg.dataMmu va) r
    constructor
    -- The way that was hit is aged like the others before its counter is reloaded.
    · by_cases hr : r = cfg.dataMmu.mr va w
      · subst hr
        rw [Sim.setSpr_sprs_self, reload_and_not, hage]
        split
        · rw [aged_and_not]
        · rfl
      · rw [Sim.setSpr_sprs_of_ne hr, hage]
        split
        · rw [aged_and_not]
        · rfl
    · intro hmatch
      have hne : r ≠ cfg.dataMmu.mr va w := by
        rintro rfl
        exact hmatch (matchReg_mr (.inl rfl) hw va)
      rw [Sim.setSpr_sprs_of_ne hne, hage, if_neg]
      intro hmem
      obtain ⟨i, hi, rfl⟩ := List.mem_map.1 hmem
      exact hmatch (matchReg_mr (.inl rfl) (List.mem_range.1 hi) va)
  -- A miss and a page fault enter an exception, which leaves the MMU alone.
  unfold dmmuTranslate Mmu.translate
  split
  · exact ⟨rfl, fun _ => rfl⟩
  · cases hfind : cfg.dataMmu.findTlbmr s.sprs va with
    | none =>
      dsimp only
      rw [exceptHandle_tlb _ _ _ hr]
      exact ⟨rfl, fun _ => rfl⟩
    | some hit =>
      dsimp only
      have hhit := htouch hit (mr_of_findTlbmr hfind)
      split
      · rw [exceptHandle_tlb _ _ _ hr]
        exact hhit
      · exact hhit

theorem TlbRun.keeps (h : TlbRun cfg written s) (hr : r.insn = false) {value : Word}
    (hv : written r = some value) : r.Keeps cfg value (s.sprs r.regno) := by
  induction h with
  | start => cases hv
  | @write written s t h q new ht ih =>
    obtain rfl := Except.ok.inj ((mtspr_tlb cfg s q.inTlb new).symm.trans ht)
    by_cases hq : r = q
    · subst hq
      rw [Function.update_self] at hv
      cases hv
      rw [maskTlb_self]
      exact r.keeps_stored cfg value
    · rw [Function.update_of_ne hq] at hv
      rw [maskTlb_of_ne cfg s (fun he => hq (TlbReg.regno_injective he))]
      exact ih hv
  | @translate written s h va write ih =>
    obtain ⟨hage, hsame⟩ := sprs_translate cfg s va write r.tlbReg
    have hkeeps := ih hv
    unfold TlbReg.Keeps at hkeeps ⊢
    cases ht : r.translate with
    | true =>
      rw [ht] at hkeeps
      rw [hsame fun hm => by rw [r.matchReg_iff, ht] at hm; cases hm]
      exact hkeeps
    | false =>
      rw [ht] at hkeeps
      exact hage.trans hkeeps
  | other h ht ih =>
    rw [ht r hr]
    exact ih hv

/-! ### A hit -/

theorem mr_eq_regno (hw : w < cfg.dmmu.nways) :
    cfg.dataMmu.mr va w = (entry cfg va w false).regno := by
  have hways := cfg.dmmu.nways_le.2
  have hset := set_le cfg.dmmu va
  have hbase : cfg.dataMmu.tlbmr.toNat = 0x0a00 := rfl
  have hconfig : cfg.dataMmu.config = cfg.dmmu := rfl
  apply BitVec.eq_of_toNat_eq
  rw [TlbReg.toNat_regno, Mmu.mr, hconfig]
  simp only [BitVec.toNat_add, BitVec.toNat_setWidth, BitVec.toNat_ofNat, entry, Fin.ofNat, hbase]
  simp
  omega

theorem tr_eq_regno (hw : w < cfg.dmmu.nways) :
    cfg.dataMmu.mr va w + 128 = (entry cfg va w true).regno := by
  have hset := set_le cfg.dmmu va
  apply BitVec.eq_of_toNat_eq
  rw [mr_eq_regno hw, BitVec.toNat_add, TlbReg.toNat_regno, TlbReg.toNat_regno]
  simp [entry]
  omega

theorem HitsWay.congr (hk : PageBits cfg.dmmu k) (h : HitsWay cfg.dataMmu s va w)
    (ha : a &&& cfg.dmmu.pageMask = va &&& cfg.dmmu.pageMask) :
    HitsWay cfg.dataMmu s a w ∧ cfg.dataMmu.mr a w = cfg.dataMmu.mr va w := by
  have hvpn : a &&& cfg.dmmu.vpnMask = va &&& cfg.dmmu.vpnMask := by
    rw [← hk.pageMask_and_vpnMask a, ha, hk.pageMask_and_vpnMask]
  have hmr : cfg.dataMmu.mr a = cfg.dataMmu.mr va := by
    funext i
    change cfg.dataMmu.tlbmr + (cfg.dmmu.set a).setWidth 16 + _ = _
    rw [cfg.dmmu.set_congr ha]
    rfl
  refine ⟨⟨h.on, h.lt, ?_⟩, congrFun hmr w⟩
  rw [hmr, ← h.found]
  unfold Mmu.findTlbmr
  rw [hmr]
  change Option.map _ (List.find? (fun i => decide (_ = a &&& cfg.dmmu.vpnMask) && _) _) = _
  rw [hvpn]
  rfl

theorem HitsWay.physical (h : HitsWay cfg.dataMmu s va w) (write : Bool) :
    (dmmuTranslate cfg s va write).1 =
      cfg.dataMmu.physical (s.sprs (cfg.dataMmu.mr va w + 128)) va := by
  obtain ⟨htlb, htr⟩ := tr_mr (.inl rfl) h.lt va
  have hsame := (sprs_translate cfg s va write htlb).2 htr
  rw [← hsame]
  unfold dmmuTranslate Mmu.translate
  rw [h.on, if_neg Bool.false_ne_true, h.found]

theorem HitsWay.vpn (h : HitsWay cfg.dataMmu s va w) :
    s.sprs (cfg.dataMmu.mr va w) &&& cfg.dmmu.vpnMask = va &&& cfg.dmmu.vpnMask := by
  obtain ⟨i, hi, hmr⟩ := Option.map_eq_some_iff.1 h.found
  have hfound := List.find?_some hi
  rw [← hmr]
  exact of_decide_eq_true (Bool.and_eq_true _ _ ▸ hfound).1

end

/-! ### Main results -/

/-- A translation is a frame and an offset: the entry was written with the page of the address, and
every address of the page translates to the frame that was written plus its offset, so that two of
them keep their difference. -/
structure Composes (cfg : Config) (s : Sim) (va : Addr) (write : Bool) (vm vt : Word) : Prop where
  page : vm &&& cfg.dmmu.vpnMask = va &&& cfg.dmmu.vpnMask
  frame : ∀ a, a &&& cfg.dmmu.pageMask = va &&& cfg.dmmu.pageMask →
    (dmmuTranslate cfg s a write).1 =
      (vt &&& cfg.dmmu.pageMask) + (a &&& cfg.dmmu.pageOffsetMask)
  difference : ∀ a, a &&& cfg.dmmu.pageMask = va &&& cfg.dmmu.pageMask →
    (dmmuTranslate cfg s a write).1 - (dmmuTranslate cfg s va write).1 = a - va

section

variable {cfg : Config} {s : Sim} {va : Addr} {w k : ℕ} {vm vt : Word}
  {written : TlbReg → Option Word}

theorem frame_add_offset (v a : Word) (k : ℕ) :
    (v &&& ~~~lowMask 32 k) + (a &&& lowMask 32 k) =
      (v &&& ~~~lowMask 32 k) ||| (a &&& lowMask 32 k) := by
  refine BitVec.add_eq_or_of_and_eq_zero _ _ ?_
  ext i hi
  by_cases h : i < k <;> simp [h]

theorem page_add_offset (a : Word) (k : ℕ) :
    (a &&& ~~~lowMask 32 k) + (a &&& lowMask 32 k) = a := by
  rw [frame_add_offset]
  ext i hi
  by_cases h : i < k <;> simp [h]

/-- The frame of a page of addresses is read off at its first address. -/
theorem forall_frame_iff (f v va : Word) (k : ℕ) :
    (∀ a : Word, a &&& ~~~lowMask 32 k = va &&& ~~~lowMask 32 k →
      f ||| (a &&& lowMask 32 k) = (v &&& ~~~lowMask 32 k) + (a &&& lowMask 32 k)) ↔
      f = v &&& ~~~lowMask 32 k := by
  constructor
  · intro h
    have hoffset : va &&& ~~~lowMask 32 k &&& lowMask 32 k = 0#32 := by
      rw [BitVec.and_assoc, BitVec.and_comm (~~~_), BitVec.and_not_self]
      exact BitVec.and_zero
    have hfirst := h (va &&& ~~~lowMask 32 k) (by rw [BitVec.and_assoc, BitVec.and_self])
    rw [hoffset, BitVec.add_zero] at hfirst
    exact BitVec.or_zero.symm.trans hfirst
  · rintro rfl a -
    exact (frame_add_offset v a k).symm

theorem add_sub_add_left_word (f x y : Word) : f + x - (f + y) = x - y := by bv_omega

/-- The frame has no bits below 8 KB; in the last register, which is stored unmasked, neither has
the offset any above. -/
def Framed (cfg : Config) (r : TlbReg) (value : Word) : Prop :=
  value &&& cfg.dmmu.pageMask &&& 0x1fff = 0 ∧
    (r.Last → value &&& cfg.dmmu.pageOffsetMask &&& 0xffffe000 = 0)

theorem and_lowMask_eq_zero_iff (v : Word) (k : ℕ) :
    v &&& ~~~lowMask 32 k &&& lowMask 32 13 = 0#32 ↔
      ∀ i (hi : i < 32), (v[i] && !decide (i < k) && decide (i < 13)) = false := by
  rw [BitVec.eq_of_getElem_eq_iff]
  refine forall₂_congr fun i hi => ?_
  simp

theorem and_not_lowMask_eq_zero_iff (v : Word) (k : ℕ) :
    v &&& lowMask 32 k &&& ~~~lowMask 32 13 = 0#32 ↔
      ∀ i (hi : i < 32), (v[i] && decide (i < k) && !decide (i < 13)) = false := by
  rw [BitVec.eq_of_getElem_eq_iff]
  refine forall₂_congr fun i hi => ?_
  simp

/-- The fixed page number of `dmmu_translate` is the frame that was written. -/
theorem framed_iff (hk : PageBits cfg.dmmu k) {r : TlbReg} (hr : r.insn = false)
    (ht : r.translate = true) (value : Word) :
    (if r.Last then value else r.masked cfg value) &&& 0xffffe000 =
        value &&& ~~~lowMask 32 k ↔ Framed cfg r value := by
  have hfixed : (0xffffe000 : Word) = ~~~lowMask 32 13 := by decide
  have hkeep : r.keep = lowMask 32 10 := by
    rw [TlbReg.keep, if_pos ⟨hr, ht⟩]
    decide
  have hmasked : r.masked cfg value =
      (value &&& ~~~lowMask 32 k) ||| (value &&& lowMask 32 10) := by
    rw [TlbReg.masked, TlbReg.config, hr, hkeep, if_neg Bool.false_ne_true, hk.pageMask]
  have hlow : (0x1fff : Word) = lowMask 32 13 := by decide
  unfold Framed
  rw [hk.pageMask, hk.offsetMask, hfixed, hlow]
  change _ ↔ _ = 0#32 ∧ (_ → _ = 0#32)
  rw [and_lowMask_eq_zero_iff, and_not_lowMask_eq_zero_iff]
  -- The last register is out of the range that is masked; the others lose the page offset.
  by_cases hlast : r.Last
  · rw [if_pos hlast, forall_prop_of_true hlast, ← forall₂_and, BitVec.eq_of_getElem_eq_iff]
    refine forall₂_congr fun i hi => ?_
    rw [BitVec.getElem_and, BitVec.getElem_and, BitVec.getElem_not, BitVec.getElem_not,
      getElem_lowMask, getElem_lowMask]
    cases value[i] <;> by_cases hik : i < k <;> by_cases hi13 : i < 13 <;> simp [hik, hi13]
  · rw [if_neg hlast, and_iff_left fun h => absurd h hlast, hmasked, BitVec.eq_of_getElem_eq_iff]
    refine forall₂_congr fun i hi => ?_
    rw [BitVec.getElem_and, BitVec.getElem_or, BitVec.getElem_and, BitVec.getElem_and,
      BitVec.getElem_not, BitVec.getElem_not, getElem_lowMask, getElem_lowMask, getElem_lowMask]
    have h10 : i < 10 → i < 13 := fun h => by omega
    cases value[i] <;> by_cases hik : i < k <;> by_cases hi13 : i < 13 <;>
      by_cases hi10 : i < 10 <;> simp [hik, hi13, hi10]
    exact absurd (h10 hi10) hi13

/-- The bits that are compared and belong to the LRU field, too, are as they were written; pages of
at least 256 bytes have no such bits. -/
def Unaged (cfg : Config) (s : Sim) (r : TlbReg) (value : Word) : Prop :=
  s.sprs r.regno &&& cfg.dmmu.vpnMask &&& MmuConfig.lruField =
    value &&& cfg.dmmu.vpnMask &&& MmuConfig.lruField

theorem PageBits.unaged (hk : PageBits cfg.dmmu k) (h8 : 8 ≤ k) (r : TlbReg) (value : Word) :
    Unaged cfg s r value := by
  obtain ⟨n, hn, hvpn⟩ := hk.vpnMask
  have hzero : cfg.dmmu.vpnMask &&& MmuConfig.lruField = 0 := by
    rw [hvpn, show MmuConfig.lruField = MmuConfig.lruField &&& lowMask 32 8 by decide]
    ext i hi
    simp
    omega
  rw [Unaged, BitVec.and_assoc, BitVec.and_assoc, hzero]
  exact BitVec.and_zero.trans BitVec.and_zero.symm

/-- The entry has the page that was written, if it has not been aged. -/
theorem page_iff (hk : PageBits cfg.dmmu k) {r : TlbReg} (hr : r.insn = false)
    (ht : r.translate = false) {value stored : Word} (h : r.Keeps cfg value stored) :
    value &&& cfg.dmmu.vpnMask = stored &&& cfg.dmmu.vpnMask ↔
      stored &&& cfg.dmmu.vpnMask &&& MmuConfig.lruField =
        value &&& cfg.dmmu.vpnMask &&& MmuConfig.lruField := by
  obtain ⟨n, hn, hvpn⟩ := hk.vpnMask
  have hbits : ∀ i (hi : i < 32), (stored[i] && !MmuConfig.lruField[i]) =
      ((value[i] && !decide (i < k) || value[i] && r.keep[i]) && !MmuConfig.lruField[i]) := by
    unfold TlbReg.Keeps at h
    rw [ht, if_neg Bool.false_ne_true, TlbReg.masked, TlbReg.config, hr,
      if_neg Bool.false_ne_true, hk.pageMask] at h
    intro i hi
    have hi := congrArg (fun v : Word => v[i]) h
    simpa using hi
  rw [hvpn, BitVec.eq_of_getElem_eq_iff, BitVec.eq_of_getElem_eq_iff]
  -- Bit by bit: those compared that the masks and the aging may both have changed.
  refine forall₂_congr fun i hi => ?_
  have hbit := hbits i hi
  have hle : i < k → i < n := fun h => h.trans_le hn
  revert hbit
  simp only [BitVec.getElem_and, BitVec.getElem_not, getElem_lowMask]
  cases value[i] <;> cases stored[i] <;> cases MmuConfig.lruField[i] <;> by_cases hin : i < n <;>
    simp [hin]
  exact fun hik => absurd (hle hik) hin

/-- **Translation composes frame and offset**: for every geometry of the data MMU and whatever is
written to its registers, a hit gives the frame that was written and the offset of the address, from
an entry written with its page, and keeps differences within the page, exactly if the frame is one
of 8 KB and the match register has not been aged in the bits compared. -/
theorem translation_composes (cfg : Config) (hk : PageBits cfg.dmmu k) (hrun : TlbRun cfg written s)
    (hhit : HitsWay cfg.dataMmu s va w) (hvm : written (entry cfg va w false) = some vm)
    (hvt : written (entry cfg va w true) = some vt) (write : Bool) :
    Composes cfg s va write vm vt ↔
      Framed cfg (entry cfg va w true) vt ∧ Unaged cfg s (entry cfg va w false) vm := by
  have hpage : vm &&& cfg.dmmu.vpnMask = va &&& cfg.dmmu.vpnMask ↔
      Unaged cfg s (entry cfg va w false) vm := by
    rw [← hhit.vpn, mr_eq_regno hhit.lt]
    exact page_iff hk rfl rfl (hrun.keeps rfl hvm)
  have htr : s.sprs (entry cfg va w true).regno =
      if (entry cfg va w true).Last then vt else (entry cfg va w true).masked cfg vt :=
    hrun.keeps rfl hvt
  have hphysical : ∀ a, a &&& cfg.dmmu.pageMask = va &&& cfg.dmmu.pageMask →
      (dmmuTranslate cfg s a write).1 =
        (s.sprs (entry cfg va w true).regno &&& 0xffffe000) ||| (a &&& lowMask 32 k) := by
    intro a ha
    obtain ⟨hit, hmr⟩ := hhit.congr hk ha
    rw [hit.physical write, hmr, tr_eq_regno hhit.lt, Mmu.physical, ← hk.offsetMask]
    rfl
  have hframe : (∀ a, a &&& cfg.dmmu.pageMask = va &&& cfg.dmmu.pageMask →
      (dmmuTranslate cfg s a write).1 =
        (vt &&& cfg.dmmu.pageMask) + (a &&& cfg.dmmu.pageOffsetMask)) ↔
      Framed cfg (entry cfg va w true) vt := by
    rw [← framed_iff hk rfl rfl, ← htr, ← forall_frame_iff _ _ va]
    rw [hk.pageMask, hk.offsetMask] at *
    exact forall₂_congr fun a ha => by rw [hphysical a ha]
  rw [← hpage, ← hframe]
  refine ⟨fun h => ⟨h.frame, h.page⟩, fun ⟨hfr, hpg⟩ => ⟨hpg, hfr, fun a ha => ?_⟩⟩
  -- The frame cancels, and so does the number of the page.
  rw [hfr a ha, hfr va rfl, add_sub_add_left_word]
  rw [hk.pageMask] at ha
  rw [hk.offsetMask]
  conv_rhs => rw [← page_add_offset a k, ← page_add_offset va k, ha,
    add_sub_add_left_word]

end

/-- Pages of 4 KB. -/
def smallPages : Config :=
  { defaultConfig with dmmu := ⟨1, 1, 4096, defaultMmu.nways_le, defaultMmu.nsets_le⟩ }

/-- The data MMU is on. -/
def smallPagesState : Sim :=
  powerOn 0x609 0x8021 (.flat fun _ => 0)

/-- The first page has been given a frame. -/
def smallPagesLoaded (frame : Word) : Sim :=
  let s := maskTlb smallPages (smallPagesState.setSpr 0x0a00 1) 0x0a00 1
  maskTlb smallPages (s.setSpr 0x0a80 frame) 0x0a80 frame

theorem smallPagesLoaded_run (frame : Word) :
    ∃ written, TlbRun smallPages written (smallPagesLoaded frame) ∧
      written (entry smallPages 0 0 false) = some 1 ∧
      written (entry smallPages 0 0 true) = some frame := by
  have hmatch : (entry smallPages 0 0 false).regno = 0x0a00 := by decide
  have htr : (entry smallPages 0 0 true).regno = 0x0a80 := by decide
  have hfirst : mtspr smallPages smallPagesState (entry smallPages 0 0 false).regno 1 =
      .ok (maskTlb smallPages (smallPagesState.setSpr 0x0a00 1) 0x0a00 1) := by
    rw [mtspr_tlb _ _ (TlbReg.inTlb _), hmatch]
  have hsecond : mtspr smallPages (maskTlb smallPages (smallPagesState.setSpr 0x0a00 1) 0x0a00 1)
      (entry smallPages 0 0 true).regno frame = .ok (smallPagesLoaded frame) := by
    rw [mtspr_tlb _ _ (TlbReg.inTlb _), htr]
    rfl
  refine ⟨_, ((TlbRun.start smallPagesState).write _ 1 hfirst).write _ frame hsecond, ?_,
    Function.update_self ..⟩
  rw [Function.update_of_ne (by decide), Function.update_self]

/-- With pages of 4 KB the second frame is truncated to the first. -/
theorem frame_truncated :
    ∃ written, TlbRun smallPages written (smallPagesLoaded 0x13c0) ∧
      HitsWay smallPages.dataMmu (smallPagesLoaded 0x13c0) 0 0 ∧
      written (entry smallPages 0 0 false) = some 1 ∧
      written (entry smallPages 0 0 true) = some 0x13c0 ∧
      (dmmuTranslate smallPages (smallPagesLoaded 0x13c0) 0 false).2.exceptPending = false ∧
      (dmmuTranslate smallPages (smallPagesLoaded 0x13c0) 0 false).1 = 0 ∧
      ¬Composes smallPages (smallPagesLoaded 0x13c0) 0 false 1 0x13c0 := by
  obtain ⟨written, hrun, hvm, hvt⟩ := smallPagesLoaded_run 0x13c0
  have hzero : (dmmuTranslate smallPages (smallPagesLoaded 0x13c0) 0 false).1 = 0 := by
    decide
  refine ⟨written, hrun, ⟨by decide, by decide, by decide⟩, hvm, hvt,
    by decide, hzero, fun h => ?_⟩
  exact absurd (hzero.symm.trans (h.frame 0 rfl)) (by decide)

/-- Its third frame is one of 8 KB. -/
theorem translation_composes_even :
    Composes smallPages (smallPagesLoaded 0x23c0) 0 false 1 0x23c0 := by
  obtain ⟨written, hrun, hvm, hvt⟩ := smallPagesLoaded_run 0x23c0
  have hk : PageBits smallPages.dmmu 12 := ⟨by decide, by decide⟩
  have hhit : HitsWay smallPages.dataMmu (smallPagesLoaded 0x23c0) 0 0 :=
    ⟨by decide, by decide, by decide⟩
  exact (translation_composes smallPages hk hrun hhit hvm hvt false).2
    ⟨⟨by decide, by decide⟩, hk.unaged (by decide) _ _⟩

end Cpu
end Or1ksim
