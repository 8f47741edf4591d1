import Mathlib.Data.Nat.ModEq
import Or1ksim.Ata.Basic

/-!
# Sector numbers in the task file

A sector number is taken apart by `ata_set_sect` and put together by `ata_calc_lba`.

* `RoundTrip`, `Unchanged` — a number, or the registers, come back as they were;
* `Splits` — the number has a cylinder of one byte, and what is left of it fits the other registers;
* `roundTrip_iff`, `unchanged_iff` — **when that happens**, in either mode.
-/

namespace Or1ksim
namespace Ata

open Bits

variable {d t : Device} {s : Word}

/-! ### Registers as numbers -/

theorem dhrH_eq_lowMask : dhrH = lowMask 8 4 := rfl

/-- The cylinder, a number of 16 bits. -/
def Device.cylinder (d : Device) : ℕ := d.regs.cylinderHigh.toNat * 256 + d.regs.cylinderLow.toNat

/-- The head, a number of 4 bits. -/
def Device.head (d : Device) : ℕ := d.regs.deviceHead.toNat % 16

/-- The sector number, counted from 1. -/
def Device.sector (d : Device) : ℕ := d.regs.sectorNumber.toNat

theorem toNat_head (d : Device) : (d.regs.deviceHead &&& dhrH).toNat = d.head := by
  rw [dhrH_eq_lowMask, toNat_and_lowMask _ (by decide)]
  rfl

theorem and_dhrLba (a b : Byte) : ((a &&& ~~~dhrH) ||| (b &&& 0xf)) &&& dhrLba = a &&& dhrLba := by
  have hlow : (0xf : Byte) &&& dhrLba = 0 := rfl
  have hhigh : ~~~dhrH &&& dhrLba = dhrLba := rfl
  rw [BitVec.and_or_distrib_right, BitVec.and_assoc, BitVec.and_assoc, hlow, hhigh,
    show b &&& 0 = 0 from BitVec.and_zero, show _ ||| (0 : Byte) = _ from BitVec.or_zero]

theorem and_not_dhrH_dhrLba (a : Byte) : a &&& ~~~dhrH &&& dhrLba = a &&& dhrLba := by
  rw [BitVec.and_assoc]
  rfl

theorem and_dhrH (a b : Byte) : ((a &&& ~~~dhrH) ||| (b &&& 0xf)) &&& dhrH = b &&& dhrH := by
  have hlow : (0xf : Byte) &&& dhrH = dhrH := rfl
  have hhigh : ~~~dhrH &&& dhrH = 0 := rfl
  rw [BitVec.and_or_distrib_right, BitVec.and_assoc, BitVec.and_assoc, hlow, hhigh,
    show a &&& 0 = 0 from BitVec.and_zero, show (0 : Byte) ||| _ = _ from BitVec.zero_or]

theorem replaceHead_eq_iff {a b : Byte} :
    (a &&& ~~~dhrH) ||| (b &&& 0xf) = a ↔ b.toNat % 16 = a.toNat % 16 := by
  have hmod : ∀ x : Byte, (x &&& dhrH).toNat = x.toNat % 16 := fun x => by
    rw [dhrH_eq_lowMask, toNat_and_lowMask _ (by decide)]
    rfl
  constructor
  · intro h
    rw [← hmod, ← hmod a, ← and_dhrH a b, h]
  · intro h
    have hand : b &&& dhrH = a &&& dhrH := BitVec.eq_of_toNat_eq (by rw [hmod, hmod, h])
    change (a &&& ~~~dhrH) ||| (b &&& dhrH) = a
    rw [hand, dhrH_eq_lowMask]
    exact and_not_lowMask_or a 4

/-- A byte of the address is put below the bytes that are there. -/
theorem toNat_or_shiftLeft {a : Word} {b : Byte} {k : ℕ} (hk : k ≤ 24)
    (ha : a.toNat % 2 ^ (k + 8) = 0) :
    (a ||| (b.setWidth 32 <<< k)).toNat = a.toNat + b.toNat * 2 ^ k := by
  have hpow : 2 ^ k ≤ 2 ^ 24 := Nat.pow_le_pow_right (by decide) hk
  have hlt : b.toNat * 2 ^ k < 2 ^ (k + 8) := by
    rw [Nat.pow_add, Nat.mul_comm]
    exact Nat.mul_lt_mul_of_pos_left b.isLt (Nat.two_pow_pos k)
  have hle : 2 ^ (k + 8) ≤ 2 ^ 32 := Nat.pow_le_pow_right (by decide) (by omega)
  have hshift : (b.setWidth 32 <<< k : Word).toNat = b.toNat * 2 ^ k := by
    rw [BitVec.toNat_shiftLeft, BitVec.toNat_setWidth, Nat.shiftLeft_eq,
      Nat.mod_eq_of_lt (b.isLt.trans (by decide)), Nat.mod_eq_of_lt (hlt.trans_le hle)]
  rw [toNat_or_of_disjoint ha (by rw [hshift]; exact hlt), hshift]

theorem toNat_byte (b : Byte) : (b.setWidth 32 : Word).toNat = b.toNat := by
  rw [BitVec.toNat_setWidth, Nat.mod_eq_of_lt (b.isLt.trans (by decide))]

theorem toNat_ataCalcLba_lba (h : d.Lba) :
    (ataCalcLba d).toNat = d.head * 2 ^ 24 + d.cylinder * 2 ^ 8 + d.sector := by
  have hhead : d.head < 16 := Nat.mod_lt _ (by decide)
  have hhigh := d.regs.cylinderHigh.isLt
  have hlow := d.regs.cylinderLow.isLt
  have hfirst : ((d.regs.deviceHead &&& dhrH).setWidth 32 <<< 24 : Word).toNat =
      d.head * 2 ^ 24 := by
    rw [BitVec.toNat_shiftLeft, Nat.shiftLeft_eq, toNat_byte, toNat_head,
      Nat.mod_eq_of_lt (by omega)]
  have hsecond := toNat_or_shiftLeft (b := d.regs.cylinderHigh) (k := 16) (by decide)
    (a := (d.regs.deviceHead &&& dhrH).setWidth 32 <<< 24) (by rw [hfirst]; omega)
  rw [hfirst] at hsecond
  have hthird := toNat_or_shiftLeft (b := d.regs.cylinderLow) (k := 8) (by decide)
    (a := ((d.regs.deviceHead &&& dhrH).setWidth 32 <<< 24) |||
      (d.regs.cylinderHigh.setWidth 32 <<< 16)) (by rw [hsecond]; omega)
  rw [hsecond] at hthird
  have hlba : ataCalcLba d = ((d.regs.deviceHead &&& dhrH).setWidth 32 <<< 24) |||
      (d.regs.cylinderHigh.setWidth 32 <<< 16) ||| (d.regs.cylinderLow.setWidth 32 <<< 8) |||
        d.regs.sectorNumber.setWidth 32 := if_pos h
  rw [hlba, toNat_or_of_disjoint (k := 8) (by rw [hthird]; omega)
    (by rw [toNat_byte]; exact d.regs.sectorNumber.isLt), hthird, toNat_byte, Device.cylinder,
    Device.sector]
  omega

/-- The address in CHS mode: the upper byte of the cylinder goes 16 bits up, not 8. -/
theorem toNat_ataCalcLba_chs (h : ¬d.Lba) :
    (ataCalcLba d).toNat =
      (((d.cylinder + d.regs.cylinderHigh.toNat * 65280) * d.internals.headsPerCylinder.toNat +
        d.head) * d.internals.sectorsPerTrack.toNat + d.sector + (2 ^ 32 - 1)) % 2 ^ 32 := by
  have hlow := d.regs.cylinderLow.isLt
  have hhigh := d.regs.cylinderHigh.isLt
  have hcyl : ((d.regs.cylinderHigh.setWidth 32 <<< 16) |||
      d.regs.cylinderLow.setWidth 32 : Word).toNat =
        d.cylinder + d.regs.cylinderHigh.toNat * 65280 := by
    have hshift : (d.regs.cylinderHigh.setWidth 32 <<< 16 : Word).toNat =
        d.regs.cylinderHigh.toNat * 2 ^ 16 := by
      rw [BitVec.toNat_shiftLeft, Nat.shiftLeft_eq, toNat_byte, Nat.mod_eq_of_lt (by omega)]
    rw [toNat_or_of_disjoint (k := 16) (by rw [hshift]; exact Nat.mul_mod_left _ _)
      (by rw [toNat_byte]; omega), hshift, toNat_byte, Device.cylinder]
    omega
  have hlba : ataCalcLba d =
      (((d.regs.cylinderHigh.setWidth 32 <<< 16) ||| d.regs.cylinderLow.setWidth 32) *
        d.internals.headsPerCylinder + (d.regs.deviceHead &&& dhrH).setWidth 32) *
          d.internals.sectorsPerTrack + d.regs.sectorNumber.setWidth 32 - 1 := if_neg h
  rw [hlba, BitVec.toNat_sub, BitVec.toNat_add, BitVec.toNat_mul, BitVec.toNat_add,
    BitVec.toNat_mul, hcyl, toNat_byte, toNat_byte, toNat_head, Device.sector]
  simp only [Nat.mod_add_mod, Nat.mod_mul_mod, Nat.add_mod_mod]
  rw [Nat.add_comm]
  rfl

/-! ### Setting the registers -/

section SetAddress

variable {number low high head : Byte}

theorem setAddress_lba : (d.setAddress number low high head).Lba ↔ d.Lba := by
  unfold Device.Lba Device.setAddress
  dsimp only
  rw [and_dhrLba]

theorem setAddress_head : (d.setAddress number low high head).head = head.toNat % 16 := by
  rw [← toNat_head]
  unfold Device.setAddress
  dsimp only
  rw [and_dhrH, dhrH_eq_lowMask, toNat_and_lowMask _ (by decide)]
  rfl

theorem setAddress_cylinder :
    (d.setAddress number low high head).cylinder = high.toNat * 256 + low.toNat := rfl

/-- The registers stay as they are if they are set to what they hold. -/
theorem setAddress_regs :
    (d.setAddress number low high head).regs = d.regs ↔
      number.toNat = d.sector ∧ high.toNat * 256 + low.toNat = d.cylinder ∧
        head.toNat % 16 = d.head := by
  have hlow := low.isLt
  have hlow' := d.regs.cylinderLow.isLt
  rw [Regs.ext_iff]
  unfold Device.setAddress Device.sector Device.cylinder Device.head
  simp only [replaceHead_eq_iff, true_and, and_true]
  simp only [← BitVec.toNat_inj]
  omega

end SetAddress

theorem ataSetSect_lba (h : d.Lba) (s : Word) :
    ataSetSect s d = some (d.setAddress (s.setWidth 8) ((s >>> 8).setWidth 8)
      ((s >>> 16).setWidth 8) ((s >>> 24).setWidth 8)) :=
  if_pos (by rw [and_not_dhrH_dhrLba]; exact h)

/-- The sectors of a cylinder, an `unsigned int`. -/
def Device.perCylinder (d : Device) : ℕ := (d.conf.heads * d.conf.sectors).toNat

/-- What is left of a sector number without its cylinder, in 16 bits. -/
def Device.track (d : Device) (s : ℕ) : ℕ := s % d.perCylinder % 2 ^ 16

/-- What `ata_set_sect` writes in CHS mode, unless it divides by zero. -/
theorem ataSetSect_chs (h : ¬d.Lba) (ht : ataSetSect s d = some t) :
    d.perCylinder ≠ 0 ∧ ∃ number low high head : Byte,
      t = d.setAddress number low high head ∧
      number.toNat = (d.track s.toNat % d.conf.sectors.toNat + 1) % 256 ∧
      high.toNat * 256 + low.toNat = s.toNat / d.perCylinder % 2 ^ 16 ∧
      head.toNat % 16 = d.track s.toNat / d.conf.sectors.toNat % 16 := by
  unfold ataSetSect at ht
  rw [and_not_dhrH_dhrLba, if_neg (show ¬(d.regs.deviceHead &&& dhrLba ≠ 0) from h)] at ht
  dsimp only at ht
  split at ht
  · cases ht
  · next hzero =>
    refine ⟨fun hz => hzero (BitVec.eq_of_toNat_eq hz), _, _, _, _, (Option.some.inj ht).symm, ?_⟩
    have htrack : (((s % (d.conf.heads * d.conf.sectors)).setWidth 16).setWidth 32 : Word).toNat =
        d.track s.toNat := by
      rw [BitVec.toNat_setWidth, BitVec.toNat_setWidth, BitVec.toNat_umod]
      exact Nat.mod_eq_of_lt ((Nat.mod_lt _ (by decide)).trans (by decide))
    have hcyl : ((s / (d.conf.heads * d.conf.sectors)).setWidth 16 : Half).toNat =
        s.toNat / d.perCylinder % 2 ^ 16 := by
      rw [BitVec.toNat_setWidth, BitVec.toNat_udiv]
      rfl
    have hcylLt := ((s / (d.conf.heads * d.conf.sectors)).setWidth 16 : Half).isLt
    refine ⟨?_, ?_, ?_⟩
    · rw [BitVec.toNat_setWidth, BitVec.toNat_add, BitVec.toNat_umod, htrack,
        Nat.mod_mod_of_dvd _ (by decide)]
      rfl
    · rw [BitVec.toNat_setWidth, BitVec.toNat_setWidth, BitVec.toNat_ushiftRight,
        Nat.shiftRight_eq_div_pow, hcyl]
      omega
    · rw [BitVec.toNat_setWidth, BitVec.toNat_udiv, htrack, Nat.mod_mod_of_dvd _ (by decide)]

theorem ataSetSect_eq_none (h : ¬d.Lba) (hzero : d.perCylinder = 0) (s : Word) :
    ataSetSect s d = none := by
  unfold ataSetSect
  rw [and_not_dhrH_dhrLba, if_neg (show ¬(d.regs.deviceHead &&& dhrLba ≠ 0) from h)]
  exact if_pos (BitVec.eq_of_toNat_eq (show (d.conf.heads * d.conf.sectors).toNat = 0 from hzero))

theorem exists_ataSetSect (h : ¬d.Lba) (hpos : d.perCylinder ≠ 0) (s : Word) :
    ∃ t, ataSetSect s d = some t := by
  unfold ataSetSect
  rw [and_not_dhrH_dhrLba, if_neg (show ¬(d.regs.deviceHead &&& dhrLba ≠ 0) from h)]
  dsimp only
  rw [if_neg fun hz => hpos (by rw [Device.perCylinder, hz]; rfl)]
  exact ⟨_, rfl⟩

/-! ### Sector numbers -/

/-- The number comes back. -/
def RoundTrip (d : Device) (s : Word) : Prop :=
  ∃ t, ataSetSect s d = some t ∧ ataCalcLba t = s

/-- The registers come back. -/
def Unchanged (d : Device) : Prop :=
  ∃ t, ataSetSect (ataCalcLba d) d = some t ∧ t.regs = d.regs

/-- The current translation is the configured one. -/
structure Translated (d : Device) : Prop where
  heads : d.internals.headsPerCylinder = d.conf.heads
  sectors : d.internals.sectorsPerTrack = d.conf.sectors
  heads_ne : d.conf.heads ≠ 0
  sectors_ne : d.conf.sectors ≠ 0

/-- The cylinder of the number needs one byte only, and what is left fits into 16 bits, a head of 4
bits and a sector number of 8 bits. -/
def Splits (d : Device) (s : ℕ) : Prop :=
  d.perCylinder ≠ 0 ∧ s / d.perCylinder < 2 ^ 8 ∧ s % d.perCylinder < 2 ^ 16 ∧
    s % d.perCylinder / d.conf.sectors.toNat < 16 ∧ s % d.perCylinder % d.conf.sectors.toNat < 255

instance (d : Device) (s : ℕ) : Decidable (Splits d s) :=
  inferInstanceAs (Decidable (_ ∧ _ ∧ _ ∧ _ ∧ _))

theorem sizeSect_lt (conf : Conf) : conf.sizeSect.toNat < 2 ^ 23 := by
  have hlt := conf.size.isLt
  have hdiv : conf.sizeSect.toNat = conf.size.toNat / 512 := BitVec.toNat_udiv
  rw [hdiv]
  omega

/-- The number that is put together where the cylinder has a multiple `k` of 2 ^ 16 cut off and `h`
in its upper byte, and where `x` is left of the rest `r`. -/
theorem putTogether_eq_iff {N c h k r x : ℕ} (hN : 0 < N) (hh : h ≤ 255) (hhc : 256 * h ≤ c)
    (hs : (c + 2 ^ 16 * k) * N + r < 2 ^ 23) (hr : r < N) (hx : x ≤ r + 1) :
    ((c + h * 65280) * N + x + (2 ^ 32 - 1)) % 2 ^ 32 = (c + 2 ^ 16 * k) * N + r ↔
      h = 0 ∧ k = 0 ∧ x = r + 1 := by
  have hhN : 256 * h * N ≤ c * N := Nat.mul_le_mul_right N hhc
  rw [Nat.add_mul, Nat.add_mul, Nat.mul_assoc (2 ^ 16)] at *
  have hsplit : h * 65280 * N = 65280 * (h * N) := by ring
  have hsplit' : 256 * h * N = 256 * (h * N) := by ring
  rw [hsplit] at *
  rw [hsplit'] at hhN
  constructor
  · intro heq
    -- Nothing wraps around, and the two sides differ by a multiple of 256 cylinders.
    have hint : 65280 * (h * N) + x = 65536 * (k * N) + r + 1 := by omega
    have hhk : 255 * h = 256 * k := by
      by_contra hne
      rcases Nat.lt_or_gt_of_ne hne with hlt | hgt
      · have hmul : (255 * h + 1) * N ≤ 256 * k * N := Nat.mul_le_mul_right N hlt
        have he1 : (255 * h + 1) * N = 255 * (h * N) + N := by ring
        have he2 : 256 * k * N = 256 * (k * N) := by ring
        omega
      · have hmul : (256 * k + 1) * N ≤ 255 * h * N := Nat.mul_le_mul_right N hgt
        have he1 : (256 * k + 1) * N = 256 * (k * N) + N := by ring
        have he2 : 255 * h * N = 255 * (h * N) := by ring
        omega
    have hzero : h = 0 ∧ k = 0 := by omega
    obtain ⟨rfl, rfl⟩ := hzero
    omega
  · rintro ⟨rfl, rfl, rfl⟩
    omega

/-- What is left of the rest `r` of a number in 16 bits, a head of 4 bits and a sector number of 8
bits is at most the rest. -/
theorem rest_le (r S : ℕ) :
    r % 2 ^ 16 / S % 16 * S + (r % 2 ^ 16 % S + 1) % 256 ≤ r + 1 := by
  have hhead : r % 2 ^ 16 / S % 16 * S ≤ r % 2 ^ 16 / S * S :=
    Nat.mul_le_mul_right S (Nat.mod_le _ _)
  have hnumber : (r % 2 ^ 16 % S + 1) % 256 ≤ r % 2 ^ 16 % S + 1 := Nat.mod_le _ _
  have hdiv := Nat.div_add_mod' (r % 2 ^ 16) S
  have hmod : r % 2 ^ 16 ≤ r := Nat.mod_le _ _
  omega

theorem rest_eq_iff {r S : ℕ} (hS : 0 < S) :
    r % 2 ^ 16 / S % 16 * S + (r % 2 ^ 16 % S + 1) % 256 = r + 1 ↔
      r < 2 ^ 16 ∧ r / S < 16 ∧ r % S < 255 := by
  constructor
  · intro h
    have hhead : r % 2 ^ 16 / S % 16 * S ≤ r % 2 ^ 16 / S * S :=
      Nat.mul_le_mul_right S (Nat.mod_le _ _)
    have hnumber : (r % 2 ^ 16 % S + 1) % 256 ≤ r % 2 ^ 16 % S + 1 := Nat.mod_le _ _
    have hdiv := Nat.div_add_mod' (r % 2 ^ 16) S
    have hmod : r % 2 ^ 16 ≤ r := Nat.mod_le _ _
    have hall : r % 2 ^ 16 = r := by omega
    rw [hall] at h hhead hnumber hdiv
    have hsame : r / S % 16 = r / S := Nat.eq_of_mul_eq_mul_right hS (by omega)
    have hlt : r < 2 ^ 16 := hall ▸ Nat.mod_lt _ (by decide)
    exact ⟨hlt, hsame ▸ Nat.mod_lt _ (by decide), by omega⟩
  · rintro ⟨hr, hhead, hnumber⟩
    have hdiv := Nat.div_add_mod' r S
    rw [Nat.mod_eq_of_lt hr, Nat.mod_eq_of_lt hhead, Nat.mod_eq_of_lt (by omega)]
    omega

theorem product_mod (c H S h n k M : ℕ) :
    ((c * H + h) * S + n + k) % M = (c * (H * S % M) + (h * S + n) + k) % M := by
  have hmod : c * (H * S) ≡ c * (H * S % M) [MOD M] := (Nat.mod_modEq _ _).symm.mul_left c
  have hsum := (hmod.add_right (h * S + n)).add_right k
  rw [show (c * H + h) * S + n + k = c * (H * S) + (h * S + n) + k by ring]
  exact hsum

/-- The product of the sectors and the heads may wrap around; the address does so, too. -/
theorem toNat_ataCalcLba_mod (h : ¬d.Lba) (ht : Translated d) :
    (ataCalcLba d).toNat =
      ((d.cylinder + d.regs.cylinderHigh.toNat * 65280) * d.perCylinder +
        (d.head * d.conf.sectors.toNat + d.sector) + (2 ^ 32 - 1)) % 2 ^ 32 := by
  rw [toNat_ataCalcLba_chs h, ht.heads, ht.sectors, Device.perCylinder, BitVec.toNat_mul]
  exact product_mod _ _ _ _ _ _ _

theorem cylinder_bytes {high low q : ℕ} (hhigh : high < 2 ^ 8) (hlow : low < 2 ^ 8)
    (h : high * 256 + low = q % 2 ^ 16) :
    high * 256 + low + 2 ^ 16 * (q / 2 ^ 16) = q ∧ 256 * high ≤ high * 256 + low ∧
      (high = 0 ∧ q / 2 ^ 16 = 0 ↔ q < 2 ^ 8) := by
  omega

/-- **The round trip in CHS mode**, for the sectors of a disk. -/
theorem roundTrip_chs_iff (h : ¬d.Lba) (ht : Translated d) (hs : s.toNat < 2 ^ 23) :
    RoundTrip d s ↔ Splits d s.toNat := by
  by_cases hzero : d.perCylinder = 0
  · refine iff_of_false ?_ fun hsplits => hsplits.1 hzero
    rintro ⟨t, hset, -⟩
    rw [ataSetSect_eq_none h hzero] at hset
    cases hset
  · obtain ⟨t, hset⟩ := exists_ataSetSect h hzero s
    obtain ⟨-, number, low, high, head, rfl, hnumber, hcyl, hhead⟩ := ataSetSect_chs h hset
    -- The number by its cylinder, of which 16 bits are kept, and the rest.
    obtain ⟨hq, hbytes, hcylinder⟩ := cylinder_bytes high.isLt low.isLt hcyl
    have hround : RoundTrip d s ↔ (ataCalcLba (d.setAddress number low high head)).toNat =
        s.toNat := by
      rw [RoundTrip, hset]
      simp only [Option.some.injEq, exists_eq_left', BitVec.toNat_inj]
    have hcalc := toNat_ataCalcLba_mod (d := d.setAddress number low high head)
      (fun hlba => h (setAddress_lba.1 hlba)) ⟨ht.heads, ht.sectors, ht.heads_ne, ht.sectors_ne⟩
    rw [setAddress_cylinder, setAddress_head] at hcalc
    change _ = ((high.toNat * 256 + low.toNat + high.toNat * 65280) * d.perCylinder +
      (head.toNat % 16 * d.conf.sectors.toNat + number.toNat) + (2 ^ 32 - 1)) % 2 ^ 32 at hcalc
    rw [hhead, hnumber, Device.track] at hcalc
    have hsectors : 0 < d.conf.sectors.toNat :=
      Nat.pos_of_ne_zero fun hz => ht.sectors_ne (BitVec.eq_of_toNat_eq hz)
    have hpos := Nat.pos_of_ne_zero hzero
    have hsum : (high.toNat * 256 + low.toNat + 2 ^ 16 * (s.toNat / d.perCylinder / 2 ^ 16)) *
        d.perCylinder + s.toNat % d.perCylinder = s.toNat := by
      rw [hq, Nat.div_add_mod']
    have hput := putTogether_eq_iff hpos (Nat.le_of_lt_succ high.isLt) hbytes (hsum.trans_lt hs)
      (Nat.mod_lt s.toNat hpos) (rest_le (s.toNat % d.perCylinder) d.conf.sectors.toNat)
    rw [hsum, ← hcalc, rest_eq_iff hsectors] at hput
    rw [hround, hput, Splits]
    rw [← and_assoc, hcylinder]
    exact (and_iff_right hzero).symm

theorem roundTrip_lba (h : d.Lba) (hs : s.toNat < 2 ^ 28) : RoundTrip d s := by
  refine ⟨_, ataSetSect_lba h s, BitVec.eq_of_toNat_eq ?_⟩
  rw [toNat_ataCalcLba_lba (setAddress_lba.2 h), setAddress_head, setAddress_cylinder]
  unfold Device.sector Device.setAddress
  simp only [BitVec.toNat_setWidth, BitVec.toNat_ushiftRight, Nat.shiftRight_eq_div_pow]
  omega

/-! ### Register contents -/

theorem unchanged_lba (h : d.Lba) : Unchanged d := by
  have hhead : d.head < 16 := Nat.mod_lt _ (by decide)
  have hcyl : d.cylinder < 2 ^ 16 := by
    have hhigh := d.regs.cylinderHigh.isLt
    have hlow := d.regs.cylinderLow.isLt
    unfold Device.cylinder
    omega
  have hsector : d.sector < 2 ^ 8 := d.regs.sectorNumber.isLt
  refine ⟨_, ataSetSect_lba h _, setAddress_regs.2 ?_⟩
  simp only [BitVec.toNat_setWidth, BitVec.toNat_ushiftRight, Nat.shiftRight_eq_div_pow,
    toNat_ataCalcLba_lba h]
  omega

/-- The sector that the registers name in CHS mode. -/
def Device.address (d : Device) : ℕ :=
  (d.cylinder * d.conf.heads.toNat + d.head) * d.conf.sectors.toNat + d.sector - 1

/-- The registers name a sector of the disk. -/
structure InRange (d : Device) : Prop where
  head : d.head < d.conf.heads.toNat
  sector_pos : 0 < d.sector
  sector_le : d.sector ≤ d.conf.sectors.toNat
  address : d.address < d.conf.sizeSect.toNat

/-- The upper byte of the cylinder is not used, and the sector is taken apart at its cylinder and
fits into 16 bits without it. -/
def LowCylinder (d : Device) : Prop :=
  d.regs.cylinderHigh = 0 ∧ d.perCylinder ≠ 0 ∧ d.address / d.perCylinder = d.cylinder ∧
    d.address % d.perCylinder < 2 ^ 16

/-- What is kept of a rest that does not fit into 16 bits is on another head. -/
theorem rest_lost {S h n r : ℕ} (hh : h < 16) (hn' : n < 256) (hfar : r + 256 ≤ h * S + n) :
    r / S % 16 ≠ h := by
  intro hhead
  have hmul : h * S ≤ 15 * S := Nat.mul_le_mul_right S (by omega)
  have hlt : r / S < 16 := Nat.div_lt_of_lt_mul (by omega)
  rw [Nat.mod_eq_of_lt hlt] at hhead
  have hle : h * S ≤ r := hhead ▸ Nat.div_mul_le_self r S
  omega

/-- A head and a sector number that are one of a track are the quotient and the rest. -/
theorem track_div_mod {S h n : ℕ} (hn : 0 < n) (hle : n ≤ S) :
    (h * S + n - 1) / S = h ∧ (h * S + n - 1) % S = n - 1 := by
  have hsum : h * S + n - 1 = n - 1 + S * h := by
    rw [Nat.mul_comm]
    omega
  rw [hsum, Nat.add_mul_div_left _ _ (by omega), Nat.add_mul_mod_self_left,
    Nat.div_eq_of_lt (by omega), Nat.mod_eq_of_lt (by omega)]
  omega

/-- Cylinder, head and sector number come back from a sector exactly if it is taken apart at its
cylinder and what is left fits into 16 bits. -/
theorem takenApart_iff {C S h n N a : ℕ} (hN : 0 < N) (hC : C < 2 ^ 16) (hh : h < 16) (hn : 0 < n)
    (hn' : n < 256) (hle : n ≤ S) (ha : a = C * N + (h * S + n - 1)) :
    (a % N % 2 ^ 16 % S + 1) % 256 = n ∧ a / N % 2 ^ 16 = C ∧ a % N % 2 ^ 16 / S % 16 = h ↔
      a / N = C ∧ a % N < 2 ^ 16 := by
  have hdiv := Nat.div_add_mod' a N
  have hmod : a % N < N := Nat.mod_lt a hN
  constructor
  · rintro ⟨-, hcyl, hhead⟩
    have hkept : a % N % 2 ^ 16 < 2 ^ 16 := Nat.mod_lt _ (by decide)
    have hqC : a / N = C := by
      by_contra hne
      -- At least 2 ^ 16 cylinders too many are taken off, so that the rest is a long one.
      have hfar : C + 2 ^ 16 ≤ a / N := by
        generalize a / N = q at hcyl hne
        omega
      have hmul : (C + 2 ^ 16) * N ≤ a / N * N := Nat.mul_le_mul_right N hfar
      rw [Nat.add_mul] at hmul
      have hrest : a % N % 2 ^ 16 ≤ a % N := Nat.mod_le _ _
      exact rest_lost hh hn' (by omega) hhead
    have hrest : a % N = h * S + n - 1 := by
      rw [hqC] at hdiv
      omega
    refine ⟨hqC, ?_⟩
    by_contra hlong
    rw [hrest] at hlong hhead hkept
    exact rest_lost hh hn' (by omega) hhead
  · rintro ⟨hqC, hfits⟩
    have hrest : a % N = h * S + n - 1 := by
      rw [hqC] at hdiv
      omega
    obtain ⟨hquot, hrem⟩ := track_div_mod (h := h) hn hle
    rw [Nat.mod_eq_of_lt hfits, hrest, hquot, hrem, hqC, Nat.mod_eq_of_lt hC, Nat.mod_eq_of_lt hh,
      Nat.sub_add_cancel hn, Nat.mod_eq_of_lt hn']
    exact ⟨rfl, rfl, rfl⟩

/-- The sector that the registers name, by its cylinder.  If the sectors of a cylinder are too many
for an `unsigned int`, the cylinder is the first one. -/
theorem address_eq (hin : InRange d) :
    d.address = d.cylinder * d.perCylinder + (d.head * d.conf.sectors.toNat + d.sector - 1) ∧
      (d.cylinder ≠ 0 → d.perCylinder = d.conf.heads.toNat * d.conf.sectors.toNat) := by
  have hsmall : d.address < 2 ^ 23 := hin.address.trans (sizeSect_lt d.conf)
  have hsector := hin.sector_pos
  have hper : d.perCylinder = d.conf.heads.toNat * d.conf.sectors.toNat % 2 ^ 32 :=
    BitVec.toNat_mul _ _
  have hsum : d.address = d.cylinder * (d.conf.heads.toNat * d.conf.sectors.toNat) +
      (d.head * d.conf.sectors.toNat + d.sector - 1) := by
    have hring : (d.cylinder * d.conf.heads.toNat + d.head) * d.conf.sectors.toNat =
        d.cylinder * (d.conf.heads.toNat * d.conf.sectors.toNat) +
          d.head * d.conf.sectors.toNat := by ring
    unfold Device.address
    omega
  by_cases hzero : d.cylinder = 0
  · rw [hsum, hzero, Nat.zero_mul, Nat.zero_mul]
    exact ⟨rfl, fun hne => absurd rfl hne⟩
  · have hle : d.conf.heads.toNat * d.conf.sectors.toNat ≤
        d.cylinder * (d.conf.heads.toNat * d.conf.sectors.toNat) :=
      Nat.le_mul_of_pos_left _ (Nat.pos_of_ne_zero hzero)
    have hsame : d.perCylinder = d.conf.heads.toNat * d.conf.sectors.toNat := by
      rw [hper, Nat.mod_eq_of_lt (by omega)]
    rw [hsame]
    exact ⟨hsum, fun _ => rfl⟩

/-- With an upper byte in the cylinder the address is of another cylinder. -/
theorem otherCylinder {c low high N r : ℕ} (hc : c = high * 256 + low) (hhigh : 0 < high)
    (hlow : low < 256) (hr : r < N) (hs : c * N + r < 2 ^ 23) :
    ((c + high * 65280) * N + (r + 1) + (2 ^ 32 - 1)) % 2 ^ 32 / N % 2 ^ 16 ≠ c := by
  have hbyte : 256 * (high * N) ≤ c * N := by
    rw [← Nat.mul_assoc]
    exact Nat.mul_le_mul_right N (by omega)
  have hsplit : (c + high * 65280) * N = c * N + 65280 * (high * N) := by ring
  have hwrap : ((c + high * 65280) * N + (r + 1) + (2 ^ 32 - 1)) % 2 ^ 32 =
      r + N * (c + high * 65280) := by
    rw [Nat.mul_comm N, hsplit]
    omega
  rw [hwrap, Nat.add_mul_div_left _ _ (by omega), Nat.div_eq_of_lt hr]
  omega

/-- **Register contents in CHS mode.** -/
theorem unchanged_chs_iff (h : ¬d.Lba) (ht : Translated d) (hin : InRange d) :
    Unchanged d ↔ LowCylinder d := by
  have hhead : d.head < 16 := Nat.mod_lt _ (by decide)
  have hsector : d.sector < 256 := d.regs.sectorNumber.isLt
  have hlow := d.regs.cylinderLow.isLt
  have hhigh := d.regs.cylinderHigh.isLt
  have hcyl : d.cylinder < 2 ^ 16 := by
    unfold Device.cylinder
    omega
  have hsmall : d.address < 2 ^ 23 := hin.address.trans (sizeSect_lt d.conf)
  obtain ⟨haddress, hsame⟩ := address_eq hin
  by_cases hzero : d.perCylinder = 0
  · refine iff_of_false ?_ fun hsplits => hsplits.2.1 hzero
    rintro ⟨t, hset, -⟩
    rw [ataSetSect_eq_none h hzero] at hset
    cases hset
  obtain ⟨t, hset⟩ := exists_ataSetSect h hzero (ataCalcLba d)
  obtain ⟨-, number, low, high, head, rfl, hnumber, hcylinder, hhead'⟩ := ataSetSect_chs h hset
  have hunchanged : Unchanged d ↔
      (d.track (ataCalcLba d).toNat % d.conf.sectors.toNat + 1) % 256 = d.sector ∧
        (ataCalcLba d).toNat / d.perCylinder % 2 ^ 16 = d.cylinder ∧
          d.track (ataCalcLba d).toNat / d.conf.sectors.toNat % 16 = d.head := by
    rw [Unchanged, hset]
    simp only [Option.some.injEq, exists_eq_left']
    rw [setAddress_regs, hnumber, hcylinder, hhead']
  have hcalc := toNat_ataCalcLba_mod h ht
  have hsucc : d.head * d.conf.sectors.toNat + d.sector =
      d.head * d.conf.sectors.toNat + d.sector - 1 + 1 := by
    have hpos := hin.sector_pos
    omega
  rw [hsucc] at hcalc
  rw [hunchanged, LowCylinder]
  by_cases hone : d.regs.cylinderHigh = 0
  · have hlba : (ataCalcLba d).toNat = d.address := by
      rw [hcalc, hone, show (0 : Byte).toNat * 65280 = 0 from rfl, Nat.add_zero, haddress]
      omega
    rw [hlba, Device.track, takenApart_iff (Nat.pos_of_ne_zero hzero) hcyl hhead hin.sector_pos
      hsector hin.sector_le haddress]
    exact ⟨fun hboth => ⟨hone, hzero, hboth⟩, fun hall => hall.2.2⟩
  · refine iff_of_false (fun hall => ?_) fun hall => hone hall.1
    have hupper : 0 < d.regs.cylinderHigh.toNat :=
      Nat.pos_of_ne_zero fun hz => hone (BitVec.eq_of_toNat_eq hz)
    have hper := hsame (by unfold Device.cylinder; omega)
    have hrest : d.head * d.conf.sectors.toNat + d.sector - 1 < d.perCylinder := by
      have hmul : (d.head + 1) * d.conf.sectors.toNat ≤
          d.conf.heads.toNat * d.conf.sectors.toNat := Nat.mul_le_mul_right _ hin.head
      have hpos := hin.sector_pos
      have hle := hin.sector_le
      rw [Nat.add_mul, Nat.one_mul] at hmul
      omega
    have hcylinder' := hall.2.1
    rw [hcalc] at hcylinder'
    exact otherCylinder (c := d.cylinder) rfl hupper hlow hrest (haddress ▸ hsmall) hcylinder'

/-! ### Main results -/

/-- **Sector addressing**: a sector number of 28 bits comes back in LBA mode, and one of the disk in
CHS mode exactly if its cylinder needs one byte only and the rest fits its registers; and in-range
register contents come back in LBA mode, and in CHS mode exactly if the upper byte of the cylinder
is not used and the rest fits. -/
theorem addressing_iff (ht : d.Lba ∨ Translated d) :
    (d.Lba → ∀ s : Word, s.toNat < 2 ^ 28 → RoundTrip d s) ∧
      (∀ s : Word, s.toNat < d.conf.sizeSect.toNat →
        (RoundTrip d s ↔ d.Lba ∨ Splits d s.toNat)) ∧
      (d.Lba ∨ InRange d → (Unchanged d ↔ d.Lba ∨ LowCylinder d)) := by
  refine ⟨fun h s hs => roundTrip_lba h hs, ?_⟩
  by_cases h : d.Lba
  · refine ⟨fun s hs => ?_, fun _ => iff_of_true (unchanged_lba h) (.inl h)⟩
    have hsize := hs.trans (sizeSect_lt d.conf)
    exact iff_of_true (roundTrip_lba h (hsize.trans (by decide))) (.inl h)
  · have ht := ht.resolve_left h
    refine ⟨fun s hs => ?_, fun hin => ?_⟩
    · rw [roundTrip_chs_iff h ht (hs.trans (sizeSect_lt d.conf)), or_iff_right h]
    · rw [unchanged_chs_iff h ht (hin.resolve_left h), or_iff_right h]

/-- A disk of 64 MB with the default geometry, at the given cylinder. -/
def largeDisk (cylinderLow cylinderHigh : Byte) : Device :=
  let conf : Conf := ⟨true, 0x4000000, false, 7, 32, [], 2, 4⟩
  { ataDeviceInit conf [] 0 with
    conf := conf
    internals := { (ataDeviceInit conf [] 0).internals with
      headsPerCylinder := conf.heads, sectorsPerTrack := conf.sectors }
    regs := { (ataDeviceInit conf [] 0).regs with
      cylinderLow := cylinderLow, cylinderHigh := cylinderHigh, sectorNumber := 1 } }

/-- Sector 1000 comes back in CHS mode, and so does the first sector of cylinder 255. -/
theorem addressing_iff_low : RoundTrip (largeDisk 0 0) 1000 ∧ Unchanged (largeDisk 255 0) :=
  ⟨((addressing_iff (d := largeDisk 0 0) (.inr ⟨rfl, rfl, by decide, by decide⟩)).2.1 1000
      (by decide)).2 (.inr (by decide)),
    ((addressing_iff (d := largeDisk 255 0) (.inr ⟨rfl, rfl, by decide, by decide⟩)).2.2
      (.inr ⟨by decide, by decide, by decide, by decide⟩)).2
        (.inr ⟨by decide, by decide, by decide, by decide⟩)⟩

/-- **The upper byte of the cylinder is put together 16 bits up**: from cylinder 256 on, a sector of
the disk does not come back, and neither do the registers. -/
theorem addressing_drifts :
    (ataSetSect 57344 (largeDisk 0 0)).map ataCalcLba = some 14680064 ∧
      ((ataSetSect (ataCalcLba (largeDisk 0 1)) (largeDisk 0 1)).map fun t => t.regs) =
        some (largeDisk 0 0).regs ∧
      ¬RoundTrip (largeDisk 0 0) 57344 ∧ ¬Unchanged (largeDisk 0 1) := by
  have hset : (ataSetSect 57344 (largeDisk 0 0)).map ataCalcLba = some 14680064 := by decide
  have hregs : ((ataSetSect (ataCalcLba (largeDisk 0 1)) (largeDisk 0 1)).map fun t => t.regs) =
      some (largeDisk 0 0).regs := by decide
  refine ⟨hset, hregs, ?_, ?_⟩
  · rintro ⟨t, ht, hback⟩
    rw [ht, Option.map_some, hback] at hset
    exact absurd hset (by decide)
  · rintro ⟨t, ht, hback⟩
    rw [ht, Option.map_some, hback] at hregs
    exact absurd hregs (by decide)

end Ata
end Or1ksim
