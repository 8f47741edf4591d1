import Or1ksim.Memory.Area
import Mathlib.Data.List.Forall2
import Mathlib.Data.List.Induction
import Mathlib.Data.List.Pairwise

/-!
# Registering memory areas

`bit_mask`, `register_memoryarea_mask` and `reg_mem_area` of `cpu/common/abstract.c`.  The size of
an area is rounded up to a power of two, and an area that overlaps a registered one is refused.
Ends of areas are computed in 32 bits, so the end of an area at the top of the address space is 0.

* `bitMask`, `regMemArea` — the functions; none where they exit or never return;
* `regMemArea_span` — an area takes the addresses from its start to its rounded end;
* `regMemAreas_disjoint_iff` — **registered areas are disjoint exactly when none at the top of the
  address space hides another**;
* `top_area_twice` — an area at the top that is registered twice.
-/

namespace Or1ksim
namespace Register

/-- `while (data >> i) data |= 1 << i++;`, at most `n` times; a shift by 32 bits has no result. -/
def bitMaskLoop : ℕ → ℕ → Word → Option Word
  | 0, _, _ => none
  | n + 1, i, data =>
    if 32 ≤ i then none
    else if data >>> i = 0#32 then some data
    else bitMaskLoop n (i + 1) (data ||| 1#32 <<< i)

/-- `bit_mask` -/
def bitMask (data : Word) : Option Word := bitMaskLoop 33 0 (data - 1)

/-- `struct dev_memarea` as it is registered. -/
structure DevMemarea where
  addrMask : Addr
  addrCompare : Addr
  /-- The rounded size. -/
  size : Word
  sizeMask : Word
deriving DecidableEq, Repr

namespace DevMemarea

/-- The address falls into the area. -/
def Takes (r : DevMemarea) (a : Addr) : Prop := a &&& r.addrMask = r.addrCompare

instance (r : DevMemarea) (a : Addr) : Decidable (r.Takes a) :=
  inferInstanceAs (Decidable (_ = _))

/-- "Overlapping memory area(s)": the new area starts in the registered one, or ends behind its
start and starts before its end. -/
def overlaps (r : DevMemarea) (addrCompare : Addr) (size : Word) : Bool :=
  (r.addrCompare ≤ addrCompare && addrCompare < r.addrCompare + r.size) ||
    (r.addrCompare < addrCompare + size && addrCompare < r.addrCompare + r.size)

end DevMemarea

/-- `register_memoryarea_mask`; none is an exit with the overlap error. -/
def registerMemoryareaMask (areas : List DevMemarea) (addrMask addrCompare : Addr) (size : Word) :
    Option (List DevMemarea) :=
  (bitMask size).bind fun sizeMask =>
    let addrCompare := addrCompare &&& addrMask
    if areas.any fun r => r.overlaps addrCompare size then none
    else some (areas ++ [⟨addrMask, addrCompare, size, sizeMask⟩])

/-- `reg_mem_area` -/
def regMemArea (areas : List DevMemarea) (addr : Addr) (size : Word) : Option (List DevMemarea) :=
  (bitMask size).bind fun sizeMask =>
    let addrMask := ~~~sizeMask
    registerMemoryareaMask areas addrMask (addr &&& addrMask) (sizeMask + 1)

/-- A sequence of calls of `reg_mem_area`, starting without areas. -/
def regMemAreas (calls : List (Addr × Word)) : Option (List DevMemarea) :=
  calls.foldlM (fun areas c => regMemArea areas c.1 c.2) []

/-! ### Rounded sizes -/

theorem bitMaskLoop_eq_some {n i : ℕ} {data m : Word} (h : bitMaskLoop n i data = some m)
    (hlow : ∀ j < i, data.getLsbD j) :
    ∃ k < 32, m = Bits.lowMask 32 k ∧ data.toNat < 2 ^ k := by
  induction n generalizing i data with
  | zero => exact nomatch h
  | succ n ih =>
    rw [bitMaskLoop] at h
    split_ifs at h with hi hzero
    · obtain rfl := Option.some.inj h
      have hhigh : data.toNat < 2 ^ i := by
        rw [← BitVec.toNat_inj, BitVec.toNat_ushiftRight, Nat.shiftRight_eq_div_pow] at hzero
        exact (Nat.div_eq_zero_iff_lt (Nat.two_pow_pos i)).1 hzero
      refine ⟨i, Nat.not_le.1 hi, BitVec.eq_of_getLsbD_eq fun j hj => ?_, hhigh⟩
      rw [Bits.getLsbD_lowMask]
      by_cases hji : j < i
      · simp [hlow j hji, hj, hji]
      · have hbit : data.getLsbD j = false :=
          Nat.testBit_lt_two_pow (hhigh.trans_le (Nat.pow_le_pow_right (by decide) (by omega)))
        simp [hbit, hji]
    · obtain ⟨k, hk, hm, hlt⟩ := ih h fun j hj => by
        rcases Nat.lt_succ_iff_lt_or_eq.1 hj with hji | rfl
        · rw [BitVec.getLsbD_or, hlow j hji, Bool.true_or]
        · simp
          omega
      refine ⟨k, hk, hm, Nat.lt_of_le_of_lt ?_ hlt⟩
      rw [BitVec.toNat_or]
      exact Nat.left_le_or

/-- **A size is rounded up to a power of two.** -/
theorem bitMask_eq_some {size m : Word} (h : bitMask size = some m) :
    ∃ k < 32, m = Bits.lowMask 32 k ∧ size.toNat ≤ 2 ^ k := by
  obtain ⟨k, hk, hm, hlt⟩ := bitMaskLoop_eq_some h fun j hj => absurd hj (Nat.not_lt_zero j)
  refine ⟨k, hk, hm, ?_⟩
  rw [BitVec.toNat_sub] at hlt
  have hpow : 2 ^ k ≤ 2 ^ 31 := Nat.pow_le_pow_right (by decide) (by omega)
  have hsize := size.isLt
  simp at hlt
  omega

/-! ### The addresses of an area -/

/-- The area `r` is what a call registers: its start and its size are rounded. -/
structure AreaOf (c : Addr × Word) (r : DevMemarea) : Prop where
  rounded : ∃ k < 32, c.2.toNat ≤ 2 ^ k ∧ r.size.toNat = 2 ^ k ∧
    r.addrMask = ~~~Bits.lowMask 32 k ∧ r.addrCompare.toNat = c.1.toNat / 2 ^ k * 2 ^ k

/-- The start and the end of an area. -/
def DevMemarea.start (r : DevMemarea) : ℕ := r.addrCompare.toNat

/-- The address behind an area, 2^32 at the top of the address space. -/
def DevMemarea.stop (r : DevMemarea) : ℕ := r.addrCompare.toNat + r.size.toNat

namespace AreaOf

variable {c : Addr × Word} {r : DevMemarea} (h : AreaOf c r)
include h

/-- **An area takes the addresses from its start to its end.** -/
theorem takes_iff (a : Addr) : r.Takes a ↔ r.start ≤ a.toNat ∧ a.toNat < r.stop := by
  obtain ⟨k, hk, -, hsize, hmask, hcompare⟩ := h.rounded
  have hpos := Nat.two_pow_pos k
  rw [DevMemarea.Takes, DevMemarea.start, DevMemarea.stop, hmask, ← BitVec.toNat_inj,
    Bits.toNat_and_not_lowMask, hcompare, hsize]
  constructor
  · intro heq
    rw [← heq]
    exact ⟨Nat.div_mul_le_self _ _, Nat.lt_div_mul_add hpos⟩
  · rintro ⟨hle, hlt⟩
    have hdiv : a.toNat / 2 ^ k = c.1.toNat / 2 ^ k := by
      refine Nat.div_eq_of_lt_le hle ?_
      rwa [Nat.add_mul, Nat.one_mul]
    rw [hdiv]

theorem start_lt_stop : r.start < r.stop := by
  obtain ⟨k, -, -, hsize, -⟩ := h.rounded
  exact Nat.lt_add_of_pos_right (hsize ▸ Nat.two_pow_pos k)

theorem stop_le : r.stop ≤ 2 ^ 32 := by
  obtain ⟨k, hk, -, hsize, -, hcompare⟩ := h.rounded
  have hdvd : 2 ^ 32 = 2 ^ (32 - k) * 2 ^ k := by
    rw [← Nat.pow_add, Nat.sub_add_cancel (Nat.le_of_lt hk)]
  have hlt : c.1.toNat / 2 ^ k < 2 ^ (32 - k) := by
    rw [Nat.div_lt_iff_lt_mul (Nat.two_pow_pos k), ← hdvd]
    exact c.1.isLt
  rw [DevMemarea.stop, hsize, hcompare, hdvd, ← Nat.succ_mul]
  exact Nat.mul_le_mul_right _ hlt

/-- **The addresses of an aligned call belong to its area.** -/
theorem takes_of_aligned (haligned : c.1.toNat % r.size.toNat = 0) {j : ℕ} (hj : j < c.2.toNat) :
    r.Takes (c.1 + BitVec.ofNat 32 j) := by
  have hstop := h.stop_le
  obtain ⟨k, hk, hle, hsize, -, hcompare⟩ := h.rounded
  rw [hsize] at haligned
  have hstart : r.start = c.1.toNat := by
    rw [DevMemarea.start, hcompare]
    exact Nat.div_mul_cancel (Nat.dvd_of_mod_eq_zero haligned)
  have hstop' : r.stop = c.1.toNat + 2 ^ k := by
    rw [← hstart, ← hsize]
    rfl
  have hadd : (c.1 + BitVec.ofNat 32 j).toNat = c.1.toNat + j := by
    rw [BitVec.toNat_add, BitVec.toNat_ofNat]
    omega
  rw [h.takes_iff, hadd]
  omega

end AreaOf

/-! ### Sequences of calls -/

theorem regMemArea_eq_some {areas areas' : List DevMemarea} {c : Addr × Word}
    (h : regMemArea areas c.1 c.2 = some areas') :
    ∃ r, areas' = areas ++ [r] ∧ AreaOf c r ∧
      ∀ r' ∈ areas, r'.overlaps r.addrCompare r.size = false := by
  rw [regMemArea, Option.bind_eq_some_iff] at h
  obtain ⟨m, hm, h⟩ := h
  obtain ⟨k, hk, rfl, hsize⟩ := bitMask_eq_some hm
  rw [registerMemoryareaMask, Option.bind_eq_some_iff] at h
  obtain ⟨m', -, h⟩ := h
  dsimp only at h
  split_ifs at h with hany
  cases h
  refine ⟨_, rfl, ⟨k, hk, hsize, ?_, rfl, ?_⟩, fun r' hr' => ?_⟩
  · have hpow : 2 ^ k ≤ 2 ^ 31 := Nat.pow_le_pow_right (by decide) (by omega)
    have hpos := Nat.two_pow_pos k
    rw [BitVec.toNat_add, Bits.toNat_lowMask (Nat.le_of_lt hk)]
    simp
    omega
  · dsimp only
    rw [BitVec.and_assoc, BitVec.and_self, Bits.toNat_and_not_lowMask]
  · rw [Bool.not_eq_true, List.any_eq_false] at hany
    exact Bool.eq_false_iff.2 (hany r' hr')

/-- What a sequence of calls registers: an area for every call, none of which passed for
overlapping an earlier one. -/
theorem regMemAreas_eq_some {calls : List (Addr × Word)} {areas : List DevMemarea}
    (h : regMemAreas calls = some areas) :
    List.Forall₂ AreaOf calls areas ∧
      areas.Pairwise fun r r' => r.overlaps r'.addrCompare r'.size = false := by
  induction calls using List.reverseRecOn generalizing areas with
  | nil =>
    cases h
    exact ⟨.nil, .nil⟩
  | append_singleton calls c ih =>
    rw [regMemAreas, List.foldlM_append] at h
    obtain ⟨areas₀, h₀, h⟩ := Option.bind_eq_some_iff.1 h
    obtain ⟨hareas, hpairs⟩ := ih h₀
    simp only [List.foldlM_cons, List.foldlM_nil] at h
    obtain ⟨areas₁, h₁, h⟩ := Option.bind_eq_some_iff.1 h
    obtain rfl : areas₁ = areas := Option.some.inj h
    obtain ⟨r, rfl, hr, hnone⟩ := regMemArea_eq_some h₁
    refine ⟨List.rel_append hareas (.cons hr .nil), List.pairwise_append.2 ⟨hpairs, ?_, ?_⟩⟩
    · exact List.pairwise_singleton _ _
    · intro r' hr' r'' hr''
      rw [List.mem_singleton.1 hr'']
      exact hnone r' hr'

/-- No address falls into two of the areas. -/
def Disjoint (areas : List DevMemarea) : Prop :=
  areas.Pairwise fun r r' => ∀ a, ¬(r.Takes a ∧ r'.Takes a)

/-- The addresses of every call that is aligned to its rounded size belong to its area. -/
def Contain (calls : List (Addr × Word)) (areas : List DevMemarea) : Prop :=
  List.Forall₂ (fun c r => c.1.toNat % r.size.toNat = 0 →
    ∀ j < c.2.toNat, r.Takes (c.1 + BitVec.ofNat 32 j)) calls areas

/-- Areas are registered below an area that reaches the top of the address space, and such an area
not below a registered one. -/
def TopLast (areas : List DevMemarea) : Prop :=
  areas.Pairwise fun r r' =>
    (r.stop = 2 ^ 32 → r'.stop ≤ r.start) ∧ (r'.stop = 2 ^ 32 → r.start ≤ r'.start)

/-- The overlap test, away from the top of the address space. -/
theorem overlaps_eq_false_iff {r r' : DevMemarea} :
    r.overlaps r'.addrCompare r'.size = false ↔
      r'.start < r.stop % 2 ^ 32 → r'.start < r.start ∧ r'.stop % 2 ^ 32 ≤ r.start := by
  have hstop : ∀ q : DevMemarea, (q.addrCompare + q.size).toNat = q.stop % 2 ^ 32 := fun q =>
    BitVec.toNat_add _ _
  rw [DevMemarea.overlaps, Bool.or_eq_false_iff, Bool.and_eq_false_iff, Bool.and_eq_false_iff]
  simp only [decide_eq_false_iff_not, BitVec.le_def, BitVec.lt_def, hstop]
  simp only [DevMemarea.start]
  omega

/-- Two areas, one of which passed for not overlapping the other, do not overlap exactly when
neither is hidden by the top of the address space. -/
theorem disjoint_iff_topLast {c c' : Addr × Word} {r r' : DevMemarea} (h : AreaOf c r)
    (h' : AreaOf c' r') (hnone : r.overlaps r'.addrCompare r'.size = false) :
    (∀ a, ¬(r.Takes a ∧ r'.Takes a)) ↔
      (r.stop = 2 ^ 32 → r'.stop ≤ r.start) ∧ (r'.stop = 2 ^ 32 → r.start ≤ r'.start) := by
  have hlt := h.start_lt_stop
  have hlt' := h'.start_lt_stop
  have hle := h.stop_le
  have hle' := h'.stop_le
  have hdisjoint : (∀ a, ¬(r.Takes a ∧ r'.Takes a)) ↔ r.stop ≤ r'.start ∨ r'.stop ≤ r.start := by
    constructor
    · intro hall
      by_contra! hover
      -- the higher of the two starts is in both areas
      have hmax : max r.start r'.start < 2 ^ 32 := by omega
      refine hall (BitVec.ofNat 32 (max r.start r'.start)) ?_
      rw [h.takes_iff, h'.takes_iff, BitVec.toNat_ofNat, Nat.mod_eq_of_lt hmax]
      omega
    · intro hcase a ha
      rw [h.takes_iff, h'.takes_iff] at ha
      omega
  rw [overlaps_eq_false_iff] at hnone
  rw [hdisjoint]
  constructor
  · omega
  · rintro ⟨htop, htop'⟩
    by_cases hr : r.stop = 2 ^ 32
    · exact .inr (htop hr)
    · rw [Nat.mod_eq_of_lt (by omega)] at hnone
      by_cases hr' : r'.stop = 2 ^ 32
      · have hstart := htop' hr'
        omega
      · rw [Nat.mod_eq_of_lt (by omega)] at hnone
        omega

/-- **Registered areas are disjoint, and take the addresses they were registered for, exactly when
none is hidden at the top of the address space.** -/
theorem regMemAreas_disjoint_iff {calls : List (Addr × Word)} {areas : List DevMemarea}
    (h : regMemAreas calls = some areas) :
    Disjoint areas ∧ Contain calls areas ↔ TopLast areas := by
  obtain ⟨hareas, hpairs⟩ := regMemAreas_eq_some h
  have hof : ∀ r ∈ areas, ∃ c, AreaOf c r := by
    intro r hr
    obtain ⟨i, hi, rfl⟩ := List.mem_iff_getElem.1 hr
    exact ⟨_, (List.forall₂_iff_get.1 hareas).2 i (hareas.length_eq ▸ hi) hi⟩
  have hcontain : Contain calls areas := by
    refine hareas.imp fun c r hcr haligned j hj => ?_
    exact hcr.takes_of_aligned haligned hj
  rw [and_iff_left hcontain]
  constructor
  · intro hdisjoint
    refine List.Pairwise.imp_of_mem (fun {r r'} hr hr' hboth => ?_) (hpairs.and hdisjoint)
    obtain ⟨c, hc⟩ := hof r hr
    obtain ⟨c', hc'⟩ := hof r' hr'
    exact (disjoint_iff_topLast hc hc' hboth.1).1 hboth.2
  · intro htop
    refine List.Pairwise.imp_of_mem (fun {r r'} hr hr' hboth => ?_) (hpairs.and htop)
    obtain ⟨c, hc⟩ := hof r hr
    obtain ⟨c', hc'⟩ := hof r' hr'
    exact (disjoint_iff_topLast hc hc' hboth.1).2 hboth.2

/-- Two areas in the middle of the address space. -/
theorem regMemAreas_disjoint_iff_ram_rom :
    Disjoint [⟨0xFFE00000, 0x00000000, 0x00200000, 0x001FFFFF⟩,
        ⟨0xFFE00000, 0xF0000000, 0x00200000, 0x001FFFFF⟩] ∧
      Contain [(0x00000000, 0x00180000), (0xF0000000, 0x00200000)]
        [⟨0xFFE00000, 0x00000000, 0x00200000, 0x001FFFFF⟩,
          ⟨0xFFE00000, 0xF0000000, 0x00200000, 0x001FFFFF⟩] :=
  (regMemAreas_disjoint_iff (by decide)).2 (by unfold TopLast; decide)

/-- **An area at the top of the address space may be registered twice.** -/
theorem top_area_twice : ¬∀ (calls : List (Addr × Word)) (areas : List DevMemarea),
    (∀ c ∈ calls, 1 ≤ c.2.toNat) → regMemAreas calls = some areas →
      Disjoint areas ∧ Contain calls areas := by
  intro hall
  have htwice := (hall [(0xFF000000, 0x01000000), (0xFF000000, 0x01000000)]
    [⟨0xFF000000, 0xFF000000, 0x01000000, 0x00FFFFFF⟩,
      ⟨0xFF000000, 0xFF000000, 0x01000000, 0x00FFFFFF⟩]
    (List.forall_mem_cons.2 ⟨by decide, List.forall_mem_singleton.2 (by decide)⟩) (by rfl)).1
  have hpair := List.rel_of_pairwise_cons htwice (List.mem_singleton.2 rfl)
  exact hpair 0xFF000000 ⟨by decide, by decide⟩

end Register
end Or1ksim
