import Mathlib.Tactic.IntervalCases
import Or1ksim.Cpu.Resume

/-!
# The LRU fields of the TLB

A hit of `mmu/dmmu.c` ages every way of the set and reloads the entry that was hit.

* `lruOf` — the LRU field of a match register;
* `lruOf_aged`, `lruOf_reload` — what happens to it;
* `sprs_touchLru` — the ways of the set after a hit;
* `lru_updated` — **the entry that was hit is the youngest of its set**, exactly if the reload,
  which comes from the number of sets, is not below the age of another way;
* `lru_not_reloaded` — with one set nothing is reloaded.
-/

namespace Or1ksim
namespace Cpu

open Bits

/-! ### The field -/

/-- `SPR_DTLBMR_LRU` as a number. -/
def lruOf (v : Word) : ℕ := ((v >>> 6).setWidth 2).toNat

theorem lruOf_le (v : Word) : lruOf v ≤ 3 := Nat.le_of_lt_succ (BitVec.isLt _)

theorem lruOf_or (v z : Word) : lruOf ((v &&& ~~~MmuConfig.lruField) ||| z) = lruOf z := by
  unfold lruOf
  congr 1
  ext i hi
  have hfield : MmuConfig.lruField.getLsbD (6 + i) = true := by
    obtain rfl | rfl : i = 0 ∨ i = 1 := by omega
    · rfl
    · rfl
  simp [hfield]

/-- The two bits of a field that is not zero, after a step of the "Set LRUs" loop. -/
theorem field_sub : ∀ y : BitVec 2, y.setWidth 32 <<< 6 ≠ 0#32 →
    lruOf (y.setWidth 32 <<< 6 - 0x40#32) = y.toNat - 1 := by
  decide

theorem field_eq_zero : ∀ y : BitVec 2, y.setWidth 32 <<< 6 = 0#32 → y.toNat = 0 := by decide

theorem lruOf_aged (v : Word) : lruOf (aged v) = lruOf v - 1 := by
  unfold aged
  by_cases h : v &&& MmuConfig.lruField = 0
  · rw [if_neg (not_not.2 h)]
    rw [lruField_and] at h
    rw [lruOf, field_eq_zero _ h]
  · rw [if_pos h, lruOf_or]
    rw [lruField_and] at h ⊢
    exact field_sub _ h

/-- The reloaded bits: the low bits of the largest number of a set. -/
def reloadOf (c : MmuConfig) : ℕ := (c.nsets - 1) % 4

theorem lruOf_lruReload (c : MmuConfig) : lruOf c.lruReload = reloadOf c := by
  obtain ⟨k, hk, hsets⟩ := c.nsets_le
  rw [reloadOf, MmuConfig.lruReload, MmuConfig.setMask, hsets]
  interval_cases k <;> decide

theorem lruOf_reload (c : MmuConfig) (v : Word) :
    lruOf (v ||| c.lruReload) = lruOf v ||| reloadOf c := by
  rw [← lruOf_lruReload]
  unfold lruOf
  rw [BitVec.ushiftRight_or_distrib, BitVec.setWidth_or, BitVec.toNat_or]

theorem reload_and_not (c : MmuConfig) (v : Word) :
    (v ||| c.lruReload) &&& ~~~MmuConfig.lruField = v &&& ~~~MmuConfig.lruField := by
  have hreload : c.lruReload &&& ~~~MmuConfig.lruField = 0 := by
    rw [MmuConfig.lruReload, BitVec.and_assoc, BitVec.and_not_self]
    exact BitVec.and_zero
  rw [BitVec.and_or_distrib_right, hreload]
  exact BitVec.or_zero

/-! ### A set -/

section

variable {cfg : Config} {m : Mmu} {s : Sim} {va : Addr} {w i : ℕ}

theorem mr_injective (hw : w < m.config.nways) (hi : i < m.config.nways)
    (h : m.mr va w = m.mr va i) : w = i := by
  have hways := m.config.nways_le.2
  have hnat := congrArg BitVec.toNat ((BitVec.add_right_inj _).1 h)
  rw [BitVec.toNat_ofNat, BitVec.toNat_ofNat] at hnat
  omega

theorem sprs_age (s : Sim) (rs : List Regno) (hnodup : rs.Nodup) (r : Regno) :
    (rs.foldl Mmu.ageLru s).sprs r = if r ∈ rs then aged (s.sprs r) else s.sprs r := by
  induction rs generalizing s with
  | nil => rfl
  | cons q rs ih =>
    obtain ⟨hq, hnodup⟩ := List.nodup_cons.1 hnodup
    rw [List.foldl_cons, ih _ hnodup, ageLru_eq]
    by_cases hr : r = q
    · subst hr
      rw [if_neg hq, if_pos List.mem_cons_self, Sim.setSpr_sprs_self]
    · rw [Sim.setSpr_sprs_of_ne hr]
      exact if_congr (by rw [List.mem_cons, or_iff_right hr]) rfl rfl

theorem nodup_ways (m : Mmu) (va : Addr) :
    ((List.range m.config.nways).map (m.mr va)).Nodup :=
  List.Nodup.map_on
    (fun _ hw _ hi h => mr_injective (List.mem_range.1 hw) (List.mem_range.1 hi) h)
    List.nodup_range

theorem sprs_touchLru (s : Sim) (va : Addr) (hw : w < m.config.nways) (hi : i < m.config.nways) :
    (m.touchLru s va (m.mr va w)).sprs (m.mr va i) =
      if i = w then aged (s.sprs (m.mr va i)) ||| m.config.lruReload
      else aged (s.sprs (m.mr va i)) := by
  have hage : ∀ j < m.config.nways,
      (((List.range m.config.nways).map (m.mr va)).foldl Mmu.ageLru s).sprs (m.mr va j) =
        aged (s.sprs (m.mr va j)) := fun j hj => by
    rw [sprs_age s _ (nodup_ways m va), if_pos (List.mem_map_of_mem (List.mem_range.2 hj))]
  unfold Mmu.touchLru
  dsimp only
  by_cases hiw : i = w
  · rw [if_pos hiw, hiw, Sim.setSpr_sprs_self, hage w hw]
  · rw [if_neg hiw, Sim.setSpr_sprs_of_ne fun h => hiw (mr_injective hi hw h), hage i hi]

theorem exceptHandle_tlb (s : Sim) (e : Exception) (ea : Addr) {r : Regno} (hr : tlbReg r) :
    (exceptHandle s e ea).sprs r = s.sprs r := by
  have hne : ∀ q : Regno, ¬tlbReg q → r ≠ q := fun q hq h => hq (h ▸ hr)
  have hdebug := debugIgnoreException_sprs s e (hne sprDRR (by decide))
  unfold exceptHandle
  dsimp only
  split
  · exact hdebug
  · rw [enterException_sprs _ e ea (hne _ (by decide)) (hne _ (by decide)) (hne _ (by decide))
      (hne _ (by decide)), hdebug]

/-- The address is found in way `w` of its set. -/
structure HitsWay (m : Mmu) (s : Sim) (va : Addr) (w : ℕ) : Prop where
  on : m.off s = false
  lt : w < m.config.nways
  found : m.findTlbmr s.sprs va = some (m.mr va w)

theorem HitsWay.sprs (hm : IsMmu cfg m) (h : HitsWay m s va w) (fault : Bool → Word → Bool)
    (hi : i < m.config.nways) :
    (m.translate fault s va).2.sprs (m.mr va i) =
      if i = w then aged (s.sprs (m.mr va i)) ||| m.config.lruReload
      else aged (s.sprs (m.mr va i)) := by
  rw [← sprs_touchLru s va h.lt hi]
  unfold Mmu.translate
  rw [h.on, if_neg Bool.false_ne_true, h.found]
  dsimp only
  split
  · exact exceptHandle_tlb _ _ _ (matchReg_mr hm hi va).1
  · rfl

/-- How the LRU fields of a set should change when way `w` is hit. -/
structure LruUpdated (m : Mmu) (va : Addr) (w : ℕ) (s t : Sim) : Prop where
  youngest : ∀ i < m.config.nways, lruOf (t.sprs (m.mr va i)) ≤ lruOf (t.sprs (m.mr va w))
  others : ∀ i < m.config.nways, i ≠ w → lruOf (t.sprs (m.mr va i)) ≤ lruOf (s.sprs (m.mr va i))
  rest : ∀ i < m.config.nways, t.sprs (m.mr va i) &&& ~~~MmuConfig.lruField =
    s.sprs (m.mr va i) &&& ~~~MmuConfig.lruField

/-- The reload is not below the other ways of the set: with at least four sets it is the largest
value; with two, it leaves the upper bit; with one, there is none. -/
def Reloads (m : Mmu) (va : Addr) (w : ℕ) (s : Sim) : Prop :=
  ∀ i < m.config.nways, i ≠ w → 4 ≤ m.config.nsets ∨
    (m.config.nsets = 2 ∧
      (lruOf (s.sprs (m.mr va w)) = 3 ∨ lruOf (s.sprs (m.mr va i)) ≤ 2)) ∨
    (m.config.nsets = 1 ∧
      (lruOf (s.sprs (m.mr va i)) ≤ lruOf (s.sprs (m.mr va w)) ∨ lruOf (s.sprs (m.mr va i)) ≤ 1))

/-- The age of the entry that was hit, against that of another way. -/
theorem age_le_reload_iff (c : MmuConfig) {a b : ℕ} (ha : a ≤ 3) (hb : b ≤ 3) :
    b - 1 ≤ (a - 1) ||| reloadOf c ↔
      4 ≤ c.nsets ∨ (c.nsets = 2 ∧ (a = 3 ∨ b ≤ 2)) ∨ (c.nsets = 1 ∧ (b ≤ a ∨ b ≤ 1)) := by
  obtain ⟨k, hk, hsets⟩ := c.nsets_le
  rw [reloadOf, hsets]
  clear hsets
  interval_cases a <;> interval_cases b <;> interval_cases k <;> decide

theorem HitsWay.updated_iff (hm : IsMmu cfg m) (h : HitsWay m s va w)
    (fault : Bool → Word → Bool) :
    LruUpdated m va w s (m.translate fault s va).2 ↔ Reloads m va w s := by
  have hlru : ∀ i < m.config.nways, lruOf ((m.translate fault s va).2.sprs (m.mr va i)) =
      if i = w then (lruOf (s.sprs (m.mr va i)) - 1) ||| reloadOf m.config
      else lruOf (s.sprs (m.mr va i)) - 1 := fun i hi => by
    rw [h.sprs hm fault hi]
    split
    · rw [lruOf_reload, lruOf_aged]
    · rw [lruOf_aged]
  have hrest : ∀ i < m.config.nways,
      (m.translate fault s va).2.sprs (m.mr va i) &&& ~~~MmuConfig.lruField =
        s.sprs (m.mr va i) &&& ~~~MmuConfig.lruField := fun i hi => by
    rw [h.sprs hm fault hi]
    split
    · rw [reload_and_not, aged_and_not]
    · rw [aged_and_not]
  have hothers : ∀ i < m.config.nways, i ≠ w →
      lruOf ((m.translate fault s va).2.sprs (m.mr va i)) ≤ lruOf (s.sprs (m.mr va i)) :=
    fun i hi hiw => by
      rw [hlru i hi, if_neg hiw]
      exact Nat.sub_le _ _
  have hiff : LruUpdated m va w s (m.translate fault s va).2 ↔ ∀ i < m.config.nways, i ≠ w →
      lruOf ((m.translate fault s va).2.sprs (m.mr va i)) ≤
        lruOf ((m.translate fault s va).2.sprs (m.mr va w)) := by
    refine ⟨fun hup i hi _ => hup.youngest i hi, fun hyoung => ⟨fun i hi => ?_, hothers, hrest⟩⟩
    by_cases hiw : i = w
    · rw [hiw]
    · exact hyoung i hi hiw
  rw [hiff]
  refine forall₃_congr fun i hi hiw => ?_
  rw [hlru i hi, hlru w h.lt, if_neg hiw, if_pos rfl]
  exact age_le_reload_iff m.config (lruOf_le _) (lruOf_le _)

end

/-! ### Main results -/

/-- A sequence of data accesses, by address and whether they write. -/
def translations (cfg : Config) (s : Sim) (vs : List (Addr × Bool)) : Sim :=
  vs.foldl (fun s v => (dmmuTranslate cfg s v.1 v.2).2) s

/-- **The LRU fields of the TLB**: in a sequence of translations from any state, every hit makes its
entry the youngest of its set, ages no other entry upwards and changes no other bit of the set,
exactly if at every hit the reload is not below the other ways. -/
theorem lru_updated (cfg : Config) (s : Sim) (vs : List (Addr × Bool)) :
    (∀ pre v w, pre ++ [v] <+: vs → HitsWay cfg.dataMmu (translations cfg s pre) v.1 w →
      LruUpdated cfg.dataMmu v.1 w (translations cfg s pre) (translations cfg s (pre ++ [v]))) ↔
    ∀ pre v w, pre ++ [v] <+: vs → HitsWay cfg.dataMmu (translations cfg s pre) v.1 w →
      Reloads cfg.dataMmu v.1 w (translations cfg s pre) := by
  refine forall₃_congr fun pre v w => forall₂_congr fun _ hhit => ?_
  have hsnoc : translations cfg s (pre ++ [v]) =
      (dmmuTranslate cfg (translations cfg s pre) v.1 v.2).2 := by
    rw [translations, List.foldl_append]
    rfl
  rw [hsnoc]
  exact hhit.updated_iff (.inl rfl) (dataFault v.2)

/-- A data MMU with one set of two ways. -/
def twoWays : Config :=
  { defaultConfig with dmmu := ⟨2, 1, 8192, by decide, defaultMmu.nsets_le⟩ }

/-- Its first way has the first page; its second way has just been loaded. -/
def twoWaysState : Sim :=
  ((powerOn 0x609 0x8021 (.flat fun _ => 0)).setSpr 0x0a00 0x01).setSpr 0x0b00 0xc0

/-- With one set, the entry that was hit stays the oldest. -/
theorem lru_not_reloaded :
    HitsWay twoWays.dataMmu twoWaysState 0 0 ∧
      ¬LruUpdated twoWays.dataMmu 0 0 twoWaysState
        (translations twoWays twoWaysState [(0, false)]) := by
  refine ⟨⟨by decide, by decide, by decide⟩, fun h => ?_⟩
  exact absurd (h.youngest 1 (by decide)) (by decide)

end Cpu
end Or1ksim
