import Mathlib.Algebra.Group.Nat.Defs
import Mathlib.Logic.Basic
import Mathlib.Data.Nat.Notation

/-!
# Patches over a memory

A memory over the addresses of a width is overwritten by runs of values, one after another; only
some addresses can be written.

* `Patch.at` — what a patch holds at an address;
* `at_eq_some_iff` — where a patch holds a value;
* `overlay_append` — a patch in two pieces;
* `overlays_iff` — an address holds what the last patch that covers it put there.
-/

namespace Or1ksim
namespace Overlay

variable {w : ℕ} {β : Type}

/-- Values for consecutive addresses. -/
structure Patch (w : ℕ) (β : Type) where
  addr : BitVec w
  values : List β

/-- What a patch holds at an address. -/
def Patch.at (p : Patch w β) (b : BitVec w) : Option β := p.values[(b - p.addr).toNat]?

variable (mapped : BitVec w → Bool)

/-- A patch is written where it can be. -/
def overlay (m : BitVec w → β) (p : Patch w β) : BitVec w → β :=
  fun b => if mapped b then (p.at b).getD (m b) else m b

/-- Patches are written one after another. -/
def overlays (m : BitVec w → β) (ps : List (Patch w β)) : BitVec w → β :=
  ps.foldl (overlay mapped) m

variable {mapped} {m : BitVec w → β} {p : Patch w β} {ps : List (Patch w β)} {b : BitVec w} {v : β}

theorem overlay_of_some (hb : mapped b = true) (hp : p.at b = some v) :
    overlay mapped m p b = v := by
  rw [overlay, if_pos hb, hp, Option.getD_some]

theorem overlay_of_none (hp : p.at b = none) : overlay mapped m p b = m b := by
  rw [overlay, hp, Option.getD_none, ite_self]

theorem overlay_of_unmapped (hb : mapped b = false) : overlay mapped m p b = m b := by
  rw [overlay, hb, if_neg Bool.false_ne_true]

theorem overlay_nil (a : BitVec w) : overlay mapped m ⟨a, []⟩ = m :=
  funext fun _ => overlay_of_none rfl

/-- A patch holds a value at the address of one of its places. -/
theorem at_eq_some_iff (hlen : p.values.length ≤ 2 ^ w) :
    p.at b = some v ↔ ∃ i, p.values[i]? = some v ∧ b = p.addr + BitVec.ofNat w i := by
  constructor
  · refine fun h => ⟨(b - p.addr).toNat, h, ?_⟩
    rw [BitVec.ofNat_toNat, BitVec.setWidth_eq, BitVec.add_comm, BitVec.sub_add_cancel]
  · rintro ⟨i, hi, rfl⟩
    have hlt : i < 2 ^ w := by
      obtain ⟨h, -⟩ := List.getElem?_eq_some_iff.1 hi
      exact Nat.lt_of_lt_of_le h hlen
    rw [Patch.at, BitVec.add_comm, BitVec.add_sub_cancel, BitVec.toNat_ofNat,
      Nat.mod_eq_of_lt hlt, hi]

theorem at_singleton {a : BitVec w} : Patch.at ⟨a, [v]⟩ b = if b = a then some v else none := by
  split
  · next hb => rw [Patch.at, hb, BitVec.sub_self]; rfl
  · next hb =>
    refine List.getElem?_eq_none (Nat.one_le_iff_ne_zero.2 fun h0 => hb ?_)
    have hz : b - a = 0#w := BitVec.eq_of_toNat_eq (by rw [h0, BitVec.toNat_ofNat, Nat.zero_mod])
    rw [← BitVec.sub_add_cancel b a, hz, BitVec.zero_add]

/-- How far an address lies behind a start that is moved on. -/
theorem toNat_sub_add {a b : BitVec w} {n : ℕ} (hn : n < 2 ^ w) :
    (b - (a + BitVec.ofNat w n)).toNat =
      if n ≤ (b - a).toNat then (b - a).toNat - n else 2 ^ w + (b - a).toNat - n := by
  have hmove : b - (a + BitVec.ofNat w n) = b - a - BitVec.ofNat w n := by
    rw [BitVec.sub_eq_add_neg, BitVec.neg_add, BitVec.sub_eq_add_neg, BitVec.sub_eq_add_neg,
      BitVec.sub_eq_add_neg, BitVec.add_assoc]
  have hlt := (b - a).isLt
  rw [hmove, BitVec.toNat_sub, BitVec.toNat_ofNat, Nat.mod_eq_of_lt hn]
  split
  · next hle =>
    rw [show 2 ^ w - n + (b - a).toNat = 2 ^ w + ((b - a).toNat - n) by omega, Nat.add_mod_left,
      Nat.mod_eq_of_lt (by omega)]
  · rw [Nat.mod_eq_of_lt (by omega)]
    omega

theorem at_append {a : BitVec w} {xs ys : List β} (hlen : xs.length + ys.length ≤ 2 ^ w)
    (b : BitVec w) : Patch.at ⟨a, xs ++ ys⟩ b =
      (Patch.at ⟨a + BitVec.ofNat w xs.length, ys⟩ b).or (Patch.at ⟨a, xs⟩ b) := by
  unfold Patch.at
  dsimp only
  rcases Nat.eq_or_lt_of_le (Nat.le_of_add_right_le hlen) with hfull | hlt
  · -- the first values fill the memory
    have hnil : ys = [] := List.eq_nil_of_length_eq_zero (by omega)
    rw [hnil, List.append_nil, List.getElem?_nil, Option.none_or]
  · rw [toNat_sub_add hlt]
    split
    · next hle =>
      rw [List.getElem?_append_right hle, List.getElem?_eq_none hle, Option.or_none]
    · next hnot =>
      have hys : ys[2 ^ w + (b - a).toNat - xs.length]? = none := List.getElem?_eq_none (by omega)
      rw [List.getElem?_append_left (Nat.not_le.1 hnot), hys, Option.none_or]

theorem overlay_append {a : BitVec w} (xs : List β) {ys : List β}
    (hlen : xs.length + ys.length ≤ 2 ^ w) :
    overlay mapped m ⟨a, xs ++ ys⟩ =
      overlay mapped (overlay mapped m ⟨a, xs⟩) ⟨a + BitVec.ofNat w xs.length, ys⟩ := by
  funext b
  unfold overlay
  rw [at_append hlen]
  cases Patch.at ⟨a + BitVec.ofNat w xs.length, ys⟩ b <;> cases mapped b <;> rfl

theorem overlays_of_unmapped (hb : mapped b = false) : overlays mapped m ps b = m b := by
  induction ps generalizing m with
  | nil => rfl
  | cons p ps ih =>
    change overlays mapped (overlay mapped m p) ps b = m b
    rw [ih, overlay_of_unmapped hb]

/-! ### What a sequence of patches leaves behind -/

variable {σ : Type} {f : σ → Patch w β} {ss : List σ} {P : β → Prop}

/-- An address holds what the last patch that covers it put there, or what it held before. -/
theorem overlays_iff (hb : mapped b = true) :
    P (overlays mapped m (ss.map f) b) ↔
      (∀ pre s post v, ss = pre ++ s :: post → (f s).at b = some v →
        (∀ u ∈ post, (f u).at b = none) → P v) ∧
      ((∀ s ∈ ss, (f s).at b = none) → P (m b)) := by
  induction ss generalizing m with
  | nil =>
    constructor
    · exact fun h => ⟨fun pre s post v hsplit => absurd hsplit.symm (by simp), fun _ => h⟩
    · exact fun h => h.2 (fun s hs => absurd hs List.not_mem_nil)
  | cons t ss ih =>
    change P (overlays mapped (overlay mapped m (f t)) (ss.map f) b) ↔ _
    rw [ih]
    constructor
    · rintro ⟨hcovered, hfree⟩
      refine ⟨fun pre s post v hsplit hv hpost => ?_, fun hnone => ?_⟩
      · cases pre with
        | nil =>
          obtain ⟨rfl, rfl⟩ := List.cons.inj hsplit
          rw [← overlay_of_some hb hv]
          exact hfree hpost
        | cons t' pre => exact hcovered pre s post v (List.cons.inj hsplit).2 hv hpost
      · have hkept : overlay mapped m (f t) b = m b := overlay_of_none (hnone t (.head ss))
        rw [← hkept]
        exact hfree fun s hs => hnone s (.tail t hs)
    · rintro ⟨hcovered, hfree⟩
      refine ⟨fun pre s post v hsplit => hcovered (t :: pre) s post v (by rw [hsplit]; rfl),
        fun hnone => ?_⟩
      cases hat : (f t).at b with
      | none =>
        rw [overlay_of_none hat]
        exact hfree (List.forall_mem_cons.2 ⟨hat, hnone⟩)
      | some v =>
        rw [overlay_of_some hb hat]
        exact hcovered [] t ss v rfl hat hnone

end Overlay
end Or1ksim
