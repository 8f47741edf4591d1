import Mathlib.Algebra.Group.Int.Defs
import Mathlib.Data.Set.BooleanAlgebra
import Mathlib.Order.CompletePartialOrder
import Mathlib.Data.Set.Disjoint
import Or1ksim.Cuc.Insn

/-!
# Memory conflicts

`check_memory_conflict` in `cuc/memory.c`: whether two memory instructions have to stay in their
order.  With weak ordering that is decided on the constants that are added to the same operand.

* `checkMemoryConflict` — the check;
* `displacement`, `touched` — the constant of an address, and the bytes of an access;
* `checkMemoryConflict_weak` — the check finds what meets without a wrap;
* `weakSafe_iff` — **no conflict means no common byte** exactly if nothing meets across a wrap.
-/

namespace Or1ksim
namespace Cuc

/-- `II_MEM_WIDTH`; none is `-1`. -/
def memWidth : Index → Option ℕ
  | .lb | .sb => some 1
  | .lh | .sh => some 2
  | .lw | .sw => some 4
  | _ => none

variable {W : ℕ}

/-- The comparisons of the offsets `x` and `y`, as `unsigned long`. -/
def offsetsOverlap (x : BitVec W) (aw : ℕ) (y : BitVec W) (bw : ℕ) : Bool :=
  decide (y ≤ x ∧ x < y + BitVec.ofNat W bw) || decide (x ≤ y ∧ y < x + BitVec.ofNat W aw)

/-- `check_memory_conflict`; it is `none` where an assertion fails. -/
def checkMemoryConflict (f : Func W) (a b : Insn W) : MemoryOrder → Option Bool
  | .exact | .strong => some true
  | .weak =>
    if !a.memory || !b.memory then none
    else
      match a.op 1, b.op 1 with
      | .ref qa, .ref qb =>
        if (f.insn qa).index = .add ∧ (f.insn qb).index = .add then
          (memWidth a.index).bind fun aw => (memWidth b.index).map fun bw =>
            if (f.insn qa).op 1 ≠ (f.insn qb).op 1 then true
            else
              match (f.insn qa).op 2, (f.insn qb).op 2 with
              | .const x, .const y => offsetsOverlap x aw y bw
              | _, _ => true
        else some true
      | _, _ => some true
  | .none => some false

/-! ### Addresses -/

/-- The address is an operand with a constant added to it. -/
def displacement (f : Func W) (a : Insn W) : Option (Operand W × BitVec W) :=
  match a.op 1 with
  | .ref q =>
    match (f.insn q).index, (f.insn q).op 2 with
    | .add, .const x => some ((f.insn q).op 1, x)
    | _, _ => none
  | _ => none

theorem displacement_eq_some {f : Func W} {a : Insn W} {o : Operand W} {x : BitVec W} :
    displacement f a = some (o, x) ↔ ∃ q, a.op 1 = .ref q ∧ (f.insn q).index = .add ∧
      (f.insn q).op 1 = o ∧ (f.insn q).op 2 = .const x := by
  unfold displacement
  split
  next q hq =>
    split
    next y hindex hop =>
      simp only [Option.some.injEq, Prod.mk.injEq, hq, Operand.ref.injEq, exists_eq_left', hindex,
        hop, Operand.const.injEq, true_and]
    next hno =>
      refine iff_of_false nofun ?_
      rintro ⟨p, hp, hindex, -, hop⟩
      cases hq.symm.trans hp
      exact hno x hindex hop
  next hno =>
    refine iff_of_false nofun ?_
    rintro ⟨q, hq, -⟩
    exact hno q hq

theorem address_eq {f : Func W} {a : Insn W} {o : Operand W} {x : BitVec W} {env : Env}
    {v : Ref → Word} (h : displacement f a = some (o, x)) (hv : Valuation env f v)
    (hlive : ∀ q, a.op 1 = .ref q → f.Live q) :
    operandValue env v (a.op 1) = operandValue env v o + low x := by
  obtain ⟨q, hq, hindex, ho, hx⟩ := displacement_eq_some.1 h
  have hval := hv.eq (hlive q hq) (by rw [hindex]; rfl)
  rw [hq, operandValue, hval, value, hindex, ← ho]
  simp only [compute, args, hx, operandValue]

/-- The bytes of an access. -/
def touched (addr : Word) (n : ℕ) : Set Word := {p | ∃ i < n, p = addr + BitVec.ofNat 32 i}

/-- The bytes `x .. x + n - 1` and `y .. y + m - 1` have one in common. -/
def Meets (x : ℤ) (n : ℕ) (y : ℤ) (m : ℕ) : Prop := y ≤ x ∧ x < y + m ∨ x ≤ y ∧ y < x + n

instance (x : ℤ) (n : ℕ) (y : ℤ) (m : ℕ) : Decidable (Meets x n y m) :=
  inferInstanceAs (Decidable (_ ∨ _))

variable {x y : BitVec W} {aw bw : ℕ}

theorem memWidth_bounds {index : Index} {n : ℕ} (h : memWidth index = some n) : 0 < n ∧ n ≤ 4 := by
  unfold memWidth at h
  split at h <;> cases h <;> decide

theorem Meets.exists_byte {x y : ℤ} (h : Meets x aw y bw) (ha : 0 < aw) (hb : 0 < bw) :
    ∃ i j : ℕ, i < aw ∧ j < bw ∧ x + i = y + j := by
  rcases h with ⟨hle, hlt⟩ | ⟨hle, hlt⟩
  · exact ⟨0, (x - y).toNat, ha, by omega, by omega⟩
  · exact ⟨(y - x).toNat, 0, by omega, hb, by omega⟩

/-- Whether two accesses with the same base have a byte in common does not depend on it. -/
theorem disjoint_touched_iff (ha : 0 < aw) (hb : 0 < bw) (base : Word) :
    Disjoint (touched (base + low x) aw) (touched (base + low y) bw) ↔
      ∀ k : ℤ, ¬Meets (x.toNat + k * 2 ^ 32) aw y.toNat bw := by
  have hbyte : ∀ (z : BitVec W) (i : ℕ), base + low z + BitVec.ofNat 32 i =
      base + BitVec.ofNat 32 (z.toNat + i) := by
    intro z i
    have hlow : (low z : Word) = BitVec.ofNat 32 z.toNat := by
      refine BitVec.eq_of_toNat_eq ?_
      rw [low, BitVec.toNat_setWidth, BitVec.toNat_ofNat]
    rw [hlow, BitVec.add_assoc, ← BitVec.ofNat_add]
  rw [Set.disjoint_left]
  constructor
  · intro hdisjoint k hmeets
    obtain ⟨i, j, hi, hj, hsame⟩ := hmeets.exists_byte ha hb
    refine hdisjoint ⟨i, hi, rfl⟩ ⟨j, hj, ?_⟩
    rw [hbyte, hbyte]
    refine congrArg (base + ·) (BitVec.eq_of_toNat_eq ?_)
    rw [BitVec.toNat_ofNat, BitVec.toNat_ofNat]
    omega
  · rintro hno p ⟨i, hi, rfl⟩ ⟨j, hj, hsame⟩
    rw [hbyte, hbyte, BitVec.add_right_inj] at hsame
    have hmod := congrArg BitVec.toNat hsame
    rw [BitVec.toNat_ofNat, BitVec.toNat_ofNat] at hmod
    have hdiv := Nat.div_add_mod (x.toNat + i) (2 ^ 32)
    have hdiv' := Nat.div_add_mod (y.toNat + j) (2 ^ 32)
    refine hno (((y.toNat + j) / 2 ^ 32 : ℕ) - ((x.toNat + i) / 2 ^ 32 : ℕ)) ?_
    unfold Meets
    omega

/-! ### Main results -/

/-- Nothing meets across a multiple of 2 ^ 32, and what meets has an end that is an `unsigned long`.
-/
structure NoWrap (x : BitVec W) (aw : ℕ) (y : BitVec W) (bw : ℕ) : Prop where
  apart : ∀ k : ℤ, k ≠ 0 → ¬Meets (x.toNat + k * 2 ^ 32) aw y.toNat bw
  below : Meets x.toNat aw y.toNat bw →
    x.toNat ≤ y.toNat ∧ x.toNat + aw < 2 ^ W ∨ y.toNat ≤ x.toNat ∧ y.toNat + bw < 2 ^ W

theorem offsetsOverlap_iff (hW : 32 ≤ W) (ha : 0 < aw ∧ aw ≤ 4) (hb : 0 < bw ∧ bw ≤ 4) :
    offsetsOverlap x aw y bw = true ↔ Meets x.toNat aw y.toNat bw ∧
      (x.toNat ≤ y.toNat ∧ x.toNat + aw < 2 ^ W ∨ y.toNat ≤ x.toNat ∧ y.toNat + bw < 2 ^ W) := by
  have hpow : 2 ^ 32 ≤ 2 ^ W := Nat.pow_le_pow_right (by decide) hW
  have hx := x.isLt
  have hy := y.isLt
  unfold offsetsOverlap
  rw [Bool.or_eq_true, decide_eq_true_iff, decide_eq_true_iff]
  simp only [BitVec.le_def, BitVec.lt_def, BitVec.toNat_add, BitVec.toNat_ofNat, Nat.add_mod_mod]
  have hend : ∀ {p q : ℕ}, p < 2 ^ W → q ≤ 4 → (p + q < 2 ^ W ∧ (p + q) % 2 ^ W = p + q ∨
      2 ^ W ≤ p + q ∧ (p + q) % 2 ^ W = p + q - 2 ^ W) := by
    intro p q hp hq
    rcases Nat.lt_or_ge (p + q) (2 ^ W) with hlt | hge
    · exact .inl ⟨hlt, Nat.mod_eq_of_lt hlt⟩
    · refine .inr ⟨hge, ?_⟩
      rw [Nat.mod_eq_sub_mod hge, Nat.mod_eq_of_lt (by omega)]
  unfold Meets
  generalize 2 ^ W = N at *
  rcases hend hx ha.2 with ⟨hxe, hxm⟩ | ⟨hxe, hxm⟩ <;>
    rcases hend hy hb.2 with ⟨hye, hym⟩ | ⟨hye, hym⟩ <;>
      rw [hxm, hym] <;> omega

/-- **The weak check**: there is no conflict exactly if both addresses are a constant away from the
same operand, and the offsets do not overlap. -/
theorem checkMemoryConflict_weak {f : Func W} {a b : Insn W} (ha : a.memory = true)
    (hb : b.memory = true) (haw : memWidth a.index = some aw) (hbw : memWidth b.index = some bw) :
    checkMemoryConflict f a b .weak = some false ↔ ∃ o x y, displacement f a = some (o, x) ∧
      displacement f b = some (o, y) ∧ offsetsOverlap x aw y bw = false := by
  constructor
  · intro h
    simp only [checkMemoryConflict, ha, hb, Bool.not_true, Bool.or_self, Bool.false_eq_true,
      if_false, haw, hbw, Option.bind_some, Option.map_some] at h
    split at h
    next qa qb hqa hqb =>
      split_ifs at h with hadd hbase
      · cases h
      · split at h
        next x y hx hy =>
          exact ⟨_, x, y, displacement_eq_some.2 ⟨qa, hqa, hadd.1, not_not.1 hbase, hx⟩,
            displacement_eq_some.2 ⟨qb, hqb, hadd.2, rfl, hy⟩, Option.some.inj h⟩
        next => cases h
      · cases h
    next => cases h
  · rintro ⟨o, x, y, hx, hy, hno⟩
    obtain ⟨qa, hqa, hadda, hoa, hxa⟩ := displacement_eq_some.1 hx
    obtain ⟨qb, hqb, haddb, hob, hyb⟩ := displacement_eq_some.1 hy
    simp only [checkMemoryConflict, ha, hb, Bool.not_true, Bool.or_self, Bool.false_eq_true,
      if_false, haw, hbw, Option.bind_some, Option.map_some, hqa, hqb, hadda, haddb, and_self,
      if_true, hoa, hob, ne_eq, not_true_eq_false, hxa, hyb, hno]

/-- There is no conflict, and the bytes are not the same, whatever the common operand is. -/
def WeakSafe (f : Func W) (a b : Insn W) (aw bw : ℕ) : Prop :=
  checkMemoryConflict f a b .weak = some false →
    ∃ o x y, displacement f a = some (o, x) ∧ displacement f b = some (o, y) ∧
      ∀ base : Word, Disjoint (touched (base + low x) aw) (touched (base + low y) bw)

/-- **Weak ordering is safe** for two memory instructions exactly if their offsets from a common
operand do not meet across a wrap. -/
theorem weakSafe_iff (hW : 32 ≤ W) {f : Func W} {a b : Insn W} (ha : a.memory = true)
    (hb : b.memory = true) (haw : memWidth a.index = some aw) (hbw : memWidth b.index = some bw) :
    WeakSafe f a b aw bw ↔ ∀ o x y, displacement f a = some (o, x) →
      displacement f b = some (o, y) → NoWrap x aw y bw := by
  have haw' := memWidth_bounds haw
  have hbw' := memWidth_bounds hbw
  unfold WeakSafe
  rw [checkMemoryConflict_weak ha hb haw hbw]
  simp only [disjoint_touched_iff haw'.1 hbw'.1, forall_const]
  constructor
  · intro hsafe o x y hx hy
    by_cases hover : offsetsOverlap x aw y bw = true
    · obtain ⟨hmeets, hbelow⟩ := (offsetsOverlap_iff hW haw' hbw').1 hover
      refine ⟨fun k hk hfar => ?_, fun _ => hbelow⟩
      -- They cannot be less than a word apart, and a multiple of 2 ^ 32 as well.
      unfold Meets at hmeets hfar
      omega
    · have hno := Bool.eq_false_iff.2 hover
      obtain ⟨o', x', y', hx', hy', hdisjoint⟩ := hsafe ⟨o, x, y, hx, hy, hno⟩
      obtain ⟨-, rfl⟩ := Prod.mk.inj (Option.some.inj (hx.symm.trans hx'))
      obtain ⟨-, rfl⟩ := Prod.mk.inj (Option.some.inj (hy.symm.trans hy'))
      refine ⟨fun k _ => hdisjoint k, fun hmeets => absurd hmeets ?_⟩
      simpa using hdisjoint 0
  · rintro hnowrap ⟨o, x, y, hx, hy, hno⟩
    obtain ⟨hapart, hbelow⟩ := hnowrap o x y hx hy
    refine ⟨o, x, y, hx, hy, fun k hmeets => ?_⟩
    by_cases hk : k = 0
    · rw [hk, Int.zero_mul, Int.add_zero] at hmeets
      have hover := (offsetsOverlap_iff hW haw' hbw').2 ⟨hmeets, hbelow hmeets⟩
      rw [hno] at hover
      cases hover
    · exact hapart k hk hmeets

/-- A load of a word and a store of a byte, with these displacements from `r4`. -/
def loadAndStore (x y : BitVec 64) : Func 64 where
  numBb := 1
  dead := fun _ => false
  ninsn := fun _ => 4
  insn r :=
    match r.i with
    | 0 => { (nopInsn : Insn 64) with
        index := .add, op := ![.dest (-1), .register 4, .const x, .none, .none] }
    | 1 => { (nopInsn : Insn 64) with
        memory := true, index := .lw, op := ![.dest 3, .ref ⟨0, 0⟩, .none, .none, .none] }
    | 2 => { (nopInsn : Insn 64) with
        index := .add, op := ![.dest (-1), .register 4, .const y, .none, .none] }
    | _ => { (nopInsn : Insn 64) with
        memory := true, index := .sb, op := ![.register 5, .ref ⟨0, 2⟩, .none, .none, .none] }

/-- The word and the byte at a displacement. -/
def WeakSafe.ofDisplacements (x y : BitVec 64) : Prop :=
  WeakSafe (loadAndStore x y) ((loadAndStore x y).insn ⟨0, 1⟩) ((loadAndStore x y).insn ⟨0, 3⟩) 4 1

/-- A word and the byte behind it. -/
theorem weakSafe_iff_behind : WeakSafe.ofDisplacements 8 12 := by
  refine (weakSafe_iff (by decide) rfl rfl rfl rfl).2 fun o x y hx hy => ?_
  obtain ⟨-, rfl⟩ := Prod.mk.inj (Option.some.inj hx)
  obtain ⟨-, rfl⟩ := Prod.mk.inj (Option.some.inj hy)
  have h8 : (8 : BitVec 64).toNat = 8 := rfl
  have h12 : (12 : BitVec 64).toNat = 12 := rfl
  refine ⟨fun k hk => ?_, fun hmeets => absurd hmeets ?_⟩
  · rw [h8, h12]
    unfold Meets
    omega
  · rw [h8, h12]
    decide

/-- **Displacements on both sides of zero**: the word at -2 has the byte at 0, but there is no
conflict. -/
theorem weak_conflict_missed :
    checkMemoryConflict (loadAndStore (-2) 0) ((loadAndStore (-2) 0).insn ⟨0, 1⟩)
        ((loadAndStore (-2) 0).insn ⟨0, 3⟩) .weak = some false ∧
      ¬WeakSafe.ofDisplacements (-2) 0 := by
  have hnone : checkMemoryConflict (loadAndStore (-2) 0) ((loadAndStore (-2) 0).insn ⟨0, 1⟩)
      ((loadAndStore (-2) 0).insn ⟨0, 3⟩) .weak = some false := by decide
  refine ⟨hnone, fun hsafe => ?_⟩
  obtain ⟨o, x, y, hx, hy, hdisjoint⟩ := hsafe hnone
  obtain ⟨-, rfl⟩ := Prod.mk.inj (Option.some.inj hx)
  obtain ⟨-, rfl⟩ := Prod.mk.inj (Option.some.inj hy)
  exact Set.disjoint_left.1 (hdisjoint 2) ⟨2, by decide, rfl⟩ ⟨0, by decide, by decide⟩

end Cuc
end Or1ksim
