import Or1ksim.Cpu.Insnset
import Or1ksim.Lib.HostInt

/-!
# Divisions and shifts on the host

`cpu/or32/insnset.c` divides and shifts the operands with the operations of the host, which are not
defined on all of them.

* `HostOp.exec` — an instruction, as far as the host defines it;
* `HostOp.architectural` — what the instruction should do;
* `host_arithmetic` — **the host computes the architectural effect exactly on safe operands**;
* `host_undefined` — unsafe operands for each instruction that has some;
* `effect_function` — the processor takes the architectural effect for the undefined ones.
-/

namespace Or1ksim
namespace Cpu

open Bits Insn HostInt

/-- The instructions that divide, shift or rotate. -/
inductive HostOp where
  | div | divu | sll | srl | sra | ror
deriving DecidableEq

/-- The execution function of the instruction. -/
def HostOp.function : HostOp → ExecFn
  | div => .lDiv
  | divu => .lDivu
  | sll => .lSll
  | srl => .lSrl
  | sra => .lSra
  | ror => .lRor

/-- `l_div` and `l_divu`: only a division by zero is kept from the host. -/
def hostDivide (div : Word → Word → Option Word) (v : View) : Option Effect :=
  let zero := decide (v.param2 = 0)
  let sr := clearBit (assignBit v.sr srCY zero) srOV
  (if zero then some none else (div v.param1 v.param2).map some).map fun temp1 =>
    .arith temp1 sr (rangeOn sr srCY)

/-- `l_ror`: the only one that masks its count. -/
def hostRor (v : View) : Option Effect := do
  let low ← shr v.param1 (v.param2 &&& 0x1f).toNat
  let high ← shl v.param1 (32 - (v.param2 &&& 0x1f)).toNat
  return .set (low ||| high)

/-- The instruction with the operations of the host. -/
def HostOp.exec : HostOp → View → Option Effect
  | div, v => hostDivide divS v
  | divu, v => hostDivide divU v
  | sll, v => (shl v.param1 v.param2.toNat).map .set
  | srl, v => (shr v.param1 v.param2.toNat).map .set
  | sra, v => (sar v.param1 v.param2.toNat).map .set
  | ror, v => hostRor v

/-- What the instruction should do: counts are taken modulo 32. -/
def HostOp.architectural : HostOp → View → Effect
  | div, v => divide (fun x y => BitVec.ofInt 32 (x.toInt.tdiv y.toInt)) v
  | divu, v => divide (fun x y => BitVec.ofNat 32 (x.toNat / y.toNat)) v
  | sll, v => .set (v.param1 <<< (v.param2.toNat % 32))
  | srl, v => .set (v.param1 >>> (v.param2.toNat % 32))
  | sra, v => .set (v.param1.sshiftRight (v.param2.toNat % 32))
  | ror, v => .set (v.param1.rotateRight v.param2.toNat)

/-- The operands on which the host is defined. -/
def HostOp.Safe : HostOp → Word → Word → Prop
  | div, x, y => ¬(x = BitVec.intMin 32 ∧ y = BitVec.allOnes 32)
  | divu, _, _ => True
  | sll, _, y | srl, _, y | sra, _, y => y.toNat < 32
  | ror, _, y => y.toNat % 32 ≠ 0

/-! ### Divisions -/

theorem hostDivide_eq_some_iff (hdiv : Word → Word → Option Word) (d : Word → Word → Word)
    (v : View) :
    hostDivide hdiv v = some (divide d v) ↔
      (v.param2 ≠ 0 → hdiv v.param1 v.param2 = some (d v.param1 v.param2)) := by
  unfold hostDivide divide
  dsimp only
  by_cases hzero : v.param2 = 0
  · rw [decide_eq_true hzero]
    exact iff_of_true rfl fun h => absurd hzero h
  · rw [decide_eq_false hzero, if_neg Bool.false_ne_true, if_neg Bool.false_ne_true]
    constructor
    · intro h _
      cases hq : hdiv v.param1 v.param2 with
      | none => rw [hq] at h; cases h
      | some q =>
        rw [hq] at h
        exact (Effect.arith.inj (Option.some.inj h)).1
    · intro h
      rw [h hzero]
      rfl

/-! ### Rotations -/

theorem toNat_and_31 (y : Word) : (y &&& 0x1f).toNat = y.toNat % 32 := by
  rw [BitVec.toNat_and]
  exact Nat.and_two_pow_sub_one_eq_mod y.toNat 5

theorem toNat_sub_and_31 (y : Word) : (32 - (y &&& 0x1f)).toNat = 32 - y.toNat % 32 := by
  have hmod := Nat.mod_lt y.toNat (show 0 < 32 by decide)
  rw [BitVec.toNat_sub_of_le, toNat_and_31]
  · rfl
  · rw [BitVec.le_def, toNat_and_31]
    exact hmod.le

theorem hostRor_eq_some_iff (v : View) :
    hostRor v = some (.set (v.param1.rotateRight v.param2.toNat)) ↔ v.param2.toNat % 32 ≠ 0 := by
  have hmod := Nat.mod_lt v.param2.toNat (show 0 < 32 by decide)
  unfold hostRor shr shl shift
  rw [toNat_and_31, toNat_sub_and_31, if_pos hmod]
  by_cases hzero : v.param2.toNat % 32 = 0
  · rw [hzero]
    exact iff_of_false (fun h => nomatch h) fun h => h rfl
  · rw [if_pos (show 32 - v.param2.toNat % 32 < 32 by omega)]
    exact iff_of_true rfl hzero

/-! ### Main results -/

theorem shift_eq_architectural_iff (op : Word → ℕ → Word) (x y : Word) :
    (shift op x y.toNat).map Effect.set = some (.set (op x (y.toNat % 32))) ↔ y.toNat < 32 := by
  unfold shift
  by_cases h : y.toNat < 32
  · rw [if_pos h, Nat.mod_eq_of_lt h]
    exact iff_of_true rfl h
  · rw [if_neg h]
    exact iff_of_false (fun h' => nomatch h') h

/-- **The arithmetic of the host is defined, and architectural, exactly on safe operands**: a signed
division does not overflow, a shift count is less than 32, and a rotation is not by a multiple of
32. -/
theorem host_arithmetic (f : HostOp) (v : View) :
    f.exec v = some (f.architectural v) ↔ f.Safe v.param1 v.param2 := by
  cases f with
  | div =>
    rw [HostOp.exec, HostOp.architectural, HostOp.Safe, hostDivide_eq_some_iff,
      divS_eq_some_iff (by decide)]
    constructor
    · rintro h ⟨hx, hy⟩
      exact (h (by rw [hy]; decide)).2.1 ⟨hx, hy⟩
    · exact fun h hzero => ⟨hzero, h, rfl⟩
  | divu =>
    rw [HostOp.exec, HostOp.architectural, HostOp.Safe, hostDivide_eq_some_iff]
    refine iff_of_true (fun hzero => ?_) trivial
    rw [divU, if_pos hzero]
  | sll => exact shift_eq_architectural_iff (fun x n => x <<< n) _ _
  | srl => exact shift_eq_architectural_iff (fun x n => x >>> n) _ _
  | sra => exact shift_eq_architectural_iff BitVec.sshiftRight _ _
  | ror => exact hostRor_eq_some_iff v

/-- An instruction with these operands. -/
def View.ofOperands (x y : Word) : View := ⟨0, x, y, 0, 0, 0, 0, 0, 0⟩

/-- The host does not define the most negative number divided by `-1`, a shift by 32, nor the left
shift by 32 in a rotation by 0. -/
theorem host_undefined :
    HostOp.div.exec (.ofOperands 0x80000000 0xffffffff) = none ∧
      HostOp.sll.exec (.ofOperands 1 32) = none ∧ HostOp.srl.exec (.ofOperands 1 32) = none ∧
      HostOp.sra.exec (.ofOperands 1 32) = none ∧ HostOp.ror.exec (.ofOperands 1 0) = none :=
  ⟨rfl, rfl, rfl, rfl, rfl⟩

/-- On a host that masks shift counts and wraps quotients, as the processor of this model does, the
instructions are the architectural ones. -/
theorem effect_function (cfg : Config) (f : HostOp) (v : View) :
    effect cfg f.function v = f.architectural v := by
  cases f with
  | div => exact congrArg (divide · v) (funext₂ fun x y => (ofInt_tdiv x y).symm)
  | divu => exact congrArg (divide · v) (funext₂ fun x y => (ofNat_div x y).symm)
  | sll | srl | sra => rfl
  | ror =>
    have hmod := Nat.mod_lt v.param2.toNat (show 0 < 32 by decide)
    change Effect.set _ = .set _
    rw [shiftCount, shiftCount, toNat_sub_and_31]
    by_cases hzero : v.param2.toNat % 32 = 0
    · rw [BitVec.rotateRight, BitVec.rotateRightAux, hzero]
      simp
    · rw [Nat.mod_eq_of_lt (show 32 - v.param2.toNat % 32 < 32 by omega)]
      rfl

end Cpu
end Or1ksim
