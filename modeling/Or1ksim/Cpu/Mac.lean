import Mathlib.Algebra.BigOperators.Group.List.Basic
import Mathlib.Data.BitVec
import Or1ksim.Cpu.Carry

/-!
# Multiply and accumulate

`l.mac` and `l.msb` of `cpu/or32/insnset.c` take the accumulator apart and put it together again.

* `joined_split` — nothing is lost on the way;
* `MacInsn.term` — what an instruction adds;
* `mac_accumulates` — **a sequence of instructions adds the sum of their terms**.
-/

namespace Or1ksim
namespace Cpu

open Insn

/-! ### The accumulator -/

/-- `MACHI:MACLO` of a machine. -/
def Sim.accumulator (s : Sim) : BitVec 64 := Cpu.accumulator (view s [])

theorem joined_split (l : BitVec 64) :
    (l.setWidth 32).setWidth 64 ||| (((l >>> 32).setWidth 32).setWidth 64 <<< 32) = l := by
  apply BitVec.eq_of_getLsbD_eq
  intro i hi
  simp only [BitVec.getLsbD_or, BitVec.getLsbD_setWidth, BitVec.getLsbD_shiftLeft,
    BitVec.getLsbD_ushiftRight]
  by_cases h : i < 32
  · simp [hi, h]
  · rw [show 32 + (i - 32) = i by omega]
    simp [hi, h, show i - 32 < 32 by omega, show i - 32 < 64 by omega]

theorem apply_setAccumulator (cfg : Config) (d : BitVec 5) (s : Sim) (l : BitVec 64) :
    ∃ t, (setAccumulator l).apply cfg d s = .ok t ∧ t.reg = s.reg ∧ t.accumulator = l := by
  refine ⟨_, rfl, rfl, ?_⟩
  have hlo : (((s.setSpr sprMACLO (l.setWidth 32)).setSpr sprMACHI
      ((l >>> 32).setWidth 32)).sprs sprMACLO) = l.setWidth 32 := by
    rw [Sim.setSpr_sprs_of_ne (by decide), Sim.setSpr_sprs_self]
  have hhi : (((s.setSpr sprMACLO (l.setWidth 32)).setSpr sprMACHI
      ((l >>> 32).setWidth 32)).sprs sprMACHI) = (l >>> 32).setWidth 32 := Sim.setSpr_sprs_self
  rw [Sim.accumulator, Cpu.accumulator, view]
  dsimp only [setParam0]
  rw [hlo, hhi]
  exact joined_split l

/-! ### Instructions -/

/-- An `l.mac` or an `l.msb`. -/
structure MacInsn where
  /-- It subtracts. -/
  msb : Bool
  /-- The register of the first operand. -/
  d : BitVec 5
  /-- The operands. -/
  ps : List Param

namespace MacInsn

/-- The execution function. -/
def function (i : MacInsn) : ExecFn := if i.msb then .lMsb else .lMac

/-- The low half of the product, sign-extended. -/
def product (s : Sim) (i : MacInsn) : BitVec 64 :=
  ((view s i.ps).param0 * (view s i.ps).param1).signExtend 64

/-- What the instruction adds to the accumulator. -/
def term (s : Sim) (i : MacInsn) : BitVec 64 := if i.msb then -i.product s else i.product s

/-- Execute the instruction. -/
def exec (cfg : Config) (s : Sim) (i : MacInsn) : Except Stop Sim :=
  executeOn cfg i.function i.d i.ps s

theorem term_congr {s t : Sim} (h : t.reg = s.reg) (i : MacInsn) : i.term t = i.term s := by
  unfold term product view
  dsimp only
  rw [h]

theorem exec_eq (cfg : Config) (s : Sim) (i : MacInsn) :
    ∃ t, i.exec cfg s = .ok t ∧ t.reg = s.reg ∧ t.accumulator = s.accumulator + i.term s := by
  obtain ⟨msb, d, ps⟩ := i
  cases msb with
  | false => exact apply_setAccumulator cfg d s _
  | true =>
    obtain ⟨t, ht, hreg, hacc⟩ := apply_setAccumulator cfg d s
      (s.accumulator - ((view s ps).param0 * (view s ps).param1).signExtend 64)
    exact ⟨t, ht, hreg, hacc.trans (BitVec.sub_eq_add_neg _ _)⟩

end MacInsn

/-! ### Sequences -/

theorem mac_sequence (cfg : Config) (is : List MacInsn) (s : Sim) :
    ∃ t, is.foldlM (MacInsn.exec cfg) s = .ok t ∧ t.reg = s.reg ∧
      t.accumulator = s.accumulator + (is.map (MacInsn.term s)).sum := by
  induction is generalizing s with
  | nil => exact ⟨s, rfl, rfl, (BitVec.add_zero _).symm⟩
  | cons i is ih =>
    obtain ⟨t, ht, hreg, hacc⟩ := i.exec_eq cfg s
    obtain ⟨u, hu, hreg', hacc'⟩ := ih t
    refine ⟨u, ?_, hreg'.trans hreg, ?_⟩
    · rw [List.foldlM_cons, ht]
      exact hu
    · have hterms : is.map (MacInsn.term t) = is.map (MacInsn.term s) :=
        List.map_congr_left fun i _ => i.term_congr hreg
      rw [hacc', hacc, hterms, List.map_cons, List.sum_cons, BitVec.add_assoc]

/-- An `l.mac` and an `l.msb` with the same operands. -/
def macPair (p : BitVec 5 × List Param) : List MacInsn := [⟨false, p.1, p.2⟩, ⟨true, p.1, p.2⟩]

theorem sum_macPairs (s : Sim) (pairs : List (BitVec 5 × List Param)) :
    ((pairs.flatMap macPair).map (MacInsn.term s)).sum = 0 := by
  induction pairs with
  | nil => rfl
  | cons p pairs ih =>
    rw [List.flatMap_cons, List.map_append, List.sum_append, ih]
    simp [macPair, MacInsn.term, MacInsn.product]

/-- **Multiply and accumulate**: from any machine, a sequence of `l.mac` and `l.msb` leaves the
accumulator with the sum of the sign-extended low halves of the products added, modulo `2 ^ 64`,
those of `l.msb` with the opposite sign.  So pairs of an `l.mac` and an `l.msb` with the same
operands restore it, in whatever order they are interleaved. -/
theorem mac_accumulates (cfg : Config) (s : Sim) (is : List MacInsn) :
    ∃ t, is.foldlM (MacInsn.exec cfg) s = .ok t ∧
      t.accumulator = s.accumulator + (is.map (MacInsn.term s)).sum ∧
      ∀ pairs : List (BitVec 5 × List Param), is.Perm (pairs.flatMap macPair) →
        t.accumulator = s.accumulator := by
  obtain ⟨t, ht, -, hacc⟩ := mac_sequence cfg is s
  refine ⟨t, ht, hacc, fun pairs hperm => ?_⟩
  rw [hacc, (hperm.map (MacInsn.term s)).sum_eq, sum_macPairs]
  exact BitVec.add_zero _

end Cpu
end Or1ksim
