import Or1ksim.Cuc.Arith
import Or1ksim.Cuc.DetectBb

/-!
# The edge conditions of instructions

`apply_edge_condition` of `cuc/insn.c`: an instruction with a constant at the edge of what its
operation does is replaced by an addition, or by another comparison.

* `applyEdgeCondition` — the function, its cases that fall through included;
* `EdgeExact` — the instructions and values that it treats rightly;
* `edge_exact_iff` — **the instruction that is left has the value of the original exactly there**.
-/

namespace Or1ksim
namespace Cuc

variable {W : ℕ}

/-! ### The function -/

/-- `opt[2] & OPT_CONST` and `c`, which is an `unsigned int`. -/
def edgeConst (ii : Insn W) : Option Word :=
  match ii.op 2 with
  | .const c => some (low c)
  | _ => none

/-- The instruction as another one, with operands 1 and 2. -/
def withOps (ii : Insn W) (index : Index) (a b : Operand W) : Insn W :=
  { ii with index := index, op := Function.update (Function.update ii.op 1 a) 2 b }

/-- The instruction as `a + 0`. -/
def move (ii : Insn W) (a : Operand W) : Insn W := withOps ii .add a (.const 0)

/-- `a + 0` without a third operand. -/
def moveCmov (ii : Insn W) (a b : Operand W) : Insn W :=
  { withOps ii .add a b with op := Function.update (withOps ii .add a b).op 3 .none }

/-- A comparison of two numbers of one width, unsigned. -/
def compares {n : ℕ} (index : Index) (a b : BitVec n) : Bool :=
  match index with
  | .sfeq => a = b
  | .sfne => a ≠ b
  | .sfle => a ≤ b
  | .sflt => a < b
  | .sfge => b ≤ a
  | .sfgt => b < a
  | _ => false

/-- A truth value in an operand. -/
def truth (b : Bool) : Operand W := .const (if b then 1 else 0)

/-- Two constants are compared, as `unsigned long`. -/
def compareConsts (index : Index) (ii : Insn W) : Option (Insn W) :=
  match ii.op 1, ii.op 2 with
  | .const a, .const b => some (move ii (truth (compares index a b)))
  | _, _ => none

/-- `opt[2] && OPT_CONST && op[2] == 0`, with a logical `&&`. -/
def zeroWord (o : Operand W) : Bool := decide (o ≠ .none) && decide (o.word = 0)

/-- `case II_CMOV`. -/
def edgeCmov (ii : Insn W) : Bool × Insn W :=
  if ii.op 1 = ii.op 2 then (true, moveCmov ii (ii.op 1) (.const 0))
  else
    match ii.op 3 with
    | .const c =>
      (true, if c ≠ 0 then moveCmov ii (ii.op 1) (.const 0) else moveCmov ii (.const 0) (ii.op 2))
    | cond =>
      if ii.cond then
        match ii.op 1, ii.op 2 with
        | .const a, .const b =>
          if a ≠ 0 ∧ b = 0 then (true, moveCmov ii cond (.const 0))
          else if a ≠ 0 ∧ b ≠ 0 then (true, moveCmov ii (.const 1) (.const 0))
          else if a = 0 ∧ b = 0 then (true, moveCmov ii (.const 0) (.const 0))
          else (false, ii)
        | left, right =>
          if left = cond then (true, withOps ii ii.index (.const 1) right)
          else if right = cond then (true, withOps ii ii.index left (.const 0))
          else (false, ii)
      else (false, ii)

/-- `case II_SFGT`, which falls through to `II_CMOV`. -/
def edgeSfgt (ii : Insn W) : Bool × Insn W :=
  match compareConsts .sfgt ii with
  | some ii' => (true, ii')
  | none => if zeroWord (ii.op 2) then edgeCmov { ii with index := .sfne } else (false, ii)

/-- `case II_SFGE`, which falls through to `II_SFGT`. -/
def edgeSfge (ii : Insn W) : Bool × Insn W :=
  match compareConsts .sfge ii with
  | some ii' => (true, ii')
  | none =>
    if zeroWord (ii.op 2) then edgeSfgt (withOps ii .add (.const 1) (ii.op 2)) else (false, ii)

/-- `case II_SFLT`. -/
def edgeSflt (ii : Insn W) : Bool × Insn W :=
  match compareConsts .sflt ii with
  | some ii' => (true, ii')
  | none =>
    if zeroWord (ii.op 2) then (false, withOps ii .add (.const 0) (ii.op 2)) else (false, ii)

/-- `case II_SFLE`, which falls through to `II_SFLT`. -/
def edgeSfle (ii : Insn W) : Bool × Insn W :=
  match compareConsts .sfle ii with
  | some ii' => (true, ii')
  | none => if zeroWord (ii.op 2) then edgeSflt { ii with index := .sfeq } else (false, ii)

/-- `case II_SFEQ` and `case II_SFNE`. -/
def edgeEquality (ii : Insn W) : Bool × Insn W :=
  match compareConsts ii.index ii with
  | some ii' => (true, ii')
  | none => (false, ii)

/-- `case II_AND`. -/
def edgeAnd (ii : Insn W) : Bool × Insn W :=
  if edgeConst ii = some 0 then (true, move ii (.const 0))
  else if edgeConst ii = some 0xffffffff then (true, move ii (ii.op 1))
  else (false, ii)

/-- `case II_OR`. -/
def edgeOr (ii : Insn W) : Bool × Insn W :=
  if edgeConst ii = some 0 then (true, move ii (.const 0))
  else if edgeConst ii = some 0xffffffff then (true, move ii (.const 0xffffffff))
  else (false, ii)

/-- `case II_SUB`. -/
def edgeSub (ii : Insn W) : Bool × Insn W :=
  if ii.op 1 = ii.op 2 then (true, move ii (.const 0)) else (false, ii)

/-- `case II_MUL`. -/
def edgeMul (ii : Insn W) : Bool × Insn W :=
  if edgeConst ii = some 0 then (true, move ii (.const 0))
  else if edgeConst ii = some 1 then (true, move ii (.const 1))
  else if edgeConst ii = some 0xffffffff then (true, withOps ii .sub (.const 0) (ii.op 1))
  else (false, ii)

/-- `case II_SRL` and `case II_SLL`. -/
def edgeShift (ii : Insn W) : Bool × Insn W :=
  match edgeConst ii with
  | some c => if c = 0 ∨ 32 ≤ c then (true, move ii (.const 0)) else (false, ii)
  | none => (false, ii)

/-- `case II_SRA`. -/
def edgeSra (ii : Insn W) : Bool × Insn W :=
  if edgeConst ii = some 0 then (true, move ii (.const 0)) else (false, ii)

/-- `apply_edge_condition`: whether it says that it simplified, and the instruction. -/
def applyEdgeCondition (ii : Insn W) : Bool × Insn W :=
  match ii.index with
  | .and => edgeAnd ii
  | .or => edgeOr ii
  | .sub => edgeSub ii
  | .mul => edgeMul ii
  | .srl | .sll => edgeShift ii
  | .sra => edgeSra ii
  | .sfeq | .sfne => edgeEquality ii
  | .sfle => edgeSfle ii
  | .sflt => edgeSflt ii
  | .sfge => edgeSfge ii
  | .sfgt => edgeSfgt ii
  | .cmov => edgeCmov ii
  | _ => (false, ii)

/-! ### Where it is exact -/

/-- An instruction with constants and references for operands, three of a `cmov` and two
otherwise. -/
structure EdgeFormed (ii : Insn W) : Prop where
  left : (∃ c, ii.op 1 = .const c) ∨ ∃ q, ii.op 1 = .ref q
  right : (∃ c, ii.op 2 = .const c) ∨ ∃ q, ii.op 2 = .ref q
  third : if ii.index = .cmov then (∃ c, ii.op 3 = .const c) ∨ ∃ q, ii.op 3 = .ref q
    else ii.op 3 = .none

/-- The operands that are conditions: the third of a `cmov`, and all of one of conditions. -/
def isCondition (ii : Insn W) (k : OperandNo) : Prop :=
  ii.index = .cmov ∧ (k = 3 ∨ ii.cond = true)

/-- References to conditions hold 0 or 1. -/
def ConditionsHold (ii : Insn W) (v : Ref → Word) : Prop :=
  ∀ k, isCondition ii k → ∀ q, ii.op k = .ref q → v q = 0 ∨ v q = 1

/-- Two constants compare as they do on 32 bits. -/
def ConstsExact (ii : Insn W) : Prop :=
  ∀ a b, ii.op 1 = .const a → ii.op 2 = .const b →
    compares ii.index a b = compares ii.index (low a) (low b)

/-- A comparison, not of two constants, whose second operand looks like 0. -/
def ZeroEdge (ii : Insn W) : Prop :=
  compareConsts ii.index ii = none ∧ zeroWord (ii.op 2) = true

/-- A `cmov` is simplified exactly. -/
def CmovExact (ii : Insn W) (x : OperandNo → Word) : Prop :=
  ii.op 1 ≠ ii.op 2 →
    match ii.op 3 with
    | .const c => (c = 0 ↔ low c = 0) ∨ x 1 = x 2
    | _ => ii.cond = true → ∀ a b, ii.op 1 = .const a → ii.op 2 = .const b → a ≠ 0 →
      if b = 0 then x 3 = 1 → x 1 = 1 else (if x 3 ≠ 0 then x 1 else x 2) = 1

/-- The instructions, and the values of their operands, that are simplified exactly. -/
def EdgeExact (ii : Insn W) (x : OperandNo → Word) : Prop :=
  match ii.index with
  | .or | .srl | .sll | .sra => edgeConst ii = some 0 → x 1 = 0
  | .mul => edgeConst ii = some 1 → x 1 = 1
  | .sfeq | .sfne => ConstsExact ii
  | .sfle => ConstsExact ii ∧ (ZeroEdge ii → x 2 = 0 ∧ x 1 ≠ 0 ∨ x 2 = 1 ∧ x 1 ≤ 1)
  | .sflt => ConstsExact ii ∧ (ZeroEdge ii → x 2 = 0 ∨ x 2 = 1 ∧ x 1 = 0)
  | .sfge => ConstsExact ii ∧ (ZeroEdge ii → (x 2 ≠ 1 ↔ x 2 ≤ x 1))
  | .sfgt => ConstsExact ii ∧ (ZeroEdge ii → if ii.op 1 = ii.op 2 then x 1 = 0 else x 2 ≤ x 1)
  | .cmov => CmovExact ii x
  | _ => True

/-- What the instruction evaluates to. -/
def eval (env : Env) (v : Ref → Word) (b n : ℕ) (ii : Insn W) : Word :=
  compute env b n ii.index (args env v ii)

variable {env : Env} {v : Ref → Word} {b n : ℕ} {ii : Insn W} {a a' : Operand W}

/-! ### What is left -/

section Constants

theorem low_one (hW : 32 ≤ W) : low (1 : BitVec W) = 1 :=
  BitVec.setWidth_ofNat_of_le hW 1

theorem low_allOnes (hW : 32 ≤ W) : low (0xffffffff : BitVec W) = 0xffffffff :=
  BitVec.setWidth_ofNat_of_le hW 0xffffffff

theorem low_truth (hW : 32 ≤ W) (c : Bool) :
    operandValue env v (truth c : Operand W) = flag c := by
  cases c with
  | true => exact low_one hW
  | false => exact low_zero

end Constants

theorem args_withOps_one {index : Index} : args env v (withOps ii index a a') 1 =
    operandValue env v a := by
  simp [args, withOps]

theorem args_withOps_two {index : Index} : args env v (withOps ii index a a') 2 =
    operandValue env v a' := by
  simp [args, withOps]

theorem eval_withOps_add :
    eval env v b n (withOps ii .add a a') = operandValue env v a + operandValue env v a' := by
  have hone : args env v (withOps ii .add a a') 1 = operandValue env v a := args_withOps_one
  have htwo : args env v (withOps ii .add a a') 2 = operandValue env v a' := args_withOps_two
  rw [eval, ← hone, ← htwo]
  rfl

theorem eval_move : eval env v b n (move ii a) = operandValue env v a := by
  rw [move, eval_withOps_add, operandValue, low_zero]
  exact BitVec.add_zero _

theorem eval_moveCmov :
    eval env v b n (moveCmov ii a a') = operandValue env v a + operandValue env v a' := by
  have hone : args env v (moveCmov ii a a') 1 = operandValue env v a := by
    simp [args, moveCmov, withOps]
  have htwo : args env v (moveCmov ii a a') 2 = operandValue env v a' := by
    simp [args, moveCmov, withOps]
  rw [← hone, ← htwo]
  rfl

theorem compute_compare {index : Index} (h : index.isCompare = true) (x : OperandNo → Word) :
    compute env b n index x = flag (compares index (x 1) (x 2)) := by
  cases index <;> first | rfl | exact absurd h (by decide)

theorem eval_compare (h : ii.index.isCompare = true) :
    eval env v b n ii = flag (compares ii.index (args env v ii 1) (args env v ii 2)) :=
  compute_compare h _

theorem edgeConst_eq {c : Word} (h : edgeConst ii = some c) : args env v ii 2 = c := by
  unfold edgeConst at h
  split at h
  · next c' hc =>
    cases h
    rw [args, hc, operandValue]
  · cases h

/-! ### Arithmetic -/

theorem edgeAnd_exact (hindex : ii.index = .and) :
    eval env v b n (edgeAnd ii).2 = eval env v b n ii := by
  have hval : eval env v b n ii = args env v ii 1 &&& args env v ii 2 := by rw [eval, hindex]; rfl
  rw [hval, edgeAnd]
  split
  · next hc =>
    rw [edgeConst_eq hc, eval_move, operandValue, low_zero]
    exact BitVec.and_zero.symm
  · split
    · next hc =>
      rw [edgeConst_eq hc, eval_move]
      exact BitVec.and_allOnes.symm
    · exact hval

theorem edgeOr_iff (hW : 32 ≤ W) (hindex : ii.index = .or) :
    eval env v b n (edgeOr ii).2 = eval env v b n ii ↔
      (edgeConst ii = some 0 → args env v ii 1 = 0) := by
  have hval : eval env v b n ii = args env v ii 1 ||| args env v ii 2 := by rw [eval, hindex]; rfl
  rw [edgeOr]
  split
  · next hc =>
    rw [hval, edgeConst_eq hc, eval_move, operandValue, low_zero, eq_comm]
    simp [hc]
  · next hc =>
    refine iff_of_true ?_ fun h => absurd h hc
    split
    · next hc =>
      rw [hval, edgeConst_eq hc, eval_move, operandValue, low_allOnes hW]
      exact BitVec.or_allOnes.symm
    · rfl

theorem edgeSub_exact (hindex : ii.index = .sub) :
    eval env v b n (edgeSub ii).2 = eval env v b n ii := by
  have hval : eval env v b n ii = args env v ii 1 - args env v ii 2 := by rw [eval, hindex]; rfl
  rw [edgeSub]
  split
  · next hsame =>
    rw [hval, eval_move, operandValue, low_zero, args, args, hsame, BitVec.sub_self]
    rfl
  · rfl

theorem edgeMul_iff (hW : 32 ≤ W) (hindex : ii.index = .mul) :
    eval env v b n (edgeMul ii).2 = eval env v b n ii ↔
      (edgeConst ii = some 1 → args env v ii 1 = 1) := by
  have hval : eval env v b n ii = args env v ii 1 * args env v ii 2 := by rw [eval, hindex]; rfl
  rw [edgeMul]
  split
  · next hc =>
    rw [hval, edgeConst_eq hc, eval_move, operandValue, low_zero, hc]
    exact iff_of_true BitVec.mul_zero.symm (by simp)
  · split
    · next hc =>
      rw [hval, edgeConst_eq hc, eval_move, operandValue, low_one hW, eq_comm]
      simp [hc]
    · next hc =>
      refine iff_of_true ?_ fun h => absurd h hc
      split
      · next hc =>
        have hneg : (0xffffffff : Word) = -1#32 := by decide
        have hleft : eval env v b n (withOps ii .sub (.const 0) (ii.op 1)) =
            args env v (withOps ii .sub (.const 0) (ii.op 1)) 1 -
              args env v (withOps ii .sub (.const 0) (ii.op 1)) 2 := rfl
        rw [hleft, args_withOps_one, args_withOps_two, hval, edgeConst_eq hc, operandValue,
          low_zero, hneg, BitVec.mul_neg, BitVec.mul_one]
        exact BitVec.zero_sub _
      · rfl

theorem edgeShift_iff (op : Word → Word → Word) (hindex : eval env v b n ii =
      op (args env v ii 1) (args env v ii 2)) (hzero : ∀ x, op x 0 = x)
    (hlong : ∀ x c : Word, 32 ≤ c → op x c = 0) :
    eval env v b n (edgeShift ii).2 = eval env v b n ii ↔
      (edgeConst ii = some 0 → args env v ii 1 = 0) := by
  unfold edgeShift
  split
  · next c hc =>
    rw [hc, hindex, edgeConst_eq hc]
    by_cases hzeroc : c = 0
    · subst hzeroc
      rw [if_pos (.inl rfl), eval_move, operandValue, low_zero, hzero, eq_comm]
      simp
    · refine iff_of_true ?_ fun h => absurd (Option.some.inj h) hzeroc
      split
      · next hor =>
        rw [eval_move, operandValue, low_zero, hlong _ _ (hor.resolve_left hzeroc)]
      · rw [hindex, edgeConst_eq hc]
  · next hc => exact iff_of_true rfl fun h => absurd (hc.symm.trans h) (by decide)

theorem edgeSra_iff (hindex : ii.index = .sra) :
    eval env v b n (edgeSra ii).2 = eval env v b n ii ↔
      (edgeConst ii = some 0 → args env v ii 1 = 0) := by
  unfold edgeSra
  split
  · next hc =>
    have hval : eval env v b n ii = args env v ii 1 := by
      rw [eval, hindex, compute, edgeConst_eq hc]
      have hcount : 32#33 - (0 : Word).setWidth 33 = 32#33 := by decide
      rw [hcount]
      simp
    rw [hval, eval_move, operandValue, low_zero, eq_comm]
    simp [hc]
  · next hc => exact iff_of_true rfl fun h => absurd h hc

/-! ### Comparisons -/

/-- Two constants are compared exactly when their low 32 bits compare alike. -/
theorem compareConsts_eq_some {index : Index} {ii' : Insn W}
    (h : compareConsts index ii = some ii') : ∃ c d, ii.op 1 = .const c ∧ ii.op 2 = .const d ∧
      ii' = move ii (truth (compares index c d)) := by
  unfold compareConsts at h
  split at h
  · next c d hc hd =>
    cases h
    exact ⟨c, d, hc, hd, rfl⟩
  · cases h

theorem compareConsts_iff (hW : 32 ≤ W) (hcmp : ii.index.isCompare = true) {ii' : Insn W}
    (h : compareConsts ii.index ii = some ii') :
    eval env v b n ii' = eval env v b n ii ↔ ConstsExact ii := by
  obtain ⟨c, d, hc, hd, rfl⟩ := compareConsts_eq_some h
  rw [eval_move, low_truth hW, eval_compare hcmp, args, args, hc, hd, operandValue, operandValue]
  have hflag : ∀ p q : Bool, flag p = flag q ↔ p = q := by decide
  rw [hflag]
  constructor
  · intro heq a a' ha ha'
    rw [hc] at ha
    rw [hd] at ha'
    cases ha
    cases ha'
    exact heq
  · exact fun hexact => hexact c d hc hd

theorem constsExact_of_none (h : compareConsts ii.index ii = none) : ConstsExact ii := by
  intro c d hc hd
  rw [compareConsts, hc, hd] at h
  cases h

theorem compareConsts_eq_none_iff {index : Index} :
    compareConsts index ii = none ↔ ∀ c d, ii.op 1 = .const c → ii.op 2 ≠ .const d := by
  unfold compareConsts
  split
  · next c d hc hd => exact iff_of_false nofun fun h => h c d hc hd
  · next hne => exact iff_of_true rfl fun c d hc hd => hne c d hc hd

/-- Whether both operands are constants does not depend on the comparison. -/
theorem compareConsts_none {index index' : Index} (h : compareConsts index ii = none) :
    compareConsts index' ii = none :=
  compareConsts_eq_none_iff.2 (compareConsts_eq_none_iff.1 h)

theorem edgeEquality_iff (hW : 32 ≤ W) (hcmp : ii.index.isCompare = true) :
    eval env v b n (edgeEquality ii).2 = eval env v b n ii ↔ ConstsExact ii := by
  unfold edgeEquality
  split
  · next ii' hsome => exact compareConsts_iff hW hcmp hsome
  · next hnone => exact iff_of_true rfl (constsExact_of_none hnone)

/-- A comparison with an edge for an operand that looks like 0. -/
theorem edgeCompare_iff (hW : 32 ≤ W) (hcmp : ii.index.isCompare = true)
    {left : Bool × Insn W} {Z : Prop} (hsome : ∀ ii'', compareConsts ii.index ii = some ii'' →
      left.2 = ii'') (hzero : ZeroEdge ii → (eval env v b n left.2 = eval env v b n ii ↔ Z))
    (helse : compareConsts ii.index ii = none → zeroWord (ii.op 2) = false → left.2 = ii) :
    eval env v b n left.2 = eval env v b n ii ↔ ConstsExact ii ∧ (ZeroEdge ii → Z) := by
  cases hconsts : compareConsts ii.index ii with
  | some ii'' =>
    rw [hsome ii'' hconsts, compareConsts_iff hW hcmp hconsts]
    exact (and_iff_left fun hedge => absurd (hconsts.symm.trans hedge.1) (by simp)).symm
  | none =>
    have hexact := constsExact_of_none hconsts
    cases hword : zeroWord (ii.op 2) with
    | true =>
      have hedge : ZeroEdge ii := ⟨hconsts, hword⟩
      rw [hzero hedge]
      exact ⟨fun hZ => ⟨hexact, fun _ => hZ⟩, fun h => h.2 hedge⟩
    | false =>
      rw [helse hconsts hword]
      exact iff_of_true rfl ⟨hexact, fun hedge => absurd (hword.symm.trans hedge.2) (by decide)⟩

theorem eval_zero_add : eval env v b n (withOps ii .add (.const 0) a) = operandValue env v a := by
  rw [eval_withOps_add, operandValue, low_zero]
  exact BitVec.zero_add _

theorem eq_flag_iff {p : Prop} [Decidable p] {x : Word} :
    x = flag (decide p) ↔ x = 1 ∧ p ∨ x = 0 ∧ ¬p := by
  by_cases hp : p
  · simp [flag, hp]
  · simp [flag, hp]

theorem flag_eq_flag_iff {p q : Prop} [Decidable p] [Decidable q] :
    flag (decide p) = flag (decide q) ↔ (p ↔ q) := by
  by_cases hp : p <;> by_cases hq : q <;> simp [flag, hp, hq]

theorem edgeSflt_iff (hW : 32 ≤ W) (hindex : ii.index = .sflt) :
    eval env v b n (edgeSflt ii).2 = eval env v b n ii ↔
      ConstsExact ii ∧ (ZeroEdge ii → args env v ii 2 = 0 ∨
        args env v ii 2 = 1 ∧ args env v ii 1 = 0) := by
  have hcmp : ii.index.isCompare = true := by rw [hindex]; rfl
  refine edgeCompare_iff hW hcmp (fun ii' h => ?_) (fun hedge => ?_) fun h hword => ?_
  · rw [hindex] at h
    rw [edgeSflt, h]
  · obtain ⟨hnone, hword⟩ := hedge
    rw [hindex] at hnone
    rw [edgeSflt, hnone, eval_compare hcmp, hindex]
    dsimp only
    rw [if_pos hword, eval_zero_add]
    change args env v ii 2 = flag (decide (args env v ii 1 < args env v ii 2)) ↔ _
    rw [eq_flag_iff]
    bv_omega
  · rw [hindex] at h
    rw [edgeSflt, h]
    dsimp only
    rw [hword, if_neg Bool.false_ne_true]

theorem edgeSfle_iff (hW : 32 ≤ W) (hindex : ii.index = .sfle) :
    eval env v b n (edgeSfle ii).2 = eval env v b n ii ↔
      ConstsExact ii ∧ (ZeroEdge ii → args env v ii 2 = 0 ∧ args env v ii 1 ≠ 0 ∨
        args env v ii 2 = 1 ∧ args env v ii 1 ≤ 1) := by
  have hcmp : ii.index.isCompare = true := by rw [hindex]; rfl
  refine edgeCompare_iff hW hcmp (fun ii' h => ?_) (fun hedge => ?_) fun h hword => ?_
  · rw [hindex] at h
    rw [edgeSfle, h]
  · obtain ⟨hnone, hword⟩ := hedge
    rw [hindex] at hnone
    have hfall : compareConsts .sflt { ii with index := .sfeq } = none := compareConsts_none hnone
    rw [edgeSfle, hnone, eval_compare hcmp, hindex]
    dsimp only
    rw [if_pos hword, edgeSflt, hfall]
    dsimp only
    rw [if_pos hword, eval_zero_add]
    change args env v ii 2 = flag (decide (args env v ii 1 ≤ args env v ii 2)) ↔ _
    rw [eq_flag_iff]
    bv_omega
  · rw [hindex] at h
    rw [edgeSfle, h]
    dsimp only
    rw [hword, if_neg Bool.false_ne_true]

/-- An instruction without a third operand passes through `case II_CMOV`. -/
theorem edgeCmov_of_none (hthird : ii.op 3 = .none) (hne : ii.op 1 ≠ ii.op 2)
    (hconsts : ∀ c d, ii.op 1 = .const c → ii.op 2 ≠ .const d) (hleft : ii.op 1 ≠ .none)
    (hright : ii.op 2 ≠ .none) : edgeCmov ii = (false, ii) := by
  unfold edgeCmov
  rw [if_neg hne, hthird]
  dsimp only
  split
  · split
    · next c d hc hd => exact absurd hd (hconsts c d hc)
    · rw [if_neg hleft, if_neg hright]
  · rfl

theorem operand_ne_none {o : Operand W} (h : (∃ c, o = .const c) ∨ ∃ q, o = .ref q) :
    o ≠ .none := by
  rintro rfl
  rcases h with ⟨c, hc⟩ | ⟨q, hq⟩
  · cases hc
  · cases hq

theorem edgeSfgt_iff (hW : 32 ≤ W) (hindex : ii.index = .sfgt) (hformed : EdgeFormed ii) :
    eval env v b n (edgeSfgt ii).2 = eval env v b n ii ↔
      ConstsExact ii ∧ (ZeroEdge ii → if ii.op 1 = ii.op 2 then args env v ii 1 = 0
        else args env v ii 2 ≤ args env v ii 1) := by
  have hcmp : ii.index.isCompare = true := by rw [hindex]; rfl
  have hthird : ii.op 3 = .none := by
    have := hformed.third
    rwa [hindex, if_neg nofun] at this
  refine edgeCompare_iff hW hcmp (fun ii' h => ?_) (fun hedge => ?_) fun h hword => ?_
  · rw [hindex] at h
    rw [edgeSfgt, h]
  · obtain ⟨hnone, hword⟩ := hedge
    rw [hindex] at hnone
    rw [edgeSfgt, hnone, eval_compare hcmp, hindex]
    dsimp only
    rw [if_pos hword]
    by_cases hsame : ii.op 1 = ii.op 2
    · -- both are the reference that looks like 0
      have hx : args env v ii 2 = args env v ii 1 := by rw [args, args, hsame]
      have hval : eval env v b n (edgeCmov { ii with index := .sfne }).2 = args env v ii 1 := by
        rw [edgeCmov, if_pos hsame, eval_moveCmov, operandValue.eq_1, low_zero]
        exact BitVec.add_zero _
      rw [hval, if_pos hsame, hx]
      change _ = flag (decide (args env v ii 1 < args env v ii 1)) ↔ _
      rw [eq_flag_iff]
      bv_omega
    · have hcmov : edgeCmov { ii with index := .sfne } = (false, { ii with index := .sfne }) :=
        edgeCmov_of_none hthird hsame (compareConsts_eq_none_iff.1 hnone)
          (operand_ne_none hformed.left) (operand_ne_none hformed.right)
      rw [hcmov, if_neg hsame]
      change flag (decide (args env v ii 1 ≠ args env v ii 2)) =
        flag (decide (args env v ii 2 < args env v ii 1)) ↔ _
      rw [flag_eq_flag_iff]
      bv_omega
  · rw [hindex] at h
    rw [edgeSfgt, h]
    dsimp only
    rw [hword, if_neg Bool.false_ne_true]

theorem edgeSfge_iff (hW : 32 ≤ W) (hindex : ii.index = .sfge) (hformed : EdgeFormed ii) :
    eval env v b n (edgeSfge ii).2 = eval env v b n ii ↔
      ConstsExact ii ∧ (ZeroEdge ii →
        (args env v ii 2 ≠ 1 ↔ args env v ii 2 ≤ args env v ii 1)) := by
  have hcmp : ii.index.isCompare = true := by rw [hindex]; rfl
  have hthird : ii.op 3 = .none := by
    have := hformed.third
    rwa [hindex, if_neg nofun] at this
  refine edgeCompare_iff hW hcmp (fun ii' h => ?_) (fun hedge => ?_) fun h hword => ?_
  · rw [hindex] at h
    rw [edgeSfge, h]
  · obtain ⟨hnone, hword⟩ := hedge
    rw [hindex] at hnone
    rw [edgeSfge, hnone, eval_compare hcmp, hindex]
    dsimp only
    rw [if_pos hword]
    set jj := withOps ii .add (.const 1) (ii.op 2) with hjj
    have hone : jj.op 1 = .const 1 := by simp [hjj, withOps]
    have htwo : jj.op 2 = ii.op 2 := by simp [hjj, withOps]
    have hthree : jj.op 3 = .none := by simpa [hjj, withOps] using hthird
    change _ = flag (decide (args env v ii 2 ≤ args env v ii 1)) ↔ _
    rcases hformed.right with ⟨d, hd⟩ | ⟨q, hq⟩
    · -- a constant 0: the fall through compares 1 with it
      have hd0 : d = 0 := by
        rw [hd, zeroWord, Bool.and_eq_true, decide_eq_true_eq, decide_eq_true_eq] at hword
        exact hword.2
      have hx : args env v ii 2 = 0 := by rw [args, hd, hd0, operandValue, low_zero]
      have hsome : compareConsts .sfgt jj = some (move jj (truth (compares .sfgt 1#W d))) := by
        rw [compareConsts, hone, htwo, hd]
        rfl
      have htrue : compares .sfgt 1#W d = true := by
        subst hd0
        refine decide_eq_true (BitVec.lt_def.2 ?_)
        have hpow : 1 < 2 ^ W := Nat.one_lt_two_pow (by omega)
        change (0 : BitVec W).toNat < (1#W).toNat
        rw [BitVec.toNat_ofNat, Nat.mod_eq_of_lt hpow]
        exact Nat.lt_one_iff.2 rfl
      rw [edgeSfgt, hsome]
      dsimp only
      rw [eval_move, low_truth hW, htrue, hx]
      have hle : (0 : Word) ≤ args env v ii 1 := BitVec.le_def.2 (Nat.zero_le _)
      exact iff_of_true (congrArg flag (decide_eq_true hle).symm) (iff_of_true (by decide) hle)
    · have hnone' : compareConsts .sfgt jj = none := compareConsts_eq_none_iff.2 fun _ _ _ h => by
        rw [htwo, hq] at h
        cases h
      rw [edgeSfgt, hnone']
      dsimp only
      have hcmov : edgeCmov { jj with index := .sfne } = (false, { jj with index := .sfne }) :=
        edgeCmov_of_none hthree (by rw [hone, htwo, hq]; exact nofun)
          (compareConsts_eq_none_iff.1 hnone') (by rw [hone]; exact nofun)
          (by rw [htwo, hq]; exact nofun)
      rw [if_pos (by rw [htwo]; exact hword), hcmov]
      have hval : eval env v b n { jj with index := .sfne } =
          flag (decide (1 ≠ args env v ii 2)) := by
        change flag (decide (args env v jj 1 ≠ args env v jj 2)) = _
        rw [args, args, hone, htwo, operandValue.eq_1, low_one hW]
        rfl
      rw [hval, flag_eq_flag_iff, ne_comm]
  · rw [hindex] at h
    rw [edgeSfge, h]
    dsimp only
    rw [hword, if_neg Bool.false_ne_true]

/-! ### Conditional moves -/

theorem eval_cmov (hindex : ii.index = .cmov) : eval env v b n ii =
    if args env v ii 3 ≠ 0 then args env v ii 1 else args env v ii 2 := by
  rw [eval, hindex]
  rfl

theorem eval_cmov_withOps (hindex : ii.index = .cmov) :
    eval env v b n (withOps ii ii.index a a') =
      if args env v ii 3 ≠ 0 then operandValue env v a else operandValue env v a' := by
  have hcmov : (withOps ii ii.index a a').index = .cmov := hindex
  rw [eval_cmov hcmov, args_withOps_one, args_withOps_two]
  rfl

theorem eval_moveCmov_zero : eval env v b n (moveCmov ii a (.const 0)) = operandValue env v a := by
  rw [eval_moveCmov, operandValue.eq_1, low_zero]
  exact BitVec.add_zero _

theorem eval_moveCmov_zero_left :
    eval env v b n (moveCmov ii (.const 0) a) = operandValue env v a := by
  rw [eval_moveCmov, operandValue.eq_1, low_zero]
  exact BitVec.zero_add _

/-- A condition that is chosen by itself is 1, and one that is not chosen by itself is 0. -/
theorem cond_cases {x y z : Word} (hx : x = 0 ∨ x = 1) :
    (if x ≠ 0 then 1 else y) = (if x ≠ 0 then x else y) ∧
      (if x ≠ 0 then z else 0) = if x ≠ 0 then z else x := by
  rcases hx with rfl | rfl
  · exact ⟨rfl, rfl⟩
  · exact ⟨rfl, rfl⟩

theorem edgeCmov_consts_iff (hW : 32 ≤ W) (hindex : ii.index = .cmov) {q : Ref}
    (hthird : ii.op 3 = .ref q) (hcond : ii.cond = true) (hq : v q = 0 ∨ v q = 1)
    {c d : BitVec W} (hc : ii.op 1 = .const c) (hd : ii.op 2 = .const d)
    (hne : ii.op 1 ≠ ii.op 2) :
    eval env v b n (edgeCmov ii).2 = eval env v b n ii ↔
      (c ≠ 0 → if d = 0 then args env v ii 3 = 1 → args env v ii 1 = 1
        else (if args env v ii 3 ≠ 0 then args env v ii 1 else args env v ii 2) = 1) := by
  have hx3 : args env v ii 3 = v q := by rw [args, hthird, operandValue]
  have hx2 : args env v ii 2 = low d := by rw [args, hd, operandValue]
  have hform : edgeCmov ii =
      if c ≠ 0 ∧ d = 0 then (true, moveCmov ii (.ref q) (.const 0))
      else if c ≠ 0 ∧ d ≠ 0 then (true, moveCmov ii (.const 1) (.const 0))
      else if c = 0 ∧ d = 0 then (true, moveCmov ii (.const 0) (.const 0))
      else (false, ii) := by
    rw [edgeCmov, if_neg hne, hthird]
    dsimp only
    rw [if_pos hcond, hc, hd]
  rw [hform, eval_cmov hindex]
  by_cases hczero : c = 0
  · rw [if_neg (fun h => h.1 hczero), if_neg (fun h => h.1 hczero)]
    refine iff_of_true ?_ fun h => absurd hczero h
    have hx1 : args env v ii 1 = 0 := by rw [args, hc, hczero, operandValue, low_zero]
    split
    · next hboth =>
      rw [eval_moveCmov_zero, operandValue, low_zero, hx1, hx2, hboth.2, low_zero, ite_self]
    · rw [eval_cmov hindex]
  · by_cases hdzero : d = 0
    · rw [if_pos ⟨hczero, hdzero⟩, if_pos hdzero, eval_moveCmov_zero, operandValue, hx3, hx2,
        hdzero, low_zero]
      rcases hq with hq | hq
      · rw [hq]
        exact iff_of_true rfl fun _ h => absurd h (by decide)
      · rw [hq, if_pos (by decide)]
        exact ⟨fun h _ _ => h.symm, fun h => (h hczero rfl).symm⟩
    · rw [if_neg (fun h => hdzero h.2), if_pos ⟨hczero, hdzero⟩, if_neg hdzero,
        eval_moveCmov_zero, operandValue, low_one hW, eq_comm]
      exact ⟨fun h _ => h, fun h => h hczero⟩

/-- A `cmov` of conditions, one of them the condition that it tests. -/
theorem edgeCmov_refs (hW : 32 ≤ W) (hindex : ii.index = .cmov) {q : Ref}
    (hthird : ii.op 3 = .ref q) (hcond : ii.cond = true) (hq : v q = 0 ∨ v q = 1)
    (hne : ii.op 1 ≠ ii.op 2) (hconsts : ¬∃ c d, ii.op 1 = .const c ∧ ii.op 2 = .const d) :
    eval env v b n (edgeCmov ii).2 = eval env v b n ii := by
  have hx3 : args env v ii 3 = v q := by rw [args, hthird, operandValue]
  have hform : edgeCmov ii =
      if ii.op 1 = .ref q then (true, withOps ii ii.index (.const 1) (ii.op 2))
      else if ii.op 2 = .ref q then (true, withOps ii ii.index (ii.op 1) (.const 0))
      else (false, ii) := by
    rw [edgeCmov, if_neg hne, hthird]
    dsimp only
    rw [if_pos hcond]
    split
    · next c d hc hd => exact absurd ⟨c, d, hc, hd⟩ hconsts
    · rfl
  rw [hform]
  split
  · next hleft =>
    have hx1 : args env v ii 1 = v q := by rw [args, hleft, operandValue]
    rw [eval_cmov_withOps hindex, eval_cmov hindex, hx1, hx3, operandValue.eq_1, low_one hW]
    exact (cond_cases (z := 0) hq).1
  · split
    · next hright =>
      have hx2 : args env v ii 2 = v q := by rw [args, hright, operandValue]
      rw [eval_cmov_withOps hindex, eval_cmov hindex, hx2, hx3, operandValue.eq_1 _ _ 0, low_zero]
      exact (cond_cases (y := 0) hq).2
    · rfl

theorem edgeCmov_iff (hW : 32 ≤ W) (hindex : ii.index = .cmov) (hformed : EdgeFormed ii)
    (hconds : ConditionsHold ii v) :
    eval env v b n (edgeCmov ii).2 = eval env v b n ii ↔ CmovExact ii (args env v ii) := by
  by_cases hsame : ii.op 1 = ii.op 2
  · refine iff_of_true ?_ fun h => absurd hsame h
    have hx : args env v ii 2 = args env v ii 1 := by rw [args, args, hsame]
    rw [edgeCmov, if_pos hsame, eval_moveCmov_zero, eval_cmov hindex, hx, ite_self]
    rfl
  · have hthird := hformed.third
    rw [if_pos hindex] at hthird
    rcases hthird with ⟨c, hc⟩ | ⟨q, hq⟩
    · -- a constant condition is tested with all its bits
      have hx : args env v ii 3 = low c := by rw [args, hc, operandValue]
      have hexact : CmovExact ii (args env v ii) ↔
          ((c = 0 ↔ low c = 0) ∨ args env v ii 1 = args env v ii 2) := by
        rw [CmovExact, hc]
        exact ⟨fun h => h hsame, fun h _ => h⟩
      have hval : eval env v b n (edgeCmov ii).2 =
          if c ≠ 0 then args env v ii 1 else args env v ii 2 := by
        rw [edgeCmov, if_neg hsame, hc]
        dsimp only
        split
        · rw [eval_moveCmov_zero]
          rfl
        · rw [eval_moveCmov_zero_left]
          rfl
      rw [hval, hexact, eval_cmov hindex, hx]
      by_cases hc0 : c = 0
      · have hlow : low c = 0 := by rw [hc0, low_zero]
        rw [if_neg (not_not.2 hc0), if_neg (not_not.2 hlow)]
        exact iff_of_true rfl (.inl (iff_of_true hc0 hlow))
      · rw [if_pos hc0]
        by_cases hlow : low c = 0
        · rw [if_neg (not_not.2 hlow)]
          exact ⟨.inr, fun h => h.resolve_left fun hiff => hc0 (hiff.2 hlow)⟩
        · rw [if_pos hlow]
          exact iff_of_true rfl (.inl (iff_of_false hc0 hlow))
    · have hexact : CmovExact ii (args env v ii) ↔ (ii.cond = true → ∀ c d,
          ii.op 1 = .const c → ii.op 2 = .const d → c ≠ 0 →
            if d = 0 then args env v ii 3 = 1 → args env v ii 1 = 1
            else (if args env v ii 3 ≠ 0 then args env v ii 1 else args env v ii 2) = 1) := by
        rw [CmovExact, hq]
        exact ⟨fun h => h hsame, fun h _ => h⟩
      have hv : v q = 0 ∨ v q = 1 := hconds 3 ⟨hindex, .inl rfl⟩ q hq
      rw [hexact]
      by_cases hcond : ii.cond = true
      · by_cases hconsts : ∃ c d, ii.op 1 = .const c ∧ ii.op 2 = .const d
        · obtain ⟨c, d, hc, hd⟩ := hconsts
          rw [edgeCmov_consts_iff hW hindex hq hcond hv hc hd hsame]
          constructor
          · intro h _ c' d' hc' hd'
            rw [hc] at hc'
            rw [hd] at hd'
            cases hc'
            cases hd'
            exact h
          · exact fun h => h hcond c d hc hd
        · exact iff_of_true (edgeCmov_refs hW hindex hq hcond hv hsame hconsts)
            fun _ c d hc hd => absurd ⟨c, d, hc, hd⟩ hconsts
      · refine iff_of_true ?_ fun h => absurd h hcond
        rw [edgeCmov, if_neg hsame, hq]
        dsimp only
        rw [if_neg hcond]

/-! ### Every instruction -/

/-- **The instruction that `apply_edge_condition` leaves has the value of the original in exactly
the cases of `EdgeExact`.** -/
theorem edge_exact_iff (hW : 32 ≤ W) {env : Env} {v : Ref → Word} {b n : ℕ} {ii : Insn W}
    (hformed : EdgeFormed ii) (hconds : ConditionsHold ii v) :
    eval env v b n (applyEdgeCondition ii).2 = eval env v b n ii ↔
      EdgeExact ii (args env v ii) := by
  rw [applyEdgeCondition, EdgeExact]
  cases hindex : ii.index with
  | and => exact iff_of_true (edgeAnd_exact hindex) trivial
  | or => exact edgeOr_iff hW hindex
  | sub => exact iff_of_true (edgeSub_exact hindex) trivial
  | mul => exact edgeMul_iff hW hindex
  | srl =>
    refine edgeShift_iff (fun x c => x >>> c) (by rw [eval, hindex]; rfl)
      (fun x => BitVec.ushiftRight_zero x) fun x c hc => ?_
    exact BitVec.ushiftRight_eq_zero hc
  | sll =>
    refine edgeShift_iff (fun x c => x <<< c) (by rw [eval, hindex]; rfl)
      (fun x => BitVec.shiftLeft_zero x) fun x c hc => ?_
    exact BitVec.shiftLeft_eq_zero hc
  | sra => exact edgeSra_iff hindex
  | sfeq | sfne => exact edgeEquality_iff hW (by rw [hindex]; rfl)
  | sfle => exact edgeSfle_iff hW hindex
  | sflt => exact edgeSflt_iff hW hindex
  | sfge => exact edgeSfge_iff hW hindex hformed
  | sfgt => exact edgeSfgt_iff hW hindex hformed
  | cmov => exact edgeCmov_iff hW hindex hformed hconds
  | _ => exact iff_of_true rfl trivial

/-- `x | 0`, where `x` is instruction 1 of block 0. -/
def orZero : Insn 64 :=
  { (nopInsn : Insn 64) with index := .or, op := ![.dest 3, .ref ⟨0, 1⟩, .const 0, .none, .none] }

/-- No input registers. -/
def emptyEnv : Env := ⟨fun _ => 0, fun _ _ _ _ => 0⟩

theorem orZero_formed : EdgeFormed orZero :=
  ⟨.inr ⟨⟨0, 1⟩, rfl⟩, .inl ⟨0, rfl⟩, rfl⟩

theorem orZero_conditions (v : Ref → Word) : ConditionsHold orZero v :=
  fun _ hk => absurd hk.1 (by decide)

/-- `x | 0` is left with the value of `x` when that is 0. -/
theorem edge_exact_iff_orZero :
    eval emptyEnv (fun _ => 0) 0 0 (applyEdgeCondition orZero).2 =
      eval emptyEnv (fun _ => 0) 0 0 orZero :=
  (edge_exact_iff (by decide) orZero_formed (orZero_conditions _)).2 fun _ => rfl

/-- `x | 0` is left with the value 0 when `x` is 1. -/
theorem edge_inexact :
    ¬∀ (ii : Insn 64) (v : Ref → Word), EdgeFormed ii → ConditionsHold ii v →
      eval emptyEnv v 0 0 (applyEdgeCondition ii).2 = eval emptyEnv v 0 0 ii := fun h =>
  absurd (h orZero (fun _ => 1) orZero_formed (orZero_conditions _)) (by decide)

end Cuc
end Or1ksim
