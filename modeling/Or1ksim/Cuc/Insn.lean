import Mathlib.Algebra.GroupWithZero.Nat
import Or1ksim.Lib.Dataflow
import Mathlib.Data.List.Basic
import Mathlib.Data.Set.Basic
import Mathlib.Data.Fin.VecNotation

/-!
# Instructions of the custom unit compiler

The dataflow form of `cuc/cuc.h` and `cuc/insn.h`: basic blocks of instructions whose operands are
constants, input registers or references to other instructions.

* `Insn`, `Func` — the instructions and the functions; operand words are `unsigned long`, `W` bits;
* `compute`, `value` — what an instruction computes, on 32 bits, as the Verilog of `known` says;
* `Valuation` — every instruction holds what it computes;
* `observe` — the output registers, and the operands of the stores, branches and calls;
* `exists_valuation`, `SameMeaning.refl` — **an acyclic well-formed function has one meaning**.
-/

namespace Or1ksim
namespace Cuc

/-- Registers and wires of the generated hardware. -/
abbrev Word := BitVec 32

/-- `MAX_INSNS`, the instructions of a block. -/
def maxInsns : ℕ := 0x10000

/-- `REF (bb, i)`: instruction `i` of block `bb`. -/
structure Ref where
  bb : ℕ
  i : ℕ
deriving DecidableEq

/-- An operand: the `OPT_` type of it with the word that goes with it. -/
inductive Operand (W : ℕ) where
  | none
  | const (c : BitVec W)
  | register (r : BitVec W)
  /-- `OPT_REGISTER | OPT_DEST` -/
  | dest (r : BitVec W)
  | ref (q : Ref)
  | jump (t : BitVec W)
  | bb (b : BitVec W)
  | lrbb
deriving DecidableEq

/-- `MAX_OPERANDS` is 5. -/
abbrev OperandNo := Fin 5

-- The numbers of operands and of edges are written as literals.
scoped instance neZero_five : NeZero 5 := ⟨by decide⟩
scoped instance neZero_two : NeZero 2 := ⟨by decide⟩

/-- The `II_` instruction indices. -/
inductive Index where
  | add | sub | and | or | xor | mul
  | srl | sll | sra
  | lb | lh | lw | sb | sh | sw
  | sfeq | sfne | sfle | sflt | sfge | sfgt | bf
  | lrbb | cmov | reg
  | nop | call
deriving DecidableEq

namespace Index

/-- The `comutative` column of `known`. -/
def comutative : Index → Bool
  | .add | .and | .or | .xor | .mul | .sfeq | .sfne | .nop => true
  | _ => false

/-- The comparisons, `cond` in `optimize_tree`. -/
def isCompare : Index → Bool
  | .sfeq | .sfne | .sfle | .sflt | .sfge | .sfgt => true
  | _ => false

/-- Instructions whose value is not a function of their operands alone. -/
def isUnit : Index → Bool
  | .lb | .lh | .lw | .lrbb | .reg => true
  | _ => false

/-- Instructions that are seen outside of the dataflow: stores, branches and calls. -/
def isEffect : Index → Bool
  | .sb | .sh | .sw | .bf | .call => true
  | _ => false

/-- `II_IS_LOAD` -/
def isLoad : Index → Bool
  | .lb | .lh | .lw => true
  | _ => false

/-- `II_IS_STORE` -/
def isStore : Index → Bool
  | .sb | .sh | .sw => true
  | _ => false

/-- Instructions that others may refer to. -/
def isValue : Index → Bool
  | .sb | .sh | .sw | .bf | .call | .nop => false
  | _ => true

end Index

/-- `MO_NONE`, `MO_WEAK`, `MO_STRONG` and `MO_EXACT`. -/
inductive MemoryOrder where
  | none | weak | strong | exact
deriving DecidableEq

/-- `cuc_insn`, with the `IT_` flags that are read here. -/
structure Insn (W : ℕ) where
  /-- `IT_BRANCH` -/
  branch : Bool
  /-- `IT_UNUSED`: to be removed. -/
  unused : Bool
  /-- `IT_OUTPUT`: holds the final value of its register. -/
  output : Bool
  /-- `IT_VOLATILE` -/
  volatile : Bool
  /-- `IT_MEMORY` -/
  memory : Bool
  /-- `IT_MEMADD`: an add that must stay in front of a load. -/
  memadd : Bool
  /-- `IT_COND` -/
  cond : Bool
  index : Index
  op : OperandNo → Operand W

/-- `cuc_func`: its blocks, their number of instructions and the instructions. -/
structure Func (W : ℕ) where
  numBb : ℕ
  /-- `BB_DEAD` -/
  dead : ℕ → Bool
  ninsn : ℕ → ℕ
  insn : Ref → Insn W

variable {W : ℕ}

/-- `change_insn_type (ii, II_NOP)` clears the flags and the operand types. -/
def nopInsn : Insn W where
  branch := false
  unused := false
  output := false
  volatile := false
  memory := false
  memadd := false
  cond := false
  index := .nop
  op _ := .none

namespace Func

/-- The instructions the loops over a function visit. -/
def Live (f : Func W) (r : Ref) : Prop :=
  r.bb < f.numBb ∧ f.dead r.bb = false ∧ r.i < f.ninsn r.bb

instance (f : Func W) (r : Ref) : Decidable (f.Live r) :=
  inferInstanceAs (Decidable (_ ∧ _ ∧ _))

/-- Replaces one instruction. -/
def set (f : Func W) (r : Ref) (ii : Insn W) : Func W :=
  { f with insn := Function.update f.insn r ii }

/-- How many instructions of kind `isUnit` stand before `r` in its block. -/
def unitNo (f : Func W) (r : Ref) : ℕ :=
  ((List.range r.i).filter fun i => (f.insn ⟨r.bb, i⟩).index.isUnit).length

end Func

/-! ### Values -/

/-- The input registers, and what the loads, the `lrbb` and the `reg` of each block return. -/
structure Env where
  reg : ℕ → Word
  /-- The `n`-th such instruction of block `b`, from its operands. -/
  unit : (b n : ℕ) → Index → (OperandNo → Word) → Word

/-- A condition as a wire. -/
def flag (b : Bool) : Word := if b then 1 else 0

/-- A constant is put on 32 wires. -/
def low (c : BitVec W) : Word := c.setWidth 32

theorem low_zero : low (0 : BitVec W) = 0 := BitVec.setWidth_zero ..

/-- The value of an operand where the instructions hold `v`. -/
def operandValue (env : Env) (v : Ref → Word) : Operand W → Word
  | .const c => low c
  | .register r => env.reg r.toNat
  | .ref q => v q
  | _ => 0

/-- What instruction `n` of its kind in block `b` computes from its operands. -/
def compute (env : Env) (b n : ℕ) (index : Index) (x : OperandNo → Word) : Word :=
  match index with
  | .add => x 1 + x 2
  | .sub => x 1 - x 2
  | .and => x 1 &&& x 2
  | .or => x 1 ||| x 2
  | .xor => x 1 ^^^ x 2
  | .mul => x 1 * x 2
  | .srl => x 1 >>> x 2
  | .sll => x 1 <<< x 2
  | .sra => (if (x 1).msb then BitVec.allOnes 32 else 0) <<< (32#33 - (x 2).setWidth 33) |||
      x 1 >>> x 2
  | .sfeq => flag (x 1 = x 2)
  | .sfne => flag (x 1 ≠ x 2)
  | .sfle => flag (x 1 ≤ x 2)
  | .sflt => flag (x 1 < x 2)
  | .sfge => flag (x 2 ≤ x 1)
  | .sfgt => flag (x 2 < x 1)
  | .cmov => if x 3 ≠ 0 then x 1 else x 2
  | index => env.unit b n index x

/-- The values of the operands of an instruction. -/
def args (env : Env) (v : Ref → Word) (ii : Insn W) : OperandNo → Word :=
  fun k => operandValue env v (ii.op k)

/-- What the instruction at `r` computes where the others hold `v`. -/
def value (env : Env) (f : Func W) (v : Ref → Word) (r : Ref) : Word :=
  compute env r.bb (f.unitNo r) (f.insn r).index (args env v (f.insn r))

/-- A function as a dataflow graph. -/
def graph (env : Env) (f : Func W) : Dataflow Ref Word where
  node r := f.Live r ∧ (f.insn r).index.isValue
  uses r q := ∃ k, (f.insn r).op k = .ref q
  value := value env f
  value_congr := by
    intro v w r h
    have hargs : args env v (f.insn r) = args env w (f.insn r) := by
      funext k
      cases hk : (f.insn r).op k with
      | ref q => simp only [args, hk, operandValue, h q ⟨k, hk⟩]
      | _ => simp only [args, hk, operandValue]
    rw [value, value, hargs]

/-- Every instruction that has a value holds what it computes. -/
def Valuation (env : Env) (f : Func W) (v : Ref → Word) : Prop := (graph env f).Solves v

theorem Valuation.eq {env : Env} {f : Func W} {v : Ref → Word} (hv : Valuation env f v) {r : Ref}
    (hr : f.Live r) (hval : (f.insn r).index.isValue) : v r = value env f v r :=
  hv r ⟨hr, hval⟩

/-! ### Observations -/

/-- What is seen of a function from outside. -/
@[ext]
structure Observation (W : ℕ) where
  /-- The `IT_OUTPUT` registers and their values. -/
  outputs : Set (BitVec W × Word)
  /-- The stores, branches and calls of each block, in their order, with their operands. -/
  effects : ℕ → List (Index × (OperandNo → Word))

/-- The store, branch or call at a place, if there is one. -/
def effectAt (env : Env) (f : Func W) (v : Ref → Word) (r : Ref) :
    Option (Index × (OperandNo → Word)) :=
  if (f.insn r).index.isEffect then some ((f.insn r).index, args env v (f.insn r)) else Option.none

/-- What is seen of a function whose instructions hold `v`. -/
def observe (env : Env) (f : Func W) (v : Ref → Word) : Observation W where
  outputs := {o | ∃ r, f.Live r ∧ (f.insn r).index.isValue ∧ (f.insn r).output ∧
    (f.insn r).op 0 = .dest o.1 ∧ o.2 = v r}
  effects b :=
    if b < f.numBb ∧ f.dead b = false then
      (List.range (f.ninsn b)).filterMap fun i => effectAt env f v ⟨b, i⟩
    else []

/-- The stores, branches and calls seen are the same when each of them is. -/
theorem effects_eq {env : Env} {f g : Func W} {v w : Ref → Word} (hbb : g.numBb = f.numBb)
    (hdead : g.dead = f.dead) (hninsn : g.ninsn = f.ninsn)
    (h : ∀ r, f.Live r → effectAt env g w r = effectAt env f v r) :
    (observe env g w).effects = (observe env f v).effects := by
  funext b
  simp only [observe, hbb, hdead, hninsn]
  split
  case isTrue hb =>
    exact List.filterMap_congr fun i hi => h ⟨b, i⟩ ⟨hb.1, hb.2, List.mem_range.1 hi⟩
  case isFalse => rfl

/-! ### Well-formed functions -/

/-- References lead to live instructions that have a value, and these have a destination. -/
structure WellFormed (f : Func W) : Prop where
  refs : ∀ {r k q}, f.Live r → (f.insn r).op k = .ref q → f.Live q ∧ (f.insn q).index.isValue
  dests : ∀ {r}, f.Live r → (f.insn r).index.isValue → ∃ d, (f.insn r).op 0 = .dest d

/-- An instruction refers to instructions of a lower rank only. -/
def Ranked (rank : Ref → ℕ) (f : Func W) : Prop :=
  ∀ {r k q}, f.Live r → (f.insn r).op k = .ref q → rank q < rank r

/-- No chain of references leads back to its start. -/
def Acyclic (f : Func W) : Prop := ∃ rank, Ranked rank f

theorem Acyclic.graph_ranked {f : Func W} (hac : Acyclic f) (hf : WellFormed f) (env : Env) :
    ∃ rank, (graph env f).Ranked rank := by
  obtain ⟨rank, hrank⟩ := hac
  refine ⟨rank, fun r q hr hq => ?_⟩
  obtain ⟨k, hk⟩ := hq
  exact ⟨hf.refs hr.1 hk, hrank hr.1 hk⟩

/-- **An acyclic function has a valuation.** -/
theorem exists_valuation {f : Func W} (hf : WellFormed f) (hac : Acyclic f) (env : Env) :
    ∃ v, Valuation env f v := by
  obtain ⟨rank, hrank⟩ := hac.graph_ranked hf env
  exact hrank.exists_solves

/-- Two functions look the same from outside, whatever the inputs are. -/
def SameMeaning (f g : Func W) : Prop :=
  ∀ env v w, Valuation env f v → Valuation env g w → observe env g w = observe env f v

/-- **All valuations of an acyclic function look the same.** -/
theorem SameMeaning.refl {f : Func W} (hf : WellFormed f) (hac : Acyclic f) : SameMeaning f f := by
  intro env v w hv hw
  obtain ⟨rank, hrank⟩ := hac.graph_ranked hf env
  have heq : ∀ r, f.Live r → (f.insn r).index.isValue → w r = v r := fun r hr hval =>
    Dataflow.Solves.unique hrank hw hv ⟨hr, hval⟩
  have hargs : ∀ r, f.Live r → args env w (f.insn r) = args env v (f.insn r) := by
    intro r hr
    funext k
    cases hk : (f.insn r).op k with
    | ref q => simp only [args, hk, operandValue, heq q (hf.refs hr hk).1 (hf.refs hr hk).2]
    | _ => simp only [args, hk, operandValue]
  refine Observation.ext (Set.ext fun o => ?_) (effects_eq rfl rfl rfl fun r hr => ?_)
  · constructor
    · rintro ⟨r, hr, hval, hout, hd, hx⟩
      exact ⟨r, hr, hval, hout, hd, hx.trans (heq r hr hval)⟩
    · rintro ⟨r, hr, hval, hout, hd, hx⟩
      exact ⟨r, hr, hval, hout, hd, hx.trans (heq r hr hval).symm⟩
  · rw [effectAt, effectAt, hargs r hr]

theorem SameMeaning.trans {f g h : Func W} (hg : WellFormed g) (hac : Acyclic g)
    (hfg : SameMeaning f g) (hgh : SameMeaning g h) : SameMeaning f h := by
  intro env v w hv hw
  obtain ⟨u, hu⟩ := exists_valuation hg hac env
  exact (hgh env u w hu hw).trans (hfg env v u hv hu)

end Cuc
end Or1ksim
