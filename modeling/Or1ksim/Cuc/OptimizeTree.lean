import Or1ksim.Cuc.Insn

/-!
# The dataflow optimiser

`optimize_tree` of `cuc/insn.c`: passes over all instructions until one of them changes nothing. At
each instruction it swaps operands, promotes operands through moves, tries `optimize_cmov_more` and
`apply_edge_condition`, and then folds, links or joins.

* `swap`, `promote`, `fold`, `link`, `join` — the rewrites of `optimize_tree` itself;
* `step` — one of them, at the place the loops have come to.

The two helpers are parameters: `cmov` rewrites the function and `edge` the instruction, and both
say whether they did.
-/

namespace Or1ksim
namespace Cuc

variable {W : ℕ}

/-! ### Operand swap and promotion -/

/-- The operand is an `OPT_CONST`. -/
def Operand.isConst : Operand W → Bool
  | .const _ => true
  | _ => false

/-- The index a comparison gets when its operands are swapped. -/
def swappedCompare : Index → Index
  | .sfeq => .sfne
  | .sfne => .sfeq
  | .sfle => .sfgt
  | .sflt => .sfge
  | .sfge => .sflt
  | .sfgt => .sfle
  | index => index

/-- The first operand is constant, the second is not, and the instruction may swap them. -/
def swaps (ii : Insn W) : Bool :=
  (ii.op 1).isConst && !(ii.op 2).isConst && (ii.index.comutative || ii.index.isCompare)

/-- Puts the constant in third place. -/
def swap (ii : Insn W) : Insn W :=
  { ii with
    op := Function.update (Function.update ii.op 1 (ii.op 2)) 2 (ii.op 1)
    index := swappedCompare ii.index }

/-- Operand `k` of the instruction, if the add of 0 it refers to may be bypassed. -/
def promotes (f : Func W) (ii : Insn W) (k : OperandNo) : Option (Operand W) :=
  match ii.op k with
  | .ref q =>
    let t := f.insn q
    if t.index = .add ∧ t.op 2 = .const 0 ∧ ¬(ii.memory ∧ t.memadd) then some (t.op 1)
    else Option.none
  | _ => Option.none

/-- Promotion of operand `k` of the instruction at `r`, and whether it was done. -/
def promote (f : Func W) (r : Ref) (k : OperandNo) : Func W × Bool :=
  match promotes f (f.insn r) k with
  | some o => (f.set r { f.insn r with op := Function.update (f.insn r).op k o }, true)
  | Option.none => (f, false)

/-! ### Constant folding -/

/-- The value of a constant expression, in `unsigned long` arithmetic. -/
def foldValue (index : Index) (a b : BitVec W) : Option (BitVec W) :=
  match index with
  | .add => some (a + b)
  | .sub => some (a - b)
  | .sll => some (a <<< b)
  | .srl => some (a >>> b)
  | .mul => some (a * b)
  | .or => some (a ||| b)
  | .xor => some (a ^^^ b)
  | .and => some (a &&& b)
  | _ => Option.none

/-- The move of a constant that a constant expression becomes. -/
def constInsn (ii : Insn W) (c : BitVec W) : Insn W :=
  { ii with
    index := .add
    op := Function.update (Function.update (Function.update ii.op 0 (.dest (-1))) 1 (.const c)) 2
      (.const 0) }

/-- The constant expression `a index b`, unless it is already one. -/
def fold (ii : Insn W) (a b : BitVec W) : Option (Insn W) :=
  if ii.index = .add ∧ b = 0 then Option.none else (foldValue ii.index a b).map (constInsn ii)

/-! ### Move linking -/

/-- References to `r` become references to `q`. -/
def Operand.redirect (r q : Ref) : Operand W → Operand W
  | .ref p => if p = r then .ref q else .ref p
  | o => o

/-- The instruction takes over the destination of the move `ii`. -/
def takeOver (prev ii : Insn W) : Insn W :=
  { prev with op := Function.update prev.op 0 (ii.op 0), output := prev.output || ii.output }

/-- Every live reference to `r` is redirected. -/
def redirectAll (f : Func W) (r q : Ref) : Func W :=
  { f with insn := fun p => if f.Live p then
      { f.insn p with op := fun k => ((f.insn p).op k).redirect r q } else f.insn p }

/-- The move at `r` of the instruction at `q` is linked away. -/
def link (f : Func W) (r q : Ref) : Func W :=
  (redirectAll (f.set q (takeOver (f.insn q) (f.insn r))) r q).set r nopInsn

/-! ### Joining -/

/-- The first operand is replaced by that of `prev`, the second by a constant. -/
def joinWith (ii prev : Insn W) (c : BitVec W) : Insn W :=
  { ii with op := Function.update (Function.update ii.op 1 (prev.op 1)) 2 (.const c) }

/-- The join of `ii`, with constant `c`, to the instruction it refers to, with constant `c1`. -/
def join (ii prev : Insn W) (c c1 : BitVec W) : Option (Insn W) :=
  if ii.index = .add ∧ prev.index = .add then some (joinWith ii prev (c + c1))
  -- the index that changes to `II_SUB` here is not that of `ii`
  else if ii.index = .add ∧ prev.index = .sub then some (joinWith ii prev (c + c1))
  else if ii.index = .sub ∧ prev.index = .add then some (joinWith ii prev (c + c1))
  else if prev.index = .add ∧ ii.index.isCompare then
    if c < 0x80000000#W then some (joinWith ii prev (c - c1)) else Option.none
  else if prev.index = .sub ∧ ii.index.isCompare then
    if c < 0x80000000#W then some (joinWith ii prev (c + c1)) else Option.none
  else Option.none

/-- "Is this just a move?" -/
def isMove (ii : Insn W) (c : BitVec W) : Prop :=
  ii.index = .add ∧ ii.memadd = false ∧ c = 0

instance (ii : Insn W) (c : BitVec W) : Decidable (isMove ii c) :=
  inferInstanceAs (Decidable (_ ∧ _ ∧ _))

/-- The last part of the body: an instruction with a constant second operand. -/
def arith (f : Func W) (r : Ref) : Func W × Bool :=
  let ii := f.insn r
  match ii.op 2, ii.op 1 with
  | .const c, .const a =>
    match fold ii a c with
    | some ii' => (f.set r ii', true)
    | Option.none => (f, false)
  | .const c, .ref q =>
    let prev := f.insn q
    if isMove ii c then
      -- linking does not count as a modification
      (if prev.output || prev.volatile then f else link f r q, false)
    else
      match prev.op 2 with
      | .const c1 =>
        match join ii prev c c1 with
        | some ii' => (f.set r ii', true)
        | Option.none => (f, false)
      | _ => (f, false)
  | _, _ => (f, false)

/-! ### The loops -/

/-- Where the loop body stands at an instruction. -/
inductive Stage where
  | swap
  | promote (j : ℕ)
  | cmov
  | edge
  | arith
deriving DecidableEq

/-- The state of a run of `optimize_tree`. -/
structure State (W : ℕ) where
  f : Func W
  b : ℕ
  i : ℕ
  stage : Stage
  modified : Bool
  gmodified : Bool

/-- The state `optimize_tree` starts in. -/
def start (f : Func W) : State W where
  f := f
  b := 0
  i := 0
  stage := .swap
  modified := false
  gmodified := false

namespace State

/-- The instruction the loops have come to. -/
def ref (s : State W) : Ref := ⟨s.b, s.i⟩

/-- The instruction the loops have come to. -/
def insn (s : State W) : Insn W := s.f.insn s.ref

/-- On to the next instruction. -/
def next (s : State W) : State W := { s with i := s.i + 1, stage := .swap }

end State

section Step

variable (edge : Insn W → Bool × Insn W) (cmov : Func W → Ref → Bool × Func W)

/-- The loop tests, and the operand swap. -/
def visit (s : State W) : Option (State W) :=
  if s.b < s.f.numBb then
    if s.f.dead s.b = false ∧ s.i < s.f.ninsn s.b then
      if swaps s.insn then
        some { s with f := s.f.set s.ref (swap s.insn), stage := .promote 0, modified := true }
      else some { s with stage := .promote 0 }
    else some { s with b := s.b + 1, i := 0 }
  else if s.modified then some { s with b := 0, i := 0, modified := false, gmodified := true }
  else Option.none

/-- One step of a run; none when it returns. -/
def step (s : State W) : Option (State W) :=
  match s.stage with
  | .swap => visit s
  | .promote j =>
    if h : j < 5 then
      let (f, done) := promote s.f s.ref ⟨j, h⟩
      some { s with f := f, modified := s.modified || done, stage := .promote (j + 1) }
    else some { s with stage := .cmov }
  | .cmov =>
    if s.insn.index = .cmov then
      let (done, f) := cmov s.f s.ref
      if done then some { s with f := f, modified := true }.next
      else some { s with f := f, stage := .edge }
    else some { s with stage := .edge }
  | .edge =>
    if s.insn.volatile then some s.next
    else
      let (done, ii) := edge s.insn
      let s' := { s with f := s.f.set s.ref ii }
      if done then some { s' with modified := true }.next else some { s' with stage := .arith }
  | .arith =>
    let (f, done) := arith s.f s.ref
    some { s with f := f, modified := s.modified || done }.next

end Step

end Cuc
end Or1ksim
