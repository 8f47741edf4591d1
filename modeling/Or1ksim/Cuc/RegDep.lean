import Or1ksim.Cuc.DetectBb
import Or1ksim.Lib.Dfs

/-!
# Register dependencies

`build_bb` and `reg_dep` of `cuc/bb.c`: the blocks of a function start with an `lrbb` and a `cmov`
for every register, and then every register operand becomes a reference to the instruction that
defined the register last.

* `buildBb` — the blocks with their instructions;
* `regDepRec`, `lastUsedReg` — the search through the blocks, and the last definitions in a block;
* `joinInsn`, `resolve` — what becomes of a `cmov`, and of a register operand;
* `regDep` — all of it.

A function is followed along a path through its blocks in two ways: before `reg_dep`, with the
registers as its instructions define them, and after it, with a wire for every instruction.

* `Path` — the paths from the first block, the latest block first;
* `sourceTrace` — the values the instructions of the function have computed along a path;
* `lastValue` — the value of the last definition of a register, or its input value;
* `slots` — the wires after a path, where `lrbb` says whether a block was entered from the first of
  its predecessors.
-/

namespace Or1ksim
namespace Cuc

variable {W : ℕ}

/-- `MAX_REGS`: 32 registers, `FLAG_REG` and `LRBB_REG`. -/
def maxRegs : ℕ := 34

/-- `LRBB_REG` -/
def lrbbReg : ℕ := maxRegs - 1

/-- The number of instructions that `build_bb` puts in front of every block. -/
def headInsns : ℕ := maxRegs - 1

/-- A function with its control-flow graph. -/
structure Cfg (W : ℕ) extends Func W where
  next : ℕ → Fin 2 → Link
  prev : ℕ → Fin 2 → Link

/-! ### `build_bb` -/

/-- The first instruction of every block. -/
def lrbbInsn : Insn W :=
  { (nopInsn : Insn W) with
    unused := true
    cond := true
    index := .lrbb
    op := ![.dest (BitVec.ofNat W lrbbReg), .lrbb, .none, .none, .none] }

/-- The conditional move in front of a block, for register `j`. -/
def cmovInsn (j : ℕ) : Insn W :=
  { (nopInsn : Insn W) with
    cond := j == 32 || j == lrbbReg
    index := .cmov
    op := ![.dest (BitVec.ofNat W j), .register (BitVec.ofNat W j), .register (BitVec.ofNat W j),
      .register (BitVec.ofNat W lrbbReg), .none] }

/-- A reference to instruction `q.i` of the function becomes one to its place in block `b1`, the
first before block `i` that holds it, or block `i`. -/
def relocRef (bbs : List Block) (i : ℕ) : Operand W → Operand W
  | .ref q =>
    let b1 := ((List.range i).find? fun b1 =>
      bbs[b1]?.any fun b => b.first ≤ q.i && b.last.any (q.i ≤ ·)).getD i
    .ref ⟨b1, q.i - (bbs[b1]?.elim 0 Block.first) + headInsns⟩
  | o => o

/-- The instructions of the blocks. -/
def builtInsn (g : Graph W) (r : Ref) : Insn W :=
  if r.i = 0 then lrbbInsn
  else if r.i < headInsns then cmovInsn r.i
  else
    let ii := g.insn ((g.blocks[r.bb]?.elim 0 Block.first) + (r.i - headInsns))
    { ii with op := fun k => relocRef g.blocks r.bb (ii.op k) }

/-- `build_bb` -/
def buildBb (g : Graph W) : Cfg W where
  numBb := g.numBb
  dead _ := false
  ninsn b := g.blocks[b]?.elim headInsns fun bb =>
    bb.last.elim headInsns fun last => last - bb.first + 1 + headInsns
  insn := builtInsn g
  next := g.next
  prev := g.prev

/-! ### The last definitions -/

/-- The register an operand defines, if it is a destination and not -1. -/
def destOf : Operand W → Option ℕ
  | .dest w => if 0 ≤ (w.setWidth 32).toInt then some w.toNat else none
  | _ => none

/-- The instruction has the register among its destinations. -/
def Insn.defines (ii : Insn W) (r : ℕ) : Bool :=
  (List.finRange 5).any fun k => destOf (ii.op k) == some r

/-- `last_used_reg` -/
abbrev LastUsed := ℕ → Option Ref

/-- The instruction at `q` is now the last to define its destinations. -/
def LastUsed.add (lur : LastUsed) (q : Ref) (ii : Insn W) : LastUsed :=
  fun r => if ii.defines r then some q else lur r

/-- The last definitions before instruction `i` of a block, from the given ones on. -/
def lastUsedFrom (f : Func W) (b : ℕ) (lur : LastUsed) : ℕ → LastUsed
  | 0 => lur
  | i + 1 => (lastUsedFrom f b lur i).add ⟨b, i⟩ (f.insn ⟨b, i⟩)

/-- The last definitions in a whole block. -/
def lastUsedReg (f : Func W) (b : ℕ) : LastUsed :=
  lastUsedFrom f b (fun _ => none) (f.ninsn b)

/-! ### The search through the blocks -/

/-- The blocks visited, and the last definitions in them. -/
structure Visited where
  tmp : ℕ → Bool
  lastUsed : ℕ → LastUsed

/-- The block a link leads to. -/
def Link.toBlock : Link → Option ℕ
  | .bb b => some b
  | _ => Option.none

/-- The blocks behind a block. -/
def Cfg.succs (f : Cfg W) (b : ℕ) : List ℕ := [f.next b 0, f.next b 1].filterMap Link.toBlock

/-- A block is visited. -/
def Visited.mark (f : Cfg W) (b : ℕ) (s : Visited) : Visited where
  tmp := Function.update s.tmp b true
  lastUsed := Function.update s.lastUsed b (lastUsedReg f.toFunc b)

/-- `reg_dep_rec`: at most `numBb` blocks are visited. -/
def regDepRec (f : Cfg W) (cur : ℕ) (s : Visited) : Visited :=
  Dfs.visit f.succs Visited.tmp (Visited.mark f) (f.numBb + 1) cur s

/-- The state after the search from the first block. -/
def visited (f : Cfg W) : Visited :=
  regDepRec f 0 { tmp := fun _ => false, lastUsed := fun _ _ => none }

/-! ### References -/

/-- The last definition of a register in the block a link leads to. -/
def predUse (lastUsed : ℕ → LastUsed) (p : Link) (r : ℕ) : Option Ref :=
  p.toBlock.bind fun b => lastUsed b r

/-- The `cmov` for register `i` at the head of block `b`, when the register was last defined at `pa`
and at `pb` in the blocks it is entered from. -/
def joinInsn (b : ℕ) (ii : Insn W) : (pa pb : Option Ref) → Insn W
  | none, none =>
    { ii with
      index := .add
      op := Function.update (Function.update ii.op 2 (.const 0)) 3 .none }
  | none, some pb =>
    { ii with
      index := .add
      op := Function.update (Function.update (Function.update ii.op 1 (.ref pb)) 2 (.const 0)) 3
        .none }
  | some pa, none =>
    { ii with
      index := .add
      op := Function.update (Function.update (Function.update ii.op 1 (.ref pa)) 2 (.const 0)) 3
        .none }
  | some pa, some pb =>
    { ii with
      op := Function.update (Function.update (Function.update ii.op 1 (.ref pa)) 2 (.ref pb)) 3
        (.ref ⟨b, 0⟩) }

/-- The instructions after the predecessors are set in the `cmov`s. -/
def setPreds (f : Cfg W) (lastUsed : ℕ → LastUsed) (q : Ref) : Insn W :=
  if q.bb < f.numBb ∧ 1 ≤ q.i ∧ q.i < headInsns then
    joinInsn q.bb (f.insn q) (predUse lastUsed (f.prev q.bb 0) q.i)
      (predUse lastUsed (f.prev q.bb 1) q.i)
  else f.insn q

/-- The function after the predecessors are set. -/
def withPreds (f : Cfg W) : Func W :=
  { f.toFunc with insn := setPreds f (visited f).lastUsed }

/-- The last definitions before the first instruction of a block: `LRBB_REG` gets 0, which is a
reference to the first instruction of all. -/
def initialUse (f : Func W) (b : ℕ) : LastUsed :=
  fun r => if r = lrbbReg ∧ (f.insn ⟨b, 0⟩).index = .lrbb then some ⟨0, 0⟩ else none

/-- A register operand, where the registers were last defined at `lur`. -/
def resolve (lur : LastUsed) : Operand W → Operand W
  | .register w =>
    if w = 0 then .const 0
    else match lur w.toNat with
      | some t => .ref t
      | none => .register w
  | o => o

/-- The instructions after the register references are assigned. -/
def assignRefs (f : Func W) (q : Ref) : Insn W :=
  if q.bb < f.numBb ∧ q.i < f.ninsn q.bb then
    { f.insn q with
      op := fun k => resolve (lastUsedFrom f q.bb (initialUse f q.bb) q.i) ((f.insn q).op k) }
  else f.insn q

/-- The instruction is referred to before the register references are assigned. -/
def isReferred (f : Func W) (q : Ref) : Bool :=
  (List.range f.numBb).any fun b => (List.range (f.ninsn b)).any fun i =>
    (List.finRange 5).any fun k => (f.insn ⟨b, i⟩).op k == .ref q

/-- An instruction that nothing refers to and that is marked so is removed. -/
def removeUnused (f : Func W) (q : Ref) (ii : Insn W) : Insn W :=
  if isReferred f q then { ii with unused := false }
  else if q.bb < f.numBb ∧ q.i < f.ninsn q.bb ∧ ii.unused then nopInsn
  else ii

/-- `caller_saved` -/
def callerSaved : List Bool :=
  [false, false, false, true, true, true, true, true,
    true, true, false, false, false, true, false, true,
    false, true, false, true, false, true, false, true,
    false, true, false, true, false, true, false, true,
    true, true]

/-- The instruction holds the final value of a register that the caller has not saved. -/
def isOutput (f : Func W) (q : Ref) : Bool :=
  let b := f.numBb - 1
  (List.range maxRegs).any fun r => callerSaved[r]? == some false &&
    lastUsedFrom f b (initialUse f b) (f.ninsn b) r == some q

/-- No destination is register 0 or beyond `MAX_REGS`; `reg_dep` asserts it. -/
def destsValid (f : Func W) : Bool :=
  (List.range f.numBb).all fun b => (List.range (f.ninsn b)).all fun i =>
    (List.finRange 5).all fun k =>
      (destOf ((f.insn ⟨b, i⟩).op k)).all fun r => 0 < r && r < maxRegs

/-- `reg_dep`; none where an assertion fails. -/
def regDep (f : Cfg W) : Option (Cfg W) :=
  if destsValid f.toFunc then
    let f₁ := withPreds f
    some { f with
      dead := fun b => !(visited f).tmp b
      insn := fun q =>
        let ii := removeUnused f₁ q (assignRefs f₁ q)
        { ii with output := ii.output || isOutput f₁ q } }
  else none

/-! ### Execution along a path -/

/-- The inputs of a run: the registers, the wires as they happen to be, and what the instruction at
a place returns that is no function of its operands, at the `t`-th block of a path. -/
structure PathEnv where
  reg : ℕ → Word
  init : Ref → Word
  unit : (t b i : ℕ) → Index → (OperandNo → Word) → Word

/-- What instructions compute in the `t`-th block of a path; `left` is what `lrbb` returns. -/
def PathEnv.block (env : PathEnv) (t : ℕ) (left : Bool) : Env where
  reg := env.reg
  unit b i index x := if index = .lrbb then flag left else env.unit t b i index x

/-- A path from the first block, the latest block first. -/
inductive Path (f : Cfg W) : List ℕ → Prop where
  | start : Path f [0]
  | step {b c : ℕ} {bs : List ℕ} {k : Fin 2} :
      Path f (b :: bs) → f.next b k = .bb c → Path f (c :: b :: bs)

/-- Where the block after a path is entered from. -/
def enteredFrom : List ℕ → Link
  | [] => .start
  | b :: _ => .bb b

/-- How the instructions of block `b` compute when it comes after the path `bs`. -/
def blockEnv (f : Cfg W) (env : PathEnv) (b : ℕ) (bs : List ℕ) : Env :=
  env.block bs.length (f.prev b 0 == enteredFrom bs)

/-! ### With registers -/

/-- The values computed along a path, the latest first. -/
abbrev Trace := List (Ref × Word)

/-- The value of the last definition of a register, or its input value when there is none. -/
def lastValue (f : Func W) (env : PathEnv) (tr : Trace) (r : ℕ) : Word :=
  ((tr.find? fun e => (f.insn e.1).defines r).map Prod.snd).getD (env.reg r)

/-- The last value an instruction has computed. -/
def lastOf (env : PathEnv) (tr : Trace) (q : Ref) : Word :=
  ((tr.find? fun e => e.1 == q).map Prod.snd).getD (env.init q)

/-- The value of an operand after the instructions in the trace. -/
def sourceOperand (f : Func W) (env : PathEnv) (tr : Trace) : Operand W → Word
  | .const c => low c
  | .register w => if w = 0 then 0 else lastValue f env tr w.toNat
  | .ref q => lastOf env tr q
  | _ => 0

/-- What the instruction at `q` computes. -/
def sourceValue (f : Func W) (env : PathEnv) (e : Env) (tr : Trace) (q : Ref) : Word :=
  compute e q.bb q.i (f.insn q).index fun k => sourceOperand f env tr ((f.insn q).op k)

/-- The trace after the instructions of block `b` before `i`; the head of the block is no part of
the function. -/
def sourceInsns (f : Func W) (env : PathEnv) (e : Env) (b : ℕ) : ℕ → Trace → Trace
  | 0, tr => tr
  | i + 1, tr =>
    let tr := sourceInsns f env e b i tr
    if headInsns ≤ i then (⟨b, i⟩, sourceValue f env e tr ⟨b, i⟩) :: tr else tr

/-- The trace after a path. -/
def sourceTrace (f : Cfg W) (env : PathEnv) : List ℕ → Trace
  | [] => []
  | b :: bs => sourceInsns f.toFunc env (blockEnv f env b bs) b (f.ninsn b) (sourceTrace f env bs)

/-- The trace before instruction `i` of block `b` after the path `bs`. -/
def sourceBefore (f : Cfg W) (env : PathEnv) (b : ℕ) (bs : List ℕ) (i : ℕ) : Trace :=
  sourceInsns f.toFunc env (blockEnv f env b bs) b i (sourceTrace f env bs)

/-! ### With wires -/

/-- What the instruction at `q` computes from the wires. -/
def slotValue (g : Func W) (e : Env) (v : Ref → Word) (q : Ref) : Word :=
  compute e q.bb q.i (g.insn q).index (args e v (g.insn q))

/-- The wires after the instructions of block `b` before `i`. -/
def slotInsns (g : Func W) (e : Env) (b : ℕ) : ℕ → (Ref → Word) → Ref → Word
  | 0, v => v
  | i + 1, v =>
    let v := slotInsns g e b i v
    Function.update v ⟨b, i⟩ (slotValue g e v ⟨b, i⟩)

/-- The wires after a path. -/
def slots (g : Cfg W) (env : PathEnv) : List ℕ → Ref → Word
  | [] => env.init
  | b :: bs => slotInsns g.toFunc (blockEnv g env b bs) b (g.ninsn b) (slots g env bs)

/-- The wires before instruction `i` of block `b` after the path `bs`. -/
def slotsBefore (g : Cfg W) (env : PathEnv) (b : ℕ) (bs : List ℕ) (i : ℕ) : Ref → Word :=
  slotInsns g.toFunc (blockEnv g env b bs) b i (slots g env bs)

section Wires

variable {g : Func W} {e : Env} {b n : ℕ} {v : Ref → Word} {q : Ref}

theorem slotInsns_of_not (h : q.bb ≠ b ∨ n ≤ q.i) : slotInsns g e b n v q = v q := by
  induction n with
  | zero => rfl
  | succ n ih =>
    have hne : q ≠ ⟨b, n⟩ := by
      rintro rfl
      rcases h with h | h
      · exact h rfl
      · exact absurd h (Nat.not_succ_le_self n)
    rw [slotInsns, Function.update_of_ne hne]
    exact ih (h.imp_right Nat.le_of_succ_le)

/-- A wire holds what its instruction computed in its turn. -/
theorem slotInsns_of_lt {i : ℕ} (hi : i < n) :
    slotInsns g e b n v ⟨b, i⟩ = slotValue g e (slotInsns g e b i v) ⟨b, i⟩ := by
  induction n with
  | zero => exact absurd hi (Nat.not_lt_zero i)
  | succ n ih =>
    rw [slotInsns]
    rcases Nat.lt_succ_iff_lt_or_eq.1 hi with hlt | rfl
    · have hne : (⟨b, i⟩ : Ref) ≠ ⟨b, n⟩ := by
        rintro h
        exact absurd (congrArg Ref.i h) (Nat.ne_of_lt hlt)
      rw [Function.update_of_ne hne]
      exact ih hlt
    · rw [Function.update_self]

end Wires

end Cuc
end Or1ksim
