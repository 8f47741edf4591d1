import Or1ksim.Cuc.Load
import Or1ksim.Insn.Rows
import Or1ksim.Memory.BigEndian

/-!
# What the code does before and after it is loaded

* `Machine.step` — the instructions of a loaded function, one after the other;
* `operation` — what an instruction word does, as `cpu/or32/insnset.c` has it, with the operands
  that the executor reads;
* `Or1k.step` — the words of a function, with a delay slot behind every branch.

A run ends where it leaves the function.  A shift by more than 31 is undefined in
`cpu/or32/insnset.c`: what a shift yields is a parameter, and the same for both.
-/

namespace Or1ksim
namespace Cuc

open Or1ksim.Insn (Opcode ExecFn decodeInsn parseParams execOperands readArgs Arg.letters)

variable {W : ℕ}

/-- What the shifts yield. -/
structure Shifts where
  srl : Word → Word → Word
  sll : Word → Word → Word
  sra : Word → Word → Word

/-- The width of a memory access. -/
def Index.width : Index → Width
  | .lb | .sb => .w1
  | .lh | .sh => .w2
  | _ => .w4

/-- A value of less than 32 bits in a register. -/
def extended (signed : Bool) (v : Word) : Width → Word
  | .w1 => if signed then (v.setWidth 8).signExtend 32 else v
  | .w2 => if signed then (v.setWidth 16).signExtend 32 else v
  | .w4 => v

/-! ### One after the other -/

/-- What an instruction computes from its operands. -/
def Shifts.result (sh : Shifts) (index : Index) (x : OperandNo → Word) : Word :=
  match index with
  | .srl => sh.srl (x 1) (x 2)
  | .sll => sh.sll (x 1) (x 2)
  | .sra => sh.sra (x 1) (x 2)
  | index => compute ⟨fun _ => 0, fun _ _ _ _ => 0⟩ 0 0 index x

/-- The state of a run through a loaded function. -/
structure Machine where
  /-- The registers, the flag among them. -/
  regs : ℕ → Word
  /-- What each instruction has computed last. -/
  vals : ℕ → Word
  mem : Bytes
  pc : ℕ
  /-- Whether the branches were taken, in the order of the run. -/
  outcomes : List Bool

namespace Machine

/-- The value of an operand. -/
def value (t : Machine) : Operand W → Word
  | .const c => low c
  | .register r => t.regs r.toNat
  | .ref q => t.vals q.i
  | _ => 0

/-- An instruction with destination `o` has computed `v`; register `-1` is none. -/
def write (t : Machine) (o : Operand W) (v : Word) : Machine :=
  { t with
    regs := match o with
      | .dest r => if r = -1 then t.regs else Function.update t.regs r.toNat v
      | _ => t.regs
    vals := Function.update t.vals t.pc v
    pc := t.pc + 1 }

/-- One instruction. -/
def exec (sh : Shifts) (x : Item W) (t : Machine) : Machine :=
  match x.index with
  | .nop => { t with pc := t.pc + 1 }
  | .bf =>
    let taken := decide (t.value (x.op 1) ≠ 0)
    { t with
      pc := if taken then (x.op 0).word.toNat else t.pc + 1
      outcomes := t.outcomes ++ [taken] }
  | .sb | .sh | .sw =>
    { t with
      mem := BigEndian.write t.mem (t.value (x.op 1)) (t.value (x.op 0)) x.index.width
      pc := t.pc + 1 }
  | .lb | .lh | .lw =>
    t.write (x.op 0)
      (extended x.signed (BigEndian.read t.mem (t.value (x.op 1)) x.index.width) x.index.width)
  | index => t.write (x.op 0) (sh.result index fun k => t.value (x.op k))

/-- The run goes on as long as it stays in the function. -/
def step (sh : Shifts) (c : Items W) (t : Machine) : Option Machine :=
  if t.pc < c.num then some (t.exec sh (c.insn t.pc)) else none

end Machine

/-! ### With delay slots -/

/-- An operand of an instruction word. -/
inductive Source where
  | reg (n : ℕ)
  | imm (v : Word)
deriving DecidableEq

def Source.value (r : ℕ → Word) : Source → Word
  | .reg n => r n
  | .imm v => v

/-- The operands of a word, as the executor reads them. -/
def sources (o : Opcode) (insn : BitVec 32) : List Source :=
  (parseParams 32 o).elim [] fun opds =>
    List.zipWith (fun x v => if x.1 then .reg (v.getD 0).toNat else .imm (v.getD 0))
      ((readArgs o.args.toList.length o.args.toList).flatMap Arg.letters) (execOperands insn opds)

/-- The instructions of `cpu/or32/insnset.c` that `cuc_load` converts, by what they do. -/
inductive Kind where
  | arith (f : Word → Word → Word)
  | movhi
  | load (w : Width) (signed : Bool)
  | store (w : Width)
  | compare (f : Word → Word → Bool)
  | nop
  /-- A branch on the flag, or always. -/
  | branch (cond : Option Bool)
  | ret
  | other

/-- `cpu/or32/insnset.c` -/
def kind (sh : Shifts) : ExecFn → Kind
  | .lAdd => .arith (· + ·)
  | .lSub => .arith (· - ·)
  | .lAnd => .arith (· &&& ·)
  | .lOr => .arith (· ||| ·)
  | .lXor => .arith (· ^^^ ·)
  | .lMul => .arith (· * ·)
  | .lSrl => .arith sh.srl
  | .lSll => .arith sh.sll
  | .lSra => .arith sh.sra
  | .lMovhi => .movhi
  | .lLbz => .load .w1 false
  | .lLbs => .load .w1 true
  | .lLhz => .load .w2 false
  | .lLhs => .load .w2 true
  | .lLwz => .load .w4 false
  | .lLws => .load .w4 true
  | .lSb => .store .w1
  | .lSh => .store .w2
  | .lSw => .store .w4
  | .lSfeq => .compare (· == ·)
  | .lSfne => .compare (· != ·)
  | .lSflts => .compare BitVec.slt
  | .lSfltu => .compare BitVec.ult
  | .lSfgts => .compare fun x y => y.slt x
  | .lSfgtu => .compare fun x y => y.ult x
  | .lSfges => .compare fun x y => y.sle x
  | .lSfgeu => .compare fun x y => y.ule x
  | .lSfles => .compare BitVec.sle
  | .lSfleu => .compare BitVec.ule
  | .lNop => .nop
  | .lJ => .branch none
  | .lBf => .branch (some true)
  | .lBnf => .branch (some false)
  | .lJr => .ret
  | _ => .other

/-- What an instruction word does. -/
inductive Operation where
  /-- Computes a value for register `d` from the registers. -/
  | compute (d : ℕ) (v : (ℕ → Word) → Word)
  | load (w : Width) (signed : Bool) (d : ℕ) (addr : (ℕ → Word) → Word)
  | store (w : Width) (addr v : (ℕ → Word) → Word)
  | compare (f : (ℕ → Word) → Bool)
  | nop
  | branch (cond : Option Bool) (n : Word)
  | ret

/-- What an instruction of a kind does with its operands. -/
def Kind.operation : Kind → List Source → Option Operation
  | .arith f, [.reg d, a, b] => some (.compute d fun r => f (a.value r) (b.value r))
  | .movhi, [.reg d, k] => some (.compute d fun r => k.value r <<< 16)
  | .load w signed, [.reg d, i, a] => some (.load w signed d fun r => i.value r + a.value r)
  | .store w, [i, a, b] => some (.store w (fun r => i.value r + a.value r) fun r => b.value r)
  | .compare f, [a, b] => some (.compare fun r => f (a.value r) (b.value r))
  | .nop, [.imm k] => if k = 0 then some .nop else none
  | .branch cond, [.imm n] => some (.branch cond n)
  | .ret, [.reg _] => some .ret
  | _, _ => none

/-- What an instruction word does, if `cuc_load` is made for it. -/
def operation (sh : Shifts) (haveUnsignedXori : Bool) (insn : BitVec 32) : Option Operation :=
  (decodeInsn haveUnsignedXori insn).bind fun o =>
    (kind sh o.function).operation (sources o insn)

/-- The state of a run through a function.  Instructions are numbered from the first one on; `npc`
is the one behind `pc`. -/
structure Or1k where
  regs : ℕ → Word
  flag : Bool
  mem : Bytes
  pc : ℕ
  npc : ℕ
  outcomes : List Bool

namespace Or1k

/-- The instruction behind the current one is next. -/
def next (s : Or1k) : Or1k := { s with pc := s.npc, npc := s.npc + 1 }

/-- Where a branch at place `p` leads. -/
def target (p : ℕ) (n : Word) : ℤ := p + n.toInt

/-- Whether a branch is taken. -/
def taken (cond : Option Bool) (flag : Bool) : Bool := cond.elim true (· == flag)

/-- One instruction of a function of `num` instructions; `l.jr` leads out of it. -/
def exec (num : ℕ) (s : Or1k) : Operation → Or1k
  | .compute d v => { s.next with regs := Function.update s.regs d (v s.regs) }
  | .load w signed d addr =>
    { s.next with
      regs := Function.update s.regs d (extended signed (BigEndian.read s.mem (addr s.regs) w) w) }
  | .store w addr v => { s.next with mem := BigEndian.write s.mem (addr s.regs) (v s.regs) w }
  | .compare f => { s.next with flag := f s.regs }
  | .nop => s.next
  | .branch cond n =>
    { s.next with
      npc := if taken cond s.flag then (target s.pc n).toNat else s.npc + 1
      outcomes := s.outcomes ++ [taken cond s.flag] }
  | .ret => { s.next with npc := num }

/-- What the instruction at a place does. -/
def opAt (sh : Shifts) (haveUnsignedXori : Bool) (words : List (BitVec 32)) (p : ℕ) :
    Option Operation :=
  (words[p]?).bind (operation sh haveUnsignedXori)

/-- The run goes on as long as it stays in the function. -/
def step (sh : Shifts) (haveUnsignedXori : Bool) (words : List (BitVec 32)) (s : Or1k) :
    Option Or1k :=
  (opAt sh haveUnsignedXori words s.pc).map (s.exec words.length)

end Or1k

end Cuc
end Or1ksim
