import Or1ksim.Cuc.DetectBb
import Or1ksim.Insn.Width
import Or1ksim.Lib.Expand

/-!
# Loading a function

`cuc_load` of `cuc/load.c`: the words of a function are decoded and converted one by one, and four
passes make an array without delay slots of them, in which memory accesses and signed comparisons
take several instructions.

* `Item`, `Items` — `cuc_insn` with the flags that are read here, and the array `insn`;
* `hostRow`, `buildArgs`, `conv`, `convInsn` — a word becomes an instruction;
* `loadWord`, `loadWords` — the loop over the words, which refuses what it cannot convert;
* `expandBranch`, `removeDslots`, `expandMemory`, `expandSigned` — the passes; they are none where
  an assertion fails;
* `cucLoad` — all of it, without `config.cuc.calling_convention`.  Calls are refused, so that
  `expand_calls` has nothing left to do.
-/

namespace Or1ksim
namespace Cuc

open Decoder (Encoding insnExtract)
open Or1ksim.Insn (Opcode opcodes or32Extract extendImm)
open Expand (Growing grow)

variable {W : ℕ}

/-- `FLAG_REG` -/
def flagReg : BitVec W := 32

/-- `cuc_insn` with the flags that only `load.c` reads. -/
structure Item (W : ℕ) extends Insn W where
  /-- `IT_FLAG1`: a branch on a clear flag. -/
  flag1 : Bool
  /-- `IT_SIGNED` -/
  signed : Bool
  /-- `IT_INDELAY` -/
  indelay : Bool
  /-- `IT_BBSTART` -/
  bbstart : Bool

/-- An instruction without flags and operands. -/
def nopItem : Item W :=
  { (nopInsn : Insn W) with flag1 := false, signed := false, indelay := false, bbstart := false }

namespace Item

/-- `change_insn_type` -/
def changeType (x : Item W) (index : Index) : Item W :=
  if index = .nop then nopItem else { x with index := index }

/-- The operands are put in. -/
def setOp (x : Item W) (op : OperandNo → Operand W) : Item W := { x with op := op }

end Item

/-- `num_insn`, `insn` and `reloc`. -/
structure Items (W : ℕ) where
  num : ℕ
  insn : ℕ → Item W
  reloc : ℕ → ℕ

/-! ### One word -/

section Word

variable (W) (haveUnsignedXori : Bool)

/-- The row that `or1ksim_insn_decode` finds on a host where `unsigned long` has `W` bits. -/
def hostRow (data : BitVec 32) : Option Opcode :=
  (opcodes haveUnsignedXori).find? fun o =>
    (insnExtract W '1' o.enc ||| insnExtract W '0' o.enc) &&& data.setWidth W ==
      insnExtract W '1' o.enc

/-- The loop of `build_insn` over the operands text, behind `argc` operands. -/
def buildArgs (enc : Encoding) (data : BitVec 32) :
    List Char → ℕ → Option (List (Operand W))
  | [], _ => some []
  | ['r'], _ => none
  | 'r' :: l :: s, argc =>
    let r := or32Extract l enc (data.setWidth W)
    (buildArgs enc data s (argc + 1)).map ((if argc = 0 then .dest r else .register r) :: ·)
  | l :: s, argc =>
    if enc.contains l then
      let imm := or32Extract l enc (data.setWidth W)
      (extendImm W (opcodes haveUnsignedXori) imm l).bind fun imm =>
        (buildArgs enc data s (argc + 1)).map (.const imm :: ·)
    else buildArgs enc data s argc

end Word

/-- `cuc_conv`, with the flags of `to` apart from the index. -/
structure Conv where
  name : String
  index : Index
  /-- `II_MEM` -/
  mem : Bool := false
  /-- `II_SIGNED` -/
  signed : Bool := false

/-- `conv` -/
def conv : List Conv := [
  { name := "l.add", index := .add }, { name := "l.addi", index := .add },
  { name := "l.movhi", index := .or },
  { name := "l.sub", index := .sub }, { name := "l.subi", index := .sub },
  { name := "l.and", index := .and }, { name := "l.andi", index := .and },
  { name := "l.xor", index := .xor }, { name := "l.xori", index := .xor },
  { name := "l.or", index := .or }, { name := "l.ori", index := .or },
  { name := "l.mul", index := .mul }, { name := "l.muli", index := .mul },
  { name := "l.sra", index := .sra }, { name := "l.srai", index := .sra },
  { name := "l.srl", index := .srl }, { name := "l.srli", index := .srl },
  { name := "l.sll", index := .sll }, { name := "l.slli", index := .sll },
  { name := "l.lbz", index := .lb, mem := true },
  { name := "l.lbs", index := .lb, mem := true, signed := true },
  { name := "l.lhz", index := .lh, mem := true },
  { name := "l.lhs", index := .lh, mem := true, signed := true },
  { name := "l.lwz", index := .lw, mem := true },
  { name := "l.lws", index := .lw, mem := true, signed := true },
  { name := "l.sb", index := .sb, mem := true }, { name := "l.sh", index := .sh, mem := true },
  { name := "l.sw", index := .sw, mem := true },
  { name := "l.sfeq", index := .sfeq }, { name := "l.sfeqi", index := .sfeq },
  { name := "l.sfne", index := .sfne }, { name := "l.sfnei", index := .sfne },
  { name := "l.sflts", index := .sflt, signed := true },
  { name := "l.sfltis", index := .sflt, signed := true },
  { name := "l.sfltu", index := .sflt }, { name := "l.sfltiu", index := .sflt },
  { name := "l.sfgts", index := .sfgt, signed := true },
  { name := "l.sfgtis", index := .sfgt, signed := true },
  { name := "l.sfgtu", index := .sfgt }, { name := "l.sfgtiu", index := .sfgt },
  { name := "l.sfges", index := .sfge, signed := true },
  { name := "l.sfgeis", index := .sfge, signed := true },
  { name := "l.sfgeu", index := .sfge }, { name := "l.sfgeiu", index := .sfge },
  { name := "l.sfles", index := .sfle, signed := true },
  { name := "l.sfleis", index := .sfle, signed := true },
  { name := "l.sfleu", index := .sfle }, { name := "l.sfleiu", index := .sfle },
  { name := "l.j", index := .bf }, { name := "l.bf", index := .bf },
  { name := "l.jal", index := .call },
  { name := "l.nop", index := .nop }]

/-- The rows of the opcode table with `OR32_IF_DELAY`. -/
def hasDelay (o : Opcode) : Bool :=
  match o.function with
  | .lJ | .lJal | .lBnf | .lBf | .lJr | .lJalr => true
  | _ => false

/-- `opt & ~OPT_DEST` -/
def Operand.clearDest : Operand W → Operand W
  | .dest r => .register r
  | o => o

/-- The operands that `build_insn` has found; the others are `OPT_NONE`. -/
def argOps (args : List (Operand W)) : OperandNo → Operand W := fun k => args.getD k .none

/-- A branch at place `i`: `on` is its condition, and `f` tells that it is taken on a clear flag. -/
def branchItem (i : ℕ) (args : List (Operand W)) (on : Operand W) (f : Bool) : Item W :=
  { (nopItem : Item W) with
    index := .bf, branch := true, volatile := true, flag1 := f
    op := ![.jump (BitVec.ofNat W i + (argOps args 0).word), on, argOps args 2, argOps args 3,
      argOps args 4] }

/-- The repair of the operands of `l.movhi`. -/
def movhiArgs (args : OperandNo → Operand W) : OperandNo → Operand W :=
  ![args 0, .const ((args 1).word <<< 16), .const 0, args 3, args 4]

/-- The repair of the operands of a comparison. -/
def compareArgs (args : OperandNo → Operand W) : OperandNo → Operand W :=
  ![.dest flagReg, (args 0).clearDest, (args 1).clearDest, .none, args 4]

/-- An instruction without a delay slot; it is none where the name is not in `conv`, and for an
`l.nop` with a number. -/
def convInsn (o : Opcode) (args : List (Operand W)) : Option (Item W) :=
  (conv.find? fun c => c.name == o.name).bind fun c =>
    let x := { (nopItem : Item W) with
      signed := c.signed, memory := c.mem, volatile := c.mem, op := argOps args }.changeType c.index
    let x := if o.name = "l.movhi" then x.setOp (movhiArgs x.op) else x
    let x := if c.index.isCompare then { x.setOp (compareArgs x.op) with cond := true } else x
    if c.index = .nop ∧ (argOps args 0).word ≠ 0 then none else some x

/-- The instructions so far, and `func_return`. -/
structure Loading (W : ℕ) where
  insns : List (Item W)
  funcReturn : ℕ

/-- `if (func_return) func_return++` -/
def nextReturn (funcReturn : ℕ) : ℕ := if funcReturn = 0 then 0 else funcReturn + 1

/-- An instruction with a delay slot: the branches, and one `l.jr`. -/
def loadDelay (s : Loading W) (o : Opcode) (args : List (Operand W)) : Option (Loading W) :=
  let i := s.insns.length
  let funcReturn := nextReturn s.funcReturn
  if o.name = "l.bnf" then
    some ⟨s.insns ++ [branchItem i args (.register flagReg) true], funcReturn⟩
  else if o.name = "l.bf" then
    some ⟨s.insns ++ [branchItem i args (.register flagReg) false], funcReturn⟩
  else if o.name = "l.j" then
    some ⟨s.insns ++ [branchItem i args (.const 1) false], funcReturn⟩
  else if o.name = "l.jr" ∧ funcReturn = 0 then some ⟨s.insns ++ [nopItem], 1⟩
  else none

/-- An instruction with its operands. -/
def loadArgs (s : Loading W) (o : Opcode) (args : List (Operand W)) : Option (Loading W) :=
  if hasDelay o then loadDelay s o args
  else (convInsn o args).map fun x => ⟨s.insns ++ [x], nextReturn s.funcReturn⟩

/-- An instruction of row `o`. -/
def loadRow (haveUnsignedXori : Bool) (s : Loading W) (data : BitVec 32) (o : Opcode) :
    Option (Loading W) :=
  (buildArgs W haveUnsignedXori o.enc data o.args.toList 0).bind (loadArgs s o)

/-- The loop body of `cuc_load`; it is none where the function returns, or exits. -/
def loadWord (haveUnsignedXori : Bool) (s : Loading W) (data : BitVec 32) : Option (Loading W) :=
  (hostRow W haveUnsignedXori data).bind (loadRow haveUnsignedXori s data)

/-- The function as it is read; it ends with `l.jr` and its delay slot. -/
def loadWords (haveUnsignedXori : Bool) (reloc : ℕ → ℕ) (words : List (BitVec 32)) :
    Option (Items W) :=
  (words.foldlM (loadWord haveUnsignedXori) (⟨[], 0⟩ : Loading W)).bind fun s =>
    if s.funcReturn = 2 then
      some { num := s.insns.length, insn := fun k => s.insns.getD k nopItem, reloc := reloc }
    else none

/-! ### The passes -/

/-- References and jumps lead to the new places. -/
def Operand.renumber (reloc : ℕ → ℕ) : Operand W → Operand W
  | .ref q => .ref ⟨0, reloc q.i⟩
  | .jump t => .jump (BitVec.ofNat W (reloc t.toNat))
  | o => o

/-- The operands of an instruction lead to the new places. -/
def Item.renumber (reloc : ℕ → ℕ) (x : Item W) : Item W :=
  x.setOp fun k => (x.op k).renumber reloc

namespace Items

/-- The number of instructions of a kind. -/
def count (c : Items W) (p : Item W → Bool) : ℕ :=
  (List.range c.num).countP fun i => p (c.insn i)

/-- What the loops that write the blocks leave behind. -/
def expanded (c : Items W) (width : Item W → ℕ) (block : ℕ → ℕ → Item W → ℕ → Item W)
    (d : ℕ) : Items W :=
  let g := grow width block c.num ⟨c.insn, c.reloc, d⟩
  { num := d, insn := g.insn, reloc := g.reloc }

/-- The loops over all instructions that follow. -/
def mapInsn (c : Items W) (f : Item W → Item W) : Items W :=
  { c with insn := fun k => if k < c.num then f (c.insn k) else c.insn k }

end Items

/-- `assert (insn[d].op[1] == FLAG_REG)` -/
def flagOk (x : Item W) : Bool :=
  match x.op 1 with
  | .register r | .dest r => r == flagReg
  | _ => true

def branchWidth (x : Item W) : ℕ := if x.branch then 3 else 1

/-- The instruction that saves the flag for a branch, negated if required. -/
def saveFlag (x : Item W) : Item W :=
  { (nopItem : Item W) with
    index := .cmov, cond := true
    op := ![.dest (-1), .const (if x.flag1 then 0 else 1), .const (if x.flag1 then 1 else 0),
      .register flagReg, x.op 4] }

/-- A branch on what has been saved at place `i`. -/
def refBranch (i : ℕ) (x : Item W) : Item W :=
  match x.op 1 with
  | .register _ | .dest _ => x.setOp ![x.op 0, .ref ⟨0, i⟩, x.op 2, x.op 3, x.op 4]
  | _ => x

/-- What `expand_branch` makes of instruction `i`. -/
def branchBlock (i _d : ℕ) (x : Item W) (j : ℕ) : Item W :=
  if x.branch then
    match j with
    | 0 => saveFlag x
    | 1 => nopItem
    | _ => refBranch i x
  else x

/-- `expand_branch` -/
def expandBranch (c : Items W) : Option (Items W) :=
  let d := c.num + 2 * c.count fun x => x.branch
  if d < maxInsns ∧ ∀ i < c.num, (c.insn i).branch → flagOk (c.insn i) then
    let c := c.expanded branchWidth branchBlock d
    some (c.mapInsn (Item.renumber c.reloc))
  else none

/-- `insn` and `in_delay`. -/
structure Slots (W : ℕ) where
  insn : ℕ → Item W
  inDelay : Bool

/-- The addition that the `nop` in front of a branch becomes, if the branch depends on a
register. -/
def slotAdd (ii : Item W) (r : BitVec W) : Item W :=
  { (nopItem : Item W) with
    index := .add, cond := true
    op := ![.dest r, .register r, .const 0, .none, ii.op 4] }

/-- "Get the value we need before the actual jump": what becomes of the `nop` in front of a branch
and of the branch. -/
def jumpValue (i : ℕ) (ii bi : Item W) : Option (Item W × Item W) :=
  match bi.op 1 with
  | .register r | .dest r =>
    if ii.index = .nop then
      some (slotAdd ii r, bi.setOp ![bi.op 0, .ref ⟨0, i - 2⟩, bi.op 2, bi.op 3, bi.op 4])
    else none
  | _ => some (ii, bi)

/-- The loop body of `remove_dslots`. -/
def Slots.step (s : Slots W) (i : ℕ) : Option (Slots W) :=
  let x := if s.inDelay then { s.insn i with indelay := true } else s.insn i
  if x.indelay then
    if 2 ≤ i ∧ x.bbstart = false ∧ (s.insn (i - 1)).indelay = false then
      (jumpValue i (s.insn (i - 2)) (s.insn (i - 1))).map fun (ii, bi) =>
        { insn := Function.update (Function.update (Function.update s.insn (i - 2) ii) (i - 1)
            { x with indelay := false }) i bi
          inDelay := x.branch }
    else none
  else some ⟨Function.update s.insn i x, x.branch⟩

/-- `remove_dslots` -/
def removeDslots (c : Items W) : Option (Items W) :=
  ((List.range c.num).foldlM Slots.step ⟨c.insn, false⟩).bind fun s =>
    if s.inDelay then none else some { c with insn := s.insn }

def memoryWidth (x : Item W) : ℕ := if x.memory then 2 else 1

/-- The addition that computes an address; the instruction was a store or a load. -/
def addressItem (x : Item W) : Item W :=
  { (nopItem : Item W) with
    index := .add, memadd := true, indelay := x.indelay, bbstart := x.bbstart
    op := if x.index.isStore then ![.dest (-1), x.op 1, x.op 0, .none, x.op 4]
      else ![.dest (-1), x.op 1, x.op 2, x.op 3, x.op 4] }

/-- The access to the address that is computed at place `d`. -/
def accessItem (d : ℕ) (x : Item W) : Item W :=
  { x with
    bbstart := false
    op := if x.index.isStore then ![x.op 2, .ref ⟨0, d⟩, .none, x.op 3, x.op 4]
      else ![x.op 0, .ref ⟨0, d⟩, .none, .none, x.op 4] }

/-- What `expand_memory` makes of an instruction. -/
def memoryBlock (_i d : ℕ) (x : Item W) (j : ℕ) : Item W :=
  if x.memory then
    match j with
    | 0 => addressItem x
    | _ => accessItem d x
  else x

/-- `expand_memory` -/
def expandMemory (c : Items W) : Option (Items W) :=
  let d := c.num + c.count fun x => x.memory
  if d < maxInsns ∧ ∀ i < c.num, (c.insn i).memory →
      (c.insn i).index.isLoad ∨ (c.insn i).index.isStore then
    let c := c.expanded memoryWidth memoryBlock d
    some (c.mapInsn fun x => if x.memory then x else x.renumber c.reloc)
  else none

/-- A signed comparison; signed loads are expanded later. -/
def Item.isSigned (x : Item W) : Bool := x.signed && !x.memory

def signedWidth (x : Item W) : ℕ := if x.isSigned then 3 else 1

/-- The addition of the bias to an operand. -/
def biasItem (x : Item W) (o : Operand W) : Item W :=
  { (nopItem : Item W) with
    index := .add
    op := ![.dest (-1), o, .const 0x80000000, .none, x.op 4] }

/-- What `expand_signed` makes of an instruction. -/
def signedBlock (_i d : ℕ) (x : Item W) (j : ℕ) : Item W :=
  if x.isSigned then
    match j with
    | 0 => biasItem x (x.op 1)
    | 1 => biasItem x (x.op 2)
    | _ => x.setOp ![x.op 0, .ref ⟨0, d⟩, .ref ⟨0, d + 1⟩, x.op 3, x.op 4]
  else x

/-- `expand_signed` -/
def expandSigned (c : Items W) : Option (Items W) :=
  let d := c.num + 2 * c.count fun x => x.isSigned
  if d < maxInsns then
    let c := c.expanded signedWidth signedBlock d
    some (c.mapInsn fun x =>
      if x.isSigned then { x with signed := false } else x.renumber c.reloc)
  else none

/-- `cuc_load` -/
def cucLoad (W : ℕ) (haveUnsignedXori : Bool) (reloc : ℕ → ℕ) (words : List (BitVec 32)) :
    Option (Items W) := do
  let c ← loadWords haveUnsignedXori reloc words
  let c ← expandBranch c
  let c ← removeDslots c
  let c ← expandMemory c
  expandSigned c

end Cuc
end Or1ksim
