import Or1ksim.Insn.Opcodes

/-!
# Operands of an instruction word

Two readings of an encoding string, both from `cpu/or32/or32.c`:

* `or32Extract`, `extendImm`, `disassembleOperands` — the disassembler collects the bits of an
  operand letter by letter from the string;
* `parseParams`, `evalOperandVal`, `execOperands` — the executor runs an operand program that
  `parse_params` compiled from the string when the automaton was built.

`W` is the width of `unsigned long`.
-/

namespace Or1ksim
namespace Insn

open Decoder (Encoding insnExtract)
open Scan

/-! ### The disassembler -/

/-- `or32_letters`: the operand letters and whether they are signed. -/
def or32Letters : List (Char × Bool) :=
  [('A', false), ('B', false), ('D', false), ('I', true), ('K', false), ('L', false),
    ('N', true), ('0', false)]

/-- `letter_signed`; an unknown letter is reported and taken as unsigned. -/
def letterSigned (l : Char) : Bool :=
  match or32Letters.find? fun p => p.1 = l with
  | some p => p.2
  | none => false

/-- The counting loop of `letter_range`, with `skip` characters of a hexadecimal digit left. -/
def letterCount (l : Char) : Encoding → ℕ → ℕ → ℕ
  | [], _, range => range
  | _ :: cs, skip + 1, range => letterCount l cs skip range
  | c :: cs, 0, range =>
    if c = '0' ∧ cs.head? = some 'x' then letterCount l cs 2 range
    else if c = l then letterCount l cs 0 (range + 1)
    else letterCount l cs 0 range

/-- `letter_range`: the number of letters in the first encoding that has `l`; without one the
simulator exits. -/
def letterRange (ops : List Opcode) (l : Char) : Option ℕ :=
  (ops.find? fun o => o.enc.contains l).map fun o => letterCount l o.enc 0 0

/-- `or1ksim_extend_imm`. -/
def extendImm (W : ℕ) (ops : List Opcode) (imm : BitVec W) (l : Char) : Option (BitVec W) :=
  (letterRange ops l).map fun letterBits =>
    let mask : BitVec W := ((1#32 <<< letterBits) - 1).signExtend W
    let imm := imm &&& mask
    if letterSigned l ∧ imm >>> (letterBits - 1) ≠ 0 then imm ||| ~~~mask else imm

/-- The first loop of `or1ksim_or32_extract`: the number of `paramCh` in the encoding, without
those right after a `0x`.  The two characters before the current one are passed along. -/
def paramCount (paramCh : Char) : Encoding → Option Char → Option Char → ℕ → ℕ
  | [], _, _, n => n
  | c :: cs, p₂, p₁, n =>
    let n := if c = paramCh ∧ ¬(p₂ = some '0' ∧ p₁ = some 'x') then n + 1 else n
    paramCount paramCh cs p₁ (some c) n

/-- `islower`, in the C locale. -/
def isLower (c : Char) : Bool := 'a' ≤ c && c ≤ 'z'

/-- The second loop of `or1ksim_or32_extract`. -/
def or32ExtractFrom {W : ℕ} (paramCh : Char) (insn : BitVec W) :
    Encoding → ℕ → ℕ → ℕ → BitVec W → BitVec W
  | [], _, _, _, ret => ret
  | _ :: cs, skip + 1, opcPos, paramPos, ret =>
    or32ExtractFrom paramCh insn cs skip opcPos paramPos ret
  | c :: cs, 0, opcPos, paramPos, ret =>
    if c = '0' ∧ cs.head? = some 'x' then
      let opcPos := opcPos - 4
      let tmp := strtol16 W (c :: cs)
      let ret :=
        if paramCh = '0' then ret ||| ((15 - tmp) <<< opcPos)
        else if paramCh = '1' then ret ||| (tmp <<< opcPos)
        else ret
      or32ExtractFrom paramCh insn cs 2 opcPos paramPos ret
    else if c = '0' ∨ c = '1' then
      let opcPos := opcPos - 1
      let ret := if paramCh = c then ret ||| ((1#32 <<< opcPos).signExtend W) else ret
      or32ExtractFrom paramCh insn cs 0 opcPos paramPos ret
    else if c = paramCh then
      let opcPos := opcPos - 1
      let paramPos := paramPos - 1
      let bit := ((insn >>> opcPos) &&& 1) <<< paramPos
      or32ExtractFrom paramCh insn cs 0 opcPos paramPos
        (if isLower paramCh then ret - bit else ret + bit)
    else if isAlpha c ∨ c = '-' then or32ExtractFrom paramCh insn cs 0 (opcPos - 1) paramPos ret
    else or32ExtractFrom paramCh insn cs 0 opcPos paramPos ret

/-- `or1ksim_or32_extract`. -/
def or32Extract {W : ℕ} (paramCh : Char) (enc : Encoding) (insn : BitVec W) : BitVec W :=
  or32ExtractFrom paramCh insn enc 0 32 (paramCount paramCh enc none none 0) 0

/-- `regnum` in `or32_print_register`. -/
def registerNumber (W : ℕ) (l : Char) (enc : Encoding) (insn : BitVec 32) : BitVec 32 :=
  (or32Extract l enc (insn.setWidth W)).setWidth 32

/-- `imm` in `or32_print_immediate`; the extracted value passes through an `int`. -/
def immediateValue (W : ℕ) (ops : List Opcode) (l : Char) (enc : Encoding) (insn : BitVec 32) :
    Option (BitVec 32) :=
  let imm : BitVec 32 := (or32Extract l enc (insn.setWidth W)).setWidth 32
  (extendImm W ops (imm.signExtend W) l).map (·.setWidth 32)

/-- The operand values `or1ksim_disassemble_index` prints for an operands text.  After an `r` the
next character is a register letter; a text that ends in `r` would be read past its end. -/
def disassembleArgs (W : ℕ) (ops : List Opcode) (enc : Encoding) (insn : BitVec 32) :
    List Char → List (Option (BitVec 32))
  | [] => []
  | ['r'] => [none]
  | 'r' :: l :: s => some (registerNumber W l enc insn) :: disassembleArgs W ops enc insn s
  | l :: s =>
    if enc.contains l then
      immediateValue W ops l enc insn :: disassembleArgs W ops enc insn s
    else disassembleArgs W ops enc insn s

/-- The operand values the disassembler prints for a word that matches `o`. -/
def disassembleOperands (W : ℕ) (ops : List Opcode) (o : Opcode) (insn : BitVec 32) :
    List (Option (BitVec 32)) :=
  disassembleArgs W ops o.enc insn o.args.toList

/-! ### The operand program -/

/-- The `type` word of `struct insn_op_struct`, flag by flag. -/
structure OpType where
  /-- `OPTYPE_LAST`: the last operand of the instruction. -/
  last : Bool := false
  /-- `OPTYPE_OP`: the last piece of an operand. -/
  op : Bool := false
  /-- `OPTYPE_REG`: a register index. -/
  reg : Bool := false
  /-- `OPTYPE_SIG`: to be sign extended. -/
  sig : Bool := false
  /-- `OPTYPE_DIS`: a displacement. -/
  dis : Bool := false
  /-- `OPTYPE_DST`: a destination. -/
  dst : Bool := false
  /-- `OPTYPE_SBIT`: the sign bit of the operand. -/
  sbit : BitVec 5 := 0#5
  /-- `OPTYPE_SHR`: how far the instruction word is shifted. -/
  shr : BitVec 5 := 0#5
deriving DecidableEq, Repr

/-- The `|` of two type words. -/
def OpType.or (s t : OpType) : OpType where
  last := s.last || t.last
  op := s.op || t.op
  reg := s.reg || t.reg
  sig := s.sig || t.sig
  dis := s.dis || t.dis
  dst := s.dst || t.dst
  sbit := s.sbit ||| t.sbit
  shr := s.shr ||| t.shr

instance : OrOp OpType := ⟨OpType.or⟩

/-- `struct insn_op_struct`: one piece of an operand. -/
structure InsnOp where
  /-- What the piece is. -/
  type : OpType
  /-- `data`: its number of bits. -/
  data : ℕ
deriving DecidableEq, Repr

/-- `cur->type |= t`. -/
def InsnOp.orType (t : OpType) (o : InsnOp) : InsnOp := { o with type := t ||| o.type }

section Parse

variable {W : ℕ}

/-- The loop of `num_ones`. -/
def numOnesFrom : ℕ → BitVec W → ℕ → ℕ
  | 0, _, c => c
  | k + 1, value, c =>
    if value = 0 then c
    else numOnesFrom k (value >>> 1) (if value &&& 1 ≠ 0 then c + 1 else c)

/-- `num_ones`: the number of nonzero bits. -/
def numOnes (value : BitVec W) : ℕ := numOnesFrom W value 0

/-- The loop that steps `shr` over the zeros of `arg`. -/
def skipZeros (arg : BitVec W) : ℕ → ℕ → ℕ
  | 0, shr => shr
  | k + 1, shr => if (arg >>> shr) &&& 1 = 0 then skipZeros arg k (shr + 1) else shr

/-- The loop that counts the ones of `arg` from bit `shr` on. -/
def countOnes (arg : BitVec W) (shr : ℕ) : ℕ → ℕ → ℕ
  | 0, mask => mask
  | k + 1, mask =>
    if (arg >>> (shr + mask)) &&& 1 = 0 then mask else countOnes arg shr k (mask + 1)

/-- "Split argument to sequences of consecutive ones", lowest first.  Every round clears a bit,
so that `W` rounds are enough. -/
def splitArg (type : OpType) : ℕ → BitVec W → List InsnOp
  | 0, _ => []
  | k + 1, arg =>
    if arg = 0 then []
    else
      let shr := skipZeros arg W 0
      let mask := countOnes arg shr W 0
      ⟨type ||| { shr := BitVec.ofNat 5 shr }, mask⟩ ::
        splitArg type k (arg &&& ~~~((((1#32 <<< mask) - 1) <<< shr).signExtend W))

/-- `type` after an operand letter: a signed letter brings its sign bit. -/
def letterType (type : OpType) (l : Char) (arg : BitVec W) : OpType :=
  if letterSigned l then
    type ||| { sig := true } ||| { sbit := BitVec.ofNat 5 (numOnes arg - 1) }
  else type

/-- Change the piece written last; there must be one, or the write hits another instruction. -/
def modifyLast (t : OpType) : List InsnOp → Option (List InsnOp)
  | [] => none
  | o :: cur => some (o.orType t :: cur)

variable (W)

/-- The loop of `parse_params` over the operands text.  `cur` has the pieces written so far, the
last one first; `none` is the "parse error in args" exit. -/
def parseArgs (enc : Encoding) :
    List Char → OpType → ℕ → List InsnOp → Option (List InsnOp)
  | [], type, _, cur => modifyLast (type ||| { op := true } ||| { last := true }) cur
  | c :: args, type, numCurOp, cur =>
    if c = 'r' then
      let type := type ||| { reg := true }
      let type := if args.head? = some 'D' then type ||| { dst := true } else type
      parseArgs enc args type numCurOp cur
    else if isAlpha c then
      let arg := insnExtract W c enc
      let type := letterType type c arg
      let pieces := splitArg type W arg
      parseArgs enc args type pieces.length (pieces.reverse ++ cur)
    else if c = '(' then
      let dis := (cur.take numCurOp).map (InsnOp.orType (type ||| { dis := true }))
      (modifyLast { op := true } (dis ++ cur.drop numCurOp)).bind fun cur =>
        parseArgs enc args {} 0 cur
    else if c = ',' then
      (modifyLast (type ||| { op := true }) cur).bind fun cur =>
        parseArgs enc args {} numCurOp cur
    else if c = '0' then parseArgs enc args {} numCurOp (⟨type, 0⟩ :: cur)
    else if c = ')' then parseArgs enc args type numCurOp cur
    else none

/-- `parse_params`: the operand program of an instruction.  "In case we don't have any
parameters, we add dummy read from r0." -/
def parseParams (o : Opcode) : Option (List InsnOp) :=
  if o.args.toList = [] then some [⟨{ reg := true, op := true, last := true }, 0⟩]
  else (parseArgs W o.enc o.args.toList {} 0 []).map List.reverse

end Parse

/-! ### The executor -/

/-- The loop of `eval_operand_val`; `none` when it runs off the operand program. -/
def evalOperandFrom (insn : BitVec 32) :
    List InsnOp → BitVec 32 → ℕ → Option (BitVec 32)
  | [], _, _ => none
  | opd :: opds, operand, nbits =>
    let operand :=
      operand ||| (((insn >>> opd.type.shr.toNat) &&& ((1#32 <<< opd.data) - 1)) <<< nbits)
    if opd.type.op then
      if opd.type.sig ∧ operand &&& (1#32 <<< opd.type.sbit.toNat) ≠ 0 then
        some (operand ||| (BitVec.allOnes 32 <<< opd.type.sbit.toNat))
      else some operand
    else evalOperandFrom insn opds operand (nbits + opd.data)

/-- `eval_operand_val`: the value of the operand that starts an operand program. -/
def evalOperandVal (insn : BitVec 32) (opd : List InsnOp) : Option (BitVec 32) :=
  evalOperandFrom insn opd 0 0

/-- The places of an operand program where an operand starts: its beginning and after every
`OPTYPE_OP` up to `OPTYPE_LAST`. -/
def operandStarts : Bool → List InsnOp → List (List InsnOp)
  | _, [] => []
  | start, opd :: opds =>
    (if start then [opd :: opds] else []) ++
      (if opd.type.last then [] else operandStarts opd.type.op opds)

/-- The operand values the executor obtains from an operand program. -/
def execOperands (insn : BitVec 32) (opds : List InsnOp) : List (Option (BitVec 32)) :=
  (operandStarts true opds).map (evalOperandVal insn)

end Insn
end Or1ksim
