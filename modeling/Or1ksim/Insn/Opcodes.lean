import Or1ksim.Decoder.Automata

/-!
# The opcode table

`or1ksim_or32_opcodes` of `cpu/or32/or32.c`, row by row.  The dummy row that ends the C array is
the end of the list; the rows of the `HAS_CUST` section are not compiled into the simulator.
-/

namespace Or1ksim
namespace Insn

open Decoder (Encoding)

/-- The execution functions of `cpu/or32/insnset.c` that the table names. -/
inductive ExecFn where
  | lJ | lJal | lBnf | lBf | lNop | lMovhi | lMacrc | lSys | lTrap | lNone | lRfe | lInvalid
  | lJr | lJalr | lMac | lCust1 | lCust2 | lCust3 | lCust4 | lLwz | lLws | lLbz | lLbs | lLhz
  | lLhs | lAdd | lAddc | lAnd | lOr | lXor | lMul | lMfspr | lSll | lSrl | lSra | lRor | lSfeq
  | lSfne | lSfgtu | lSfgeu | lSfltu | lSfleu | lSfgts | lSfges | lSflts | lSfles | lMtspr | lMsb
  | lfAddS | lfSubS | lfMulS | lfDivS | lfItofS | lfFtoiS | lfRemS | lfMaddS | lfSfeqS | lfSfneS
  | lfSfgtS | lfSfgeS | lfSfltS | lfSfleS | lSw | lSb | lSh | lSub | lDiv | lDivu | lMulu
  | lExtbs | lExths | lExtws | lExtbz | lExthz | lExtwz | lCmov | lFf1 | lFl1
deriving DecidableEq, Repr

/-- `struct or32_opcode`. -/
structure Opcode where
  /-- Name of the instruction. -/
  name : String
  /-- Text of the operands. -/
  args : String
  /-- Opcode and operand encoding. -/
  encoding : String
  /-- `function_name`: what executes the instruction. -/
  function : ExecFn
deriving DecidableEq, Repr

/-- The encoding as the decoder reads it. -/
def Opcode.enc (o : Opcode) : Encoding := o.encoding.toList

/-- `or1ksim_or32_opcodes`, for either setting of `HAVE_UNSIGNED_XORI`. -/
def opcodes (haveUnsignedXori : Bool) : List Opcode := [
  ⟨"l.j", "N", "00 0x0  NNNNN NNNNN NNNN NNNN NNNN NNNN", .lJ⟩,
  ⟨"l.jal", "N", "00 0x1  NNNNN NNNNN NNNN NNNN NNNN NNNN", .lJal⟩,
  ⟨"l.bnf", "N", "00 0x3  NNNNN NNNNN NNNN NNNN NNNN NNNN", .lBnf⟩,
  ⟨"l.bf", "N", "00 0x4  NNNNN NNNNN NNNN NNNN NNNN NNNN", .lBf⟩,
  ⟨"l.nop", "K", "00 0x5  01--- ----- KKKK KKKK KKKK KKKK", .lNop⟩,
  ⟨"l.movhi", "rD,K", "00 0x6  DDDDD ----0 KKKK KKKK KKKK KKKK", .lMovhi⟩,
  ⟨"l.macrc", "rD", "00 0x6  DDDDD ----1 0000 0000 0000 0000", .lMacrc⟩,
  ⟨"l.sys", "K", "00 0x8  00000 00000 KKKK KKKK KKKK KKKK", .lSys⟩,
  ⟨"l.trap", "K", "00 0x8  01000 00000 KKKK KKKK KKKK KKKK", .lTrap⟩,
  ⟨"l.msync", "", "00 0x8  10000 00000 0000 0000 0000 0000", .lNone⟩,
  ⟨"l.psync", "", "00 0x8  10100 00000 0000 0000 0000 0000", .lNone⟩,
  ⟨"l.csync", "", "00 0x8  11000 00000 0000 0000 0000 0000", .lNone⟩,
  ⟨"l.rfe", "", "00 0x9  ----- ----- ---- ---- ---- ----", .lRfe⟩,
  ⟨"lv.all_eq.b", "rD,rA,rB", "00 0xA  DDDDD AAAAA BBBB B--- 0x1 0x0", .lInvalid⟩,
  ⟨"lv.all_eq.h", "rD,rA,rB", "00 0xA  DDDDD AAAAA BBBB B--- 0x1 0x1", .lInvalid⟩,
  ⟨"lv.all_ge.b", "rD,rA,rB", "00 0xA  DDDDD AAAAA BBBB B--- 0x1 0x2", .lInvalid⟩,
  ⟨"lv.all_ge.h", "rD,rA,rB", "00 0xA  DDDDD AAAAA BBBB B--- 0x1 0x3", .lInvalid⟩,
  ⟨"lv.all_gt.b", "rD,rA,rB", "00 0xA  DDDDD AAAAA BBBB B--- 0x1 0x4", .lInvalid⟩,
  ⟨"lv.all_gt.h", "rD,rA,rB", "00 0xA  DDDDD AAAAA BBBB B--- 0x1 0x5", .lInvalid⟩,
  ⟨"lv.all_le.b", "rD,rA,rB", "00 0xA  DDDDD AAAAA BBBB B--- 0x1 0x6", .lInvalid⟩,
  ⟨"lv.all_le.h", "rD,rA,rB", "00 0xA  DDDDD AAAAA BBBB B--- 0x1 0x7", .lInvalid⟩,
  ⟨"lv.all_lt.b", "rD,rA,rB", "00 0xA  DDDDD AAAAA BBBB B--- 0x1 0x8", .lInvalid⟩,
  ⟨"lv.all_lt.h", "rD,rA,rB", "00 0xA  DDDDD AAAAA BBBB B--- 0x1 0x9", .lInvalid⟩,
  ⟨"lv.all_ne.b", "rD,rA,rB", "00 0xA  DDDDD AAAAA BBBB B--- 0x1 0xA", .lInvalid⟩,
  ⟨"lv.all_ne.h", "rD,rA,rB", "00 0xA  DDDDD AAAAA BBBB B--- 0x1 0xB", .lInvalid⟩,
  ⟨"lv.any_eq.b", "rD,rA,rB", "00 0xA  DDDDD AAAAA BBBB B--- 0x2 0x0", .lInvalid⟩,
  ⟨"lv.any_eq.h", "rD,rA,rB", "00 0xA  DDDDD AAAAA BBBB B--- 0x2 0x1", .lInvalid⟩,
  ⟨"lv.any_ge.b", "rD,rA,rB", "00 0xA  DDDDD AAAAA BBBB B--- 0x2 0x2", .lInvalid⟩,
  ⟨"lv.any_ge.h", "rD,rA,rB", "00 0xA  DDDDD AAAAA BBBB B--- 0x2 0x3", .lInvalid⟩,
  ⟨"lv.any_gt.b", "rD,rA,rB", "00 0xA  DDDDD AAAAA BBBB B--- 0x2 0x4", .lInvalid⟩,
  ⟨"lv.any_gt.h", "rD,rA,rB", "00 0xA  DDDDD AAAAA BBBB B--- 0x2 0x5", .lInvalid⟩,
  ⟨"lv.any_le.b", "rD,rA,rB", "00 0xA  DDDDD AAAAA BBBB B--- 0x2 0x6", .lInvalid⟩,
  ⟨"lv.any_le.h", "rD,rA,rB", "00 0xA  DDDDD AAAAA BBBB B--- 0x2 0x7", .lInvalid⟩,
  ⟨"lv.any_lt.b", "rD,rA,rB", "00 0xA  DDDDD AAAAA BBBB B--- 0x2 0x8", .lInvalid⟩,
  ⟨"lv.any_lt.h", "rD,rA,rB", "00 0xA  DDDDD AAAAA BBBB B--- 0x2 0x9", .lInvalid⟩,
  ⟨"lv.any_ne.b", "rD,rA,rB", "00 0xA  DDDDD AAAAA BBBB B--- 0x2 0xA", .lInvalid⟩,
  ⟨"lv.any_ne.h", "rD,rA,rB", "00 0xA  DDDDD AAAAA BBBB B--- 0x2 0xB", .lInvalid⟩,
  ⟨"lv.add.b", "rD,rA,rB", "00 0xA  DDDDD AAAAA BBBB B--- 0x3 0x0", .lInvalid⟩,
  ⟨"lv.add.h", "rD,rA,rB", "00 0xA  DDDDD AAAAA BBBB B--- 0x3 0x1", .lInvalid⟩,
  ⟨"lv.adds.b", "rD,rA,rB", "00 0xA  DDDDD AAAAA BBBB B--- 0x3 0x2", .lInvalid⟩,
  ⟨"lv.adds.h", "rD,rA,rB", "00 0xA  DDDDD AAAAA BBBB B--- 0x3 0x3", .lInvalid⟩,
  ⟨"lv.addu.b", "rD,rA,rB", "00 0xA  DDDDD AAAAA BBBB B--- 0x3 0x4", .lInvalid⟩,
  ⟨"lv.addu.h", "rD,rA,rB", "00 0xA  DDDDD AAAAA BBBB B--- 0x3 0x5", .lInvalid⟩,
  ⟨"lv.addus.b", "rD,rA,rB", "00 0xA  DDDDD AAAAA BBBB B--- 0x3 0x6", .lInvalid⟩,
  ⟨"lv.addus.h", "rD,rA,rB", "00 0xA  DDDDD AAAAA BBBB B--- 0x3 0x7", .lInvalid⟩,
  ⟨"lv.and", "rD,rA,rB", "00 0xA  DDDDD AAAAA BBBB B--- 0x3 0x8", .lInvalid⟩,
  ⟨"lv.avg.b", "rD,rA,rB", "00 0xA  DDDDD AAAAA BBBB B--- 0x3 0x9", .lInvalid⟩,
  ⟨"lv.avg.h", "rD,rA,rB", "00 0xA  DDDDD AAAAA BBBB B--- 0x3 0xA", .lInvalid⟩,
  ⟨"lv.cmp_eq.b", "rD,rA,rB", "00 0xA  DDDDD AAAAA BBBB B--- 0x4 0x0", .lInvalid⟩,
  ⟨"lv.cmp_eq.h", "rD,rA,rB", "00 0xA  DDDDD AAAAA BBBB B--- 0x4 0x1", .lInvalid⟩,
  ⟨"lv.cmp_ge.b", "rD,rA,rB", "00 0xA  DDDDD AAAAA BBBB B--- 0x4 0x2", .lInvalid⟩,
  ⟨"lv.cmp_ge.h", "rD,rA,rB", "00 0xA  DDDDD AAAAA BBBB B--- 0x4 0x3", .lInvalid⟩,
  ⟨"lv.cmp_gt.b", "rD,rA,rB", "00 0xA  DDDDD AAAAA BBBB B--- 0x4 0x4", .lInvalid⟩,
  ⟨"lv.cmp_gt.h", "rD,rA,rB", "00 0xA  DDDDD AAAAA BBBB B--- 0x4 0x5", .lInvalid⟩,
  ⟨"lv.cmp_le.b", "rD,rA,rB", "00 0xA  DDDDD AAAAA BBBB B--- 0x4 0x6", .lInvalid⟩,
  ⟨"lv.cmp_le.h", "rD,rA,rB", "00 0xA  DDDDD AAAAA BBBB B--- 0x4 0x7", .lInvalid⟩,
  ⟨"lv.cmp_lt.b", "rD,rA,rB", "00 0xA  DDDDD AAAAA BBBB B--- 0x4 0x8", .lInvalid⟩,
  ⟨"lv.cmp_lt.h", "rD,rA,rB", "00 0xA  DDDDD AAAAA BBBB B--- 0x4 0x9", .lInvalid⟩,
  ⟨"lv.cmp_ne.b", "rD,rA,rB", "00 0xA  DDDDD AAAAA BBBB B--- 0x4 0xA", .lInvalid⟩,
  ⟨"lv.cmp_ne.h", "rD,rA,rB", "00 0xA  DDDDD AAAAA BBBB B--- 0x4 0xB", .lInvalid⟩,
  ⟨"lv.madds.h", "rD,rA,rB", "00 0xA  DDDDD AAAAA BBBB B--- 0x5 0x4", .lInvalid⟩,
  ⟨"lv.max.b", "rD,rA,rB", "00 0xA  DDDDD AAAAA BBBB B--- 0x5 0x5", .lInvalid⟩,
  ⟨"lv.max.h", "rD,rA,rB", "00 0xA  DDDDD AAAAA BBBB B--- 0x5 0x6", .lInvalid⟩,
  ⟨"lv.merge.b", "rD,rA,rB", "00 0xA  DDDDD AAAAA BBBB B--- 0x5 0x7", .lInvalid⟩,
  ⟨"lv.merge.h", "rD,rA,rB", "00 0xA  DDDDD AAAAA BBBB B--- 0x5 0x8", .lInvalid⟩,
  ⟨"lv.min.b", "rD,rA,rB", "00 0xA  DDDDD AAAAA BBBB B--- 0x5 0x9", .lInvalid⟩,
  ⟨"lv.min.h", "rD,rA,rB", "00 0xA  DDDDD AAAAA BBBB B--- 0x5 0xA", .lInvalid⟩,
  ⟨"lv.msubs.h", "rD,rA,rB", "00 0xA  DDDDD AAAAA BBBB B--- 0x5 0xB", .lInvalid⟩,
  ⟨"lv.muls.h", "rD,rA,rB", "00 0xA  DDDDD AAAAA BBBB B--- 0x5 0xC", .lInvalid⟩,
  ⟨"lv.nand", "rD,rA,rB", "00 0xA  DDDDD AAAAA BBBB B--- 0x5 0xD", .lInvalid⟩,
  ⟨"lv.nor", "rD,rA,rB", "00 0xA  DDDDD AAAAA BBBB B--- 0x5 0xE", .lInvalid⟩,
  ⟨"lv.or", "rD,rA,rB", "00 0xA  DDDDD AAAAA BBBB B--- 0x5 0xF", .lInvalid⟩,
  ⟨"lv.pack.b", "rD,rA,rB", "00 0xA  DDDDD AAAAA BBBB B--- 0x6 0x0", .lInvalid⟩,
  ⟨"lv.pack.h", "rD,rA,rB", "00 0xA  DDDDD AAAAA BBBB B--- 0x6 0x1", .lInvalid⟩,
  ⟨"lv.packs.b", "rD,rA,rB", "00 0xA  DDDDD AAAAA BBBB B--- 0x6 0x2", .lInvalid⟩,
  ⟨"lv.packs.h", "rD,rA,rB", "00 0xA  DDDDD AAAAA BBBB B--- 0x6 0x3", .lInvalid⟩,
  ⟨"lv.packus.b", "rD,rA,rB", "00 0xA  DDDDD AAAAA BBBB B--- 0x6 0x4", .lInvalid⟩,
  ⟨"lv.packus.h", "rD,rA,rB", "00 0xA  DDDDD AAAAA BBBB B--- 0x6 0x5", .lInvalid⟩,
  ⟨"lv.perm.n", "rD,rA,rB", "00 0xA  DDDDD AAAAA BBBB B--- 0x6 0x6", .lInvalid⟩,
  ⟨"lv.rl.b", "rD,rA,rB", "00 0xA  DDDDD AAAAA BBBB B--- 0x6 0x7", .lInvalid⟩,
  ⟨"lv.rl.h", "rD,rA,rB", "00 0xA  DDDDD AAAAA BBBB B--- 0x6 0x8", .lInvalid⟩,
  ⟨"lv.sll.b", "rD,rA,rB", "00 0xA  DDDDD AAAAA BBBB B--- 0x6 0x9", .lInvalid⟩,
  ⟨"lv.sll.h", "rD,rA,rB", "00 0xA  DDDDD AAAAA BBBB B--- 0x6 0xA", .lInvalid⟩,
  ⟨"lv.sll", "rD,rA,rB", "00 0xA  DDDDD AAAAA BBBB B--- 0x6 0xB", .lInvalid⟩,
  ⟨"lv.srl.b", "rD,rA,rB", "00 0xA  DDDDD AAAAA BBBB B--- 0x6 0xC", .lInvalid⟩,
  ⟨"lv.srl.h", "rD,rA,rB", "00 0xA  DDDDD AAAAA BBBB B--- 0x6 0xD", .lInvalid⟩,
  ⟨"lv.sra.b", "rD,rA,rB", "00 0xA  DDDDD AAAAA BBBB B--- 0x6 0xE", .lInvalid⟩,
  ⟨"lv.sra.h", "rD,rA,rB", "00 0xA  DDDDD AAAAA BBBB B--- 0x6 0xF", .lInvalid⟩,
  ⟨"lv.srl", "rD,rA,rB", "00 0xA  DDDDD AAAAA BBBB B--- 0x7 0x0", .lInvalid⟩,
  ⟨"lv.sub.b", "rD,rA,rB", "00 0xA  DDDDD AAAAA BBBB B--- 0x7 0x1", .lInvalid⟩,
  ⟨"lv.sub.h", "rD,rA,rB", "00 0xA  DDDDD AAAAA BBBB B--- 0x7 0x2", .lInvalid⟩,
  ⟨"lv.subs.b", "rD,rA,rB", "00 0xA  DDDDD AAAAA BBBB B--- 0x7 0x3", .lInvalid⟩,
  ⟨"lv.subs.h", "rD,rA,rB", "00 0xA  DDDDD AAAAA BBBB B--- 0x7 0x4", .lInvalid⟩,
  ⟨"lv.subu.b", "rD,rA,rB", "00 0xA  DDDDD AAAAA BBBB B--- 0x7 0x5", .lInvalid⟩,
  ⟨"lv.subu.h", "rD,rA,rB", "00 0xA  DDDDD AAAAA BBBB B--- 0x7 0x6", .lInvalid⟩,
  ⟨"lv.subus.b", "rD,rA,rB", "00 0xA  DDDDD AAAAA BBBB B--- 0x7 0x7", .lInvalid⟩,
  ⟨"lv.subus.h", "rD,rA,rB", "00 0xA  DDDDD AAAAA BBBB B--- 0x7 0x8", .lInvalid⟩,
  ⟨"lv.unpack.b", "rD,rA,rB", "00 0xA  DDDDD AAAAA BBBB B--- 0x7 0x9", .lInvalid⟩,
  ⟨"lv.unpack.h", "rD,rA,rB", "00 0xA  DDDDD AAAAA BBBB B--- 0x7 0xA", .lInvalid⟩,
  ⟨"lv.xor", "rD,rA,rB", "00 0xA  DDDDD AAAAA BBBB B--- 0x7 0xB", .lInvalid⟩,
  ⟨"lv.cust1", "", "00 0xA  ----- ----- ---- ---- 0xC ----", .lInvalid⟩,
  ⟨"lv.cust2", "", "00 0xA  ----- ----- ---- ---- 0xD ----", .lInvalid⟩,
  ⟨"lv.cust3", "", "00 0xA  ----- ----- ---- ---- 0xE ----", .lInvalid⟩,
  ⟨"lv.cust4", "", "00 0xA  ----- ----- ---- ---- 0xF ----", .lInvalid⟩,
  ⟨"l.jr", "rB", "01 0x1  ----- ----- BBBB B--- ---- ----", .lJr⟩,
  ⟨"l.jalr", "rB", "01 0x2  ----- ----- BBBB B--- ---- ----", .lJalr⟩,
  ⟨"l.maci", "rA,I", "01 0x3  ----- AAAAA IIII IIII IIII IIII", .lMac⟩,
  ⟨"l.cust1", "", "01 0xC  ----- ----- ---- ---- ---- ----", .lCust1⟩,
  ⟨"l.cust2", "", "01 0xD  ----- ----- ---- ---- ---- ----", .lCust2⟩,
  ⟨"l.cust3", "", "01 0xE  ----- ----- ---- ---- ---- ----", .lCust3⟩,
  ⟨"l.cust4", "", "01 0xF  ----- ----- ---- ---- ---- ----", .lCust4⟩,
  ⟨"l.ld", "rD,I(rA)", "10 0x0  DDDDD AAAAA IIII IIII IIII IIII", .lInvalid⟩,
  ⟨"l.lwz", "rD,I(rA)", "10 0x1  DDDDD AAAAA IIII IIII IIII IIII", .lLwz⟩,
  ⟨"l.lws", "rD,I(rA)", "10 0x2  DDDDD AAAAA IIII IIII IIII IIII", .lLws⟩,
  ⟨"l.lbz", "rD,I(rA)", "10 0x3  DDDDD AAAAA IIII IIII IIII IIII", .lLbz⟩,
  ⟨"l.lbs", "rD,I(rA)", "10 0x4  DDDDD AAAAA IIII IIII IIII IIII", .lLbs⟩,
  ⟨"l.lhz", "rD,I(rA)", "10 0x5  DDDDD AAAAA IIII IIII IIII IIII", .lLhz⟩,
  ⟨"l.lhs", "rD,I(rA)", "10 0x6  DDDDD AAAAA IIII IIII IIII IIII", .lLhs⟩,
  ⟨"l.addi", "rD,rA,I", "10 0x7  DDDDD AAAAA IIII IIII IIII IIII", .lAdd⟩,
  ⟨"l.addic", "rD,rA,I", "10 0x8  DDDDD AAAAA IIII IIII IIII IIII", .lAddc⟩,
  ⟨"l.andi", "rD,rA,K", "10 0x9  DDDDD AAAAA KKKK KKKK KKKK KKKK", .lAnd⟩,
  ⟨"l.ori", "rD,rA,K", "10 0xA  DDDDD AAAAA KKKK KKKK KKKK KKKK", .lOr⟩,
  if haveUnsignedXori then
    ⟨"l.xori", "rD,rA,K", "10 0xB  DDDDD AAAAA KKKK KKKK KKKK KKKK", .lXor⟩
  else
    ⟨"l.xori", "rD,rA,I", "10 0xB  DDDDD AAAAA IIII IIII IIII IIII", .lXor⟩,
  ⟨"l.muli", "rD,rA,I", "10 0xC  DDDDD AAAAA IIII IIII IIII IIII", .lMul⟩,
  ⟨"l.mfspr", "rD,rA,K", "10 0xD  DDDDD AAAAA KKKK KKKK KKKK KKKK", .lMfspr⟩,
  ⟨"l.slli", "rD,rA,L", "10 0xE  DDDDD AAAAA ---- ---- 00LL LLLL", .lSll⟩,
  ⟨"l.srli", "rD,rA,L", "10 0xE  DDDDD AAAAA ---- ---- 01LL LLLL", .lSrl⟩,
  ⟨"l.srai", "rD,rA,L", "10 0xE  DDDDD AAAAA ---- ---- 10LL LLLL", .lSra⟩,
  ⟨"l.rori", "rD,rA,L", "10 0xE  DDDDD AAAAA ---- ---- 11LL LLLL", .lRor⟩,
  ⟨"l.sfeqi", "rA,I", "10 0xF  00000 AAAAA IIII IIII IIII IIII", .lSfeq⟩,
  ⟨"l.sfnei", "rA,I", "10 0xF  00001 AAAAA IIII IIII IIII IIII", .lSfne⟩,
  ⟨"l.sfgtui", "rA,I", "10 0xF  00010 AAAAA IIII IIII IIII IIII", .lSfgtu⟩,
  ⟨"l.sfgeui", "rA,I", "10 0xF  00011 AAAAA IIII IIII IIII IIII", .lSfgeu⟩,
  ⟨"l.sfltui", "rA,I", "10 0xF  00100 AAAAA IIII IIII IIII IIII", .lSfltu⟩,
  ⟨"l.sfleui", "rA,I", "10 0xF  00101 AAAAA IIII IIII IIII IIII", .lSfleu⟩,
  ⟨"l.sfgtsi", "rA,I", "10 0xF  01010 AAAAA IIII IIII IIII IIII", .lSfgts⟩,
  ⟨"l.sfgesi", "rA,I", "10 0xF  01011 AAAAA IIII IIII IIII IIII", .lSfges⟩,
  ⟨"l.sfltsi", "rA,I", "10 0xF  01100 AAAAA IIII IIII IIII IIII", .lSflts⟩,
  ⟨"l.sflesi", "rA,I", "10 0xF  01101 AAAAA IIII IIII IIII IIII", .lSfles⟩,
  ⟨"l.mtspr", "rA,rB,K", "11 0x0  KKKKK AAAAA BBBB BKKK KKKK KKKK", .lMtspr⟩,
  ⟨"l.mac", "rA,rB", "11 0x1  ----- AAAAA BBBB B--- ---- 0x1", .lMac⟩,
  ⟨"l.msb", "rA,rB", "11 0x1  ----- AAAAA BBBB B--- ---- 0x2", .lMsb⟩,
  ⟨"lf.add.s", "rD,rA,rB", "11 0x2  DDDDD AAAAA BBBB B--- 0x0 0x0", .lfAddS⟩,
  ⟨"lf.sub.s", "rD,rA,rB", "11 0x2  DDDDD AAAAA BBBB B--- 0x0 0x1", .lfSubS⟩,
  ⟨"lf.mul.s", "rD,rA,rB", "11 0x2  DDDDD AAAAA BBBB B--- 0x0 0x2", .lfMulS⟩,
  ⟨"lf.div.s", "rD,rA,rB", "11 0x2  DDDDD AAAAA BBBB B--- 0x0 0x3", .lfDivS⟩,
  ⟨"lf.itof.s", "rD,rA", "11 0x2  DDDDD AAAAA 0000 0--- 0x0 0x4", .lfItofS⟩,
  ⟨"lf.ftoi.s", "rD,rA", "11 0x2  DDDDD AAAAA 0000 0--- 0x0 0x5", .lfFtoiS⟩,
  ⟨"lf.rem.s", "rD,rA,rB", "11 0x2  DDDDD AAAAA BBBB B--- 0x0 0x6", .lfRemS⟩,
  ⟨"lf.madd.s", "rD,rA,rB", "11 0x2  DDDDD AAAAA BBBB B--- 0x0 0x7", .lfMaddS⟩,
  ⟨"lf.sfeq.s", "rA,rB", "11 0x2  ----- AAAAA BBBB B--- 0x0 0x8", .lfSfeqS⟩,
  ⟨"lf.sfne.s", "rA,rB", "11 0x2  ----- AAAAA BBBB B--- 0x0 0x9", .lfSfneS⟩,
  ⟨"lf.sfgt.s", "rA,rB", "11 0x2  ----- AAAAA BBBB B--- 0x0 0xA", .lfSfgtS⟩,
  ⟨"lf.sfge.s", "rA,rB", "11 0x2  ----- AAAAA BBBB B--- 0x0 0xB", .lfSfgeS⟩,
  ⟨"lf.sflt.s", "rA,rB", "11 0x2  ----- AAAAA BBBB B--- 0x0 0xC", .lfSfltS⟩,
  ⟨"lf.sfle.s", "rA,rB", "11 0x2  ----- AAAAA BBBB B--- 0x0 0xD", .lfSfleS⟩,
  ⟨"lf.cust1.s", "rA,rB", "11 0x2  ----- AAAAA BBBB B--- 0xD ----", .lInvalid⟩,
  ⟨"lf.add.d", "rD,rA,rB", "11 0x2  DDDDD AAAAA BBBB B--- 0x1 0x0", .lInvalid⟩,
  ⟨"lf.sub.d", "rD,rA,rB", "11 0x2  DDDDD AAAAA BBBB B--- 0x1 0x1", .lInvalid⟩,
  ⟨"lf.mul.d", "rD,rA,rB", "11 0x2  DDDDD AAAAA BBBB B--- 0x1 0x2", .lInvalid⟩,
  ⟨"lf.div.d", "rD,rA,rB", "11 0x2  DDDDD AAAAA BBBB B--- 0x1 0x3", .lInvalid⟩,
  ⟨"lf.itof.d", "rD,rA", "11 0x2  DDDDD AAAAA 0000 0--- 0x1 0x4", .lInvalid⟩,
  ⟨"lf.ftoi.d", "rD,rA", "11 0x2  DDDDD AAAAA 0000 0--- 0x1 0x5", .lInvalid⟩,
  ⟨"lf.rem.d", "rD,rA,rB", "11 0x2  DDDDD AAAAA BBBB B--- 0x1 0x6", .lInvalid⟩,
  ⟨"lf.madd.d", "rD,rA,rB", "11 0x2  DDDDD AAAAA BBBB B--- 0x1 0x7", .lInvalid⟩,
  ⟨"lf.sfeq.d", "rA,rB", "11 0x2  ----- AAAAA BBBB B--- 0x1 0x8", .lInvalid⟩,
  ⟨"lf.sfne.d", "rA,rB", "11 0x2  ----- AAAAA BBBB B--- 0x1 0x9", .lInvalid⟩,
  ⟨"lf.sfgt.d", "rA,rB", "11 0x2  ----- AAAAA BBBB B--- 0x1 0xA", .lInvalid⟩,
  ⟨"lf.sfge.d", "rA,rB", "11 0x2  ----- AAAAA BBBB B--- 0x1 0xB", .lInvalid⟩,
  ⟨"lf.sflt.d", "rA,rB", "11 0x2  ----- AAAAA BBBB B--- 0x1 0xC", .lInvalid⟩,
  ⟨"lf.sfle.d", "rA,rB", "11 0x2  ----- AAAAA BBBB B--- 0x1 0xD", .lInvalid⟩,
  ⟨"lf.cust1.d", "rA,rB", "11 0x2  ----- AAAAA BBBB B--- 0xE ----", .lInvalid⟩,
  ⟨"l.sd", "I(rA),rB", "11 0x4  IIIII AAAAA BBBB BIII IIII IIII", .lInvalid⟩,
  ⟨"l.sw", "I(rA),rB", "11 0x5  IIIII AAAAA BBBB BIII IIII IIII", .lSw⟩,
  ⟨"l.sb", "I(rA),rB", "11 0x6  IIIII AAAAA BBBB BIII IIII IIII", .lSb⟩,
  ⟨"l.sh", "I(rA),rB", "11 0x7  IIIII AAAAA BBBB BIII IIII IIII", .lSh⟩,
  ⟨"l.add", "rD,rA,rB", "11 0x8  DDDDD AAAAA BBBB B-00 ---- 0x0", .lAdd⟩,
  ⟨"l.addc", "rD,rA,rB", "11 0x8  DDDDD AAAAA BBBB B-00 ---- 0x1", .lAddc⟩,
  ⟨"l.sub", "rD,rA,rB", "11 0x8  DDDDD AAAAA BBBB B-00 ---- 0x2", .lSub⟩,
  ⟨"l.and", "rD,rA,rB", "11 0x8  DDDDD AAAAA BBBB B-00 ---- 0x3", .lAnd⟩,
  ⟨"l.or", "rD,rA,rB", "11 0x8  DDDDD AAAAA BBBB B-00 ---- 0x4", .lOr⟩,
  ⟨"l.xor", "rD,rA,rB", "11 0x8  DDDDD AAAAA BBBB B-00 ---- 0x5", .lXor⟩,
  ⟨"l.mul", "rD,rA,rB", "11 0x8  DDDDD AAAAA BBBB B-11 ---- 0x6", .lMul⟩,
  ⟨"l.sll", "rD,rA,rB", "11 0x8  DDDDD AAAAA BBBB B-00 00-- 0x8", .lSll⟩,
  ⟨"l.srl", "rD,rA,rB", "11 0x8  DDDDD AAAAA BBBB B-00 01-- 0x8", .lSrl⟩,
  ⟨"l.sra", "rD,rA,rB", "11 0x8  DDDDD AAAAA BBBB B-00 10-- 0x8", .lSra⟩,
  ⟨"l.ror", "rD,rA,rB", "11 0x8  DDDDD AAAAA BBBB B-00 11-- 0x8", .lRor⟩,
  ⟨"l.div", "rD,rA,rB", "11 0x8  DDDDD AAAAA BBBB B-11 ---- 0x9", .lDiv⟩,
  ⟨"l.divu", "rD,rA,rB", "11 0x8  DDDDD AAAAA BBBB B-11 ---- 0xA", .lDivu⟩,
  ⟨"l.mulu", "rD,rA,rB", "11 0x8  DDDDD AAAAA BBBB B-11 ---- 0xB", .lMulu⟩,
  ⟨"l.extbs", "rD,rA", "11 0x8  DDDDD AAAAA ---- --00 01-- 0xC", .lExtbs⟩,
  ⟨"l.exths", "rD,rA", "11 0x8  DDDDD AAAAA ---- --00 00-- 0xC", .lExths⟩,
  ⟨"l.extws", "rD,rA", "11 0x8  DDDDD AAAAA ---- --00 00-- 0xD", .lExtws⟩,
  ⟨"l.extbz", "rD,rA", "11 0x8  DDDDD AAAAA ---- --00 11-- 0xC", .lExtbz⟩,
  ⟨"l.exthz", "rD,rA", "11 0x8  DDDDD AAAAA ---- --00 10-- 0xC", .lExthz⟩,
  ⟨"l.extwz", "rD,rA", "11 0x8  DDDDD AAAAA ---- --00 01-- 0xD", .lExtwz⟩,
  ⟨"l.cmov", "rD,rA,rB", "11 0x8  DDDDD AAAAA BBBB B-00 ---- 0xE", .lCmov⟩,
  ⟨"l.ff1", "rD,rA", "11 0x8  DDDDD AAAAA ---- --00 ---- 0xF", .lFf1⟩,
  ⟨"l.fl1", "rD,rA", "11 0x8  DDDDD AAAAA ---- --01 ---- 0xF", .lFl1⟩,
  ⟨"l.sfeq", "rA,rB", "11 0x9  00000 AAAAA BBBB B--- ---- ----", .lSfeq⟩,
  ⟨"l.sfne", "rA,rB", "11 0x9  00001 AAAAA BBBB B--- ---- ----", .lSfne⟩,
  ⟨"l.sfgtu", "rA,rB", "11 0x9  00010 AAAAA BBBB B--- ---- ----", .lSfgtu⟩,
  ⟨"l.sfgeu", "rA,rB", "11 0x9  00011 AAAAA BBBB B--- ---- ----", .lSfgeu⟩,
  ⟨"l.sfltu", "rA,rB", "11 0x9  00100 AAAAA BBBB B--- ---- ----", .lSfltu⟩,
  ⟨"l.sfleu", "rA,rB", "11 0x9  00101 AAAAA BBBB B--- ---- ----", .lSfleu⟩,
  ⟨"l.sfgts", "rA,rB", "11 0x9  01010 AAAAA BBBB B--- ---- ----", .lSfgts⟩,
  ⟨"l.sfges", "rA,rB", "11 0x9  01011 AAAAA BBBB B--- ---- ----", .lSfges⟩,
  ⟨"l.sflts", "rA,rB", "11 0x9  01100 AAAAA BBBB B--- ---- ----", .lSflts⟩,
  ⟨"l.sfles", "rA,rB", "11 0x9  01101 AAAAA BBBB B--- ---- ----", .lSfles⟩,
  ⟨"l.cust5", "rD,rA,rB,L,K", "11 0xC  DDDDD AAAAA BBBB BLLL LLLK KKKK", .lInvalid⟩,
  ⟨"l.cust6", "", "11 0xD  ----- ----- ---- ---- ---- ----", .lInvalid⟩,
  ⟨"l.cust7", "", "11 0xE  ----- ----- ---- ---- ---- ----", .lInvalid⟩,
  ⟨"l.cust8", "", "11 0xF  ----- ----- ---- ---- ---- ----", .lInvalid⟩]

end Insn
end Or1ksim
