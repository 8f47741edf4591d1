import Or1ksim.Cpu.Sprs
import Or1ksim.Insn.Operands

/-!
# The instructions

`cpu/or32/insnset.c`.  An instruction reads its operands and a few registers (`View`) and from
these computes what it does to the machine (`Effect`); `Effect.apply` does it.

* one definition per execution function of the source, under its name;
* `ExecFn.effect` — the dispatch;
* `Effect.apply` — the state change.
-/

namespace Or1ksim
namespace Cpu

open Bits Insn

/-- What an instruction reads. -/
structure View where
  /-- `PARAM0`. -/
  param0 : Word
  /-- `PARAM1`. -/
  param1 : Word
  /-- `PARAM2`. -/
  param2 : Word
  /-- `REG_PARAM0`: the first operand before it is read as a register. -/
  regParam0 : Word
  /-- The supervision register. -/
  sr : Word
  /-- The address of the instruction. -/
  pc : Addr
  /-- `SPR_MACLO`. -/
  maclo : Word
  /-- `SPR_MACHI`. -/
  machi : Word
  /-- `SPR_FPCSR`. -/
  fpcsr : Word

/-- What an instruction does. -/
inductive Effect where
  /-- Nothing. -/
  | skip
  /-- `SET_PARAM0`. -/
  | set (v : Word)
  /-- `SET_PARAM0` if there is a result, new flags, and perhaps a range exception. -/
  | arith (v : Option Word) (sr : Word) (range : Bool)
  /-- Set or clear the condition flag. -/
  | flag (f : Bool)
  /-- Load into the first operand, extended from the width of the access. -/
  | load (n : Width) (extend : Word → Word) (a : Addr)
  /-- Store. -/
  | store (n : Width) (a : Addr) (v : Word)
  /-- Jump after the next instruction, perhaps with a link. -/
  | jump (target : Addr) (link : Bool)
  /-- Raise an exception at the instruction's address. -/
  | raise (e : Exception)
  /-- Raise an exception with the old `SPR_EEAR_BASE`. -/
  | raiseEear (e : Exception)
  /-- New contents of the accumulator, and perhaps a result. -/
  | mac (v : Option Word) (hi lo : Word)
  /-- Move to a special purpose register. -/
  | mtspr (regno : Regno) (value : Word)
  /-- Move from a special purpose register. -/
  | mfspr (regno : Regno)
  /-- Return from exception. -/
  | rfe
  /-- `l.nop k`. -/
  | nop (k : Word)
  /-- A floating point result with the flags raised. -/
  | float (v : Word) (flags : BitVec 5)
  /-- A floating point comparison with the flags raised. -/
  | floatFlag (f : Bool) (flags : BitVec 5)
  /-- `sim_done`. -/
  | done

/-! ### Arithmetic -/

/-- Carry and overflow of an addition. -/
def addFlags (sr : Word) (sum x y : Word) (carry : Bool) : Word :=
  let ov := (x.msb && y.msb && !sum.msb) || (!x.msb && !y.msb && sum.msb)
  assignBit (assignBit sr srOV ov) srCY carry

/-- "Trigger a range exception if the overflow flag is set and the SR[OVE] bit is set." -/
def rangeOn (sr : Word) (bit : ℕ) : Bool := sr.getLsbD srOVE && sr.getLsbD bit

/-- `l_add`, as on a host whose signed sums wrap (`hostAdd` is the sum that C defines). -/
def lAdd (v : View) : Effect :=
  let temp1 := v.param2 + v.param1
  let sr := addFlags v.sr temp1 v.param2 v.param1 (decide (temp1 < v.param2))
  .arith (some temp1) sr (rangeOn sr srOV)

/-- `l_addc`, on such a host (`hostAddc`). -/
def lAddc (v : View) : Effect :=
  let carryIn := v.sr.getLsbD srCY
  let temp1 := v.param2 + v.param1 + if carryIn then 1 else 0
  let sr := addFlags v.sr temp1 v.param2 v.param1
    ((carryIn && decide (temp1 ≤ v.param2)) || decide (temp1 < v.param2))
  .arith (some temp1) sr (rangeOn sr srOV)

/-- `l_sub`, on such a host (`hostSub`). -/
def lSub (v : View) : Effect :=
  let temp3 := v.param2
  let temp2 := v.param1
  let temp1 := temp2 - temp3
  let ov := (temp2.msb && !temp3.msb && !temp1.msb) || (!temp2.msb && temp3.msb && temp1.msb)
  let sr := assignBit (assignBit v.sr srOV ov) srCY (decide (temp2 < temp3))
  .arith (some temp1) sr (rangeOn sr srOV)

/-- `l_mul`. -/
def lMul (v : View) : Effect :=
  let ltemp0 := v.param1.toInt * v.param2.toInt
  let ultemp0 := v.param1.toNat * v.param2.toNat
  let ov := decide (ltemp0 < -2 ^ 31 ∨ 2 ^ 31 - 1 < ltemp0)
  let sr := assignBit (assignBit v.sr srOV ov) srCY (decide (2 ^ 32 - 1 < ultemp0))
  .arith (some (v.param1 * v.param2)) sr (rangeOn sr srOV)

/-- `l_mulu`. -/
def lMulu (v : View) : Effect :=
  let ultemp0 := v.param1.toNat * v.param2.toNat
  .arith (some (v.param1 * v.param2))
    (assignBit (clearBit v.sr srOV) srCY (decide (2 ^ 32 - 1 < ultemp0))) false

/-- `l_div` and `l_divu`, which differ in the division. -/
def divide (div : Word → Word → Word) (v : View) : Effect :=
  let zero := decide (v.param2 = 0)
  let sr := clearBit (assignBit v.sr srCY zero) srOV
  .arith (if zero then none else some (div v.param1 v.param2)) sr (rangeOn sr srCY)

/-- `l_div`. -/
def lDiv : View → Effect := divide BitVec.sdiv

/-- `l_divu`. -/
def lDivu : View → Effect := divide BitVec.udiv

/-- `l_and`. -/
def lAnd (v : View) : Effect := .set (v.param1 &&& v.param2)

/-- `l_or`. -/
def lOr (v : View) : Effect := .set (v.param1 ||| v.param2)

/-- `l_xor`. -/
def lXor (v : View) : Effect := .set (v.param1 ^^^ v.param2)

/-- A shift count: the host shifts a 32-bit value by the low five bits. -/
def shiftCount (w : Word) : ℕ := w.toNat % 32

/-- `l_sll`. -/
def lSll (v : View) : Effect := .set (v.param1 <<< shiftCount v.param2)

/-- `l_srl`. -/
def lSrl (v : View) : Effect := .set (v.param1 >>> shiftCount v.param2)

/-- `l_sra`. -/
def lSra (v : View) : Effect := .set (v.param1.sshiftRight (shiftCount v.param2))

/-- `l_ror`. -/
def lRor (v : View) : Effect :=
  .set ((v.param1 >>> shiftCount v.param2) |||
    (v.param1 <<< shiftCount (32 - (v.param2 &&& 0x1f))))

/-- `l_movhi`. -/
def lMovhi (v : View) : Effect := .set (v.param1 <<< 16)

/-- `ffs`: one more than the position of the lowest set bit, or zero. -/
def ffs (w : Word) : Word :=
  match (List.range 32).find? fun i => w.getLsbD i with
  | some i => BitVec.ofNat 32 (i + 1)
  | none => 0

/-- `l_ff1`. -/
def lFf1 (v : View) : Effect := .set (ffs v.param1)

/-- `l_fl1`: "Reverse the word and use ffs". -/
def lFl1 (v : View) : Effect :=
  let t := v.param1
  let t := ((t &&& 0xaaaaaaaa) >>> 1) ||| ((t &&& 0x55555555) <<< 1)
  let t := ((t &&& 0xcccccccc) >>> 2) ||| ((t &&& 0x33333333) <<< 2)
  let t := ((t &&& 0xf0f0f0f0) >>> 4) ||| ((t &&& 0x0f0f0f0f) <<< 4)
  let t := ((t &&& 0xff00ff00) >>> 8) ||| ((t &&& 0x00ff00ff) <<< 8)
  let t := ffs (t.sshiftRight 16 ||| (t <<< 16))
  .set (if t = 0 then t else 33 - t)

/-- `l_extbs`. -/
def lExtbs (v : View) : Effect := .set ((v.param1.setWidth 8).signExtend 32)

/-- `l_extbz`. -/
def lExtbz (v : View) : Effect := .set ((v.param1.setWidth 8).setWidth 32)

/-- `l_exths`. -/
def lExths (v : View) : Effect := .set ((v.param1.setWidth 16).signExtend 32)

/-- `l_exthz`. -/
def lExthz (v : View) : Effect := .set ((v.param1.setWidth 16).setWidth 32)

/-- `l_extws`. -/
def lExtws (v : View) : Effect := .set v.param1

/-- `l_extwz`. -/
def lExtwz (v : View) : Effect := .set v.param1

/-- `l_cmov`. -/
def lCmov (v : View) : Effect := .set (if v.sr.getLsbD srF then v.param1 else v.param2)

/-! ### Comparisons -/

/-- `l_sfeq`. -/
def lSfeq (v : View) : Effect := .flag (decide (v.param0 = v.param1))
/-- `l_sfne`. -/
def lSfne (v : View) : Effect := .flag (decide (v.param0 ≠ v.param1))
/-- `l_sfgts`. -/
def lSfgts (v : View) : Effect := .flag (v.param1.slt v.param0)
/-- `l_sfges`. -/
def lSfges (v : View) : Effect := .flag (v.param1.sle v.param0)
/-- `l_sflts`. -/
def lSflts (v : View) : Effect := .flag (v.param0.slt v.param1)
/-- `l_sfles`. -/
def lSfles (v : View) : Effect := .flag (v.param0.sle v.param1)
/-- `l_sfgtu`. -/
def lSfgtu (v : View) : Effect := .flag (decide (v.param1 < v.param0))
/-- `l_sfgeu`. -/
def lSfgeu (v : View) : Effect := .flag (decide (v.param1 ≤ v.param0))
/-- `l_sfltu`. -/
def lSfltu (v : View) : Effect := .flag (decide (v.param0 < v.param1))
/-- `l_sfleu`. -/
def lSfleu (v : View) : Effect := .flag (decide (v.param0 ≤ v.param1))

/-! ### Memory -/

/-- `l_lws`. -/
def lLws (v : View) : Effect := .load .w4 id v.param1
/-- `l_lwz`. -/
def lLwz (v : View) : Effect := .load .w4 id v.param1
/-- `l_lbs`. -/
def lLbs (v : View) : Effect := .load .w1 (fun x => (x.setWidth 8).signExtend 32) v.param1
/-- `l_lbz`. -/
def lLbz (v : View) : Effect := .load .w1 (fun x => (x.setWidth 8).setWidth 32) v.param1
/-- `l_lhs`. -/
def lLhs (v : View) : Effect := .load .w2 (fun x => (x.setWidth 16).signExtend 32) v.param1
/-- `l_lhz`. -/
def lLhz (v : View) : Effect := .load .w2 (fun x => (x.setWidth 16).setWidth 32) v.param1
/-- `l_sw`. -/
def lSw (v : View) : Effect := .store .w4 v.param0 v.param1
/-- `l_sh`. -/
def lSh (v : View) : Effect := .store .w2 v.param0 v.param1
/-- `l_sb`. -/
def lSb (v : View) : Effect := .store .w1 v.param0 v.param1

/-! ### Jumps -/

/-- The target of a relative jump. -/
def relative (v : View) : Addr := v.pc + v.param0 * 4

/-- `l_bf`. -/
def lBf (v : View) : Effect := if v.sr.getLsbD srF then .jump (relative v) false else .skip

/-- `l_bnf`. -/
def lBnf (v : View) : Effect := if v.sr.getLsbD srF = false then .jump (relative v) false else .skip

/-- `l_j`: a jump to itself dumps the memory and ends the simulation. -/
def lJ (v : View) : Effect := if v.regParam0 ≠ 0 then .jump (relative v) false else .done

/-- `l_jal`. -/
def lJal (v : View) : Effect := .jump (relative v) true

/-- `LINK_REGNO`. -/
def linkRegno : BitVec 5 := 9

/-- `l_jalr`: "Badly aligned destination or use of link register triggers an exception". -/
def lJalr (v : View) : Effect :=
  if v.regParam0 = linkRegno.setWidth 32 then .raise .illegal
  else if v.param0 &&& 3 ≠ 0 then .raise .align
  else .jump v.param0 true

/-- `l_jr`: "Badly aligned destination triggers an exception". -/
def lJr (v : View) : Effect :=
  if v.param0 &&& 3 ≠ 0 then .raise .align else .jump v.param0 false

/-! ### Exceptions and special purpose registers -/

/-- `l_rfe`. -/
def lRfe (_ : View) : Effect := .rfe

/-- `l_sys`. -/
def lSys (_ : View) : Effect := .raiseEear .syscall

/-- `l_trap`. -/
def lTrap (_ : View) : Effect := .raiseEear .trap

/-- `l_invalid`, which the floating point instructions call. -/
def lInvalid (_ : View) : Effect := .raise .illegal

/-- `l_mtspr`. -/
def lMtspr (v : View) : Effect :=
  if v.sr.getLsbD srSM then .mtspr ((v.param0 ||| v.param2).setWidth 16) v.param1 else .done

/-- `l_mfspr`. -/
def lMfspr (v : View) : Effect :=
  if v.sr.getLsbD srSM || (!v.sr.getLsbD srSM && v.sr.getLsbD srSUMRA) then
    .mfspr ((v.param1 ||| v.param2).setWidth 16)
  else .done

/-- `l_nop`. -/
def lNop (v : View) : Effect := .nop v.param0

/-! ### The accumulator -/

/-- `MACHI:MACLO` as a 64-bit number. -/
def accumulator (v : View) : BitVec 64 := v.maclo.setWidth 64 ||| (v.machi.setWidth 64 <<< 32)

/-- Put a 64-bit number into `MACHI:MACLO`. -/
def setAccumulator (l : BitVec 64) : Effect :=
  .mac none ((l >>> 32).setWidth 32) (l.setWidth 32)

/-- `l_mac`. -/
def lMac (v : View) : Effect :=
  setAccumulator (accumulator v + (v.param0 * v.param1).signExtend 64)

/-- `l_msb`. -/
def lMsb (v : View) : Effect :=
  setAccumulator (accumulator v - (v.param0 * v.param1).signExtend 64)

/-- `l_macrc`. -/
def lMacrc (v : View) : Effect := .mac (some v.maclo) 0 0

/-! ### Floating point -/

/-- `float_set_rm`. -/
def roundingMode (fpcsr : Word) : BitVec 2 := (fpcsr >>> 1).setWidth 2

/-- `float_set_flags`: invalid, division by zero, overflow, underflow and inexact replace all
flags. -/
def floatSetFlags (fpcsr : Word) (flags : BitVec 5) : Word :=
  let fpcsr := fpcsr &&& ~~~0xff8#32
  let fpcsr := if flags.getLsbD 0 then setBit fpcsr 9 else fpcsr
  let fpcsr := if flags.getLsbD 1 then setBit fpcsr 11 else fpcsr
  let fpcsr := if flags.getLsbD 2 then setBit fpcsr 3 else fpcsr
  let fpcsr := if flags.getLsbD 3 then setBit fpcsr 4 else fpcsr
  if flags.getLsbD 4 then setBit fpcsr 8 else fpcsr

section Float

variable (cfg : Config)

/-- The floating point instructions are invalid without `config.cpu.hardfloat`. -/
def hard (e : Effect) (v : View) : Effect := if cfg.hardfloat then e else lInvalid v

/-- An operation with a result. -/
def floatOp (r : Word × BitVec 5) (v : View) : Effect := hard cfg (.float r.1 r.2) v

/-- A comparison, which is false when an operand is not a number. -/
def floatCmp (r : Bool × BitVec 5) (v : View) : Effect :=
  hard cfg
    (.floatFlag (r.1 && !cfg.softfloat.isNan v.param0 && !cfg.softfloat.isNan v.param1) r.2) v

/-- `lf_add_s`. -/
def lfAddS (v : View) : Effect :=
  floatOp cfg (cfg.softfloat.add (roundingMode v.fpcsr) v.param1 v.param2) v
/-- `lf_sub_s`. -/
def lfSubS (v : View) : Effect :=
  floatOp cfg (cfg.softfloat.sub (roundingMode v.fpcsr) v.param1 v.param2) v
/-- `lf_mul_s`. -/
def lfMulS (v : View) : Effect :=
  floatOp cfg (cfg.softfloat.mul (roundingMode v.fpcsr) v.param1 v.param2) v
/-- `lf_div_s`. -/
def lfDivS (v : View) : Effect :=
  floatOp cfg (cfg.softfloat.div (roundingMode v.fpcsr) v.param1 v.param2) v
/-- `lf_rem_s`. -/
def lfRemS (v : View) : Effect :=
  floatOp cfg (cfg.softfloat.rem (roundingMode v.fpcsr) v.param1 v.param2) v
/-- `lf_ftoi_s`. -/
def lfFtoiS (v : View) : Effect :=
  floatOp cfg (cfg.softfloat.toInt (roundingMode v.fpcsr) v.param1) v
/-- `lf_itof_s`. -/
def lfItofS (v : View) : Effect :=
  floatOp cfg (cfg.softfloat.ofInt (roundingMode v.fpcsr) v.param1) v
/-- `lf_madd_s`; the flags of both operations accumulate. -/
def lfMaddS (v : View) : Effect :=
  let m := cfg.softfloat.mul (roundingMode v.fpcsr) v.param1 v.param2
  let r := cfg.softfloat.add (roundingMode v.fpcsr) v.param0 m.1
  floatOp cfg (r.1, m.2 ||| r.2) v
/-- `lf_sfeq_s`, which does not test for a number. -/
def lfSfeqS (v : View) : Effect :=
  let r := cfg.softfloat.eq v.param0 v.param1
  hard cfg (.floatFlag r.1 r.2) v
/-- `lf_sfne_s`. -/
def lfSfneS (v : View) : Effect :=
  let r := cfg.softfloat.eq v.param0 v.param1
  hard cfg (.floatFlag (!r.1) r.2) v
/-- `lf_sfge_s`. -/
def lfSfgeS (v : View) : Effect :=
  let r := cfg.softfloat.lt v.param0 v.param1
  floatCmp cfg (!r.1, r.2) v
/-- `lf_sfgt_s`. -/
def lfSfgtS (v : View) : Effect :=
  let r := cfg.softfloat.le v.param0 v.param1
  floatCmp cfg (!r.1, r.2) v
/-- `lf_sfle_s`. -/
def lfSfleS (v : View) : Effect := floatCmp cfg (cfg.softfloat.le v.param0 v.param1) v
/-- `lf_sflt_s`. -/
def lfSfltS (v : View) : Effect := floatCmp cfg (cfg.softfloat.lt v.param0 v.param1) v

end Float

/-! ### Dispatch -/

/-- The effect of an execution function. -/
def effect (cfg : Config) (f : ExecFn) (v : View) : Effect :=
  match f with
  | .lJ => lJ v
  | .lJal => lJal v
  | .lBnf => lBnf v
  | .lBf => lBf v
  | .lNop => lNop v
  | .lMovhi => lMovhi v
  | .lMacrc => lMacrc v
  | .lSys => lSys v
  | .lTrap => lTrap v
  -- `insnset.c` has no text for these two, and none is emitted.
  | .lNone | .lInvalid => .skip
  | .lRfe => lRfe v
  | .lJr => lJr v
  | .lJalr => lJalr v
  | .lMac => lMac v
  | .lCust1 | .lCust2 | .lCust3 | .lCust4 => .skip
  | .lLwz => lLwz v
  | .lLws => lLws v
  | .lLbz => lLbz v
  | .lLbs => lLbs v
  | .lLhz => lLhz v
  | .lLhs => lLhs v
  | .lAdd => lAdd v
  | .lAddc => lAddc v
  | .lAnd => lAnd v
  | .lOr => lOr v
  | .lXor => lXor v
  | .lMul => lMul v
  | .lMfspr => lMfspr v
  | .lSll => lSll v
  | .lSrl => lSrl v
  | .lSra => lSra v
  | .lRor => lRor v
  | .lSfeq => lSfeq v
  | .lSfne => lSfne v
  | .lSfgtu => lSfgtu v
  | .lSfgeu => lSfgeu v
  | .lSfltu => lSfltu v
  | .lSfleu => lSfleu v
  | .lSfgts => lSfgts v
  | .lSfges => lSfges v
  | .lSflts => lSflts v
  | .lSfles => lSfles v
  | .lMtspr => lMtspr v
  | .lMsb => lMsb v
  | .lfAddS => lfAddS cfg v
  | .lfSubS => lfSubS cfg v
  | .lfMulS => lfMulS cfg v
  | .lfDivS => lfDivS cfg v
  | .lfItofS => lfItofS cfg v
  | .lfFtoiS => lfFtoiS cfg v
  | .lfRemS => lfRemS cfg v
  | .lfMaddS => lfMaddS cfg v
  | .lfSfeqS => lfSfeqS cfg v
  | .lfSfneS => lfSfneS cfg v
  | .lfSfgtS => lfSfgtS cfg v
  | .lfSfgeS => lfSfgeS cfg v
  | .lfSfltS => lfSfltS cfg v
  | .lfSfleS => lfSfleS cfg v
  | .lSw => lSw v
  | .lSb => lSb v
  | .lSh => lSh v
  | .lSub => lSub v
  | .lDiv => lDiv v
  | .lDivu => lDivu v
  | .lMulu => lMulu v
  | .lExtbs => lExtbs v
  | .lExths => lExths v
  | .lExtws => lExtws v
  | .lExtbz => lExtbz v
  | .lExthz => lExthz v
  | .lExtwz => lExtwz v
  | .lCmov => lCmov v
  | .lFf1 => lFf1 v
  | .lFl1 => lFl1 v

end Cpu
end Or1ksim
