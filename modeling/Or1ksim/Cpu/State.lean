import Mathlib.Logic.Function.Basic
import Or1ksim.Lib.Bits
import Or1ksim.Memory.Area
import Or1ksim.Sched.Basic

/-!
# The processor state

The part of the simulator's state that instructions, exceptions and the job scheduler work on, as
`struct cpu_state` and the globals around it have it.  The debug unit, the caches, power
management and the performance counters are configured off, and the statistics are left out.

* `Sim` — the state; `Config` — the configuration it runs under;
* `exceptHandle` — entering an exception.
-/

namespace Or1ksim
namespace Cpu

open Bits

/-! ### Special purpose registers -/

/-- Number of a special purpose register. -/
abbrev Regno := BitVec 16

/-- `SPR_UPR`. -/
def sprUPR : Regno := 1
/-- `SPR_NPC`. -/
def sprNPC : Regno := 16
/-- `SPR_SR`. -/
def sprSR : Regno := 17
/-- `SPR_PPC`. -/
def sprPPC : Regno := 18
/-- `SPR_FPCSR`. -/
def sprFPCSR : Regno := 20
/-- `SPR_EPCR_BASE`. -/
def sprEPCR : Regno := 32
/-- `SPR_EEAR_BASE`. -/
def sprEEAR : Regno := 48
/-- `SPR_ESR_BASE`. -/
def sprESR : Regno := 64
/-- `SPR_DTLBMR_BASE (0)`. -/
def sprDTLBMR : Regno := 0x0a00
/-- `SPR_ITLBMR_BASE (0)`. -/
def sprITLBMR : Regno := 0x1200
/-- `SPR_DCBPR`. -/
def sprDCBPR : Regno := 0x1801
/-- `SPR_DCBFR`. -/
def sprDCBFR : Regno := 0x1802
/-- `SPR_DCBIR`. -/
def sprDCBIR : Regno := 0x1803
/-- `SPR_DCBWR`. -/
def sprDCBWR : Regno := 0x1804
/-- `SPR_DCBLR`. -/
def sprDCBLR : Regno := 0x1805
/-- `SPR_ICBPR`. -/
def sprICBPR : Regno := 0x2001
/-- `SPR_ICBIR`. -/
def sprICBIR : Regno := 0x2002
/-- `SPR_ICBLR`. -/
def sprICBLR : Regno := 0x2003
/-- `SPR_MACLO`. -/
def sprMACLO : Regno := 0x2801
/-- `SPR_MACHI`. -/
def sprMACHI : Regno := 0x2802
/-- `SPR_DMR1`. -/
def sprDMR1 : Regno := 0x3010
/-- `SPR_DSR`. -/
def sprDSR : Regno := 0x3014
/-- `SPR_DRR`. -/
def sprDRR : Regno := 0x3015
/-- `SPR_PMR`. -/
def sprPMR : Regno := 0x4000
/-- `SPR_PICMR`. -/
def sprPICMR : Regno := 0x4800
/-- `SPR_PICSR`. -/
def sprPICSR : Regno := 0x4802
/-- `SPR_TTMR`. -/
def sprTTMR : Regno := 0x5000
/-- `SPR_TTCR`. -/
def sprTTCR : Regno := 0x5001

/-! ### Bits of the supervision register -/

/-- `SPR_SR_SM`: supervisor mode. -/
def srSM : ℕ := 0
/-- `SPR_SR_TEE`: tick timer exception enable. -/
def srTEE : ℕ := 1
/-- `SPR_SR_IEE`: interrupt exception enable. -/
def srIEE : ℕ := 2
/-- `SPR_SR_DME`: data MMU enable. -/
def srDME : ℕ := 5
/-- `SPR_SR_IME`: instruction MMU enable. -/
def srIME : ℕ := 6
/-- `SPR_SR_F`: condition flag. -/
def srF : ℕ := 9
/-- `SPR_SR_CY`: carry. -/
def srCY : ℕ := 10
/-- `SPR_SR_OV`: overflow. -/
def srOV : ℕ := 11
/-- `SPR_SR_OVE`: overflow exception enable. -/
def srOVE : ℕ := 12
/-- `SPR_SR_EPH`: exception prefix high. -/
def srEPH : ℕ := 14
/-- `SPR_SR_FO`: fixed one. -/
def srFO : ℕ := 15
/-- `SPR_SR_SUMRA`: SPRs user mode read access. -/
def srSUMRA : ℕ := 16

/-! ### Configuration and state -/

/-- The geometry of an MMU (`struct dmmu`, `struct immu`). -/
structure MmuConfig where
  /-- Number of ways. -/
  nways : ℕ
  /-- Number of sets. -/
  nsets : ℕ
  /-- Page size in bytes. -/
  pagesize : Word
  /-- "nways not in range 1-4: ignored". -/
  nways_le : 1 ≤ nways ∧ nways ≤ 4
  /-- "nsets not a power of 2 <= 128: ignored". -/
  nsets_le : ∃ k ≤ 7, nsets = 2 ^ k

/-- The operations of the vendored softfloat library: from the rounding mode and the operands, the
result and the exception flags it raises. -/
structure Softfloat where
  /-- `float32_add`. -/
  add : BitVec 2 → Word → Word → Word × BitVec 5
  /-- `float32_sub`. -/
  sub : BitVec 2 → Word → Word → Word × BitVec 5
  /-- `float32_mul`. -/
  mul : BitVec 2 → Word → Word → Word × BitVec 5
  /-- `float32_div`. -/
  div : BitVec 2 → Word → Word → Word × BitVec 5
  /-- `float32_rem`. -/
  rem : BitVec 2 → Word → Word → Word × BitVec 5
  /-- `float32_to_int32`. -/
  toInt : BitVec 2 → Word → Word × BitVec 5
  /-- `int32_to_float32`. -/
  ofInt : BitVec 2 → Word → Word × BitVec 5
  /-- `float32_eq`. -/
  eq : Word → Word → Bool × BitVec 5
  /-- `float32_lt`. -/
  lt : Word → Word → Bool × BitVec 5
  /-- `float32_le`. -/
  le : Word → Word → Bool × BitVec 5
  /-- `float32_is_nan`. -/
  isNan : Word → Bool

/-- The configuration (`config`), as far as the processor reads it. -/
structure Config where
  /-- `HAVE_UNSIGNED_XORI`. -/
  haveUnsignedXori : Bool
  /-- `config.cpu.hardfloat`. -/
  hardfloat : Bool
  /-- `config.sim.strict_npc`. -/
  strictNpc : Bool
  /-- `config.sim.is_library`. -/
  isLibrary : Bool
  /-- `config.sim.clkcycle_ps`. -/
  clkcyclePs : Word
  /-- `config.pic.enabled`. -/
  picEnabled : Bool
  /-- `config.pic.edge_trigger`. -/
  edgeTrigger : Bool
  /-- `config.pic.use_nmi`. -/
  useNmi : Bool
  /-- `config.pm.enabled`. -/
  pmEnabled : Bool
  /-- The data MMU. -/
  dmmu : MmuConfig
  /-- The instruction MMU. -/
  immu : MmuConfig
  /-- The floating point operations. -/
  softfloat : Softfloat
  /-- The values of successive calls of `random`. -/
  random : ℕ → Word

/-- A request of a peripheral to the interrupt controller. -/
inductive LineOp where
  /-- `report_interrupt (line)`. -/
  | report (line : Fin 32)
  /-- `clear_interrupt (line)`. -/
  | clear (line : Fin 32)
deriving DecidableEq, Repr

/-- The functions that are queued as jobs. -/
inductive Job where
  /-- `sched_guard`. -/
  | schedGuard
  /-- `pic_rep_int`. -/
  | picRepInt
  /-- `tick_raise_except`. -/
  | tickRaiseExcept
  /-- `tick_restart`. -/
  | tickRestart
  /-- `tick_one_shot`. -/
  | tickOneShot
  /-- A job of a peripheral, by what it asks of the interrupt controller. -/
  | device (ops : List LineOp)
deriving DecidableEq, Repr

/-- The state of the simulator. -/
structure Sim where
  /-- `cpu_state.reg`. -/
  reg : BitVec 5 → Word
  /-- `cpu_state.sprs`. -/
  sprs : Regno → Word
  /-- `cpu_state.pc`. -/
  pc : Addr
  /-- `pcnext`. -/
  pcnext : Addr
  /-- `cpu_state.pc_delay`. -/
  pcDelay : Addr
  /-- `cpu_state.delay_insn`. -/
  delayInsn : Bool
  /-- `next_delay_insn`. -/
  nextDelayInsn : Bool
  /-- `except_pending`. -/
  exceptPending : Bool
  /-- The memory areas. -/
  mem : Memory
  /-- `scheduler`. -/
  sched : Sched.State Job Unit
  /-- `runtime.sim.cycles`. -/
  cycles : BitVec 64
  /-- `cycle_count_at_tick_start`. -/
  cycleCountAtTickStart : BitVec 64
  /-- `tick_counting`. -/
  tickCounting : Word
  /-- `runtime.cpu.stalled`. -/
  stalled : Bool
  /-- `runtime.cpu.halted`. -/
  halted : Bool
  /-- `cpu_state.npc_not_valid`. -/
  npcNotValid : Bool
  /-- How often `random` has been called. -/
  randoms : ℕ

namespace Sim

/-- The supervision register. -/
def sr (s : Sim) : Word := s.sprs sprSR

/-- A bit of the supervision register. -/
def srBit (s : Sim) (k : ℕ) : Bool := s.sr.getLsbD k

/-- `cpu_state.sprs[regno] = value`. -/
def setSpr (s : Sim) (regno : Regno) (value : Word) : Sim :=
  { s with sprs := Function.update s.sprs regno value }

/-- `cpu_state.reg[regno] = value`. -/
def setReg (s : Sim) (regno : BitVec 5) (value : Word) : Sim :=
  { s with reg := Function.update s.reg regno value }

/-- `set_stall_state`. -/
def setStallState (s : Sim) (state : Bool) : Sim :=
  if state then { s with stalled := true }
  else { s with stalled := false, npcNotValid := false, halted := false }

section

variable {s : Sim} {r r' : Regno} {v : Word}

@[simp] theorem setSpr_sprs_self : (s.setSpr r v).sprs r = v := Function.update_self ..

theorem setSpr_sprs_of_ne (h : r' ≠ r) : (s.setSpr r v).sprs r' = s.sprs r' :=
  Function.update_of_ne h ..

@[simp] theorem setSpr_setSpr {w : Word} : (s.setSpr r v).setSpr r w = s.setSpr r w := by
  simp only [setSpr, Function.update_idem]

@[simp] theorem setSpr_sr : (s.setSpr sprSR v).sr = v := setSpr_sprs_self

theorem setSpr_sr_of_ne (h : sprSR ≠ r) : (s.setSpr r v).sr = s.sr := setSpr_sprs_of_ne h

@[simp] theorem setSpr_mem : (s.setSpr r v).mem = s.mem := rfl

@[simp] theorem setSpr_sched : (s.setSpr r v).sched = s.sched := rfl

@[simp] theorem setReg_sr {d : BitVec 5} : (s.setReg d v).sr = s.sr := rfl

end

end Sim

/-- Why the simulator has no next state. -/
inductive Stop where
  /-- `sim_done` ends the program. -/
  | done
  /-- Nothing defines what comes next: the job scheduler follows a null pointer, or a signed sum
  overflows. -/
  | undefined
deriving DecidableEq, Repr

/-! ### Exceptions -/

/-- The exceptions. -/
inductive Exception where
  | reset | buserr | dpf | ipf | tick | align | illegal | int | dtlbmiss | itlbmiss | range
  | syscall | trap
deriving DecidableEq, Repr

/-- `EXCEPT_RESET` and so on: the offset of the exception's vector. -/
def Exception.offset : Exception → Addr
  | .reset => 0x100
  | .buserr => 0x200
  | .dpf => 0x300
  | .ipf => 0x400
  | .tick => 0x500
  | .align => 0x600
  | .illegal => 0x700
  | .int => 0x800
  | .dtlbmiss => 0x900
  | .itlbmiss => 0xa00
  | .range => 0xb00
  | .syscall => 0xc00
  | .trap => 0xe00

/-- The bit of an exception in `SPR_DSR`. -/
def Exception.dsrBit : Exception → ℕ
  | .reset => 0
  | .buserr => 1
  | .dpf => 2
  | .ipf => 3
  | .tick => 4
  | .align => 5
  | .illegal => 6
  | .int => 7
  | .dtlbmiss => 8
  | .itlbmiss => 9
  | .range => 10
  | .syscall => 11
  | .trap => 13

/-- The exception vector under a supervision register. -/
def exceptVector (sr : Word) (e : Exception) : Addr :=
  e.offset + if sr.getLsbD srEPH then 0xf0000000 else 0

/-- The test of `debug_ignore_exception`: the debug stop register has the exception. -/
def intercepted (s : Sim) (e : Exception) : Bool := (s.sprs sprDSR).getLsbD e.dsrBit

/-- `debug_ignore_exception`, apart from its result: the debug reason and the stall state. -/
def debugIgnoreException (s : Sim) (e : Exception) : Sim :=
  let result := s.sprs sprDSR &&& BitVec.twoPow 32 e.dsrBit
  (s.setSpr sprDRR (s.sprs sprDRR ||| result)).setStallState (intercepted s e)

/-- The supervision register of an exception handler: no overflow exceptions, supervisor mode, no
interrupts, no address translation. -/
def entrySr (sr : Word) : Word :=
  let sr := clearBit sr srOVE
  let sr := setBit sr srSM
  let sr := clearBit (clearBit sr srIEE) srTEE
  let sr := clearBit sr srDME
  clearBit sr srIME

/-- The address `except_handle` leaves in `SPR_EPCR_BASE`, if any. -/
def exceptEpcr (s : Sim) (e : Exception) (ea : Addr) : Option Addr :=
  let back : Addr := if s.delayInsn then 4 else 0
  match e with
  | .reset => none
  | .itlbmiss | .ipf => some (ea - back)
  | .buserr | .dpf | .align | .illegal | .dtlbmiss | .range | .trap => some (s.pc - back)
  | .syscall => some (s.pc + 4 - back)
  | .tick | .int => some (s.pc - back)

/-- `except_handle`, after the debug unit let the exception through. -/
def enterException (s : Sim) (e : Exception) (ea : Addr) : Sim :=
  let vector := exceptVector s.sr e
  let epcr := exceptEpcr s e ea
  let sr := s.sr
  let s := { s with exceptPending := true, pcnext := vector }
  let s := s.setSpr sprEEAR ea
  let s := s.setSpr sprESR sr
  let s := s.setSpr sprSR (entrySr sr)
  let s := match epcr with
    | some a => s.setSpr sprEPCR a
    | none => s
  -- The asynchronous exceptions come between two instructions: the handler starts now.
  let s := if e = .tick ∨ e = .int then { s with pc := vector, pcnext := vector + 4 } else s
  { s with delayInsn := false }

/-- `except_handle`. -/
def exceptHandle (s : Sim) (e : Exception) (ea : Addr) : Sim :=
  let t := debugIgnoreException s e
  if intercepted s e then t else enterException t e ea

end Cpu
end Or1ksim
