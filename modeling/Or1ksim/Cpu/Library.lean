import Or1ksim.Cpu.Run

/-!
# The library

`libtoplevel.c`: the main loop for use from another program, with interrupts requested through
the library.  What a request sets are words of 64 bits, from shifts of an `int`.

* `or1ksimInterruptSet`, `or1ksimInterruptClear` — requests of the embedding program;
* `takeSets`, `takeClrs`, `takeRequests` — how the main loop takes them;
* `iteration`, `or1ksimRun` — the main loop;
* `LibEvent`, `LibEvent.exec` — calls of the library, in any order.
-/

namespace Or1ksim
namespace Cpu

open Bits

/-- `SPR_DMR1_ST`: single stepping. -/
def dmr1ST : ℕ := 22

/-- What `or1ksim_run` returns. -/
inductive Ret where
  /-- `OR1KSIM_RC_OK`. -/
  | ok
  /-- `OR1KSIM_RC_BRKPT`. -/
  | brkpt
  /-- `OR1KSIM_RC_HALTED`. -/
  | halted
deriving DecidableEq, Repr

/-- The simulator as a library.  The last three fields only observe the main loop. -/
structure LibSim where
  sim : Sim
  /-- `runtime.sim.ext_int_set`. -/
  extIntSet : BitVec 64
  /-- `runtime.sim.ext_int_clr`. -/
  extIntClr : BitVec 64
  /-- What the main loop has added to `runtime.sim.cycles`. -/
  advanced : ℕ
  /-- What it has taken off the head of the job queue. -/
  charged : ℤ
  /-- The `mem_cycles` of the instructions executed. -/
  spent : ℕ

/-! ### Requests -/

/-- `1 << i` as an `unsigned long`: an `int` of its own, so that line 31 is sign-extended. -/
def intBit (i : ℕ) : BitVec 64 := (BitVec.twoPow 32 i).signExtend 64

/-- `~(1 << i)` as an `unsigned long`. -/
def intMask (i : ℕ) : BitVec 64 := (~~~BitVec.twoPow 32 i).signExtend 64

/-- `or1ksim_interrupt_set`. -/
def or1ksimInterruptSet (cfg : Config) (s : LibSim) (i : Fin 32) : LibSim :=
  if cfg.edgeTrigger then s else { s with extIntSet := s.extIntSet ||| intBit i }

/-- `or1ksim_interrupt_clear`. -/
def or1ksimInterruptClear (cfg : Config) (s : LibSim) (i : Fin 32) : LibSim :=
  if cfg.edgeTrigger then s else { s with extIntClr := s.extIntClr ||| intBit i }

/-- `num_ints`. -/
def numInts : ℕ := 64

/-- One round of the loop over `ext_int_set`.  From line 32 on `report_interrupt` shifts an `int` by
more than its width. -/
def takeSet (cfg : Config) (s : LibSim) (i : ℕ) : Except Stop LibSim :=
  if s.extIntSet.getLsbD i then
    if h : i < 32 then
      (reportInterrupt cfg s.sim ⟨i, h⟩).map fun sim =>
        { s with sim := sim, extIntSet := s.extIntSet &&& intMask i }
    else .error .undefined
  else .ok s

/-- One round of the loop over `ext_int_clr`. -/
def takeClr (s : LibSim) (i : ℕ) : Except Stop LibSim :=
  if s.extIntClr.getLsbD i then
    if h : i < 32 then
      .ok { s with sim := clearInterrupt s.sim ⟨i, h⟩, extIntClr := s.extIntClr &&& intMask i }
    else .error .undefined
  else .ok s

/-- "Take any external interrupts." -/
def takeSets (cfg : Config) (s : LibSim) : Except Stop LibSim :=
  if s.extIntSet ≠ 0 then (List.range numInts).foldlM (takeSet cfg) s else .ok s

/-- "Clear any interrupts as requested." -/
def takeClrs (s : LibSim) : Except Stop LibSim :=
  if s.extIntClr ≠ 0 then (List.range numInts).foldlM takeClr s else .ok s

/-- Both loops. -/
def takeRequests (cfg : Config) (s : LibSim) : Except Stop LibSim := do
  let s ← takeSets cfg s
  takeClrs s

/-! ### The main loop -/

/-- `do_scheduler`, if it ends within `fuel` rounds. -/
def schedulerPass (cfg : Config) : ℕ → Sim → Except Stop Sim
  | 0, _ => .error .undefined
  | fuel + 1, s => do
    let s ← runJob cfg s
    if Sched.headDue s.sched then schedulerPass cfg fuel s else .ok s

/-- What an iteration meets: whether a breakpoint of the simulator is hit, and the cycles that the
accesses of the instruction take, a non-negative `int`. -/
structure Input where
  breakpoint : Bool
  memCycles : Fin (2 ^ 31)
deriving DecidableEq

/-- "If we were single stepping, stall immediately." -/
def singleStep (s : Sim) : Sim :=
  if (s.sprs sprDMR1).getLsbD dmr1ST then s.setStallState true else s

/-- What `or1ksim_run` returns when it stops early. -/
def Sim.earlyRet (s : Sim) : Ret := if s.halted then .halted else .brkpt

/-- Run the jobs that are due, if there are any. -/
def runScheduler (cfg : Config) (fuel : ℕ) (s : Sim) : Except Stop Sim :=
  if Sched.headDue s.sched then schedulerPass cfg fuel s else .ok s

/-- "Update the scheduler queue". -/
def updateQueue (cfg : Config) (fuel : ℕ) (timeStart : BitVec 64) (s : LibSim) :
    Except Stop LibSim := do
  let elapsed := (s.sim.cycles - timeStart).toInt
  let sim ← s.sim.withSched (Sched.charge s.sim.sched elapsed)
  let sim ← runScheduler cfg fuel sim
  return { s with sim := sim, charged := s.charged + elapsed }

/-- The end of an iteration, for an instruction that does not stall the processor. -/
def finishIteration (cfg : Config) (fuel : ℕ) (timeStart : BitVec 64) (memCycles : ℕ) (s : LibSim) :
    Except Stop LibSim := do
  let s := { s with
    sim := { s.sim with cycles := s.sim.cycles + BitVec.ofNat 64 memCycles }
    advanced := s.advanced + memCycles }
  let s ← takeRequests cfg s
  updateQueue cfg fuel timeStart s

/-- One iteration of the main loop, and what `or1ksim_run` returns if it stops there. -/
def iteration (cfg : Config) (fuel : ℕ) (i : Input) (s : LibSim) :
    Except Stop (Option Ret × LibSim) :=
  let timeStart := s.sim.cycles
  if i.breakpoint then
    -- `fetch` finds the breakpoint before it reads the instruction.
    let sim := { s.sim with exceptPending := false, nextDelayInsn := false }
    .ok (some sim.earlyRet, { s with sim := sim })
  else do
    let sim ← cpuClock cfg s.sim
    let sim := singleStep sim
    let s := { s with sim := sim, spent := s.spent + i.memCycles }
    if sim.stalled then .ok (some sim.earlyRet, s)
    else (finishIteration cfg fuel timeStart i.memCycles s).map fun s => (none, s)

/-- The loop of `or1ksim_run`: as many iterations as the duration allows. -/
def runLoop (cfg : Config) (fuel : ℕ) : List Input → LibSim → Except Stop (Ret × LibSim)
  | [], s => .ok (.ok, s)
  | i :: is, s => do
    let r ← iteration cfg fuel i s
    match r.1 with
    | some ret => .ok (ret, r.2)
    | none => runLoop cfg fuel is r.2

/-- `or1ksim_run`. -/
def or1ksimRun (cfg : Config) (fuel : ℕ) (is : List Input) (s : LibSim) :
    Except Stop (Ret × LibSim) :=
  if s.sim.stalled then .ok (s.sim.earlyRet, s) else runLoop cfg fuel is s

/-- A call of the library. -/
inductive LibEvent where
  | run (inputs : List Input)
  /-- The debug interface stalls or unstalls the processor. -/
  | setStallState (state : Bool)
  | interruptSet (i : Fin 32)
  | interruptClear (i : Fin 32)
deriving DecidableEq

/-- One call. -/
def LibEvent.exec (cfg : Config) (fuel : ℕ) (s : LibSim) : LibEvent → Except Stop LibSim
  | .run is => (or1ksimRun cfg fuel is s).map Prod.snd
  | .setStallState state => .ok { s with sim := s.sim.setStallState state }
  | .interruptSet i => .ok (or1ksimInterruptSet cfg s i)
  | .interruptClear i => .ok (or1ksimInterruptClear cfg s i)

/-- `or1ksim_init` leaves no requests. -/
def libStart (s : Sim) : LibSim := ⟨s, 0, 0, 0, 0, 0⟩

end Cpu
end Or1ksim
