import Or1ksim.Memory.Simmem

/-!
# The profiling utility

`profiler.c`: reads back a trace of the calls and returns of a program, and sums up the time spent
in each of its functions.

* `Frame`, `Func`, `State` — the functions that are running, the totals, and the rest of the
globals;
* `Record` — a line of the trace;
* `closeFrame`, `closeFrames` — a return closes a frame, and what is above it;
* `exec`, `profAcquire` — the loop over the records.

An `unsigned int` has 32 bits and a `long` 64.
-/

namespace Or1ksim
namespace Profiler

/-- `MAX_FUNCS` -/
def maxFuncs : ℕ := 8192

/-- `MAX_STACK` -/
def maxStack : ℕ := 262144

/-- The size of a `name`, which ends with a zero. -/
def maxName : ℕ := 33

/-! ### Data -/

/-- `struct stack_struct` -/
structure Frame where
  addr : Word
  /-- The start of the function; the time of those it calls is added later. -/
  cycles : Word
  raddr : Word
  name : List Byte
deriving DecidableEq

/-- `struct func_struct` -/
structure Func where
  addr : Word
  name : List Byte
  cumCycles : ℤ
  calls : ℕ
deriving DecidableEq

/-- What goes to `stderr`. -/
inductive Warning where
  | negativeTime (name : List Byte) (raddr : Word)
  | misaligned (name : List Byte) (raddr : Word) (found : List Byte) (foundRaddr : Word)
  | notFound (raddr : Word)
deriving DecidableEq

/-- An array is too small. -/
inductive Overflow where
  | stack
  | funcs
  | name
deriving DecidableEq

/-- The globals, with a record of what is charged. -/
structure State where
  /-- `stack` as far as it is in use, the last frame first. -/
  stack : List Frame
  funcs : List Func
  /-- `prof_cycles`, the bits of the last stamp. -/
  cycles : Word
  /-- `maxstack` -/
  maxDepth : ℕ
  ntotcalls : ℕ
  nfunccalls : ℕ
  warnings : List Warning
  /-- The times charged so far and the functions they are charged to, the latest first. -/
  charges : List (Word × ℤ)
deriving DecidableEq

/-- The globals of a program that starts. -/
def State.init : State := ⟨[], [], 0, 0, 0, 0, [], []⟩

/-- `prof_set` -/
structure Mode where
  quiet : Bool
  cumulative : Bool
deriving DecidableEq

/-- A line of the trace. -/
inductive Record where
  /-- `+` -/
  | call (cycles raddr addr : Word) (name : List Byte)
  /-- `-` -/
  | ret (cycles raddr : Word)
deriving DecidableEq

/-- The stamp of a record. -/
def Record.cycles : Record → Word
  | .call cycles _ _ _ => cycles
  | .ret cycles _ => cycles

/-! ### Charging -/

/-- `time = s.cycles - stack[nstack].cycles`: an `unsigned int` in a `long`. -/
def selfTime (now start : Word) : ℤ := ((now - start).setWidth 64).toInt

/-- `stack[j].cycles += time` -/
def Frame.shift (time : ℤ) (f : Frame) : Frame :=
  { f with cycles := f.cycles + BitVec.ofInt 32 time }

/-- The function of a frame is charged: the first entry with its address, or a new one. -/
def chargeFunc (f : Frame) (time : ℤ) : List Func → List Func
  | [] => [⟨f.addr, f.name, time, 1⟩]
  | g :: gs =>
    if f.addr = g.addr then { g with cumCycles := g.cumCycles + time, calls := g.calls + 1 } :: gs
    else g :: chargeFunc f time gs

/-- A warning is given unless they are not wanted. -/
def State.warn (m : Mode) (w : Warning) (s : State) : State :=
  if m.quiet then s else { s with warnings := w :: s.warnings }

/-- The time to charge: a negative one is not believed, but if there are no warnings. -/
def chargedTime (m : Mode) (time : ℤ) : ℤ := if !m.quiet ∧ time < 0 then 0 else time

/-- The warnings about a frame that is closed because `found` has returned, with `above` frames left
to be closed down to that. -/
def closeWarnings (m : Mode) (now : Word) (found f : Frame) (above : ℕ) (s : State) : State :=
  let s := if selfTime now f.cycles < 0 then s.warn m (.negativeTime found.name found.raddr) else s
  if above ≠ 0 then s.warn m (.misaligned f.name f.raddr found.name found.raddr) else s

/-- The last frame is closed at `now`. -/
def closeFrame (m : Mode) (now : Word) (found : Frame) (above : ℕ) (s : State) :
    Except Overflow State :=
  match s.stack with
  | [] => .ok s
  | f :: below =>
    let s := closeWarnings m now found f above s
    let time := chargedTime m (selfTime now f.cycles)
    let funcs := chargeFunc f time s.funcs
    if funcs.length ≤ maxFuncs then
      .ok { s with
        stack := if m.cumulative then below else below.map (Frame.shift time)
        funcs
        nfunccalls := s.nfunccalls + 1
        charges := (f.addr, time) :: s.charges }
    else .error .funcs

/-- The last `n` frames are closed. -/
def closeFrames (m : Mode) (now : Word) (found : Frame) : ℕ → State → Except Overflow State
  | 0, s => .ok s
  | n + 1, s => closeFrame m now found n s >>= closeFrames m now found n

/-- One record. -/
def exec (m : Mode) (s : State) : Record → Except Overflow State
  | .call cycles raddr addr name =>
    if maxStack ≤ s.stack.length then .error .stack
    else if maxName ≤ name.length then .error .name
    else .ok { s with
      stack := ⟨addr, cycles, raddr, name⟩ :: s.stack
      cycles
      maxDepth := max s.maxDepth (s.stack.length + 1)
      ntotcalls := s.ntotcalls + 1 }
  | .ret cycles raddr =>
    let s := { s with cycles }
    -- The last frame with this return address is looked for.
    match s.stack.dropWhile (·.raddr ≠ raddr) with
    | found :: below => closeFrames m cycles found (s.stack.length - below.length) s
    | [] => .ok (s.warn m (.notFound raddr))

/-- The record loop of `prof_acquire`. -/
def profAcquire (m : Mode) (s : State) (records : List Record) : Except Overflow State :=
  records.foldlM (exec m) s

end Profiler
end Or1ksim
