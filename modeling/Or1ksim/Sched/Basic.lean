import Mathlib.Data.List.Range
import Or1ksim.Lib.DeltaQueue

/-!
# The job scheduler

`support/sched.c`: a queue of jobs with relative times and a list of free cells, both threaded
through the same 128 cells.  A function is `none` where the source has no defined behaviour: it
follows a null pointer (an empty queue or free list) or an `int32_t` sum overflows.

* `schedInit`, `schedReset`, `schedGuard` — the guard job keeps the queue from emptying;
* `schedAdd`, `schedFindRemove`, `schedNextInsn` — queueing and withdrawing jobs;
* `popJob`, `doScheduler` — running the jobs that are due.
-/

namespace Or1ksim
namespace Sched

variable {F P : Type}

/-- `SCHED_HEAP_SIZE`. -/
def schedHeapSize : ℕ := 128

/-- `SCHED_TIME_MAX`. -/
def schedTimeMax : ℤ := 2 ^ 31 - 1

/-- An `int32_t` result: defined only in range. -/
def int32 (x : ℤ) : Option ℤ := if -2 ^ 31 ≤ x ∧ x < 2 ^ 31 then some x else none

/-- A cell of the scheduler (`struct sched_entry`).  Free cells keep their stale contents. -/
structure Entry (F P : Type) where
  /-- Which allocated cell this is. -/
  cell : ℕ
  /-- Clock cycles after the job before it. -/
  time : ℤ
  /-- Parameter to pass to the function. -/
  param : P
  /-- Function to call when the time reaches zero. -/
  func : F
deriving DecidableEq

/-- The scheduler (`struct scheduler_struct`): the two lists, head first. -/
structure State (F P : Type) where
  /-- Free cells. -/
  freeJobQueue : List (Entry F P)
  /-- Queued jobs. -/
  jobQueue : List (Entry F P)

/-! ### Queueing a job -/

/-- `cur ? cur->time : 0`. -/
def timeOf : List (Entry F P) → ℤ
  | [] => 0
  | cur :: _ => cur.time

/-- `if(cur) alltime += cur->time`. -/
def accTime (alltime : ℤ) : List (Entry F P) → Option ℤ
  | [] => some alltime
  | cur :: _ => int32 (alltime + cur.time)

/-- The search loop of `sched_add`: the jobs passed, the jobs from `cur` on and `alltime`. -/
def addWalk (jobTime : ℤ) :
    List (Entry F P) → ℤ → Option (List (Entry F P) × List (Entry F P) × ℤ)
  | [], alltime => some ([], [], alltime)
  | cur :: rest, alltime =>
    if alltime < jobTime then do
      let alltime ← accTime alltime rest
      let (pre, post, alltime) ← addWalk jobTime rest alltime
      return (cur :: pre, post, alltime)
    else some ([], cur :: rest, alltime)

/-- The stored time of the new job, before `cur` (the head of `post`) is adjusted. -/
def newJobTime (jobTime alltime : ℤ) (pre post : List (Entry F P)) : Option ℤ :=
  match pre with
  | _ :: _ => do
    let before ← int32 (alltime - timeOf post)
    int32 (jobTime - before)
  | [] => if 0 ≤ jobTime then some jobTime else post.head?.map Entry.time

/-- `cur->time -= new_job->time`, when there is a job behind the new one. -/
def adjustNext (k : ℤ) : List (Entry F P) → Option (List (Entry F P))
  | [] => some []
  | cur :: rest => (int32 (cur.time + k)).map fun t => { cur with time := t } :: rest

/-- `sched_add`. -/
def schedAdd (s : State F P) (jobFunc : F) (jobParam : P) (jobTime : ℤ) : Option (State F P) :=
  match s.jobQueue, s.freeJobQueue with
  | head :: rest, new :: free => do
    let (pre, post, alltime) ← addWalk jobTime (head :: rest) head.time
    let time ← newJobTime jobTime alltime pre post
    let post ← adjustNext (-time) post
    return { freeJobQueue := free
             jobQueue :=
               pre ++ { new with time := time, param := jobParam, func := jobFunc } :: post }
  | _, _ => none

/-! ### Initialisation -/

/-- `sched_guard`: requeue the guard, or make it the only job of an empty queue.  The parameter of
the latter is whatever the cell held. -/
def schedGuard (guard : F) (s : State F P) (dat : P) : Option (State F P) :=
  match s.jobQueue, s.freeJobQueue with
  | _ :: _, _ => schedAdd s guard dat schedTimeMax
  | [], new :: free =>
    some { freeJobQueue := free, jobQueue := [{ new with func := guard, time := schedTimeMax }] }
  | [], [] => none

/-- `sched_reset`: put every job on the free list and queue the guard. -/
def schedReset (guard : F) (null : P) (s : State F P) : Option (State F P) :=
  schedGuard guard { freeJobQueue := s.jobQueue.reverse ++ s.freeJobQueue, jobQueue := [] } null

/-- `sched_init`: allocate the cells, last first.  `junk` is what the fresh cells hold. -/
def schedInit (guard : F) (null : P) (junk : ℕ → ℤ × P × F) : Option (State F P) :=
  schedGuard guard
    { freeJobQueue := (List.range schedHeapSize).reverse.map fun i =>
        ⟨i, (junk i).1, (junk i).2.1, (junk i).2.2⟩
      jobQueue := [] } null

/-! ### Withdrawing a job -/

section Remove

variable [DecidableEq F] [DecidableEq P]

/-- The search loop of `sched_find_remove`: the first matching job and the jobs around it. -/
def findJob (jobFunc : F) (dat : P) :
    List (Entry F P) → Option (List (Entry F P) × Entry F P × List (Entry F P))
  | [] => none
  | cur :: rest =>
    if cur.func = jobFunc ∧ cur.param = dat then some ([], cur, rest)
    else (findJob jobFunc dat rest).map fun r => (cur :: r.1, r.2)

/-- `sched_find_remove`. -/
def schedFindRemove (s : State F P) (jobFunc : F) (dat : P) : Option (State F P) :=
  match findJob jobFunc dat s.jobQueue with
  | none => some s
  | some (pre, cur, post) =>
    (adjustNext cur.time post).map fun post =>
      { freeJobQueue := cur :: s.freeJobQueue, jobQueue := pre ++ post }

end Remove

/-- The search loop of `sched_next_insn`. -/
def nextInsnCycles : List (Entry F P) → ℤ → Option ℤ
  | [], cycles => some cycles
  | cur :: rest, cycles =>
    if cur.time < 0 then (int32 (cycles - cur.time)).bind (nextInsnCycles rest) else some cycles

/-- `sched_next_insn`: queue a job to run after the next instruction. -/
def schedNextInsn (s : State F P) (func : F) (dat : P) : Option (State F P) :=
  (nextInsnCycles s.jobQueue 1).bind (schedAdd s func dat)

/-! ### Running jobs -/

/-- The part of the `do_scheduler` loop before the call: free the head and let the next job carry
its time. -/
def popJob (s : State F P) : Option (Entry F P × State F P) :=
  match s.jobQueue with
  | tmp :: next :: rest =>
    (int32 (next.time + tmp.time)).map fun t =>
      (tmp, { freeJobQueue := tmp :: s.freeJobQueue, jobQueue := { next with time := t } :: rest })
  | _ => none

/-- The main loops charge the cycles of an instruction to the head of the queue. -/
def charge (s : State F P) (cycles : ℤ) : Option (State F P) :=
  match s.jobQueue with
  | head :: rest =>
    (int32 (head.time - cycles)).map fun t => { s with jobQueue := { head with time := t } :: rest }
  | [] => none

/-- The head is due. -/
def headDue (s : State F P) : Bool :=
  match s.jobQueue with
  | head :: _ => decide (head.time ≤ 0)
  | [] => false

/-- What a job may ask of the scheduler while it runs. -/
inductive Op (F P : Type) where
  | add (func : F) (param : P) (time : ℤ)
  | remove (func : F) (param : P)

variable [DecidableEq F] [DecidableEq P]

/-- One scheduler call of a running job. -/
def Op.exec (s : State F P) : Op F P → Option (State F P)
  | .add f p t => schedAdd s f p t
  | .remove f p => schedFindRemove s f p

/-- The scheduler calls of a running job, in order. -/
def execOps (s : State F P) : List (Op F P) → Option (State F P)
  | [] => some s
  | op :: ops => (op.exec s).bind fun s => execOps s ops

/-- `do_scheduler`, with at most `fuel` rounds, and the jobs it ran.  `call` is what the jobs do:
from the rest of the simulator's state and the scheduler, a new state and the scheduler calls made
on the way. -/
def doScheduler {X : Type} (call : X → State F P → F → P → X × List (Op F P)) :
    ℕ → X → State F P → Option (X × State F P × List (Entry F P))
  | 0, _, _ => none
  | fuel + 1, x, s => do
    let (tmp, s) ← popJob s
    let (x, ops) := call x s tmp.func tmp.param
    let s ← execOps s ops
    -- The loop condition reads the head, so the queue must not be empty here either.
    if s.jobQueue = [] then none
    else if headDue s then
      let (x, s, ran) ← doScheduler call fuel x s
      return (x, s, tmp :: ran)
    else return (x, s, [tmp])

end Sched
end Or1ksim
