import Or1ksim.Cpu.Raises
import Or1ksim.Cpu.TickMatch
import Or1ksim.Debug.Watchpoints
import Or1ksim.Rsp.Registers

/-!
# Stalls

The main loop (`exec_main`) with the debug unit enabled and a debugger attached.

* `Command` — what the debugger asks for;
* `LoopEvent`, `LoopEvent.exec` — the main loop, one stage at a time, and what happens around it;
* `Persists` — a stall lasts until the debugger takes it back, and nothing runs meanwhile;
* `stall_persists` — it does, in a run without exceptions that take a stall back.
-/

namespace Or1ksim
namespace Cpu

open Bits Rsp

/-! ### The debugger -/

/-- What `rsp_continue_generic` and `rsp_step_generic` share. -/
def rspResume (s : Sim) (addr : Addr) (dmr1 : Word → Word) : Sim :=
  let s := setNpc s (addr.setWidth 64)
  let s := s.setSpr sprDRR 0
  let s := s.setSpr sprDMR2 (s.sprs sprDMR2 &&& ~~~dmr2WGB)
  let s := s.setSpr sprDMR1 (dmr1 (s.sprs sprDMR1))
  let s := s.setSpr sprDSR (setBit (s.sprs sprDSR) Exception.trap.dsrBit)
  s.setStallState false

/-- `rsp_continue_generic`. -/
def rspContinueGeneric (s : Sim) (addr : Addr) : Sim := rspResume s addr fun v => clearBit v dmr1ST

/-- `rsp_step_generic`. -/
def rspStepGeneric (s : Sim) (addr : Addr) : Sim := rspResume s addr fun v => setBit v dmr1ST

/-- A request of the debugger. -/
inductive Command where
  /-- RSP: continue. -/
  | continueAt (addr : Addr)
  /-- RSP: step. -/
  | stepAt (addr : Addr)
  /-- RSP: detach. -/
  | detach
  /-- A write to `RISCOP`, by whether its reset bit falls and its stall bit. -/
  | riscop (reset stall : Bool)
  /-- JTAG `WRITE_CONTROL`. -/
  | writeControl (reset stall : Bool)
  /-- RSP: a `P` or `G` packet; `stale` is what the stack has where `rsp_write_reg` scans to. -/
  | registers (data : Packet) (stale : List Char)
  /-- A write to a special purpose register. -/
  | writeSpr (regno : Regno) (value : Word)
  /-- A write to memory. -/
  | writeMem (a : Addr) (v : Byte)

/-- A request to unstall, or a reset, or any other write to the stall bit itself. -/
def Command.controls : Command → Bool
  | .continueAt _ | .stepAt _ | .detach | .riscop _ _ | .writeControl _ _ => true
  | .registers _ _ | .writeSpr _ _ | .writeMem _ _ => false

/-- One request. -/
def Command.exec (cfg : Config) (s : Sim) : Command → Except Stop Sim
  | .continueAt addr => .ok (rspContinueGeneric s addr)
  | .stepAt addr => .ok (rspStepGeneric s addr)
  | .detach => .ok (s.setStallState false)
  | .riscop reset stall =>
    (if reset then simReset cfg s else .ok s).map fun s => s.setStallState stall
  | .writeControl reset stall => if reset then simReset cfg s else .ok (s.setStallState stall)
  | .registers data stale => .ok (((rspRegisterRequest s data stale).map Prod.fst).getD s)
  | .writeSpr regno value => mtspr cfg s regno value
  | .writeMem a v => .ok { s with mem := s.mem.setProgram8 a v }

/-- The exceptions that a request raises. -/
def Command.raises (cfg : Config) (s : Sim) : Command → List Exception
  | .writeSpr regno value => mtsprRaises cfg s regno value
  | _ => []

/-! ### The main loop -/

/-- Where the main loop is in an iteration. -/
inductive Stage where
  /-- At the top. -/
  | top
  /-- An instruction has been executed, in so many cycles. -/
  | executed (memCycles : ℕ)
  /-- Single stepping has been looked at. -/
  | stepped (memCycles : ℕ)
  /-- In `do_scheduler`. -/
  | scheduling
deriving DecidableEq, Repr

/-- The simulator in its main loop.  The last two fields only observe it. -/
structure Loop where
  sim : Sim
  stage : Stage
  /-- The processor has been stalled at some time since the debugger last controlled it. -/
  held : Bool
  /-- An instruction has been executed meanwhile. -/
  ranHeld : Bool

/-- The main loop is entered. -/
def Loop.start (s : Sim) : Loop := ⟨s, .top, s.stalled, false⟩

/-- A stretch of code that raises the exceptions has led to the state. -/
def Loop.after (m : Loop) (es : List Exception) (t : Sim) : Loop :=
  { m with sim := t, held := m.held || stalledDuring m.sim es || t.stalled }

/-- What a peripheral's request raises: without an interrupt controller, an interrupt. -/
def lineRaises (cfg : Config) (s : Sim) : LineOp → List Exception
  | .report _ => if !cfg.picEnabled && s.srBit srIEE then [.int] else []
  | .clear _ => []

/-- What the requests of a device's job raise. -/
def deviceRaises (cfg : Config) : Sim → List LineOp → List Exception
  | _, [] => []
  | s, op :: ops =>
    lineRaises cfg s op ++
      match op.exec cfg s with
      | .ok t => deviceRaises cfg t ops
      | .error _ => []

/-- What a job raises. -/
def jobRaises (cfg : Config) (s : Sim) : Job → List Exception
  | .picRepInt => if s.sprs sprPICSR ≠ 0 then [.int] else []
  | .tickRaiseExcept => if s.srBit srTEE then [.tick] else []
  | .device ops => deviceRaises cfg s ops
  | .schedGuard | .tickRestart | .tickOneShot => []

/-- What a round of `do_scheduler` raises. -/
def roundRaises (cfg : Config) (s : Sim) : List Exception :=
  match Sched.popJob s.sched with
  | some (tmp, q) => jobRaises cfg { s with sched := q } tmp.func
  | none => []

/-- The main loop goes on by one stage. -/
def Loop.goOn (cfg : Config) (hits : Hits) (memCycles : ℕ) (m : Loop) : Except Stop Loop :=
  match m.stage with
  | .top =>
    -- "while (runtime.cpu.stalled)": the loop waits for the debugger.
    if m.sim.stalled then .ok m
    else (watchedClock cfg hits m.sim).map fun t =>
      { m.after (clockRaises cfg hits m.sim) t with
        stage := .executed memCycles
        ranHeld := m.ranHeld || m.held }
  | .executed n => .ok { m.after [] (singleStep m.sim) with stage := .stepped n }
  | .stepped n => (charge m.sim n).map fun t => { m.after [] t with stage := .scheduling }
  | .scheduling =>
    if Sched.headDue m.sim.sched then
      (runJob cfg m.sim).map fun t => m.after (roundRaises cfg m.sim) t
    else .ok { m with stage := .top }

/-- What happens in and around the main loop. -/
inductive LoopEvent where
  /-- The loop goes on; an instruction that it executes meets these watchpoints and takes so many
  cycles. -/
  | goOn (hits : Hits) (memCycles : ℕ)
  /-- The instruction has accessed a device, which asks something of the interrupt controller. -/
  | line (op : LineOp)
  /-- It has made a device queue a job. -/
  | queue (ops : List LineOp) (time : ℕ)
  /-- The debug unit has looked for the watchpoints that an access of the instruction matches. -/
  | watch (a : Access)
  /-- The debugger asks for something, at the top of the loop. -/
  | command (c : Command)

/-- One event; nothing happens if it does not fit the stage. -/
def LoopEvent.exec (cfg : Config) (m : Loop) : LoopEvent → Except Stop Loop
  | .goOn hits memCycles => m.goOn cfg hits memCycles
  | .line op =>
    match m.stage with
    | .executed _ => (op.exec cfg m.sim).map fun t => m.after (lineRaises cfg m.sim op) t
    | _ => .ok m
  | .queue ops time =>
    match m.stage with
    | .executed _ => (m.sim.schedAdd (.device ops) time).map fun t => m.after [] t
    | _ => .ok m
  | .watch a =>
    match m.stage with
    | .top | .executed _ => .ok (m.after [] (calculateWatchpoints m.sim a).1)
    | _ => .ok m
  | .command c =>
    match m.stage with
    | .top => (c.exec cfg m.sim).map fun t =>
      if c.controls then { m with sim := t, held := t.stalled }
      else m.after (c.raises cfg m.sim) t
    | _ => .ok m

/-- A stall lasts, and nothing is executed while it does. -/
structure Loop.Persists (m : Loop) : Prop where
  stalled : m.held = true → m.sim.stalled = true
  idle : m.ranHeld = false

/-- The event raises no exception that takes a stall back: none that the debug stop register lets
through while the processor is stalled or after one that it intercepts. -/
def LoopEvent.Spares (cfg : Config) (m : Loop) : LoopEvent → Prop
  | .goOn hits _ =>
    match m.stage with
    | .top => m.sim.stalled = false → Cpu.Spares m.sim (clockRaises cfg hits m.sim)
    | .scheduling => Sched.headDue m.sim.sched → Cpu.Spares m.sim (roundRaises cfg m.sim)
    | _ => True
  | .line op => ∀ n, m.stage = .executed n → Cpu.Spares m.sim (lineRaises cfg m.sim op)
  | .command c => m.stage = .top → Cpu.Spares m.sim (c.raises cfg m.sim)
  | .queue _ _ | .watch _ => True

/-! ### One event -/

section Events

variable {cfg : Config} {s t : Sim} {m m' : Loop}

theorem exceptHandle_dsr (s : Sim) (e : Exception) (ea : Addr) :
    (exceptHandle s e ea).sprs sprDSR = s.sprs sprDSR := by
  have hdebug := (Quiet.debugIgnoreException s e).sprs sprDSR (by decide)
  unfold exceptHandle
  dsimp only
  split
  · exact hdebug
  · rw [enterException_sprs _ e ea (by decide) (by decide) (by decide) (by decide), hdebug]

theorem reportInterrupt_follows {line : Fin 32} (h : reportInterrupt cfg s line = .ok t) :
    Follows s (lineRaises cfg s (.report line)) t ∧ t.sprs sprDSR = s.sprs sprDSR := by
  have hpmr : ∀ v, (s.setSpr sprPMR v).sprs sprDSR = s.sprs sprDSR := fun v =>
    Sim.setSpr_sprs_of_ne (by decide)
  have hpicsr : ∀ v w, ((s.setSpr sprPMR v).setSpr sprPICSR w).sprs sprDSR = s.sprs sprDSR :=
    fun v w => (Sim.setSpr_sprs_of_ne (by decide)).trans (hpmr v)
  have hsr : ∀ v, (s.setSpr sprPMR v).srBit srIEE = s.srBit srIEE := fun v => rfl
  unfold reportInterrupt at h
  unfold lineRaises
  dsimp only at h
  cases hpic : cfg.picEnabled with
  | false =>
    rw [hpic, Bool.not_false, if_pos rfl] at h
    cases h
    rw [hsr, Bool.not_false, Bool.true_and]
    cases s.srBit srIEE with
    | true =>
      exact ⟨(Follows.exceptHandle _ .int _).of_start (hpmr _) rfl,
        (exceptHandle_dsr _ .int _).trans (hpmr _)⟩
    | false => exact ⟨.of_stalled rfl, hpmr _⟩
  | true =>
    rw [hpic, Bool.not_true, if_neg Bool.false_ne_true] at h
    rw [Bool.not_true, Bool.false_and, if_neg Bool.false_ne_true]
    split at h
    · cases h
      exact ⟨.of_stalled rfl, hpmr _⟩
    · split at h
      · have honly := OnlySched.of_withSched h
        exact ⟨.of_stalled honly.stalled, (congrFun honly.sprs _).trans (hpicsr _ _)⟩
      · cases h
        exact ⟨.of_stalled rfl, hpicsr _ _⟩

theorem lineOp_follows {op : LineOp} (h : op.exec cfg s = .ok t) :
    Follows s (lineRaises cfg s op) t ∧ t.sprs sprDSR = s.sprs sprDSR := by
  cases op with
  | report line => exact reportInterrupt_follows h
  | clear line =>
    cases h
    exact ⟨.of_stalled rfl, Sim.setSpr_sprs_of_ne (by decide)⟩

theorem device_follows {ops : List LineOp} (h : ops.foldlM (LineOp.exec cfg) s = .ok t) :
    Follows s (deviceRaises cfg s ops) t := by
  induction ops generalizing s with
  | nil =>
    cases h
    exact .of_stalled rfl
  | cons op ops ih =>
    obtain ⟨u, hu, h⟩ := Runs.foldlM_cons_eq_ok_iff.1 h
    obtain ⟨hop, hdsr⟩ := lineOp_follows hu
    rw [deviceRaises, hu]
    exact hop.append hdsr (ih h)

theorem job_follows {job : Job} (h : job.exec cfg s = .ok t) :
    Follows s (jobRaises cfg s job) t := by
  cases job with
  | schedGuard => exact .of_stalled (OnlySched.of_withSched h).stalled
  | picRepInt =>
    cases h
    rw [jobRaises, picRepInt]
    split
    · exact .exceptHandle s .int _
    · exact .of_stalled rfl
  | tickRaiseExcept =>
    obtain ⟨u, hu, h⟩ := Runs.bind_eq_ok_iff.1 h
    have honly := OnlySched.of_withSched hu
    have hdsr : u.sprs sprDSR = s.sprs sprDSR :=
      (congrFun honly.sprs _).trans (Sim.setSpr_sprs_of_ne (by decide))
    have hsr : u.srBit srTEE = s.srBit srTEE := by
      rw [Sim.srBit, Sim.sr, honly.sprs]
      rfl
    cases h
    rw [jobRaises, ← hsr]
    split
    · exact (Follows.exceptHandle u .tick _).of_start hdsr honly.stalled
    · exact .of_stalled honly.stalled
  | tickRestart => exact .of_stalled (OnlySched.of_withSched h).stalled
  | tickOneShot =>
    cases h
    exact .of_stalled rfl
  | device ops => exact device_follows h

theorem runJob_follows (h : runJob cfg s = .ok t) : Follows s (roundRaises cfg s) t := by
  unfold runJob at h
  unfold roundRaises
  cases hpop : Sched.popJob s.sched with
  | none =>
    rw [hpop] at h
    cases h
  | some r =>
    rw [hpop] at h
    exact (job_follows h).of_start rfl rfl

theorem setNpc_stalled (s : Sim) (addr : BitVec 64) : (setNpc s addr).stalled = s.stalled := by
  unfold setNpc
  split <;> rfl

theorem rspWriteReg_stalled (s : Sim) (data : Packet) (stale : List Char) :
    (rspWriteReg s data stale).1.stalled = s.stalled := by
  unfold rspWriteReg
  split
  · rfl
  · dsimp only
    split_ifs
    case pos => rfl
    case pos => rfl
    case pos => exact setNpc_stalled s _
    all_goals rfl

theorem rspRegisterRequest_stalled (s : Sim) (data : Packet) (stale : List Char) :
    (((rspRegisterRequest s data stale).map Prod.fst).getD s).stalled = s.stalled := by
  unfold rspRegisterRequest
  split
  · exact rspWriteReg_stalled s _ stale
  · exact setNpc_stalled _ _
  · rfl

theorem command_follows {c : Command} (hc : c.controls = false) (h : c.exec cfg s = .ok t) :
    Follows s (c.raises cfg s) t := by
  cases c with
  | registers data stale =>
    cases h
    exact .of_stalled (rspRegisterRequest_stalled s data stale)
  | writeSpr regno value => exact mtspr_follows h
  | writeMem a v =>
    cases h
    exact .of_stalled rfl
  | continueAt addr => cases hc
  | stepAt addr => cases hc
  | detach => cases hc
  | riscop reset stall => cases hc
  | writeControl reset stall => cases hc

theorem singleStep_follows (s : Sim) : Follows s [] (singleStep s) := by
  unfold singleStep
  split
  · exact fun _ => rfl
  · exact .of_stalled rfl

theorem calculateWatchpoints_stalled (s : Sim) (a : Access) :
    (calculateWatchpoints s a).1.stalled = s.stalled := by
  unfold calculateWatchpoints watchpoints updateCounters
  split
  · rfl
  · dsimp only
    split <;> rfl

theorem spares_nil (s : Sim) : Spares s [] := List.pairwise_singleton ..

theorem Loop.Persists.after {es : List Exception} (hm : m.Persists) (hs : Spares m.sim es)
    (h : Follows m.sim es t) : (m.after es t).Persists := by
  refine ⟨fun hheld => ?_, hm.idle⟩
  rcases Bool.or_eq_true_iff.1 hheld with hheld | ht
  · refine h (stalledAfter_of_spares hs ?_)
    rcases Bool.or_eq_true_iff.1 hheld with hheld | hduring
    · rw [stalledDuring, hm.stalled hheld, Bool.true_or]
    · exact hduring
  · exact ht

theorem Loop.Persists.goOn {hits : Hits} {memCycles : ℕ} (hm : m.Persists)
    (hs : (LoopEvent.goOn hits memCycles).Spares cfg m) (h : m.goOn cfg hits memCycles = .ok m') :
    m'.Persists := by
  unfold Loop.goOn at h
  simp only [LoopEvent.Spares] at hs
  cases hstage : m.stage with
  | top =>
    simp only [hstage] at h hs
    split at h
    case isTrue =>
      cases h
      exact hm
    case isFalse hrunning =>
      rw [Bool.not_eq_true] at hrunning
      have hfree : m.held = false := by
        by_contra hheld
        rw [Bool.not_eq_false] at hheld
        exact Bool.false_ne_true (hrunning.symm.trans (hm.stalled hheld))
      obtain ⟨t, ht, rfl⟩ := Runs.map_eq_ok_iff.1 h
      refine ⟨(hm.after (hs hrunning) (watchedClock_follows ht)).stalled, ?_⟩
      rw [hm.idle, hfree, Bool.or_false]
  | executed n =>
    simp only [hstage] at h
    cases h
    obtain ⟨hstalled, hidle⟩ := hm.after (spares_nil _) (singleStep_follows m.sim)
    exact ⟨hstalled, hidle⟩
  | stepped n =>
    simp only [hstage] at h
    obtain ⟨t, ht, rfl⟩ := Runs.map_eq_ok_iff.1 h
    obtain ⟨hstalled, hidle⟩ :=
      hm.after (spares_nil _) (.of_stalled (OnlySched.of_withSched ht).stalled)
    exact ⟨hstalled, hidle⟩
  | scheduling =>
    simp only [hstage] at h hs
    split at h
    case isTrue hdue =>
      obtain ⟨t, ht, rfl⟩ := Runs.map_eq_ok_iff.1 h
      exact hm.after (hs hdue) (runJob_follows ht)
    case isFalse =>
      cases h
      exact ⟨hm.stalled, hm.idle⟩

/-- What the debugger asks for keeps a stall, unless it is about the stall itself. -/
theorem Loop.Persists.command {c : Command} (hm : m.Persists)
    (hs : (LoopEvent.command c).Spares cfg m) (h : (LoopEvent.command c).exec cfg m = .ok m') :
    m'.Persists := by
  simp only [LoopEvent.exec] at h
  cases hstage : m.stage with
  | top =>
    simp only [hstage] at h
    obtain ⟨t, ht, rfl⟩ := Runs.map_eq_ok_iff.1 h
    cases hc : c.controls with
    | true => exact ⟨fun hheld => hheld, hm.idle⟩
    | false => exact hm.after (hs hstage) (command_follows hc ht)
  | executed n | stepped n | scheduling =>
    simp only [hstage] at h
    cases h
    exact hm

theorem Loop.Persists.line {op : LineOp} (hm : m.Persists)
    (hs : (LoopEvent.line op).Spares cfg m) (h : (LoopEvent.line op).exec cfg m = .ok m') :
    m'.Persists := by
  simp only [LoopEvent.exec] at h
  cases hstage : m.stage with
  | executed n =>
    simp only [hstage] at h
    obtain ⟨t, ht, rfl⟩ := Runs.map_eq_ok_iff.1 h
    exact hm.after (hs n hstage) (lineOp_follows ht).1
  | top | stepped n | scheduling =>
    simp only [hstage] at h
    cases h
    exact hm

theorem LoopEvent.exec_persists {e : LoopEvent} (hm : m.Persists) (hs : e.Spares cfg m)
    (h : e.exec cfg m = .ok m') : m'.Persists := by
  cases e with
  | goOn hits memCycles => exact hm.goOn hs h
  | line op => exact hm.line hs h
  | command c => exact hm.command hs h
  | queue ops time =>
    simp only [LoopEvent.exec] at h
    split at h
    · obtain ⟨t, ht, rfl⟩ := Runs.map_eq_ok_iff.1 h
      exact hm.after (spares_nil _) (.of_stalled (OnlySched.of_withSched ht).stalled)
    · cases h
      exact hm
  | watch a =>
    have hstalled := calculateWatchpoints_stalled m.sim a
    simp only [LoopEvent.exec] at h
    split at h
    · cases h
      exact hm.after (spares_nil _) (.of_stalled hstalled)
    · cases h
      exact hm.after (spares_nil _) (.of_stalled hstalled)
    · cases h
      exact hm

end Events

/-- Whether an event takes a stall back can be computed. -/
instance decidableSpares (cfg : Config) (m : Loop) : (e : LoopEvent) → Decidable (e.Spares cfg m)
  | .goOn hits n => by
    unfold LoopEvent.Spares
    cases m.stage <;> infer_instance
  | .line op =>
    match h : m.stage with
    | .executed n =>
      decidable_of_iff (Spares m.sim (lineRaises cfg m.sim op))
        ⟨fun hs _ _ => hs, fun hs => hs n h⟩
    | .top | .stepped _ | .scheduling => isTrue fun n hn => by rw [h] at hn; cases hn
  | .command c => inferInstanceAs (Decidable (_ → _))
  | .queue _ _ | .watch _ => isTrue trivial

/-- **A stall persists** in every state of a run none of whose events raises an exception that takes
a stall back. -/
theorem stall_persists (cfg : Config) (s : Sim) {es : List LoopEvent}
    (hs : Runs.Along (LoopEvent.exec cfg) (fun m e => e.Spares cfg m) (.start s) es) :
    ∀ pre, pre <+: es → ∀ m, pre.foldlM (LoopEvent.exec cfg) (.start s) = .ok m → m.Persists := by
  intro pre hpre m h
  refine Runs.foldlM_invariant (fun _ _ _ hm hs h => LoopEvent.exec_persists hm hs h) ?_
    (hs.of_prefix hpre) h
  exact ⟨fun hheld => hheld, rfl⟩

/-! ### Runs -/

/-- The debugger resets the processor, stalls it and lets it run into a watchpoint. -/
def watchpointRun : List LoopEvent :=
  .command (.riscop true true) :: .command (.continueAt 0x100) ::
    List.replicate 6 (.goOn ⟨true, false⟩ 3)

theorem stall_persists_watchpoint :
    ∃ m, watchpointRun.foldlM (LoopEvent.exec defaultConfig)
      (.start (powerOn 0x601 0x8001 stopTimer)) = .ok m ∧ m.held = true ∧ m.Persists := by
  obtain ⟨m, hm, hheld⟩ := Runs.exists_ok_of_any (p := Loop.held)
    (x := watchpointRun.foldlM (LoopEvent.exec defaultConfig)
      (.start (powerOn 0x601 0x8001 stopTimer))) (by decide)
  exact ⟨m, hm, hheld, stall_persists defaultConfig (powerOn 0x601 0x8001 stopTimer)
    (by decide) watchpointRun (List.prefix_refl _) m hm⟩

theorem goOn_movhi (cfg : Config) {m : Loop} (n : ℕ) (hstage : m.stage = .top)
    (hstalled : m.sim.stalled = false) (hime : m.sim.srBit srIME = false)
    (hmem : m.sim.mem.evalsimMem m.sim.pc .w4 = some 0x1820e000#32) :
    ∃ b r, m.goOn cfg ⟨false, false⟩ n = .ok ⟨movhiDone m.sim 0xe0000000, .executed n, b, r⟩ := by
  have hclock : watchedClock cfg ⟨false, false⟩ m.sim = .ok (movhiDone m.sim 0xe0000000) := by
    rw [watchedClock_of_no_hits, cpuClock_movhi cfg hime hmem]
  refine ⟨m.held || stalledDuring m.sim (clockRaises cfg ⟨false, false⟩ m.sim) ||
    (movhiDone m.sim 0xe0000000).stalled, m.ranHeld || m.held, ?_⟩
  rw [Loop.goOn, hstage]
  dsimp only
  rw [hstalled, if_neg Bool.false_ne_true, hclock]
  rfl

/-- The debugger turns on the tick timer and steps. -/
def tickSetup : List LoopEvent :=
  [.command (.riscop true true), .command (.writeSpr sprSR 0x8003),
    .command (.writeSpr sprTTMR 0x60000001), .command (.stepAt 0x100)]

/-- The stages after an instruction, to the first job. -/
def restOfIteration : List LoopEvent := List.replicate 3 (.goOn ⟨false, false⟩ 1)

/-- The processor has been stalled and is not any more. -/
def Loop.lost (m : Loop) : Bool := m.held && !m.sim.stalled

/-- The debugger steps over an instruction in whose iteration the tick timer expires. -/
def stepIntoTick : List LoopEvent :=
  tickSetup ++ .goOn ⟨false, false⟩ 1 :: restOfIteration

/-- The tick exception takes back the stall of the single step. -/
theorem stall_lost_to_tick :
    ∃ m, stepIntoTick.foldlM (LoopEvent.exec defaultConfig)
      (.start (powerOn 0x601 0x8001 stopTimer)) = .ok m ∧ ¬m.Persists := by
  have hsetup : (tickSetup.foldlM (LoopEvent.exec defaultConfig)
      (.start (powerOn 0x601 0x8001 stopTimer))).toOption.any (fun m =>
        decide (m.stage = .top) && !m.sim.stalled && !m.sim.srBit srIME &&
          decide (m.sim.mem.evalsimMem m.sim.pc .w4 = some 0x1820e000#32) &&
          decide (∀ b r : Bool, (restOfIteration.foldlM (LoopEvent.exec defaultConfig)
            ⟨movhiDone m.sim 0xe0000000, .executed 1, b, r⟩).toOption.any Loop.lost = true)) =
      true := by
    decide
  obtain ⟨m, hm, hcheck⟩ := Runs.exists_ok_of_any hsetup
  simp only [Bool.and_eq_true, decide_eq_true_eq, Bool.not_eq_true'] at hcheck
  obtain ⟨⟨⟨⟨hstage, hstalled⟩, hime⟩, hmem⟩, hrest⟩ := hcheck
  obtain ⟨b, r, hclock⟩ := goOn_movhi defaultConfig 1 hstage hstalled hime hmem
  obtain ⟨m', hm', hlost⟩ := Runs.exists_ok_of_any (hrest b r)
  refine ⟨m', Runs.foldlM_append_eq_ok_iff.2 ⟨m, hm, ?_⟩, fun hpersists => ?_⟩
  · exact Runs.foldlM_cons_eq_ok_iff.2 ⟨_, hclock, hm'⟩
  · rw [Loop.lost, Bool.and_eq_true] at hlost
    rw [hpersists.stalled hlost.1] at hlost
    exact Bool.false_ne_true hlost.2

end Cpu
end Or1ksim
