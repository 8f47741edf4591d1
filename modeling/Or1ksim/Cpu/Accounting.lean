import Or1ksim.Cpu.Levels

/-!
# The cycles of the library

The main loop of the library adds the cycles of an instruction to `runtime.sim.cycles` and takes
what has passed off the head of the job queue, unless the instruction stalls the processor.

* `cycles_keeps` — instructions and jobs leave the clock alone;
* `Accounted` — the clock, the queue and the instructions agree on the cycles that have passed;
* `Loses` — an instruction that takes cycles stalls the processor or is stepped over;
* `accounted_iff` — **every cycle is accounted for** in exactly the runs without such instructions.
-/

namespace Or1ksim
namespace Cpu

open Bits Insn

/-! ### The clock -/

section Clock

variable {cfg : Config} {s t : Sim} {fuel : ℕ}

theorem setStallState_cycles (s : Sim) (state : Bool) :
    (s.setStallState state).cycles = s.cycles := by
  unfold Sim.setStallState
  split <;> rfl

theorem enterException_cycles (s : Sim) (e : Exception) (ea : Addr) :
    (enterException s e ea).cycles = s.cycles := by
  unfold enterException
  cases e <;> rfl

theorem exceptHandle_cycles (s : Sim) (e : Exception) (ea : Addr) :
    (exceptHandle s e ea).cycles = s.cycles := by
  have hdebug := (Quiet.debugIgnoreException s e).cycles
  unfold exceptHandle
  dsimp only
  split
  · exact hdebug
  · rw [enterException_cycles, hdebug]

theorem OnlySched.cycles (h : OnlySched s t) : t.cycles = s.cycles := by rw [h]

theorem OnlySched.stalled (h : OnlySched s t) : t.stalled = s.stalled := by rw [h]

theorem ttmrWritten_same (s : Sim) (value : Word) :
    (ttmrWritten s value).cycles = s.cycles ∧ (ttmrWritten s value).stalled = s.stalled := by
  unfold ttmrWritten
  dsimp only
  split <;> exact ⟨rfl, rfl⟩

theorem picIntsEn_same (h : picIntsEn s = .ok t) : t.cycles = s.cycles ∧ t.stalled = s.stalled := by
  obtain ⟨q, rfl⟩ := picIntsEn_eq_ok h
  exact ⟨rfl, rfl⟩

/-- A move leaves the clock alone, and the stall state too unless it prefetches. -/
theorem mtspr_same {regno : Regno} {value : Word} (h : mtspr cfg s regno value = .ok t) :
    t.cycles = s.cycles ∧
      (t.stalled = s.stalled ∨ regno = sprDCBPR ∨ regno = sprICBPR) := by
  cases mtspr_cases h with
  | ttcr hr h' =>
    subst hr
    have honly := schedTimerJob_onlySched h
    exact ⟨honly.cycles, .inl honly.stalled⟩
  | ttmr hr h' =>
    subst hr
    rw [mtspr_ttmr] at h
    have honly := schedTimerJob_onlySched h
    obtain ⟨hcycles, hstalled⟩ := ttmrWritten_same s value
    exact ⟨honly.cycles.trans hcycles, .inl (honly.stalled.trans hstalled)⟩
  | special hr =>
    rcases hr with rfl | rfl | rfl
    · rw [mtspr_sr] at h
      dsimp only at h
      split at h
      · have hsame := picIntsEn_same h
        exact ⟨hsame.1, .inl hsame.2⟩
      · cases h
        exact ⟨rfl, .inl rfl⟩
    · have hraw : mtspr cfg s sprPICSR value =
          .ok (if cfg.edgeTrigger then s.setSpr sprPICSR value
            else (s.setSpr sprPICSR value).setSpr sprPICSR (s.sprs sprPICSR)) := rfl
      rw [hraw] at h
      cases h
      split <;> exact ⟨rfl, .inl rfl⟩
    · rw [mtspr_picmr] at h
      dsimp only at h
      split at h
      · have hsame := picIntsEn_same h
        exact ⟨hsame.1, .inl hsame.2⟩
      · cases h
        exact ⟨rfl, .inl rfl⟩
  | prefetch pa hpa ht =>
    subst ht
    refine ⟨?_, .inr (hpa.imp And.left And.left)⟩
    change (evalsimMem (s.setSpr regno value) pa value .w4).2.cycles = _
    unfold evalsimMem
    split
    · rfl
    · exact exceptHandle_cycles _ _ _
  | plain _ _ _ _ _ hcycles hstalled => exact ⟨hcycles, .inl hstalled⟩

theorem mtspr_cycles {regno : Regno} {value : Word} (h : mtspr cfg s regno value = .ok t) :
    t.cycles = s.cycles := (mtspr_same h).1

theorem cycles_keeps (c : BitVec 64) : Keeps cfg fun s => s.cycles = c where
  calm h hs := h.cycles.trans hs
  enter hs := (enterException_cycles _ _ _).trans hs
  mtspr h hs := (mtspr_cycles h).trans hs

theorem reportInterrupt_cycles {line : Fin 32} (h : reportInterrupt cfg s line = .ok t) :
    t.cycles = s.cycles := by
  unfold reportInterrupt at h
  dsimp only at h
  split_ifs at h
  · cases h
    exact exceptHandle_cycles _ _ _
  · cases h
    rfl
  · cases h
    rfl
  · exact (OnlySched.of_withSched h).cycles
  · cases h
    rfl

theorem lineOp_cycles {op : LineOp} (h : op.exec cfg s = .ok t) : t.cycles = s.cycles := by
  cases op with
  | report line => exact reportInterrupt_cycles h
  | clear line =>
    cases h
    rfl

theorem job_cycles {job : Job} (h : job.exec cfg s = .ok t) : t.cycles = s.cycles := by
  cases job with
  | schedGuard => exact (OnlySched.of_withSched h).cycles
  | picRepInt =>
    cases h
    unfold picRepInt
    split
    · exact exceptHandle_cycles _ _ _
    · rfl
  | tickRaiseExcept =>
    obtain ⟨u, hu, h⟩ := Runs.bind_eq_ok_iff.1 h
    have hcycles : u.cycles = s.cycles := (OnlySched.of_withSched hu).cycles
    cases h
    split
    · exact (exceptHandle_cycles _ _ _).trans hcycles
    · exact hcycles
  | tickRestart => exact (OnlySched.of_withSched h).cycles
  | tickOneShot =>
    cases h
    rfl
  | device ops =>
    have hstep : ∀ (u : Sim) (op : LineOp) (v : Sim), u.cycles = s.cycles → True →
        op.exec cfg u = .ok v → v.cycles = s.cycles :=
      fun u op v hu _ h => (lineOp_cycles h).trans hu
    exact Runs.foldlM_invariant hstep rfl (Runs.along_of_forall (fun _ _ => trivial) s) h

theorem schedulerPass_cycles (h : schedulerPass cfg fuel s = .ok t) : t.cycles = s.cycles := by
  induction fuel generalizing s with
  | zero => cases h
  | succ fuel ih =>
    obtain ⟨u, hu, h⟩ := Runs.bind_eq_ok_iff.1 h
    obtain ⟨tmp, q, -, hexec⟩ := runJob_eq_ok hu
    have hcycles : u.cycles = { s with sched := q }.cycles := job_cycles hexec
    split at h
    · exact (ih h).trans hcycles
    · cases h
      exact hcycles

theorem runScheduler_cycles (h : runScheduler cfg fuel s = .ok t) : t.cycles = s.cycles := by
  unfold runScheduler at h
  split at h
  · exact schedulerPass_cycles h
  · cases h
    rfl

theorem singleStep_cycles (s : Sim) : (singleStep s).cycles = s.cycles := by
  unfold singleStep
  split
  · exact setStallState_cycles s true
  · rfl

end Clock

/-! ### Iterations -/

section Iteration

variable {cfg : Config} {fuel : ℕ} {s₀ : Sim} {s t : LibSim} {i : Input}

/-- The clock, the queue and the instructions agree on the cycles that have passed since `s₀`. -/
structure Accounted (s₀ : Sim) (s : LibSim) : Prop where
  /-- The head of the queue has been decremented by what the clock has advanced. -/
  charged : s.charged = s.advanced
  /-- The clock has advanced by nothing else. -/
  cycles : s.sim.cycles = s₀.cycles + BitVec.ofNat 64 s.advanced
  /-- Every instruction executed has advanced it by its cycles. -/
  advanced : s.advanced = s.spent

/-- The iteration executes an instruction that takes cycles, and leaves the processor stalled. -/
def Loses (cfg : Config) (i : Input) (s : LibSim) : Prop :=
  i.breakpoint = false ∧ i.memCycles.val ≠ 0 ∧
    ∃ t, cpuClock cfg s.sim = .ok t ∧ (singleStep t).stalled = true

theorem takeRequest_frame {c : BitVec 64} {a n : ℕ} {z : ℤ} {f : LibSim → ℕ → Except Stop LibSim}
    (hstep : ∀ {s t : LibSim} {k : ℕ}, f s k = .ok t →
      t.sim.cycles = s.sim.cycles ∧ t.advanced = s.advanced ∧ t.charged = s.charged ∧
        t.spent = s.spent)
    (hs : s.sim.cycles = c ∧ s.advanced = a ∧ s.charged = z ∧ s.spent = n) {ks : List ℕ}
    (h : ks.foldlM f s = .ok t) :
    t.sim.cycles = c ∧ t.advanced = a ∧ t.charged = z ∧ t.spent = n := by
  refine Runs.foldlM_invariant (C := fun _ _ => True)
    (P := fun s => s.sim.cycles = c ∧ s.advanced = a ∧ s.charged = z ∧ s.spent = n)
    (fun s k t hs _ h => ?_) hs (Runs.along_of_forall (fun _ _ => trivial) s) h
  obtain ⟨hcycles, hadvanced, hcharged, hspent⟩ := hstep h
  exact ⟨hcycles.trans hs.1, hadvanced.trans hs.2.1, hcharged.trans hs.2.2.1, hspent.trans hs.2.2.2⟩

theorem takeSet_frame {k : ℕ} (h : takeSet cfg s k = .ok t) :
    t.sim.cycles = s.sim.cycles ∧ t.advanced = s.advanced ∧ t.charged = s.charged ∧
      t.spent = s.spent := by
  unfold takeSet at h
  split_ifs at h
  · obtain ⟨sim, hsim, rfl⟩ := Runs.map_eq_ok_iff.1 h
    exact ⟨reportInterrupt_cycles hsim, rfl, rfl, rfl⟩
  · cases h
    exact ⟨rfl, rfl, rfl, rfl⟩

theorem takeClr_frame {k : ℕ} (h : takeClr s k = .ok t) :
    t.sim.cycles = s.sim.cycles ∧ t.advanced = s.advanced ∧ t.charged = s.charged ∧
      t.spent = s.spent := by
  unfold takeClr at h
  split_ifs at h
  all_goals
    cases h
    exact ⟨rfl, rfl, rfl, rfl⟩

theorem takeRequests_frame (h : takeRequests cfg s = .ok t) :
    t.sim.cycles = s.sim.cycles ∧ t.advanced = s.advanced ∧ t.charged = s.charged ∧
      t.spent = s.spent := by
  obtain ⟨u, hu, h⟩ := Runs.bind_eq_ok_iff.1 h
  have hsets : u.sim.cycles = s.sim.cycles ∧ u.advanced = s.advanced ∧ u.charged = s.charged ∧
      u.spent = s.spent := by
    unfold takeSets at hu
    split at hu
    · exact takeRequest_frame takeSet_frame ⟨rfl, rfl, rfl, rfl⟩ hu
    · cases hu
      exact ⟨rfl, rfl, rfl, rfl⟩
  unfold takeClrs at h
  split at h
  · exact takeRequest_frame takeClr_frame hsets h
  · cases h
    exact hsets

/-- Cycles of an `int`, as the loop computes them from the clock. -/
theorem toInt_elapsed (c : BitVec 64) {m : ℕ} (hm : m < 2 ^ 31) :
    (c + BitVec.ofNat 64 m - c).toInt = m := by
  rw [BitVec.add_comm, BitVec.add_sub_cancel, BitVec.toInt_eq_toNat_of_lt]
  · rw [BitVec.toNat_ofNat, Nat.mod_eq_of_lt (by omega)]
  · rw [BitVec.toNat_ofNat, Nat.mod_eq_of_lt (by omega)]
    omega

/-- The end of an iteration charges the clock and the queue alike. -/
theorem finishIteration_accounts {m : ℕ} (hm : m < 2 ^ 31)
    (h : finishIteration cfg fuel s.sim.cycles m s = .ok t) :
    t.sim.cycles = s.sim.cycles + BitVec.ofNat 64 m ∧ t.advanced = s.advanced + m ∧
      t.charged = s.charged + m ∧ t.spent = s.spent := by
  obtain ⟨u, hu, h⟩ := Runs.bind_eq_ok_iff.1 h
  obtain ⟨hcycles, hadvanced, hcharged, hspent⟩ := takeRequests_frame hu
  dsimp only at hcycles hadvanced hcharged hspent
  obtain ⟨v, hv, h⟩ := Runs.bind_eq_ok_iff.1 h
  obtain ⟨q, -, rfl⟩ := withSched_eq_ok hv
  obtain ⟨w, hw, h⟩ := Runs.bind_eq_ok_iff.1 h
  cases h
  have hpass := runScheduler_cycles hw
  refine ⟨hpass.trans hcycles, hadvanced, ?_, hspent⟩
  change u.charged + _ = _
  rw [hcharged, hcycles, toInt_elapsed _ hm]

theorem iteration_cases {r : Option Ret} (h : iteration cfg fuel i s = .ok (r, t)) :
    (i.breakpoint = true ∧ r ≠ none ∧ t.sim.cycles = s.sim.cycles ∧ t.advanced = s.advanced ∧
        t.charged = s.charged ∧ t.spent = s.spent) ∨
    (∃ u, i.breakpoint = false ∧ cpuClock cfg s.sim = .ok u ∧ (singleStep u).stalled = true ∧
        r ≠ none ∧ t.sim.cycles = s.sim.cycles ∧ t.advanced = s.advanced ∧
        t.charged = s.charged ∧ t.spent = s.spent + i.memCycles) ∨
    (∃ u, i.breakpoint = false ∧ cpuClock cfg s.sim = .ok u ∧ (singleStep u).stalled = false ∧
        r = none ∧ t.sim.cycles = s.sim.cycles + BitVec.ofNat 64 i.memCycles ∧
        t.advanced = s.advanced + i.memCycles ∧ t.charged = s.charged + (i.memCycles : ℕ) ∧
        t.spent = s.spent + i.memCycles) := by
  unfold iteration at h
  split at h
  case isTrue hbreak =>
    cases h
    exact .inl ⟨hbreak, Option.some_ne_none _, rfl, rfl, rfl, rfl⟩
  case isFalse hbreak =>
    rw [Bool.not_eq_true] at hbreak
    obtain ⟨u, hu, h⟩ := Runs.bind_eq_ok_iff.1 h
    have hcycles : (singleStep u).cycles = s.sim.cycles :=
      (singleStep_cycles u).trans (cpuClock_keeps (cycles_keeps _) rfl hu)
    dsimp only at h
    split at h
    case isTrue hstalled =>
      cases h
      exact .inr (.inl ⟨u, hbreak, hu, hstalled, Option.some_ne_none _, hcycles, rfl, rfl, rfl⟩)
    case isFalse hstalled =>
      rw [Bool.not_eq_true] at hstalled
      obtain ⟨t', h, ht⟩ := Runs.map_eq_ok_iff.1 h
      cases ht
      rw [← hcycles] at h ⊢
      obtain ⟨hclock, hadvanced, hcharged, hspent⟩ := finishIteration_accounts
        (s := { s with sim := singleStep u, spent := s.spent + i.memCycles }) i.memCycles.isLt h
      exact .inr (.inr ⟨u, hbreak, hu, hstalled, rfl, hclock, hadvanced, hcharged, hspent⟩)

/-- An iteration after which the loop goes on accounts for its cycles. -/
theorem iteration_accounted (hs : Accounted s₀ s) (h : iteration cfg fuel i s = .ok (none, t)) :
    Accounted s₀ t := by
  rcases iteration_cases h with ⟨-, hr, -⟩ | ⟨-, -, -, -, hr, -⟩ |
    ⟨-, -, -, -, -, hcycles, hadvanced, hcharged, hspent⟩
  · exact absurd rfl hr
  · exact absurd rfl hr
  · refine ⟨?_, ?_, ?_⟩
    · rw [hcharged, hadvanced, hs.charged, Nat.cast_add]
    · rw [hcycles, hadvanced, hs.cycles, BitVec.ofNat_add, BitVec.add_assoc]
    · rw [hadvanced, hspent, hs.advanced]

/-- An iteration that stops the loop accounts for its cycles unless it loses them. -/
theorem iteration_stops {r : Ret} (hs : Accounted s₀ s)
    (h : iteration cfg fuel i s = .ok (some r, t)) : Accounted s₀ t ↔ ¬Loses cfg i s := by
  rcases iteration_cases h with ⟨hbreak, -, hcycles, hadvanced, hcharged, hspent⟩ |
    ⟨u, hbreak, hu, hstalled, -, hcycles, hadvanced, hcharged, hspent⟩ | ⟨-, -, -, -, hr, -⟩
  · refine iff_of_true ⟨?_, ?_, ?_⟩ fun hloses => ?_
    · rw [hcharged, hadvanced, hs.charged]
    · rw [hcycles, hadvanced, hs.cycles]
    · rw [hadvanced, hspent, hs.advanced]
    · exact absurd (hloses.1.symm.trans hbreak) Bool.false_ne_true
  · constructor
    · -- The instruction has executed, and the clock stands still.
      rintro ht ⟨-, hm, -⟩
      have hspent' := ht.advanced
      rw [hadvanced, hspent, hs.advanced] at hspent'
      omega
    · intro hkeep
      have hm : i.memCycles.val = 0 := by
        by_contra hm
        exact hkeep ⟨hbreak, hm, u, hu, hstalled⟩
      refine ⟨?_, ?_, ?_⟩
      · rw [hcharged, hadvanced, hs.charged]
      · rw [hcycles, hadvanced, hs.cycles]
      · rw [hadvanced, hspent, hm, Nat.add_zero, hs.advanced]
  · cases hr

theorem iteration_of_loses (fuel : ℕ) (h : Loses cfg i s) :
    ∃ r t, iteration cfg fuel i s = .ok (some r, t) := by
  obtain ⟨hbreak, -, u, hu, hstalled⟩ := h
  unfold iteration
  rw [hbreak, hu]
  change ∃ r t, (if (singleStep u).stalled = true then _ else _) = _
  rw [if_pos hstalled]
  exact ⟨_, _, rfl⟩

end Iteration

/-! ### Calls -/

section Calls

variable {cfg : Config} {fuel : ℕ} {s₀ : Sim}

/-- No iteration of the loop loses its cycles. -/
def LoopKeeps (cfg : Config) (fuel : ℕ) : List Input → LibSim → Prop
  | [], _ => True
  | i :: is, s =>
    ¬Loses cfg i s ∧ ∀ t, iteration cfg fuel i s = .ok (none, t) → LoopKeeps cfg fuel is t

/-- No iteration of the call loses its cycles. -/
def LibEvent.Keeps (cfg : Config) (fuel : ℕ) (s : LibSim) : LibEvent → Prop
  | .run is => s.sim.stalled = false → LoopKeeps cfg fuel is s
  | _ => True

/-- The loop accounts for its cycles unless an iteration loses them. -/
theorem runLoop_accounted {is : List Input} {s : LibSim} (hs : Accounted s₀ s) :
    (∀ r t, runLoop cfg fuel is s = .ok (r, t) → Accounted s₀ t) ↔ LoopKeeps cfg fuel is s := by
  induction is generalizing s with
  | nil =>
    refine iff_of_true (fun r t h => ?_) trivial
    cases h
    exact hs
  | cons i is ih =>
    constructor
    · intro hall
      refine ⟨fun hloses => ?_, fun t ht => (ih (iteration_accounted hs ht)).1 fun r u hu => ?_⟩
      · obtain ⟨r, t, ht⟩ := iteration_of_loses fuel hloses
        have hstop := hall r t (Runs.bind_eq_ok_iff.2 ⟨_, ht, rfl⟩)
        exact (iteration_stops hs ht).1 hstop hloses
      · exact hall r u (Runs.bind_eq_ok_iff.2 ⟨_, ht, hu⟩)
    · rintro ⟨hkeep, hrest⟩ r t h
      obtain ⟨⟨stop, u⟩, hu, h⟩ := Runs.bind_eq_ok_iff.1 h
      cases stop with
      | some ret =>
        cases h
        exact (iteration_stops hs hu).2 hkeep
      | none => exact (ih (iteration_accounted hs hu)).2 (hrest u hu) r t h

theorem libStart_accounted (s₀ : Sim) : Accounted s₀ (libStart s₀) :=
  ⟨rfl, (BitVec.add_zero _).symm, rfl⟩

/-- A call accounts for the cycles unless an iteration of it loses them. -/
theorem exec_accounted (e : LibEvent) {s : LibSim} (hs : Accounted s₀ s) :
    (∀ t, e.exec cfg fuel s = .ok t → Accounted s₀ t) ↔ e.Keeps cfg fuel s := by
  cases e with
  | run is =>
    constructor
    · refine fun hall hstalled => (runLoop_accounted hs).1 fun r t h => hall t ?_
      refine Runs.map_eq_ok_iff.2 ⟨(r, t), ?_, rfl⟩
      rw [or1ksimRun, hstalled]
      exact h
    · intro hkeep t h
      obtain ⟨⟨r, u⟩, hu, rfl⟩ := Runs.map_eq_ok_iff.1 h
      unfold or1ksimRun at hu
      split at hu
      case isTrue =>
        cases hu
        exact hs
      case isFalse hrun =>
        exact (runLoop_accounted hs).2 (hkeep (Bool.eq_false_iff.2 hrun)) r u hu
  | setStallState state =>
    refine iff_of_true (fun t h => ?_) trivial
    cases h
    exact ⟨hs.charged, (setStallState_cycles _ _).trans hs.cycles, hs.advanced⟩
  | interruptSet i =>
    refine iff_of_true (fun t h => ?_) trivial
    cases h
    unfold or1ksimInterruptSet
    split <;> exact ⟨hs.charged, hs.cycles, hs.advanced⟩
  | interruptClear i =>
    refine iff_of_true (fun t h => ?_) trivial
    cases h
    unfold or1ksimInterruptClear
    split <;> exact ⟨hs.charged, hs.cycles, hs.advanced⟩

/-- **Every cycle is accounted for**: however the library is called, the clock, the queue and the
instructions agree after every call in exactly the runs in which no instruction that takes cycles
leaves the processor stalled. -/
theorem accounted_iff (cfg : Config) (fuel : ℕ) (s₀ : Sim) (es : List LibEvent) :
    (∀ pre, pre <+: es → ∀ t, pre.foldlM (LibEvent.exec cfg fuel) (libStart s₀) = .ok t →
        Accounted s₀ t) ↔
      Runs.Along (LibEvent.exec cfg fuel) (LibEvent.Keeps cfg fuel) (libStart s₀) es :=
  Runs.along_iff (fun _ e hs => exec_accounted e hs) (libStart_accounted s₀)

end Calls

/-! ### An exit -/

/-- The default configuration of the library. -/
def libraryConfig : Config := { defaultConfig with isLibrary := true }

/-- The row of `l.nop`. -/
def nopRow : Insn.Opcode := ⟨"l.nop", "K", "00 0x5  01--- ----- KKKK KKKK KKKK KKKK", .lNop⟩

/-- `l.nop 1`. -/
theorem decodeInsn_exit (haveUnsignedXori : Bool) :
    decodeInsn haveUnsignedXori 0x15000001#32 = some nopRow :=
  decodeInsn_eq_some_iff.2 ⟨List.mem_of_getElem? (i := 4) rfl, by decide⟩

/-- A program that exits at once. -/
def exitAtOnce : Memory := (Memory.flat fun _ => 0).setProgram32 0x100 0x15000001

/-- The processor as the exit leaves it. -/
def exited (s : Sim) : Sim :=
  { s with exceptPending := false, nextDelayInsn := false, halted := true }.setStallState true

theorem cpuClock_exit {cfg : Config} {s : Sim} (hlib : cfg.isLibrary = true)
    (hime : s.srBit srIME = false) (hmem : s.mem.evalsimMem s.pc .w4 = some 0x15000001#32) :
    cpuClock cfg s = .ok (updatePc (exited s)) := by
  have heffect : insnEffect cfg { s with exceptPending := false, nextDelayInsn := false } nopRow
      0x15000001#32 = .nop 1 := by
    have hparams : params { s with exceptPending := false, nextDelayInsn := false } nopRow
        0x15000001#32 = [.value 1] := rfl
    rw [insnEffect, hparams]
    rfl
  have hrepair : writeToReg nopRow = false := rfl
  rw [cpuClock_of_untranslated hime hmem (decodeInsn_exit _)]
  simp only [executeOpcode, heffect, hrepair, Effect.apply, nopService, hlib]
  rfl

/-- The cycle that the exit takes is not added to the clock. -/
theorem exit_loses :
    ∃ s₁ t, simReset libraryConfig (powerOn 0x601 0x8001 exitAtOnce) = .ok s₁ ∧
      or1ksimRun libraryConfig 0 [⟨false, 1⟩] (libStart s₁) = .ok (.halted, t) ∧
      ¬Accounted s₁ t := by
  obtain ⟨s₁, hreset, hs₁⟩ := simReset_powerOn libraryConfig 0x601 0x8001 exitAtOnce
  have hclock : cpuClock libraryConfig s₁ = .ok (updatePc (exited s₁)) :=
    cpuClock_exit rfl (by rw [Sim.srBit, hs₁.sr]; decide) (by rw [hs₁.mem, hs₁.pc]; decide)
  generalize hs₂ : updatePc (exited s₁) = s₂ at hclock
  have hdmr : s₂.sprs sprDMR1 = 0 := by
    rw [← hs₂, updatePc_sprs _ (by decide)]
    exact hs₁.dmr1
  have hstep : singleStep s₂ = s₂ := by
    rw [singleStep, hdmr]
    rfl
  have hstalled : s₂.stalled = true := hs₂ ▸ rfl
  have hhalted : s₂.halted = true := hs₂ ▸ rfl
  have hstop : iteration libraryConfig 0 ⟨false, 1⟩ (libStart s₁) =
      .ok (some .halted, { libStart s₁ with sim := s₂, spent := 1 }) := by
    have hclock' : cpuClock libraryConfig (libStart s₁).sim = .ok s₂ := hclock
    unfold iteration
    rw [hclock']
    change (if (singleStep s₂).stalled = true then _ else _) = _
    rw [hstep, if_pos hstalled, Sim.earlyRet, hhalted]
    rfl
  refine ⟨s₁, { libStart s₁ with sim := s₂, spent := 1 }, hreset, ?_, fun hacc => ?_⟩
  · rw [or1ksimRun, show (libStart s₁).sim.stalled = false from hs₁.stalled]
    exact Runs.bind_eq_ok_iff.2 ⟨_, hstop, rfl⟩
  · exact absurd hacc.advanced (show ¬(0 = 1) by decide)

end Cpu
end Or1ksim
