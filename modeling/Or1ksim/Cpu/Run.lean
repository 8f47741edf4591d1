import Or1ksim.Cpu.Execute
import Or1ksim.Lib.Runs

/-!
# Runs

* `powerOn` — the simulator before its first reset;
* `Event`, `Event.exec` — what happens in the main loop and around it: instructions, cycles charged
  to the scheduler, rounds of the scheduler, and requests of peripherals at any time;
* `exec` — a sequence of events; `Reachable` — the states such sequences lead to from a reset;
* `timerWritten` — a program that writes to the tick timer.
-/

namespace Or1ksim
namespace Cpu

open Bits Insn

/-- The registers as `init_defconfig` and the configuration leave them, with the units that are
present and the supervision register. -/
def initSprs (upr sr : Word) (r : Regno) : Word :=
  if r = sprSR then sr
  else if r = sprUPR then upr
  else if r = 2 then 0x20
  else 0

/-- The simulator before its first reset. -/
def powerOn (upr sr : Word) (mem : Memory) : Sim where
  reg _ := 0
  sprs := initSprs upr sr
  pc := 0
  pcnext := 0
  pcDelay := 0
  delayInsn := false
  nextDelayInsn := false
  exceptPending := false
  mem := mem
  sched :=
    { freeJobQueue := (List.range Sched.schedHeapSize).map fun i => ⟨i, 0, (), .schedGuard⟩
      jobQueue := [] }
  cycles := 0
  cycleCountAtTickStart := 0
  tickCounting := 0
  stalled := false
  halted := false
  npcNotValid := false
  randoms := 0

/-- The floating point operations of a processor that has none. -/
def noSoftfloat : Softfloat where
  add _ _ _ := (0, 0)
  sub _ _ _ := (0, 0)
  mul _ _ _ := (0, 0)
  div _ _ _ := (0, 0)
  rem _ _ _ := (0, 0)
  toInt _ _ := (0, 0)
  ofInt _ _ := (0, 0)
  eq _ _ := (false, 0)
  lt _ _ := (false, 0)
  le _ _ := (false, 0)
  isNan _ := false

/-- The default geometry of an MMU. -/
def defaultMmu : MmuConfig := ⟨1, 1, 8192, by decide, 0, by decide, rfl⟩

/-- The default configuration, with an interrupt controller. -/
def defaultConfig : Config where
  haveUnsignedXori := false
  hardfloat := false
  strictNpc := false
  isLibrary := false
  clkcyclePs := 4000
  picEnabled := true
  edgeTrigger := true
  useNmi := true
  pmEnabled := false
  dmmu := defaultMmu
  immu := defaultMmu
  softfloat := noSoftfloat
  random _ := 0

/-- What happens to the simulator. -/
inductive Event where
  /-- `cpu_clock`. -/
  | clock
  /-- The cycles of an instruction are charged to the scheduler. -/
  | charge (cycles : ℕ)
  /-- One round of `do_scheduler`, if its head is due. -/
  | job
  /-- A peripheral asserts or clears its line. -/
  | line (op : LineOp)
  /-- A peripheral queues a job. -/
  | queue (ops : List LineOp) (time : ℕ)
deriving DecidableEq, Repr

/-- One event. -/
def Event.exec (cfg : Config) (s : Sim) : Event → Except Stop Sim
  | .clock => cpuClock cfg s
  | .charge cycles => Cpu.charge s cycles
  | .job => if Sched.headDue s.sched then runJob cfg s else .ok s
  | .line op => op.exec cfg s
  | .queue ops time => s.schedAdd (.device ops) time

theorem runJob_eq_ok {cfg : Config} {s t : Sim} (h : runJob cfg s = .ok t) :
    ∃ tmp q, Sched.popJob s.sched = some (tmp, q) ∧
      tmp.func.exec cfg { s with sched := q } = .ok t := by
  unfold runJob at h
  split at h
  case h_1 tmp q hpop => exact ⟨tmp, q, hpop, h⟩
  case h_2 => cases h

/-- A round runs the job at the head of the queue, if one is due. -/
theorem Event.exec_job_cases {cfg : Config} {s t : Sim} (h : Event.exec cfg s .job = .ok t) :
    t = s ∨ ∃ tmp q, Sched.popJob s.sched = some (tmp, q) ∧
      tmp.func.exec cfg { s with sched := q } = .ok t := by
  unfold Event.exec at h
  dsimp only at h
  split at h
  · exact .inr (runJob_eq_ok h)
  · cases h
    exact .inl rfl

/-- A sequence of events. -/
def exec (cfg : Config) (s : Sim) (es : List Event) : Except Stop Sim :=
  es.foldlM (Event.exec cfg) s

/-- The states that events lead to from a reset, for any configured units and supervision register
and any program in memory. -/
def Reachable (cfg : Config) (s : Sim) : Prop :=
  ∃ upr sr mem s₁ es, simReset cfg (powerOn upr sr mem) = .ok s₁ ∧ exec cfg s₁ es = .ok s

/-! ### After a reset -/

/-- The scheduler after a reset from power on: the guard is the only job. -/
def resetSched : Sched.State Job Unit where
  freeJobQueue := (List.range' 1 (Sched.schedHeapSize - 1)).map fun i => ⟨i, 0, (), .schedGuard⟩
  jobQueue := [⟨0, Sched.schedTimeMax, (), .schedGuard⟩]

/-- What a reset from power on leaves. -/
structure AfterReset (cfg : Config) (w : Word) (M : Memory) (s : Sim) : Prop where
  mem : s.mem = M
  reg : s.reg = fun _ => 0
  pc : s.pc = exceptVector (entrySr w) .reset
  pcnext : s.pcnext = exceptVector w .reset + 4
  sr : s.sr = entrySr w
  esr : s.sprs sprESR = w
  epcr : s.sprs sprEPCR = 0
  dsr : s.sprs sprDSR = 0
  picmr : s.sprs sprPICMR = if cfg.useNmi then 3 else 0
  picsr : s.sprs sprPICSR = 0
  sched : s.sched = resetSched
  ttmr : s.sprs sprTTMR = 0
  ttcr : s.sprs sprTTCR = 0
  tickCounting : s.tickCounting = 0
  stalled : s.stalled = false
  dmr1 : s.sprs sprDMR1 = 0

theorem simReset_powerOn (cfg : Config) (upr sr : Word) (mem : Memory) :
    ∃ s, simReset cfg (powerOn upr sr mem) = .ok s ∧ AfterReset cfg sr mem s := by
  have hsched : Sched.schedReset .schedGuard () (powerOn upr sr mem).sched = some resetSched := rfl
  rw [simReset, hsched]
  refine ⟨_, rfl, ?_⟩
  constructor <;>
    simp [cpuReset, duReset, picReset, pmReset, tickReset, updatePc, exceptHandle, intercepted,
      debugIgnoreException, enterException, exceptEpcr, exceptVector, Sim.setSpr, Sim.setStallState,
      Sim.srBit, Sim.sr, powerOn, initSprs, sprDSR, sprSR, sprTTCR, sprTTMR, sprPICMR, sprPICSR,
      sprPMR, sprUPR, sprDRR, sprESR, sprEPCR, sprEEAR, sprPPC, sprDMR1]

/-! ### One instruction -/

theorem updatePc_sprs (s : Sim) {r : Regno} (hr : r ≠ sprPPC) :
    (updatePc s).sprs r = s.sprs r := Function.update_of_ne hr ..

theorem Mmu.off_of_disabled {m : Mmu} {s : Sim} (h : s.srBit m.enable = false) :
    m.off s = true := by
  simp [Mmu.off, h]

theorem fetch_of_untranslated {cfg : Config} {s : Sim} {insn : Word}
    (hime : s.srBit srIME = false) (hmem : s.mem.evalsimMem s.pc .w4 = some insn) :
    fetch cfg s = (insn, { s with exceptPending := false, nextDelayInsn := false }) := by
  have hoff : cfg.insnMmu.off { s with exceptPending := false, nextDelayInsn := false } = true :=
    Mmu.off_of_disabled hime
  simp [fetch, evalInsn, immuTranslate, Mmu.translate, hoff, evalsimMem, hmem]

theorem cpuClock_of_untranslated {cfg : Config} {s : Sim} {insn : Word} {o : Opcode}
    (hime : s.srBit srIME = false) (hmem : s.mem.evalsimMem s.pc .w4 = some insn)
    (hdec : decodeInsn cfg.haveUnsignedXori insn = some o) :
    cpuClock cfg s =
      (executeOpcode cfg { s with exceptPending := false, nextDelayInsn := false } o insn).map
        updatePc := by
  have hfetch : fetch cfg s = (insn, { s with exceptPending := false, nextDelayInsn := false }) :=
    fetch_of_untranslated hime hmem
  rw [cpuClock_of_fetched (by rw [hfetch]) (by rw [hfetch]; exact hdec), hfetch]

/-- `l.rfe`. -/
theorem cpuClock_rfe (cfg : Config) {s : Sim} (hime : s.srBit srIME = false)
    (hmem : s.mem.evalsimMem s.pc .w4 = some 0x24000000#32) :
    cpuClock cfg s =
      (mtspr cfg { s with
          exceptPending := false, nextDelayInsn := false, pcnext := s.sprs sprEPCR }
        sprSR (s.sprs sprESR)).map updatePc := by
  rw [cpuClock_of_untranslated hime hmem (decodeInsn_rfe _)]
  simp only [executeOpcode, insnEffect, rfeRow, effect, lRfe, Effect.apply]
  cases mtspr cfg _ sprSR (s.sprs sprESR) <;> rfl

theorem cpuClock_clearSr (cfg : Config) {s : Sim} (hime : s.srBit srIME = false)
    (hsm : s.srBit srSM = true) (hr0 : s.reg 0#5 = 0#32)
    (hmem : s.mem.evalsimMem s.pc .w4 = some 0xc0000011#32) :
    cpuClock cfg s =
      .ok (updatePc ({ s with exceptPending := false, nextDelayInsn := false }.setSpr sprSR
        (setBit 0 srFO))) := by
  have heffect : insnEffect cfg { s with exceptPending := false, nextDelayInsn := false }
      mtsprRow 0xc0000011#32 = .mtspr sprSR 0 := by
    have hparams : params { s with exceptPending := false, nextDelayInsn := false }
        mtsprRow 0xc0000011#32 = [.reg 0, .reg 0, .value 17] := rfl
    rw [insnEffect, hparams]
    simp only [mtsprRow, effect, lMtspr, view, List.getD_cons_zero, List.getD_cons_succ,
      Param.read]
    refine (if_pos hsm).trans ?_
    simp [hr0, sprSR]
  have hdst : writeToReg mtsprRow = false := rfl
  rw [cpuClock_of_untranslated hime hmem (decodeInsn_mtspr _)]
  simp only [executeOpcode, heffect, hdst, Effect.apply, mtspr_sr]
  rfl

/-! ### Programs that write the timer -/

/-- The row of `l.movhi`. -/
def movhiRow : Opcode :=
  ⟨"l.movhi", "rD,K", "00 0x6  DDDDD ----0 KKKK KKKK KKKK KKKK", .lMovhi⟩

/-- `l.movhi r1,0xe000`. -/
theorem decodeInsn_movhi (haveUnsignedXori : Bool) :
    decodeInsn haveUnsignedXori 0x1820e000#32 = some movhiRow :=
  decodeInsn_eq_some_iff.2 ⟨List.mem_of_getElem? (i := 5) rfl, by decide⟩

/-- `l.mtspr r0,r1,0x5000`. -/
theorem decodeInsn_mtsprTtmr (haveUnsignedXori : Bool) :
    decodeInsn haveUnsignedXori 0xc1400800#32 = some mtsprRow :=
  decodeInsn_eq_some_iff.2 ⟨mtsprRow_mem _, by decide⟩

/-- A program that turns on a continuous timer whose count matches: `l.movhi r1,0xe000` and
`l.mtspr r0,r1,0x5000`. -/
def stopTimer : Memory :=
  ((Memory.flat fun _ => 0).setProgram32 0x100 0x1820e000).setProgram32 0x104 0xc1400800

/-- `l.movhi` has set the first register. -/
def movhiDone (s : Sim) (v : Word) : Sim :=
  updatePc (({ s with exceptPending := false, nextDelayInsn := false }.setReg 1 v).setReg 0 0)

theorem cpuClock_movhiRow (cfg : Config) {s : Sim} {insn k : Word} (hime : s.srBit srIME = false)
    (hdec : decodeInsn cfg.haveUnsignedXori insn = some movhiRow)
    (hparams : ∀ s : Sim, params s movhiRow insn = [.reg 1, .value k])
    (hmem : s.mem.evalsimMem s.pc .w4 = some insn) :
    cpuClock cfg s =
      .ok (movhiDone s (k <<< 16)) := by
  have heffect : insnEffect cfg { s with exceptPending := false, nextDelayInsn := false }
      movhiRow insn = .set (k <<< 16) := by
    rw [insnEffect, hparams]
    simp only [movhiRow, effect, lMovhi, view, List.getD_cons_zero, List.getD_cons_succ, Param.read]
  have hdst : destination { s with exceptPending := false, nextDelayInsn := false } movhiRow
      insn = 1 := by
    rw [destination, hparams]
    rfl
  have hrepair : writeToReg movhiRow = true := rfl
  rw [cpuClock_of_untranslated hime hmem hdec]
  simp only [executeOpcode, heffect, hdst, hrepair, Effect.apply]
  rfl

theorem cpuClock_movhi (cfg : Config) {s : Sim} (hime : s.srBit srIME = false)
    (hmem : s.mem.evalsimMem s.pc .w4 = some 0x1820e000#32) :
    cpuClock cfg s =
      .ok (movhiDone s 0xe0000000) :=
  cpuClock_movhiRow cfg (k := 0xe000) hime (decodeInsn_movhi _) (fun _ => rfl) hmem

theorem cpuClock_mtsprTtmr (cfg : Config) {s : Sim} (hime : s.srBit srIME = false)
    (hsm : s.srBit srSM = true) (hr0 : s.reg 0 = 0)
    (hmem : s.mem.evalsimMem s.pc .w4 = some 0xc1400800#32) :
    cpuClock cfg s =
      (mtspr cfg { s with exceptPending := false, nextDelayInsn := false } sprTTMR
        (s.reg 1)).map updatePc := by
  have heffect : insnEffect cfg { s with exceptPending := false, nextDelayInsn := false }
      mtsprRow 0xc1400800#32 = .mtspr sprTTMR (s.reg 1) := by
    have hparams : params { s with exceptPending := false, nextDelayInsn := false }
        mtsprRow 0xc1400800#32 = [.reg 0, .reg 1, .value 0x5000] := rfl
    rw [insnEffect, hparams]
    simp only [mtsprRow, effect, lMtspr, view, List.getD_cons_zero, List.getD_cons_succ, Param.read]
    refine (if_pos hsm).trans ?_
    have hr0' : s.reg (BitVec.setWidth 5 (0 : Word)) = 0 := hr0
    have hregno : BitVec.setWidth 16 (0 ||| 20480 : Word) = sprTTMR := by decide
    rw [hr0', hregno]
    rfl
  have hdst : writeToReg mtsprRow = false := rfl
  rw [cpuClock_of_untranslated hime hmem (decodeInsn_mtsprTtmr _)]
  simp only [executeOpcode, heffect, hdst, Effect.apply]
  cases mtspr cfg { s with exceptPending := false, nextDelayInsn := false } sprTTMR (s.reg 1) <;>
    rfl

/-- After a reset, the program `l.movhi r1,k` and `l.mtspr r0,r1,0x5000` writes to `SPR_TTMR`. -/
theorem writeTimer_clocks {cfg : Config} {mem : Memory} {insn k : Word} {s₁ : Sim}
    (hfirst : mem.evalsimMem 0x100 .w4 = some insn)
    (hsecond : mem.evalsimMem 0x104 .w4 = some 0xc1400800#32)
    (hdec : decodeInsn cfg.haveUnsignedXori insn = some movhiRow)
    (hparams : ∀ s : Sim, params s movhiRow insn = [.reg 1, .value k])
    (hs₁ : AfterReset cfg 0x8001 mem s₁) :
    cpuClock cfg s₁ = .ok (movhiDone s₁ (k <<< 16)) ∧
      cpuClock cfg (movhiDone s₁ (k <<< 16)) =
        (mtspr cfg { movhiDone s₁ (k <<< 16) with exceptPending := false, nextDelayInsn := false }
          sprTTMR (k <<< 16)).map updatePc := by
  have hpc : s₁.pc = 0x100 := hs₁.pc.trans (by decide)
  have hpcnext : s₁.pcnext = 0x104 := hs₁.pcnext.trans (by decide)
  have hclock := cpuClock_movhiRow cfg (s := s₁) (by rw [Sim.srBit, hs₁.sr]; decide) hdec hparams
    (by rw [hs₁.mem, hpc, hfirst])
  have hsr : (movhiDone s₁ (k <<< 16)).sr = entrySr 0x8001 :=
    (updatePc_sprs _ (by decide)).trans hs₁.sr
  have hmem : (movhiDone s₁ (k <<< 16)).mem.evalsimMem (movhiDone s₁ (k <<< 16)).pc .w4 =
      some 0xc1400800#32 := by
    change s₁.mem.evalsimMem s₁.pcnext .w4 = _
    rw [hs₁.mem, hpcnext, hsecond]
  exact ⟨hclock, cpuClock_mtsprTtmr cfg (by rw [Sim.srBit, hsr]; decide)
    (by rw [Sim.srBit, hsr]; decide) rfl hmem⟩

/-- The simulator once such a program has run. -/
def timerWritten (cfg : Config) (mem : Memory) (k : Word) : Except Stop Sim := do
  let s ← simReset cfg (powerOn 0x601 0x8001 mem)
  let s := { movhiDone s (k <<< 16) with exceptPending := false, nextDelayInsn := false }
  (mtspr cfg s sprTTMR (k <<< 16)).map updatePc

theorem exists_reachable_of_any {cfg : Config} {mem : Memory} {insn k : Word} {es : List Event}
    {p : Sim → Bool} (hfirst : mem.evalsimMem 0x100 .w4 = some insn)
    (hsecond : mem.evalsimMem 0x104 .w4 = some 0xc1400800#32)
    (hdec : decodeInsn cfg.haveUnsignedXori insn = some movhiRow)
    (hparams : ∀ s : Sim, params s movhiRow insn = [.reg 1, .value k])
    (h : (timerWritten cfg mem k >>= fun s => exec cfg s es).toOption.any p = true) :
    ∃ t, Reachable cfg t ∧ p t = true := by
  obtain ⟨t, ht, hp⟩ := Runs.exists_ok_of_any h
  obtain ⟨s, hs, ht⟩ := Runs.bind_eq_ok_iff.1 ht
  obtain ⟨s₁, hreset, hs₁⟩ := simReset_powerOn cfg 0x601 0x8001 mem
  obtain ⟨hclock, hwrite⟩ := writeTimer_clocks hfirst hsecond hdec hparams hs₁
  rw [timerWritten, hreset] at hs
  have hrun : exec cfg s₁ (.clock :: .clock :: es) = .ok t := Runs.foldlM_cons_eq_ok_iff.2
    ⟨_, hclock, Runs.foldlM_cons_eq_ok_iff.2 ⟨s, hwrite.trans hs, ht⟩⟩
  exact ⟨t, ⟨0x601, 0x8001, mem, s₁, _, hreset, hrun⟩, hp⟩

end Cpu
end Or1ksim
