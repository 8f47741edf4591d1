import Or1ksim.Cpu.Mmu

/-!
# Special purpose registers with side effects

* `reportInterrupt`, `clearInterrupt`, `picIntsEn`, `picRepInt` — the interrupt controller
  (`pic/pic.c`);
* `sprWriteTtcr`, `sprWriteTtmr`, `sprReadTtcr` and the tick jobs — the tick timer
  (`tick/tick.c`);
* `mtspr`, `mfspr` — `cpu/or1k/sprs.c`;
* `mtspr_form` — what `mtspr` does, by the register.
-/

namespace Or1ksim
namespace Cpu

open Bits

/-! ### Queueing jobs -/

/-- Put the scheduler back, or stop where it has no defined behaviour. -/
def Sim.withSched (s : Sim) : Option (Sched.State Job Unit) → Except Stop Sim
  | some q => .ok { s with sched := q }
  | none => .error .undefined

/-- `SCHED_ADD`. -/
def Sim.schedAdd (s : Sim) (job : Job) (time : ℤ) : Except Stop Sim :=
  s.withSched (Sched.schedAdd s.sched job () time)

/-- `SCHED_FIND_REMOVE`. -/
def Sim.schedFindRemove (s : Sim) (job : Job) : Except Stop Sim :=
  s.withSched (Sched.schedFindRemove s.sched job ())

/-- `sched_next_insn`. -/
def Sim.schedNextInsn (s : Sim) (job : Job) : Except Stop Sim :=
  s.withSched (Sched.schedNextInsn s.sched job ())

/-! ### The interrupt controller -/

/-- `pic_rep_int`. -/
def picRepInt (s : Sim) : Sim :=
  if s.sprs sprPICSR ≠ 0 then exceptHandle s .int (s.sprs sprEEAR) else s

/-- `pic_ints_en`. -/
def picIntsEn (s : Sim) : Except Stop Sim :=
  if s.sprs sprPICMR &&& s.sprs sprPICSR ≠ 0 then s.schedAdd .picRepInt 0 else .ok s

/-- `report_interrupt`. -/
def reportInterrupt (cfg : Config) (s : Sim) (line : Fin 32) : Except Stop Sim :=
  let lmask := BitVec.twoPow 32 line
  let s := s.setSpr sprPMR (s.sprs sprPMR &&& ~~~0x30#32)
  if !cfg.picEnabled then
    .ok (if s.srBit srIEE then exceptHandle s .int (s.sprs sprEEAR) else s)
  else if s.sprs sprPICSR &&& lmask ≠ 0 then .ok s
  else
    let s := s.setSpr sprPICSR (s.sprs sprPICSR ||| lmask)
    if s.sprs sprPICMR &&& lmask ≠ 0 ∧ s.srBit srIEE then s.schedAdd .picRepInt 0 else .ok s

/-- `clear_interrupt`. -/
def clearInterrupt (s : Sim) (line : Fin 32) : Sim :=
  s.setSpr sprPICSR (s.sprs sprPICSR &&& ~~~BitVec.twoPow 32 line)

/-! ### The tick timer -/

/-- `SPR_TTMR_TP`: the time period. -/
def ttmrTP : Word := 0x0fffffff
/-- `SPR_TTMR_IP`: interrupt pending. -/
def ttmrIP : ℕ := 28
/-- `SPR_TTMR_IE`: interrupt enable. -/
def ttmrIE : ℕ := 29
/-- `SPR_TTMR_M`: the mode. -/
def ttmrM : Word := 0xc0000000
/-- `SPR_TTMR_RT`: restart. -/
def ttmrRT : Word := 0x40000000
/-- `SPR_TTMR_SR`: single run. -/
def ttmrSR : Word := 0x80000000
/-- `SPR_TTMR_CR`: continuous run. -/
def ttmrCR : Word := 0xc0000000

/-- `spr_read_ttcr`. -/
def sprReadTtcr (s : Sim) : Word :=
  if s.tickCounting = 0 then s.sprs sprTTCR
  else (s.cycles - s.cycleCountAtTickStart).setWidth 32

/-- `tick_raise_except`. -/
def tickRaiseExcept (s : Sim) : Except Stop Sim := do
  let s := s.setSpr sprTTMR (setBit (s.sprs sprTTMR) ttmrIP)
  let s ← s.schedNextInsn .tickRaiseExcept
  return if s.srBit srTEE then exceptHandle s .tick (s.sprs sprEEAR) else s

/-- `tick_restart`. -/
def tickRestart (s : Sim) : Except Stop Sim :=
  let s := s.setSpr sprTTCR 0
  let s := { s with cycleCountAtTickStart := s.cycles }
  s.schedAdd .tickRestart (s.sprs sprTTMR &&& ttmrTP).toNat

/-- `tick_one_shot`. -/
def tickOneShot (s : Sim) : Sim :=
  { s.setSpr sprTTCR (s.sprs sprTTMR &&& ttmrTP) with tickCounting := 0 }

/-- `cycles_until_except` in `sched_timer_job`. -/
def cyclesUntilExcept (matchTtmr matchTtcr : Word) : Word :=
  if matchTtcr ≤ matchTtmr then matchTtmr - matchTtcr
  else matchTtmr + (0x0fffffff - matchTtcr) + 1

/-- The first part of `sched_timer_job`: withdraw the exception of the old mode. -/
def unqueueRaise (s : Sim) (prevTtmr : Word) : Except Stop Sim :=
  if prevTtmr.getLsbD ttmrIE ∧ (s.sprs sprTTMR).getLsbD ttmrIP = false then
    s.schedFindRemove .tickRaiseExcept
  else .ok s

/-- The second part: withdraw the job of the old mode. -/
def unqueueMode (s : Sim) (prevTtmr : Word) : Except Stop Sim :=
  if prevTtmr &&& ttmrM = ttmrRT then s.schedFindRemove .tickRestart
  else if prevTtmr &&& ttmrM = ttmrSR then s.schedFindRemove .tickOneShot
  else .ok s

/-- Queue the exception, if it is enabled and not pending. -/
def queueRaise (s : Sim) (cycles : ℕ) : Except Stop Sim :=
  if (s.sprs sprTTMR).getLsbD ttmrIE && !(s.sprs sprTTMR).getLsbD ttmrIP then
    s.schedAdd .tickRaiseExcept cycles
  else .ok s

/-- The last part: queue the jobs of the new mode. -/
def queueMode (s : Sim) (cycles : ℕ) : Except Stop Sim :=
  let ttmr := s.sprs sprTTMR
  if ttmr &&& ttmrM = 0 then if cycles = 0 then queueRaise s 0 else .ok s
  else if ttmr &&& ttmrM = ttmrRT then do
    let s ← s.schedAdd .tickRestart cycles
    queueRaise s cycles
  else if ttmr &&& ttmrM = ttmrSR then
    if s.tickCounting ≠ 0 then do
      let s ← s.schedAdd .tickOneShot cycles
      queueRaise s cycles
    else .ok s
  else queueRaise s cycles

/-- `sched_timer_job`. -/
def schedTimerJob (s : Sim) (prevTtmr : Word) : Except Stop Sim := do
  let cycles := cyclesUntilExcept (s.sprs sprTTMR &&& ttmrTP) (sprReadTtcr s &&& ttmrTP)
  let s ← unqueueRaise s prevTtmr
  let s ← unqueueMode s prevTtmr
  queueMode s cycles.toNat

/-- `spr_write_ttcr`. -/
def sprWriteTtcr (s : Sim) (value : Word) : Except Stop Sim :=
  let s := { s with cycleCountAtTickStart := s.cycles - value.setWidth 64 }
  schedTimerJob s (s.sprs sprTTMR)

/-- `spr_write_ttmr`. -/
def sprWriteTtmr (s : Sim) (prevVal : Word) : Except Stop Sim :=
  let value := s.sprs sprTTMR
  let s := s.setSpr sprTTMR (clearBit value ttmrIP)
  let s := if s.tickCounting ≠ 0 then
      s.setSpr sprTTCR ((s.cycles - s.cycleCountAtTickStart).setWidth 32)
    else s
  let s := { s with cycleCountAtTickStart := s.cycles - (s.sprs sprTTCR).setWidth 64 }
  let counting := value &&& ttmrM
  let counting := if counting = ttmrCR ∧ s.sprs sprTTCR = value &&& ttmrTP then 0 else counting
  schedTimerJob { s with tickCounting := counting } prevVal

/-! ### Moves to and from the registers -/

/-- The TLB registers keep no reserved bits: `DTLBMR`, `DTLBTR`, `ITLBMR` and `ITLBTR`. -/
def maskTlb (cfg : Config) (s : Sim) (regno : Regno) (value : Word) : Sim :=
  let s := if sprDTLBMR ≤ regno ∧ regno < 0x0dff then
      if regno &&& 0xff < 0x80 then
        s.setSpr regno ((value &&& cfg.dmmu.pageMask) ||| (value &&& 0xff))
      else s.setSpr regno ((value &&& cfg.dmmu.pageMask) ||| (value &&& 0x3ff))
    else s
  if sprITLBMR ≤ regno ∧ regno < 0x15ff then
    s.setSpr regno ((value &&& cfg.immu.pageMask) ||| (value &&& 0xff))
  else s

/-- "Links to GPRS". -/
def linkGpr (s : Sim) (regno : Regno) (value : Word) : Sim :=
  if 0x0400 ≤ regno ∧ regno < 0x0420 then s.setReg ((regno - 0x0400).setWidth 5) value else s

/-- A write to the next program counter redirects the processor. -/
def writeNpc (s : Sim) (value : Addr) : Sim :=
  if value ≠ s.pc then
    { s with
      pc := value
      delayInsn := false
      pcnext := value + 4
      npcNotValid := s.npcNotValid || s.stalled }
  else s

/-- `mtspr`. -/
def mtspr (cfg : Config) (s : Sim) (regno : Regno) (value : Word) : Except Stop Sim :=
  let prevVal := s.sprs regno
  let s := s.setSpr regno value
  if regno = sprTTCR then sprWriteTtcr s value
  else if regno = sprTTMR then sprWriteTtmr s prevVal
  else if regno = sprDCBPR then
    .ok ((evalsimMem s (peekIntoDtlb cfg s value false) value .w4).2.setSpr sprDCBPR 0)
  else if regno = sprDCBFR then .ok (s.setSpr sprDCBFR 0xffffffff)
  else if regno = sprDCBIR then .ok (s.setSpr sprDCBIR 0)
  else if regno = sprDCBWR then .ok (s.setSpr sprDCBWR 0)
  else if regno = sprDCBLR then .ok (s.setSpr sprDCBLR 0)
  else if regno = sprICBPR then
    .ok ((evalsimMem s (peekIntoItlb cfg s value) value .w4).2.setSpr sprICBPR 0)
  else if regno = sprICBIR then .ok (s.setSpr sprICBIR 0)
  else if regno = sprICBLR then .ok (s.setSpr sprICBLR 0)
  else if regno = sprSR then
    let s := s.setSpr sprSR (setBit value srFO)
    if value.getLsbD srIEE ∧ prevVal.getLsbD srIEE = false then picIntsEn s else .ok s
  else if regno = sprNPC then .ok (writeNpc s value)
  else if regno = sprPICSR then
    .ok (if cfg.edgeTrigger then s else s.setSpr sprPICSR prevVal)
  else if regno = sprPICMR then
    let s := if cfg.useNmi then s.setSpr sprPICMR (s.sprs sprPICMR ||| 3) else s
    if s.srBit srIEE then picIntsEn s else .ok s
  else if regno = sprPMR then
    if cfg.pmEnabled ∧ value.getLsbD 7 then .error .done else .ok s
  else .ok (linkGpr (maskTlb cfg s regno value) regno value)

/-- `mfspr`. -/
def mfspr (cfg : Config) (s : Sim) (regno : Regno) : Word :=
  if regno = sprNPC then if cfg.strictNpc ∧ s.npcNotValid then 0 else s.pc
  else if regno = sprTTCR then sprReadTtcr s
  else if regno = sprFPCSR then if cfg.hardfloat then s.sprs sprFPCSR else 0
  else if 0x0400 ≤ regno ∧ regno < 0x0420 then s.reg ((regno - 0x0400).setWidth 5)
  else s.sprs regno

/-! ### A write to the supervision register -/

theorem picIntsEn_eq_ok {s t : Sim} (h : picIntsEn s = .ok t) : ∃ q, t = { s with sched := q } := by
  unfold picIntsEn Sim.schedAdd Sim.withSched at h
  split at h
  · split at h
    case h_1 q _ =>
      cases h
      exact ⟨q, rfl⟩
    case h_2 => cases h
  · cases h
    exact ⟨s.sched, rfl⟩

theorem mtspr_sr (cfg : Config) (s : Sim) (value : Word) :
    mtspr cfg s sprSR value =
      let t := s.setSpr sprSR (setBit value srFO)
      if value.getLsbD srIEE ∧ s.srBit srIEE = false then picIntsEn t else .ok t := by
  rw [← Sim.setSpr_setSpr (s := s) (v := value)]
  rfl

theorem picIntsEn_of_masked {s : Sim} (h : s.sprs sprPICMR &&& s.sprs sprPICSR = 0) :
    picIntsEn s = .ok s := if_neg (not_not.2 h)

/-- With nothing pending but what is masked, the write queues no interrupt. -/
theorem mtspr_sr_of_masked (cfg : Config) {s : Sim} (value : Word)
    (h : s.sprs sprPICMR &&& s.sprs sprPICSR = 0) :
    mtspr cfg s sprSR value = .ok (s.setSpr sprSR (setBit value srFO)) := by
  have hset : picIntsEn (s.setSpr sprSR (setBit value srFO)) =
      .ok (s.setSpr sprSR (setBit value srFO)) := by
    apply picIntsEn_of_masked
    rwa [Sim.setSpr_sprs_of_ne (by decide), Sim.setSpr_sprs_of_ne (by decide)]
  rw [mtspr_sr]
  dsimp only
  rw [hset, ite_self]

/-! ### Writes by the register -/

/-- The cache commands that only leave a value in their register. -/
def cacheCommands : List Regno := [sprDCBFR, sprDCBIR, sprDCBWR, sprDCBLR, sprICBIR, sprICBLR]

theorem cacheCommands_apart :
    ∀ r ∈ cacheCommands, r ≠ sprTTCR ∧ r ≠ sprTTMR ∧ ¬(0x0400 ≤ r ∧ r < 0x0420) := by
  intro r hr
  simp only [cacheCommands, List.mem_cons, List.not_mem_nil, or_false] at hr
  obtain rfl | rfl | rfl | rfl | rfl | rfl := hr <;> decide

/-- What `mtspr` may be as a function of the state, by the register. -/
inductive MtsprForm (cfg : Config) (regno : Regno) (value : Word) :
    (Sim → Except Stop Sim) → Prop where
  | ttcr (hr : regno = sprTTCR) :
    MtsprForm cfg regno value fun s => sprWriteTtcr (s.setSpr regno value) value
  | ttmr (hr : regno = sprTTMR) :
    MtsprForm cfg regno value fun s => sprWriteTtmr (s.setSpr regno value) (s.sprs regno)
  | dcbpr (hr : regno = sprDCBPR) :
    MtsprForm cfg regno value fun s => .ok ((evalsimMem (s.setSpr regno value)
      (peekIntoDtlb cfg (s.setSpr regno value) value false) value .w4).2.setSpr sprDCBPR 0)
  | icbpr (hr : regno = sprICBPR) :
    MtsprForm cfg regno value fun s => .ok ((evalsimMem (s.setSpr regno value)
      (peekIntoItlb cfg (s.setSpr regno value) value) value .w4).2.setSpr sprICBPR 0)
  | command (r : Regno) (left : Word) (hmem : r ∈ cacheCommands) (hr : regno = r) :
    MtsprForm cfg regno value fun s => .ok ((s.setSpr regno value).setSpr r left)
  | sr (hr : regno = sprSR) :
    MtsprForm cfg regno value fun s =>
      if value.getLsbD srIEE ∧ (s.sprs regno).getLsbD srIEE = false then
        picIntsEn ((s.setSpr regno value).setSpr sprSR (setBit value srFO))
      else .ok ((s.setSpr regno value).setSpr sprSR (setBit value srFO))
  | npc (hr : regno = sprNPC) :
    MtsprForm cfg regno value fun s => .ok (writeNpc (s.setSpr regno value) value)
  | picsr (hr : regno = sprPICSR) :
    MtsprForm cfg regno value fun s => .ok (if cfg.edgeTrigger then s.setSpr regno value
      else (s.setSpr regno value).setSpr sprPICSR (s.sprs regno))
  | picmr (hr : regno = sprPICMR) :
    MtsprForm cfg regno value fun s =>
      let t := if cfg.useNmi then (s.setSpr regno value).setSpr sprPICMR
        ((s.setSpr regno value).sprs sprPICMR ||| 3) else s.setSpr regno value
      if t.srBit srIEE then picIntsEn t else .ok t
  | pmr (hr : regno = sprPMR) :
    MtsprForm cfg regno value fun s =>
      if cfg.pmEnabled ∧ value.getLsbD 7 then .error .done else .ok (s.setSpr regno value)
  | other (httcr : regno ≠ sprTTCR) (httmr : regno ≠ sprTTMR) :
    MtsprForm cfg regno value fun s =>
      .ok (linkGpr (maskTlb cfg (s.setSpr regno value) regno value) regno value)

theorem MtsprForm.ite {cfg : Config} {regno : Regno} {value : Word} {c : Prop} [Decidable c]
    {f g : Sim → Except Stop Sim} (hf : c → MtsprForm cfg regno value f)
    (hg : ¬c → MtsprForm cfg regno value g) :
    MtsprForm cfg regno value fun s => if c then f s else g s := by
  by_cases h : c
  · simp only [if_pos h]
    exact hf h
  · simp only [if_neg h]
    exact hg h

theorem mtspr_form (cfg : Config) (regno : Regno) (value : Word) :
    ∃ f, (∀ s, mtspr cfg s regno value = f s) ∧ MtsprForm cfg regno value f := by
  refine ⟨_, fun s => rfl, ?_⟩
  unfold mtspr
  dsimp only
  exact .ite .ttcr fun httcr => .ite .ttmr fun httmr => .ite .dcbpr fun _ =>
    .ite (.command _ _ (by decide)) fun _ => .ite (.command _ _ (by decide)) fun _ =>
    .ite (.command _ _ (by decide)) fun _ => .ite (.command _ _ (by decide)) fun _ =>
    .ite .icbpr fun _ => .ite (.command _ _ (by decide)) fun _ =>
    .ite (.command _ _ (by decide)) fun _ => .ite .sr fun _ => .ite .npc fun _ =>
    .ite .picsr fun _ => .ite .picmr fun _ => .ite .pmr fun _ => .other httcr httmr

end Cpu
end Or1ksim
