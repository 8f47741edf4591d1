import Or1ksim.Cpu.Resume

/-!
# System calls

`l.sys` raises an exception of its own, whose return address is that of the next instruction.

* `AtSys` — the processor is about to execute `l.sys`;
* `AtSys.cpuClock_eq` — it enters the handler;
* `returns` — where an `l.rfe` leads;
* `syscall_continues` — **the call continues behind `l.sys`**, exactly if that is no delay slot;
* `syscall_again` — in a delay slot it is executed again, and the jump is lost.
-/

namespace Or1ksim
namespace Cpu

open Bits Insn

/-- The next instruction is `l.sys`, and the debug unit lets the exception through. -/
structure AtSys (cfg : Config) (s : Sim) : Prop where
  fetched : (fetch cfg s).2.exceptPending = false
  sys : ∃ o, decodeInsn cfg.haveUnsignedXori (fetch cfg s).1 = some o ∧ o.function = .lSys
  entered : intercepted s .syscall = false
  next : s.delayInsn = false → s.pcnext = s.pc + 4

/-- The processor goes on from `s` as if its instruction had done nothing: at the next instruction
in program order, which is the target of the jump in front of a delay slot. -/
structure Continues (s r : Sim) : Prop where
  pc : r.pc = s.pcnext
  pcnext : r.pcnext = s.pcnext + 4
  delayInsn : r.delayInsn = false

section

variable {cfg : Config} {s u r : Sim}

/-! ### The call -/

set_option maxRecDepth 20000 in
theorem sys_rows : ∀ x, ∀ o ∈ opcodes x, o.function = .lSys → writeToReg o = false := by
  decide

/-- A fetch without an exception changes nothing that matters. -/
theorem fetch_quiet (h : (fetch cfg s).2.exceptPending = false) :
    Quiet { s with exceptPending := false, nextDelayInsn := false } (fetch cfg s).2 := by
  cases fetch_outcome cfg s with
  | quiet hq => exact hq
  | entered q e ea _ _ ht =>
    rw [ht, enterException_exceptPending] at h
    exact Bool.noConfusion h

theorem AtSys.cpuClock_eq (h : AtSys cfg s) :
    cpuClock cfg s = .ok (updatePc (enterException
      (debugIgnoreException (fetch cfg s).2 .syscall) .syscall
      ((fetch cfg s).2.sprs sprEEAR))) := by
  obtain ⟨o, hdec, hfun⟩ := h.sys
  have hquiet := fetch_quiet h.fetched
  have heffect : insnEffect cfg (fetch cfg s).2 o (fetch cfg s).1 = .raiseEear .syscall := by
    rw [insnEffect, hfun]
    rfl
  have hwrites := sys_rows _ o (mem_of_decodeInsn hdec) hfun
  have hdsr : intercepted (fetch cfg s).2 .syscall = false := by
    rw [intercepted, hquiet.sprs sprDSR (by decide)]
    exact h.entered
  rw [cpuClock_of_effect h.fetched hdec heffect hwrites]
  simp only [Effect.apply, exceptHandle, hdsr, Except.map, if_neg Bool.false_ne_true]

theorem AtSys.entry (h : AtSys cfg s) :
    ∃ e, cpuClock cfg s = .ok e ∧ e.pc = exceptVector s.sr .syscall ∧
      e.sprs sprEPCR = s.pc + 4 - (if s.delayInsn then 4 else 0) ∧ e.sprs sprESR = s.sr := by
  have hfetch := fetch_quiet h.fetched
  have hdebug := Quiet.debugIgnoreException (fetch cfg s).2 .syscall
  have hsr : (debugIgnoreException (fetch cfg s).2 .syscall).sr = s.sr :=
    hdebug.sr.trans hfetch.sr
  refine ⟨_, h.cpuClock_eq, ?_, ?_, ?_⟩
  · exact (enterException_pcnext _ (by decide) _).trans (congrArg (exceptVector · _) hsr)
  · rw [updatePc_sprs _ (by decide)]
    refine enterException_epcr _ _ _ ?_
    rw [exceptEpcr, hdebug.pc, hdebug.delayInsn, hfetch.pc, hfetch.delayInsn]
  · rw [updatePc_sprs _ (by decide), enterException_esr]
    exact hsr

/-! ### The return -/

/-- A write to the supervision register may queue an interrupt. -/
theorem mtspr_sr_eq_ok (cfg : Config) {value : Word} (h : mtspr cfg s sprSR value = .ok r) :
    ∃ q, r = { s.setSpr sprSR (setBit value srFO) with sched := q } := by
  rw [mtspr_sr] at h
  dsimp only at h
  split at h
  · exact picIntsEn_eq_ok h
  · cases h
    exact ⟨s.sched, rfl⟩

theorem returns (hu : AtRfe cfg u) (hr : cpuClock cfg u = .ok r) :
    r.pc = u.sprs sprEPCR ∧ r.pcnext = u.sprs sprEPCR + 4 ∧ r.delayInsn = false ∧
      r.sr = setBit (u.sprs sprESR) srFO := by
  have hquiet := fetch_quiet hu.fetched
  rw [hu.cpuClock_mtspr] at hr
  obtain ⟨t, ht, rfl⟩ := Runs.map_eq_ok_iff.1 hr
  obtain ⟨q, rfl⟩ := mtspr_sr_eq_ok cfg ht
  have hnext : (fetch cfg u).2.nextDelayInsn = false := hquiet.nextDelayInsn
  have hepcr : (fetch cfg u).2.sprs sprEPCR = u.sprs sprEPCR := hquiet.sprs sprEPCR (by decide)
  have hesr : (fetch cfg u).2.sprs sprESR = u.sprs sprESR := hquiet.sprs sprESR (by decide)
  refine ⟨hepcr, ?_, hnext, ?_⟩
  · change (if (fetch cfg u).2.nextDelayInsn then _ else (fetch cfg u).2.sprs sprEPCR + 4) = _
    rw [hnext, if_neg Bool.false_ne_true, hepcr]
  · have hset : ({ (fetch cfg u).2 with pcnext := (fetch cfg u).2.sprs sprEPCR }.setSpr sprSR
        (setBit ((fetch cfg u).2.sprs sprESR) srFO)).sr = setBit (u.sprs sprESR) srFO := by
      rw [Sim.setSpr_sr, hesr]
    exact (updatePc_sr _).trans hset

/-! ### Main results -/

/-- **System calls continue** behind `l.sys`: when its handler returns, with the saved registers as
it found them, the processor goes on at the next instruction in program order, exactly if `l.sys` is
in no delay slot, or in that of a jump to the slot itself. -/
theorem syscall_continues (cfg : Config) (s : Sim) (hs : AtSys cfg s) :
    ∃ e, cpuClock cfg s = .ok e ∧ e.pc = exceptVector s.sr .syscall ∧
      ∀ u r, AtRfe cfg u → u.sprs sprEPCR = e.sprs sprEPCR → u.sprs sprESR = e.sprs sprESR →
        cpuClock cfg u = .ok r →
          r.sr = setBit s.sr srFO ∧ (Continues s r ↔ s.delayInsn = false ∨ s.pcnext = s.pc) := by
  obtain ⟨e, he, hvector, hepcr, hesr⟩ := hs.entry
  refine ⟨e, he, hvector, fun u r hu hu' hu'' hr => ?_⟩
  obtain ⟨hpc, hpcnext, hslot, hsr⟩ := returns hu hr
  rw [hu', hepcr] at hpc hpcnext
  refine ⟨by rw [hsr, hu'', hesr], ?_⟩
  have hiff : Continues s r ↔ r.pc = s.pcnext :=
    ⟨Continues.pc, fun h => ⟨h, by rw [hpcnext, ← hpc, h], hslot⟩⟩
  rw [hiff, hpc]
  cases hd : s.delayInsn with
  | false =>
    rw [if_neg Bool.false_ne_true, hs.next hd]
    exact iff_of_true (BitVec.sub_zero _) (.inl rfl)
  | true =>
    rw [if_pos rfl, BitVec.add_sub_cancel]
    exact ⟨fun h => .inr h.symm, fun h => (h.resolve_left nofun).symm⟩

end

/-! ### Runs -/

/-- `l.jal 2` with `l.sys` in its delay slot, and a handler that returns at once. -/
def sysHandler : Memory :=
  (((Memory.flat fun _ => 0).setProgram32 0x100 0x04000002).setProgram32 0x104
    0x20000000).setProgram32 0xc00 0x24000000

/-- The processor in front of an instruction of that program. -/
def atSysInsn (pc : Addr) : Sim :=
  { powerOn 0x601 0x8001 sysHandler with pc := pc, pcnext := pc + 4 }

/-- It has executed the jump. -/
def inSysSlot : Sim := updatePc (jumped 0x108 true (atSysInsn 0x100).settled)

/-- The row of `l.sys`. -/
def sysRow : Opcode := ⟨"l.sys", "K", "00 0x8  00000 00000 KKKK KKKK KKKK KKKK", .lSys⟩

theorem decodeInsn_sys : decodeInsn false 0x20000000 = some sysRow :=
  decodeInsn_eq_some_iff.2 ⟨List.mem_of_getElem? (i := 7) rfl, by decide⟩

theorem cpuClock_atSysInsn : cpuClock defaultConfig (atSysInsn 0x100) = .ok inSysSlot := by
  have hfetch : fetch defaultConfig (atSysInsn 0x100) = (0x04000002, (atSysInsn 0x100).settled) :=
    fetch_settled (by decide) (by decide)
  have hjumps : Jumps defaultConfig (atSysInsn 0x100) jalRow 0x108 true := by
    refine ⟨by rw [hfetch]; rfl, ?_, ?_⟩ <;> rw [hfetch]
    · exact decodeInsn_eq_some_iff.2 ⟨List.mem_of_getElem? (i := 1) rfl, by decide⟩
    · rfl
  rw [hjumps.cpuClock_eq, hfetch]
  rfl

theorem atSys_of_fetch {s : Sim} (hfetch : fetch defaultConfig s = (0x20000000, s.settled))
    (hentered : intercepted s .syscall = false)
    (hnext : s.delayInsn = false → s.pcnext = s.pc + 4) :
    AtSys defaultConfig s := by
  refine ⟨by rw [hfetch]; rfl, ⟨sysRow, ?_, rfl⟩, hentered, hnext⟩
  rw [hfetch]
  exact decodeInsn_sys

/-- The entry of the handler, without translation. -/
def sysEntered (s : Sim) : Sim :=
  updatePc (enterException (debugIgnoreException s.settled .syscall) .syscall (s.sprs sprEEAR))

theorem sys_and_rfe {s : Sim} (hfetch : fetch defaultConfig s = (0x20000000, s.settled))
    (hsys : AtSys defaultConfig s) (hime : (sysEntered s).srBit srIME = false)
    (hmem : (sysEntered s).mem.evalsimMem (sysEntered s).pc .w4 = some 0x24000000)
    (hmasked : (sysEntered s).sprs sprPICMR &&& (sysEntered s).sprs sprPICSR = 0) :
    ∃ e r, cpuClock defaultConfig s = .ok e ∧ AtRfe defaultConfig e ∧
      cpuClock defaultConfig e = .ok r := by
  have hclock := hsys.cpuClock_eq
  rw [hfetch] at hclock
  have hrfe := (atRfe_tick hime hmem).1
  refine ⟨_, _, hclock, hrfe, hrfe.cpuClock_eq ?_⟩
  rw [fetch_settled hime hmem]
  exact hmasked

/-- A call outside a delay slot: its handler returns behind it. -/
theorem syscall_continues_straight :
    ∃ e r, cpuClock defaultConfig (atSysInsn 0x104) = .ok e ∧ cpuClock defaultConfig e = .ok r ∧
      Continues (atSysInsn 0x104) r := by
  have hfetch : fetch defaultConfig (atSysInsn 0x104) = (0x20000000, (atSysInsn 0x104).settled) :=
    fetch_settled (by decide) (by decide)
  have hsys : AtSys defaultConfig (atSysInsn 0x104) :=
    atSys_of_fetch hfetch (by decide) fun _ => rfl
  obtain ⟨e, r, he, hrfe, hr⟩ := sys_and_rfe hfetch hsys (by decide) (by decide)
    (by decide)
  obtain ⟨e', he', -, hreturn⟩ := syscall_continues defaultConfig (atSysInsn 0x104) hsys
  obtain rfl := Except.ok.inj (he.symm.trans he')
  exact ⟨e, r, he, hr, (hreturn e r hrfe rfl rfl hr).2.2 (.inl rfl)⟩

/-- A call in a delay slot: its handler returns to the call itself, and the jump is lost. -/
theorem syscall_again :
    ∃ s e r, cpuClock defaultConfig (atSysInsn 0x100) = .ok s ∧ AtSys defaultConfig s ∧
      cpuClock defaultConfig s = .ok e ∧ AtRfe defaultConfig e ∧ cpuClock defaultConfig e = .ok r ∧
      s.pc = 0x104 ∧ s.pcnext = 0x108 ∧ r.pc = 0x104 ∧ ¬Continues s r := by
  have hfetch : fetch defaultConfig inSysSlot = (0x20000000, inSysSlot.settled) :=
    fetch_settled (by decide) (by decide)
  have hsys : AtSys defaultConfig inSysSlot :=
    atSys_of_fetch hfetch (by decide) fun h => absurd h (by decide)
  obtain ⟨e, r, he, hrfe, hr⟩ := sys_and_rfe hfetch hsys (by decide) (by decide)
    (by decide)
  obtain ⟨e', he', -, hepcr, -⟩ := hsys.entry
  obtain rfl := Except.ok.inj (he.symm.trans he')
  have hpc : r.pc = 0x104 := (returns hrfe hr).1.trans (hepcr.trans (by decide))
  refine ⟨inSysSlot, e, r, cpuClock_atSysInsn, hsys, he, hrfe, hr, by decide,
    by decide, hpc, fun h => ?_⟩
  have hnext := h.pc
  rw [hpc] at hnext
  exact absurd hnext (by decide)

end Cpu
end Or1ksim
