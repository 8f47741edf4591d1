import Or1ksim.Cpu.Privilege
import Or1ksim.Lib.Runs

/-!
# What an instruction can do

Apart from the entry of an exception and from moves to special purpose registers, an instruction
leaves most of the special purpose registers, the scheduler and the timer alone.

* `MtsprCase` — what a move to a special purpose register can do;
* `Calm` — what an instruction does otherwise;
* `cpuClock_keeps` — what these and exceptions keep, an instruction keeps.
-/

namespace Or1ksim
namespace Cpu

open Bits Insn

/-! ### Moves to special purpose registers -/

/-- The registers with handlers of their own, and all others. -/
inductive MtsprCase (cfg : Config) (s : Sim) (regno : Regno) (value : Word) (t : Sim) : Prop where
  | ttcr (hr : regno = sprTTCR) (h : sprWriteTtcr (s.setSpr regno value) value = .ok t)
  | ttmr (hr : regno = sprTTMR) (h : sprWriteTtmr (s.setSpr regno value) (s.sprs regno) = .ok t)
  | special (hr : regno = sprSR ∨ regno = sprPICSR ∨ regno = sprPICMR)
  | prefetch (pa : Addr)
      (hpa : regno = sprDCBPR ∧ pa = peekIntoDtlb cfg (s.setSpr regno value) value false ∨
        regno = sprICBPR ∧ pa = peekIntoItlb cfg (s.setSpr regno value) value)
      (ht : t = (evalsimMem (s.setSpr regno value) pa value .w4).2.setSpr regno 0)
  | plain (httcr : regno ≠ sprTTCR) (httmr : regno ≠ sprTTMR)
      (hsprs : ∀ r, r ≠ regno → t.sprs r = s.sprs r) (hsched : t.sched = s.sched)
      (htick : t.tickCounting = s.tickCounting) (hcycles : t.cycles = s.cycles)
      (hstalled : t.stalled = s.stalled)

section Mtspr

variable {cfg : Config} {s t : Sim} {regno : Regno} {value : Word}

theorem writeNpc_same (s : Sim) (value : Addr) :
    (writeNpc s value).sprs = s.sprs ∧ (writeNpc s value).sched = s.sched ∧
      (writeNpc s value).tickCounting = s.tickCounting ∧
      (writeNpc s value).cycles = s.cycles ∧ (writeNpc s value).stalled = s.stalled := by
  unfold writeNpc
  split <;> exact ⟨rfl, rfl, rfl, rfl, rfl⟩

theorem linkGpr_same (s : Sim) (regno : Regno) (value : Word) :
    (linkGpr s regno value).sprs = s.sprs ∧ (linkGpr s regno value).sched = s.sched ∧
      (linkGpr s regno value).tickCounting = s.tickCounting ∧
      (linkGpr s regno value).cycles = s.cycles ∧
      (linkGpr s regno value).stalled = s.stalled := by
  unfold linkGpr
  split <;> exact ⟨rfl, rfl, rfl, rfl, rfl⟩

theorem maskTlb_same (cfg : Config) (s : Sim) (regno : Regno) (value : Word) :
    (∀ r, r ≠ regno → (maskTlb cfg s regno value).sprs r = s.sprs r) ∧
      (maskTlb cfg s regno value).sched = s.sched ∧
      (maskTlb cfg s regno value).tickCounting = s.tickCounting ∧
      (maskTlb cfg s regno value).cycles = s.cycles ∧
      (maskTlb cfg s regno value).stalled = s.stalled := by
  unfold maskTlb
  dsimp only
  split_ifs <;> refine ⟨fun r hr => ?_, rfl, rfl, rfl, rfl⟩ <;> simp only [Sim.setSpr_sprs_of_ne hr]

theorem mtspr_plain_twice (httcr : regno ≠ sprTTCR) (httmr : regno ≠ sprTTMR) (w : Word) :
    MtsprCase cfg s regno value ((s.setSpr regno value).setSpr regno w) := by
  refine .plain httcr httmr (fun r hr => ?_) rfl rfl rfl rfl
  rw [Sim.setSpr_sprs_of_ne hr, Sim.setSpr_sprs_of_ne hr]

/-- **Moves to special purpose registers**, by what they can do. -/
theorem mtspr_cases (h : mtspr cfg s regno value = .ok t) : MtsprCase cfg s regno value t := by
  have hset : ∀ r, r ≠ regno → (s.setSpr regno value).sprs r = s.sprs r :=
    fun r hr => Sim.setSpr_sprs_of_ne hr
  obtain ⟨f, hf, hform⟩ := mtspr_form cfg regno value
  rw [hf] at h
  cases hform with
  | ttcr hr => exact .ttcr hr h
  | ttmr hr => exact .ttmr hr h
  | dcbpr hr =>
    cases h
    exact .prefetch _ (.inl ⟨hr, rfl⟩) (by rw [hr])
  | icbpr hr =>
    cases h
    exact .prefetch _ (.inr ⟨hr, rfl⟩) (by rw [hr])
  | command r left hmem hr =>
    cases h
    obtain ⟨httcr, httmr, -⟩ := cacheCommands_apart r hmem
    subst hr
    exact mtspr_plain_twice httcr httmr left
  | sr hr => exact .special (.inl hr)
  | picsr hr => exact .special (.inr (.inl hr))
  | picmr hr => exact .special (.inr (.inr hr))
  | npc hr =>
    cases h
    obtain ⟨hsprs, hsched, htick, hcycles, hstalled⟩ := writeNpc_same (s.setSpr regno value) value
    exact .plain (hr ▸ by decide) (hr ▸ by decide)
      (fun r hne => (congrFun hsprs r).trans (hset r hne)) hsched htick hcycles hstalled
  | pmr hr =>
    beta_reduce at h
    split at h
    · cases h
    · cases h
      exact .plain (hr ▸ by decide) (hr ▸ by decide) hset rfl rfl rfl rfl
  | other httcr httmr =>
    cases h
    obtain ⟨hsprs, hsched, htick, hcycles, hstalled⟩ :=
      linkGpr_same (maskTlb cfg (s.setSpr regno value) regno value) regno value
    obtain ⟨hsprs', hsched', htick', hcycles', hstalled'⟩ :=
      maskTlb_same cfg (s.setSpr regno value) regno value
    refine .plain httcr httmr (fun r hr => ?_) (hsched.trans hsched') (htick.trans htick')
      (hcycles.trans hcycles') (hstalled.trans hstalled')
    rw [hsprs, hsprs' r hr, hset r hr]

end Mtspr

/-! ### Everything else -/

/-- The registers that instructions write, apart from exceptions and moves: the TLBs, the debug
reason, the flags, the previous program counter, the floating point status and the accumulator. -/
def written (r : Regno) : Prop :=
  scratch r ∨ r = sprSR ∨ r = sprPPC ∨ r = sprFPCSR ∨ r = sprMACLO ∨ r = sprMACHI

instance (r : Regno) : Decidable (written r) := inferInstanceAs (Decidable (_ ∨ _))

/-- What an instruction does, apart from exceptions and moves to special purpose registers. -/
structure Calm (s t : Sim) : Prop where
  sprs : ∀ r, ¬written r → t.sprs r = s.sprs r
  iee : t.srBit srIEE = s.srBit srIEE
  sched : t.sched = s.sched
  tickCounting : t.tickCounting = s.tickCounting
  cycles : t.cycles = s.cycles

namespace Calm

variable {s q t : Sim}

theorem trans (h : Calm s q) (h' : Calm q t) : Calm s t where
  sprs r hr := (h'.sprs r hr).trans (h.sprs r hr)
  iee := h'.iee.trans h.iee
  sched := h'.sched.trans h.sched
  tickCounting := h'.tickCounting.trans h.tickCounting
  cycles := h'.cycles.trans h.cycles

theorem of_sprs (h : t.sprs = s.sprs) (hsched : t.sched = s.sched)
    (htick : t.tickCounting = s.tickCounting) (hcycles : t.cycles = s.cycles) : Calm s t := by
  refine ⟨fun r _ => by rw [h], ?_, hsched, htick, hcycles⟩
  rw [Sim.srBit, Sim.srBit, Sim.sr, Sim.sr, h]

theorem of_quiet (h : Quiet s t) : Calm s t := by
  refine ⟨fun r hr => h.sprs r fun hscratch => hr (.inl hscratch), ?_, h.sched, h.tickCounting,
    h.cycles⟩
  rw [Sim.srBit, Sim.srBit, h.sr]

theorem setSr {v : Word} (hv : v.getLsbD srIEE = s.srBit srIEE) : Calm s (s.setSpr sprSR v) := by
  refine ⟨fun r hr => Sim.setSpr_sprs_of_ne fun he => hr (.inr (.inl he)), ?_, rfl, rfl, rfl⟩
  rw [Sim.srBit, Sim.setSpr_sr, hv]

theorem setSpr {r : Regno} (hr : written r) (hsr : r ≠ sprSR) (v : Word) :
    Calm s (s.setSpr r v) := by
  refine ⟨fun r' hr' => Sim.setSpr_sprs_of_ne fun he => hr' (he ▸ hr), ?_, rfl, rfl, rfl⟩
  rw [Sim.srBit, Sim.setSpr_sr_of_ne hsr.symm, Sim.srBit]

end Calm

/-- What instructions keep: moves to special purpose registers do, the entry of an exception does,
and so does everything calm. -/
structure Keeps (cfg : Config) (I : Sim → Prop) : Prop where
  calm : ∀ {s t}, Calm s t → I s → I t
  enter : ∀ {s} {e : Exception} {ea : Addr}, I s → I (enterException s e ea)
  mtspr : ∀ {s t} {regno : Regno} {value : Word}, mtspr cfg s regno value = .ok t → I s → I t

namespace Keeps

variable {cfg : Config} {I : Sim → Prop} {s t : Sim}

theorem exceptHandle (hI : Keeps cfg I) {e : Exception} {ea : Addr} (hs : I s) :
    I (exceptHandle s e ea) := by
  have hdebug : I (debugIgnoreException s e) := hI.calm (.of_quiet (.debugIgnoreException s e)) hs
  unfold Cpu.exceptHandle
  dsimp only
  split
  · exact hdebug
  · exact hI.enter hdebug

theorem outcome (hI : Keeps cfg I) (h : Outcome s t) (hs : I s) : I t := by
  cases h with
  | quiet h => exact hI.calm (.of_quiet h) hs
  | entered q e ea h _ ht =>
    subst ht
    exact hI.enter (hI.calm (.of_quiet h) hs)

end Keeps

section Instructions

variable {cfg : Config} {I : Sim → Prop} {s t : Sim}

theorem insnEffect_userSafe (cfg : Config) (s : Sim) (o : Opcode) (insn : Word) :
    insnEffect cfg s o insn = .rfe ∨
      (insnEffect cfg s o insn).UserSafe (view s (params s o insn)) := by
  by_cases hrfe : o.function = .lRfe
  · exact .inl (by rw [insnEffect, hrfe]; rfl)
  · exact .inr (effect_userSafe cfg hrfe _)

theorem setParam0_calm (s : Sim) (d : BitVec 5) (v : Option Word) : Calm s (setParam0 s d v) := by
  cases v <;> exact .of_sprs rfl rfl rfl rfl

theorem nopService_calm {k : Word} (h : nopService cfg s k = .ok t) : Calm s t := by
  unfold nopService at h
  split_ifs at h <;> cases h <;> exact .of_sprs rfl rfl rfl rfl

theorem flag_calm (s : Sim) (f : Bool) : Calm s (s.setSpr sprSR (assignBit s.sr srF f)) := by
  refine .setSr ?_
  rw [getLsbD_assignBit, if_neg (by decide), Sim.srBit]

theorem updatePc_calm (s : Sim) : Calm s (updatePc s) := by
  refine ⟨fun r hr => updatePc_sprs s fun he => hr (.inr (.inr (.inl he))), ?_, rfl, rfl, rfl⟩
  rw [Sim.srBit, Sim.srBit, updatePc_sr]

/-- What moves, exceptions and calm changes keep, an effect keeps. -/
theorem Effect.apply_keeps {d : BitVec 5} {eff : Effect} {v : View} (hI : Keeps cfg I)
    (hv : v.sr = s.sr) (hsafe : eff = .rfe ∨ eff.UserSafe v) (hs : I s)
    (h : eff.apply cfg d s = .ok t) : I t := by
  have hsame : ∀ {u : Sim}, u.sprs = s.sprs → u.sched = s.sched →
      u.tickCounting = s.tickCounting → u.cycles = s.cycles → I u :=
    fun hsprs hsched htick hcycles => hI.calm (.of_sprs hsprs hsched htick hcycles) hs
  cases eff with
  | skip => cases h; exact hs
  | set w => cases h; exact hsame rfl rfl rfl rfl
  | arith w sr range =>
    have hsr : SameButCarries v.sr sr := hsafe.resolve_left nofun
    have hset : I ((setParam0 s d w).setSpr sprSR sr) := by
      refine hI.calm ((setParam0_calm s d w).trans (.setSr ?_)) hs
      rw [hsr srIEE (by decide) (by decide), hv, Sim.srBit, Sim.sr, Sim.sr, setParam0_sprs]
    cases range with
    | true => cases h; exact hI.exceptHandle hset
    | false => cases h; exact hset
  | flag f => cases h; exact hI.calm (flag_calm s f) hs
  | load n extend a =>
    have hmem := hI.outcome (evalMem_outcome cfg s a n) hs
    simp only [Effect.apply, Except.ok.injEq] at h
    subst h
    split
    · exact hmem
    · refine hI.calm ?_ hmem
      exact .of_sprs rfl rfl rfl rfl
  | store n a w => cases h; exact hI.outcome (setMem_outcome cfg s a w n) hs
  | jump target link => cases h; cases link <;> exact hsame rfl rfl rfl rfl
  | raise e => cases h; exact hI.exceptHandle hs
  | raiseEear e => cases h; exact hI.exceptHandle hs
  | mac w hi lo =>
    cases h
    have hlo : I ((setParam0 s d w).setSpr sprMACLO lo) :=
      hI.calm ((setParam0_calm s d w).trans (.setSpr (by decide) (by decide) lo)) hs
    exact hI.calm (.setSpr (by decide) (by decide) hi) hlo
  | mtspr regno value => exact hI.mtspr h hs
  | mfspr regno => cases h; exact hsame rfl rfl rfl rfl
  | rfe =>
    have hs' : I { s with pcnext := s.sprs sprEPCR } := hsame rfl rfl rfl rfl
    change Cpu.mtspr cfg { s with pcnext := s.sprs sprEPCR } sprSR (s.sprs sprESR) = .ok t at h
    exact hI.mtspr h hs'
  | nop k => exact hI.calm (nopService_calm h) hs
  | float w flags =>
    cases h
    exact hI.calm (.setSpr (by decide) (by decide) _) (hsame (u := s.setReg d w) rfl rfl rfl rfl)
  | floatFlag f flags =>
    cases h
    exact hI.calm ((flag_calm s f).trans (.setSpr (by decide) (by decide) _)) hs
  | done => cases h

theorem executeOpcode_keeps {o : Opcode} {insn : Word} (hI : Keeps cfg I) (hs : I s)
    (h : executeOpcode cfg s o insn = .ok t) : I t := by
  obtain ⟨t', happly, rfl⟩ := Runs.map_eq_ok_iff.1 h
  have ht' := Effect.apply_keeps hI rfl (insnEffect_userSafe cfg s o insn) hs happly
  split
  · refine hI.calm ?_ ht'
    exact .of_sprs rfl rfl rfl rfl
  · exact ht'

/-- **What moves, exceptions and calm changes keep, an instruction keeps.** -/
theorem cpuClock_keeps (hI : Keeps cfg I) (hs : I s) (h : cpuClock cfg s = .ok t) : I t := by
  have hout := fetch_outcome cfg s
  unfold cpuClock at h
  generalize fetch cfg s = f at h hout
  obtain ⟨insn, q⟩ := f
  dsimp only at h hout
  have hstart : Calm s { s with exceptPending := false, nextDelayInsn := false } :=
    .of_sprs rfl rfl rfl rfl
  have hq : I q := hI.outcome hout (hI.calm hstart hs)
  split at h
  case isTrue =>
    cases h
    refine hI.calm ((updatePc_calm q).trans ?_) hq
    exact .of_sprs rfl rfl rfl rfl
  case isFalse =>
    obtain ⟨t', hexec, rfl⟩ := Runs.map_eq_ok_iff.1 h
    refine hI.calm (updatePc_calm t') ?_
    cases hdec : decodeInsn cfg.haveUnsignedXori insn with
    | some o =>
      rw [decodeExecute_of_some hdec] at hexec
      exact executeOpcode_keeps hI hq hexec
    | none =>
      rcases decodeExecute_of_none q hdec with ⟨-, h⟩ | h | h <;> rw [h] at hexec <;> cases hexec
      · exact hI.exceptHandle hq
      · exact hq
      · refine hI.calm ?_ hq
        exact .of_sprs rfl rfl rfl rfl

end Instructions

end Cpu
end Or1ksim
