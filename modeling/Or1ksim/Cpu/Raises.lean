import Or1ksim.Cpu.Accounting

/-!
# The exceptions of an instruction

Every exception that is raised, intercepted by the debug unit or not, writes the stall state.  This
module says which exceptions are raised, in their order, and what they leave the stall state at.

* `Hits` — what the watchpoints of the debug unit report;
* `decodeExecuteWrapper`, `watchedClock` — an instruction with the debug unit enabled;
* `clockRaises` — the exceptions it raises;
* `Spares` — no exception takes a stall back;
* `watchedClock_follows` — an instruction stalls the processor as its exceptions say.
-/

namespace Or1ksim
namespace Cpu

open Bits Insn

/-! ### Instructions under the debug unit -/

/-- What `check_debug_unit` reports for the accesses of an instruction: watchpoints with a break
that match its fetch or its data. -/
structure Hits where
  /-- `breakpoint` after the fetch. -/
  insn : Bool
  /-- `breakpoint` after the data access. -/
  data : Bool
deriving DecidableEq, Repr

/-- The word is an instruction that loads. -/
def isLoad (cfg : Config) (insn : Word) : Bool :=
  (decodeInsn cfg.haveUnsignedXori insn).any fun o =>
    decide (o.function ∈ [.lLwz, .lLws, .lLbz, .lLbs, .lLhz, .lLhs])

/-- "If eval operand produced exception don't set anything", nor if it hit a watchpoint: the
destination of a load keeps its value. -/
def dropLoaded (cfg : Config) (insn : Word) (s t : Sim) : Sim :=
  if isLoad cfg insn then { t with reg := Function.update s.reg 0 0 } else t

/-- An access is reported to the debug unit, unless it raises an exception before. -/
def reports (cfg : Config) (s : Sim) (a : Addr) (n : Width) (write : Bool) : Bool :=
  !misaligned a n && !(dmmuTranslate cfg s a write).2.exceptPending

/-- The word is an instruction that reports an access. -/
def reportsAccess (cfg : Config) (s : Sim) (insn : Word) : Bool :=
  match decodeInsn cfg.haveUnsignedXori insn with
  | some o =>
    match insnEffect cfg s o insn with
    | .load n _ a => reports cfg s a n false
    | .store n a _ => reports cfg s a n true
    | _ => false
  | none => false

/-- `decode_execute_wrapper`, where the data access may hit a watchpoint: a trap follows whatever
else the instruction has raised. -/
def decodeExecuteWrapper (cfg : Config) (hit : Bool) (s : Sim) (insn : Word) : Except Stop Sim :=
  (decodeExecute cfg s insn).map fun t =>
    if hit && reportsAccess cfg s insn then
      let t := dropLoaded cfg insn s t
      exceptHandle t .trap (t.sprs sprEEAR)
    else t

/-- `cpu_clock`, where watchpoints may match. -/
def watchedClock (cfg : Config) (hits : Hits) (s : Sim) : Except Stop Sim :=
  let r := fetch cfg s
  if r.2.exceptPending then .ok { updatePc r.2 with exceptPending := false }
  else if hits.insn then
    .ok { updatePc (exceptHandle r.2 .trap (r.2.sprs sprEEAR)) with exceptPending := false }
  else (decodeExecuteWrapper cfg hits.data r.2 r.1).map updatePc

theorem decodeExecuteWrapper_of_no_hit (cfg : Config) (s : Sim) (insn : Word) :
    decodeExecuteWrapper cfg false s insn = decodeExecute cfg s insn := by
  unfold decodeExecuteWrapper
  cases decodeExecute cfg s insn <;> rfl

/-- Without a match it is the instruction as it is without the debug unit. -/
theorem watchedClock_of_no_hits (cfg : Config) (s : Sim) :
    watchedClock cfg ⟨false, false⟩ s = cpuClock cfg s := by
  unfold watchedClock
  dsimp only
  rw [decodeExecuteWrapper_of_no_hit, if_neg Bool.false_ne_true]
  rfl

/-! ### What is raised -/

/-- Translation. -/
def translateRaises (m : Mmu) (fault : Bool → Word → Bool) (s : Sim) (va : Addr) :
    List Exception :=
  if m.off s then []
  else
    match m.findTlbmr s.sprs va with
    | some hit =>
      let s := m.touchLru s va hit
      if fault (s.srBit srSM) (s.sprs (hit + 128)) then [m.pageFault] else []
    | none => [m.tlbMiss]

/-- A physical access that the memory does or does not have. -/
def accessRaises {α : Type} (result : Option α) : List Exception :=
  if result.isSome then [] else [.buserr]

/-- `eval_mem8`, `eval_mem16`, `eval_mem32`. -/
def evalMemRaises (cfg : Config) (s : Sim) (a : Addr) (n : Width) : List Exception :=
  if misaligned a n then [.align]
  else
    let r := dmmuTranslate cfg s a false
    translateRaises cfg.dataMmu (dataFault false) s a ++
      if r.2.exceptPending then [] else accessRaises (r.2.mem.evalsimMem r.1 n)

/-- `set_mem8`, `set_mem16`, `set_mem32`. -/
def setMemRaises (cfg : Config) (s : Sim) (a : Addr) (v : Word) (n : Width) : List Exception :=
  if misaligned a n then [.align]
  else
    let r := dmmuTranslate cfg s a true
    translateRaises cfg.dataMmu (dataFault true) s a ++
      if r.2.exceptPending then [] else accessRaises (r.2.mem.setsimMem r.1 v n)

/-- `eval_insn`. -/
def evalInsnRaises (cfg : Config) (s : Sim) (a : Addr) : List Exception :=
  let r := immuTranslate cfg s a
  translateRaises cfg.insnMmu insnFault s a ++
    if r.2.exceptPending then [] else accessRaises (r.2.mem.evalsimMem r.1 .w4)

/-- `fetch`. -/
def fetchRaises (cfg : Config) (s : Sim) : List Exception :=
  evalInsnRaises cfg { s with exceptPending := false, nextDelayInsn := false } s.pc

/-- `mtspr`: the prefetch registers read memory. -/
def mtsprRaises (cfg : Config) (s : Sim) (regno : Regno) (value : Word) : List Exception :=
  let s := s.setSpr regno value
  if regno = sprDCBPR then accessRaises (s.mem.evalsimMem (peekIntoDtlb cfg s value false) .w4)
  else if regno = sprICBPR then accessRaises (s.mem.evalsimMem (peekIntoItlb cfg s value) .w4)
  else []

/-- An effect. -/
def effectRaises (cfg : Config) (s : Sim) : Effect → List Exception
  | .arith _ _ range => if range then [.range] else []
  | .load n _ a => evalMemRaises cfg s a n
  | .store n a v => setMemRaises cfg s a v n
  | .raise e | .raiseEear e => [e]
  | .mtspr regno value => mtsprRaises cfg s regno value
  | _ => []

/-- `decode_execute`. -/
def decodeRaises (cfg : Config) (s : Sim) (insn : Word) : List Exception :=
  match decodeInsn cfg.haveUnsignedXori insn with
  | some o => effectRaises cfg s (insnEffect cfg s o insn)
  | none => if raisesIllegal cfg insn then [.illegal] else []

/-- `decode_execute_wrapper`. -/
def wrapperRaises (cfg : Config) (hit : Bool) (s : Sim) (insn : Word) : List Exception :=
  decodeRaises cfg s insn ++ if hit && reportsAccess cfg s insn then [.trap] else []

/-- `cpu_clock`. -/
def clockRaises (cfg : Config) (hits : Hits) (s : Sim) : List Exception :=
  let r := fetch cfg s
  fetchRaises cfg s ++
    if r.2.exceptPending then []
    else if hits.insn then [.trap]
    else wrapperRaises cfg hits.data r.2 r.1

/-! ### What it does to the stall state -/

/-- After exceptions that are or are not intercepted, the processor is stalled if the last of them
was; without any, if it was before. -/
def stalledAfter (s : Sim) (es : List Exception) : Bool :=
  (es.map (intercepted s)).getLastD s.stalled

/-- No exception takes a stall back: what is raised while the processor is stalled, or after an
intercepted exception, is intercepted. -/
def Spares (s : Sim) (es : List Exception) : Prop :=
  (s.stalled :: es.map (intercepted s)).Pairwise fun a b => a = true → b = true

instance (s : Sim) (es : List Exception) : Decidable (Spares s es) :=
  inferInstanceAs (Decidable (List.Pairwise _ _))

/-- The processor is stalled at some time while the exceptions are raised. -/
def stalledDuring (s : Sim) (es : List Exception) : Bool :=
  s.stalled || es.any (intercepted s)

/-- A true value stays to the end of a list in which truth is passed on. -/
theorem getLastD_of_pairwise {bs : List Bool} {b : Bool}
    (h : (b :: bs).Pairwise fun a b => a = true → b = true) (hb : true ∈ b :: bs) :
    bs.getLastD b = true := by
  induction bs generalizing b with
  | nil => exact (List.mem_singleton.1 hb).symm
  | cons c cs ih =>
    rw [List.getLastD_cons]
    refine ih (List.pairwise_cons.1 h).2 ?_
    rcases List.mem_cons.1 hb with hb | hb
    · rw [List.rel_of_pairwise_cons h (List.mem_cons_self ..) hb.symm]
      exact List.mem_cons_self ..
    · exact hb

/-- **A stall stays** through exceptions that take none back. -/
theorem stalledAfter_of_spares {s : Sim} {es : List Exception} (h : Spares s es)
    (hd : stalledDuring s es = true) : stalledAfter s es = true := by
  refine getLastD_of_pairwise h ?_
  rcases Bool.or_eq_true_iff.1 hd with hs | hes
  · exact hs ▸ List.mem_cons_self ..
  · obtain ⟨e, he, hi⟩ := List.any_eq_true.1 hes
    exact List.mem_cons_of_mem _ (List.mem_map.2 ⟨e, he, hi⟩)

/-- The exceptions are raised on the way from `s` to `t`: the processor is stalled if they leave it
so. -/
def Follows (s : Sim) (es : List Exception) (t : Sim) : Prop :=
  stalledAfter s es = true → t.stalled = true

namespace Follows

variable {s q t : Sim} {es es' : List Exception}

theorem of_stalled (h : t.stalled = s.stalled) : Follows s [] t := fun hs => h.trans hs

theorem congr (h : Follows s es q) (hst : t.stalled = q.stalled) : Follows s es t :=
  fun hs => hst.trans (h hs)

theorem of_start (h : Follows q es t) (hdsr : q.sprs sprDSR = s.sprs sprDSR)
    (hst : q.stalled = s.stalled) : Follows s es t := by
  have hi : intercepted q = intercepted s := by
    funext e
    rw [intercepted, hdsr, intercepted]
  intro hs
  refine h ?_
  rwa [stalledAfter, hi, hst]

theorem stalledAfter_append (s : Sim) (es es' : List Exception) :
    stalledAfter s (es ++ es') = (es'.map (intercepted s)).getLastD (stalledAfter s es) := by
  unfold stalledAfter
  generalize s.stalled = b
  induction es generalizing b with
  | nil => rfl
  | cons e es ih =>
    rw [List.cons_append, List.map_cons, List.map_cons, List.getLastD_cons, List.getLastD_cons]
    exact ih _

theorem append (h : Follows s es q) (hdsr : q.sprs sprDSR = s.sprs sprDSR)
    (h' : Follows q es' t) : Follows s (es ++ es') t := by
  have hi : intercepted q = intercepted s := by
    funext e
    rw [intercepted, hdsr, intercepted]
  intro hs
  rw [stalledAfter_append, ← hi] at hs
  refine h' ?_
  cases es' with
  | nil => exact h hs
  | cons e es' =>
    rw [List.map_cons, List.getLastD_cons] at hs
    rwa [stalledAfter, List.map_cons, List.getLastD_cons]

theorem exceptHandle (s : Sim) (e : Exception) (ea : Addr) :
    Follows s [e] (exceptHandle s e ea) := by
  intro hs
  have hi : intercepted s e = true := hs
  simp only [Cpu.exceptHandle, hi, if_true, debugIgnoreException, Sim.setStallState]

end Follows

/-! ### Accesses -/

section Accesses

variable {s : Sim}

theorem Outcome.dsr {t : Sim} (h : Outcome s t) : t.sprs sprDSR = s.sprs sprDSR := by
  cases h with
  | quiet h => exact h.sprs sprDSR (by decide)
  | entered q e ea h _ ht => 
    rw [ht, enterException_sprs q e ea (by decide) (by decide) (by decide) (by decide),
      h.sprs sprDSR (by decide)]

theorem ageLru_stalled (s : Sim) (r : Regno) : (Mmu.ageLru s r).stalled = s.stalled := by
  unfold Mmu.ageLru
  dsimp only
  split <;> rfl

theorem touchLru_stalled (m : Mmu) (s : Sim) (va : Addr) (hit : Regno) :
    (m.touchLru s va hit).stalled = s.stalled := by
  unfold Mmu.touchLru
  change (List.foldl Mmu.ageLru s _).stalled = s.stalled
  generalize (List.range m.config.nways).map (m.mr va) = rs
  induction rs generalizing s with
  | nil => rfl
  | cons r rs ih => rw [List.foldl_cons, ih, ageLru_stalled]

theorem translate_follows {m : Mmu} (hm : m.tlbmr = sprDTLBMR ∨ m.tlbmr = sprITLBMR)
    (fault : Bool → Word → Bool) (s : Sim) (va : Addr) :
    Follows s (translateRaises m fault s va) (m.translate fault s va).2 := by
  unfold translateRaises Mmu.translate
  split
  · exact .of_stalled rfl
  · cases hfind : m.findTlbmr s.sprs va with
    | some hit =>
      have htouch : Quiet s (m.touchLru s va hit) :=
        Mmu.touchLru_quiet hm (Mmu.scratch_findTlbmr hm hfind)
      have hstalled := touchLru_stalled m s va hit
      dsimp only
      split
      · exact (Follows.exceptHandle _ _ va).of_start (htouch.sprs sprDSR (by decide)) hstalled
      · exact .of_stalled hstalled
    | none => exact .exceptHandle s m.tlbMiss va

theorem evalsimMem_follows (s : Sim) (pa va : Addr) (n : Width) :
    Follows s (accessRaises (s.mem.evalsimMem pa n)) (evalsimMem s pa va n).2 := by
  unfold accessRaises evalsimMem
  cases s.mem.evalsimMem pa n with
  | some v => exact .of_stalled rfl
  | none => exact .exceptHandle s .buserr va

theorem setsimMem_follows (s : Sim) (pa va : Addr) (v : Word) (n : Width) :
    Follows s (accessRaises (s.mem.setsimMem pa v n)) (setsimMem s pa va v n) := by
  unfold accessRaises setsimMem
  cases s.mem.setsimMem pa v n with
  | some v => exact .of_stalled rfl
  | none => exact .exceptHandle s .buserr va

/-- An access goes on after translation only if that entered no exception. -/
theorem Follows.bind {q t : Sim} {es es' : List Exception} (h : Follows s es q)
    (hout : Outcome s q) (h' : Follows q es' t) :
    Follows s (es ++ if q.exceptPending then [] else es') (if q.exceptPending then q else t) := by
  refine h.append hout.dsr ?_
  split
  · exact .of_stalled rfl
  · exact h'

theorem evalMem_follows (cfg : Config) (s : Sim) (a : Addr) (n : Width) :
    Follows s (evalMemRaises cfg s a n) (evalMem cfg s a n).2 := by
  unfold evalMemRaises evalMem
  split
  · exact .exceptHandle s .align a
  · have h := (translate_follows (m := cfg.dataMmu) (.inl rfl) (dataFault false) s a).bind
      (dmmuTranslate_outcome cfg s a false)
      (evalsimMem_follows _ (dmmuTranslate cfg s a false).1 a n)
    dsimp only
    rw [apply_ite Prod.snd]
    exact h

theorem setMem_follows (cfg : Config) (s : Sim) (a : Addr) (v : Word) (n : Width) :
    Follows s (setMemRaises cfg s a v n) (setMem cfg s a v n) := by
  unfold setMemRaises setMem
  split
  · exact .exceptHandle s .align a
  · exact (translate_follows (m := cfg.dataMmu) (.inl rfl) (dataFault true) s a).bind
      (dmmuTranslate_outcome cfg s a true) (setsimMem_follows _ _ a v n)

theorem evalInsn_follows (cfg : Config) (s : Sim) (a : Addr) :
    Follows s (evalInsnRaises cfg s a) (evalInsn cfg s a).2 := by
  have h := (translate_follows (m := cfg.insnMmu) (.inr rfl) insnFault s a).bind
    (immuTranslate_outcome cfg s a) (evalsimMem_follows _ (immuTranslate cfg s a).1 a .w4)
  unfold evalInsnRaises evalInsn
  dsimp only
  rw [apply_ite Prod.snd]
  exact h

theorem fetch_follows (cfg : Config) (s : Sim) :
    Follows s (fetchRaises cfg s) (fetch cfg s).2 := by
  have h := evalInsn_follows cfg { s with exceptPending := false, nextDelayInsn := false } s.pc
  exact h.of_start rfl rfl

end Accesses

/-! ### Instructions -/

section Instructions

variable {cfg : Config} {s t : Sim}

theorem mtspr_follows {regno : Regno} {value : Word} (h : mtspr cfg s regno value = .ok t) :
    Follows s (mtsprRaises cfg s regno value) t := by
  unfold mtsprRaises
  dsimp only
  by_cases hdcbpr : regno = sprDCBPR
  · subst hdcbpr
    rw [if_pos rfl]
    obtain rfl := Except.ok.inj h
    exact (evalsimMem_follows (s.setSpr sprDCBPR value) _ value .w4).of_start rfl rfl
  rw [if_neg hdcbpr]
  by_cases hicbpr : regno = sprICBPR
  · subst hicbpr
    rw [if_pos rfl]
    obtain rfl := Except.ok.inj h
    exact (evalsimMem_follows (s.setSpr sprICBPR value) _ value .w4).of_start rfl rfl
  rw [if_neg hicbpr]
  exact .of_stalled ((mtspr_same h).2.resolve_right (not_or.2 ⟨hdcbpr, hicbpr⟩))

theorem setParam0_stalled (s : Sim) (d : BitVec 5) (v : Option Word) :
    (setParam0 s d v).stalled = s.stalled := by
  cases v <;> rfl

theorem nopService_follows {k : Word} (h : nopService cfg s k = .ok t) : Follows s [] t := by
  unfold nopService at h
  split_ifs at h <;> cases h
  · exact fun _ => rfl
  all_goals exact .of_stalled rfl

theorem Effect.apply_follows {d : BitVec 5} {eff : Effect} (h : eff.apply cfg d s = .ok t) :
    Follows s (effectRaises cfg s eff) t := by
  cases eff with
  | arith v sr range =>
    have hset : ((setParam0 s d v).setSpr sprSR sr).sprs sprDSR = s.sprs sprDSR := by
      rw [Sim.setSpr_sprs_of_ne (by decide), setParam0_sprs]
    cases range with
    | true =>
      cases h
      exact (Follows.exceptHandle _ _ _).of_start hset (setParam0_stalled s d v)
    | false =>
      cases h
      exact .of_stalled (setParam0_stalled s d v)
  | load n extend a =>
    simp only [Effect.apply, Except.ok.injEq] at h
    subst h
    refine (evalMem_follows cfg s a n).congr ?_
    split <;> rfl
  | store n a v =>
    cases h
    exact setMem_follows cfg s a v n
  | raise e =>
    cases h
    exact .exceptHandle s e s.pc
  | raiseEear e =>
    cases h
    exact .exceptHandle s e _
  | mtspr regno value => exact mtspr_follows h
  | rfe =>
    have hmove : Cpu.mtspr cfg { s with pcnext := s.sprs sprEPCR } sprSR (s.sprs sprESR) = .ok t :=
      h
    exact .of_stalled ((mtspr_same hmove).2.resolve_right (by decide))
  | nop k => exact nopService_follows h
  | mac v hi lo =>
    cases h
    exact .of_stalled (setParam0_stalled s d v)
  | jump target link => cases h; cases link <;> exact .of_stalled rfl
  | skip => cases h; exact .of_stalled rfl
  | set v => cases h; exact .of_stalled rfl
  | flag f => cases h; exact .of_stalled rfl
  | mfspr regno => cases h; exact .of_stalled rfl
  | float v flags => cases h; exact .of_stalled rfl
  | floatFlag f flags => cases h; exact .of_stalled rfl
  | done => cases h

theorem not_contains_repairActions (writes : ℕ → Bool) (i : ℕ) :
    (repairActions writes i).contains .illegal = false := by
  unfold repairActions
  split <;> rfl

theorem decodeExecute_follows {insn : Word} (h : decodeExecute cfg s insn = .ok t) :
    Follows s (decodeRaises cfg s insn) t := by
  unfold decodeRaises
  cases hdec : decodeInsn cfg.haveUnsignedXori insn with
  | some o =>
    rw [decodeExecute_of_some hdec] at h
    obtain ⟨u, hu, rfl⟩ := Runs.map_eq_ok_iff.1 h
    refine (Effect.apply_follows hu).congr ?_
    split <;> rfl
  | none =>
    dsimp only
    rcases decoderActions_of_none (writesReg cfg.haveUnsignedXori) hdec with hacts | ⟨i, hacts⟩
    · rw [decodeExecute, hacts] at h
      cases h
      rw [raisesIllegal, hacts, if_pos (by decide)]
      exact .exceptHandle s .illegal s.pc
    · rw [decodeExecute, hacts, foldlM_repairActions] at h
      rw [raisesIllegal, hacts, not_contains_repairActions, if_neg Bool.false_ne_true]
      cases h
      split <;> exact .of_stalled rfl

/-- An instruction that reports an access writes no debug register. -/
theorem decodeExecute_dsr {insn : Word} (hreports : reportsAccess cfg s insn = true)
    (h : decodeExecute cfg s insn = .ok t) : t.sprs sprDSR = s.sprs sprDSR := by
  unfold reportsAccess at hreports
  cases hdec : decodeInsn cfg.haveUnsignedXori insn with
  | none =>
    rw [hdec] at hreports
    cases hreports
  | some o =>
    rw [hdec] at hreports
    dsimp only at hreports
    rw [decodeExecute_of_some hdec] at h
    obtain ⟨u, hu, rfl⟩ := Runs.map_eq_ok_iff.1 h
    have haccess : u.sprs sprDSR = s.sprs sprDSR := by
      cases heff : insnEffect cfg s o insn with
      | load n extend a =>
        rw [heff] at hu
        simp only [Effect.apply, Except.ok.injEq] at hu
        subst hu
        rw [← (evalMem_outcome cfg s a n).dsr]
        split <;> rfl
      | store n a v =>
        rw [heff] at hu
        cases hu
        exact (setMem_outcome cfg s a v n).dsr
      | _ =>
        rw [heff] at hreports
        cases hreports
    split <;> exact haccess

theorem decodeExecuteWrapper_follows {hit : Bool} {insn : Word}
    (h : decodeExecuteWrapper cfg hit s insn = .ok t) :
    Follows s (wrapperRaises cfg hit s insn) t := by
  obtain ⟨u, hu, rfl⟩ := Runs.map_eq_ok_iff.1 h
  unfold wrapperRaises
  split
  case isTrue hhit =>
    refine (decodeExecute_follows hu).append
      (decodeExecute_dsr (Bool.and_eq_true_iff.1 hhit).2 hu) ?_
    have hdrop : (dropLoaded cfg insn s u).sprs = u.sprs ∧
        (dropLoaded cfg insn s u).stalled = u.stalled := by
      unfold dropLoaded
      split <;> exact ⟨rfl, rfl⟩
    exact (Follows.exceptHandle _ .trap _).of_start (congrFun hdrop.1 _) hdrop.2
  case isFalse =>
    rw [List.append_nil]
    exact decodeExecute_follows hu

/-- **An instruction stalls the processor as its exceptions say.** -/
theorem watchedClock_follows {hits : Hits} (h : watchedClock cfg hits s = .ok t) :
    Follows s (clockRaises cfg hits s) t := by
  have hout : (fetch cfg s).2.sprs sprDSR = s.sprs sprDSR :=
    (fetch_outcome cfg s).dsr
  unfold clockRaises
  refine (fetch_follows cfg s).append hout ?_
  unfold watchedClock at h
  dsimp only at h
  split at h
  case isTrue hpending =>
    cases h
    rw [if_pos hpending]
    exact .of_stalled rfl
  case isFalse hpending =>
    rw [if_neg hpending]
    split at h
    case isTrue hhit =>
      cases h
      rw [if_pos hhit]
      exact (Follows.exceptHandle _ .trap _).congr rfl
    case isFalse hhit =>
      rw [if_neg hhit]
      obtain ⟨u, hu, rfl⟩ := Runs.map_eq_ok_iff.1 h
      exact (decodeExecuteWrapper_follows hu).congr rfl

end Instructions

end Cpu
end Or1ksim
