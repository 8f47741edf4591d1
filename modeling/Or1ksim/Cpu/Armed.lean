import Or1ksim.Cpu.Calm
import Or1ksim.Sched.Jobs

/-!
# Queued interrupts

An interrupt is checked against the mask and the enable bit when its job is queued, and taken when
the job runs.

* `Deliverable` — an interrupt may be taken;
* `Armed` — a queued interrupt is deliverable, or nothing is pending any more;
* `SameInts` — nothing that decides about interrupts changes;
* `mtspr_armed` — a move to a special purpose register leaves queued interrupts deliverable unless
  it takes their grounds away.
-/

namespace Or1ksim
namespace Cpu

open Bits Insn

/-! ### Deliverable interrupts -/

/-- Interrupts are enabled and one that is not masked is pending. -/
def Deliverable (s : Sim) : Prop :=
  s.srBit srIEE = true ∧ s.sprs sprPICMR &&& s.sprs sprPICSR ≠ 0

/-- `pic_rep_int` is queued. -/
def PicQueued (s : Sim) : Prop := Job.picRepInt ∈ s.sched.funcs

/-- A queued `pic_rep_int` finds a deliverable interrupt, or none at all. -/
def Armed (s : Sim) : Prop := PicQueued s → s.sprs sprPICSR = 0 ∨ Deliverable s

/-- What decides about interrupts is as before, and no interrupt has been queued. -/
structure SameInts (s t : Sim) : Prop where
  iee : t.srBit srIEE = s.srBit srIEE
  picmr : t.sprs sprPICMR = s.sprs sprPICMR
  picsr : t.sprs sprPICSR = s.sprs sprPICSR
  jobs : Sched.KeepsJob .picRepInt s.sched t.sched

namespace SameInts

variable {s q t : Sim}

theorem refl (s : Sim) : SameInts s s := ⟨rfl, rfl, rfl, .refl _ _⟩

theorem trans (h : SameInts s q) (h' : SameInts q t) : SameInts s t :=
  ⟨h'.iee.trans h.iee, h'.picmr.trans h.picmr, h'.picsr.trans h.picsr, h.jobs.trans h'.jobs⟩

theorem queued (h : SameInts s t) : PicQueued t → PicQueued s := h.jobs.mem

theorem of_agree (h : ∀ r ∈ [sprSR, sprPICMR, sprPICSR], t.sprs r = s.sprs r)
    (hsched : t.sched = s.sched) : SameInts s t := by
  refine ⟨?_, h _ (by simp), h _ (by simp), ?_⟩
  · rw [Sim.srBit, Sim.srBit, Sim.sr, Sim.sr, h _ (by simp)]
  · rw [hsched]
    exact .refl _ _

theorem of_sprs (h : t.sprs = s.sprs) (hsched : t.sched = s.sched) : SameInts s t :=
  of_agree (fun r _ => by rw [h]) hsched

theorem of_quiet (h : Quiet s t) : SameInts s t := by
  refine ⟨?_, h.sprs _ (by decide), h.sprs _ (by decide), ?_⟩
  · rw [Sim.srBit, Sim.srBit, h.sr]
  · rw [h.sched]
    exact .refl _ _

theorem of_calm (h : Calm s t) : SameInts s t := by
  refine ⟨h.iee, h.sprs _ (by decide), h.sprs _ (by decide), ?_⟩
  rw [h.sched]
  exact .refl _ _

theorem setSpr {r : Regno} (hsr : r ≠ sprSR) (hmr : r ≠ sprPICMR) (hpsr : r ≠ sprPICSR) (v : Word) :
    SameInts s (s.setSpr r v) := by
  refine ⟨?_, Sim.setSpr_sprs_of_ne hmr.symm, Sim.setSpr_sprs_of_ne hpsr.symm, .refl _ _⟩
  rw [Sim.srBit, Sim.setSpr_sr_of_ne hsr.symm, Sim.srBit]

theorem setSr {v : Word} (hv : v.getLsbD srIEE = s.srBit srIEE) :
    SameInts s (s.setSpr sprSR v) := by
  refine ⟨?_, Sim.setSpr_sprs_of_ne (by decide), Sim.setSpr_sprs_of_ne (by decide), .refl _ _⟩
  rw [Sim.srBit, Sim.setSpr_sr, hv]

theorem deliverable (h : SameInts s t) (hs : Deliverable s) : Deliverable t := by
  rw [Deliverable, h.iee, h.picmr, h.picsr]
  exact hs

theorem armed (h : SameInts s t) (hs : Armed s) : Armed t := by
  intro ht
  rcases hs (h.queued ht) with hzero | hdel
  · exact .inl (h.picsr.trans hzero)
  · exact .inr (h.deliverable hdel)

end SameInts

/-! ### Exceptions -/

theorem enterException_iee (q : Sim) (e : Exception) (ea : Addr) :
    (enterException q e ea).srBit srIEE = false := by
  rw [Sim.srBit, enterException_sr, entrySr]
  simp only [getLsbD_clearBit, getLsbD_setBit]
  simp [srIEE, srOVE, srSM, srTEE, srDME, srIME]

theorem enterException_sprs (q : Sim) (e : Exception) (ea : Addr) {r : Regno} (hsr : r ≠ sprSR)
    (hesr : r ≠ sprESR) (hepcr : r ≠ sprEPCR) (heear : r ≠ sprEEAR) :
    (enterException q e ea).sprs r = q.sprs r := by
  unfold enterException
  cases e <;> simp [Sim.setSpr, exceptEpcr, Function.update_of_ne, *]

theorem enterException_sched (q : Sim) (e : Exception) (ea : Addr) :
    (enterException q e ea).sched = q.sched := by
  unfold enterException
  cases e <;> rfl

/-- Entering an exception is harmless while no interrupt is queued or none is pending. -/
theorem enterException_armed {q : Sim} {e : Exception} {ea : Addr}
    (h : PicQueued q → q.sprs sprPICSR = 0) : Armed (enterException q e ea) := by
  intro hqueued
  rw [PicQueued, enterException_sched] at hqueued
  rw [enterException_sprs q e ea (by decide) (by decide) (by decide) (by decide)]
  exact .inl (h hqueued)

theorem exceptHandle_armed {s : Sim} {e : Exception} {ea : Addr} (hs : Armed s)
    (h : PicQueued s → s.sprs sprPICSR = 0 ∨ intercepted s e = true) :
    Armed (exceptHandle s e ea) := by
  have hsame := SameInts.of_quiet (.debugIgnoreException s e)
  unfold exceptHandle
  dsimp only
  split
  case isTrue => exact hsame.armed hs
  case isFalse hno =>
    refine enterException_armed fun hqueued => ?_
    rw [hsame.picsr]
    exact (h (hsame.queued hqueued)).resolve_right hno

theorem Outcome.armed {s t : Sim} (h : Outcome s t) (hs : Armed s)
    (hraise : PicQueued s → s.sprs sprPICSR = 0 ∨ t.exceptPending = false) : Armed t := by
  cases h with
  | quiet h => exact (SameInts.of_quiet h).armed hs
  | entered q e ea h _ ht =>
    subst ht
    have hsame := SameInts.of_quiet h
    refine enterException_armed fun hqueued => ?_
    rw [hsame.picsr]
    refine (hraise (hsame.queued hqueued)).resolve_right ?_
    rw [enterException_exceptPending]
    exact Bool.noConfusion

/-! ### Queueing -/

theorem withSched_eq_ok {s t : Sim} {o : Option (Sched.State Job Unit)}
    (h : s.withSched o = .ok t) : ∃ q, o = some q ∧ t = { s with sched := q } := by
  cases o with
  | none => cases h
  | some q =>
    cases h
    exact ⟨q, rfl, rfl⟩

section Queueing

variable {s t : Sim} {job : Job}

theorem withSched_sameInts {q : Sched.State Job Unit} (h : Sched.KeepsJob .picRepInt s.sched q) :
    SameInts s { s with sched := q } := ⟨rfl, rfl, rfl, h⟩

theorem schedAdd_sameInts {time : ℕ} (hjob : .picRepInt ≠ job) (h : s.schedAdd job time = .ok t) :
    SameInts s t := by
  obtain ⟨q, hq, rfl⟩ := withSched_eq_ok h
  exact withSched_sameInts (Sched.keepsJob_schedAdd hjob (Int.natCast_nonneg time) hq)

theorem schedFindRemove_sameInts (hjob : .picRepInt ≠ job) (h : s.schedFindRemove job = .ok t) :
    SameInts s t := by
  obtain ⟨q, hq, rfl⟩ := withSched_eq_ok h
  exact withSched_sameInts (Sched.keepsJob_schedFindRemove hjob hq)

theorem schedNextInsn_sameInts (hjob : .picRepInt ≠ job) (h : s.schedNextInsn job = .ok t) :
    SameInts s t := by
  obtain ⟨q, hq, rfl⟩ := withSched_eq_ok h
  exact withSched_sameInts (Sched.keepsJob_schedNextInsn hjob hq)

theorem queueRaise_sameInts {cycles : ℕ} (h : queueRaise s cycles = .ok t) : SameInts s t := by
  unfold queueRaise at h
  split at h
  · exact schedAdd_sameInts (by decide) h
  · cases h
    exact .refl s

theorem queueMode_sameInts {cycles : ℕ} (h : queueMode s cycles = .ok t) : SameInts s t := by
  unfold queueMode at h
  dsimp only at h
  split_ifs at h
  · exact queueRaise_sameInts h
  · cases h
    exact .refl s
  · obtain ⟨q, hq, h⟩ := Runs.bind_eq_ok_iff.1 h
    exact (schedAdd_sameInts (by decide) hq).trans (queueRaise_sameInts h)
  · obtain ⟨q, hq, h⟩ := Runs.bind_eq_ok_iff.1 h
    exact (schedAdd_sameInts (by decide) hq).trans (queueRaise_sameInts h)
  · cases h
    exact .refl s
  · exact queueRaise_sameInts h

theorem schedTimerJob_sameInts {prevTtmr : Word} (h : schedTimerJob s prevTtmr = .ok t) :
    SameInts s t := by
  obtain ⟨s₁, h₁, h⟩ := Runs.bind_eq_ok_iff.1 h
  obtain ⟨s₂, h₂, h⟩ := Runs.bind_eq_ok_iff.1 h
  have hs₁ : SameInts s s₁ := by
    unfold unqueueRaise at h₁
    split at h₁
    · exact schedFindRemove_sameInts (by decide) h₁
    · cases h₁
      exact .refl s
  have hs₂ : SameInts s₁ s₂ := by
    unfold unqueueMode at h₂
    split_ifs at h₂
    · exact schedFindRemove_sameInts (by decide) h₂
    · exact schedFindRemove_sameInts (by decide) h₂
    · cases h₂
      exact .refl s₁
  exact (hs₁.trans hs₂).trans (queueMode_sameInts h)

/-- With interrupts enabled, the job is queued for a deliverable interrupt. -/
theorem picIntsEn_armed (hs : Armed s) (hiee : s.srBit srIEE = true) (h : picIntsEn s = .ok t) :
    Armed t := by
  unfold picIntsEn at h
  split at h
  case isTrue hmask =>
    obtain ⟨q, -, rfl⟩ := withSched_eq_ok h
    exact fun _ => .inr ⟨hiee, hmask⟩
  case isFalse =>
    cases h
    exact hs

end Queueing

/-! ### Moves to special purpose registers -/

/-- The mask that a write to `SPR_PICMR` leaves. -/
def picmrOf (cfg : Config) (value : Word) : Word := if cfg.useNmi then value ||| 3 else value

/-- A write that leaves a queued interrupt its grounds: it does not turn interrupts off, does not
mask all that is pending, does not raise a bus error, and makes nothing pending that is not
deliverable. -/
def MtsprKeeps (cfg : Config) (s : Sim) (regno : Regno) (value : Word) : Prop :=
  if regno = sprPICSR then
    cfg.edgeTrigger = true → value = 0 ∨ s.srBit srIEE = true ∧ s.sprs sprPICMR &&& value ≠ 0
  else s.sprs sprPICSR = 0 ∨
    if regno = sprSR then value.getLsbD srIEE = true
    else if regno = sprPICMR then picmrOf cfg value &&& s.sprs sprPICSR ≠ 0
    else if regno = sprDCBPR then
      (s.mem.evalsimMem (peekIntoDtlb cfg (s.setSpr regno value) value false) .w4).isSome
    else if regno = sprICBPR then
      (s.mem.evalsimMem (peekIntoItlb cfg (s.setSpr regno value) value) .w4).isSome
    else True

section Mtspr

variable {cfg : Config} {s t : Sim} {regno : Regno} {value : Word}

theorem sprWriteTtcr_sameInts (h : sprWriteTtcr s value = .ok t) : SameInts s t := by
  unfold sprWriteTtcr at h
  refine SameInts.trans ?_ (schedTimerJob_sameInts h)
  exact .of_sprs rfl rfl

theorem sprWriteTtmr_sameInts (h : sprWriteTtmr s value = .ok t) : SameInts s t := by
  unfold sprWriteTtmr at h
  dsimp only at h
  refine SameInts.trans (.of_agree (fun r hr => ?_) ?_) (schedTimerJob_sameInts h)
  · have httmr : r ≠ sprTTMR := fun he => absurd (he ▸ hr) (by decide)
    have httcr : r ≠ sprTTCR := fun he => absurd (he ▸ hr) (by decide)
    dsimp only
    split
    · exact (Sim.setSpr_sprs_of_ne httcr).trans (Sim.setSpr_sprs_of_ne httmr)
    · exact Sim.setSpr_sprs_of_ne httmr
  · dsimp only
    split <;> rfl

theorem evalsimMem_armed {pa va : Addr} {n : Width} (hs : Armed s)
    (h : PicQueued s → s.sprs sprPICSR = 0 ∨ (s.mem.evalsimMem pa n).isSome) :
    Armed (evalsimMem s pa va n).2 := by
  unfold evalsimMem
  split
  case h_1 => exact hs
  case h_2 hnone =>
    refine exceptHandle_armed hs fun hqueued => .inl ((h hqueued).resolve_right ?_)
    simp [hnone]

theorem mtspr_sr_armed (hs : Armed s)
    (hk : PicQueued s → s.sprs sprPICSR = 0 ∨ value.getLsbD srIEE = true)
    (h : mtspr cfg s sprSR value = .ok t) : Armed t := by
  have hiee : (s.setSpr sprSR (setBit value srFO)).srBit srIEE = value.getLsbD srIEE := by
    rw [Sim.srBit, Sim.setSpr_sr, getLsbD_setBit]
    simp [srIEE, srFO]
  have hset : Armed (s.setSpr sprSR (setBit value srFO)) := by
    intro hqueued
    rw [Deliverable, hiee, Sim.setSpr_sprs_of_ne (by decide), Sim.setSpr_sprs_of_ne (by decide)]
    rcases hs hqueued with hzero | hdel
    · exact .inl hzero
    · exact (hk hqueued).imp_right fun hv => ⟨hv, hdel.2⟩
  rw [mtspr_sr] at h
  dsimp only at h
  split at h
  case isTrue hon => exact picIntsEn_armed hset (hiee.trans hon.1) h
  case isFalse =>
    cases h
    exact hset

theorem mtspr_picmr (cfg : Config) (s : Sim) (value : Word) :
    mtspr cfg s sprPICMR value =
      let t := s.setSpr sprPICMR (picmrOf cfg value)
      if t.srBit srIEE then picIntsEn t else .ok t := by
  have hraw : mtspr cfg s sprPICMR value =
      let t := s.setSpr sprPICMR value
      let t := if cfg.useNmi then t.setSpr sprPICMR (t.sprs sprPICMR ||| 3) else t
      if t.srBit srIEE then picIntsEn t else .ok t := rfl
  rw [hraw, picmrOf]
  cases cfg.useNmi <;> simp

theorem mtspr_picmr_armed (hs : Armed s)
    (hk : PicQueued s → s.sprs sprPICSR = 0 ∨ picmrOf cfg value &&& s.sprs sprPICSR ≠ 0)
    (h : mtspr cfg s sprPICMR value = .ok t) : Armed t := by
  have hset : Armed (s.setSpr sprPICMR (picmrOf cfg value)) := by
    intro hqueued
    rw [Deliverable, Sim.srBit, Sim.setSpr_sr_of_ne (by decide), Sim.setSpr_sprs_self,
      Sim.setSpr_sprs_of_ne (by decide)]
    rcases hs hqueued with hzero | hdel
    · exact .inl hzero
    · exact (hk hqueued).imp_right fun hv => ⟨hdel.1, hv⟩
  rw [mtspr_picmr] at h
  dsimp only at h
  split at h
  case isTrue hon => exact picIntsEn_armed hset hon h
  case isFalse =>
    cases h
    exact hset

theorem mtspr_picsr_armed (hs : Armed s)
    (hk : PicQueued s → cfg.edgeTrigger = true →
      value = 0 ∨ s.srBit srIEE = true ∧ s.sprs sprPICMR &&& value ≠ 0)
    (h : mtspr cfg s sprPICSR value = .ok t) : Armed t := by
  have hraw : mtspr cfg s sprPICSR value =
      .ok (if cfg.edgeTrigger then s.setSpr sprPICSR value
        else (s.setSpr sprPICSR value).setSpr sprPICSR (s.sprs sprPICSR)) := rfl
  rw [hraw] at h
  cases h
  intro hqueued
  cases hedge : cfg.edgeTrigger with
  | true =>
    rw [if_pos rfl]
    rw [hedge, if_pos rfl] at hqueued
    rw [Deliverable, Sim.srBit, Sim.setSpr_sr_of_ne (by decide), Sim.setSpr_sprs_self,
      Sim.setSpr_sprs_of_ne (by decide)]
    exact hk hqueued hedge
  | false =>
    rw [if_neg Bool.false_ne_true, Sim.setSpr_setSpr]
    rw [hedge, if_neg Bool.false_ne_true, Sim.setSpr_setSpr] at hqueued
    rw [Deliverable, Sim.srBit, Sim.setSpr_sr_of_ne (by decide), Sim.setSpr_sprs_self,
      Sim.setSpr_sprs_of_ne (by decide)]
    exact hs hqueued

/-- What a write to any other register does: nothing about interrupts, apart from the bus error of
a prefetch. -/
inductive MtsprStep (cfg : Config) (s : Sim) (regno : Regno) (value : Word) (t : Sim) : Prop where
  | plain (h : SameInts s t)
  | prefetch (pa : Addr) (h : SameInts (evalsimMem (s.setSpr regno value) pa value .w4).2 t)
      (hpa : regno = sprDCBPR ∧ pa = peekIntoDtlb cfg (s.setSpr regno value) value false ∨
        regno = sprICBPR ∧ pa = peekIntoItlb cfg (s.setSpr regno value) value)

theorem mtspr_step (hsr : regno ≠ sprSR) (hpicmr : regno ≠ sprPICMR) (hpicsr : regno ≠ sprPICSR)
    (h : mtspr cfg s regno value = .ok t) : MtsprStep cfg s regno value t := by
  have hset : ∀ (s : Sim) (v : Word), SameInts s (s.setSpr regno v) :=
    fun s v => .setSpr hsr hpicmr hpicsr v
  cases mtspr_cases h with
  | ttcr hr h => exact .plain ((hset s value).trans (sprWriteTtcr_sameInts h))
  | ttmr hr h => exact .plain ((hset s value).trans (sprWriteTtmr_sameInts h))
  | special hr => exact absurd hr (by simp [hsr, hpicmr, hpicsr])
  | prefetch pa hpa ht => exact .prefetch pa (ht ▸ hset _ _) hpa
  | plain _ _ hsprs hsched _ _ _ =>
    refine .plain (.of_agree (fun r hr => hsprs r ?_) hsched)
    rintro rfl
    simp [hsr, hpicmr, hpicsr] at hr

theorem mtspr_armed (hs : Armed s) (hk : PicQueued s → MtsprKeeps cfg s regno value)
    (h : mtspr cfg s regno value = .ok t) : Armed t := by
  by_cases hpicsr : regno = sprPICSR
  · subst hpicsr
    refine mtspr_picsr_armed hs (fun hqueued => ?_) h
    simpa [MtsprKeeps] using hk hqueued
  by_cases hsr : regno = sprSR
  · subst hsr
    refine mtspr_sr_armed hs (fun hqueued => ?_) h
    simpa [MtsprKeeps, hpicsr] using hk hqueued
  by_cases hpicmr : regno = sprPICMR
  · subst hpicmr
    refine mtspr_picmr_armed hs (fun hqueued => ?_) h
    simpa [MtsprKeeps, hpicsr, hsr] using hk hqueued
  have hset : SameInts s (s.setSpr regno value) := .setSpr hsr hpicmr hpicsr value
  cases mtspr_step hsr hpicmr hpicsr h with
  | plain h => exact h.armed hs
  | prefetch pa h hpa =>
    refine h.armed (evalsimMem_armed (hset.armed hs) fun hqueued => ?_)
    rw [hset.picsr]
    rcases hpa with ⟨rfl, rfl⟩ | ⟨rfl, rfl⟩
    · simpa [MtsprKeeps, hpicsr, hsr, hpicmr] using hk hqueued
    · simpa [MtsprKeeps, hpicsr, hsr, hpicmr, show sprICBPR ≠ sprDCBPR by decide] using hk hqueued

end Mtspr

end Cpu
end Or1ksim
