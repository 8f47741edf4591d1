import Or1ksim.Cpu.Gating

/-!
# No interrupt is lost

An interrupt becomes deliverable when its line rises, when the mask is opened or when interrupts are
enabled, and each of these queues `pic_rep_int`.

* `Mild` — what instructions and exceptions do, apart from writes to the registers that decide;
* `NoLoss` — a deliverable interrupt is queued and due;
* `no_lost_interrupt` — **no interrupt is lost** in any run.
-/

namespace Or1ksim
namespace Cpu

open Bits Insn

/-! ### The invariant -/

/-- While an interrupt is deliverable, `pic_rep_int` is queued and due. -/
structure NoLoss (s : Sim) : Prop where
  inv : Sched.Inv s.sched
  due : Deliverable s → s.sched.Due .picRepInt

/-- A change that leaves everything about interrupts, or disables them. -/
inductive Mild (s t : Sim) : Prop where
  | same (h : SameInts s t)
  | disabled (hiee : t.srBit srIEE = false) (hinv : Sched.Inv s.sched → Sched.Inv t.sched)

section Mild

variable {s q t : Sim}

theorem Mild.trans (h : Mild s q) (h' : Mild q t) : Mild s t := by
  cases h' with
  | same h' =>
    cases h with
    | same h => exact .same (h.trans h')
    | disabled hiee hinv => exact .disabled (h'.iee.trans hiee) (h'.jobs.inv ∘ hinv)
  | disabled hiee hinv =>
    refine .disabled hiee (hinv ∘ ?_)
    cases h with
    | same h => exact h.jobs.inv
    | disabled _ hinv' => exact hinv'

theorem Mild.inv (h : Mild s t) (hs : Sched.Inv s.sched) : Sched.Inv t.sched := by
  cases h with
  | same h => exact h.jobs.inv hs
  | disabled _ hinv => exact hinv hs

theorem Mild.noLoss (h : Mild s t) (hs : NoLoss s) : NoLoss t := by
  cases h with
  | same h =>
    refine ⟨h.jobs.inv hs.inv, fun hdel => h.jobs.due (hs.due ?_)⟩
    rwa [Deliverable, h.iee, h.picmr, h.picsr] at hdel
  | disabled hiee hinv =>
    refine ⟨hinv hs.inv, fun hdel => ?_⟩
    have := hdel.1
    rw [hiee] at this
    cases this

theorem enterException_mild {e : Exception} {ea : Addr} : Mild s (enterException s e ea) := by
  refine .disabled (enterException_iee s e ea) fun hs => ?_
  rwa [enterException_sched]

theorem exceptHandle_mild {e : Exception} {ea : Addr} : Mild s (exceptHandle s e ea) := by
  have hsame : SameInts s (debugIgnoreException s e) := .of_quiet (.debugIgnoreException s e)
  unfold exceptHandle
  dsimp only
  split
  · exact .same hsame
  · exact (Mild.same hsame).trans enterException_mild

theorem Outcome.mild (h : Outcome s t) : Mild s t := by
  cases h with
  | quiet h => exact .same (.of_quiet h)
  | entered q e ea h _ ht =>
    subst ht
    exact (Mild.same (.of_quiet h)).trans enterException_mild

end Mild

/-! ### Writes to the registers that decide -/

section Mtspr

variable {cfg : Config} {s t : Sim} {regno : Regno} {value : Word}

/-- `pic_ints_en` queues the job if an interrupt is deliverable. -/
theorem picIntsEn_noLoss (hs : Sched.Inv s.sched) (h : picIntsEn s = .ok t) : NoLoss t := by
  unfold picIntsEn at h
  split at h
  case isTrue =>
    obtain ⟨q, hq, rfl⟩ := withSched_eq_ok h
    exact ⟨hs.schedAdd le_rfl hq, fun _ => Sched.due_schedAdd hq⟩
  case isFalse hmask =>
    cases h
    exact ⟨hs, fun hdel => absurd hdel.2 hmask⟩

theorem mtspr_sr_noLoss (hs : NoLoss s) (h : mtspr cfg s sprSR value = .ok t) : NoLoss t := by
  have hiee : (s.setSpr sprSR (setBit value srFO)).srBit srIEE = value.getLsbD srIEE := by
    rw [Sim.srBit, Sim.setSpr_sr, getLsbD_setBit]
    simp [srIEE, srFO]
  rw [mtspr_sr] at h
  dsimp only at h
  split at h
  case isTrue => exact picIntsEn_noLoss (s := s.setSpr sprSR _) hs.inv h
  case isFalse hrise =>
    cases h
    refine ⟨hs.inv, fun hdel => hs.due ?_⟩
    -- Interrupts were enabled before.
    obtain ⟨hon, hmask⟩ := hdel
    rw [hiee] at hon
    rw [Sim.setSpr_sprs_of_ne (by decide), Sim.setSpr_sprs_of_ne (by decide)] at hmask
    refine ⟨?_, hmask⟩
    rw [← Bool.not_eq_false]
    exact fun hoff => hrise ⟨hon, hoff⟩

theorem mtspr_picmr_noLoss (hs : NoLoss s) (h : mtspr cfg s sprPICMR value = .ok t) :
    NoLoss t := by
  rw [mtspr_picmr] at h
  dsimp only at h
  split at h
  case isTrue => exact picIntsEn_noLoss (s := s.setSpr sprPICMR _) hs.inv h
  case isFalse hoff =>
    cases h
    exact ⟨hs.inv, fun hdel => absurd hdel.1 hoff⟩

/-- With level-triggered interrupts a write to `SPR_PICSR` has no effect. -/
theorem mtspr_picsr_noLoss (hedge : cfg.edgeTrigger = false) (hs : NoLoss s)
    (h : mtspr cfg s sprPICSR value = .ok t) : NoLoss t := by
  have hraw : mtspr cfg s sprPICSR value =
      .ok (if cfg.edgeTrigger then s.setSpr sprPICSR value
        else (s.setSpr sprPICSR value).setSpr sprPICSR (s.sprs sprPICSR)) := rfl
  rw [hraw, hedge, if_neg Bool.false_ne_true, Sim.setSpr_setSpr] at h
  cases h
  refine Mild.noLoss (.same ?_) hs
  refine ⟨?_, Sim.setSpr_sprs_of_ne (by decide), Sim.setSpr_sprs_self, .refl _ _⟩
  rw [Sim.srBit, Sim.setSpr_sr_of_ne (by decide), Sim.srBit]

theorem mtspr_noLoss (hedge : cfg.edgeTrigger = false) (hs : NoLoss s)
    (h : mtspr cfg s regno value = .ok t) : NoLoss t := by
  by_cases hsr : regno = sprSR
  · exact mtspr_sr_noLoss hs (hsr ▸ h)
  by_cases hpicmr : regno = sprPICMR
  · exact mtspr_picmr_noLoss hs (hpicmr ▸ h)
  by_cases hpicsr : regno = sprPICSR
  · exact mtspr_picsr_noLoss hedge hs (hpicsr ▸ h)
  cases mtspr_step hsr hpicmr hpicsr h with
  | plain h => exact (Mild.same h).noLoss hs
  | prefetch pa h _ =>
    have hset : SameInts s (s.setSpr regno value) := .setSpr hsr hpicmr hpicsr value
    have hprefetch := (evalsimMem_outcome (s.setSpr regno value) pa value .w4).mild
    exact (((Mild.same hset).trans hprefetch).trans (.same h)).noLoss hs

end Mtspr

/-! ### Instructions -/

section Instructions

variable {cfg : Config} {s t : Sim}

theorem noLoss_keeps (hedge : cfg.edgeTrigger = false) : Keeps cfg NoLoss where
  calm h hs := (Mild.same (.of_calm h)).noLoss hs
  enter hs := enterException_mild.noLoss hs
  mtspr h hs := mtspr_noLoss hedge hs h

theorem cpuClock_noLoss (hedge : cfg.edgeTrigger = false) (hs : NoLoss s)
    (h : cpuClock cfg s = .ok t) : NoLoss t := cpuClock_keeps (noLoss_keeps hedge) hs h

end Instructions

/-! ### Events -/

section Events

variable {cfg : Config} {s t : Sim}

theorem reportInterrupt_noLoss {line : Fin 32} (hpic : cfg.picEnabled = true) (hs : NoLoss s)
    (h : reportInterrupt cfg s line = .ok t) : NoLoss t := by
  unfold reportInterrupt at h
  simp only [hpic, Bool.not_true, Bool.false_eq_true, if_false] at h
  generalize hu : s.setSpr sprPMR (s.sprs sprPMR &&& ~~~0x30#32) = u at h
  have hsame : SameInts s u := hu ▸ .setSpr (by decide) (by decide) (by decide) _
  have hnoLoss : NoLoss u := (Mild.same hsame).noLoss hs
  split at h
  · cases h
    exact hnoLoss
  · split at h
    case isTrue =>
      obtain ⟨q, hq, rfl⟩ := withSched_eq_ok h
      exact ⟨hnoLoss.inv.schedAdd le_rfl hq, fun _ => Sched.due_schedAdd hq⟩
    case isFalse hoff =>
      cases h
      refine ⟨hnoLoss.inv, fun hdel => hnoLoss.due ?_⟩
      obtain ⟨hon, hmask⟩ := hdel
      -- The new line is masked, so another one was deliverable before.
      have hline : u.sprs sprPICMR &&& BitVec.twoPow 32 line = 0 := by
        by_contra hne
        refine hoff ⟨?_, hon⟩
        rwa [Sim.setSpr_sprs_of_ne (by decide)]
      rw [setSpr_srBit (by decide)] at hon
      rw [Sim.setSpr_sprs_of_ne (by decide), Sim.setSpr_sprs_self] at hmask
      refine ⟨hon, fun hzero => hmask ?_⟩
      rw [BitVec.and_or_distrib_left, hzero, hline]
      exact BitVec.or_zero

theorem clearInterrupt_noLoss {line : Fin 32} (hs : NoLoss s) :
    NoLoss (clearInterrupt s line) := by
  refine ⟨hs.inv, fun hdel => hs.due ?_⟩
  obtain ⟨hon, hmask⟩ := hdel
  rw [clearInterrupt, setSpr_srBit (by decide)] at hon
  rw [clearInterrupt, Sim.setSpr_sprs_of_ne (by decide), Sim.setSpr_sprs_self] at hmask
  refine ⟨hon, fun hzero => hmask ?_⟩
  rw [← BitVec.and_assoc, hzero]
  exact BitVec.zero_and

theorem lineOp_noLoss {op : LineOp} (hpic : cfg.picEnabled = true) (hs : NoLoss s)
    (h : op.exec cfg s = .ok t) : NoLoss t := by
  cases op with
  | report line => exact reportInterrupt_noLoss hpic hs h
  | clear line =>
    cases h
    exact clearInterrupt_noLoss hs

/-- `pic_rep_int` leaves interrupts disabled or finds none pending. -/
theorem picRepInt_noLoss (hinv : Sched.Inv s.sched) (hint : intercepted s .int = false) :
    NoLoss (picRepInt s) := by
  unfold picRepInt
  split
  case isTrue =>
    have hsame : SameInts s (debugIgnoreException s .int) :=
      .of_quiet (.debugIgnoreException s .int)
    rw [exceptHandle, hint]
    refine ⟨?_, fun hdel => ?_⟩
    · rw [if_neg Bool.false_ne_true, enterException_sched]
      exact hsame.jobs.inv hinv
    · rw [if_neg Bool.false_ne_true] at hdel
      have := hdel.1
      rw [enterException_iee] at this
      cases this
  case isFalse hnone =>
    refine ⟨hinv, fun hdel => absurd ?_ hdel.2⟩
    rw [not_not.1 hnone]
    exact BitVec.and_zero

theorem job_noLoss {job : Job} (hpic : cfg.picEnabled = true) (hjob : job ≠ .picRepInt)
    (hs : NoLoss s) (h : job.exec cfg s = .ok t) : NoLoss t := by
  have hset : ∀ {r : Regno} (v : Word), r = sprTTMR ∨ r = sprTTCR → SameInts s (s.setSpr r v) := by
    rintro r v (rfl | rfl) <;> exact .setSpr (by decide) (by decide) (by decide) v
  cases job with
  | schedGuard =>
    obtain ⟨q, hq, rfl⟩ := withSched_eq_ok h
    exact (Mild.same (withSched_sameInts (Sched.keepsJob_schedGuard (by decide) hq))).noLoss hs
  | picRepInt => exact absurd rfl hjob
  | tickRaiseExcept =>
    obtain ⟨u, hu, h⟩ := Runs.bind_eq_ok_iff.1 h
    have hu : NoLoss u :=
      (Mild.same ((hset _ (.inl rfl)).trans (schedNextInsn_sameInts (by decide) hu))).noLoss hs
    cases h
    split
    · exact exceptHandle_mild.noLoss hu
    · exact hu
  | tickRestart =>
    refine Mild.noLoss (.same ?_) hs
    refine SameInts.trans ?_ (schedAdd_sameInts (by decide) h)
    exact (hset 0 (.inr rfl)).trans (.of_sprs rfl rfl)
  | tickOneShot =>
    cases h
    refine Mild.noLoss (.same ?_) hs
    exact (hset _ (.inr rfl)).trans (.of_sprs rfl rfl)
  | device ops =>
    have hstep : ∀ (s : Sim) (op : LineOp) (t : Sim), NoLoss s → True →
        op.exec cfg s = .ok t → NoLoss t := fun s op t hs _ h => lineOp_noLoss hpic hs h
    exact Runs.foldlM_invariant hstep hs (Runs.along_of_forall (fun _ _ => trivial) s) h

theorem event_noLoss {e : Event} (hpic : cfg.picEnabled = true) (hedge : cfg.edgeTrigger = false)
    (hint : intercepted s .int = false) (hs : NoLoss s) (h : e.exec cfg s = .ok t) : NoLoss t := by
  cases e with
  | clock => exact cpuClock_noLoss hedge hs h
  | charge cycles =>
    obtain ⟨q, hq, rfl⟩ := withSched_eq_ok h
    have hsame : SameInts s { s with cycles := s.cycles + BitVec.ofNat 64 cycles, sched := q } :=
      ⟨rfl, rfl, rfl, Sched.keepsJob_charge (Int.natCast_nonneg cycles) hq⟩
    exact (Mild.same hsame).noLoss hs
  | job =>
    obtain rfl | ⟨tmp, q, hpop, h⟩ := Event.exec_job_cases h
    · exact hs
    · by_cases hfunc : tmp.func = .picRepInt
      · rw [hfunc] at h
        cases h
        exact picRepInt_noLoss (s := { s with sched := q }) (hs.inv.popJob hpop) hint
      · refine job_noLoss (s := { s with sched := q }) hpic hfunc ?_ h
        exact (Mild.same (withSched_sameInts (Sched.keepsJob_popJob hfunc hpop))).noLoss hs
  | line op => exact lineOp_noLoss hpic hs h
  | queue ops time =>
    have hjob : Job.picRepInt ≠ .device ops := nofun
    exact (Mild.same (schedAdd_sameInts hjob h)).noLoss hs

end Events

/-! ### Delivery -/

theorem inv_resetSched : Sched.Inv resetSched := by
  have hguard : Sched.schedGuard Job.schedGuard
      { freeJobQueue := (List.range Sched.schedHeapSize).map fun i => ⟨i, 0, (), .schedGuard⟩
        jobQueue := [] } () = some resetSched := rfl
  refine Sched.inv_of_guard ?_ hguard
  rw [List.map_map]
  exact .of_eq (List.map_id _)

/-- **No lost interrupt.**  With a level-triggered interrupt controller and no exception intercepted
by the debug unit, whenever an interrupt is deliverable in a run from a reset, `pic_rep_int` is
queued and due; so none is deliverable at the end of a scheduler pass. -/
theorem no_lost_interrupt {cfg : Config} (hpic : cfg.picEnabled = true)
    (hedge : cfg.edgeTrigger = false) {upr sr : Word} {mem : Memory} {s₁ s : Sim}
    {es : List Event}
    (hreset : simReset cfg (powerOn upr sr mem) = .ok s₁)
    (hdebug : Runs.Along (Event.exec cfg) (fun u _ => ∀ e, intercepted u e = false) s₁ es)
    (hrun : exec cfg s₁ es = .ok s) :
    (Deliverable s → s.sched.Due .picRepInt) ∧
      (Sched.headDue s.sched = false → ¬Deliverable s) := by
  obtain ⟨s₁', hreset', hs₁⟩ := simReset_powerOn cfg upr sr mem
  cases hreset.symm.trans hreset'
  have hnoLoss₁ : NoLoss s₁ := by
    refine ⟨hs₁.sched ▸ inv_resetSched, fun hdel => absurd ?_ hdel.2⟩
    rw [hs₁.picsr]
    exact BitVec.and_zero
  have hs : NoLoss s := Runs.foldlM_invariant
    (fun s e t hs hint h => event_noLoss hpic hedge (hint .int) hs h) hnoLoss₁ hdebug hrun
  exact ⟨hs.due, fun hhead hdel => Sched.not_due_of_headDue hs.inv hhead (hs.due hdel)⟩

/-- A level-triggered interrupt controller. -/
def levelConfig : Config := { defaultConfig with edgeTrigger := false }

/-- A line that is asserted while interrupts are enabled is deliverable, and its job is due. -/
theorem no_lost_interrupt_report :
    ∃ s₁ s, simReset levelConfig (powerOn 0x601 0x8005 returnAtReset) = .ok s₁ ∧
      exec levelConfig s₁ [.clock, .line (.report 0)] = .ok s ∧ Deliverable s ∧
      s.sched.Due .picRepInt := by
  obtain ⟨s₁, s₂, hreset, -, hdsr₁, hclock, hs₂⟩ := returnAtReset_first levelConfig rfl
  obtain ⟨q, tmp, q', hq, -⟩ := resetSched_one
  obtain ⟨s₃, hreport, hs₃⟩ := Waiting.report levelConfig rfl hs₂ 0 (by decide) (by decide) hq
  have hrun : exec levelConfig s₁ [.clock, .line (.report 0)] = .ok s₃ :=
    Runs.foldlM_cons_eq_ok_iff.2 ⟨s₂, hclock, Runs.foldlM_cons_eq_ok_iff.2 ⟨s₃, hreport, rfl⟩⟩
  have hdebug : Runs.Along (Event.exec levelConfig) (fun u _ => ∀ e, intercepted u e = false) s₁
      [.clock, .line (.report 0)] := by
    refine ⟨fun e => ?_, fun u hu => ⟨fun e => ?_, fun _ _ => trivial⟩⟩
    · rw [intercepted, hdsr₁]
      exact BitVec.getLsbD_zero
    · cases hclock.symm.trans hu
      rw [intercepted, hs₂.dsr]
      exact BitVec.getLsbD_zero
  have hdel : Deliverable s₃ := by
    refine ⟨?_, ?_⟩
    · rw [Sim.srBit, hs₃.sr]
      decide
    · rw [hs₃.picmr, hs₃.picsr]
      decide
  exact ⟨s₁, s₃, hreset, hrun, hdel, (no_lost_interrupt rfl rfl hreset hdebug hrun).1 hdel⟩

end Cpu
end Or1ksim
