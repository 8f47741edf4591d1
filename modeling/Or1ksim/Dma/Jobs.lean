import Or1ksim.Dma.Basic

/-!
# The clocks of the DMA channels

* `AutoRestarts` — a clock that restarts its transfer by itself, and does not queue itself again;
* `dmaChannelClock_cases` — what becomes of a channel and its job when its clock runs;
* `dma_jobs` — **the clock of a channel is queued exactly once while the channel is enabled and not
  at all otherwise, and only enabled channels are busy, in every run in which no busy channel is
  disabled by software and no transfer restarts by itself**;
* `dma_jobs_abort`, `dma_jobs_restart` — either breaks it.
-/

namespace Or1ksim
namespace Dma

open Bits

variable {s t : State} {c d : ChannelNo} {ch : Channel} {mem : Word → Word} {w : World}

/-! ### Flags -/

@[simp] theorem flag_dmaInitTransfer (ch : Channel) (k : ℕ) :
    (dmaInitTransfer ch).flag k = ch.flag k := rfl

@[simp] theorem flag_writeBack (ch : Channel) (k : ℕ) : (writeBack ch).flag k = ch.flag k := by
  unfold writeBack
  split <;> rfl

@[simp] theorem flag_advance (ch : Channel) (k : ℕ) : (advance ch).flag k = ch.flag k := rfl

/-- A descriptor sets how the addresses move, and no other flag. -/
theorem flag_dmaLoadDescriptor {k : ℕ} (hk : k ∉ [csrINCSRC, csrINCDST, csrSRCSEL, csrDSTSEL]) :
    (dmaLoadDescriptor mem ch).flag k = ch.flag k := by
  simp only [List.mem_cons, List.not_mem_nil, or_false, not_or] at hk
  obtain ⟨h₁, h₂, h₃, h₄⟩ := hk
  simp [dmaLoadDescriptor, Channel.flag, h₁, h₂, h₃, h₄]

/-- The first cycle of a transfer touches the flags of its progress only. -/
theorem flag_begun {k : ℕ} (hk : k ∉ [csrINCSRC, csrINCDST, csrSRCSEL, csrDSTSEL])
    (hprogress : k ∉ [csrDONE, csrERR, csrBUSY]) : (begun mem ch).flag k = ch.flag k := by
  simp only [List.mem_cons, List.not_mem_nil, or_false, not_or] at hprogress
  obtain ⟨h₁, h₂, h₃⟩ := hprogress
  have hflag : Channel.flag { ch with
      csr := setBit (clearBit (clearBit ch.csr csrDONE) csrERR) csrBUSY } k = ch.flag k := by
    simp [Channel.flag, h₁, h₂, h₃]
  unfold begun startTransfer
  split
  · rfl
  · rw [flag_dmaInitTransfer]
    split
    · rw [flag_dmaLoadDescriptor hk, hflag]
    · exact hflag

theorem flag_markDone (ch : Channel) :
    (markDone ch).flag csrCHEN = false ∧ (markDone ch).flag csrBUSY = false := by
  simp only [markDone, Channel.flag, getLsbD_clearBit, getLsbD_setBit]
  constructor <;> simp [csrCHEN, csrBUSY, csrDONE, csrERR]

theorem flag_stopCh (ch : Channel) :
    (stopCh ch).flag csrCHEN = false ∧ (stopCh ch).flag csrBUSY = false := by
  simp only [stopCh, Channel.flag, getLsbD_clearBit, getLsbD_setBit]
  constructor <;> simp [csrCHEN, csrBUSY, csrERR]

/-! ### One clock -/

@[simp] theorem setCh_self (s : State) (c : ChannelNo) (ch : Channel) :
    (s.setCh c ch).ch c = ch := by
  dsimp only [State.setCh]
  rw [Function.update_self]

theorem setCh_of_ne (hd : d ≠ c) (s : State) (ch : Channel) : (s.setCh c ch).ch d = s.ch d := by
  dsimp only [State.setCh]
  rw [Function.update_of_ne hd]

theorem withSched_eq_ok {o : Option (Sched.Queue ChannelNo)} (h : s.withSched o = .ok t) :
    ∃ q, o = some q ∧ t = { s with sched := q } := by
  cases o with
  | none => cases h
  | some q =>
    cases h
    exact ⟨q, rfl, rfl⟩

/-- An interrupt changes no other channel, no other flag and not the queue. -/
theorem raiseInt_same (ine int : ℕ) (s : State) (c : ChannelNo) :
    (raiseInt ine int c s).sched = s.sched ∧ (∀ d ≠ c, (raiseInt ine int c s).ch d = s.ch d) ∧
      ∀ k ≠ int, ((raiseInt ine int c s).ch c).flag k = (s.ch c).flag k := by
  unfold raiseInt
  split
  · refine ⟨rfl, fun d hd => setCh_of_ne hd _ _, fun k hk => ?_⟩
    change ((s.setCh c _).ch c).flag k = _
    rw [setCh_self]
    simp [Channel.flag, hk]
  · exact ⟨rfl, fun _ _ => rfl, fun _ _ => rfl⟩

/-- What becomes of a channel and its job when its clock runs. -/
inductive Ticked (s t : State) (c : ChannelNo) : Prop where
  /-- The transfer is over, and the clock is not queued. -/
  | ended (hsched : t.sched = s.sched) (hen : (t.ch c).flag csrCHEN = false)
      (hbusy : (t.ch c).flag csrBUSY = false)
  /-- The transfer goes on, and the clock is queued. -/
  | queued (hsched : Sched.schedAdd s.sched (.job c) () 1 = some t.sched)
      (hen : (t.ch c).flag csrCHEN = (s.ch c).flag csrCHEN)

/-- The transfer ends at a channel that is to restart by itself. -/
def Restarts (ch : Channel) : Prop :=
  ch.loadNextDescriptorWhenDone = false ∧ ch.flag csrARS = true

theorem terminateTransfer_cases {gen : Bool} (h : terminateTransfer mem gen c s = .ok t) :
    (∀ d ≠ c, t.ch d = s.ch d) ∧ (Ticked s t c ∨ Restarts (s.ch c)) := by
  unfold terminateTransfer at h
  split at h
  · -- the next descriptor of a linked list
    obtain ⟨q, hq, rfl⟩ := withSched_eq_ok h
    refine ⟨fun d hd => setCh_of_ne hd s _, .inl (.queued hq ?_)⟩
    change ((s.setCh c _).ch c).flag csrCHEN = _
    rw [setCh_self, flag_dmaInitTransfer, flag_dmaLoadDescriptor (by decide)]
  · next hload =>
    split at h
    · next hars =>
      cases h
      exact ⟨fun d hd => setCh_of_ne hd s _, .inr ⟨by simpa using hload, hars⟩⟩
    · cases h
      obtain ⟨hen, hbusy⟩ := flag_markDone (writeBack (s.ch c))
      split
      · obtain ⟨hsched, hother, hflag⟩ := raiseInt_same csrINEDONE csrINTDONE
          (s.setCh c (markDone (writeBack (s.ch c)))) c
        refine ⟨fun d hd => (hother d hd).trans (setCh_of_ne hd s _), .inl (.ended hsched ?_ ?_)⟩
        · rw [hflag _ (by decide), setCh_self, hen]
        · rw [hflag _ (by decide), setCh_self, hbusy]
      · refine ⟨fun d hd => setCh_of_ne hd s _, .inl (.ended rfl ?_ ?_)⟩
        · rw [setCh_self, hen]
        · rw [setCh_self, hbusy]

/-- The clock gets as far as the transfer: it is not stopped, and in handshake mode requested. -/
def GetsThrough (ch : Channel) : Prop :=
  ch.flag csrSTOP = false ∧ (ch.flag csrMODE = true → ch.dmaReqI = true)

/-- The clock comes to the end of the transfer: at a descriptor that is skipped, or with the last
word. -/
def Finishes (mem : Word → Word) (ch : Channel) : Prop :=
  ch.flag csrBUSY = false ∧ (begun mem ch).ndI = true ∨
    (begun mem ch).chunkSize ≠ 0 ∧ ((begun mem ch).ndI = true ∨
      (begun mem ch).totalSize ≤ (begun mem ch).wordsTransferred + 1)

/-- The clock comes to the end of a transfer that is to restart by itself. -/
def AutoRestarts (mem : Word → Word) (ch : Channel) : Prop :=
  GetsThrough ch ∧ Finishes mem ch ∧ Restarts (begun mem ch)

theorem transferWord_cases (h : transferWord w c s = .ok t) :
    (∀ d ≠ c, t.ch d = s.ch d) ∧
      (Ticked s t c ∨ (s.ch c).chunkSize ≠ 0 ∧ ((s.ch c).ndI = true ∨
        (s.ch c).totalSize ≤ (s.ch c).wordsTransferred + 1) ∧ Restarts (s.ch c)) := by
  unfold transferWord at h
  dsimp only at h
  split at h
  · cases h
  · next hchunk =>
    set u := { s.setCh c (advance (s.ch c)) with
      stored := ((s.ch c).destination, w.before (s.ch c).source) :: s.stored } with hu
    have hch : u.ch c = advance (s.ch c) := setCh_self s c _
    have hother : ∀ d ≠ c, u.ch d = s.ch d := fun d hd => setCh_of_ne hd s _
    have hback : Ticked u t c ∨ Restarts (u.ch c) → Ticked s t c ∨ Restarts (s.ch c) := by
      rw [hch]
      rintro (hend | hrestart)
      · left
        cases hend with
        | ended hsched hen hbusy => exact .ended hsched hen hbusy
        | queued hsched hen => exact .queued hsched (hen.trans (by rw [hch, flag_advance]))
      · exact .inr hrestart
    split at h
    · next hnd =>
      obtain ⟨hsame, hcases⟩ := terminateTransfer_cases h
      exact ⟨fun d hd => (hsame d hd).trans (hother d hd),
        (hback hcases).imp id fun hr => ⟨hchunk, .inl hnd, hr⟩⟩
    · split at h
      · next hlast =>
        obtain ⟨hsame, hcases⟩ := terminateTransfer_cases h
        exact ⟨fun d hd => (hsame d hd).trans (hother d hd),
          (hback hcases).imp id fun hr => ⟨hchunk, .inr hlast, hr⟩⟩
      · obtain ⟨q, hq, rfl⟩ := withSched_eq_ok h
        exact ⟨hother, .inl (.queued hq (by rw [hch, flag_advance]))⟩

/-- A clock ends the transfer or queues itself, unless the transfer restarts by itself. -/
theorem dmaChannelClock_cases (h : dmaChannelClock w c s = .ok t) :
    (∀ d ≠ c, t.ch d = s.ch d) ∧ (Ticked s t c ∨ AutoRestarts w.before (s.ch c)) := by
  unfold dmaChannelClock at h
  split at h
  · cases h
    obtain ⟨hsched, hother, hflag⟩ := raiseInt_same csrINEERR csrINTERR
      (s.setCh c (stopCh (s.ch c))) c
    obtain ⟨hen, hbusy⟩ := flag_stopCh (s.ch c)
    refine ⟨fun d hd => (hother d hd).trans (setCh_of_ne hd s _), .inl (.ended hsched ?_ ?_)⟩
    · rw [hflag _ (by decide), setCh_self, hen]
    · rw [hflag _ (by decide), setCh_self, hbusy]
  · next hstop =>
    split at h
    · obtain ⟨q, hq, rfl⟩ := withSched_eq_ok h
      exact ⟨fun _ _ => rfl, .inl (.queued hq rfl)⟩
    · next hwait =>
      have hruns : GetsThrough (s.ch c) := by
        refine ⟨by simpa using hstop, fun hmode => ?_⟩
        simpa [hmode] using hwait
      set u := s.setCh c (begun w.before (s.ch c)) with hu
      have hch : u.ch c = begun w.before (s.ch c) := setCh_self s c _
      have hother : ∀ d ≠ c, u.ch d = s.ch d := fun d hd => setCh_of_ne hd s _
      have hback : Ticked u t c → Ticked s t c := by
        intro hend
        cases hend with
        | ended hsched hen hbusy => exact .ended hsched hen hbusy
        | queued hsched hen =>
          exact .queued hsched (hen.trans (by rw [hch, flag_begun (by decide) (by decide)]))
      dsimp only at h
      split at h
      · next hskip =>
        obtain ⟨hfirst, hnd⟩ := Bool.and_eq_true_iff.1 hskip
        obtain ⟨hsame, hcases⟩ := terminateTransfer_cases h
        refine ⟨fun d hd => (hsame d hd).trans (hother d hd), hcases.imp hback fun hr => ?_⟩
        rw [hch] at hr hnd
        exact ⟨hruns, .inl ⟨by simpa using hfirst, hnd⟩, hr⟩
      · obtain ⟨hsame, hcases⟩ := transferWord_cases h
        refine ⟨fun d hd => (hsame d hd).trans (hother d hd), hcases.imp hback ?_⟩
        rw [hch]
        rintro ⟨hchunk, hlast, hr⟩
        exact ⟨hruns, .inr ⟨hchunk, hlast⟩, hr⟩

/-! ### Runs -/

/-- The clock of a channel is queued once while the channel is enabled, and not at all otherwise;
only enabled channels are busy. -/
def JobsInv (s : State) : Prop :=
  ∀ c, Sched.Queue.pending s.sched c = ((s.ch c).flag csrCHEN).toNat ∧
    ((s.ch c).flag csrBUSY = true → (s.ch c).flag csrCHEN = true)

/-- A busy channel is not disabled by software, and no transfer restarts by itself. -/
def Fits (s : State) : Event → Prop
  | .write addr value => dmaChBase ≤ addr → (addr - dmaChBase) % dmaChSize = 0 →
      ∀ c ∈ channelAt addr, value.getLsbD csrCHEN = false → (s.ch c).flag csrBUSY = false
  | .schedule w =>
    match Sched.dispatch s.sched with
    | some (some c, _) => ¬AutoRestarts w.before (s.ch c)
    | _ => True
  | _ => True

theorem JobsInv.of_same (hs : JobsInv s) (hsched : t.sched = s.sched)
    (hflags : ∀ c, (t.ch c).flag csrCHEN = (s.ch c).flag csrCHEN ∧
      (t.ch c).flag csrBUSY = (s.ch c).flag csrBUSY) : JobsInv t := by
  intro c
  rw [hsched, (hflags c).1, (hflags c).2]
  exact hs c

theorem JobsInv.setCh (hs : JobsInv s) {c : ChannelNo} {ch : Channel}
    (hen : ch.flag csrCHEN = (s.ch c).flag csrCHEN)
    (hbusy : ch.flag csrBUSY = (s.ch c).flag csrBUSY) : JobsInv (s.setCh c ch) := by
  refine hs.of_same rfl fun d => ?_
  by_cases hd : d = c
  · subst hd
    rw [setCh_self]
    exact ⟨hen, hbusy⟩
  · rw [setCh_of_ne hd]
    exact ⟨rfl, rfl⟩

theorem jobsInv_clock {q : Sched.Queue ChannelNo} (hs : JobsInv s)
    (hq : Sched.dispatch s.sched = some (some c, q)) (hfits : ¬AutoRestarts w.before (s.ch c))
    (h : dmaChannelClock w c { s with sched := q } = .ok t) : JobsInv t := by
  obtain ⟨hother, hticked | hrestarts⟩ := dmaChannelClock_cases h
  · have hoff := Sched.pending_dispatch hq
    have hen : (s.ch c).flag csrCHEN = true := by
      have hone := (hs c).1
      rw [hoff c, if_pos rfl] at hone
      cases hflag : (s.ch c).flag csrCHEN with
      | true => rfl
      | false =>
        rw [hflag, Bool.toNat_false] at hone
        omega
    have hzero : Sched.Queue.pending q c = 0 := by
      have hone := (hs c).1
      rw [hoff c, if_pos rfl, hen, Bool.toNat_true] at hone
      omega
    have hsame : ∀ d ≠ c, Sched.Queue.pending q d = Sched.Queue.pending s.sched d := by
      intro d hd
      rw [hoff d, if_neg (fun h => hd (Option.some.inj h).symm), Nat.add_zero]
    intro d
    cases hticked with
    | ended hsched hen' hbusy =>
      rw [hsched]
      by_cases hd : d = c
      · subst hd
        rw [hen', hbusy]
        exact ⟨hzero, id⟩
      · rw [hother d hd]
        exact ⟨(hsame d hd).trans (hs d).1, (hs d).2⟩
    | queued hsched hen' =>
      rw [Sched.pending_schedAdd hsched]
      dsimp only
      by_cases hd : d = c
      · subst hd
        have hen' : (t.ch d).flag csrCHEN = true := hen'.trans hen
        rw [hzero, if_pos rfl, hen']
        exact ⟨rfl, fun _ => rfl⟩
      · rw [hother d hd, if_neg (Ne.symm hd), Nat.add_zero, hsame d hd]
        exact hs d
  · exact absurd hrestarts hfits

theorem jobsInv_writeChCsr {value : Word} (hs : JobsInv s)
    (hfits : value.getLsbD csrCHEN = false → (s.ch c).flag csrBUSY = false)
    (h : dmaWriteChCsr value c s = .ok t) : JobsInv t := by
  obtain ⟨u, hu, h⟩ := Runs.bind_eq_ok_iff.1 h
  obtain rfl := Except.ok.inj h
  have hflags : ∀ ch : Channel, (csrWritten value ch).flag csrCHEN = value.getLsbD csrCHEN ∧
      (csrWritten value ch).flag csrBUSY = ch.flag csrBUSY := by
    intro ch
    have hEN : csrWriteMask.getLsbD csrCHEN = true := by decide
    have hBUSY : csrWriteMask.getLsbD csrBUSY = false := by decide
    simp only [csrWritten, Channel.flag, BitVec.getLsbD_or, BitVec.getLsbD_and, BitVec.getLsbD_not,
      hEN, hBUSY]
    constructor <;> simp [csrBUSY]
  have hswitch : u.ch = s.ch ∧ ∀ d, Sched.Queue.pending u.sched d =
      if c = d then (value.getLsbD csrCHEN).toNat else Sched.Queue.pending s.sched d := by
    have hc := (hs c).1
    unfold switchClock at hu
    cases hwas : (s.ch c).flag csrCHEN <;> cases his : value.getLsbD csrCHEN <;>
      rw [hwas, his] at hu <;> rw [hwas] at hc
    case false.true =>
      obtain ⟨q, hq, rfl⟩ := withSched_eq_ok hu
      refine ⟨rfl, fun d => (Sched.pending_schedAdd hq d).trans ?_⟩
      split
      · next hd => rw [← hd, hc, Bool.toNat_false, Bool.toNat_true]
      · rfl
    case true.true =>
      cases hu
      refine ⟨rfl, fun d => ?_⟩
      split
      · next hd => rw [← hd, hc]
      · rfl
    case false.false | true.false =>
      obtain ⟨q, hq, rfl⟩ := withSched_eq_ok hu
      refine ⟨rfl, fun d => (Sched.pending_schedFindRemove hq d).trans ?_⟩
      split
      · next hd =>
        rw [← hd, hc]
        rfl
      · rfl
  obtain ⟨hch, hpending⟩ := hswitch
  intro d
  obtain ⟨hen, hbusy⟩ := hflags (u.ch c)
  by_cases hd : d = c
  · subst hd
    rw [setCh_self, hen, hbusy, hch]
    refine ⟨(hpending d).trans (if_pos rfl), fun hb => ?_⟩
    cases his : value.getLsbD csrCHEN with
    | true => rfl
    | false =>
      rw [hfits his] at hb
      exact hb
  · rw [setCh_of_ne hd, hch]
    exact ⟨((hpending d).trans (if_neg (Ne.symm hd))).trans (hs d).1, (hs d).2⟩

theorem flag_setChReg (ch : Channel) (value : Word) (k offset : ℕ) :
    (setChReg ch value offset).flag k = ch.flag k := by
  unfold setChReg
  split <;> rfl

theorem jobsInv_write {addr : ℕ} {value : Word} (hs : JobsInv s)
    (hfits : Fits s (.write addr value))
    (h : dmaWrite32 addr value s = .ok t) : JobsInv t := by
  unfold dmaWrite32 at h
  split at h
  · split at h <;>
    · cases h
      exact hs.of_same rfl fun _ => ⟨rfl, rfl⟩
  · next hbase =>
    split at h
    · cases h
      exact hs
    · next c hc =>
      split at h
      · next hcsr => exact jobsInv_writeChCsr hs (hfits (not_lt.1 hbase) hcsr c hc) h
      · cases h
        exact hs.setCh (flag_setChReg _ _ _ _) (flag_setChReg _ _ _ _)

theorem jobsInv_read (hs : JobsInv s) (addr : ℕ) : JobsInv (dmaRead32 addr s).2 := by
  unfold dmaRead32
  split
  · split
    case h_4 => exact hs.of_same rfl fun _ => ⟨rfl, rfl⟩
    all_goals exact hs
  · split
    · exact hs
    · next c hc =>
      split
      case h_1 =>
        refine hs.setCh ?_ ?_ <;>
        · simp only [dmaReadChCsr, Channel.flag, getLsbD_clearBit]
          simp [csrCHEN, csrBUSY, csrINTCHUNKDONE, csrINTDONE, csrINTERR, csrERR]
      all_goals exact hs

theorem jobsInv_event {e : Event} (hs : JobsInv s) (hfits : Fits s e) (h : e.exec s = .ok t) :
    JobsInv t := by
  cases e with
  | write addr value => exact jobsInv_write hs hfits h
  | read addr =>
    cases h
    exact jobsInv_read hs addr
  | reqI c value | ndI c value =>
    cases h
    exact hs.setCh rfl rfl
  | outside e =>
    obtain ⟨q, hq, rfl⟩ := withSched_eq_ok h
    exact fun c => ⟨(Sched.pending_outside hq c).trans (hs c).1, (hs c).2⟩
  | schedule w =>
    have h : runJob w s = .ok t := h
    unfold runJob at h
    rw [Fits] at hfits
    split at h
    case h_1 c q hq =>
      rw [hq] at hfits
      exact jobsInv_clock hs hq hfits h
    case h_2 q hq =>
      cases h
      refine fun c => ⟨?_, (hs c).2⟩
      have hoff := Sched.pending_dispatch hq c
      rw [if_neg nofun, Nat.add_zero] at hoff
      exact hoff.symm.trans (hs c).1
    case h_3 => cases h

theorem jobsInv_dmaReset {q : Sched.Queue ChannelNo} (hq : ∀ c, Sched.Queue.pending q c = 0) :
    JobsInv (dmaReset q) := by
  have hen : channelReset.flag csrCHEN = false := by decide
  have hbusy : channelReset.flag csrBUSY = false := by decide
  intro c
  change _ = (channelReset.flag csrCHEN).toNat ∧ (channelReset.flag csrBUSY = true → _)
  rw [hen, hbusy]
  exact ⟨hq c, nofun⟩

/-- The transfer is at its beginning: it goes from the address registers. -/
def Fresh (ch : Channel) : Prop :=
  ch.source = ch.a0 ∧ ch.destination = ch.a1 ∧ ch.wordsTransferred = 0

/-- A transfer that has not begun begins at the address registers. -/
theorem begun_fresh (hbusy : ch.flag csrBUSY = false) : Fresh (begun mem ch) := by
  unfold begun
  rw [hbusy]
  exact ⟨rfl, rfl, rfl⟩

theorem flag_csrWritten_busy (value : Word) (ch : Channel) :
    (csrWritten value ch).flag csrBUSY = ch.flag csrBUSY := by
  have hBUSY : csrWriteMask.getLsbD csrBUSY = false := by decide
  simp only [csrWritten, Channel.flag, BitVec.getLsbD_or, BitVec.getLsbD_and, BitVec.getLsbD_not,
    hBUSY]
  simp [csrBUSY]

/-- **The clock of a channel is queued exactly once while the channel is enabled and not at all
otherwise, and only enabled channels are busy, in every run in which no busy channel is disabled by
software and no transfer restarts by itself.**  So a channel that is not enabled begins its next
transfer at its address registers. -/
theorem dma_jobs {q : Sched.Queue ChannelNo} {es : List Event}
    (hq : ∀ c, Sched.Queue.pending q c = 0) (hfits : Runs.Along Event.exec Fits (dmaReset q) es) :
    ∀ pre, pre <+: es → ∀ t, pre.foldlM Event.exec (dmaReset q) = .ok t → ∀ c,
      Sched.Queue.pending t.sched c = (if (t.ch c).flag csrCHEN then 1 else 0) ∧
      ((t.ch c).flag csrBUSY = true → (t.ch c).flag csrCHEN = true) ∧
      ((t.ch c).flag csrCHEN = false →
        ∀ mem value, Fresh (begun mem (csrWritten value (t.ch c)))) := by
  intro pre hpre t h c
  have hinv : JobsInv t := Runs.foldlM_invariant (fun _ _ _ hs hfits h => jobsInv_event hs hfits h)
    (jobsInv_dmaReset hq) (hfits.of_prefix hpre) h
  obtain ⟨hpending, hbusy⟩ := hinv c
  refine ⟨?_, hbusy, fun hen mem value => ?_⟩
  · rw [hpending]
    cases (t.ch c).flag csrCHEN <;> rfl
  · refine begun_fresh ((flag_csrWritten_busy value (t.ch c)).trans ?_)
    cases hb : (t.ch c).flag csrBUSY with
    | false => rfl
    | true => exact absurd (hbusy hb) (by rw [hen]; exact Bool.false_ne_true)

section Decidable

instance (ch : Channel) : Decidable (GetsThrough ch) := inferInstanceAs (Decidable (_ ∧ (_ → _)))

instance (mem : Word → Word) (ch : Channel) : Decidable (Finishes mem ch) :=
  inferInstanceAs (Decidable (_ ∧ _ ∨ _ ∧ (_ ∨ _)))

instance (ch : Channel) : Decidable (Restarts ch) := inferInstanceAs (Decidable (_ ∧ _))

instance (mem : Word → Word) (ch : Channel) : Decidable (AutoRestarts mem ch) :=
  inferInstanceAs (Decidable (_ ∧ _ ∧ _))

instance (s : State) : (e : Event) → Decidable (Fits s e)
  | .write _ _ => inferInstanceAs (Decidable (_ → _ → ∀ c ∈ _, _ → _))
  | .read _ | .reqI _ _ | .ndI _ _ | .outside _ => .isTrue trivial
  | .schedule w =>
    match h : Sched.dispatch s.sched with
    | some (some c, _) => decidable_of_iff (¬AutoRestarts w.before (s.ch c)) (by rw [Fits, h])
    | some (none, _) => .isTrue (by rw [Fits, h]; trivial)
    | none => .isTrue (by rw [Fits, h]; trivial)

end Decidable

/-- A memory of zeros, which stays so. -/
def World.zeros : World := ⟨fun _ => 0, fun _ => 0⟩

/-- A word is transferred by channel 0. -/
theorem dma_jobs_word :
    ∃ t, [Event.write 0x24 1, .write 0x20 1, .outside (.charge 1),
          .schedule .zeros].foldlM Event.exec (dmaReset Sched.idleQueue) = .ok t ∧
      (t.ch 0).flag csrDONE = true ∧
      Sched.Queue.pending t.sched 0 = (if (t.ch 0).flag csrCHEN then 1 else 0) ∧
      ((t.ch 0).flag csrBUSY = true → (t.ch 0).flag csrCHEN = true) ∧
      ((t.ch 0).flag csrCHEN = false →
        ∀ mem value, Fresh (begun mem (csrWritten value (t.ch 0)))) := by
  obtain ⟨t, ht, hdone⟩ := Runs.exists_ok_of_any (p := fun t : State => (t.ch 0).flag csrDONE)
    (x := [Event.write 0x24 1, .write 0x20 1, .outside (.charge 1),
      .schedule .zeros].foldlM Event.exec (dmaReset Sched.idleQueue)) (by decide)
  exact ⟨t, ht, hdone, dma_jobs Sched.pending_idleQueue (by decide) _ (List.prefix_refl _) t
    ht 0⟩

/-- **A busy channel that is disabled stays busy, and a transfer that restarts by itself leaves its
channel enabled without a clock.** -/
theorem dma_jobs_broken :
    (∃ t, [Event.write 0x24 2, .write 0x20 1, .outside (.charge 1), .schedule .zeros,
          .write 0x20 0].foldlM Event.exec (dmaReset Sched.idleQueue) = .ok t ∧
      ¬((t.ch 0).flag csrBUSY = true → (t.ch 0).flag csrCHEN = true)) ∧
    ∃ t, [Event.write 0x24 1, .write 0x20 0x41, .outside (.charge 1),
          .schedule .zeros].foldlM Event.exec (dmaReset Sched.idleQueue) = .ok t ∧
      Sched.Queue.pending t.sched 0 ≠ if (t.ch 0).flag csrCHEN then 1 else 0 := by
  constructor
  · obtain ⟨t, ht, htest⟩ := Runs.exists_ok_of_any
      (p := fun t : State => (t.ch 0).flag csrBUSY && !(t.ch 0).flag csrCHEN)
      (x := [Event.write 0x24 2, .write 0x20 1, .outside (.charge 1), .schedule .zeros,
        .write 0x20 0].foldlM Event.exec (dmaReset Sched.idleQueue)) (by decide)
    refine ⟨t, ht, fun himp => ?_⟩
    obtain ⟨hbusy, hen⟩ := Bool.and_eq_true_iff.1 htest
    rw [himp hbusy] at hen
    exact Bool.false_ne_true hen
  · obtain ⟨t, ht, htest⟩ := Runs.exists_ok_of_any
      (p := fun t : State => (t.ch 0).flag csrCHEN && decide (Sched.Queue.pending t.sched 0 = 0))
      (x := [Event.write 0x24 1, .write 0x20 0x41, .outside (.charge 1),
        .schedule .zeros].foldlM Event.exec (dmaReset Sched.idleQueue)) (by decide)
    obtain ⟨hen, hpending⟩ := Bool.and_eq_true_iff.1 htest
    refine ⟨t, ht, ?_⟩
    rw [of_decide_eq_true hpending, if_pos hen]
    decide

end Dma
end Or1ksim
