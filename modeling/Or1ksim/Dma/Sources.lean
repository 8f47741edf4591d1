import Or1ksim.Dma.Jobs

/-!
# The interrupt sources of the DMA channels

All channels share `DMA_INT_SRC_A`, which a read clears.

* `Raises` — a clock that raises an interrupt;
* `Accounted` — every channel that has raised an interrupt is told by a later read;
* `dma_sources` — **if software does not write `DMA_INT_SRC_A`, every channel is told in every state
  of a run exactly when no channel raises an interrupt while that of another one is unread**;
* `dma_sources_lost` — two channels that are done between two reads.
-/

namespace Or1ksim
namespace Dma

open Bits

variable {s t : State} {c : ChannelNo} {mem : Word → Word} {w : World}

/-! ### Raising an interrupt -/

/-- The channel and the controller have the interrupt enabled. -/
def Enabled (intMskA : Word) (ch : Channel) (ine : ℕ) (c : ChannelNo) : Prop :=
  ch.flag ine = true ∧ intMskA &&& channelMask c ≠ 0

/-- The clock is stopped, or transfers the last word of a transfer that is neither continued nor
restarted, and the interrupt is enabled. -/
def Raises (w : World) (s : State) (c : ChannelNo) : Prop :=
  if (s.ch c).flag csrSTOP then Enabled s.intMskA (s.ch c) csrINEERR c
  else GetsThrough (s.ch c) ∧ (begun w.before (s.ch c)).ndI = false ∧
    (begun w.before (s.ch c)).chunkSize ≠ 0 ∧
    (begun w.before (s.ch c)).totalSize ≤ (begun w.before (s.ch c)).wordsTransferred + 1 ∧
    (begun w.before (s.ch c)).loadNextDescriptorWhenDone = false ∧
    (begun w.before (s.ch c)).flag csrARS = false ∧
    Enabled s.intMskA (begun w.before (s.ch c)) csrINEDONE c

/-- A channel has raised an interrupt, and its source has replaced what was there. -/
def Raised (s t : State) (c : ChannelNo) : Prop :=
  t.intSrcA = channelMask c ∧ t.notices = .raised c :: s.notices

/-- Nothing has happened to the source. -/
def Silent (s t : State) : Prop := t.intSrcA = s.intSrcA ∧ t.notices = s.notices

/-- What happens to the source, given whether the clock raises an interrupt. -/
def Sourced (raises : Prop) (s t : State) (c : ChannelNo) : Prop :=
  raises ∧ Raised s t c ∨ ¬raises ∧ Silent s t

theorem Sourced.congr {p p' : Prop} {u : State} (h : Sourced p u t c) (hp : p ↔ p')
    (hu : Silent s u) : Sourced p' s t c := by
  obtain ⟨hr, hsrc, hnot⟩ | ⟨hr, hsrc, hnot⟩ := h
  · exact .inl ⟨hp.1 hr, hsrc, hnot.trans (by rw [hu.2])⟩
  · exact .inr ⟨fun h => hr (hp.2 h), hsrc.trans hu.1, hnot.trans hu.2⟩

theorem sourced_of_silent {p : Prop} (hp : ¬p) (h : Silent s t) : Sourced p s t c := .inr ⟨hp, h⟩

theorem raiseInt_sourced (ine int : ℕ) (s : State) (c : ChannelNo) :
    Sourced (Enabled s.intMskA (s.ch c) ine c) s (raiseInt ine int c s) c := by
  unfold raiseInt
  split
  · next h =>
    obtain ⟨hine, hmsk⟩ := Bool.and_eq_true_iff.1 h
    exact .inl ⟨⟨hine, of_decide_eq_true hmsk⟩, rfl, rfl⟩
  · next h =>
    refine sourced_of_silent (fun hen => h ?_) ⟨rfl, rfl⟩
    rw [hen.1, Bool.true_and]
    exact decide_eq_true hen.2

theorem silent_schedAdd {n : ℤ} (h : s.schedAdd c n = .ok t) : Silent s t := by
  obtain ⟨q, -, rfl⟩ := withSched_eq_ok h
  exact ⟨rfl, rfl⟩

theorem terminateTransfer_sourced {gen : Bool} (h : terminateTransfer mem gen c s = .ok t) :
    Sourced (gen = true ∧ (s.ch c).loadNextDescriptorWhenDone = false ∧
      (s.ch c).flag csrARS = false ∧ Enabled s.intMskA (s.ch c) csrINEDONE c) s t c := by
  unfold terminateTransfer at h
  split at h
  · next hload =>
    have hsilent := silent_schedAdd h
    refine sourced_of_silent (fun hr => ?_) hsilent
    rw [hr.2.1] at hload
    exact Bool.false_ne_true hload
  · next hload =>
    split at h
    · next hars =>
      cases h
      refine sourced_of_silent (fun hr => ?_) ⟨rfl, rfl⟩
      rw [hr.2.2.1] at hars
      exact Bool.false_ne_true hars
    · next hars =>
      cases h
      cases gen with
      | false => exact sourced_of_silent (fun hr => Bool.false_ne_true hr.1) ⟨rfl, rfl⟩
      | true =>
        refine (raiseInt_sourced csrINEDONE csrINTDONE
          (s.setCh c (markDone (writeBack (s.ch c)))) c).congr ?_ ⟨rfl, rfl⟩
        have hflag : (markDone (writeBack (s.ch c))).flag csrINEDONE =
            (s.ch c).flag csrINEDONE := by
          rw [← flag_writeBack (s.ch c)]
          simp only [markDone, Channel.flag, getLsbD_clearBit, getLsbD_setBit]
          simp [csrINEDONE, csrCHEN, csrDONE, csrERR, csrBUSY]
        unfold Enabled
        rw [setCh_self, hflag]
        have hload : (s.ch c).loadNextDescriptorWhenDone = false := by simpa using hload
        have hars : (s.ch c).flag csrARS = false := by simpa using hars
        exact ⟨fun hen => ⟨rfl, hload, hars, hen⟩, fun hr => hr.2.2.2⟩

theorem transferWord_sourced (h : transferWord w c s = .ok t) :
    Sourced ((s.ch c).ndI = false ∧ (s.ch c).chunkSize ≠ 0 ∧
      (s.ch c).totalSize ≤ (s.ch c).wordsTransferred + 1 ∧
      (s.ch c).loadNextDescriptorWhenDone = false ∧ (s.ch c).flag csrARS = false ∧
      Enabled s.intMskA (s.ch c) csrINEDONE c) s t c := by
  unfold transferWord at h
  dsimp only at h
  split at h
  · cases h
  · next hchunk =>
    set u := { s.setCh c (advance (s.ch c)) with
      stored := ((s.ch c).destination, w.before (s.ch c).source) :: s.stored } with hu
    have hch : u.ch c = advance (s.ch c) := setCh_self s c _
    have hsilent : Silent s u := ⟨rfl, rfl⟩
    split at h
    · next hnd =>
      refine (terminateTransfer_sourced h).congr ?_ hsilent
      refine iff_of_false (fun hr => Bool.false_ne_true hr.1) fun hr => ?_
      rw [hr.1] at hnd
      exact Bool.false_ne_true hnd
    · next hnd =>
      have hnd : (s.ch c).ndI = false := by simpa using hnd
      split at h
      · next hlast =>
        refine (terminateTransfer_sourced h).congr ?_ hsilent
        unfold Enabled
        rw [hch]
        exact ⟨fun hr => ⟨hnd, hchunk, hlast, hr.2⟩, fun hr => ⟨rfl, hr.2.2.2⟩⟩
      · next hlast =>
        have hadd := silent_schedAdd h
        exact sourced_of_silent (fun hr => hlast hr.2.2.1) hadd

/-- A clock raises an interrupt exactly when `Raises` says so. -/
theorem dmaChannelClock_sourced (h : dmaChannelClock w c s = .ok t) :
    Sourced (Raises w s c) s t c := by
  unfold dmaChannelClock at h
  unfold Raises
  split at h
  · next hstop =>
    cases h
    have hraise := raiseInt_sourced csrINEERR csrINTERR (s.setCh c (stopCh (s.ch c))) c
    refine hraise.congr ?_ ⟨rfl, rfl⟩
    have hflag : (stopCh (s.ch c)).flag csrINEERR = (s.ch c).flag csrINEERR := by
      simp only [stopCh, Channel.flag, getLsbD_clearBit, getLsbD_setBit]
      simp [csrINEERR, csrCHEN, csrBUSY, csrERR]
    rw [if_pos hstop]
    unfold Enabled
    rw [setCh_self, hflag]
    rfl
  · next hstop =>
    rw [if_neg hstop]
    split at h
    · next hwait =>
      refine sourced_of_silent (fun hr => ?_) (silent_schedAdd h)
      obtain ⟨hmode, hreq⟩ := Bool.and_eq_true_iff.1 hwait
      rw [hr.1.2 hmode] at hreq
      exact Bool.false_ne_true hreq
    · next hwait =>
      have hgets : GetsThrough (s.ch c) := by
        refine ⟨by simpa using hstop, fun hmode => ?_⟩
        simpa [hmode] using hwait
      set u := s.setCh c (begun w.before (s.ch c)) with hu
      have hch : u.ch c = begun w.before (s.ch c) := setCh_self s c _
      have hsilent : Silent s u := ⟨rfl, rfl⟩
      dsimp only at h
      split at h
      · next hskip =>
        refine (terminateTransfer_sourced h).congr ?_ hsilent
        refine iff_of_false (fun hr => Bool.false_ne_true hr.1) fun hr => ?_
        rw [hch, hr.2.1, Bool.and_false] at hskip
        exact Bool.false_ne_true hskip
      · refine (transferWord_sourced h).congr ?_ hsilent
        unfold Enabled
        rw [hch]
        exact ⟨fun hr => ⟨hgets, hr⟩, fun hr => hr.2⟩

theorem exists_terminateTransfer {gen : Bool} (hload : (s.ch c).loadNextDescriptorWhenDone = false)
    (hars : (s.ch c).flag csrARS = false) : ∃ t, terminateTransfer mem gen c s = .ok t := by
  unfold terminateTransfer
  rw [hload, hars]
  exact ⟨_, rfl⟩

theorem exists_transferWord (hnd : (s.ch c).ndI = false) (hchunk : (s.ch c).chunkSize ≠ 0)
    (hlast : (s.ch c).totalSize ≤ (s.ch c).wordsTransferred + 1)
    (hload : (s.ch c).loadNextDescriptorWhenDone = false) (hars : (s.ch c).flag csrARS = false) :
    ∃ t, transferWord w c s = .ok t := by
  unfold transferWord
  dsimp only
  rw [if_neg hchunk, hnd, if_neg Bool.false_ne_true, if_pos hlast]
  refine exists_terminateTransfer ?_ ?_
  · exact (congrArg Channel.loadNextDescriptorWhenDone (setCh_self s c _)).trans hload
  · exact (congrArg (Channel.flag · csrARS) (setCh_self s c _)).trans hars

theorem exists_dmaChannelClock (h : Raises w s c) : ∃ t, dmaChannelClock w c s = .ok t := by
  unfold Raises at h
  unfold dmaChannelClock
  split at h
  · next hstop => exact ⟨_, if_pos hstop⟩
  · next hstop =>
    obtain ⟨⟨-, hreq⟩, hnd, hchunk, hlast, hload, hars, -⟩ := h
    have hwait : ((s.ch c).flag csrMODE && !(s.ch c).dmaReqI) = false := by
      cases hmode : (s.ch c).flag csrMODE with
      | false => rfl
      | true => rw [hreq hmode, Bool.not_true, Bool.and_false]
    rw [if_neg hstop, hwait, if_neg Bool.false_ne_true]
    dsimp only
    have hch := setCh_self s c (begun w.before (s.ch c))
    rw [hch, hnd, Bool.and_false, if_neg Bool.false_ne_true]
    rw [← hch] at hnd hchunk hlast hload hars
    exact exists_transferWord hnd hchunk hlast hload hars

/-! ### What software is told -/

/-- Every channel that has raised an interrupt is told by a read after it, the last of which returns
`final`. -/
def Heard (final : Word) (notices : List Notice) : Prop :=
  ∀ (later : List Notice) (c : ChannelNo) (earlier : List Notice),
    notices = later ++ .raised c :: earlier →
    (∃ v, .answered v ∈ later ∧ v.getLsbD c = true) ∨ final.getLsbD c = true

/-- The reads, the last of which returns `final`, tell the channels that have raised an interrupt
and nothing else. -/
def SameUnion (final : Word) (notices : List Notice) : Prop :=
  ∀ k, ((∃ v, .answered v ∈ notices ∧ v.getLsbD k = true) ∨ final.getLsbD k = true) ↔
    ∃ c : ChannelNo, (c : ℕ) = k ∧ .raised c ∈ notices

/-- If `DMA_INT_SRC_A` is read now, every channel that has raised an interrupt is told by a read
after it, and all the reads together tell those channels. -/
def Accounted (s : State) : Prop :=
  Heard (dmaRead32 dmaIntSrcA s).1 s.notices ∧ SameUnion (dmaRead32 dmaIntSrcA s).1 s.notices

/-- The sources that are set belong to channels that raised an interrupt since the last read. -/
def Unread (s : State) : Prop :=
  ∀ k, s.intSrcA.getLsbD k = true → ∃ (c : ChannelNo) (later earlier : List Notice), (c : ℕ) = k ∧
    s.notices = later ++ .raised c :: earlier ∧ ∀ v, Notice.answered v ∉ later

theorem mem_of_answered_mem_raised {v : Word} {notices : List Notice}
    (h : .answered v ∈ Notice.raised c :: notices) : .answered v ∈ notices := by
  simpa using h

theorem mem_of_raised_mem_answered {v : Word} {notices : List Notice}
    (h : .raised c ∈ Notice.answered v :: notices) : .raised c ∈ notices := by
  simpa using h

theorem getLsbD_channelMask (c : ChannelNo) (k : ℕ) :
    (channelMask c).getLsbD k = true ↔ (c : ℕ) = k := by
  have hlt : (c : ℕ) < 32 := lt_trans c.isLt (by decide)
  simp only [channelMask, BitVec.getLsbD_twoPow, Bool.and_eq_true, decide_eq_true_eq]
  exact ⟨fun h => h.2, fun h => ⟨hlt, h⟩⟩

theorem and_not_channelMask_eq_zero_iff {x : Word} :
    x &&& ~~~channelMask c = 0 ↔ ∀ k, x.getLsbD k = true → (c : ℕ) = k := by
  constructor
  · intro h k hk
    by_contra hne
    have hbit : (x &&& ~~~channelMask c).getLsbD k = true := by
      have hlt : k < 32 := BitVec.lt_of_getLsbD hk
      have hmask : (channelMask c).getLsbD k = false :=
        Bool.eq_false_iff.2 fun h => hne ((getLsbD_channelMask c k).1 h)
      rw [BitVec.getLsbD_and, BitVec.getLsbD_not, hk, hmask, decide_eq_true hlt]
      rfl
    rw [h] at hbit
    simp at hbit
  · intro h
    refine BitVec.eq_of_getLsbD_eq fun k hk => ?_
    rw [BitVec.getLsbD_and, BitVec.getLsbD_not]
    cases hx : x.getLsbD k with
    | false => simp
    | true =>
      rw [(getLsbD_channelMask c k).2 (h k hx)]
      simp

/-- A channel raises an interrupt while no other one is unread. -/
theorem accounted_raised (hs : Accounted s) (hraised : Raised s t c)
    (halone : ∀ k, s.intSrcA.getLsbD k = true → (c : ℕ) = k) : Accounted t := by
  obtain ⟨hsrc, hnotices⟩ := hraised
  obtain ⟨hheard, hunion⟩ := hs
  change Heard s.intSrcA s.notices at hheard
  change SameUnion s.intSrcA s.notices at hunion
  constructor
  · change Heard t.intSrcA t.notices
    rw [hsrc, hnotices]
    intro later d earlier hsplit
    rw [getLsbD_channelMask]
    cases later with
    | nil =>
      cases hsplit
      exact .inr rfl
    | cons n later =>
      obtain ⟨rfl, hrest⟩ := List.cons_eq_cons.1 hsplit
      rcases hheard later d earlier hrest with ⟨v, hv, hbit⟩ | hbit
      · exact .inl ⟨v, .tail _ hv, hbit⟩
      · exact .inr (halone d hbit)
  · change SameUnion t.intSrcA t.notices
    rw [hsrc, hnotices]
    intro k
    rw [getLsbD_channelMask]
    constructor
    · rintro (⟨v, hv, hbit⟩ | hk)
      · obtain ⟨d, hd, hmem⟩ := (hunion k).1 (.inl ⟨v, mem_of_answered_mem_raised hv, hbit⟩)
        exact ⟨d, hd, .tail _ hmem⟩
      · exact ⟨c, hk, .head _⟩
    · rintro ⟨d, hd, hmem⟩
      rcases List.mem_cons.1 hmem with heq | hmem
      · cases heq
        exact .inr hd
      · rcases (hunion k).2 ⟨d, hd, hmem⟩ with ⟨v, hv, hbit⟩ | hbit
        · exact .inl ⟨v, .tail _ hv, hbit⟩
        · exact .inr (halone k hbit)

/-- A channel that raises an interrupt while another one is unread takes its place. -/
theorem not_accounted_raised (hs : Unread s) (hraised : Raised s t c) {k : ℕ}
    (hk : s.intSrcA.getLsbD k = true) (hne : (c : ℕ) ≠ k) : ¬Accounted t := by
  rintro ⟨hheard, -⟩
  change Heard t.intSrcA t.notices at hheard
  rw [hraised.1, hraised.2] at hheard
  obtain ⟨d, later, earlier, rfl, hsplit, hnone⟩ := hs k hk
  rcases hheard (.raised c :: later) d earlier (by rw [hsplit]; rfl) with ⟨v, hv, -⟩ | hbit
  · exact hnone v (mem_of_answered_mem_raised hv)
  · exact hne ((getLsbD_channelMask c d).1 hbit)

theorem unread_raised (hraised : Raised s t c) : Unread t := by
  intro k hk
  rw [hraised.1, getLsbD_channelMask] at hk
  exact ⟨c, [], s.notices, hk, hraised.2, fun _ => List.not_mem_nil⟩

theorem Accounted.silent (hs : Accounted s) (h : Silent s t) : Accounted t := by
  have hread : (dmaRead32 dmaIntSrcA t).1 = (dmaRead32 dmaIntSrcA s).1 := h.1
  rw [Accounted, hread, h.2]
  exact hs

theorem Unread.silent (hs : Unread s) (h : Silent s t) : Unread t := by
  rw [Unread, h.1, h.2]
  exact hs

/-- A read of the sources tells those that are set, and clears them. -/
theorem accounted_read (hs : Accounted s) : Accounted (dmaRead32 dmaIntSrcA s).2 := by
  obtain ⟨hheard, hunion⟩ := hs
  change Heard s.intSrcA s.notices at hheard
  change SameUnion s.intSrcA s.notices at hunion
  constructor
  · change Heard 0 (.answered s.intSrcA :: s.notices)
    intro later c earlier hsplit
    cases later with
    | nil => cases hsplit
    | cons n later =>
      obtain ⟨rfl, hrest⟩ := List.cons_eq_cons.1 hsplit
      rcases hheard later c earlier hrest with ⟨v, hv, hbit⟩ | hbit
      · exact .inl ⟨v, .tail _ hv, hbit⟩
      · exact .inl ⟨s.intSrcA, .head _, hbit⟩
  · change SameUnion 0 (.answered s.intSrcA :: s.notices)
    intro k
    constructor
    · rintro (⟨v, hv, hbit⟩ | hbit)
      · rcases List.mem_cons.1 hv with heq | hv
        · cases heq
          obtain ⟨d, hd, hmem⟩ := (hunion k).1 (.inr hbit)
          exact ⟨d, hd, .tail _ hmem⟩
        · obtain ⟨d, hd, hmem⟩ := (hunion k).1 (.inl ⟨v, hv, hbit⟩)
          exact ⟨d, hd, .tail _ hmem⟩
      · simp at hbit
    · rintro ⟨d, hd, hmem⟩
      rcases (hunion k).2 ⟨d, hd, mem_of_raised_mem_answered hmem⟩ with ⟨v, hv, hbit⟩ | hbit
      · exact .inl ⟨v, .tail _ hv, hbit⟩
      · exact .inl ⟨s.intSrcA, .head _, hbit⟩

theorem unread_read : Unread (dmaRead32 dmaIntSrcA s).2 := by
  intro k hk
  change (0 : Word).getLsbD k = true at hk
  simp at hk

/-! ### Runs -/

/-- Software sets `DMA_INT_SRC_A`. -/
def Event.WritesSource : Event → Prop
  | .write addr _ => addr = dmaIntSrcA
  | _ => False

/-- No channel raises an interrupt while that of another one is unread. -/
def Alone (s : State) : Event → Prop
  | .schedule w =>
    match Sched.dispatch s.sched with
    | some (some c, q) => Raises w { s with sched := q } c →
        s.intSrcA &&& ~~~channelMask c = 0
    | _ => True
  | _ => True

theorem silent_write {addr : ℕ} {value : Word} (haddr : addr ≠ dmaIntSrcA)
    (h : dmaWrite32 addr value s = .ok t) : Silent s t := by
  unfold dmaWrite32 at h
  split at h
  · split at h
    case h_3 => exact absurd rfl haddr
    all_goals
      cases h
      exact ⟨rfl, rfl⟩
  · split at h
    · cases h
      exact ⟨rfl, rfl⟩
    · split at h
      · obtain ⟨u, hu, h⟩ := Runs.bind_eq_ok_iff.1 h
        obtain rfl := Except.ok.inj h
        unfold switchClock at hu
        split at hu
        · obtain ⟨q, -, rfl⟩ := withSched_eq_ok hu
          exact ⟨rfl, rfl⟩
        · split at hu
          · obtain ⟨q, -, rfl⟩ := withSched_eq_ok hu
            exact ⟨rfl, rfl⟩
          · cases hu
            exact ⟨rfl, rfl⟩
      · cases h
        exact ⟨rfl, rfl⟩

theorem silent_read {addr : ℕ} (haddr : addr ≠ dmaIntSrcA) (s : State) :
    Silent s (dmaRead32 addr s).2 := by
  unfold dmaRead32
  split
  · split
    case h_4 => exact absurd rfl haddr
    all_goals exact ⟨rfl, rfl⟩
  · split
    · exact ⟨rfl, rfl⟩
    · split <;> exact ⟨rfl, rfl⟩

/-- What an event does to the sources: a channel raises an interrupt, the sources are read, or
nothing. -/
theorem event_cases {e : Event} (he : ¬e.WritesSource) (h : e.exec s = .ok t) :
    (∃ w c q, e = .schedule w ∧ Sched.dispatch s.sched = some (some c, q) ∧
      Raises w { s with sched := q } c ∧ Raised s t c) ∨
    t = (dmaRead32 dmaIntSrcA s).2 ∨ Silent s t := by
  cases e with
  | write addr value => exact .inr (.inr (silent_write he h))
  | read addr =>
    cases h
    by_cases haddr : addr = dmaIntSrcA
    · exact .inr (.inl (by rw [haddr]))
    · exact .inr (.inr (silent_read haddr s))
  | reqI c value | ndI c value =>
    cases h
    exact .inr (.inr ⟨rfl, rfl⟩)
  | outside e =>
    obtain ⟨q, -, rfl⟩ := withSched_eq_ok h
    exact .inr (.inr ⟨rfl, rfl⟩)
  | schedule w =>
    have h : runJob w s = .ok t := h
    unfold runJob at h
    split at h
    case h_1 c q hq =>
      rcases dmaChannelClock_sourced h with ⟨hr, hraised⟩ | ⟨-, hsilent⟩
      · exact .inl ⟨w, c, q, rfl, hq, hr, hraised⟩
      · exact .inr (.inr hsilent)
    case h_2 q hq =>
      cases h
      exact .inr (.inr ⟨rfl, rfl⟩)
    case h_3 => cases h

theorem unread_event {e : Event} (he : ¬e.WritesSource) (hs : Unread s) (h : e.exec s = .ok t) :
    Unread t := by
  rcases event_cases he h with ⟨w, c, q, -, -, -, hraised⟩ | rfl | hsilent
  · exact unread_raised hraised
  · exact unread_read
  · exact hs.silent hsilent

/-- An event keeps the account exactly when it does not raise an interrupt over an unread one. -/
theorem accounted_event_iff {e : Event} (he : ¬e.WritesSource) (hs : Accounted s) (hu : Unread s) :
    (∀ t, e.exec s = .ok t → Accounted t) ↔ Alone s e := by
  constructor
  · intro hall
    cases e with
    | schedule w =>
      rw [Alone]
      split
      case h_1 c q hq =>
        intro hraises
        rw [and_not_channelMask_eq_zero_iff]
        intro k hk
        obtain ⟨t, ht⟩ := exists_dmaChannelClock hraises
        have hexec : Event.exec s (.schedule w) = .ok t := by
          change runJob w s = .ok t
          unfold runJob
          rw [hq]
          exact ht
        by_contra hne
        rcases dmaChannelClock_sourced ht with ⟨-, hraised⟩ | ⟨hno, -⟩
        · exact not_accounted_raised hu hraised hk hne (hall t hexec)
        · exact hno hraises
      case h_2 => trivial
    | _ => trivial
  · intro halone t h
    rcases event_cases he h with ⟨w, c, q, rfl, hq, hraises, hraised⟩ | rfl | hsilent
    · rw [Alone, hq] at halone
      exact accounted_raised hs hraised (and_not_channelMask_eq_zero_iff.1 (halone hraises))
    · exact accounted_read hs
    · exact hs.silent hsilent

theorem accounted_dmaReset (q : Sched.Queue ChannelNo) : Accounted (dmaReset q) := by
  constructor
  · change Heard 0 []
    intro later c earlier hsplit
    simp at hsplit
  · change SameUnion 0 []
    intro k
    simp

theorem unread_dmaReset (q : Sched.Queue ChannelNo) : Unread (dmaReset q) := by
  intro k hk
  change (0 : Word).getLsbD k = true at hk
  simp at hk

/-- **If software does not write `DMA_INT_SRC_A`, every channel that has raised an interrupt is told
by a later read, in every state of a run, exactly when no channel raises an interrupt while that of
another one is unread.** -/
theorem dma_sources {q : Sched.Queue ChannelNo} {es : List Event}
    (hes : ∀ e ∈ es, ¬e.WritesSource) :
    (∀ pre, pre <+: es → ∀ t, pre.foldlM Event.exec (dmaReset q) = .ok t → Accounted t) ↔
      Runs.Along Event.exec Alone (dmaReset q) es := by
  rw [← Runs.along_iff_of_mem (P := fun s => Accounted s ∧ Unread s) ?_
    ⟨accounted_dmaReset q, unread_dmaReset q⟩]
  · -- the sources that are set are unread in any case
    refine ⟨fun h pre hpre t ht => ⟨h pre hpre t ht, ?_⟩,
      fun h pre hpre t ht => (h pre hpre t ht).1⟩
    refine Runs.foldlM_invariant (C := fun _ e => ¬e.WritesSource)
      (fun _ _ _ hs he h => unread_event he hs h) (unread_dmaReset q)
      (Runs.along_of_forall (fun e he => hes e (hpre.subset he)) _) ht
  · intro e he s hs
    rw [← accounted_event_iff (hes e he) hs.1 hs.2]
    exact ⟨fun h t ht => (h t ht).1, fun h t ht => ⟨h t ht, unread_event (hes e he) hs.2 ht⟩⟩

section Decidable

instance (intMskA : Word) (ch : Channel) (ine : ℕ) (c : ChannelNo) :
    Decidable (Enabled intMskA ch ine c) := inferInstanceAs (Decidable (_ ∧ _))

instance (w : World) (s : State) (c : ChannelNo) : Decidable (Raises w s c) := by
  unfold Raises
  infer_instance

instance : (e : Event) → Decidable e.WritesSource
  | .write _ _ => inferInstanceAs (Decidable (_ = _))
  | .read _ | .reqI _ _ | .ndI _ _ | .outside _ | .schedule _ => .isFalse id

instance (s : State) : (e : Event) → Decidable (Alone s e)
  | .write _ _ | .read _ | .reqI _ _ | .ndI _ _ | .outside _ => .isTrue trivial
  | .schedule w =>
    match h : Sched.dispatch s.sched with
    | some (some c, q) => decidable_of_iff
        (Raises w { s with sched := q } c → s.intSrcA &&& ~~~channelMask c = 0) (by rw [Alone, h])
    | some (none, _) => .isTrue (by rw [Alone, h]; trivial)
    | none => .isTrue (by rw [Alone, h]; trivial)

end Decidable

/-- Channels 0 and 1 are to transfer a word each and to interrupt; their clocks are due. -/
def twoChannels : List Event :=
  [.write 0x04 3, .write 0x24 1, .write 0x44 1, .write 0x20 0x40001, .write 0x40 0x40001,
    .outside (.charge 1)]

/-- The sources are read between the two interrupts. -/
theorem dma_sources_read :
    ∃ t, (twoChannels ++ [Event.schedule .zeros, .read 0x0c, .schedule .zeros]).foldlM Event.exec
        (dmaReset Sched.idleQueue) = .ok t ∧
      t.notices = [.raised 0, .answered 2, .raised 1] ∧ Accounted t := by
  obtain ⟨t, ht, htest⟩ := Runs.exists_ok_of_any
    (p := fun t : State => decide (t.notices = [.raised 0, .answered 2, .raised 1]))
    (x := (twoChannels ++ [Event.schedule .zeros, .read 0x0c, .schedule .zeros]).foldlM Event.exec
      (dmaReset Sched.idleQueue)) (by decide)
  exact ⟨t, ht, of_decide_eq_true htest,
    (dma_sources (by decide)).2 (by decide) _ (List.prefix_refl _) t ht⟩

/-- **Of two channels that are done between two reads only the second is told.** -/
theorem dma_sources_lost :
    ∃ t, (twoChannels ++ [Event.schedule .zeros, .schedule .zeros]).foldlM Event.exec
        (dmaReset Sched.idleQueue) = .ok t ∧
      t.notices = [.raised 0, .raised 1] ∧ (dmaRead32 0x0c t).1 = 1 ∧ ¬Accounted t := by
  obtain ⟨t, ht, htest⟩ := Runs.exists_ok_of_any
    (p := fun t : State => decide (t.notices = [.raised 0, .raised 1] ∧ t.intSrcA = 1))
    (x := (twoChannels ++ [Event.schedule .zeros, .schedule .zeros]).foldlM Event.exec
      (dmaReset Sched.idleQueue)) (by decide)
  obtain ⟨hnotices, hsrc⟩ := of_decide_eq_true htest
  refine ⟨t, ht, hnotices, hsrc, fun hacc => ?_⟩
  have hheard : Heard t.intSrcA t.notices := hacc.1
  rw [hnotices, hsrc] at hheard
  rcases hheard [.raised 0] 1 [] rfl with ⟨v, hv, -⟩ | hbit
  · simp at hv
  · exact absurd hbit (by decide)

end Dma
end Or1ksim
