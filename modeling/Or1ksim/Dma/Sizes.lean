import Or1ksim.Dma.Copy

/-!
# The sizes of DMA transfers

A transfer takes its size from a register or from a descriptor, and a clock divides by the size of
a chunk that comes from it.

* `Act`, `acts` — what a clock does to the transfer of its channel;
* `Meter` — a count of the words of each transfer, kept beside the controller;
* `stored_dmaChannelClock` — the count is that of the words that are stored;
* `Metered.Inv` — the controller agrees with the count;
* `dma_sizes_iff` — **no clock divides by zero and every transfer has exactly as many words as its
  size says when it ends, in exactly the runs in which no word is due to a transfer of size 0**.
-/

namespace Or1ksim
namespace Dma

open Bits

/-! ### What a clock does -/

/-- What happens to the transfer of a channel. -/
inductive Act where
  /-- `dma_init_transfer` finds the size in `TOT_SZ`. -/
  | begins (size : ℕ)
  /-- A word is copied. -/
  | word
  /-- The transfer comes to its end. -/
  | ends
  /-- The device asks for the next descriptor. -/
  | skips
  /-- The transfer is stopped. -/
  | stops
deriving DecidableEq

/-- `TOT_SZ` of a channel. -/
def Channel.totSz (ch : Channel) : ℕ := (ch.sz.extractLsb' 0 12).toNat

/-- After the end of a transfer the channel may go on with another. -/
def reloads (mem : Word → Word) (ch : Channel) : List Act :=
  if ch.loadNextDescriptorWhenDone then [.begins (dmaLoadDescriptor mem ch).totSz]
  else if ch.flag csrARS then [.begins ch.totSz]
  else []

/-- What a clock does that transfers a word. -/
def wordActs (w : World) (ch : Channel) : List Act :=
  .word ::
    if ch.ndI then .skips :: reloads w.after (advance ch)
    else if ch.totalSize ≤ ch.wordsTransferred + 1 then .ends :: reloads w.after (advance ch)
    else []

/-- What `dma_channel_clock` does. -/
def acts (w : World) (ch : Channel) : List Act :=
  if ch.flag csrSTOP then [.stops]
  else if ch.flag csrMODE && !ch.dmaReqI then []
  else if ch.flag csrBUSY then wordActs w ch
  else .begins (begun w.before ch).totalSize ::
    if (begun w.before ch).ndI then .skips :: reloads w.before (begun w.before ch)
    else wordActs w (begun w.before ch)

/-- The clock comes to a word. -/
def Transfers (w : World) (ch : Channel) : Prop :=
  GetsThrough ch ∧ ¬(ch.flag csrBUSY = false ∧ (begun w.before ch).ndI = true)

/-! ### The meter -/

/-- The words of the transfers of a channel. -/
structure Meter where
  /-- The size that the last transfer began with. -/
  size : ℕ
  /-- The words that it has copied. -/
  words : ℕ
  /-- It is not over. -/
  running : Bool
  /-- No transfer began before the last one was over, none had more words than its size, and none
  came to its end with fewer. -/
  exact : Bool

/-- The meter after an act. -/
def Meter.act (m : Meter) : Act → Meter
  | .begins size => ⟨size, 0, true, m.exact && !m.running⟩
  | .word => ⟨m.size, m.words + 1, m.running, m.exact && m.running && decide (m.words < m.size)⟩
  | .ends => ⟨m.size, m.words, false, m.exact && m.running && decide (m.words = m.size)⟩
  | .skips | .stops => ⟨m.size, m.words, false, m.exact⟩

/-- The controller and a meter for each channel. -/
structure Metered where
  state : State
  meters : ChannelNo → Meter

/-- The channel whose clock `do_scheduler` calls. -/
def dueClock (s : State) : Option ChannelNo :=
  match Sched.dispatch s.sched with
  | some (some c, _) => some c
  | _ => none

/-- The clock that an event runs. -/
def clockOf (s : State) : Event → Option (World × ChannelNo)
  | .schedule w => (dueClock s).map (w, ·)
  | _ => none

/-- The meters after an event. -/
def Metered.after (m : Metered) (e : Event) : ChannelNo → Meter :=
  match clockOf m.state e with
  | some (w, c) =>
    Function.update m.meters c ((acts w (m.state.ch c)).foldl Meter.act (m.meters c))
  | none => m.meters

/-- One event, with the meters read. -/
def Metered.exec (m : Metered) (e : Event) : Except Stop Metered :=
  (e.exec m.state).map fun t => ⟨t, m.after e⟩

/-- After `dma_reset`. -/
def Metered.start (q : Sched.Queue ChannelNo) : Metered :=
  ⟨dmaReset q, fun _ => ⟨0, 0, false, true⟩⟩

/-- Every transfer so far had the words that its size says. -/
def Metered.Exact (m : Metered) : Prop := ∀ c, (m.meters c).exact = true

/-- A clock that comes to a word does so in a transfer whose size is not 0. -/
def Sized (m : Metered) (e : Event) : Prop :=
  ∀ w c, clockOf m.state e = some (w, c) → Transfers w (m.state.ch c) →
    (begun w.before (m.state.ch c)).totalSize ≠ 0

/-! ### The controller agrees with its meters -/

/-- The channel agrees with its meter. -/
structure Agrees (ch : Channel) (m : Meter) : Prop where
  running : m.running = ch.flag csrBUSY
  size : ch.flag csrBUSY = true → m.size = ch.totalSize
  words : ch.flag csrBUSY = true → m.words = ch.wordsTransferred
  chunk : ch.flag csrBUSY = true → (ch.chunkSize = 0 ↔ ch.totalSize = 0)
  lt : ch.flag csrBUSY = true → ch.totalSize ≠ 0 → ch.wordsTransferred < ch.totalSize
  exact : m.exact = true

variable {s t : State} {c d : ChannelNo} {ch : Channel} {m : Meter} {w : World}
  {mem : Word → Word}

theorem Agrees.begins (hrunning : m.running = false) (hexact : m.exact = true)
    (hbusy : ch.flag csrBUSY = true) :
    Agrees (dmaInitTransfer ch) (m.act (.begins ch.totSz)) where
  running := hbusy.symm
  size _ := rfl
  words _ := rfl
  chunk _ := by
    simp only [dmaInitTransfer]
    split <;> omega
  lt _ := Nat.pos_of_ne_zero
  exact := by
    rw [Meter.act, hexact, hrunning]
    rfl

theorem Agrees.over (hrunning : m.running = false) (hexact : m.exact = true)
    (hbusy : ch.flag csrBUSY = false) : Agrees ch m where
  running := hrunning.trans hbusy.symm
  size h := absurd (h.symm.trans hbusy) (by decide)
  words h := absurd (h.symm.trans hbusy) (by decide)
  chunk h := absurd (h.symm.trans hbusy) (by decide)
  lt h := absurd (h.symm.trans hbusy) (by decide)
  exact := hexact

/-- Only the fields of the transfer and the busy flag matter. -/
theorem Agrees.congr {ch' : Channel} (h : Agrees ch m)
    (hbusy : ch'.flag csrBUSY = ch.flag csrBUSY) (htotal : ch'.totalSize = ch.totalSize)
    (hwords : ch'.wordsTransferred = ch.wordsTransferred) (hchunk : ch'.chunkSize = ch.chunkSize) :
    Agrees ch' m where
  running := h.running.trans hbusy.symm
  size hb := by rw [htotal, h.size (hbusy.symm.trans hb)]
  words hb := by rw [hwords, h.words (hbusy.symm.trans hb)]
  chunk hb := by rw [hchunk, htotal, h.chunk (hbusy.symm.trans hb)]
  lt hb := by rw [hwords, htotal]; exact h.lt (hbusy.symm.trans hb)
  exact := h.exact

/-- The end of a transfer, and what the channel goes on with. -/
theorem agrees_terminateTransfer {gen : Bool} (hrunning : m.running = false)
    (hexact : m.exact = true) (hbusy : (s.ch c).flag csrBUSY = true)
    (h : terminateTransfer mem gen c s = .ok t) :
    Agrees (t.ch c) ((reloads mem (s.ch c)).foldl Meter.act m) := by
  unfold terminateTransfer at h
  unfold reloads
  split at h
  · next hload =>
    obtain ⟨q, -, rfl⟩ := withSched_eq_ok h
    rw [if_pos hload]
    change Agrees ((s.setCh c _).ch c) _
    rw [setCh_self]
    exact Agrees.begins hrunning hexact ((flag_dmaLoadDescriptor (by decide)).trans hbusy)
  · next hload =>
    rw [if_neg hload]
    split at h
    · next hars =>
      cases h
      rw [if_pos hars, setCh_self]
      exact Agrees.begins hrunning hexact hbusy
    · next hars =>
      rw [if_neg hars]
      refine Agrees.over hrunning hexact ?_
      obtain ⟨-, hend⟩ := flag_markDone (writeBack (s.ch c))
      cases h
      split
      · rw [(raiseInt_same csrINEDONE csrINTDONE _ c).2.2 _ (by decide), setCh_self, hend]
      · rw [setCh_self, hend]

theorem withSched_ne_undefined (s : State) (o : Option (Sched.Queue ChannelNo)) :
    s.withSched o ≠ .error .undefined := by
  cases o <;> exact nofun

theorem terminateTransfer_ne_undefined (gen : Bool) (s : State) :
    terminateTransfer mem gen c s ≠ .error .undefined := by
  unfold terminateTransfer
  split
  · exact withSched_ne_undefined _ _
  · split <;> exact nofun

/-- A word divides by zero exactly when it is due to a transfer of size 0. -/
theorem transferWord_ne_undefined_iff (h : Agrees (s.ch c) m)
    (hbusy : (s.ch c).flag csrBUSY = true) :
    transferWord w c s ≠ .error .undefined ↔ (s.ch c).totalSize ≠ 0 := by
  rw [Ne, Ne, ← h.chunk hbusy]
  unfold transferWord
  dsimp only
  split
  · next hchunk => exact iff_of_false (fun hne => hne rfl) (fun hne => hne hchunk)
  · next hchunk =>
    refine iff_of_true ?_ hchunk
    split
    · exact terminateTransfer_ne_undefined _ _
    · split
      · exact terminateTransfer_ne_undefined _ _
      · exact withSched_ne_undefined _ _

theorem Agrees.word (h : Agrees ch m) (hbusy : ch.flag csrBUSY = true) (hsize : ch.totalSize ≠ 0) :
    m.act .word = ⟨ch.totalSize, ch.wordsTransferred + 1, true, true⟩ := by
  have hlt : m.words < m.size := by
    rw [h.words hbusy, h.size hbusy]
    exact h.lt hbusy hsize
  rw [Meter.act, h.exact, h.running, hbusy, decide_eq_true hlt, h.words hbusy, h.size hbusy]
  rfl

theorem agrees_transferWord (h : Agrees (s.ch c) m) (hbusy : (s.ch c).flag csrBUSY = true)
    (hrun : transferWord w c s = .ok t) :
    Agrees (t.ch c) ((wordActs w (s.ch c)).foldl Meter.act m) := by
  have hsize : (s.ch c).totalSize ≠ 0 :=
    (transferWord_ne_undefined_iff h hbusy).1 (by rw [hrun]; exact nofun)
  rw [wordActs, List.foldl_cons, h.word hbusy hsize]
  unfold transferWord at hrun
  dsimp only at hrun
  split at hrun
  · cases hrun
  · next hchunk =>
    set u := { s.setCh c (advance (s.ch c)) with
      stored := ((s.ch c).destination, w.before (s.ch c).source) :: s.stored } with hu
    have hch : u.ch c = advance (s.ch c) := setCh_self s c _
    have hbusyU : (u.ch c).flag csrBUSY = true := by
      rw [hch]
      exact hbusy
    rw [← hch]
    split at hrun
    · next hnd =>
      rw [if_pos hnd, List.foldl_cons]
      exact agrees_terminateTransfer rfl rfl hbusyU hrun
    · next hnd =>
      rw [if_neg hnd]
      split at hrun
      · next hlast =>
        -- the invariant leaves no room for more words than the size
        have hlt := h.lt hbusy hsize
        rw [if_pos hlast, List.foldl_cons]
        have hall : (s.ch c).wordsTransferred + 1 = (s.ch c).totalSize := by omega
        exact agrees_terminateTransfer rfl (decide_eq_true hall) hbusyU hrun
      · next hlast =>
        obtain ⟨q, -, rfl⟩ := withSched_eq_ok hrun
        rw [if_neg hlast, List.foldl_nil]
        change Agrees (u.ch c) _
        rw [hch]
        exact {
          running := hbusy.symm
          size := fun _ => rfl
          words := fun _ => rfl
          chunk := fun _ => h.chunk hbusy
          lt := fun _ _ => Nat.lt_of_not_le hlast
          exact := rfl }

/-! ### A clock -/

theorem begun_eq_init (mem : Word → Word) (hidle : ch.flag csrBUSY = false) :
    ∃ ch', begun mem ch = dmaInitTransfer ch' ∧ ch'.flag csrBUSY = true := by
  have hset : ∀ csr : Word, (setBit csr csrBUSY).getLsbD csrBUSY = true := fun csr => by
    simp [csrBUSY]
  refine ⟨_, if_neg (by rw [hidle]; exact Bool.false_ne_true), ?_⟩
  dsimp only
  split
  · exact (flag_dmaLoadDescriptor (by decide)).trans (hset _)
  · exact hset _

theorem agrees_begun (mem : Word → Word) (h : Agrees ch m) (hidle : ch.flag csrBUSY = false) :
    Agrees (begun mem ch) (m.act (.begins (begun mem ch).totalSize)) ∧
      (begun mem ch).flag csrBUSY = true := by
  obtain ⟨ch', hch', hbusy⟩ := begun_eq_init mem hidle
  rw [hch']
  exact ⟨Agrees.begins (h.running.trans hidle) h.exact hbusy, hbusy⟩

/-- A channel that gets through, with the meter of its transfer. -/
theorem agrees_ready (mem : Word → Word) (h : Agrees ch m) : ∃ m', Agrees (begun mem ch) m' ∧
    (begun mem ch).flag csrBUSY = true := by
  cases hbusy : ch.flag csrBUSY with
  | true =>
    rw [begun_of_busy _ hbusy]
    exact ⟨m, h, hbusy⟩
  | false => exact ⟨_, agrees_begun mem h hbusy⟩

/-- A clock divides by zero exactly when it comes to a word of a transfer of size 0. -/
theorem dmaChannelClock_ne_undefined_iff (h : Agrees (s.ch c) m) :
    dmaChannelClock w c s ≠ .error .undefined ↔
      (Transfers w (s.ch c) → (begun w.before (s.ch c)).totalSize ≠ 0) := by
  unfold dmaChannelClock
  split
  · next hstop =>
    exact iff_of_true nofun fun htransfers => absurd (hstop.symm.trans htransfers.1.1) (by decide)
  · next hstop =>
    split
    · next hwait =>
      refine iff_of_true (withSched_ne_undefined _ _) fun htransfers => ?_
      obtain ⟨hmode, hreq⟩ := Bool.and_eq_true_iff.1 hwait
      rw [htransfers.1.2 hmode] at hreq
      exact absurd hreq Bool.false_ne_true
    · next hwait =>
      have hthrough : GetsThrough (s.ch c) :=
        ⟨by simpa using hstop, fun hmode => by simpa [hmode] using hwait⟩
      dsimp only
      rw [setCh_self]
      split
      · next hskip =>
        obtain ⟨hfirst, hnd⟩ := Bool.and_eq_true_iff.1 hskip
        refine iff_of_true (terminateTransfer_ne_undefined _ _) fun htransfers => ?_
        exact absurd ⟨by simpa using hfirst, hnd⟩ htransfers.2
      · next hskip =>
        obtain ⟨m', hm', hbusy⟩ := agrees_ready w.before h
        have hword : Transfers w (s.ch c) := ⟨hthrough, fun hboth => hskip (by
          rw [hboth.1, hboth.2]
          rfl)⟩
        have hch : (s.setCh c (begun w.before (s.ch c))).ch c = begun w.before (s.ch c) :=
          setCh_self s c _
        rw [transferWord_ne_undefined_iff (m := m') (by rwa [hch]) (by rwa [hch]), hch]
        exact ⟨fun hne _ => hne, fun hne => hne hword⟩

theorem agrees_dmaChannelClock (h : Agrees (s.ch c) m) (hrun : dmaChannelClock w c s = .ok t) :
    Agrees (t.ch c) ((acts w (s.ch c)).foldl Meter.act m) := by
  unfold dmaChannelClock at hrun
  unfold acts
  split at hrun
  · next hstop =>
    cases hrun
    rw [if_pos hstop]
    refine Agrees.over rfl h.exact ?_
    rw [(raiseInt_same csrINEERR csrINTERR _ c).2.2 _ (by decide), setCh_self]
    exact (flag_stopCh (s.ch c)).2
  · next hstop =>
    rw [if_neg hstop]
    split at hrun
    · next hwait =>
      obtain ⟨q, -, rfl⟩ := withSched_eq_ok hrun
      rw [if_pos hwait]
      exact h
    · next hwait =>
      rw [if_neg hwait]
      have hch : (s.setCh c (begun w.before (s.ch c))).ch c = begun w.before (s.ch c) :=
        setCh_self s c _
      dsimp only at hrun
      rw [hch] at hrun
      cases hbusy : (s.ch c).flag csrBUSY with
      | true =>
        rw [hbusy, Bool.not_true, Bool.false_and, if_neg Bool.false_ne_true] at hrun
        rw [if_pos rfl]
        have hsame := begun_of_busy w.before hbusy
        have hagrees := agrees_transferWord (m := m) (by rwa [hch, hsame])
          (by rwa [hch, hsame]) hrun
        rwa [hch, hsame] at hagrees
      | false =>
        obtain ⟨hbegun, hnow⟩ := agrees_begun w.before h hbusy
        rw [hbusy, Bool.not_false, Bool.true_and] at hrun
        rw [if_neg Bool.false_ne_true, List.foldl_cons]
        split at hrun
        · next hnd =>
          rw [if_pos hnd, List.foldl_cons]
          have hend := agrees_terminateTransfer
            (m := (m.act (.begins (begun w.before (s.ch c)).totalSize)).act .skips) rfl
            hbegun.exact (by rwa [hch]) hrun
          rwa [hch] at hend
        · next hnd =>
          rw [if_neg hnd]
          have hagrees := agrees_transferWord (by rwa [hch]) (by rwa [hch]) hrun
          rwa [hch] at hagrees

theorem count_reloads (mem : Word → Word) (ch : Channel) : (reloads mem ch).count .word = 0 := by
  unfold reloads
  split
  · rfl
  · split <;> rfl

theorem count_wordActs (w : World) (ch : Channel) : (wordActs w ch).count .word = 1 := by
  unfold wordActs
  split
  · simp [count_reloads]
  · split <;> simp [count_reloads]

/-- The words that the meter counts are the words that are stored. -/
theorem stored_dmaChannelClock (hrun : dmaChannelClock w c s = .ok t) :
    t.stored.length = s.stored.length + (acts w (s.ch c)).count .word := by
  unfold dmaChannelClock at hrun
  unfold acts
  split at hrun
  · next hstop =>
    cases hrun
    rw [if_pos hstop, stored_raiseInt]
    rfl
  · next hstop =>
    rw [if_neg hstop]
    split at hrun
    · next hwait =>
      obtain ⟨q, -, rfl⟩ := withSched_eq_ok hrun
      rw [if_pos hwait]
      rfl
    · next hwait =>
      rw [if_neg hwait]
      dsimp only at hrun
      rw [setCh_self] at hrun
      split at hrun
      · next hskip =>
        obtain ⟨hfirst, hnd⟩ := Bool.and_eq_true_iff.1 hskip
        have hidle : ¬(s.ch c).flag csrBUSY = true := by simpa using hfirst
        rw [if_neg hidle, if_pos hnd, stored_terminateTransfer hrun]
        simp [count_reloads, State.setCh]
      · next hskip =>
        rw [stored_transferWord hrun]
        cases hbusy : (s.ch c).flag csrBUSY with
        | true => simp [count_wordActs, State.setCh]
        | false =>
          rw [hbusy, Bool.not_false, Bool.true_and] at hskip
          rw [if_neg Bool.false_ne_true, if_neg hskip]
          simp [count_wordActs, State.setCh]

/-! ### Events -/

/-- The transfer of a channel is where it was. -/
structure SameTransfer (ch ch' : Channel) : Prop where
  busy : ch'.flag csrBUSY = ch.flag csrBUSY
  total : ch'.totalSize = ch.totalSize
  words : ch'.wordsTransferred = ch.wordsTransferred
  chunk : ch'.chunkSize = ch.chunkSize

theorem SameTransfer.refl (ch : Channel) : SameTransfer ch ch := ⟨rfl, rfl, rfl, rfl⟩

theorem sameTransfer_setCh {ch' : Channel} (h : SameTransfer (s.ch c) ch') (d : ChannelNo) :
    SameTransfer (s.ch d) ((s.setCh c ch').ch d) := by
  by_cases hd : d = c
  · subst hd
    rwa [setCh_self]
  · rw [setCh_of_ne hd]
    exact .refl _

theorem sameTransfer_setChReg (ch : Channel) (value : Word) (offset : ℕ) :
    SameTransfer ch (setChReg ch value offset) := by
  unfold setChReg
  split <;> exact ⟨rfl, rfl, rfl, rfl⟩

theorem sameTransfer_write {addr : ℕ} {value : Word} (h : dmaWrite32 addr value s = .ok t)
    (d : ChannelNo) : SameTransfer (s.ch d) (t.ch d) := by
  unfold dmaWrite32 at h
  split at h
  · split at h <;>
    · cases h
      exact .refl _
  · split at h
    · cases h
      exact .refl _
    · next c hc =>
      split at h
      · rw [dmaWriteChCsr_eq h]
        exact sameTransfer_setCh ⟨flag_csrWritten_busy _ _, rfl, rfl, rfl⟩ d
      · cases h
        exact sameTransfer_setCh (sameTransfer_setChReg _ _ _) d

theorem sameTransfer_read (s : State) (addr : ℕ) (d : ChannelNo) :
    SameTransfer (s.ch d) ((dmaRead32 addr s).2.ch d) := by
  unfold dmaRead32
  split
  · split <;> exact .refl _
  · split
    · exact .refl _
    · split
      case h_1 =>
        refine @sameTransfer_setCh _ _ (dmaReadChCsr _).2 ⟨?_, rfl, rfl, rfl⟩ d
        simp only [dmaReadChCsr, Channel.flag, getLsbD_clearBit]
        simp [csrBUSY, csrINTCHUNKDONE, csrINTDONE, csrINTERR, csrERR]
      all_goals exact .refl _

theorem dmaWrite32_ne_undefined (addr : ℕ) (value : Word) (s : State) :
    dmaWrite32 addr value s ≠ .error .undefined := by
  have hswitch : ∀ c, switchClock value c s ≠ .error .undefined := fun c => by
    unfold switchClock
    split
    · exact withSched_ne_undefined _ _
    · split
      · exact withSched_ne_undefined _ _
      · exact nofun
  unfold dmaWrite32
  split
  · split <;> exact nofun
  · split
    · exact nofun
    · split
      · intro h
        rcases Runs.bind_eq_error_iff.1 h with h | ⟨u, -, h⟩
        · exact hswitch _ h
        · cases h
      · exact nofun

/-- An event that runs no clock leaves the transfers where they are. -/
theorem exec_of_clockOf_eq_none {e : Event} (hclock : clockOf s e = none) :
    e.exec s ≠ .error .undefined ∧
      ∀ t, e.exec s = .ok t → ∀ d, SameTransfer (s.ch d) (t.ch d) := by
  cases e with
  | write addr value => exact ⟨dmaWrite32_ne_undefined _ _ _, fun t h => sameTransfer_write h⟩
  | read addr =>
    refine ⟨nofun, fun t h => ?_⟩
    cases h
    exact sameTransfer_read s addr
  | reqI c value | ndI c value =>
    refine ⟨nofun, fun t h => ?_⟩
    cases h
    exact sameTransfer_setCh ⟨rfl, rfl, rfl, rfl⟩
  | outside e =>
    refine ⟨withSched_ne_undefined _ _, fun t h d => ?_⟩
    obtain ⟨q, -, rfl⟩ := withSched_eq_ok h
    exact .refl _
  | schedule w =>
    have hexec : Event.exec s (.schedule w) = runJob w s := rfl
    have hdue : dueClock s = none := Option.map_eq_none_iff.1 hclock
    rw [hexec]
    unfold runJob
    unfold dueClock at hdue
    split at hdue
    · cases hdue
    · next hother =>
      split
      · next c q hq => exact absurd hq (hother c q)
      · refine ⟨nofun, fun t h d => ?_⟩
        cases h
        exact .refl _
      · exact ⟨nofun, nofun⟩

theorem exec_of_clockOf_eq_some {e : Event} (hclock : clockOf s e = some (w, c)) :
    ∃ q, e.exec s = dmaChannelClock w c { s with sched := q } := by
  cases e with
  | schedule w' =>
    obtain ⟨c', hdue, hpair⟩ := Option.map_eq_some_iff.1 hclock
    obtain ⟨rfl, rfl⟩ := Prod.mk.inj hpair
    unfold dueClock at hdue
    split at hdue
    · next c'' q hq =>
      obtain rfl := Option.some.inj hdue
      have hexec : Event.exec s (.schedule w') = runJob w' s := rfl
      rw [hexec, runJob, hq]
      exact ⟨q, rfl⟩
    · cases hdue
  | _ => cases hclock

/-- The controller agrees with its meters. -/
def Metered.Inv (m : Metered) : Prop := ∀ c, Agrees (m.state.ch c) (m.meters c)

/-- **One event** divides by zero exactly when it comes to a word of a transfer of size 0, and
otherwise keeps the controller in agreement with its meters. -/
theorem inv_exec (m : Metered) (e : Event) (hm : m.Inv) :
    (m.exec e ≠ .error .undefined ↔ Sized m e) ∧ ∀ m', m.exec e = .ok m' → m'.Inv := by
  have hmap : m.exec e ≠ .error .undefined ↔ e.exec m.state ≠ .error .undefined := by
    rw [Metered.exec]
    cases e.exec m.state with
    | error stop =>
      refine ⟨fun h he => h ?_, fun h he => h ?_⟩ <;>
      · cases he
        rfl
    | ok t => exact iff_of_true nofun nofun
  rw [hmap]
  cases hclock : clockOf m.state e with
  | none =>
    obtain ⟨hdefined, hsame⟩ := exec_of_clockOf_eq_none hclock
    refine ⟨iff_of_true hdefined fun w c h => ?_, fun m' hrun c => ?_⟩
    · rw [hclock] at h
      cases h
    · obtain ⟨t, ht, rfl⟩ := Runs.map_eq_ok_iff.1 hrun
      have hmeters : m.after e = m.meters := by rw [Metered.after, hclock]
      obtain ⟨hbusy, htotal, hwords, hchunk⟩ := hsame t ht c
      change Agrees (t.ch c) (m.after e c)
      rw [hmeters]
      exact (hm c).congr hbusy htotal hwords hchunk
  | some r =>
    obtain ⟨w, c⟩ := r
    obtain ⟨q, hexec⟩ := exec_of_clockOf_eq_some hclock
    rw [hexec]
    refine ⟨?_, fun m' hrun d => ?_⟩
    · rw [dmaChannelClock_ne_undefined_iff (s := { m.state with sched := q }) (hm c)]
      constructor
      · intro h w' c' hclock'
        rw [hclock] at hclock'
        obtain ⟨rfl, rfl⟩ := Prod.mk.inj (Option.some.inj hclock')
        exact h
      · exact fun h => h w c hclock
    · obtain ⟨t, ht, rfl⟩ := Runs.map_eq_ok_iff.1 hrun
      rw [hexec] at ht
      have hmeters : m.after e = Function.update m.meters c
          ((acts w (m.state.ch c)).foldl Meter.act (m.meters c)) := by
        rw [Metered.after, hclock]
      change Agrees (t.ch d) (m.after e d)
      rw [hmeters]
      by_cases hd : d = c
      · subst hd
        rw [Function.update_self]
        exact agrees_dmaChannelClock (s := { m.state with sched := q }) (hm d) ht
      · rw [Function.update_of_ne hd, (dmaChannelClock_cases ht).1 d hd]
        exact hm d

/-- **No clock divides by zero, and every transfer has exactly the words that its size says when it
ends, in exactly the runs in which no clock comes to a word of a transfer of size 0.** -/
theorem dma_sizes_iff (q : Sched.Queue ChannelNo) (es : List Event) :
    (∀ pre, pre <+: es →
        Runs.Avoids .undefined Metered.Exact (pre.foldlM Metered.exec (.start q))) ↔
      Runs.Along Metered.exec Sized (.start q) es := by
  refine Runs.avoids_run_iff (A := fun _ _ => True) (P := Metered.Inv)
    (fun m e hm _ => inv_exec m e hm) (fun m hm c => (hm c).exact) (fun c => ?_)
    (Runs.along_of_mem (fun _ _ _ => trivial) _)
  exact Agrees.over rfl rfl (BitVec.getLsbD_zero (i := csrBUSY))

/-- A channel that is enabled with a size of 0. -/
theorem dma_sizes_zero :
    [Event.write 0x20 1, .outside (.charge 1), .schedule .zeros].foldlM Event.exec
      (dmaReset Sched.idleQueue) = .error .undefined :=
  Runs.eq_error_of_errorOf (by decide)

end Dma
end Or1ksim
