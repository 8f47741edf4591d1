import Or1ksim.Eth.Registers

/-!
# Interrupts and jobs of the Ethernet controller

* `Works`, `Reads` — what sending and receiving leave alone;
* `LineInv`, `JobsInv` — the line is active for a reason, and the clocks that run are those enabled;
* `eth_bookkeeping` — **in every state that can be reached from a reset, the interrupt line is
  active only while a source is enabled, and the job of each clock is queued exactly once while
  `MODER` enables it and not at all otherwise**.
-/

namespace Or1ksim
namespace Eth

open Bits

variable {cfg : Config} {s t u : State}

/-- The line is active only while a source is enabled. -/
def LineInv (s : State) : Prop :=
  s.intLineStat = true → s.regs.intSource &&& s.regs.intMask ≠ 0

/-! ### Work on packets -/

/-- A packet may have been moved: the mode, the split of the descriptors and the queue stay. -/
structure Works (s t : State) : Prop where
  moder : t.regs.moder = s.regs.moder
  txBdNum : t.regs.txBdNum = s.regs.txBdNum
  sched : t.sched = s.sched
  line : LineInv s → LineInv t

/-- The outside world may have been read: no descriptor has changed either. -/
structure Reads (s t : State) : Prop extends Works s t where
  txBdIndex : t.txBdIndex = s.txBdIndex
  rxBdIndex : t.rxBdIndex = s.rxBdIndex
  bdRam : t.regs.bdRam = s.regs.bdRam
  macAddress : t.macAddress = s.macAddress

theorem Works.refl (s : State) : Works s s := ⟨rfl, rfl, rfl, id⟩

theorem Works.trans (h : Works s t) (h' : Works t u) : Works s u :=
  ⟨h'.moder.trans h.moder, h'.txBdNum.trans h.txBdNum, h'.sched.trans h.sched,
    fun hs => h'.line (h.line hs)⟩

theorem Reads.refl (s : State) : Reads s s := ⟨.refl s, rfl, rfl, rfl, rfl⟩

theorem Reads.trans (h : Reads s t) (h' : Reads t u) : Reads s u :=
  ⟨h.toWorks.trans h'.toWorks, h'.txBdIndex.trans h.txBdIndex, h'.rxBdIndex.trans h.rxBdIndex,
    h'.bdRam.trans h.bdRam, h'.macAddress.trans h.macAddress⟩

theorem setBit_and_ne_zero {x y : Word} (h : x &&& y ≠ 0) (k : ℕ) : setBit x k &&& y ≠ 0 := by
  rw [BitVec.and_comm] at h ⊢
  exact and_or_ne_zero_left h _

theorem reads_setSource (s : State) (k : ℕ) : Reads s (s.setSource k) :=
  ⟨⟨rfl, rfl, rfl, fun hs hline => setBit_and_ne_zero (hs hline) k⟩, rfl, rfl, rfl, rfl⟩

theorem and_ne_zero_of_getLsbD {x y : Word} {k : ℕ} (hx : x.getLsbD k = true)
    (hy : y.getLsbD k = true) : x &&& y ≠ 0 := by
  intro h
  have hbit : (x &&& y).getLsbD k = true := by rw [BitVec.getLsbD_and, hx, hy, Bool.and_self]
  rw [h] at hbit
  simp at hbit

theorem reads_interrupt {k : ℕ} {b : Bool} (hk : s.regs.intSource.getLsbD k = true)
    (hb : b = true → s.regs.intMask.getLsbD k = true) : Reads s (if b then s.interrupt else s) := by
  split
  · next hb' =>
    unfold State.interrupt
    split
    · exact .refl s
    · exact ⟨⟨rfl, rfl, rfl, fun _ _ => and_ne_zero_of_getLsbD hk (hb hb')⟩, rfl, rfl, rfl, rfl⟩
  · exact .refl s

theorem setSource_getLsbD (s : State) {k : ℕ} (hk : k < 32) :
    (s.setSource k).regs.intSource.getLsbD k = true := by
  have hbit : (setBit s.regs.intSource k).getLsbD k = true := by simp [hk]
  exact hbit

theorem reads_ethReadPacket (cfg : Config) (s : State) (a : Arrival) :
    Reads s (ethReadPacket cfg s a).2 := by
  unfold ethReadPacket
  cases cfg.rtxType with
  | file => exact .refl s
  | tap =>
    cases a with
    | nothing | failed | packet => exact .refl s
    | unreadable =>
      exact (reads_setSource s intRXE).trans
        (reads_interrupt (k := intRXE) (setSource_getLsbD s (by decide)) id)

theorem reads_ethIgnoreTapPackets (cfg : Config) (result : Bool) (s : State)
    (polls : List Arrival) : Reads s (ethIgnoreTapPackets cfg result s polls).2 := by
  induction polls generalizing result s with
  | nil => exact .refl s
  | cons a polls ih =>
    have hread := reads_ethReadPacket cfg s a
    unfold ethIgnoreTapPackets
    dsimp only
    split
    · exact hread
    · exact hread.trans (ih _ _)

theorem works_advanceTx (s : State) (bdInfo : Word) : Works s (advanceTx s bdInfo) := by
  unfold advanceTx
  split <;> exact ⟨rfl, rfl, rfl, id⟩

theorem works_advanceRx (s : State) (bdInfo : Word) : Works s (advanceRx s bdInfo) := by
  unfold advanceRx
  split <;> exact ⟨rfl, rfl, rfl, id⟩

theorem bd_eq_ok {i : ℕ} {w : Word} (h : s.bd i = .ok w) : i < ethBdCount ∧ w = s.regs.bdRam i := by
  unfold State.bd at h
  split at h
  · next hi => exact ⟨hi, (Except.ok.inj h).symm⟩
  · cases h

/-- A sequence of flags is cleared, and the others are left. -/
theorem clearFlags_getLsbD {w : Word} {ks : List ℕ} {k : ℕ} (hk : k ∉ ks) :
    (clearFlags w ks).getLsbD k = w.getLsbD k := by
  unfold clearFlags
  induction ks generalizing w with
  | nil => rfl
  | cons j ks ih =>
    obtain ⟨hj, hks⟩ := List.ne_and_not_mem_of_not_mem_cons hk
    rw [List.foldl_cons, ih hks, getLsbD_clearBit]
    simp [hj]

theorem advanceTx_txBdIndex {v : State} {w w' : Word} (hnum : v.regs.txBdNum = s.regs.txBdNum)
    (hindex : v.txBdIndex = s.txBdIndex) (hwrap : w.getLsbD bdWRAP = w'.getLsbD bdWRAP) :
    (advanceTx v w).txBdIndex = (advanceTx s w').txBdIndex := by
  unfold advanceTx
  rw [hnum, hindex, hwrap]
  split <;> rfl

theorem advanceTx_rxBdIndex (s : State) (w : Word) : (advanceTx s w).rxBdIndex = s.rxBdIndex := by
  unfold advanceTx
  split <;> rfl

theorem advanceRx_rxBdIndex {v : State} {w w' : Word} (hnum : v.regs.txBdNum = s.regs.txBdNum)
    (hindex : v.rxBdIndex = s.rxBdIndex) (hwrap : w.getLsbD bdWRAP = w'.getLsbD bdWRAP) :
    (advanceRx v w).rxBdIndex = (advanceRx s w').rxBdIndex := by
  unfold advanceRx
  rw [hnum, hindex, hwrap]
  split <;> rfl

theorem advanceRx_txBdIndex (s : State) (w : Word) : (advanceRx s w).txBdIndex = s.txBdIndex := by
  unfold advanceRx
  split <;> rfl

theorem transmit_spec (mem : Word → Word) (written : Bool) (bdInfo bdAddr : Word) (s : State) :
    Works s (transmit mem written bdInfo bdAddr s) ∧
      (transmit mem written bdInfo bdAddr s).rxBdIndex = s.rxBdIndex ∧
      (transmit mem written bdInfo bdAddr s).txBdIndex = (advanceTx s bdInfo).txBdIndex := by
  set packet := packetAt mem bdAddr (bdInfo.extractLsb' 16 16).toNat
  set source := if written then intTXB else intTXE with hsource
  set w := clearFlags (clearFlags bdInfo txStatus &&& ~~~0xf0)
    (if written then [bdREADY] else [bdREADY, txCOLLISION]) with hw
  set v := ({ s with out := .sent packet :: s.out }.setSource source).setBd s.txBdIndex w
  have hsent : Works s v := ⟨rfl, rfl, rfl, fun hs hline => setBit_and_ne_zero (hs hline) source⟩
  have hbit : v.regs.intSource.getLsbD source = true := by
    refine setSource_getLsbD s ?_
    cases written <;> decide
  have hint := reads_interrupt (b := v.regs.intMask.getLsbD source && w.getLsbD bdIRQ) hbit
    fun hb => (Bool.and_eq_true_iff.1 hb).1
  have hwrap : w.getLsbD bdWRAP = bdInfo.getLsbD bdWRAP := by
    rw [hw, clearFlags_getLsbD, BitVec.getLsbD_and, clearFlags_getLsbD (by decide)]
    · simp [bdWRAP]
    · cases written <;> decide
  refine ⟨hsent.trans (hint.toWorks.trans (works_advanceTx _ w)), ?_, ?_⟩
  · exact (advanceTx_rxBdIndex _ _).trans hint.rxBdIndex
  · exact advanceTx_txBdIndex hint.txBdNum hint.txBdIndex hwrap

theorem receive_spec (cfg : Config) (bdInfo bdAddr : Word) (length : ℕ) (buf : ℕ → Byte)
    (s : State) :
    Works s (receive cfg bdInfo bdAddr length buf s) ∧
      (receive cfg bdInfo bdAddr length buf s).txBdIndex = s.txBdIndex ∧
      (receive cfg bdInfo bdAddr length buf s).rxBdIndex = (advanceRx s bdInfo).rxBdIndex := by
  set stored := (storesOf bdAddr length buf).reverse ++ s.out
  set w : Word := clearBit ((bdInfo &&& (0xffff : Word)) |||
    (BitVec.ofNat 32 (length + if cfg.dummyCrc then 4 else 0) <<< 16)) bdREADY with hw
  set v := ({ s with out := stored }.setSource intRXB).setBd s.rxBdIndex w
  have hstored : Works s v := ⟨rfl, rfl, rfl, fun hs hline => setBit_and_ne_zero (hs hline) intRXB⟩
  have hadv := works_advanceRx v w
  have hbit : (advanceRx v w).regs.intSource.getLsbD intRXB = true := by
    have hregs : (advanceRx v w).regs = v.regs := by
      unfold advanceRx
      split <;> rfl
    rw [hregs]
    exact setSource_getLsbD s (by decide)
  have hint := reads_interrupt
    (b := (advanceRx v w).regs.intMask.getLsbD intRXB && w.getLsbD bdIRQ) hbit
    fun hb => (Bool.and_eq_true_iff.1 hb).1
  have hwrap : w.getLsbD bdWRAP = bdInfo.getLsbD bdWRAP := by
    rw [hw, getLsbD_clearBit]
    simp [bdWRAP, bdREADY]
  refine ⟨hstored.trans (hadv.trans hint.toWorks), ?_, ?_⟩
  · exact hint.txBdIndex.trans (advanceRx_txBdIndex v w)
  · exact hint.rxBdIndex.trans (advanceRx_rxBdIndex rfl rfl hwrap)

/-- `eth_flush_bd` sends a packet from the descriptor that is next. -/
theorem ethFlushBd_spec {mem : Word → Word} {written : Bool}
    (h : ethFlushBd mem written s = .ok t) :
    Works s t ∧ t.rxBdIndex = s.rxBdIndex ∧
      t.txBdIndex = (advanceTx s (s.regs.bdRam s.txBdIndex)).txBdIndex := by
  obtain ⟨bdInfo, hinfo, h⟩ := Runs.bind_eq_ok_iff.1 h
  obtain ⟨bdAddr, -, h⟩ := Runs.bind_eq_ok_iff.1 h
  obtain ⟨-, rfl⟩ := bd_eq_ok hinfo
  cases h
  exact transmit_spec mem written _ bdAddr s

/-- A packet for the device is read. -/
def Receives (cfg : Config) (a : Arrival) (s : State) : Prop :=
  0 < (ethReadPacket cfg s a).1 ∧ s.accepts a.buf = true

theorem ethFillBd_spec {a : Arrival} (h : ethFillBd cfg a s = .ok t) :
    Works s t ∧ t.txBdIndex = s.txBdIndex ∧
      (Receives cfg a s ∧ t.rxBdIndex = (advanceRx s (s.regs.bdRam s.rxBdIndex)).rxBdIndex ∨
        ¬Receives cfg a s ∧ t.rxBdIndex = s.rxBdIndex) := by
  obtain ⟨bdInfo, hinfo, h⟩ := Runs.bind_eq_ok_iff.1 h
  obtain ⟨bdAddr, -, h⟩ := Runs.bind_eq_ok_iff.1 h
  obtain ⟨-, rfl⟩ := bd_eq_ok hinfo
  have hread := reads_ethReadPacket cfg s a
  have haccepts : (ethReadPacket cfg s a).2.accepts a.buf = s.accepts a.buf := by
    rw [State.accepts, hread.moder, hread.macAddress, State.accepts]
  dsimp only at h
  rw [haccepts] at h
  split at h
  · next hlen =>
    cases h
    exact ⟨hread.toWorks, hread.txBdIndex,
      .inr ⟨fun hr => absurd hr.1 (not_lt.2 hlen), hread.rxBdIndex⟩⟩
  · next hlen =>
    split at h
    · next hno =>
      cases h
      refine ⟨hread.toWorks, hread.txBdIndex, .inr ⟨fun hr => ?_, hread.rxBdIndex⟩⟩
      rw [hr.2] at hno
      cases hno
    · next hyes =>
      cases h
      obtain ⟨hworks, htx, hrx⟩ := receive_spec cfg (clearFlags (s.regs.bdRam s.rxBdIndex) rxStatus)
        bdAddr (ethReadPacket cfg s a).1.toNat a.buf (ethReadPacket cfg s a).2
      refine ⟨hread.toWorks.trans hworks, htx.trans hread.txBdIndex, .inl ⟨⟨by omega, ?_⟩, ?_⟩⟩
      · simpa using hyes
      · rw [hrx]
        exact advanceRx_rxBdIndex hread.txBdNum hread.rxBdIndex (clearFlags_getLsbD (by decide))

/-- The line is not active and the descriptor that is next is ready for sending. -/
def Sends (s : State) : Prop :=
  s.intLineStat = false ∧ (s.regs.bdRam s.txBdIndex).getLsbD bdREADY = true

/-- The line is not active, the descriptor that is next is ready for receiving, and a packet for the
device is read. -/
def Fills (cfg : Config) (a : Arrival) (s : State) : Prop :=
  s.intLineStat = false ∧ (s.regs.bdRam s.rxBdIndex).getLsbD bdREADY = true ∧ Receives cfg a s

theorem withSched_eq_ok {o : Option (Sched.Queue Job)} (h : s.withSched o = .ok t) :
    ∃ q, o = some q ∧ t = { s with sched := q } := by
  cases o with
  | none => cases h
  | some q =>
    cases h
    exact ⟨q, rfl, rfl⟩

theorem txWork_spec {mem : Word → Word} {written : Bool} (h : txWork mem written s = .ok t) :
    Works s t ∧ t.rxBdIndex = s.rxBdIndex ∧
      (Sends s ∧ t.txBdIndex = (advanceTx s (s.regs.bdRam s.txBdIndex)).txBdIndex ∨
        ¬Sends s ∧ t.txBdIndex = s.txBdIndex) := by
  unfold txWork at h
  cases hline : s.intLineStat with
  | true =>
    rw [hline] at h
    cases h
    exact ⟨.refl s, rfl, .inr ⟨fun hs => by simp [hs.1] at hline, rfl⟩⟩
  | false =>
    rw [hline] at h
    obtain ⟨bdInfo, hinfo, h⟩ := Runs.bind_eq_ok_iff.1 h
    obtain ⟨-, rfl⟩ := bd_eq_ok hinfo
    split at h
    · next hready =>
      obtain ⟨hworks, hrx, htx⟩ := ethFlushBd_spec h
      exact ⟨hworks, hrx, .inl ⟨⟨hline, hready⟩, htx⟩⟩
    · next hready =>
      cases h
      exact ⟨.refl s, rfl, .inr ⟨fun hs => hready hs.2, rfl⟩⟩

theorem rxWork_spec {a : Arrival} {polls : List Arrival} (h : rxWork cfg a polls s = .ok t) :
    Works s t ∧ t.txBdIndex = s.txBdIndex ∧
      (Fills cfg a s ∧ t.rxBdIndex = (advanceRx s (s.regs.bdRam s.rxBdIndex)).rxBdIndex ∨
        ¬Fills cfg a s ∧ t.rxBdIndex = s.rxBdIndex) := by
  have hidle : Reads s t → ¬Fills cfg a s → Works s t ∧ t.txBdIndex = s.txBdIndex ∧
      (Fills cfg a s ∧ t.rxBdIndex = (advanceRx s (s.regs.bdRam s.rxBdIndex)).rxBdIndex ∨
        ¬Fills cfg a s ∧ t.rxBdIndex = s.rxBdIndex) := fun hr hno =>
    ⟨hr.toWorks, hr.txBdIndex, .inr ⟨hno, hr.rxBdIndex⟩⟩
  unfold rxWork at h
  cases hline : s.intLineStat with
  | true =>
    rw [hline] at h
    cases h
    exact hidle (.refl s) fun hf => by simp [hf.1] at hline
  | false =>
    rw [hline] at h
    obtain ⟨bdInfo, hinfo, h⟩ := Runs.bind_eq_ok_iff.1 h
    obtain ⟨-, rfl⟩ := bd_eq_ok hinfo
    split at h
    · next hready =>
      obtain ⟨hworks, htx, hfill | ⟨hno, hrx⟩⟩ := ethFillBd_spec h
      · exact ⟨hworks, htx, .inl ⟨⟨hline, hready, hfill.1⟩, hfill.2⟩⟩
      · exact ⟨hworks, htx, .inr ⟨fun hf => hno hf.2.2, hrx⟩⟩
    · next hready =>
      have hno : ¬Fills cfg a s := fun hf => hready hf.2.1
      have hread := reads_ethIgnoreTapPackets cfg false s polls
      split at h
      · dsimp only at h
        split at h
        · -- a packet was thrown away
          cases h
          refine hidle (hread.trans ((reads_setSource _ intBUSY).trans ?_)) hno
          exact reads_interrupt (setSource_getLsbD _ (by decide)) id
        · cases h
          exact hidle hread hno
      · cases h
        exact hidle (.refl s) hno

/-! ### Jobs -/

/-- The bit of `MODER` that enables a clock. -/
def Job.enable : Job → ℕ
  | .txClock => moderTXEN
  | .rxClock => moderRXEN

/-- The clocks that run are those enabled, and each runs once. -/
def JobsInv (s : State) : Prop :=
  ∀ j, Sched.Queue.pending s.sched j = (s.regs.moder.getLsbD j.enable).toNat

/-- What a write of `MODER` does to the queue for one clock. -/
def Switched (j : Job) (was is : Bool) (q q' : Sched.Queue Job) : Prop :=
  match was, is with
  | false, true => Sched.schedAdd q (.job j) () 1 = some q'
  | true, false => Sched.schedFindRemove q (.job j) () = some q'
  | _, _ => q' = q

theorem pending_switched {j : Job} {was is : Bool} {q q' : Sched.Queue Job}
    (h : Switched j was is q q') (hwas : Sched.Queue.pending q j = was.toNat) (i : Job) :
    Sched.Queue.pending q' i = if j = i then is.toNat else Sched.Queue.pending q i := by
  match was, is with
  | false, true =>
    rw [Sched.pending_schedAdd h]
    split
    · next hj => rw [← hj, hwas, Bool.toNat_false, Bool.toNat_true]
    · rfl
  | true, false =>
    rw [Sched.pending_schedFindRemove h]
    split
    · next hj => rw [← hj, hwas, Bool.toNat_false, Bool.toNat_true]
    · rfl
  | true, true | false, false =>
    obtain rfl : q' = q := h
    split
    · next hj => rw [← hj, hwas]
    · rfl

theorem writeRxen_spec {value : Word} {polls : List Arrival}
    (h : writeRxen cfg value polls s = .ok t) :
    ∃ v q, Works s v ∧ v.txBdIndex = s.txBdIndex ∧
      (v.rxBdIndex = s.rxBdIndex ∨ v.rxBdIndex = s.regs.txBdNum * 2) ∧
      Switched .rxClock (s.regs.moder.getLsbD moderRXEN) (value.getLsbD moderRXEN) s.sched q ∧
      t = { v with sched := q } := by
  unfold writeRxen at h
  cases hwas : s.regs.moder.getLsbD moderRXEN <;> cases his : value.getLsbD moderRXEN
  case false.true =>
    rw [hwas, his] at h
    obtain ⟨q, hq, rfl⟩ := withSched_eq_ok h
    have hflush : Reads s
        (if cfg.rtxType = .tap then (ethIgnoreTapPackets cfg false s polls).2 else s) := by
      split
      · exact reads_ethIgnoreTapPackets cfg false s polls
      · exact .refl s
    generalize (if cfg.rtxType = .tap then (ethIgnoreTapPackets cfg false s polls).2 else s) = v
      at hflush hq
    refine ⟨{ v with rxBdIndex := v.regs.txBdNum * 2 }, q, ?_, hflush.txBdIndex, .inr ?_, ?_, rfl⟩
    · exact hflush.toWorks.trans ⟨rfl, rfl, rfl, id⟩
    · exact congrArg (· * 2) hflush.txBdNum
    · rw [← hflush.sched]
      exact hq
  case true.false =>
    rw [hwas, his] at h
    obtain ⟨q, hq, rfl⟩ := withSched_eq_ok h
    exact ⟨s, q, .refl s, rfl, .inl rfl, hq, rfl⟩
  case false.false | true.true =>
    rw [hwas, his] at h
    cases h
    exact ⟨s, s.sched, .refl s, rfl, .inl rfl, rfl, rfl⟩

theorem writeTxen_spec {value : Word} (h : writeTxen value s = .ok t) :
    ∃ q i, Switched .txClock (s.regs.moder.getLsbD moderTXEN) (value.getLsbD moderTXEN) s.sched q ∧
      (i = 0 ∨ i = s.txBdIndex ∧
        (value.getLsbD moderTXEN = true → s.regs.moder.getLsbD moderTXEN = true)) ∧
      t = { s with txBdIndex := i, sched := q } := by
  unfold writeTxen at h
  cases hwas : s.regs.moder.getLsbD moderTXEN <;> cases his : value.getLsbD moderTXEN
  case false.true =>
    rw [hwas, his] at h
    obtain ⟨q, hq, rfl⟩ := withSched_eq_ok h
    exact ⟨q, 0, hq, .inl rfl, rfl⟩
  case true.false =>
    rw [hwas, his] at h
    obtain ⟨q, hq, rfl⟩ := withSched_eq_ok h
    exact ⟨q, s.txBdIndex, hq, .inr ⟨rfl, nofun⟩, rfl⟩
  case false.false | true.true =>
    rw [hwas, his] at h
    cases h
    exact ⟨s.sched, s.txBdIndex, rfl, .inr ⟨rfl, id⟩, rfl⟩

/-! ### Registers -/

theorem ethMiimTrans_same (cfg : Config) (r : Regs) :
    (ethMiimTrans cfg r).moder = r.moder ∧ (ethMiimTrans cfg r).txBdNum = r.txBdNum ∧
      (ethMiimTrans cfg r).intSource = r.intSource ∧ (ethMiimTrans cfg r).intMask = r.intMask := by
  unfold ethMiimTrans
  split <;> exact ⟨rfl, rfl, rfl, rfl⟩

/-- A write of a register other than `MODER` and `TX_BD_NUM` moves nothing. -/
theorem writeReg_works {value : Word} {polls : List Arrival} {r : Reg} (hmoder : r ≠ .moder)
    (hnum : r ≠ .txBdNum) (h : writeReg cfg value polls s r = .ok t) :
    Works s t ∧ t.txBdIndex = s.txBdIndex ∧ t.rxBdIndex = s.rxBdIndex := by
  cases r with
  | moder => exact absurd rfl hmoder
  | txBdNum => exact absurd rfl hnum
  | intSource =>
    obtain rfl := Except.ok.inj h
    split
    · exact ⟨⟨rfl, rfl, rfl, nofun⟩, rfl, rfl⟩
    · next hno => exact ⟨⟨rfl, rfl, rfl, fun _ hline h => hno ⟨h, hline⟩⟩, rfl, rfl⟩
  | intMask =>
    obtain rfl := Except.ok.inj h
    split
    · next hpending => exact ⟨⟨rfl, rfl, rfl, fun _ _ => hpending.1⟩, rfl, rfl⟩
    · split
      · exact ⟨⟨rfl, rfl, rfl, nofun⟩, rfl, rfl⟩
      · next hline => exact ⟨⟨rfl, rfl, rfl, fun _ h => absurd h hline⟩, rfl, rfl⟩
  | miicommand =>
    obtain rfl := Except.ok.inj h
    obtain ⟨hm, hn, hsource, hmask⟩ := ethMiimTrans_same cfg { s.regs with miicommand := value }
    refine ⟨⟨hm, hn, rfl, fun hs hline => ?_⟩, rfl, rfl⟩
    dsimp only
    rw [hsource, hmask]
    exact hs hline
  | _ =>
    obtain rfl := Except.ok.inj h
    exact ⟨⟨rfl, rfl, rfl, id⟩, rfl, rfl⟩

theorem ethReset_sched (cfg : Config) (s : State) : (ethReset cfg s).sched = s.sched := by
  unfold ethReset
  split <;> rfl

theorem lineInv_ethReset (h : LineInv s) : LineInv (ethReset cfg s) := by
  unfold ethReset
  split
  · exact h
  · exact nofun

/-- A write of `MODER`, apart from what becomes of the descriptors. -/
theorem writeModer_book {value : Word} {polls : List Arrival} (hline : LineInv s)
    (hjobs : JobsInv s) (h : writeReg cfg value polls s .moder = .ok t) :
    LineInv t ∧ JobsInv t := by
  obtain ⟨u, hu, h⟩ := Runs.bind_eq_ok_iff.1 h
  obtain ⟨w, hw, h⟩ := Runs.bind_eq_ok_iff.1 h
  obtain rfl := Except.ok.inj h
  obtain ⟨v, q, hv, -, -, hrx, rfl⟩ := writeRxen_spec hu
  obtain ⟨q', i, htx, -, rfl⟩ := writeTxen_spec hw
  have htx : Switched .txClock (s.regs.moder.getLsbD moderTXEN) (value.getLsbD moderTXEN) q q' :=
    hv.moder ▸ htx
  constructor
  · have hlast : LineInv { v with txBdIndex := i, sched := q' } := hv.line hline
    dsimp only [LineInv]
    split
    · exact lineInv_ethReset hlast
    · exact hlast
  · intro j
    have hsched : ∀ x : State, (if value.getLsbD moderRST then ethReset cfg x else x).sched =
        x.sched := by
      intro x
      split
      · exact ethReset_sched cfg x
      · rfl
    dsimp only
    rw [hsched]
    dsimp only
    have hq := pending_switched hrx (hjobs .rxClock)
    have hq' := pending_switched htx ((hq .txClock).trans (hjobs .txClock))
    rw [hq']
    cases j with
    | txClock => rfl
    | rxClock => exact hq .rxClock

theorem writeReg_book {value : Word} {polls : List Arrival} {r : Reg} (hline : LineInv s)
    (hjobs : JobsInv s) (h : writeReg cfg value polls s r = .ok t) : LineInv t ∧ JobsInv t := by
  by_cases hmoder : r = .moder
  · subst hmoder
    exact writeModer_book hline hjobs h
  · by_cases hnum : r = .txBdNum
    · subst hnum
      cases h
      exact ⟨hline, hjobs⟩
    · have hw := (writeReg_works hmoder hnum h).1
      refine ⟨hw.line hline, fun j => ?_⟩
      rw [hw.sched, hw.moder]
      exact hjobs j

/-! ### Runs -/

theorem jobExec_book {w : World} {j : Job} {q : Sched.Queue Job} (hline : LineInv s)
    (hjobs : JobsInv s) (hq : Sched.dispatch s.sched = some (some j, q))
    (h : j.exec cfg w { s with sched := q } = .ok t) : LineInv t ∧ JobsInv t := by
  -- the job is taken off the queue, and queues itself again
  have hback : ∀ {v : State} {q' : Sched.Queue Job}, Works { s with sched := q } v →
      Sched.schedAdd v.sched (.job j) () rtxReschedPeriod = some q' →
      JobsInv { v with sched := q' } := by
    intro v q' hv hadd i
    have hoff := Sched.pending_dispatch hq i
    have hon := Sched.pending_schedAdd hadd i
    rw [hv.sched] at hon
    have hi := hjobs i
    have hm : v.regs.moder = s.regs.moder := hv.moder
    dsimp only at hon ⊢
    rw [hm, ← hi, hoff, hon]
    simp only [Option.some.injEq]
  cases j with
  | txClock =>
    obtain ⟨v, hv, h⟩ := Runs.bind_eq_ok_iff.1 h
    obtain ⟨q', hadd, rfl⟩ := withSched_eq_ok h
    have hworks := (txWork_spec hv).1
    exact ⟨hworks.line hline, hback hworks hadd⟩
  | rxClock =>
    obtain ⟨v, hv, h⟩ := Runs.bind_eq_ok_iff.1 h
    obtain ⟨q', hadd, rfl⟩ := withSched_eq_ok h
    have hworks := (rxWork_spec hv).1
    exact ⟨hworks.line hline, hback hworks hadd⟩

theorem event_book {e : Event} (hline : LineInv s) (hjobs : JobsInv s)
    (h : e.exec cfg s = .ok t) : LineInv t ∧ JobsInv t := by
  cases e with
  | write addr value polls =>
    have h : ethWrite32 cfg addr value polls s = .ok t := h
    unfold ethWrite32 at h
    split at h
    · exact writeReg_book hline hjobs h
    · cases h
      exact ⟨hline, hjobs⟩
  | outside e =>
    obtain ⟨q, hq, rfl⟩ := withSched_eq_ok h
    exact ⟨hline, fun j => (Sched.pending_outside hq j).trans (hjobs j)⟩
  | schedule w =>
    have h : runJob cfg w s = .ok t := h
    unfold runJob at h
    split at h
    case h_1 j q hq => exact jobExec_book hline hjobs hq h
    case h_2 q hq =>
      cases h
      refine ⟨hline, fun j => ?_⟩
      have hoff := Sched.pending_dispatch hq j
      rw [if_neg nofun, Nat.add_zero] at hoff
      exact hoff.symm.trans (hjobs j)
    case h_3 => cases h

theorem jobsInv_start {q : Sched.Queue Job} (hq : ∀ j, Sched.Queue.pending q j = 0) :
    JobsInv (ethReset cfg (secStart q)) := by
  intro j
  rw [ethReset_sched, show (secStart q).sched = q from rfl, hq]
  unfold ethReset
  split
  · change 0 = ((0 : Word).getLsbD j.enable).toNat
    cases j <;> decide
  · change 0 = ((0x0000A000 : Word).getLsbD j.enable).toNat
    cases j <;> decide

/-- **In every state that can be reached from a reset, the interrupt line is active only while a
source is enabled, and the job of each clock is queued exactly once while `MODER` enables it and not
at all otherwise.** -/
theorem eth_bookkeeping {q : Sched.Queue Job} {es : List Event}
    (hq : ∀ j, Sched.Queue.pending q j = 0)
    (h : es.foldlM (Event.exec cfg) (ethReset cfg (secStart q)) = .ok t) :
    (t.intLineStat = true → t.regs.intSource &&& t.regs.intMask ≠ 0) ∧
      Sched.Queue.pending t.sched .rxClock = (if t.regs.moder.getLsbD moderRXEN then 1 else 0) ∧
      Sched.Queue.pending t.sched .txClock = (if t.regs.moder.getLsbD moderTXEN then 1 else 0) := by
  have hbook : LineInv t ∧ JobsInv t :=
    Runs.foldlM_invariant (P := fun s => LineInv s ∧ JobsInv s) (C := fun _ _ => True)
      (fun _ _ _ hs _ he => event_book hs.1 hs.2 he)
      ⟨lineInv_ethReset fun h => absurd h Bool.false_ne_true, jobsInv_start hq⟩
      (Runs.along_of_forall (fun _ _ => trivial) _) h
  have hite : ∀ b : Bool, b.toNat = if b then 1 else 0 := by decide
  exact ⟨hbook.1, (hbook.2 .rxClock).trans (hite _), (hbook.2 .txClock).trans (hite _)⟩

/-- A packet is sent, and the line is active while both clocks run. -/
theorem eth_bookkeeping_sent :
    ∃ t, [Event.write 0x400 0x0004c000 [], .write 0x08 1 [], .write 0x00 3 [],
          .outside (.charge 1), .schedule .quiet].foldlM (Event.exec fileConfig)
        (ethReset fileConfig (secStart Sched.idleQueue)) = .ok t ∧
      t.intLineStat = true ∧ t.regs.moder = 3 ∧
      ((t.intLineStat = true → t.regs.intSource &&& t.regs.intMask ≠ 0) ∧
        Sched.Queue.pending t.sched .rxClock = (if t.regs.moder.getLsbD moderRXEN then 1 else 0) ∧
        Sched.Queue.pending t.sched .txClock =
          if t.regs.moder.getLsbD moderTXEN then 1 else 0) := by
  obtain ⟨t, ht, htest⟩ := Runs.exists_ok_of_any
    (p := fun t : State => t.intLineStat && decide (t.regs.moder = 3))
    (x := [Event.write 0x400 0x0004c000 [], .write 0x08 1 [], .write 0x00 3 [],
        .outside (.charge 1), .schedule .quiet].foldlM (Event.exec fileConfig)
      (ethReset fileConfig (secStart Sched.idleQueue))) (by decide)
  obtain ⟨hline, hmoder⟩ := Bool.and_eq_true_iff.1 htest
  exact ⟨t, ht, hline, of_decide_eq_true hmoder, eth_bookkeeping Sched.pending_idleQueue ht⟩

end Eth
end Or1ksim
