import Or1ksim.Lib.Ring
import Or1ksim.Uart.Frame

/-!
# The transmitter

A byte goes from the FIFO into the shift register and from there, when its time is over, to
`send_char`, unless the break bit is set by then.

* `TxInv` — the FIFO, the shift register and the job of the transmitter agree;
* `uartTxSend_inv`, `nextChar_inv` — taking the next byte;
* `event_inv` — every event keeps the invariant, unless it clears the break bit while the
  transmitter is busy;
* `uart_transmit` — **the bytes are kept in order** in every run without such events.
-/

namespace Or1ksim
namespace Uart

/-! ### The invariant -/

/-- What is in the FIFO of the transmitter, oldest first. -/
def State.fifo (s : State) : List Byte := Ring.contents s.txbuf s.txbufTail s.txbufFull s.fifoLen

/-- `UART_LSR_TXSERE` is clear: there is a byte in the shift register. -/
def State.busy (s : State) : Bool := !s.lsr.getLsbD lsrTXSERE

/-- The byte in the shift register. -/
def State.inFlight (s : State) : List Byte := if s.busy then [s.txser] else []

/-- The characters handed to `send_char`, in order. -/
def State.sent (s : State) : List Byte := s.shifted.filterMap Shifted.sent

/-- The job for a byte in the shift register. -/
def State.charJob (s : State) : Fn := if s.lcr.getLsbD lcrSBC then .sendBreak else .charClock

/-- The job that the transmitter waits for. -/
def State.nextJobs (s : State) : List Fn :=
  if s.busy then [s.charJob] else if s.txbufFull = 0 then [] else [.txSend]

/-- What the receiver has taken in leaves the transmitter's bits alone. -/
def RxOk (s : State) : Prop := RxBits s.rxser ∧ ∀ k, RxBits (s.rxbuf k)

/-- The transmitter with these jobs queued and these bytes in the shift register. -/
structure TxCore (s : State) (jobs : List Fn) (inFlight : List Byte) : Prop where
  len : s.fifoLen = 1 ∨ s.fifoLen = 16
  tail : s.txbufTail < s.fifoLen
  full : s.txbufFull ≤ s.fifoLen
  head : s.txbufHead = (s.txbufTail + s.txbufFull) % s.fifoLen
  jobs : s.txJobs = jobs
  order : s.queued = s.shifted.map Shifted.byte ++ inFlight ++ s.fifo
  rx : RxOk s

/-- The FIFO, the shift register and the job of the transmitter agree. -/
def TxInv (s : State) : Prop := TxCore s s.nextJobs s.inFlight

/-- Nothing that the transmitter depends on has changed. -/
structure SameTx (s t : State) : Prop where
  txbuf : t.txbuf = s.txbuf
  head : t.txbufHead = s.txbufHead
  tail : t.txbufTail = s.txbufTail
  full : t.txbufFull = s.txbufFull
  len : t.fifoLen = s.fifoLen
  txser : t.txser = s.txser
  queued : t.queued = s.queued
  shifted : t.shifted = s.shifted
  jobs : t.txJobs = s.txJobs
  busy : t.busy = s.busy
  sbc : t.lcr.getLsbD lcrSBC = s.lcr.getLsbD lcrSBC
  rx : RxOk s → RxOk t

section Inv

variable {cfg : Config} {s t u : State} {f : Fn} {jobs : List Fn} {inFlight : List Byte}

theorem SameTx.trans (h : SameTx s t) (h' : SameTx t u) : SameTx s u where
  txbuf := h'.txbuf.trans h.txbuf
  head := h'.head.trans h.head
  tail := h'.tail.trans h.tail
  full := h'.full.trans h.full
  len := h'.len.trans h.len
  txser := h'.txser.trans h.txser
  queued := h'.queued.trans h.queued
  shifted := h'.shifted.trans h.shifted
  jobs := h'.jobs.trans h.jobs
  busy := h'.busy.trans h.busy
  sbc := h'.sbc.trans h.sbc
  rx := h'.rx ∘ h.rx

theorem SameTx.core (h : SameTx s t) (hs : TxCore s jobs inFlight) : TxCore t jobs inFlight where
  len := by
    rw [h.len]
    exact hs.len
  tail := by
    rw [h.tail, h.len]
    exact hs.tail
  full := by
    rw [h.full, h.len]
    exact hs.full
  head := by
    rw [h.head, h.tail, h.full, h.len]
    exact hs.head
  jobs := h.jobs.trans hs.jobs
  order := by
    rw [h.queued, h.shifted, State.fifo, h.txbuf, h.tail, h.full, h.len]
    exact hs.order
  rx := h.rx hs.rx

theorem SameTx.inv (h : SameTx s t) (hs : TxInv s) : TxInv t := by
  have hcore := h.core hs
  have hnext : t.nextJobs = s.nextJobs := by
    rw [State.nextJobs, State.nextJobs, State.charJob, State.charJob, h.busy, h.full, h.sbc]
  have hflight : t.inFlight = s.inFlight := by
    rw [State.inFlight, State.inFlight, h.busy, h.txser]
  rw [TxInv, hnext, hflight]
  exact hcore

theorem OnlyInts.sameTx (h : OnlyInts s t) : SameTx s t := by
  have hjobs := h.jobs
  rw [h.eq] at hjobs ⊢
  exact ⟨rfl, rfl, rfl, rfl, rfl, rfl, rfl, rfl, hjobs, rfl, rfl, id⟩

theorem OnlyRecv.sameTx (h : OnlyRecv s t) : SameTx s t := by
  have hjobs := h.jobs
  have hrxser := h.rxser
  rw [h.eq] at hjobs hrxser ⊢
  exact ⟨rfl, rfl, rfl, rfl, rfl, rfl, rfl, rfl, hjobs, rfl, rfl, fun hs => ⟨hrxser hs.1, hs.2⟩⟩

/-- A bit of the line status register that is not the transmitter's. -/
theorem busy_or (s : State) {l : Byte} (hl : l.getLsbD lsrTXSERE = false) :
    ({ s with lsr := s.lsr ||| l } : State).busy = s.busy := by
  rw [State.busy, State.busy, BitVec.getLsbD_or, hl, Bool.or_false]

theorem busy_and (s : State) {l : Byte} (hl : l.getLsbD lsrTXSERE = true) :
    ({ s with lsr := s.lsr &&& l } : State).busy = s.busy := by
  rw [State.busy, State.busy, BitVec.getLsbD_and, hl, Bool.and_true]

theorem RxBits.lsr {ch : BitVec 16} (h : RxBits ch) :
    ((ch >>> 8).setWidth 8 : Byte).getLsbD lsrTXSERE = false := by
  rw [BitVec.getLsbD_setWidth, BitVec.getLsbD_ushiftRight]
  exact (Bool.true_and _).trans h

/-! ### The next byte -/

theorem decFull_of_pos {n : ℕ} (hpos : n ≠ 0) (hn : n ≤ 16) : decFull n = n - 1 := by
  unfold decFull
  omega

theorem scheduleChar_core (hs : TxCore s [] inFlight) (h : scheduleChar s = .ok t) :
    TxCore t [s.charJob] inFlight ∧ t.txbufFull = s.txbufFull ∧ t.busy = s.busy ∧
      t.txser = s.txser ∧ t.lcr = s.lcr := by
  have hone : ∀ {f : Fn} {n : ℕ}, f.isTx = true → s.schedAdd f n = .ok t →
      TxCore t [f] inFlight ∧ t.txbufFull = s.txbufFull ∧ t.busy = s.busy ∧ t.txser = s.txser ∧
        t.lcr = s.lcr := by
    intro f n hf hadd
    obtain ⟨pre, post, hpre, hpost⟩ := txJobs_schedAdd hf hadd
    rw [hs.jobs] at hpre
    obtain ⟨rfl, rfl⟩ := List.append_eq_nil_iff.1 hpre.symm
    obtain ⟨q, -, rfl⟩ := schedAdd_eq_ok hadd
    exact ⟨⟨hs.len, hs.tail, hs.full, hs.head, hpost, hs.order, hs.rx⟩, rfl, rfl, rfl, rfl⟩
  unfold scheduleChar at h
  unfold State.charJob
  cases hsbc : s.lcr.getLsbD lcrSBC with
  | false =>
    rw [hsbc] at h
    exact hone rfl h
  | true =>
    rw [hsbc] at h
    exact hone rfl h

theorem uartTxSend_inv (h : uartTxSend s = .ok t) (hs : TxCore s [] []) (hfull : s.txbufFull ≠ 0) :
    TxInv t := by
  obtain ⟨u, hu, h⟩ := Runs.bind_eq_ok_iff.1 h
  have hle : s.txbufFull ≤ 16 := hs.full.trans (by rcases hs.len with h | h <;> omega)
  obtain ⟨n, hn⟩ : ∃ n, s.txbufFull = n + 1 := ⟨s.txbufFull - 1, by omega⟩
  have hdec : decFull s.txbufFull = n := by
    rw [decFull_of_pos hfull hle]
    omega
  have hpos : 0 < s.fifoLen := by
    rcases hs.len with h | h <;> omega
  rw [hdec] at hu
  have htaken : TxCore { s with
      txser := s.txbuf s.txbufTail
      txbufTail := (s.txbufTail + 1) % s.fifoLen
      txbufFull := n
      lsr := s.lsr &&& ~~~0x40 } [] [s.txbuf s.txbufTail] := by
    refine ⟨hs.len, Nat.mod_lt _ hpos, ?_, ?_, hs.jobs, ?_, hs.rx⟩
    · have hle := hs.full
      rw [hn] at hle
      exact (Nat.le_succ n).trans hle
    · change s.txbufHead = ((s.txbufTail + 1) % s.fifoLen + n) % s.fifoLen
      rw [hs.head, hn, Nat.mod_add_mod, Nat.add_assoc, Nat.add_comm 1 n]
    · have horder := hs.order
      rw [State.fifo, hn, Ring.contents_pop hs.tail, List.append_nil] at horder
      change s.queued = s.shifted.map Shifted.byte ++ [s.txbuf s.txbufTail] ++
        Ring.contents s.txbuf ((s.txbufTail + 1) % s.fifoLen) n s.fifoLen
      rw [horder, List.append_assoc]
      rfl
  obtain ⟨hcore, hufull, hubusy, hutxser, hulcr⟩ := scheduleChar_core htaken hu
  have hbusy : u.busy = true := by
    rw [hubusy, State.busy, BitVec.getLsbD_and]
    exact congrArg Bool.not (Bool.and_false _)
  have hinv : TxInv u := by
    have hnext : u.nextJobs = [State.charJob s] := by
      rw [State.nextJobs, if_pos hbusy, State.charJob, hulcr]
      rfl
    have hflight : u.inFlight = [s.txbuf s.txbufTail] := by
      rw [State.inFlight, if_pos hbusy, hutxser]
    rw [TxInv, hnext, hflight]
    exact hcore
  cases h
  split
  · have hset : SameTx u { u with lsr := u.lsr ||| 0x20 } :=
      ⟨rfl, rfl, rfl, rfl, rfl, rfl, rfl, rfl, rfl, busy_or u rfl, rfl, id⟩
    exact (hset.trans (raiseInt_onlyInts _ _ _ _).sameTx).inv hinv
  · exact hinv

/-- The shift register is empty and goes on with the next byte, if there is one. -/
theorem nextChar_inv (h : nextChar s = .ok t) (hs : TxCore s [] []) : TxInv t := by
  unfold nextChar at h
  split at h
  case isTrue hzero =>
    cases h
    have hidle : ({ s with lsr := s.lsr ||| 0x40 } : State).busy = false := by
      rw [State.busy, BitVec.getLsbD_or]
      exact congrArg Bool.not (Bool.or_true _)
    have hnext : ({ s with lsr := s.lsr ||| 0x40 } : State).nextJobs = [] := by
      rw [State.nextJobs, hidle]
      exact if_pos hzero
    have hflight : ({ s with lsr := s.lsr ||| 0x40 } : State).inFlight = [] := by
      rw [State.inFlight, hidle]
      rfl
    rw [TxInv, hnext, hflight]
    exact ⟨hs.len, hs.tail, hs.full, hs.head, hs.jobs, hs.order, hs.rx⟩
  case isFalse hfull => exact uartTxSend_inv h hs hfull

theorem TxCore.shift {b : Byte} {x : Shifted} (hs : TxCore s jobs [b]) (hx : x.byte = b)
    (ht : SameTx { s with shifted := s.shifted ++ [x] } t) : TxCore t jobs [] := by
  refine ht.core ⟨hs.len, hs.tail, hs.full, hs.head, hs.jobs, ?_, hs.rx⟩
  have horder := hs.order
  dsimp only
  rw [List.map_append, List.map_singleton, hx, List.append_nil]
  exact horder

theorem sendChar_core {bitsSend : ℕ} (hs : TxCore s jobs [s.txser]) :
    TxCore (sendChar cfg s bitsSend) jobs [] := by
  refine hs.shift (x := .char s.txser) rfl ?_
  unfold sendChar
  dsimp only
  split_ifs
  all_goals exact ⟨rfl, rfl, rfl, rfl, rfl, rfl, rfl, rfl, rfl, rfl, rfl, id⟩

theorem nextJobs_eq_cons {rest : List Fn} (h : s.nextJobs = f :: rest) :
    rest = [] ∧
      (s.busy = true ∧ f = s.charJob ∨ s.busy = false ∧ s.txbufFull ≠ 0 ∧ f = .txSend) := by
  unfold State.nextJobs at h
  split at h
  case isTrue hbusy =>
    cases h
    exact ⟨rfl, .inl ⟨hbusy, rfl⟩⟩
  case isFalse hbusy =>
    split at h
    case isTrue => cases h
    case isFalse hfull =>
      cases h
      exact ⟨rfl, .inr ⟨Bool.eq_false_iff.2 hbusy, hfull, rfl⟩⟩

/-! ### Accesses -/

theorem TxCore.pushTx {value : Byte} (hs : TxCore s jobs inFlight)
    (hroom : s.txbufFull < s.fifoLen) : TxCore (pushTx s value) jobs inFlight := by
  refine ⟨hs.len, hs.tail, hroom, ?_, hs.jobs, ?_, hs.rx⟩
  · change (s.txbufHead + 1) % s.fifoLen = (s.txbufTail + (s.txbufFull + 1)) % s.fifoLen
    rw [hs.head, Nat.mod_add_mod, Nat.add_assoc]
  · change s.queued ++ [value] = _ ++ Ring.contents (Function.update s.txbuf s.txbufHead value)
      s.txbufTail (s.txbufFull + 1) s.fifoLen
    rw [hs.head, Ring.contents_push hroom, hs.order, List.append_assoc]
    rfl

theorem TxCore.overwriteTx {value : Byte} (hs : TxCore s jobs inFlight)
    (hfull : s.txbufFull = s.fifoLen) : TxCore (overwriteTx s value) jobs inFlight := by
  have hfifo : s.fifo.length = s.txbufFull := Ring.length_contents
  have hindex : s.queued.length - s.txbufFull =
      (s.shifted.map Shifted.byte ++ inFlight).length + 0 := by
    rw [hs.order, List.length_append, hfifo]
    omega
  refine ⟨hs.len, hs.tail, hs.full, hs.head, hs.jobs, ?_, hs.rx⟩
  change s.queued.set (s.queued.length - s.txbufFull) value =
    s.shifted.map Shifted.byte ++ inFlight ++ Ring.contents
      (Function.update s.txbuf s.txbufHead value) s.txbufTail s.txbufFull s.fifoLen
  rw [hindex, hs.order, List.set_append_right _ _ (by omega), Nat.add_zero, Nat.sub_self, hs.head,
    hfull, Ring.contents_overwrite hs.tail, State.fifo, hfull]

theorem putTxbuf_inv {value : Byte} (hs : TxInv s) (h : putTxbuf s value = .ok t) : TxInv t := by
  have hset : SameTx s { s with lsr := s.lsr &&& ~~~0x20 } :=
    ⟨rfl, rfl, rfl, rfl, rfl, rfl, rfl, rfl, rfl, busy_and s rfl, rfl, id⟩
  replace hs := hset.inv hs
  unfold putTxbuf at h
  generalize ({ s with lsr := s.lsr &&& ~~~0x20 } : State) = s at hs h
  dsimp only at h
  split at h
  case isTrue hroom =>
    have hput : TxCore (pushTx s value) s.nextJobs s.inFlight := TxCore.pushTx hs hroom
    split at h
    case isTrue hidle =>
      -- The transmitter has nothing to do: its job is queued.
      have hbusy : s.busy = false := congrArg Bool.not hidle.2
      have hjobs : s.nextJobs = [] := by
        rw [State.nextJobs, hbusy]
        exact if_pos hidle.1
      have hflight : s.inFlight = [] := by
        rw [State.inFlight, hbusy]
        rfl
      rw [hjobs, hflight] at hput
      obtain ⟨pre, post, hpre, hpost⟩ := txJobs_schedAdd (f := .txSend) rfl h
      rw [hput.jobs] at hpre
      obtain ⟨rfl, rfl⟩ := List.append_eq_nil_iff.1 hpre.symm
      obtain ⟨q, -, rfl⟩ := schedAdd_eq_ok h
      have hbusy' : ({ pushTx s value with sched := q } : State).busy = false := hbusy
      rw [TxInv, State.nextJobs, State.inFlight, hbusy']
      exact ⟨hput.len, hput.tail, hput.full, hput.head, hpost, hput.order, hput.rx⟩
    case isFalse hidle =>
      cases h
      have hnext : (pushTx s value).nextJobs = s.nextJobs := by
        change (if s.busy then [s.charJob] else [.txSend]) = _
        unfold State.nextJobs
        split
        case isTrue => rfl
        case isFalse hbusy =>
          have hsere : s.lsr.getLsbD lsrTXSERE = true := by
            rw [State.busy] at hbusy
            simpa using hbusy
          exact (if_neg fun hzero => hidle ⟨hzero, hsere⟩).symm
      rw [TxInv, hnext]
      exact hput
  case isFalse hroom =>
    cases h
    exact TxCore.overwriteTx hs (le_antisymm hs.full (not_lt.1 hroom))

theorem writeTxbuf_inv {value : Byte} (hs : TxInv s) (h : writeTxbuf s value = .ok t) :
    TxInv t := by
  obtain ⟨u, hu, h⟩ := Runs.bind_eq_ok_iff.1 h
  exact (uartClearInt_onlyInts h).sameTx.inv (putTxbuf_inv hs hu)

theorem resetTx_inv {n : ℕ} {fcr : Byte} (hn : n = 1 ∨ n = 16) (hs : TxInv s)
    (h : resetTx { s with fcr := fcr, fifoLen := n } = .ok t) : TxInv t := by
  unfold resetTx at h
  extract_lets s₁ s₂ at h
  have hbusy : s₁.busy = s.busy := busy_or s rfl
  have hfifo : s.fifo.length = s.txbufFull := Ring.length_contents
  have hcore : TxCore s₁ s.nextJobs s.inFlight := by
    refine ⟨hn, ?_, Nat.zero_le _, (Nat.zero_mod _).symm, hs.jobs, ?_, hs.rx⟩
    · change 0 < n
      omega
    · change s.queued.take (s.queued.length - s.txbufFull) =
        s.shifted.map Shifted.byte ++ s.inFlight ++ []
      rw [hs.order, List.length_append, hfifo, Nat.add_sub_cancel, List.take_left, List.append_nil]
  have hsame : SameTx s₁ s₂ := by
    show SameTx s₁ (if s₁.fifoLen = 16 then uartIntThri s₁ else s₁)
    split
    · exact (raiseInt_onlyInts _ _ _ _).sameTx
    · exact (OnlyInts.refl s₁).sameTx
  have hs₂ := hsame.core hcore
  have hjobs := txJobs_schedFindRemove h
  rw [hs₂.jobs] at hjobs
  obtain ⟨q, -, rfl⟩ := schedFindRemove_eq_ok h
  have hbusy₂ : ({ s₂ with sched := q } : State).busy = s.busy := hsame.busy.trans hbusy
  have hnext : ({ s₂ with sched := q } : State).nextJobs = s.nextJobs.erase .txSend := by
    have hcharJob : ({ s₂ with sched := q } : State).charJob = s.charJob := by
      unfold State.charJob
      exact congrArg (fun b => if b then Fn.sendBreak else .charClock) hsame.sbc
    have hfull : ({ s₂ with sched := q } : State).txbufFull = 0 := hsame.full
    unfold State.nextJobs
    rw [hbusy₂, hcharJob, hfull]
    split
    case isTrue =>
      have hne : s.charJob ≠ .txSend := by
        unfold State.charJob
        split <;> decide
      exact (List.erase_of_not_mem fun hmem => hne (List.mem_singleton.1 hmem).symm).symm
    case isFalse =>
      by_cases hzero : s.txbufFull = 0
      · rw [if_pos hzero]
        rfl
      · rw [if_neg hzero]
        rfl
  have hflight : ({ s₂ with sched := q } : State).inFlight = s.inFlight := by
    have htxser : s₂.txser = s.txser := hsame.txser
    unfold State.inFlight
    rw [hbusy₂, htxser]
  rw [TxInv, hnext, hflight]
  exact ⟨hs₂.len, hs₂.tail, hs₂.full, hs₂.head, hjobs, hs₂.order, hs₂.rx⟩

/-- A value that does not empty the FIFO leaves its length alone. -/
theorem fcrValue_keeps {value : Byte} (hlen : s.fifoLen = 1 ∨ s.fifoLen = 16)
    (h : (fcrValue s value).getLsbD fcrRTXFI = false) :
    (if value.getLsbD fcrFIE then 16 else 1) = s.fifoLen := by
  unfold fcrValue at h
  split at h
  case isTrue =>
    rw [BitVec.getLsbD_or] at h
    exact absurd ((Bool.or_true _).symm.trans h) (by decide)
  case isFalse hkeep =>
    obtain ⟨hone, hmany⟩ := not_or.1 hkeep
    rcases hlen with hlen | hlen
    · rw [if_neg fun hfie => hone ⟨hlen, hfie⟩, hlen]
    · rw [if_pos, hlen]
      by_contra hfie
      exact hmany ⟨by omega, Bool.eq_false_iff.2 hfie⟩

theorem writeFcr_inv {value : Byte} (hs : TxInv s) (h : writeFcr s value = .ok t) : TxInv t := by
  have hn : (if value.getLsbD fcrFIE then 16 else 1) = 1 ∨
      (if value.getLsbD fcrFIE then 16 else 1) = 16 := by
    split
    · exact .inr rfl
    · exact .inl rfl
  obtain ⟨u, hu, h⟩ := Runs.bind_eq_ok_iff.1 h
  have hreset : TxInv u := by
    unfold resetTxIf at hu
    split at hu
    case isTrue => exact resetTx_inv hn hs hu
    case isFalse hkeep =>
      cases hu
      have hlen := fcrValue_keeps hs.len (Bool.eq_false_iff.2 hkeep)
      have hset : SameTx s { s with
          fcr := value &&& 0xc0
          fifoLen := if value.getLsbD fcrFIE then 16 else 1 } :=
        ⟨rfl, rfl, rfl, rfl, hlen, rfl, rfl, rfl, rfl, rfl, rfl, id⟩
      exact hset.inv hs
  split at h
  · obtain ⟨v, hv, h⟩ := Runs.bind_eq_ok_iff.1 h
    have hset : SameTx u { u with
        rxbufHead := 0
        rxbufTail := 0
        rxbufFull := 0
        lsr := u.lsr &&& ~~~1 } :=
      ⟨rfl, rfl, rfl, rfl, rfl, rfl, rfl, rfl, rfl, busy_and u rfl, rfl, id⟩
    have hclear := (uartClearInt_onlyInts hv).trans (uartClearInt_onlyInts h)
    exact (hset.trans hclear.sameTx).inv hreset
  · cases h
    exact hreset

/-- The write clears the break bit while the transmitter is busy. -/
def EndsBreak (s : State) (value : Byte) : Prop :=
  s.lcr.getLsbD lcrSBC = true ∧ value.getLsbD lcrSBC = false ∧ s.busy = true

/-- While the transmitter is idle the break bit does not matter. -/
theorem TxInv.setLcr {value : Byte} {n : ℕ} (hs : TxInv s) (hidle : s.busy = false) :
    TxInv { s with lcr := value, charClks := n } := by
  have hidle' : ({ s with lcr := value, charClks := n } : State).busy = false := hidle
  have hnext : ({ s with lcr := value, charClks := n } : State).nextJobs = s.nextJobs := by
    rw [State.nextJobs, State.nextJobs, hidle, hidle']
    rfl
  rw [TxInv, hnext]
  exact ⟨hs.len, hs.tail, hs.full, hs.head, hs.jobs, hs.order, hs.rx⟩

/-- The break bit is set: a byte in the shift register gets the other job. -/
theorem breakOn_inv {value : Byte} {n : ℕ} (hs : TxInv s) (hoff : s.lcr.getLsbD lcrSBC = false)
    (hon : value.getLsbD lcrSBC = true) (h : breakOn s value = .ok t) :
    TxInv { t with lcr := value, charClks := n } := by
  unfold breakOn at h
  split at h
  case isTrue hbusy =>
    obtain ⟨u, hu, h⟩ := Runs.bind_eq_ok_iff.1 h
    have hbusy' : s.busy = true := congrArg Bool.not hbusy.2
    have hjobs : s.txJobs = [.charClock] := by
      rw [hs.jobs, State.nextJobs, if_pos hbusy', State.charJob, hoff]
      rfl
    have hremove := txJobs_schedFindRemove hu
    rw [hjobs] at hremove
    obtain ⟨pre, post, hpre, hpost⟩ := txJobs_schedAdd (f := .sendBreak) rfl h
    rw [hremove] at hpre
    obtain ⟨rfl, rfl⟩ := List.append_eq_nil_iff.1 hpre.symm
    obtain ⟨q, -, rfl⟩ := schedFindRemove_eq_ok hu
    obtain ⟨q', -, rfl⟩ := schedAdd_eq_ok h
    have hbusy'' : ({ s with sched := q', lcr := value, charClks := n } : State).busy = true :=
      hbusy'
    have hnext : ({ s with sched := q', lcr := value, charClks := n } : State).nextJobs =
        [.sendBreak] := by
      rw [State.nextJobs, if_pos hbusy'', State.charJob, hon]
      rfl
    rw [TxInv, hnext]
    exact ⟨hs.len, hs.tail, hs.full, hs.head, hpost, hs.order, hs.rx⟩
  case isFalse hidle =>
    cases h
    have hsere : s.lsr.getLsbD lsrTXSERE = true := by
      by_contra hsere
      exact hidle ⟨hon, Bool.eq_false_iff.2 hsere⟩
    exact hs.setLcr (congrArg Bool.not hsere)

/-- The break bit changes together with the job for the byte in the shift register. -/
theorem writeLcr_inv {value : Byte} (hs : TxInv s) (hbreak : ¬EndsBreak s value)
    (h : writeLcr s value = .ok t) : TxInv t := by
  obtain ⟨u, hu, h⟩ := Runs.bind_eq_ok_iff.1 h
  cases h
  unfold toggleBreak at hu
  split at hu
  case isTrue hne =>
    obtain ⟨v, hv, hu⟩ := Runs.bind_eq_ok_iff.1 hu
    cases hvalue : value.getLsbD lcrSBC with
    | true =>
      rw [hvalue] at hne
      rw [breakOff, if_neg fun h => absurd (hvalue.symm.trans h.1) (by decide)] at hu
      cases hu
      exact breakOn_inv hs (Bool.eq_false_iff.2 hne) hvalue hv
    | false =>
      rw [hvalue] at hne
      rw [breakOn, if_neg fun h => absurd (hvalue.symm.trans h.1) (by decide)] at hv
      cases hv
      have hidle : s.busy = false := by
        by_contra hbusy
        exact hbreak ⟨Bool.not_eq_false _ ▸ hne, hvalue, Bool.not_eq_false _ ▸ hbusy⟩
      have hsere : ¬s.lsr.getLsbD lsrTXSERE = false := by
        intro hsere
        rw [State.busy, hsere] at hidle
        cases hidle
      rw [breakOff, if_neg fun h => hsere h.2] at hu
      cases hu
      exact hs.setLcr hidle
  case isFalse hsame =>
    cases hu
    have hset : SameTx s { s with lcr := value, charClks := charClks s.dll s.dlh value } :=
      ⟨rfl, rfl, rfl, rfl, rfl, rfl, rfl, rfl, rfl, rfl, (not_not.1 hsame).symm, id⟩
    exact hset.inv hs

/-! ### The receiver -/

theorem rxBits_update {buf : ℕ → BitVec 16} {k : ℕ} {ch : BitVec 16} (hch : RxBits ch)
    (hbuf : ∀ j, RxBits (buf j)) (j : ℕ) : RxBits (Function.update buf k ch j) := by
  by_cases hj : j = k
  · subst hj
    rw [Function.update_self]
    exact hch
  · rw [Function.update_of_ne hj]
    exact hbuf j

theorem pushRx_sameTx {ch : BitVec 16} (hch : RxBits ch) : SameTx s (pushRx s ch) := by
  unfold pushRx
  split
  case isTrue =>
    have hset : SameTx s { s with lsr := s.lsr ||| 0x82 } :=
      ⟨rfl, rfl, rfl, rfl, rfl, rfl, rfl, rfl, rfl, busy_or s rfl, rfl, id⟩
    exact hset.trans (raiseInt_onlyInts _ _ _ _).sameTx
  case isFalse =>
    extract_lets first s'
    have hput : SameTx s s' :=
      ⟨rfl, rfl, rfl, rfl, rfl, rfl, rfl, rfl, rfl, rfl, rfl,
        fun hs => ⟨hs.1, rxBits_update hch hs.2⟩⟩
    split
    · have hset : SameTx s' { s' with lsr := s'.lsr ||| (ch >>> 8).setWidth 8 } :=
        ⟨rfl, rfl, rfl, rfl, rfl, rfl, rfl, rfl, rfl, busy_or s' hch.lsr, rfl, id⟩
      exact (hput.trans hset).trans (uartCheckRlsi_onlyInts _).sameTx
    · exact hput

theorem uartAddChar_sameTx {ch : BitVec 16} (hch : RxBits ch) (h : uartAddChar s ch = .ok t) :
    SameTx s t := by
  obtain ⟨u, hu, h⟩ := Runs.bind_eq_ok_iff.1 h
  obtain ⟨v, hv, h⟩ := Runs.bind_eq_ok_iff.1 h
  cases h
  have hset : SameTx s { s with lsr := s.lsr ||| 1 } :=
    ⟨rfl, rfl, rfl, rfl, rfl, rfl, rfl, rfl, rfl, busy_or s rfl, rfl, id⟩
  have hclear := hset.trans (uartClearInt_onlyInts hu).sameTx
  have hsched := hclear.trans (OnlyInts.schedAdd (f := .intCti) rfl hv).sameTx
  exact (hsched.trans (pushRx_sameTx hch)).trans (uartCheckRdi_onlyInts _).sameTx

theorem uartRecvChar_inv (hs : TxInv s) (h : uartRecvChar cfg s = .ok t) : TxInv t := by
  obtain ⟨u, hu, h⟩ := Runs.bind_eq_ok_iff.1 h
  have hch :
      RxBits (s.rxser &&& ((BitVec.twoPow 16 ((s.lcr &&& 3).toNat + 5) - 1) ||| 0xff00)) := by
    rw [RxBits, BitVec.getLsbD_and, hs.rx.1, Bool.false_and]
  exact (uartAddChar_sameTx hch h).inv ((nextRecv_onlyRecv hu).sameTx.inv hs)

theorem readRxbuf_inv {value : Byte} (hs : TxInv s) (h : readRxbuf s = .ok (value, t)) :
    TxInv t := by
  obtain ⟨u, hu, h⟩ := Runs.bind_eq_ok_iff.1 h
  obtain ⟨v, hv, h⟩ := Runs.bind_eq_ok_iff.1 h
  obtain ⟨w, hw, h⟩ := Runs.bind_eq_ok_iff.1 h
  cases h
  have hpop : SameTx s (popRx s) := by
    unfold popRx
    split
    all_goals exact ⟨rfl, rfl, rfl, rfl, rfl, rfl, rfl, rfl, rfl, rfl, rfl, id⟩
  have hclear := (uartClearInt_onlyInts hu).trans (uartClearInt_onlyInts hv)
  have hvinv : TxInv v := (hpop.trans hclear.sameTx).inv hs
  unfold recheckRx at hw
  split at hw
  · obtain ⟨x, hx, rfl⟩ := Runs.map_eq_ok_iff.1 hw
    have hset : SameTx v { v with
        lsr := v.lsr ||| 1 ||| (v.rxbuf v.rxbufTail >>> 8).setWidth 8 } := by
      refine ⟨rfl, rfl, rfl, rfl, rfl, rfl, rfl, rfl, rfl, ?_, rfl, id⟩
      rw [State.busy, State.busy, BitVec.getLsbD_or, BitVec.getLsbD_or, (hvinv.rx.2 _).lsr,
        Bool.or_false]
      exact congrArg Bool.not (Bool.or_false _)
    have hadd := hset.trans (OnlyInts.schedAdd (f := .intCti) rfl hx).sameTx
    have hcheck := (uartCheckRlsi_onlyInts x).trans (uartCheckRdi_onlyInts _)
    exact (hadd.trans hcheck.sameTx).inv hvinv
  · cases hw
    have hset : SameTx v { v with lsr := v.lsr &&& ~~~1 } :=
      ⟨rfl, rfl, rfl, rfl, rfl, rfl, rfl, rfl, rfl, busy_and v rfl, rfl, id⟩
    exact hset.inv hvinv

theorem uartLoopback_sameTx (s : State) : SameTx s (uartLoopback s) := by
  have hset : SameTx s { s with msr := loopbackMsr s.mcr s.msr } :=
    ⟨rfl, rfl, rfl, rfl, rfl, rfl, rfl, rfl, rfl, rfl, rfl, id⟩
  unfold uartLoopback
  split
  · exact (OnlyInts.refl s).sameTx
  · dsimp only
    split
    · exact hset.trans (raiseInt_onlyInts _ _ _ _).sameTx
    · exact hset

theorem readRegister_inv {addr : ℕ} {value : Byte} (hs : TxInv s)
    (h : readRegister s addr = .ok (value, t)) : TxInv t := by
  unfold readRegister at h
  split at h
  case h_1 => exact readRxbuf_inv hs h
  case h_3 =>
    unfold readIir at h
    dsimp only at h
    split at h
    · obtain ⟨u, hu, heq⟩ := Runs.map_eq_ok_iff.1 h
      cases heq
      exact (uartClearInt_onlyInts hu).sameTx.inv hs
    · cases h
      exact hs
  case h_5 =>
    obtain ⟨u, hu, heq⟩ := Runs.map_eq_ok_iff.1 h
    cases heq
    have hset : SameTx s { s with lsr := s.lsr &&& ~~~0x9e } :=
      ⟨rfl, rfl, rfl, rfl, rfl, rfl, rfl, rfl, rfl, busy_and s rfl, rfl, id⟩
    exact (hset.trans (uartClearInt_onlyInts hu).sameTx).inv hs
  case h_6 =>
    obtain ⟨u, hu, heq⟩ := Runs.map_eq_ok_iff.1 h
    cases heq
    have hset : SameTx s { s with msr := 0 } :=
      ⟨rfl, rfl, rfl, rfl, rfl, rfl, rfl, rfl, rfl, rfl, rfl, id⟩
    have hclear := hset.trans (uartClearInt_onlyInts hu).sameTx
    exact (hclear.trans (uartLoopback_sameTx u)).inv hs
  all_goals
    cases h
    exact hs

theorem uartReadByte_inv {addr : ℕ} {value : Byte} (hs : TxInv s)
    (h : uartReadByte s addr = .ok (value, t)) : TxInv t := by
  unfold uartReadByte at h
  split at h
  · rcases addr with _ | _ | addr
    · cases h
      exact hs
    · cases h
      exact hs
    · exact readRegister_inv hs h
  · exact readRegister_inv hs h

theorem writeRegister_inv {addr : ℕ} {value : Byte} (hs : TxInv s)
    (hbreak : addr = 3 → ¬EndsBreak s value) (h : writeRegister s addr value = .ok t) :
    TxInv t := by
  unfold writeRegister at h
  split at h
  case h_1 => exact writeTxbuf_inv hs h
  case h_2 =>
    cases h
    have hset : SameTx s { s with ier := value &&& 0x0f } :=
      ⟨rfl, rfl, rfl, rfl, rfl, rfl, rfl, rfl, rfl, rfl, rfl, id⟩
    exact (hset.trans (uartNextInt_onlyInts _).sameTx).inv hs
  case h_3 => exact writeFcr_inv hs h
  case h_4 => exact writeLcr_inv hs (hbreak rfl) h
  case h_5 =>
    cases h
    have hset : SameTx s { s with mcr := value &&& 0x1f } :=
      ⟨rfl, rfl, rfl, rfl, rfl, rfl, rfl, rfl, rfl, rfl, rfl, id⟩
    exact (hset.trans (uartLoopback_sameTx _)).inv hs
  case h_6 =>
    cases h
    have hset : SameTx s { s with scr := value } :=
      ⟨rfl, rfl, rfl, rfl, rfl, rfl, rfl, rfl, rfl, rfl, rfl, id⟩
    exact hset.inv hs
  case h_7 =>
    cases h
    exact hs

theorem uartWriteByte_inv {addr : ℕ} {value : Byte} (hs : TxInv s)
    (hbreak : addr = 3 → ¬EndsBreak s value) (h : uartWriteByte s addr value = .ok t) :
    TxInv t := by
  unfold uartWriteByte at h
  split at h
  · rcases addr with _ | _ | addr
    · cases h
      have hset : SameTx s { s with dll := value, charClks := charClks value s.dlh s.lcr } :=
        ⟨rfl, rfl, rfl, rfl, rfl, rfl, rfl, rfl, rfl, rfl, rfl, id⟩
      exact hset.inv hs
    · cases h
      have hset : SameTx s { s with dlh := value } :=
        ⟨rfl, rfl, rfl, rfl, rfl, rfl, rfl, rfl, rfl, rfl, rfl, id⟩
      exact hset.inv hs
    · exact writeRegister_inv hs hbreak h
  · exact writeRegister_inv hs hbreak h

/-! ### Jobs -/

theorem fn_sameTx {input : ChannelRead} (hf : f.isTx = false) (hs : TxInv s)
    (h : f.exec cfg input s = .ok t) : TxInv t := by
  cases f with
  | schedGuard =>
    obtain ⟨q, hq, rfl⟩ := withSched_eq_ok h
    have hset : OnlyInts s { s with sched := q } := ⟨rfl, Sched.jobsOf_schedGuard rfl hq⟩
    exact hset.sameTx.inv hs
  | intCti =>
    cases h
    exact (raiseInt_onlyInts _ _ _ s).sameTx.inv hs
  | recvBreakStart => exact (uartRecvBreakStart_onlyRecv vapiLoop_onlyRecv h).sameTx.inv hs
  | recvBreakStop => exact (uartRecvBreakStop_onlyRecv h).sameTx.inv hs
  | recvBreak =>
    have hch : RxBits 0x9100 := rfl
    exact (uartAddChar_sameTx hch h).inv hs
  | recvChar => exact uartRecvChar_inv hs h
  | checkChar => exact (uartCheckChar_onlyRecv h).sameTx.inv hs
  | vapiCmd => exact (vapiLoop_onlyRecv h).sameTx.inv hs
  | charClock => cases hf
  | sendBreak => cases hf
  | txSend => cases hf
  | other n =>
    cases h
    exact hs

theorem runJob_inv {input : ChannelRead} (hs : TxInv s) (h : runJob cfg input s = .ok t) :
    TxInv t := by
  unfold runJob at h
  split at h
  case h_2 => cases h
  case h_1 tmp q hpop =>
    have hjobs : s.txJobs = if tmp.func.isTx then tmp.func :: q.jobsOf Fn.isTx
        else q.jobsOf Fn.isTx := Sched.jobsOf_popJob hpop
    generalize tmp.func = f at h hjobs
    cases hf : f.isTx with
    | false =>
      rw [hf] at hjobs
      have hset : OnlyInts s { s with sched := q } := ⟨rfl, hjobs.symm⟩
      exact fn_sameTx hf (hset.sameTx.inv hs) h
    | true =>
      rw [hf, hs.jobs] at hjobs
      obtain ⟨hrest, hnext⟩ := nextJobs_eq_cons hjobs
      have hpopped : TxCore { s with sched := q } [] s.inFlight :=
        ⟨hs.len, hs.tail, hs.full, hs.head, hrest, hs.order, hs.rx⟩
      rcases hnext with ⟨hbusy, rfl⟩ | ⟨hidle, hfull, rfl⟩
      · -- The time of the byte in the shift register is over.
        rw [State.inFlight, if_pos hbusy] at hpopped
        unfold State.charJob at h
        split at h
        · refine nextChar_inv h (hpopped.shift (x := .brk s.txser) rfl ?_)
          exact ⟨rfl, rfl, rfl, rfl, rfl, rfl, rfl, rfl, rfl, rfl, rfl, id⟩
        · exact nextChar_inv h (sendChar_core hpopped)
      · rw [State.inFlight, hidle] at hpopped
        exact uartTxSend_inv h hpopped hfull

/-- The event clears the break bit while there is a byte in the shift register. -/
def Event.EndsBreak (s : State) : Event → Prop
  | .write addr value => addr = 3 ∧ Uart.EndsBreak s value
  | _ => False

theorem event_inv {e : Event} (hs : TxInv s) (hbreak : ¬e.EndsBreak s)
    (h : e.exec cfg s = .ok t) : TxInv t := by
  cases e with
  | write addr value => exact uartWriteByte_inv hs (fun h3 hends => hbreak ⟨h3, hends⟩) h
  | read addr =>
    obtain ⟨⟨value, u⟩, hu, rfl⟩ := Runs.map_eq_ok_iff.1 h
    exact uartReadByte_inv hs hu
  | vapiRead data => exact (uartVapiRead_onlyRecv h).sameTx.inv hs
  | otherAdd n time => exact (OnlyInts.schedAdd (f := .other n) rfl h).sameTx.inv hs
  | otherRemove n => exact (OnlyInts.schedFindRemove (f := .other n) rfl h).sameTx.inv hs
  | charge cycles =>
    obtain ⟨q, hq, rfl⟩ := withSched_eq_ok h
    have hset : OnlyInts s { s with sched := q } := ⟨rfl, Sched.jobsOf_charge hq⟩
    exact hset.sameTx.inv hs
  | schedule input =>
    replace h : (if Sched.headDue s.sched then runJob cfg input s else .ok s) = .ok t := h
    split at h
    · exact runJob_inv hs h
    · cases h
      exact hs

theorem uartReset_inv {q : Sched.State Fn Unit} (hq : q.jobsOf Fn.isTx = [])
    (h : uartReset cfg (powerOn q) = .ok t) : TxInv t := by
  refine (uartSchedRecvCheck_onlyRecv h).sameTx.inv ⟨?_, ?_, Nat.zero_le _, ?_, ?_, ?_, ?_⟩
  · change (if cfg.uart16550 = true then 16 else 1) = 1 ∨
      (if cfg.uart16550 = true then 16 else 1) = 16
    split
    · exact .inr rfl
    · exact .inl rfl
  · change 0 < if cfg.uart16550 = true then 16 else 1
    split <;> decide
  · exact (Nat.zero_mod _).symm
  · change q.jobsOf Fn.isTx = if (!(0x60 : Byte).getLsbD lsrTXSERE) = true then _ else []
    rw [hq, if_neg (by decide)]
  · change [] = [] ++ (if (!(0x60 : Byte).getLsbD lsrTXSERE) = true then [(0 : Byte)] else []) ++ []
    rw [if_neg (by decide)]
    rfl
  · have hzero : RxBits 0 := rfl
    exact ⟨hzero, fun _ => hzero⟩

/-! ### Runs -/

/-- The bytes for the transmitter are kept in order. -/
structure Transmits (s : State) : Prop where
  /-- The FIFO holds no more than it has room for. -/
  full_le : s.txbufFull ≤ s.fifoLen
  /-- `uart_tx_send` is queued only when there is a byte to send. -/
  txSend : .txSend ∈ s.sched.funcs → 0 < s.txbufFull
  /-- At most one job of the transmitter is queued. -/
  jobs : s.txJobs.length ≤ 1
  /-- A byte in the shift register waits for its end, or for a break. -/
  busy : s.busy = true → s.txJobs = [if s.lcr.getLsbD lcrSBC then .sendBreak else .charClock]
  /-- The bytes put into the FIFO have left the shift register, or are in it, or in the FIFO. -/
  order : s.queued = s.shifted.map Shifted.byte ++ s.inFlight ++ s.fifo
  /-- Without breaks all that have left it were handed to `send_char`. -/
  sent : (∀ b, .brk b ∉ s.shifted) → s.queued = s.sent ++ s.inFlight ++ s.fifo

theorem filterMap_sent {l : List Shifted} (h : ∀ b, .brk b ∉ l) :
    l.filterMap Shifted.sent = l.map Shifted.byte := by
  induction l with
  | nil => rfl
  | cons x l ih =>
    have hrest := ih fun b hb => h b (.tail _ hb)
    cases x with
    | char b =>
      rw [List.filterMap_cons, hrest]
      rfl
    | brk b => exact absurd (.head _) (h b)

theorem TxInv.transmits (hs : TxInv s) : Transmits s where
  full_le := hs.full
  txSend hmem := by
    have hjob : Fn.txSend ∈ s.txJobs := Sched.mem_jobsOf.2 ⟨hmem, rfl⟩
    rw [hs.jobs] at hjob
    unfold State.nextJobs State.charJob at hjob
    split at hjob
    · split at hjob <;> cases List.mem_singleton.1 hjob
    · split at hjob
      · cases hjob
      · omega
  jobs := by
    rw [hs.jobs]
    unfold State.nextJobs
    split
    · exact le_rfl
    · split
      · exact Nat.zero_le _
      · exact le_rfl
  busy hbusy := by
    rw [hs.jobs, State.nextJobs, if_pos hbusy, State.charJob]
  order := hs.order
  sent hno := by
    rw [State.sent, filterMap_sent hno]
    exact hs.order

/-- **The bytes are kept in order**: in every run of accesses, characters and jobs in which the
break bit is not cleared while there is a byte in the shift register, the bytes put into the FIFO
(each as last written) leave it in order through the shift register, from which each is handed to
`send_char` or, if the break bit is set when its time is over, replaced by a break. -/
theorem uart_transmit {q : Sched.State Fn Unit} {s₀ : State} {es : List Event}
    (hq : q.jobsOf Fn.isTx = []) (h₀ : uartReset cfg (powerOn q) = .ok s₀)
    (hbreak : Runs.Along (Event.exec cfg) (fun s e => ¬e.EndsBreak s) s₀ es)
    (h : es.foldlM (Event.exec cfg) s₀ = .ok t) : Transmits t :=
  (Runs.foldlM_invariant (fun _ _ _ hs he h => event_inv hs he h) (uartReset_inv hq h₀) hbreak
    h).transmits

end Inv

/-- Three bytes are put into the FIFO, and three jobs run. -/
def threeBytes : List Event :=
  [.write 2 1, .write 0 0x41, .write 0 0x42, .write 0 0x43] ++ List.replicate 3 (.schedule .none)

/-- Two bytes have left in order, and the third is in the shift register. -/
theorem uart_transmit_two :
    ∃ s₀ t, uartReset plainConfig (powerOn guardOnly) = .ok s₀ ∧
      threeBytes.foldlM (Event.exec plainConfig) s₀ = .ok t ∧ t.sent = [0x41, 0x42] ∧
      t.inFlight = [0x43] ∧ Transmits t := by
  have hrun : ((uartReset plainConfig (powerOn guardOnly)).bind fun s₀ =>
      (threeBytes.foldlM (Event.exec plainConfig) s₀).map fun t => (t.sent, t.inFlight)) =
        .ok ([0x41, 0x42], [0x43]) := by decide
  obtain ⟨s₀, hreset, hrun⟩ := Runs.bind_eq_ok_iff.1 hrun
  obtain ⟨t, ht, hline⟩ := Runs.map_eq_ok_iff.1 hrun
  obtain ⟨hsent, hflight⟩ := Prod.mk.inj hline
  -- No event writes the line control register.
  have hkeep : Runs.Along (Event.exec plainConfig) (fun s e => ¬e.EndsBreak s) s₀ threeBytes := by
    refine Runs.along_of_mem (fun e he s => ?_) s₀
    have hall : ∀ e ∈ threeBytes, ∀ value, e ≠ .write 3 value := by
      simp [threeBytes]
    cases e with
    | write addr value => exact fun hends => hall _ he value (hends.1 ▸ rfl)
    | _ => exact id
  exact ⟨s₀, t, hreset, ht, hsent, hflight, uart_transmit rfl hreset hkeep ht⟩

/-- A byte is written while the holding register is full, and sent in place of the one there.  A
byte in the shift register is not sent when the break bit is set.  When it is cleared too early, two
jobs are queued. -/
theorem uart_transmit_exceptions :
    (∃ s₀ s₁ t, uartReset plainConfig (powerOn guardOnly) = .ok s₀ ∧
      (Event.write 0 0x41).exec plainConfig s₀ = .ok s₁ ∧ s₁.txbufFull = s₁.fifoLen ∧
      [Event.write 0 0x42, .schedule .none, .schedule .none].foldlM (Event.exec plainConfig) s₁ =
        .ok t ∧ t.sent = [0x42] ∧ t.busy = false ∧ t.txbufFull = 0) ∧
    (∃ s₀ t, uartReset plainConfig (powerOn guardOnly) = .ok s₀ ∧
      [Event.write 0 0x41, .schedule .none, .write 3 0x43, .schedule .none].foldlM
        (Event.exec plainConfig) s₀ = .ok t ∧ t.sent = [] ∧ t.busy = false ∧ t.txbufFull = 0) ∧
    ∃ s₀ t, uartReset plainConfig (powerOn guardOnly) = .ok s₀ ∧
      [Event.write 0 0x41, .schedule .none, .write 3 0x43, .write 3 0x03].foldlM
        (Event.exec plainConfig) s₀ = .ok t ∧ t.txJobs.length = 2 ∧ t.txbufFull = 0 := by
  have hover : ((uartReset plainConfig (powerOn guardOnly)).bind fun s₀ =>
      ((Event.write 0 0x41).exec plainConfig s₀).bind fun s₁ =>
        ([Event.write 0 0x42, .schedule .none, .schedule .none].foldlM (Event.exec plainConfig)
          s₁).map fun t => (s₁.txbufFull, s₁.fifoLen, t.sent, t.busy, t.txbufFull)) =
      .ok (1, 1, [0x42], false, 0) := by decide
  have hbreak : ((uartReset plainConfig (powerOn guardOnly)).bind fun s₀ =>
      ([Event.write 0 0x41, .schedule .none, .write 3 0x43, .schedule .none].foldlM
        (Event.exec plainConfig) s₀).map fun t => (t.sent, t.busy, t.txbufFull)) =
      .ok ([], false, 0) := by decide
  have hearly : ((uartReset plainConfig (powerOn guardOnly)).bind fun s₀ =>
      ([Event.write 0 0x41, .schedule .none, .write 3 0x43, .write 3 0x03].foldlM
        (Event.exec plainConfig) s₀).map fun t => (t.txJobs.length, t.txbufFull)) = .ok (2, 0) := by
    decide
  refine ⟨?_, ?_, ?_⟩
  · obtain ⟨s₀, hreset, hover⟩ := Runs.bind_eq_ok_iff.1 hover
    obtain ⟨s₁, hs₁, hover⟩ := Runs.bind_eq_ok_iff.1 hover
    obtain ⟨t, ht, heq⟩ := Runs.map_eq_ok_iff.1 hover
    simp only [Prod.mk.injEq] at heq
    obtain ⟨hfull, hlen, hsent⟩ := heq
    exact ⟨s₀, s₁, t, hreset, hs₁, hfull.trans hlen.symm, ht, hsent⟩
  · obtain ⟨s₀, hreset, hbreak⟩ := Runs.bind_eq_ok_iff.1 hbreak
    obtain ⟨t, ht, heq⟩ := Runs.map_eq_ok_iff.1 hbreak
    exact ⟨s₀, t, hreset, ht, by simpa only [Prod.mk.injEq] using heq⟩
  · obtain ⟨s₀, hreset, hearly⟩ := Runs.bind_eq_ok_iff.1 hearly
    obtain ⟨t, ht, heq⟩ := Runs.map_eq_ok_iff.1 hearly
    exact ⟨s₀, t, hreset, ht, by simpa only [Prod.mk.injEq] using heq⟩

end Uart
end Or1ksim
