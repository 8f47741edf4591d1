import Mathlib.Logic.Function.Basic
import Or1ksim.Lib.Bits
import Or1ksim.Lib.Runs
import Or1ksim.Sched.Device

/-!
# The DMA controller

`peripheral/dma.c`: channels that copy words, each driven by a job of its own.  The words they copy
and their descriptors lie outside the controller.

* `Channel`, `State` — the controller, its jobs, and what it has done to the outside world;
* `dmaLoadDescriptor`, `dmaInitTransfer`, `terminateTransfer`, `dmaChannelClock` — a transfer;
* `dmaWriteChCsr`, `dmaRead32`, `dmaWrite32` — the registers;
* `Event.exec` — one thing that happens to the controller.
-/

namespace Or1ksim
namespace Dma

open Bits

/-- A register, an `unsigned long` of which only the lower 32 bits can be read or matter. -/
abbrev Word := BitVec 32

/-! ### Constants -/

/-- `DMA_NUM_CHANNELS`. -/
def dmaNumChannels : ℕ := 31

instance : NeZero dmaNumChannels := ⟨by decide⟩

/-- The number of a channel. -/
abbrev ChannelNo := Fin dmaNumChannels

/-- `DMA_CH_BASE`. -/
def dmaChBase : ℕ := 0x20

/-- `DMA_CH_SIZE`. -/
def dmaChSize : ℕ := 0x20

/-- `DMA_INT_SRC_A`. -/
def dmaIntSrcA : ℕ := 0x0c

/-- `DMA_CH_CSR_CH_EN_OFFSET`: the channel is enabled. -/
def csrCHEN : ℕ := 0

/-- `DMA_CH_CSR_DST_SEL_OFFSET`. -/
def csrDSTSEL : ℕ := 1

/-- `DMA_CH_CSR_SRC_SEL_OFFSET`. -/
def csrSRCSEL : ℕ := 2

/-- `DMA_CH_CSR_INC_DST_OFFSET`. -/
def csrINCDST : ℕ := 3

/-- `DMA_CH_CSR_INC_SRC_OFFSET`. -/
def csrINCSRC : ℕ := 4

/-- `DMA_CH_CSR_MODE_OFFSET`: hardware handshake. -/
def csrMODE : ℕ := 5

/-- `DMA_CH_CSR_ARS_OFFSET`: restart automatically. -/
def csrARS : ℕ := 6

/-- `DMA_CH_CSR_USE_ED_OFFSET`: use the descriptors of a linked list. -/
def csrUSEED : ℕ := 7

/-- `DMA_CH_CSR_SZ_WB_OFFSET`: write the size back. -/
def csrSZWB : ℕ := 8

/-- `DMA_CH_CSR_STOP_OFFSET`. -/
def csrSTOP : ℕ := 9

/-- `DMA_CH_CSR_BUSY_OFFSET`: a transfer has begun. -/
def csrBUSY : ℕ := 10

/-- `DMA_CH_CSR_DONE_OFFSET`. -/
def csrDONE : ℕ := 11

/-- `DMA_CH_CSR_ERR_OFFSET`. -/
def csrERR : ℕ := 12

/-- `DMA_CH_CSR_INE_ERR_OFFSET`. -/
def csrINEERR : ℕ := 17

/-- `DMA_CH_CSR_INE_DONE_OFFSET`. -/
def csrINEDONE : ℕ := 18

/-- `DMA_CH_CSR_INT_ERR_OFFSET`. -/
def csrINTERR : ℕ := 20

/-- `DMA_CH_CSR_INT_DONE_OFFSET`. -/
def csrINTDONE : ℕ := 21

/-- `DMA_CH_CSR_INT_CHUNK_DONE_OFFSET`. -/
def csrINTCHUNKDONE : ℕ := 22

/-- `DMA_CH_CSR_WRITE_MASK`. -/
def csrWriteMask : Word := 0x000fe3ff

/-! ### The controller -/

/-- A channel (`struct dma_channel`). -/
structure Channel where
  loadNextDescriptorWhenDone : Bool
  currentDescriptor : Word
  source : Word
  destination : Word
  sourceMask : Word
  destinationMask : Word
  chunkSize : ℕ
  totalSize : ℕ
  wordsTransferred : ℕ
  csr : Word
  sz : Word
  a0 : Word
  am0 : Word
  a1 : Word
  am1 : Word
  desc : Word
  swptr : Word
  dmaReqI : Bool
  dmaAckO : Bool
  dmaNdI : Bool

/-- A flag of the control and status register. -/
def Channel.flag (ch : Channel) (k : ℕ) : Bool := ch.csr.getLsbD k

/-- `CHANNEL_ND_I`. -/
def Channel.ndI (ch : Channel) : Bool := ch.flag csrMODE && ch.flag csrUSEED && ch.dmaNdI

/-- Why there is no next state. -/
inductive Stop where
  /-- A division by zero. -/
  | undefined
  /-- The scheduler has no defined behaviour. -/
  | sched
deriving DecidableEq

/-- What there is to say about interrupts. -/
inductive Notice where
  /-- A channel sets `INT_DONE` or `INT_ERR` and raises an interrupt. -/
  | raised (c : ChannelNo)
  /-- A read of `DMA_INT_SRC_A` returns. -/
  | answered (value : Word)
deriving DecidableEq

/-- The controller (`struct dma_controller`) and the scheduler.  The last three fields only observe
it. -/
structure State where
  ch : ChannelNo → Channel
  csr : Word
  intMskA : Word
  intMskB : Word
  intSrcA : Word
  intSrcB : Word
  sched : Sched.Queue ChannelNo
  /-- The interrupt line has been reported since it was last cleared. -/
  reported : Bool
  /-- The words written to memory with their addresses, the last one first. -/
  stored : List (Word × Word)
  /-- The last one first. -/
  notices : List Notice

/-- `channel->channel_mask`. -/
def channelMask (c : ChannelNo) : Word := BitVec.twoPow 32 c

/-- A channel is set. -/
def State.setCh (s : State) (c : ChannelNo) (ch : Channel) : State :=
  { s with ch := Function.update s.ch c ch }

/-- The controller after a call of the scheduler. -/
def State.withSched (s : State) : Option (Sched.Queue ChannelNo) → Except Stop State
  | some q => .ok { s with sched := q }
  | none => .error .sched

/-- `SCHED_ADD` of the clock of a channel. -/
def State.schedAdd (s : State) (c : ChannelNo) (time : ℤ) : Except Stop State :=
  s.withSched (Sched.schedAdd s.sched (.job c) () time)

/-- `SCHED_FIND_REMOVE` of the clock of a channel. -/
def State.schedFindRemove (s : State) (c : ChannelNo) : Except Stop State :=
  s.withSched (Sched.schedFindRemove s.sched (.job c) ())

/-! ### Transfers -/

/-- The memory as a clock of a channel finds it, and after the word that it writes. -/
structure World where
  before : Word → Word
  after : Word → Word

/-- `masked_increase`. -/
def maskedIncrease (value mask : Word) : Word := (value &&& ~~~mask) ||| ((value + 4) &&& mask)

/-- `dma_load_descriptor`. -/
def dmaLoadDescriptor (mem : Word → Word) (ch : Channel) : Channel :=
  let descCsr := mem ch.desc
  let csr := assignBit ch.csr csrINCSRC (descCsr.getLsbD 19)
  let csr := assignBit csr csrINCDST (descCsr.getLsbD 18)
  let csr := assignBit csr csrSRCSEL (descCsr.getLsbD 17)
  let csr := assignBit csr csrDSTSEL (descCsr.getLsbD 16)
  { ch with
    loadNextDescriptorWhenDone := !descCsr.getLsbD 20
    csr := csr
    sz := (ch.sz &&& ~~~0xfff) ||| (descCsr &&& 0xfff)
    a0 := mem (ch.desc + 4)
    a1 := mem (ch.desc + 8)
    currentDescriptor := ch.desc
    desc := mem (ch.desc + 12) }

/-- `dma_init_transfer`. -/
def dmaInitTransfer (ch : Channel) : Channel :=
  let totalSize := (ch.sz.extractLsb' 0 12).toNat
  let chunkSize := (ch.sz.extractLsb' 16 9).toNat
  { ch with
    source := ch.a0
    destination := ch.a1
    sourceMask := if ch.flag csrINCSRC then ch.am0 else 0
    destinationMask := if ch.flag csrINCDST then ch.am1 else 0
    totalSize := totalSize
    chunkSize := if chunkSize = 0 ∨ totalSize < chunkSize then totalSize else chunkSize
    wordsTransferred := 0 }

/-- A flag is set and the channel interrupts, if both the channel and the controller have the
interrupt enabled. -/
def raiseInt (ine int : ℕ) (c : ChannelNo) (s : State) : State :=
  if (s.ch c).flag ine && decide (s.intMskA &&& channelMask c ≠ 0) then
    { s.setCh c { s.ch c with csr := setBit (s.ch c).csr int } with
      intSrcA := channelMask c, reported := true, notices := .raised c :: s.notices }
  else s

/-- The size is written back. -/
def writeBack (ch : Channel) : Channel :=
  if ch.flag csrSZWB && ch.flag csrUSEED then
    { ch with
      sz := (ch.sz &&& ~~~0xfff) |||
        (BitVec.ofNat 32 ch.totalSize - BitVec.ofNat 32 ch.wordsTransferred) }
  else ch

/-- The end of a transfer is marked. -/
def markDone (ch : Channel) : Channel :=
  { ch with csr := clearBit (clearBit (setBit (clearBit ch.csr csrCHEN) csrDONE) csrERR) csrBUSY }

/-- `dma_channel_terminate_transfer`. -/
def terminateTransfer (mem : Word → Word) (generateInterrupt : Bool) (c : ChannelNo) (s : State) :
    Except Stop State :=
  if (s.ch c).loadNextDescriptorWhenDone then
    (s.setCh c (dmaInitTransfer (dmaLoadDescriptor mem (s.ch c)))).schedAdd c 1
  else if (s.ch c).flag csrARS then .ok (s.setCh c (dmaInitTransfer (s.ch c)))
  else
    let s := s.setCh c (markDone (writeBack (s.ch c)))
    .ok (if generateInterrupt then raiseInt csrINEDONE csrINTDONE c s else s)

/-- The channel after `STOP`. -/
def stopCh (ch : Channel) : Channel :=
  { ch with csr := setBit (clearBit (clearBit ch.csr csrCHEN) csrBUSY) csrERR }

/-- The channel in the first cycle of a transfer. -/
def startTransfer (mem : Word → Word) (ch : Channel) : Channel :=
  let ch := { ch with csr := setBit (clearBit (clearBit ch.csr csrDONE) csrERR) csrBUSY }
  dmaInitTransfer (if ch.flag csrUSEED then dmaLoadDescriptor mem ch
    else { ch with loadNextDescriptorWhenDone := false })

/-- The channel when it is about to transfer a word: a transfer that has not begun does so. -/
def begun (mem : Word → Word) (ch : Channel) : Channel :=
  if ch.flag csrBUSY then ch else startTransfer mem ch

/-- The channel after a word. -/
def advance (ch : Channel) : Channel :=
  { ch with
    source := maskedIncrease ch.source ch.sourceMask
    destination := maskedIncrease ch.destination ch.destinationMask
    wordsTransferred := ch.wordsTransferred + 1
    dmaAckO := (ch.wordsTransferred + 1) % ch.chunkSize = 0 }

/-- The part of `dma_channel_clock` that transfers one word. -/
def transferWord (w : World) (c : ChannelNo) (s : State) : Except Stop State :=
  let ch := s.ch c
  if ch.chunkSize = 0 then .error .undefined
  else
    let s := { s.setCh c (advance ch) with
      stored := (ch.destination, w.before ch.source) :: s.stored }
    if ch.ndI then terminateTransfer w.after false c s
    else if ch.totalSize ≤ ch.wordsTransferred + 1 then terminateTransfer w.after true c s
    else s.schedAdd c 1

/-- `dma_channel_clock`. -/
def dmaChannelClock (w : World) (c : ChannelNo) (s : State) : Except Stop State :=
  if (s.ch c).flag csrSTOP then .ok (raiseInt csrINEERR csrINTERR c (s.setCh c (stopCh (s.ch c))))
  else if (s.ch c).flag csrMODE && !(s.ch c).dmaReqI then s.schedAdd c 1
  else
    let first := !(s.ch c).flag csrBUSY
    let s := s.setCh c (begun w.before (s.ch c))
    -- a descriptor may be skipped
    if first && (s.ch c).ndI then terminateTransfer w.before false c s
    else transferWord w c s

/-! ### Registers -/

/-- The channel after its control and status register is written. -/
def csrWritten (value : Word) (ch : Channel) : Channel :=
  { ch with csr := (ch.csr &&& ~~~csrWriteMask) ||| (value &&& csrWriteMask) }

/-- The job of a channel is queued when it is enabled, and withdrawn when it is not. -/
def switchClock (value : Word) (c : ChannelNo) (s : State) : Except Stop State :=
  if !(s.ch c).flag csrCHEN && value.getLsbD csrCHEN then s.schedAdd c 1
  else if !value.getLsbD csrCHEN then s.schedFindRemove c
  else .ok s

/-- `dma_write_ch_csr`. -/
def dmaWriteChCsr (value : Word) (c : ChannelNo) (s : State) : Except Stop State := do
  let s ← switchClock value c s
  return s.setCh c (csrWritten value (s.ch c))

/-- `dma_read_ch_csr`, which clears the flags that it has told. -/
def dmaReadChCsr (ch : Channel) : Word × Channel :=
  let told := clearBit (clearBit (clearBit (clearBit ch.csr csrINTCHUNKDONE) csrINTDONE)
    csrINTERR) csrERR
  (ch.csr, { ch with csr := told })

/-- The channel that a register belongs to. -/
def channelAt (addr : ℕ) : Option ChannelNo :=
  if h : (addr - dmaChBase) / dmaChSize < dmaNumChannels then
    some ⟨(addr - dmaChBase) / dmaChSize, h⟩
  else none

/-- `dma_read32`: what is read, and the controller afterwards. -/
def dmaRead32 (addr : ℕ) (s : State) : Word × State :=
  if addr < dmaChBase then
    match addr with
    | 0x00 => (s.csr, s)
    | 0x04 => (s.intMskA, s)
    | 0x08 => (s.intMskB, s)
    | 0x0c =>
      (s.intSrcA, { s with
        reported := if s.intSrcA ≠ 0 then false else s.reported
        intSrcA := 0
        notices := .answered s.intSrcA :: s.notices })
    | 0x10 => (s.intSrcB, s)
    | _ => (0, s)
  else
    match channelAt addr with
    | none => (0, s)
    | some c =>
      match (addr - dmaChBase) % dmaChSize with
      | 0x00 => ((dmaReadChCsr (s.ch c)).1, s.setCh c (dmaReadChCsr (s.ch c)).2)
      | 0x04 => ((s.ch c).sz, s)
      | 0x08 => ((s.ch c).a0, s)
      | 0x0c => ((s.ch c).am0, s)
      | 0x10 => ((s.ch c).a1, s)
      | 0x14 => ((s.ch c).am1, s)
      | 0x18 => ((s.ch c).desc, s)
      | 0x1c => ((s.ch c).swptr, s)
      | _ => (0, s)

/-- A register of a channel other than its control and status register is set. -/
def setChReg (ch : Channel) (value : Word) : ℕ → Channel
  | 0x04 => { ch with sz := value }
  | 0x08 => { ch with a0 := value }
  | 0x0c => { ch with am0 := value }
  | 0x10 => { ch with a1 := value }
  | 0x14 => { ch with am1 := value }
  | 0x18 => { ch with desc := value }
  | 0x1c => { ch with swptr := value }
  | _ => ch

/-- `dma_write32`. -/
def dmaWrite32 (addr : ℕ) (value : Word) (s : State) : Except Stop State :=
  if addr < dmaChBase then
    match addr with
    | 0x04 => .ok { s with intMskA := value }
    | 0x08 => .ok { s with intMskB := value }
    | 0x0c => .ok { s with intSrcA := value }
    | 0x10 => .ok { s with intSrcB := value }
    | _ => .ok s
  else
    match channelAt addr with
    | none => .ok s
    | some c =>
      if (addr - dmaChBase) % dmaChSize = 0 then dmaWriteChCsr value c s
      else .ok (s.setCh c (setChReg (s.ch c) value ((addr - dmaChBase) % dmaChSize)))

/-! ### Events -/

/-- What happens to the controller. -/
inductive Event where
  /-- `dma_write32`. -/
  | write (addr : ℕ) (value : Word)
  /-- `dma_read32`. -/
  | read (addr : ℕ)
  /-- `set_dma_req_i` or `clear_dma_req_i`. -/
  | reqI (c : ChannelNo) (value : Bool)
  /-- `set_dma_nd_i` or `clear_dma_nd_i`. -/
  | ndI (c : ChannelNo) (value : Bool)
  /-- Something else happens to the queue. -/
  | outside (e : Sched.Outside)
  /-- A round of `do_scheduler`, if a job is due. -/
  | schedule (w : World)

/-- A round of `do_scheduler`. -/
def runJob (w : World) (s : State) : Except Stop State :=
  match Sched.dispatch s.sched with
  | some (some c, q) => dmaChannelClock w c { s with sched := q }
  | some (none, q) => .ok { s with sched := q }
  | none => .error .sched

/-- One event. -/
def Event.exec (s : State) : Event → Except Stop State
  | .write addr value => dmaWrite32 addr value s
  | .read addr => .ok (dmaRead32 addr s).2
  | .reqI c value => .ok (s.setCh c { s.ch c with dmaReqI := value })
  | .ndI c value => .ok (s.setCh c { s.ch c with dmaNdI := value })
  | .outside e => s.withSched (e.exec s.sched)
  | .schedule w => runJob w s

/-- A channel after `dma_reset`. -/
def channelReset : Channel where
  loadNextDescriptorWhenDone := false
  currentDescriptor := 0
  source := 0
  destination := 0
  sourceMask := 0
  destinationMask := 0
  chunkSize := 0
  totalSize := 0
  wordsTransferred := 0
  csr := 0
  sz := 0
  a0 := 0
  am0 := 0xfffffffc
  a1 := 0
  am1 := 0xfffffffc
  desc := 0
  swptr := 0
  dmaReqI := false
  dmaAckO := false
  dmaNdI := false

/-- The controller after `dma_reset`, with a queue that has jobs of other devices only. -/
def dmaReset (q : Sched.Queue ChannelNo) : State where
  ch := fun _ => channelReset
  csr := 0
  intMskA := 0
  intMskB := 0
  intSrcA := 0
  intSrcB := 0
  sched := q
  reported := false
  stored := []
  notices := []

end Dma
end Or1ksim
