import Mathlib.Logic.Function.Basic
import Or1ksim.Lib.Bits
import Or1ksim.Lib.Runs
import Or1ksim.Sched.Device

/-!
# The Ethernet controller

`peripheral/eth.c`: a MAC that moves packets between memory and the outside world through buffer
descriptors, the transmit descriptors first and the receive descriptors behind them.

* `State` — the device, its jobs, and what it has done to the outside world;
* `ethFlushBd`, `ethControllerTxClock` — the transmitter;
* `ethFillBd`, `ethIgnoreTapPackets`, `ethControllerRxClock` — the receiver;
* `ethReset`, `ethMiimTrans`, `ethWrite32` — the registers;
* `Event.exec` — one thing that happens to the device.
-/

namespace Or1ksim
namespace Eth

open Bits

/-- A register, an `unsigned long` of which only the lower 32 bits can be read or matter. -/
abbrev Word := BitVec 32

/-- A byte. -/
abbrev Byte := BitVec 8

/-! ### Constants -/

/-- `ETH_BD_COUNT`: the words of descriptors, two for each. -/
def ethBdCount : ℕ := 0x100

/-- `ETH_BD_BASE`. -/
def ethBdBase : ℕ := 0x400

/-- `ETH_BD_SPACE`. -/
def ethBdSpace : ℕ := 4 * ethBdCount

/-- `ETH_MODER_RXEN_OFFSET`. -/
def moderRXEN : ℕ := 0

/-- `ETH_MODER_TXEN_OFFSET`. -/
def moderTXEN : ℕ := 1

/-- `ETH_MODER_PRO_OFFSET`: promiscuous. -/
def moderPRO : ℕ := 5

/-- `ETH_MODER_RST_OFFSET`. -/
def moderRST : ℕ := 11

/-- `ETH_INT_SOURCE_TXB_OFFSET`, also `ETH_INT_MASK_TXB_M_OFFSET`: a packet was sent. -/
def intTXB : ℕ := 0

/-- `ETH_INT_SOURCE_TXE_OFFSET`, also `ETH_INT_MASK_TXE_M_OFFSET`: a packet was not sent. -/
def intTXE : ℕ := 1

/-- `ETH_INT_SOURCE_RXB_OFFSET`, also `ETH_INT_MASK_RXB_M_OFFSET`: a packet was received. -/
def intRXB : ℕ := 2

/-- `ETH_INT_SOURCE_RXE_OFFSET`, also `ETH_INT_MASK_RXE_M_OFFSET`: a packet was not received. -/
def intRXE : ℕ := 3

/-- `ETH_INT_SOURCE_BUSY_OFFSET`, also `ETH_INT_MASK_BUSY_M_OFFSET`: a packet was thrown away. -/
def intBUSY : ℕ := 4

/-- `ETH_TX_BD_READY_OFFSET`, also `ETH_RX_BD_READY_OFFSET`. -/
def bdREADY : ℕ := 15

/-- `ETH_TX_BD_IRQ_OFFSET`, also `ETH_RX_BD_IRQ_OFFSET`. -/
def bdIRQ : ℕ := 14

/-- `ETH_TX_BD_WRAP_OFFSET`, also `ETH_RX_BD_WRAP_OFFSET`. -/
def bdWRAP : ℕ := 13

/-- The status flags of a transmit descriptor: `DEFER`, `COLLISION`, `RETRANSMIT`, `UNDERRUN` and
`NO_CARRIER`. -/
def txStatus : List ℕ := [1, 2, 3, 8, 0]

/-- The status flags of a receive descriptor: `MISS`, `INVALID`, `DRIBBLE`, `UVERRUN`, `COLLISION`,
`TOOBIG` and `TOOSHORT`. -/
def rxStatus : List ℕ := [7, 5, 4, 6, 0, 3, 2]

/-- `ETH_TX_BD_COLLISION_OFFSET`. -/
def txCOLLISION : ℕ := 2

/-- `RTX_RESCHED_PERIOD`. -/
def rtxReschedPeriod : ℤ := 2000

/-- `ETHER_ADDR_LEN`. -/
def etherAddrLen : ℕ := 6

/-- `ETHER_HDR_LEN`. -/
def etherHdrLen : ℕ := 14

/-! ### The device -/

/-- The jobs of the device. -/
inductive Job where
  | txClock
  | rxClock
deriving DecidableEq

/-- Why there is no next state. -/
inductive Stop where
  /-- A descriptor index leaves `bd_ram`. -/
  | outOfRange
  /-- The scheduler has no defined behaviour. -/
  | sched
deriving DecidableEq

/-- `eth->rtx_type`. -/
inductive RtxType where
  | file
  | tap
deriving DecidableEq

/-- How the device is configured. -/
structure Config where
  /-- It is enabled and has a base address. -/
  mapped : Bool
  rtxType : RtxType
  dummyCrc : Bool
  phyAddr : Word

/-- What leaves the device. -/
inductive Output where
  /-- A packet handed to `eth_write_packet`. -/
  | sent (packet : List Byte)
  /-- A word written to memory. -/
  | stored (addr value : Word)
deriving DecidableEq

/-- `eth->regs`. -/
structure Regs where
  moder : Word
  intSource : Word
  intMask : Word
  ipgt : Word
  ipgr1 : Word
  ipgr2 : Word
  packetlen : Word
  collconf : Word
  /-- Only ever a byte or 0x40. -/
  txBdNum : ℕ
  controlmoder : Word
  miimoder : Word
  miicommand : Word
  miiaddress : Word
  miitxData : Word
  miirxData : Word
  miistatus : Word
  hash0 : Word
  hash1 : Word
  /-- The buffer descriptors. -/
  bdRam : ℕ → Word

/-- The device (`struct eth_device`) and the scheduler.  The last two fields only observe it. -/
structure State where
  macAddress : ℕ → Byte
  intLineStat : Bool
  txBdIndex : ℕ
  rxBdIndex : ℕ
  regs : Regs
  sched : Sched.Queue Job
  /-- The interrupt line has been reported since it was last cleared. -/
  reported : Bool
  out : List Output

/-- The device after a call of the scheduler. -/
def State.withSched (s : State) : Option (Sched.Queue Job) → Except Stop State
  | some q => .ok { s with sched := q }
  | none => .error .sched

/-- `SCHED_ADD`. -/
def State.schedAdd (s : State) (j : Job) (time : ℤ) : Except Stop State :=
  s.withSched (Sched.schedAdd s.sched (.job j) () time)

/-- `SCHED_FIND_REMOVE`. -/
def State.schedFindRemove (s : State) (j : Job) : Except Stop State :=
  s.withSched (Sched.schedFindRemove s.sched (.job j) ())

/-- A word of `bd_ram`. -/
def State.bd (s : State) (i : ℕ) : Except Stop Word :=
  if i < ethBdCount then .ok (s.regs.bdRam i) else .error .outOfRange

/-- A word of `bd_ram` is set. -/
def State.setBd (s : State) (i : ℕ) (w : Word) : State :=
  { s with regs := { s.regs with bdRam := Function.update s.regs.bdRam i w } }

/-- `SET_FLAG` on the interrupt sources. -/
def State.setSource (s : State) (k : ℕ) : State :=
  { s with regs := { s.regs with intSource := setBit s.regs.intSource k } }

/-- `report_interrupt`, unless the line is active. -/
def State.interrupt (s : State) : State :=
  if s.intLineStat then s else { s with reported := true, intLineStat := true }

/-- `clear_interrupt`. -/
def State.clearInterrupt (s : State) : State := { s with reported := false, intLineStat := false }

/-- `CLEAR_FLAG`, of some flags. -/
def clearFlags (w : Word) (ks : List ℕ) : Word := ks.foldl clearBit w

/-! ### The transmitter -/

/-- The bytes of a word, the most significant first. -/
def bytesOf (w : Word) : List Byte :=
  [w.extractLsb' 24 8, w.extractLsb' 16 8, w.extractLsb' 8 8, w.extractLsb' 0 8]

/-- The words that cover this many bytes. -/
def wordsFor (n : ℕ) : List ℕ := List.range ((n + 3) / 4)

/-- The copy of a packet in the local buffer. -/
def packetAt (mem : Word → Word) (addr : Word) (n : ℕ) : List Byte :=
  ((wordsFor n).flatMap fun i => bytesOf (mem (addr + BitVec.ofNat 32 (4 * i)))).take n

/-- `(tx_bd_num - 1) * 2`, as an `unsigned long`. -/
def lastTxBd (txBdNum : ℕ) : ℕ := (txBdNum + (2 ^ 64 - 1)) % 2 ^ 64 * 2 % 2 ^ 64

/-- Advance to the next transmit descriptor. -/
def advanceTx (s : State) (bdInfo : Word) : State :=
  if bdInfo.getLsbD bdWRAP || lastTxBd s.regs.txBdNum ≤ s.txBdIndex then { s with txBdIndex := 0 }
  else { s with txBdIndex := s.txBdIndex + 2 }

/-- The part of `eth_flush_bd` once the descriptor is read. -/
def transmit (mem : Word → Word) (written : Bool) (bdInfo bdAddr : Word) (s : State) : State :=
  let packetLength := (bdInfo.extractLsb' 16 16).toNat
  let bdInfo := clearFlags bdInfo txStatus &&& ~~~0xf0
  let s := { s with out := .sent (packetAt mem bdAddr packetLength) :: s.out }
  let bdInfo := clearFlags bdInfo (if written then [bdREADY] else [bdREADY, txCOLLISION])
  let source := if written then intTXB else intTXE
  let s := s.setSource source
  let okToInt := s.regs.intMask.getLsbD source
  let s := s.setBd s.txBdIndex bdInfo
  let s := if okToInt && bdInfo.getLsbD bdIRQ then s.interrupt else s
  advanceTx s bdInfo

/-- `eth_flush_bd`.  `mem` is the memory, and `written` tells whether the whole packet was written
to the outside world. -/
def ethFlushBd (mem : Word → Word) (written : Bool) (s : State) : Except Stop State := do
  let bdInfo ← s.bd s.txBdIndex
  let bdAddr ← s.bd (s.txBdIndex + 1)
  return transmit mem written bdInfo bdAddr s

/-- What `eth_controller_tx_clock` does before it queues itself. -/
def txWork (mem : Word → Word) (written : Bool) (s : State) : Except Stop State :=
  if !s.intLineStat then do
    let bdInfo ← s.bd s.txBdIndex
    if bdInfo.getLsbD bdREADY then ethFlushBd mem written s else .ok s
  else .ok s

/-- `eth_controller_tx_clock`. -/
def ethControllerTxClock (mem : Word → Word) (written : Bool) (s : State) : Except Stop State := do
  let s ← txWork mem written s
  s.schedAdd .txClock rtxReschedPeriod

/-! ### The receiver -/

/-- What is there when the outside world is read. -/
inductive Arrival where
  /-- No packet. -/
  | nothing
  /-- The file is too short, or the TAP cannot be polled. -/
  | failed
  /-- The TAP cannot be read. -/
  | unreadable
  /-- A packet of this length, and what the buffer holds with it. -/
  | packet (length : ℕ) (buf : ℕ → Byte)

/-- The buffer. -/
def Arrival.buf : Arrival → ℕ → Byte
  | .packet _ buf => buf
  | _ => fun _ => 0

/-- `eth_read_file_packet`. -/
def ethReadFilePacket : Arrival → ℤ
  | .nothing => 0
  | .failed | .unreadable => -1
  | .packet length _ => if length < etherHdrLen then -1 else length

/-- `eth_read_tap_packet`. -/
def ethReadTapPacket (s : State) : Arrival → ℤ × State
  | .nothing => (0, s)
  | .failed => (-1, s)
  | .unreadable =>
    let s := s.setSource intRXE
    (-1, if s.regs.intMask.getLsbD intRXE then s.interrupt else s)
  | .packet length _ => (length, s)

/-- `eth_read_packet`: the length of the packet, not positive if there is none. -/
def ethReadPacket (cfg : Config) (s : State) (a : Arrival) : ℤ × State :=
  match cfg.rtxType with
  | .file => (ethReadFilePacket a, s)
  | .tap => ethReadTapPacket s a

/-- The packet is for this device: it is promiscuous, or the address is its own or
`mac_broadcast`. -/
def State.accepts (s : State) (buf : ℕ → Byte) : Bool :=
  s.regs.moder.getLsbD moderPRO ||
    decide (∀ i < etherAddrLen, s.macAddress i = buf i) ||
      decide (∀ i < etherAddrLen, buf i = 0xff)

/-- The words in which a packet is written to memory. -/
def storesOf (addr : Word) (n : ℕ) (buf : ℕ → Byte) : List Output :=
  (wordsFor n).map fun i => .stored (addr + BitVec.ofNat 32 (4 * i))
    (buf (4 * i) ++ buf (4 * i + 1) ++ buf (4 * i + 2) ++ buf (4 * i + 3))

/-- Advance to the next receive descriptor. -/
def advanceRx (s : State) (bdInfo : Word) : State :=
  if bdInfo.getLsbD bdWRAP || ethBdCount ≤ s.rxBdIndex then
    { s with rxBdIndex := s.regs.txBdNum * 2 }
  else { s with rxBdIndex := s.rxBdIndex + 2 }

/-- The part of `eth_fill_bd` once there is a packet for this device. -/
def receive (cfg : Config) (bdInfo bdAddr : Word) (length : ℕ) (buf : ℕ → Byte) (s : State) :
    State :=
  let s := { s with out := (storesOf bdAddr length buf).reverse ++ s.out }
  let bdInfo := (bdInfo &&& 0xffff) |||
    (BitVec.ofNat 32 (length + if cfg.dummyCrc then 4 else 0) <<< 16)
  let bdInfo := clearBit bdInfo bdREADY
  let s := s.setSource intRXB
  let s := s.setBd s.rxBdIndex bdInfo
  let s := advanceRx s bdInfo
  if s.regs.intMask.getLsbD intRXB && bdInfo.getLsbD bdIRQ then s.interrupt else s

/-- `eth_fill_bd`. -/
def ethFillBd (cfg : Config) (a : Arrival) (s : State) : Except Stop State := do
  let bdInfo ← s.bd s.rxBdIndex
  let bdAddr ← s.bd (s.rxBdIndex + 1)
  let bdInfo := clearFlags bdInfo rxStatus
  let (packetLength, s) := ethReadPacket cfg s a
  if packetLength ≤ 0 then return s
  else if !s.accepts a.buf then return s
  else return receive cfg bdInfo bdAddr packetLength.toNat a.buf s

/-- `eth_ignore_tap_packets`: what the polls find until there is nothing left, or one fails. -/
def ethIgnoreTapPackets (cfg : Config) (result : Bool) (s : State) : List Arrival → Bool × State
  | [] => (result, s)
  | a :: polls =>
    let (nread, s) := ethReadPacket cfg s a
    if nread < 0 then (result, s)
    else ethIgnoreTapPackets cfg (result || decide (0 < nread)) s polls

/-- What `eth_controller_rx_clock` does before it queues itself. -/
def rxWork (cfg : Config) (a : Arrival) (polls : List Arrival) (s : State) : Except Stop State :=
  if !s.intLineStat then do
    let bdInfo ← s.bd s.rxBdIndex
    if bdInfo.getLsbD bdREADY then ethFillBd cfg a s
    else if s.regs.moder.getLsbD moderRXEN && cfg.rtxType = .file then
      let (ignored, s) := ethIgnoreTapPackets cfg false s polls
      if ignored then
        let s := s.setSource intBUSY
        .ok (if s.regs.intMask.getLsbD intBUSY then s.interrupt else s)
      else .ok s
    else .ok s
  else .ok s

/-- `eth_controller_rx_clock`. -/
def ethControllerRxClock (cfg : Config) (a : Arrival) (polls : List Arrival) (s : State) :
    Except Stop State := do
  let s ← rxWork cfg a polls s
  s.schedAdd .rxClock rtxReschedPeriod

end Eth
end Or1ksim
