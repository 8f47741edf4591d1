import Or1ksim.Eth.Basic

/-!
# The registers of the Ethernet controller

* `regAt` — the register at an address;
* `ethReset`, `ethMiimTrans`, `ethWrite32` — what a write does;
* `Event.exec` — one thing that happens to the device.
-/

namespace Or1ksim
namespace Eth

/-- What can be written. -/
inductive Reg where
  | moder
  | intSource
  | intMask
  | ipgt
  | ipgr1
  | ipgr2
  | packetlen
  | collconf
  | txBdNum
  | ctrlmoder
  | miimoder
  | miicommand
  | miiaddress
  | miitxData
  /-- `ETH_MIIRX_DATA` and `ETH_MIISTATUS`, which are read only. -/
  | readOnly
  | macAddr0
  | macAddr1
  | hash0
  | hash1
  /-- A word of the buffer descriptors. -/
  | bd (i : ℕ)
deriving DecidableEq

/-- The registers in front of the descriptors, by their number. -/
def regTable : List Reg :=
  [.moder, .intSource, .intMask, .ipgt, .ipgr1, .ipgr2, .packetlen, .collconf, .txBdNum, .ctrlmoder,
    .miimoder, .miicommand, .miiaddress, .miitxData, .readOnly, .readOnly, .macAddr0, .macAddr1,
    .hash0, .hash1]

/-- The register at an offset from the base address; there is none at an illegal address. -/
def regAt (addr : ℕ) : Option Reg :=
  if ethBdBase ≤ addr ∧ addr < ethBdBase + ethBdSpace then some (.bd ((addr - ethBdBase) / 4))
  else if addr % 4 = 0 then regTable[addr / 4]?
  else none

/-- `eth_reset`: the registers get their defaults.  The queue keeps its jobs. -/
def ethReset (cfg : Config) (s : State) : State :=
  if !cfg.mapped then s
  else
    { s with
      regs :=
        { moder := 0x0000A000, intSource := 0, intMask := 0, ipgt := 0x00000012,
          ipgr1 := 0x0000000C, ipgr2 := 0x00000012, packetlen := 0x003C0600,
          collconf := 0x000F003F, txBdNum := 0x40, controlmoder := 0, miimoder := 0x00000064,
          miicommand := 0, miiaddress := 0, miitxData := 0, miirxData := 0, miistatus := 0,
          hash0 := 0, hash1 := 0, bdRam := fun _ => 0 }
      txBdIndex := 0
      rxBdIndex := 0x40 * 2
      intLineStat := false }

/-- A register of the PHY, by its number. -/
def phyReg (phyAddr : Word) : ℕ → Word
  | 0x00 => 0x0100
  | 0x01 => 0x7824
  | 0x02 => 0x22
  | 0x03 => 0x1613
  | 0x04 => 0x0141
  | 0x05 => 0x03c0
  | 0x19 => phyAddr
  | n => if n ∈ [0x06, 0x09, 0x0a, 0x0f, 0x12, 0x13, 0x14, 0x15, 0x16, 0x17, 0x18, 0x1a, 0x1b, 0x1c]
      then 0 else 0xffff

/-- `eth_miim_trans`: only `RSTAT`, which reads a register of the PHY, does something. -/
def ethMiimTrans (cfg : Config) (r : Regs) : Regs :=
  if r.miicommand = 2 then
    { r with miirxData :=
        if r.miiaddress &&& 0x1f = cfg.phyAddr then
          phyReg cfg.phyAddr (r.miiaddress.extractLsb' 8 5).toNat
        else 0xffff }
  else r

/-- `MODER[RXEN]` is written: the receiver starts or stops. -/
def writeRxen (cfg : Config) (value : Word) (polls : List Arrival) (s : State) :
    Except Stop State :=
  if !s.regs.moder.getLsbD moderRXEN && value.getLsbD moderRXEN then
    let s := if cfg.rtxType = .tap then (ethIgnoreTapPackets cfg false s polls).2 else s
    { s with rxBdIndex := s.regs.txBdNum * 2 }.schedAdd .rxClock 1
  else if !value.getLsbD moderRXEN && s.regs.moder.getLsbD moderRXEN then
    s.schedFindRemove .rxClock
  else .ok s

/-- `MODER[TXEN]` is written: the transmitter starts or stops. -/
def writeTxen (value : Word) (s : State) : Except Stop State :=
  if !s.regs.moder.getLsbD moderTXEN && value.getLsbD moderTXEN then
    { s with txBdIndex := 0 }.schedAdd .txClock 1
  else if !value.getLsbD moderTXEN && s.regs.moder.getLsbD moderTXEN then
    s.schedFindRemove .txClock
  else .ok s

/-- The registers that a write only sets. -/
def setReg (r : Regs) (value : Word) : Reg → Regs
  | .ipgt => { r with ipgt := value }
  | .ipgr1 => { r with ipgr1 := value }
  | .ipgr2 => { r with ipgr2 := value }
  | .packetlen => { r with packetlen := value }
  | .collconf => { r with collconf := value }
  | .ctrlmoder => { r with controlmoder := value }
  | .miimoder => { r with miimoder := value }
  | .miiaddress => { r with miiaddress := value }
  | .miitxData => { r with miitxData := value }
  | .hash0 => { r with hash0 := value }
  | .hash1 => { r with hash1 := value }
  | _ => r

/-- `eth_write32`, of a register.  `polls` is what a TAP holds that is emptied. -/
def writeReg (cfg : Config) (value : Word) (polls : List Arrival) (s : State) :
    Reg → Except Stop State
  | .moder => do
    let s ← writeRxen cfg value polls s
    let s ← writeTxen value s
    let s := if value.getLsbD moderRST then ethReset cfg s else s
    return { s with regs := { s.regs with moder := value } }
  | .intSource =>
    let s := { s with regs := { s.regs with intSource := s.regs.intSource &&& ~~~value } }
    .ok (if s.regs.intSource &&& s.regs.intMask = 0 ∧ s.intLineStat then s.clearInterrupt else s)
  | .intMask =>
    let s := { s with regs := { s.regs with intMask := value } }
    .ok (if s.regs.intSource &&& s.regs.intMask ≠ 0 ∧ !s.intLineStat then s
      else if s.intLineStat then s.clearInterrupt else s)
  | .txBdNum =>
    let txBdNum := (value &&& 0xff).toNat
    .ok { s with regs := { s.regs with txBdNum := txBdNum }, rxBdIndex := txBdNum * 2 }
  | .miicommand => .ok { s with regs := ethMiimTrans cfg { s.regs with miicommand := value } }
  | .readOnly => .ok s
  | .macAddr0 => .ok { s with macAddress := fun i =>
      if 2 ≤ i ∧ i < 6 then value.extractLsb' (8 * (5 - i)) 8 else s.macAddress i }
  | .macAddr1 => .ok { s with macAddress := fun i =>
      if i < 2 then value.extractLsb' (8 * (1 - i)) 8 else s.macAddress i }
  | .bd i => .ok (s.setBd i value)
  | r => .ok { s with regs := setReg s.regs value r }

/-- `eth_write32`. -/
def ethWrite32 (cfg : Config) (addr : ℕ) (value : Word) (polls : List Arrival) (s : State) :
    Except Stop State :=
  match regAt addr with
  | some r => writeReg cfg value polls s r
  | none => .ok s

/-! ### Events -/

/-- What the outside world has for the jobs of the device. -/
structure World where
  /-- The memory. -/
  mem : Word → Word
  /-- The whole packet is written. -/
  written : Bool
  /-- What is read. -/
  arrival : Arrival
  /-- What a TAP holds that is emptied. -/
  polls : List Arrival

/-- What happens to the device. -/
inductive Event where
  /-- `eth_write32`. -/
  | write (addr : ℕ) (value : Word) (polls : List Arrival)
  /-- Something else happens to the queue. -/
  | outside (e : Sched.Outside)
  /-- A round of `do_scheduler`, if a job is due. -/
  | schedule (w : World)

/-- A job runs. -/
def Job.exec (cfg : Config) (w : World) (s : State) : Job → Except Stop State
  | .txClock => ethControllerTxClock w.mem w.written s
  | .rxClock => ethControllerRxClock cfg w.arrival w.polls s

/-- A round of `do_scheduler`. -/
def runJob (cfg : Config) (w : World) (s : State) : Except Stop State :=
  match Sched.dispatch s.sched with
  | some (some j, q) => j.exec cfg w { s with sched := q }
  | some (none, q) => .ok { s with sched := q }
  | none => .error .sched

/-- One event. -/
def Event.exec (cfg : Config) (s : State) : Event → Except Stop State
  | .write addr value polls => ethWrite32 cfg addr value polls s
  | .outside e => s.withSched (e.exec s.sched)
  | .schedule w => runJob cfg w s

/-- The device as `eth_sec_start` allocates it, with a queue that has jobs of other devices only. -/
def secStart (q : Sched.Queue Job) : State where
  macAddress := fun _ => 0
  intLineStat := false
  txBdIndex := 0
  rxBdIndex := 0
  regs :=
    { moder := 0, intSource := 0, intMask := 0, ipgt := 0, ipgr1 := 0, ipgr2 := 0, packetlen := 0,
      collconf := 0, txBdNum := 0, controlmoder := 0, miimoder := 0, miicommand := 0,
      miiaddress := 0, miitxData := 0, miirxData := 0, miistatus := 0, hash0 := 0, hash1 := 0,
      bdRam := fun _ => 0 }
  sched := q
  reported := false
  out := []

/-- A configuration that reads and writes files. -/
def fileConfig : Config := { mapped := true, rtxType := .file, dummyCrc := true, phyAddr := 0 }

/-- An outside world that takes every packet and has none. -/
def World.quiet : World := { mem := fun _ => 0, written := true, arrival := .nothing, polls := [] }

end Eth
end Or1ksim
