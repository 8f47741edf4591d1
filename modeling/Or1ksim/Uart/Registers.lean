import Or1ksim.Lib.Runs
import Or1ksim.Uart.Basic

/-!
# The registers of the serial line

* `uartWriteByte`, `uartReadByte` — accesses of the processor;
* `uartReset` — the reset of the device;
* `Event`, `Event.exec` — what happens to the device: accesses, characters, and rounds of the
  scheduler, on whose queue other devices have jobs too.
-/

namespace Or1ksim
namespace Uart

/-! ### Writing -/

/-- Put a byte into the FIFO of the transmitter, where there is room. -/
def pushTx (s : State) (value : Byte) : State :=
  { s with
    txbuf := Function.update s.txbuf s.txbufHead value
    txbufHead := (s.txbufHead + 1) % s.fifoLen
    txbufFull := s.txbufFull + 1
    queued := s.queued ++ [value] }

/-- Write a byte to a FIFO that is full: it takes the place of the oldest one. -/
def overwriteTx (s : State) (value : Byte) : State :=
  { s with
    txbuf := Function.update s.txbuf s.txbufHead value
    queued := s.queued.set (s.queued.length - s.txbufFull) value }

/-- A byte for the transmitter. -/
def putTxbuf (s : State) (value : Byte) : Except Stop State :=
  let s := { s with lsr := s.lsr &&& ~~~0x20 }
  if s.txbufFull < s.fifoLen then
    if s.txbufFull = 0 ∧ s.lsr.getLsbD lsrTXSERE = true then (pushTx s value).schedAdd .txSend 0
    else .ok (pushTx s value)
  else .ok (overwriteTx s value)

/-- `UART_TXBUF`. -/
def writeTxbuf (s : State) (value : Byte) : Except Stop State := do
  let s ← putTxbuf s value
  uartClearInt s iirTHRI

/-- Empty the FIFO of the transmitter. -/
def resetTx (s : State) : Except Stop State :=
  let s := { s with
    queued := s.queued.take (s.queued.length - s.txbufFull)
    txbufHead := 0
    txbufTail := 0
    txbufFull := 0
    lsr := s.lsr ||| 0x20 }
  -- For a FIFO only, the interrupt is set when it is empty.
  let s := if s.fifoLen = 16 then uartIntThri s else s
  s.schedFindRemove .txSend

/-- Empty the FIFO of the transmitter if the value asks for it. -/
def resetTxIf (s : State) (value : Byte) : Except Stop State :=
  if value.getLsbD fcrRTXFI then resetTx s else .ok s

/-- Empty the FIFO of the receiver. -/
def resetRx (s : State) : Except Stop State := do
  let s := { s with
    rxbufHead := 0
    rxbufTail := 0
    rxbufFull := 0
    lsr := s.lsr &&& ~~~1 }
  let s ← uartClearInt s iirRDI
  uartClearInt s iirCTI

/-- What the reset bits of a value ask for. -/
def resetFifos (s : State) (value : Byte) : Except Stop State := do
  let s ← resetTxIf s value
  if value.getLsbD fcrRRXFI then resetRx s else .ok s

/-- A change of the length of the FIFOs empties them. -/
def fcrValue (s : State) (value : Byte) : Byte :=
  if (s.fifoLen = 1 ∧ value.getLsbD fcrFIE = true) ∨ (s.fifoLen ≠ 1 ∧ value.getLsbD fcrFIE = false)
  then value ||| 6 else value

/-- `UART_FCR`. -/
def writeFcr (s : State) (value : Byte) : Except Stop State :=
  resetFifos { s with
    fcr := value &&& 0xc0
    fifoLen := if value.getLsbD fcrFIE then 16 else 1 } (fcrValue s value)

/-- "Schedule a job to send the break char". -/
def breakOn (s : State) (value : Byte) : Except Stop State :=
  if value.getLsbD lcrSBC ∧ s.lsr.getLsbD lsrTXSERE = false then do
    let s ← s.schedFindRemove .charClock
    s.schedAdd .sendBreak 0
  else .ok s

/-- "Schedule a job to start sending characters".  The job that is removed is not the one that the
comment in the source names. -/
def breakOff (s : State) (value : Byte) : Except Stop State :=
  if value.getLsbD lcrSBC = false ∧ s.lsr.getLsbD lsrTXSERE = false then do
    let s ← s.schedAdd .txSend 0
    s.schedFindRemove .charClock
  else .ok s

/-- A change of the break bit. -/
def toggleBreak (s : State) (value : Byte) : Except Stop State :=
  if s.lcr.getLsbD lcrSBC ≠ value.getLsbD lcrSBC then do
    let s ← breakOn s value
    breakOff s value
  else .ok s

/-- `UART_LCR`. -/
def writeLcr (s : State) (value : Byte) : Except Stop State := do
  let s ← toggleBreak s value
  return { s with lcr := value, charClks := charClks s.dll s.dlh value }

/-- The registers behind the divisor latches. -/
def writeRegister (s : State) (addr : ℕ) (value : Byte) : Except Stop State :=
  match addr with
  | 0 => writeTxbuf s value
  | 1 => .ok (uartNextInt { s with ier := value &&& 0x0f })
  | 2 => writeFcr s value
  | 3 => writeLcr s value
  | 4 => .ok (uartLoopback { s with mcr := value &&& 0x1f })
  | 7 => .ok { s with scr := value }
  | _ => .ok s

/-- `uart_write_byte`. -/
def uartWriteByte (s : State) (addr : ℕ) (value : Byte) : Except Stop State :=
  if s.lcr.getLsbD lcrDLAB then
    match addr with
    | 0 => .ok { s with dll := value, charClks := charClks value s.dlh s.lcr }
    | 1 => .ok { s with dlh := value }
    | _ => writeRegister s addr value
  else writeRegister s addr value

/-! ### Reading -/

/-- Take a character out of the FIFO of the receiver. -/
def popRx (s : State) : State :=
  if s.rxbufFull ≠ 0 then
    { s with rxbufTail := (s.rxbufTail + 1) % s.fifoLen, rxbufFull := decFull s.rxbufFull }
  else s

/-- What is raised for the characters that are left. -/
def recheckRx (s : State) : Except Stop State :=
  if s.rxbufFull ≠ 0 then
    let s := { s with lsr := s.lsr ||| 1 ||| (s.rxbuf s.rxbufTail >>> 8).setWidth 8 }
    (s.schedAdd .intCti (s.charClks * charTimeout * clockDivider)).map fun s =>
      uartCheckRdi (uartCheckRlsi s)
  else .ok { s with lsr := s.lsr &&& ~~~1 }

/-- `UART_RXBUF`. -/
def readRxbuf (s : State) : Except Stop (Byte × State) := do
  let value : Byte := if s.rxbufFull ≠ 0 then (s.rxbuf s.rxbufTail).setWidth 8 else 0
  let s := popRx s
  let s ← uartClearInt s iirRDI
  let s ← uartClearInt s iirCTI
  let s ← recheckRx s
  return (value, s)

/-- `UART_IIR`. -/
def readIir (s : State) : Except Stop (Byte × State) :=
  let value := (s.iir &&& 0x0f) ||| 0xc0
  -- Only clear the interrupt if it is the one we are reporting.
  if s.iir = iirTHRI then (uartClearInt s iirTHRI).map fun s => (value, s) else .ok (value, s)

/-- `UART_LSR`. -/
def readLsr (s : State) : Except Stop (Byte × State) :=
  (uartClearInt { s with lsr := s.lsr &&& ~~~0x9e } iirRLSI).map fun t => (s.lsr, t)

/-- `UART_MSR`. -/
def readMsr (s : State) : Except Stop (Byte × State) :=
  (uartClearInt { s with msr := 0 } iirMSI).map fun t => (s.msr, uartLoopback t)

/-- The registers behind the divisor latches. -/
def readRegister (s : State) (addr : ℕ) : Except Stop (Byte × State) :=
  match addr with
  | 0 => readRxbuf s
  | 1 => .ok (s.ier &&& 0x0f, s)
  | 2 => readIir s
  | 3 => .ok (s.lcr, s)
  | 5 => readLsr s
  | 6 => readMsr s
  | 7 => .ok (s.scr, s)
  | _ => .ok (0, s)

/-- `uart_read_byte`. -/
def uartReadByte (s : State) (addr : ℕ) : Except Stop (Byte × State) :=
  if s.lcr.getLsbD lcrDLAB then
    match addr with
    | 0 => .ok (s.dll, s)
    | 1 => .ok (s.dlh, s)
    | _ => readRegister s addr
  else readRegister s addr

/-! ### Runs -/

/-- `uart_reset`, apart from the connection to the outside world. -/
def uartReset (cfg : Config) (s : State) : Except Stop State :=
  uartSchedRecvCheck cfg { s with
    fifoLen := if cfg.uart16550 then 16 else 1
    rxbufHead := 0
    rxbufTail := 0
    txbufHead := 0
    txbufTail := 0
    txbufFull := 0
    rxbufFull := 0
    charClks := 0
    txser := 0
    rxser := 0
    loopback := 0
    receiveing := false
    recvBreak := false
    ints := 0
    txbuf := fun _ => 0
    rxbuf := fun _ => 0
    dll := 0
    dlh := 0
    ier := 0
    iir := iirNoInt
    fcr := 0
    lcr := 3
    mcr := 0
    lsr := 0x60
    msr := 0
    scr := 0
    vapiSkew := 0
    vapiLcr := 0
    vapiDll := 0
    vapiCharClks := 0
    vapiBufHeadPtr := 0
    vapiBufTailPtr := 0
    vapiBuf := fun _ => 0 }

/-- The device before its first reset, with the jobs that are queued then. -/
def powerOn (sched : Sched.State Fn Unit) : State where
  txbuf _ := 0
  rxbuf _ := 0
  dll := 0
  dlh := 0
  ier := 0
  iir := 0
  fcr := 0
  lcr := 0
  mcr := 0
  lsr := 0
  msr := 0
  scr := 0
  txser := 0
  rxser := 0
  loopback := 0
  txbufHead := 0
  txbufTail := 0
  rxbufHead := 0
  rxbufTail := 0
  txbufFull := 0
  rxbufFull := 0
  receiveing := false
  recvBreak := false
  ints := 0
  charClks := 0
  vapiCharClks := 0
  vapiDll := 0
  vapiDlh := 0
  vapiLcr := 0
  vapiSkew := 0
  vapiBuf _ := 0
  vapiBufHeadPtr := 0
  vapiBufTailPtr := 0
  fifoLen := 0
  sched := sched
  reported := false
  out := []
  queued := []
  shifted := []

/-- The queue with nothing but the guard. -/
def guardOnly : Sched.State Fn Unit where
  freeJobQueue := (List.range 127).map fun i => ⟨i + 1, 0, (), .schedGuard⟩
  jobQueue := [⟨0, Sched.schedTimeMax, (), .schedGuard⟩]

/-- A 16450 without VAPI. -/
def plainConfig : Config := ⟨false, false⟩

/-- What happens to the device. -/
inductive Event where
  /-- `uart_write_byte`. -/
  | write (addr : ℕ) (value : Byte)
  /-- `uart_read_byte`. -/
  | read (addr : ℕ)
  /-- `uart_vapi_read`. -/
  | vapiRead (data : BitVec 64)
  /-- Another device queues a job. -/
  | otherAdd (n time : ℕ)
  /-- Another device withdraws a job. -/
  | otherRemove (n : ℕ)
  /-- The main loop charges cycles to the queue. -/
  | charge (cycles : ℕ)
  /-- A round of `do_scheduler`, if a job is due, and what `channel_read` returns in it. -/
  | schedule (input : ChannelRead)
deriving DecidableEq

/-- Run a job.  Jobs of other devices do nothing to this one. -/
def Fn.exec (cfg : Config) (input : ChannelRead) (s : State) : Fn → Except Stop State
  | .schedGuard => s.withSched (Sched.schedGuard .schedGuard s.sched ())
  | .intCti => .ok (uartIntCti s)
  | .recvBreakStart => uartRecvBreakStart cfg (uartVapiCmd cfg) s
  | .recvBreakStop => uartRecvBreakStop s
  | .recvBreak => uartRecvBreak s
  | .recvChar => uartRecvChar cfg s
  | .checkChar => uartCheckChar s input
  | .vapiCmd => uartVapiCmd cfg s
  | .charClock => uartCharClock cfg s
  | .sendBreak => uartSendBreak s
  | .txSend => uartTxSend s
  | .other _ => .ok s

/-- One round of the `do_scheduler` loop. -/
def runJob (cfg : Config) (input : ChannelRead) (s : State) : Except Stop State :=
  match Sched.popJob s.sched with
  | some (tmp, q) => tmp.func.exec cfg input { s with sched := q }
  | none => .error .undefined

/-- One event. -/
def Event.exec (cfg : Config) (s : State) : Event → Except Stop State
  | .write addr value => uartWriteByte s addr value
  | .read addr => (uartReadByte s addr).map Prod.snd
  | .vapiRead data => uartVapiRead cfg s data
  | .otherAdd n time => s.schedAdd (.other n) time
  | .otherRemove n => s.schedFindRemove (.other n)
  | .charge cycles => s.withSched (Sched.charge s.sched cycles)
  | .schedule input => if Sched.headDue s.sched then runJob cfg input s else .ok s

end Uart
end Or1ksim
