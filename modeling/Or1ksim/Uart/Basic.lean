import Mathlib.Logic.Function.Basic
import Or1ksim.Lib.Bits
import Or1ksim.Sched.Basic

/-!
# The serial line

`peripheral/16450.c`: a UART with its two FIFOs and the jobs it queues with the scheduler.

* `State` — the device, and what it has done to the outside world;
* `uartIntMsi` to `uartIntRlsi`, `uartNextInt`, `uartClearInt` — interrupts;
* `uartTxSend`, `uartCharClock`, `uartSendBreak` — the transmitter;
* `uartAddChar`, `uartRecvChar`, `uartVapiCmd` — the receiver.
-/

namespace Or1ksim
namespace Uart

/-- A byte. -/
abbrev Byte := BitVec 8

/-! ### Constants -/

/-- `UART_CLOCK_DIVIDER`. -/
def clockDivider : ℕ := 16

/-- `UART_FGETC_SLOWDOWN`. -/
def fgetcSlowdown : ℕ := 100

/-- `UART_CHAR_TIMEOUT`. -/
def charTimeout : ℕ := 4

/-- `UART_BREAK_COUNT`. -/
def breakCount : ℕ := 1

/-- `UART_VAPI_BUF_LEN`. -/
def vapiBufLen : ℕ := 128

/-- `UART_LCR_DLAB`, by its number. -/
def lcrDLAB : ℕ := 7

/-- `UART_LCR_SBC`: set break. -/
def lcrSBC : ℕ := 6

/-- `UART_LCR_SPAR`. -/
def lcrSPAR : ℕ := 5

/-- `UART_LCR_EPAR`. -/
def lcrEPAR : ℕ := 4

/-- `UART_LCR_PARITY`. -/
def lcrPARITY : ℕ := 3

/-- `UART_LCR_STOP`. -/
def lcrSTOP : ℕ := 2

/-- `UART_LSR_TXSERE`: the shift register is empty. -/
def lsrTXSERE : ℕ := 6

/-- `UART_MCR_LOOP`. -/
def mcrLOOP : ℕ := 4

/-- `UART_FCR_FIE`. -/
def fcrFIE : ℕ := 0

/-- `UART_FCR_RRXFI`. -/
def fcrRRXFI : ℕ := 1

/-- `UART_FCR_RTXFI`. -/
def fcrRTXFI : ℕ := 2

/-- `UART_IER_RDI`. -/
def ierRDI : ℕ := 0

/-- `UART_IER_THRI`. -/
def ierTHRI : ℕ := 1

/-- `UART_IER_RLSI`. -/
def ierRLSI : ℕ := 2

/-- `UART_IER_MSI`. -/
def ierMSI : ℕ := 3

/-- `UART_IIR_NO_INT`. -/
def iirNoInt : Byte := 1

/-- `UART_IIR_MSI`: modem status. -/
def iirMSI : Byte := 0

/-- `UART_IIR_THRI`: transmitter holding register empty. -/
def iirTHRI : Byte := 2

/-- `UART_IIR_RDI`: receiver data. -/
def iirRDI : Byte := 4

/-- `UART_IIR_RLSI`: receiver line status. -/
def iirRLSI : Byte := 6

/-- `UART_IIR_CTI`: character timeout. -/
def iirCTI : Byte := 0x0c

/-- `UART_FIFO_TRIGGER`. -/
def fifoTrigger : ℕ → ℕ
  | 0 => 1
  | 1 => 4
  | 2 => 8
  | 3 => 14
  | _ => 0

/-! ### The device -/

/-- What is on the scheduler's queue. -/
inductive Fn where
  | schedGuard
  | intCti
  | recvBreakStart
  | recvBreakStop
  | recvBreak
  | recvChar
  | checkChar
  | vapiCmd
  | charClock
  | sendBreak
  | txSend
  /-- A job of another device. -/
  | other (n : ℕ)
deriving DecidableEq

/-- Why there is no next state. -/
inductive Stop where
  /-- The source has no defined behaviour. -/
  | undefined
  /-- The program exits. -/
  | exit
deriving DecidableEq

/-- How the device is configured. -/
structure Config where
  /-- `uart->uart16550`. -/
  uart16550 : Bool
  /-- `uart->vapi_id` is not zero. -/
  vapi : Bool

/-- What leaves the device. -/
inductive Output where
  /-- `channel_write`. -/
  | channel (b : Byte)
  /-- `vapi_send`. -/
  | vapi (data : BitVec 32)
deriving DecidableEq

/-- A byte that has left the shift register. -/
inductive Shifted where
  /-- It was handed to `send_char`. -/
  | char (b : Byte)
  /-- A break was sent in its place. -/
  | brk (b : Byte)
deriving DecidableEq

/-- The byte. -/
def Shifted.byte : Shifted → Byte
  | .char b | .brk b => b

/-- The byte, if it was handed to `send_char`. -/
def Shifted.sent : Shifted → Option Byte
  | .char b => some b
  | .brk _ => none

/-- The device (`struct dev_16450`) and the scheduler.  The last four fields only observe it. -/
structure State where
  txbuf : ℕ → Byte
  /-- The upper bits are errors. -/
  rxbuf : ℕ → BitVec 16
  dll : Byte
  dlh : Byte
  ier : Byte
  iir : Byte
  fcr : Byte
  lcr : Byte
  mcr : Byte
  lsr : Byte
  msr : Byte
  scr : Byte
  /-- Character just sending. -/
  txser : Byte
  /-- Character just receiving. -/
  rxser : BitVec 16
  loopback : Byte
  txbufHead : ℕ
  txbufTail : ℕ
  rxbufHead : ℕ
  rxbufTail : ℕ
  /-- An `unsigned int`. -/
  txbufFull : ℕ
  /-- An `unsigned int`. -/
  rxbufFull : ℕ
  receiveing : Bool
  recvBreak : Bool
  /-- Which interrupts are pending. -/
  ints : BitVec 32
  /-- Clocks per character. -/
  charClks : ℕ
  vapiCharClks : ℕ
  vapiDll : Byte
  vapiDlh : Byte
  vapiLcr : Byte
  vapiSkew : ℤ
  vapiBuf : ℕ → BitVec 64
  vapiBufHeadPtr : ℕ
  vapiBufTailPtr : ℕ
  /-- 16 for a 16550, 1 for a 16450. -/
  fifoLen : ℕ
  sched : Sched.State Fn Unit
  /-- The interrupt line has been reported since it was last cleared. -/
  reported : Bool
  out : List Output
  /-- The bytes put into the transmitter's FIFO and not discarded, each as last written. -/
  queued : List Byte
  /-- The bytes that have left the shift register. -/
  shifted : List Shifted

/-- `unsigned int` decrement. -/
def decFull (n : ℕ) : ℕ := (n + (2 ^ 32 - 1)) % 2 ^ 32

/-- The device after a call of the scheduler. -/
def State.withSched (s : State) : Option (Sched.State Fn Unit) → Except Stop State
  | some q => .ok { s with sched := q }
  | none => .error .undefined

/-- `SCHED_ADD`. -/
def State.schedAdd (s : State) (f : Fn) (time : ℕ) : Except Stop State :=
  s.withSched (Sched.schedAdd s.sched f () time)

/-- `SCHED_FIND_REMOVE`. -/
def State.schedFindRemove (s : State) (f : Fn) : Except Stop State :=
  s.withSched (Sched.schedFindRemove s.sched f ())

/-- `char_clks`: the clocks that a character takes. -/
def charClks (dll dlh lcr : Byte) : ℕ :=
  let wlen := (lcr &&& 3).toNat
  let baudsPerChar := 2 + (if lcr.getLsbD lcrPARITY then 2 else 0) +
    (if lcr.getLsbD lcrSTOP then 4 else if wlen ≠ 0 then 2 else 3) + (10 + wlen * 2)
  ((dlh.toNat * 256 + dll.toNat) * baudsPerChar) / 2

/-! ### Interrupts -/

/-- `report_interrupt` of the line of the device. -/
def reportInterrupt (s : State) : State := { s with reported := true }

/-- `clear_interrupt` of the line of the device. -/
def clearInterrupt (s : State) : State := { s with reported := false }

/-- Set an interrupt pending, and report it if it is enabled and the one that is identified gives
way to it. -/
def raiseInt (intr : Byte) (enable : ℕ) (yields : Byte → Bool) (s : State) : State :=
  let s := { s with ints := s.ints ||| BitVec.twoPow 32 intr.toNat }
  if !s.ier.getLsbD enable then s
  else if yields s.iir then reportInterrupt { s with iir := intr }
  else s

/-- `uart_int_msi`. -/
def uartIntMsi : State → State :=
  raiseInt iirMSI ierMSI fun iir => iir.getLsbD 0 || iir = iirMSI

/-- `uart_int_thri`. -/
def uartIntThri : State → State :=
  raiseInt iirTHRI ierTHRI fun iir => iir.getLsbD 0 || iir = iirMSI || iir = iirTHRI

/-- `uart_int_cti`. -/
def uartIntCti : State → State := raiseInt iirCTI ierRDI fun iir => iir ≠ iirRLSI && iir ≠ iirRDI

/-- `uart_int_rdi`. -/
def uartIntRdi : State → State := raiseInt iirRDI ierRDI fun iir => iir ≠ iirRLSI

/-- `uart_int_rlsi`, of the highest priority. -/
def uartIntRlsi : State → State := raiseInt iirRLSI ierRLSI fun _ => true

/-- `uart_check_rlsi`. -/
def uartCheckRlsi (s : State) : State := if s.lsr &&& 0x1e ≠ 0 then uartIntRlsi s else s

/-- `uart_check_rdi`. -/
def uartCheckRdi (s : State) : State :=
  if fifoTrigger (s.fcr >>> 6).toNat ≤ s.rxbufFull then uartIntRdi s else s

/-- The interrupt is pending and the bit of the enable register is set. -/
def State.active (s : State) (intr : Byte) (enable : ℕ) : Bool :=
  s.ints.getLsbD intr.toNat && s.ier.getLsbD enable

/-- `uart_next_int`. -/
def uartNextInt (s : State) : State :=
  if s.active iirRLSI ierRLSI then uartIntRlsi s
  else if s.active iirRDI ierRDI then uartIntRdi s
  else if s.active iirCTI ierRDI then uartIntCti s
  else if s.active iirTHRI ierTHRI then uartIntThri s
  else if s.active iirMSI ierMSI then uartIntMsi s
  else { clearInterrupt s with iir := iirNoInt }

/-- Some stuff schedules `uart_int_cti`, which goes with the interrupt. -/
def removeCti (s : State) (intr : Byte) : Except Stop State :=
  if intr = iirCTI then s.schedFindRemove .intCti else .ok s

/-- `uart_clear_int`. -/
def uartClearInt (s : State) (intr : Byte) : Except Stop State := do
  let s := { s with ints := s.ints &&& ~~~BitVec.twoPow 32 intr.toNat }
  let s ← removeCti s intr
  return if intr ≠ s.iir then s else uartNextInt s

/-- The modem status register when the modem lines follow the modem control register. -/
def loopbackMsr (mcr msr : Byte) : Byte :=
  let dcd : Byte := (msr &&& 0x80) >>> 4
  let ri : Byte := (msr &&& 0x40) >>> 4
  let cts : Byte := (msr &&& 0x10) >>> 3
  let dsr : Byte := (msr &&& 0x20) >>> 5
  let msr := if mcr &&& 8 ≠ dcd then msr ||| 8 else msr
  let msr := if mcr &&& 4 < ri then msr ||| 4 else msr
  let msr := if mcr &&& 2 ≠ cts then msr ||| 1 else msr
  let msr := if mcr &&& 1 ≠ dsr then msr ||| 2 else msr
  let msr := msr &&& ~~~0xf0
  msr ||| ((mcr &&& 8) <<< 4) ||| ((mcr &&& 4) <<< 4) ||| ((mcr &&& 2) <<< 3) |||
    ((mcr &&& 1) <<< 5)

/-- `uart_loopback`. -/
def uartLoopback (s : State) : State :=
  if !s.mcr.getLsbD mcrLOOP then s
  else
    let s := { s with msr := loopbackMsr s.mcr s.msr }
    if s.msr &&& 0x0f ≠ 0 then uartIntMsi s else s

/-! ### The transmitter -/

/-- The parity of the lowest `n` bits. -/
def parity (packet : BitVec 64) (n : ℕ) : Bool :=
  (List.range n).foldl (fun par j => par ^^ packet.getLsbD j) false

/-- A character as it goes over the line. -/
def encodePacket (lcr txser : Byte) (bitsSend : ℕ) : BitVec 64 :=
  let nbits := min bitsSend ((lcr &&& 3).toNat + 5)
  let packet := txser.setWidth 64 &&& (BitVec.twoPow 64 nbits - 1)
  let par := parity packet nbits
  let bit := if lcr.getLsbD lcrSPAR then true else if lcr.getLsbD lcrEPAR then par else !par
  let r := if lcr.getLsbD lcrPARITY then
      (if bit then packet ||| BitVec.twoPow 64 nbits else packet, nbits + 1)
    else (packet, nbits)
  let packet := r.1 ||| BitVec.twoPow 64 r.2
  if lcr.getLsbD lcrSTOP then packet ||| BitVec.twoPow 64 (r.2 + 1) else packet

/-- What the other side makes of a packet. -/
def decodePacket (vapiLcr : Byte) (packet : BitVec 64) : BitVec 32 :=
  let nbits := (vapiLcr &&& 3).toNat + 5
  let data := (packet &&& (BitVec.twoPow 64 nbits - 1)).setWidth 32
  let par := parity packet (nbits + 1)
  let r := if vapiLcr.getLsbD lcrPARITY then
      (if vapiLcr.getLsbD lcrSPAR then !packet.getLsbD nbits
        else if vapiLcr.getLsbD lcrEPAR then par else !par, nbits + 1)
    else (false, nbits)
  let fe := !packet.getLsbD r.2 || (vapiLcr.getLsbD lcrSTOP && !packet.getLsbD (r.2 + 1))
  data ||| (vapiLcr.setWidth 32 <<< 8) ||| (if r.1 then 0x10000 else 0) |||
    (if fe then 0x20000 else 0)

/-- `send_char`. -/
def sendChar (cfg : Config) (s : State) (bitsSend : ℕ) : State :=
  let s := { s with shifted := s.shifted ++ [Shifted.char s.txser] }
  if s.mcr.getLsbD mcrLOOP then { s with loopback := s.txser }
  else if cfg.vapi then
    let data := decodePacket s.vapiLcr (encodePacket s.lcr s.txser bitsSend)
    { s with out := s.out ++ [Output.vapi data] }
  else { s with out := s.out ++ [Output.channel s.txser] }

/-- The job for the character that is now in the shift register. -/
def scheduleChar (s : State) : Except Stop State :=
  if !s.lcr.getLsbD lcrSBC then s.schedAdd .charClock (s.charClks * clockDivider)
  else s.schedAdd .sendBreak 0

/-- `uart_tx_send`. -/
def uartTxSend (s : State) : Except Stop State := do
  let s := { s with
    txser := s.txbuf s.txbufTail
    txbufTail := (s.txbufTail + 1) % s.fifoLen
    txbufFull := decFull s.txbufFull
    lsr := s.lsr &&& ~~~0x40 }
  let s ← scheduleChar s
  return if s.txbufFull = 0 then uartIntThri { s with lsr := s.lsr ||| 0x20 } else s

/-- Go on with the next character, if there is one. -/
def nextChar (s : State) : Except Stop State :=
  if s.txbufFull = 0 then .ok { s with lsr := s.lsr ||| 0x40 } else uartTxSend s

/-- `uart_char_clock`. -/
def uartCharClock (cfg : Config) (s : State) : Except Stop State :=
  nextChar (sendChar cfg s ((s.lcr &&& 3).toNat + 5))

/-- `uart_send_break`. -/
def uartSendBreak (s : State) : Except Stop State :=
  nextChar { s with
    out := s.out ++ [Output.vapi 0x4000]
    shifted := s.shifted ++ [Shifted.brk s.txser] }

/-! ### The receiver -/

/-- Put a character into the FIFO of the receiver, if there is room. -/
def pushRx (s : State) (ch : BitVec 16) : State :=
  if s.fifoLen < s.rxbufFull + 1 then uartIntRlsi { s with lsr := s.lsr ||| 0x82 }
  else
    let first := s.rxbufFull = 0
    let s := { s with
      rxbuf := Function.update s.rxbuf s.rxbufHead ch
      rxbufHead := (s.rxbufHead + 1) % s.fifoLen
      rxbufFull := s.rxbufFull + 1 }
    if first then uartCheckRlsi { s with lsr := s.lsr ||| (ch >>> 8).setWidth 8 } else s

/-- `uart_add_char`. -/
def uartAddChar (s : State) (ch : BitVec 16) : Except Stop State := do
  let s := { s with lsr := s.lsr ||| 1 }
  let s ← uartClearInt s iirCTI
  let s ← s.schedAdd .intCti (s.charClks * charTimeout * clockDivider)
  return uartCheckRdi (pushRx s ch)

/-- Take the commands that wait, if there are any. -/
def waitingCmds (cfg : Config) (cmd : State → Except Stop State) (s : State) : Except Stop State :=
  if cfg.vapi ∧ s.vapiBufHeadPtr ≠ s.vapiBufTailPtr then cmd s else .ok s

/-- `uart_recv_break_start`, where `cmd` stands for `uart_vapi_cmd`. -/
def uartRecvBreakStart (cfg : Config) (cmd : State → Except Stop State) (s : State) :
    Except Stop State := do
  let s := { s with receiveing := false, recvBreak := true }
  let s ← s.schedFindRemove .recvChar
  let s ← waitingCmds cfg cmd s
  s.schedAdd .recvBreak (breakCount * s.vapiCharClks * clockDivider)

/-- `uart_recv_break_stop`. -/
def uartRecvBreakStop (s : State) : Except Stop State :=
  { s with recvBreak := false }.schedFindRemove .recvBreak

/-- `uart_recv_break`. -/
def uartRecvBreak (s : State) : Except Stop State := uartAddChar s 0x9100

/-- `uart_sched_recv_check`. -/
def uartSchedRecvCheck (cfg : Config) (s : State) : Except Stop State :=
  if !cfg.vapi then s.schedAdd .checkChar (fgetcSlowdown * clockDivider) else .ok s

/-- What `uart_recv_char` does before it adds the character. -/
def nextRecv (cfg : Config) (s : State) : Except Stop State :=
  if s.mcr.getLsbD mcrLOOP then
    { s with rxser := s.loopback.setWidth 16, receiveing := true }.schedAdd .recvChar
      (s.charClks * clockDivider)
  else do
    let s ← uartSchedRecvCheck cfg { s with receiveing := false }
    if cfg.vapi ∧ s.vapiBufHeadPtr ≠ s.vapiBufTailPtr then s.schedAdd .vapiCmd 0 else .ok s

/-- `uart_recv_char`. -/
def uartRecvChar (cfg : Config) (s : State) : Except Stop State := do
  let charToAdd := s.rxser &&& ((BitVec.twoPow 16 ((s.lcr &&& 3).toNat + 5) - 1) ||| 0xff00)
  let s ← nextRecv cfg s
  uartAddChar s charToAdd

/-- What `channel_read` returns. -/
inductive ChannelRead where
  /-- Nothing is there. -/
  | none
  | byte (b : Byte)
  | error
deriving DecidableEq

/-- `uart_check_char`. -/
def uartCheckChar (s : State) : ChannelRead → Except Stop State
  | .byte b =>
    { s with rxser := b.setWidth 16, receiveing := true }.schedAdd .recvChar
      (s.charClks * clockDivider)
  | .none => s.schedAdd .checkChar (fgetcSlowdown * clockDivider)
  | .error => .ok s

/-! ### Commands of the other side -/

/-- A character from the other side: its modes must match those of the device. -/
def vapiChar (s : State) (data : BitVec 64) : Except Stop State :=
  let lcr : Byte := (data >>> 8).setWidth 8
  let clks := charClks s.vapiDll s.vapiDlh lcr
  let rxser : BitVec 16 := data.setWidth 16 &&& 0xff
  let mismatch := lcr &&& ~~~0x40 ≠ s.lcr &&& ~~~0x40 ∨ clks ≠ s.charClks ∨ s.vapiSkew < -1 ∨
    1 < s.vapiSkew
  let rxser := if mismatch then
      if s.lcr.getLsbD lcrPARITY then rxser ||| 0x8800 ||| 0x0400 else rxser ||| 0x8800
    else rxser
  let s := { s with vapiLcr := lcr, rxser := rxser, vapiCharClks := clks }
  if !s.recvBreak then
    { s with receiveing := true }.schedAdd .recvChar (s.charClks * clockDivider)
  else .ok s

/-- A command that starts or ends a break, at once or after a while. -/
def vapiBreak (cfg : Config) (cmd : State → Except Stop State) (s : State) (data : BitVec 64) :
    Except Stop State :=
  let delay := (data &&& 0xffff).toNat
  if data.getLsbD 16 then
    if delay = 0 then uartRecvBreakStart cfg cmd s
    else s.schedAdd .recvBreakStart (delay * clockDivider)
  else
    if delay = 0 then uartRecvBreakStop s else s.schedAdd .recvBreakStop (delay * clockDivider)

/-- The loop of `uart_vapi_cmd`, for at most `fuel` commands. -/
def vapiLoop (cfg : Config) : ℕ → State → Except Stop State
  | 0, s => .ok s
  | fuel + 1, s =>
    if s.vapiBufHeadPtr = s.vapiBufTailPtr then .ok s
    else
      let data := s.vapiBuf s.vapiBufTailPtr
      let s := { s with vapiBufTailPtr := (s.vapiBufTailPtr + 1) % vapiBufLen }
      match (data >>> 24).toNat with
      | 0 => vapiChar s data
      | 1 => vapiLoop cfg fuel
          { s with vapiDll := data.setWidth 8, vapiDlh := (data >>> 8).setWidth 8 }
      | 2 => vapiLoop cfg fuel { s with vapiLcr := (data >>> 8).setWidth 8 }
      | 3 => vapiLoop cfg fuel { s with vapiSkew := (data.setWidth 16).toInt }
      | 4 => vapiBreak cfg (vapiLoop cfg fuel) s data >>= vapiLoop cfg fuel
      | _ => vapiLoop cfg fuel s

/-- `uart_vapi_cmd`: as many commands as the buffer holds. -/
def uartVapiCmd (cfg : Config) (s : State) : Except Stop State := vapiLoop cfg vapiBufLen s

/-- `uart_vapi_read`. -/
def uartVapiRead (cfg : Config) (s : State) (data : BitVec 64) : Except Stop State :=
  let s := { s with
    vapiBuf := Function.update s.vapiBuf s.vapiBufHeadPtr data
    vapiBufHeadPtr := (s.vapiBufHeadPtr + 1) % vapiBufLen }
  if s.vapiBufTailPtr = s.vapiBufHeadPtr then .error .exit
  else if !s.receiveing then uartVapiCmd cfg s else .ok s

end Uart
end Or1ksim
