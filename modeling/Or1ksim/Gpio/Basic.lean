import Or1ksim.Memory.Simmem

/-!
# General purpose input and output

`peripheral/gpio.c`: a register file that is kept twice.  The guest writes the values for the next
clock, and a clock of the device makes them the current ones.

* `Regs`, `State` — the registers and the device;
* `gpioDeviceClock` — a clock as the device handles it;
* `gpioClock`, `gpioExternalClock` — the system clock and the external one;
* `gpioRead32`, `gpioWrite32`, `gpioVapiRead` — accesses of the guest and of the outside world.
-/

namespace Or1ksim
namespace Gpio

/-! ### Constants -/

/-- `RGPIO_IN` -/
def rgpioIn : Addr := 0x00

/-- `RGPIO_OUT` -/
def rgpioOut : Addr := 0x04

/-- `RGPIO_OE` -/
def rgpioOe : Addr := 0x08

/-- `RGPIO_INTE` -/
def rgpioInte : Addr := 0x0C

/-- `RGPIO_PTRIG` -/
def rgpioPtrig : Addr := 0x10

/-- `RGPIO_AUX` -/
def rgpioAux : Addr := 0x14

/-- `RGPIO_CTRL` -/
def rgpioCtrl : Addr := 0x18

/-- `RGPIO_INTS` -/
def rgpioInts : Addr := 0x1C

/-- `RGPIO_CTRL_ECLK`, by its number: the device runs on the external clock. -/
def ctrlECLK : ℕ := 0

/-- `RGPIO_CTRL_NEC`, by its number: the external clock is active on its negative edge. -/
def ctrlNEC : ℕ := 1

/-- `RGPIO_CTRL_INTE`, by its number: interrupts are enabled. -/
def ctrlINTE : ℕ := 2

/-- `RGPIO_CTRL_INTS`, by its number: an interrupt is pending. -/
def ctrlINTS : ℕ := 3

/-! ### The device -/

/-- The visible registers, each an `unsigned long` of `W` bits. -/
structure Regs (W : ℕ) where
  inp : BitVec W
  out : BitVec W
  oe : BitVec W
  inte : BitVec W
  ptrig : BitVec W
  aux : BitVec W
  ctrl : BitVec W
  ints : BitVec W
  externalClock : Bool
deriving DecidableEq

/-- What the device asks of the rest of the simulator. -/
inductive Effect (W : ℕ) where
  /-- `vapi_send`, on `GPIO_VAPI_DATA`. -/
  | vapiSend (data : BitVec W)
  /-- `SCHED_ADD (gpio_do_int, gpio, 1)` -/
  | scheduleInt
  /-- `SCHED_ADD (gpio_clock, dat, 1)` -/
  | scheduleClock
  | reportInterrupt
  | clearInterrupt
deriving DecidableEq

/-- `struct gpio_device` -/
structure State (W : ℕ) where
  /-- There is a `base_vapi_id`. -/
  vapi : Bool
  auxiliaryInputs : BitVec W
  curr : Regs W
  next : Regs W
  /-- The effects so far, the latest first. -/
  effects : List (Effect W)
deriving DecidableEq

variable {W : ℕ}

/-- Registers that are all zero. -/
def Regs.zero : Regs W := ⟨0, 0, 0, 0, 0, 0, 0, 0, false⟩

/-- `gpio_sec_start`, and `gpio_reset` after it. -/
def reset (vapi : Bool) : State W := ⟨vapi, 0, .zero, .zero, [.scheduleClock]⟩

/-- An effect takes place. -/
def State.emit (s : State W) (e : Effect W) : State W := { s with effects := e :: s.effects }

/-! ### Clocks -/

/-- The inputs and outputs for the next clock: only input bits and only output-enabled bits are
kept, and the requested output bits are replaced with the auxiliary inputs. -/
def nextPins (auxiliaryInputs : BitVec W) (r : Regs W) : Regs W :=
  { r with
    inp := r.inp &&& ~~~r.oe
    out := ((r.out &&& ~~~r.aux) ||| (auxiliaryInputs &&& r.aux)) &&& r.oe }

/-- The changed inputs that ask for an interrupt, each in an `unsigned int`. -/
def relevantBits (curr next : Regs W) : BitVec 32 :=
  let changedBits : BitVec 32 := (next.inp ^^^ curr.inp).setWidth 32
  let setBits := changedBits &&& next.inp.setWidth 32
  let clearedBits := changedBits &&& curr.inp.setWidth 32
  (next.ptrig.setWidth 32 &&& setBits) ||| (~~~next.ptrig.setWidth 32 &&& clearedBits)

/-- If any inputs changed and interrupts are enabled, there is one to come. -/
def inputInterrupt (s : State W) : State W :=
  let enabled := (relevantBits s.curr s.next).setWidth W &&& s.next.inte
  if s.next.inp ≠ s.curr.inp ∧ s.next.ctrl.getLsbD ctrlINTE ∧ enabled ≠ 0 then
    { s with
      next := { s.next with
        ctrl := Bits.setBit s.next.ctrl ctrlINTS
        ints := s.next.ints ||| enabled } }.emit .scheduleInt
  else s

/-- `gpio_device_clock` -/
def gpioDeviceClock (s : State W) : State W :=
  let s := { s with next := nextPins s.auxiliaryInputs s.next }
  let s := if s.next.out ≠ s.curr.out ∧ s.vapi then s.emit (.vapiSend s.next.out) else s
  let s := inputInterrupt s
  { s with curr := s.next }

/-- `gpio_clock`: the system clock. -/
def gpioClock (s : State W) : State W :=
  let s := if s.curr.ctrl.getLsbD ctrlECLK then s else gpioDeviceClock s
  s.emit .scheduleClock

/-- `gpio_external_clock` -/
def gpioExternalClock (value : Bool) (s : State W) : State W :=
  let negativeEdge := s.curr.ctrl.getLsbD ctrlNEC
  let s := { s with next := { s.next with externalClock := value } }
  if s.curr.ctrl.getLsbD ctrlECLK ∧ s.next.externalClock ≠ s.curr.externalClock ∧
      value ≠ negativeEdge then gpioDeviceClock s
  else s

/-- `gpio_do_int` -/
def gpioDoInt (s : State W) : State W := s.emit .reportInterrupt

/-! ### Accesses -/

/-- `gpio_read32` -/
def gpioRead32 (addr : Addr) (s : State W) : Word :=
  if addr = rgpioIn then (s.curr.inp ||| s.curr.out).setWidth 32
  else if addr = rgpioOut then s.curr.out.setWidth 32
  else if addr = rgpioOe then s.curr.oe.setWidth 32
  else if addr = rgpioInte then s.curr.inte.setWidth 32
  else if addr = rgpioPtrig then s.curr.ptrig.setWidth 32
  else if addr = rgpioAux then s.curr.aux.setWidth 32
  else if addr = rgpioCtrl then s.curr.ctrl.setWidth 32
  else if addr = rgpioInts then s.curr.ints.setWidth 32
  else 0

/-- `gpio_write32` -/
def gpioWrite32 (addr : Addr) (value : Word) (s : State W) : State W :=
  let v := value.setWidth W
  if addr = rgpioIn then s
  else if addr = rgpioOut then { s with next := { s.next with out := v } }
  else if addr = rgpioOe then { s with next := { s.next with oe := v } }
  else if addr = rgpioInte then { s with next := { s.next with inte := v } }
  else if addr = rgpioPtrig then { s with next := { s.next with ptrig := v } }
  else if addr = rgpioAux then { s with next := { s.next with aux := v } }
  else if addr = rgpioCtrl then { s with next := { s.next with ctrl := v } }
  else if addr = rgpioInts then
    let s := if s.next.ints ≠ 0 ∧ value = 0 then s.emit .clearInterrupt else s
    { s with next := { s.next with ints := v } }
  else s

/-- `gpio_vapi_read`: what comes from the outside world, by its offset from `base_vapi_id`. -/
def gpioVapiRead (which : ℕ) (data : BitVec W) (s : State W) : State W :=
  match which with
  | 0 => { s with next := { s.next with inp := data } }
  | 1 => { s with auxiliaryInputs := data }
  | 2 => gpioExternalClock (data ≠ 0) s
  | 3 => { s with next := { s.next with oe := data } }
  | 4 => { s with next := { s.next with inte := data } }
  | 5 => { s with next := { s.next with ptrig := data } }
  | 6 => { s with next := { s.next with aux := data } }
  | 7 => { s with next := { s.next with ctrl := data } }
  | _ => s

end Gpio
end Or1ksim
