import Or1ksim.Cpu.Execute
import Or1ksim.Jtag.Register

/-!
# The JTAG debug interface

The data registers of the JTAG interface (`debug/jtag.c`): a module is selected, a `WRITE_COMMAND`
says what to transfer, and `GO_COMMAND` transfers it; the control registers stall and reset the
processor.  Messages are left out.  The simulator is built for a big-endian target.

* `Debug`, `Target` — the state of the interface and what it works on;
* `selectModule`, `goCommand`, `readCommand`, `writeCommand`, `readControl`, `writeControl` — the
  handlers of the six registers;
* `jtagShiftDr` — a data register is shifted.
-/

namespace Or1ksim
namespace Jtag

open Cpu

/-! ### State -/

/-- `enum jtag_mod_id`. -/
inductive ModId where
  | undefined | wishbone | cpu0 | cpu1
deriving DecidableEq, Repr

/-- `runtime.debug`. -/
structure Debug where
  /-- Current JTAG instruction; `none` is `JI_UNDEFINED`. -/
  instr : Option (BitVec 4)
  /-- Currently selected module. -/
  modId : ModId
  /-- `write_defined_p`: a `WRITE_COMMAND` has set details for `GO_COMMAND`. -/
  writeDefined : Bool
  /-- Access type for `GO_COMMAND`. -/
  accType : Byte
  /-- Address to read or write. -/
  addr : BitVec 64
  /-- Number of bytes to read or write. -/
  size : ℕ
  /-- "up to 2^16". -/
  size_le : size ≤ 65536

/-- The interface and the simulator it debugs. -/
structure Target where
  /-- The simulator. -/
  sim : Sim
  /-- The interface. -/
  debug : Debug

/-- `JI_DEBUG`. -/
def jiDebug : BitVec 4 := 0x8

/-- `enum jtag_cmd`, as numbers in a register. -/
inductive Cmd where
  | goCommand | readCommand | writeCommand | readControl | writeControl
deriving DecidableEq, Repr

/-- The number of a command. -/
def Cmd.code : Cmd → BitVec 4
  | .goCommand => 0x0
  | .readCommand => 0x1
  | .writeCommand => 0x2
  | .readControl => 0x3
  | .writeControl => 0x4

/-- The command with a number. -/
def Cmd.ofCode (c : BitVec 4) : Option Cmd :=
  if c = 0x0 then some .goCommand
  else if c = 0x1 then some .readCommand
  else if c = 0x2 then some .writeCommand
  else if c = 0x3 then some .readControl
  else if c = 0x4 then some .writeControl
  else none

/-- The access types that write: `JAT_WRITE8`, `JAT_WRITE16`, `JAT_WRITE32`. -/
def isWrite (accType : Byte) : Prop := accType = 0 ∨ accType = 1 ∨ accType = 2

/-- The access types that read: `JAT_READ8`, `JAT_READ16`, `JAT_READ32`. -/
def isRead (accType : Byte) : Prop := accType = 4 ∨ accType = 5 ∨ accType = 6

instance (accType : Byte) : Decidable (isWrite accType) :=
  inferInstanceAs (Decidable (accType = 0 ∨ accType = 1 ∨ accType = 2))

instance (accType : Byte) : Decidable (isRead accType) :=
  inferInstanceAs (Decidable (accType = 4 ∨ accType = 5 ∨ accType = 6))

/-- `JS_OK`. -/
def jsOk : Byte := 0x0
/-- `JS_CRC_IN_ERROR`. -/
def jsCrcInError : Byte := 0x1
/-- `JS_MODULE_MISSING`. -/
def jsModuleMissing : Byte := 0x2
/-- `JS_WISHBONE_ERROR`. -/
def jsWishboneError : Byte := 0x4
/-- `JS_OVER_UNDERRUN`. -/
def jsOverUnderrun : Byte := 0x8

/-! ### Responses -/

/-- `jreg[k] = v`. -/
def put (k : ℕ) (v : Byte) (jreg : Jreg) : Jreg := Function.update jreg k v

/-- `jreg[k] |= v`. -/
def orIn (k : ℕ) (v : Byte) (jreg : Jreg) : Jreg := Function.update jreg k (jreg k ||| v)

/-- `construct_response`; its lengths and their sum are `unsigned int`. -/
def constructResponse (jreg : Jreg) (status : Byte) (crcIn : Word) (ignBits zeroBits : ℕ) : Jreg :=
  let crcOut := crc32 (status.setWidth 64) 4 crcIn
  let statusR : Byte := (reverseBits (status.setWidth 64) 4).setWidth 8
  let crcOutR : Word := (reverseBits (crcOut.setWidth 64) 32).setWidth 32
  let zeroBits := zeroBits % 2 ^ 32
  let skipBits := (ignBits + zeroBits) % 2 ^ 32
  let zeroBytes := zeroBits / 8
  let zeroOff := zeroBits % 8
  let jreg : Jreg := fun k => if k < zeroBytes then 0 else jreg k
  let jreg := put zeroBytes ((jreg zeroBytes >>> zeroOff) <<< zeroOff) jreg
  let skip := skipBits / 8
  let bitOff := skipBits % 8
  if bitOff ≤ 4 then
    put (skip + 4) ((crcOutR >>> (28 - bitOff)).setWidth 8)
      (put (skip + 3) ((crcOutR >>> (20 - bitOff)).setWidth 8)
        (put (skip + 2) ((crcOutR >>> (12 - bitOff)).setWidth 8)
          (put (skip + 1) ((crcOutR >>> (4 - bitOff)).setWidth 8)
            (orIn skip (((statusR &&& 0xf#8) <<< bitOff) ||| (crcOutR <<< (4 + bitOff)).setWidth 8)
              jreg))))
  else
    put (skip + 5) ((crcOutR >>> (36 - bitOff)).setWidth 8)
      (put (skip + 4) ((crcOutR >>> (28 - bitOff)).setWidth 8)
        (put (skip + 3) ((crcOutR >>> (20 - bitOff)).setWidth 8)
          (put (skip + 2) ((crcOutR >>> (12 - bitOff)).setWidth 8)
            (put (skip + 1)
              ((statusR >>> (8 - bitOff)) ||| (crcOutR <<< (bitOff - 4)).setWidth 8)
              (orIn skip (statusR <<< bitOff) jreg)))))

/-- Store a byte that starts at bit 5 of byte `k`, without trampling adjacent bits. -/
def storeByte (k : ℕ) (byte : Byte) (jreg : Jreg) : Jreg :=
  let jreg := put k ((jreg k <<< 3) >>> 3) jreg
  let jreg := put (k + 1) ((jreg (k + 1) >>> 5) <<< 5) jreg
  orIn (k + 1) (byte >>> 3) (orIn k (byte <<< 5) jreg)

/-- The CRC of a command and its module select bit. -/
def crcOfCmd (cmd : Cmd) : Word := crc32 (cmd.code.setWidth 64) 4 (crc32 0#64 1 0xffffffff#32)

/-- A CRC field that starts at bit 5 of byte `o`. -/
def crcIn5 (jreg : Jreg) (o : ℕ) : Word := (reverseBits (word5 jreg o) 32).setWidth 32

/-- A CRC field that starts at bit 1 of byte `o`. -/
def crcIn1 (jreg : Jreg) (o : ℕ) : Word := (reverseBits (word1 jreg o) 32).setWidth 32

/-! ### `SELECT_MODULE` -/

/-- `select_module`. -/
def selectModule (t : Target) (jreg : Jreg) (numBits : ℕ) : Target × Jreg :=
  if 36 + 32 + 4 + 1 ≠ numBits then (t, jreg)
  else
    let modId : Byte := (reverseBits (((jreg 0 >>> 1) &&& 0xf#8).setWidth 64) 4).setWidth 8
    let crcComputed := crc32 (modId.setWidth 64) 4 (crc32 1#64 1 0xffffffff#32)
    if crcComputed = crcIn5 jreg 0 then
      let select (m : ModId) : Target := { t with debug := { t.debug with modId := m } }
      if modId = 0x0 then (select .wishbone, constructResponse jreg jsOk 0xffffffff#32 0 37)
      else if modId = 0x1 then (select .cpu0, constructResponse jreg jsOk 0xffffffff#32 0 37)
      else if modId = 0x2 then (select .cpu1, constructResponse jreg jsOk 0xffffffff#32 0 37)
      else
        (select .undefined, constructResponse jreg (jsOk ||| jsModuleMissing) 0xffffffff#32 0 37)
    else (t, constructResponse jreg (jsOk ||| jsCrcInError) 0xffffffff#32 0 37)

/-! ### `GO_COMMAND` -/

/-- The address of byte `i` of a transfer. -/
def Debug.byteAddr (d : Debug) (i : ℕ) : Addr := (d.addr + BitVec.ofNat 64 i).setWidth 32

/-- What a read of data leaves: the register, the CRC of the data and the status. -/
structure ReadResult where
  /-- Register. -/
  jreg : Jreg
  /-- CRC so far. -/
  crc : Word
  /-- Status so far. -/
  status : Byte

/-- One round of the loops that put a byte into the register. -/
def ReadResult.store (r : ReadResult) (i : ℕ) (byte status : Byte) : ReadResult where
  jreg := storeByte (37 / 8 + i) (reverseByte byte) r.jreg
  crc := crc32 (byte.setWidth 64) 8 r.crc
  status := status

/-- One round of `wishbone_read`. -/
def wishboneReadByte (t : Target) (r : ReadResult) (i : ℕ) : ReadResult :=
  if i < t.debug.size then
    if (t.sim.mem.verifyMemoryarea (t.debug.byteAddr i)).isNone then
      r.store i 0 (r.status ||| jsWishboneError)
    else r.store i (t.sim.mem.evalDirect8 (t.debug.byteAddr i)) r.status
  else r.store i 0 r.status

/-- `runtime.debug.addr += n` if there was no error. -/
def advance (t : Target) (status : Byte) (n : ℕ) : Target :=
  if status = jsOk then
    { t with debug := { t.debug with addr := t.debug.addr + BitVec.ofNat 64 n } }
  else t

/-- `wishbone_read`. -/
def wishboneRead (t : Target) (jreg : Jreg) (jregBytes : ℕ) (status : Byte) :
    Target × ReadResult :=
  let r := (List.range jregBytes).foldl (wishboneReadByte t) ⟨jreg, 0xffffffff#32, status⟩
  (advance t r.status t.debug.size, r)

/-- `spr_read`. -/
def sprRead (cfg : Config) (t : Target) (jreg : Jreg) (jregBytes : ℕ) (status : Byte) :
    Target × ReadResult :=
  let spr := mfspr cfg t.sim (t.debug.addr.setWidth 16)
  let r := (List.range jregBytes).foldl
    (fun (r : ReadResult) i =>
      r.store i (if i < 4 then (spr >>> (8 * i)).setWidth 8 else 0) r.status)
    ⟨jreg, 0xffffffff#32, status⟩
  (advance t r.status 1, r)

/-- `null_read`. -/
def nullRead (t : Target) (jreg : Jreg) (jregBytes : ℕ) (status : Byte) : Target × ReadResult :=
  (t, (List.range jregBytes).foldl (fun r i => r.store i 0 r.status)
    ⟨jreg, 0xffffffff#32, status⟩)

/-- The number of bytes of a transfer and the status that comes with it: a register of another
length than the `WRITE_COMMAND` asked for is an over- or underrun, in unsigned arithmetic. -/
def transferSize (size numBits : ℕ) : ℕ × Byte :=
  let regBits := 36 + 8 * size + 32 + 4 + 1
  if regBits = numBits then (size, jsOk)
  else ((size * 8 + numBits + 2 ^ 64 - regBits) % 2 ^ 64 / 8, jsOverUnderrun)

/-- `go_command_read`. -/
def goCommandRead (cfg : Config) (t : Target) (jreg : Jreg) (numBits : ℕ) : Target × Jreg :=
  let (jregBytes, status) := transferSize t.debug.size numBits
  if crcOfCmd .goCommand = crcIn5 jreg 0 then
    let (t, r) :=
      match t.debug.modId with
      | .wishbone => wishboneRead t jreg jregBytes status
      | .cpu0 => sprRead cfg t jreg jregBytes status
      | _ => nullRead t jreg jregBytes status
    (t, constructResponse r.jreg r.status r.crc (8 * jregBytes) 37)
  else (t, constructResponse jreg (status ||| jsCrcInError) 0 (8 * jregBytes) 37)

/-- The byte of data that starts at bit 5 of byte `i`. -/
def dataByte (jreg : Jreg) (i : ℕ) : Byte :=
  reverseByte ((jreg i >>> 5) ||| (jreg (i + 1) <<< 3))

/-- One round of `wishbone_write`: the memory and the status. -/
def wishboneWriteByte (d : Debug) (jreg : Jreg) (r : Memory × Byte) (i : ℕ) : Memory × Byte :=
  if i < d.size then
    if (r.1.verifyMemoryarea (d.byteAddr i)).isNone then (r.1, r.2 ||| jsWishboneError)
    else (r.1.setProgram8 (d.byteAddr i) (dataByte jreg i), r.2)
  else r

/-- `wishbone_write`. -/
def wishboneWrite (t : Target) (jreg : Jreg) (jregBytes : ℕ) (status : Byte) : Target × Byte :=
  let r := (List.range jregBytes).foldl (wishboneWriteByte t.debug jreg) (t.sim.mem, status)
  (advance { t with sim := { t.sim with mem := r.1 } } r.2 t.debug.size, r.2)

/-- `spr_write`. -/
def sprWrite (cfg : Config) (t : Target) (jreg : Jreg) (jregBytes : ℕ) (status : Byte) :
    Except Stop (Target × Byte) :=
  let spr := (List.range jregBytes).foldl
    (fun (spr : Word) i =>
      if i < 4 then spr ||| ((dataByte jreg i).setWidth 32 <<< (8 * i)) else spr) 0
  (mtspr cfg t.sim (t.debug.addr.setWidth 16) spr).map fun sim =>
    (advance { t with sim := sim } status 1, status)

/-- `go_command_write`. -/
def goCommandWrite (cfg : Config) (t : Target) (jreg : Jreg) (numBits : ℕ) :
    Except Stop (Target × Jreg) :=
  let (realSize, status) := transferSize t.debug.size numBits
  let crcComputed := (List.range realSize).foldl
    (fun crc i => crc32 (((reverseBits (byte5 jreg i) 8).setWidth 8).setWidth 64) 8 crc)
    (crcOfCmd .goCommand)
  if crcComputed = crcIn5 jreg realSize then
    let done : Except Stop (Target × Byte) :=
      match t.debug.modId with
      | .wishbone => .ok (wishboneWrite t jreg realSize status)
      | .cpu0 => sprWrite cfg t jreg realSize status
      | _ => .ok (t, status)
    done.map fun r => (r.1, constructResponse jreg r.2 0xffffffff#32 0 (37 + 8 * realSize))
  else
    .ok (t, constructResponse jreg (status ||| jsCrcInError) 0xffffffff#32 0 (37 + 8 * realSize))

/-- `go_command`. -/
def goCommand (cfg : Config) (t : Target) (jreg : Jreg) (numBits : ℕ) :
    Except Stop (Target × Jreg) :=
  if !t.debug.writeDefined then .ok (t, fun k => if k < (numBits + 7) / 8 then 0 else jreg k)
  else if isWrite t.debug.accType then goCommandWrite cfg t jreg numBits
  else if isRead t.debug.accType then .ok (goCommandRead cfg t jreg numBits)
  else .ok (t, jreg)

/-! ### `READ_COMMAND` and `WRITE_COMMAND` -/

/-- `read_command`. -/
def readCommand (t : Target) (jreg : Jreg) (numBits : ℕ) : Jreg :=
  if 88 + 32 + 4 + 1 ≠ numBits then jreg
  else if crcOfCmd .readCommand = crcIn5 jreg 0 then
    let d := t.debug
    let accType : Byte := if d.writeDefined then d.accType else 0
    let addr : Word := if d.writeDefined then d.addr.setWidth 32 else 0
    let len : BitVec 16 := if d.writeDefined then BitVec.ofNat 16 (d.size + 2 ^ 64 - 1) else 0
    let crcOut := crc32 (accType.setWidth 64) 4 0xffffffff#32
    let crcOut := crc32 (addr.setWidth 64) 32 crcOut
    let crcOut := crc32 (len.setWidth 64) 16 crcOut
    let accType : Byte := (reverseBits (accType.setWidth 64) 4).setWidth 8
    let addr : Word := (reverseBits (addr.setWidth 64) 32).setWidth 32
    let len : BitVec 16 := (reverseBits (len.setWidth 64) 16).setWidth 16
    let jreg := orIn 4 ((accType <<< 5) &&& 0xe0#8) jreg
    let jreg := orIn 5 ((accType >>> 3) &&& 0x01#8) jreg
    let jreg := orIn 5 ((addr <<< 1).setWidth 8 &&& 0xfe#8) jreg
    let jreg := orIn 6 ((addr >>> 7).setWidth 8) jreg
    let jreg := orIn 7 ((addr >>> 15).setWidth 8) jreg
    let jreg := orIn 8 ((addr >>> 23).setWidth 8) jreg
    let jreg := orIn 9 ((addr >>> 31).setWidth 8 &&& 0x01#8) jreg
    let jreg := orIn 9 ((len <<< 1).setWidth 8 &&& 0xfe#8) jreg
    let jreg := orIn 10 ((len >>> 7).setWidth 8) jreg
    let jreg := orIn 11 ((len >>> 15).setWidth 8 &&& 0x01#8) jreg
    constructResponse jreg jsOk crcOut 52 37
  else constructResponse jreg (jsOk ||| jsCrcInError) 0xffffffff#32 52 37

/-- `access_bytes`, with the access types that are known. -/
def accessBytes (accType : Byte) : Option ℕ :=
  if accType = 0 ∨ accType = 4 then some 1
  else if accType = 1 ∨ accType = 5 then some 2
  else if accType = 2 ∨ accType = 6 then some 4
  else none

/-- `validate_wb_fields`. -/
def validateWbFields (accType : Byte) (addr : Word) (size : ℕ) : Bool :=
  match accessBytes accType with
  | none => false
  | some n => decide (addr.toNat % n = 0) && decide (size % n = 0)

/-- `validate_spr_fields`. -/
def validateSprFields (accType : Byte) (size : ℕ) : Bool :=
  (decide (accType = 2) || decide (accType = 6)) && decide (size = 4)

/-- The details of a `WRITE_COMMAND` recorded. -/
def Debug.define (d : Debug) (accType : Byte) (addr : Word) (len : BitVec 16) : Debug :=
  { d with
    writeDefined := true
    accType := accType
    addr := addr.setWidth 64
    size := len.toNat + 1
    size_le := len.isLt }

/-- `runtime.debug.write_defined_p = 0`. -/
def Target.undefine (t : Target) : Target :=
  { t with debug := { t.debug with writeDefined := false } }

/-- `write_command`. -/
def writeCommand (t : Target) (jreg : Jreg) (numBits : ℕ) : Target × Jreg :=
  if 36 + 32 + 16 + 32 + 4 + 4 + 1 ≠ numBits then (t.undefine, jreg)
  else
    let accType : Byte := (reverseBits (nibble5 jreg) 4).setWidth 8
    let addr : Word := (reverseBits (word1 jreg 1) 32).setWidth 32
    let len : BitVec 16 := (reverseBits (half1 jreg 5) 16).setWidth 16
    let crcComputed := crc32 (accType.setWidth 64) 4 (crcOfCmd .writeCommand)
    let crcComputed := crc32 (addr.setWidth 64) 32 crcComputed
    let crcComputed := crc32 (len.setWidth 64) 16 crcComputed
    if crcComputed = crcIn1 jreg 7 then
      let t :=
        match t.debug.modId with
        | .wishbone =>
          if validateWbFields accType addr (len.toNat + 1) then
            { t with debug := t.debug.define accType addr len }
          else t.undefine
        | .cpu0 =>
          if validateSprFields accType (len.toNat + 1) then
            -- Oversize addresses are permitted and truncated to `MAX_SPRS`.
            { t with debug := t.debug.define accType (addr % 0x10000#32) len }
          else t.undefine
        | _ => t.undefine
      (t, constructResponse jreg jsOk 0xffffffff#32 0 89)
    else (t.undefine, constructResponse jreg (jsOk ||| jsCrcInError) 0xffffffff#32 0 89)

/-! ### `READ_CONTROL` and `WRITE_CONTROL` -/

/-- `JCB_RESET`. -/
def jcbReset : ℕ := 51
/-- `JCB_STALL`. -/
def jcbStall : ℕ := 50

/-- `read_control`. -/
def readControl (t : Target) (jreg : Jreg) (numBits : ℕ) : Jreg :=
  if 88 + 32 + 4 + 1 ≠ numBits then jreg
  else if crcOfCmd .readControl = crcIn5 jreg 0 then
    let data : BitVec 64 :=
      if t.debug.modId = .cpu0 ∧ t.sim.stalled then 1#64 <<< jcbStall else 0
    let crcOut := crc32 data 52 0xffffffff#32
    let data := reverseBits data 52
    let jreg := orIn 4 ((data <<< 5).setWidth 8 &&& 0xf8#8) jreg
    let jreg := orIn 5 ((data >>> 3).setWidth 8 &&& 0x07#8) jreg
    let jreg := orIn 6 ((data >>> 11).setWidth 8) jreg
    let jreg := orIn 7 ((data >>> 19).setWidth 8) jreg
    let jreg := orIn 8 ((data >>> 27).setWidth 8) jreg
    let jreg := orIn 9 ((data >>> 35).setWidth 8) jreg
    let jreg := orIn 10 ((data >>> 43).setWidth 8) jreg
    let jreg := orIn 11 ((data >>> 51).setWidth 8 &&& 0x01#8) jreg
    constructResponse jreg jsOk crcOut 52 37
  else constructResponse jreg (jsOk ||| jsCrcInError) 0xffffffff#32 52 37

/-- `write_control`. -/
def writeControl (cfg : Config) (t : Target) (jreg : Jreg) (numBits : ℕ) :
    Except Stop (Target × Jreg) :=
  if 36 + 32 + 52 + 4 + 1 ≠ numBits then .ok (t, jreg)
  else
    let data := reverseBits (control5 jreg) 52
    let crcComputed := crc32 data 52 (crcOfCmd .writeControl)
    if crcComputed = crcIn1 jreg 7 then
      let sim : Except Stop Sim :=
        if t.debug.modId = .cpu0 then
          if data.getLsbD jcbReset then simReset cfg t.sim
          else .ok (t.sim.setStallState (data.getLsbD jcbStall))
        else .ok t.sim
      sim.map fun sim =>
        ({ t with sim := sim }, constructResponse jreg jsOk 0xffffffff#32 0 89)
    else .ok (t, constructResponse jreg (jsOk ||| jsCrcInError) 0xffffffff#32 0 89)

/-! ### Data registers -/

/-- The command of a register. -/
def cmdOf (jreg : Jreg) : Option Cmd :=
  Cmd.ofCode ((reverseBits (((jreg 0 >>> 1) &&& 0xf#8).setWidth 64) 4).setWidth 4)

/-- `jtag_shift_dr`. -/
def jtagShiftDr (cfg : Config) (t : Target) (jreg : Jreg) (numBits : ℕ) :
    Except Stop (Target × Jreg) :=
  if t.debug.instr ≠ some jiDebug then .ok (t, jreg)
  else if jreg 0 &&& 0x1#8 = 1#8 then .ok (selectModule t jreg numBits)
  else
    match cmdOf jreg with
    | some .goCommand => goCommand cfg t jreg numBits
    | some .readCommand => .ok (t, readCommand t jreg numBits)
    | some .writeCommand => .ok (writeCommand t jreg numBits)
    | some .readControl => .ok (t, readControl t jreg numBits)
    | some .writeControl => writeControl cfg t jreg numBits
    | none => .ok (t, jreg)

end Jtag
end Or1ksim
