import Mathlib.Logic.Function.Basic
import Or1ksim.Memory.Simmem

/-!
# The ATA disks

`peripheral/atadevice.c` and `peripheral/atadevice-cmdi.c`: two disks on one cable.  Each takes
commands from its task file and moves the sectors of a file through a buffer, a word at a time.

* `Device` — a disk with its file;
* `ataSetSect`, `ataCalcLba` — sector numbers in the task file;
* `ataReadSect`, `ataWriteSect` — a sector is moved between the file and the buffer;
* `ataDeviceExecuteCmd` — the commands;
* `ataDeviceRead`, `ataDeviceWrite`, `ataDeviceHwReset` — accesses to one disk;
* `ataDevicesRead`, `ataDevicesWrite`, `ataDevicesHwReset` — and to both of them;
* `Device.step`, `Devices.step` — all that can happen to a disk, or to both.

A step is `none` where the source divides by zero or overflows an `int`.
-/

namespace Or1ksim
namespace Ata

/-! ### Constants -/

/-- `BYTES_PER_SECTOR` -/
def bytesPerSector : ℕ := 512

/-- The words of a sector. -/
def wordsPerSector : ℕ := bytesPerSector / 2

/-- `ATA_SR_BSY` -/
def srBsy : Byte := 0x80

/-- `ATA_SR_DRDY` -/
def srDrdy : Byte := 0x40

/-- `ATA_SR_DSC` -/
def srDsc : Byte := 0x10

/-- `ATA_SR_DRQ`: data is requested. -/
def srDrq : Byte := 0x08

/-- `ATA_SR_ERR` -/
def srErr : Byte := 0x01

/-- `ATA_DCR_RST` -/
def dcrRst : Byte := 0x04

/-- `ATA_DCR_IEN` -/
def dcrIen : Byte := 0x02

/-- `ATA_DHR_LBA` -/
def dhrLba : Byte := 0x40

/-- `ATA_DHR_DEV` -/
def dhrDev : Byte := 0x10

/-- `ATA_DHR_H` -/
def dhrH : Byte := 0x0f

/-- `ATA_ERR_IDNF` -/
def errIdnf : Byte := 0x10

/-- `ATA_ERR_ABT` -/
def errAbt : Byte := 0x04

/-- `DEVICE_RESET` -/
def cmdDeviceReset : Byte := 0x08

/-- `READ_SECTORS` -/
def cmdReadSectors : Byte := 0x20

/-- `WRITE_SECTORS` -/
def cmdWriteSectors : Byte := 0x30

/-- `EXECUTE_DEVICE_DIAGNOSTICS` -/
def cmdExecuteDeviceDiagnostics : Byte := 0x90

/-- `INITIALIZE_DEVICE_PARAMETERS` -/
def cmdInitializeDeviceParameters : Byte := 0x91

/-- `IDENTIFY_DEVICE` -/
def cmdIdentifyDevice : Byte := 0xEC

/-- `SET_FEATURES` -/
def cmdSetFeatures : Byte := 0xEF

/-- `READ_NATIVE_MAX_ADDRESS` -/
def cmdReadNativeMaxAddress : Byte := 0xF8

/-- `SET_TRANSFER_MODE_SECTOR_COUNT_REG` -/
def setTransferModeSectorCountReg : Byte := 0x03

/-! ### A disk -/

/-- The registers that can be read. -/
inductive ReadReg where
  /-- `ATA_ASR`, the alternate status. -/
  | asr
  /-- `ATA_CHR`, the upper byte of the cylinder. -/
  | chr
  /-- `ATA_CLR`, the lower byte of the cylinder. -/
  | clr
  /-- `ATA_DR`, the data port. -/
  | dr
  /-- `ATA_DHR`, the device and the head. -/
  | dhr
  /-- `ATA_ERR` -/
  | err
  /-- `ATA_SCR`, the sector count. -/
  | scr
  /-- `ATA_SNR`, the sector number. -/
  | snr
  /-- `ATA_SR`, the status. -/
  | sr
deriving DecidableEq

/-- The registers that can be written. -/
inductive WriteReg where
  /-- `ATA_CR`, the command. -/
  | cr
  /-- `ATA_CHR` -/
  | chr
  /-- `ATA_CLR` -/
  | clr
  /-- `ATA_DR` -/
  | dr
  /-- `ATA_DCR`, the device control. -/
  | dcr
  /-- `ATA_DHR` -/
  | dhr
  /-- `ATA_FR`, the features. -/
  | fr
  /-- `ATA_SCR` -/
  | scr
  /-- `ATA_SNR` -/
  | snr
deriving DecidableEq

/-- The `ATA_STATE_` of a disk. -/
inductive Phase where
  | idle
  | swRst
  | hwRst
deriving DecidableEq

/-- The functions that `end_t_func` can point to. -/
inductive EndTFunc where
  | readSect
  | writeSect
deriving DecidableEq

/-- `internals` -/
structure Internals where
  /-- The device number, 0 or `ATA_DHR_DEV`. -/
  dev : Byte
  dbuf : ℕ → Half
  /-- `dbuf_ptr`, as an index into `dbuf`. -/
  dbufPtr : ℕ
  dbufCnt : Half
  state : Phase
  headsPerCylinder : Word
  sectorsPerTrack : Word
  /-- The byte in the file that is moved next. -/
  lba : Word
  /-- The number of sectors still to be moved; never negative. -/
  nrSect : ℕ
  /-- What is called when the buffer has been moved. -/
  endTFunc : Option EndTFunc

/-- `regs` -/
@[ext]
structure Regs where
  command : Byte
  cylinderLow : Byte
  cylinderHigh : Byte
  deviceControl : Byte
  deviceHead : Byte
  error : Byte
  features : Byte
  sectorCount : Byte
  sectorNumber : Byte
  status : Byte
  dataportI : Half
deriving DecidableEq

/-- `sigs` -/
structure Sigs where
  iordy : Bool
  intrq : Bool
  dmarq : Bool
  pdiagi : Bool
  pdiago : Bool
  daspi : Bool
  daspo : Bool
deriving DecidableEq

/-- `conf` -/
structure Conf where
  /-- There is a `stream`. -/
  connected : Bool
  /-- The size in bytes. -/
  size : Word
  /-- The disk implements the PACKET command set. -/
  packet : Bool
  heads : Word
  sectors : Word
  firmware : List Byte
  mwdma : Word
  pio : Word
deriving DecidableEq

/-- `size_sect`, the size in sectors. -/
def Conf.sizeSect (conf : Conf) : Word := conf.size / BitVec.ofNat 32 bytesPerSector

/-- An access to the file, of the bytes of a sector. -/
structure FileAccess where
  write : Bool
  offset : ℕ
deriving DecidableEq

/-- `struct ata_device`, with its file and what it has done to the outside world. -/
structure Device where
  internals : Internals
  regs : Regs
  sigs : Sigs
  conf : Conf
  /-- The contents of the file. -/
  file : List Byte
  /-- The accesses to the file, the latest first. -/
  accesses : List FileAccess
  /-- The delays after which `ata_cmd_complete` was scheduled, the latest first. -/
  completions : List ℕ
  /-- The number of calls of `ata_int`. -/
  interrupts : ℕ

namespace Device

/-- The status register is set. -/
def setStatus (d : Device) (v : Byte) : Device := { d with regs := { d.regs with status := v } }

/-- The error register is set. -/
def setError (d : Device) (v : Byte) : Device := { d with regs := { d.regs with error := v } }

/-- `SCHED_ADD (ata_cmd_complete, dev, delay)` -/
def complete (d : Device) (delay : ℕ) : Device := { d with completions := delay :: d.completions }

/-- The data request bit of the status. -/
def Drq (d : Device) : Prop := d.regs.status &&& srDrq ≠ 0

instance (d : Device) : Decidable d.Drq := inferInstanceAs (Decidable (_ ≠ _))

/-- The disk is the selected one. -/
def Selected (d : Device) : Prop := d.regs.deviceHead &&& dhrDev = d.internals.dev

instance (d : Device) : Decidable d.Selected := inferInstanceAs (Decidable (_ = _))

/-- The sectors are addressed by their number. -/
def Lba (d : Device) : Prop := d.regs.deviceHead &&& dhrLba ≠ 0

instance (d : Device) : Decidable d.Lba := inferInstanceAs (Decidable (_ ≠ _))

end Device

/-! ### Sectors -/

/-- `ata_cmd_complete` -/
def ataCmdComplete (d : Device) : Device :=
  let d := d.setStatus (d.regs.status &&& ~~~srBsy)
  if d.regs.deviceControl &&& dcrIen ≠ 0 then d
  else if ¬d.Selected then d
  else if d.sigs.intrq then d
  else { d with sigs := { d.sigs with intrq := true }, interrupts := d.interrupts + 1 }

/-- The address registers are set; only the head is replaced in the device/head register. -/
def Device.setAddress (d : Device) (number low high head : Byte) : Device :=
  { d with
    regs := { d.regs with
      sectorNumber := number
      cylinderLow := low
      cylinderHigh := high
      deviceHead := (d.regs.deviceHead &&& ~~~dhrH) ||| (head &&& 0xf) } }

/-- `ata_set_sect` -/
def ataSetSect (sect : Word) (d : Device) : Option Device :=
  if d.regs.deviceHead &&& ~~~dhrH &&& dhrLba ≠ 0 then
    some (d.setAddress (sect.setWidth 8) ((sect >>> 8).setWidth 8) ((sect >>> 16).setWidth 8)
      ((sect >>> 24).setWidth 8))
  else
    let perCylinder := d.conf.heads * d.conf.sectors
    if perCylinder = 0 then none
    else
      let cyl : Half := (sect / perCylinder).setWidth 16
      let track : Half := (sect % perCylinder).setWidth 16
      some (d.setAddress ((track.setWidth 32 % d.conf.sectors + 1).setWidth 8) (cyl.setWidth 8)
        ((cyl >>> 8).setWidth 8) ((track.setWidth 32 / d.conf.sectors).setWidth 8))

/-- `ata_calc_lba` -/
def ataCalcLba (d : Device) : Word :=
  let head : Word := (d.regs.deviceHead &&& dhrH).setWidth 32
  let high : Word := d.regs.cylinderHigh.setWidth 32
  let low : Word := d.regs.cylinderLow.setWidth 32
  let number : Word := d.regs.sectorNumber.setWidth 32
  if d.Lba then (head <<< 24) ||| (high <<< 16) ||| (low <<< 8) ||| number
  else
    (((high <<< 16) ||| low) * d.internals.headsPerCylinder + head) *
      d.internals.sectorsPerTrack + number - 1

/-- Two bytes in memory, the first one at the lower address, as a word of the host. -/
def halfOf (b0 b1 : Byte) : Half := b1 ++ b0

/-- `fread` of a sector into the buffer; beyond the end of the file the buffer stays as it is. -/
def freadInto (file : List Byte) (offset : ℕ) (dbuf : ℕ → Half) : ℕ → Half := fun i =>
  if i < wordsPerSector then
    halfOf (file.getD (offset + 2 * i) ((dbuf i).setWidth 8))
      (file.getD (offset + 2 * i + 1) ((dbuf i >>> 8).setWidth 8))
  else dbuf i

/-- `fwrite` of a sector; a file that is too short is filled up with zeros. -/
def fwriteFrom (file : List Byte) (offset : ℕ) (dbuf : ℕ → Half) : List Byte :=
  let old := file ++ List.replicate (offset - file.length) 0
  old.take offset ++
    ((List.range wordsPerSector).flatMap fun i =>
      [(dbuf i).setWidth 8, (dbuf i >>> 8).setWidth 8]) ++
    old.drop (offset + bytesPerSector)

/-- The buffer is reset, and the next sector is due. -/
def Internals.nextSector (s : Internals) : Internals :=
  { s with
    dbufCnt := BitVec.ofNat 16 wordsPerSector
    dbufPtr := 0
    lba := s.lba + BitVec.ofNat 32 bytesPerSector
    nrSect := s.nrSect - 1 }

/-- `ata_read_sect` -/
def ataReadSect (d : Device) : Device :=
  if d.internals.nrSect = 0 then d
  else
    let offset := d.internals.lba.toNat
    { d with
      internals := { d.internals with
        dbuf := freadInto d.file offset d.internals.dbuf }.nextSector
      regs := { d.regs with status := srDrdy ||| srDrq }
      accesses := ⟨false, offset⟩ :: d.accesses }.complete 400000

/-- `ata_write_sect` -/
def ataWriteSect (d : Device) : Device :=
  if d.internals.nrSect = 0 then d.setStatus srDrdy
  else
    let offset := d.internals.lba.toNat
    { d with
      internals := d.internals.nextSector
      regs := { d.regs with
        status := if d.internals.nrSect - 1 = 0 then srDrdy ||| srDsc ||| srBsy
          else srDrdy ||| srDrq ||| srDsc ||| srBsy }
      file := fwriteFrom d.file offset d.internals.dbuf
      accesses := ⟨true, offset⟩ :: d.accesses }.complete 40000

/-- The call of `end_t_func`. -/
def EndTFunc.call : EndTFunc → Device → Device
  | .readSect => ataReadSect
  | .writeSect => ataWriteSect

/-! ### Commands -/

/-- `ata_set_device_signature` -/
def ataSetDeviceSignature (packet : Bool) (d : Device) : Device :=
  if packet then
    { d with regs := { d.regs with
        sectorCount := 0x01, sectorNumber := 0x01, cylinderLow := 0x14, cylinderHigh := 0xEB } }
  else
    { d with regs := { d.regs with
        sectorCount := 0x01, sectorNumber := 0x01, cylinderLow := 0x00, cylinderHigh := 0x00,
        deviceHead := 0x00 } }

/-- `ata_execute_device_diagnostics_cmd` -/
def ataExecuteDeviceDiagnosticsCmd (d : Device) : Device :=
  let d := { d with regs := { d.regs with
    deviceControl := d.regs.deviceControl &&& ~~~dcrRst, error := 0x01 } }
  let d := ataSetDeviceSignature d.conf.packet d
  let d :=
    if d.conf.packet then
      { d with regs := { d.regs with
          status := d.regs.status &&& 0xf8
          deviceHead :=
            if d.regs.command = cmdDeviceReset then d.regs.deviceHead &&& dhrLba else 0x00 } }
    else d.setStatus (d.regs.status &&& 0x82)
  { d with sigs := { d.sigs with pdiago := true } }

/-- `ata_device_reset_cmd` -/
def ataDeviceResetCmd (d : Device) : Device := ataExecuteDeviceDiagnosticsCmd d

/-- The abort of a command that a PACKET disk does not know. -/
def abortPacket (status : Byte) (d : Device) : Device :=
  ((ataSetDeviceSignature true d).setStatus status).setError errAbt

/-- The number of cylinders of a size, where there is one head more than is said. -/
def cylinders (size heads sectors : Word) : Option Word :=
  let perCylinder := (heads + 1) * sectors
  if perCylinder = 0 then none
  else some (if 65535 < size / perCylinder then 65535 else size / perCylinder)

/-- Word 1, the number of logical cylinders. -/
def logicalCylinders (conf : Conf) : Option Word :=
  if 16514064 ≤ conf.sizeSect then some 16383
  else cylinders conf.sizeSect conf.heads conf.sectors

/-- Word 54, the number of current logical cylinders. -/
def currentCylinders (d : Device) : Option Word :=
  cylinders (if 16514064 < d.conf.sizeSect then 16514064 else d.conf.sizeSect)
    d.internals.headsPerCylinder d.internals.sectorsPerTrack

/-- Words 57 and 58, the current capacity: a product of three `unsigned short`, as an `int`. -/
def currentCapacity (cyl heads sectors : Half) : Option Word :=
  let capacity := cyl.toNat * heads.toNat * sectors.toNat
  if capacity < 2 ^ 31 then some (BitVec.ofNat 32 capacity) else none

/-- `(c << 8) | c'` -/
def twoChars (c c' : Char) : Half := BitVec.ofNat 16 (c.toNat * 256 + c'.toNat)

/-- Words 10 to 19, the serial number. -/
def serialNumber : List Half :=
  [twoChars ' ' 'w', twoChars 'w' 'w', twoChars '.' 'o', twoChars 'p' 'e', twoChars 'n' 'c',
    twoChars 'o' 'r', twoChars 'e' 's', twoChars '.' 'o', twoChars 'r' 'g', twoChars ' ' ' ']

/-- Words 27 to 46, the model number. -/
def modelNumber : List Half :=
  [twoChars ' ' 'a', twoChars 't' 'a', twoChars ' ' 'd', twoChars 'e' 'v', twoChars 'i' 'c',
    twoChars 'e' ' ', twoChars 'm' 'o', twoChars 'd' 'e', twoChars 'l' ' ', twoChars ' ' '(',
    twoChars 'C' ')', twoChars 'R' 'i', twoChars 'c' 'h', twoChars 'a' 'r', twoChars 'd' ' ',
    twoChars 'H' 'e', twoChars 'r' 'v', twoChars 'e' 'i', twoChars 'l' 'l', twoChars 'e' ' ']

/-- Word 63, the DMA settings; the mode is unsigned, so that it is never below 0. -/
def dmaSettings (mwdma : Word) : Half :=
  0x1 ||| (if 1 ≤ mwdma then 0x2 else 0) ||| (if 2 ≤ mwdma then 0x4 else 0)

/-- Word 64, the PIO modes. -/
def pioModes (pio : Word) : Half :=
  (if 3 ≤ pio then 0x1 else 0) ||| (if 4 ≤ pio then 0x2 else 0)

/-- A signal as a bit of a word. -/
def sigBit (b : Bool) (k : ℕ) : Half := if b then BitVec.twoPow 16 k else 0

/-- Word 93, the hardware reset result. -/
def resetResult (d : Device) : Half :=
  if d.internals.dev ≠ 0 then 0x4700 ||| sigBit d.sigs.pdiago 11
  else 0x000f ||| sigBit d.sigs.daspi 5 ||| sigBit d.sigs.pdiagi 4

/-- The words that `IDENTIFY_DEVICE` puts into the buffer, without the integrity word. -/
def identifyWord (d : Device) (cyl current capacity : Word) : ℕ → Option Half
  | 0 => some 0x0040
  | 1 => some (cyl.setWidth 16)
  | 2 => some 0xc837
  | 3 => some (d.conf.heads.setWidth 16)
  | 6 => some (d.conf.sectors.setWidth 16)
  | 47 => some 0x8001
  | 49 => some 0x0f00
  | 50 => some 0x4000
  | 53 => some 0x0007
  | 54 => some (current.setWidth 16)
  | 55 => some ((d.internals.headsPerCylinder + 1).setWidth 16)
  | 56 => some (d.internals.sectorsPerTrack.setWidth 16)
  | 57 => some ((capacity >>> 16).setWidth 16)
  | 58 => some (capacity.setWidth 16)
  | 59 => some 0x0001
  | 60 => some (d.conf.sizeSect.setWidth 16)
  | 61 => some ((d.conf.sizeSect >>> 16).setWidth 16)
  | 63 => some (dmaSettings d.conf.mwdma)
  | 64 => some (pioModes d.conf.pio)
  | 65 | 66 | 67 | 68 => some 100
  | 75 => some 0
  | 80 => some 0
  | 81 => some 0x0013
  | 82 | 85 => some 0x0200
  | 83 | 84 | 87 => some 0x4000
  | 86 => some 0
  | 88 | 89 | 90 | 91 | 92 => some 0
  | 93 => some (resetResult d)
  | 127 | 128 | 160 => some 0
  | i =>
    if 10 ≤ i ∧ i < 20 then serialNumber[i - 10]?
    else if 23 ≤ i ∧ i < 27 then
      some (halfOf (d.conf.firmware.getD (2 * (i - 23)) 0)
        (d.conf.firmware.getD (2 * (i - 23) + 1) 0))
    else if 27 ≤ i ∧ i < 47 then modelNumber[i - 27]?
    else none

/-- The sum of the bytes of the first 255 words and of the signature. -/
def checksum (buf : ℕ → Half) : Byte :=
  (List.range 255).foldl (fun sum i => sum + (buf i).setWidth 8 + (buf i >>> 8).setWidth 8) 0xa5

/-- `ata_identify_device_cmd` -/
def ataIdentifyDeviceCmd (d : Device) : Option Device :=
  let d := { d with internals := { d.internals with
    dbufCnt := 256, dbufPtr := 0, endTFunc := none } }
  if d.conf.packet then some (abortPacket srErr d)
  else
    (logicalCylinders d.conf).bind fun cyl =>
    (currentCylinders d).bind fun current =>
    (currentCapacity (current.setWidth 16) ((d.internals.headsPerCylinder + 1).setWidth 16)
      (d.internals.sectorsPerTrack.setWidth 16)).bind fun capacity =>
    let buf := fun i => (identifyWord d cyl current capacity i).getD (d.internals.dbuf i)
    let integrity : Half := (0 - checksum buf) ++ (0xa5 : Byte)
    some ({ d with internals := { d.internals with
      dbuf := Function.update buf 255 integrity } }.setStatus (srDrdy ||| srDrq))

/-- `ata_initialize_device_parameters_cmd` -/
def ataInitializeDeviceParametersCmd (d : Device) : Device :=
  { d with
    internals := { d.internals with
      sectorsPerTrack := d.regs.sectorCount.setWidth 32
      headsPerCylinder := (d.regs.deviceHead &&& dhrH).setWidth 32 }
    regs := { d.regs with status := srBsy ||| srDrdy } }

/-- The sector count; 0 means 256. -/
def sectorCount (d : Device) : ℕ :=
  if d.regs.sectorCount = 0 then 256 else d.regs.sectorCount.toNat

/-- The start of a transfer, if the first sector is on the disk. -/
def startTransfer (f : EndTFunc) (d : Device) : Option Device :=
  if d.conf.packet then none
  else if d.conf.sizeSect ≤ ataCalcLba d then none
  else some { d with internals := { d.internals with
      lba := ataCalcLba d * BitVec.ofNat 32 bytesPerSector
      nrSect := sectorCount d
      endTFunc := some f } }

/-- What becomes of a transfer that does not start. -/
def refuseTransfer (d : Device) : Device :=
  if d.conf.packet then abortPacket (srErr ||| srDrdy) d
  else (d.setStatus (srDrdy ||| srErr)).setError errIdnf

/-- `ata_read_sectors_cmd` -/
def ataReadSectorsCmd (d : Device) : Device :=
  match startTransfer .readSect d with
  | none => refuseTransfer d
  | some d => ataReadSect d

/-- `ata_read_native_max_addr` -/
def ataReadNativeMaxAddr (d : Device) : Option Device :=
  (ataSetSect (d.conf.size <<< 11) d).map fun d => d.setStatus (srDrdy ||| srBsy)

/-- `ata_write_sectors` -/
def ataWriteSectors (d : Device) : Device :=
  match startTransfer .writeSect d with
  | none => refuseTransfer d
  | some d =>
    { d with
      internals := { d.internals with
        dbufCnt := BitVec.ofNat 16 wordsPerSector
        dbufPtr := 0 }
      regs := { d.regs with status := srBsy ||| srDrdy ||| srDrq } }

/-- `ata_set_features` -/
def ataSetFeatures (d : Device) : Device :=
  if d.regs.features = setTransferModeSectorCountReg then d.setStatus (srDsc ||| srDrdy ||| srBsy)
  else (d.setError errAbt).setStatus (srErr ||| srBsy ||| srDrdy)

/-- `ata_device_execute_cmd` -/
def ataDeviceExecuteCmd (d : Device) : Option Device :=
  if d.regs.command = cmdDeviceReset then some ((ataDeviceResetCmd d).complete 4000000)
  else if d.regs.command = cmdExecuteDeviceDiagnostics then
    some ((ataExecuteDeviceDiagnosticsCmd d).complete 4000000)
  else if d.regs.command = cmdIdentifyDevice then ataIdentifyDeviceCmd d
  else if d.regs.command = cmdInitializeDeviceParameters then
    some ((ataInitializeDeviceParametersCmd d).complete 400000)
  else if d.regs.command = cmdReadSectors then some (ataReadSectorsCmd d)
  else if d.regs.command = cmdReadNativeMaxAddress then
    (ataReadNativeMaxAddr d).map fun d => d.complete 40000
  else if d.regs.command = cmdWriteSectors then some ((ataWriteSectors d).complete 40000)
  else if d.regs.command = cmdSetFeatures then some ((ataSetFeatures d).complete 4000)
  else some (((d.setError errAbt).setStatus (srErr ||| srBsy ||| srDrdy)).complete 40000)

/-! ### One disk -/

/-- The end of a reset. -/
def endReset (d : Device) : Device :=
  let d := ataExecuteDeviceDiagnosticsCmd d
  let d := d.setStatus (d.regs.status &&& ~~~srBsy)
  let d := if d.conf.packet then d else d.setStatus (d.regs.status ||| srDrdy)
  { d with internals := { d.internals with state := .idle } }

/-- `ata_device_hw_reset` -/
def ataDeviceHwReset (resetSignal daspo pdiagi daspi : Bool) (d : Device) : Device :=
  if d.internals.state = .hwRst then
    if resetSignal then d
    else
      endReset { d with
        internals := { d.internals with
          sectorsPerTrack := d.conf.sectors, headsPerCylinder := d.conf.heads }
        sigs := { d.sigs with pdiagi := pdiagi, daspi := daspi } }
  else if resetSignal then
    { d with
      sigs := { d.sigs with
        iordy := false, intrq := false, dmarq := false, pdiago := false, daspo := daspo }
      regs := { d.regs with status := d.regs.status ||| srBsy }
      internals := { d.internals with state := .hwRst } }
  else d

/-- `ata_device_do_control_register` -/
def ataDeviceDoControlRegister (d : Device) : Device :=
  if d.regs.deviceControl &&& dcrRst ≠ 0 then
    if d.internals.state = .idle then
      { d with
        sigs := { d.sigs with pdiago := false, intrq := false, iordy := false, dmarq := false }
        regs := { d.regs with status := d.regs.status ||| srBsy }
        internals := { d.internals with state := .swRst } }
    else d
  else if d.internals.state = .swRst then endReset d
  else d

/-- `ata_device_do_command_register` -/
def ataDeviceDoCommandRegister (d : Device) : Option Device :=
  if d.Selected ∨ d.regs.command = cmdExecuteDeviceDiagnostics then ataDeviceExecuteCmd d
  else some d

/-- `LE16` -/
def le16 (v : Half) : Half := v.setWidth 8 ++ (v >>> 8).setWidth 8

/-- A word has gone through the data port. -/
def advanceData (d : Device) : Device :=
  let d := { d with internals := { d.internals with
    dbufPtr := d.internals.dbufPtr + 1, dbufCnt := d.internals.dbufCnt - 1 } }
  if d.internals.dbufCnt = 0 then
    let d := d.setStatus (d.regs.status &&& ~~~srDrq)
    match d.internals.endTFunc with
    | some f => f.call d
    | none => d
  else d

/-- `ata_devices_read`, of the disk that answers. -/
def ataDeviceRead (r : ReadReg) (d : Device) : Half × Device :=
  match r with
  | .asr => (if d.Selected then d.regs.status.setWidth 16 else 0, d)
  | .chr => (d.regs.cylinderHigh.setWidth 16, d)
  | .clr => (d.regs.cylinderLow.setWidth 16, d)
  | .dr =>
    if d.Drq then (le16 (d.internals.dbuf d.internals.dbufPtr), advanceData d) else (0, d)
  | .dhr => (d.regs.deviceHead.setWidth 16, d)
  | .err => (d.regs.error.setWidth 16, d)
  | .scr => (d.regs.sectorCount.setWidth 16, d)
  | .snr => (d.regs.sectorNumber.setWidth 16, d)
  | .sr =>
    if d.Selected then
      (d.regs.status.setWidth 16, { d with sigs := { d.sigs with intrq := false } })
    else (0, d)

/-- A write of the data port. -/
def writeData (value : Half) (d : Device) : Device :=
  if d.Drq then
    let d := advanceData { d with internals := { d.internals with
      dbuf := Function.update d.internals.dbuf d.internals.dbufPtr (le16 value) } }
    { d with regs := { d.regs with dataportI := value } }
  else d

/-- `ata_device_write` -/
def ataDeviceWrite (r : WriteReg) (value : Half) (d : Device) : Option Device :=
  match r with
  | .cr => ataDeviceDoCommandRegister { d with regs := { d.regs with command := value.setWidth 8 } }
  | .chr => some { d with regs := { d.regs with cylinderHigh := value.setWidth 8 } }
  | .clr => some { d with regs := { d.regs with cylinderLow := value.setWidth 8 } }
  | .dr => some (writeData value d)
  | .dcr =>
    some (ataDeviceDoControlRegister
      { d with regs := { d.regs with deviceControl := value.setWidth 8 } })
  | .dhr => some { d with regs := { d.regs with deviceHead := value.setWidth 8 } }
  | .fr => some { d with regs := { d.regs with features := value.setWidth 8 } }
  | .scr => some { d with regs := { d.regs with sectorCount := value.setWidth 8 } }
  | .snr => some { d with regs := { d.regs with sectorNumber := value.setWidth 8 } }

/-- `ata_device_init`, of a disk whose structure is zeroed, on a file: the size of the file is the
size of the disk. -/
def ataDeviceInit (conf : Conf) (file : List Byte) (dev : Byte) : Device where
  internals := ⟨dev, fun _ => 0, 0, 0, .idle, 0, 0, 0, 0, none⟩
  regs := ⟨0, 0, 0, 0, 0, 0, 0, 0, 0, 0, 0⟩
  sigs := ⟨false, false, false, false, false, false, false⟩
  conf := if conf.connected then { conf with size := BitVec.ofNat 32 file.length } else conf
  file := file
  accesses := []
  completions := []
  interrupts := 0

/-! ### Both disks -/

/-- `struct ata_devices` -/
structure Devices where
  device0 : Device
  device1 : Device

namespace Devices

/-- The disk that answers when a register is read: with two of them it is the one that is selected
in the task file of the second. -/
def second (ds : Devices) : Bool :=
  if ds.device0.conf.connected && ds.device1.conf.connected then
    decide (ds.device1.regs.deviceHead &&& dhrDev ≠ 0)
  else ds.device1.conf.connected

end Devices

/-- `ata_devices_init`; `typed` tells whether the first disk is configured at all. -/
def ataDevicesInit (typed : Bool) (conf0 conf1 : Conf) (file0 file1 : List Byte) : Devices :=
  ⟨ataDeviceInit conf0 file0 0, ataDeviceInit conf1 file1 (if typed then dhrDev else 0)⟩

/-- `ata_devices_hw_reset` -/
def ataDevicesHwReset (resetSignal : Bool) (ds : Devices) : Devices :=
  if ds.device0.conf.connected ∧ ds.device1.conf.connected then
    let device1 := ataDeviceHwReset resetSignal true false false ds.device1
    ⟨ataDeviceHwReset resetSignal false device1.sigs.pdiago device1.sigs.daspo ds.device0, device1⟩
  else if ds.device0.conf.connected then
    { ds with device0 := ataDeviceHwReset resetSignal false false false ds.device0 }
  else if ds.device1.conf.connected then
    { ds with device1 := ataDeviceHwReset resetSignal false false false ds.device1 }
  else ds

/-- `ata_devices_read` -/
def ataDevicesRead (r : ReadReg) (ds : Devices) : Half × Devices :=
  if ¬ds.device0.conf.connected ∧ ¬ds.device1.conf.connected then (0, ds)
  else if ds.second then
    let (v, d) := ataDeviceRead r ds.device1
    (v, { ds with device1 := d })
  else
    let (v, d) := ataDeviceRead r ds.device0
    (v, { ds with device0 := d })

/-- A write to a disk that is there. -/
def writeConnected (r : WriteReg) (value : Half) (d : Device) : Option Device :=
  if d.conf.connected then ataDeviceWrite r value d else some d

/-- `ata_devices_write` -/
def ataDevicesWrite (r : WriteReg) (value : Half) (ds : Devices) : Option Devices :=
  (writeConnected r value ds.device0).bind fun device0 =>
    (writeConnected r value ds.device1).map fun device1 => ⟨device0, device1⟩

/-! ### Runs -/

/-- What can happen to a disk. -/
inductive Event where
  | read (r : ReadReg)
  | write (r : WriteReg) (value : Half)
  /-- The reset line, with what the other disk drives. -/
  | hwReset (resetSignal daspo pdiagi daspi : Bool)
  /-- The job `ata_cmd_complete` is due. -/
  | complete

/-- A step of one disk. -/
def Device.step (d : Device) : Event → Option Device
  | .read r => some (ataDeviceRead r d).2
  | .write r value => ataDeviceWrite r value d
  | .hwReset resetSignal daspo pdiagi daspi =>
    some (ataDeviceHwReset resetSignal daspo pdiagi daspi d)
  | .complete => some (ataCmdComplete d)

/-- What can happen on the cable. -/
inductive CableEvent where
  | read (r : ReadReg)
  | write (r : WriteReg) (value : Half)
  | hwReset (resetSignal : Bool)
  /-- The job `ata_cmd_complete` of a disk is due. -/
  | complete (second : Bool)

/-- A step of both disks. -/
def Devices.step (ds : Devices) : CableEvent → Option Devices
  | .read r => some (ataDevicesRead r ds).2
  | .write r value => ataDevicesWrite r value ds
  | .hwReset resetSignal => some (ataDevicesHwReset resetSignal ds)
  | .complete second =>
    some (if second then { ds with device1 := ataCmdComplete ds.device1 }
      else { ds with device0 := ataCmdComplete ds.device0 })

/-- What each step of one disk keeps, a step of both of them keeps for each. -/
theorem Devices.step_keeps {P : Device → Prop}
    (hP : ∀ {d t e}, P d → Device.step d e = some t → P t) {ds ts : Devices} {e : CableEvent}
    (hds : P ds.device0 ∧ P ds.device1) (h : ds.step e = some ts) :
    P ts.device0 ∧ P ts.device1 := by
  obtain ⟨h0, h1⟩ := hds
  cases e with
  | read r =>
    cases h
    unfold ataDevicesRead
    split_ifs with hnone hsecond
    · exact ⟨h0, h1⟩
    · exact ⟨h0, hP (e := .read r) h1 rfl⟩
    · exact ⟨hP (e := .read r) h0 rfl, h1⟩
  | write r value =>
    have hwrite : ∀ {d t}, P d → writeConnected r value d = some t → P t := by
      intro d t hd ht
      unfold writeConnected at ht
      split_ifs at ht with hthere
      · exact hP (e := .write r value) hd ht
      · cases ht
        exact hd
    obtain ⟨d0, hd0, h⟩ := Option.bind_eq_some_iff.1 h
    obtain ⟨d1, hd1, rfl⟩ := Option.map_eq_some_iff.1 h
    exact ⟨hwrite h0 hd0, hwrite h1 hd1⟩
  | hwReset resetSignal =>
    cases h
    unfold ataDevicesHwReset
    split_ifs with hboth hfirst hlast
    · exact ⟨hP (e := .hwReset ..) h0 rfl, hP (e := .hwReset ..) h1 rfl⟩
    · exact ⟨hP (e := .hwReset ..) h0 rfl, h1⟩
    · exact ⟨h0, hP (e := .hwReset ..) h1 rfl⟩
    · exact ⟨h0, h1⟩
  | complete second =>
    cases h
    cases second with
    | true => exact ⟨h0, hP (e := .complete) h1 rfl⟩
    | false => exact ⟨hP (e := .complete) h0 rfl, h1⟩

end Ata
end Or1ksim
