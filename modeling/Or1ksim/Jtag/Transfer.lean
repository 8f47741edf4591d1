import Or1ksim.Jtag.Response
import Or1ksim.Memory.BigEndian

/-!
# Wishbone transfers

A block of memory is written and read back through the JTAG interface: `WRITE_COMMAND` says where
and how much, and the data are in the `GO_COMMAND` register, from bit 5 on when they are written and
from bit 37 on when they are read.

* `Carries` — a register with a request and its CRC;
* `writeCommand_wishbone`, `goCommandWrite_wishbone`, `goCommandRead_wishbone` — what each register
  does;
* `wishbone_roundTrip` — **a block that is written is read back**.
-/

namespace Or1ksim
namespace Jtag

open Cpu

/-! ### Registers with a request -/

/-- The register holds the request and its CRC; what comes after them is ignored. -/
def Carries (jreg : Jreg) (request : List Bool) : Prop :=
  bits jreg 0 (request.length + 32) = request ++ msbFirst (crcOfBits request)

/-- The bits of a `WRITE_COMMAND`. -/
def writeCommandBits (accType : BitVec 4) (addr : Word) (len : BitVec 16) : List Bool :=
  [false] ++ msbFirst Cmd.writeCommand.code ++ msbFirst accType ++ msbFirst addr ++ msbFirst len

/-- The bits of a `GO_COMMAND` with data. -/
def goCommandBits (data : List Byte) : List Bool :=
  [false] ++ msbFirst Cmd.goCommand.code ++ data.flatMap msbFirst

variable {jreg : Jreg}

theorem bits_eq_append {off m n : ℕ} {x y : List Bool} (hx : x.length = m)
    (h : bits jreg off (m + n) = x ++ y) : bits jreg off m = x ∧ bits jreg (off + m) n = y := by
  rw [bits_add] at h
  exact List.append_inj h (by rw [length_bits, hx])

theorem Carries.crcOk {request : List Bool} (h : Carries jreg request) :
    bits jreg 0 request.length = request ∧
      bits jreg request.length 32 = msbFirst (crcOfBits request) := by
  obtain ⟨hreq, hcrc⟩ := bits_eq_append rfl h
  rw [Nat.zero_add] at hcrc
  exact ⟨hreq, hcrc⟩

theorem cmdOf_of_bits {cmd : Cmd} (h : bits jreg 1 4 = msbFirst cmd.code) :
    cmdOf jreg = some cmd := by
  have hcode : msbFirst ((reverseBits (((jreg 0 >>> 1) &&& 0xf#8).setWidth 64) 4).setWidth 4) =
      bits jreg 1 4 := msbFirst_reverseBits (by decide) fun _ hi => getLsbD_nibble1 jreg hi
  rw [cmdOf, msbFirst_injective (hcode.trans h)]
  cases cmd <;> rfl

theorem bits_flatMap {data : List Byte} {off : ℕ} :
    bits jreg off (8 * data.length) = data.flatMap msbFirst ↔
      ∀ i (hi : i < data.length), bits jreg (off + 8 * i) 8 = msbFirst (data.get ⟨i, hi⟩) := by
  induction data generalizing off with
  | nil => simp [bits]
  | cons b data ih =>
    have hlen : 8 * (b :: data).length = 8 + 8 * data.length := by
      rw [List.length_cons]
      ring
    rw [hlen, List.flatMap_cons]
    constructor
    · intro h i hi
      obtain ⟨hfirst, hrest⟩ := bits_eq_append (length_msbFirst b) h
      cases i with
      | zero => exact hfirst
      | succ i =>
        have hi' := ih.1 hrest i (Nat.lt_of_succ_lt_succ hi)
        rw [show off + 8 * (i + 1) = off + 8 + 8 * i by ring]
        exact hi'
    · intro h
      have hfirst := h 0 (Nat.zero_lt_succ _)
      have hrest : bits jreg (off + 8) (8 * data.length) = data.flatMap msbFirst := by
        refine ih.2 fun i hi => ?_
        have hi' := h (i + 1) (Nat.succ_lt_succ hi)
        rwa [show off + 8 * (i + 1) = off + 8 + 8 * i by ring] at hi'
      rw [bits_add, hrest]
      exact congrArg (· ++ _) hfirst

/-! ### `WRITE_COMMAND` -/

variable {cfg : Config} {t : Target}

theorem jtagShiftDr_writeCommand (hinstr : t.debug.instr = some jiDebug)
    (hsel : bit jreg 0 = false) (hcmd : cmdOf jreg = some .writeCommand) (numBits : ℕ) :
    jtagShiftDr cfg t jreg numBits = .ok (writeCommand t jreg numBits) := by
  have hbit := mt (bit_zero_iff jreg).1 (Bool.eq_false_iff.1 hsel)
  rw [jtagShiftDr, if_neg (not_not.2 hinstr), if_neg hbit, hcmd]

theorem jtagShiftDr_goCommand (hinstr : t.debug.instr = some jiDebug)
    (hsel : bit jreg 0 = false) (hcmd : cmdOf jreg = some .goCommand) (numBits : ℕ) :
    jtagShiftDr cfg t jreg numBits = goCommand cfg t jreg numBits := by
  have hbit := mt (bit_zero_iff jreg).1 (Bool.eq_false_iff.1 hsel)
  rw [jtagShiftDr, if_neg (not_not.2 hinstr), if_neg hbit, hcmd]

variable (cfg) in
/-- **A `WRITE_COMMAND`** for bytes of memory is recorded. -/
theorem writeCommand_wishbone (hinstr : t.debug.instr = some jiDebug)
    (hmod : t.debug.modId = .wishbone) {accType : BitVec 4} {addr : Word} {len : BitVec 16}
    (hacc : accessBytes (accType.setWidth 8) = some 1)
    (h : Carries jreg (writeCommandBits accType addr len)) :
    ∃ jreg', jtagShiftDr cfg t jreg 125 =
      .ok ({ t with debug := t.debug.define (accType.setWidth 8) addr len }, jreg') := by
  have hlen : (writeCommandBits accType addr len).length = 1 + 4 + 4 + 32 + 16 := by
    simp [writeCommandBits]
  obtain ⟨hreq, hcrc⟩ := h.crcOk
  rw [hlen] at hreq hcrc
  have hall := hreq
  obtain ⟨hreq, hbits16⟩ := bits_eq_append (by simp) hreq
  obtain ⟨hreq, hbits32⟩ := bits_eq_append (by simp) hreq
  obtain ⟨hreq, hbits4⟩ := bits_eq_append (by simp) hreq
  obtain ⟨hbit, hcode⟩ := bits_eq_append (m := 1) (by simp) hreq
  have hsel : bit jreg 0 = false := by simpa [bits] using hbit
  have hcmd : cmdOf jreg = some .writeCommand := cmdOf_of_bits hcode
  have haccType : (reverseBits (nibble5 jreg) 4).setWidth 8 = accType.setWidth 8 := by
    have hfield := msbFirst_reverseBits (x := nibble5 jreg) (by decide : 4 ≤ 64)
      fun _ hi => getLsbD_nibble5 jreg hi
    rw [reverseBits_setWidth _ (by decide), msbFirst_injective (hfield.trans hbits4)]
  have haddr : (reverseBits (word1 jreg 1) 32).setWidth 32 = addr :=
    msbFirst_injective ((msbFirst_crcIn1 jreg 1).trans hbits32)
  have hsize : (reverseBits (half1 jreg 5) 16).setWidth 16 = len := by
    have hfield := msbFirst_reverseBits (x := half1 jreg 5) (by decide : 16 ≤ 64)
      fun _ hi => getLsbD_half1 jreg 5 hi
    exact msbFirst_injective (hfield.trans hbits16)
  have hok : crc32 (len.setWidth 64) 16 (crc32 (addr.setWidth 64) 32
      (crc32 ((accType.setWidth 8).setWidth 64) 4 (crcOfCmd .writeCommand))) = crcIn1 jreg 7 := by
    have hcomputed := writeCommand_computed hsel hcmd
    rw [haccType, haddr, hsize] at hcomputed
    refine (crcComputed_iff (msbFirst_crcIn1 jreg 7) hcomputed).2 ?_
    exact hcrc.trans (by rw [← hall])
  have hvalid : validateWbFields (accType.setWidth 8) addr (len.toNat + 1) = true := by
    simp [validateWbFields, hacc, Nat.mod_one]
  refine ⟨constructResponse jreg jsOk 0xffffffff#32 0 89, ?_⟩
  rw [jtagShiftDr_writeCommand hinstr hsel hcmd]
  simp only [writeCommand, haccType, haddr, hsize, if_pos hok, hmod, if_pos hvalid]
  rfl

/-! ### Writing -/

theorem byteAddr_eq {d : Debug} {addr : Word} (h : d.addr = addr.setWidth 64) (i : ℕ) :
    d.byteAddr i = addr + BitVec.ofNat 32 i := by
  apply BitVec.eq_of_toNat_eq
  have hlt := addr.isLt
  rw [Debug.byteAddr, h]
  simp only [BitVec.toNat_setWidth, BitVec.toNat_add, BitVec.toNat_ofNat]
  omega

theorem add_ofNat_inj {addr : Word} {i k : ℕ} (hi : i < 65536) (hk : k < 65536)
    (h : addr + BitVec.ofNat 32 i = addr + BitVec.ofNat 32 k) : i = k := by
  have hnat := congrArg BitVec.toNat ((BitVec.add_right_inj addr).1 h)
  rw [BitVec.toNat_ofNat, BitVec.toNat_ofNat] at hnat
  omega

theorem msbFirst_dataByte (jreg : Jreg) (i : ℕ) :
    msbFirst (dataByte jreg i) = bits jreg (5 + 8 * i) 8 := by
  refine List.map_congr_left fun k hk => ?_
  have hk := List.mem_range.1 hk
  rw [BitVec.getMsbD_eq_getLsbD, dataByte, getLsbD_reverseByte _ (by omega),
    show 5 + 8 * i + k = 8 * i + (5 + k) by ring, bit_mul_add]
  simp only [BitVec.getLsbD_or, BitVec.getLsbD_ushiftRight, BitVec.getLsbD_shiftLeft]
  interval_cases k <;> simp

theorem wishboneWriteByte_of_ram (jreg : Jreg) {d : Debug} {M : Memory} {i : ℕ} (hi : i < d.size)
    (hram : M.Ram (d.byteAddr i)) (status : Byte) :
    wishboneWriteByte d jreg (M, status) i =
      ({ M with bytes := simmemWrite8 M.bytes (d.byteAddr i) (dataByte jreg i) }, status) := by
  obtain ⟨r, hr, -⟩ := hram
  simp [wishboneWriteByte, hi, hr, Memory.setProgram8]

/-- **The loop of `wishbone_write`**: the bytes stored so far are those of the data, and no other
byte has changed. -/
theorem wishboneWrite_loop (jreg : Jreg) {d : Debug} {M : Memory} {addr : Word}
    (haddr : d.addr = addr.setWidth 64) (status : Byte) (n : ℕ) (hn : n ≤ d.size)
    (hram : ∀ i < n, M.Ram (d.byteAddr i)) :
    ∃ bytes, (List.range n).foldl (wishboneWriteByte d jreg) (M, status) =
        ({ M with bytes := bytes }, status) ∧
      (∀ i < n, target bytes (addr + BitVec.ofNat 32 i) = dataByte jreg i) ∧
      ∀ c, (∀ i < n, c ≠ addr + BitVec.ofNat 32 i) → target bytes c = target M.bytes c := by
  induction n with
  | zero => exact ⟨M.bytes, rfl, fun _ hi => absurd hi (Nat.not_lt_zero _), fun _ _ => rfl⟩
  | succ n ih =>
    obtain ⟨bytes, hfold, hdata, hkeep⟩ := ih (by omega) fun i hi => hram i (by omega)
    have hsize := d.size_le
    have hstep := wishboneWriteByte_of_ram jreg (M := { M with bytes := bytes })
      (by omega : n < d.size) (hram n (by omega)) status
    rw [byteAddr_eq haddr] at hstep
    -- A byte of the target is written at its host byte and at no other.
    have hwrite : ∀ c, target (simmemWrite8 bytes (addr + BitVec.ofNat 32 n) (dataByte jreg n)) c =
        if c = addr + BitVec.ofNat 32 n then dataByte jreg n else target bytes c := by
      intro c
      simp only [target, simmemRead8, simmemWrite8, Function.update_apply, hostByte_eq_iff]
    refine ⟨simmemWrite8 bytes (addr + BitVec.ofNat 32 n) (dataByte jreg n), ?_, ?_, ?_⟩
    · rw [List.range_succ, List.foldl_append, hfold, List.foldl_cons, List.foldl_nil, hstep]
    · intro i hi
      rw [hwrite]
      by_cases hin : i = n
      · rw [hin, if_pos rfl]
      · rw [if_neg fun heq => hin (add_ofNat_inj (by omega) (by omega) heq)]
        exact hdata i (by omega)
    · intro c hc
      rw [hwrite, if_neg (hc n (by omega))]
      exact hkeep c fun i hi => hc i (by omega)

theorem Carries.goCommand {data : List Byte} (h : Carries jreg (goCommandBits data)) :
    bit jreg 0 = false ∧ cmdOf jreg = some .goCommand ∧
      bits jreg 5 (8 * data.length) = data.flatMap msbFirst ∧
      bits jreg (5 + 8 * data.length) 32 =
        msbFirst (crcOfBits (bits jreg 0 (5 + 8 * data.length))) := by
  have hbytes : (data.flatMap msbFirst).length = 8 * data.length := by
    simp [List.length_flatMap, Nat.mul_comm]
  have hlen : (goCommandBits data).length = 1 + 4 + 8 * data.length := by
    rw [goCommandBits, List.length_append, hbytes]
    simp
  obtain ⟨hreq, hcrc⟩ := h.crcOk
  rw [hlen] at hreq hcrc
  have hall := hreq
  obtain ⟨hreq, hdata⟩ := bits_eq_append (by simp) hreq
  obtain ⟨hbit, hcode⟩ := bits_eq_append (m := 1) (by simp) hreq
  refine ⟨by simpa [bits] using hbit, cmdOf_of_bits hcode, hdata, ?_⟩
  rw [hcrc, ← hall]

theorem transferSize_of_eq {size : ℕ} : transferSize size (73 + 8 * size) = (size, jsOk) := by
  simp only [transferSize]
  rw [if_pos (by ring)]

/-- **A `GO_COMMAND`** after a `WRITE_COMMAND` for a write stores its data. -/
theorem goCommandWrite_wishbone (hinstr : t.debug.instr = some jiDebug)
    (hmod : t.debug.modId = .wishbone) (hdef : t.debug.writeDefined = true)
    (hacc : t.debug.accType = 0) {addr : Word} (haddr : t.debug.addr = addr.setWidth 64)
    {data : List Byte} (hsize : t.debug.size = data.length)
    (hram : ∀ i < data.length, t.sim.mem.Ram (addr + BitVec.ofNat 32 i))
    (h : Carries jreg (goCommandBits data)) :
    ∃ bytes jreg', jtagShiftDr cfg t jreg (73 + 8 * data.length) =
        .ok (⟨{ t.sim with mem := { t.sim.mem with bytes := bytes } },
          { t.debug with addr := t.debug.addr + BitVec.ofNat 64 data.length }⟩, jreg') ∧
      (∀ i (hi : i < data.length), target bytes (addr + BitVec.ofNat 32 i) = data.get ⟨i, hi⟩) ∧
      ∀ c, (∀ i < data.length, c ≠ addr + BitVec.ofNat 32 i) →
        target bytes c = target t.sim.mem.bytes c := by
  obtain ⟨hsel, hcmd, hbytes, hcrc⟩ := h.goCommand
  obtain ⟨bytes, hfold, hdata, hkeep⟩ := wishboneWrite_loop jreg (M := t.sim.mem) haddr jsOk
    data.length (by omega) fun i hi => by rw [byteAddr_eq haddr]; exact hram i hi
  have hin := msbFirst_crcIn5 jreg data.length
  rw [Nat.add_comm] at hin
  have hok := (crcComputed_iff hin (goCommandWrite_computed hsel hcmd data.length)).2 hcrc
  refine ⟨bytes, constructResponse jreg jsOk 0xffffffff#32 0 (37 + 8 * data.length), ?_, ?_, hkeep⟩
  · rw [jtagShiftDr_goCommand hinstr hsel hcmd, goCommand, hdef, if_neg (by decide),
      if_pos (by rw [hacc]; decide), goCommandWrite, hsize, transferSize_of_eq]
    simp only [if_pos hok, hmod, wishboneWrite, hfold, advance, if_true, hsize]
    rfl
  · intro i hi
    rw [hdata i hi]
    refine msbFirst_injective ((msbFirst_dataByte jreg i).trans ?_)
    exact bits_flatMap.1 hbytes i hi

/-! ### Reading -/

/-- One round over RAM puts a byte of memory into the register. -/
theorem wishboneReadByte_of_ram {i : ℕ} (hi : i < t.debug.size)
    (hram : t.sim.mem.Ram (t.debug.byteAddr i)) (r : ReadResult) :
    wishboneReadByte t r i = r.store i (target t.sim.mem.bytes (t.debug.byteAddr i)) r.status := by
  obtain ⟨area, harea, hread, -⟩ := hram
  have hbyte : t.sim.mem.evalDirect8 (t.debug.byteAddr i) =
      target t.sim.mem.bytes (t.debug.byteAddr i) := by
    simp [Memory.evalDirect8, harea, Memory.readfunc, hread, target]
  simp [wishboneReadByte, hi, harea, hbyte]

theorem wishboneRead_loop (jreg : Jreg) (n : ℕ) (hn : n ≤ t.debug.size)
    (hram : ∀ i < n, t.sim.mem.Ram (t.debug.byteAddr i)) :
    ∃ jreg', (List.range n).foldl (wishboneReadByte t) ⟨jreg, 0xffffffff#32, jsOk⟩ =
        ⟨jreg', crcOfBits ((List.range n).flatMap fun i =>
          msbFirst (target t.sim.mem.bytes (t.debug.byteAddr i))), jsOk⟩ ∧
      bits jreg' 37 (8 * n) = ((List.range n).flatMap fun i =>
        msbFirst (target t.sim.mem.bytes (t.debug.byteAddr i))) ∧
      ∀ i, i < 37 ∨ 37 + 8 * n ≤ i → bit jreg' i = bit jreg i := by
  obtain ⟨jreg', hfold, hdata, hkeep⟩ := store_loop
    (fun i => target t.sim.mem.bytes (t.debug.byteAddr i)) (fun _ st => st) jreg jsOk n
  rw [List.foldl_fixed] at hfold
  refine ⟨jreg', ?_, hdata, hkeep⟩
  rw [← hfold]
  refine List.foldl_ext _ _ _ fun r i hi => ?_
  have hi := List.mem_range.1 hi
  exact wishboneReadByte_of_ram (by omega) (hram i hi) r

/-- The response to a read of `data`: zeros, the data, the status and the CRC. -/
def readResponse (data : List Byte) : List Bool :=
  List.replicate 37 false ++ data.flatMap msbFirst ++ msbFirst (0#4) ++
    msbFirst (crcOfBits (data.flatMap msbFirst ++ msbFirst (0#4)))

/-- **A `GO_COMMAND`** after a `WRITE_COMMAND` for a read returns the bytes of memory. -/
theorem goCommandRead_wishbone (hinstr : t.debug.instr = some jiDebug)
    (hmod : t.debug.modId = .wishbone) (hdef : t.debug.writeDefined = true)
    (hacc : t.debug.accType = 4) {addr : Word} (haddr : t.debug.addr = addr.setWidth 64)
    {data : List Byte} (hsize : t.debug.size = data.length)
    (hram : ∀ i < data.length, t.sim.mem.Ram (addr + BitVec.ofNat 32 i))
    (hdata : ∀ i (hi : i < data.length),
      target t.sim.mem.bytes (addr + BitVec.ofNat 32 i) = data.get ⟨i, hi⟩)
    (h : Carries jreg (goCommandBits []))
    (hzero : ∀ i, 37 ≤ i → i < 73 + 8 * data.length → bit jreg i = false) :
    ∃ t' jreg', jtagShiftDr cfg t jreg (73 + 8 * data.length) = .ok (t', jreg') ∧
      bits jreg' 0 (37 + 8 * data.length + 4 + 32) = readResponse data := by
  have hsize_le : data.length ≤ 65536 := hsize ▸ t.debug.size_le
  obtain ⟨hsel, hcmd, -, hcrc⟩ := h.goCommand
  obtain ⟨jreg', hfold, hbytes, hkeep⟩ := @wishboneRead_loop t jreg data.length (by omega)
    fun i hi => by rw [byteAddr_eq haddr]; exact hram i hi
  have hok := (crcComputed_iff (msbFirst_crcIn5 jreg 0) (crcOfCmd_eq hsel hcmd)).2 hcrc
  have hlist : ((List.range data.length).flatMap fun i =>
      msbFirst (target t.sim.mem.bytes (t.debug.byteAddr i))) = data.flatMap msbFirst := by
    have hmap : (List.range data.length).map
        (fun i => target t.sim.mem.bytes (t.debug.byteAddr i)) = data := by
      refine List.ext_getElem (by simp) fun i hi hi' => ?_
      rw [List.getElem_map, List.getElem_range, byteAddr_eq haddr, hdata i hi']
      rfl
    conv_rhs => rw [← hmap, List.flatMap_map]
  rw [hlist] at hfold hbytes
  refine ⟨advance t jsOk t.debug.size,
    constructResponse jreg' jsOk (crcOfBits (data.flatMap msbFirst)) (8 * data.length) 37, ?_, ?_⟩
  · rw [jtagShiftDr_goCommand hinstr hsel hcmd, goCommand, hdef, if_neg (by decide),
      if_neg (by rw [hacc]; decide), if_pos (by rw [hacc]; decide), goCommandRead, hsize,
      transferSize_of_eq]
    simp only [if_pos hok, hmod, wishboneRead, hfold, hsize]
  · obtain ⟨hzeros, hmiddle, hstatus, hfield⟩ := bits_constructResponse jreg' jsOk
      (crcOfBits (data.flatMap msbFirst)) (8 * data.length) 37 (by omega) (by omega)
      fun i hi hlt => by
        rw [hkeep i (by omega), hzero i (by omega) (by omega)]
    have hcrcOut : crc32 (jsOk.setWidth 64) 4 (crcOfBits (data.flatMap msbFirst)) =
        crcOfBits (data.flatMap msbFirst ++ msbFirst (0#4)) := by
      rw [crcOfBits_append, crc32_status]
      rfl
    rw [hcrcOut] at hfield
    simp only [bits_add, Nat.zero_add, hzeros, hmiddle, hbytes, hstatus, hfield, readResponse]
    rfl

/-! ### The round trip -/

/-- The interface can transfer `n` bytes of RAM from `addr` on. -/
structure Ready (t : Target) (addr : Word) (n : ℕ) : Prop where
  /-- The `DEBUG` instruction is selected. -/
  instr : t.debug.instr = some jiDebug
  /-- The Wishbone module is selected. -/
  modId : t.debug.modId = .wishbone
  /-- The bytes are in RAM. -/
  ram : ∀ i < n, t.sim.mem.Ram (addr + BitVec.ofNat 32 i)

/-- Memory holds the bytes from `addr` on. -/
def HoldsAt (m : Bytes) (addr : Word) (data : List Byte) : Prop :=
  ∀ i (hi : i < data.length), target m (addr + BitVec.ofNat 32 i) = data.get ⟨i, hi⟩

/-- The length field of a transfer. -/
def lengthField (n : ℕ) : BitVec 16 := BitVec.ofNat 16 (n - 1)

theorem toNat_lengthField {n : ℕ} (hpos : 1 ≤ n) (hle : n ≤ 65536) :
    (lengthField n).toNat + 1 = n := by
  rw [lengthField, BitVec.toNat_ofNat]
  omega

/-- **The round trip of a Wishbone transfer**, for every address and every block of up to 65536
bytes of RAM.  A `WRITE_COMMAND` for a write and a `GO_COMMAND` with the data store exactly the
data and advance the address; whenever memory holds the data, a `WRITE_COMMAND` for a read and an
otherwise empty `GO_COMMAND` return them, with the status and the CRC. -/
theorem wishbone_roundTrip (cfg : Config) (addr : Word) (data : List Byte)
    (hpos : 1 ≤ data.length) (hle : data.length ≤ 65536) :
    (∀ t write go, Ready t addr data.length →
      Carries write (writeCommandBits 0 addr (lengthField data.length)) →
      Carries go (goCommandBits data) →
      ∃ t₁ t₂ j₁ j₂, jtagShiftDr cfg t write 125 = .ok (t₁, j₁) ∧
        jtagShiftDr cfg t₁ go (73 + 8 * data.length) = .ok (t₂, j₂) ∧
        HoldsAt t₂.sim.mem.bytes addr data ∧
        (∀ c, (∀ i < data.length, c ≠ addr + BitVec.ofNat 32 i) →
          target t₂.sim.mem.bytes c = target t.sim.mem.bytes c) ∧
        t₂.debug.addr = addr.setWidth 64 + BitVec.ofNat 64 data.length ∧
        Ready t₂ addr data.length) ∧
      ∀ t read go, Ready t addr data.length → HoldsAt t.sim.mem.bytes addr data →
        Carries read (writeCommandBits 4 addr (lengthField data.length)) →
        Carries go (goCommandBits []) →
        (∀ i, 37 ≤ i → i < 73 + 8 * data.length → bit go i = false) →
        ∃ t₁ t₂ j₁ out, jtagShiftDr cfg t read 125 = .ok (t₁, j₁) ∧
          jtagShiftDr cfg t₁ go (73 + 8 * data.length) = .ok (t₂, out) ∧
          bits out 0 (37 + 8 * data.length + 4 + 32) = readResponse data := by
  have hlen := toNat_lengthField hpos hle
  constructor
  · intro t write go ht hwrite hgo
    obtain ⟨j₁, h₁⟩ := writeCommand_wishbone cfg ht.instr ht.modId rfl hwrite
    obtain ⟨bytes, j₂, h₂, hdata, hkeep⟩ := @goCommandWrite_wishbone go cfg
      { t with debug := t.debug.define (BitVec.setWidth 8 0#4) addr (lengthField data.length) }
      ht.instr ht.modId rfl rfl addr rfl data hlen ht.ram hgo
    exact ⟨_, _, j₁, j₂, h₁, h₂, hdata, hkeep, rfl, ht.instr, ht.modId, ht.ram⟩
  · intro t read go ht hdata hread hgo hzero
    obtain ⟨j₁, h₁⟩ := writeCommand_wishbone cfg ht.instr ht.modId rfl hread
    obtain ⟨t₂, out, h₂, hout⟩ := @goCommandRead_wishbone go cfg
      { t with debug := t.debug.define (BitVec.setWidth 8 4#4) addr (lengthField data.length) }
      ht.instr ht.modId rfl rfl addr rfl data hlen ht.ram hdata hgo hzero
    exact ⟨_, t₂, j₁, out, h₁, h₂, hout⟩

/-- Two bytes are written across a word boundary and read back. -/
theorem wishbone_roundTrip_two :
    ∃ t₁ t₂ t₃ t₄ j₁ j₂ j₃ out,
      jtagShiftDr defaultConfig
        ⟨powerOn 0x601 0 (Memory.flat fun _ => 0), { startDebug with modId := .wishbone }⟩
        (ofBytes [8, 0, 0, 0, 129, 0, 0, 81, 31, 139, 177, 0]) 125 = .ok (t₁, j₁) ∧
      jtagShiftDr defaultConfig t₁ (ofBytes [160, 122, 150, 128, 220, 122, 21]) 89 =
        .ok (t₂, j₂) ∧
      HoldsAt t₂.sim.mem.bytes 0x102#32 [0xab, 0xcd] ∧
      jtagShiftDr defaultConfig t₂
        (ofBytes [72, 0, 0, 0, 129, 0, 0, 105, 108, 241, 46, 1]) 125 = .ok (t₃, j₃) ∧
      jtagShiftDr defaultConfig t₃ (ofBytes [32, 186, 48, 147, 22]) 89 = .ok (t₄, out) ∧
      bits out 0 89 = readResponse [0xab, 0xcd] := by
  obtain ⟨hwrite, hread⟩ :=
    wishbone_roundTrip defaultConfig 0x102#32 [0xab, 0xcd] (by decide) (by decide)
  obtain ⟨t₁, t₂, j₁, j₂, h₁, h₂, hdata, -, -, hready⟩ := hwrite
    ⟨powerOn 0x601 0 (Memory.flat fun _ => 0), { startDebug with modId := .wishbone }⟩
    (ofBytes [8, 0, 0, 0, 129, 0, 0, 81, 31, 139, 177, 0])
    (ofBytes [160, 122, 150, 128, 220, 122, 21]) ⟨rfl, rfl, fun _ _ => Memory.flat_ram _ _⟩
    (by unfold Carries; decide +kernel) (by unfold Carries; decide +kernel)
  obtain ⟨t₃, t₄, j₃, out, h₃, h₄, hout⟩ := hread t₂
    (ofBytes [72, 0, 0, 0, 129, 0, 0, 105, 108, 241, 46, 1]) (ofBytes [32, 186, 48, 147, 22])
    hready hdata (by unfold Carries; decide +kernel) (by unfold Carries; decide +kernel) (by decide)
  exact ⟨t₁, t₂, t₃, t₄, j₁, j₂, j₃, out, h₁, h₂, hdata, h₃, h₄, hout⟩

end Jtag
end Or1ksim
