import Mathlib.Data.Fin.VecNotation
import Or1ksim.Memory.BigEndian

/-!
# The generic peripheral

The accessors of a `generic` section (`peripheral/generic.c`) with `OR32_BIG_ENDIAN`.  Whatever
the width of the access, the external functions are asked for a whole word, with a mask for the
bytes that are wanted.  The bytes of the buffer that the accessor does not set are left over from
the stack.

* `genericReadByte`, `genericWriteByte` and their siblings for half words and words — the accessors;
* `ActsOn` — external functions that succeed and act on a memory of bytes;
* `access_spec` — **one relation for all widths**: an access of the device is an access of that
  memory in big-endian order;
* `generic_refines` — so is every sequence of aligned accesses in range.
-/

namespace Or1ksim
namespace Generic

variable {E : Type}

/-! ### The device and the external functions -/

/-- The four bytes of an up-call: the mask, and the data read or written. -/
abbrev Lanes := Fin 4 → Byte

/-- What `config.ext.read_up` does for a word address, a mask and a buffer: its status, the buffer
and the external state after the call.  The length is 4 in every call. -/
abbrev ReadUp (E : Type) := E → Addr → Lanes → Lanes → ℤ × Lanes × E

/-- What `config.ext.write_up` does for a word address, a mask and the data. -/
abbrev WriteUp (E : Type) := E → Addr → Lanes → Lanes → ℤ × E

/-- The external functions (`config.ext`), if they are set. -/
structure Ext (E : Type) where
  /-- `read_up`. -/
  readUp : Option (ReadUp E)
  /-- `write_up`. -/
  writeUp : Option (WriteUp E)

/-- A generic device (`struct dev_generic`), with the defaults of `generic_sec_start`. -/
structure DevGeneric where
  /-- Name of the device. -/
  name : String := "anonymous external peripheral"
  /-- Base address of the device. -/
  baseaddr : Addr := 0#32
  /-- Size of the address space in bytes. -/
  size : Word := 0#32

/-- What a call of an accessor leaves: its value, the external state and the line it printed on
`stderr`, if any. -/
structure Outcome (E α : Type) where
  /-- Returned value. -/
  value : α
  /-- External state. -/
  state : E
  /-- Message. -/
  stderr : Option String

/-- `printf` of an address with `PRIxADDR`. -/
def printAddr (a : Addr) : String :=
  String.ofList ((List.range 8).map fun i => Nat.digitChar (a.toNat / 16 ^ (7 - i) % 16))

/-- The message of an access beyond the end of the device. -/
def outOfRange (what : String) (dev : DevGeneric) (addr : Addr) : String :=
  what ++ " out of range for generic device " ++ dev.name ++ " (addr " ++ printAddr addr ++ ")\n"

/-- The message of an unaligned access. -/
def unaligned (what : String) (addr : Addr) : String :=
  "Unaligned " ++ what ++ " 0x" ++ printAddr addr ++ " ignored\n"

/-- The word address of an up-call. -/
def wordaddr (fulladdr : Addr) : Addr := fulladdr &&& 0xfffffffc#32

/-- The byte of the word that an address names. -/
def bytenum (fulladdr : Addr) : Fin 4 :=
  ⟨(fulladdr &&& 3#32).toNat, by rw [toNat_and_three]; omega⟩

/-- The first byte of the half word that an address names. -/
def hwnum (fulladdr : Addr) : Fin 4 :=
  ⟨(fulladdr &&& 2#32).toNat, lt_of_le_of_lt Nat.and_le_right (by decide)⟩

/-- The mask with one byte set. -/
def byteMask (i : Fin 4) : Lanes := Function.update (fun _ => 0#8) i 0xff#8

/-- The mask with two bytes set. -/
def hwMask (i : Fin 4) : Lanes := Function.update (byteMask i) (i + 1) 0xff#8

/-- `generic_read_byte`; `res` is what the stack holds at the buffer. -/
def genericReadByte (ext : Ext E) (dev : DevGeneric) (res : Lanes) (e : E) (addr : Addr) :
    Outcome E Byte :=
  match ext.readUp with
  | none => ⟨0#8, e, some "Byte read from disabled generic device\n"⟩
  | some readUp =>
    if dev.size ≤ addr then ⟨0#8, e, some (outOfRange "Byte read " dev addr)⟩
    else
      let fulladdr := addr + dev.baseaddr
      let up := readUp e (wordaddr fulladdr) (byteMask (bytenum fulladdr)) res
      if up.1 ≠ 0 then ⟨0#8, up.2.2, some "Warning: external byte read failed.\n"⟩
      else ⟨up.2.1 (bytenum fulladdr), up.2.2, none⟩

/-- `generic_write_byte`; `val` is what the stack holds at the buffer. -/
def genericWriteByte (ext : Ext E) (dev : DevGeneric) (val : Lanes) (e : E) (addr : Addr)
    (value : Byte) : Outcome E Unit :=
  match ext.writeUp with
  | none => ⟨(), e, some "Byte write to disabled generic device\n"⟩
  | some writeUp =>
    if dev.size ≤ addr then ⟨(), e, some (outOfRange "Byte written" dev addr)⟩
    else
      let fulladdr := addr + dev.baseaddr
      let up := writeUp e (wordaddr fulladdr) (byteMask (bytenum fulladdr))
        (Function.update val (bytenum fulladdr) value)
      if up.1 ≠ 0 then ⟨(), up.2, some "Warning: external byte write failed.\n"⟩
      else ⟨(), up.2, none⟩

/-- `generic_read_hw`. -/
def genericReadHw (ext : Ext E) (dev : DevGeneric) (res : Lanes) (e : E) (addr : Addr) :
    Outcome E Half :=
  match ext.readUp with
  | none => ⟨0#16, e, some "Half word read from disabled generic device\n"⟩
  | some readUp =>
    if dev.size ≤ addr then ⟨0#16, e, some (outOfRange "Half-word read " dev addr)⟩
    else if addr &&& 1#32 ≠ 0#32 then ⟨0#16, e, some (unaligned "half word read from" addr)⟩
    else
      let fulladdr := addr + dev.baseaddr
      let up := readUp e (wordaddr fulladdr) (hwMask (hwnum fulladdr)) res
      if up.1 ≠ 0 then ⟨0#16, up.2.2, some "Warning: external half word read failed.\n"⟩
      else
        ⟨(up.2.1 (hwnum fulladdr)).setWidth 16 <<< 8 ||| (up.2.1 (hwnum fulladdr + 1)).setWidth 16,
          up.2.2, none⟩

/-- `generic_write_hw`. -/
def genericWriteHw (ext : Ext E) (dev : DevGeneric) (val : Lanes) (e : E) (addr : Addr)
    (value : Half) : Outcome E Unit :=
  match ext.writeUp with
  | none => ⟨(), e, some "Half word write to disabled generic device\n"⟩
  | some writeUp =>
    if dev.size ≤ addr then ⟨(), e, some (outOfRange "Half-word written " dev addr)⟩
    else if addr &&& 1#32 ≠ 0#32 then ⟨(), e, some (unaligned "half word write to" addr)⟩
    else
      let fulladdr := addr + dev.baseaddr
      let up := writeUp e (wordaddr fulladdr) (hwMask (hwnum fulladdr))
        (Function.update (Function.update val (hwnum fulladdr) ((value >>> 8).setWidth 8))
          (hwnum fulladdr + 1) (value.setWidth 8))
      if up.1 ≠ 0 then ⟨(), up.2, some "Warning: external half word write failed.\n"⟩
      else ⟨(), up.2, none⟩

/-- `generic_read_word`; the word address is not masked. -/
def genericReadWord (ext : Ext E) (dev : DevGeneric) (res : Lanes) (e : E) (addr : Addr) :
    Outcome E Word :=
  match ext.readUp with
  | none => ⟨0#32, e, some "Full word read from disabled generic device\n"⟩
  | some readUp =>
    if dev.size ≤ addr then ⟨0#32, e, some (outOfRange "Full word read " dev addr)⟩
    else if addr &&& 3#32 ≠ 0#32 then ⟨0#32, e, some (unaligned "full word read from" addr)⟩
    else
      let up := readUp e (addr + dev.baseaddr) (fun _ => 0xff#8) res
      if up.1 ≠ 0 then ⟨0#32, up.2.2, some "Warning: external full word read failed.\n"⟩
      else
        ⟨(up.2.1 0).setWidth 32 <<< 24 ||| (up.2.1 1).setWidth 32 <<< 16 |||
          (up.2.1 2).setWidth 32 <<< 8 ||| (up.2.1 3).setWidth 32, up.2.2, none⟩

/-- `generic_write_word`; every byte of the buffer is set. -/
def genericWriteWord (ext : Ext E) (dev : DevGeneric) (e : E) (addr : Addr) (value : Word) :
    Outcome E Unit :=
  match ext.writeUp with
  | none => ⟨(), e, some "Full word write to disabled generic device\n"⟩
  | some writeUp =>
    if dev.size ≤ addr then ⟨(), e, some (outOfRange "Full word written " dev addr)⟩
    else if addr &&& 3#32 ≠ 0#32 then ⟨(), e, some (unaligned "full word write to" addr)⟩
    else
      let up := writeUp e (addr + dev.baseaddr) (fun _ => 0xff#8)
        ![(value >>> 24).setWidth 8, (value >>> 16).setWidth 8, (value >>> 8).setWidth 8,
          value.setWidth 8]
      if up.1 ≠ 0 then ⟨(), up.2, some "Warning: external full word write failed.\n"⟩
      else ⟨(), up.2, none⟩

/-! ### Accesses and their runs -/

/-- The address of an access. -/
def addrOf : Access → Addr
  | .read a _ => a
  | .write a _ _ => a

/-- The accessor of each width, with what the stack holds at its buffer; `reg_mem_area` calls it
with the address inside the device. -/
def access (ext : Ext E) (dev : DevGeneric) (junk : Lanes) (e : E) :
    Access → Outcome E (Option Word)
  | .read a .w1 =>
    let r := genericReadByte ext dev junk e a
    ⟨some (r.value.setWidth 32), r.state, r.stderr⟩
  | .read a .w2 =>
    let r := genericReadHw ext dev junk e a
    ⟨some (r.value.setWidth 32), r.state, r.stderr⟩
  | .read a .w4 =>
    let r := genericReadWord ext dev junk e a
    ⟨some r.value, r.state, r.stderr⟩
  | .write a .w1 v =>
    let r := genericWriteByte ext dev junk e a (v.setWidth 8)
    ⟨none, r.state, r.stderr⟩
  | .write a .w2 v =>
    let r := genericWriteHw ext dev junk e a (v.setWidth 16)
    ⟨none, r.state, r.stderr⟩
  | .write a .w4 v =>
    let r := genericWriteWord ext dev e a v
    ⟨none, r.state, r.stderr⟩

/-- A sequence of accesses, each with its own left-over bytes: what each of them read, and the
external state after the last. -/
def run (ext : Ext E) (dev : DevGeneric) : E → List (Lanes × Access) → List (Option Word) × E
  | e, [] => ([], e)
  | e, x :: xs =>
    let r := access ext dev x.1 e x.2
    let rest := run ext dev r.state xs
    (r.value :: rest.1, rest.2)

/-! ### External memories -/

/-- The external functions succeed at every word address and act on the memory `abs e`: they
transfer the bytes whose mask entry is `0xff`, and say nothing about the others of the buffer. -/
structure ActsOn (abs : E → Bytes) (readUp : ReadUp E) (writeUp : WriteUp E) : Prop where
  read_status : ∀ e w mask res, w.toNat % 4 = 0 → (readUp e w mask res).1 = 0
  read_lane : ∀ e w mask res (i : Fin 4), w.toNat % 4 = 0 → mask i = 0xff#8 →
    (readUp e w mask res).2.1 i = abs e (w + BitVec.ofNat 32 i)
  read_state : ∀ e w mask res, w.toNat % 4 = 0 → abs (readUp e w mask res).2.2 = abs e
  write_status : ∀ e w mask val, w.toNat % 4 = 0 → (writeUp e w mask val).1 = 0
  write_lane : ∀ e w mask val (i : Fin 4), w.toNat % 4 = 0 → mask i = 0xff#8 →
    abs (writeUp e w mask val).2 (w + BitVec.ofNat 32 i) = val i
  write_other : ∀ e w mask val c, w.toNat % 4 = 0 →
    (∀ i : Fin 4, mask i = 0xff#8 → c ≠ w + BitVec.ofNat 32 i) →
      abs (writeUp e w mask val).2 c = abs e c

/-- The access of the external memory that an access of the device is. -/
def full (dev : DevGeneric) : Access → Access
  | .read a n => .read (a + dev.baseaddr) n
  | .write a n v => .write (a + dev.baseaddr) n v

/-! ### Addresses -/

theorem wordaddr_eq (f : Addr) : wordaddr f = wordBase f := rfl

theorem toNat_wordaddr (f : Addr) : (wordaddr f).toNat % 4 = 0 := by
  rw [wordaddr_eq, toNat_wordBase]
  omega

theorem wordaddr_add_bytenum (f : Addr) : wordaddr f + BitVec.ofNat 32 (bytenum f) = f := by
  have hlane : (bytenum f : ℕ) = f.toNat % 4 := toNat_and_three f
  apply BitVec.eq_of_toNat_eq
  rw [hlane, wordaddr_eq, toNat_wordBase_add f (by omega)]
  omega

/-- For an even address the half word starts at the byte that the address names. -/
theorem hwnum_eq_bytenum {f : Addr} (hf : f.toNat % 2 = 0) : hwnum f = bytenum f := by
  have htwo : (f &&& 2#32).toNat = (f.toNat.testBit 1).toNat * 2 ^ 1 := by
    rw [BitVec.toNat_and, ← Nat.and_two_pow]
    rfl
  have hthree := toNat_and_three f
  apply Fin.ext
  change (f &&& 2#32).toNat = (f &&& 3#32).toNat
  rw [htwo, hthree, Nat.toNat_testBit]
  omega

theorem wordaddr_add_hwnum {f : Addr} (hf : f.toNat % 2 = 0) :
    wordaddr f + BitVec.ofNat 32 (hwnum f) = f := by
  rw [hwnum_eq_bytenum hf, wordaddr_add_bytenum]

theorem wordaddr_add_hwnum_succ {f : Addr} (hf : f.toNat % 2 = 0) :
    wordaddr f + BitVec.ofNat 32 (hwnum f + 1 : Fin 4) = f + 1#32 := by
  have hlane : (hwnum f : ℕ) = f.toNat % 4 := by
    rw [hwnum_eq_bytenum hf]
    exact toNat_and_three f
  have hsucc : ((hwnum f + 1 : Fin 4) : ℕ) = hwnum f + 1 := by
    rw [Fin.val_add, show ((1 : Fin 4) : ℕ) = 1 from rfl]
    omega
  rw [hsucc, BitVec.ofNat_add, ← BitVec.add_assoc, wordaddr_add_hwnum hf]

theorem add_baseaddr_mod {dev : DevGeneric} (hbase : dev.baseaddr.toNat % 4 = 0) (a : Addr) :
    (a + dev.baseaddr).toNat % 4 = a.toNat % 4 := by
  rw [BitVec.toNat_add]
  omega

theorem byteMask_eq {i j : Fin 4} : byteMask i j = 0xff#8 ↔ j = i := by
  rw [byteMask, Function.update_apply]
  split_ifs with h
  · exact ⟨fun _ => h, fun _ => rfl⟩
  · exact ⟨fun h0 => absurd h0 (by decide), fun hj => absurd hj h⟩

theorem hwMask_eq {i j : Fin 4} : hwMask i j = 0xff#8 ↔ j = i ∨ j = i + 1 := by
  rw [hwMask, Function.update_apply]
  split_ifs with h
  · exact ⟨fun _ => .inr h, fun _ => rfl⟩
  · rw [byteMask_eq, or_iff_left h]

/-! ### One access -/

section

variable {abs : E → Bytes} {readUp : ReadUp E} {writeUp : WriteUp E} {dev : DevGeneric}

theorem half_eq (x y : Byte) : x.setWidth 16 <<< 8 ||| y.setWidth 16 = x ++ y := by
  apply BitVec.eq_of_getLsbD_eq
  intro i hi
  simp only [BitVec.getLsbD_or, BitVec.getLsbD_shiftLeft, BitVec.getLsbD_setWidth,
    BitVec.getLsbD_append]
  by_cases h : i < 8
  · simp [h, hi]
  · simp [h, hi, show i - 8 < 16 by omega, BitVec.getLsbD_of_ge y i (by omega)]

theorem word_eq (x y z u : Byte) :
    x.setWidth 32 <<< 24 ||| y.setWidth 32 <<< 16 ||| z.setWidth 32 <<< 8 ||| u.setWidth 32 =
      x ++ y ++ z ++ u := by
  apply BitVec.eq_of_getLsbD_eq
  intro i hi
  simp only [BitVec.getLsbD_or, BitVec.getLsbD_shiftLeft, BitVec.getLsbD_setWidth,
    BitVec.getLsbD_append]
  by_cases h0 : i < 8
  · simp [h0, hi, show i < 16 by omega, show i < 24 by omega]
  -- Each byte is out of range of the bits above it, and is dropped there.
  rw [BitVec.getLsbD_of_ge u i (by omega)]
  by_cases h1 : i < 16
  · simp [h0, h1, hi, show i < 24 by omega, show i - 8 < 8 by omega, show i - 8 < 32 by omega]
  rw [BitVec.getLsbD_of_ge z (i - 8) (by omega)]
  by_cases h2 : i < 24
  · simp [h0, h1, h2, hi, show i - 16 < 32 by omega, show ¬i - 8 < 8 by omega,
      show i - 8 - 8 = i - 16 by omega, show i - 16 < 8 by omega]
  rw [BitVec.getLsbD_of_ge y (i - 16) (by omega)]
  simp [h0, h1, h2, hi, show i - 24 < 32 by omega, show ¬i - 8 < 8 by omega,
    show ¬i - 8 - 8 < 8 by omega, show i - 8 - 8 - 8 = i - 24 by omega]

variable {a : Addr}

theorem and_one_eq_zero {a : Addr} (ha : a.toNat % 2 = 0) : a &&& 1#32 = 0#32 := by
  apply BitVec.eq_of_toNat_eq
  rw [BitVec.toNat_and]
  exact (Nat.and_one_is_mod _).trans ha

/-- A byte is read from the byte of the word that its mask names. -/
theorem genericReadByte_spec (hext : ActsOn abs readUp writeUp) (junk : Lanes) (e : E)
    (ha : a < dev.size) :
    ∃ e', genericReadByte ⟨some readUp, some writeUp⟩ dev junk e a =
        ⟨abs e (a + dev.baseaddr), e', none⟩ ∧ abs e' = abs e := by
  have hword := toNat_wordaddr (a + dev.baseaddr)
  have hlane := hext.read_lane e _ (byteMask (bytenum (a + dev.baseaddr))) junk
    (bytenum (a + dev.baseaddr)) hword (byteMask_eq.2 rfl)
  rw [wordaddr_add_bytenum] at hlane
  refine ⟨_, ?_, hext.read_state e _ (byteMask (bytenum (a + dev.baseaddr))) junk hword⟩
  simp only [genericReadByte, if_neg (BitVec.not_le.2 ha), hext.read_status _ _ _ _ hword, ne_eq,
    not_true_eq_false, if_false, hlane]

theorem genericReadHw_spec (hext : ActsOn abs readUp writeUp) (junk : Lanes) (e : E)
    (hbase : dev.baseaddr.toNat % 4 = 0) (ha : a < dev.size) (halign : a.toNat % 2 = 0) :
    ∃ e', genericReadHw ⟨some readUp, some writeUp⟩ dev junk e a =
        ⟨abs e (a + dev.baseaddr) ++ abs e (a + dev.baseaddr + 1#32), e', none⟩ ∧
      abs e' = abs e := by
  have hword := toNat_wordaddr (a + dev.baseaddr)
  have hmod := add_baseaddr_mod hbase a
  have heven : (a + dev.baseaddr).toNat % 2 = 0 := by omega
  have hfirst := hext.read_lane e _ (hwMask (hwnum (a + dev.baseaddr))) junk
    (hwnum (a + dev.baseaddr)) hword (hwMask_eq.2 (.inl rfl))
  have hsecond := hext.read_lane e _ (hwMask (hwnum (a + dev.baseaddr))) junk
    (hwnum (a + dev.baseaddr) + 1) hword (hwMask_eq.2 (.inr rfl))
  rw [wordaddr_add_hwnum heven] at hfirst
  rw [wordaddr_add_hwnum_succ heven] at hsecond
  refine ⟨_, ?_, hext.read_state e _ (hwMask (hwnum (a + dev.baseaddr))) junk hword⟩
  simp only [genericReadHw, if_neg (BitVec.not_le.2 ha), and_one_eq_zero halign,
    hext.read_status _ _ _ _ hword, ne_eq, not_true_eq_false, if_false, hfirst, hsecond, half_eq]

theorem genericReadWord_spec (hext : ActsOn abs readUp writeUp) (junk : Lanes) (e : E)
    (hbase : dev.baseaddr.toNat % 4 = 0) (ha : a < dev.size) (halign : a.toNat % 4 = 0) :
    ∃ e', genericReadWord ⟨some readUp, some writeUp⟩ dev junk e a =
        ⟨BigEndian.read (abs e) (a + dev.baseaddr) .w4, e', none⟩ ∧ abs e' = abs e := by
  have hword : (a + dev.baseaddr).toNat % 4 = 0 := (add_baseaddr_mod hbase a).trans halign
  have hlane := fun i => hext.read_lane e _ (fun _ => 0xff#8) junk i hword rfl
  have hfirst := hlane 0
  rw [Fin.val_zero, BitVec.add_zero] at hfirst
  refine ⟨_, ?_, hext.read_state e _ (fun _ => 0xff#8) junk hword⟩
  simp only [genericReadWord, if_neg (BitVec.not_le.2 ha), and_three_eq_zero.2 halign,
    hext.read_status _ _ _ _ hword, ne_eq, not_true_eq_false, if_false, word_eq, hfirst,
    hlane 1, hlane 2, hlane 3]
  rfl

/-- The memory after a write up-call is the one that holds the data at the masked bytes and the
old bytes elsewhere. -/
theorem ActsOn.write_eq (hext : ActsOn abs readUp writeUp) (e : E) (mask val : Lanes) {w : Addr}
    {b : Bytes} (hw : w.toNat % 4 = 0)
    (hin : ∀ i : Fin 4, mask i = 0xff#8 → b (w + BitVec.ofNat 32 i) = val i)
    (hout : ∀ c, (∀ i : Fin 4, mask i = 0xff#8 → c ≠ w + BitVec.ofNat 32 i) → b c = abs e c) :
    abs (writeUp e w mask val).2 = b := by
  funext c
  -- A byte is in a lane that the mask selects, or it is not touched.
  by_cases hc : ∃ i : Fin 4, mask i = 0xff#8 ∧ c = w + BitVec.ofNat 32 i
  · obtain ⟨i, hi, rfl⟩ := hc
    rw [hext.write_lane e w mask val i hw hi, hin i hi]
  · simp only [not_exists, not_and] at hc
    rw [hext.write_other e w mask val c hw hc, hout c hc]

/-- A byte is written to the byte of the word that its mask names. -/
theorem genericWriteByte_spec (hext : ActsOn abs readUp writeUp) (junk : Lanes) (e : E)
    (ha : a < dev.size) (v : Word) :
    ∃ e', genericWriteByte ⟨some readUp, some writeUp⟩ dev junk e a (v.setWidth 8) =
        ⟨(), e', none⟩ ∧ abs e' = BigEndian.write (abs e) (a + dev.baseaddr) v .w1 := by
  have hword := toNat_wordaddr (a + dev.baseaddr)
  refine ⟨_, ?_, hext.write_eq e (byteMask (bytenum (a + dev.baseaddr)))
    (Function.update junk (bytenum (a + dev.baseaddr)) (v.setWidth 8)) hword ?_ ?_⟩
  · simp only [genericWriteByte, if_neg (BitVec.not_le.2 ha), hext.write_status _ _ _ _ hword,
      ne_eq, not_true_eq_false, if_false]
  · intro i hi
    rw [byteMask_eq.1 hi, wordaddr_add_bytenum, Function.update_self]
    exact if_pos rfl
  · intro c hc
    refine if_neg fun h => hc _ (byteMask_eq.2 rfl) ?_
    rw [h, wordaddr_add_bytenum]

theorem genericWriteHw_spec (hext : ActsOn abs readUp writeUp) (junk : Lanes) (e : E)
    (hbase : dev.baseaddr.toNat % 4 = 0) (ha : a < dev.size) (halign : a.toNat % 2 = 0) (v : Word) :
    ∃ e', genericWriteHw ⟨some readUp, some writeUp⟩ dev junk e a (v.setWidth 16) =
        ⟨(), e', none⟩ ∧ abs e' = BigEndian.write (abs e) (a + dev.baseaddr) v .w2 := by
  have hword := toNat_wordaddr (a + dev.baseaddr)
  have hmod := add_baseaddr_mod hbase a
  have heven : (a + dev.baseaddr).toNat % 2 = 0 := by omega
  have hfirst := wordaddr_add_hwnum heven
  have hsecond := wordaddr_add_hwnum_succ heven
  refine ⟨_, ?_, hext.write_eq e (hwMask (hwnum (a + dev.baseaddr)))
    (Function.update (Function.update junk (hwnum (a + dev.baseaddr))
      (((v.setWidth 16) >>> 8).setWidth 8)) (hwnum (a + dev.baseaddr) + 1)
      ((v.setWidth 16).setWidth 8)) hword ?_ ?_⟩
  · simp only [genericWriteHw, if_neg (BitVec.not_le.2 ha), and_one_eq_zero halign,
      hext.write_status _ _ _ _ hword, ne_eq, not_true_eq_false, if_false]
  · intro i hi
    rcases hwMask_eq.1 hi with rfl | rfl
    · have hne : hwnum (a + dev.baseaddr) ≠ hwnum (a + dev.baseaddr) + 1 := by omega
      rw [Function.update_of_ne hne, Function.update_self, hfirst,
        BitVec.setWidth_ushiftRight_eq_extractLsb, BitVec.extractLsb'_setWidth_of_le (by decide)]
      exact if_pos rfl
    · rw [Function.update_self, hsecond, BitVec.setWidth_setWidth_of_le _ (by decide)]
      exact (if_neg (by simp)).trans (if_pos rfl)
  · intro c hc
    have h0 := hc _ (hwMask_eq.2 (.inl rfl))
    have h1 := hc _ (hwMask_eq.2 (.inr rfl))
    rw [hfirst] at h0
    rw [hsecond] at h1
    simp [BigEndian.write, h0, h1]

theorem genericWriteWord_spec (hext : ActsOn abs readUp writeUp) (e : E)
    (hbase : dev.baseaddr.toNat % 4 = 0) (ha : a < dev.size) (halign : a.toNat % 4 = 0) (v : Word) :
    ∃ e', genericWriteWord ⟨some readUp, some writeUp⟩ dev e a v = ⟨(), e', none⟩ ∧
      abs e' = BigEndian.write (abs e) (a + dev.baseaddr) v .w4 := by
  have hword : (a + dev.baseaddr).toNat % 4 = 0 := (add_baseaddr_mod hbase a).trans halign
  refine ⟨_, ?_, hext.write_eq e (fun _ => 0xff#8)
    ![(v >>> 24).setWidth 8, (v >>> 16).setWidth 8, (v >>> 8).setWidth 8, v.setWidth 8] hword ?_ ?_⟩
  · simp only [genericWriteWord, if_neg (BitVec.not_le.2 ha), and_three_eq_zero.2 halign,
      hext.write_status _ _ _ _ hword, ne_eq, not_true_eq_false, if_false]
  · intro i _
    have hlow : v.setWidth 8 = v.extractLsb' 0 8 := rfl
    have hfour : i = 0 ∨ i = 1 ∨ i = 2 ∨ i = 3 := by omega
    rcases hfour with rfl | rfl | rfl | rfl <;>
      simp [BigEndian.write, BitVec.setWidth_ushiftRight_eq_extractLsb, hlow]
  · intro c hc
    exact BigEndian.write_of_outside _ _ _ .w4 fun i hi => hc ⟨i, hi⟩ rfl

/-- **One relation for all widths.**  An aligned access in range returns what a big-endian array
returns at the full address, prints nothing and keeps the two in step. -/
theorem access_spec (hext : ActsOn abs readUp writeUp) (hbase : dev.baseaddr.toNat % 4 = 0)
    (junk : Lanes) (e : E) {x : Access} (hx : x.Aligned) (hrange : addrOf x < dev.size) :
    ∃ e', access ⟨some readUp, some writeUp⟩ dev junk e x =
        ⟨(Access.bigEndian (abs e) (full dev x)).1, e', none⟩ ∧
      abs e' = (Access.bigEndian (abs e) (full dev x)).2 := by
  cases x with
  | read a n =>
    change a < dev.size at hrange
    cases n with
    | w1 =>
      obtain ⟨e', heq, habs⟩ := genericReadByte_spec hext junk e hrange
      exact ⟨e', by rw [access, heq]; rfl, habs⟩
    | w2 =>
      obtain ⟨e', heq, habs⟩ := genericReadHw_spec hext junk e hbase hrange hx
      exact ⟨e', by rw [access, heq]; rfl, habs⟩
    | w4 =>
      obtain ⟨e', heq, habs⟩ := genericReadWord_spec hext junk e hbase hrange hx
      exact ⟨e', by rw [access, heq]; rfl, habs⟩
  | write a n v =>
    change a < dev.size at hrange
    cases n with
    | w1 =>
      obtain ⟨e', heq, habs⟩ := genericWriteByte_spec hext junk e hrange v
      exact ⟨e', by rw [access, heq]; rfl, habs⟩
    | w2 =>
      obtain ⟨e', heq, habs⟩ := genericWriteHw_spec hext junk e hbase hrange hx v
      exact ⟨e', by rw [access, heq]; rfl, habs⟩
    | w4 =>
      obtain ⟨e', heq, habs⟩ := genericWriteWord_spec hext e hbase hrange hx v
      exact ⟨e', by rw [access, heq]; rfl, habs⟩

/-! ### Sequences of accesses -/

/-- Every access of the sequence is aligned and in range. -/
def InRange (dev : DevGeneric) (xs : List (Lanes × Access)) : Prop :=
  ∀ x ∈ xs, x.2.Aligned ∧ addrOf x.2 < dev.size
deriving Decidable

theorem run_eq (hext : ActsOn abs readUp writeUp) (hbase : dev.baseaddr.toNat % 4 = 0)
    (xs : List (Lanes × Access)) (e : E) (h : InRange dev xs) :
    (run ⟨some readUp, some writeUp⟩ dev e xs).1 =
        (Access.run Access.bigEndian (abs e) (xs.map fun x => full dev x.2)).1 ∧
      abs (run ⟨some readUp, some writeUp⟩ dev e xs).2 =
        (Access.run Access.bigEndian (abs e) (xs.map fun x => full dev x.2)).2 := by
  induction xs generalizing e with
  | nil => exact ⟨rfl, rfl⟩
  | cons x xs ih =>
    obtain ⟨halign, hrange⟩ := h x List.mem_cons_self
    obtain ⟨e', heq, habs⟩ := access_spec hext hbase x.1 e halign hrange
    obtain ⟨hreads, hfinal⟩ := ih e' fun y hy => h y (List.mem_cons_of_mem _ hy)
    rw [habs] at hreads hfinal
    simp only [run, heq, List.map_cons, Access.run]
    exact ⟨congrArg _ hreads, hfinal⟩

/-- **A generic device is a big-endian memory**, whatever the widths of the accesses and whatever
the stack holds.  A sequence of aligned accesses in range reads what the same accesses of the
external memory read in big-endian order, leaves what they leave, and changes no byte that none of
them writes. -/
theorem generic_refines (hext : ActsOn abs readUp writeUp) (hbase : dev.baseaddr.toNat % 4 = 0)
    (xs : List (Lanes × Access)) (e : E) (h : InRange dev xs) :
    (run ⟨some readUp, some writeUp⟩ dev e xs).1 =
        (Access.run Access.bigEndian (abs e) (xs.map fun x => full dev x.2)).1 ∧
      abs (run ⟨some readUp, some writeUp⟩ dev e xs).2 =
        (Access.run Access.bigEndian (abs e) (xs.map fun x => full dev x.2)).2 ∧
      ∀ c, (∀ x ∈ xs, ¬(full dev x.2).Writes c) →
        abs (run ⟨some readUp, some writeUp⟩ dev e xs).2 c = abs e c := by
  obtain ⟨hreads, hfinal⟩ := run_eq hext hbase xs e h
  refine ⟨hreads, hfinal, fun c hc => ?_⟩
  rw [hfinal]
  refine Access.run_bigEndian_of_not_writes _ _ fun x hx => ?_
  obtain ⟨y, hy, rfl⟩ := List.mem_map.1 hx
  exact hc y hy

end

/-! ### A driver -/

/-- A driver that keeps the bytes itself and leaves the other lanes of the buffer alone. -/
def driverRead : ReadUp Bytes := fun b w mask rdata =>
  (0, fun i => if mask i = 0xff#8 then b (w + BitVec.ofNat 32 i) else rdata i, b)

/-- Its write up-call. -/
def driverWrite : WriteUp Bytes := fun b w mask wdata =>
  (0, fun c => if wordaddr c = w ∧ mask (bytenum c) = 0xff#8 then wdata (bytenum c) else b c)

theorem wordaddr_add {w : Addr} (hw : w.toNat % 4 = 0) (i : Fin 4) :
    wordaddr (w + BitVec.ofNat 32 i) = w ∧ bytenum (w + BitVec.ofNat 32 i) = i := by
  have hadd := toNat_add_lt hw i.isLt
  constructor
  · apply BitVec.eq_of_toNat_eq
    rw [wordaddr_eq, toNat_wordBase, hadd]
    omega
  · apply Fin.ext
    change ((w + BitVec.ofNat 32 i) &&& 3#32).toNat = i
    rw [toNat_and_three, hadd]
    omega

theorem driver_actsOn : ActsOn id driverRead driverWrite where
  read_status _ _ _ _ _ := rfl
  read_lane _ _ _ _ _ _ hi := if_pos hi
  read_state _ _ _ _ _ := rfl
  write_status _ _ _ _ _ := rfl
  write_lane e w mask val i hw hi := by
    obtain ⟨hword, hlane⟩ := wordaddr_add hw i
    simp only [driverWrite, id, hword, hlane, hi, and_self, if_true]
  write_other e w mask val c hw hc := by
    refine if_neg fun h => hc (bytenum c) h.2 ?_
    rw [← h.1, wordaddr_add_bytenum]

/-- A word is written; a byte of it is overwritten, and the halves and the word are read back,
each with other left-over bytes. -/
theorem generic_refines_driver :
    (run ⟨some driverRead, some driverWrite⟩ ⟨"leds", 0x1000#32, 16#32⟩ (fun _ => 0#8)
        [(fun _ => 0xee#8, .write 4#32 .w4 0x11223344#32),
          (fun _ => 0xdd#8, .write 6#32 .w1 0x55#32),
          (fun _ => 0xcc#8, .read 4#32 .w2), (fun _ => 0xbb#8, .read 6#32 .w2),
          (fun _ => 0xaa#8, .read 4#32 .w4)]).1 =
      [none, none, some 0x1122#32, some 0x5544#32, some 0x11225544#32] := by
  rw [(generic_refines driver_actsOn (by decide) _ _ (by decide)).1]
  decide

end Generic
end Or1ksim
