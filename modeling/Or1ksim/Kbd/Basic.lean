import Or1ksim.Lib.Ring
import Or1ksim.Memory.Simmem

/-!
# The PS/2 keyboard

`peripheral/ps2kbd.c`: a keyboard behind its controller.  Typed characters are turned into scan
codes, which wait in a ring for the guest; the data register also gives the replies of the
controller and of the keyboard.

* `Fifo` — the ring, which is never fuller than it is long;
* `kbdPut`, `scanDecode` — the scan codes of a character;
* `kbdWrite8`, `kbdRead8`, `kbdJob`, `kbdReset`.
-/

namespace Or1ksim
namespace Kbd

/-! ### Constants -/

/-- `KBD_CTRL` -/
def kbdCtrl : Addr := 4

/-- `KBD_DATA` -/
def kbdData : Addr := 0

/-- `KBD_MAX_BUF` -/
def kbdMaxBuf : ℕ := 0x100

/-- `KBD_KCMD_RST` -/
def kcmdRst : Byte := 0xFF

/-- `KBD_KCMD_DK` -/
def kcmdDk : Byte := 0xF5

/-- `KBD_KCMD_EK` -/
def kcmdEk : Byte := 0xF4

/-- `KBD_KCMD_ECHO` -/
def kcmdEcho : Byte := 0xFF

/-- `KBD_KRESP_RSTOK` -/
def krespRstok : Byte := 0xAA

/-- `KBD_KRESP_ECHO` -/
def krespEcho : Byte := 0xEE

/-- `KBD_KRESP_ACK` -/
def krespAck : Byte := 0xFA

/-- `KBD_CCMD_RCB` -/
def ccmdRcb : Byte := 0x20

/-- `KBD_CCMD_WCB` -/
def ccmdWcb : Byte := 0x60

/-- `KBD_CCMD_ST1` -/
def ccmdSt1 : Byte := 0xAA

/-- `KBD_CCMD_ST2` -/
def ccmdSt2 : Byte := 0xAB

/-- `KBD_CCMD_DKI` -/
def ccmdDki : Byte := 0xAD

/-- `KBD_CCMD_EKI` -/
def ccmdEki : Byte := 0xAE

/-- `KBD_STATUS_OBF` -/
def statusObf : Byte := 0x01

/-- `KBD_STATUS_INH` -/
def statusInh : Byte := 0x10

/-- `KBD_CCMDBYTE_INT` -/
def ccmdbyteInt : Byte := 0x01

/-- `KBD_CCMDBYTE_SYS` -/
def ccmdbyteSys : Byte := 0x04

/-- `KBD_CCMDBYTE_EN` -/
def ccmdbyteEn : Byte := 0x10

/-- `scan_table`: whether shift must be pressed, and the scan code. -/
def scanTable : List (ℕ × Byte) := [
  (0, 0x00), (0, 0x00), (0, 0x00), (0, 0x00), (0, 0x00), (0, 0x00), (0, 0x00), (0, 0x00),
  (0, 0x0E), (0, 0x0F), (0, 0x1C), (0, 0x00), (0, 0x00), (0, 0x00), (0, 0x00), (0, 0x00),
  (0, 0x00), (0, 0x00), (0, 0x00), (0, 0x00), (0, 0x00), (0, 0x00), (0, 0x00), (0, 0x00),
  (0, 0x00), (0, 0x00), (0, 0x00), (0, 0x01), (0, 0x00), (0, 0x00), (0, 0x00), (0, 0x00),
  (0, 0x39), (1, 0x02), (1, 0x28), (1, 0x04), (1, 0x05), (1, 0x06), (1, 0x08), (0, 0x28),
  (1, 0x0A), (1, 0x0B), (1, 0x09), (1, 0x0D), (0, 0x33), (0, 0x0C), (0, 0x34), (0, 0x35),
  (0, 0x0B), (0, 0x02), (0, 0x03), (0, 0x04), (0, 0x05), (0, 0x06), (0, 0x07), (0, 0x08),
  (0, 0x09), (0, 0x0A), (1, 0x27), (0, 0x27), (1, 0x33), (0, 0x0D), (1, 0x34), (1, 0x35),
  (1, 0x03), (1, 0x1E), (1, 0x30), (1, 0x2E), (1, 0x20), (1, 0x12), (1, 0x21), (1, 0x22),
  (1, 0x23), (1, 0x17), (1, 0x24), (1, 0x25), (1, 0x26), (1, 0x32), (1, 0x31), (1, 0x18),
  (1, 0x19), (1, 0x10), (1, 0x13), (1, 0x1F), (1, 0x14), (1, 0x16), (1, 0x2F), (1, 0x11),
  (1, 0x2D), (1, 0x15), (1, 0x2C), (0, 0x1A), (0, 0x2B), (0, 0x1B), (1, 0x07), (1, 0x0C),
  (0, 0x29), (0, 0x1E), (0, 0x30), (0, 0x2E), (0, 0x20), (0, 0x12), (0, 0x21), (0, 0x22),
  (0, 0x23), (0, 0x17), (0, 0x24), (0, 0x25), (0, 0x26), (0, 0x32), (0, 0x31), (0, 0x18),
  (0, 0x19), (0, 0x10), (0, 0x13), (0, 0x1F), (0, 0x14), (0, 0x16), (0, 0x2F), (0, 0x11),
  (0, 0x2D), (0, 0x15), (0, 0x2C), (1, 0x1A), (1, 0x2B), (1, 0x1B), (1, 0x29), (0, 0x00)]

/-! ### State -/

/-- The ring of scan codes. -/
structure Fifo where
  /-- `buf` -/
  buf : ℕ → Byte
  /-- `buf_count` -/
  count : ℕ
  /-- `buf_head`, where the next code goes. -/
  head : ℕ
  /-- `buf_tail`, where the oldest code is. -/
  tail : ℕ
  count_le : count ≤ kbdMaxBuf
  tail_lt : tail < kbdMaxBuf
  head_eq : head = (tail + count) % kbdMaxBuf

/-- Requests to the interrupt controller. -/
inductive Request where
  /-- `clear_interrupt` -/
  | clear
  /-- `report_interrupt` -/
  | report
deriving DecidableEq, Repr

/-- `struct kbd_state` -/
structure KbdState where
  fifo : Fifo
  /-- Controller command. -/
  ccmd : Byte
  /-- Keyboard command. -/
  kcmd : Byte
  /-- Controller command byte. -/
  ccmdbyte : Byte
  /-- Keyboard response pending. -/
  kresp : ℕ
  /-- The requests for the interrupt line, oldest first. -/
  requests : List Request

/-! ### The ring -/

namespace Fifo

/-- What is in the ring, oldest first. -/
def contents (q : Fifo) : List Byte := Ring.contents q.buf q.tail q.count kbdMaxBuf

/-- An empty ring, as `kbd_reset` leaves it. -/
def empty (buf : ℕ → Byte) : Fifo := ⟨buf, 0, 0, 0, by decide, by decide, rfl⟩

/-- `kbd_put`: a code for which there is no room is dropped. -/
def kbdPut (q : Fifo) (c : Byte) : Fifo :=
  if h : kbdMaxBuf ≤ q.count then q
  else
    { buf := Function.update q.buf q.head c
      count := q.count + 1
      head := (q.head + 1) % kbdMaxBuf
      tail := q.tail
      count_le := Nat.lt_of_not_le h
      tail_lt := q.tail_lt
      head_eq := by rw [q.head_eq, Nat.mod_add_mod, Nat.add_assoc] }

/-- The oldest code. -/
def front (q : Fifo) : Byte := q.buf q.tail

/-- The ring without its oldest code. -/
def pop (q : Fifo) (h : q.count ≠ 0) : Fifo where
  buf := q.buf
  count := q.count - 1
  head := q.head
  tail := (q.tail + 1) % kbdMaxBuf
  count_le := Nat.le_trans (Nat.sub_le _ _) q.count_le
  tail_lt := Nat.mod_lt _ (by decide)
  head_eq := by
    rw [q.head_eq, Nat.mod_add_mod, Nat.add_assoc, Nat.add_sub_cancel' (Nat.pos_of_ne_zero h)]

@[simp] theorem length_contents (q : Fifo) : q.contents.length = q.count := Ring.length_contents

theorem contents_kbdPut {q : Fifo} (h : q.count < kbdMaxBuf) (c : Byte) :
    (q.kbdPut c).contents = q.contents ++ [c] := by
  have hput : (q.kbdPut c).contents =
      Ring.contents (Function.update q.buf q.head c) q.tail (q.count + 1) kbdMaxBuf := by
    unfold kbdPut
    rw [dif_neg (Nat.not_le.2 h)]
    rfl
  rw [hput, q.head_eq, Ring.contents_push h]
  rfl

theorem kbdPut_full {q : Fifo} (h : kbdMaxBuf ≤ q.count) (c : Byte) : q.kbdPut c = q := dif_pos h

theorem contents_pop {q : Fifo} (h : q.count ≠ 0) : q.contents = q.front :: (q.pop h).contents := by
  obtain ⟨n, hn⟩ : ∃ n, q.count = n + 1 := ⟨q.count - 1, by omega⟩
  have hpop : (q.pop h).contents = Ring.contents q.buf ((q.tail + 1) % kbdMaxBuf) n kbdMaxBuf := by
    change Ring.contents q.buf ((q.tail + 1) % kbdMaxBuf) (q.count - 1) kbdMaxBuf = _
    rw [hn, Nat.add_sub_cancel]
  rw [contents, hn, Ring.contents_pop q.tail_lt, hpop]
  rfl

end Fifo

/-! ### Scan codes -/

/-- `scan_decode`: characters without a code are ignored. -/
def scanDecode (q : Fifo) (c : Byte) : Fifo :=
  match scanTable[c.toNat]? with
  | none => q
  | some (shift, code) =>
    if code = 0 then q
    else
      let q := if shift ≠ 0 then q.kbdPut 0x2a else q
      let q := q.kbdPut code
      let q := q.kbdPut (code ||| 0x80)
      if shift ≠ 0 then q.kbdPut 0xaa else q

/-! ### Registers -/

/-- `kbd_write8` -/
def kbdWrite8 (s : KbdState) (addr : Addr) (value : Byte) : KbdState :=
  if addr = kbdCtrl then
    let s := { s with ccmd := value }
    let s := if s.ccmd = ccmdRcb ∨ s.ccmd = ccmdSt1 ∨ s.ccmd = ccmdSt2 then
      { s with kresp := 1 } else s
    if s.ccmd = ccmdDki then
      { s with requests := s.requests ++ [.clear], ccmdbyte := s.ccmdbyte ||| ccmdbyteEn }
    else if s.ccmd = ccmdEki then { s with ccmdbyte := s.ccmdbyte &&& ~~~ccmdbyteEn }
    else s
  else if addr = kbdData then
    let s := if s.ccmd = ccmdWcb then { s with ccmdbyte := value } else { s with kcmd := value }
    let s := if s.kcmd = kcmdDk then { s with ccmdbyte := s.ccmdbyte ||| ccmdbyteEn } else s
    let s := if s.kcmd = kcmdEk then { s with ccmdbyte := s.ccmdbyte &&& ~~~ccmdbyteEn } else s
    { s with kresp := 1, ccmd := 0 }
  else s

/-- The status register. -/
def KbdState.status (s : KbdState) : Byte :=
  (if s.kresp ≠ 0 ∨ s.fifo.count ≠ 0 then statusObf else 0) ||| (s.ccmdbyte &&& ccmdbyteSys) |||
    statusInh

/-- The reply to a controller command. -/
def KbdState.reply (s : KbdState) : Byte :=
  if s.ccmd = ccmdSt2 then 0x00
  else if s.ccmd = ccmdSt1 then 0x55
  else if s.ccmd = ccmdRcb then s.ccmdbyte
  else 0

/-- The response of the keyboard, and what is still pending behind it. -/
def KbdState.response (s : KbdState) : Byte × ℕ :=
  if s.kresp = 2 then (krespRstok, 0)
  else if s.kcmd = kcmdRst then (krespAck, 2)
  else if s.kcmd = kcmdEcho then (krespEcho, 0)
  else (krespAck, 0)

/-- `kbd_read8` -/
def kbdRead8 (s : KbdState) (addr : Addr) : Byte × KbdState :=
  if addr = kbdCtrl then (s.status, s)
  else if addr = kbdData then
    let s : KbdState := { s with requests := s.requests ++ [Request.clear] }
    if s.ccmd ≠ 0 then (s.reply, { s with ccmd := 0, kresp := 0 })
    else if s.kresp ≠ 0 then (s.response.1, { s with kresp := s.response.2, kcmd := 0 })
    else if h : s.fifo.count ≠ 0 then (s.fifo.front, { s with fifo := s.fifo.pop h, kresp := 0 })
    else (0, { s with kresp := 0 })
  else (0, s)

/-- `kbd_job`, with the next character of the input, if there is one. -/
def kbdJob (s : KbdState) (c : Option Byte) : KbdState :=
  let s := match c with
    | some c => { s with fifo := scanDecode s.fifo c }
    | none => s
  if (s.kresp ≠ 0 ∨ s.fifo.count ≠ 0) ∧ s.ccmdbyte &&& ccmdbyteInt ≠ 0 then
    { s with requests := s.requests ++ [.report] }
  else s

/-- `kbd_reset`: the commands stay as they are. -/
def kbdReset (s : KbdState) : KbdState :=
  { s with fifo := .empty s.fifo.buf, kresp := 0, ccmdbyte := 0x65 }

end Kbd
end Or1ksim
