import Or1ksim.Loader.Exact
import Or1ksim.Rsp.Packet

/-!
# RSP memory requests

The `m`, `M` and `X` requests of the GDB remote serial protocol server (`debug/rsp-server.c`) and
`or1ksim_write_mem` of the library (`libtoplevel.c`), which access memory byte by byte.  The packet
buffer is an array, and an access of it that is out of bounds is a fault.

* `RspBuf`, `readAt`, `writeAt` — the packet buffer and its accesses;
* `rspReadMem`, `rspWriteMem`, `rspWriteMemBin`, `or1ksimWriteMem` — the requests;
* `writeBytes_spec` — a write is a patch of the bytes before the first address outside memory;
* `failed_writes` — **what a failed write changes**: these bytes, and nothing else.
-/

namespace Or1ksim
namespace Rsp

open Scan Overlay Loader

/-! ### The packet buffer -/

/-- What a handler does outside the packet buffer. -/
inductive Fault where
  /-- A read after the null character that ends the packet. -/
  | read (i : ℕ)
  /-- A write after the last cell. -/
  | write (i : ℕ)
  /-- An access by a pointer that `memchr` returned as null. -/
  | null
deriving DecidableEq, Repr

/-- The packet buffer (`struct rsp_buf`) as `get_packet` leaves it: the packet, a null character and
whatever was there before. -/
structure RspBuf where
  data : List Byte
  len : ℕ
  length_data : data.length = gdbBufMax
  len_lt : len < gdbBufMax
  getD_len : data.getD len 0 = 0

/-- A packet in a buffer that was empty. -/
def RspBuf.ofPacket (p : List Byte) (hp : p.length < gdbBufMax) : RspBuf where
  data := p ++ List.replicate (gdbBufMax - p.length) 0
  len := p.length
  length_data := by
    rw [List.length_append, List.length_replicate]
    exact Nat.add_sub_of_le hp.le
  len_lt := hp
  getD_len := by
    rw [List.getD_append_right _ _ _ _ le_rfl, Nat.sub_self]
    exact List.getD_replicate _ (Nat.sub_pos_of_lt hp)

namespace RspBuf

/-- The bytes of the packet. -/
def packet (buf : RspBuf) : List Byte := buf.data.take buf.len

/-- The text of the buffer, up to its first null character. -/
def text (buf : RspBuf) : Packet := cString (buf.data.map fun c => Char.ofNat c.toNat)

/-- `buf->data[i]` as an operand; `data` is the array. -/
def readAt (buf : RspBuf) (data : List Byte) (i : ℕ) : Except Fault Byte :=
  if i ≤ buf.len then .ok (data.getD i 0) else .error (.read i)

end RspBuf

/-- `buf->data[i] = c`. -/
def writeAt (data : List Byte) (i : ℕ) (c : Byte) : Except Fault (List Byte) :=
  if i < gdbBufMax then .ok (data.set i c) else .error (.write i)

/-- The search of `memchr` through `n` cells from cell `i` on. -/
def memchrLoop (buf : RspBuf) (c : Byte) : ℕ → ℕ → Except Fault (Option ℕ)
  | 0, _ => .ok none
  | n + 1, i => do
    let ch ← buf.readAt buf.data i
    if ch = c then return some i else memchrLoop buf c n (i + 1)

/-- `memchr (buf->data, ':', GDB_BUF_MAX) + 1`, as an index. -/
def afterColon (buf : RspBuf) : Except Fault ℕ := do
  match ← memchrLoop buf (chr ':') gdbBufMax 0 with
  | some i => return i + 1
  | none => throw .null

/-- `sscanf (buf->data, "<c>%x,%x:", ..)` with both conversions assigned.  The colon is not checked
for: it comes after the last conversion. -/
def scanAddrLen (c : Char) (text : Packet) : Option (Addr × Word) := do
  let cs ← scanLit c text
  let (addr, cs) ← scanX cs
  let cs ← scanLit ',' cs
  let (len, _) ← scanX cs
  return (addr, len)

/-- The error reply. -/
def e01 : List Byte := "E01".toList.map chr

/-- The reply of a request without a result. -/
def okReply : List Byte := "OK".toList.map chr

/-! ### Reading -/

/-- The loop of `rsp_read_mem`, with `n` rounds to go: the array and the offset after it, or `none`
at an address outside memory. -/
def readLoop (M : Memory) (addr : Addr) :
    ℕ → ℕ → List Byte → Except Fault (Option (List Byte × ℕ))
  | 0, off, data => .ok (some (data, off))
  | n + 1, off, data =>
    if (M.verifyMemoryarea (addr + BitVec.ofNat 32 off)).isNone then .ok none
    else do
      let ch := M.evalDirect8 (addr + BitVec.ofNat 32 off)
      let data ← writeAt data (off * 2) (chr (hexchars.getD (ch >>> 4).toNat '0'))
      let data ← writeAt data (off * 2 + 1) (chr (hexchars.getD (ch &&& 0xf).toNat '0'))
      readLoop M addr n (off + 1) data

/-- The bytes that are read, for a length: as many as have room in a packet.  The length is an
`int`, and so is its double. -/
def readLength (len : Word) : ℤ :=
  if (gdbBufMax : ℤ) ≤ (len * 2).toInt then ((gdbBufMax - 1) / 2 : ℕ) else len.toInt

/-- `rsp_read_mem`: the reply. -/
def rspReadMem (M : Memory) (buf : RspBuf) : Except Fault (List Byte) :=
  match scanAddrLen 'm' buf.text with
  | none => .ok e01
  | some (addr, len) => do
    match ← readLoop M addr (readLength len).toNat 0 buf.data with
    | none => return e01
    | some (data, off) =>
      let data ← writeAt data (off * 2) 0
      return data.takeWhile (· ≠ 0)

/-! ### Writing -/

/-- The loop of `rsp_write_mem` and `rsp_write_mem_bin`, with `n` rounds to go; `fetch` is the byte
for an offset.  It is left at an address outside memory. -/
def writeLoop (fetch : ℕ → Except Fault Byte) (addr : Addr) :
    ℕ → ℕ → Memory → Except Fault (Memory × List Byte)
  | 0, _, M => .ok (M, okReply)
  | n + 1, off, M =>
    if (M.verifyMemoryarea (addr + BitVec.ofNat 32 off)).isNone then .ok (M, e01)
    else do
      let ch ← fetch off
      writeLoop fetch addr n (off + 1) (M.setProgram8 (addr + BitVec.ofNat 32 off) ch)

/-- The byte of two digits; each is an `unsigned char`. -/
def hexByte (nyb1 nyb2 : Byte) : Byte :=
  (hexOf nyb1).setWidth 8 <<< 4 ||| (hexOf nyb2).setWidth 8

/-- `rsp_write_mem`, with its reply. -/
def rspWriteMem (M : Memory) (buf : RspBuf) : Except Fault (Memory × List Byte) :=
  match scanAddrLen 'M' buf.text with
  | none => .ok (M, e01)
  | some (addr, len) => do
    let symdat ← afterColon buf
    let datlen := buf.len - symdat
    if len * 2 ≠ BitVec.ofNat 32 datlen then return (M, e01)
    else
      writeLoop (fun off => do
        let nyb1 ← buf.readAt buf.data (symdat + off * 2)
        let nyb2 ← buf.readAt buf.data (symdat + (off * 2 + 1))
        return hexByte nyb1 nyb2) addr len.toInt.toNat 0 M

/-- The loop of `rsp_unescape` on the `len` bytes from cell `base` on. -/
def unescapeAt (buf : RspBuf) (base len : ℕ) (data : List Byte) (fromOff toOff : ℕ) :
    Except Fault (List Byte × ℕ) :=
  if fromOff < len then do
    let ch ← buf.readAt data (base + fromOff)
    if ch = chr '}' then
      let ch ← buf.readAt data (base + (fromOff + 1))
      let data ← writeAt data (base + toOff) (ch ^^^ 0x20#8)
      unescapeAt buf base len data (fromOff + 2) (toOff + 1)
    else
      let data ← writeAt data (base + toOff) ch
      unescapeAt buf base len data (fromOff + 1) (toOff + 1)
  else .ok (data, toOff)
termination_by len - fromOff

/-- `rsp_write_mem_bin`, with its reply. -/
def rspWriteMemBin (M : Memory) (buf : RspBuf) : Except Fault (Memory × List Byte) :=
  match scanAddrLen 'X' buf.text with
  | none => .ok (M, e01)
  | some (addr, len) => do
    let bindat ← afterColon buf
    let (data, newlen) ← unescapeAt buf bindat (buf.len - bindat) buf.data 0 0
    let len := if (newlen : ℤ) ≠ len.toInt then min len.toInt newlen else len.toInt
    writeLoop (fun off => buf.readAt data (bindat + off)) addr len.toNat 0 M

/-- The loop of `or1ksim_write_mem` on the caller's buffer, and whether it came to its end. -/
def writeBytes (buf : ℕ → Byte) (addr : Addr) : ℕ → ℕ → Memory → Memory × Bool
  | 0, _, M => (M, true)
  | n + 1, off, M =>
    if (M.verifyMemoryarea (addr + BitVec.ofNat 32 off)).isNone then (M, false)
    else writeBytes buf addr n (off + 1) (M.setProgram8 (addr + BitVec.ofNat 32 off) (buf off))

/-- `or1ksim_write_mem`, with what it returns; `none` is the zero of an error.  The address is an
`unsigned long`. -/
def or1ksimWriteMem (M : Memory) (addr : BitVec 64) (buf : ℕ → Byte) (len : Word) :
    Memory × Option Word :=
  let r := writeBytes buf (addr.setWidth 32) len.toInt.toNat 0 M
  (r.1, if r.2 then some len else none)

/-! ### The packet buffer -/

variable {M N : Memory} {buf : RspBuf} {addr : Addr} {f : ℕ → Byte} {n off k : ℕ}

@[simp] theorem ok_bind {α β : Type} (a : α) (g : α → Except Fault β) :
    (Except.ok a >>= g) = g a := rfl

theorem RspBuf.readAt_of_le {data : List Byte} {i : ℕ} (h : i ≤ buf.len) :
    buf.readAt data i = .ok (data.getD i 0) := if_pos h

theorem writeAt_of_lt {data : List Byte} {i : ℕ} (c : Byte) (h : i < gdbBufMax) :
    writeAt data i c = .ok (data.set i c) := if_pos h

theorem RspBuf.length_packet (buf : RspBuf) : buf.packet.length = buf.len := by
  rw [RspBuf.packet, List.length_take, buf.length_data]
  exact min_eq_left buf.len_lt.le

theorem RspBuf.getD_packet {i : ℕ} (hi : i < buf.len) :
    buf.packet.getD i 0 = buf.data.getD i 0 := by
  rw [RspBuf.packet, List.getD_eq_getElem?_getD, List.getElem?_take_of_lt hi,
    ← List.getD_eq_getElem?_getD]

theorem memchrLoop_succ {c : Byte} {n i : ℕ} (hi : i ≤ buf.len) :
    memchrLoop buf c (n + 1) i =
      if buf.data.getD i 0 = c then .ok (some i) else memchrLoop buf c n (i + 1) := by
  rw [memchrLoop, RspBuf.readAt_of_le hi, ok_bind]
  rfl

/-- The search stops at the first place of the character in the packet. -/
theorem memchrLoop_of_mem {c : Byte} {n i : ℕ} (hc : c ∈ buf.packet)
    (hi : i ≤ buf.packet.idxOf c) (hn : buf.packet.idxOf c < i + n) :
    memchrLoop buf c n i = .ok (some (buf.packet.idxOf c)) := by
  have hlt : buf.packet.idxOf c < buf.packet.length := List.idxOf_lt_length_iff.2 hc
  have hlen := buf.length_packet
  induction n generalizing i with
  | zero => omega
  | succ n ih =>
    rw [memchrLoop_succ (by omega), ← RspBuf.getD_packet (by omega),
      List.getD_eq_getElem _ _ (by omega)]
    by_cases heq : i = buf.packet.idxOf c
    · subst heq
      rw [if_pos (List.getElem_idxOf hlt)]
    · have hne : buf.packet[i] ≠ c := fun h => by
        have hnot := List.not_of_lt_findIdx (p := (· == c)) (Nat.lt_of_le_of_ne hi heq)
        exact Bool.false_ne_true (hnot.symm.trans (beq_iff_eq.2 h))
      rw [if_neg hne]
      exact ih (by omega) (by omega)

/-- A character that is not in the packet is not found before the search leaves the packet. -/
theorem memchrLoop_of_notMem {c : Byte} {n i : ℕ} (hc : c ∉ buf.packet) (hzero : c ≠ 0) :
    memchrLoop buf c n i = .ok none ∨ ∃ e, memchrLoop buf c n i = .error e := by
  induction n generalizing i with
  | zero => exact .inl rfl
  | succ n ih =>
    rcases Nat.lt_or_ge buf.len i with hgt | hle
    · rw [memchrLoop, RspBuf.readAt, if_neg (by omega)]
      exact .inr ⟨_, rfl⟩
    · have hne : buf.data.getD i 0 ≠ c := by
        rcases Nat.lt_or_eq_of_le hle with hlt | rfl
        · rw [← RspBuf.getD_packet hlt, List.getD_eq_getElem _ _ (by rwa [buf.length_packet])]
          exact fun h => hc (h ▸ List.getElem_mem _)
        · rw [buf.getD_len]
          exact hzero.symm
      rw [memchrLoop_succ hle, if_neg hne]
      exact ih

/-- Where the data of a packet starts. -/
def RspBuf.dataStart (buf : RspBuf) : ℕ := buf.packet.idxOf (chr ':') + 1

theorem RspBuf.dataStart_le (h : chr ':' ∈ buf.packet) : buf.dataStart ≤ buf.len := by
  rw [← buf.length_packet]
  exact List.idxOf_lt_length_iff.2 h

theorem afterColon_of_mem (h : chr ':' ∈ buf.packet) : afterColon buf = .ok buf.dataStart := by
  have hle := RspBuf.dataStart_le h
  have hlt := buf.len_lt
  have hfound : memchrLoop buf (chr ':') gdbBufMax 0 = .ok (some (buf.packet.idxOf (chr ':'))) :=
    memchrLoop_of_mem h (Nat.zero_le _) (by unfold RspBuf.dataStart at hle; omega)
  rw [afterColon, hfound]
  rfl

theorem afterColon_of_notMem (h : chr ':' ∉ buf.packet) : ∃ e, afterColon buf = .error e := by
  rw [afterColon]
  rcases memchrLoop_of_notMem (n := gdbBufMax) (i := 0) h (by decide) with hnone | ⟨e, he⟩
  · rw [hnone]
    exact ⟨.null, rfl⟩
  · rw [he]
    exact ⟨e, rfl⟩

/-! ### Unescaping -/

/-- Unescaping makes no byte more. -/
theorem unescapeLoop_le {len : ℕ} {data : List Byte} {fromOff toOff : ℕ} (hle : toOff ≤ fromOff)
    (hlen : toOff ≤ len) : (unescapeLoop len data fromOff toOff).2 ≤ len := by
  fun_induction unescapeLoop len data fromOff toOff with
  | case1 data fromOff toOff hlt _ ih => exact ih (by omega) (by omega)
  | case2 data fromOff toOff hlt _ ih => exact ih (by omega) (by omega)
  | case3 => exact hlen

/-- In the packet buffer, unescaping stays in bounds: the byte after an escape character is in the
packet or the null character that ends it. -/
theorem unescapeAt_eq {base len : ℕ} {data : List Byte} {fromOff toOff : ℕ}
    (hbase : base + len = buf.len) (hle : toOff ≤ fromOff) :
    unescapeAt buf base len data fromOff toOff =
      .ok (data.take base ++ (unescapeLoop len (data.drop base) fromOff toOff).1,
        (unescapeLoop len (data.drop base) fromOff toOff).2) := by
  have hlt := buf.len_lt
  -- What is written is behind what is read, so the bytes still to be read are those of the packet.
  induction hm : len - fromOff using Nat.strong_induction_on generalizing data fromOff toOff with
  | _ m ih =>
    have hget : ∀ i, data.getD (base + i) 0 = (data.drop base).getD i 0 := fun i => by
      rw [List.getD_eq_getElem?_getD, List.getD_eq_getElem?_getD, List.getElem?_drop]
    have hset : ∀ c, (data.set (base + toOff) c).take base = data.take base ∧
        (data.set (base + toOff) c).drop base = (data.drop base).set toOff c := fun c =>
      ⟨List.take_set_of_le (Nat.le_add_right _ _), List.set_drop.symm⟩
    rw [unescapeAt, unescapeLoop]
    by_cases hfrom : fromOff < len
    · rw [if_pos hfrom, if_pos hfrom, RspBuf.readAt_of_le (by omega), hget, ok_bind]
      by_cases hesc : (data.drop base).getD fromOff 0 = chr '}'
      · rw [if_pos hesc, if_pos hesc, RspBuf.readAt_of_le (by omega), hget, ok_bind,
          writeAt_of_lt _ (by omega), ok_bind,
          ih (len - (fromOff + 2)) (by omega) (by omega) rfl, (hset _).1, (hset _).2]
      · rw [if_neg hesc, if_neg hesc, writeAt_of_lt _ (by omega), ok_bind,
          ih (len - (fromOff + 1)) (by omega) (by omega) rfl, (hset _).1, (hset _).2]
    · rw [if_neg hfrom, if_neg hfrom, List.take_append_drop]

/-! ### Writes -/

theorem isNone_iff (M : Memory) (a : Addr) :
    (M.verifyMemoryarea a).isNone = true ↔ mapped M a = false := by
  rw [mapped]
  cases M.verifyMemoryarea a <;> simp

/-- With its bytes at hand, the loop of the server is that of the library. -/
theorem writeLoop_eq {fetch : ℕ → Except Fault Byte}
    (h : ∀ j, off ≤ j → j < off + n → fetch j = .ok (f j)) :
    writeLoop fetch addr n off M =
      .ok ((writeBytes f addr n off M).1,
        if (writeBytes f addr n off M).2 then okReply else e01) := by
  induction n generalizing off M with
  | zero => rfl
  | succ n ih =>
    rw [writeLoop, writeBytes]
    split
    · rfl
    · rw [h off le_rfl (by omega), ok_bind]
      exact ih fun j hj hlt => h j (by omega) (by omega)

/-- Memory `N` is memory `M` with `k` bytes from an address on, none of them outside memory. -/
structure Patched (M N : Memory) (addr : Addr) (f : ℕ → Byte) (k : ℕ) : Prop where
  areas : N.areas = M.areas
  inside : ∀ j < k, mapped M (addr + BitVec.ofNat 32 j) = true
  bytes : target N.bytes = overlay (mapped M) (target M.bytes) ⟨addr, (List.range k).map f⟩

theorem Patched.refl (M : Memory) (addr : Addr) (f : ℕ → Byte) : Patched M M addr f 0 where
  areas := rfl
  inside j hj := absurd hj (Nat.not_lt_zero j)
  bytes := (overlay_nil addr).symm

theorem Patched.succ (h : Patched M N addr f k) (hk : k < 2 ^ 32)
    (hmapped : mapped M (addr + BitVec.ofNat 32 k) = true) :
    Patched M (N.setProgram8 (addr + BitVec.ofNat 32 k) (f k)) addr f (k + 1) where
  areas := (areas_setProgram8 ..).trans h.areas
  inside j hj := by
    rcases Nat.lt_or_eq_of_le (Nat.le_of_lt_succ hj) with hlt | rfl
    · exact h.inside j hlt
    · exact hmapped
  bytes := by
    have hlen : ((List.range k).map f).length = k := by rw [List.length_map, List.length_range]
    rw [setProgram8_spec, mapped_congr h.areas, h.bytes, List.range_succ, List.map_append,
      overlay_append _ (by rw [hlen]; exact hk), hlen]
    rfl

/-- The loop writes the bytes before the first address outside memory. -/
theorem writeBytes_spec (h : Patched M N addr f off) (hn : off + n ≤ 2 ^ 32) :
    ∃ k, k ≤ off + n ∧ Patched M (writeBytes f addr n off N).1 addr f k ∧
      ((writeBytes f addr n off N).2 = true → k = off + n) ∧
      ((writeBytes f addr n off N).2 = false →
        k < off + n ∧ mapped M (addr + BitVec.ofNat 32 k) = false) := by
  induction n generalizing off N with
  | zero => exact ⟨off, le_rfl, h, fun _ => rfl, (nomatch ·)⟩
  | succ n ih =>
    rw [writeBytes]
    split
    case isTrue hnone =>
      have hout : mapped M (addr + BitVec.ofNat 32 off) = false := by
        rw [← mapped_congr h.areas]
        exact (isNone_iff N _).1 hnone
      exact ⟨off, by omega, h, (nomatch ·), fun _ => ⟨by omega, hout⟩⟩
    case isFalse hsome =>
      have hin : mapped M (addr + BitVec.ofNat 32 off) = true := by
        rw [← mapped_congr h.areas, ← Bool.not_eq_false]
        exact fun hout => hsome ((isNone_iff N _).2 hout)
      obtain ⟨k, hk, hpatched, hdone, hstop⟩ := ih (h.succ (by omega) hin) (by omega)
      exact ⟨k, by omega, hpatched, fun h => by rw [hdone h]; omega,
        fun h => ⟨by have := (hstop h).1; omega, (hstop h).2⟩⟩

/-! ### Requests -/

namespace RspBuf

/-- The number of bytes from the data on. -/
def datlen (buf : RspBuf) : ℕ := buf.len - buf.dataStart

/-- The byte that `rsp_write_mem` writes for an offset. -/
def symByte (buf : RspBuf) (off : ℕ) : Byte :=
  hexByte (buf.data.getD (buf.dataStart + off * 2) 0)
    (buf.data.getD (buf.dataStart + (off * 2 + 1)) 0)

/-- The data after `rsp_unescape`, and how many bytes it is. -/
def binData (buf : RspBuf) : List Byte × ℕ := rspUnescape (buf.data.drop buf.dataStart) buf.datlen

/-- The byte that `rsp_write_mem_bin` writes for an offset. -/
def binByte (buf : RspBuf) (off : ℕ) : Byte := buf.binData.1.getD off 0

/-- How many bytes `rsp_write_mem_bin` writes: as many as it has, if more are asked for. -/
def binLength (buf : RspBuf) (len : Word) : ℕ :=
  (if (buf.binData.2 : ℤ) ≠ len.toInt then min len.toInt buf.binData.2 else len.toInt).toNat

theorem binLength_le (buf : RspBuf) (len : Word) :
    buf.binLength len ≤ len.toInt.toNat ∧ buf.binLength len ≤ buf.datlen := by
  have hle : buf.binData.2 ≤ buf.datlen := unescapeLoop_le le_rfl (Nat.zero_le _)
  unfold binLength
  split <;> omega

end RspBuf

theorem toNat_toInt_lt (len : Word) : len.toInt.toNat < 2 ^ 31 := by
  have := BitVec.toInt_lt (x := len)
  omega

/-- What a loop of writes comes to. -/
def writeResult (f : ℕ → Byte) (addr : Addr) (n : ℕ) (M : Memory) : Memory × List Byte :=
  ((writeBytes f addr n 0 M).1, if (writeBytes f addr n 0 M).2 then okReply else e01)

variable {len : Word}

/-- A doubled length that is the number of digits is not negative, or nothing is written. -/
theorem two_mul_le_datlen (h : len * 2 = BitVec.ofNat 32 buf.datlen) :
    2 * len.toInt.toNat ≤ buf.datlen := by
  have hnat := congrArg BitVec.toNat h
  have hlt := buf.len_lt
  have hmax : gdbBufMax = 281 := rfl
  have hlen : buf.datlen ≤ buf.len := Nat.sub_le ..
  rw [BitVec.toNat_mul, BitVec.toNat_ofNat] at hnat
  rw [BitVec.toInt_eq_toNat_cond]
  change len.toNat * 2 % 2 ^ 32 = _ at hnat
  split <;> omega

theorem rspWriteMem_of_scan (hscan : scanAddrLen 'M' buf.text = some (addr, len))
    (hcolon : chr ':' ∈ buf.packet) :
    rspWriteMem M buf = .ok (if len * 2 = BitVec.ofNat 32 buf.datlen then
      writeResult buf.symByte addr len.toInt.toNat M else (M, e01)) := by
  rw [rspWriteMem, hscan]
  dsimp only
  rw [afterColon_of_mem hcolon, ok_bind]
  change (if len * 2 ≠ BitVec.ofNat 32 buf.datlen then _ else _) = _
  by_cases hlen : len * 2 = BitVec.ofNat 32 buf.datlen
  · rw [if_neg (not_not.2 hlen), if_pos hlen]
    refine writeLoop_eq fun j _ hj => ?_
    have hdata := two_mul_le_datlen hlen
    have hle : buf.dataStart + buf.datlen = buf.len :=
      Nat.add_sub_of_le (RspBuf.dataStart_le hcolon)
    rw [RspBuf.readAt_of_le (by omega), ok_bind, RspBuf.readAt_of_le (by omega), ok_bind]
    rfl
  · rw [if_pos hlen, if_neg hlen]
    rfl

theorem rspWriteMem_of_notMem (hscan : scanAddrLen 'M' buf.text = some (addr, len))
    (hcolon : chr ':' ∉ buf.packet) : ∃ e, rspWriteMem M buf = .error e := by
  obtain ⟨e, he⟩ := afterColon_of_notMem hcolon
  rw [rspWriteMem, hscan]
  dsimp only
  rw [he]
  exact ⟨e, rfl⟩

theorem rspWriteMemBin_of_scan (hscan : scanAddrLen 'X' buf.text = some (addr, len))
    (hcolon : chr ':' ∈ buf.packet) :
    rspWriteMemBin M buf = .ok (writeResult buf.binByte addr (buf.binLength len) M) := by
  have hle : buf.dataStart + buf.datlen = buf.len := Nat.add_sub_of_le (RspBuf.dataStart_le hcolon)
  rw [rspWriteMemBin, hscan]
  dsimp only
  rw [afterColon_of_mem hcolon, ok_bind]
  change (unescapeAt buf buf.dataStart buf.datlen buf.data 0 0 >>= _) = _
  rw [unescapeAt_eq hle le_rfl, ok_bind]
  refine writeLoop_eq fun j _ hj => ?_
  have hlt : j < 0 + buf.binLength len := hj
  have hlen := (buf.binLength_le len).2
  have htake : (buf.data.take buf.dataStart).length = buf.dataStart := by
    have hmax := buf.len_lt
    rw [List.length_take, buf.length_data]
    omega
  rw [RspBuf.readAt_of_le (by omega), List.getD_append_right _ _ _ _ (by omega), htake,
    Nat.add_sub_cancel_left]
  rfl

theorem rspWriteMemBin_of_notMem (hscan : scanAddrLen 'X' buf.text = some (addr, len))
    (hcolon : chr ':' ∉ buf.packet) : ∃ e, rspWriteMemBin M buf = .error e := by
  obtain ⟨e, he⟩ := afterColon_of_notMem hcolon
  rw [rspWriteMemBin, hscan]
  dsimp only
  rw [he]
  exact ⟨e, rfl⟩

/-- A write goes on to its end or to an address outside memory, and fails only there. -/
theorem writeResult_spec (f : ℕ → Byte) (addr : Addr) {n : ℕ} (hn : n ≤ 2 ^ 32) (M : Memory) :
    ∃ k ≤ n, Patched M (writeResult f addr n M).1 addr f k ∧
      (k < n → mapped M (addr + BitVec.ofNat 32 k) = false) ∧
      ((writeResult f addr n M).2 = e01 → k < n) := by
  obtain ⟨k, hk, hpatched, hdone, hstop⟩ :=
    writeBytes_spec (n := n) (Patched.refl M addr f) (by omega)
  refine ⟨k, by omega, hpatched, ?_⟩
  cases hend : (writeBytes f addr n 0 M).2 with
  | true =>
    have hfull := hdone hend
    refine ⟨fun hlt => absurd hlt (by omega), fun h => ?_⟩
    rw [writeResult, hend] at h
    have hreply : okReply ≠ e01 := by decide
    exact absurd h hreply
  | false =>
    obtain ⟨hlt, hout⟩ := hstop hend
    exact ⟨fun _ => hout, fun _ => by omega⟩

/-! ### Failed writes -/

/-- What a failed write of `n` bytes leaves: the bytes before the first address outside memory are
written, and nothing else has changed. -/
def WrittenBefore (M N : Memory) (addr : Addr) (f : ℕ → Byte) (n : ℕ) : Prop :=
  ∃ k < n, mapped M (addr + BitVec.ofNat 32 k) = false ∧ Patched M N addr f k

theorem writtenBefore_of_e01 {f : ℕ → Byte} {n : ℕ} (hn : n ≤ 2 ^ 32)
    (h : writeResult f addr n M = (N, e01)) : WrittenBefore M N addr f n := by
  obtain ⟨k, -, hpatched, hout, hstop⟩ := writeResult_spec f addr hn M
  rw [h] at hpatched hstop
  exact ⟨k, hstop rfl, hout (hstop rfl), hpatched⟩

theorem rspWriteMem_e01 (h : rspWriteMem M buf = .ok (N, e01)) :
    N = M ∨ ∃ addr len, scanAddrLen 'M' buf.text = some (addr, len) ∧ chr ':' ∈ buf.packet ∧
      len * 2 = BitVec.ofNat 32 buf.datlen ∧
      WrittenBefore M N addr buf.symByte len.toInt.toNat := by
  cases hscan : scanAddrLen 'M' buf.text with
  | none =>
    rw [rspWriteMem, hscan] at h
    exact .inl (Prod.ext_iff.1 (Except.ok.inj h)).1.symm
  | some r =>
    obtain ⟨addr, len⟩ := r
    by_cases hcolon : chr ':' ∈ buf.packet
    · rw [rspWriteMem_of_scan hscan hcolon] at h
      have hres := Except.ok.inj h
      split at hres
      case isTrue hdigits =>
        have hn := toNat_toInt_lt len
        exact .inr ⟨addr, len, rfl, hcolon, hdigits, writtenBefore_of_e01 (by omega) hres⟩
      case isFalse => exact .inl (Prod.ext_iff.1 hres).1.symm
    · obtain ⟨e, he⟩ := rspWriteMem_of_notMem (M := M) hscan hcolon
      cases he.symm.trans h

theorem rspWriteMemBin_e01 (h : rspWriteMemBin M buf = .ok (N, e01)) :
    N = M ∨ ∃ addr len, scanAddrLen 'X' buf.text = some (addr, len) ∧ chr ':' ∈ buf.packet ∧
      WrittenBefore M N addr buf.binByte (buf.binLength len) := by
  cases hscan : scanAddrLen 'X' buf.text with
  | none =>
    rw [rspWriteMemBin, hscan] at h
    exact .inl (Prod.ext_iff.1 (Except.ok.inj h)).1.symm
  | some r =>
    obtain ⟨addr, len⟩ := r
    by_cases hcolon : chr ':' ∈ buf.packet
    · rw [rspWriteMemBin_of_scan hscan hcolon] at h
      have hn := toNat_toInt_lt len
      have hle := (buf.binLength_le len).1
      exact .inr ⟨addr, len, rfl, hcolon, writtenBefore_of_e01 (by omega) (Except.ok.inj h)⟩
    · obtain ⟨e, he⟩ := rspWriteMemBin_of_notMem (M := M) hscan hcolon
      cases he.symm.trans h

theorem or1ksimWriteMem_none {addr : BitVec 64} (h : or1ksimWriteMem M addr f len = (N, none)) :
    WrittenBefore M N (addr.setWidth 32) f len.toInt.toNat := by
  have hn := toNat_toInt_lt len
  obtain ⟨k, -, hpatched, -, hstop⟩ := writeBytes_spec (n := len.toInt.toNat)
    (Patched.refl M (addr.setWidth 32) f) (by omega)
  cases hend : (writeBytes f (addr.setWidth 32) len.toInt.toNat 0 M).2 with
  | true =>
    rw [or1ksimWriteMem, hend] at h
    exact absurd (Prod.ext_iff.1 h).2 (by simp)
  | false =>
    obtain rfl : (writeBytes f (addr.setWidth 32) len.toInt.toNat 0 M).1 = N :=
      (Prod.ext_iff.1 h).1
    obtain ⟨hk, hout⟩ := hstop hend
    exact ⟨k, by omega, hout, hpatched⟩

/-- **What a failed write changes**: nothing, or, for a request with a header and as many digits as
it says, the bytes before the first address outside memory, which hold the data of the request. -/
theorem failed_writes (M N : Memory) :
    (∀ buf, rspWriteMem M buf = .ok (N, e01) →
      N = M ∨ ∃ addr len, scanAddrLen 'M' buf.text = some (addr, len) ∧ chr ':' ∈ buf.packet ∧
        len * 2 = BitVec.ofNat 32 buf.datlen ∧
          WrittenBefore M N addr buf.symByte len.toInt.toNat) ∧
    (∀ buf, rspWriteMemBin M buf = .ok (N, e01) →
      N = M ∨ ∃ addr len, scanAddrLen 'X' buf.text = some (addr, len) ∧ chr ':' ∈ buf.packet ∧
        WrittenBefore M N addr buf.binByte (buf.binLength len)) ∧
    ∀ addr buf len, or1ksimWriteMem M addr buf len = (N, none) →
      WrittenBefore M N (addr.setWidth 32) buf len.toInt.toNat :=
  ⟨fun _ => rspWriteMem_e01, fun _ => rspWriteMemBin_e01, fun _ _ _ => or1ksimWriteMem_none⟩

/-- Two bytes written across the end of a memory of eight bytes. -/
theorem failed_write_across_end :
    ¬∀ M N : Memory, (∀ buf, rspWriteMem M buf = .ok (N, e01) → N = M) ∧
      (∀ buf, rspWriteMemBin M buf = .ok (N, e01) → N = M) ∧
      ∀ addr buf len, or1ksimWriteMem M addr buf len = (N, none) → N = M := by
  intro h
  have hrun : rspWriteMem ⟨[⟨~~~7#32, 0, true, 1, 1⟩], fun _ => 0⟩
      (.ofPacket ("M7,2:1122".toList.map chr) (by decide)) =
        .ok (⟨[⟨~~~7#32, 0, true, 1, 1⟩], simmemWrite8 (fun _ => 0) 7 0x11⟩, e01) := rfl
  have hsame := congrArg (fun M : Memory => target M.bytes 7) ((h _ _).1 _ hrun)
  exact absurd hsame (by decide)

end Rsp
end Or1ksim
