import Mathlib.Data.BitVec
import Mathlib.Tactic.IntervalCases
import Or1ksim.Rsp.Registers

/-!
# RSP packets

The framing of the GDB remote serial protocol server (`debug/rsp-server.c`).  A packet is sent as
`$`, its escaped bytes, `#` and two digits of checksum, and sent again until it is acknowledged.

* `putPacket`, `getPacket`, `rspUnescape` — sending, receiving and unescaping;
* `getPacket_frame`, `getPacket_frame_of_long` — a frame is received, or dropped if it is too long;
* `getPacket_putPacket` — **the round trip**: what is sent is received, whatever the bytes are.
-/

namespace Or1ksim
namespace Rsp

/-- A character as a byte. -/
def chr (c : Char) : Byte := BitVec.ofNat 8 c.toNat

/-- `GDB_BUF_MAX`. -/
def gdbBufMax : ℕ := 35 * 8 + 1

/-- `hexchars`. -/
def hexchars : List Char :=
  ['0', '1', '2', '3', '4', '5', '6', '7', '8', '9', 'a', 'b', 'c', 'd', 'e', 'f']

/-! ### Sending -/

/-- The bytes that are escaped. -/
def Special (ch : Byte) : Prop := ch = chr '$' ∨ ch = chr '#' ∨ ch = chr '*' ∨ ch = chr '}'

instance (ch : Byte) : Decidable (Special ch) :=
  inferInstanceAs (Decidable (ch = chr '$' ∨ ch = chr '#' ∨ ch = chr '*' ∨ ch = chr '}'))

/-- One round of the loop over the data: the checksum and the bytes put so far. -/
def putChar (sent : Byte × List Byte) (ch : Byte) : Byte × List Byte :=
  if Special ch then
    (sent.1 + chr '}' + (ch ^^^ 0x20#8), sent.2 ++ [chr '}', ch ^^^ 0x20#8])
  else (sent.1 + ch, sent.2 ++ [ch])

/-- The bytes put for one attempt. -/
def frame (p : List Byte) : List Byte :=
  let body := p.foldl putChar (0, [])
  chr '$' :: body.2 ++
    [chr '#', chr (hexchars.getD (body.1 >>> 4).toNat '0'),
      chr (hexchars.getD (body.1 % 16).toNat '0')]

/-- `put_packet`: the bytes put, and what is left of the client's answers.  The packet is put again
until the client acknowledges it or the connection fails. -/
def putPacket (p : List Byte) : List Byte → List Byte × List Byte
  | [] => (frame p, [])
  | ch :: acks =>
    if ch ≠ chr '+' then (frame p ++ (putPacket p acks).1, (putPacket p acks).2)
    else (frame p, acks)

/-! ### Receiving -/

/-- What `get_packet` does with its input. -/
structure Received where
  /-- The packet, or `none` when the connection failed. -/
  buf : Option (List Byte)
  /-- The acknowledgements put. -/
  replies : List Byte
  /-- The input not yet read. -/
  rest : List Byte
deriving DecidableEq, Repr

/-- `hex` of a byte. -/
def hexOf (c : Byte) : Word := hex (Char.ofNat c.toNat)

mutual

/-- `get_packet`: wait for the start character.  The end of the input is a failed connection. -/
def getPacket : List Byte → Received
  | [] => ⟨none, [], []⟩
  | ch :: input => if ch ≠ chr '$' then getPacket input else readBody 0 [] input

/-- Read until the end character or the end of the buffer. -/
def readBody (checksum : Byte) (data : List Byte) : List Byte → Received
  | [] => ⟨none, [], []⟩
  | ch :: input =>
    if ch = chr '$' then readBody 0 [] input
    else if ch = chr '#' then readChecksum checksum data input
    else if data.length + 1 < gdbBufMax - 1 then readBody (checksum + ch) (data ++ [ch]) input
    -- The packet overran the buffer; look for the next one.
    else getPacket input

/-- Read the checksum and acknowledge the packet. -/
def readChecksum (checksum : Byte) (data : List Byte) : List Byte → Received
  | [] => ⟨none, [], []⟩
  | [_] => ⟨none, [], []⟩
  | hi :: lo :: input =>
    if checksum ≠ (hexOf hi <<< 4).setWidth 8 + (hexOf lo).setWidth 8 then
      let next := getPacket input
      { next with replies := chr '-' :: next.replies }
    else ⟨some data, [chr '+'], input⟩

end

/-- The loop of `rsp_unescape`, in place.  The cell after the data holds the end of string. -/
def unescapeLoop (len : ℕ) (data : List Byte) (fromOff toOff : ℕ) : List Byte × ℕ :=
  if fromOff < len then
    if data.getD fromOff 0 = chr '}' then
      unescapeLoop len (data.set toOff (data.getD (fromOff + 1) 0 ^^^ 0x20#8)) (fromOff + 2)
        (toOff + 1)
    else unescapeLoop len (data.set toOff (data.getD fromOff 0)) (fromOff + 1) (toOff + 1)
  else (data, toOff)
termination_by len - fromOff

/-- `rsp_unescape`: the array after it and the number of bytes it returns. -/
def rspUnescape (data : List Byte) (len : ℕ) : List Byte × ℕ := unescapeLoop len data 0 0

/-- What a client finds in a received packet: its bytes after `rsp_unescape`. -/
def unescaped (buf : List Byte) : List Byte :=
  (rspUnescape buf buf.length).1.take (rspUnescape buf buf.length).2

/-! ### Escaped bytes -/

/-- The bytes put for one byte of data. -/
def escape (ch : Byte) : List Byte := if Special ch then [chr '}', ch ^^^ 0x20#8] else [ch]

/-- The escaped form of a packet. -/
def escaped (p : List Byte) : List Byte := p.flatMap escape

theorem xor_of_special {ch : Byte} (h : Special ch) :
    ch ^^^ 0x20#8 ≠ chr '$' ∧ ch ^^^ 0x20#8 ≠ chr '#' := by
  rcases h with rfl | rfl | rfl | rfl <;> decide

theorem ne_of_mem_escaped {p : List Byte} {c : Byte} (hc : c ∈ escaped p) :
    c ≠ chr '$' ∧ c ≠ chr '#' := by
  obtain ⟨ch, -, hc⟩ := List.mem_flatMap.1 hc
  unfold escape at hc
  split_ifs at hc with hspecial
  · rcases List.mem_pair.1 hc with rfl | rfl
    · decide
    · exact xor_of_special hspecial
  · obtain rfl := List.mem_singleton.1 hc
    exact ⟨fun h => hspecial (.inl h), fun h => hspecial (.inr (.inl h))⟩

/-- The loop of `put_packet` puts the escaped form and sums it up. -/
theorem foldl_putChar (p : List Byte) (checksum : Byte) (out : List Byte) :
    p.foldl putChar (checksum, out) = (checksum + (escaped p).sum, out ++ escaped p) := by
  induction p generalizing checksum out with
  | nil => simp [escaped]
  | cons ch p ih =>
    have hcons : escaped (ch :: p) = escape ch ++ escaped p := rfl
    rw [List.foldl_cons, putChar, hcons, escape]
    split_ifs
    · rw [ih]
      simp [BitVec.add_assoc]
    · rw [ih]
      simp [BitVec.add_assoc]

theorem hexOf_hexchars (c : Byte) :
    c = (hexOf (chr (hexchars.getD (c >>> 4).toNat '0')) <<< 4).setWidth 8 +
      (hexOf (chr (hexchars.getD (c % 16).toNat '0'))).setWidth 8 := by
  revert c
  decide

/-! ### The round trip -/

theorem getPacket_skip {junk : List Byte} (h : ∀ c ∈ junk, c ≠ chr '$') (input : List Byte) :
    getPacket (junk ++ input) = getPacket input := by
  induction junk with
  | nil => rfl
  | cons c junk ih =>
    rw [List.cons_append, getPacket, if_pos (h c List.mem_cons_self)]
    exact ih fun c hc => h c (List.mem_cons_of_mem _ hc)

/-- Bytes that are not framing characters go to the buffer, as long as they fit. -/
theorem readBody_append (bs : List Byte) (checksum : Byte) (data input : List Byte)
    (hbs : ∀ c ∈ bs, c ≠ chr '$' ∧ c ≠ chr '#')
    (hlen : data.length + bs.length < gdbBufMax - 1) :
    readBody checksum data (bs ++ input) = readBody (checksum + bs.sum) (data ++ bs) input := by
  induction bs generalizing checksum data with
  | nil => simp
  | cons c bs ih =>
    obtain ⟨hstart, hend⟩ := hbs c List.mem_cons_self
    rw [List.length_cons] at hlen
    rw [List.cons_append, readBody, if_neg hstart, if_neg hend, if_pos (by omega),
      ih _ _ (fun c hc => hbs c (List.mem_cons_of_mem _ hc))
        (by rw [List.length_append, List.length_singleton]; omega),
      List.sum_cons, BitVec.add_assoc, List.append_assoc, List.singleton_append]

theorem readBody_overrun (bs : List Byte) (checksum : Byte) (data input : List Byte)
    (hbs : ∀ c ∈ bs, c ≠ chr '$' ∧ c ≠ chr '#') (hdata : data.length < gdbBufMax - 1)
    (hlen : gdbBufMax - 1 ≤ data.length + bs.length) :
    readBody checksum data (bs ++ input) = getPacket input := by
  induction bs generalizing checksum data with
  | nil => exact absurd hlen (not_le.2 hdata)
  | cons c bs ih =>
    obtain ⟨hstart, hend⟩ := hbs c List.mem_cons_self
    have htail : ∀ c ∈ bs, c ≠ chr '$' ∧ c ≠ chr '#' :=
      fun c hc => hbs c (List.mem_cons_of_mem _ hc)
    rw [List.length_cons] at hlen
    rw [List.cons_append, readBody, if_neg hstart, if_neg hend]
    split
    case isTrue hroom =>
      have hnext : (data ++ [c]).length = data.length + 1 := List.length_append
      exact ih _ _ htail (by omega) (by omega)
    case isFalse => exact getPacket_skip (fun c hc => (htail c hc).1) input

/-- The bytes put for one attempt: the escaped form between a start and an end. -/
theorem frame_eq (p : List Byte) :
    frame p = chr '$' :: (escaped p ++
      [chr '#', chr (hexchars.getD ((escaped p).sum >>> 4).toNat '0'),
        chr (hexchars.getD ((escaped p).sum % 16).toNat '0')]) := by
  rw [frame, foldl_putChar]
  simp

/-- One attempt of `put_packet` is received as the escaped form. -/
theorem getPacket_frame (p input : List Byte) (h : (escaped p).length < gdbBufMax - 1) :
    getPacket (frame p ++ input) = ⟨some (escaped p), [chr '+'], input⟩ := by
  have hbody := readBody_append (escaped p) 0 []
    ([chr '#', chr (hexchars.getD ((escaped p).sum >>> 4).toNat '0'),
      chr (hexchars.getD ((escaped p).sum % 16).toNat '0')] ++ input)
    (fun c hc => ne_of_mem_escaped hc) (by simpa using h)
  rw [frame_eq, List.cons_append, getPacket, if_neg (by simp), List.append_assoc, hbody]
  have hsum : 0 + (escaped p).sum = (escaped p).sum := BitVec.zero_add _
  simp only [List.cons_append, List.nil_append, hsum]
  rw [readBody, if_neg (by decide), if_pos rfl, readChecksum,
    if_neg (not_not.2 (hexOf_hexchars (escaped p).sum))]

theorem chr_hexchars_ne_start : ∀ n, chr (hexchars.getD n '0') ≠ chr '$' := by
  intro n
  by_cases hn : n < 16
  · interval_cases n <;> decide
  · rw [List.getD_eq_default _ _ (not_lt.1 hn)]
    decide

/-- An attempt that does not fit the buffer is as if it had not been put. -/
theorem getPacket_frame_of_long (p input : List Byte) (h : gdbBufMax - 1 ≤ (escaped p).length) :
    getPacket (frame p ++ input) = getPacket input := by
  rw [frame_eq, List.cons_append, getPacket, if_neg (by simp), List.append_assoc,
    readBody_overrun (escaped p) 0 [] _ (fun c hc => ne_of_mem_escaped hc) (by decide)
      (by simpa using h)]
  refine getPacket_skip (fun c hc => ?_) input
  rcases List.mem_cons.1 hc with rfl | hc
  · decide
  · rcases List.mem_pair.1 hc with rfl | rfl <;> exact chr_hexchars_ne_start _

theorem length_le_escaped (p : List Byte) : p.length ≤ (escaped p).length := by
  induction p with
  | nil => exact le_rfl
  | cons ch p ih =>
    have hcons : (escaped (ch :: p)).length = (escape ch).length + (escaped p).length :=
      List.length_append
    have hone : 1 ≤ (escape ch).length := by
      unfold escape
      split
      · exact one_le_two
      · exact le_rfl
    rw [hcons, List.length_cons]
    omega

/-- A packet without special bytes is its own escaped form. -/
theorem escaped_of_plain {p : List Byte} (h : ∀ c ∈ p, ¬Special c) : escaped p = p := by
  induction p with
  | nil => rfl
  | cons ch p ih =>
    have hcons : escaped (ch :: p) = escape ch ++ escaped p := rfl
    rw [hcons, escape, if_neg (h ch List.mem_cons_self),
      ih fun c hc => h c (List.mem_cons_of_mem _ hc)]
    rfl

theorem putPacket_eq_frame_append (p acks : List Byte) :
    (putPacket p acks).1 = frame p ++ (putPacket p acks).1.drop (frame p).length := by
  cases acks with
  | nil => simp [putPacket]
  | cons ch acks =>
    rw [putPacket]
    split_ifs <;> simp

theorem getD_of_drop_eq {data l : List Byte} {k : ℕ} {c : Byte} (h : data.drop k = c :: l) :
    data.getD k 0 = c := by
  rw [List.getD_eq_getElem?_getD, ← List.head?_drop, h]
  rfl

theorem drop_add_one_of_drop_eq {data l : List Byte} {k : ℕ} {c : Byte}
    (h : data.drop k = c :: l) : data.drop (k + 1) = l := by
  rw [← List.tail_drop, h, List.tail_cons]

/-- A byte stored at the end of the finished part extends it. -/
theorem take_set_of_le {data : List Byte} {k : ℕ} (hk : k < data.length) (x : Byte) :
    (data.set k x).take (k + 1) = data.take k ++ [x] := by
  rw [List.take_add_one, List.take_set_of_le (le_refl k), List.getElem?_set_self hk]
  rfl

/-- **Unescaping in place.**  The finished part is behind the bytes still to be read, so nothing is
overwritten before it is read. -/
theorem unescapeLoop_spec (q : List Byte) {data : List Byte} {fromOff toOff : ℕ}
    (hle : toOff ≤ fromOff) (hlen : fromOff ≤ data.length)
    (hq : data.drop fromOff = escaped q) :
    (unescapeLoop data.length data fromOff toOff).1.take
        (unescapeLoop data.length data fromOff toOff).2 =
      data.take toOff ++ q := by
  induction q generalizing data fromOff toOff with
  | nil =>
    have hend : data.length ≤ fromOff := List.drop_eq_nil_iff.1 hq
    rw [unescapeLoop, if_neg (by omega), List.append_nil]
  | cons ch q ih =>
    have hcons : data.drop fromOff = escape ch ++ escaped q := hq
    have hlt : fromOff < data.length := by
      by_contra hge
      rw [List.drop_eq_nil_iff.2 (not_lt.1 hge), escape] at hcons
      split_ifs at hcons <;> exact absurd hcons (by simp)
    rw [unescapeLoop, if_pos hlt]
    unfold escape at hcons
    split_ifs at hcons with hspecial
    · have hesc : data.drop (fromOff + 1) = (ch ^^^ 0x20#8) :: escaped q :=
        drop_add_one_of_drop_eq hcons
      have hnext := drop_add_one_of_drop_eq hesc
      have hlen' : (data.drop (fromOff + 1)).length = data.length - (fromOff + 1) :=
        List.length_drop
      rw [hesc, List.length_cons] at hlen'
      have hbyte : ch ^^^ 0x20#8 ^^^ 0x20#8 = ch := by
        rw [BitVec.xor_assoc, BitVec.xor_self, BitVec.xor_zero]
      rw [getD_of_drop_eq hcons, if_pos rfl, getD_of_drop_eq hesc, hbyte]
      have hih := @ih (data.set toOff ch) (fromOff + 2) (toOff + 1) (by omega)
        (by rw [List.length_set]; omega) (by rw [List.drop_set_of_lt (by omega)]; exact hnext)
      rw [List.length_set, take_set_of_le (by omega)] at hih
      rw [hih, List.append_assoc, List.singleton_append]
    · have hne : ch ≠ chr '}' := fun h => hspecial (.inr (.inr (.inr h)))
      rw [getD_of_drop_eq hcons, if_neg hne]
      have hih := @ih (data.set toOff ch) (fromOff + 1) (toOff + 1) (by omega)
        (by rw [List.length_set]; omega)
        (by rw [List.drop_set_of_lt (by omega)]; exact drop_add_one_of_drop_eq hcons)
      rw [List.length_set, take_set_of_le (by omega)] at hih
      rw [hih, List.append_assoc, List.singleton_append]

theorem unescaped_escaped (p : List Byte) : unescaped (escaped p) = p :=
  @unescapeLoop_spec p (escaped p) 0 0 (le_refl 0) (Nat.zero_le _) rfl

/-- **The round trip of a packet.**  A packet whose escaped form fits the buffer is received from
what `put_packet` sends, whatever the client answers and whatever comes before it but a `$`; it is
acknowledged at once, and unescaping it gives the packet back. -/
theorem getPacket_putPacket (p : List Byte) (h : (escaped p).length < gdbBufMax - 1)
    (junk : List Byte) (hjunk : ∀ c ∈ junk, c ≠ chr '$') (acks rest : List Byte) :
    ∃ buf, getPacket (junk ++ (putPacket p acks).1 ++ rest) =
        ⟨some buf, [chr '+'], (putPacket p acks).1.drop (frame p).length ++ rest⟩ ∧
      unescaped buf = p := by
  refine ⟨escaped p, ?_, unescaped_escaped p⟩
  rw [List.append_assoc, getPacket_skip hjunk, putPacket_eq_frame_append, List.append_assoc,
    getPacket_frame p _ h, ← putPacket_eq_frame_append]

/-- Framing characters and a null byte, sent twice after a stray acknowledgement. -/
theorem getPacket_putPacket_special :
    ∃ buf, getPacket
          ([chr '+'] ++ (putPacket [chr '$', 0, chr '}', chr '#'] [chr '-', chr '+']).1 ++ []) =
        ⟨some buf, [chr '+'], (putPacket [chr '$', 0, chr '}', chr '#'] [chr '-', chr '+']).1.drop
          (frame [chr '$', 0, chr '}', chr '#']).length ++ []⟩ ∧
      unescaped buf = [chr '$', 0, chr '}', chr '#'] :=
  getPacket_putPacket [chr '$', 0, chr '}', chr '#'] (by decide) [chr '+'] (by decide) _ []

end Rsp
end Or1ksim
