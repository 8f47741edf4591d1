import Or1ksim.Rsp.Memory
import Or1ksim.Rsp.RoundTrip

/-!
# Digits in RSP packets

`hex` answers `-1` for a character that is no digit, and its callers go on with that.

* `frames` — the packets that are framed in a stream, whatever their checksums are;
* `getPacket_frames` — `get_packet` answers the first of them whose characters after `#` come to its
  sum;
* `hex_digits_iff` — **when only digits are accepted**, in the checksum, in a write of memory and in
  a write of a register.
-/

namespace Or1ksim
namespace Rsp

open Scan Cpu Loader Overlay

/-- The digit that a byte is. -/
def digit (c : Byte) : Option ℕ := hexDigit (Char.ofNat c.toNat)

/-! ### Checksums -/

/-- A framed packet: its bytes, the two characters after `#`, and what comes after them. -/
structure Frame where
  data : List Byte
  hi : Byte
  lo : Byte
  rest : List Byte

/-- `xmitcsum`. -/
def Frame.xmitcsum (f : Frame) : Byte := (hexOf f.hi <<< 4).setWidth 8 + (hexOf f.lo).setWidth 8

/-- The checksum that was sent is the sum of the bytes. -/
def Frame.accepted (f : Frame) : Bool := f.data.sum = f.xmitcsum

mutual

/-- The packets framed in a stream. -/
def frames : List Byte → List Frame
  | [] => []
  | ch :: input => if ch ≠ chr '$' then frames input else framesBody [] input

/-- The packets framed in a stream, in the middle of one. -/
def framesBody (data : List Byte) : List Byte → List Frame
  | [] => []
  | ch :: input =>
    if ch = chr '$' then framesBody [] input
    else if ch = chr '#' then framesChecksum data input
    else if data.length + 1 < gdbBufMax - 1 then framesBody (data ++ [ch]) input
    else frames input

/-- The packets framed in a stream, at the end of one. -/
def framesChecksum (data : List Byte) : List Byte → List Frame
  | [] => []
  | [_] => []
  | hi :: lo :: input => ⟨data, hi, lo, input⟩ :: frames input

end

/-- The outcome of `get_packet` is the first packet accepted. -/
structure Answers (r : Received) (fs : List Frame) : Prop where
  buf : r.buf = (fs.find? Frame.accepted).map Frame.data
  rest : ∀ f, fs.find? Frame.accepted = some f → r.rest = f.rest

theorem Answers.none : Answers ⟨.none, [], []⟩ [] := ⟨rfl, fun _ h => nomatch h⟩

mutual

theorem getPacket_frames (input : List Byte) : Answers (getPacket input) (frames input) := by
  cases input with
  | nil => exact .none
  | cons ch input =>
    rw [getPacket, frames]
    split
    · exact getPacket_frames input
    · exact readBody_frames [] input

theorem readBody_frames (data input : List Byte) :
    Answers (readBody data.sum data input) (framesBody data input) := by
  cases input with
  | nil => exact .none
  | cons ch input =>
    rw [readBody, framesBody]
    split
    · exact readBody_frames [] input
    · split
      · exact readChecksum_frames data input
      · split
        · have hsum : (data ++ [ch]).sum = data.sum + ch := by simp
          rw [← hsum]
          exact readBody_frames (data ++ [ch]) input
        · exact getPacket_frames input

theorem readChecksum_frames (data input : List Byte) :
    Answers (readChecksum data.sum data input) (framesChecksum data input) := by
  cases input with
  | nil => exact .none
  | cons hi input =>
    cases input with
    | nil => exact .none
    | cons lo input =>
      rw [readChecksum, framesChecksum]
      split
      case isTrue hne =>
        have hrest := getPacket_frames input
        have hfind : (⟨data, hi, lo, input⟩ :: frames input).find? Frame.accepted =
            (frames input).find? Frame.accepted :=
          List.find?_cons_of_neg (by simpa [Frame.accepted, Frame.xmitcsum] using hne)
        exact ⟨by rw [hfind]; exact hrest.buf, by rw [hfind]; exact hrest.rest⟩
      case isFalse heq =>
        have hfind : (⟨data, hi, lo, input⟩ :: frames input).find? Frame.accepted =
            some ⟨data, hi, lo, input⟩ :=
          List.find?_cons_of_pos (by simpa [Frame.accepted, Frame.xmitcsum] using heq)
        refine ⟨by rw [hfind]; rfl, fun f hf => ?_⟩
        obtain rfl := Option.some.inj (hfind.symm.trans hf)
        rfl

end

mutual

theorem mem_frames {f : Frame} (input : List Byte) (hf : f ∈ frames input) :
    (chr '#' :: f.hi :: f.lo :: f.rest) <:+ input := by
  cases input with
  | nil => cases hf
  | cons ch input =>
    rw [frames] at hf
    refine List.IsSuffix.trans ?_ (List.suffix_cons ch input)
    split at hf
    · exact mem_frames input hf
    · exact mem_framesBody [] input hf

theorem mem_framesBody {f : Frame} (data input : List Byte) (hf : f ∈ framesBody data input) :
    (chr '#' :: f.hi :: f.lo :: f.rest) <:+ input := by
  cases input with
  | nil => cases hf
  | cons ch input =>
    rw [framesBody] at hf
    split at hf
    · exact (mem_framesBody [] input hf).trans (List.suffix_cons ch input)
    · split at hf
      case isTrue hend =>
        rw [hend]
        exact mem_framesChecksum data input hf
      case isFalse =>
        refine List.IsSuffix.trans ?_ (List.suffix_cons ch input)
        split at hf
        · exact mem_framesBody (data ++ [ch]) input hf
        · exact mem_frames input hf

theorem mem_framesChecksum {f : Frame} (data input : List Byte)
    (hf : f ∈ framesChecksum data input) :
    (chr '#' :: f.hi :: f.lo :: f.rest) <:+ chr '#' :: input := by
  cases input with
  | nil => cases hf
  | cons hi input =>
    cases input with
    | nil => cases hf
    | cons lo input =>
      rw [framesChecksum] at hf
      rcases List.mem_cons.1 hf with rfl | hf
      · exact List.suffix_rfl
      · exact (mem_frames input hf).trans
          ⟨[chr '#', hi, lo], rfl⟩

end

theorem xmitcsum_of_digits {f : Frame} {d e : ℕ} (hd : digit f.hi = some d)
    (he : digit f.lo = some e) : f.xmitcsum = BitVec.ofNat 8 (16 * d + e) := by
  have hdlt := hexDigit_lt hd
  have helt := hexDigit_lt he
  have hhi : hexOf f.hi = BitVec.ofNat 32 d := by
    rw [hexOf, hex, show hexDigit (Char.ofNat f.hi.toNat) = some d from hd]
  have hlo : hexOf f.lo = BitVec.ofNat 32 e := by
    rw [hexOf, hex, show hexDigit (Char.ofNat f.lo.toNat) = some e from he]
  rw [Frame.xmitcsum, hhi, hlo]
  apply BitVec.eq_of_toNat_eq
  simp only [BitVec.toNat_add, BitVec.toNat_setWidth, BitVec.toNat_shiftLeft, BitVec.toNat_ofNat,
    Nat.shiftLeft_eq]
  omega

/-- `get_packet` acknowledges only a packet with a checksum of two digits. -/
def ChecksumOfDigits (input : List Byte) : Prop :=
  ∀ data, (getPacket input).buf = some data →
    ∃ hi lo d e, (chr '#' :: hi :: lo :: (getPacket input).rest) <:+ input ∧
      digit hi = some d ∧ digit lo = some e ∧ data.sum = BitVec.ofNat 8 (16 * d + e)

theorem checksumOfDigits_iff (input : List Byte) :
    ChecksumOfDigits input ↔ ∀ f, (frames input).find? Frame.accepted = some f →
      (digit f.hi).isSome = true ∧ (digit f.lo).isSome = true := by
  have hanswers := getPacket_frames input
  constructor
  · intro h f hf
    obtain ⟨hi, lo, d, e, hsuffix, hd, he, -⟩ := h f.data (by rw [hanswers.buf, hf]; rfl)
    rw [hanswers.rest f hf] at hsuffix
    -- both are suffixes of the input and have the same rest, so they have the same checksum
    have hframe := mem_frames input (List.mem_of_find?_eq_some hf)
    have heq := (List.suffix_of_suffix_length_le hsuffix hframe (by simp)).eq_of_length (by simp)
    obtain ⟨-, hrest⟩ := List.cons.inj heq
    obtain ⟨rfl, hlast⟩ := List.cons.inj hrest
    obtain ⟨rfl, -⟩ := List.cons.inj hlast
    rw [hd, he]
    exact ⟨rfl, rfl⟩
  · intro h data hdata
    rw [hanswers.buf] at hdata
    obtain ⟨f, hf, rfl⟩ := Option.map_eq_some_iff.1 hdata
    obtain ⟨hhi, hlo⟩ := h f hf
    obtain ⟨d, hd⟩ := Option.isSome_iff_exists.1 hhi
    obtain ⟨e, he⟩ := Option.isSome_iff_exists.1 hlo
    refine ⟨f.hi, f.lo, d, e, ?_, hd, he, ?_⟩
    · rw [hanswers.rest f hf]
      exact mem_frames input (List.mem_of_find?_eq_some hf)
    · have haccepted : f.data.sum = f.xmitcsum := by
        simpa [Frame.accepted] using List.find?_some hf
      rw [haccepted, xmitcsum_of_digits hd he]

/-! ### Memory -/

variable {M N : Memory} {addr : Addr} {f : ℕ → Byte} {n k : ℕ}

theorem hostByte_hostByte (a : Addr) : hostByte (hostByte a) = a := by
  apply BitVec.eq_of_toNat_eq
  rw [toNat_hostByte, toNat_hostByte]
  omega

theorem target_injective {m m' : Bytes} (h : target m = target m') : m = m' := by
  funext a
  have hbyte := congrFun h (hostByte a)
  rwa [target, target, simmemRead8, simmemRead8, hostByte_hostByte] at hbyte

/-- A patch changes nothing when its bytes were there before. -/
theorem Patched.eq_iff (h : Patched M N addr f k) (hk : k ≤ 2 ^ 32) :
    N = M ↔ ∀ j < k, target M.bytes (addr + BitVec.ofNat 32 j) = f j := by
  have hlen : ((List.range k).map f).length ≤ 2 ^ 32 := by simpa using hk
  have hat : ∀ j < k, Patch.at ⟨addr, (List.range k).map f⟩ (addr + BitVec.ofNat 32 j) =
      some (f j) := fun j hj => (at_eq_some_iff hlen).2 ⟨j, by simp [hj], rfl⟩
  constructor
  · rintro rfl j hj
    rw [h.bytes, overlay_of_some (h.inside j hj) (hat j hj)]
  · intro hsame
    have hbytes : target N.bytes = target M.bytes := by
      rw [h.bytes]
      funext b
      -- outside the patch nothing is written; inside it the byte was there
      cases hb : Patch.at ⟨addr, (List.range k).map f⟩ b with
      | none => exact overlay_of_none hb
      | some v =>
        obtain ⟨j, hj, rfl⟩ := (at_eq_some_iff hlen).1 hb
        rw [List.getElem?_map] at hj
        obtain ⟨i, hi, rfl⟩ := Option.map_eq_some_iff.1 hj
        obtain ⟨hlt, rfl⟩ := List.getElem?_eq_some_iff.1 hi
        rw [List.length_range] at hlt
        rw [List.getElem_range] at hb
        rw [overlay_of_some (h.inside j hlt) hb]
        exact (hsame j hlt).symm
    have hareas := h.areas
    cases M
    cases N
    exact congrArg₂ Memory.mk hareas (target_injective hbytes)

/-- A loop of writes changes nothing when the bytes that it comes to were there before. -/
theorem writeResult_eq_iff (hn : n ≤ 2 ^ 32) :
    (writeResult f addr n M).1 = M ↔
      ∀ j < n, (∀ i ≤ j, mapped M (addr + BitVec.ofNat 32 i) = true) →
        target M.bytes (addr + BitVec.ofNat 32 j) = f j := by
  obtain ⟨k, hk, hpatched, hout, -⟩ := writeResult_spec f addr hn M
  rw [hpatched.eq_iff (by omega)]
  constructor
  · intro h j hj hin
    refine h j (Nat.lt_of_not_le fun hle => ?_)
    have := hin k hle
    rw [hout (by omega)] at this
    cases this
  · exact fun h j hj => h j (by omega) fun i hi => hpatched.inside i (by omega)

/-- `rsp_write_mem` changes memory only for digits. -/
def MemoryOfDigits (M : Memory) (buf : RspBuf) : Prop :=
  ∀ N reply, rspWriteMem M buf = .ok (N, reply) → N ≠ M →
    ∀ c ∈ buf.packet.drop buf.dataStart, (digit c).isSome = true

theorem rspWriteMem_unchanged_iff (M : Memory) (buf : RspBuf) :
    (∀ N reply, rspWriteMem M buf = .ok (N, reply) → N = M) ↔
      ∀ addr len, scanAddrLen 'M' buf.text = some (addr, len) → chr ':' ∈ buf.packet →
        len * 2 = BitVec.ofNat 32 buf.datlen →
        ∀ j < len.toInt.toNat, (∀ i ≤ j, mapped M (addr + BitVec.ofNat 32 i) = true) →
          target M.bytes (addr + BitVec.ofNat 32 j) = buf.symByte j := by
  cases hscan : scanAddrLen 'M' buf.text with
  | none =>
    refine iff_of_true (fun N reply h => ?_) fun _ _ h => by cases h
    rw [rspWriteMem, hscan] at h
    exact (Prod.ext_iff.1 (Except.ok.inj h)).1.symm
  | some r =>
    obtain ⟨addr, len⟩ := r
    have hn := toNat_toInt_lt len
    have hone : (∀ addr' len', some (addr, len) = some (addr', len') → chr ':' ∈ buf.packet →
        len' * 2 = BitVec.ofNat 32 buf.datlen → ∀ j < len'.toInt.toNat,
          (∀ i ≤ j, mapped M (addr' + BitVec.ofNat 32 i) = true) →
            target M.bytes (addr' + BitVec.ofNat 32 j) = buf.symByte j) ↔
        (chr ':' ∈ buf.packet → len * 2 = BitVec.ofNat 32 buf.datlen →
          (writeResult buf.symByte addr len.toInt.toNat M).1 = M) := by
      rw [writeResult_eq_iff (by omega)]
      exact ⟨fun h => h addr len rfl, fun h _ _ heq => by cases heq; exact h⟩
    rw [hone]
    -- memory is written only after a colon, and only when the length fits the digits
    by_cases hcolon : chr ':' ∈ buf.packet
    · rw [rspWriteMem_of_scan hscan hcolon, imp_iff_right hcolon]
      by_cases hlen : len * 2 = BitVec.ofNat 32 buf.datlen
      · rw [if_pos hlen, imp_iff_right hlen]
        exact ⟨fun h => h _ _ rfl, fun h N reply heq => by
          rw [← h]; exact (Prod.ext_iff.1 (Except.ok.inj heq)).1.symm⟩
      · rw [if_neg hlen]
        exact iff_of_true (fun N reply h => (Prod.ext_iff.1 (Except.ok.inj h)).1.symm)
          fun h => absurd h hlen
    · obtain ⟨e, he⟩ := rspWriteMem_of_notMem (M := M) hscan hcolon
      exact iff_of_true (fun N reply h => by cases he.symm.trans h) fun h => absurd h hcolon

/-- A write of memory takes digits, or puts there what was there before. -/
theorem memoryOfDigits_iff (M : Memory) (buf : RspBuf) :
    MemoryOfDigits M buf ↔
      (∀ c ∈ buf.packet.drop buf.dataStart, (digit c).isSome = true) ∨
        ∀ addr len, scanAddrLen 'M' buf.text = some (addr, len) → chr ':' ∈ buf.packet →
          len * 2 = BitVec.ofNat 32 buf.datlen →
          ∀ j < len.toInt.toNat, (∀ i ≤ j, mapped M (addr + BitVec.ofNat 32 i) = true) →
            target M.bytes (addr + BitVec.ofNat 32 j) = buf.symByte j := by
  rw [← rspWriteMem_unchanged_iff]
  constructor
  · intro h
    by_cases hdigits : ∀ c ∈ buf.packet.drop buf.dataStart, (digit c).isSome = true
    · exact .inl hdigits
    · exact .inr fun N reply hrun => not_not.1 fun hne => hdigits (h N reply hrun hne)
  · rintro (hdigits | hsame) N reply hrun hne
    · exact hdigits
    · exact absurd (hsame N reply hrun) hne

/-! ### Registers -/

variable {s : Sim} {data : Packet} {stale : List Char} {regnum : Word} {word : List Char}

/-- The data of a `P` packet: what comes after its equals sign. -/
def regDigits (data : Packet) : List Char := (data.dropWhile (· ≠ '=')).tail

/-- `rsp_write_reg` changes a register only for digits. -/
def RegisterOfDigits (s : Sim) (data : Packet) (stale : List Char) : Prop :=
  (rspWriteReg s data stale).1 ≠ s → ∀ c ∈ regDigits data, (hexDigit c).isSome = true

/-- The register holds a value already; the program counter is also left alone when it is compared
with more than its own bits, as long as nothing else of it changes. -/
def HoldsAlready (s : Sim) (regnum : Word) (val : BitVec 64) : Prop :=
  regnum.toNat < numRegs → gdbReg s regnum.toNat = val.setWidth 32 ∧
    (regnum = npcRegnum → s.pc.setWidth 64 = val ∨
      s.delayInsn = false ∧ s.pcnext = (val + 4).setWidth 32)

theorem setReg_eq_self_iff {r : BitVec 5} {v : Word} : s.setReg r v = s ↔ s.reg r = v := by
  have hself : (s.setReg r v).reg r = v := by
    rw [Sim.setReg]
    exact Function.update_self ..
  constructor
  · intro h
    rw [← hself, h]
  · rintro rfl
    rw [Sim.setReg, Function.update_eq_self]

theorem setSpr_eq_self_iff {r : Regno} {v : Word} : s.setSpr r v = s ↔ s.sprs r = v := by
  have hself : (s.setSpr r v).sprs r = v := Sim.setSpr_sprs_self
  constructor
  · intro h
    rw [← hself, h]
  · rintro rfl
    rw [Sim.setSpr, Function.update_eq_self]

theorem setNpc_eq_self_iff {val : BitVec 64} :
    setNpc s val = s ↔ s.pc = val.setWidth 32 ∧
      (s.pc.setWidth 64 = val ∨ s.delayInsn = false ∧ s.pcnext = (val + 4).setWidth 32) := by
  unfold setNpc
  split
  case isTrue hne =>
    rw [or_iff_right hne]
    constructor
    · intro h
      exact ⟨(congrArg Sim.pc h).symm, (congrArg Sim.delayInsn h).symm,
        (congrArg Sim.pcnext h).symm⟩
    · rintro ⟨hpc, hdelay, hnext⟩
      rw [← hpc, ← hdelay, ← hnext]
  case isFalse heq =>
    have hval := not_not.1 heq
    refine iff_of_true rfl ⟨?_, .inl hval⟩
    rw [← hval, BitVec.setWidth_setWidth_of_le _ (by decide), BitVec.setWidth_eq]

/-- A register that is written with its own value stays, and no other does. -/
theorem rspWriteReg_of_scan (hscan : scanWriteReg data = some (regnum, word)) :
    (rspWriteReg s data stale).1 = s ↔ HoldsAlready s regnum (hex2reg (valstr word stale)) := by
  rw [rspWriteReg, hscan, HoldsAlready]
  dsimp only
  by_cases hgpr : regnum < 32
  · have hlt : regnum.toNat < 32 := BitVec.lt_def.1 hgpr
    have hne : regnum ≠ npcRegnum := by
      rintro rfl
      exact absurd hgpr (by decide)
    rw [if_pos hgpr, setReg_eq_self_iff, gdbReg, if_pos hlt, BitVec.ofNat_toNat]
    exact ⟨fun h _ => ⟨h, fun hnpc => absurd hnpc hne⟩,
      fun h => (h (by unfold numRegs; omega)).1⟩
  rw [if_neg hgpr]
  by_cases hppc : regnum = ppcRegnum
  · subst hppc
    rw [if_pos rfl, setSpr_eq_self_iff]
    exact ⟨fun h _ => ⟨h, fun hnpc => absurd hnpc (by decide)⟩, fun h => (h (by decide)).1⟩
  rw [if_neg hppc]
  by_cases hnpc : regnum = npcRegnum
  · subst hnpc
    rw [if_pos rfl, setNpc_eq_self_iff]
    exact ⟨fun h _ => ⟨h.1, fun _ => h.2⟩,
      fun h => ⟨(h (by decide)).1, (h (by decide)).2 rfl⟩⟩
  rw [if_neg hnpc]
  by_cases hsr : regnum = srRegnum
  · subst hsr
    rw [if_pos rfl, setSpr_eq_self_iff]
    exact ⟨fun h _ => ⟨h, fun hnpc => absurd hnpc (by decide)⟩, fun h => (h (by decide)).1⟩
  rw [if_neg hsr]
  -- any other number is that of no register
  refine iff_of_true rfl fun hlt => ?_
  have hge : ¬regnum.toNat < 32 := fun h => hgpr (BitVec.lt_def.2 h)
  have hnum : regnum.toNat = 32 ∨ regnum.toNat = 33 ∨ regnum.toNat = 34 := by
    unfold numRegs at hlt
    omega
  rcases hnum with h | h | h
  · exact absurd (BitVec.eq_of_toNat_eq h) hppc
  · exact absurd (BitVec.eq_of_toNat_eq h) hnpc
  · exact absurd (BitVec.eq_of_toNat_eq h) hsr

/-- A write of a register takes digits, or puts there what was there before. -/
theorem registerOfDigits_iff (s : Sim) (data : Packet) (stale : List Char) :
    RegisterOfDigits s data stale ↔
      (∀ c ∈ regDigits data, (hexDigit c).isSome = true) ∨
        ∀ regnum word, scanWriteReg data = some (regnum, word) →
          HoldsAlready s regnum (hex2reg (valstr word stale)) := by
  have hsame : (rspWriteReg s data stale).1 = s ↔
      ∀ regnum word, scanWriteReg data = some (regnum, word) →
        HoldsAlready s regnum (hex2reg (valstr word stale)) := by
    cases hscan : scanWriteReg data with
    | none =>
      refine iff_of_true ?_ fun _ _ h => nomatch h
      rw [rspWriteReg, hscan]
    | some r =>
      obtain ⟨regnum, word⟩ := r
      rw [rspWriteReg_of_scan hscan]
      exact ⟨fun h _ _ heq => by cases heq; exact h, fun h => h regnum word rfl⟩
  rw [← hsame, or_comm]
  exact Classical.or_iff_not_imp_left.symm

/-- **When only digits are accepted**: in a stream, unless the first checksum that is accepted has
another character; in a write of memory or of a register, unless another character is among the
digits and what they come to was not there before. -/
theorem hex_digits_iff (input : List Byte) (M : Memory) (buf : RspBuf) (s : Sim)
    (data : Packet) (stale : List Char) :
    (ChecksumOfDigits input ↔ ∀ f, (frames input).find? Frame.accepted = some f →
      (digit f.hi).isSome = true ∧ (digit f.lo).isSome = true) ∧
    (MemoryOfDigits M buf ↔
      (∀ c ∈ buf.packet.drop buf.dataStart, (digit c).isSome = true) ∨
        ∀ addr len, scanAddrLen 'M' buf.text = some (addr, len) → chr ':' ∈ buf.packet →
          len * 2 = BitVec.ofNat 32 buf.datlen →
          ∀ j < len.toInt.toNat, (∀ i ≤ j, mapped M (addr + BitVec.ofNat 32 i) = true) →
            target M.bytes (addr + BitVec.ofNat 32 j) = buf.symByte j) ∧
    (RegisterOfDigits s data stale ↔
      (∀ c ∈ regDigits data, (hexDigit c).isSome = true) ∨
        ∀ regnum word, scanWriteReg data = some (regnum, word) →
          HoldsAlready s regnum (hex2reg (valstr word stale))) :=
  ⟨checksumOfDigits_iff input, memoryOfDigits_iff M buf, registerOfDigits_iff s data stale⟩

/-- Two letters that come to the sum of a packet of two other letters. -/
theorem checksum_of_letters :
    ¬((∀ input, ChecksumOfDigits input) ∧ (∀ M buf, MemoryOfDigits M buf) ∧
      ∀ s data stale, RegisterOfDigits s data stale) := by
  rintro ⟨h, -⟩
  have hrun : getPacket [chr '$', chr 'w', chr 'x', chr '#', chr 'z', chr 'z'] =
      ⟨some [chr 'w', chr 'x'], [chr '+'], []⟩ := by decide
  obtain ⟨hi, lo, d, e, ⟨pre, hsuffix⟩, hd, -⟩ := h _ _ (congrArg Received.buf hrun)
  rw [hrun] at hsuffix
  have hback := congrArg List.reverse hsuffix
  rw [List.reverse_append] at hback
  obtain ⟨-, hlast⟩ := List.cons.inj hback
  obtain ⟨rfl, -⟩ := List.cons.inj hlast
  exact nomatch (show digit (chr 'z') = none by decide).symm.trans hd

end Rsp
end Or1ksim
