import Or1ksim.Dma.Copy
import Or1ksim.Eth.Interrupts

/-!
# What a received packet leaves in memory

A packet is read into a buffer on the stack and copied from there in words; neither its length nor
its last word is cut.

* `Supply` — what the file or the TAP has for one call;
* `Supply.read`, `Supply.indices` — the packet in the buffer, and the bytes of it that are used;
* `memoryAfter` — the memory with the words that a call has written;
* `receivedExactly_iff` — **exactly the packet is copied** if it consists of whole words, at an
  aligned address, and its length fits into the descriptor.
-/

namespace Or1ksim
namespace Eth

open Bits

/-- `ETH_MAXPL`, the size of the local buffer. -/
def ethMaxpl : ℕ := 0x10000

/-! ### Reading -/

/-- What the outside world has for one call of `eth_read_packet`. -/
inductive Supply where
  /-- A length word, and the bytes behind it in the file. -/
  | file (length : Word) (data : List Byte)
  /-- A packet of the TAP. -/
  | tap (data : List Byte)

/-- The type of the interface. -/
def Supply.rtxType : Supply → RtxType
  | .file .. => .file
  | .tap _ => .tap

/-- What a reader returns, and what it does to the buffer. -/
structure ReadResult where
  result : ℤ
  /-- The number of bytes written into the buffer. -/
  nread : ℕ
  buf : ℕ → Byte

/-- The bytes that `read` puts into the buffer, at most `count` of those that are there. -/
def readInto (data : List Byte) (count : ℕ) (buf : ℕ → Byte) : ℕ → Byte := fun i =>
  (data.take count).getD i (buf i)

/-- `eth_read_file_packet`, once there is a length word. -/
def readFilePacket (length : Word) (data : List Byte) (buf : ℕ → Byte) : ReadResult :=
  if length.toInt < etherHdrLen then ⟨-1, 0, buf⟩
  else
    let nread := (data.take length.toNat).length
    ⟨if nread ≠ length.toNat then -1 else length.toInt, nread, readInto data length.toNat buf⟩

/-- `eth_read_tap_packet`, once there is data. -/
def readTapPacket (data : List Byte) (buf : ℕ → Byte) : ReadResult :=
  let nread := (data.take ethMaxpl).length
  ⟨nread, nread, readInto data ethMaxpl buf⟩

/-- `eth_read_packet`, with what is in the buffer before. -/
def Supply.read (buf : ℕ → Byte) : Supply → ReadResult
  | .file length data => readFilePacket length data buf
  | .tap data => readTapPacket data buf

/-- What `eth_fill_bd` finds. -/
def Supply.arrival (buf : ℕ → Byte) (p : Supply) : Arrival :=
  let r := p.read buf
  if r.result < 0 then .failed else .packet r.result.toNat r.buf

/-- The bytes of the packet. -/
def Supply.packet : Supply → List Byte
  | .file length data => data.take length.toNat
  | .tap data => data

/-- The bytes of the buffer that a call uses which delivers the packet: those that are read, those
that are compared with an address, and those that are copied. -/
def Supply.indices (buf : ℕ → Byte) (p : Supply) (s : State) : List ℕ :=
  List.range (p.read buf).nread ++
    (if s.regs.moder.getLsbD moderPRO then [] else List.range etherAddrLen) ++
    (wordsFor (p.read buf).result.toNat).flatMap fun i => [4 * i, 4 * i + 1, 4 * i + 2, 4 * i + 3]

/-! ### What is asked of a call -/

/-- A word is written to memory. -/
def Output.applyTo (M : Memory) : Output → Memory
  | .stored addr value => M.setDirect32 addr value
  | .sent _ => M

/-- The memory after all that has happened between two states. -/
def memoryAfter (M : Memory) (s t : State) : Memory :=
  (t.out.take (t.out.length - s.out.length)).reverse.foldl Output.applyTo M

/-- The buffer of the descriptor that is next. -/
def State.bdAddr (s : State) : Word := s.regs.bdRam (s.rxBdIndex + 1)

/-- The length in the descriptor that is next in `s`. -/
def bdLength (s t : State) : ℕ := ((t.regs.bdRam s.rxBdIndex).extractLsb' 16 16).toNat

/-- The length that is passed on. -/
def passedLength (cfg : Config) (n : ℕ) : ℕ := n + if cfg.dummyCrc then 4 else 0

/-- The packet is for the device, and the descriptor is in `bd_ram`. -/
structure Delivers (cfg : Config) (p : Supply) (s : State) : Prop where
  rtxType : cfg.rtxType = p.rtxType
  bd : s.rxBdIndex + 1 < ethBdCount
  whole : match p with
    | .file length data => (etherHdrLen : ℤ) ≤ length.toInt ∧ length.toNat ≤ data.length
    | .tap data => etherHdrLen ≤ data.length ∧ data.length ≤ ethMaxpl
  accepted : s.accepts (fun i => p.packet.getD i 0) = true

/-- `n` bytes of RAM. -/
structure RamBuffer (M : Memory) (addr : Addr) (n : ℕ) : Prop where
  fits : addr.toNat + n ≤ 2 ^ 32
  ram : ∀ k < n, M.Ram (addr + BitVec.ofNat 32 k)

/-- The bytes are in memory. -/
def Holds (M : Memory) (addr : Addr) (packet : List Byte) : Prop :=
  ∀ k (h : k < packet.length), simmemRead8 M.bytes (addr + BitVec.ofNat 32 k) = packet[k]

/-- A call from `s` to `t` has received exactly the packet. -/
structure ReceivedExactly (cfg : Config) (p : Supply) (buf : ℕ → Byte) (M : Memory) (s t : State) :
    Prop where
  indices : ∀ i ∈ p.indices buf s, i < ethMaxpl
  copied : Holds (memoryAfter M s t) s.bdAddr p.packet
  beyond : ∀ a : Addr, s.bdAddr.toNat + p.packet.length ≤ a.toNat →
    simmemRead8 (memoryAfter M s t).bytes a = simmemRead8 M.bytes a
  length : bdLength s t = passedLength cfg p.packet.length

variable {cfg : Config} {p : Supply} {buf : ℕ → Byte} {s : State} {M : Memory} {addr : Addr}

/-! ### The packet in the buffer -/

theorem toInt_eq_of_header {w : Word} (h : (etherHdrLen : ℤ) ≤ w.toInt) : w.toInt = w.toNat := by
  have hpos : (0 : ℤ) ≤ w.toInt := le_trans (by decide) h
  rw [BitVec.toInt_eq_toNat_cond] at hpos ⊢
  have hlt := w.isLt
  split_ifs at hpos ⊢ with hsign
  · rfl
  · omega

/-- A packet that is delivered is in the buffer, and its length is returned. -/
theorem Delivers.read_eq (h : Delivers cfg p s) (buf : ℕ → Byte) :
    p.read buf = ⟨p.packet.length, p.packet.length, fun i => p.packet.getD i (buf i)⟩ := by
  have hwhole := h.whole
  cases p with
  | file length data =>
    obtain ⟨hheader, hdata⟩ := hwhole
    have hlen : (data.take length.toNat).length = length.toNat := by
      rw [List.length_take, Nat.min_eq_left hdata]
    change readFilePacket length data buf = _
    unfold readFilePacket
    rw [if_neg (not_lt.2 hheader)]
    dsimp only [Supply.packet]
    rw [hlen, if_neg (not_not.2 rfl), toInt_eq_of_header hheader]
    rfl
  | tap data =>
    have htake : data.take ethMaxpl = data := List.take_of_length_le hwhole.2
    change readTapPacket data buf = _
    unfold readTapPacket readInto
    rw [htake]
    rfl

theorem Delivers.header_le (h : Delivers cfg p s) : etherHdrLen ≤ p.packet.length := by
  have hwhole := h.whole
  cases p with
  | file length data =>
    obtain ⟨hheader, hdata⟩ := hwhole
    have hint := toInt_eq_of_header hheader
    dsimp only [Supply.packet]
    rw [List.length_take, Nat.min_eq_left hdata]
    omega
  | tap data => exact hwhole.1

/-- What the buffer holds. -/
def Supply.bufAfter (p : Supply) (buf : ℕ → Byte) : ℕ → Byte := fun i => p.packet.getD i (buf i)

theorem Delivers.arrival_eq (h : Delivers cfg p s) (buf : ℕ → Byte) :
    p.arrival buf = .packet p.packet.length (p.bufAfter buf) := by
  unfold Supply.arrival
  rw [h.read_eq buf]
  dsimp only
  rw [if_neg (by omega), Int.toNat_natCast]
  rfl

theorem accepts_congr {b b' : ℕ → Byte} (h : ∀ i < etherAddrLen, b i = b' i) :
    s.accepts b = s.accepts b' := by
  unfold State.accepts
  have hown : (∀ i < etherAddrLen, s.macAddress i = b i) ↔
      ∀ i < etherAddrLen, s.macAddress i = b' i :=
    forall₂_congr fun i hi => by rw [h i hi]
  have hbroadcast : (∀ i < etherAddrLen, b i = 0xff) ↔ ∀ i < etherAddrLen, b' i = 0xff :=
    forall₂_congr fun i hi => by rw [h i hi]
  rw [decide_eq_decide.2 hown, decide_eq_decide.2 hbroadcast]

theorem Delivers.accepts_bufAfter (h : Delivers cfg p s) (buf : ℕ → Byte) :
    s.accepts (p.bufAfter buf) = true := by
  have hheader := h.header_le
  rw [← h.accepted]
  refine accepts_congr fun i hi => ?_
  have hlt : i < p.packet.length := lt_of_lt_of_le hi (le_trans (by decide) hheader)
  unfold Supply.bufAfter
  rw [List.getD_eq_getElem _ _ hlt, List.getD_eq_getElem _ _ hlt]

theorem Delivers.ethFillBd_eq (h : Delivers cfg p s) (buf : ℕ → Byte) :
    ethFillBd cfg (p.arrival buf) s = .ok (receive cfg
      (clearFlags (s.regs.bdRam s.rxBdIndex) rxStatus) s.bdAddr p.packet.length (p.bufAfter buf)
        s) := by
  have hbd := h.bd
  have hheader := h.header_le
  have hlen : ethReadPacket cfg s (.packet p.packet.length (p.bufAfter buf)) =
      ((p.packet.length : ℤ), s) := by
    unfold ethReadPacket
    cases cfg.rtxType with
    | file =>
      dsimp only [ethReadFilePacket]
      rw [if_neg (Nat.not_lt.2 hheader)]
    | tap => rfl
  have hpos : 0 < p.packet.length := lt_of_lt_of_le (by decide) hheader
  have haccepts : (!s.accepts (p.bufAfter buf)) = false := by
    rw [h.accepts_bufAfter buf]
    rfl
  rw [h.arrival_eq buf]
  refine Runs.bind_eq_ok_iff.2 ⟨_, if_pos (by omega), Runs.bind_eq_ok_iff.2 ⟨_, if_pos hbd, ?_⟩⟩
  simp only [hlen, Arrival.buf, haccepts, Bool.false_eq_true, if_false, Int.toNat_natCast]
  rw [if_neg (by omega)]
  rfl

/-! ### The words in memory -/

theorem extractLsb'_word (b : ℕ → Byte) (i : ℕ) {j : ℕ} (hj : j < 4) :
    (b (4 * i) ++ b (4 * i + 1) ++ b (4 * i + 2) ++ b (4 * i + 3) : Word).extractLsb'
      (8 * (3 - j)) 8 = b (4 * i + j) := by
  have hcase : j = 0 ∨ j = 1 ∨ j = 2 ∨ j = 3 := by omega
  refine BitVec.eq_of_getLsbD_eq fun k hk => ?_
  rw [BitVec.getLsbD_extractLsb', decide_eq_true hk, Bool.true_and]
  simp only [BitVec.getLsbD_append]
  rcases hcase with rfl | rfl | rfl | rfl
  · rw [if_neg (by omega), if_neg (by omega), if_neg (by omega)]
    exact congrArg _ (by omega)
  · rw [if_neg (by omega), if_neg (by omega), if_pos (by omega)]
    exact congrArg _ (by omega)
  · rw [if_neg (by omega), if_pos (by omega)]
    exact congrArg _ (by omega)
  · rw [if_pos (by omega)]
    exact congrArg _ (by omega)

/-- The words that are written. -/
def storeAt (addr : Word) (b : ℕ → Byte) (i : ℕ) : Output :=
  .stored (addr + BitVec.ofNat 32 (4 * i))
    (b (4 * i) ++ b (4 * i + 1) ++ b (4 * i + 2) ++ b (4 * i + 3))

theorem storesOf_eq (addr : Word) (n : ℕ) (b : ℕ → Byte) :
    storesOf addr n b = (List.range ((n + 3) / 4)).map (storeAt addr b) := rfl

/-- Words at an address that is not aligned are not written. -/
theorem foldl_storeAt_unaligned (h : addr.toNat % 4 ≠ 0) (b : ℕ → Byte) (is : List ℕ) :
    (is.map (storeAt addr b)).foldl Output.applyTo M = M := by
  induction is with
  | nil => rfl
  | cons i is ih =>
    have hne : (addr + BitVec.ofNat 32 (4 * i)) &&& 3#32 ≠ 0#32 := by
      rw [Ne, and_three_eq_zero, BitVec.toNat_add, BitVec.toNat_ofNat]
      omega
    have hsame : (storeAt addr b i).applyTo M = M := if_pos hne
    rw [List.map_cons, List.foldl_cons, hsame, ih]

theorem simmemRead8_applyTo {i : ℕ} {b : ℕ → Byte} (h : addr.toNat % 4 = 0)
    (hfits : addr.toNat + 4 * i < 2 ^ 32) (hram : M.Ram (addr + BitVec.ofNat 32 (4 * i)))
    (a : Addr) :
    simmemRead8 ((storeAt addr b i).applyTo M).bytes a =
      if addr.toNat + 4 * i ≤ a.toNat ∧ a.toNat < addr.toNat + 4 * i + 4 then
        b (a.toNat - addr.toNat)
      else simmemRead8 M.bytes a := by
  have hnat : (addr + BitVec.ofNat 32 (4 * i)).toNat = addr.toNat + 4 * i := by
    rw [BitVec.toNat_add, BitVec.toNat_ofNat]
    omega
  have hword : wordBase a = wordBase (addr + BitVec.ofNat 32 (4 * i)) ↔
      addr.toNat + 4 * i ≤ a.toNat ∧ a.toNat < addr.toNat + 4 * i + 4 := by
    rw [wordBase_eq_iff, hnat]
    omega
  change simmemRead8 (M.setDirect32 _ _).bytes a = _
  rw [simmemRead8_eq, Memory.wordAt_setDirect32 hram (by rw [hnat]; omega)]
  by_cases hin : addr.toNat + 4 * i ≤ a.toNat ∧ a.toNat < addr.toNat + 4 * i + 4
  · rw [if_pos (hword.2 hin), if_pos hin, extractLsb'_word b i (by omega)]
    exact congrArg b (by omega)
  · rw [if_neg (fun he => hin (hword.1 he)), if_neg hin, simmemRead8_eq]

/-- **The copy**, by induction on the words. -/
theorem foldl_storeAt (h : addr.toNat % 4 = 0) (b : ℕ → Byte) {m : ℕ}
    (hfits : addr.toNat + 4 * m ≤ 2 ^ 32)
    (hram : ∀ i < m, M.Ram (addr + BitVec.ofNat 32 (4 * i))) :
    (((List.range m).map (storeAt addr b)).foldl Output.applyTo M).areas = M.areas ∧
      ∀ a, simmemRead8 (((List.range m).map (storeAt addr b)).foldl Output.applyTo M).bytes a =
        if addr.toNat ≤ a.toNat ∧ a.toNat < addr.toNat + 4 * m then b (a.toNat - addr.toNat)
        else simmemRead8 M.bytes a := by
  induction m with
  | zero => exact ⟨rfl, fun a => (if_neg (by omega)).symm⟩
  | succ m ih =>
    obtain ⟨hareas, hbytes⟩ := ih (by omega) fun i hi => hram i (Nat.lt_succ_of_lt hi)
    rw [List.range_succ, List.map_append, List.foldl_append]
    set N := ((List.range m).map (storeAt addr b)).foldl Output.applyTo M
    refine ⟨(Memory.areas_setDirect32 N _ _).trans hareas, fun a => ?_⟩
    change simmemRead8 ((storeAt addr b m).applyTo N).bytes a = _
    rw [simmemRead8_applyTo h (by omega)
      ((Memory.ram_congr hareas).2 (hram m (Nat.lt_succ_self m))), hbytes]
    split_ifs <;> first | rfl | omega

/-! ### A call -/

/-- The call of a packet that is delivered. -/
def received (cfg : Config) (p : Supply) (buf : ℕ → Byte) (s : State) : State :=
  receive cfg (clearFlags (s.regs.bdRam s.rxBdIndex) rxStatus) s.bdAddr p.packet.length
    (p.bufAfter buf) s

/-- The descriptor of a packet. -/
def receivedBd (bdInfo : Word) (n : ℕ) : Word :=
  clearBit ((bdInfo &&& (0xffff : Word)) ||| (BitVec.ofNat 32 n <<< 16)) bdREADY

theorem interrupt_regs_out (b : Bool) (s : State) :
    (if b then s.interrupt else s).regs = s.regs ∧ (if b then s.interrupt else s).out = s.out := by
  unfold State.interrupt
  split_ifs <;> exact ⟨rfl, rfl⟩

theorem advanceRx_regs_out (s : State) (w : Word) :
    (advanceRx s w).regs = s.regs ∧ (advanceRx s w).out = s.out := by
  unfold advanceRx
  split_ifs <;> exact ⟨rfl, rfl⟩

theorem received_out (cfg : Config) (p : Supply) (buf : ℕ → Byte) (s : State) :
    (received cfg p buf s).out =
      (storesOf s.bdAddr p.packet.length (p.bufAfter buf)).reverse ++ s.out :=
  (interrupt_regs_out _ _).2.trans ((advanceRx_regs_out _ _).2.trans rfl)

theorem received_bdRam (cfg : Config) (p : Supply) (buf : ℕ → Byte) (s : State) :
    (received cfg p buf s).regs.bdRam s.rxBdIndex = receivedBd
      (clearFlags (s.regs.bdRam s.rxBdIndex) rxStatus) (passedLength cfg p.packet.length) := by
  unfold received receive
  dsimp only
  rw [(interrupt_regs_out _ _).1, (advanceRx_regs_out _ _).1]
  exact Function.update_self ..

theorem memoryAfter_received (cfg : Config) (p : Supply) (buf : ℕ → Byte) (s : State)
    (M : Memory) :
    memoryAfter M s (received cfg p buf s) =
      ((List.range ((p.packet.length + 3) / 4)).map
        (storeAt s.bdAddr (p.bufAfter buf))).foldl Output.applyTo M := by
  unfold memoryAfter
  rw [received_out, List.length_append, Nat.add_sub_cancel, List.take_left, List.reverse_reverse,
    storesOf_eq]

theorem bdLength_received (cfg : Config) (p : Supply) (buf : ℕ → Byte) (s : State) :
    bdLength s (received cfg p buf s) = passedLength cfg p.packet.length % 2 ^ 16 := by
  have hbits : ∀ (w : Word) (n : ℕ), (receivedBd w n).extractLsb' 16 16 = BitVec.ofNat 16 n := by
    intro w n
    refine BitVec.eq_of_getLsbD_eq fun k hk => ?_
    have hready : 16 + k ≠ bdREADY := by
      unfold bdREADY
      omega
    rw [receivedBd, show (0xffff : Word) = lowMask 32 16 from rfl, BitVec.getLsbD_extractLsb',
      getLsbD_clearBit, BitVec.getLsbD_or, BitVec.getLsbD_and, getLsbD_lowMask,
      BitVec.getLsbD_shiftLeft, BitVec.getLsbD_ofNat, BitVec.getLsbD_ofNat]
    simp [hk, hready, show 16 + k < 32 by omega, show k < 32 by omega]
  rw [bdLength, received_bdRam, hbits, BitVec.toNat_ofNat]

/-! ### Main results -/

theorem Delivers.indices_lt_iff (h : Delivers cfg p s) (buf : ℕ → Byte) :
    (∀ i ∈ p.indices buf s, i < ethMaxpl) ↔ p.packet.length ≤ ethMaxpl := by
  unfold Supply.indices wordsFor
  rw [h.read_eq buf]
  simp only [Int.toNat_natCast]
  constructor
  · intro hall
    by_contra hlong
    have hlt : ethMaxpl < p.packet.length := Nat.lt_of_not_le hlong
    exact absurd (hall ethMaxpl (List.mem_append_left _ (List.mem_append_left _
      (List.mem_range.2 hlt)))) (lt_irrefl _)
  · intro hle i hi
    unfold ethMaxpl at hle ⊢
    rcases List.mem_append.1 hi with hi | hi
    · rcases List.mem_append.1 hi with hi | hi
      · exact lt_of_lt_of_le (List.mem_range.1 hi) hle
      · split_ifs at hi
        · cases hi
        · exact (List.mem_range.1 hi).trans (by decide)
    · obtain ⟨j, hj, hi⟩ := List.mem_flatMap.1 hi
      have hj := List.mem_range.1 hj
      simp only [List.mem_cons, List.not_mem_nil, or_false] at hi
      omega

/-- At an aligned address the words around the packet are written. -/
theorem Delivers.bytes_aligned (hram : RamBuffer M s.bdAddr p.packet.length)
    (haligned : s.bdAddr.toNat % 4 = 0) (buf : ℕ → Byte) (a : Addr) :
    simmemRead8 (memoryAfter M s (received cfg p buf s)).bytes a =
      if s.bdAddr.toNat ≤ a.toNat ∧
          a.toNat < s.bdAddr.toNat + 4 * ((p.packet.length + 3) / 4) then
        p.bufAfter buf (a.toNat - s.bdAddr.toNat)
      else simmemRead8 M.bytes a := by
  have hfits := hram.fits
  rw [memoryAfter_received]
  exact (foldl_storeAt haligned _ (by omega) fun i hi => hram.ram (4 * i) (by omega)).2 a

/-- The packet is copied to an aligned address, and nothing beyond it if it consists of words. -/
theorem copied_and_beyond (hram : RamBuffer M s.bdAddr p.packet.length)
    (haligned : s.bdAddr.toNat % 4 = 0) (buf : ℕ → Byte) :
    Holds (memoryAfter M s (received cfg p buf s)) s.bdAddr p.packet ∧
      (p.packet.length % 4 = 0 → ∀ a : Addr, s.bdAddr.toNat + p.packet.length ≤ a.toNat →
        simmemRead8 (memoryAfter M s (received cfg p buf s)).bytes a = simmemRead8 M.bytes a) := by
  have hfits := hram.fits
  have hbytes := @Delivers.bytes_aligned cfg p s M hram haligned buf
  refine ⟨fun k hk => ?_, fun hwords a ha => ?_⟩
  · have hnat : (s.bdAddr + BitVec.ofNat 32 k).toNat = s.bdAddr.toNat + k := by
      rw [BitVec.toNat_add, BitVec.toNat_ofNat]
      omega
    rw [hbytes, hnat, if_pos ⟨by omega, by omega⟩, Nat.add_sub_cancel_left]
    exact List.getD_eq_getElem _ _ hk
  · rw [hbytes, if_neg (by omega)]

/-- Behind a packet that does not consist of words, something is written that was on the stack. -/
theorem exists_beyond (hram : RamBuffer M s.bdAddr p.packet.length)
    (haligned : s.bdAddr.toNat % 4 = 0) (hwords : p.packet.length % 4 ≠ 0) :
    ∃ (buf : ℕ → Byte) (a : Addr), s.bdAddr.toNat + p.packet.length ≤ a.toNat ∧
      simmemRead8 (memoryAfter M s (received cfg p buf s)).bytes a ≠ simmemRead8 M.bytes a := by
  have hfits := hram.fits
  set a : Addr := s.bdAddr + BitVec.ofNat 32 p.packet.length with ha
  have hnat : a.toNat = s.bdAddr.toNat + p.packet.length := by
    rw [ha, BitVec.toNat_add, BitVec.toNat_ofNat]
    omega
  refine ⟨fun _ => simmemRead8 M.bytes a + 1, a, hnat.ge, ?_⟩
  rw [Delivers.bytes_aligned hram haligned, if_pos (by omega), hnat, Nat.add_sub_cancel_left]
  have hbehind : p.bufAfter (fun _ => simmemRead8 M.bytes a + 1) p.packet.length =
      simmemRead8 M.bytes a + 1 := List.getD_eq_default _ _ le_rfl
  rw [hbehind]
  intro he
  have hzero : (1 : Byte) = 0 := by
    rw [← BitVec.add_right_inj (simmemRead8 M.bytes a)]
    exact he.trans (BitVec.add_zero _).symm
  exact absurd hzero (by decide)

/-- **A packet is received exactly**, whatever was in the local buffer, if and only if it consists
of words that are copied to an aligned address (or nothing is copied to any other, where it already
is), and the length that is passed on fits into 16 bits. -/
theorem receivedExactly_iff (h : Delivers cfg p s) (hram : RamBuffer M s.bdAddr p.packet.length) :
    (∀ buf, ∃ t, ethFillBd cfg (p.arrival buf) s = .ok t ∧ ReceivedExactly cfg p buf M s t) ↔
      (if s.bdAddr.toNat % 4 = 0 then p.packet.length % 4 = 0 else Holds M s.bdAddr p.packet) ∧
        passedLength cfg p.packet.length < 2 ^ 16 := by
  have hcall : ∀ buf, (∃ t, ethFillBd cfg (p.arrival buf) s = .ok t ∧
      ReceivedExactly cfg p buf M s t) ↔ ReceivedExactly cfg p buf M s (received cfg p buf s) := by
    intro buf
    rw [h.ethFillBd_eq buf]
    refine ⟨fun ⟨t, ht, hexact⟩ => ?_, fun hexact => ⟨_, rfl, hexact⟩⟩
    cases ht
    exact hexact
  have hlength : ∀ buf, bdLength s (received cfg p buf s) = passedLength cfg p.packet.length ↔
      passedLength cfg p.packet.length < 2 ^ 16 := by
    intro buf
    rw [bdLength_received]
    exact ⟨fun he => he ▸ Nat.mod_lt _ (by decide), Nat.mod_eq_of_lt⟩
  have hindices : passedLength cfg p.packet.length < 2 ^ 16 → ∀ buf, ∀ i ∈ p.indices buf s,
      i < ethMaxpl := by
    intro hlt buf
    rw [h.indices_lt_iff buf]
    unfold passedLength at hlt
    unfold ethMaxpl
    omega
  simp only [hcall]
  by_cases haligned : s.bdAddr.toNat % 4 = 0
  · rw [if_pos haligned]
    constructor
    · intro hall
      refine ⟨?_, (hlength fun _ => 0).1 (hall _).length⟩
      by_contra hwords
      obtain ⟨buf, a, ha, hne⟩ := @exists_beyond cfg p s M hram haligned hwords
      exact hne ((hall buf).beyond a ha)
    · rintro ⟨hwords, hlt⟩ buf
      obtain ⟨hcopied, hbeyond⟩ := @copied_and_beyond cfg p s M hram haligned buf
      exact ⟨hindices hlt buf, hcopied, hbeyond hwords, (hlength buf).2 hlt⟩
  · rw [if_neg haligned]
    have hsame : ∀ buf, memoryAfter M s (received cfg p buf s) = M := fun buf => by
      rw [memoryAfter_received, foldl_storeAt_unaligned haligned]
    constructor
    · intro hall
      have hzero := hall fun _ => 0
      exact ⟨hsame (fun _ => 0) ▸ hzero.copied, (hlength _).1 hzero.length⟩
    · rintro ⟨hholds, hlt⟩ buf
      refine ⟨hindices hlt buf, ?_, fun a _ => ?_, (hlength buf).2 hlt⟩
      · rw [hsame]
        exact hholds
      · rw [hsame]

/-- A file with a packet for everyone. -/
def broadcast (n : ℕ) : Supply := .file (BitVec.ofNat 32 n) (List.replicate n 0xff)

/-- It is received into a buffer at address 0. -/
def receiver : State := secStart Sched.idleQueue

theorem packet_broadcast {n : ℕ} (hn : n < 2 ^ 31) :
    (broadcast n).packet = List.replicate n 0xff := by
  have hnat : (BitVec.ofNat 32 n).toNat = n := by
    rw [BitVec.toNat_ofNat]
    omega
  dsimp only [broadcast, Supply.packet]
  rw [hnat, List.take_replicate, Nat.min_self]

theorem delivers_broadcast {n : ℕ} (hheader : etherHdrLen ≤ n) (hn : n < 2 ^ 31) :
    Delivers fileConfig (broadcast n) receiver where
  rtxType := rfl
  bd := by decide
  whole := by
    have hnat : (BitVec.ofNat 32 n).toNat = n := by
      rw [BitVec.toNat_ofNat]
      omega
    refine ⟨?_, by rw [hnat, List.length_replicate]⟩
    rw [BitVec.toInt_eq_toNat_cond, hnat, if_pos (by omega)]
    exact_mod_cast hheader
  accepted := by
    rw [packet_broadcast hn]
    unfold State.accepts
    rw [Bool.or_eq_true, decide_eq_true_iff]
    refine .inr fun i hi => ?_
    have hlt : i < n := lt_of_lt_of_le hi (le_trans (by decide) hheader)
    dsimp only
    rw [List.getD_eq_getElem _ _ (by rwa [List.length_replicate]), List.getElem_replicate]

theorem ramBuffer_flat {n : ℕ} (hn : n ≤ 2 ^ 32) (m : Bytes) :
    RamBuffer (Memory.flat m) receiver.bdAddr n :=
  ⟨by rwa [show receiver.bdAddr.toNat = 0 from rfl, Nat.zero_add], fun _ _ => Memory.flat_ram m _⟩

/-- Four words are received exactly. -/
theorem receivedExactly_iff_words :
    Delivers fileConfig (broadcast 16) receiver ∧
      RamBuffer (Memory.flat fun _ => 0) receiver.bdAddr (broadcast 16).packet.length ∧
      ∀ buf, ∃ t, ethFillBd fileConfig ((broadcast 16).arrival buf) receiver = .ok t ∧
        ReceivedExactly fileConfig (broadcast 16) buf (Memory.flat fun _ => 0) receiver t := by
  have hdelivers := delivers_broadcast (n := 16) (by decide) (by decide)
  have hram : RamBuffer (Memory.flat fun _ => 0) receiver.bdAddr (broadcast 16).packet.length :=
    ramBuffer_flat (by decide) _
  exact ⟨hdelivers, hram, (receivedExactly_iff hdelivers hram).2
    ⟨by rw [if_pos (by decide)]; rfl, by decide⟩⟩

/-- **The last word and the length are not cut**: behind a packet of 14 bytes two bytes of the stack
are written to memory, and a longer packet than the local buffer goes beyond that. -/
theorem receives_beyond :
    (∃ t, ethFillBd fileConfig ((broadcast 14).arrival fun _ => 1) receiver = .ok t ∧
        simmemRead8 (memoryAfter (Memory.flat fun _ => 0) receiver t).bytes 14 = 1 ∧
        ¬ReceivedExactly fileConfig (broadcast 14) (fun _ => 1) (Memory.flat fun _ => 0) receiver
          t) ∧
      ¬∀ i ∈ (broadcast 0x10004).indices (fun _ => 0) receiver, i < ethMaxpl := by
  have h14 := delivers_broadcast (n := 14) (by decide) (by decide)
  have hlong := delivers_broadcast (n := 0x10004) (by decide) (by decide)
  have hlen : (broadcast 14).packet.length = 14 := rfl
  have hbyte : simmemRead8 (memoryAfter (Memory.flat fun _ => 0) receiver
      (received fileConfig (broadcast 14) (fun _ => 1) receiver)).bytes 14 = 1 := by
    decide
  refine ⟨⟨_, h14.ethFillBd_eq _, hbyte, fun hexact => ?_⟩, fun hall => ?_⟩
  · have hsame := hexact.beyond 14 (by rw [hlen]; decide)
    exact absurd (hbyte.symm.trans hsame) (by decide)
  · have hle := (hlong.indices_lt_iff _).1 hall
    rw [packet_broadcast (by decide), List.length_replicate] at hle
    exact absurd hle (by decide)

end Eth
end Or1ksim
