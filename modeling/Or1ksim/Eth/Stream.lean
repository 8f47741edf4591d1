import Or1ksim.Eth.Receive

/-!
# From one device to another

The file interface writes the length of a packet and then the packet, and reads them in the same
order; what one device sends to a file another can receive from it.

* `ethWriteFilePacket` — a packet is added to a file;
* `nextPacket` — a packet is taken from the bytes that are left;
* `nextPacket_cons` — **the first packet is read back**, if it is as long as a header;
* `Send`, `sendFile` — packets in the memory of the sender, and their file;
* `transfer_exact` — **the memory of the receiver holds what that of the sender held**, packet by
  packet, and then the file is at its end.
-/

namespace Or1ksim
namespace Eth

open Bits

/-! ### The file -/

/-- An `int32_t` in a file, the low byte first. -/
def lengthBytes (length : Word) : List Byte :=
  [length.extractLsb' 0 8, length.extractLsb' 8 8, length.extractLsb' 16 8, length.extractLsb' 24 8]

/-- `eth_write_file_packet`, when both writes succeed. -/
def ethWriteFilePacket (file packet : List Byte) : List Byte :=
  file ++ (lengthBytes (BitVec.ofNat 32 packet.length) ++ packet)

/-- What is left of a file after a packet of this length is read. -/
def leftAfter (length : Word) (data : List Byte) : List Byte :=
  if length.toInt < etherHdrLen then data else data.drop length.toNat

/-- `eth_read_file_packet`, with what is left of the file: the length word, and the packet. -/
def nextPacket (buf : ℕ → Byte) : List Byte → ReadResult × List Byte
  | [] => (⟨0, 0, buf⟩, [])
  | b₀ :: b₁ :: b₂ :: b₃ :: data =>
    let length : Word := b₃ ++ b₂ ++ b₁ ++ b₀
    (readFilePacket length data buf, leftAfter length data)
  | _ => (⟨-1, 0, buf⟩, [])

/-- The file after some packets are read. -/
def skip : ℕ → List Byte → List Byte
  | 0, file => file
  | k + 1, file => skip k (nextPacket (fun _ => 0) file).2

/-- What `eth_fill_bd` finds in the buffer. -/
def ReadResult.arrival (r : ReadResult) : Arrival :=
  if r.result < 0 then .failed else if r.result = 0 then .nothing
  else .packet r.result.toNat r.buf

theorem word_lengthBytes (w : Word) :
    (w.extractLsb' 24 8 ++ w.extractLsb' 16 8 ++ w.extractLsb' 8 8 ++ w.extractLsb' 0 8 : Word) =
      w := by
  refine BitVec.eq_of_getLsbD_eq fun k hk => ?_
  simp only [BitVec.getLsbD_append, BitVec.getLsbD_extractLsb']
  by_cases h₀ : k < 8
  · simp [h₀]
  · by_cases h₁ : k < 16
    · simp [h₀, show k - 8 < 8 by omega, show 8 + (k - 8) = k by omega]
    · by_cases h₂ : k < 24
      · simp [h₀, show ¬k - 8 < 8 by omega, show k - 8 - 8 < 8 by omega,
          show 16 + (k - 8 - 8) = k by omega]
      · simp [h₀, show ¬k - 8 < 8 by omega, show ¬k - 8 - 8 < 8 by omega,
          show k - 8 - 8 - 8 < 8 by omega, show 24 + (k - 8 - 8 - 8) = k by omega]

theorem nextPacket_lengthBytes (buf : ℕ → Byte) (length : Word) (data : List Byte) :
    nextPacket buf (lengthBytes length ++ data) =
      ((Supply.file length data).read buf, leftAfter length data) := by
  change (readFilePacket (_ ++ _ ++ _ ++ _) data buf, leftAfter (_ ++ _ ++ _ ++ _) data) = _
  rw [word_lengthBytes]
  rfl

/-- The length of a packet that is not too long for an `int32_t`. -/
theorem toNat_toInt_length {n : ℕ} (h : n < 2 ^ 31) :
    (BitVec.ofNat 32 n).toNat = n ∧ (BitVec.ofNat 32 n).toInt = n := by
  have hnat : (BitVec.ofNat 32 n).toNat = n := by
    rw [BitVec.toNat_ofNat]
    omega
  refine ⟨hnat, ?_⟩
  rw [BitVec.toInt_eq_toNat_cond, hnat, if_pos (by omega)]

/-- **The first packet is read back**, and the others are left. -/
theorem nextPacket_cons {packet : List Byte} (hheader : etherHdrLen ≤ packet.length)
    (hlt : packet.length < 2 ^ 31) (buf : ℕ → Byte) (rest : List Byte) :
    nextPacket buf (lengthBytes (BitVec.ofNat 32 packet.length) ++ (packet ++ rest)) =
      ((Supply.file (BitVec.ofNat 32 packet.length) (packet ++ rest)).read buf, rest) ∧
    (Supply.file (BitVec.ofNat 32 packet.length) (packet ++ rest)).packet = packet := by
  obtain ⟨hnat, hint⟩ := toNat_toInt_length hlt
  refine ⟨?_, ?_⟩
  · rw [nextPacket_lengthBytes, leftAfter, hint, if_neg (by omega), hnat, List.drop_left]
  · dsimp only [Supply.packet]
    rw [hnat, List.take_left]

/-! ### The packets of the sender -/

/-- A call of `eth_flush_bd`: the memory, and the device before it. -/
structure Send where
  memory : Memory
  state : State

/-- The buffer of the descriptor, and its length. -/
def Send.addr (x : Send) : Addr := x.state.regs.bdRam (x.state.txBdIndex + 1)

def Send.n (x : Send) : ℕ := ((x.state.regs.bdRam x.state.txBdIndex).extractLsb' 16 16).toNat

/-- The packet that a call has sent. -/
def sentBy : Except Stop State → Option (List Byte)
  | .ok t =>
    match t.out with
    | .sent packet :: _ => some packet
    | _ => none
  | .error _ => none

/-- The file of a device that sends packets. -/
def sendFile (sends : List Send) : List Byte :=
  sends.foldl (fun file x =>
    (sentBy (ethFlushBd x.memory.evalDirect32 true x.state)).elim file (ethWriteFilePacket file)) []

/-- The descriptor is in `bd_ram`, and its packet has a header and is in RAM. -/
structure Send.Sendable (x : Send) : Prop where
  bd : x.state.txBdIndex + 1 < ethBdCount
  header : etherHdrLen ≤ x.n
  aligned : x.addr.toNat % 4 = 0
  ram : RamBuffer x.memory x.addr x.n

/-- The packet of the descriptor. -/
def Send.packet (x : Send) : List Byte := packetAt x.memory.evalDirect32 x.addr x.n

theorem Send.n_lt (x : Send) : x.n < 2 ^ 16 := BitVec.isLt _

theorem advanceTx_out (s : State) (w : Word) : (advanceTx s w).out = s.out := by
  unfold advanceTx
  split_ifs <;> rfl

theorem sentBy_ethFlushBd {x : Send} (h : x.Sendable) :
    sentBy (ethFlushBd x.memory.evalDirect32 true x.state) = some x.packet := by
  have hbd := h.bd
  have hcall : ethFlushBd x.memory.evalDirect32 true x.state =
      .ok (transmit x.memory.evalDirect32 true (x.state.regs.bdRam x.state.txBdIndex) x.addr
        x.state) :=
    Runs.bind_eq_ok_iff.2 ⟨_, if_pos (by omega), Runs.bind_eq_ok_iff.2 ⟨_, if_pos hbd, rfl⟩⟩
  have hout : (transmit x.memory.evalDirect32 true (x.state.regs.bdRam x.state.txBdIndex) x.addr
      x.state).out = .sent x.packet :: x.state.out := by
    unfold transmit
    rw [advanceTx_out, (interrupt_regs_out _ _).2]
    rfl
  rw [hcall, sentBy, hout]

theorem flatMap_bytesOf (g : ℕ → Word) (m : ℕ) :
    (List.range m).flatMap (fun i => bytesOf (g i)) =
      (List.range (4 * m)).map fun j => (g (j / 4)).extractLsb' (8 * (3 - j % 4)) 8 := by
  induction m with
  | zero => rfl
  | succ m ih =>
    have hdiv : 4 * m / 4 = m ∧ (4 * m + 1) / 4 = m ∧ (4 * m + 2) / 4 = m ∧
        (4 * m + 3) / 4 = m := by
      omega
    have hmod : 4 * m % 4 = 0 ∧ (4 * m + 1) % 4 = 1 ∧ (4 * m + 2) % 4 = 2 ∧
        (4 * m + 3) % 4 = 3 := by
      omega
    rw [List.range_succ, List.flatMap_append, ih, Nat.mul_succ, List.range_succ, List.range_succ,
      List.range_succ, List.range_succ]
    simp [hdiv, hmod, bytesOf]

variable {x : Send}

theorem Send.packet_eq (x : Send) :
    x.packet = (List.range x.n).map fun j =>
      (x.memory.evalDirect32 (x.addr + BitVec.ofNat 32 (4 * (j / 4)))).extractLsb'
        (8 * (3 - j % 4)) 8 := by
  unfold Send.packet packetAt wordsFor
  rw [flatMap_bytesOf fun i => x.memory.evalDirect32 (x.addr + BitVec.ofNat 32 (4 * i)),
    ← List.map_take, List.take_range, Nat.min_eq_left (by omega)]

theorem Send.length_packet (x : Send) : x.packet.length = x.n := by
  rw [x.packet_eq, List.length_map, List.length_range]

theorem Send.Sendable.getElem_packet (h : x.Sendable) {j : ℕ} (hj : j < x.packet.length) :
    x.packet[j] = simmemRead8 x.memory.bytes (x.addr + BitVec.ofNat 32 j) := by
  have hlt : j < x.n := x.length_packet ▸ hj
  have hfits := h.ram.fits
  have haligned := h.aligned
  have hword : (x.addr + BitVec.ofNat 32 (4 * (j / 4))).toNat = x.addr.toNat + 4 * (j / 4) := by
    rw [BitVec.toNat_add, BitVec.toNat_ofNat]
    omega
  have hbyte : (x.addr + BitVec.ofNat 32 j).toNat = x.addr.toNat + j := by
    rw [BitVec.toNat_add, BitVec.toNat_ofNat]
    omega
  have hbase : wordBase (x.addr + BitVec.ofNat 32 j) =
      wordBase (x.addr + BitVec.ofNat 32 (4 * (j / 4))) := by
    rw [wordBase_eq_iff, hword, hbyte]
    omega
  have hmod : (x.addr + BitVec.ofNat 32 j).toNat % 4 = j % 4 := by
    rw [hbyte]
    omega
  have hget : x.packet[j] = (x.memory.evalDirect32
      (x.addr + BitVec.ofNat 32 (4 * (j / 4)))).extractLsb' (8 * (3 - j % 4)) 8 := by
    simp only [x.packet_eq, List.getElem_map, List.getElem_range]
  rw [hget, Memory.evalDirect32_of_ram (h.ram.ram _ (by omega)) (by omega), simmemRead8_eq, hmod,
    wordAt, wordAt, hbase]

/-! ### The transfer -/

/-- The file has the packets in the order in which they were sent. -/
theorem sendFile_eq {sends : List Send} (h : ∀ x ∈ sends, x.Sendable) :
    sendFile sends = sends.flatMap fun x =>
      lengthBytes (BitVec.ofNat 32 x.packet.length) ++ x.packet := by
  unfold sendFile
  induction sends using List.reverseRecOn with
  | nil => rfl
  | append_singleton sends x ih =>
    rw [List.foldl_append, List.foldl_cons, List.foldl_nil,
      ih fun y hy => h y (List.mem_append_left _ hy),
      sentBy_ethFlushBd (h x (List.mem_append_right _ (.head _))), Option.elim_some,
      ethWriteFilePacket, List.flatMap_append, List.flatMap_cons, List.flatMap_nil, List.append_nil]

theorem skip_sendFile {sends : List Send} (h : ∀ x ∈ sends, x.Sendable) (k : ℕ) :
    skip k (sendFile sends) = sendFile (sends.drop k) := by
  rw [sendFile_eq h, sendFile_eq fun x hx => h x (List.mem_of_mem_drop hx)]
  induction k generalizing sends with
  | zero => rfl
  | succ k ih =>
    cases sends with
    | nil =>
      rw [List.drop_nil]
      exact (@ih [] h).trans (by rw [List.drop_nil])
    | cons x sends =>
      have hx := h x (.head _)
      have hlength := x.length_packet
      have hlt := x.n_lt
      rw [List.flatMap_cons, skip, List.append_assoc,
        (nextPacket_cons (hlength.symm ▸ hx.header) (by omega) _ _).1]
      exact ih fun y hy => h y (.tail _ hy)

/-- The receiver waits for a packet: a descriptor is free, the packet is for the device, and there
is RAM for it. -/
structure Waits (cfg : Config) (x : Send) (s : State) (N : Memory) : Prop where
  rtxType : cfg.rtxType = .file
  bd : s.rxBdIndex + 1 < ethBdCount
  accepted : s.accepts (fun i => x.packet.getD i 0) = true
  aligned : s.bdAddr.toNat % 4 = 0
  ram : RamBuffer N s.bdAddr x.n

/-- **What was sent is received**: the `k`th packet that the receiver takes from the file is the
`k`th that was sent; afterwards its memory holds what that of the sender held, and the descriptor
its length, and behind the last one there is none. -/
theorem transfer_exact (sends : List Send) (hsends : ∀ x ∈ sends, x.Sendable) :
    (∀ k (hk : k < sends.length) (cfg : Config) (s : State) (N : Memory) (buf : ℕ → Byte),
      Waits cfg sends[k] s N →
      ∃ t, ethFillBd cfg (nextPacket buf (skip k (sendFile sends))).1.arrival s = .ok t ∧
        (∀ j < sends[k].n, simmemRead8 (memoryAfter N s t).bytes (s.bdAddr + BitVec.ofNat 32 j) =
          simmemRead8 sends[k].memory.bytes (sends[k].addr + BitVec.ofNat 32 j)) ∧
        bdLength s t = passedLength cfg sends[k].n % 2 ^ 16) ∧
      ∀ buf, (nextPacket buf (skip sends.length (sendFile sends))).1.arrival = .nothing := by
  refine ⟨fun k hk cfg s N buf h => ?_, fun buf => ?_⟩
  · have hx : (sends[k]).Sendable := hsends _ (List.getElem_mem hk)
    set x := sends[k] with hxk
    have hlength := x.length_packet
    have hlt := x.n_lt
    have hheader := hx.header
    have hpos : 0 < x.n := lt_of_lt_of_le (by decide) hheader
    rw [skip_sendFile hsends, sendFile_eq fun x hx => hsends x (List.mem_of_mem_drop hx),
      List.drop_eq_getElem_cons hk, List.flatMap_cons,
      List.append_assoc, ← hxk]
    obtain ⟨hread, hpacket⟩ := @nextPacket_cons x.packet (by omega) (by omega) buf
      ((sends.drop (k + 1)).flatMap fun x =>
        lengthBytes (BitVec.ofNat 32 x.packet.length) ++ x.packet)
    set p := Supply.file (BitVec.ofNat 32 x.packet.length) (x.packet ++
      (sends.drop (k + 1)).flatMap fun x =>
        lengthBytes (BitVec.ofNat 32 x.packet.length) ++ x.packet) with hp
    have hdelivers : Delivers cfg p s := by
      refine ⟨h.rtxType, h.bd, ?_, hpacket.symm ▸ h.accepted⟩
      obtain ⟨hnat, hint⟩ := @toNat_toInt_length x.packet.length (by omega)
      refine ⟨by rw [hint]; omega, ?_⟩
      rw [hnat, List.length_append]
      omega
    have hplen : p.packet.length = x.n := by rw [hpacket, hlength]
    have harrival : (p.read buf).arrival = p.arrival buf := by
      unfold ReadResult.arrival Supply.arrival
      rw [hdelivers.read_eq buf]
      dsimp only
      rw [if_neg (by omega), if_neg (by omega), if_neg (by omega)]
    rw [hread, harrival]
    refine ⟨_, hdelivers.ethFillBd_eq buf, fun j hj => ?_, ?_⟩
    · have hram : RamBuffer N s.bdAddr p.packet.length := hplen.symm ▸ h.ram
      have hcopied := (@copied_and_beyond cfg p s N hram h.aligned buf).1 j (by omega)
      have hj' : j < x.packet.length := by omega
      rw [← hx.getElem_packet hj']
      refine hcopied.trans ?_
      simp only [hpacket]
    · exact (bdLength_received cfg p buf s).trans (by rw [hplen])
  · rw [skip_sendFile hsends, List.drop_length]
    rfl

/-- Two broadcasts from address 0, of 16 bytes and of 18. -/
def broadcasts : List Send :=
  [⟨Memory.flat fun _ => 0xff, receiver.setBd 0 (16 <<< 16)⟩,
    ⟨Memory.flat fun a => if a < 8 then 0xff else 0x5a, receiver.setBd 0 (18 <<< 16)⟩]

theorem sendable_broadcasts : ∀ x ∈ broadcasts, x.Sendable := by
  intro x hx
  rcases List.mem_pair.1 hx with rfl | rfl
  · exact ⟨by decide, by decide, rfl, by decide, fun _ _ => Memory.flat_ram _ _⟩
  · exact ⟨by decide, by decide, rfl, by decide, fun _ _ => Memory.flat_ram _ _⟩

/-- They go from two flat memories to a third, one after the other; a CRC is counted in. -/
theorem transfer_exact_broadcasts :
    ∃ t u, ethFillBd fileConfig (nextPacket (fun _ => 0) (skip 0 (sendFile broadcasts))).1.arrival
        receiver = .ok t ∧
      simmemRead8 (memoryAfter (Memory.flat fun _ => 0) receiver t).bytes 15 = 0xff ∧
      bdLength receiver t = 20 ∧
      ethFillBd fileConfig (nextPacket (fun _ => 0) (skip 1 (sendFile broadcasts))).1.arrival
        receiver = .ok u ∧
      simmemRead8 (memoryAfter (Memory.flat fun _ => 0) receiver u).bytes 17 = 0x5a ∧
      bdLength receiver u = 22 ∧
      (nextPacket (fun _ => 0) (skip 2 (sendFile broadcasts))).1.arrival = .nothing := by
  obtain ⟨hpackets, hend⟩ := transfer_exact broadcasts sendable_broadcasts
  obtain ⟨t, ht, hbytes, hlength⟩ := hpackets 0 (by decide) fileConfig receiver
    (Memory.flat fun _ => 0) (fun _ => 0)
    ⟨rfl, by decide, by decide, rfl, ramBuffer_flat (by decide) _⟩
  obtain ⟨u, hu, hbytes', hlength'⟩ := hpackets 1 (by decide) fileConfig receiver
    (Memory.flat fun _ => 0) (fun _ => 0)
    ⟨rfl, by decide, by decide, rfl, ramBuffer_flat (by decide) _⟩
  exact ⟨t, u, ht, hbytes 15 (by decide), hlength, hu, hbytes' 17 (by decide), hlength', hend _⟩

end Eth
end Or1ksim
