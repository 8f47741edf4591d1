import Or1ksim.Jtag.Answers

/-!
# The length of a `GO_COMMAND` register

`go_command_read` and `go_command_write` take the number of bytes to transfer from the length of the
register, in unsigned arithmetic.

* `Usage` — the bytes of the register that a handler comes to, and the bytes that it transfers;
* `goCommandRead_frame`, `goCommandWrite_frame` — a handler changes no other byte;
* `goCommandRead_congr`, `goCommandWrite_congr` — no other byte decides what it does;
* `goCommand_safe_iff` — **when a `GO_COMMAND` stays inside its register** and transfers no more
  than there is.
-/

namespace Or1ksim
namespace Jtag

open Cpu

/-- `(num_bits + 7) / 8`, the bytes of the image of a register. -/
def imageBytes (numBits : ℕ) : ℕ := (numBits + 7) / 8

/-- The bytes of data that a register of the length has room for. -/
def presentBytes (numBits : ℕ) : ℕ := (numBits - (36 + 32 + 4 + 1)) / 8

/-! ### What the handlers use -/

/-- What a handler does with its register. -/
structure Usage where
  /-- The bytes of the register that are read or written. -/
  touched : List ℕ
  /-- The bytes of the transfer that are read from the module or written to it. -/
  moved : List ℕ

/-- The bytes of a CRC field that starts in byte `o`. -/
def fieldBytes (o : ℕ) : List ℕ := (List.range 5).map (o + ·)

/-- Each byte of data lies in two bytes of the register. -/
def dataBytes (off : ℕ) (is : List ℕ) : List ℕ := is.flatMap fun i => [off + i, off + i + 1]

/-- The bytes that `construct_response` writes; its lengths are `unsigned int`. -/
def responseBytes (ignBits zeroBits : BitVec 32) : List ℕ :=
  let zeroBytes := zeroBits.toNat / 8
  let skipBytes := (ignBits + zeroBits).toNat / 8
  let bitOff := (ignBits + zeroBits).toNat % 8
  List.range (zeroBytes + 1) ++ (List.range (if bitOff ≤ 4 then 5 else 6)).map (skipBytes + ·)

/-- The bytes among `n` that `wishbone_read` and `wishbone_write` transfer. -/
def wishboneMoved (t : Target) (n : ℕ) : List ℕ :=
  (List.range n).filter fun i =>
    decide (i < t.debug.size) && (t.sim.mem.verifyMemoryarea (t.debug.byteAddr i)).isSome

/-- The bytes among `n` that `spr_read` and `spr_write` transfer. -/
def sprMoved (n : ℕ) : List ℕ := (List.range n).filter (· < 4)

/-- The bytes that are transferred when the CRC is right. -/
def moduleMoved (t : Target) (n : ℕ) : List ℕ :=
  match t.debug.modId with
  | .wishbone => wishboneMoved t n
  | .cpu0 => sprMoved n
  | _ => []

/-- `go_command_read`. -/
def goCommandReadUsage (t : Target) (jreg : Jreg) (numBits : ℕ) : Usage :=
  let n := (transferSize t.debug.size numBits).1
  let crcOk := decide (crcOfCmd .goCommand = crcIn5 jreg 0)
  { touched := fieldBytes 0 ++ (if crcOk then dataBytes (37 / 8) (List.range n) else []) ++
      responseBytes (BitVec.ofNat 32 (8 * n)) 37#32
    moved := if crcOk then moduleMoved t n else [] }

/-- The CRC that `go_command_write` compares is that of `n` bytes. -/
def writeCrcOk (jreg : Jreg) (n : ℕ) : Prop :=
  (List.range n).foldl
    (fun crc i => crc32 (((reverseBits (byte5 jreg i) 8).setWidth 8).setWidth 64) 8 crc)
    (crcOfCmd .goCommand) = crcIn5 jreg n

instance (jreg : Jreg) (n : ℕ) : Decidable (writeCrcOk jreg n) :=
  inferInstanceAs (Decidable (_ = _))

/-- `go_command_write`. -/
def goCommandWriteUsage (t : Target) (jreg : Jreg) (numBits : ℕ) : Usage :=
  let n := (transferSize t.debug.size numBits).1
  let moved := if writeCrcOk jreg n then moduleMoved t n else []
  { touched := fieldBytes n ++ dataBytes 0 (List.range n) ++ dataBytes 0 moved ++
      responseBytes 0#32 (BitVec.ofNat 32 (37 + 8 * n))
    moved := moved }

/-- The register is used within its image, and no more is transferred than was asked for and is
there. -/
structure Usage.Safe (u : Usage) (size numBits : ℕ) : Prop where
  touched_lt : ∀ k ∈ u.touched, k < imageBytes numBits
  moved_le : u.moved.length ≤ min size (presentBytes numBits)

/-! ### The number of bytes -/

variable {cfg : Config} {t : Target} {jreg : Jreg} {numBits n : ℕ}

theorem transferSize_fst (size : ℕ) (hle : 73 ≤ numBits) (hlt : numBits < 2 ^ 31) :
    (transferSize size numBits).1 = presentBytes numBits := by
  simp only [transferSize, presentBytes]
  split
  · omega
  · rw [show size * 8 + numBits + 2 ^ 64 - (36 + 8 * size + 32 + 4 + 1) =
      numBits - 73 + 2 ^ 64 by omega, Nat.add_mod_right, Nat.mod_eq_of_lt (by omega)]

/-- A register shorter than its fixed part gives a difference that wraps round. -/
theorem transferSize_fst_short (size : ℕ) (hlt : numBits < 73) :
    (transferSize size numBits).1 = (2 ^ 64 + numBits - 73) / 8 := by
  simp only [transferSize]
  rw [if_neg (by omega)]
  dsimp only
  rw [show size * 8 + numBits + 2 ^ 64 - (36 + 8 * size + 32 + 4 + 1) = 2 ^ 64 + numBits - 73
    by omega, Nat.mod_eq_of_lt (by omega)]

/-! ### The bytes in bounds -/

theorem fieldBytes_lt_iff {o m : ℕ} : (∀ k ∈ fieldBytes o, k < m) ↔ o + 4 < m := by
  simp only [fieldBytes, List.mem_map, List.mem_range, forall_exists_index, and_imp,
    forall_apply_eq_imp_iff₂]
  exact ⟨fun h => h 4 (by omega), fun h i hi => by omega⟩

theorem dataBytes_lt_iff {off m : ℕ} {is : List ℕ} :
    (∀ k ∈ dataBytes off is, k < m) ↔ ∀ i ∈ is, off + i + 1 < m := by
  simp only [dataBytes, List.mem_flatMap, List.mem_cons, List.not_mem_nil, or_false,
    forall_exists_index, and_imp]
  constructor
  · intro h i hi
    exact h _ i hi (.inr rfl)
  · rintro h k i hi (rfl | rfl)
    · exact Nat.lt_of_succ_lt (h i hi)
    · exact h i hi

theorem responseBytes_lt_iff {ignBits zeroBits : BitVec 32} {m : ℕ} :
    (∀ k ∈ responseBytes ignBits zeroBits, k < m) ↔
      zeroBits.toNat / 8 < m ∧ (ignBits + zeroBits).toNat / 8 +
        (if (ignBits + zeroBits).toNat % 8 ≤ 4 then 4 else 5) < m := by
  simp only [responseBytes, List.forall_mem_append, List.mem_range, List.mem_map,
    forall_exists_index, and_imp, forall_apply_eq_imp_iff₂]
  refine and_congr ⟨fun h => h _ (by omega), fun h i hi => by omega⟩ ?_
  split
  · exact ⟨fun h => h 4 (by omega), fun h i hi => by omega⟩
  · exact ⟨fun h => h 5 (by omega), fun h i hi => by omega⟩

theorem mem_moduleMoved {t : Target} {n i : ℕ} (h : i ∈ moduleMoved t n) : i < n := by
  unfold moduleMoved at h
  split at h
  · exact List.mem_range.1 (List.mem_filter.1 h).1
  · exact List.mem_range.1 (List.mem_filter.1 h).1
  · exact absurd h List.not_mem_nil

theorem length_moduleMoved_le (t : Target) (n : ℕ) : (moduleMoved t n).length ≤ n := by
  have hfilter : ∀ p : ℕ → Bool, ((List.range n).filter p).length ≤ n := fun p =>
    (List.length_filter_le _ _).trans_eq List.length_range
  unfold moduleMoved
  split
  · exact hfilter _
  · exact hfilter _
  · exact Nat.zero_le n

theorem length_sprMoved (n : ℕ) : (sprMoved n).length = min n 4 := by
  rw [sprMoved, ← List.countP_eq_length_filter]
  induction n with
  | zero => rfl
  | succ n ih =>
    rw [List.range_succ, List.countP_append, ih, List.countP_singleton]
    split
    · simp only [decide_eq_true_eq] at *
      omega
    · simp only [decide_eq_true_eq] at *
      omega

/-- `wishbone_read` and `wishbone_write` keep to the size that was asked for. -/
theorem length_wishboneMoved_le (t : Target) (n : ℕ) :
    (wishboneMoved t n).length ≤ t.debug.size := by
  have hnodup : (wishboneMoved t n).Nodup := List.nodup_range.filter _
  have hsub : wishboneMoved t n ⊆ List.range t.debug.size := fun i hi => by
    simp only [wishboneMoved, List.mem_filter, Bool.and_eq_true, decide_eq_true_eq] at hi
    exact List.mem_range.2 hi.2.1
  simpa using (hnodup.subperm hsub).length_le

/-- `spr_read` and `spr_write` transfer up to four bytes, however many were asked for. -/
theorem length_moduleMoved_iff (t : Target) (n : ℕ) :
    (moduleMoved t n).length ≤ t.debug.size ↔
      (t.debug.modId = .cpu0 → 4 ≤ t.debug.size ∨ n ≤ t.debug.size) := by
  cases hmod : t.debug.modId with
  | cpu0 =>
    simp only [moduleMoved, hmod, length_sprMoved, forall_const]
    omega
  | wishbone => simpa [moduleMoved, hmod] using length_wishboneMoved_le t n
  | _ => simp [moduleMoved, hmod]

/-! ### The bytes that change -/

theorem put_of_ne {j : Jreg} {a k : ℕ} (v : Byte) (h : k ≠ a) : put a v j k = j k := by
  rw [put, Function.update_of_ne h]

theorem orIn_of_ne {j : Jreg} {a k : ℕ} (v : Byte) (h : k ≠ a) : orIn a v j k = j k := by
  rw [orIn, Function.update_of_ne h]

theorem constructResponse_frame (j : Jreg) (status : Byte) (crc : Word) {ign zeros k : ℕ}
    (hk : k ∉ responseBytes (BitVec.ofNat 32 ign) (BitVec.ofNat 32 zeros)) :
    constructResponse j status crc ign zeros k = j k := by
  have hsum : (BitVec.ofNat 32 ign + BitVec.ofNat 32 zeros).toNat = (ign + zeros) % 2 ^ 32 := by
    rw [BitVec.toNat_add, BitVec.toNat_ofNat, BitVec.toNat_ofNat, ← Nat.add_mod]
  simp only [responseBytes, BitVec.toNat_ofNat, hsum, List.mem_append, List.mem_range, List.mem_map,
    not_or, not_exists, not_and] at hk
  obtain ⟨hzero, hskip⟩ := hk
  unfold constructResponse
  simp only [Nat.add_mod_mod]
  split at hskip
  · rename_i hoff
    have hne : ∀ i < 5, k ≠ (ign + zeros) % 2 ^ 32 / 8 + i := fun i hi => Ne.symm (hskip i hi)
    rw [if_pos hoff, put_of_ne _ (hne 4 (by decide)), put_of_ne _ (hne 3 (by decide)),
      put_of_ne _ (hne 2 (by decide)), put_of_ne _ (hne 1 (by decide)),
      orIn_of_ne _ (show k ≠ (ign + zeros) % 2 ^ 32 / 8 from hne 0 (by decide)),
      put_of_ne _ (by omega), if_neg (by omega)]
  · rename_i hoff
    have hne : ∀ i < 6, k ≠ (ign + zeros) % 2 ^ 32 / 8 + i := fun i hi => Ne.symm (hskip i hi)
    rw [if_neg hoff, put_of_ne _ (hne 5 (by decide)), put_of_ne _ (hne 4 (by decide)),
      put_of_ne _ (hne 3 (by decide)), put_of_ne _ (hne 2 (by decide)),
      put_of_ne _ (hne 1 (by decide)),
      orIn_of_ne _ (show k ≠ (ign + zeros) % 2 ^ 32 / 8 from hne 0 (by decide)),
      put_of_ne _ (by omega), if_neg (by omega)]

theorem byte_eq_of_bit {j j' : Jreg} {k : ℕ} (h : ∀ i, i / 8 = k → bit j i = bit j' i) :
    j k = j' k := by
  refine BitVec.eq_of_getLsbD_eq fun i hi => ?_
  have := h (8 * k + i) (by omega)
  rw [bit_mul_add, bit_mul_add] at this
  rwa [Nat.div_eq_of_lt hi, Nat.mod_eq_of_lt hi] at this

/-- `go_command_read` changes no other byte. -/
theorem goCommandRead_frame (cfg : Config) {k : ℕ}
    (hk : k ∉ (goCommandReadUsage t jreg numBits).touched) :
    (goCommandRead cfg t jreg numBits).2 k = jreg k := by
  generalize hn : (transferSize t.debug.size numBits).1 = n
  simp only [goCommandReadUsage, hn, List.mem_append, not_or] at hk
  obtain ⟨⟨hfield, hdata⟩, hresponse⟩ := hk
  have hframe := fun (j : Jreg) (status : Byte) (crc : Word) =>
    constructResponse_frame j status crc hresponse
  by_cases hcrc : crcOfCmd .goCommand = crcIn5 jreg 0
  · obtain ⟨t', status, data, -, -, hform⟩ := goCommandRead_form cfg t jreg numBits hn hcrc
    obtain ⟨reg, hrun, -, hkeep⟩ := hform jreg fun _ _ => rfl
    rw [hrun]
    refine (hframe reg status (crcOfBits data)).trans (byte_eq_of_bit fun i hi => hkeep i ?_)
    have hfive : 5 ≤ k := by
      by_contra hlt
      exact hfield (List.mem_map.2 ⟨k, List.mem_range.2 (by omega), by omega⟩)
    -- a byte before the end of the data holds some of it
    by_contra hbit
    rw [if_pos (decide_eq_true hcrc)] at hdata
    refine hdata (List.mem_flatMap.2 ⟨k - 5, List.mem_range.2 (by omega), ?_⟩)
    simp only [List.mem_cons, List.not_mem_nil, or_false]
    omega
  · rw [goCommandRead]
    simp only [if_neg hcrc, hn]
    exact hframe _ _ _

/-- `go_command_write` changes no other byte. -/
theorem goCommandWrite_frame (cfg : Config) {k : ℕ}
    (hk : k ∉ (goCommandWriteUsage t jreg numBits).touched) {t' : Target} {jreg' : Jreg}
    (hrun : goCommandWrite cfg t jreg numBits = .ok (t', jreg')) : jreg' k = jreg k := by
  generalize hn : (transferSize t.debug.size numBits).1 = n
  simp only [goCommandWriteUsage, hn, List.mem_append, not_or] at hk
  obtain ⟨e, herror⟩ | ⟨t'', status, -, hok⟩ := goCommandWrite_form cfg t jreg numBits hn
  · rw [herror jreg fun _ _ => rfl] at hrun
    exact nomatch hrun
  · rw [hok jreg fun _ _ => rfl] at hrun
    obtain rfl := congrArg Prod.snd (Except.ok.inj hrun)
    exact constructResponse_frame jreg status _ hk.2

/-- No other byte decides what `go_command_read` does to the simulator. -/
theorem goCommandRead_congr (cfg : Config) {j : Jreg}
    (h : ∀ k ∈ (goCommandReadUsage t jreg numBits).touched, j k = jreg k) :
    (goCommandRead cfg t j numBits).1 = (goCommandRead cfg t jreg numBits).1 := by
  have hagree : Agree 37 j jreg := fun i hi => by
    rw [bit, bit, h (i / 8)]
    refine List.mem_append_left _ (List.mem_append_left _ (List.mem_map.2 ⟨i / 8, ?_, ?_⟩))
    · exact List.mem_range.2 (by omega)
    · exact Nat.zero_add _
  by_cases hcrc : crcOfCmd .goCommand = crcIn5 jreg 0
  · obtain ⟨t', status, data, -, -, hform⟩ := goCommandRead_form cfg t jreg numBits rfl hcrc
    obtain ⟨reg, hrun, -⟩ := hform j hagree
    obtain ⟨reg', hrun', -⟩ := hform jreg fun _ _ => rfl
    rw [hrun, hrun']
  · have hcrc' : crcOfCmd .goCommand ≠ crcIn5 j 0 := by
      rwa [hagree.crcIn5_eq (by decide)]
    simp only [goCommandRead, if_neg hcrc, if_neg hcrc']

/-- No other byte decides what `go_command_write` does to the simulator. -/
theorem goCommandWrite_congr (cfg : Config) {j : Jreg}
    (h : ∀ k ∈ (goCommandWriteUsage t jreg numBits).touched, j k = jreg k) :
    (goCommandWrite cfg t j numBits).map Prod.fst =
      (goCommandWrite cfg t jreg numBits).map Prod.fst := by
  generalize hn : (transferSize t.debug.size numBits).1 = n
  have hagree : Agree (37 + 8 * n) j jreg := fun i hi => by
    rw [bit, bit, h (i / 8)]
    simp only [goCommandWriteUsage, hn, List.mem_append]
    by_cases hdata : i / 8 < n
    · exact .inl (.inl (.inr (List.mem_flatMap.2
        ⟨i / 8, List.mem_range.2 hdata, List.mem_cons.2 (.inl (Nat.zero_add _).symm)⟩)))
    · exact .inl (.inl (.inl (List.mem_map.2 ⟨i / 8 - n, List.mem_range.2 (by omega), by omega⟩)))
  obtain ⟨e, herror⟩ | ⟨t', status, -, hok⟩ := goCommandWrite_form cfg t jreg numBits hn
  · rw [herror j hagree, herror jreg fun _ _ => rfl]
  · rw [hok j hagree, hok jreg fun _ _ => rfl]
    rfl

/-! ### The handlers -/

theorem usage_safe_iff {u : Usage} {size : ℕ} :
    u.Safe size numBits ↔
      (∀ k ∈ u.touched, k < imageBytes numBits) ∧
        u.moved.length ≤ size ∧ u.moved.length ≤ presentBytes numBits := by
  rw [← Nat.le_min]
  exact ⟨fun h => ⟨h.touched_lt, h.moved_le⟩, fun h => ⟨h.1, h.2⟩⟩

/-- The response to a read ends with the register when the register has its fixed part. -/
theorem readResponse_lt (hle : 73 ≤ numBits) (hlt : numBits < 2 ^ 31) :
    ∀ k ∈ responseBytes (BitVec.ofNat 32 (8 * presentBytes numBits)) 37#32,
      k < imageBytes numBits := by
  have hsum : (BitVec.ofNat 32 (8 * presentBytes numBits) + 37#32).toNat =
      8 * presentBytes numBits + 37 := by
    simp only [BitVec.toNat_add, BitVec.toNat_ofNat, presentBytes]
    omega
  rw [responseBytes_lt_iff, hsum, if_neg (by omega), BitVec.toNat_ofNat]
  simp only [presentBytes, imageBytes]
  omega

/-- In a shorter register the length of the data is taken modulo 2^32. -/
theorem readResponse_lt_short (hlt : numBits < 73) :
    (∀ k ∈ responseBytes (BitVec.ofNat 32 (8 * ((2 ^ 64 + numBits - 73) / 8))) 37#32,
      k < imageBytes numBits) ↔ 41 ≤ numBits := by
  have hsum : (BitVec.ofNat 32 (8 * ((2 ^ 64 + numBits - 73) / 8)) + 37#32).toNat =
      (2 ^ 32 - 8 * ((80 - numBits) / 8) + 37) % 2 ^ 32 := by
    simp only [BitVec.toNat_add, BitVec.toNat_ofNat]
    omega
  rw [responseBytes_lt_iff, hsum, if_neg (by omega), BitVec.toNat_ofNat]
  simp only [imageBytes]
  omega

theorem writeResponse_lt (hle : 73 ≤ numBits) (hlt : numBits < 2 ^ 31) :
    ∀ k ∈ responseBytes 0#32 (BitVec.ofNat 32 (37 + 8 * presentBytes numBits)),
      k < imageBytes numBits := by
  have hsum : (BitVec.ofNat 32 (37 + 8 * presentBytes numBits)).toNat =
      37 + 8 * presentBytes numBits := by
    rw [BitVec.toNat_ofNat]
    simp only [presentBytes]
    omega
  rw [responseBytes_lt_iff, BitVec.zero_add, hsum, if_neg (by omega)]
  simp only [presentBytes, imageBytes]
  omega

/-- **`go_command_read` is safe** with the right CRC when the register has its fixed part, and
with a wrong one from 41 bits on. -/
theorem goCommandReadUsage_safe_iff (h : numBits < 2 ^ 31) :
    (goCommandReadUsage t jreg numBits).Safe t.debug.size numBits ↔
      if crcOfCmd .goCommand = crcIn5 jreg 0 then
        73 ≤ numBits ∧
          (t.debug.modId = .cpu0 → 4 ≤ t.debug.size ∨ presentBytes numBits ≤ t.debug.size)
      else 41 ≤ numBits := by
  rw [usage_safe_iff]
  simp only [goCommandReadUsage, List.forall_mem_append, fieldBytes_lt_iff, decide_eq_true_eq]
  rcases Nat.lt_or_ge numBits 73 with hshort | hlong
  · rw [transferSize_fst_short _ hshort]
    split
    · -- the data alone is longer than any register
      refine ⟨fun ⟨⟨⟨_, hdata⟩, _⟩, _⟩ => ?_, fun ⟨hle, _⟩ => absurd hle (by omega)⟩
      have := dataBytes_lt_iff.1 hdata 100 (List.mem_range.2 (by omega))
      simp only [imageBytes] at this
      omega
    · rw [readResponse_lt_short hshort]
      simp only [List.not_mem_nil, List.length_nil, false_implies, implies_true, and_true,
        Nat.zero_le, and_iff_right_iff_imp, imageBytes]
      omega
  · rw [transferSize_fst _ hlong h]
    have hresponse := readResponse_lt hlong h
    split
    · have hle := length_moduleMoved_le t (presentBytes numBits)
      have hdata : ∀ i ∈ List.range (presentBytes numBits),
          37 / 8 + i + 1 < imageBytes numBits := by
        intro i hi
        have := List.mem_range.1 hi
        simp only [presentBytes, imageBytes] at *
        omega
      rw [dataBytes_lt_iff, ← length_moduleMoved_iff]
      refine ⟨fun hsafe => ⟨hlong, hsafe.2.1⟩,
        fun hsafe => ⟨⟨⟨?_, hdata⟩, hresponse⟩, hsafe.2, hle⟩⟩
      simp only [imageBytes]
      omega
    · refine ⟨fun _ => by omega, fun _ => ⟨⟨⟨?_, by simp⟩, hresponse⟩, by simp⟩⟩
      simp only [imageBytes]
      omega

/-- **`go_command_write` is safe** when the register has its fixed part. -/
theorem goCommandWriteUsage_safe_iff (h : numBits < 2 ^ 31) :
    (goCommandWriteUsage t jreg numBits).Safe t.debug.size numBits ↔
      73 ≤ numBits ∧ (writeCrcOk jreg (presentBytes numBits) → t.debug.modId = .cpu0 →
        4 ≤ t.debug.size ∨ presentBytes numBits ≤ t.debug.size) := by
  rw [usage_safe_iff]
  simp only [goCommandWriteUsage, List.forall_mem_append, fieldBytes_lt_iff]
  rcases Nat.lt_or_ge numBits 73 with hshort | hlong
  · -- the CRC is looked for far behind the register
    rw [transferSize_fst_short _ hshort]
    refine ⟨fun ⟨⟨⟨⟨hcrc, _⟩, _⟩, _⟩, _⟩ => ?_, fun ⟨hle, _⟩ => absurd hle (by omega)⟩
    simp only [imageBytes] at hcrc
    omega
  · rw [transferSize_fst _ hlong h]
    have hle : ∀ i < presentBytes numBits, 0 + i + 1 < imageBytes numBits := by
      intro i hi
      simp only [presentBytes, imageBytes] at *
      omega
    have hcrc : presentBytes numBits + 4 < imageBytes numBits := by
      simp only [presentBytes, imageBytes]
      omega
    have hdata := dataBytes_lt_iff.2 fun i hi => hle i (List.mem_range.1 hi)
    rw [← length_moduleMoved_iff]
    split
    · rename_i hok
      have hmoved := dataBytes_lt_iff.2 fun i hi => hle i (mem_moduleMoved (t := t) hi)
      refine ⟨fun hsafe => ⟨hlong, fun _ => hsafe.2.1⟩, fun hsafe =>
        ⟨⟨⟨⟨hcrc, hdata⟩, hmoved⟩, writeResponse_lt hlong h⟩, hsafe.2 hok,
          length_moduleMoved_le t _⟩⟩
    · rename_i hbad
      refine ⟨fun _ => ⟨hlong, fun hok => absurd hok hbad⟩, fun _ =>
        ⟨⟨⟨⟨hcrc, hdata⟩, by simp [dataBytes]⟩, writeResponse_lt hlong h⟩, by simp⟩⟩

/-- **A `GO_COMMAND` is safe** exactly when its register has the fixed part, except that a read
with a wrong CRC is safe from 41 bits on, and when no SPR is transferred that is longer than what
was asked for. -/
theorem goCommand_safe_iff (t : Target) (jreg : Jreg) {numBits : ℕ} (h : numBits < 2 ^ 31) :
    ((goCommandReadUsage t jreg numBits).Safe t.debug.size numBits ↔
      if crcOfCmd .goCommand = crcIn5 jreg 0 then
        73 ≤ numBits ∧
          (t.debug.modId = .cpu0 → 4 ≤ t.debug.size ∨ presentBytes numBits ≤ t.debug.size)
      else 41 ≤ numBits) ∧
    ((goCommandWriteUsage t jreg numBits).Safe t.debug.size numBits ↔
      73 ≤ numBits ∧ (writeCrcOk jreg (presentBytes numBits) → t.debug.modId = .cpu0 →
        4 ≤ t.debug.size ∨ presentBytes numBits ≤ t.debug.size)) :=
  ⟨goCommandReadUsage_safe_iff h, goCommandWriteUsage_safe_iff h⟩

/-- The interface after a `WRITE_COMMAND` to write a byte at 0. -/
def oneByte : Debug := ⟨some jiDebug, .wishbone, true, 0, 0, 1, by decide⟩

/-- A write of one byte with a register of 81 zeros is safe. -/
theorem goCommand_safe_iff_zeros :
    (goCommandWriteUsage ⟨powerOn 0x601 0 (Memory.flat fun _ => 0), oneByte⟩ (fun _ => 0) 81).Safe
      1 81 :=
  (goCommand_safe_iff ⟨powerOn 0x601 0 (Memory.flat fun _ => 0), oneByte⟩ (fun _ => 0)
    (by decide : 81 < 2 ^ 31)).2.2 ⟨by decide, fun _ h => nomatch h⟩

/-- A register of 72 bits is too short for its fixed part. -/
theorem goCommand_unsafe :
    ¬ ∀ (t : Target) (jreg : Jreg) (numBits : ℕ), 5 ≤ numBits → numBits < 2 ^ 31 →
      (goCommandReadUsage t jreg numBits).Safe t.debug.size numBits ∧
        (goCommandWriteUsage t jreg numBits).Safe t.debug.size numBits := fun h =>
  absurd ((goCommandWriteUsage_safe_iff (by decide)).1
    (h ⟨powerOn 0x601 0 (Memory.flat fun _ => 0), oneByte⟩ (fun _ => 0) 72 (by decide)
      (by decide)).2).1 (by decide)

end Jtag
end Or1ksim
