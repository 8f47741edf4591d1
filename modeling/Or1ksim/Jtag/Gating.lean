import Or1ksim.Cpu.Run
import Or1ksim.Jtag.Dr

/-!
# CRC gating of the JTAG interface

Every data register carries the CRC of its request.  Seen as a bit string, a request is its first
`n` bits and its CRC the next 32, where `n` depends on the command.

* `crcOff` — the number of bits the CRC is of;
* `crcComputed_iff` — each handler compares the CRC of the bits with the bits of the field;
* `jtagShiftDr_gated` — **a request with a wrong CRC changes nothing**, and a single flipped bit
  makes the CRC wrong.
-/

namespace Or1ksim
namespace Jtag

open Cpu

/-- The check of a string of bits, from all ones on. -/
def crcOfBits (bs : List Bool) : Word := Crc.run crc32Poly 0xffffffff#32 bs

/-- The number of bits in front of the CRC field; `none` if the register has no request to check. -/
def crcOff (t : Target) (jreg : Jreg) (numBits : ℕ) : Option ℕ :=
  if bit jreg 0 then some 5
  else
    match cmdOf jreg with
    | some .goCommand =>
      if !t.debug.writeDefined then none
      else if isWrite t.debug.accType then some (5 + 8 * (transferSize t.debug.size numBits).1)
      else if isRead t.debug.accType then some 5
      else none
    | some .readCommand => some 5
    | some .writeCommand => some (5 + 4 + 32 + 16)
    | some .readControl => some 5
    | some .writeControl => some (5 + 52)
    | none => none

/-- The CRC field received is the CRC of the request. -/
def CrcOk (t : Target) (jreg : Jreg) (numBits : ℕ) : Prop :=
  ∃ n, crcOff t jreg numBits = some n ∧ bits jreg n 32 = msbFirst (crcOfBits (bits jreg 0 n))

/-- The register is shifted without any effect on the simulator and the interface, but that the
details for `GO_COMMAND` may be dropped. -/
def Rejected (cfg : Config) (t : Target) (jreg : Jreg) (numBits : ℕ) : Prop :=
  ∃ jreg', jtagShiftDr cfg t jreg numBits = .ok (t, jreg') ∨
    jtagShiftDr cfg t jreg numBits = .ok (t.undefine, jreg')

/-! ### Fields as bits -/

variable {jreg : Jreg}

theorem msbFirst_crcIn5 (jreg : Jreg) (o : ℕ) :
    msbFirst (crcIn5 jreg o) = bits jreg (8 * o + 5) 32 :=
  msbFirst_reverseBits (by decide) fun _ hi => getLsbD_word5 jreg o hi

theorem msbFirst_crcIn1 (jreg : Jreg) (o : ℕ) :
    msbFirst (crcIn1 jreg o) = bits jreg (8 * o + 1) 32 :=
  msbFirst_reverseBits (by decide) fun _ hi => getLsbD_word1 jreg o hi

theorem getLsbD_nibble1 (jreg : Jreg) {i : ℕ} (hi : i < 4) :
    (((jreg 0 >>> 1) &&& 0xf#8).setWidth 64).getLsbD i = bit jreg (1 + i) := by
  simp only [bit, BitVec.getLsbD_setWidth, BitVec.getLsbD_and, BitVec.getLsbD_ushiftRight]
  interval_cases i <;> simp

theorem bit_zero_iff (jreg : Jreg) : jreg 0 &&& 0x1#8 = 1#8 ↔ bit jreg 0 = true := by
  have h := and_one_eq_iff (by decide : 0 < 8) (jreg 0) 0
  rw [BitVec.ushiftRight_zero] at h
  exact h

theorem msbFirst_code_of_cmdOf {cmd : Cmd} (h : cmdOf jreg = some cmd) :
    cmd.code = (reverseBits (((jreg 0 >>> 1) &&& 0xf#8).setWidth 64) 4).setWidth 4 := by
  unfold cmdOf Cmd.ofCode at h
  split_ifs at h with h0 h1 h2 h3 h4 <;> cases h <;> (symm; assumption)

theorem cmdOf_congr {jreg jreg' : Jreg} (h : bits jreg 1 4 = bits jreg' 1 4) :
    cmdOf jreg = cmdOf jreg' := by
  have hcode : ∀ j : Jreg,
      msbFirst ((reverseBits (((j 0 >>> 1) &&& 0xf#8).setWidth 64) 4).setWidth 4) = bits j 1 4 :=
    fun j => msbFirst_reverseBits (by decide) fun _ hi => getLsbD_nibble1 j hi
  unfold cmdOf
  rw [msbFirst_injective ((hcode jreg).trans (h.trans (hcode jreg').symm))]

/-! ### Computed checks -/

theorem crc32_bit (b : Bool) (crc : Word) :
    crc32 (if b then 1#64 else 0#64) 1 crc = Crc.run crc32Poly crc [b] := by
  rw [crc32_eq_run]
  cases b <;> rfl

theorem bits_five (jreg : Jreg) : bits jreg 0 5 = bit jreg 0 :: bits jreg 1 4 :=
  bits_add jreg 0 1 4

theorem crcOfCmd_eq {cmd : Cmd} (hsel : bit jreg 0 = false) (h : cmdOf jreg = some cmd) :
    crcOfCmd cmd = crcOfBits (bits jreg 0 5) := by
  have hbit : crc32 0#64 1 0xffffffff#32 = Crc.run crc32Poly 0xffffffff#32 [false] :=
    crc32_bit false _
  have hcode : ∀ crc, crc32 (cmd.code.setWidth 64) 4 crc =
      Crc.run crc32Poly crc (bits jreg 1 4) := by
    refine crc32_reverseBits (by decide) (fun _ hi => getLsbD_nibble1 jreg hi) fun i hi => ?_
    rw [msbFirst_code_of_cmdOf h]
    simp [hi, show i < 64 by omega]
  rw [crcOfCmd, hbit, hcode, crcOfBits, bits_five, hsel]
  rfl

theorem crcComputed_iff {n : ℕ} {crcIn crcComputed : Word} (hin : msbFirst crcIn = bits jreg n 32)
    (hcomputed : crcComputed = crcOfBits (bits jreg 0 n)) :
    crcComputed = crcIn ↔ bits jreg n 32 = msbFirst (crcOfBits (bits jreg 0 n)) := by
  rw [← hin, ← hcomputed]
  exact ⟨fun h => by rw [h], fun h => (msbFirst_injective h).symm⟩

theorem crcOfBits_append (bs bs' : List Bool) :
    crcOfBits (bs ++ bs') = Crc.run crc32Poly (crcOfBits bs) bs' :=
  Crc.run_append ..

theorem selectModule_computed (hsel : bit jreg 0 = true) :
    crc32 (((reverseBits (((jreg 0 >>> 1) &&& 0xf#8).setWidth 64) 4).setWidth 8).setWidth 64) 4
      (crc32 1#64 1 0xffffffff#32) = crcOfBits (bits jreg 0 5) := by
  have hbit : crc32 1#64 1 0xffffffff#32 = Crc.run crc32Poly 0xffffffff#32 [true] :=
    crc32_bit true _
  rw [hbit, crc32_reverseBits (by decide) (fun _ hi => getLsbD_nibble1 jreg hi) (fun i hi => by
    simp [show i < 64 by omega, show i < 8 by omega]), crcOfBits, bits_five, hsel]
  rfl

theorem writeCommand_computed (hsel : bit jreg 0 = false) (h : cmdOf jreg = some .writeCommand) :
    crc32 (((reverseBits (half1 jreg 5) 16).setWidth 16).setWidth 64) 16
      (crc32 (((reverseBits (word1 jreg 1) 32).setWidth 32).setWidth 64) 32
        (crc32 (((reverseBits (nibble5 jreg) 4).setWidth 8).setWidth 64) 4
          (crcOfCmd .writeCommand))) = crcOfBits (bits jreg 0 (5 + 4 + 32 + 16)) := by
  have hacc : ∀ crc, crc32 (((reverseBits (nibble5 jreg) 4).setWidth 8).setWidth 64) 4 crc =
      Crc.run crc32Poly crc (bits jreg 5 4) :=
    crc32_reverseBits (by decide) (fun _ hi => getLsbD_nibble5 jreg hi) fun i hi => by
      simp [show i < 64 by omega, show i < 8 by omega]
  have haddr : ∀ crc, crc32 (((reverseBits (word1 jreg 1) 32).setWidth 32).setWidth 64) 32 crc =
      Crc.run crc32Poly crc (bits jreg 9 32) :=
    crc32_reverseBits (by decide) (fun _ hi => getLsbD_word1 jreg 1 hi) fun i hi => by
      simp [show i < 64 by omega, hi]
  have hlen : ∀ crc, crc32 (((reverseBits (half1 jreg 5) 16).setWidth 16).setWidth 64) 16 crc =
      Crc.run crc32Poly crc (bits jreg 41 16) :=
    crc32_reverseBits (by decide) (fun _ hi => getLsbD_half1 jreg 5 hi) fun i hi => by
      simp [show i < 64 by omega, hi]
  rw [crcOfCmd_eq hsel h, hacc, haddr, hlen, bits_add jreg 0 (5 + 4 + 32) 16,
    bits_add jreg 0 (5 + 4) 32, bits_add jreg 0 5 4, crcOfBits_append, crcOfBits_append,
    crcOfBits_append]

theorem writeControl_computed (hsel : bit jreg 0 = false) (h : cmdOf jreg = some .writeControl) :
    crc32 (reverseBits (control5 jreg) 52) 52 (crcOfCmd .writeControl) =
      crcOfBits (bits jreg 0 (5 + 52)) := by
  rw [crcOfCmd_eq hsel h, crc32_reverseBits (by decide) (fun _ hi => getLsbD_control5 jreg hi)
    fun _ _ => rfl, bits_add, crcOfBits_append, Nat.zero_add]

theorem goCommandWrite_computed (hsel : bit jreg 0 = false) (h : cmdOf jreg = some .goCommand)
    (n : ℕ) :
    (List.range n).foldl
      (fun crc i => crc32 (((reverseBits (byte5 jreg i) 8).setWidth 8).setWidth 64) 8 crc)
      (crcOfCmd .goCommand) = crcOfBits (bits jreg 0 (5 + 8 * n)) := by
  induction n with
  | zero => exact crcOfCmd_eq hsel h
  | succ n ih =>
    have hbyte : ∀ crc, crc32 (((reverseBits (byte5 jreg n) 8).setWidth 8).setWidth 64) 8 crc =
        Crc.run crc32Poly crc (bits jreg (8 * n + 5) 8) :=
      crc32_reverseBits (by decide) (fun _ hi => getLsbD_byte5 jreg n hi) fun i hi => by
        simp [show i < 64 by omega, hi]
    rw [List.range_succ, List.foldl_append, ih, List.foldl_cons, List.foldl_nil, hbyte,
      show 5 + 8 * (n + 1) = 5 + 8 * n + 8 by ring, bits_add jreg 0 (5 + 8 * n), crcOfBits_append,
      show 0 + (5 + 8 * n) = 8 * n + 5 by ring]

/-! ### Rejection -/

variable {cfg : Config} {t : Target} {numBits : ℕ}

theorem goCommand_rejects (hsel : bit jreg 0 = false) (hcmd : cmdOf jreg = some .goCommand)
    (h : ¬CrcOk t jreg numBits) : ∃ jreg', goCommand cfg t jreg numBits = .ok (t, jreg') := by
  unfold goCommand
  split_ifs with hdef hwrite hread
  · exact ⟨_, rfl⟩
  · have hoff : crcOff t jreg numBits = some (5 + 8 * (transferSize t.debug.size numBits).1) := by
      simp [crcOff, hsel, hcmd, hdef, hwrite]
    unfold goCommandWrite
    generalize transferSize t.debug.size numBits = size at hoff ⊢
    have hin := msbFirst_crcIn5 jreg size.1
    rw [Nat.add_comm] at hin
    have hne := mt (crcComputed_iff hin (goCommandWrite_computed hsel hcmd size.1)).1
      fun hok => h ⟨_, hoff, hok⟩
    simp only [if_neg hne]
    exact ⟨_, rfl⟩
  · have hoff : crcOff t jreg numBits = some 5 := by
      simp [crcOff, hsel, hcmd, hdef, hwrite, hread]
    have hne := mt (crcComputed_iff (msbFirst_crcIn5 jreg 0) (crcOfCmd_eq hsel hcmd)).1
      fun hok => h ⟨_, hoff, hok⟩
    unfold goCommandRead
    simp only [if_neg hne]
    exact ⟨_, rfl⟩
  · exact ⟨_, rfl⟩

/-- **A register whose CRC is wrong is rejected.** -/
theorem rejected_of_not_crcOk (h : ¬CrcOk t jreg numBits) : Rejected cfg t jreg numBits := by
  unfold Rejected jtagShiftDr
  by_cases hinstr : t.debug.instr ≠ some jiDebug
  · rw [if_pos hinstr]
    exact ⟨_, .inl rfl⟩
  rw [if_neg hinstr]
  by_cases hsel : bit jreg 0 = true
  · have hoff : crcOff t jreg numBits = some 5 := by simp [crcOff, hsel]
    have hne := mt (crcComputed_iff (msbFirst_crcIn5 jreg 0) (selectModule_computed hsel)).1
      fun hok => h ⟨_, hoff, hok⟩
    rw [if_pos ((bit_zero_iff jreg).2 hsel)]
    unfold selectModule
    simp only [if_neg hne]
    split_ifs
    · exact ⟨_, .inl rfl⟩
    · exact ⟨_, .inl rfl⟩
  rw [if_neg (mt (bit_zero_iff jreg).1 hsel)]
  replace hsel : bit jreg 0 = false := Bool.eq_false_iff.2 hsel
  match hcmd : cmdOf jreg with
  | none => exact ⟨_, .inl rfl⟩
  | some .goCommand =>
    obtain ⟨jreg', hgo⟩ : ∃ jreg', goCommand cfg t jreg numBits = .ok (t, jreg') :=
      goCommand_rejects hsel hcmd h
    exact ⟨jreg', .inl hgo⟩
  | some .readCommand => exact ⟨_, .inl rfl⟩
  | some .readControl => exact ⟨_, .inl rfl⟩
  | some .writeCommand =>
    have hoff : crcOff t jreg numBits = some (5 + 4 + 32 + 16) := by simp [crcOff, hsel, hcmd]
    have hne := mt (crcComputed_iff (msbFirst_crcIn1 jreg 7) (writeCommand_computed hsel hcmd)).1
      fun hok => h ⟨_, hoff, hok⟩
    unfold writeCommand
    simp only [if_neg hne]
    split_ifs
    · exact ⟨_, .inr rfl⟩
    · exact ⟨_, .inr rfl⟩
  | some .writeControl =>
    have hoff : crcOff t jreg numBits = some (5 + 52) := by simp [crcOff, hsel, hcmd]
    have hne := mt (crcComputed_iff (msbFirst_crcIn1 jreg 7) (writeControl_computed hsel hcmd)).1
      fun hok => h ⟨_, hoff, hok⟩
    unfold writeControl
    simp only [if_neg hne]
    split_ifs
    · exact ⟨_, .inl rfl⟩
    · exact ⟨_, .inl rfl⟩

/-! ### Flipped bits -/

/-- The register with bit `k` inverted. -/
def flip (jreg : Jreg) (k : ℕ) : Jreg :=
  Function.update jreg (k / 8) (jreg (k / 8) ^^^ BitVec.twoPow 8 (k % 8))

theorem bit_flip (jreg : Jreg) (k i : ℕ) :
    bit (flip jreg k) i = if i = k then !bit jreg i else bit jreg i := by
  unfold bit flip
  by_cases hbyte : i / 8 = k / 8
  · have hlt : k % 8 < 8 := Nat.mod_lt _ (by decide)
    have hbit : (k % 8 = i % 8) ↔ i = k := by omega
    rw [hbyte, Function.update_self, BitVec.getLsbD_xor, BitVec.getLsbD_twoPow]
    by_cases hik : i = k
    · subst hik
      simp [hlt]
    · simp [hik, hbit]
  · have hik : i ≠ k := by
      rintro rfl
      exact hbyte rfl
    rw [Function.update_of_ne hbyte, if_neg hik]

theorem bits_flip_of_outside (jreg : Jreg) {k off n : ℕ} (h : k < off ∨ off + n ≤ k) :
    bits (flip jreg k) off n = bits jreg off n := by
  refine List.map_congr_left fun i hi => ?_
  have hi := List.mem_range.1 hi
  rw [bit_flip, if_neg (by omega)]

theorem bits_flip_of_inside (jreg : Jreg) {k off n : ℕ} (hle : off ≤ k) :
    bits (flip jreg k) off n = flipBit (bits jreg off n) (k - off) := by
  refine List.ext_getElem (by simp) fun i hi hi' => ?_
  simp only [bits, flipBit, List.getElem_modify, List.getElem_map, List.getElem_range, bit_flip]
  by_cases hik : k - off = i
  · rw [if_pos hik, if_pos (by omega)]
  · rw [if_neg hik, if_neg (by omega)]

theorem crcOff_flip {k : ℕ} (hk : 5 ≤ k) :
    crcOff t (flip jreg k) numBits = crcOff t jreg numBits := by
  have hsel : bit (flip jreg k) 0 = bit jreg 0 := by rw [bit_flip, if_neg (by omega)]
  have hcmd : cmdOf (flip jreg k) = cmdOf jreg := cmdOf_congr (bits_flip_of_outside jreg (by omega))
  rw [crcOff, crcOff, hsel, hcmd]

/-- **A single flipped bit** of a request or of its CRC makes the CRC wrong. -/
theorem not_crcOk_flip {n k : ℕ} (hoff : crcOff t jreg numBits = some n)
    (h : CrcOk t jreg numBits) (hk : 5 ≤ k) (hkn : k < n + 32) :
    ¬CrcOk t (flip jreg k) numBits := by
  rintro ⟨n', hoff', heq⟩
  obtain ⟨n'', hoff'', hok⟩ := h
  obtain rfl : n = n'' := Option.some.inj (hoff.symm.trans hoff'')
  obtain rfl : n = n' := by
    rw [crcOff_flip hk] at hoff'
    exact Option.some.inj (hoff.symm.trans hoff')
  by_cases hin : k < n
  · rw [bits_flip_of_outside jreg (.inl hin), hok,
      bits_flip_of_inside jreg (Nat.zero_le k)] at heq
    refine Crc.run_flip_ne (by decide) (bits jreg 0 n) ?_ _ (msbFirst_injective heq).symm
    rw [length_bits]
    omega
  · rw [bits_flip_of_inside jreg (not_lt.1 hin), bits_flip_of_outside jreg (.inr (by omega)),
      ← hok] at heq
    refine flipBit_ne ?_ heq
    rw [length_bits]
    omega

/-- **CRC gating.**  Whatever the state of the interface and whatever is shifted in, a register
whose CRC field is not the CRC of its request leaves the simulator, the selected module and the
stored access type, address and size as they were.  Flipping any one bit of a valid request after
its first five, up to the end of the CRC field, gives such a register. -/
theorem jtagShiftDr_gated (cfg : Config) (t : Target) (jreg : Jreg) (numBits : ℕ) :
    (¬CrcOk t jreg numBits → Rejected cfg t jreg numBits) ∧
      ∀ n, crcOff t jreg numBits = some n → CrcOk t jreg numBits →
        ∀ k, 5 ≤ k → k < n + 32 →
          ¬CrcOk t (flip jreg k) numBits ∧ Rejected cfg t (flip jreg k) numBits := by
  refine ⟨rejected_of_not_crcOk, fun n hoff hok k hk hkn => ?_⟩
  have hflip := not_crcOk_flip hoff hok hk hkn
  exact ⟨hflip, rejected_of_not_crcOk hflip⟩

/-- The interface after the start, with the `DEBUG` instruction shifted in. -/
def startDebug : Debug := ⟨some jiDebug, .undefined, false, 0, 0, 0, by decide⟩

/-- A register from its bytes. -/
def ofBytes (bytes : List Byte) : Jreg := fun k => bytes.getD k 0

/-- The register that selects the first processor. -/
def selectCpu0 : Jreg := ofBytes [0x71, 0xd8, 0x51, 0xff, 0x0a, 0, 0, 0, 0, 0]

/-- The request that selects the first processor is valid, and is rejected with one bit wrong. -/
theorem jtagShiftDr_gated_selectCpu0 :
    CrcOk ⟨powerOn 0x601 0 (Memory.flat fun _ => 0), startDebug⟩ selectCpu0 73 ∧
      Rejected defaultConfig ⟨powerOn 0x601 0 (Memory.flat fun _ => 0), startDebug⟩
        (flip selectCpu0 9) 73 := by
  have hok : CrcOk ⟨powerOn 0x601 0 (Memory.flat fun _ => 0), startDebug⟩ selectCpu0 73 :=
    ⟨5, by decide, by decide⟩
  exact ⟨hok, ((jtagShiftDr_gated defaultConfig _ _ _).2 5 (by decide) hok 9 (by decide)
    (by decide)).2⟩

end Jtag
end Or1ksim
