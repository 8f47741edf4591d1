import Or1ksim.Decoder.Accept
import Or1ksim.Insn.Decode

/-!
# The width of `unsigned long`

`insn_extract` builds masks and values with shifts of an `int`.  Where `unsigned long` is wider,
the top bit of an instruction word is sign-extended, in the mask and in the value.

* `opcodes_accepted` — the builder accepts the opcode table at either width;
* `wide_matches_iff` — on the wider host no word with the top bit set matches a row;
* `insnDecode_width_iff` — **the two hosts decode alike** exactly the words with the top bit clear
  and those that are no instruction.
-/

namespace Or1ksim
namespace Insn

open Decoder

/-! ### The builder accepts the table -/

/-- The encodings of the opcode table. -/
def encodings (haveUnsignedXori : Bool) : List Encoding := (opcodes haveUnsignedXori).map Opcode.enc

/-- The pattern of an encoding on a host, as numbers. -/
def hostPattern (W : ℕ) (enc : Encoding) : ℕ × ℕ :=
  ((insnExtract W '1' enc ||| insnExtract W '0' enc).toNat, (insnExtract W '1' enc).toNat)

theorem Texts.encodings_eq {ops : List Opcode} {rows : List (List Char × Encoding)}
    (h : Texts ops rows) : ops.map Opcode.enc = rows.map Prod.snd := by
  rw [← h.map_eq, List.map_map]
  rfl

theorem ofEncodings_congr {W : ℕ} {encs encs' : List Encoding}
    (h : encs.map (hostPattern W) = encs'.map (hostPattern W)) :
    Patterns.ofEncodings W encs = Patterns.ofEncodings W encs' := by
  have hnum : encs.length = encs'.length := by simpa using congrArg List.length h
  have hget : ∀ j, hostPattern W (encs.getD j []) = hostPattern W (encs'.getD j []) := fun j => by
    have hj := congrArg (fun l => l.getD j (hostPattern W [])) h
    simpa only [List.getD_map] using hj
  unfold Patterns.ofEncodings
  rw [Patterns.mk.injEq]
  refine ⟨hnum, funext fun j => ?_, funext fun j => ?_⟩
  · exact BitVec.eq_of_toNat_eq (congrArg Prod.fst (hget j))
  · exact BitVec.eq_of_toNat_eq (congrArg Prod.snd (hget j))

/-- The check that a table of encodings is accepted. -/
def checkAccepted (W : ℕ) (encs : List Encoding) : Bool :=
  (treeCells (Patterns.ofEncodings W encs) coverDepth 0xffffffff#32 (List.range encs.length)).any
    fun n => decide (n ≤ maxAutomataSize)

theorem accepted_of_check {W : ℕ} (hW : 32 ≤ W) {encs : List Encoding} (hne : encs ≠ [])
    (h : checkAccepted W encs = true) (junk : ℕ → BitVec W) :
    ∃ automata, buildAutomata (Patterns.ofEncodings W encs) junk = .ok automata := by
  rw [checkAccepted, Option.any_eq_true] at h
  obtain ⟨n, hcells, hn⟩ := h
  refine buildAutomata_of_treeCells hW junk ?_ hcells (of_decide_eq_true hn)
  exact fun hlen => hne (List.length_eq_zero_iff.1 hlen)

theorem patterns_eq (haveUnsignedXori : Bool) {W : ℕ} (hW : W = 32 ∨ W = 64) :
    Patterns.ofEncodings W (encodings haveUnsignedXori) =
      Patterns.ofEncodings W (encodings true) := by
  apply ofEncodings_congr
  rw [encodings, encodings, (rowTexts _).2.encodings_eq, (rowTexts true).2.encodings_eq,
    List.map_map, List.map_map]
  rcases hW with rfl | rfl <;> exact map_rowTexts (by decide) haveUnsignedXori

theorem checkAccepted_encodings {W : ℕ} (hW : W = 32 ∨ W = 64) :
    checkAccepted W (encodings true) = true := by
  rw [encodings, (rowTexts true).2.encodings_eq]
  rcases hW with rfl | rfl <;> decide +kernel

/-- **The builder accepts the opcode table**, on either host. -/
theorem opcodes_accepted (haveUnsignedXori : Bool) {W : ℕ} (hW : W = 32 ∨ W = 64)
    (junk : ℕ → BitVec W) :
    ∃ automata, buildAutomata (Patterns.ofEncodings W (encodings haveUnsignedXori)) junk =
      .ok automata := by
  rw [patterns_eq _ hW]
  refine accepted_of_check (by omega) ?_ (checkAccepted_encodings hW) junk
  exact List.cons_ne_nil _ _

/-! ### Matching on the wider host -/

/-- On the wider host an encoding is sign-extended, and it fixes the top bit. -/
def checkWide (enc : Encoding) : Bool :=
  decide (insnExtract 64 '1' enc = (insnExtract 32 '1' enc).signExtend 64) &&
    decide (insnExtract 64 '0' enc = (insnExtract 32 '0' enc).signExtend 64) &&
    (encMask enc).getLsbD 31

set_option maxRecDepth 20000 in
theorem opcodes_wide {haveUnsignedXori : Bool} {o : Opcode} (h : o ∈ opcodes haveUnsignedXori) :
    insnExtract 64 '1' o.enc = (encBits o.enc).signExtend 64 ∧
      insnExtract 64 '1' o.enc ||| insnExtract 64 '0' o.enc = (encMask o.enc).signExtend 64 ∧
      (encMask o.enc).getLsbD 31 = true := by
  have hwide : (tableTexts.1.all fun r => checkWide r.2) = true := by decide
  have hcheck := check_opcodes hwide h
  simp only [checkWide, Bool.and_eq_true, decide_eq_true_eq] at hcheck
  obtain ⟨⟨hones, hzeros⟩, htop⟩ := hcheck
  refine ⟨hones, ?_, htop⟩
  rw [hones, hzeros, ← BitVec.signExtend_or]
  rfl

/-- A sign-extended pattern compares with a word as the pattern does, if its top bit is clear, and
never otherwise. -/
theorem signExtend_matches_iff {mask bits insn : BitVec 32} (htop : mask.getLsbD 31 = true) :
    mask.signExtend 64 &&& insn.setWidth 64 = bits.signExtend 64 ↔
      mask &&& insn = bits ∧ insn.getLsbD 31 = false := by
  constructor
  · intro h
    have hget : ∀ i < 64, ((mask.signExtend 64).getLsbD i && insn.getLsbD i) =
        (bits.signExtend 64).getLsbD i := fun i hi => by
      rw [← h, BitVec.getLsbD_and, BitVec.getLsbD_setWidth, decide_eq_true hi, Bool.true_and]
    have hlow : ∀ i < 32, (mask.getLsbD i && insn.getLsbD i) = bits.getLsbD i := fun i hi => by
      have := hget i (by omega)
      rwa [BitVec.getLsbD_signExtend, BitVec.getLsbD_signExtend, if_pos hi, if_pos hi,
        decide_eq_true (by omega : i < 64), Bool.true_and, Bool.true_and] at this
    have hmsb : bits.msb = false := by
      have := hget 32 (by decide)
      rw [BitVec.getLsbD_of_ge insn 32 (le_refl 32), Bool.and_false,
        BitVec.getLsbD_signExtend] at this
      exact this.symm
    refine ⟨BitVec.eq_of_getLsbD_eq fun i hi => ?_, ?_⟩
    · rw [BitVec.getLsbD_and, hlow i hi]
    · have := hlow 31 (by decide)
      rw [htop, Bool.true_and] at this
      rw [this, ← hmsb]
      rfl
  · rintro ⟨rfl, hclear⟩
    have hmsb : (mask &&& insn).msb = false := by
      rw [BitVec.msb_and, show insn.msb = insn.getLsbD 31 from rfl, hclear, Bool.and_false]
    apply BitVec.eq_of_getLsbD_eq
    intro i hi
    rw [BitVec.getLsbD_signExtend, hmsb, BitVec.getLsbD_and, BitVec.getLsbD_signExtend,
      BitVec.getLsbD_setWidth, BitVec.getLsbD_and, decide_eq_true hi]
    by_cases hi' : i < 32
    · rw [if_pos hi', if_pos hi', Bool.true_and, Bool.true_and, Bool.true_and]
    · rw [if_neg hi', if_neg hi', BitVec.getLsbD_of_ge insn i (by omega), Bool.and_false,
        Bool.and_false]

variable {haveUnsignedXori : Bool} {insn : BitVec 32}

theorem matches_ofEncodings {W j : ℕ} (hj : j < (opcodes haveUnsignedXori).length) :
    (Patterns.ofEncodings W (encodings haveUnsignedXori)).Matches insn j ↔
      (insnExtract W '1' (opcodes haveUnsignedXori)[j].enc |||
          insnExtract W '0' (opcodes haveUnsignedXori)[j].enc) &&& insn.setWidth W =
        insnExtract W '1' (opcodes haveUnsignedXori)[j].enc := by
  simp [Patterns.Matches, Patterns.ofEncodings, encodings, hj]

/-- On the wider host no word with the top bit set matches a row. -/
theorem wide_matches_iff {j : ℕ} (hj : j < (opcodes haveUnsignedXori).length) :
    (Patterns.ofEncodings 64 (encodings haveUnsignedXori)).Matches insn j ↔
      (Patterns.ofEncodings 32 (encodings haveUnsignedXori)).Matches insn j ∧
        insn.getLsbD 31 = false := by
  obtain ⟨hones, hmask, htop⟩ := opcodes_wide (List.getElem_mem hj)
  rw [matches_ofEncodings hj, matches_ofEncodings hj, hmask, hones, signExtend_matches_iff htop,
    BitVec.setWidth_eq]
  rfl

/-! ### Decoding -/

theorem decoded_eq {num : ℕ} {M M' : ℕ → Prop} {r r' : ℤ} (hM : ∀ j < num, M j ↔ M' j)
    (hr : r = -1 ∨ ∃ j < num, r = j ∧ M j) (hall : ∀ j < num, M j → r = j)
    (hr' : r' = -1 ∨ ∃ j < num, r' = j ∧ M' j) (hall' : ∀ j < num, M' j → r' = j) : r = r' := by
  rcases hr with rfl | ⟨j, hj, rfl, hm⟩
  · rcases hr' with rfl | ⟨j, hj, -, hm'⟩
    · rfl
    · have := hall j hj ((hM j hj).2 hm')
      omega
  · exact (hall' j hj ((hM j hj).1 hm)).symm

theorem insnDecode_eq_iff {junk₃₂ automata₃₂ : ℕ → BitVec 32} {junk₆₄ automata₆₄ : ℕ → BitVec 64}
    (h₃₂ : buildAutomata (Patterns.ofEncodings 32 (encodings haveUnsignedXori)) junk₃₂ =
      .ok automata₃₂)
    (h₆₄ : buildAutomata (Patterns.ofEncodings 64 (encodings haveUnsignedXori)) junk₆₄ =
      .ok automata₆₄) (insn : BitVec 32) :
    insnDecode (Patterns.ofEncodings 64 (encodings haveUnsignedXori)) automata₆₄ insn =
        insnDecode (Patterns.ofEncodings 32 (encodings haveUnsignedXori)) automata₃₂ insn ↔
      insn.getLsbD 31 = false ∨ ∀ o ∈ opcodes haveUnsignedXori, ¬o.Matches insn := by
  obtain ⟨r, hr, hres, hall⟩ := insnDecode_spec (le_refl 32) h₃₂ insn
  obtain ⟨r', hr', hres', hall'⟩ := insnDecode_spec (by decide) h₆₄ insn
  have hnum : ∀ W, (Patterns.ofEncodings W (encodings haveUnsignedXori)).num =
      (opcodes haveUnsignedXori).length := fun W => List.length_map ..
  rw [hnum] at hres hall hres' hall'
  rw [hr, hr', Option.some_inj]
  have hrow : ∀ j (hj : j < (opcodes haveUnsignedXori).length),
      (Patterns.ofEncodings 32 (encodings haveUnsignedXori)).Matches insn j ↔
        (opcodes haveUnsignedXori)[j].Matches insn := fun j hj => by
    rw [matches_ofEncodings hj, BitVec.setWidth_eq]
    rfl
  constructor
  · intro heq
    by_contra hno
    rw [not_or, Bool.not_eq_false] at hno
    obtain ⟨htop, hmatch⟩ := hno
    push Not at hmatch
    obtain ⟨o, ho, hm⟩ := hmatch
    obtain ⟨j, hj, rfl⟩ := List.mem_iff_getElem.1 ho
    have hrj := hall j hj ((hrow j hj).2 hm)
    rcases hres' with hneg | ⟨k, hk, -, hmk⟩
    · omega
    · rw [wide_matches_iff hk, htop] at hmk
      exact Bool.noConfusion hmk.2
  · intro hcond
    refine decoded_eq (fun j hj => ?_) hres' hall' hres hall
    rw [wide_matches_iff hj]
    rcases hcond with hclear | hnone
    · exact and_iff_left hclear
    · have hm := mt (hrow j hj).1 (hnone _ (List.getElem_mem hj))
      exact iff_of_false (fun h => hm h.1) hm

/-- **The two hosts decode alike** exactly the words whose top bit is clear and the words that are
no instruction. -/
theorem insnDecode_width_iff (haveUnsignedXori : Bool) (junk₃₂ : ℕ → BitVec 32)
    (junk₆₄ : ℕ → BitVec 64) :
    ∃ automata₃₂ automata₆₄,
      buildAutomata (Patterns.ofEncodings 32 (encodings haveUnsignedXori)) junk₃₂ =
        .ok automata₃₂ ∧
      buildAutomata (Patterns.ofEncodings 64 (encodings haveUnsignedXori)) junk₆₄ =
        .ok automata₆₄ ∧
      ∀ insn, insnDecode (Patterns.ofEncodings 64 (encodings haveUnsignedXori)) automata₆₄ insn =
          insnDecode (Patterns.ofEncodings 32 (encodings haveUnsignedXori)) automata₃₂ insn ↔
        insn.getLsbD 31 = false ∨ ∀ o ∈ opcodes haveUnsignedXori, ¬o.Matches insn := by
  obtain ⟨automata₃₂, h₃₂⟩ := opcodes_accepted haveUnsignedXori (.inl rfl) junk₃₂
  obtain ⟨automata₆₄, h₆₄⟩ := opcodes_accepted haveUnsignedXori (.inr rfl) junk₆₄
  exact ⟨automata₃₂, automata₆₄, h₃₂, h₆₄, insnDecode_eq_iff h₃₂ h₆₄⟩

/-- The row of `l.lwz`. -/
def lwzRow : Opcode := ⟨"l.lwz", "rD,I(rA)", "10 0x1  DDDDD AAAAA IIII IIII IIII IIII", .lLwz⟩

/-- `l.lwz r0,0(r0)` is an instruction on the one host and none on the other. -/
theorem insnDecode_width_lwz :
    ∃ automata₃₂ automata₆₄,
      buildAutomata (Patterns.ofEncodings 32 (encodings true)) (fun _ => 0) = .ok automata₃₂ ∧
      buildAutomata (Patterns.ofEncodings 64 (encodings true)) (fun _ => 0) = .ok automata₆₄ ∧
      insnDecode (Patterns.ofEncodings 64 (encodings true)) automata₆₄ 0x84000000 ≠
        insnDecode (Patterns.ofEncodings 32 (encodings true)) automata₃₂ 0x84000000 := by
  obtain ⟨automata₃₂, h₃₂⟩ := opcodes_accepted true (.inl rfl) fun _ => 0
  obtain ⟨automata₆₄, h₆₄⟩ := opcodes_accepted true (.inr rfl) fun _ => 0
  refine ⟨automata₃₂, automata₆₄, h₃₂, h₆₄, fun heq => ?_⟩
  have hmem : lwzRow ∈ opcodes true := List.mem_of_getElem? (i := 112) rfl
  have hm : lwzRow.Matches 0x84000000 := by decide +kernel
  rcases (insnDecode_eq_iff h₃₂ h₆₄ _).1 heq with hclear | hnone
  · exact absurd hclear (by decide)
  · exact hnone _ hmem hm

end Insn
end Or1ksim
