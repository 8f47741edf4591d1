import Or1ksim.Decoder.Correct
import Or1ksim.Insn.Rows

/-!
# Decoding with the opcode table

* `decodeInsn` — the row of the table that an instruction word matches;
* `opcodes_disjoint` — no word matches two rows;
* `decodeInsn_eq_some_iff` — so the row is found exactly when it matches;
* `insnDecode_opcodes` — the automaton built from the table finds the same row.
-/

namespace Or1ksim
namespace Insn

open Decoder (Encoding insnExtract Patterns buildAutomata insnDecode)

/-! ### Patterns -/

/-- The fixed bits of an encoding. -/
def encMask (enc : Encoding) : BitVec 32 := insnExtract 32 '1' enc ||| insnExtract 32 '0' enc

/-- The values of the fixed bits. -/
def encBits (enc : Encoding) : BitVec 32 := insnExtract 32 '1' enc

/-- The word agrees with the fixed bits of a row. -/
def Opcode.Matches (o : Opcode) (insn : BitVec 32) : Prop := encMask o.enc &&& insn = encBits o.enc

instance (o : Opcode) (insn : BitVec 32) : Decidable (o.Matches insn) :=
  inferInstanceAs (Decidable (_ = _))

/-- The row of the opcode table that a word matches, which is what the automaton finds. -/
def decodeInsn (haveUnsignedXori : Bool) (insn : BitVec 32) : Option Opcode :=
  (opcodes haveUnsignedXori).find? fun o => decide (o.Matches insn)

/-! ### The rows are disjoint -/

/-- Two patterns differ in a bit that both fix. -/
def clash (p q : ℕ × ℕ) : Bool := p.1 &&& q.1 &&& (p.2 ^^^ q.2) != 0

/-- Every pattern clashes with all the patterns behind it. -/
def allClash : List (ℕ × ℕ) → Bool
  | [] => true
  | p :: l => l.all (clash p) && allClash l

theorem pairwise_of_allClash : ∀ {l : List (ℕ × ℕ)}, allClash l = true →
    l.Pairwise fun p q => clash p q = true
  | [], _ => .nil
  | p :: l, h => by
    rw [allClash, Bool.and_eq_true, List.all_eq_true] at h
    exact .cons h.1 (pairwise_of_allClash h.2)

/-- The pattern of an encoding as numbers. -/
def pattern (enc : Encoding) : ℕ × ℕ := ((encMask enc).toNat, (encBits enc).toNat)

theorem not_matches_of_clash {o o' : Opcode} {insn : BitVec 32}
    (h : clash (pattern o.enc) (pattern o'.enc) = true) (hm : o.Matches insn) :
    ¬o'.Matches insn := by
  intro hm'
  have hzero : encMask o.enc &&& encMask o'.enc &&& (encBits o.enc ^^^ encBits o'.enc) = 0 := by
    rw [← show _ = encBits o.enc from hm, ← show _ = encBits o'.enc from hm']
    ext i hi
    simp only [BitVec.getElem_and, BitVec.getElem_xor]
    cases (encMask o.enc)[i] <;> cases (encMask o'.enc)[i] <;> simp
  have hnat := congrArg BitVec.toNat hzero
  simp only [BitVec.toNat_and, BitVec.toNat_xor] at hnat
  simp [clash, pattern, hnat] at h

theorem opcodes_disjoint (haveUnsignedXori : Bool) :
    (opcodes haveUnsignedXori).Pairwise fun o o' =>
      ∀ insn, o.Matches insn → ¬o'.Matches insn := by
  have hclash : allClash ((rowTexts true).1.map fun r => pattern r.2) = true := by decide +kernel
  rw [← map_rowTexts (by decide +kernel) haveUnsignedXori] at hclash
  have hpair := pairwise_of_allClash hclash
  rw [← (rowTexts haveUnsignedXori).2.map_eq, List.map_map, List.pairwise_map] at hpair
  exact hpair.imp fun h _ hm => not_matches_of_clash h hm

/-! ### Decoding -/

section

variable {haveUnsignedXori : Bool} {insn : BitVec 32} {o : Opcode}

theorem decodeInsn_eq_some_iff :
    decodeInsn haveUnsignedXori insn = some o ↔
      o ∈ opcodes haveUnsignedXori ∧ o.Matches insn := by
  constructor
  · intro h
    exact ⟨List.mem_of_find?_eq_some h, by simpa using List.find?_some h⟩
  · rintro ⟨hmem, hm⟩
    obtain ⟨pre, post, hsplit⟩ := List.append_of_mem hmem
    have hpre : ∀ o' ∈ pre, ¬o'.Matches insn := fun o' ho' hm' => by
      have hdis := opcodes_disjoint haveUnsignedXori
      rw [hsplit] at hdis
      exact (List.pairwise_append.1 hdis).2.2 o' ho' o (.head _) insn hm' hm
    refine List.find?_eq_some_iff_append.2 ⟨by simpa using hm, pre, post, hsplit, fun o' ho' => ?_⟩
    simpa using hpre o' ho'

theorem decodeInsn_eq_none_iff :
    decodeInsn haveUnsignedXori insn = none ↔
      ∀ o ∈ opcodes haveUnsignedXori, ¬o.Matches insn := by
  simp [decodeInsn]

variable (insn) in
theorem insnDecode_opcodes {junk automata : ℕ → BitVec 32}
    (h : buildAutomata (Patterns.ofEncodings 32 ((opcodes haveUnsignedXori).map Opcode.enc)) junk =
      .ok automata) :
    ∃ r, insnDecode (Patterns.ofEncodings 32 ((opcodes haveUnsignedXori).map Opcode.enc))
        automata insn = some r ∧
      decodeInsn haveUnsignedXori insn =
        if r = -1 then none else (opcodes haveUnsignedXori)[r.toNat]? := by
  obtain ⟨r, hr, hres, hall⟩ := Decoder.insnDecode_spec (le_refl 32) h insn
  have hmatches : ∀ (j : ℕ) (hj : j < (opcodes haveUnsignedXori).length),
      (Patterns.ofEncodings 32 ((opcodes haveUnsignedXori).map Opcode.enc)).Matches insn j ↔
        (opcodes haveUnsignedXori)[j].Matches insn := fun j hj => by
    simp [Patterns.Matches, Patterns.ofEncodings, Opcode.Matches, encMask, encBits, hj]
  refine ⟨r, hr, ?_⟩
  rcases hres with rfl | ⟨j, hj, rfl, hm⟩
  · rw [if_pos rfl, decodeInsn_eq_none_iff]
    intro o ho hm
    obtain ⟨j, hj, rfl⟩ := List.mem_iff_getElem.1 ho
    have := hall j (by simpa [Patterns.ofEncodings] using hj) ((hmatches j hj).2 hm)
    omega
  · have hj' : j < (opcodes haveUnsignedXori).length := by
      simpa [Patterns.ofEncodings] using hj
    rw [if_neg (by omega), Int.toNat_natCast, List.getElem?_eq_getElem hj',
      decodeInsn_eq_some_iff]
    exact ⟨List.getElem_mem hj', (hmatches j hj').1 hm⟩

end

/-! ### Two rows -/

/-- The row of `l.rfe`. -/
def rfeRow : Opcode := ⟨"l.rfe", "", "00 0x9  ----- ----- ---- ---- ---- ----", .lRfe⟩

/-- The row of `l.mtspr`. -/
def mtsprRow : Opcode :=
  ⟨"l.mtspr", "rA,rB,K", "11 0x0  KKKKK AAAAA BBBB BKKK KKKK KKKK", .lMtspr⟩

theorem rfeRow_mem (haveUnsignedXori : Bool) : rfeRow ∈ opcodes haveUnsignedXori :=
  List.mem_of_getElem? (i := 12) rfl

theorem mtsprRow_mem (haveUnsignedXori : Bool) : mtsprRow ∈ opcodes haveUnsignedXori :=
  List.mem_of_getElem? (i := 139) rfl

/-- `l.rfe`. -/
theorem decodeInsn_rfe (haveUnsignedXori : Bool) :
    decodeInsn haveUnsignedXori 0x24000000#32 = some rfeRow :=
  decodeInsn_eq_some_iff.2 ⟨rfeRow_mem _, by decide⟩

/-- `l.mtspr r0,r0,17`. -/
theorem decodeInsn_mtspr (haveUnsignedXori : Bool) :
    decodeInsn haveUnsignedXori 0xc0000011#32 = some mtsprRow :=
  decodeInsn_eq_some_iff.2 ⟨mtsprRow_mem _, by decide⟩

end Insn
end Or1ksim
