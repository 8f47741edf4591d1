import Or1ksim.Insn.Letters

/-!
# The shape of the opcode table

* `Arg`, `render` — an operands text: registers, immediates and displacements, separated by
  commas;
* `RowOk` — what the readings of the operands rely on in a row of the table;
* `opcodes_rowOk` — every row of the table has it.
-/

namespace Or1ksim
namespace Insn

open Decoder (Encoding insnExtract)
open Gather Scan

/-! ### Operand texts -/

/-- One item of an operands text. -/
inductive Arg where
  /-- `rA`. -/
  | reg (l : Char)
  /-- `I`. -/
  | imm (l : Char)
  /-- `I(rA)`. -/
  | disp (l r : Char)
deriving DecidableEq, Repr

/-- The text of an item. -/
def Arg.text : Arg → List Char
  | .reg l => ['r', l]
  | .imm l => [l]
  | .disp l r => [l, '(', 'r', r, ')']

/-- The text of a list of items. -/
def render : Arg → List Arg → List Char
  | a, [] => a.text
  | a, b :: as => a.text ++ ',' :: render b as

/-- The letters of an item, each with whether it names a register. -/
def Arg.letters : Arg → List (Bool × Char)
  | .reg l => [(true, l)]
  | .imm l => [(false, l)]
  | .disp l r => [(false, l), (true, r)]

/-- Read an operands text back, in at most the given number of items. -/
def readArgs : ℕ → List Char → List Arg
  | 0, _ => []
  | _, [] => []
  | k + 1, 'r' :: l :: cs => .reg l :: readArgs k (cs.drop 1)
  | k + 1, l :: '(' :: 'r' :: r :: ')' :: cs => .disp l r :: readArgs k (cs.drop 1)
  | k + 1, l :: cs => .imm l :: readArgs k (cs.drop 1)

/-- The range of the immediate letters. -/
def immRange (l : Char) : Option ℕ :=
  if l = 'I' then some 16
  else if l = 'K' then some 16
  else if l = 'L' then some 6
  else if l = 'N' then some 26
  else none

/-- What the two readings rely on for a letter of an operands text: the letter stands at distinct
positions below the sign bit of an `int`, in text order from the top down; the two ways to count
it agree; a register letter is unsigned, and an immediate fills the range of its letter when it
is signed and fits into it otherwise. -/
def LetterOk (enc : Encoding) (x : Bool × Char) : Prop :=
  IsOperandLetter x.2 ∧ letterPositions x.2 enc ≠ [] ∧
  (∀ p ∈ letterPositions x.2 enc, p < 31) ∧ (letterPositions x.2 enc).Pairwise (· > ·) ∧
  paramCount x.2 enc none none 0 = (letterPositions x.2 enc).length ∧
  (x.1 = true → letterSigned x.2 = false) ∧
  (x.1 = false → enc.contains x.2 = true ∧
    if letterSigned x.2 then immRange x.2 = some (letterPositions x.2 enc).length
    else ∃ r ∈ immRange x.2, (letterPositions x.2 enc).length ≤ r)

/-- The operands text is the one of these items, all of whose letters are fine. -/
def ArgsOk (args : List Char) (enc : Encoding) : List Arg → Prop
  | [] => args = []
  | a :: as => render a as = args ∧ ∀ x ∈ (a :: as).flatMap Arg.letters, LetterOk enc x

/-- A row of the table whose operands both readings understand. -/
def RowOk (args : List Char) (enc : Encoding) : Prop :=
  (∀ c ∈ [',', '(', ')'], enc.contains c = false) ∧
  ArgsOk args enc (readArgs args.length args)

/-! ### The checks -/

/-- Every element is below the one before it. -/
def descending : List ℕ → Bool
  | a :: b :: l => decide (b < a) && descending (b :: l)
  | _ => true

theorem pairwise_of_descending : ∀ {l : List ℕ}, descending l = true → l.Pairwise (· > ·)
  | [], _ => .nil
  | [_], _ => List.pairwise_singleton _ _
  | a :: b :: l, h => by
    rw [descending, Bool.and_eq_true, decide_eq_true_eq] at h
    have ih := pairwise_of_descending h.2
    refine .cons (fun c hc => ?_) ih
    rcases List.mem_cons.1 hc with rfl | hc
    · exact h.1
    · exact Nat.lt_trans (List.rel_of_pairwise_cons ih hc) h.1

/-- The check of `LetterOk`, for a letter with the positions `ps`. -/
def checkLetter (enc : Encoding) (x : Bool × Char) (ps : List ℕ) : Bool :=
  isAlpha x.2 && !isLower x.2 && !ps.isEmpty && ps.all (fun p => decide (p < 31)) &&
  descending ps && decide (paramCount x.2 enc none none 0 = ps.length) &&
  (if x.1 then !letterSigned x.2
    else enc.contains x.2 &&
      (if letterSigned x.2 then decide (immRange x.2 = some ps.length)
        else (immRange x.2).any fun r => decide (ps.length ≤ r)))

theorem letterOk_of_check {enc : Encoding} {x : Bool × Char}
    (h : checkLetter enc x (letterPositions x.2 enc) = true) : LetterOk enc x := by
  obtain ⟨b, l⟩ := x
  simp only [checkLetter, Bool.and_eq_true, Bool.not_eq_true', List.isEmpty_eq_false_iff,
    List.all_eq_true, decide_eq_true_eq] at h
  obtain ⟨⟨⟨⟨⟨⟨halpha, hlower⟩, hne⟩, hp⟩, hdesc⟩, hcount⟩, hkind⟩ := h
  refine ⟨⟨halpha, hlower⟩, hne, hp, pairwise_of_descending hdesc, hcount, ?_, ?_⟩
  · rintro rfl
    simpa using hkind
  · rintro rfl
    simp only [Bool.false_eq_true, if_false, Bool.and_eq_true] at hkind
    refine ⟨hkind.1, ?_⟩
    have hrange := hkind.2
    split_ifs at hrange ⊢ with hsig
    · simpa using hrange
    · simpa [Option.any_eq_true] using hrange

/-- The check of `RowOk`. -/
def checkRow (args : List Char) (enc : Encoding) : Bool :=
  [',', '(', ')'].all (fun c => !enc.contains c) &&
  match readArgs args.length args with
  | [] => args.isEmpty
  | a :: as => decide (render a as = args) &&
    ((a :: as).flatMap Arg.letters).all fun x => checkLetter enc x (letterPositions x.2 enc)

theorem rowOk_of_check {args : List Char} {enc : Encoding} (h : checkRow args enc = true) :
    RowOk args enc := by
  rw [checkRow, Bool.and_eq_true] at h
  obtain ⟨hpunct, hargs⟩ := h
  refine ⟨by simpa using hpunct, ?_⟩
  cases hread : readArgs args.length args with
  | nil =>
    rw [hread] at hargs
    exact List.isEmpty_iff.1 hargs
  | cons a as =>
    simp only [hread, Bool.and_eq_true, decide_eq_true_eq, List.all_eq_true] at hargs
    exact ⟨hargs.1, fun x hx => letterOk_of_check (hargs.2 x hx)⟩

/-! ### The table

A string literal stands for the characters it is made of.  `Texts` brings these out row by row,
so that the checks below run on lists of characters. -/

/-- The texts of a list of rows, as characters. -/
inductive Texts : List Opcode → List (List Char × Encoding) → Prop where
  | nil : Texts [] []
  | cons {name args enc function ops rows} (h : Texts ops rows) :
      Texts (⟨name, String.ofList args, String.ofList enc, function⟩ :: ops)
        ((args, enc) :: rows)

theorem Texts.map_eq {ops : List Opcode} {rows : List (List Char × Encoding)}
    (h : Texts ops rows) : ops.map (fun o => (o.args.toList, o.enc)) = rows := by
  induction h with
  | nil => rfl
  | cons _ ih =>
    rw [List.map_cons, ih, Opcode.enc]
    simp only [String.toList_ofList]

theorem Texts.letterRange_eq {ops : List Opcode} {rows : List (List Char × Encoding)}
    (h : Texts ops rows) (l : Char) :
    letterRange ops l =
      (rows.find? fun r => r.2.contains l).map fun r => letterCount l r.2 0 0 := by
  rw [← h.map_eq, List.find?_map, Option.map_map]
  rfl

/-- The row of `l.xori` with a signed immediate. -/
def xoriSigned : Opcode := ⟨"l.xori", "rD,rA,I", "10 0xB  DDDDD AAAAA IIII IIII IIII IIII", .lXor⟩

theorem mem_opcodes {haveUnsignedXori : Bool} {o : Opcode} (h : o ∈ opcodes haveUnsignedXori) :
    o ∈ opcodes true ∨ o = xoriSigned := by
  cases haveUnsignedXori with
  | true => exact .inl h
  | false =>
    have hset : opcodes false = (opcodes true).set 122 xoriSigned := rfl
    rw [hset] at h
    exact List.mem_or_eq_of_mem_set h

/-- The texts of the rows of both tables. -/
noncomputable def tableTexts : {rows // Texts (xoriSigned :: opcodes true) rows} := by
  apply Subtype.mk
  dsimp only [opcodes, xoriSigned]
  repeat (apply Texts.cons)
  exact Texts.nil

/-- What is checked of all texts holds of every row, whichever table it is in. -/
theorem check_opcodes {check : List Char × Encoding → Bool}
    (hcheck : tableTexts.1.all check = true) {haveUnsignedXori : Bool} {o : Opcode}
    (h : o ∈ opcodes haveUnsignedXori) : check (o.args.toList, o.enc) = true := by
  have hmem : o ∈ xoriSigned :: opcodes true :=
    (mem_opcodes h).elim (.tail _) fun he => he ▸ .head _
  have hrow : (o.args.toList, o.enc) ∈ tableTexts.1 := by
    rw [← tableTexts.2.map_eq]
    exact List.mem_map_of_mem hmem
  exact List.all_eq_true.1 hcheck _ hrow

set_option maxRecDepth 20000 in
theorem opcodes_rowOk {haveUnsignedXori : Bool} {o : Opcode}
    (h : o ∈ opcodes haveUnsignedXori) : RowOk o.args.toList o.enc := by
  have hok : (tableTexts.1.all fun r => checkRow r.1 r.2) = true := by decide
  exact rowOk_of_check (check_opcodes hok h)

theorem Texts.ne_nil {o : Opcode} {ops : List Opcode} {rows : List (List Char × Encoding)}
    (h : Texts (o :: ops) rows) : rows ≠ [] := by
  cases h with
  | cons h => exact List.cons_ne_nil _ _

theorem Texts.of_cons {o : Opcode} {ops : List Opcode} {row : List Char × Encoding}
    {rows : List (List Char × Encoding)} (h : Texts (o :: ops) (row :: rows)) :
    Texts [o] [row] ∧ Texts ops rows := by
  cases h with
  | cons h => exact ⟨.cons .nil, h⟩

theorem Texts.set {ops : List Opcode} {rows : List (List Char × Encoding)} {o : Opcode}
    {row : List Char × Encoding} (h : Texts ops rows) (hrow : Texts [o] [row]) (i : ℕ) :
    Texts (ops.set i o) (rows.set i row) := by
  induction h generalizing i with
  | nil => exact .nil
  | cons h ih =>
    cases i with
    | zero => cases hrow; exact .cons h
    | succ i => exact .cons (ih i)

/-- The texts of one table. -/
noncomputable def rowTexts :
    (haveUnsignedXori : Bool) → {rows // Texts (opcodes haveUnsignedXori) rows} :=
  match tableTexts with
  | ⟨[], h⟩ => (h.ne_nil rfl).elim
  | ⟨row :: rows, h⟩ => fun
    | true => ⟨rows, h.of_cons.2⟩
    | false => ⟨rows.set 122 row, h.of_cons.2.set h.of_cons.1 122⟩

/-- The tables look alike to what does not tell the two rows of `l.xori` apart. -/
theorem map_rowTexts {β : Type} {f : List Char × Encoding → β}
    (hf : (tableTexts.1.map f)[0]? = (tableTexts.1.map f)[123]?) (haveUnsignedXori : Bool) :
    (rowTexts haveUnsignedXori).1.map f = (rowTexts true).1.map f := by
  cases haveUnsignedXori with
  | true => rfl
  | false =>
    revert hf
    unfold rowTexts
    generalize tableTexts = t
    obtain ⟨_ | ⟨row, rows⟩, h⟩ := t
    · exact (h.ne_nil rfl).elim
    · intro hf
      change (rows.set 122 row).map f = rows.map f
      rw [List.map_cons, List.getElem?_cons_zero, List.getElem?_cons_succ] at hf
      obtain ⟨hi, hrow⟩ := List.getElem?_eq_some_iff.1 hf.symm
      rw [List.map_set, ← hrow, List.set_getElem_self]

theorem letterRange_opcodes (haveUnsignedXori : Bool) {l : Char} {r : ℕ}
    (h : immRange l = some r) : letterRange (opcodes haveUnsignedXori) l = some r := by
  have hok : (['I', 'K', 'L', 'N'].all fun l =>
      (((rowTexts haveUnsignedXori).1.find? fun r => r.2.contains l).map
        fun r => letterCount l r.2 0 0) == immRange l) = true := by
    cases haveUnsignedXori <;> decide
  have hmem : l ∈ ['I', 'K', 'L', 'N'] := by
    by_contra hno
    simp only [List.mem_cons, List.not_mem_nil, or_false, not_or] at hno
    simp [immRange, hno] at h
  rw [(rowTexts _).2.letterRange_eq, eq_of_beq (List.all_eq_true.1 hok l hmem), h]

end Insn
end Or1ksim
