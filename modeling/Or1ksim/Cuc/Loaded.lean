import Mathlib.Data.Fintype.Basic
import Mathlib.Tactic.FinCases
import Or1ksim.Cuc.LoadRows
import Or1ksim.Lib.Runs

/-!
# What the words become

* `Lowers` — an instruction stands for what a word does;
* `lowers_convInsn`, `lowers_branchItem` — **every instruction that is loaded does**, whichever row
  of the opcode table it comes from;
* `loaded_spec` — what `cuc_load` has read: one instruction for each word, a return in front of the
  last one, and no other.
-/

namespace Or1ksim
namespace Cuc

open Or1ksim.Insn
open Decoder (Encoding)

variable {W : ℕ} {haveUnsignedXori : Bool} {data : BitVec 32} {o : Opcode} {sh : Shifts}

/-! ### Operands -/

namespace Operand

/-- A constant or a register. -/
def IsSource : Operand W → Prop
  | .const _ | .register _ => True
  | _ => False

/-- The value of a constant or of a register. -/
def sourceValue (r : ℕ → Word) : Operand W → Word
  | .const c => low c
  | .register n => r n.toNat
  | _ => 0

theorem IsSource.value_eq {a : Operand W} (h : a.IsSource) (t : Machine) :
    t.value a = a.sourceValue t.regs := by
  cases a with
  | const c => rfl
  | register r => rfl
  | _ => exact h.elim

@[simp] theorem IsSource.renumber_eq {a : Operand W} (h : a.IsSource) (reloc : ℕ → ℕ) :
    a.renumber reloc = a := by
  cases a with
  | const c => rfl
  | register r => rfl
  | _ => exact h.elim

/-- An operand reads what the executor reads. -/
def Reads (a : Operand W) (src : Source) : Prop :=
  a.IsSource ∧ ∀ r r' : ℕ → Word, (∀ n < 32, r' n = r n) → a.sourceValue r' = src.value r

end Operand

/-- What the executor reads for a letter. -/
def letterSource (enc : Encoding) (data : BitVec 32) (x : Bool × Char) : Source :=
  if x.1 then .reg (letterVal enc data x.2).toNat else .imm (letterVal enc data x.2)

theorem low_signExtend (hW : 32 ≤ W) (v : Word) : low (v.signExtend W) = v := by
  apply BitVec.eq_of_getLsbD_eq
  intro i hi
  rw [low, BitVec.getLsbD_setWidth, BitVec.getLsbD_signExtend, if_pos hi, decide_eq_true hi,
    decide_eq_true (Nat.lt_of_lt_of_le hi hW), Bool.true_and, Bool.true_and]

/-- A register letter stands at five positions. -/
def checkRegisters (r : List Char × Encoding) : Bool :=
  ((readArgs r.1.length r.1).flatMap Arg.letters).all fun x =>
    !x.1 || decide ((letterPositions x.2 r.2).length = 5)

set_option maxRecDepth 20000 in
theorem registers_length (ho : o ∈ opcodes haveUnsignedXori) {x : Bool × Char}
    (hx : x ∈ rowLetters o) (hreg : x.1 = true) : (letterPositions x.2 o.enc).length = 5 := by
  have hall : tableTexts.1.all checkRegisters = true := by decide
  have hcheck := List.all_eq_true.1 (check_opcodes hall ho) x hx
  rw [hreg] at hcheck
  exact of_decide_eq_true hcheck

variable (data) in
theorem register_letter_lt (ho : o ∈ opcodes haveUnsignedXori) {x : Bool × Char}
    (hx : x ∈ rowLetters o) (hreg : x.1 = true) : (letterVal o.enc data x.2).toNat < 32 := by
  have hl := rowLetters_ok ho x hx
  have hlen := registers_length ho hx hreg
  rw [letterVal_register hl hreg]
  refine Nat.lt_pow_two_of_testBit (n := 5) _ fun i hi => ?_
  exact gather_lt (letterPositions_length_le hl) (hlen.symm ▸ hi)

theorem toNat_signExtend_of_lt (hW : 32 ≤ W) {v : Word} (hv : v.toNat < 32) :
    (v.signExtend W).toNat = v.toNat := by
  have hmsb : v.msb = false := BitVec.msb_eq_false_iff_two_mul_lt.2 (by omega)
  have hlt : v.toNat < 2 ^ W := Nat.lt_of_lt_of_le v.isLt (Nat.pow_le_pow_right (by decide) hW)
  rw [BitVec.signExtend_eq_setWidth_of_msb_false hmsb, BitVec.toNat_setWidth,
    Nat.mod_eq_of_lt hlt]

section Letters

variable {x : Bool × Char}

section

variable (data) (argc : ℕ)

/-- An operand without its destination mark reads what the executor reads. -/
theorem clearDest_reads (hW : 32 ≤ W) (ho : o ∈ opcodes haveUnsignedXori) (hx : x ∈ rowLetters o) :
    (letterOperand W o.enc data x argc).clearDest.Reads (letterSource o.enc data x) := by
  cases hreg : x.1 with
  | false =>
    rw [letterOperand, letterSource, hreg]
    exact ⟨trivial, fun _ _ _ => low_signExtend hW _⟩
  | true =>
    have hlt := register_letter_lt data ho hx hreg
    have hclear : (letterOperand W o.enc data x argc).clearDest =
        .register ((letterVal o.enc data x.2).signExtend W) := by
      rw [letterOperand, hreg, if_pos rfl]
      split <;> rfl
    rw [hclear, letterSource, hreg]
    refine ⟨trivial, fun r r' hr => ?_⟩
    rw [Operand.sourceValue, toNat_signExtend_of_lt hW hlt, hr _ hlt]
    rfl

theorem letterOperand_reads (hW : 32 ≤ W) (ho : o ∈ opcodes haveUnsignedXori)
    (hx : x ∈ rowLetters o) :
    (letterOperand W o.enc data x (argc + 1)).Reads (letterSource o.enc data x) := by
  have hclear := clearDest_reads data (argc + 1) hW ho hx
  have heq : (letterOperand W o.enc data x (argc + 1)).clearDest =
      letterOperand W o.enc data x (argc + 1) := by
    rw [letterOperand, if_neg (Nat.succ_ne_zero argc)]
    split <;> rfl
  rwa [heq] at hclear

end

end Letters

/-! ### What stands for what -/

namespace Index

/-- The instructions that compute a value from their operands. -/
def isArith : Index → Bool
  | .add | .sub | .and | .or | .xor | .mul | .srl | .sll | .sra => true
  | _ => false

end Index

/-- What two operands are added to by `expand_signed`. -/
def bias (signed : Bool) (v : Word) : Word := if signed then v + 0x80000000 else v

/-- The operands of an instruction with two operands. -/
def two (x y : Word) : OperandNo → Word := ![0, x, y, 0, 0]

/-- The instruction at place `i` stands for what a word does. -/
inductive Lowers (sh : Shifts) (i : ℕ) : Operation → Item W → Prop where
  | compute {d v index rd a b} (hindex : index.isArith = true) (ha : a.IsSource)
      (hb : b.IsSource) (hd : d < 32) (hrd : rd.toNat = d)
      (hv : ∀ r r' : ℕ → Word, (∀ n < 32, r' n = r n) →
        sh.result index (two (a.sourceValue r') (b.sourceValue r')) = v r) :
      Lowers sh i (.compute d v)
        { (nopItem : Item W) with index := index, op := ![.dest rd, a, b, .none, .none] }
  | load {w signed d addr index rd a b} (hindex : index.isLoad = true) (hwidth : index.width = w)
      (ha : a.IsSource) (hb : b.IsSource) (hd : d < 32) (hrd : rd.toNat = d)
      (hv : ∀ r r' : ℕ → Word, (∀ n < 32, r' n = r n) →
        a.sourceValue r' + b.sourceValue r' = addr r) :
      Lowers sh i (.load w signed d addr)
        { (nopItem : Item W) with
          index := index, memory := true, volatile := true, signed := signed
          op := ![.dest rd, a, b, .none, .none] }
  | store {w addr v index a b e} (hindex : index.isStore = true) (hwidth : index.width = w)
      (ha : a.IsSource) (hb : b.IsSource) (he : e.IsSource)
      (hv : ∀ r r' : ℕ → Word, (∀ n < 32, r' n = r n) →
        b.sourceValue r' + a.sourceValue r' = addr r ∧ e.sourceValue r' = v r) :
      Lowers sh i (.store w addr v)
        { (nopItem : Item W) with
          index := index, memory := true, volatile := true
          op := ![a, b, e, .none, .none] }
  | compare {f index signed a b} (hindex : index.isCompare = true) (ha : a.IsSource)
      (hb : b.IsSource)
      (hv : ∀ r r' : ℕ → Word, (∀ n < 32, r' n = r n) →
        sh.result index (two (bias signed (a.sourceValue r')) (bias signed (b.sourceValue r'))) =
          flag (f r)) :
      Lowers sh i (.compare f)
        { (nopItem : Item W) with
          index := index, cond := true, signed := signed
          op := ![.dest flagReg, a, b, .none, .none] }
  | nop : Lowers sh i .nop nopItem
  | branch {cond n} :
      Lowers sh i (.branch cond n)
        { (nopItem : Item W) with
          index := .bf, branch := true, volatile := true, flag1 := cond == some false
          op := ![.jump (BitVec.ofNat W i + n.signExtend W),
            cond.elim (.const 1) fun _ => .register flagReg, .none, .none, .none] }
  | ret : Lowers sh i .ret nopItem

/-! ### The rows of the table -/

/-- What `conv` has for the rows that are executed by a function. -/
def convOf : ExecFn → Option (Index × Bool × Bool)
  | .lAdd => some (.add, false, false)
  | .lMovhi | .lOr => some (.or, false, false)
  | .lSub => some (.sub, false, false)
  | .lAnd => some (.and, false, false)
  | .lXor => some (.xor, false, false)
  | .lMul => some (.mul, false, false)
  | .lSra => some (.sra, false, false)
  | .lSrl => some (.srl, false, false)
  | .lSll => some (.sll, false, false)
  | .lLbz => some (.lb, true, false)
  | .lLbs => some (.lb, true, true)
  | .lLhz => some (.lh, true, false)
  | .lLhs => some (.lh, true, true)
  | .lLwz => some (.lw, true, false)
  | .lLws => some (.lw, true, true)
  | .lSb => some (.sb, true, false)
  | .lSh => some (.sh, true, false)
  | .lSw => some (.sw, true, false)
  | .lSfeq => some (.sfeq, false, false)
  | .lSfne => some (.sfne, false, false)
  | .lSflts => some (.sflt, false, true)
  | .lSfltu => some (.sflt, false, false)
  | .lSfgts => some (.sfgt, false, true)
  | .lSfgtu => some (.sfgt, false, false)
  | .lSfges => some (.sfge, false, true)
  | .lSfgeu => some (.sfge, false, false)
  | .lSfles => some (.sfle, false, true)
  | .lSfleu => some (.sfle, false, false)
  | .lNop => some (.nop, false, false)
  | _ => none

/-- The names of the rows with a delay slot that are loaded. -/
def delayName : ExecFn → Option String
  | .lJ => some "l.j"
  | .lBf => some "l.bf"
  | .lBnf => some "l.bnf"
  | .lJr => some "l.jr"
  | _ => none

/-- The operand texts of the rows that are loaded and do what a kind says. -/
def Kind.texts : Kind → List String
  | .arith _ => ["rD,rA,rB", "rD,rA,I", "rD,rA,K", "rD,rA,L"]
  | .movhi => ["rD,K"]
  | .load .. => ["rD,I(rA)"]
  | .store _ => ["I(rA),rB"]
  | .compare _ => ["rA,rB", "rA,I"]
  | .nop => ["K"]
  | .branch _ => ["N"]
  | .ret => ["rB"]
  | .other => []

/-- Shifts for checks that do not depend on them. -/
def anyShifts : Shifts := ⟨fun x _ => x, fun x _ => x, fun x _ => x⟩

theorem texts_kind (sh sh' : Shifts) (fn : ExecFn) : (kind sh fn).texts = (kind sh' fn).texts := by
  cases fn <;> rfl

/-- Names, as characters. -/
inductive Names : List String → List (List Char) → Prop where
  | nil : Names [] []
  | cons {name names rows} (h : Names names rows) :
      Names (String.ofList name :: names) (name :: rows)

theorem Names.eq {names : List String} {rows : List (List Char)} (h : Names names rows) :
    names = rows.map String.ofList := by
  induction h with
  | nil => rfl
  | cons _ ih => rw [List.map_cons, ← ih]

/-- A number that tells names apart. -/
def nameCode (name : List Char) : ℕ := name.foldl (fun n c => 256 * n + c.toNat) 0

theorem Names.codes_eq {names : List String} {rows : List (List Char)} (h : Names names rows) :
    names.map (fun s => nameCode s.toList) = rows.map nameCode := by
  rw [h.eq, List.map_map]
  exact List.map_congr_left fun s _ => congrArg nameCode String.toList_ofList

/-- The names of the rows of both tables. -/
noncomputable def opcodeNames :
    {rows // Names ((xoriSigned :: opcodes true).map Opcode.name) rows} := by
  apply Subtype.mk
  dsimp only [opcodes, xoriSigned, List.map]
  repeat (apply Names.cons)
  exact Names.nil

/-- The names in `conv`. -/
def convNames : {rows // Names (conv.map Conv.name) rows} := by
  apply Subtype.mk
  dsimp only [conv, List.map]
  repeat (apply Names.cons)
  exact Names.nil

/-- The entries of `conv` with the numbers of their names. -/
def convCodes : List (ℕ × Conv) := (convNames.1.map nameCode).zip conv

theorem mem_convCodes {c : Conv} (hc : c ∈ conv) : (nameCode c.name.toList, c) ∈ convCodes := by
  rw [convCodes, ← convNames.2.codes_eq, List.map_map]
  nth_rewrite 2 [← List.map_id conv]
  rw [List.zip_map', List.mem_map]
  exact ⟨c, hc, rfl⟩

/-- What is checked of a row, whose name has the number `code`. -/
def checkLoaded (code : ℕ) (o : Opcode) : Bool :=
  if hasDelay o then
    ["l.bnf", "l.bf", "l.j", "l.jr"].all fun s =>
      code != nameCode s.toList ||
        delayName o.function == some s && (kind anyShifts o.function).texts.contains o.args
  else
    convCodes.all fun c => code != c.1 ||
      convOf o.function == some (c.2.index, c.2.mem, c.2.signed) &&
        (kind anyShifts o.function).texts.contains o.args &&
        ((o.name == "l.movhi") == (o.function == .lMovhi))

set_option maxRecDepth 20000 in
theorem opcodes_loaded (ho : o ∈ opcodes haveUnsignedXori) :
    checkLoaded (nameCode o.name.toList) o = true := by
  have hall : (((opcodeNames.1.map nameCode).zip ((xoriSigned :: opcodes true).map id)).all
      fun r => checkLoaded r.1 r.2) = true := by decide
  rw [← opcodeNames.2.codes_eq, List.map_map, List.zip_map', List.all_map, List.all_eq_true] at hall
  exact hall o ((mem_opcodes ho).elim (.tail _) fun he => he ▸ .head _)

theorem conv_spec (ho : o ∈ opcodes haveUnsignedXori) (hdelay : hasDelay o = false) {c : Conv}
    (hc : conv.find? (fun c => c.name == o.name) = some c) (sh : Shifts) :
    convOf o.function = some (c.index, c.mem, c.signed) ∧
      o.args ∈ (kind sh o.function).texts ∧ (o.name = "l.movhi" ↔ o.function = .lMovhi) := by
  have hcheck := opcodes_loaded ho
  rw [checkLoaded, hdelay, if_neg Bool.false_ne_true, List.all_eq_true] at hcheck
  have hname : c.name = o.name := by simpa using List.find?_some hc
  have h := hcheck _ (mem_convCodes (List.mem_of_find?_eq_some hc))
  rw [hname, bne_self_eq_false, Bool.false_or, Bool.and_eq_true, Bool.and_eq_true, beq_iff_eq,
    beq_iff_eq, List.contains_iff_mem] at h
  obtain ⟨⟨hconv, hargs⟩, hmovhi⟩ := h
  refine ⟨hconv, texts_kind anyShifts sh o.function ▸ hargs, ?_⟩
  rw [← beq_iff_eq, hmovhi, beq_iff_eq]

theorem delay_spec (ho : o ∈ opcodes haveUnsignedXori) (hdelay : hasDelay o = true) {s : String}
    (hs : s ∈ ["l.bnf", "l.bf", "l.j", "l.jr"]) (hname : o.name = s) (sh : Shifts) :
    delayName o.function = some s ∧ o.args ∈ (kind sh o.function).texts := by
  have hcheck := opcodes_loaded ho
  rw [checkLoaded, hdelay, if_pos rfl, List.all_eq_true] at hcheck
  have h := hcheck s hs
  rw [hname, bne_self_eq_false, Bool.false_or, Bool.and_eq_true, beq_iff_eq,
    List.contains_iff_mem] at h
  exact ⟨h.1, texts_kind anyShifts sh o.function ▸ h.2⟩

/-! ### The operands of a kind -/

section Texts

variable {f : Word → Word → Word} {f' : Word → Word → Bool}

theorem letters_arith (h : o.args ∈ (Kind.arith f).texts) :
    ∃ b l, rowLetters o = [(true, 'D'), (true, 'A'), (b, l)] := by
  simp only [Kind.texts, List.mem_cons, List.not_mem_nil, or_false] at h
  rcases h with h | h | h | h
  · exact ⟨true, 'B', by rw [rowLetters, h]; rfl⟩
  · exact ⟨false, 'I', by rw [rowLetters, h]; rfl⟩
  · exact ⟨false, 'K', by rw [rowLetters, h]; rfl⟩
  · exact ⟨false, 'L', by rw [rowLetters, h]; rfl⟩

theorem letters_compare (h : o.args ∈ (Kind.compare f').texts) :
    ∃ b l, rowLetters o = [(true, 'A'), (b, l)] := by
  simp only [Kind.texts, List.mem_cons, List.not_mem_nil, or_false] at h
  rcases h with h | h
  · exact ⟨true, 'B', by rw [rowLetters, h]; rfl⟩
  · exact ⟨false, 'I', by rw [rowLetters, h]; rfl⟩

theorem rowLetters_of_text {s : String} (h : o.args ∈ [s]) :
    rowLetters o = (readArgs s.toList.length s.toList).flatMap Arg.letters := by
  rw [rowLetters, List.mem_singleton.1 h]

end Texts

theorem argOps_one (a : Operand W) : argOps [a] = ![a, .none, .none, .none, .none] := by
  funext k
  fin_cases k <;> rfl

theorem argOps_two (a b : Operand W) : argOps [a, b] = ![a, b, .none, .none, .none] := by
  funext k
  fin_cases k <;> rfl

theorem argOps_three (a b c : Operand W) : argOps [a, b, c] = ![a, b, c, .none, .none] := by
  funext k
  fin_cases k <;> rfl

/-! ### Conversion -/

/-- A signed comparison is an unsigned one behind the bias. -/
theorem toNat_bias (x : Word) : ((x + 0x80000000).toNat : ℤ) = x.toInt + 2147483648 := by
  have hlt := x.isLt
  rw [BitVec.toNat_add, BitVec.toInt_eq_toNat_cond,
    show BitVec.toNat (0x80000000 : Word) = 2147483648 from rfl]
  split_ifs <;> omega

theorem bias_lt_iff (x y : Word) : x + 0x80000000 < y + 0x80000000 ↔ x.slt y = true := by
  have hx := toNat_bias x
  have hy := toNat_bias y
  rw [BitVec.slt_iff_toInt_lt, BitVec.lt_def]
  omega

theorem bias_le_iff (x y : Word) : x + 0x80000000 ≤ y + 0x80000000 ↔ x.sle y = true := by
  have hx := toNat_bias x
  have hy := toNat_bias y
  rw [BitVec.sle_iff_toInt_le, BitVec.le_def]
  omega

/-- What `conv` makes of a kind of instruction. -/
def Kind.Converts (sh : Shifts) (fn : ExecFn) (index : Index) (mem signed : Bool) : Kind → Prop
  | .arith f => fn ≠ .lMovhi ∧ index.isArith = true ∧ mem = false ∧ signed = false ∧
      ∀ x y, sh.result index (two x y) = f x y
  | .movhi => fn = .lMovhi ∧ index = .or ∧ mem = false ∧ signed = false
  | .load w s => fn ≠ .lMovhi ∧ index.isLoad = true ∧ index.width = w ∧ mem = true ∧ signed = s
  | .store w => fn ≠ .lMovhi ∧ index.isStore = true ∧ index.width = w ∧ mem = true ∧ signed = false
  | .compare f => fn ≠ .lMovhi ∧ index.isCompare = true ∧ mem = false ∧
      ∀ x y, sh.result index (two (bias signed x) (bias signed y)) = flag (f x y)
  | .nop => fn ≠ .lMovhi ∧ index = .nop
  | _ => False

theorem flag_decide {p : Prop} [Decidable p] {b : Bool} (h : p ↔ b = true) :
    flag (decide p) = flag b :=
  congrArg flag (Bool.eq_iff_iff.2 (decide_eq_true_iff.trans h))

theorem converts_compare {sh : Shifts} {fn : ExecFn} {index : Index} {signed : Bool}
    {f : Word → Word → Bool} {p : Word → Word → Prop} [∀ x y, Decidable (p x y)]
    (hfn : fn ≠ .lMovhi) (hindex : index.isCompare = true)
    (hresult : ∀ x y, sh.result index (two x y) = flag (decide (p x y)))
    (hp : ∀ x y, p (bias signed x) (bias signed y) ↔ f x y = true) :
    (Kind.compare f).Converts sh fn index false signed := by
  refine ⟨hfn, hindex, rfl, fun x y => ?_⟩
  rw [hresult, flag_decide (hp x y)]

theorem kind_converts {fn : ExecFn} {index : Index} {mem signed : Bool}
    (h : convOf fn = some (index, mem, signed)) (sh : Shifts) :
    (kind sh fn).Converts sh fn index mem signed := by
  cases fn <;> cases h
  case lMovhi => exact ⟨rfl, rfl, rfl, rfl⟩
  case lNop => exact ⟨by decide, rfl⟩
  case lLbz | lLbs | lLhz | lLhs | lLwz | lLws => exact ⟨by decide, rfl, rfl, rfl, rfl⟩
  case lSb | lSh | lSw => exact ⟨by decide, rfl, rfl, rfl, rfl⟩
  case lSfeq =>
    exact converts_compare (by decide) rfl (fun _ _ => rfl) fun x y => beq_iff_eq.symm
  case lSfne =>
    exact converts_compare (by decide) rfl (fun _ _ => rfl) fun x y => bne_iff_ne.symm
  case lSflts => exact converts_compare (by decide) rfl (fun _ _ => rfl) fun x y => bias_lt_iff x y
  case lSfgts => exact converts_compare (by decide) rfl (fun _ _ => rfl) fun x y => bias_lt_iff y x
  case lSfles => exact converts_compare (by decide) rfl (fun _ _ => rfl) fun x y => bias_le_iff x y
  case lSfges => exact converts_compare (by decide) rfl (fun _ _ => rfl) fun x y => bias_le_iff y x
  case lSfltu =>
    exact converts_compare (by decide) rfl (fun _ _ => rfl) fun x y => BitVec.ult_iff_lt.symm
  case lSfgtu =>
    exact converts_compare (by decide) rfl (fun _ _ => rfl) fun x y => BitVec.ult_iff_lt.symm
  case lSfleu =>
    exact converts_compare (by decide) rfl (fun _ _ => rfl) fun x y => BitVec.ule_iff_le.symm
  case lSfgeu =>
    exact converts_compare (by decide) rfl (fun _ _ => rfl) fun x y => BitVec.ule_iff_le.symm
  all_goals exact ⟨by decide, rfl, rfl, rfl, fun _ _ => rfl⟩

theorem low_shiftLeft (hW : 32 ≤ W) (c : BitVec W) (k : ℕ) : low (c <<< k) = low c <<< k := by
  apply BitVec.eq_of_getLsbD_eq
  intro i hi
  have hiW : i < W := Nat.lt_of_lt_of_le hi hW
  have hsub : i - k < 32 := by omega
  rw [low, low, BitVec.getLsbD_setWidth, BitVec.getLsbD_shiftLeft, BitVec.getLsbD_shiftLeft,
    BitVec.getLsbD_setWidth, decide_eq_true hi, decide_eq_true hiW, decide_eq_true hsub,
    Bool.true_and, Bool.true_and, Bool.true_and]

theorem ne_nop_of_plain {index : Index}
    (h : index.isArith = true ∨ index.isLoad = true ∨ index.isStore = true) :
    index ≠ .nop ∧ ¬index.isCompare = true := by
  cases index <;> first
    | exact ⟨Index.noConfusion, Bool.false_ne_true⟩
    | exact absurd h (by decide)

section Convert

variable {x : Item W} {c : Conv} {args : List (Operand W)}

/-- The conversion of an instruction that is neither `l.movhi` nor a comparison. -/
theorem convInsn_plain (hc : conv.find? (fun c => c.name == o.name) = some c)
    (hname : o.name ≠ "l.movhi") (hnop : c.index ≠ .nop) (hcompare : ¬c.index.isCompare = true)
    (h : convInsn o args = some x) :
    x = { (nopItem : Item W) with
      index := c.index, signed := c.signed, memory := c.mem, volatile := c.mem
      op := argOps args } := by
  rw [convInsn, hc, Option.bind_some] at h
  dsimp only at h
  rw [if_neg hname, if_neg hcompare, if_neg fun h => hnop h.1, Item.changeType, if_neg hnop] at h
  exact (Option.some.inj h).symm

theorem convInsn_compare (hc : conv.find? (fun c => c.name == o.name) = some c)
    (hname : o.name ≠ "l.movhi") (hcompare : c.index.isCompare = true)
    (h : convInsn o args = some x) :
    x = { (nopItem : Item W) with
      index := c.index, cond := true, signed := c.signed, memory := c.mem, volatile := c.mem
      op := compareArgs (argOps args) } := by
  have hnop : c.index ≠ .nop := by
    intro hnop
    rw [hnop] at hcompare
    cases hcompare
  rw [convInsn, hc, Option.bind_some] at h
  dsimp only at h
  rw [if_neg hname, if_pos hcompare, if_neg fun h => hnop h.1, Item.changeType, if_neg hnop] at h
  exact (Option.some.inj h).symm

theorem convInsn_movhi (hc : conv.find? (fun c => c.name == o.name) = some c)
    (hname : o.name = "l.movhi") (hindex : c.index = .or) (h : convInsn o args = some x) :
    x = { (nopItem : Item W) with
      index := .or, signed := c.signed, memory := c.mem, volatile := c.mem
      op := movhiArgs (argOps args) } := by
  have hnop : Index.or ≠ .nop := by decide
  have hcompare : ¬Index.or.isCompare = true := by decide
  rw [convInsn, hc, Option.bind_some, hindex] at h
  dsimp only at h
  rw [if_pos hname, if_neg hcompare, if_neg fun h => hnop h.1, Item.changeType, if_neg hnop] at h
  exact (Option.some.inj h).symm

theorem convInsn_nop (hc : conv.find? (fun c => c.name == o.name) = some c)
    (hname : o.name ≠ "l.movhi") (hindex : c.index = .nop) (h : convInsn o args = some x) :
    x = nopItem ∧ (argOps args 0).word = 0 := by
  have hcompare : ¬Index.nop.isCompare = true := by decide
  rw [convInsn, hc, Option.bind_some, hindex] at h
  dsimp only at h
  rw [if_neg hname, if_neg hcompare, Item.changeType, if_pos rfl] at h
  split_ifs at h with hword
  exact ⟨(Option.some.inj h).symm, not_not.1 fun hno => hword ⟨rfl, hno⟩⟩

variable {f : Word → Word → Word} {f' : Word → Word → Bool} {w : Width} {signed : Bool}

/-- The two steps of each kind: the operands, and what they are for. -/
theorem lowers_arith (hW : 32 ≤ W) (ho : o ∈ opcodes haveUnsignedXori)
    (hc : conv.find? (fun c => c.name == o.name) = some c) (hname : o.name ≠ "l.movhi")
    (hargs : o.args ∈ (Kind.arith f).texts)
    (hk : (Kind.arith f).Converts sh o.function c.index c.mem c.signed)
    (h : convInsn o (letterOperands W o.enc data (rowLetters o) 0) = some x) (i : ℕ) :
    ∃ op, (Kind.arith f).operation (sources o data) = some op ∧ Lowers sh i op x := by
  obtain ⟨-, hindex, hmem, hsigned, hf⟩ := hk
  obtain ⟨b, l, hletters⟩ := letters_arith hargs
  obtain ⟨hnop, hcompare⟩ := ne_nop_of_plain (.inl hindex)
  have hx := convInsn_plain hc hname hnop hcompare h
  obtain ⟨ha, hav⟩ := letterOperand_reads data 0 hW ho
    (x := (true, 'A')) (by simp [hletters])
  obtain ⟨hb, hbv⟩ := letterOperand_reads data 1 hW ho
    (x := (b, l)) (by simp [hletters])
  have hd := register_letter_lt data ho (x := (true, 'D')) (by simp [hletters]) rfl
  rw [sources_eq ho, hletters]
  refine ⟨_, rfl, ?_⟩
  rw [hx, hmem, hsigned, hletters, letterOperands, letterOperands, letterOperands, letterOperands,
    argOps_three]
  refine .compute hindex ha hb hd (toNat_signExtend_of_lt hW hd) fun r r' hr => ?_
  rw [hf, hav r r' hr, hbv r r' hr]
  rfl

theorem lowers_movhi (hW : 32 ≤ W) (ho : o ∈ opcodes haveUnsignedXori)
    (hc : conv.find? (fun c => c.name == o.name) = some c) (hname : o.name = "l.movhi")
    (hargs : o.args ∈ Kind.movhi.texts)
    (hk : Kind.movhi.Converts sh o.function c.index c.mem c.signed)
    (h : convInsn o (letterOperands W o.enc data (rowLetters o) 0) = some x) (i : ℕ) :
    ∃ op, Kind.movhi.operation (sources o data) = some op ∧ Lowers sh i op x := by
  obtain ⟨-, hindex, hmem, hsigned⟩ := hk
  have hletters : rowLetters o = [(true, 'D'), (false, 'K')] := rowLetters_of_text hargs
  have hx := convInsn_movhi hc hname hindex h
  have hd := register_letter_lt data ho (x := (true, 'D')) (by simp [hletters]) rfl
  rw [sources_eq ho, hletters]
  refine ⟨_, rfl, ?_⟩
  rw [hx, hmem, hsigned, hletters, letterOperands, letterOperands, letterOperands, argOps_two]
  refine .compute rfl trivial trivial hd (toNat_signExtend_of_lt hW hd) fun r r' hr => ?_
  change low ((letterVal o.enc data 'K').signExtend W <<< 16) ||| low (0 : BitVec W) =
    letterVal o.enc data 'K' <<< 16
  rw [low_zero, low_shiftLeft hW, low_signExtend hW]
  exact BitVec.or_zero

theorem lowers_load (hW : 32 ≤ W) (ho : o ∈ opcodes haveUnsignedXori)
    (hc : conv.find? (fun c => c.name == o.name) = some c) (hname : o.name ≠ "l.movhi")
    (hargs : o.args ∈ (Kind.load w signed).texts)
    (hk : (Kind.load w signed).Converts sh o.function c.index c.mem c.signed)
    (h : convInsn o (letterOperands W o.enc data (rowLetters o) 0) = some x) (i : ℕ) :
    ∃ op, (Kind.load w signed).operation (sources o data) = some op ∧ Lowers sh i op x := by
  obtain ⟨-, hindex, hwidth, hmem, hsigned⟩ := hk
  have hletters : rowLetters o = [(true, 'D'), (false, 'I'), (true, 'A')] :=
    rowLetters_of_text hargs
  obtain ⟨hnop, hcompare⟩ := ne_nop_of_plain (.inr (.inl hindex))
  have hx := convInsn_plain hc hname hnop hcompare h
  obtain ⟨ha, hav⟩ := letterOperand_reads data 0 hW ho
    (x := (false, 'I')) (by simp [hletters])
  obtain ⟨hb, hbv⟩ := letterOperand_reads data 1 hW ho
    (x := (true, 'A')) (by simp [hletters])
  have hd := register_letter_lt data ho (x := (true, 'D')) (by simp [hletters]) rfl
  rw [sources_eq ho, hletters]
  refine ⟨_, rfl, ?_⟩
  rw [hx, hmem, hsigned, hletters, letterOperands, letterOperands, letterOperands, letterOperands,
    argOps_three]
  refine .load hindex hwidth ha hb hd (toNat_signExtend_of_lt hW hd) fun r r' hr => ?_
  rw [hav r r' hr, hbv r r' hr]
  rfl

theorem lowers_store (hW : 32 ≤ W) (ho : o ∈ opcodes haveUnsignedXori)
    (hc : conv.find? (fun c => c.name == o.name) = some c) (hname : o.name ≠ "l.movhi")
    (hargs : o.args ∈ (Kind.store w).texts)
    (hk : (Kind.store w).Converts sh o.function c.index c.mem c.signed)
    (h : convInsn o (letterOperands W o.enc data (rowLetters o) 0) = some x) (i : ℕ) :
    ∃ op, (Kind.store w).operation (sources o data) = some op ∧ Lowers sh i op x := by
  obtain ⟨-, hindex, hwidth, hmem, hsigned⟩ := hk
  have hletters : rowLetters o = [(false, 'I'), (true, 'A'), (true, 'B')] :=
    rowLetters_of_text hargs
  obtain ⟨hnop, hcompare⟩ := ne_nop_of_plain (.inr (.inr hindex))
  have hx := convInsn_plain hc hname hnop hcompare h
  obtain ⟨ha, hav⟩ := clearDest_reads data 0 hW ho
    (x := (false, 'I')) (by simp [hletters])
  obtain ⟨hb, hbv⟩ := letterOperand_reads data 0 hW ho
    (x := (true, 'A')) (by simp [hletters])
  obtain ⟨he, hev⟩ := letterOperand_reads data 1 hW ho
    (x := (true, 'B')) (by simp [hletters])
  rw [sources_eq ho, hletters]
  refine ⟨_, rfl, ?_⟩
  rw [hx, hmem, hsigned, hletters, letterOperands, letterOperands, letterOperands, letterOperands,
    argOps_three]
  refine .store hindex hwidth ha hb he fun r r' hr => ⟨?_, ?_⟩
  · exact (congrArg₂ (· + ·) (hbv r r' hr) (hav r r' hr)).trans (BitVec.add_comm ..)
  · exact hev r r' hr

theorem lowers_compare (hW : 32 ≤ W) (ho : o ∈ opcodes haveUnsignedXori)
    (hc : conv.find? (fun c => c.name == o.name) = some c) (hname : o.name ≠ "l.movhi")
    (hargs : o.args ∈ (Kind.compare f').texts)
    (hk : (Kind.compare f').Converts sh o.function c.index c.mem c.signed)
    (h : convInsn o (letterOperands W o.enc data (rowLetters o) 0) = some x) (i : ℕ) :
    ∃ op, (Kind.compare f').operation (sources o data) = some op ∧ Lowers sh i op x := by
  obtain ⟨-, hindex, hmem, hf⟩ := hk
  obtain ⟨b, l, hletters⟩ := letters_compare hargs
  have hx := convInsn_compare hc hname hindex h
  obtain ⟨ha, hav⟩ := clearDest_reads data 0 hW ho
    (x := (true, 'A')) (by simp [hletters])
  obtain ⟨hb, hbv⟩ := clearDest_reads data 1 hW ho
    (x := (b, l)) (by simp [hletters])
  rw [sources_eq ho, hletters]
  refine ⟨_, rfl, ?_⟩
  rw [hx, hmem, hletters, letterOperands, letterOperands, letterOperands, argOps_two]
  refine .compare hindex ha hb fun r r' hr => (hf _ _).trans (congrArg flag ?_)
  exact congrArg₂ f' (hav r r' hr) (hbv r r' hr)

theorem lowers_nop (hW : 32 ≤ W) (ho : o ∈ opcodes haveUnsignedXori)
    (hc : conv.find? (fun c => c.name == o.name) = some c) (hname : o.name ≠ "l.movhi")
    (hargs : o.args ∈ Kind.nop.texts)
    (hk : Kind.nop.Converts sh o.function c.index c.mem c.signed)
    (h : convInsn o (letterOperands W o.enc data (rowLetters o) 0) = some x) (i : ℕ) :
    ∃ op, Kind.nop.operation (sources o data) = some op ∧ Lowers sh i op x := by
  obtain ⟨-, hindex⟩ := hk
  have hletters : rowLetters o = [(false, 'K')] := rowLetters_of_text hargs
  obtain ⟨rfl, hword⟩ := convInsn_nop hc hname hindex h
  rw [hletters, letterOperands, letterOperands, argOps_one] at hword
  have hzero : letterVal o.enc data 'K' = 0 := by
    rw [← low_signExtend hW (letterVal o.enc data 'K')]
    exact (congrArg low hword).trans low_zero
  rw [sources_eq ho, hletters]
  exact ⟨.nop, if_pos hzero, .nop⟩

end Convert

/-- **An instruction without a delay slot stands for what its word does.** -/
theorem lowers_convInsn (hW : 32 ≤ W) (ho : o ∈ opcodes haveUnsignedXori)
    (hdelay : hasDelay o = false) {x : Item W}
    (h : convInsn o (letterOperands W o.enc data (rowLetters o) 0) = some x) (sh : Shifts)
    (i : ℕ) :
    ∃ op, (kind sh o.function).operation (sources o data) = some op ∧ Lowers sh i op x := by
  obtain ⟨c, hc, -⟩ := Option.bind_eq_some_iff.1 h
  obtain ⟨hconv, hargs, hmovhi⟩ := conv_spec ho hdelay hc sh
  have hk := kind_converts hconv sh
  cases hkind : kind sh o.function <;> rw [hkind] at hk hargs
  case arith => exact lowers_arith hW ho hc (mt hmovhi.1 hk.1) hargs hk h i
  case movhi => exact lowers_movhi hW ho hc (hmovhi.2 hk.1) hargs hk h i
  case load => exact lowers_load hW ho hc (mt hmovhi.1 hk.1) hargs hk h i
  case store => exact lowers_store hW ho hc (mt hmovhi.1 hk.1) hargs hk h i
  case compare => exact lowers_compare hW ho hc (mt hmovhi.1 hk.1) hargs hk h i
  case nop => exact lowers_nop hW ho hc (mt hmovhi.1 hk.1) hargs hk h i
  all_goals exact hk.elim

/-! ### The loop -/

theorem kind_of_ret {k : Kind} {srcs : List Source} (h : k.operation srcs = some .ret) :
    k = .ret := by
  unfold Kind.operation at h
  split at h <;> first | rfl | (split_ifs at h; cases h) | cases h

theorem letters_branch {cond : Option Bool} (h : o.args ∈ (Kind.branch cond).texts) :
    rowLetters o = [(false, 'N')] := rowLetters_of_text h

variable (W data) in
/-- **A branch stands for what its word does.** -/
theorem lowers_branchItem (ho : o ∈ opcodes haveUnsignedXori) {cond : Option Bool}
    (hkind : kind sh o.function = .branch cond) (hargs : o.args ∈ (kind sh o.function).texts)
    (i : ℕ) :
    ∃ n, (kind sh o.function).operation (sources o data) = some (.branch cond n) ∧
      Lowers sh i (.branch cond n)
        (branchItem i (letterOperands W o.enc data (rowLetters o) 0)
          (cond.elim (.const 1) fun _ => .register flagReg) (cond == some false)) := by
  rw [hkind] at hargs
  have hletters := letters_branch hargs
  rw [sources_eq ho, hletters, hkind]
  refine ⟨letterVal o.enc data 'N', rfl, ?_⟩
  rw [branchItem, letterOperands, letterOperands, argOps_one]
  exact .branch

theorem function_of_name (fn : ExecFn) :
    (delayName fn = some "l.bnf" → fn = .lBnf) ∧ (delayName fn = some "l.bf" → fn = .lBf) ∧
      (delayName fn = some "l.j" → fn = .lJ) ∧ (delayName fn = some "l.jr" → fn = .lJr) := by
  cases fn <;> decide

/-- What the loop makes of a word: an instruction that stands for it, and a count of the words
behind the return. -/
def LoadsAs (sh : Shifts) (op : Option Operation) (s t : Loading W) : Prop :=
  ∃ x op', op = some op' ∧ Lowers sh s.insns.length op' x ∧ t.insns = s.insns ++ [x] ∧
    (op' = .ret ∧ s.funcReturn = 0 ∧ t.funcReturn = 1 ∨
      op' ≠ .ret ∧ t.funcReturn = nextReturn s.funcReturn)

variable {s t : Loading W}

theorem loadsAs_branch (cond : Option Bool) (ho : o ∈ opcodes haveUnsignedXori)
    (hkind : kind sh o.function = .branch cond) (hargs : o.args ∈ (kind sh o.function).texts) :
    LoadsAs sh ((kind sh o.function).operation (sources o data)) s
      ⟨s.insns ++ [branchItem s.insns.length (letterOperands W o.enc data (rowLetters o) 0)
        (cond.elim (.const 1) fun _ => .register flagReg) (cond == some false)],
        nextReturn s.funcReturn⟩ := by
  obtain ⟨n, hn, hl⟩ := lowers_branchItem W data ho hkind hargs s.insns.length
  exact ⟨_, _, hn, hl, rfl, .inr ⟨Operation.noConfusion, rfl⟩⟩

theorem loadDelay_spec (ho : o ∈ opcodes haveUnsignedXori) (hdelay : hasDelay o = true)
    (h : loadDelay s o (letterOperands W o.enc data (rowLetters o) 0) = some t) (sh : Shifts) :
    LoadsAs sh ((kind sh o.function).operation (sources o data)) s t := by
  have hrow := fun s hs (hname : o.name = s) => delay_spec ho hdelay hs hname sh
  obtain ⟨hbnf, hbf, hj, hjr⟩ := function_of_name o.function
  unfold loadDelay at h
  dsimp only at h
  split_ifs at h with h₁ h₂ h₃ h₄
  · obtain ⟨hfn, htexts⟩ := hrow "l.bnf" (by decide) h₁
    cases h
    exact loadsAs_branch (some false) ho (by rw [hbnf hfn]; rfl) htexts
  · obtain ⟨hfn, htexts⟩ := hrow "l.bf" (by decide) h₂
    cases h
    exact loadsAs_branch (some true) ho (by rw [hbf hfn]; rfl) htexts
  · obtain ⟨hfn, htexts⟩ := hrow "l.j" (by decide) h₃
    cases h
    exact loadsAs_branch none ho (by rw [hj hfn]; rfl) htexts
  · obtain ⟨hfn, htexts⟩ := hrow "l.jr" (by decide) h₄.1
    have hkind : kind sh o.function = .ret := by rw [hjr hfn]; rfl
    have hreturn : s.funcReturn = 0 := by
      have hnext := h₄.2
      rw [nextReturn] at hnext
      split_ifs at hnext with h0
      exact h0
    cases h
    rw [hkind] at htexts ⊢
    have hletters : rowLetters o = [(true, 'B')] := rowLetters_of_text htexts
    rw [sources_eq ho, hletters]
    exact ⟨nopItem, .ret, rfl, .ret, rfl, .inl ⟨rfl, hreturn, rfl⟩⟩

theorem loadWord_spec (hW : W = 32 ∨ W = 64) (h : loadWord haveUnsignedXori s data = some t)
    (sh : Shifts) : LoadsAs sh (operation sh haveUnsignedXori data) s t := by
  have hW' : 32 ≤ W := by omega
  obtain ⟨o, hrow, h⟩ := Option.bind_eq_some_iff.1 h
  obtain ⟨args, hargs, h⟩ := Option.bind_eq_some_iff.1 h
  have ho := (mem_of_hostRow hrow).1
  rw [buildArgs_eq hW' ho] at hargs
  obtain rfl := Option.some.inj hargs
  rw [operation, decodeInsn_of_hostRow hW hrow, Option.bind_some]
  unfold loadArgs at h
  split_ifs at h with hdelay
  · exact loadDelay_spec ho hdelay h sh
  · obtain ⟨x, hx, rfl⟩ := Option.map_eq_some_iff.1 h
    rw [Bool.not_eq_true] at hdelay
    obtain ⟨op, hop, hl⟩ := lowers_convInsn hW' ho hdelay hx sh s.insns.length
    refine ⟨x, op, hop, hl, rfl, .inr ⟨?_, rfl⟩⟩
    rintro rfl
    obtain ⟨c, hc, -⟩ := Option.bind_eq_some_iff.1 hx
    have hk := kind_converts (conv_spec ho hdelay hc sh).1 sh
    rw [kind_of_ret hop] at hk
    exact hk

/-- What has been made of the words so far. -/
structure Reading (sh : Shifts) (haveUnsignedXori : Bool) (words : List (BitVec 32))
    (s : Loading W) : Prop where
  length : s.insns.length = words.length
  lowers : ∀ {i x}, s.insns[i]? = some x →
    ∃ op, (words[i]?).bind (operation sh haveUnsignedXori) = some op ∧ Lowers sh i op x ∧
      (op = .ret ↔ s.funcReturn ≠ 0 ∧ i + s.funcReturn = words.length)

theorem Reading.step (hW : W = 32 ∨ W = 64) {words : List (BitVec 32)}
    (hs : Reading sh haveUnsignedXori words s) (h : loadWord haveUnsignedXori s data = some t) :
    Reading sh haveUnsignedXori (words ++ [data]) t := by
  obtain ⟨x, op, hop, hl, hinsns, hret⟩ := loadWord_spec hW h sh
  have hnext : nextReturn s.funcReturn = if s.funcReturn = 0 then 0 else s.funcReturn + 1 := rfl
  have hlen : (words ++ [data]).length = words.length + 1 := by simp
  refine ⟨by rw [hinsns, List.length_append, hs.length, hlen]; rfl, fun {i y} hy => ?_⟩
  rw [hinsns] at hy
  rw [hlen]
  rcases Nat.lt_or_ge i s.insns.length with hi | hi
  · rw [List.getElem?_append_left hi] at hy
    obtain ⟨op', hop', hl', hret'⟩ := hs.lowers hy
    refine ⟨op', ?_, hl', hret'.trans ?_⟩
    · rwa [List.getElem?_append_left (by rw [← hs.length]; exact hi)]
    · rw [hs.length] at hi
      rcases hret with ⟨-, hzero, hone⟩ | ⟨-, hfr⟩
      · rw [hzero, hone]
        omega
      · rw [hfr, hnext]
        split_ifs <;> omega
  · rw [List.getElem?_append_right hi] at hy
    obtain ⟨hsub, rfl⟩ : i - s.insns.length = 0 ∧ x = y := by
      cases hn : i - s.insns.length with
      | zero =>
        rw [hn] at hy
        exact ⟨rfl, Option.some.inj hy⟩
      | succ k =>
        rw [hn] at hy
        cases hy
    obtain rfl : i = s.insns.length := by omega
    refine ⟨op, ?_, hl, ?_⟩
    · rw [hs.length, List.getElem?_append_right (le_refl _), Nat.sub_self]
      exact hop
    · rw [hs.length]
      rcases hret with ⟨rfl, -, hone⟩ | ⟨hne, hfr⟩
      · simp [hone]
      · rw [hfr, hnext]
        refine iff_of_false hne ?_
        split_ifs <;> omega

/-- The function that has been read: one instruction for each word, and a return in front of the
last one. -/
structure Loaded (sh : Shifts) (haveUnsignedXori : Bool) (words : List (BitVec 32))
    (c : Items W) : Prop where
  num : c.num = words.length
  lowers : ∀ {i}, i < c.num →
    ∃ op, Or1k.opAt sh haveUnsignedXori words i = some op ∧ Lowers sh i op (c.insn i) ∧
      (op = .ret ↔ i + 2 = c.num)

theorem loaded_spec (hW : W = 32 ∨ W = 64) {reloc : ℕ → ℕ} {words : List (BitVec 32)}
    {c : Items W} (h : loadWords haveUnsignedXori reloc words = some c) (sh : Shifts) :
    Loaded sh haveUnsignedXori words c := by
  obtain ⟨s, hs, h⟩ := Option.bind_eq_some_iff.1 h
  split_ifs at h with hreturn
  cases h
  have hread : Reading sh haveUnsignedXori ([] ++ words) s :=
    Runs.foldlM_prefix (fun pre a s t hs h => Reading.step hW hs h)
      ⟨rfl, fun {i x} h => by cases h⟩ hs
  rw [List.nil_append] at hread
  refine ⟨hread.length, fun {i} hi => ?_⟩
  obtain ⟨op, hop, hl, hret⟩ := hread.lowers (List.getElem?_eq_getElem hi)
  refine ⟨op, hop, ?_, ?_⟩
  · dsimp only
    rwa [List.getD_eq_getElem _ _ hi]
  · have hlen := hread.length
    dsimp only
    rw [hret, hreturn]
    omega

/-! ### Words whose rows are known -/

/-- The words are those of the rows. -/
def RowsOf (W : ℕ) (haveUnsignedXori : Bool) (words : List (BitVec 32)) (rows : List Opcode) :
    Prop :=
  List.Forall₂ (fun data o => hostRow W haveUnsignedXori data = some o) words rows

/-- The words are those of the rows with these numbers. -/
def checkRows (W : ℕ) (haveUnsignedXori : Bool) : List (BitVec 32) → List ℕ → Bool
  | [], [] => true
  | data :: words, k :: ks =>
    ((opcodes haveUnsignedXori)[k]?.any fun o =>
      (Decoder.insnExtract W '1' o.enc ||| Decoder.insnExtract W '0' o.enc) &&& data.setWidth W ==
        Decoder.insnExtract W '1' o.enc) && checkRows W haveUnsignedXori words ks
  | _, _ => false

theorem rowsOf_of_check (hW : W = 32 ∨ W = 64) {words : List (BitVec 32)} {ks : List ℕ}
    (h : checkRows W haveUnsignedXori words ks = true) :
    RowsOf W haveUnsignedXori words (ks.filterMap ((opcodes haveUnsignedXori)[·]?)) := by
  induction words generalizing ks with
  | nil =>
    cases ks with
    | nil => exact .nil
    | cons k ks => cases h
  | cons data words ih =>
    cases ks with
    | nil => cases h
    | cons k ks =>
      rw [checkRows, Bool.and_eq_true, Option.any_eq_true] at h
      obtain ⟨⟨o, ho, hm⟩, hks⟩ := h
      rw [List.filterMap_cons, ho]
      exact .cons ((hostRow_eq_some_iff hW).2 ⟨List.mem_of_getElem? ho, eq_of_beq hm⟩) (ih hks)

theorem foldlM_loadRow (hW : 32 ≤ W) {words : List (BitVec 32)} {rows : List Opcode}
    (h : RowsOf W haveUnsignedXori words rows) (s : Loading W) :
    words.foldlM (loadWord haveUnsignedXori) s =
      (words.zip rows).foldlM (fun s x =>
        loadArgs s x.2 (letterOperands W x.2.enc x.1 (rowLetters x.2) 0)) s := by
  induction h generalizing s with
  | nil => rfl
  | cons hrow _ ih =>
    rw [List.foldlM_cons, List.zip_cons_cons, List.foldlM_cons, loadWord, hrow, Option.bind_some,
      loadRow, buildArgs_eq hW (mem_of_hostRow hrow).1, Option.bind_some]
    exact congrArg _ (funext ih)

theorem map_operation_of_rows (hW : W = 32 ∨ W = 64) {words : List (BitVec 32)}
    {rows : List Opcode} (h : RowsOf W haveUnsignedXori words rows) (sh : Shifts) :
    words.map (operation sh haveUnsignedXori) =
      (words.zip rows).map fun x =>
        (kind sh x.2.function).operation ((rowLetters x.2).map (letterSource x.2.enc x.1)) := by
  induction h with
  | nil => rfl
  | cons hrow _ ih =>
    rw [List.map_cons, ih, List.zip_cons_cons, List.map_cons, operation,
      decodeInsn_of_hostRow hW hrow, Option.bind_some, sources_eq (mem_of_hostRow hrow).1]
    rfl

end Cuc
end Or1ksim
