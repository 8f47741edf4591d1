import Mathlib.Data.List.Perm.Subperm
import Or1ksim.Insn.Rows

/-!
# The disassembler and the executor read the same operands

* `parseArgs_render` — `parse_params` turns an operands text into one group of pieces per letter;
* `evalOperandVal_group` — a group evaluates to the value the disassembler prints for its letter;
* `operands_agree` — the two readings agree for every row of the opcode table and every word.
-/

namespace Or1ksim
namespace Insn

open Decoder (Encoding insnExtract)
open Gather Scan

variable {W : ℕ} {enc : Encoding}

/-! ### Groups of pieces -/

/-- The pieces of one operand letter: they cover its positions, only the last one ends the
operand, and it carries the sign bit of a signed letter. -/
structure Group (enc : Encoding) (l : Char) (last : Bool) (g : List InsnOp) : Prop where
  /-- The pieces cover the letter from the bottom up. -/
  covers : positions (g.map InsnOp.field) = (letterPositions l enc).reverse
  /-- Where the group ends. -/
  ends : ∃ init o, g = init ++ [o] ∧ (∀ x ∈ init, x.type.op = false ∧ x.type.last = false) ∧
    o.type.op = true ∧ o.type.last = last ∧ o.type.sig = letterSigned l ∧
    (letterSigned l = true → o.type.sbit.toNat = (letterPositions l enc).length - 1)

/-- An operand program with one group for each letter. -/
inductive Program (enc : Encoding) : List (Bool × Char) → List InsnOp → Prop where
  | single {x g} (h : Group enc x.2 true g) : Program enc [x] g
  | cons {x g xs p} (h : Group enc x.2 false g) (hp : Program enc xs p) :
      Program enc (x :: xs) (g ++ p)

/-- The pieces of a letter before the operand is closed, with the `type` of the parser. -/
structure OpenGroup (enc : Encoding) (l : Char) (t : OpType) (g : List InsnOp) : Prop where
  covers : positions (g.map InsnOp.field) = (letterPositions l enc).reverse
  nonempty : g ≠ []
  types : ∀ x ∈ g, ∃ s, x.type = t ||| { shr := s }
  shr : t.shr = 0
  op : t.op = false
  last : t.last = false
  sig : t.sig = letterSigned l
  sbit : letterSigned l = true → t.sbit.toNat = (letterPositions l enc).length - 1

theorem OpType.or_def (s t : OpType) : s ||| t = s.or t := rfl

/-- A type word whose bits other than `OPTYPE_OP`, `OPTYPE_LAST` and the flags that evaluation
does not read are all in `t`. -/
structure Within (u t : OpType) : Prop where
  shr : u.shr = 0
  sig : u.sig = true → t.sig = true
  sbit : u.sbit ||| t.sbit = t.sbit

theorem field_orType {u : OpType} (hu : u.shr = 0) (x : InsnOp) :
    (x.orType u).field = x.field := by
  have h : u.shr ||| x.type.shr = x.type.shr := by rw [hu]; simp
  simp only [InsnOp.field, InsnOp.orType, OpType.or_def, OpType.or, h]

/-- Closing an operand: `v` goes onto all pieces and `u` onto the last one. -/
theorem OpenGroup.close {l : Char} {t u v : OpType} {g : List InsnOp}
    (h : OpenGroup enc l t g) (hu : Within u t) (hv : Within v t) (hop : u.op = true)
    (hvop : v.op = false) (hvlast : v.last = false) :
    ∃ init o, g = init ++ [o] ∧
      Group enc l u.last (init.map (InsnOp.orType v) ++ [(o.orType v).orType u]) := by
  obtain ⟨init, o, rfl⟩ : ∃ init o, g = init ++ [o] :=
    ⟨g.dropLast, g.getLast h.nonempty, (List.dropLast_concat_getLast h.nonempty).symm⟩
  refine ⟨init, o, rfl, ?_, init.map (InsnOp.orType v), (o.orType v).orType u, rfl, ?_, ?_⟩
  · have hfields : (init.map (InsnOp.orType v) ++ [(o.orType v).orType u]).map InsnOp.field =
        (init ++ [o]).map InsnOp.field := by
      simp [field_orType hu.shr, field_orType hv.shr, Function.comp_def]
    rw [hfields, h.covers]
  · intro x hx
    obtain ⟨y, hy, rfl⟩ := List.mem_map.1 hx
    obtain ⟨s, hs⟩ := h.types y (List.mem_append_left _ hy)
    simp [InsnOp.orType, hs, OpType.or_def, OpType.or, hvop, hvlast, h.op, h.last]
  · obtain ⟨s, hs⟩ := h.types o (List.mem_append_right _ List.mem_cons_self)
    have hsig : (u.sig || (v.sig || letterSigned l)) = letterSigned l := by
      rw [← h.sig]
      cases hus : u.sig <;> cases hvs : v.sig <;> simp [hu.sig, hv.sig, hus, hvs]
    have hsbit : u.sbit ||| (v.sbit ||| t.sbit) = t.sbit := by rw [hv.sbit, hu.sbit]
    simpa [InsnOp.orType, hs, OpType.or_def, OpType.or, hop, hvlast, h.last, hsig, hsbit, h.sig]
      using h.sbit

/-! ### The parser -/

/-- A `type` that says nothing about the bits of an operand. -/
structure Plain (t : OpType) : Prop where
  shr : t.shr = 0
  op : t.op = false
  last : t.last = false
  sig : t.sig = false
  sbit : t.sbit = 0

theorem types_splitArg (type : OpType) : ∀ (k : ℕ) (arg : BitVec W),
    ∀ x ∈ splitArg type k arg, ∃ s, x.type = type ||| { shr := s } := by
  intro k
  induction k with
  | zero => simp [splitArg]
  | succ k ih =>
    intro arg x hx
    rw [splitArg] at hx
    split_ifs at hx
    · cases hx
    · rcases List.mem_cons.1 hx with rfl | hx
      · exact ⟨_, rfl⟩
      · exact ih _ x hx

theorem letterPositions_length_le {x : Bool × Char} (hl : LetterOk enc x) :
    (letterPositions x.2 enc).length ≤ 31 := by
  obtain ⟨-, -, hp, hdesc, -⟩ := hl
  have hsub : (letterPositions x.2 enc).Subperm (List.range 31) :=
    List.Nodup.subperm (hdesc.imp Nat.ne_of_gt) fun p h => List.mem_range.2 (hp p h)
  simpa using List.Subperm.length_le hsub

/-- `type` after a letter: a signed letter adds its sign bit and nothing else. -/
theorem letterType_openGroup (hW : 32 ≤ W) {b : Bool} {l : Char} (hl : LetterOk enc (b, l))
    {t : OpType} (ht : Plain t) :
    OpenGroup enc l (letterType t l (insnExtract W l enc))
      (splitArg (letterType t l (insnExtract W l enc)) W (insnExtract W l enc)) := by
  obtain ⟨hletter, hne, hp, hdesc, -⟩ := id hl
  generalize htype : letterType t l (insnExtract W l enc) = type
  have hones := numOnes_insnExtract hW hletter hp hdesc
  have hlen : (letterPositions l enc).length ≤ 31 := letterPositions_length_le hl
  have hfacts : type.shr = 0 ∧ type.op = false ∧ type.last = false ∧ type.sig = letterSigned l ∧
      (letterSigned l = true → type.sbit.toNat = (letterPositions l enc).length - 1) := by
    subst htype
    rw [letterType]
    split_ifs with hsig
    · simp [OpType.or_def, OpType.or, ht.shr, ht.op, ht.last, ht.sbit, hsig, hones]
      omega
    · simp [ht.shr, ht.op, ht.last, ht.sig, hsig]
  obtain ⟨hshr, hop, hlast, hsig, hsbit⟩ := hfacts
  have hcov := positions_splitArg hW hshr hletter hp hdesc
  refine ⟨hcov, ?_, types_splitArg type W _, hshr, hop, hlast, hsig, hsbit⟩
  intro hnil
  rw [hnil] at hcov
  exact hne (List.reverse_eq_nil_iff.1 hcov.symm)

theorem LetterOk.ne_r {b : Bool} {l : Char} (hl : LetterOk enc (b, l)) : l ≠ 'r' := by
  rintro rfl
  have h : isLower 'r' = false := hl.1.2
  exact absurd h (by decide)

theorem plain_empty : Plain {} := ⟨rfl, rfl, rfl, rfl, rfl⟩

theorem parseArgs_letter (hW : 32 ≤ W) {b : Bool} {l : Char} (hl : LetterOk enc (b, l))
    {t : OpType} (ht : Plain t) :
    ∃ type g, OpenGroup enc l type g ∧ ∀ tail n cur,
      parseArgs W enc (l :: tail) t n cur =
        parseArgs W enc tail type g.length (g.reverse ++ cur) := by
  refine ⟨_, _, letterType_openGroup hW hl ht, fun tail n cur => ?_⟩
  rw [parseArgs, if_neg hl.ne_r, if_pos hl.1.1]

theorem parseArgs_reg (hW : 32 ≤ W) {l : Char} (hl : LetterOk enc (true, l)) :
    ∃ type g, OpenGroup enc l type g ∧ ∀ tail n cur,
      parseArgs W enc ('r' :: l :: tail) {} n cur =
        parseArgs W enc tail type g.length (g.reverse ++ cur) := by
  have hplain : Plain (if l = 'D' then
      ({} : OpType) ||| { reg := true } ||| { dst := true } else {} ||| { reg := true }) := by
    split_ifs <;> exact ⟨rfl, rfl, rfl, rfl, rfl⟩
  obtain ⟨type, g, hg, heq⟩ := parseArgs_letter (W := W) hW hl hplain
  refine ⟨type, g, hg, fun tail n cur => ?_⟩
  rw [parseArgs, if_pos rfl, ← heq tail n cur]
  simp

theorem within_self {t : OpType} (h : t.shr = 0) (b c d : Bool) :
    Within { t with op := b, last := c, dis := d } t :=
  ⟨h, id, BitVec.or_self⟩

theorem within_empty (t : OpType) (b : Bool) : Within { op := b } t :=
  ⟨rfl, nofun, by simp⟩

theorem orType_empty (x : InsnOp) : x.orType {} = x := by
  simp [InsnOp.orType, OpType.or_def, OpType.or]

theorem parseArgs_comma {l : Char} {t : OpType} {g : List InsnOp} (h : OpenGroup enc l t g) :
    ∃ g', Group enc l false g' ∧ ∀ tail n cur,
      parseArgs W enc (',' :: tail) t n (g.reverse ++ cur) =
        parseArgs W enc tail {} n (g'.reverse ++ cur) := by
  obtain ⟨init, o, rfl, hg⟩ := h.close (within_self h.shr true false t.dis)
    (within_empty t false) rfl rfl rfl
  refine ⟨_, hg, fun tail n cur => ?_⟩
  have htype : ({ t with op := true, last := false, dis := t.dis } : OpType) =
      t ||| { op := true } := by
    simp [OpType.or_def, OpType.or, h.last]
  have hid : init.map (InsnOp.orType {}) = init := by simp [funext orType_empty]
  simp [parseArgs, modifyLast, htype, hid, orType_empty, isAlpha]

theorem parseArgs_end {l : Char} {t : OpType} {g : List InsnOp} (h : OpenGroup enc l t g) :
    ∃ g', Group enc l true g' ∧ ∀ n cur,
      parseArgs W enc [] t n (g.reverse ++ cur) = some (g'.reverse ++ cur) := by
  obtain ⟨init, o, rfl, hg⟩ := h.close (within_self h.shr true true t.dis)
    (within_empty t false) rfl rfl rfl
  refine ⟨_, hg, fun n cur => ?_⟩
  have htype : ({ t with op := true, last := true, dis := t.dis } : OpType) =
      t ||| { op := true } ||| { last := true } := by
    simp [OpType.or_def, OpType.or]
  have hid : init.map (InsnOp.orType {}) = init := by simp [funext orType_empty]
  simp [parseArgs, modifyLast, htype, hid, orType_empty]

/-- An opening parenthesis closes the group as a displacement. -/
theorem parseArgs_paren {l : Char} {t : OpType} {g : List InsnOp} (h : OpenGroup enc l t g) :
    ∃ g', Group enc l false g' ∧ ∀ tail cur,
      parseArgs W enc ('(' :: tail) t g.length (g.reverse ++ cur) =
        parseArgs W enc tail {} 0 (g'.reverse ++ cur) := by
  obtain ⟨init, o, rfl, hg⟩ := h.close (within_empty t true)
    (within_self h.shr false false true) rfl rfl rfl
  refine ⟨_, hg, fun tail cur => ?_⟩
  have htype : ({ t with op := false, last := false, dis := true } : OpType) =
      t ||| { dis := true } := by
    simp [OpType.or_def, OpType.or, h.op, h.last]
  rw [htype]
  simp [parseArgs, modifyLast, isAlpha]

theorem parseArgs_close_paren (tail : List Char) (t : OpType) (n : ℕ) (cur : List InsnOp) :
    parseArgs W enc (')' :: tail) t n cur = parseArgs W enc tail t n cur := by
  simp [parseArgs, isAlpha]

/-- An item of the text leaves the group of its last letter open; `p` has the groups before. -/
theorem parseArgs_item (hW : 32 ≤ W) (a : Arg) (hok : ∀ x ∈ a.letters, LetterOk enc x) :
    ∃ x p type g, OpenGroup enc x.2 type g ∧
      (∀ xs q, Program enc (x :: xs) q → Program enc (a.letters ++ xs) (p ++ q)) ∧
      ∀ tail n cur, ∃ m, parseArgs W enc (a.text ++ tail) {} n cur =
        parseArgs W enc tail type m (g.reverse ++ (p.reverse ++ cur)) := by
  cases a with
  | reg l =>
    obtain ⟨type, g, hg, heq⟩ := parseArgs_reg (W := W) hW (hok (true, l) List.mem_cons_self)
    exact ⟨(true, l), [], type, g, hg, fun xs q h => h, fun tail n cur => ⟨_, heq tail n cur⟩⟩
  | imm l =>
    obtain ⟨type, g, hg, heq⟩ := parseArgs_letter (W := W) hW
      (hok (false, l) List.mem_cons_self) plain_empty
    exact ⟨(false, l), [], type, g, hg, fun xs q h => h, fun tail n cur => ⟨_, heq tail n cur⟩⟩
  | disp l r =>
    obtain ⟨t₁, g₁, hg₁, heq₁⟩ := parseArgs_letter (W := W) hW
      (hok (false, l) List.mem_cons_self) plain_empty
    obtain ⟨g₂, hg₂, heq₂⟩ := parseArgs_paren (W := W) hg₁
    obtain ⟨type, g, hg, heq⟩ := parseArgs_reg (W := W) hW
      (hok (true, r) (List.mem_cons_of_mem _ List.mem_cons_self))
    refine ⟨(true, r), g₂, type, g, hg, fun xs q h => .cons hg₂ h, fun tail n cur =>
      ⟨g.length, ?_⟩⟩
    change parseArgs W enc (l :: '(' :: 'r' :: r :: ')' :: tail) {} n cur = _
    rw [heq₁, heq₂, heq, parseArgs_close_paren]

/-- **The operand program.**  An operands text becomes one group of pieces per letter. -/
theorem parseArgs_render (hW : 32 ≤ W) : ∀ (as : List Arg) (a : Arg) (n : ℕ)
    (cur : List InsnOp), (∀ x ∈ (a :: as).flatMap Arg.letters, LetterOk enc x) →
    ∃ p, Program enc ((a :: as).flatMap Arg.letters) p ∧
      parseArgs W enc (render a as) {} n cur = some (p.reverse ++ cur) := by
  intro as
  induction as with
  | nil =>
    intro a n cur hok
    rw [List.flatMap_cons, List.flatMap_nil] at hok ⊢
    obtain ⟨x, p, type, g, hg, hprog, heq⟩ := parseArgs_item hW a
      fun x hx => hok x (List.mem_append_left _ hx)
    obtain ⟨m, heq⟩ := heq [] n cur
    obtain ⟨g', hg', hend⟩ := parseArgs_end (W := W) hg
    refine ⟨p ++ g', hprog [] g' (.single hg'), ?_⟩
    rw [List.append_nil] at heq
    rw [render, heq, hend, List.reverse_append, List.append_assoc]
  | cons b as ih =>
    intro a n cur hok
    rw [List.flatMap_cons] at hok ⊢
    obtain ⟨x, p, type, g, hg, hprog, heq⟩ := parseArgs_item hW a
      fun x hx => hok x (List.mem_append_left _ hx)
    obtain ⟨m, heq⟩ := heq (',' :: render b as) n cur
    obtain ⟨g', hg', hcomma⟩ := parseArgs_comma (W := W) hg
    obtain ⟨q, hq, hrest⟩ := ih b m (g'.reverse ++ (p.reverse ++ cur))
      fun x hx => hok x (List.mem_append_right _ hx)
    refine ⟨p ++ (g' ++ q), hprog _ _ (.cons hg' hq), ?_⟩
    rw [render, heq, hcomma, hrest]
    simp

/-! ### Evaluation -/

/-- The last step of `eval_operand_val`: sign extension from bit `sbit`. -/
def signFrom (sig : Bool) (sbit : ℕ) (operand : BitVec 32) : BitVec 32 :=
  if sig ∧ operand &&& (1#32 <<< sbit) ≠ 0 then operand ||| (BitVec.allOnes 32 <<< sbit)
  else operand

theorem evalOperandFrom_append (insn : BitVec 32) {o : InsnOp} (ho : o.type.op = true)
    (rest : List InsnOp) : ∀ (init : List InsnOp) (operand : BitVec 32) (nbits : ℕ),
      (∀ x ∈ init, x.type.op = false) →
      evalOperandFrom insn (init ++ o :: rest) operand nbits =
        some (signFrom o.type.sig o.type.sbit.toNat
          (orFields insn ((init ++ [o]).map InsnOp.field) operand nbits)) := by
  intro init
  induction init with
  | nil =>
    intro operand nbits _
    simp only [List.nil_append, evalOperandFrom, ho, if_true, List.map_cons, List.map_nil, orFields,
      InsnOp.field, signFrom, one_shiftLeft_sub_one]
    split_ifs <;> rfl
  | cons x init ih =>
    intro operand nbits hx
    have hop := hx x List.mem_cons_self
    simp only [List.cons_append, evalOperandFrom, hop, Bool.false_eq_true, if_false,
      List.map_cons, orFields, InsnOp.field, one_shiftLeft_sub_one]
    rw [ih _ _ fun y hy => hx y (List.mem_cons_of_mem _ hy)]

theorem operandStarts_append {o : InsnOp} (ho : o.type.op = true) (rest : List InsnOp) :
    ∀ (init : List InsnOp) (start : Bool),
      (∀ x ∈ init, x.type.op = false ∧ x.type.last = false) →
      operandStarts start (init ++ o :: rest) =
        (if start then [init ++ o :: rest] else []) ++
          (if o.type.last then [] else operandStarts true rest) := by
  intro init
  induction init with
  | nil =>
    intro start _
    rw [List.nil_append, operandStarts, ho]
  | cons x init ih =>
    intro start hx
    obtain ⟨hop, hlast⟩ := hx x List.mem_cons_self
    rw [List.cons_append, operandStarts, hop, hlast,
      ih false fun y hy => hx y (List.mem_cons_of_mem _ hy)]
    simp

/-- A group evaluates to the gathered bits of its letter, sign-extended for a signed letter. -/
theorem evalOperandVal_group {b : Bool} {l : Char} (hl : LetterOk enc (b, l)) {last : Bool}
    {g : List InsnOp} (hg : Group enc l last g) (insn : BitVec 32) (rest : List InsnOp) :
    evalOperandVal insn (g ++ rest) =
      some (signFrom (letterSigned l) ((letterPositions l enc).length - 1)
        (gather insn (letterPositions l enc))) := by
  obtain ⟨init, o, rfl, hinit, hop, -, hsig, hsbit⟩ := hg.ends
  have hlen : (letterPositions l enc).length ≤ 32 :=
    Nat.le_succ_of_le (letterPositions_length_le hl)
  rw [List.append_assoc, List.singleton_append, evalOperandVal,
    evalOperandFrom_append insn hop rest init 0 0 fun x hx => (hinit x hx).1,
    orFields_eq_gather insn hg.covers hlen, hsig]
  cases hs : letterSigned l with
  | false => simp [signFrom]
  | true => rw [hsbit hs]

/-! ### The disassembler -/

/-- What the disassembler prints for a letter. -/
def letterValue (W : ℕ) (ops : List Opcode) (enc : Encoding) (insn : BitVec 32)
    (x : Bool × Char) : Option (BitVec 32) :=
  if x.1 then some (registerNumber W x.2 enc insn) else immediateValue W ops x.2 enc insn

/-- The extracted value of a letter does not depend on the width of `unsigned long`. -/
theorem or32Extract_setWidth (hW : 32 ≤ W) {b : Bool} {l : Char} (hl : LetterOk enc (b, l))
    (insn : BitVec 32) :
    (or32Extract l enc (insn.setWidth W)).setWidth 32 = gather insn (letterPositions l enc) := by
  have hlen : (letterPositions l enc).length ≤ 31 := letterPositions_length_le hl
  obtain ⟨hletter, -, hp, -, hcount, -⟩ := hl
  dsimp only at hletter hp hcount
  rw [or32Extract_eq_gather hletter hcount]
  apply BitVec.eq_of_getLsbD_eq
  intro i hi
  rw [BitVec.getLsbD_setWidth, getLsbD_gather _ _ (by omega), getLsbD_gather _ _ (by omega)]
  simp only [hi, decide_true, Bool.true_and]
  cases hget : (letterPositions l enc).reverse[i]? with
  | none => rfl
  | some p =>
    have hpW : p < W := by
      have := hp p (List.mem_reverse.1 (List.mem_of_getElem? hget))
      omega
    simp [hpW]

theorem getLsbD_gather_of_ge (insn : BitVec 32) {ps : List ℕ} (hlen : ps.length ≤ 32) {i : ℕ}
    (hi : ps.length ≤ i) : (gather insn ps).getLsbD i = false := by
  rw [getLsbD_gather _ _ hlen, List.getElem?_eq_none (by simpa using hi)]
  rfl

theorem getLsbD_extendMask (hW : 32 ≤ W) {r : ℕ} (hr : r < 32) (i : ℕ) :
    ((((1#32 <<< r) - 1).signExtend W).getLsbD i) = decide (i < r) := by
  have h0 : 0 + r < 32 := by omega
  simpa using getLsbD_runMask hW h0 i

theorem and_one_shiftLeft_ne_zero_iff (v : BitVec 32) {k : ℕ} (hk : k < 32) :
    v &&& (1#32 <<< k) ≠ 0 ↔ v.getLsbD k = true := by
  rw [← BitVec.twoPow_eq, BitVec.and_twoPow]
  cases hb : v.getLsbD k with
  | false => simp
  | true =>
    simp only [if_true, iff_true]
    intro h
    have h0 := congrArg (fun x => x.getLsbD k) h
    simp [hk] at h0

/-- A value of `n` bits has nothing but its top bit from bit `n - 1` on. -/
theorem ushiftRight_ne_zero_iff {x : BitVec W} {n : ℕ} (hn : 0 < n)
    (hx : ∀ i, n ≤ i → x.getLsbD i = false) : x >>> (n - 1) ≠ 0 ↔ x.getLsbD (n - 1) = true := by
  constructor
  · intro h
    by_contra hbit
    refine h (BitVec.eq_of_getLsbD_eq fun i _ => ?_)
    rw [BitVec.getLsbD_ushiftRight]
    rcases Nat.eq_zero_or_pos i with rfl | hi
    · simpa using hbit
    · rw [hx _ (by omega)]
      simp
  · intro hbit h
    have h0 := congrArg (fun x => x.getLsbD 0) h
    rw [BitVec.getLsbD_ushiftRight, Nat.add_zero, hbit] at h0
    simp at h0

/-- `extend_imm` of a value that fits into the range of its letter. -/
theorem extendImm_eq (hW : 32 ≤ W) {ops : List Opcode} {l : Char} {r n : ℕ} {v : BitVec 32}
    (hr : letterRange ops l = some r) (hr32 : r < 32) (hnr : n ≤ r)
    (hsigned : letterSigned l = true → r = n) (hn : 0 < n)
    (hv : ∀ i, n ≤ i → v.getLsbD i = false) :
    (extendImm W ops (v.signExtend W) l).map (·.setWidth 32) =
      some (signFrom (letterSigned l) (n - 1) v) := by
  have hmask := getLsbD_extendMask hW hr32
  -- The mask leaves the value as it is.
  have hmasked : ∀ i, (v.signExtend W &&& ((1#32 <<< r) - 1).signExtend W).getLsbD i =
      v.getLsbD i := by
    intro i
    rw [BitVec.getLsbD_and, hmask, BitVec.getLsbD_signExtend]
    by_cases hi : i < r
    · have hi32 : i < 32 := by omega
      have hiW : i < W := by omega
      simp [hi, hi32, hiW]
    · simp [hi, hv i (by omega)]
  simp only [extendImm, hr, Option.map_some, Option.some.injEq, signFrom]
  generalize v.signExtend W &&& ((1#32 <<< r) - 1).signExtend W = x at hmasked ⊢
  have hx : x.setWidth 32 = v := by
    apply BitVec.eq_of_getLsbD_eq
    intro i hi
    rw [BitVec.getLsbD_setWidth, hmasked, decide_eq_true hi, Bool.true_and]
  cases hsig : letterSigned l with
  | false => simpa using hx
  | true =>
    obtain rfl := hsigned hsig
    have hneg := ushiftRight_ne_zero_iff hn fun i hi => (hmasked i).trans (hv i hi)
    simp only [hneg, hmasked, and_one_shiftLeft_ne_zero_iff v (show r - 1 < 32 by omega), true_and]
    split_ifs with htop
    · -- Above the top bit both readings have ones.
      apply BitVec.eq_of_getLsbD_eq
      intro i hi
      have hiW : i < W := by omega
      rw [BitVec.getLsbD_setWidth, BitVec.getLsbD_or, hmasked, BitVec.getLsbD_not, hmask,
        BitVec.getLsbD_or, BitVec.getLsbD_shiftLeft, BitVec.getLsbD_allOnes]
      rcases Nat.lt_trichotomy i (r - 1) with h | rfl | h
      · have hir : i < r := by omega
        simp [hi, h, hir]
      · simp only [htop, Bool.true_or, hi, decide_true, Bool.and_self]
      · have hir : ¬i < r := by omega
        have hlt : i - (r - 1) < 32 := by omega
        simp [hi, hiW, hir, hlt, Nat.lt_asymm h]
    · exact hx

/-- The disassembler prints the gathered bits of a letter, sign-extended for a signed letter. -/
theorem letterValue_eq (hW : 32 ≤ W) (haveUnsignedXori : Bool) {x : Bool × Char}
    (hl : LetterOk enc x) (insn : BitVec 32) :
    letterValue W (opcodes haveUnsignedXori) enc insn x =
      some (signFrom (letterSigned x.2) ((letterPositions x.2 enc).length - 1)
        (gather insn (letterPositions x.2 enc))) := by
  obtain ⟨b, l⟩ := x
  have hval := or32Extract_setWidth hW hl insn
  cases b with
  | true =>
    have hsig : letterSigned l = false := hl.2.2.2.2.2.1 rfl
    simp [letterValue, registerNumber, hval, hsig, signFrom]
  | false =>
    have hlen : (letterPositions l enc).length ≤ 31 := letterPositions_length_le hl
    obtain ⟨-, hne, -, -, -, -, himm⟩ := hl
    obtain ⟨-, hrange⟩ := himm rfl
    dsimp only at hne hrange
    obtain ⟨r, hr, hnr, hsigned⟩ : ∃ r, immRange l = some r ∧
        (letterPositions l enc).length ≤ r ∧
        (letterSigned l = true → r = (letterPositions l enc).length) := by
      split_ifs at hrange with hsig
      · exact ⟨_, hrange, le_refl _, fun _ => rfl⟩
      · obtain ⟨r, hr, hnr⟩ := hrange
        exact ⟨r, hr, hnr, fun h => absurd h hsig⟩
    have hr32 : r < 32 := by
      rw [immRange] at hr
      split_ifs at hr <;> simp_all <;> omega
    simp only [letterValue, Bool.false_eq_true, if_false, immediateValue, hval]
    exact extendImm_eq hW (letterRange_opcodes haveUnsignedXori hr) hr32 hnr hsigned
      (List.length_pos_iff.2 hne) fun i hi => getLsbD_gather_of_ge insn (by omega) hi

/-- The disassembler prints one value per letter of an item. -/
theorem disassembleArgs_item {ops : List Opcode} (insn : BitVec 32)
    (hpunct : ∀ c ∈ [',', '(', ')'], enc.contains c = false) (a : Arg)
    (hok : ∀ x ∈ a.letters, LetterOk enc x) (tail : List Char) :
    disassembleArgs W ops enc insn (a.text ++ tail) =
      a.letters.map (letterValue W ops enc insn) ++ disassembleArgs W ops enc insn tail := by
  have himm : ∀ l, LetterOk enc (false, l) → ∀ s, disassembleArgs W ops enc insn (l :: s) =
      immediateValue W ops l enc insn :: disassembleArgs W ops enc insn s := by
    intro l hl s
    have hmem : enc.contains l = true := (hl.2.2.2.2.2.2 rfl).1
    rw [disassembleArgs, if_pos hmem]
    · exact fun h _ => hl.ne_r h
    · exact fun _ _ h _ => hl.ne_r h
  cases a with
  | reg l => rfl
  | imm l => exact himm l (hok (false, l) List.mem_cons_self) tail
  | disp l r =>
    have hskip : ∀ c ∈ ['(', ')'], ∀ s, disassembleArgs W ops enc insn (c :: s) =
        disassembleArgs W ops enc insn s := by
      intro c hc s
      have hne : c ≠ 'r' := by
        rintro rfl
        simp at hc
      rw [disassembleArgs, if_neg]
      · simpa using hpunct c (List.mem_cons_of_mem _ hc)
      · exact fun h _ => hne h
      · exact fun _ _ h _ => hne h
    change disassembleArgs W ops enc insn (l :: '(' :: 'r' :: r :: ')' :: tail) = _
    rw [himm l (hok (false, l) List.mem_cons_self), hskip '(' (by simp), disassembleArgs,
      hskip ')' (by simp)]
    rfl

theorem disassembleArgs_render {ops : List Opcode} (insn : BitVec 32)
    (hpunct : ∀ c ∈ [',', '(', ')'], enc.contains c = false) :
    ∀ (as : List Arg) (a : Arg), (∀ x ∈ (a :: as).flatMap Arg.letters, LetterOk enc x) →
      disassembleArgs W ops enc insn (render a as) =
        ((a :: as).flatMap Arg.letters).map (letterValue W ops enc insn) := by
  intro as
  induction as with
  | nil =>
    intro a hok
    rw [List.flatMap_cons, List.flatMap_nil, List.append_nil] at hok ⊢
    rw [render, ← List.append_nil a.text, disassembleArgs_item insn hpunct a hok,
      disassembleArgs, List.append_nil]
  | cons b as ih =>
    intro a hok
    rw [List.flatMap_cons] at hok
    have hcomma : disassembleArgs W ops enc insn (',' :: render b as) =
        disassembleArgs W ops enc insn (render b as) := by
      rw [disassembleArgs, if_neg]
      · simpa using hpunct ',' List.mem_cons_self
      · exact nofun
      · exact nofun
    rw [render, disassembleArgs_item insn hpunct a fun x hx => hok x (List.mem_append_left _ hx),
      hcomma, ih b fun x hx => hok x (List.mem_append_right _ hx), ← List.map_append]
    rfl

/-! ### Agreement -/

/-- The executor finds the same value for every letter of a program. -/
theorem execOperands_program (hW : 32 ≤ W) (haveUnsignedXori : Bool) (insn : BitVec 32)
    {xs : List (Bool × Char)} {p : List InsnOp} (h : Program enc xs p)
    (hok : ∀ x ∈ xs, LetterOk enc x) :
    execOperands insn p =
      xs.map (letterValue W (opcodes haveUnsignedXori) enc insn) := by
  induction h with
  | @single x g hg =>
    have hl := hok x List.mem_cons_self
    have hval := evalOperandVal_group hl hg insn []
    obtain ⟨init, o, rfl, hinit, hop, hlast, -⟩ := hg.ends
    rw [List.append_nil] at hval
    rw [execOperands, operandStarts_append hop [] init true hinit, hlast]
    simp [hval, letterValue_eq hW haveUnsignedXori hl]
  | @cons x g xs p hg hp ih =>
    have hl := hok x List.mem_cons_self
    have hval := evalOperandVal_group hl hg insn p
    have ih := ih fun y hy => hok y (List.mem_cons_of_mem _ hy)
    obtain ⟨init, o, rfl, hinit, hop, hlast, -⟩ := hg.ends
    rw [execOperands] at ih
    rw [List.append_assoc, List.singleton_append] at hval
    rw [List.append_assoc, List.singleton_append, execOperands,
      operandStarts_append hop p init true hinit, hlast, List.map_cons,
      letterValue_eq hW haveUnsignedXori hl]
    simp [hval, ih]

/-- **Operand agreement.**  For every row of the opcode table `parse_params` succeeds, and for
every instruction word evaluating the operand program gives the values the disassembler extracts
letter by letter; an instruction without operands gets the dummy operand `r0`. -/
theorem operands_agree (W : ℕ) (hW : 32 ≤ W) (haveUnsignedXori : Bool) (o : Opcode)
    (ho : o ∈ opcodes haveUnsignedXori) :
    ∃ opds, parseParams W o = some opds ∧ ∀ insn : BitVec 32,
      execOperands insn opds =
        if o.args.toList = [] then [some 0]
        else disassembleOperands W (opcodes haveUnsignedXori) o insn := by
  obtain ⟨hpunct, hargs⟩ := opcodes_rowOk ho
  cases hread : readArgs o.args.toList.length o.args.toList with
  | nil =>
    rw [hread] at hargs
    have hargs : o.args.toList = [] := hargs
    refine ⟨_, by rw [parseParams, if_pos hargs], fun insn => ?_⟩
    rw [if_pos hargs]
    simp [execOperands, operandStarts, evalOperandVal, evalOperandFrom]
  | cons a as =>
    rw [hread] at hargs
    obtain ⟨htext, hok⟩ := hargs
    have hne : o.args.toList ≠ [] := by
      rw [← htext]
      cases as <;> cases a <;> simp [render, Arg.text]
    obtain ⟨p, hprog, hparse⟩ := parseArgs_render hW as a 0 [] hok
    refine ⟨p, ?_, fun insn => ?_⟩
    · rw [parseParams, if_neg hne, ← htext, hparse]
      simp
    · rw [if_neg hne, disassembleOperands, ← htext, disassembleArgs_render insn hpunct as a hok,
        execOperands_program hW haveUnsignedXori insn hprog hok]

/-- The row of `l.sw`, whose offset is split over two fields. -/
def storeWord : Opcode :=
  ⟨"l.sw", "I(rA),rB", "11 0x5  IIIII AAAAA BBBB BIII IIII IIII", .lSw⟩

theorem storeWord_mem : storeWord ∈ opcodes true := by
  have hget : (opcodes true)[173]? = some storeWord := rfl
  exact List.mem_of_getElem? hget

/-- `l.sw -4(r1),r9`. -/
theorem operands_agree_store :
    (parseParams 64 storeWord).map (execOperands 0xd7e14ffc#32) =
        some [some 0xfffffffc#32, some 1, some 9] ∧
      disassembleOperands 64 (opcodes true) storeWord 0xd7e14ffc#32 =
        [some 0xfffffffc#32, some 1, some 9] := by
  obtain ⟨opds, hparse, hagree⟩ := operands_agree 64 (by decide) true storeWord storeWord_mem
  have hexec : (parseParams 64 storeWord).map (execOperands 0xd7e14ffc#32) =
      some [some 0xfffffffc#32, some 1, some 9] := by decide +kernel
  have hargs : storeWord.args.toList ≠ [] := by decide
  have h := hagree 0xd7e14ffc#32
  rw [if_neg hargs] at h
  refine ⟨hexec, ?_⟩
  rw [← h]
  simpa [hparse] using hexec

end Insn
end Or1ksim
