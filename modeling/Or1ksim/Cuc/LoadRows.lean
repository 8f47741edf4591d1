import Or1ksim.Cuc.Machines
import Or1ksim.Insn.Agree

/-!
# The operands of a loaded instruction

`build_insn` and the executor read the same operands.

* `decodeInsn_of_hostRow`, `insnDecode_hostRow` — the row that is found for a word;
* `letterVal` — the value of an operand letter;
* `buildArgs_eq`, `sources_eq` — **the operands of every row**, as they are loaded and as they are
  executed.
-/

namespace Or1ksim
namespace Cuc

open Decoder (Encoding Patterns insnExtract insnDecode buildAutomata)
open Gather (gather getLsbD_gather)
open Or1ksim.Insn

variable {W : ℕ} {haveUnsignedXori : Bool} {data : BitVec 32} {o : Opcode}

/-! ### The row -/

theorem mem_of_hostRow (h : hostRow W haveUnsignedXori data = some o) :
    o ∈ opcodes haveUnsignedXori ∧
      (insnExtract W '1' o.enc ||| insnExtract W '0' o.enc) &&& data.setWidth W =
        insnExtract W '1' o.enc :=
  ⟨List.mem_of_find?_eq_some h, eq_of_beq (List.find?_some h :)⟩

theorem decodeInsn_of_mem (hW : W = 32 ∨ W = 64) (hmem : o ∈ opcodes haveUnsignedXori)
    (hm : (insnExtract W '1' o.enc ||| insnExtract W '0' o.enc) &&& data.setWidth W =
      insnExtract W '1' o.enc) : decodeInsn haveUnsignedXori data = some o := by
  refine decodeInsn_eq_some_iff.2 ⟨hmem, ?_⟩
  rcases hW with rfl | rfl
  · rwa [BitVec.setWidth_eq] at hm
  · obtain ⟨hones, hmask, htop⟩ := opcodes_wide hmem
    rw [hmask, hones, signExtend_matches_iff htop] at hm
    exact hm.1

/-- The host may find no row for an instruction, but never another one. -/
theorem decodeInsn_of_hostRow (hW : W = 32 ∨ W = 64)
    (h : hostRow W haveUnsignedXori data = some o) :
    decodeInsn haveUnsignedXori data = some o :=
  decodeInsn_of_mem hW (mem_of_hostRow h).1 (mem_of_hostRow h).2

/-- **The row that matches is found**: no other one does. -/
theorem hostRow_eq_some_iff (hW : W = 32 ∨ W = 64) :
    hostRow W haveUnsignedXori data = some o ↔
      o ∈ opcodes haveUnsignedXori ∧
        (insnExtract W '1' o.enc ||| insnExtract W '0' o.enc) &&& data.setWidth W =
          insnExtract W '1' o.enc := by
  refine ⟨mem_of_hostRow, fun ⟨hmem, hm⟩ => ?_⟩
  have hsome : (hostRow W haveUnsignedXori data).isSome = true :=
    List.find?_isSome.2 ⟨o, hmem, beq_iff_eq.2 hm⟩
  obtain ⟨o', ho'⟩ := Option.isSome_iff_exists.1 hsome
  rw [ho', ← decodeInsn_of_hostRow hW ho', decodeInsn_of_mem hW hmem hm]

theorem insnDecode_hostRow (hW : 32 ≤ W) {junk automata : ℕ → BitVec W}
    (h : buildAutomata (Patterns.ofEncodings W (encodings haveUnsignedXori)) junk = .ok automata)
    (data : BitVec 32) :
    ∃ r, insnDecode (Patterns.ofEncodings W (encodings haveUnsignedXori)) automata data = some r ∧
      hostRow W haveUnsignedXori data =
        if r = -1 then none else (opcodes haveUnsignedXori)[r.toNat]? := by
  obtain ⟨r, hr, hres, hall⟩ := Decoder.insnDecode_spec hW h data
  have hnum : (Patterns.ofEncodings W (encodings haveUnsignedXori)).num =
      (opcodes haveUnsignedXori).length := List.length_map ..
  rw [hnum] at hres hall
  refine ⟨r, hr, ?_⟩
  rcases hres with rfl | ⟨j, hj, rfl, hm⟩
  · rw [if_pos rfl, hostRow, List.find?_eq_none]
    intro o ho hbeq
    obtain ⟨j, hj, rfl⟩ := List.mem_iff_getElem.1 ho
    have := hall j hj ((matches_ofEncodings hj).2 (eq_of_beq hbeq))
    omega
  · rw [if_neg (by omega), Int.toNat_natCast, List.getElem?_eq_getElem hj, hostRow,
      List.find?_eq_some_iff_getElem]
    refine ⟨beq_iff_eq.2 ((matches_ofEncodings hj).1 hm), j, hj, rfl, fun k hk => ?_⟩
    rw [Bool.not_eq_true', beq_eq_false_iff_ne]
    intro heq
    have := hall k (by omega) ((matches_ofEncodings (by omega)).2 heq)
    omega

/-! ### The value of a letter -/

/-- The value of an operand letter. -/
def letterVal (enc : Encoding) (data : BitVec 32) (l : Char) : Word :=
  signFrom (letterSigned l) ((letterPositions l enc).length - 1)
    (gather data (letterPositions l enc))

theorem getLsbD_signFrom (sig : Bool) {n : ℕ} (hn : 0 < n) (hn32 : n ≤ 32) (v : BitVec 32)
    (i : ℕ) :
    (signFrom sig (n - 1) v).getLsbD i =
      (v.getLsbD i || (decide (i < 32) && decide (n - 1 ≤ i) && (sig && v.getLsbD (n - 1)))) := by
  have htop := and_one_shiftLeft_ne_zero_iff v (show n - 1 < 32 by omega)
  rw [signFrom]
  by_cases hsig : sig = true ∧ v.getLsbD (n - 1) = true
  · rw [if_pos ⟨hsig.1, htop.2 hsig.2⟩, BitVec.getLsbD_or, BitVec.getLsbD_shiftLeft,
      BitVec.getLsbD_allOnes, hsig.1, hsig.2]
    by_cases hi : n - 1 ≤ i
    · have hlt : i - (n - 1) < 32 ∨ ¬i < 32 := by omega
      rcases hlt with hlt | hlt
      · simp [hi, hlt, Nat.not_lt.2 hi]
      · simp [hlt]
    · simp [hi, Nat.not_le.1 hi]
  · rw [if_neg fun h => hsig ⟨h.1, htop.1 h.2⟩]
    cases sig with
    | false => simp
    | true => simp [Bool.eq_false_iff.2 fun h => hsig ⟨rfl, h⟩]

/-- `extend_imm` of a value that fits into the range of its letter, on any host. -/
theorem extendImm_signExtend (hW : 32 ≤ W) {ops : List Opcode} {l : Char} {r n : ℕ} {v : BitVec 32}
    (hr : letterRange ops l = some r) (hr32 : r < 32) (hnr : n ≤ r)
    (hsigned : letterSigned l = true → r = n) (hn : 0 < n)
    (hv : ∀ i, n ≤ i → v.getLsbD i = false) :
    extendImm W ops (v.setWidth W) l =
      some ((signFrom (letterSigned l) (n - 1) v).signExtend W) := by
  have hmask := getLsbD_extendMask hW hr32
  have hmasked : ∀ i, (v.setWidth W &&& ((1#32 <<< r) - 1).signExtend W).getLsbD i =
      v.getLsbD i := by
    intro i
    rw [BitVec.getLsbD_and, hmask, BitVec.getLsbD_setWidth]
    by_cases hi : i < r
    · have hiW : i < W := by omega
      simp [hi, hiW]
    · simp [hi, hv i (by omega)]
  have hsign := getLsbD_signFrom (letterSigned l) hn (by omega) v
  have hmsb : (signFrom (letterSigned l) (n - 1) v).msb =
      (letterSigned l && v.getLsbD (n - 1)) := by
    rw [BitVec.msb_eq_getLsbD_last, hsign, hv _ (by omega)]
    simp only [show (32 - 1 < 32) by decide, show n - 1 ≤ 32 - 1 by omega, decide_true,
      Bool.and_self, Bool.true_and, Bool.false_or]
  simp only [extendImm, hr, Option.map_some, Option.some.injEq]
  generalize v.setWidth W &&& ((1#32 <<< r) - 1).signExtend W = x at hmasked ⊢
  apply BitVec.eq_of_getLsbD_eq
  intro i hi
  rw [BitVec.getLsbD_signExtend, hmsb, hsign, decide_eq_true hi, Bool.true_and]
  cases hsig : letterSigned l with
  | false =>
    rw [if_neg fun h => Bool.noConfusion h.1, hmasked, Bool.false_and, Bool.and_false,
      Bool.or_false]
    split_ifs with h
    · rfl
    · exact hv i (by omega)
  | true =>
    obtain rfl := hsigned hsig
    have hneg := ushiftRight_ne_zero_iff hn fun i hi => (hmasked i).trans (hv i hi)
    rw [hmasked] at hneg
    simp only [hneg, true_and, Bool.true_and]
    cases htop : v.getLsbD (r - 1) with
    | false =>
      rw [if_neg Bool.false_ne_true, hmasked, Bool.and_false, Bool.or_false]
      split_ifs with h
      · rfl
      · exact hv i (by omega)
    | true =>
      -- Above the top bit there are ones.
      rw [if_pos rfl, BitVec.getLsbD_or, hmasked, BitVec.getLsbD_not, hmask, decide_eq_true hi,
        Bool.true_and, Bool.and_true]
      rcases Nat.lt_trichotomy i (r - 1) with h | rfl | h
      · have hir : i < r := by omega
        have hi32 : i < 32 := by omega
        have hle : ¬r ≤ i + 1 := by omega
        simp [hir, hi32, hle]
      · have hi32 : r - 1 < 32 := by omega
        simp [htop, hi32]
      · have hir : ¬i < r := by omega
        have hle : r - 1 ≤ i := by omega
        by_cases hi32 : i < 32
        · simp [hir, hle, hi32]
        · simp [hir, hi32]

theorem immRange_lt {l : Char} {r : ℕ} (h : immRange l = some r) : r < 32 := by
  unfold immRange at h
  split_ifs at h <;> cases h <;> decide

/-! ### The operands of a row -/

section Letters

variable {enc : Encoding} {x : Bool × Char}

theorem gather_lt (h : (letterPositions x.2 enc).length ≤ 31) {i : ℕ}
    (hi : (letterPositions x.2 enc).length ≤ i) :
    (gather data (letterPositions x.2 enc)).getLsbD i = false :=
  getLsbD_gather_of_ge data (Nat.le_succ_of_le h) hi

theorem or32Extract_eq (hW : 32 ≤ W) (hl : LetterOk enc x) (data : BitVec 32) :
    or32Extract x.2 enc (data.setWidth W) =
      (gather data (letterPositions x.2 enc)).setWidth W := by
  have hlen := letterPositions_length_le hl
  obtain ⟨hletter, -, hp, -, hcount, -⟩ := hl
  rw [or32Extract_eq_gather hletter hcount]
  apply BitVec.eq_of_getLsbD_eq
  intro i hi
  rw [BitVec.getLsbD_setWidth, getLsbD_gather _ _ (by omega), getLsbD_gather _ _ (by omega),
    decide_eq_true hi, Bool.true_and]
  cases hget : (letterPositions x.2 enc).reverse[i]? with
  | none => rfl
  | some p =>
    have hpW : p < W := by
      have := hp p (List.mem_reverse.1 (List.mem_of_getElem? hget))
      omega
    simp [hpW]

theorem letterVal_register (hl : LetterOk enc x) (hx : x.1 = true) :
    letterVal enc data x.2 = gather data (letterPositions x.2 enc) := by
  rw [letterVal, hl.2.2.2.2.2.1 hx, signFrom, if_neg fun h => Bool.noConfusion h.1]

theorem setWidth_eq_signExtend (hl : LetterOk enc x) :
    (gather data (letterPositions x.2 enc)).setWidth W =
      (gather data (letterPositions x.2 enc)).signExtend W := by
  rw [BitVec.signExtend_eq_setWidth_of_msb_false]
  rw [BitVec.msb_eq_getLsbD_last]
  exact gather_lt (letterPositions_length_le hl) (letterPositions_length_le hl)

/-- What `build_insn` finds for a letter, behind `argc` operands. -/
def letterOperand (W : ℕ) (enc : Encoding) (data : BitVec 32) (x : Bool × Char) (argc : ℕ) :
    Operand W :=
  let v := (letterVal enc data x.2).signExtend W
  if x.1 then if argc = 0 then .dest v else .register v else .const v

/-- What `build_insn` finds for some letters, behind `argc` operands. -/
def letterOperands (W : ℕ) (enc : Encoding) (data : BitVec 32) :
    List (Bool × Char) → ℕ → List (Operand W)
  | [], _ => []
  | x :: xs, argc => letterOperand W enc data x argc :: letterOperands W enc data xs (argc + 1)

theorem letterOperands_append (xs ys : List (Bool × Char)) (argc : ℕ) :
    letterOperands W enc data (xs ++ ys) argc =
      letterOperands W enc data xs argc ++ letterOperands W enc data ys (argc + xs.length) := by
  induction xs generalizing argc with
  | nil => rfl
  | cons x xs ih =>
    rw [List.cons_append, letterOperands, ih, letterOperands, List.cons_append, List.length_cons,
      Nat.add_right_comm, Nat.add_assoc]

theorem buildArgs_reg (hW : 32 ≤ W) {l : Char} (hl : LetterOk enc (true, l)) (s : List Char)
    (argc : ℕ) :
    buildArgs W haveUnsignedXori enc data ('r' :: l :: s) argc =
      (buildArgs W haveUnsignedXori enc data s (argc + 1)).map
        (letterOperand W enc data (true, l) argc :: ·) := by
  rw [buildArgs, or32Extract_eq hW hl, setWidth_eq_signExtend hl, ← letterVal_register hl rfl]
  rfl

theorem buildArgs_imm (hW : 32 ≤ W) {l : Char} (hl : LetterOk enc (false, l)) (s : List Char)
    (argc : ℕ) :
    buildArgs W haveUnsignedXori enc data (l :: s) argc =
      (buildArgs W haveUnsignedXori enc data s (argc + 1)).map
        (letterOperand W enc data (false, l) argc :: ·) := by
  have hlen := letterPositions_length_le hl
  have hgather := or32Extract_eq hW hl data
  have hzero : ∀ i, (letterPositions (false, l).2 enc).length ≤ i →
      (gather data (letterPositions (false, l).2 enc)).getLsbD i = false := fun _ => gather_lt hlen
  have hr := hl.ne_r
  obtain ⟨-, hne, -, -, -, -, himm⟩ := hl
  obtain ⟨hmem, hrange⟩ := himm rfl
  dsimp only at hne hrange hgather hlen hzero hmem
  obtain ⟨r, hrng, hnr, hsigned⟩ : ∃ r, immRange l = some r ∧
      (letterPositions l enc).length ≤ r ∧
      (letterSigned l = true → r = (letterPositions l enc).length) := by
    split_ifs at hrange with hsig
    · exact ⟨_, hrange, le_refl _, fun _ => rfl⟩
    · obtain ⟨r, hr, hnr⟩ := hrange
      exact ⟨r, hr, hnr, fun h => absurd h hsig⟩
  have hr32 : r < 32 := immRange_lt hrng
  have hext := extendImm_signExtend hW (letterRange_opcodes haveUnsignedXori hrng) hr32 hnr hsigned
    (List.length_pos_iff.2 hne) hzero
  rw [buildArgs, if_pos hmem, hgather]
  · dsimp only
    rw [hext, Option.bind_some]
    rfl
  · exact fun h _ => hr h
  · exact fun _ _ h _ => hr h

theorem buildArgs_skip {c : Char} (hc : enc.contains c = false) (hr : c ≠ 'r') (s : List Char)
    (argc : ℕ) :
    buildArgs W haveUnsignedXori enc data (c :: s) argc =
      buildArgs W haveUnsignedXori enc data s argc := by
  rw [buildArgs, if_neg (Bool.eq_false_iff.1 hc)]
  · exact fun h _ => hr h
  · exact fun _ _ h _ => hr h

theorem buildArgs_item (hW : 32 ≤ W) (hpunct : ∀ c ∈ [',', '(', ')'], enc.contains c = false)
    (a : Arg) (hok : ∀ x ∈ a.letters, LetterOk enc x) (tail : List Char) (argc : ℕ) :
    buildArgs W haveUnsignedXori enc data (a.text ++ tail) argc =
      (buildArgs W haveUnsignedXori enc data tail (argc + a.letters.length)).map
        (letterOperands W enc data a.letters argc ++ ·) := by
  cases a with
  | reg l => exact buildArgs_reg hW (hok (true, l) List.mem_cons_self) tail argc
  | imm l => exact buildArgs_imm hW (hok (false, l) List.mem_cons_self) tail argc
  | disp l r =>
    have himm := hok (false, l) List.mem_cons_self
    have hreg := hok (true, r) (List.mem_cons_of_mem _ List.mem_cons_self)
    change buildArgs W haveUnsignedXori enc data (l :: '(' :: 'r' :: r :: ')' :: tail) argc = _
    rw [buildArgs_imm hW himm, buildArgs_skip (hpunct '(' (by simp)) (by decide),
      buildArgs_reg hW hreg, buildArgs_skip (hpunct ')' (by simp)) (by decide), Option.map_map]
    rfl

theorem buildArgs_render (hW : 32 ≤ W) (hpunct : ∀ c ∈ [',', '(', ')'], enc.contains c = false) :
    ∀ (as : List Arg) (a : Arg) (argc : ℕ),
      (∀ x ∈ (a :: as).flatMap Arg.letters, LetterOk enc x) →
      buildArgs W haveUnsignedXori enc data (render a as) argc =
        some (letterOperands W enc data ((a :: as).flatMap Arg.letters) argc) := by
  intro as
  induction as with
  | nil =>
    intro a argc hok
    rw [List.flatMap_cons, List.flatMap_nil, List.append_nil] at hok ⊢
    rw [render, ← List.append_nil a.text, buildArgs_item hW hpunct a hok, buildArgs,
      Option.map_some, List.append_nil]
  | cons b as ih =>
    intro a argc hok
    rw [List.flatMap_cons] at hok ⊢
    rw [render, buildArgs_item hW hpunct a fun x hx => hok x (List.mem_append_left _ hx),
      buildArgs_skip (hpunct ',' (by simp)) (by decide),
      ih b _ fun x hx => hok x (List.mem_append_right _ hx), Option.map_some,
      letterOperands_append]

end Letters

/-- The operand letters of a row. -/
def rowLetters (o : Opcode) : List (Bool × Char) :=
  (readArgs o.args.toList.length o.args.toList).flatMap Arg.letters

theorem rowLetters_ok (ho : o ∈ opcodes haveUnsignedXori) :
    ∀ x ∈ rowLetters o, LetterOk o.enc x := by
  obtain ⟨-, hargs⟩ := opcodes_rowOk ho
  rw [rowLetters]
  cases hread : readArgs o.args.toList.length o.args.toList with
  | nil => exact fun x hx => absurd hx List.not_mem_nil
  | cons a as =>
    rw [hread] at hargs
    exact hargs.2

/-- **The operands that are loaded** for a row of the opcode table. -/
theorem buildArgs_eq (hW : 32 ≤ W) (ho : o ∈ opcodes haveUnsignedXori) (data : BitVec 32) :
    buildArgs W haveUnsignedXori o.enc data o.args.toList 0 =
      some (letterOperands W o.enc data (rowLetters o) 0) := by
  obtain ⟨hpunct, hargs⟩ := opcodes_rowOk ho
  rw [rowLetters]
  cases hread : readArgs o.args.toList.length o.args.toList with
  | nil =>
    rw [hread] at hargs
    rw [show o.args.toList = [] from hargs]
    rfl
  | cons a as =>
    rw [hread] at hargs
    rw [← buildArgs_render hW hpunct as a 0 hargs.2, hargs.1]

/-- **The operands that are executed** for a row of the opcode table. -/
theorem sources_eq (ho : o ∈ opcodes haveUnsignedXori) (data : BitVec 32) :
    sources o data = (rowLetters o).map fun x =>
      if x.1 then .reg (letterVal o.enc data x.2).toNat else .imm (letterVal o.enc data x.2) := by
  obtain ⟨opds, hparse, hexec⟩ := operands_agree 32 (le_refl 32) haveUnsignedXori o ho
  obtain ⟨hpunct, hargs⟩ := opcodes_rowOk ho
  rw [sources, hparse, Option.elim_some, hexec, rowLetters]
  cases hread : readArgs o.args.toList.length o.args.toList with
  | nil => rfl
  | cons a as =>
    rw [hread] at hargs
    have hne : o.args.toList ≠ [] := by
      intro hnil
      rw [hnil] at hread
      exact List.cons_ne_nil a as hread.symm
    rw [if_neg hne, disassembleOperands]
    nth_rewrite 1 [← hargs.1]
    rw [disassembleArgs_render data hpunct as a hargs.2, List.zipWith_map_right,
      List.zipWith_self]
    refine List.map_congr_left fun x hx => ?_
    rw [letterValue_eq (le_refl 32) haveUnsignedXori (hargs.2 x hx)]
    rfl

end Cuc
end Or1ksim
