import Or1ksim.Insn.Width

/-!
# The generated decoder

`cpu/or32/generate.c` turns the automaton into C: nested switches over the fields of the
instruction word, with the text of an instruction at every leaf.

* `Stmt`, `Stmt.exec` — the emitted statements and what they do, with the labels and breaks of C;
* `generateBody` — the recursive emitter;
* `generate_walk` — the emitted code goes where the table decoder goes;
* `generated_meets_iff` — **the emitted code does what the table decoder says** exactly for the
  words that match an entry: for the others nothing calls `l_invalid`.
-/

namespace Or1ksim
namespace Insn

open Decoder

/-! ### Emitted statements -/

/-- The emitted statements, as far as they decide what is executed. -/
inductive Stmt where
  /-- `switch((insn >> shift) & mask)`. -/
  | switch (shift mask : BitVec 32) (body : List Stmt)
  /-- A case label. -/
  | case (v : BitVec 32)
  /-- `break`. -/
  | brk
  /-- `except_handle (EXCEPT_ILLEGAL, cpu_state.pc)`. -/
  | illegal
  /-- `if((insn & mask) == value)`, with its two branches. -/
  | ifMatch (mask value : BitVec 32) (thenPart elsePart : List Stmt)
  /-- The operands and the text of an instruction. -/
  | body (index : ℕ)
  /-- The text or the call of `l_invalid`. -/
  | lInvalid
  /-- `cpu_state.reg[0] = 0`. -/
  | repair

/-- What the emitted code does with a word. -/
inductive Action where
  /-- It executes an instruction. -/
  | body (index : ℕ)
  /-- It calls `l_invalid`. -/
  | lInvalid
  /-- It raises an illegal instruction exception itself. -/
  | illegal
  /-- It clears register zero. -/
  | repair
deriving DecidableEq, Repr

/-- The statement is the label of a case. -/
def Stmt.isCase (v : BitVec 32) : Stmt → Bool
  | .case u => decide (u = v)
  | _ => false

mutual

/-- Execute a statement; the flag is set by a `break`. -/
def Stmt.exec (insn : BitVec 32) : Stmt → List Action × Bool
  | .switch shift mask body =>
    ((execFrom insn (some ((insn >>> shift.toNat) &&& mask)) body).1, false)
  | .case _ => ([], false)
  | .brk => ([], true)
  | .illegal => ([.illegal], false)
  | .ifMatch mask value thenPart elsePart =>
    if insn &&& mask = value then execFrom insn none thenPart else execFrom insn none elsePart
  | .body i => ([.body i], false)
  | .lInvalid => ([.lInvalid], false)
  | .repair => ([.repair], false)

/-- Execute statements up to a `break`, or first skip them up to the label that is sought. -/
def execFrom (insn : BitVec 32) : Option (BitVec 32) → List Stmt → List Action × Bool
  | _, [] => ([], false)
  | some v, s :: ss => if s.isCase v then execFrom insn none ss else execFrom insn (some v) ss
  | none, s :: ss =>
    let (as, broke) := s.exec insn
    if broke then (as, true)
    else
      let (as', broke) := execFrom insn none ss
      (as ++ as', broke)

end

/-! ### The emitter -/

/-- The file that the texts of the instructions are taken from. -/
structure InFile where
  /-- The functions it has an `INSTRUCTION` for. -/
  instructions : List ExecFn
  /-- Its last line ends in a newline. -/
  newlineAtEnd : Bool

/-- `insnset.c`. -/
def insnset : InFile where
  instructions :=
    [.lAdd, .lAddc, .lSw, .lSb, .lSh, .lLws, .lLwz, .lLbs, .lLbz, .lLhs, .lLhz, .lMovhi, .lAnd,
      .lOr, .lXor, .lSub, .lMul, .lMulu, .lDiv, .lDivu, .lSll, .lSra, .lSrl, .lRor, .lBf, .lBnf,
      .lJ, .lJal, .lJalr, .lJr, .lRfe, .lNop, .lSfeq, .lSfne, .lSfgts, .lSfges, .lSflts, .lSfles,
      .lSfgtu, .lSfgeu, .lSfltu, .lSfleu, .lExtbs, .lExtbz, .lExths, .lExthz, .lExtws, .lExtwz,
      .lMtspr, .lMfspr, .lSys, .lTrap, .lMac, .lMsb, .lMacrc, .lCmov, .lFf1, .lFl1, .lfAddS,
      .lfDivS, .lfFtoiS, .lfItofS, .lfMaddS, .lfMulS, .lfRemS, .lfSfeqS, .lfSfgeS, .lfSfgtS,
      .lfSfleS, .lfSfltS, .lfSfneS, .lfSubS, .lCust1, .lCust2, .lCust3, .lCust4]
  newlineAtEnd := true

/-- `output_function` emits something for `f`.  A function that the file does not have is emitted
as a call, but after a final newline the last `fgets` fails and `output_function` returns before
it gets there. -/
def outputFunction (file : InFile) (f : ExecFn) : Bool :=
  file.instructions.contains f || !file.newlineAtEnd

section Generate

variable {W : ℕ} (file : InFile) (writes : ℕ → Bool) (P : Patterns W) (automata : ℕ → BitVec W)

/-- The end of `output_call`: `write_to_reg` is the one of the last instruction emitted. -/
def outputRepair (i : ℕ) : List Stmt := if writes i then [.repair] else []

/-- `output_call` for an instruction. -/
def outputCall (i : ℕ) : List Stmt := .body i :: outputRepair writes i

/-- `output_call (-1)`, after that of instruction `i`. -/
def outputInvalid (i : ℕ) : List Stmt :=
  (if outputFunction file .lInvalid then [.lInvalid] else []) ++ outputRepair writes i

/-- What ends a sequence of labels without an instruction. -/
def endInvalid (prevInv : Bool) : List Stmt := if prevInv then [.illegal, .brk] else []

/-- The loop over the cases of a switch: `k` more, from number `i` on.  `gen` emits a subtree. -/
def generateCases (gen : ℕ → List Stmt) (base : ℕ) : ℕ → ℕ → Bool → List Stmt
  | 0, _, prevInv => endInvalid prevInv
  | k + 1, i, prevInv =>
    if automata (base + i) = 0 then
      .case (BitVec.ofNat 32 i) :: generateCases gen base k (i + 1) true
    else
      endInvalid prevInv ++ .case (BitVec.ofNat 32 i) :: gen (automata (base + i)).toNat ++
        .brk :: generateCases gen base k (i + 1) false

/-- `generate_body` at cell `a`, with at most `fuel` levels.  The numbers are printed with 32
bits. -/
def generateBody : ℕ → ℕ → BitVec W → List Stmt
  | 0, _, _ => []
  | fuel + 1, a, curMask =>
    if automata a &&& leafFlag W = 0 then
      let shift := automata a
      let mask := automata (a + 1)
      [.switch (shift.setWidth 32) (mask.setWidth 32)
        (generateCases automata
          (fun c => generateBody fuel c (curMask ||| (mask <<< shift.toNat))) (a + 2)
          (mask.toNat + 1) 0 false)]
    else
      let i := (automata a &&& (~~~0x80000000#32).setWidth W).toNat
      if P.insnMask i ≠ curMask then
        [.ifMatch ((P.insnMask i).setWidth 32) ((P.insn i).setWidth 32) (outputCall writes i)
          (outputInvalid file writes i)]
      else outputCall writes i

/-- What the emitted code does with a word. -/
def generated (insn : BitVec 32) : List Action :=
  (execFrom insn none (generateBody file writes P automata maxAutomataSize 0 0)).1

end Generate

/-! ### Executing the emitted statements -/

section Exec

variable {insn : BitVec 32} {ss ss' : List Stmt}

theorem execFrom_none_cons (s : Stmt) :
    execFrom insn none (s :: ss) =
      if (s.exec insn).2 then ((s.exec insn).1, true)
      else ((s.exec insn).1 ++ (execFrom insn none ss).1, (execFrom insn none ss).2) := by
  rw [execFrom]

theorem execFrom_some_cons (v : BitVec 32) (s : Stmt) :
    execFrom insn (some v) (s :: ss) =
      if s.isCase v then execFrom insn none ss else execFrom insn (some v) ss := by
  rw [execFrom]

theorem execFrom_some_append {v : BitVec 32} (h : ∀ s ∈ ss, s.isCase v = false) :
    execFrom insn (some v) (ss ++ ss') = execFrom insn (some v) ss' := by
  induction ss with
  | nil => rfl
  | cons s ss ih =>
    rw [List.cons_append, execFrom_some_cons, h s (.head _), if_neg Bool.false_ne_true]
    exact ih fun s hs => h s (.tail _ hs)

/-- Statements that do not break are followed by the next ones. -/
theorem execFrom_none_append {as : List Action} (h : execFrom insn none ss = (as, false)) :
    execFrom insn none (ss ++ ss') =
      (as ++ (execFrom insn none ss').1, (execFrom insn none ss').2) := by
  induction ss generalizing as with
  | nil =>
    rw [execFrom] at h
    cases h
    rfl
  | cons s ss ih =>
    rw [execFrom_none_cons] at h
    rw [List.cons_append, execFrom_none_cons]
    split at h
    · cases h
    case isFalse hbreak =>
      obtain ⟨rfl, hrest⟩ := Prod.mk.inj h
      rw [if_neg hbreak, ih (Prod.ext rfl hrest), List.append_assoc]

end Exec

/-! ### The cases of a switch -/

section Cases

variable {W : ℕ} {automata : ℕ → BitVec W} {gen : ℕ → List Stmt} {base : ℕ} {insn : BitVec 32}

theorem endInvalid_not_case (prevInv : Bool) (v : BitVec 32) :
    ∀ s ∈ endInvalid prevInv, s.isCase v = false := by
  cases prevInv <;> simp [endInvalid, Stmt.isCase]

/-- After a label without an instruction comes the exception. -/
theorem execFrom_generateCases_invalid (k i : ℕ) :
    execFrom insn none (generateCases automata gen base k i true) = ([.illegal], true) := by
  have hend : ∀ ss, execFrom insn none (endInvalid true ++ ss) = ([.illegal], true) := by
    intro ss
    simp [endInvalid, execFrom_none_cons, Stmt.exec]
  induction k generalizing i with
  | zero =>
    rw [generateCases, ← List.append_nil (endInvalid true)]
    exact hend []
  | succ k ih =>
    rw [generateCases]
    split
    · rw [execFrom_none_cons, Stmt.exec, if_neg Bool.false_ne_true, ih]
      rfl
    · rw [List.append_assoc]
      exact hend _

/-- **A switch** runs the case of its value: the exception if there is no subtree, and otherwise
what has been emitted for it. -/
theorem execFrom_generateCases (hgen : ∀ c v, ∀ s ∈ gen c, s.isCase v = false)
    (as : List Action) {k i v : ℕ} (prevInv : Bool) (hi : i ≤ v) (hv : v < i + k)
    (hk : i + k ≤ 2 ^ 32)
    (has : automata (base + v) ≠ 0 →
      execFrom insn none (gen (automata (base + v)).toNat) = (as, false)) :
    execFrom insn (some (BitVec.ofNat 32 v)) (generateCases automata gen base k i prevInv) =
      (if automata (base + v) = 0 then [.illegal] else as, true) := by
  induction k generalizing i prevInv with
  | zero => omega
  | succ k ih =>
    rw [generateCases]
    by_cases hiv : i = v
    · subst hiv
      have hcase : (Stmt.case (BitVec.ofNat 32 i)).isCase (BitVec.ofNat 32 i) = true :=
        decide_eq_true rfl
      split
      case isTrue hzero =>
        rw [execFrom_some_cons, if_pos hcase, execFrom_generateCases_invalid]
      case isFalse hzero =>
        rw [List.append_assoc, execFrom_some_append (endInvalid_not_case prevInv _),
          List.cons_append, execFrom_some_cons, if_pos hcase, execFrom_none_append (has hzero),
          execFrom_none_cons]
        simp [Stmt.exec]
    · have hcase : (Stmt.case (BitVec.ofNat 32 i)).isCase (BitVec.ofNat 32 v) = false := by
        refine decide_eq_false fun he => hiv ?_
        have := congrArg BitVec.toNat he
        rw [BitVec.toNat_ofNat, BitVec.toNat_ofNat] at this
        omega
      split
      case isTrue =>
        rw [execFrom_some_cons, hcase, if_neg Bool.false_ne_true]
        exact ih true (by omega) (by omega) (by omega)
      case isFalse =>
        rw [List.append_assoc, execFrom_some_append (endInvalid_not_case prevInv _),
          List.cons_append, execFrom_some_cons, hcase, if_neg Bool.false_ne_true,
          execFrom_some_append (hgen _ _), execFrom_some_cons]
        exact ih false (by omega) (by omega) (by omega)

end Cases

/-! ### The walk -/

section Walk

variable {W : ℕ} (file : InFile) (writes : ℕ → Bool) (P : Patterns W)

/-- The comparison that is emitted for an instruction. -/
def LowMatches (insn : BitVec 32) (j : ℕ) : Prop :=
  insn &&& (P.insnMask j).setWidth 32 = (P.insn j).setWidth 32

instance (insn : BitVec 32) (j : ℕ) : Decidable (LowMatches P insn j) :=
  inferInstanceAs (Decidable (_ = _))

/-- What is done at the end of `output_call`. -/
def repairActions (j : ℕ) : List Action := if writes j then [.repair] else []

/-- What is done for a word that fails the comparison of instruction `j`. -/
def invalidActions (j : ℕ) : List Action :=
  (if outputFunction file .lInvalid then [.lInvalid] else []) ++ repairActions writes j

/-- The word has a field value without instructions on its way from cell `a`. -/
def endsInHole (automata : ℕ → BitVec W) (insn : BitVec 32) : ℕ → ℕ → Bool
  | 0, _ => false
  | fuel + 1, a =>
    if automata a &&& leafFlag W = 0 then
      let first := ((automata a).setWidth 32).toNat
      let i := ((insn >>> first).setWidth W &&& automata (a + 1)).toNat
      if automata (a + 2 + i) = 0 then true
      else endsInHole automata insn fuel (automata (a + 2 + i)).toNat
    else false

/-- Where a word leads, among the instructions `C`: whether to a hole, what the table decoder
returns and what the emitted code does. -/
inductive Walk (C : List ℕ) (insn : BitVec 32) : Bool → ℤ → List Action → Prop where
  /-- A field value without instructions. -/
  | hole : Walk C insn true (-1) [.illegal]
  /-- The only instruction of a leaf. -/
  | leaf (j : ℕ) (hj : j ∈ C) :
      Walk C insn false (if P.Matches insn j then j else -1)
        (if LowMatches P insn j then .body j :: repairActions writes j
          else invalidActions file writes j)

variable {file writes P} {mem : ℕ → BitVec W} {insn : BitVec 32}

theorem Walk.mono {C C' : List ℕ} (h : ∀ j ∈ C, j ∈ C') {b : Bool} {r : ℤ} {as : List Action}
    (hw : Walk file writes P C insn b r as) : Walk file writes P C' insn b r as := by
  cases hw with
  | hole => exact .hole
  | leaf j hj => exact .leaf j (h j hj)

theorem lowMatches_of_matches {j : ℕ} (hW : 32 ≤ W) (h : P.Matches insn j) :
    LowMatches P insn j := by
  have hset := congrArg (BitVec.setWidth 32) (show _ = P.insn j from h)
  rwa [BitVec.setWidth_and, BitVec.setWidth_setWidth_of_le _ hW, BitVec.setWidth_eq,
    BitVec.and_comm] at hset

theorem execFrom_outputRepair (j : ℕ) :
    execFrom insn none (outputRepair writes j) = (repairActions writes j, false) := by
  unfold outputRepair repairActions
  split <;> simp [execFrom, Stmt.exec]

theorem execFrom_outputCall (j : ℕ) :
    execFrom insn none (outputCall writes j) = (.body j :: repairActions writes j, false) := by
  rw [outputCall, execFrom_none_cons, execFrom_outputRepair]
  simp [Stmt.exec]

theorem execFrom_outputInvalid (j : ℕ) :
    execFrom insn none (outputInvalid file writes j) = (invalidActions file writes j, false) := by
  unfold outputInvalid invalidActions
  split
  · rw [List.singleton_append, execFrom_none_cons, execFrom_outputRepair]
    simp [Stmt.exec]
  · exact execFrom_outputRepair j

theorem generateBody_not_case (fuel a : ℕ) (curMask : BitVec W) (v : BitVec 32) :
    ∀ s ∈ generateBody file writes P mem fuel a curMask, s.isCase v = false := by
  have hcall : ∀ j, ∀ s ∈ outputCall writes j, s.isCase v = false := by
    intro j s hs
    unfold outputCall outputRepair at hs
    split at hs <;> simp at hs
    · rcases hs with rfl | rfl <;> rfl
    · rw [hs]
      rfl
  cases fuel with
  | zero => exact fun s hs => nomatch hs
  | succ fuel =>
    intro s hs
    rw [generateBody] at hs
    split at hs
    · rw [List.mem_singleton.1 hs]
      rfl
    · dsimp only at hs
      split at hs
      · rw [List.mem_singleton.1 hs]
        rfl
      · exact hcall _ s hs

theorem shifted_lowMask_and (first len : ℕ) (x : BitVec W) :
    (Bits.lowMask W len <<< first) &&& x = ((x >>> first) &&& Bits.lowMask W len) <<< first := by
  apply BitVec.eq_of_getLsbD_eq
  intro i hi
  simp only [BitVec.getLsbD_and, BitVec.getLsbD_shiftLeft, BitVec.getLsbD_ushiftRight]
  by_cases hif : i < first
  · simp [hif]
  · simp [hi, hif, Nat.add_sub_cancel' (Nat.le_of_not_lt hif), Bool.and_comm]

theorem setWidth_lowMask (hW : 32 ≤ W) (len : ℕ) :
    (Bits.lowMask W len).setWidth 32 = Bits.lowMask 32 len := by
  apply BitVec.eq_of_getLsbD_eq
  intro i hi
  simp only [BitVec.getLsbD_setWidth, Bits.getLsbD_lowMask, hi, decide_true, Bool.true_and]
  simp only [show i < W by omega, decide_true, Bool.true_and]

theorem switch_value (hW : 32 ≤ W) {first len : ℕ} (hlen : len ≤ 32) (w : BitVec 32) :
    (w >>> first) &&& (Bits.lowMask W len).setWidth 32 =
      BitVec.ofNat 32 ((w >>> first).setWidth W &&& Bits.lowMask W len).toNat := by
  apply BitVec.eq_of_toNat_eq
  have hlt := (w >>> first).isLt
  have hpow : 2 ^ 32 ≤ 2 ^ W := Nat.pow_le_pow_right (by decide) hW
  rw [setWidth_lowMask hW, Bits.toNat_and_lowMask _ hlen, BitVec.toNat_ofNat,
    Bits.toNat_and_lowMask _ (by omega), BitVec.toNat_setWidth,
    Nat.mod_eq_of_lt (by omega : _ < 2 ^ W)]
  exact (Nat.mod_eq_of_lt (lt_of_le_of_lt (Nat.mod_le _ _) hlt)).symm

/-- On the way to an instruction the word has its bits under the mask of the fields looked at. -/
theorem path_step (hW : 32 ≤ W) {first len j : ℕ} {curMask : BitVec W}
    (hcur : curMask &&& insn.setWidth W = curMask &&& P.insn j)
    (hfield : field P first len j =
      BitVec.ofNat W ((insn >>> first).setWidth W &&& Bits.lowMask W len).toNat) :
    (curMask ||| Bits.lowMask W len <<< first) &&& insn.setWidth W =
      (curMask ||| Bits.lowMask W len <<< first) &&& P.insn j := by
  rw [BitVec.ofNat_toNat, BitVec.setWidth_eq, setWidth_ushiftRight hW, field] at hfield
  rw [BitVec.and_comm, BitVec.and_or_distrib_left, BitVec.and_comm, hcur,
    BitVec.and_comm (insn.setWidth W), shifted_lowMask_and, ← hfield, ← shifted_lowMask_and,
    BitVec.and_comm (_ ||| _), BitVec.and_or_distrib_left, BitVec.and_comm curMask,
    BitVec.and_comm (P.insn j) (_ <<< _)]

variable (file writes insn) in
/-- **The emitted code goes where the table decoder goes.** -/
theorem generate_walk (hW : 32 ≤ W) (hP : ∀ j, P.insnMask j &&& P.insn j = P.insn j)
    {d a e fuel fuel' : ℕ} {C : List ℕ} (hd : d ≤ fuel) (hd' : d ≤ fuel')
    (he : e ≤ maxAutomataSize) (hC : ∀ j ∈ C, j < 2 ^ 31) (h : Covers P mem d a e C)
    (curMask : BitVec W) (hcur : ∀ j ∈ C, curMask &&& insn.setWidth W = curMask &&& P.insn j) :
    ∃ r as, decodeFrom P mem insn fuel a = some r ∧
      execFrom insn none (generateBody file writes P mem fuel' a curMask) = (as, false) ∧
      Walk file writes P C insn (endsInHole mem insn fuel a) r as := by
  induction d generalizing a e fuel fuel' C curMask with
  | zero => exact h.elim
  | succ d ih =>
    obtain ⟨fuel, rfl⟩ : ∃ k, fuel = k + 1 := ⟨fuel - 1, by omega⟩
    obtain ⟨fuel', rfl⟩ : ∃ k, fuel' = k + 1 := ⟨fuel' - 1, by omega⟩
    rcases h with ⟨j, rfl, -, hcell⟩ | ⟨first, len, hfl, hlen, hle, hfirst, hmask, hfix, hkids⟩
    · have hj := hC j (List.mem_singleton_self j)
      have hleaf : ¬mem a &&& leafFlag W = 0 := by
        rw [hcell]
        exact leaf_and_leafFlag hW _
      have hdecode : decodeFrom P mem insn (fuel + 1) a =
          some (if P.Matches insn j then (j : ℤ) else -1) := by
        rw [decodeFrom, if_neg hleaf]
        simp only [hcell, toNat_leaf_index hW hj]
        rw [apply_ite some]
        rfl
      rw [endsInHole, if_neg hleaf]
      refine ⟨_, _, hdecode, ?_, .leaf j (List.mem_singleton_self j)⟩
      rw [generateBody, if_neg hleaf]
      simp only [hcell, toNat_leaf_index hW hj]
      split
      case isTrue =>
        rw [execFrom_none_cons, Stmt.exec, execFrom_outputCall, execFrom_outputInvalid]
        by_cases hlow : LowMatches P insn j
        · rw [if_pos hlow, if_pos (show _ = _ from hlow)]
          simp [execFrom]
        · rw [if_neg hlow, if_neg (show ¬_ = _ from hlow)]
          simp [execFrom]
      case isFalse hmask =>
        -- The fields looked at are all the fixed bits, so the word matches.
        have hmatch : P.Matches insn j := by
          have := hcur j (List.mem_singleton_self j)
          rwa [← not_not.1 hmask, hP] at this
        rw [execFrom_outputCall, if_pos (lowMatches_of_matches hW hmatch)]
    · have hlt : first < 2 ^ 31 := lt_of_le_of_lt (by omega) (by decide : 32 < 2 ^ 31)
      have hnode : mem a &&& leafFlag W = 0 := by
        rw [hfirst]
        exact node_and_leafFlag hW hlt
      have hnum : ((BitVec.ofNat W first).setWidth 32).toNat = first := by
        rw [BitVec.toNat_setWidth, toNat_ofNat_of_lt hW (by omega), Nat.mod_eq_of_lt (by omega)]
      have hlen8 : maxLen = 8 := rfl
      have hcount : (Bits.lowMask W len).toNat + 1 = 2 ^ len := by
        rw [Bits.toNat_lowMask (by omega)]
        have := Nat.two_pow_pos len
        omega
      have hpow : 2 ^ len ≤ 2 ^ 32 := Nat.pow_le_pow_right (by decide) (by omega)
      have hidx : ((insn >>> first).setWidth W &&& Bits.lowMask W len).toNat < 2 ^ len := by
        rw [Bits.toNat_and_lowMask _ (by omega)]
        exact Nat.mod_lt _ (Nat.two_pow_pos len)
      rw [decodeFrom, if_pos hnode, endsInHole, if_pos hnode, generateBody, if_pos hnode,
        execFrom_none_cons, Stmt.exec]
      simp only [hfirst, hmask, hnum, hcount, Bool.false_eq_true, if_false,
        toNat_ofNat_of_lt hW (by omega : first < 2 ^ 32)]
      rw [switch_value hW (by omega)]
      have hnil : execFrom insn none [] = ([], false) := by rw [execFrom]
      rcases hkids _ hidx with ⟨-, hcell⟩ | ⟨b, e', hb, he', hcell, hkid⟩
      · rw [execFrom_generateCases (fun c v => generateBody_not_case _ _ _ v) [] false
          (Nat.zero_le _) (by omega) (by omega) fun hne => absurd hcell hne]
        rw [if_pos hcell, if_pos hcell, if_pos hcell, hnil]
        exact ⟨_, _, rfl, rfl, .hole⟩
      · have hbe := covers_lt hkid
        have hmax : maxAutomataSize = 1200 := rfl
        have hcellNat : (BitVec.ofNat W b).toNat = b := toNat_ofNat_of_lt hW (by omega)
        have hne : BitVec.ofNat W b ≠ 0 := ofNat_ne_zero hW (by omega) (by omega)
        have hsub : ∀ j ∈ child P C first len
            ((insn >>> first).setWidth W &&& Bits.lowMask W len).toNat, j ∈ C :=
          fun j hj => (List.mem_filter.1 hj).1
        obtain ⟨r, as, hr, has, hwalk⟩ :=
          ih (by omega : d ≤ fuel) (by omega : d ≤ fuel') (by omega) (fun j hj => hC j (hsub j hj))
            hkid (curMask ||| Bits.lowMask W len <<< first) fun j hj =>
              path_step hW (hcur j (hsub j hj)) (of_decide_eq_true (List.mem_filter.1 hj).2)
        rw [execFrom_generateCases (fun c v => generateBody_not_case _ _ _ v) as false
          (Nat.zero_le _) (by omega) (by omega) fun _ => by rw [hcell, hcellNat]; exact has]
        rw [hcell, if_neg hne, if_neg hne, if_neg hne, hcellNat, hnil]
        exact ⟨r, as, hr, by rw [List.append_nil], hwalk.mono hsub⟩

end Walk

/-! ### The whole decoder -/

section Table

variable {W : ℕ} (writes : ℕ → Bool)

theorem ofEncodings_insn_le (W : ℕ) (encs : List Encoding) (j : ℕ) :
    (Patterns.ofEncodings W encs).insnMask j &&& (Patterns.ofEncodings W encs).insn j =
      (Patterns.ofEncodings W encs).insn j := by
  apply BitVec.eq_of_getLsbD_eq
  intro i _
  simp only [Patterns.ofEncodings, BitVec.getLsbD_and, BitVec.getLsbD_or]
  cases (insnExtract W '1' (encs.getD j [])).getLsbD i <;> simp

theorem generated_walk (file : InFile) (hW : 32 ≤ W) {encs : List Encoding}
    {junk automata : ℕ → BitVec W}
    (h : buildAutomata (Patterns.ofEncodings W encs) junk = .ok automata) (insn : BitVec 32) :
    ∃ r, insnDecode (Patterns.ofEncodings W encs) automata insn = some r ∧
      Walk file writes (Patterns.ofEncodings W encs) (List.range encs.length) insn
        (endsInHole automata insn maxAutomataSize 0) r
        (generated file writes (Patterns.ofEncodings W encs) automata insn) := by
  obtain ⟨e, hnum, hsize, htree⟩ := covers_of_buildAutomata hW h
  have hmax : maxAutomataSize = 1200 := rfl
  have hnum' : (Patterns.ofEncodings W encs).num = encs.length := rfl
  have hsmall : ∀ j ∈ List.range encs.length, j < 2 ^ 31 := by
    intro j hj
    have := List.mem_range.1 hj
    omega
  obtain ⟨r, as, hr, has, hwalk⟩ := generate_walk file writes insn hW
    (ofEncodings_insn_le W encs) (by decide : coverDepth ≤ maxAutomataSize)
    (by decide : coverDepth ≤ maxAutomataSize) hsize hsmall htree 0 fun j _ => by simp
  refine ⟨r, hr, ?_⟩
  rw [generated, has]
  exact hwalk

/-- The emitted code does with a word what the table decoder says: it executes the instruction
that is returned, and no other, and it does what is in `invalid` exactly if none is. -/
def Meets (P : Patterns W) (automata : ℕ → BitVec W) (invalid : List Action) (insn : BitVec 32) :
    Prop :=
  ∃ r, insnDecode P automata insn = some r ∧
    (∀ i : ℕ, .body i ∈ generated insnset writes P automata insn ↔ r = i) ∧
    ((∃ a ∈ invalid, a ∈ generated insnset writes P automata insn) ↔ r = -1)

theorem meets_iff {P : Patterns W} {automata : ℕ → BitVec W} {invalid : List Action}
    {insn : BitVec 32} {r : ℤ} (h : insnDecode P automata insn = some r) :
    Meets writes P automata invalid insn ↔
      (∀ i : ℕ, .body i ∈ generated insnset writes P automata insn ↔ r = i) ∧
        ((∃ a ∈ invalid, a ∈ generated insnset writes P automata insn) ↔ r = -1) := by
  simp only [Meets, h, Option.some.injEq, exists_eq_left']

theorem mem_repairActions {a : Action} {j : ℕ} (h : a ∈ repairActions writes j) : a = .repair := by
  unfold repairActions at h
  split at h
  · exact List.mem_singleton.1 h
  · cases h

theorem mem_invalidActions {a : Action} {j : ℕ} (h : a ∈ invalidActions insnset writes j) :
    a = .repair := mem_repairActions writes h

/-- **The emitted code does what the table decoder says** exactly for the words that match an entry
of the table: what the others lead to never calls `l_invalid`.  The exception that is raised for a
field value without instructions may count as well. -/
theorem generated_meets_iff (hW : 32 ≤ W) {encs : List Encoding} {junk automata : ℕ → BitVec W}
    (h : buildAutomata (Patterns.ofEncodings W encs) junk = .ok automata) (insn : BitVec 32) :
    (Meets writes (Patterns.ofEncodings W encs) automata [.lInvalid] insn ↔
      ∃ j < encs.length, (Patterns.ofEncodings W encs).Matches insn j) ∧
    (Meets writes (Patterns.ofEncodings W encs) automata [.lInvalid, .illegal] insn ↔
      (∃ j < encs.length, (Patterns.ofEncodings W encs).Matches insn j) ∨
        endsInHole automata insn maxAutomataSize 0 = true) := by
  obtain ⟨r, hr, hwalk⟩ := generated_walk writes insnset hW h insn
  obtain ⟨r', hr', -, hall⟩ := insnDecode_spec hW h insn
  obtain rfl : r = r' := Option.some.inj (hr.symm.trans hr')
  rw [meets_iff writes hr, meets_iff writes hr]
  generalize generated insnset writes (Patterns.ofEncodings W encs) automata insn = acts at hwalk
  generalize endsInHole automata insn maxAutomataSize 0 = hole at hwalk
  have hnone : r = -1 → ¬∃ j < encs.length, (Patterns.ofEncodings W encs).Matches insn j := by
    rintro rfl ⟨j, hj, hm⟩
    have := hall j hj hm
    omega
  cases hwalk with
  | hole =>
    have hno := hnone rfl
    refine ⟨iff_of_false ?_ hno, iff_of_true ?_ (.inr rfl)⟩
    · simp
    · refine ⟨fun i => iff_of_false (by simp) (by omega), by simp⟩
  | leaf j hj =>
    by_cases hm : (Patterns.ofEncodings W encs).Matches insn j
    · have hex : ∃ j < encs.length, (Patterns.ofEncodings W encs).Matches insn j :=
        ⟨j, List.mem_range.1 hj, hm⟩
      rw [if_pos hm, if_pos (lowMatches_of_matches hW hm)]
      have hbody : ∀ i : ℕ, .body i ∈ .body j :: repairActions writes j ↔ (j : ℤ) = i := by
        intro i
        rw [List.mem_cons]
        constructor
        · rintro (he | he)
          · cases he
            rfl
          · exact nomatch mem_repairActions writes he
        · intro he
          exact .inl (by rw [Int.ofNat_inj.1 he])
      have hinvalid : ∀ a : Action, a = .lInvalid ∨ a = .illegal →
          a ∉ .body j :: repairActions writes j := by
        rintro a ha hmem
        rcases List.mem_cons.1 hmem with rfl | hmem
        · rcases ha with ha | ha <;> cases ha
        · rw [mem_repairActions writes hmem] at ha
          rcases ha with ha | ha <;> cases ha
      refine ⟨iff_of_true ⟨hbody, iff_of_false ?_ (by omega)⟩ hex,
        iff_of_true ⟨hbody, iff_of_false ?_ (by omega)⟩ (.inl hex)⟩
      · rintro ⟨a, ha, hmem⟩
        exact hinvalid a (.inl (List.mem_singleton.1 ha)) hmem
      · rintro ⟨a, ha, hmem⟩
        exact hinvalid a (by simpa using ha) hmem
    · rw [if_neg hm] at hnone ⊢
      have hno := hnone rfl
      have hfail : ∀ invalid : List Action, .repair ∉ invalid →
          ¬((∀ i : ℕ, .body i ∈ (if LowMatches (Patterns.ofEncodings W encs) insn j then
              .body j :: repairActions writes j else invalidActions insnset writes j) ↔
              (-1 : ℤ) = i) ∧
            ((∃ a ∈ invalid, a ∈ (if LowMatches (Patterns.ofEncodings W encs) insn j then
              .body j :: repairActions writes j else invalidActions insnset writes j)) ↔
              (-1 : ℤ) = -1)) := by
        rintro invalid hrepair ⟨hbody, hinvalid⟩
        split at hbody
        · have := (hbody j).1 (.head _)
          omega
        case isFalse hlow =>
          rw [if_neg hlow] at hinvalid
          obtain ⟨a, ha, hmem⟩ := hinvalid.2 rfl
          exact hrepair (mem_invalidActions writes hmem ▸ ha)
      refine ⟨iff_of_false (hfail _ (by simp)) hno, iff_of_false (hfail _ (by simp)) ?_⟩
      simpa using hno

/-- Two encodings, and a word that matches the first. -/
theorem generated_meets_first :
    ∃ automata,
      buildAutomata (Patterns.ofEncodings 32 [['0', 'A'], ['1', '1']]) (fun _ => 0) = .ok automata ∧
      Meets (fun _ => false) (Patterns.ofEncodings 32 [['0', 'A'], ['1', '1']]) automata [.lInvalid]
        0x40000000 := by
  obtain ⟨automata, h⟩ : ∃ automata, buildAutomata
      (Patterns.ofEncodings 32 [['0', 'A'], ['1', '1']]) (fun _ => 0) = .ok automata := ⟨_, rfl⟩
  exact ⟨automata, h, (generated_meets_iff (fun _ => false) (le_refl 32) h 0x40000000).1.2
    ⟨0, by decide, by decide⟩⟩

/-- A word that fails the comparison of the second is no instruction to the table decoder, and
nothing happens. -/
theorem generated_not_invalid :
    ∃ automata,
      buildAutomata (Patterns.ofEncodings 32 [['0', 'A'], ['1', '1']]) (fun _ => 0) = .ok automata ∧
      insnDecode (Patterns.ofEncodings 32 [['0', 'A'], ['1', '1']]) automata 0x80000000 =
        some (-1) ∧
      generated insnset (fun _ => false) (Patterns.ofEncodings 32 [['0', 'A'], ['1', '1']]) automata
        0x80000000 = [] :=
  ⟨_, rfl, by decide +kernel, by decide +kernel⟩

end Table

/-! ### The decoder of the opcode table -/

section Opcodes

variable (haveUnsignedXori : Bool) (writes : ℕ → Bool)

/-- The automaton of the opcode table. -/
def automaton : ℕ → BitVec 32 :=
  (buildAutomata (Patterns.ofEncodings 32 (encodings haveUnsignedXori)) fun _ => 0).toOption.getD
    fun _ => 0

theorem eq_ok_getD {ε α : Type} {x : Except ε α} (d : α) (h : ∃ a, x = .ok a) :
    x = .ok (x.toOption.getD d) := by
  obtain ⟨a, rfl⟩ := h
  rfl

theorem buildAutomata_automaton :
    buildAutomata (Patterns.ofEncodings 32 (encodings haveUnsignedXori)) (fun _ => 0) =
      .ok (automaton haveUnsignedXori) :=
  eq_ok_getD _ (opcodes_accepted haveUnsignedXori (.inl rfl) _)

/-- What the decoder emitted for the opcode table does with a word. -/
def decoderActions (insn : BitVec 32) : List Action :=
  generated insnset writes (Patterns.ofEncodings 32 (encodings haveUnsignedXori))
    (automaton haveUnsignedXori) insn

variable {haveUnsignedXori}

theorem decoderActions_walk (insn : BitVec 32) :
    ∃ hole r, Walk insnset writes (Patterns.ofEncodings 32 (encodings haveUnsignedXori))
        (List.range (encodings haveUnsignedXori).length) insn hole r
        (decoderActions haveUnsignedXori writes insn) ∧
      decodeInsn haveUnsignedXori insn =
        if r = -1 then none else (opcodes haveUnsignedXori)[r.toNat]? := by
  have hbuild := buildAutomata_automaton haveUnsignedXori
  obtain ⟨r, hr, hwalk⟩ := generated_walk writes insnset (le_refl 32) hbuild insn
  obtain ⟨r', hr', hdec⟩ := insnDecode_opcodes insn hbuild
  obtain rfl : r = r' := Option.some.inj (hr.symm.trans hr')
  exact ⟨_, r, hwalk, hdec⟩

variable {insn : BitVec 32}

/-- A word that matches a row executes it. -/
theorem decoderActions_of_some {o : Opcode} (h : decodeInsn haveUnsignedXori insn = some o) :
    ∃ i, (opcodes haveUnsignedXori)[i]? = some o ∧
      decoderActions haveUnsignedXori writes insn = .body i :: repairActions writes i := by
  obtain ⟨hole, r, hwalk, hdec⟩ := decoderActions_walk writes insn
  rw [h] at hdec
  generalize decoderActions haveUnsignedXori writes insn = acts at hwalk
  cases hwalk with
  | hole => cases hdec
  | leaf j hj =>
    by_cases hm : (Patterns.ofEncodings 32 (encodings haveUnsignedXori)).Matches insn j
    · rw [if_pos hm, if_neg (by omega), Int.toNat_natCast] at hdec
      exact ⟨j, hdec.symm, if_pos (lowMatches_of_matches (le_refl 32) hm)⟩
    · rw [if_neg hm] at hdec
      cases hdec

/-- Any other word raises an exception or does nothing but clear register zero. -/
theorem decoderActions_of_none (h : decodeInsn haveUnsignedXori insn = none) :
    decoderActions haveUnsignedXori writes insn = [.illegal] ∨
      ∃ i, decoderActions haveUnsignedXori writes insn = repairActions writes i := by
  obtain ⟨hole, r, hwalk, hdec⟩ := decoderActions_walk writes insn
  rw [h] at hdec
  generalize decoderActions haveUnsignedXori writes insn = acts at hwalk
  cases hwalk with
  | hole => exact .inl rfl
  | leaf j hj =>
    refine .inr ⟨j, if_neg fun hlow => ?_⟩
    have hm : (Patterns.ofEncodings 32 (encodings haveUnsignedXori)).Matches insn j := by
      rwa [LowMatches, BitVec.setWidth_eq, BitVec.setWidth_eq, BitVec.and_comm] at hlow
    rw [if_pos hm, if_neg (by omega), Int.toNat_natCast] at hdec
    rw [List.getElem?_eq_getElem (by simpa [encodings] using List.mem_range.1 hj)] at hdec
    cases hdec

end Opcodes

end Insn
end Or1ksim
