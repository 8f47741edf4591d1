import Or1ksim.Cuc.Partition
import Or1ksim.Cuc.RegDep

/-!
# Stack slots as wires

`detect_locals` of `cuc/load.c`: stores to the stack frame become moves, and a load becomes a move
of what the last store in front of it in the text has moved.

* `detectLocals` — the pass, a scan over the instructions with the stores that it has met;
* `lastStore`, `detectLocals_insn` — what an instruction has become;
* `slotStores`, `lastStored` — the words that a run has stored, and what it has stored in one last;
* `valueAfter_promoted` — **a load that has become a move yields what the last store to its slot in
  the text has stored last**.
-/

namespace Or1ksim
namespace Cuc

variable {W : ℕ}

/-! ### The pass -/

/-- `CUC_MAX_STACK` -/
def cucMaxStack : ℕ := 0x1000

/-- The operand is the stack pointer. -/
def Operand.isStack : Operand W → Bool
  | .register r | .dest r => decide (r = 1)
  | _ => false

/-- The offset of `sw off (r1),rx`. -/
def Insn.localStore (ii : Insn W) : Option (BitVec W) :=
  match ii.index, ii.op 0 with
  | .sw, .const off => if (ii.op 1).isStack then some off else none
  | _, _ => none

/-- The offset of `lw rx,off (r1)`. -/
def Insn.localLoad (ii : Insn W) : Option (BitVec W) :=
  match ii.index, ii.op 1 with
  | .lw, .const off => if (ii.op 2).isStack then some off else none
  | _, _ => none

/-- A move: the flags that are left are those of the delay slots and of the blocks. -/
def moveInsn (op : OperandNo → Operand W) : Insn W :=
  { (nopInsn : Insn W) with index := .add, op := op }

/-- The move that a store becomes. -/
def storeMove (ii : Insn W) : Insn W :=
  moveInsn ![.dest (-1), ii.op 2, .const 0, ii.op 3, ii.op 4]

/-- The move that a load becomes. -/
def loadMove (ii : Insn W) (q : ℕ) : Insn W :=
  moveInsn ![ii.op 0, .ref ⟨0, q⟩, .const 0, ii.op 3, ii.op 4]

/-- What `detect_locals` makes of an instruction. -/
def promoteLocal (stack : BitVec W → Option ℕ) (ii : Insn W) : Insn W :=
  match ii.localStore with
  | some off => if off.toNat < cucMaxStack then storeMove ii else ii
  | none =>
    match ii.localLoad with
    | some off =>
      if off.toNat < cucMaxStack then (stack off).elim ii fun q => loadMove ii q else ii
    | none => ii

/-- The state of the scan: the instructions, and `stack`. -/
structure LocalsScan (W : ℕ) where
  insn : ℕ → Insn W
  stack : BitVec W → Option ℕ

/-- The loop body of `detect_locals`. -/
def LocalsScan.step (s : LocalsScan W) (i : ℕ) : LocalsScan W where
  insn := Function.update s.insn i (promoteLocal s.stack (s.insn i))
  stack :=
    match (s.insn i).localStore with
    | some off => if off.toNat < cucMaxStack then Function.update s.stack off (some i) else s.stack
    | none => s.stack

namespace Code

/-- The scan of the first `n` instructions. -/
def localsScan (c : Code W) (n : ℕ) : LocalsScan W :=
  (List.range n).foldl LocalsScan.step ⟨c.insn, fun _ => none⟩

/-- `detect_locals` -/
def detectLocals (c : Code W) : Code W := { c with insn := (c.localsScan c.num).insn }

/-- The last store to a slot in front of instruction `i`. -/
def lastStore (c : Code W) (off : BitVec W) : ℕ → Option ℕ
  | 0 => none
  | i + 1 => if (c.insn i).localStore = some off then some i else c.lastStore off i

/-- The load that becomes a move of what instruction `q` has moved. -/
def PromotedTo (c : Code W) (i : ℕ) (off : BitVec W) (q : ℕ) : Prop :=
  i < c.num ∧ (c.insn i).localLoad = some off ∧ off.toNat < cucMaxStack ∧ c.lastStore off i = some q

end Code

/-! ### What the instructions become -/

section Scan

variable {c : Code W} {off : BitVec W} {i j q n : ℕ}

theorem lastStore_spec (h : c.lastStore off i = some q) :
    q < i ∧ (c.insn q).localStore = some off := by
  induction i with
  | zero => cases h
  | succ i ih =>
    rw [Code.lastStore] at h
    split_ifs at h with hstore
    · obtain rfl := Option.some.inj h
      exact ⟨Nat.lt_succ_self _, hstore⟩
    · exact ⟨(ih h).1.trans i.lt_succ_self, (ih h).2⟩

theorem localStore_of_localLoad {ii : Insn W} (h : ii.localLoad = some off) :
    ii.localStore = none := by
  unfold Insn.localLoad at h
  split at h
  next hindex _ =>
    unfold Insn.localStore
    rw [hindex]
  next => cases h

/-- What becomes of one instruction. -/
def Code.promoted (c : Code W) (i : ℕ) : Insn W :=
  promoteLocal (fun off => c.lastStore off i) (c.insn i)

theorem promoteLocal_congr {stack stack' : BitVec W → Option ℕ} (ii : Insn W)
    (h : ∀ off, off.toNat < cucMaxStack → stack off = stack' off) :
    promoteLocal stack ii = promoteLocal stack' ii := by
  unfold promoteLocal
  split
  · rfl
  · split
    next off _ =>
      split_ifs with hoff
      · rw [h off hoff]
      · rfl
    next => rfl

/-- **The scan**: the first instructions are promoted, and `stack` has the last stores. -/
theorem localsScan_spec (c : Code W) (n : ℕ) :
    (∀ j, (c.localsScan n).insn j = if j < n then c.promoted j else c.insn j) ∧
      ∀ off : BitVec W, off.toNat < cucMaxStack →
        (c.localsScan n).stack off = c.lastStore off n := by
  induction n with
  | zero => exact ⟨fun j => rfl, fun off _ => rfl⟩
  | succ n ih =>
    obtain ⟨hinsn, hstack⟩ := ih
    -- The scan has not come to instruction `n` yet, so it finds it as it was.
    have hn : (c.localsScan n).insn n = c.insn n := (hinsn n).trans (if_neg (lt_irrefl n))
    have hsucc : c.localsScan (n + 1) = (c.localsScan n).step n := by
      rw [Code.localsScan, List.range_succ, List.foldl_append]
      rfl
    rw [hsucc]
    constructor
    · intro j
      dsimp only [LocalsScan.step]
      by_cases hj : j = n
      · subst hj
        rw [Function.update_self, hn, if_pos j.lt_succ_self]
        exact promoteLocal_congr (c.insn j) hstack
      · rw [Function.update_of_ne hj, hinsn j]
        exact if_congr (by omega) rfl rfl
    · intro off hoff
      rw [Code.lastStore, ← hstack off hoff]
      dsimp only [LocalsScan.step]
      rw [hn]
      cases (c.insn n).localStore with
      | none => rfl
      | some off' =>
        by_cases heq : off' = off
        · subst heq
          dsimp only
          rw [if_pos rfl, if_pos hoff, Function.update_self]
        · rw [if_neg fun he => heq (Option.some.inj he)]
          dsimp only
          split_ifs
          · exact Function.update_of_ne (Ne.symm heq) _ _
          · rfl

theorem detectLocals_insn (hi : i < c.num) : c.detectLocals.insn i = c.promoted i :=
  ((localsScan_spec c c.num).1 i).trans (if_pos hi)

theorem detectLocals_store (hi : i < c.num) (h : (c.insn i).localStore = some off)
    (hoff : off.toNat < cucMaxStack) : c.detectLocals.insn i = storeMove (c.insn i) := by
  rw [detectLocals_insn hi, Code.promoted, promoteLocal, h]
  exact if_pos hoff

theorem promoted_load (h : (c.insn i).localLoad = some off) :
    c.promoted i = if off.toNat < cucMaxStack then
      (c.lastStore off i).elim (c.insn i) fun q => loadMove (c.insn i) q else c.insn i := by
  rw [Code.promoted, promoteLocal, localStore_of_localLoad h, h]

/-- A load becomes a move if a store to its slot is in front of it. -/
theorem detectLocals_load (h : c.PromotedTo i off q) :
    c.detectLocals.insn i = loadMove (c.insn i) q := by
  obtain ⟨hi, hload, hoff, hstore⟩ := h
  rw [detectLocals_insn hi, promoted_load hload, if_pos hoff, hstore]
  rfl

theorem promotedTo_of_ne (hload : (c.insn i).localLoad = some off)
    (hne : c.detectLocals.insn i ≠ c.insn i) : ∃ q, c.PromotedTo i off q := by
  have hi : i < c.num := by
    by_contra hi
    exact hne (((localsScan_spec c c.num).1 i).trans (if_neg hi))
  rw [detectLocals_insn hi, promoted_load hload] at hne
  split_ifs at hne with hoff
  · cases hstore : c.lastStore off i with
    | none =>
      rw [hstore] at hne
      exact absurd rfl hne
    | some q => exact ⟨q, hi, hload, hoff, hstore⟩
  · exact absurd rfl hne

end Scan

/-! ### Runs -/

/-- The inputs of a run, with the words in memory before it. -/
structure FrameEnv extends PathEnv where
  word : Word → Word

namespace Code

/-- A path through the instructions from the first one, the latest first. -/
inductive Path (c : Code W) : List ℕ → Prop where
  | start : Path c [0]
  | step {i j : ℕ} {is : List ℕ} : Path c (i :: is) → c.Next i j → Path c (j :: i :: is)

/-- The instructions as a function of one block. -/
def func (c : Code W) : Func W where
  numBb := 1
  dead := fun _ => false
  ninsn := fun _ => c.num
  insn r := c.insn r.i

/-- What the instructions have computed along a path. -/
def trace (c : Code W) (env : PathEnv) : List ℕ → Trace
  | [] => []
  | i :: is =>
    let tr := c.trace env is
    (⟨0, i⟩, sourceValue c.func env (env.block is.length false) tr ⟨0, i⟩) :: tr

/-- What instruction `i` computes after a path. -/
def valueAfter (c : Code W) (env : PathEnv) (is : List ℕ) (i : ℕ) : Word :=
  sourceValue c.func env (env.block is.length false) (c.trace env is) ⟨0, i⟩

/-- The value of an operand after a path. -/
def operandAfter (c : Code W) (env : PathEnv) (is : List ℕ) (o : Operand W) : Word :=
  sourceOperand c.func env (c.trace env is) o

/-- The address of a slot after a path: words are aligned, so that no two of them overlap. -/
def slotAfter (c : Code W) (env : PathEnv) (is : List ℕ) (off : BitVec W) : Word :=
  c.operandAfter env is (.register 1) + low off

end Code

/-- A word that a run has stored. -/
structure SlotStore where
  insn : ℕ
  addr : Word
  value : Word

/-- The words of the stack frame that the stores of `c` have stored in a run of what has become of
`c`, the latest first. -/
def Code.slotStores (c : Code W) (env : PathEnv) : List ℕ → List SlotStore
  | [] => []
  | i :: is =>
    match (c.insn i).localStore with
    | some off =>
      ⟨i, c.detectLocals.slotAfter env is off,
        c.detectLocals.operandAfter env is ((c.insn i).op 2)⟩ :: c.slotStores env is
    | none => c.slotStores env is

/-- The value most recently stored at an address. -/
def Code.lastStored (c : Code W) (env : FrameEnv) (is : List ℕ) (addr : Word) : Word :=
  (((c.slotStores env.toPathEnv is).find? fun w => w.addr == addr).map SlotStore.value).getD
    (env.word addr)

/-- The value that a store has stored last. -/
def Code.storedBy (c : Code W) (env : FrameEnv) (is : List ℕ) (q : ℕ) : Word :=
  (((c.slotStores env.toPathEnv is).find? fun w => w.insn == q).map SlotStore.value).getD
    (env.init ⟨0, q⟩)

section Values

variable {c : Code W} {env : PathEnv} {is : List ℕ} {off : BitVec W} {i q : ℕ}

theorem add_low_zero (x : Word) : x + low (0 : BitVec W) = x := by
  rw [low_zero]
  exact BitVec.add_zero x

theorem valueAfter_storeMove {d : Code W} {ii : Insn W} (h : d.insn i = storeMove ii) :
    d.valueAfter env is i = d.operandAfter env is (ii.op 2) := by
  unfold Code.valueAfter sourceValue Code.func
  dsimp only
  rw [h]
  exact add_low_zero _

theorem valueAfter_loadMove {d : Code W} {ii : Insn W} (h : d.insn i = loadMove ii q) :
    d.valueAfter env is i = lastOf env (d.trace env is) ⟨0, q⟩ := by
  unfold Code.valueAfter sourceValue Code.func
  dsimp only
  rw [h]
  exact add_low_zero _

/-- The wire of a store has what it has stored last, by induction on the path. -/
theorem lastOf_store {env : FrameEnv} (hq : q < c.num) (hstore : (c.insn q).localStore = some off)
    (hoff : off.toNat < cucMaxStack) :
    lastOf env.toPathEnv (c.detectLocals.trace env.toPathEnv is) ⟨0, q⟩ = c.storedBy env is q := by
  unfold lastOf Code.storedBy
  refine congrArg (Option.getD · (env.init ⟨0, q⟩)) ?_
  -- The path is listed backwards: its head is what has been executed last.
  induction is with
  | nil => rfl
  | cons i is ih =>
    by_cases hi : i = q
    · subst hi
      simp only [Code.trace, Code.slotStores, hstore, List.find?_cons_of_pos, beq_self_eq_true,
        Option.map_some]
      exact congrArg some (valueAfter_storeMove (detectLocals_store hq hstore hoff))
    · have hne : ((⟨0, i⟩ : Ref) == ⟨0, q⟩) = false := by
        rw [beq_eq_false_iff_ne]
        exact fun he => hi (congrArg Ref.i he)
      rw [Code.trace, List.find?_cons_of_neg (by simpa using hne), ih, Code.slotStores]
      split
      · rw [List.find?_cons_of_neg (by simpa using hi)]
      · rfl

end Values

/-! ### Loads that have become moves -/

/-- Every load that has become a move yields the value stored last at its address. -/
def LocalsSound (c : Code W) (env : FrameEnv) (is : List ℕ) : Prop :=
  ∀ i js off, (i :: js) <:+ is → (c.insn i).localLoad = some off →
    c.detectLocals.insn i ≠ c.insn i →
      c.detectLocals.valueAfter env.toPathEnv js i =
        c.lastStored env js (c.detectLocals.slotAfter env.toPathEnv js off)

/-- The store at `q` has stored the word at an address, and nothing since then. -/
def Code.StoredLast (c : Code W) (env : PathEnv) (js : List ℕ) (q : ℕ) (addr : Word) : Prop :=
  ∃ w, (c.slotStores env js).find? (fun w => w.addr == addr) = some w ∧
    (c.slotStores env js).find? (fun w => w.insn == q) = some w

/-- At every load that becomes a move the last store in the text is the last one of the run, or has
stored the same value. -/
def TextOrder (c : Code W) (env : FrameEnv) (is : List ℕ) : Prop :=
  ∀ i js off q, (i :: js) <:+ is → c.PromotedTo i off q →
    c.StoredLast env.toPathEnv js q (c.detectLocals.slotAfter env.toPathEnv js off) ∨
      c.storedBy env js q = c.lastStored env js (c.detectLocals.slotAfter env.toPathEnv js off)

theorem valueAfter_promoted {c : Code W} {i q : ℕ} {off : BitVec W} (env : FrameEnv) (js : List ℕ)
    (h : c.PromotedTo i off q) :
    c.detectLocals.valueAfter env.toPathEnv js i = c.storedBy env js q := by
  obtain ⟨hlt, hstore⟩ := lastStore_spec h.2.2.2
  rw [valueAfter_loadMove (detectLocals_load h)]
  exact lastOf_store (hlt.trans h.1) hstore h.2.2.1

end Cuc
end Or1ksim
