import Or1ksim.Cuc.Locals

/-!
# The stack frame

The instructions as they are store words in a stack frame and load them again.

* `Code.frameRun` — a run of the instructions with the frame;
* `FrameSound`, `FrameOrder` — every load that becomes a move yields the word of the frame, and the
  last store to its slot in the text is the last one of the run;
* `frameRun_spec` — what has become of the instructions computes the same as long as it is sound;
* `localsSound_iff` — **a load yields the word that was stored last exactly if the last store in the
  text is the last one of the run**, or has stored the same.
-/

namespace Or1ksim
namespace Cuc

variable {W : ℕ}

/-! ### Runs with a frame -/

/-- A run of the instructions as they are: what they have computed, and the words that they have
stored in the frame, the latest first. -/
structure FrameRun where
  trace : Trace
  stores : List SlotStore

namespace FrameRun

/-- The value of an operand. -/
def operand (s : FrameRun) (c : Code W) (env : FrameEnv) (o : Operand W) : Word :=
  sourceOperand c.func env.toPathEnv s.trace o

/-- The address of a slot. -/
def slot (s : FrameRun) (c : Code W) (env : FrameEnv) (off : BitVec W) : Word :=
  s.operand c env (.register 1) + low off

/-- The word of the frame at an address. -/
def word (s : FrameRun) (env : FrameEnv) (addr : Word) : Word :=
  ((s.stores.find? fun w => w.addr == addr).map SlotStore.value).getD (env.word addr)

/-- The word that the store at `q` has stored last. -/
def storedBy (s : FrameRun) (env : FrameEnv) (q : ℕ) : Word :=
  ((s.stores.find? fun w => w.insn == q).map SlotStore.value).getD (env.init ⟨0, q⟩)

/-- The store at `q` has stored the word at an address, and nothing since then. -/
def StoredLast (s : FrameRun) (q : ℕ) (addr : Word) : Prop :=
  ∃ w, s.stores.find? (fun w => w.addr == addr) = some w ∧
    s.stores.find? (fun w => w.insn == q) = some w

end FrameRun

/-- What a store to the frame stores, a load reads and another instruction computes as the `t`-th of
a run.  Accesses that do not become moves go to the memory of the inputs. -/
def Code.frameValue (c : Code W) (env : FrameEnv) (t : ℕ) (s : FrameRun) (i : ℕ) : Word :=
  let other := sourceValue c.func env.toPathEnv (env.block t false) s.trace ⟨0, i⟩
  match (c.insn i).localStore with
  | some off =>
    if i < c.num ∧ off.toNat < cucMaxStack then s.operand c env ((c.insn i).op 2) else other
  | none =>
    match (c.insn i).localLoad with
    | some off =>
      if i < c.num ∧ off.toNat < cucMaxStack ∧ (c.lastStore off i).isSome then
        s.word env (s.slot c env off)
      else other
    | none => other

/-- A run along a path. -/
def Code.frameRun (c : Code W) (env : FrameEnv) : List ℕ → FrameRun
  | [] => ⟨[], []⟩
  | i :: is =>
    let s := c.frameRun env is
    { trace := (⟨0, i⟩, c.frameValue env is.length s i) :: s.trace
      stores :=
        match (c.insn i).localStore with
        | some off => ⟨i, s.slot c env off, s.operand c env ((c.insn i).op 2)⟩ :: s.stores
        | none => s.stores }

/-- Every load that has become a move yields the word of the frame. -/
def FrameSound (c : Code W) (env : FrameEnv) (is : List ℕ) : Prop :=
  ∀ i js off q, (i :: js) <:+ is → c.PromotedTo i off q →
    c.detectLocals.valueAfter env.toPathEnv js i =
      (c.frameRun env js).word env ((c.frameRun env js).slot c env off)

/-- At every load that becomes a move the last store in the text is the last one of the run, or has
stored the same value. -/
def FrameOrder (c : Code W) (env : FrameEnv) (is : List ℕ) : Prop :=
  ∀ i js off q, (i :: js) <:+ is → c.PromotedTo i off q →
    (c.frameRun env js).StoredLast q ((c.frameRun env js).slot c env off) ∨
      (c.frameRun env js).storedBy env q =
        (c.frameRun env js).word env ((c.frameRun env js).slot c env off)

/-- Only the first operand of an instruction is a destination. -/
def Code.Ordinary (c : Code W) : Prop := ∀ i k r, k ≠ 0 → (c.insn i).op k ≠ .dest r

/-! ### The same values -/

section Same

variable {c : Code W} {env : FrameEnv} {is : List ℕ} {i q : ℕ} {off : BitVec W}

theorem destOf_eq_none {o : Operand W} (h : ∀ r, o ≠ .dest r) : destOf o = none := by
  cases o with
  | dest r => exact absurd rfl (h r)
  | _ => rfl

theorem destOf_neg_one (hW : 32 ≤ W) : destOf (.dest (-1) : Operand W) = none := by
  have hones : (-1 : BitVec W).setWidth 32 = BitVec.allOnes 32 := by
    refine BitVec.eq_of_getLsbD_eq fun i hi => ?_
    have hneg : (-1 : BitVec W) = BitVec.allOnes W := BitVec.neg_one_eq_allOnes
    rw [hneg, BitVec.getLsbD_setWidth, BitVec.getLsbD_allOnes, BitVec.getLsbD_allOnes]
    simp only [hi, hi.trans_le hW, decide_true, Bool.and_true]
  rw [destOf, hones, if_neg (by decide)]

/-- The registers that an instruction defines are those of its first operand. -/
theorem defines_iff {ii : Insn W} {r : ℕ} (h : ∀ k r, k ≠ 0 → ii.op k ≠ .dest r) :
    ii.defines r = true ↔ destOf (ii.op 0) = some r := by
  rw [Insn.defines, List.any_eq_true]
  constructor
  · rintro ⟨k, -, hk⟩
    rcases eq_or_ne k 0 with rfl | hne
    · exact beq_iff_eq.1 hk
    · rw [destOf_eq_none fun r => h k r hne] at hk
      exact absurd (beq_iff_eq.1 hk) (Option.some_ne_none r).symm
  · exact fun hk => ⟨0, List.mem_finRange 0, beq_iff_eq.2 hk⟩

theorem localStore_op (h : (c.insn i).localStore = some off) : (c.insn i).op 0 = .const off := by
  unfold Insn.localStore at h
  split at h
  next hop =>
    split_ifs at h
    obtain rfl := Option.some.inj h
    exact hop
  next => cases h

theorem defines_storeMove (hW : 32 ≤ W) (hc : c.Ordinary) (h : (c.insn i).localStore = some off)
    (r : ℕ) : (storeMove (c.insn i)).defines r = (c.insn i).defines r := by
  have hmove : ∀ k r, k ≠ 0 → (storeMove (c.insn i)).op k ≠ .dest r := by
    intro k r hk
    match k with
    | 0 => exact absurd rfl hk
    | 1 => exact hc i 2 r (by decide)
    | 2 => exact nofun
    | 3 => exact hc i 3 r (by decide)
    | 4 => exact hc i 4 r (by decide)
  rw [Bool.eq_iff_iff, defines_iff hmove, defines_iff (hc i), localStore_op h]
  exact iff_of_eq (congrArg (· = some r) (destOf_neg_one hW))

theorem defines_loadMove (hc : c.Ordinary) (i q r : ℕ) :
    (loadMove (c.insn i) q).defines r = (c.insn i).defines r := by
  have hmove : ∀ k r, k ≠ 0 → (loadMove (c.insn i) q).op k ≠ .dest r := by
    intro k r hk
    match k with
    | 0 => exact absurd rfl hk
    | 1 => exact nofun
    | 2 => exact nofun
    | 3 => exact hc i 3 r (by decide)
    | 4 => exact hc i 4 r (by decide)
  rw [Bool.eq_iff_iff, defines_iff hmove, defines_iff (hc i)]
  rfl

/-- What becomes of an instruction defines the same registers. -/
theorem defines_promoted (hW : 32 ≤ W) (hc : c.Ordinary) (i r : ℕ) :
    (c.promoted i).defines r = (c.insn i).defines r := by
  cases hstore : (c.insn i).localStore with
  | some off =>
    rw [Code.promoted, promoteLocal, hstore]
    dsimp only
    split_ifs
    · exact defines_storeMove hW hc hstore r
    · rfl
  | none =>
    cases hload : (c.insn i).localLoad with
    | some off =>
      rw [promoted_load hload]
      split_ifs
      · cases c.lastStore off i with
        | none => rfl
        | some q => exact defines_loadMove hc i q r
      · rfl
    | none => rw [Code.promoted, promoteLocal, hstore, hload]

theorem insn_detectLocals (c : Code W) (i : ℕ) :
    c.detectLocals.insn i = if i < c.num then c.promoted i else c.insn i :=
  (localsScan_spec c c.num).1 i

theorem defines_detectLocals (hW : 32 ≤ W) (hc : c.Ordinary) (i r : ℕ) :
    (c.detectLocals.insn i).defines r = (c.insn i).defines r := by
  rw [insn_detectLocals]
  split_ifs
  · exact defines_promoted hW hc i r
  · rfl

/-- Operands are worth the same. -/
theorem sourceOperand_detectLocals (hW : 32 ≤ W) (hc : c.Ordinary) (env : PathEnv) (tr : Trace)
    (o : Operand W) :
    sourceOperand c.detectLocals.func env tr o = sourceOperand c.func env tr o := by
  have hlast : ∀ r, lastValue c.detectLocals.func env tr r = lastValue c.func env tr r := by
    intro r
    unfold lastValue
    have hsame : (fun e : Ref × Word => (c.detectLocals.func.insn e.1).defines r) =
        fun e => (c.func.insn e.1).defines r := funext fun e => defines_detectLocals hW hc e.1.i r
    rw [hsame]
  cases o with
  | register w =>
    change (if w = 0 then 0 else lastValue c.detectLocals.func env tr w.toNat) =
      if w = 0 then 0 else lastValue c.func env tr w.toNat
    rw [hlast]
  | _ => rfl

/-- An instruction that stays computes the same. -/
theorem sourceValue_detectLocals (hW : 32 ≤ W) (hc : c.Ordinary) (env : PathEnv) (e : Env)
    (tr : Trace) (h : c.detectLocals.insn i = c.insn i) :
    sourceValue c.detectLocals.func env e tr ⟨0, i⟩ = sourceValue c.func env e tr ⟨0, i⟩ := by
  have hinsn : c.detectLocals.func.insn ⟨0, i⟩ = c.func.insn ⟨0, i⟩ := h
  unfold sourceValue
  rw [hinsn]
  exact congrArg (compute e 0 i _) (funext fun k => sourceOperand_detectLocals hW hc env tr _)

end Same

/-! ### Runs that are the same -/

section Runs

variable {c : Code W} {env : FrameEnv} {is : List ℕ} {i q : ℕ} {off : BitVec W}

theorem FrameSound.of_suffix {js : List ℕ} (h : FrameSound c env is) (hjs : js <:+ is) :
    FrameSound c env js := fun i ks off q hks => h i ks off q (hks.trans hjs)

/-- What the next instruction computes, if the run so far has been the same. -/
theorem frameValue_eq (hW : 32 ≤ W) (hc : c.Ordinary)
    (htrace : (c.frameRun env is).trace = c.detectLocals.trace env.toPathEnv is)
    (hload : ∀ off q, c.PromotedTo i off q →
      c.detectLocals.valueAfter env.toPathEnv is i =
        (c.frameRun env is).word env ((c.frameRun env is).slot c env off)) :
    c.frameValue env is.length (c.frameRun env is) i =
      c.detectLocals.valueAfter env.toPathEnv is i := by
  have hstays : c.detectLocals.insn i = c.insn i →
      sourceValue c.func env.toPathEnv (env.block is.length false) (c.frameRun env is).trace
        ⟨0, i⟩ = c.detectLocals.valueAfter env.toPathEnv is i := by
    intro hsame
    rw [Code.valueAfter, htrace, sourceValue_detectLocals hW hc _ _ _ hsame]
  unfold Code.frameValue
  dsimp only
  split
  next off hstore =>
    split_ifs with hmoves
    · rw [valueAfter_storeMove (detectLocals_store hmoves.1 hstore hmoves.2)]
      unfold FrameRun.operand Code.operandAfter
      rw [htrace, sourceOperand_detectLocals hW hc]
    · refine hstays ?_
      rw [insn_detectLocals, Code.promoted, promoteLocal, hstore]
      dsimp only
      split_ifs with hi hoff
      · exact absurd ⟨hi, hoff⟩ hmoves
      · rfl
      · rfl
  next hstore =>
    split
    next off hlocal =>
      split_ifs with hmoves
      · obtain ⟨hi, hoff, hsome⟩ := hmoves
        obtain ⟨q, hq⟩ := Option.isSome_iff_exists.1 hsome
        exact (hload off q ⟨hi, hlocal, hoff, hq⟩).symm
      · refine hstays ?_
        by_contra hne
        obtain ⟨q, hi, -, hoff, hq⟩ := promotedTo_of_ne hlocal hne
        exact hmoves ⟨hi, hoff, by rw [hq]; rfl⟩
    next hlocal =>
      refine hstays ?_
      rw [insn_detectLocals, Code.promoted, promoteLocal, hstore, hlocal]
      exact ite_self _

/-- **What has become of the instructions computes what they compute**, and stores the same words,
as long as every load yields the word of the frame. -/
theorem frameRun_spec (hW : 32 ≤ W) (hc : c.Ordinary) (h : FrameSound c env is) :
    (c.frameRun env is).trace = c.detectLocals.trace env.toPathEnv is ∧
      (c.frameRun env is).stores = c.slotStores env.toPathEnv is := by
  induction is with
  | nil => exact ⟨rfl, rfl⟩
  | cons i is ih =>
    obtain ⟨htrace, hstores⟩ := ih (h.of_suffix (List.suffix_cons i is))
    have hoperand : ∀ o, (c.frameRun env is).operand c env o =
        c.detectLocals.operandAfter env.toPathEnv is o := by
      intro o
      unfold FrameRun.operand Code.operandAfter
      rw [htrace, sourceOperand_detectLocals hW hc]
    have hvalue := frameValue_eq hW hc htrace fun off q => h i is off q (List.suffix_refl _)
    constructor
    · change (⟨0, i⟩, c.frameValue env is.length (c.frameRun env is) i) ::
        (c.frameRun env is).trace = (⟨0, i⟩, c.detectLocals.valueAfter env.toPathEnv is i) :: _
      rw [hvalue, htrace]
    · rw [Code.frameRun, Code.slotStores]
      dsimp only
      cases (c.insn i).localStore with
      | some off =>
        dsimp only [FrameRun.slot]
        rw [hoperand, hoperand, hstores]
        rfl
      | none => exact hstores

/-- **A run with the frame is what becomes of it** exactly if the last store in the text is the last
one of the run, or has stored the same. -/
theorem frameSound_iff (hW : 32 ≤ W) (hc : c.Ordinary) :
    FrameSound c env is ↔ FrameOrder c env is := by
  -- The move of a load yields what the store has stored, in a run that has been the same so far.
  have hvalue : ∀ {i js off q}, FrameSound c env js → c.PromotedTo i off q →
      c.detectLocals.valueAfter env.toPathEnv js i = (c.frameRun env js).storedBy env q := by
    intro i js off q hsound hprom
    rw [valueAfter_promoted env js hprom, Code.storedBy, FrameRun.storedBy,
      (frameRun_spec hW hc hsound).2]
  constructor
  · intro hsound i js off q his hprom
    have hjs := hsound.of_suffix ((List.suffix_cons i js).trans his)
    exact .inr ((hvalue hjs hprom).symm.trans (hsound i js off q his hprom))
  · intro horder
    induction is with
    | nil =>
      intro i js off q his
      exact absurd (List.suffix_nil.1 his) (List.cons_ne_nil _ _)
    | cons k is ih =>
      have hsound := ih fun i js off q his => horder i js off q (his.trans (List.suffix_cons k is))
      intro i js off q his hprom
      rcases List.suffix_cons_iff.1 his with heq | his'
      · obtain ⟨rfl, rfl⟩ := List.cons.inj heq
        rw [hvalue hsound hprom]
        rcases horder i js off q his hprom with ⟨w, haddr, hinsn⟩ | hsame
        · rw [FrameRun.storedBy, FrameRun.word, haddr, hinsn]
          rfl
        · exact hsame
      · exact hsound i js off q his' hprom

theorem textOrder_iff : LocalsSound c env is ↔ TextOrder c env is := by
  constructor
  · intro hsound i js off q his hprom
    have hvalue := valueAfter_promoted env js hprom
    by_cases hne : c.detectLocals.insn i = c.insn i
    · -- A move is no load.
      have hload := hprom.2.1
      rw [← hne, detectLocals_load hprom] at hload
      cases hload
    · exact .inr (hvalue.symm.trans (hsound i js off his hprom.2.1 hne))
  · intro horder i js off his hload hne
    obtain ⟨q, hprom⟩ := promotedTo_of_ne hload hne
    rw [valueAfter_promoted env js hprom]
    rcases horder i js off q his hprom with ⟨w, haddr, hinsn⟩ | hsame
    · unfold Code.storedBy Code.lastStored
      rw [haddr, hinsn]
      rfl
    · exact hsame

end Runs

/-! ### Main result -/

/-- **Stack slots as wires** are sound along a path exactly if every load that becomes a move has
the last store to its slot in the text as the last one on the path, or one that has stored the same
value: in a run of what has become of the instructions, and against a run of the instructions with
the stack frame. -/
theorem localsSound_iff (c : Code W) (env : FrameEnv) (is : { is // c.Path is }) :
    (LocalsSound c env is ↔ TextOrder c env is) ∧
      (32 ≤ W → c.Ordinary → (FrameSound c env is ↔ FrameOrder c env is)) :=
  ⟨textOrder_iff, fun hW hc => frameSound_iff hW hc⟩

/-- A word is stored again in front of the load, unless the branch is taken:
`l.sw 0(r1),r5`, `l.sfeqi r3,0`, `l.bf`, `l.nop`, `l.sw 0(r1),r4`, `l.lwz r11,0(r1)`. -/
def storeInArm : Code 64 where
  num := 10
  insn i :=
    match i with
    | 0 => { (nopInsn : Insn 64) with
        memory := true, volatile := true, index := .sw
        op := ![.const 0, .register 1, .register 5, .none, .none] }
    | 1 => { (nopInsn : Insn 64) with
        cond := true, index := .sfeq
        op := ![.dest 32, .register 3, .const 0, .none, .none] }
    | 2 => { (nopInsn : Insn 64) with
        cond := true, index := .cmov
        op := ![.dest (-1), .const 1, .const 0, .register 32, .none] }
    | 5 => { (nopInsn : Insn 64) with
        branch := true, volatile := true, index := .bf
        op := ![.jump 7, .ref ⟨0, 2⟩, .none, .none, .none] }
    | 6 => { (nopInsn : Insn 64) with
        memory := true, volatile := true, index := .sw
        op := ![.const 0, .register 1, .register 4, .none, .none] }
    | 7 => { (nopInsn : Insn 64) with
        memory := true, volatile := true, index := .lw
        op := ![.dest 11, .const 0, .register 1, .none, .none] }
    | _ => nopInsn

theorem storeInArm_through : storeInArm.Path [7, 6, 5, 4, 3, 2, 1, 0] := by
  refine .step (.step (.step (.step (.step (.step (.step .start ?_) ?_) ?_) ?_) ?_) ?_) ?_ <;>
    unfold Code.Next <;> decide

theorem storeInArm_promoted {i q : ℕ} {off : BitVec 64} (h : storeInArm.PromotedTo i off q) :
    i = 7 ∧ off = 0 ∧ q = 6 := by
  obtain ⟨-, hload, -, hstore⟩ := h
  match i with
  | 0 | 1 | 2 | 3 | 4 | 5 | 6 => cases hload
  | 7 =>
    obtain rfl : (0 : BitVec 64) = off := Option.some.inj hload
    exact ⟨rfl, rfl, (Option.some.inj hstore).symm⟩
  | n + 8 => cases hload

theorem storeInArm_ordinary : storeInArm.Ordinary := by
  intro i k r hk
  match i with
  | 0 | 1 | 2 | 3 | 4 | 5 | 6 | 7 =>
    match k with
    | 0 => exact absurd rfl hk
    | 1 | 2 | 3 | 4 => exact nofun
  | n + 8 =>
    match k with
    | 0 | 1 | 2 | 3 | 4 => exact nofun

/-- Every register holds its number, and everything else is 0. -/
def numbered : FrameEnv where
  reg r := BitVec.ofNat 32 r
  init _ := 0
  unit _ _ _ _ _ := 0
  word _ := 0

/-- A load that is reached through the arm yields the word stored there. -/
theorem localsSound_iff_through :
    LocalsSound storeInArm numbered [7, 6, 5, 4, 3, 2, 1, 0] ∧
      FrameSound storeInArm numbered [7, 6, 5, 4, 3, 2, 1, 0] ∧
      (storeInArm.frameRun numbered [6, 5, 4, 3, 2, 1, 0]).word numbered 1 = 4 := by
  have hlast : ∀ {i js}, (i :: js) <:+ [7, 6, 5, 4, 3, 2, 1, 0] → i = 7 →
      js = [6, 5, 4, 3, 2, 1, 0] := by
    rintro _ js his rfl
    rcases List.suffix_cons_iff.1 his with heq | hrest
    · exact (List.cons.inj heq).2
    · exact absurd (hrest.subset List.mem_cons_self) (by decide)
  have hiff := localsSound_iff storeInArm numbered ⟨_, storeInArm_through⟩
  refine ⟨hiff.1.2 fun i js off q his hprom => ?_,
    (hiff.2 (by decide) storeInArm_ordinary).2 fun i js off q his hprom => ?_, by decide⟩
  · obtain ⟨hi, rfl, rfl⟩ := storeInArm_promoted hprom
    obtain rfl := hlast his hi
    exact .inl ⟨⟨6, 1, 4⟩, by rfl, by rfl⟩
  · obtain ⟨hi, rfl, rfl⟩ := storeInArm_promoted hprom
    obtain rfl := hlast his hi
    exact .inl ⟨⟨6, 1, 4⟩, by rfl, by rfl⟩

theorem storeInArm_path : storeInArm.Path [7, 5, 4, 3, 2, 1, 0] := by
  refine .step (.step (.step (.step (.step (.step .start ?_) ?_) ?_) ?_) ?_) ?_ <;>
    unfold Code.Next <;> decide

/-- The input `r5` is 7, and everything else is 0. -/
def armEnv : FrameEnv where
  reg r := if r = 5 then 7 else 0
  init _ := 0
  unit _ _ _ _ _ := 0
  word _ := 0

/-- **A store in an arm that is not taken**: the load yields what that store has never stored. -/
theorem local_lost :
    storeInArm.Path [7, 5, 4, 3, 2, 1, 0] ∧
      storeInArm.lastStored armEnv [5, 4, 3, 2, 1, 0] 0 = 7 ∧
      storeInArm.detectLocals.valueAfter armEnv.toPathEnv [5, 4, 3, 2, 1, 0] 7 = 0 ∧
      ¬LocalsSound storeInArm armEnv [7, 5, 4, 3, 2, 1, 0] ∧
      ¬FrameSound storeInArm armEnv [7, 5, 4, 3, 2, 1, 0] := by
  have hstored : storeInArm.lastStored armEnv [5, 4, 3, 2, 1, 0] 0 = 7 := by decide
  have hvalue : storeInArm.detectLocals.valueAfter armEnv.toPathEnv [5, 4, 3, 2, 1, 0] 7 = 0 := by
    decide
  refine ⟨storeInArm_path, hstored, hvalue, fun hsound => ?_, fun hsound => ?_⟩
  · have hmove : storeInArm.detectLocals.insn 7 ≠ storeInArm.insn 7 := by
      intro he
      have hindex := congrArg Insn.index he
      revert hindex
      decide
    have hsame := hsound 7 [5, 4, 3, 2, 1, 0] 0 (List.suffix_refl _) (by decide) hmove
    rw [hvalue] at hsame
    revert hsame
    decide
  · have hsame := hsound 7 [5, 4, 3, 2, 1, 0] 0 6 (List.suffix_refl _)
      ⟨by decide, rfl, by decide, rfl⟩
    rw [hvalue] at hsame
    revert hsame
    decide

end Cuc
end Or1ksim
