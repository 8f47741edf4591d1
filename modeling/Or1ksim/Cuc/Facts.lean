import Or1ksim.Cuc.RegDep

/-!
# Facts from conditionals

`insert_conditional_facts` of `cuc/adv.c`: behind a block that branches on a compare of a value with
a constant there is a new block on each edge, with an instruction that should have the compared
value, and what is only reached through one of them uses its instruction.

* `mask`, `factInsns` — the two instructions;
* `addFact`, `markSuccessors`, `redirectUses` — the new blocks, and the uses that follow them;
* `insertFact` — the loop body;
* `lastExit_reaches` — where a path is after its last edge out of a block;
* `factsSound_iff` — **each fact has the compared value whenever its edge is taken, and is used
  where that was the last edge**, exactly for the constants in `FactExact`.
-/

namespace Or1ksim
namespace Cuc

variable {W : ℕ}

/-! ### The pass -/

/-- `MAX_BB` -/
def maxBb : ℕ := 0x1000

/-- `mask`: the shift and the subtraction are those of `int`, and defined below 2 ^ 31. -/
def mask (c : BitVec W) : Option (BitVec W) :=
  if c = 0 then some 0
  else if c.toNat.log2 + 1 < 31 then some (BitVec.ofNat W (2 ^ (c.toNat.log2 + 1) - 1))
  else none

/-- The compare that the last instruction of a block branches on, the value of the block that it
compares, and the constant. -/
def conditional (f : Func W) (b : ℕ) : Option (Ref × Ref × BitVec W) :=
  let ii := f.insn ⟨b, f.ninsn b - 1⟩
  if 0 < f.ninsn b ∧ ii.branch then
    match ii.op 1 with
    | .ref q =>
      match (f.insn q).op 2, (f.insn q).op 1 with
      | .const c, .ref rref => if q.bb = b ∧ rref.bb = b then some (q, rref, c) else none
      | _, _ => none
    | _ => none
  else none

/-- An instruction for the register of `rref`; operand 4 is not set. -/
def factInsn (f : Func W) (rest : Operand W) (rref : Ref) (index : Index) (a b : Operand W) :
    Insn W :=
  { (nopInsn : Insn W) with
    index := index
    op := ![.dest ((f.insn rref).op 0).word, a, b, .none, rest] }

/-- "First get the conditional and two instruction to place after the current BB": nothing where a
mask is not defined, and none for another instruction. -/
def factInsns (f : Func W) (rest : Operand W) (q rref : Ref) (c : BitVec W) :
    Option (Option (Fin 2 → Insn W)) :=
  let same := factInsn f rest rref .add (.const 0) (.ref rref)
  let equal := factInsn f rest rref .add (.const 0) (.const c)
  match (f.insn q).index with
  | .sfeq => some (some ![equal, same])
  | .sfne => some (some ![same, equal])
  | .sflt | .sfle =>
    (mask c).map fun m => some ![factInsn f rest rref .and (.ref rref) (.const m), same]
  | .sfgt | .sfge =>
    (mask (c + 1)).map fun m => some ![same, factInsn f rest rref .add (.ref rref) (.const m)]
  | _ => some none

/-- A link of a block that came from block `b` comes from block `nb`; none where an assertion fails.
-/
def relinkPrev (prev : Fin 2 → Link) (b nb : ℕ) : Option (Fin 2 → Link) :=
  if prev 0 = .bb b then some (Function.update prev 0 (.bb nb))
  else if prev 1 = .bb b then some (Function.update prev 1 (.bb nb))
  else none

/-- The links to the block behind a new one. -/
def relink (prev : ℕ → Fin 2 → Link) (b nb : ℕ) : Link → Option (ℕ → Fin 2 → Link)
  | .bb sb => (relinkPrev (prev sb) b nb).map (Function.update prev sb)
  | .stop => some prev
  | _ => none

/-- A new block on edge `j` out of block `b`; none where an assertion fails. -/
def addFact (f : Cfg W) (b : ℕ) (n : Insn W) (j : Fin 2) : Option (Cfg W) :=
  if f.numBb < maxBb then
    (relink (Function.update f.prev f.numBb ![.bb b, .none]) b f.numBb (f.next b j)).map fun prev =>
      { numBb := f.numBb + 1
        dead := Function.update f.dead f.numBb false
        ninsn := Function.update f.ninsn f.numBb 1
        insn := Function.update f.insn ⟨f.numBb, 0⟩ n
        next := Function.update
          (Function.update f.next b (Function.update (f.next b) j (.bb f.numBb)))
          f.numBb ![f.next b j, .none]
        prev := prev }
  else none

/-- The blocks behind a block; the search ends at `stopb`. -/
def factSuccs (f : Cfg W) (stopb b : ℕ) : List ℕ := if b = stopb then [] else f.succs b

/-- `mark_successors`, from block `b` on with one of its masks: at most `numBb` blocks are marked.
-/
def markSuccessors (f : Cfg W) (stopb b : ℕ) : ℕ → Bool :=
  Dfs.visit (factSuccs f stopb) (fun tmp b => tmp b) (fun b tmp => Function.update tmp b true)
    (f.numBb + 1) b fun _ => false

/-- The block with the fact for block `b1`, if it has one mark only. -/
def factBlock (g : Cfg W) (b b1 : ℕ) : Option ℕ :=
  match markSuccessors g b (g.numBb - 2) b1, markSuccessors g b (g.numBb - 1) b1 with
  | true, false => some (g.numBb - 2)
  | false, true => some (g.numBb - 1)
  | _, _ => none

/-- The references to `rref` become references to the instruction in block `nb`. -/
def redirectInsn (rref : Ref) (ii : Insn W) (nb : ℕ) : Insn W :=
  { ii with op := fun k => if ii.op k = .ref rref then .ref ⟨nb, 0⟩ else ii.op k }

/-- `end`: in the block of `rref` only what comes before the next value is looked at. -/
def usesEnd (g : Func W) (rref : Ref) (b1 : ℕ) : ℕ :=
  if rref.bb = b1 then rref.i + 1 else g.ninsn b1

/-- "Find successor blocks and change links accordingly". -/
def redirectUses (g : Cfg W) (b : ℕ) (rref : Ref) : Cfg W :=
  { g with
    insn := fun r =>
      if r.bb < g.numBb - 2 ∧ r.i < usesEnd g.toFunc rref r.bb then
        (factBlock g b r.bb).elim (g.insn r) (redirectInsn rref (g.insn r))
      else g.insn r }

/-- "Now add two BBs at the end and relink". -/
def addFacts (f : Cfg W) (b : ℕ) (rref : Ref) (n : Fin 2 → Insn W) : Option (Cfg W) :=
  (addFact f b (n 0) 0).bind fun g => (addFact g b (n 1) 1).map fun g => redirectUses g b rref

/-- The loop body of `insert_conditional_facts`; none where an assertion fails or a mask is not
defined. -/
def insertFact (rest : Operand W) (f : Cfg W) (b : ℕ) : Option (Cfg W) :=
  (conditional f.toFunc b).elim (some f) fun (q, rref, c) =>
    (factInsns f.toFunc rest q rref c).bind fun n => n.elim (some f) (addFacts f b rref)

/-- `insert_conditional_facts`: the blocks that it adds have no branch. -/
def insertConditionalFacts (rest : Operand W) (f : Cfg W) : Option (Cfg W) :=
  (List.range f.numBb).foldlM (insertFact rest) f

/-! ### Masks -/

section Mask

variable {c m : BitVec W}

theorem mask_eq_some (h : mask c = some m) : c.toNat < 2 ^ 30 ∧
    ∃ n ≤ 30, c.toNat < 2 ^ n ∧ m.toNat = 2 ^ n - 1 ∧ (n = 0 ↔ c = 0) := by
  unfold mask at h
  split_ifs at h with hc hn
  · obtain rfl := Option.some.inj h
    rw [hc]
    exact ⟨by simp, 0, by omega, by simp, by simp, by simp⟩
  · obtain rfl := Option.some.inj h
    have hne : c.toNat ≠ 0 := fun he => hc (BitVec.eq_of_toNat_eq he)
    have hlt : c.toNat < 2 ^ (c.toNat.log2 + 1) := Nat.lt_log2_self
    have hW : c.toNat.log2 < W := (Nat.log2_lt hne).2 c.isLt
    refine ⟨(Nat.log2_lt hne).1 (by omega), c.toNat.log2 + 1, by omega, hlt, ?_, ?_⟩
    · rw [BitVec.toNat_ofNat]
      have hpow : 2 ^ (c.toNat.log2 + 1) ≤ 2 ^ W := Nat.pow_le_pow_right (by decide) hW
      exact Nat.mod_eq_of_lt (by omega)
    · exact iff_of_false (Nat.succ_ne_zero _) hc

theorem exists_mask (h : c.toNat < 2 ^ 30) : ∃ m, mask c = some m := by
  unfold mask
  split_ifs with hc hn
  · exact ⟨0, rfl⟩
  · exact ⟨_, rfl⟩
  · have hne : c.toNat ≠ 0 := fun he => hc (BitVec.eq_of_toNat_eq he)
    have hlog := (Nat.log2_lt hne).2 h
    omega

theorem and_mask (h : mask c = some m) {x : Word} (hx : x.toNat ≤ c.toNat) : x &&& low m = x := by
  obtain ⟨-, n, hn, hlt, hm, -⟩ := mask_eq_some h
  have hpow : 2 ^ n ≤ 2 ^ 30 := Nat.pow_le_pow_right (by decide) hn
  refine BitVec.eq_of_toNat_eq ?_
  rw [BitVec.toNat_and, low, BitVec.toNat_setWidth, hm,
    Nat.mod_eq_of_lt (lt_of_le_of_lt (Nat.sub_le _ _) (by omega)),
    Nat.and_two_pow_sub_one_eq_mod]
  exact Nat.mod_eq_of_lt (by omega)

theorem low_mask_eq_zero (h : mask c = some m) : low m = 0 ↔ c = 0 := by
  obtain ⟨-, n, hn, -, hm, hzero⟩ := mask_eq_some h
  have hpow : 2 ^ n ≤ 2 ^ 30 := Nat.pow_le_pow_right (by decide) hn
  rw [← hzero, ← BitVec.toNat_inj, low, BitVec.toNat_setWidth, hm, Nat.mod_eq_of_lt (by omega)]
  have hpos : 0 < 2 ^ n := Nat.two_pow_pos n
  constructor
  · intro hz
    by_contra hn0
    have htwo : 2 ^ 1 ≤ 2 ^ n := Nat.pow_le_pow_right (by decide) (Nat.one_le_iff_ne_zero.2 hn0)
    change 2 ^ n - 1 = 0 at hz
    omega
  · rintro rfl
    rfl

end Mask

/-! ### The new blocks -/

section Blocks

variable {f g : Cfg W} {b : ℕ} {n : Insn W} {j : Fin 2}

/-- What a new block changes. -/
structure FactAdded (f g : Cfg W) (b : ℕ) (n : Insn W) (j : Fin 2) : Prop where
  numBb : g.numBb = f.numBb + 1
  ninsn : g.ninsn = Function.update f.ninsn f.numBb 1
  insn : g.insn = Function.update f.insn ⟨f.numBb, 0⟩ n
  next : g.next = Function.update (Function.update f.next b
    (Function.update (f.next b) j (.bb f.numBb))) f.numBb ![f.next b j, .none]

theorem addFact_spec (h : addFact f b n j = some g) : FactAdded f g b n j := by
  unfold addFact at h
  split_ifs at h
  obtain ⟨prev, -, rfl⟩ := Option.map_eq_some_iff.1 h
  exact ⟨rfl, rfl, rfl, rfl⟩

/-- Whether a block can be added does not depend on the instructions. -/
theorem addFact_congr {f' : Cfg W} (n' : Insn W) (hnum : f'.numBb = f.numBb)
    (hnext : f'.next = f.next) (hprev : f'.prev = f.prev) (h : addFact f b n j = some g) :
    ∃ g', addFact f' b n' j = some g' ∧ g'.numBb = g.numBb ∧ g'.next = g.next ∧
      g'.prev = g.prev := by
  unfold addFact at h ⊢
  rw [hnum, hnext, hprev]
  split_ifs at h ⊢
  obtain ⟨prev, hprev, rfl⟩ := Option.map_eq_some_iff.1 h
  rw [hprev]
  exact ⟨_, rfl, rfl, rfl, rfl⟩

theorem exists_addFacts {rref : Ref} {n : Fin 2 → Insn W} (rref' : Ref) (n' : Fin 2 → Insn W)
    (h : addFacts f b rref n = some g) : ∃ g', addFacts f b rref' n' = some g' := by
  obtain ⟨g₁, h₁, h⟩ := Option.bind_eq_some_iff.1 h
  obtain ⟨g₂, h₂, -⟩ := Option.map_eq_some_iff.1 h
  obtain ⟨g₁', h₁', hnum, hnext, hprev⟩ := addFact_congr (n' 0) rfl rfl rfl h₁
  obtain ⟨g₂', h₂', -⟩ := addFact_congr (n' 1) hnum hnext hprev h₂
  refine ⟨redirectUses g₂' b rref', ?_⟩
  rw [addFacts, h₁', Option.bind_some, h₂', Option.map_some]

/-- What both of them change. -/
structure FactsAdded (f g : Cfg W) (b : ℕ) (rref : Ref) (n : Fin 2 → Insn W) : Prop where
  numBb : g.numBb = f.numBb + 2
  next_self : ∀ j : Fin 2, g.next b j = .bb (f.numBb + j)
  next_new : ∀ j : Fin 2, g.next (f.numBb + j) = ![f.next b j, .none]
  next_other : ∀ d < f.numBb, d ≠ b → g.next d = f.next d
  insn_new : ∀ j : Fin 2, g.insn ⟨f.numBb + j, 0⟩ = n j
  ninsn_new : ∀ j : Fin 2, g.ninsn (f.numBb + j) = 1
  /-- Behind the value its block has no use that is redirected. -/
  insn_behind : ∀ i, rref.bb = b → rref.i < i → b < f.numBb → g.insn ⟨b, i⟩ = f.insn ⟨b, i⟩
  ninsn_old : ∀ d < f.numBb, g.ninsn d = f.ninsn d
  uses : ∀ r k, r.bb < f.numBb → (g.insn r).op k ≠ (f.insn r).op k →
    (f.insn r).op k = .ref rref ∧
      ∃ nb, factBlock g b r.bb = some nb ∧ (g.insn r).op k = .ref ⟨nb, 0⟩

theorem redirectUses_new {rref r : Ref} (h : g.numBb - 2 ≤ r.bb) :
    (redirectUses g b rref).insn r = g.insn r :=
  if_neg fun hin => Nat.not_lt.2 h hin.1

theorem redirectUses_op {rref r : Ref} {k : OperandNo}
    (h : ((redirectUses g b rref).insn r).op k ≠ (g.insn r).op k) :
    (g.insn r).op k = .ref rref ∧ ∃ nb, factBlock (redirectUses g b rref) b r.bb = some nb ∧
      ((redirectUses g b rref).insn r).op k = .ref ⟨nb, 0⟩ := by
  dsimp only [redirectUses] at h ⊢
  split_ifs at h ⊢ with hin
  · cases hblock : factBlock g b r.bb with
    | none =>
      rw [hblock] at h
      exact absurd rfl h
    | some nb =>
      rw [hblock] at h
      dsimp only [Option.elim, redirectInsn] at h ⊢
      split_ifs at h ⊢ with hop
      · exact ⟨hop, nb, hblock, rfl⟩
      · exact absurd rfl h
  · exact absurd rfl h

theorem redirectUses_behind {rref : Ref} {i : ℕ} (hb : rref.bb = b) (hi : rref.i < i) :
    (redirectUses g b rref).insn ⟨b, i⟩ = g.insn ⟨b, i⟩ := by
  refine if_neg fun hin => ?_
  obtain ⟨-, hlt⟩ := hin
  rw [usesEnd, if_pos hb] at hlt
  exact Nat.not_lt.2 hi hlt

theorem addFacts_spec {rref : Ref} {n : Fin 2 → Insn W} (hb : b < f.numBb)
    (h : addFacts f b rref n = some g) : FactsAdded f g b rref n := by
  obtain ⟨g₁, h₁, h⟩ := Option.bind_eq_some_iff.1 h
  obtain ⟨g₂, h₂, rfl⟩ := Option.map_eq_some_iff.1 h
  obtain ⟨hnum₁, hninsn₁, hinsn₁, hnext₁⟩ := addFact_spec h₁
  obtain ⟨hnum₂, hninsn₂, hinsn₂, hnext₂⟩ := addFact_spec h₂
  rw [hnum₁] at hnum₂ hninsn₂ hinsn₂ hnext₂
  have hnum : g₂.numBb - 2 = f.numBb := by omega
  have hold : ∀ r : Ref, r.bb < f.numBb → g₂.insn r = f.insn r := by
    intro r hr
    have hne : r ≠ ⟨f.numBb, 0⟩ := fun he => absurd (congrArg Ref.bb he) hr.ne
    have hne' : r ≠ ⟨f.numBb + 1, 0⟩ := fun he => by
      have hbb := congrArg Ref.bb he
      dsimp only at hbb
      omega
    rw [hinsn₂, Function.update_of_ne hne', hinsn₁, Function.update_of_ne hne]
  have hself₁ : g₁.next b = Function.update (f.next b) 0 (.bb f.numBb) := by
    rw [hnext₁, Function.update_of_ne hb.ne, Function.update_self]
  have hself₂ : g₂.next b = Function.update (g₁.next b) 1 (.bb (f.numBb + 1)) := by
    rw [hnext₂, Function.update_of_ne (by omega), Function.update_self]
  exact {
    numBb := hnum₂
    next_self := fun j => by
      change g₂.next b j = _
      match j with
      | 0 =>
        rw [hself₂, Function.update_of_ne Fin.zero_ne_one, hself₁]
        exact Function.update_self _ _ _
      | 1 =>
        rw [hself₂]
        exact Function.update_self _ _ _
    next_new := fun j => by
      change g₂.next _ = _
      match j with
      | 0 =>
        change g₂.next f.numBb = _
        rw [hnext₂, Function.update_of_ne (by omega), Function.update_of_ne hb.ne', hnext₁,
          Function.update_self]
      | 1 =>
        change g₂.next (f.numBb + 1) = _
        rw [hnext₂, Function.update_self, hself₁, Function.update_of_ne Fin.zero_ne_one.symm]
    next_other := fun d hd hne => by
      change g₂.next d = _
      rw [hnext₂, Function.update_of_ne (by omega), Function.update_of_ne hne, hnext₁,
        Function.update_of_ne (by omega), Function.update_of_ne hne]
    insn_new := fun j => by
      rw [redirectUses_new (by dsimp only; omega), hinsn₂]
      match j with
      | 0 =>
        rw [Function.update_of_ne (by simp), hinsn₁]
        exact Function.update_self _ _ _
      | 1 => exact Function.update_self _ _ _
    ninsn_new := fun j => by
      change g₂.ninsn _ = 1
      rw [hninsn₂]
      match j with
      | 0 =>
        rw [Function.update_of_ne (by simp), hninsn₁]
        exact Function.update_self _ _ _
      | 1 => exact Function.update_self _ _ _
    insn_behind := fun i hrref hi hb => by
      rw [redirectUses_behind hrref hi]
      exact hold ⟨b, i⟩ hb
    ninsn_old := fun d hd => by
      change g₂.ninsn d = _
      rw [hninsn₂, Function.update_of_ne (by omega), hninsn₁, Function.update_of_ne hd.ne]
    uses := fun r k hr hne => by
      rw [← hold r hr] at hne ⊢
      exact redirectUses_op hne }

end Blocks

/-! ### The last edge out of a block -/

/-- The block that a path came to when it left block `b` last. -/
def lastExit (b : ℕ) : List ℕ → Option ℕ
  | c :: d :: bs => if d = b then some c else lastExit b (d :: bs)
  | _ => none

section Paths

variable {f g : Cfg W} {b c t x : ℕ} {rref : Ref} {n : Fin 2 → Insn W} {bs : List ℕ}

theorem mem_factSuccs : c ∈ factSuccs g b t ↔ t ≠ b ∧ ∃ k, g.next t k = .bb c := by
  have hlink : ∀ l : Link, l.toBlock = some c ↔ l = .bb c := by
    intro l
    cases l <;> simp [Link.toBlock]
  unfold factSuccs Cfg.succs
  split_ifs with h
  · exact iff_of_false List.not_mem_nil fun hne => hne.1 h
  · simp [List.mem_filterMap, hlink, Fin.exists_fin_two, h, eq_comm (a := Link.bb c)]

/-- **The last edge**: from the block behind it the path goes on without coming to `b` again. -/
theorem lastExit_reaches (h : Path g bs) (hexit : lastExit b bs = some x) :
    (∃ k, g.next b k = .bb x) ∧ ∃ c ∈ bs.head?, Dfs.Reaches (factSuccs g b) x c := by
  induction h with
  | start => cases hexit
  | @step d c bs k _ hnext ih =>
    -- The last step leaves `b` itself, or the last edge out of `b` comes before it.
    rw [lastExit] at hexit
    split_ifs at hexit with hd
    · obtain rfl := Option.some.inj hexit
      subst hd
      exact ⟨⟨k, hnext⟩, c, rfl, .refl⟩
    · obtain ⟨hedge, d', hd', hreach⟩ := ih hexit
      obtain rfl := Option.some.inj hd'
      exact ⟨hedge, c, rfl, hreach.tail (mem_factSuccs.2 ⟨hd, k, hnext⟩)⟩

theorem FactsAdded.next_lt (h : FactsAdded f g b rref n)
    (hf : ∀ d < f.numBb, ∀ k t, f.next d k = .bb t → t < f.numBb) (hb : b < f.numBb) {d t : ℕ}
    {k : Fin 2} (hd : d < g.numBb) (hnext : g.next d k = .bb t) : t < g.numBb := by
  rw [h.numBb] at hd ⊢
  by_cases hold : d < f.numBb
  · by_cases hdb : d = b
    · rw [hdb, h.next_self k, Link.bb.injEq] at hnext
      omega
    · rw [h.next_other d hold hdb] at hnext
      exact (hf d hold k t hnext).trans (by omega)
  · obtain ⟨j, rfl⟩ : ∃ j : Fin 2, d = f.numBb + j := ⟨⟨d - f.numBb, by omega⟩, by simp; omega⟩
    rw [h.next_new j] at hnext
    match k with
    | 0 => exact (hf b hb j t hnext).trans (by omega)
    | 1 => cases hnext

theorem FactsAdded.marked (h : FactsAdded f g b rref n)
    (hf : ∀ d < f.numBb, ∀ k t, f.next d k = .bb t → t < f.numBb) (hb : b < f.numBb)
    (hx : x < g.numBb) (hreach : Dfs.Reaches (factSuccs g b) x c) :
    markSuccessors g b x c = true := by
  have hmark : ∀ (a : ℕ) (tmp : ℕ → Bool) (d : ℕ),
      Function.update tmp a true d = (decide (d = a) || tmp d) := by
    intro a tmp d
    by_cases hd : d = a
    · simp [hd]
    · simp [hd]
  -- The recursion marks a block when it comes to it, and is deep enough for all blocks.
  have hinside : ∀ a ∈ Finset.range g.numBb, ∀ d ∈ factSuccs g b a, d ∈ Finset.range g.numBb := by
    intro a ha d hd
    obtain ⟨-, k, hnext⟩ := mem_factSuccs.1 hd
    exact Finset.mem_range.2 (h.next_lt hf hb (Finset.mem_range.1 ha) hnext)
  have hcard : (Finset.range g.numBb).card < g.numBb + 1 := by
    rw [Finset.card_range]
    exact Nat.lt_succ_self _
  exact @Dfs.visit_reachable ℕ (ℕ → Bool) (factSuccs g b) (fun tmp d => tmp d)
    (fun a tmp => Function.update tmp a true) (Finset.range g.numBb) _ hmark hinside _ x c
    (fun _ => false) (Finset.mem_range.2 hx) (fun _ => rfl) hcard hreach

end Paths

/-! ### Main results -/

/-- A block that ends in a branch on a compare of one of its values with a constant:
"x <= ...; sfxx f, x, CONST; bf ..., f", where the assertions on the way to the new blocks hold. -/
structure Situation (f : Cfg W) (b : ℕ) (q rref : Ref) (c : BitVec W) : Prop where
  found : conditional f.toFunc b = some (q, rref, c)
  isCompare : (f.insn q).index.isCompare = true
  /-- The value comes first. -/
  order : rref.i < q.i
  compare_lt : q.i < f.ninsn b
  block_lt : b < f.numBb
  inside : ∀ d < f.numBb, ∀ k t, f.next d k = .bb t → t < f.numBb
  asserts : ∃ g, addFacts f b rref (fun _ => nopInsn) = some g

/-- The fact in block `nb` has the compared value, whatever it is, whenever edge `j` is taken: the
branch goes to the first edge if the compare has found its condition. -/
def FactHolds (f g : Func W) (q rref : Ref) (nb : ℕ) (j : Fin 2) : Prop :=
  ∀ (e : Env) (v : Ref → Word), v q = slotValue f e v q → (v q ≠ 0 ↔ j = 0) →
    slotValue g e v ⟨nb, 0⟩ = v rref

/-- A use that is redirected goes to the fact on the last edge out of `b`, on every path. -/
def UsesFollow (f g : Cfg W) (b : ℕ) (rref : Ref) : Prop :=
  ∀ r k, r.bb < f.numBb → (g.insn r).op k ≠ (f.insn r).op k →
    (f.insn r).op k = .ref rref ∧ ∃ nb, (g.insn r).op k = .ref ⟨nb, 0⟩ ∧
      ∀ bs t, Path g (r.bb :: bs) → lastExit b (r.bb :: bs) = some t → t = nb

/-- The facts of a block are right: the instruction on each edge, and the uses of it. -/
def FactsSound (rest : Operand W) (f : Cfg W) (b : ℕ) (q rref : Ref) : Prop :=
  ∃ g, insertFact rest f b = some g ∧
    (∀ j : Fin 2, ∃ nb, g.next b j = .bb nb ∧ FactHolds f.toFunc g.toFunc q rref nb j) ∧
      UsesFollow f g b rref

/-- The constants for which the facts are right: of the unsigned comparisons those whose mask is
defined, except that a mask is added for the false edge of the other two. -/
def FactExact (index : Index) (c : BitVec W) : Prop :=
  match index with
  | .sflt | .sfle => c.toNat < 2 ^ 30
  | .sfgt => c + 1 = 0
  | .sfge => c + 1 = 0 ∨ low c = 0 ∧ (c + 1).toNat < 2 ^ 30
  | _ => True

section Main

variable {f g : Cfg W} {b : ℕ} {q rref : Ref} {c : BitVec W} {n : Fin 2 → Insn W}

theorem factBlock_of_marked {m b1 nb : ℕ} {j : Fin 2} (hnum : g.numBb = m + 2)
    (h : factBlock g b b1 = some nb) (hmark : markSuccessors g b (m + j) b1 = true) :
    m + j = nb := by
  unfold factBlock at h
  rw [hnum] at h
  split at h
  next h₁ =>
    obtain rfl := Option.some.inj h
    match j, hmark with
    | 0, _ => rfl
    | 1, hmark => exact absurd (hmark.symm.trans h₁) (by decide)
  next h₀ _ =>
    obtain rfl := Option.some.inj h
    match j, hmark with
    | 0, hmark => exact absurd (hmark.symm.trans h₀) (by decide)
    | 1, _ => rfl
  next => cases h

/-- **The uses follow** the last edge, whatever the facts are. -/
theorem FactsAdded.usesFollow (hsit : Situation f b q rref c) (h : FactsAdded f g b rref n) :
    UsesFollow f g b rref := by
  intro r k hr hne
  obtain ⟨hop, nb, hblock, hop'⟩ := h.uses r k hr hne
  refine ⟨hop, nb, hop', fun bs t hpath hexit => ?_⟩
  obtain ⟨⟨j, hedge⟩, d, hd, hreach⟩ := lastExit_reaches hpath hexit
  obtain rfl := Option.some.inj hd
  rw [h.next_self j, Link.bb.injEq] at hedge
  subst hedge
  have hmark := h.marked hsit.inside hsit.block_lt (by rw [h.numBb]; omega) hreach
  exact factBlock_of_marked h.numBb hblock hmark

theorem insertFact_eq (rest : Operand W) (hsit : Situation f b q rref c) :
    insertFact rest f b =
      (factInsns f.toFunc rest q rref c).bind fun n => n.elim (some f) (addFacts f b rref) := by
  rw [insertFact, hsit.found]
  rfl

theorem Situation.exists_factsAdded (hsit : Situation f b q rref c) {rest : Operand W}
    (hn : factInsns f.toFunc rest q rref c = some (some n)) :
    ∃ g, insertFact rest f b = some g ∧ FactsAdded f g b rref n := by
  obtain ⟨g₀, hg₀⟩ := hsit.asserts
  obtain ⟨g, hg⟩ := exists_addFacts rref n hg₀
  refine ⟨g, ?_, addFacts_spec hsit.block_lt hg⟩
  rw [insertFact_eq rest hsit, hn]
  exact hg

theorem conditional_spec (h : conditional f.toFunc b = some (q, rref, c)) :
    (f.insn q).op 1 = .ref rref ∧ (f.insn q).op 2 = .const c ∧ q.bb = b ∧ rref.bb = b := by
  unfold conditional at h
  dsimp only at h
  split_ifs at h
  split at h
  next p _ =>
    split at h
    next d r hc hr =>
      split_ifs at h with hbb
      obtain ⟨rfl, hpair⟩ := Prod.mk.inj (Option.some.inj h)
      obtain ⟨rfl, rfl⟩ := Prod.mk.inj hpair
      exact ⟨hr, hc, hbb⟩
    next => cases h
  next => cases h

/-- What the compare finds. -/
def comparison (index : Index) (x y : Word) : Bool :=
  match index with
  | .sfeq => x = y
  | .sfne => x ≠ y
  | .sfle => x ≤ y
  | .sflt => x < y
  | .sfge => y ≤ x
  | .sfgt => y < x
  | _ => false

theorem slotValue_compare (hsit : Situation f b q rref c) (e : Env) (v : Ref → Word) :
    slotValue f.toFunc e v q = flag (comparison (f.insn q).index (v rref) (low c)) := by
  obtain ⟨hop₁, hop₂, -⟩ := conditional_spec hsit.found
  have hcmp := hsit.isCompare
  unfold slotValue
  cases hindex : (f.insn q).index <;> rw [hindex] at hcmp <;> try cases hcmp
  all_goals simp only [compute, args, hop₁, hop₂, operandValue, comparison]

theorem flag_ne_zero_iff {p : Bool} : flag p ≠ 0 ↔ p = true := by
  cases p <;> decide

/-- The instruction for edge `j` has the compared value whenever the compare leads there. -/
def FactRight (index : Index) (q rref : Ref) (c : BitVec W) (nb : ℕ) (ii : Insn W) (j : Fin 2) :
    Prop :=
  ∀ (e : Env) (v : Ref → Word), v q = flag (comparison index (v rref) (low c)) →
    (comparison index (v rref) (low c) = true ↔ j = 0) →
      compute e nb 0 ii.index (args e v ii) = v rref

theorem factInsns_ne_none {rest : Operand W} (h : (f.insn q).index.isCompare = true) :
    factInsns f.toFunc rest q rref c ≠ some none := by
  intro hnone
  unfold factInsns at hnone
  cases hindex : (f.insn q).index <;> rw [hindex] at h hnone <;> try cases h
  all_goals first
    | cases hnone
    | obtain ⟨m, -, hm⟩ := Option.map_eq_some_iff.1 hnone
      cases hm

/-- **The facts are right** if both instructions are. -/
theorem factsSound_iff_right {rest : Operand W} (hsit : Situation f b q rref c) :
    FactsSound rest f b q rref ↔ ∃ n, factInsns f.toFunc rest q rref c = some (some n) ∧
      ∀ j : Fin 2, FactRight (f.insn q).index q rref c (f.numBb + j) (n j) j := by
  constructor
  · rintro ⟨g, hg, hfacts, -⟩
    rw [insertFact_eq rest hsit] at hg
    obtain ⟨n?, hn, hg⟩ := Option.bind_eq_some_iff.1 hg
    cases n? with
    | none => exact absurd hn (factInsns_ne_none hsit.isCompare)
    | some n =>
      have hspec := addFacts_spec hsit.block_lt hg
      refine ⟨n, hn, fun j e v hv hj => ?_⟩
      obtain ⟨nb, hnb, hhold⟩ := hfacts j
      obtain rfl := Link.bb.inj ((hspec.next_self j).symm.trans hnb)
      have hvalue := hhold e v (hv.trans (slotValue_compare hsit e v).symm)
        (by rw [hv, flag_ne_zero_iff]; exact hj)
      unfold slotValue at hvalue
      rwa [hspec.insn_new j] at hvalue
  · rintro ⟨n, hn, hright⟩
    obtain ⟨g, hg, hspec⟩ := hsit.exists_factsAdded hn
    refine ⟨g, hg, fun j => ⟨_, hspec.next_self j, fun e v hv hj => ?_⟩, hspec.usesFollow hsit⟩
    have hflag := hv.trans (slotValue_compare hsit e v)
    rw [hflag, flag_ne_zero_iff] at hj
    unfold slotValue
    rw [hspec.insn_new j]
    exact hright j e v hflag hj

/-! ### The instructions -/

variable {index : Index} {rest : Operand W} {nb : ℕ} {m : BitVec W}

theorem factRight_same (j : Fin 2) : FactRight index q rref c nb
    (factInsn f.toFunc rest rref .add (.const 0) (.ref rref)) j := by
  intro e v _ _
  change low (0 : BitVec W) + v rref = v rref
  rw [low_zero]
  exact BitVec.zero_add _

/-- The constant is the value where they are compared as equal. -/
theorem factRight_equal {j : Fin 2}
    (h : ∀ x y, (comparison index x y = true ↔ j = 0) → x = y) : FactRight index q rref c nb
      (factInsn f.toFunc rest rref .add (.const 0) (.const c)) j := by
  intro e v _ hj
  change low (0 : BitVec W) + low c = v rref
  rw [h _ _ hj, low_zero]
  exact BitVec.zero_add _

/-- The bits under the mask are the value where it is at most the constant. -/
theorem factRight_and (hm : mask c = some m)
    (h : ∀ x y, comparison index x y = true → x ≤ y) : FactRight index q rref c nb
      (factInsn f.toFunc rest rref .and (.ref rref) (.const m)) 0 := by
  intro e v _ hj
  change v rref &&& low m = v rref
  obtain ⟨hlt, -⟩ := mask_eq_some hm
  have hle := BitVec.le_def.1 (h _ _ (hj.2 rfl))
  refine and_mask hm ?_
  rwa [low, BitVec.toNat_setWidth, Nat.mod_eq_of_lt (hlt.trans (by decide))] at hle

/-- A mask that is added leaves the value as it is only if it is 0, unless the edge is never taken.
-/
theorem factRight_add_iff (hne : q ≠ rref) : FactRight index q rref c nb
    (factInsn f.toFunc rest rref .add (.ref rref) (.const m)) 1 ↔
      low m = 0 ∨ ∀ x, comparison index x (low c) = true := by
  constructor
  · intro hright
    by_cases htaken : ∀ x, comparison index x (low c) = true
    · exact .inr htaken
    · obtain ⟨x, hx⟩ := not_forall.1 htaken
      have hfalse := Bool.eq_false_iff.2 hx
      have hvalue := hright ⟨fun _ => 0, fun _ _ _ _ => 0⟩
        (fun r => if r = rref then x else 0)
        (by rw [if_neg hne, if_pos rfl, hfalse]; rfl)
        (by rw [if_pos rfl, hfalse]; decide)
      change (if rref = rref then x else 0) + low m = if rref = rref then x else 0 at hvalue
      rw [if_pos rfl] at hvalue
      exact .inl (BitVec.add_right_eq_self.1 hvalue)
  · rintro (hzero | hall) e v _ hj
    · change v rref + low m = v rref
      rw [hzero]
      exact BitVec.add_zero _
    · exact absurd (hj.1 (hall _)) Fin.zero_ne_one.symm

theorem exists_mask_iff : (∃ m, mask c = some m) ↔ c.toNat < 2 ^ 30 := by
  refine ⟨?_, exists_mask⟩
  rintro ⟨m, hm⟩
  exact (mask_eq_some hm).1

theorem masked_iff (hindex : (f.insn q).index = .sflt ∨ (f.insn q).index = .sfle) :
    (∃ n, factInsns f.toFunc rest q rref c = some (some n) ∧
      ∀ j : Fin 2, FactRight (f.insn q).index q rref c (nb + j) (n j) j) ↔ c.toNat < 2 ^ 30 := by
  have hinsns : factInsns f.toFunc rest q rref c = (mask c).map fun m => some
      ![factInsn f.toFunc rest rref .and (.ref rref) (.const m),
        factInsn f.toFunc rest rref .add (.const 0) (.ref rref)] := by
    unfold factInsns
    rcases hindex with hindex | hindex <;> rw [hindex]
  rw [hinsns, ← exists_mask_iff]
  constructor
  · rintro ⟨n, hn, -⟩
    obtain ⟨m, hm, -⟩ := Option.map_eq_some_iff.1 hn
    exact ⟨m, hm⟩
  · rintro ⟨m, hm⟩
    rw [hm]
    refine ⟨_, rfl, fun j => ?_⟩
    match j with
    | 0 =>
      refine factRight_and hm fun x y hxy => ?_
      rcases hindex with hindex | hindex <;> rw [hindex] at hxy
      · exact BitVec.le_of_lt (of_decide_eq_true hxy)
      · exact of_decide_eq_true hxy
    | 1 => exact factRight_same 1

theorem added_iff (hne : q ≠ rref)
    (hindex : (f.insn q).index = .sfgt ∨ (f.insn q).index = .sfge) :
    (∃ n, factInsns f.toFunc rest q rref c = some (some n) ∧
      ∀ j : Fin 2, FactRight (f.insn q).index q rref c (nb + j) (n j) j) ↔
      (c + 1).toNat < 2 ^ 30 ∧
        (c + 1 = 0 ∨ ∀ x, comparison (f.insn q).index x (low c) = true) := by
  have hinsns : factInsns f.toFunc rest q rref c = (mask (c + 1)).map fun m => some
      ![factInsn f.toFunc rest rref .add (.const 0) (.ref rref),
        factInsn f.toFunc rest rref .add (.ref rref) (.const m)] := by
    unfold factInsns
    rcases hindex with hindex | hindex <;> rw [hindex]
  rw [hinsns, ← exists_mask_iff]
  constructor
  · rintro ⟨n, hn, hright⟩
    obtain ⟨m, hm, hn⟩ := Option.map_eq_some_iff.1 hn
    obtain rfl := Option.some.inj hn
    exact ⟨⟨m, hm⟩, ((factRight_add_iff hne).1 (hright 1)).imp_left (low_mask_eq_zero hm).1⟩
  · rintro ⟨⟨m, hm⟩, hzero⟩
    rw [hm]
    refine ⟨_, rfl, fun j => ?_⟩
    match j with
    | 0 => exact factRight_same 0
    | 1 => exact (factRight_add_iff hne).2 (hzero.imp_left (low_mask_eq_zero hm).2)

/-- **Conditional facts** are right exactly for the constants in `FactExact`. -/
theorem factsSound_iff (rest : Operand W) (hsit : Situation f b q rref c) :
    FactsSound rest f b q rref ↔ FactExact (f.insn q).index c := by
  have hne : q ≠ rref := fun he => absurd hsit.order (by rw [he]; exact lt_irrefl _)
  have hcmp := hsit.isCompare
  rw [factsSound_iff_right hsit]
  cases hindex : (f.insn q).index <;> rw [hindex] at hcmp <;> try cases hcmp
  case sfeq =>
    refine iff_of_true ⟨_, by rw [factInsns, hindex], fun j => ?_⟩ trivial
    match j with
    | 0 => exact factRight_equal fun x y hxy => of_decide_eq_true (hxy.2 rfl)
    | 1 => exact factRight_same 1
  case sfne =>
    refine iff_of_true ⟨_, by rw [factInsns, hindex], fun j => ?_⟩ trivial
    match j with
    | 0 => exact factRight_same 0
    | 1 =>
      refine factRight_equal fun x y hxy => by_contra fun hxy' => ?_
      exact Fin.zero_ne_one.symm (hxy.1 (decide_eq_true hxy'))
  case sflt =>
    rw [← hindex]
    refine (masked_iff (.inl hindex)).trans ?_
    rw [hindex]
    rfl
  case sfle =>
    rw [← hindex]
    refine (masked_iff (.inr hindex)).trans ?_
    rw [hindex]
    rfl
  case sfgt =>
    rw [← hindex]
    refine (added_iff hne (.inl hindex)).trans ?_
    rw [hindex]
    change (c + 1).toNat < 2 ^ 30 ∧ (c + 1 = 0 ∨ ∀ x, decide (low c < x) = true) ↔ c + 1 = 0
    constructor
    · rintro ⟨-, hzero | hall⟩
      · exact hzero
      · exact absurd (of_decide_eq_true (hall 0)) BitVec.not_lt_zero
    · intro hzero
      exact ⟨by rw [hzero]; exact Nat.two_pow_pos 30, .inl hzero⟩
  case sfge =>
    rw [← hindex]
    refine (added_iff hne (.inr hindex)).trans ?_
    rw [hindex]
    change (c + 1).toNat < 2 ^ 30 ∧ (c + 1 = 0 ∨ ∀ x, decide (low c ≤ x) = true) ↔
      c + 1 = 0 ∨ low c = 0 ∧ (c + 1).toNat < 2 ^ 30
    constructor
    · rintro ⟨hlt, hzero | hall⟩
      · exact .inl hzero
      · exact .inr ⟨BitVec.le_zero_iff.1 (of_decide_eq_true (hall 0)), hlt⟩
    · rintro (hzero | ⟨hzero, hlt⟩)
      · exact ⟨by rw [hzero]; exact Nat.two_pow_pos 30, .inl hzero⟩
      · refine ⟨hlt, .inr fun x => ?_⟩
        rw [hzero]
        exact decide_eq_true (BitVec.le_def.2 (Nat.zero_le _))

/-- The wires at the end of the block: the compare has found what it finds for the value. -/
theorem slots_compare (hsit : Situation f b q rref c) (h : FactsAdded f g b rref n) (env : PathEnv)
    (bs : List ℕ) (e : Env) :
    slots g env (b :: bs) q = slotValue f.toFunc e (slots g env (b :: bs)) q := by
  obtain ⟨-, -, hqb, hrb⟩ := conditional_spec hsit.found
  obtain ⟨qb, qi⟩ := q
  obtain ⟨rb, ri⟩ := rref
  change qb = b at hqb
  change rb = b at hrb
  subst qb rb
  have hninsn : g.ninsn b = f.ninsn b := h.ninsn_old b hsit.block_lt
  have hinsn : g.insn ⟨b, qi⟩ = f.insn ⟨b, qi⟩ := h.insn_behind qi rfl hsit.order hsit.block_lt
  rw [slotValue_compare hsit e, slots, hninsn, slotInsns_of_lt hsit.compare_lt,
    slotInsns_of_lt (hsit.order.trans hsit.compare_lt)]
  have hvalue : ∀ (e : Env) (v : Ref → Word),
      slotValue g.toFunc e v ⟨b, qi⟩ = slotValue f.toFunc e v ⟨b, qi⟩ := by
    intro e v
    unfold slotValue
    rw [hinsn]
  rw [hvalue, slotValue_compare hsit, slotInsns_of_lt hsit.order]

/-- **Along every path** the wire of a fact has the compared value behind its edge. -/
theorem fact_along_path {rest : Operand W} (hsit : Situation f b q rref c)
    (hexact : FactExact (f.insn q).index c) : ∃ g, insertFact rest f b = some g ∧
      ∀ (env : PathEnv) (bs : List ℕ) (j : Fin 2), (slots g env (b :: bs) q ≠ 0 ↔ j = 0) →
        ∃ nb, g.next b j = .bb nb ∧
          slots g env (nb :: b :: bs) ⟨nb, 0⟩ = slots g env (nb :: b :: bs) rref := by
  obtain ⟨n, hn, hright⟩ :=
    (factsSound_iff_right hsit).1 ((factsSound_iff rest hsit).2 hexact)
  obtain ⟨g, hg, hspec⟩ := hsit.exists_factsAdded hn
  refine ⟨g, hg, fun env bs j hj => ⟨f.numBb + j, hspec.next_self j, ?_⟩⟩
  have hflag : slots g env (b :: bs) q =
      flag (comparison (f.insn q).index (slots g env (b :: bs) rref) (low c)) :=
    (slots_compare hsit hspec env bs (blockEnv g env b bs)).trans (slotValue_compare hsit _ _)
  have hrb : rref.bb = b := (conditional_spec hsit.found).2.2.2
  have hne : rref.bb ≠ f.numBb + j := by
    rw [hrb]
    have hlt := hsit.block_lt
    omega
  rw [slots, hspec.ninsn_new j, slotInsns_of_not (.inl hne), slotInsns_of_lt Nat.zero_lt_one]
  unfold slotValue
  rw [hspec.insn_new j]
  rw [hflag, flag_ne_zero_iff] at hj
  exact hright j _ _ hflag hj

end Main

/-- A function that compares `r3` with 5, and jumps over a block. -/
def compareAndBranch (index : Index) : Cfg 64 where
  numBb := 3
  dead _ := false
  ninsn b := if b = 0 then 3 else 1
  insn r :=
    match r with
    | ⟨0, 0⟩ => { (nopInsn : Insn 64) with
        index := .add, op := ![.dest 4, .register 3, .const 0, .none, .none] }
    | ⟨0, 1⟩ => { (nopInsn : Insn 64) with
        cond := true, index := index
        op := ![.dest 32, .ref ⟨0, 0⟩, .const 5, .none, .none] }
    | ⟨0, 2⟩ => { (nopInsn : Insn 64) with
        branch := true, volatile := true, index := .bf
        op := ![.bb 2, .ref ⟨0, 1⟩, .none, .none, .none] }
    | _ => { (nopInsn : Insn 64) with
        output := true, index := .add
        op := ![.dest 11, .ref ⟨0, 0⟩, .const 1, .none, .none] }
  next b :=
    match b with
    | 0 => ![.bb 2, .bb 1]
    | 1 => ![.bb 2, .none]
    | _ => ![.stop, .none]
  prev b :=
    match b with
    | 0 => ![.start, .none]
    | 1 => ![.bb 0, .none]
    | _ => ![.bb 0, .bb 1]

theorem compareAndBranch_situation {index : Index} (h : index.isCompare = true) :
    Situation (compareAndBranch index) 0 ⟨0, 1⟩ ⟨0, 0⟩ 5 where
  found := rfl
  isCompare := h
  order := Nat.zero_lt_one
  compare_lt := (by decide : 1 < 3)
  block_lt := (by decide : 0 < 3)
  inside := by
    have hall : ∀ d < 3, ∀ k : Fin 2,
        ((compareAndBranch .nop).next d k).toBlock.all (· < 3) = true := by decide
    intro d hd k t hnext
    have hlt := hall d hd k
    change ((compareAndBranch index).next d k).toBlock.all (· < 3) = true at hlt
    rw [hnext] at hlt
    exact of_decide_eq_true hlt
  asserts := ⟨_, rfl⟩

/-- A value of at most 5 has its upper bits cleared. -/
theorem factsSound_iff_masked :
    FactsSound .none (compareAndBranch .sfle) 0 ⟨0, 1⟩ ⟨0, 0⟩ :=
  (factsSound_iff .none (compareAndBranch_situation rfl)).2 (by
    change (5 : BitVec 64).toNat < 2 ^ 30
    decide)

/-- **The mask is added**: a value of at most 5 gets 7 more on the false edge of `sfgt`. -/
theorem fact_adds_mask :
    ¬FactsSound .none (compareAndBranch .sfgt) 0 ⟨0, 1⟩ ⟨0, 0⟩ := by
  intro hsound
  obtain ⟨n, hn, hright⟩ := (factsSound_iff_right (compareAndBranch_situation rfl)).1 hsound
  obtain rfl : ![_, _] = n := Option.some.inj (Option.some.inj hn)
  have hvalue := hright 1 ⟨fun _ => 0, fun _ _ _ _ => 0⟩ (fun r => if r = ⟨0, 0⟩ then 3 else 0)
    (by decide) (by decide)
  revert hvalue
  decide

end Cuc
end Or1ksim
