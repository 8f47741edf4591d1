import Or1ksim.Cuc.Facts
import Or1ksim.Lib.Compact

/-!
# Removing dead blocks

`remove_dead_bb` of `cuc/bb.c`: the blocks that are not dead move together, and the links, the
references and the targets of branches follow them.

* `relocTarget`, `relocOperand`, `relocLinks` — what follows its block;
* `removeDeadBb` — the pass, as far as no assertion fails;
* `Renumbers` — two functions that are the same up to the numbers of their blocks;
* `Renumbers.valuation_iff`, `Renumbers.observe_eq` — they compute the same;
* `Compacted` — the blocks that live, with the graph between them;
* `removeDeadBb_exact` — **the function keeps its graph and its meaning** where the assertions hold.
-/

namespace Or1ksim
namespace Cuc

open Or1ksim.Compact

variable {W : ℕ}

/-- `BBID_END`: `MAX_BB + 1`. -/
def bbidEnd : ℕ := 0x1001

/-! ### The pass -/

/-- The blocks that are kept. -/
def Func.lives (f : Func W) (b : ℕ) : Bool := !f.dead b

/-- `reloc` of a block. -/
def Func.pos (f : Func W) (b : ℕ) : ℕ := place f.lives b

/-- Which block comes to lie at a place. -/
def Func.src (f : Func W) (b : ℕ) : ℕ := (kept f.lives f.numBb).getD b b

/-- A block of the function that lives; the others have no place. -/
def Func.LivesAt (f : Func W) (b : ℕ) : Prop := b < f.numBb ∧ f.dead b = false

instance (f : Func W) (b : ℕ) : Decidable (f.LivesAt b) := inferInstanceAs (Decidable (_ ∧ _))

/-- A link with another number for its block. -/
def Link.renumber (pos : ℕ → ℕ) : Link → Link
  | .bb b => .bb (pos b)
  | l => l

/-- The assertion about a link; `edge` is the end that it may have. -/
def linkLives (f : Func W) (edge : Link) : Link → Bool
  | .none => true
  | .bb b => f.LivesAt b
  | l => l = edge

/-- The word of an `OPT_BB` operand is not looked up: its block is negative, or `BBID_END`. -/
def isEndTarget (t : BitVec W) : Bool := (t.setWidth 32).toInt < 0 || t.toNat = bbidEnd

/-- The place of a branch target.  The assertion about it does not fail, since the word is not
signed: a dead block becomes -1. -/
def relocTarget (f : Func W) (t : BitVec W) : BitVec W :=
  if isEndTarget t then t
  else if f.dead t.toNat then BitVec.allOnes W
  else BitVec.ofNat W (f.pos t.toNat)

/-- An operand follows its block. -/
def relocOperand (f : Func W) : Operand W → Operand W
  | .bb t => .bb (relocTarget f t)
  | .ref q => .ref ⟨f.pos q.bb, q.i⟩
  | o => o

/-- The assertion about a reference; a target is a block of the function. -/
def operandLives (f : Func W) : Operand W → Bool
  | .ref q => f.LivesAt q.bb
  | .bb t => isEndTarget t || t.toNat < f.numBb
  | _ => true

/-- No assertion fails for a block. -/
def Cfg.relocatable (f : Cfg W) (b : ℕ) : Bool :=
  ((List.finRange 2).all fun k => linkLives f.toFunc .start (f.prev b k) &&
    linkLives f.toFunc .stop (f.next b k)) &&
  (List.range (f.ninsn b)).all fun i => (List.finRange 5).all fun k =>
    operandLives f.toFunc ((f.insn ⟨b, i⟩).op k)

/-- The links of a block, without one that is there twice. -/
def relocLinks (f : Func W) (links : Fin 2 → Link) : Fin 2 → Link :=
  let links := fun k => (links k).renumber f.pos
  if links 0 = links 1 then ![links 0, .none] else links

/-- The blocks that live, with what follows them. -/
def Cfg.compact (f : Cfg W) : Cfg W where
  numBb := f.pos f.numBb
  dead b := f.dead (f.src b)
  ninsn b := f.ninsn (f.src b)
  insn r :=
    let ii := f.insn ⟨f.src r.bb, r.i⟩
    { ii with op := fun k => relocOperand f.toFunc (ii.op k) }
  next b := relocLinks f.toFunc (f.next (f.src b))
  prev b := relocLinks f.toFunc (f.prev (f.src b))

/-- Where an entry of the function lies, `none` where its block is dead. -/
def relocEntry (f : Func W) (b : ℕ) : Option ℕ := if f.dead b then none else some (f.pos b)

/-- `remove_dead_bb`, with the entries `init_bb_reloc`; none where an assertion fails, or a block
that is looked up is not one of the function. -/
def removeDeadBb (f : Cfg W) (init : List (Option ℕ)) : Option (Cfg W × List (Option ℕ)) :=
  if f.pos f.numBb = f.numBb then some (f, init)
  else if (init.all fun b => b.any (· < f.numBb)) && (kept f.lives f.numBb).all f.relocatable then
    some (f.compact, init.map fun b => b.bind (relocEntry f.toFunc))
  else none

/-! ### Functions with other block numbers -/

/-- The operand is the same, but for the number of its block. -/
def Operand.Follows (pos : ℕ → ℕ) : Operand W → Operand W → Prop
  | .ref q, o => o = .ref ⟨pos q.bb, q.i⟩
  | .bb _, o => ∃ b, o = .bb b
  | o, o' => o' = o

/-- The instruction is the same, but for the blocks of its operands. -/
structure Insn.Follows (pos : ℕ → ℕ) (ii ii' : Insn W) : Prop where
  index : ii'.index = ii.index
  output : ii'.output = ii.output
  op : ∀ k, (ii.op k).Follows pos (ii'.op k)

/-- The blocks of `g` are those of `f` that live, with other numbers. -/
structure Renumbers (f g : Func W) (pos src : ℕ → ℕ) : Prop where
  livesAt : ∀ b, f.LivesAt b → g.LivesAt (pos b) ∧ src (pos b) = b
  livesAt_src : ∀ c, g.LivesAt c → f.LivesAt (src c) ∧ pos (src c) = c
  ninsn : ∀ b, f.LivesAt b → g.ninsn (pos b) = f.ninsn b
  insn : ∀ r, f.Live r → (f.insn r).Follows pos (g.insn ⟨pos r.bb, r.i⟩)

/-- The inputs, with the blocks of the other numbers. -/
def Env.renumber (src : ℕ → ℕ) (env : Env) : Env := { env with unit := fun b => env.unit (src b) }

/-- The values of the instructions, at the other numbers. -/
def renumbered (pos : ℕ → ℕ) (w : Ref → Word) (r : Ref) : Word := w ⟨pos r.bb, r.i⟩

namespace Renumbers

variable {f g : Func W} {pos src : ℕ → ℕ} {env : Env} {w : Ref → Word} {r q : Ref}

theorem live (h : Renumbers f g pos src) (hr : f.Live r) : g.Live ⟨pos r.bb, r.i⟩ := by
  obtain ⟨hg, -⟩ := h.livesAt r.bb ⟨hr.1, hr.2.1⟩
  exact ⟨hg.1, hg.2, (h.ninsn r.bb ⟨hr.1, hr.2.1⟩).symm ▸ hr.2.2⟩

theorem exists_live (h : Renumbers f g pos src) (hq : g.Live q) :
    ∃ r, f.Live r ∧ q = ⟨pos r.bb, r.i⟩ := by
  obtain ⟨hf, hpos⟩ := h.livesAt_src q.bb ⟨hq.1, hq.2.1⟩
  have hninsn := h.ninsn (src q.bb) hf
  rw [hpos] at hninsn
  exact ⟨⟨src q.bb, q.i⟩, ⟨hf.1, hf.2, hninsn ▸ hq.2.2⟩, by rw [hpos]⟩

theorem operandValue_eq {o o' : Operand W} (ho : o.Follows pos o') :
    operandValue (env.renumber src) w o' = operandValue env (renumbered pos w) o := by
  cases o with
  | ref q =>
    cases ho
    rfl
  | bb b =>
    obtain ⟨b', rfl⟩ := ho
    rfl
  | none | const | register | dest | jump | lrbb =>
    cases ho
    rfl

theorem args_eq (h : Renumbers f g pos src) (hr : f.Live r) :
    args (env.renumber src) w (g.insn ⟨pos r.bb, r.i⟩) =
      args env (renumbered pos w) (f.insn r) := by
  funext k
  exact operandValue_eq ((h.insn r hr).op k)

/-- The instructions of a block before one are counted the same. -/
theorem unitNo_eq (h : Renumbers f g pos src) (hr : f.Live r) :
    g.unitNo ⟨pos r.bb, r.i⟩ = f.unitNo r := by
  unfold Func.unitNo
  refine congrArg List.length (List.filter_congr fun i hi => ?_)
  have hlive : f.Live ⟨r.bb, i⟩ := ⟨hr.1, hr.2.1, (List.mem_range.1 hi).trans hr.2.2⟩
  rw [(h.insn _ hlive).index]

theorem compute_renumber {b n : ℕ} (hb : src (pos b) = b) (index : Index)
    (x : OperandNo → Word) :
    compute (env.renumber src) (pos b) n index x = compute env b n index x := by
  cases index <;> simp only [compute, Env.renumber, hb]

theorem value_eq (h : Renumbers f g pos src) (hr : f.Live r) :
    value (env.renumber src) g w ⟨pos r.bb, r.i⟩ = value env f (renumbered pos w) r := by
  obtain ⟨-, hsrc⟩ := h.livesAt r.bb ⟨hr.1, hr.2.1⟩
  unfold value
  rw [h.args_eq hr, h.unitNo_eq hr, (h.insn r hr).index]
  exact compute_renumber hsrc _ _

/-- **The instructions hold the same values.** -/
theorem valuation_iff (h : Renumbers f g pos src) (env : Env) (w : Ref → Word) :
    Valuation (env.renumber src) g w ↔ Valuation env f (renumbered pos w) := by
  constructor
  · intro hw r hr
    have hval : (g.insn ⟨pos r.bb, r.i⟩).index.isValue := by
      rw [(h.insn r hr.1).index]
      exact hr.2
    exact (hw.eq (h.live hr.1) hval).trans (h.value_eq hr.1)
  · intro hv q hq
    obtain ⟨r, hr, rfl⟩ := h.exists_live hq.1
    have hval : (f.insn r).index.isValue := by
      rw [← (h.insn r hr).index]
      exact hq.2
    exact (hv.eq hr hval).trans (h.value_eq hr).symm

theorem observe_eq (h : Renumbers f g pos src) (env : Env) (w : Ref → Word) :
    (observe (env.renumber src) g w).outputs = (observe env f (renumbered pos w)).outputs ∧
      ∀ b, f.LivesAt b → (observe (env.renumber src) g w).effects (pos b) =
        (observe env f (renumbered pos w)).effects b := by
  have hdest : ∀ {r : Ref} {d : BitVec W}, f.Live r →
      ((g.insn ⟨pos r.bb, r.i⟩).op 0 = .dest d ↔ (f.insn r).op 0 = .dest d) := by
    intro r d hr
    have hop := (h.insn r hr).op 0
    generalize (f.insn r).op 0 = o at hop
    generalize (g.insn ⟨pos r.bb, r.i⟩).op 0 = o' at hop
    cases o with
    | bb b =>
      obtain ⟨b', rfl⟩ := hop
      exact ⟨nofun, nofun⟩
    | ref q =>
      cases hop
      exact ⟨nofun, nofun⟩
    | none | const | register | dest | jump | lrbb =>
      cases hop
      exact Iff.rfl
  refine ⟨Set.ext fun o => ⟨?_, ?_⟩, fun b hb => ?_⟩
  · rintro ⟨q, hq, hval, hout, hd, hx⟩
    obtain ⟨r, hr, rfl⟩ := h.exists_live hq
    exact ⟨r, hr, (h.insn r hr).index ▸ hval, (h.insn r hr).output ▸ hout, (hdest hr).1 hd, hx⟩
  · rintro ⟨r, hr, hval, hout, hd, hx⟩
    exact ⟨_, h.live hr, (h.insn r hr).index.symm ▸ hval, (h.insn r hr).output.symm ▸ hout,
      (hdest hr).2 hd, hx⟩
  · obtain ⟨hg, -⟩ := h.livesAt b hb
    dsimp only [observe]
    rw [if_pos ⟨hg.1, hg.2⟩, if_pos ⟨hb.1, hb.2⟩, h.ninsn b hb]
    refine List.filterMap_congr fun i hi => ?_
    have hlive : f.Live ⟨b, i⟩ := ⟨hb.1, hb.2, List.mem_range.1 hi⟩
    unfold effectAt
    rw [h.args_eq hlive, (h.insn _ hlive).index]

end Renumbers

/-! ### What the pass does -/

/-- What the assertions ask of a block: it does not lead or refer to a dead one. -/
structure Cfg.Closed (f : Cfg W) (b : ℕ) : Prop where
  next : ∀ k, f.next b k ≠ .start ∧ ∀ c, f.next b k = .bb c → f.LivesAt c
  prev : ∀ k, f.prev b k ≠ .stop ∧ ∀ c, f.prev b k = .bb c → f.LivesAt c
  refs : ∀ i < f.ninsn b, ∀ k q, (f.insn ⟨b, i⟩).op k = .ref q → f.LivesAt q.bb
  targets : ∀ i < f.ninsn b, ∀ k t, (f.insn ⟨b, i⟩).op k = .bb t →
    isEndTarget t ∨ t.toNat < f.numBb

/-- The blocks that live, in their order, with the links and the targets between them. -/
structure Compacted (f g : Cfg W) : Prop where
  renumbers : Renumbers f.toFunc g.toFunc f.pos f.src
  lives : ∀ c < g.numBb, g.dead c = false
  pos_lt : ∀ {b c}, f.LivesAt b → f.LivesAt c → b < c → f.pos b < f.pos c
  next : ∀ {b l}, f.LivesAt b → l ≠ .none →
    ((∃ k, g.next (f.pos b) k = l) ↔ ∃ k, (f.next b k).renumber f.pos = l)
  prev : ∀ {b l}, f.LivesAt b → l ≠ .none →
    ((∃ k, g.prev (f.pos b) k = l) ↔ ∃ k, (f.prev b k).renumber f.pos = l)
  target : ∀ {r k t}, f.Live r → (f.insn r).op k = .bb t → f.LivesAt t.toNat →
    ∃ t', (g.insn ⟨f.pos r.bb, r.i⟩).op k = .bb t' ∧ t'.toNat = f.pos t.toNat
  /-- This is where the assertion does not fail. -/
  target_dead : ∀ {r k t}, f.Live r → (f.insn r).op k = .bb t → t.toNat < f.numBb →
    f.dead t.toNat = true → (g.insn ⟨f.pos r.bb, r.i⟩).op k = .bb (BitVec.allOnes W)

section

variable {f : Cfg W} {b c : ℕ} {links : Fin 2 → Link} {l : Link}

theorem lives_eq_true (h : f.LivesAt b) : f.lives b = true := by
  rw [Func.lives, h.2]
  rfl

theorem linkLives_start : linkLives f.toFunc .start l = true ↔
    l ≠ .stop ∧ ∀ c, l = .bb c → f.LivesAt c := by
  cases l <;> simp [linkLives]

theorem linkLives_stop : linkLives f.toFunc .stop l = true ↔
    l ≠ .start ∧ ∀ c, l = .bb c → f.LivesAt c := by
  cases l <;> simp [linkLives]

theorem operandLives_iff {o : Operand W} : operandLives f.toFunc o = true ↔
    (∀ q, o = .ref q → f.LivesAt q.bb) ∧
      ∀ t, o = .bb t → isEndTarget t ∨ t.toNat < f.numBb := by
  cases o <;> simp [operandLives]

theorem relocatable_iff : f.relocatable b = true ↔ f.Closed b := by
  unfold Cfg.relocatable
  simp only [Bool.and_eq_true, List.all_eq_true, List.mem_finRange, true_imp_iff, List.mem_range,
    linkLives_start, linkLives_stop, operandLives_iff]
  constructor
  · rintro ⟨hlinks, hops⟩
    exact ⟨fun k => (hlinks k).2, fun k => (hlinks k).1, fun i hi k => (hops i hi k).1,
      fun i hi k => (hops i hi k).2⟩
  · intro h
    exact ⟨fun k => ⟨h.prev k, h.next k⟩, fun i hi k => ⟨h.refs i hi k, h.targets i hi k⟩⟩

theorem src_pos (h : f.LivesAt b) : f.src (f.pos b) = b := by
  unfold Func.src Func.pos
  rw [List.getD_eq_getElem?_getD, getElem?_kept_place (lives_eq_true h) h.1]
  rfl

theorem pos_lt (h : f.LivesAt b) : f.pos b < f.pos f.numBb := place_lt_place (lives_eq_true h) h.1

theorem exists_pos (h : c < f.pos f.numBb) : ∃ b, f.LivesAt b ∧ f.pos b = c := by
  obtain ⟨b, hb, hlives, hpos⟩ := exists_place h
  refine ⟨b, ⟨hb, ?_⟩, hpos⟩
  rw [Func.lives, Bool.not_eq_true'] at hlives
  exact hlives

theorem numBb_fixed_iff : f.pos f.numBb = f.numBb ↔ ∀ b < f.numBb, f.dead b = false := by
  refine place_eq_self_iff.trans (forall₂_congr fun b _ => ?_)
  rw [Func.lives, Bool.not_eq_true']

/-- A link is there after the relocation as it was before, but not twice. -/
theorem exists_relocLinks (hl : l ≠ .none) :
    (∃ k, relocLinks f.toFunc links k = l) ↔ ∃ k, (links k).renumber f.pos = l := by
  unfold relocLinks
  dsimp only
  split
  · next heq =>
    rw [Fin.exists_fin_two, Fin.exists_fin_two, ← heq, or_self]
    refine ⟨fun h => h.resolve_right fun hnone => hl hnone.symm, Or.inl⟩
  · rfl

/-- A block of the function is no end: there are less than `BBID_END` blocks. -/
theorem not_isEndTarget {t : BitVec W} (hmax : f.numBb ≤ maxBb) (ht : t.toNat < f.numBb) :
    isEndTarget t = false := by
  have hlt : t.toNat < 0x1000 := Nat.lt_of_lt_of_le ht hmax
  have hnat : (t.setWidth 32).toNat = t.toNat := by
    rw [BitVec.toNat_setWidth]
    exact Nat.mod_eq_of_lt (by omega)
  have hint : (t.setWidth 32).toInt = t.toNat := by
    rw [BitVec.toInt_eq_toNat_of_lt (by omega), hnat]
  unfold isEndTarget
  rw [hint, Bool.or_eq_false_iff, decide_eq_false_iff_not, decide_eq_false_iff_not, bbidEnd]
  omega

theorem toNat_relocTarget {t : BitVec W} (hmax : f.numBb ≤ maxBb) (ht : f.LivesAt t.toNat) :
    (relocTarget f.toFunc t).toNat = f.pos t.toNat := by
  unfold relocTarget
  rw [not_isEndTarget hmax ht.1, if_neg Bool.false_ne_true, ht.2, if_neg Bool.false_ne_true,
    BitVec.toNat_ofNat]
  exact Nat.mod_eq_of_lt (Nat.lt_of_le_of_lt (place_le _ _) t.isLt)

theorem relocOperand_follows (o : Operand W) : o.Follows f.pos (relocOperand f.toFunc o) := by
  cases o with
  | bb t => exact ⟨_, rfl⟩
  | _ => rfl

/-- **The blocks that live keep their order, their links and what they compute.** -/
theorem compact_compacted (hmax : f.numBb ≤ maxBb) : Compacted f f.compact where
  renumbers :=
    { livesAt := fun b hb => ⟨⟨pos_lt hb, (congrArg f.dead (src_pos hb)).trans hb.2⟩, src_pos hb⟩
      livesAt_src := fun c hc => by
        obtain ⟨b, hb, rfl⟩ := exists_pos hc.1
        rw [src_pos hb]
        exact ⟨hb, rfl⟩
      ninsn := fun b hb => congrArg f.ninsn (src_pos hb)
      insn := fun r hr => by
        have hinsn : (⟨f.src (f.pos r.bb), r.i⟩ : Ref) = r := by rw [src_pos ⟨hr.1, hr.2.1⟩]
        refine ⟨congrArg (fun q => (f.insn q).index) hinsn,
          congrArg (fun q => (f.insn q).output) hinsn, fun k => ?_⟩
        dsimp only [Cfg.compact]
        rw [hinsn]
        exact relocOperand_follows _ }
  lives c hc := by
    obtain ⟨b, hb, rfl⟩ := exists_pos hc
    exact (congrArg f.dead (src_pos hb)).trans hb.2
  pos_lt hb _ hlt := place_lt_place (lives_eq_true hb) hlt
  next hb hl := by
    dsimp only [Cfg.compact]
    rw [src_pos hb]
    exact exists_relocLinks hl
  prev hb hl := by
    dsimp only [Cfg.compact]
    rw [src_pos hb]
    exact exists_relocLinks hl
  target hr hop ht := by
    refine ⟨_, ?_, toNat_relocTarget hmax ht⟩
    dsimp only [Cfg.compact]
    rw [src_pos ⟨hr.1, hr.2.1⟩, hop]
    rfl
  target_dead hr hop ht hdead := by
    dsimp only [Cfg.compact]
    rw [src_pos ⟨hr.1, hr.2.1⟩, hop, relocOperand, relocTarget, not_isEndTarget hmax ht,
      if_neg Bool.false_ne_true, if_pos hdead]

theorem removeDeadBb_of_lives (h : ∀ b < f.numBb, f.dead b = false) (init : List (Option ℕ)) :
    removeDeadBb f init = some (f, init) := if_pos (numBb_fixed_iff.2 h)

/-- The assertions hold for the entries and for the blocks that live. -/
theorem removeDeadBb_of_dead (hdead : ∃ b < f.numBb, f.dead b = true) (init : List (Option ℕ)) :
    removeDeadBb f init =
      if (init.all fun b => b.any (· < f.numBb)) && (kept f.lives f.numBb).all f.relocatable then
        some (f.compact, init.map fun b => b.bind (relocEntry f.toFunc))
      else none := by
  refine if_neg fun hfixed => ?_
  obtain ⟨b, hb, hb'⟩ := hdead
  exact Bool.false_ne_true ((numBb_fixed_iff.1 hfixed b hb).symm.trans hb')

theorem assertions_iff {init : List (Option ℕ)} :
    ((init.all fun b => b.any (· < f.numBb)) && (kept f.lives f.numBb).all f.relocatable) = true ↔
      (∀ b ∈ init, ∃ c < f.numBb, b = some c) ∧ ∀ b, f.LivesAt b → f.Closed b := by
  rw [Bool.and_eq_true, List.all_eq_true, List.all_eq_true]
  refine and_congr (forall₂_congr fun b _ => ?_) (forall_congr' fun b => ?_)
  · rw [Option.any_eq_true]
    exact ⟨fun ⟨c, hb, hc⟩ => ⟨c, of_decide_eq_true hc, hb⟩,
      fun ⟨c, hc, hb⟩ => ⟨c, hb, decide_eq_true hc⟩⟩
  · rw [mem_kept, relocatable_iff, Func.lives, Bool.not_eq_true', Func.LivesAt]

end

/-- **Removing dead blocks changes nothing but numbers**: where a block is dead, the pass returns
if and only if the entries are blocks of the function and no block that lives leads or refers to a
dead one.  Then the blocks that live keep their order and their links, and the function computes
the same. -/
theorem removeDeadBb_exact (f : Cfg W) (init : List (Option ℕ)) (hmax : f.numBb ≤ maxBb)
    (hdead : ∃ b < f.numBb, f.dead b = true) :
    ((removeDeadBb f init).isSome ↔
      (∀ b ∈ init, ∃ c < f.numBb, b = some c) ∧ ∀ b, f.LivesAt b → f.Closed b) ∧
    ∀ g init', removeDeadBb f init = some (g, init') →
      Compacted f g ∧ init' = init.map (fun b => b.bind (relocEntry f.toFunc)) ∧
      ∀ env w, (Valuation (env.renumber f.src) g.toFunc w ↔
          Valuation env f.toFunc (renumbered f.pos w)) ∧
        (observe (env.renumber f.src) g.toFunc w).outputs =
          (observe env f.toFunc (renumbered f.pos w)).outputs ∧
        ∀ b, f.LivesAt b → (observe (env.renumber f.src) g.toFunc w).effects (f.pos b) =
          (observe env f.toFunc (renumbered f.pos w)).effects b := by
  rw [removeDeadBb_of_dead hdead, ← assertions_iff]
  constructor
  · split
    · next hassert => exact iff_of_true rfl hassert
    · next hassert => exact iff_of_false nofun hassert
  · intro g init' hsome
    split at hsome
    · cases hsome
      have hcompacted := compact_compacted hmax
      exact ⟨hcompacted, rfl, fun env w => ⟨hcompacted.renumbers.valuation_iff env w,
        hcompacted.renumbers.observe_eq env w⟩⟩
    · cases hsome

/-- A function that jumps over a dead block. -/
def deadMiddle : Cfg 64 where
  numBb := 3
  dead b := b == 1
  ninsn b := if b = 1 then 0 else 1
  insn r := { (nopInsn : Insn 64) with
    index := if r.bb = 0 then .bf else .add
    op := ![if r.bb = 0 then .bb 2 else .dest 11, .register 3, .const 1, .none, .none] }
  next b := if b = 2 then ![.stop, .none] else ![.bb 2, .none]
  prev b := if b = 0 then ![.start, .none] else ![.bb 0, .none]

theorem removeDeadBb_exact_deadMiddle : ∃ g init',
    removeDeadBb deadMiddle [some 0, some 1] = some (g, init') ∧ g.numBb = 2 ∧
      init' = [some 0, none] ∧ Compacted deadMiddle g := by
  have hsome : (removeDeadBb deadMiddle [some 0, some 1]).isSome = true := by decide
  obtain ⟨⟨g, init'⟩, heq⟩ := Option.isSome_iff_exists.1 hsome
  obtain ⟨hcompacted, hinit, -⟩ :=
    (removeDeadBb_exact deadMiddle [some 0, some 1] (by decide) ⟨1, by decide⟩).2 g init' heq
  refine ⟨g, init', heq, ?_, hinit.trans (by decide), hcompacted⟩
  rw [removeDeadBb_of_dead ⟨1, by decide⟩, if_pos (by decide)] at heq
  cases heq
  decide

end Cuc
end Or1ksim
