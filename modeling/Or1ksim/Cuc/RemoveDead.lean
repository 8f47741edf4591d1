import Or1ksim.Cuc.Relocate
import Or1ksim.Lib.Dfs

/-!
# Removing dead instructions

`unmark_tree` and `remove_dead` of `cuc/insn.c`: all instructions are marked unused, the mark is
taken from what the roots refer to, and what keeps it goes with the NOPs.

* `unmarkTree`, `removeDead` — the two functions, with a bound on the depth of the recursion;
* `Needed` — what can be reached from a root;
* `Remains` — the instructions that stay, in their order, with their operands renumbered;
* `removeDead_exact` — **`remove_dead` ends, and exactly the needed instructions that are no NOPs
  remain**.
-/

namespace Or1ksim
namespace Cuc

open Or1ksim.Compact

variable {W : ℕ}

/-- What is needed by itself. -/
def isRoot (order : MemoryOrder) (ii : Insn W) : Bool :=
  ii.volatile || ii.output ||
    (ii.index.isLoad && (decide (order = .none) || decide (order = .weak))) || ii.index.isStore

/-- The reference in an operand. -/
def Operand.ref? : Operand W → Option Ref
  | .ref q => some q
  | _ => Option.none

/-- The references of an instruction, in the order of its operands. -/
def Insn.refs (ii : Insn W) : List Ref := (List.finRange 5).filterMap fun k => (ii.op k).ref?

/-- The flags `IT_UNUSED` of the instructions while `remove_dead` runs. -/
abbrev Unused := Ref → Bool

/-- The flag is taken already. -/
def Unused.taken (unused : Unused) (r : Ref) : Bool := !unused r

/-- `type &= ~IT_UNUSED` -/
def unmark (r : Ref) (unused : Unused) : Unused := Function.update unused r false

/-- `type |= IT_UNUSED` for all instructions. -/
def markAll (f : Func W) : Unused := fun r => decide (f.InRange r) || (f.insn r).unused

/-- `unmark_tree`: takes the flag from an instruction and from what it refers to. -/
def unmarkTree (f : Func W) (fuel : ℕ) (ref : Ref) (unused : Unused) : Option Unused :=
  Dfs.search (fun r => (f.insn r).refs) Unused.taken unmark fuel ref unused

/-- Unused instructions are turned into NOPs. -/
def sweep (unused : Unused) (f : Linked W) : Linked W :=
  { f with
    insn := fun r => if f.InRange r then
      if unused r then nopInsn else { f.insn r with unused := false } else f.insn r
    dep := fun r => if f.InRange r ∧ unused r then [] else f.dep r }

/-- `remove_dead`; `none` where the recursion is deeper than `fuel`. -/
def removeDead (order : MemoryOrder) (fuel : ℕ) (f : Linked W) : Option (Linked W) := do
  let roots := f.insns.filter fun r => isRoot order (f.insn r)
  let unused ← roots.foldlM (fun u r => unmarkTree f.toFunc fuel r u) (markAll f.toFunc)
  some (removeNops (sweep unused f))

/-! ### What is needed -/

/-- A reference of `r` is `q`. -/
def Func.Uses (f : Func W) (r q : Ref) : Prop := ∃ k, (f.insn r).op k = .ref q

/-- What can be reached from a root. -/
def Needed (order : MemoryOrder) (f : Func W) (q : Ref) : Prop :=
  ∃ r, f.InRange r ∧ isRoot order (f.insn r) ∧ Relation.ReflTransGen f.Uses r q

/-- The instructions of `f` that are in `kept` are those of `g`, in their order and with their
operands renumbered; a reference to another instruction comes to lie behind those before it. -/
structure Remains (f g : Linked W) (kept : Ref → Prop) (pos : Ref → Ref) : Prop where
  numBb : g.numBb = f.numBb
  block : ∀ r, (pos r).bb = r.bb
  inRange : ∀ r, kept r → g.InRange (pos r)
  onto : ∀ p, g.InRange p → ∃ r, kept r ∧ pos r = p
  order : ∀ r s, kept s → s.bb = r.bb → ((pos s).i < (pos r).i ↔ s.i < r.i)
  insn : ∀ r, kept r → g.insn (pos r) = { f.insn r with unused := false }.relocate pos

variable {f : Linked W} {order : MemoryOrder} {fuel : ℕ} {unused : Unused} {r q : Ref}

theorem mem_refs {ii : Insn W} : q ∈ ii.refs ↔ ∃ k, ii.op k = .ref q := by
  have href : ∀ o : Operand W, o.ref? = some q ↔ o = .ref q := by
    intro o
    cases o <;> simp [Operand.ref?]
  simp [Insn.refs, href]

theorem reaches_iff {f : Func W} :
    Dfs.Reaches (fun r => (f.insn r).refs) r q ↔ Relation.ReflTransGen f.Uses r q := by
  have huses : (fun b c => c ∈ (f.insn b).refs) = f.Uses := by
    funext b c
    exact propext mem_refs
  rw [Dfs.Reaches, huses]

theorem Linked.Within.uses (hf : f.Within) (hr : f.InRange r) (h : f.Uses r q) : f.InRange q :=
  h.elim fun k hk => hf.op r hr k q hk

theorem Needed.inRange (hf : f.Within) (h : Needed order f.toFunc q) : f.InRange q := by
  obtain ⟨r, hr, -, hreach⟩ := h
  induction hreach with
  | refl => exact hr
  | tail _ huses ih => exact hf.uses ih huses

theorem taken_unmark (a : Ref) (u : Unused) (b : Ref) :
    (unmark a u).taken b = (decide (b = a) || u.taken b) := by
  by_cases hb : b = a
  · rw [hb, decide_eq_true rfl, Unused.taken, unmark, Function.update_self]
    rfl
  · rw [decide_eq_false hb, Unused.taken, unmark, Function.update_of_ne hb]
    rfl

theorem taken_markAll {f : Func W} (hr : f.InRange r) : (markAll f).taken r = false := by
  rw [Unused.taken, markAll, decide_eq_true hr]
  rfl

/-- **The flag is taken exactly from what is needed**, when the recursion may be deeper than the
function is long. -/
theorem unmark_roots (order : MemoryOrder) (hf : f.Within) (hfuel : f.insns.toFinset.card < fuel) :
    ∃ unused, (f.insns.filter fun r => isRoot order (f.insn r)).foldlM
        (fun u r => unmarkTree f.toFunc fuel r u) (markAll f.toFunc) = some unused ∧
      ∀ q, f.InRange q → (unused q = false ↔ Needed order f.toFunc q) := by
  have hU : ∀ a ∈ f.insns.toFinset, ∀ b ∈ (f.insn a).refs, b ∈ f.insns.toFinset := by
    intro a ha b hb
    rw [List.mem_toFinset, mem_insns] at ha ⊢
    exact hf.uses ha (mem_refs.1 hb)
  have hroots : ∀ a ∈ f.insns.filter fun r => isRoot order (f.insn r), a ∈ f.insns.toFinset :=
    fun a ha => List.mem_toFinset.2 (List.mem_of_mem_filter ha)
  -- all instructions have the flag first, so that the marks are closed under the references
  have hclosed : Dfs.Closed (fun r => (f.insn r).refs) Unused.taken f.insns.toFinset
      (markAll f.toFunc) := by
    intro b hb htaken
    rw [taken_markAll (mem_insns.1 (List.mem_toFinset.1 hb))] at htaken
    exact Bool.noConfusion htaken
  obtain ⟨unused, hunused, hiff⟩ := Dfs.search_all taken_unmark hU hroots hclosed
    ((Finset.card_le_card (Finset.filter_subset _ _)).trans_lt hfuel)
  refine ⟨unused, hunused, fun q hq => ?_⟩
  have htaken : unused q = false ↔ unused.taken q := by rw [Unused.taken, Bool.not_eq_true']
  rw [htaken, hiff, taken_markAll hq]
  constructor
  · rintro (h | ⟨r, hr, hreach⟩)
    · exact absurd h Bool.noConfusion
    · obtain ⟨hr, hroot⟩ := List.mem_filter.1 hr
      exact ⟨r, mem_insns.1 hr, hroot, reaches_iff.1 hreach⟩
  · rintro ⟨r, hr, hroot, hreach⟩
    exact .inr ⟨r, List.mem_filter.2 ⟨mem_insns.2 hr, hroot⟩, reaches_iff.2 hreach⟩

/-! ### What remains -/

theorem sweep_within (unused : Unused) (hf : f.Within) : (sweep unused f).Within where
  op r hr k q hk := by
    have hinsn : (sweep unused f).insn r =
        if unused r then nopInsn else { f.insn r with unused := false } := if_pos hr
    rw [hinsn] at hk
    split at hk
    · cases hk
    · exact hf.op r hr k q hk
  dep r hr q hq := by
    dsimp only [sweep] at hq
    split at hq
    · exact absurd hq List.not_mem_nil
    · exact hf.dep r hr q hq

theorem stays_sweep_iff (r : Ref) : (sweep unused f).Stays r ↔
    f.InRange r ∧ unused r = false ∧ (f.insn r).index ≠ .nop := by
  refine and_congr_right fun hr => ?_
  have hinsn : (sweep unused f).insn r =
      if unused r then nopInsn else { f.insn r with unused := false } := if_pos hr
  rw [Func.keeps, decide_eq_true_eq, hinsn]
  cases unused r with
  | true => exact iff_of_false (fun h => h rfl) fun h => Bool.noConfusion h.1
  | false => exact (and_iff_right rfl).symm

/-- **`remove_nops` leaves what is there to stay**, in its order. -/
theorem removeNops_remains {kept : Ref → Prop} (hf : f.Within)
    (hkept : ∀ r, (sweep unused f).Stays r ↔ kept r) :
    Remains f (removeNops (sweep unused f)) kept (finalPos (sweep unused f).toFunc) := by
  have hwithin := sweep_within unused hf
  have hremoved := removeNops_stage hwithin
  exact {
    numBb := hremoved.numBb
    block := fun r => rfl
    inRange := fun r hr => by
      have hr := (hkept r).2 hr
      refine ⟨hremoved.numBb ▸ hr.1.1, ?_⟩
      dsimp only [finalPos]
      rw [hremoved.ninsn, if_pos hr.1.1]
      exact place_lt_place hr.2 hr.1.2
    onto := fun p hp => by
      obtain ⟨hbb, hi⟩ := hp
      rw [hremoved.numBb] at hbb
      rw [hremoved.ninsn, if_pos hbb] at hi
      obtain ⟨i, hlt, hkeep, hplace⟩ := exists_place hi
      exact ⟨⟨p.bb, i⟩, (hkept _).1 ⟨⟨hbb, hlt⟩, hkeep⟩, ref_eq rfl hplace⟩
    order := fun r s hs hbb => by
      have hs := (hkept s).2 hs
      dsimp only [finalPos]
      rw [← hbb]
      constructor
      · intro hlt
        by_contra hge
        exact absurd (place_mono (Nat.le_of_not_lt hge)) (Nat.not_le_of_lt hlt)
      · exact place_lt_place hs.2
    insn := fun r hr => by
      have hr := (hkept r).2 hr
      have hinsn : (sweep unused f).insn r = { f.insn r with unused := false } :=
        (if_pos hr.1).trans (if_neg (by rw [((stays_sweep_iff r).1 hr).2.1]; decide))
      rw [← stagePos_eq_finalPos hr.1, hremoved.insn r hr, hinsn]
      refine relocate_congr fun k q hk => stagePos_eq_finalPos ?_
      exact hf.op r hr.1 k q hk }

/-- What is needed, NOPs excepted. -/
def NeededInsn (order : MemoryOrder) (f : Func W) (r : Ref) : Prop :=
  Needed order f r ∧ (f.insn r).index ≠ .nop

theorem sweep_congr {u : Unused} (h : ∀ r, f.InRange r → unused r = u r) :
    sweep unused f = sweep u f := by
  have hinsn : (sweep unused f).insn = (sweep u f).insn := by
    funext r
    exact ite_congr rfl (fun hr => by rw [h r hr]) fun _ => rfl
  have hdep : (sweep unused f).dep = (sweep u f).dep := by
    funext r
    exact if_congr (and_congr_right fun hr => by rw [h r hr]) rfl rfl
  unfold sweep at hinsn hdep ⊢
  dsimp only at hinsn hdep
  rw [hinsn, hdep]

/-- Every bound on the recursion will do that exceeds the number of instructions. -/
theorem removeDead_of_lt (hf : f.Within)
    (hunused : ∀ q, f.InRange q → (unused q = false ↔ Needed order f.toFunc q))
    (hfuel : f.insns.toFinset.card < fuel) :
    removeDead order fuel f = some (removeNops (sweep unused f)) := by
  obtain ⟨u, hu, hiff⟩ := unmark_roots order hf hfuel
  have hsweep : sweep u f = sweep unused f := sweep_congr fun r hr => by
    have hsame := (hiff r hr).trans (hunused r hr).symm
    cases hur : u r <;> cases hunr : unused r <;> rw [hur, hunr] at hsame
    · exact absurd (hsame.1 rfl) (by decide)
    · exact absurd (hsame.2 rfl) (by decide)
  rw [← hsweep, removeDead]
  exact congrArg (· >>= fun u => some (removeNops (sweep u f))) hu

/-- **`remove_dead` ends**, also where references lead in circles, **and the needed instructions
that are no NOPs remain, and no others**. -/
theorem removeDead_exact (order : MemoryOrder) {f : Linked W} (hf : f.Within) :
    ∃ g pos bound, (∀ fuel ≥ bound, removeDead order fuel f = some g) ∧
      Remains f g (NeededInsn order f.toFunc) pos := by
  obtain ⟨unused, -, hiff⟩ := unmark_roots order hf (Nat.lt_succ_self _)
  refine ⟨removeNops (sweep unused f), finalPos (sweep unused f).toFunc,
    f.insns.toFinset.card + 1, fun fuel hfuel => removeDead_of_lt hf hiff hfuel,
    removeNops_remains hf fun r => ?_⟩
  rw [stays_sweep_iff, NeededInsn]
  constructor
  · rintro ⟨hr, hused, hnop⟩
    exact ⟨(hiff r hr).1 hused, hnop⟩
  · rintro ⟨hneeded, hnop⟩
    exact ⟨hneeded.inRange hf, (hiff r (hneeded.inRange hf)).2 hneeded, hnop⟩

/-- An addition to a NOP. -/
def addNop : Linked 32 where
  numBb := 1
  dead _ := false
  ninsn _ := 2
  insn r := if r.i = 0 then nopInsn else
    { (nopInsn : Insn 32) with
      index := .add, output := true, op := ![.dest 11, .ref ⟨0, 0⟩, .const 1, .none, .none] }
  dep _ := []
  mdep _ := []
  msched := []

theorem addNop_within : addNop.Within where
  op r hr k q hk := by
    dsimp only [addNop] at hk
    split at hk
    · cases hk
    · match k with
      | 1 =>
        cases hk
        exact ⟨Nat.zero_lt_one, Nat.zero_lt_two⟩
      | 0 | 2 | 3 | 4 => cases hk
  dep _ _ _ h := absurd h List.not_mem_nil

/-- The addition remains, alone. -/
theorem removeDead_exact_addNop : ∃ g pos bound,
    (∀ fuel ≥ bound, removeDead .exact fuel addNop = some g) ∧
      Remains addNop g (NeededInsn .exact addNop.toFunc) pos :=
  removeDead_exact .exact addNop_within

/-- The NOP can be reached from the addition, and does not remain. -/
theorem removeDead_drops_nop : ¬∀ (f : Linked 32) (order : MemoryOrder), f.Within →
    ∃ g pos bound, (∀ fuel ≥ bound, removeDead order fuel f = some g) ∧
      Remains f g (Needed order f.toFunc) pos := by
  intro h
  obtain ⟨g, pos, bound, hrun, hremains⟩ := h addNop .exact addNop_within
  obtain ⟨unused, -, hiff⟩ := unmark_roots .exact addNop_within (Nat.lt_succ_self _)
  have hg : removeNops (sweep unused addNop) = g := Option.some.inj
    ((removeDead_of_lt addNop_within hiff (Nat.lt_of_lt_of_le (Nat.lt_succ_self _)
      (Nat.le_max_left _ bound))).symm.trans (hrun _ (Nat.le_max_right _ bound)))
  have hneeded : Needed .exact addNop.toFunc ⟨0, 0⟩ :=
    ⟨⟨0, 1⟩, by decide, by decide, .single ⟨1, rfl⟩⟩
  -- what lies at the place of the NOP is no NOP
  obtain ⟨r, hr, hpos⟩ := (removeNops_remains addNop_within fun r => Iff.rfl).onto
    (pos ⟨0, 0⟩) (hg ▸ hremains.inRange _ hneeded)
  have hinsn := (removeNops_remains addNop_within fun r => Iff.rfl).insn r hr
  rw [hpos, hg, hremains.insn _ hneeded] at hinsn
  exact ((stays_sweep_iff r).1 hr).2.2 (congrArg Insn.index hinsn).symm

end Cuc
end Or1ksim
