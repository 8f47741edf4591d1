import Mathlib.Data.Fintype.Basic
import Mathlib.Tactic.FinCases
import Or1ksim.Cuc.Loaded

/-!
# Where the instructions come to lie

* `Expands`, `expandBranch_expands`, `expandMemory_expands`, `expandSigned_expands` — each of these
  passes replaces every instruction by its block, and renumbers the references;
* `swapped`, `removeDslots_spec` — **a branch and the instruction behind it change places**;
* `Lowering`, `exists_lowering` — the function behind each pass;
* `insn_late`, `insn_late_branch` — what is made of each instruction behind `remove_dslots`;
* `final`, `plain_at`, `memory_at`, `signed_at` — **the final array**, block by block.
-/

namespace Or1ksim
namespace Cuc

open Expand (place place_succ)

variable {W : ℕ} {c c' : Items W}

/-! ### Blocks -/

/-- Where the block of an instruction starts. -/
def Items.place (c : Items W) (width : Item W → ℕ) (i : ℕ) : ℕ :=
  Expand.place (fun k => width (c.insn k)) i

/-- Every instruction is replaced by its block, and every entry is passed to `f` with the new
places. -/
structure Expands (width : Item W → ℕ) (block : ℕ → ℕ → Item W → ℕ → Item W)
    (f : (ℕ → ℕ) → Item W → Item W) (c c' : Items W) : Prop where
  num : c'.num = c.place width c.num
  reloc : ∀ {i}, i < c.num → c'.reloc i = c.place width i
  insn : ∀ {i k}, i < c.num → k < width (c.insn i) →
    c'.insn (c.place width i + k) = f c'.reloc (block i (c.place width i) (c.insn i) k)

theorem expands_of_grow {width : Item W → ℕ} {block : ℕ → ℕ → Item W → ℕ → Item W}
    (f : (ℕ → ℕ) → Item W → Item W) (hwidth : ∀ x, 1 ≤ width x) {d : ℕ}
    (hd : d = c.place width c.num) :
    Expands width block f c
      ((c.expanded width block d).mapInsn (f (c.expanded width block d).reloc)) := by
  subst hd
  have hblock := fun {i : ℕ} (hi : i < c.num) =>
    Expand.grow_block block (a := c.insn) c.reloc (fun k _ => hwidth (c.insn k)) hi
  refine ⟨rfl, fun hi => (hblock hi).1, fun {i k} hi hk => ?_⟩
  have hlt : c.place width i + k < c.place width c.num :=
    Nat.lt_of_lt_of_le (Nat.add_lt_add_left hk _) (Expand.place_add_le hi)
  exact (if_pos hlt).trans (congrArg _ ((hblock hi).2 k hk))

theorem place_eq_count {p : Item W → Bool} {e : ℕ} {width : Item W → ℕ}
    (hwidth : ∀ x, width x = if p x then e + 1 else 1) :
    c.place width c.num = c.num + e * c.count p :=
  Expand.place_eq_add_count fun k _ => hwidth (c.insn k)

theorem expandBranch_expands (h : expandBranch c = some c') :
    Expands branchWidth branchBlock Item.renumber c c' ∧ c'.num < maxInsns := by
  unfold expandBranch at h
  dsimp only at h
  split_ifs at h with hd
  cases h
  have hplace : c.num + 2 * c.count (fun x => x.branch) = c.place branchWidth c.num :=
    (place_eq_count fun x => rfl).symm
  exact ⟨expands_of_grow Item.renumber (fun x => by rw [branchWidth]; split <;> decide) hplace,
    hd.1⟩

theorem expandMemory_expands (h : expandMemory c = some c') :
    Expands memoryWidth memoryBlock (fun reloc x => if x.memory then x else x.renumber reloc) c c' ∧
      c'.num < maxInsns := by
  unfold expandMemory at h
  dsimp only at h
  split_ifs at h with hd
  cases h
  have hplace : c.num + c.count (fun x => x.memory) = c.place memoryWidth c.num := by
    have hcount : c.place memoryWidth c.num = c.num + 1 * c.count fun x => x.memory :=
      place_eq_count fun x => rfl
    rw [hcount, Nat.one_mul]
  exact ⟨expands_of_grow (fun reloc x => if x.memory then x else x.renumber reloc)
    (fun x => by rw [memoryWidth]; split <;> decide) hplace, hd.1⟩

theorem expandSigned_expands (h : expandSigned c = some c') :
    Expands signedWidth signedBlock
      (fun reloc x => if x.isSigned then { x with signed := false } else x.renumber reloc) c c' ∧
      c'.num < maxInsns := by
  unfold expandSigned at h
  dsimp only at h
  split_ifs at h with hd
  cases h
  have hplace : c.num + 2 * c.count (fun x => x.isSigned) = c.place signedWidth c.num :=
    (place_eq_count fun x => rfl).symm
  exact ⟨expands_of_grow
    (fun reloc x => if x.isSigned then { x with signed := false } else x.renumber reloc)
    (fun x => by rw [signedWidth]; split <;> decide) hplace, hd⟩

/-! ### Delay slots -/

/-- What lies at a place when every branch has changed places with the instruction behind it. -/
def swapped (c : Items W) (k : ℕ) : Item W :=
  if (c.insn k).branch then c.insn (k + 1)
  else if 0 < k ∧ (c.insn (k - 1)).branch then c.insn (k - 1)
  else c.insn k

/-- The exchanges of the first `i` turns of the loop. -/
def swappedBelow (c : Items W) (i k : ℕ) : Item W :=
  if k + 1 < i ∧ (c.insn k).branch then c.insn (k + 1)
  else if k < i ∧ 0 < k ∧ (c.insn (k - 1)).branch then c.insn (k - 1)
  else c.insn k

/-- Branches that `remove_dslots` can move. -/
structure Movable (c : Items W) : Prop where
  indelay : ∀ {k}, k < c.num → (c.insn k).indelay = false
  apart : ∀ {k}, k + 1 < c.num → (c.insn k).branch = true → (c.insn (k + 1)).branch = false
  value : ∀ {k}, k < c.num → (c.insn k).branch = true →
    ∀ i ii, jumpValue i ii (c.insn k) = some (ii, c.insn k)

theorem swappedBelow_self (c : Items W) (i : ℕ) : swappedBelow c i i = c.insn i := by
  rw [swappedBelow, if_neg (by omega), if_neg (by omega)]

/-- A branch is left in its place until its delay slot is met. -/
theorem swappedBelow_branch (hc : Movable c) {i : ℕ} (hi : i < c.num)
    (hbranch : (c.insn i).branch = true) : swappedBelow c (i + 1) i = c.insn i := by
  rw [swappedBelow, if_neg (by omega), if_neg]
  rintro ⟨-, hpos, hprev⟩
  have hapart := hc.apart (k := i - 1) (by omega) hprev
  rw [Nat.sub_add_cancel hpos, hbranch] at hapart
  cases hapart

theorem swappedBelow_slot (c : Items W) {i : ℕ} (hbranch : (c.insn i).branch = true) (k : ℕ) :
    swappedBelow c (i + 2) k =
      if k = i + 1 then c.insn i
      else if k = i then c.insn (i + 1)
      else swappedBelow c (i + 1) k := by
  by_cases hk : k = i + 1
  · subst hk
    rw [if_pos rfl, swappedBelow, if_neg (by omega), if_pos ⟨by omega, by omega, hbranch⟩,
      Nat.add_sub_cancel]
  · rw [if_neg hk]
    by_cases hk' : k = i
    · subst hk'
      rw [if_pos rfl, swappedBelow, if_pos ⟨by omega, hbranch⟩]
    · rw [if_neg hk', swappedBelow, swappedBelow]
      have h₁ : k + 1 < i + 2 ↔ k + 1 < i + 1 := by omega
      have h₂ : k < i + 2 ↔ k < i + 1 := by omega
      simp only [h₁, h₂]

theorem swappedBelow_other (c : Items W) {i : ℕ}
    (hother : ¬(0 < i ∧ (c.insn (i - 1)).branch = true)) (k : ℕ) :
    swappedBelow c (i + 1) k = swappedBelow c i k := by
  rw [swappedBelow, swappedBelow]
  have h₁ : k + 1 < i + 1 ∧ (c.insn k).branch = true ↔ k + 1 < i ∧ (c.insn k).branch = true := by
    refine ⟨fun ⟨hlt, hb⟩ => ⟨?_, hb⟩, fun ⟨hlt, hb⟩ => ⟨by omega, hb⟩⟩
    by_contra hge
    obtain rfl : k = i - 1 := by omega
    exact hother ⟨by omega, hb⟩
  have h₂ : k < i + 1 ∧ 0 < k ∧ (c.insn (k - 1)).branch = true ↔
      k < i ∧ 0 < k ∧ (c.insn (k - 1)).branch = true := by
    refine ⟨fun ⟨hlt, hpos, hb⟩ => ⟨?_, hpos, hb⟩, fun ⟨hlt, h⟩ => ⟨by omega, h⟩⟩
    by_contra hge
    obtain rfl : k = i := by omega
    exact hother ⟨hpos, hb⟩
  simp only [h₁, h₂]

theorem slots_step (hc : Movable c) {i : ℕ} (hi : i < c.num) {s t : Slots W}
    (hinsn : ∀ k, s.insn k = swappedBelow c i k)
    (hdelay : s.inDelay = decide (0 < i ∧ (c.insn (i - 1)).branch = true))
    (h : s.step i = some t) :
    (∀ k, t.insn k = swappedBelow c (i + 1) k) ∧ t.inDelay = (c.insn i).branch := by
  have hx : s.insn i = c.insn i := (hinsn i).trans (swappedBelow_self c i)
  have hclear := hc.indelay hi
  unfold Slots.step at h
  by_cases hslot : 0 < i ∧ (c.insn (i - 1)).branch = true
  · obtain ⟨hpos, hbranch⟩ := hslot
    obtain ⟨j, rfl⟩ : ∃ j, i = j + 1 := ⟨i - 1, by omega⟩
    rw [Nat.add_sub_cancel] at hbranch
    have hprev : s.insn j = c.insn j :=
      (hinsn j).trans (swappedBelow_branch hc (by omega) hbranch)
    have hvalue := hc.value (k := j) (by omega) hbranch
    rw [hdelay, decide_eq_true ⟨hpos, hbranch⟩, hx] at h
    dsimp only at h
    rw [if_pos rfl, if_pos rfl, Nat.add_sub_cancel, hprev, hvalue] at h
    split_ifs at h with hassert
    rw [Option.map_some] at h
    cases h
    refine ⟨fun k => ?_, rfl⟩
    have hrestore : { c.insn (j + 1) with indelay := false } = c.insn (j + 1) := by
      rw [← hclear]
    dsimp only
    rw [hrestore, swappedBelow_slot c hbranch]
    by_cases hk : k = j + 1
    · rw [if_pos hk, hk, Function.update_self]
    · rw [if_neg hk, Function.update_of_ne hk]
      by_cases hk' : k = j
      · rw [if_pos hk', hk', Function.update_self]
      · rw [if_neg hk', Function.update_of_ne hk', ← hinsn]
        by_cases hk'' : k = j + 1 - 2
        · rw [hk'', Function.update_self]
        · rw [Function.update_of_ne hk'']
  · rw [hdelay, decide_eq_false hslot, hx] at h
    dsimp only at h
    rw [if_neg Bool.false_ne_true, if_neg (by rw [hclear]; exact Bool.false_ne_true)] at h
    cases h
    refine ⟨fun k => ?_, rfl⟩
    rw [swappedBelow_other c hslot, ← hinsn]
    dsimp only
    rw [← hx, Function.update_eq_self]

/-- **Every branch changes places with the instruction behind it**, and none stands last. -/
theorem removeDslots_spec (hc : Movable c) (h : removeDslots c = some c') :
    c'.num = c.num ∧ c'.reloc = c.reloc ∧ (∀ k < c.num, c'.insn k = swapped c k) ∧
      ∀ k, k + 1 = c.num → (c.insn k).branch = false := by
  obtain ⟨s, hs, h⟩ := Option.bind_eq_some_iff.1 h
  have hrun := Runs.foldlM_count
    (P := fun i (s : Slots W) => (∀ k, s.insn k = swappedBelow c i k) ∧
      s.inDelay = decide (0 < i ∧ (c.insn (i - 1)).branch = true))
    (fun k hk t u ht hu => by
      obtain ⟨hinsn, hdelay⟩ := slots_step hc hk ht.1 ht.2 hu
      refine ⟨hinsn, ?_⟩
      rw [hdelay, Nat.add_sub_cancel]
      simp)
    ⟨fun k => by rw [swappedBelow, if_neg (by omega), if_neg (by omega)], rfl⟩ hs
  obtain ⟨hinsn, hdelay⟩ := hrun
  split_ifs at h with hlast
  cases h
  have hend : ∀ k, k + 1 = c.num → (c.insn k).branch = false := by
    intro k hk
    rw [← hk, Nat.add_sub_cancel] at hdelay
    rw [hdelay] at hlast
    simpa using hlast
  refine ⟨rfl, rfl, fun k hk => ?_, hend⟩
  dsimp only
  rw [hinsn, swappedBelow, swapped]
  have h₁ : k + 1 < c.num ∧ (c.insn k).branch = true ↔ (c.insn k).branch = true := by
    refine and_iff_right_of_imp fun hb => ?_
    by_contra hge
    rw [hend k (by omega)] at hb
    cases hb
  simp only [h₁, hk, true_and]

/-! ### Operands that stay -/

/-- The operand is no place. -/
def Operand.IsFixed : Operand W → Prop
  | .ref _ | .jump _ => False
  | _ => True

theorem Operand.IsFixed.renumber_eq {o : Operand W} (h : o.IsFixed) (reloc : ℕ → ℕ) :
    o.renumber reloc = o := by
  cases o with
  | ref q => exact h.elim
  | jump t => exact h.elim
  | _ => rfl

theorem Operand.IsSource.isFixed {o : Operand W} (h : o.IsSource) : o.IsFixed := by
  cases o with
  | const c => trivial
  | register r => trivial
  | _ => exact h.elim

/-- No operand of the instruction is a place. -/
def Item.IsFixed (x : Item W) : Prop := ∀ k, (x.op k).IsFixed

theorem Item.IsFixed.renumber_eq {x : Item W} (h : x.IsFixed) (reloc : ℕ → ℕ) :
    x.renumber reloc = x := by
  have hop : (fun k => (x.op k).renumber reloc) = x.op := funext fun k => (h k).renumber_eq reloc
  rw [Item.renumber, Item.setOp, hop]

theorem isFixed_of_ops {x : Item W} {a b e f g : Operand W} (hop : x.op = ![a, b, e, f, g])
    (ha : a.IsFixed) (hb : b.IsFixed) (he : e.IsFixed) (hf : f.IsFixed) (hg : g.IsFixed) :
    x.IsFixed := by
  intro k
  rw [hop]
  fin_cases k
  · exact ha
  · exact hb
  · exact he
  · exact hf
  · exact hg

theorem renumber_ops (reloc : ℕ → ℕ) (a b e f g : Operand W) :
    (fun k => (![a, b, e, f, g] k).renumber reloc) =
      ![a.renumber reloc, b.renumber reloc, e.renumber reloc, f.renumber reloc,
        g.renumber reloc] := by
  funext k
  fin_cases k <;> rfl

theorem nopItem_isFixed : (nopItem : Item W).IsFixed := fun _ => trivial

section Item

variable {sh : Shifts} {i : ℕ} {op : Operation} {x : Item W}

theorem addressItem_isFixed (h : x.IsFixed) : (addressItem x).IsFixed := by
  cases hs : x.index.isStore with
  | true =>
    refine isFixed_of_ops (a := .dest (-1)) (b := x.op 1) (e := x.op 0) (f := .none) (g := x.op 4)
      ?_ trivial (h 1) (h 0) trivial (h 4)
    rw [addressItem, hs, if_pos rfl]
  | false =>
    refine isFixed_of_ops (a := .dest (-1)) (b := x.op 1) (e := x.op 2) (f := x.op 3) (g := x.op 4)
      ?_ trivial (h 1) (h 2) (h 3) (h 4)
    rw [addressItem, hs, if_neg Bool.false_ne_true]

theorem accessItem_renumber (h : x.IsFixed) (reloc : ℕ → ℕ) (d : ℕ) :
    (accessItem d x).renumber reloc = accessItem (reloc d) x := by
  have hop : (fun k => ((accessItem d x).op k).renumber reloc) = (accessItem (reloc d) x).op := by
    rw [accessItem, accessItem]
    dsimp only
    split_ifs
    · rw [renumber_ops, (h 2).renumber_eq, (h 3).renumber_eq, (h 4).renumber_eq]
      rfl
    · rw [renumber_ops, (h 0).renumber_eq, (h 4).renumber_eq]
      rfl
  rw [Item.renumber, Item.setOp, hop]
  rfl

theorem biasItem_isFixed (h : x.IsFixed) {o : Operand W} (ho : o.IsFixed) :
    (biasItem x o).IsFixed :=
  isFixed_of_ops rfl trivial ho trivial trivial (h 4)

/-- What an instruction that stands for a word has in common with the others. -/
theorem Lowers.common (h : Lowers sh i op x) :
    x.indelay = false ∧ (x.op 4).IsFixed ∧
      (x.branch = true ↔ ∃ cond n, op = .branch cond n) := by
  cases h with
  | branch => exact ⟨rfl, trivial, iff_of_true rfl ⟨_, _, rfl⟩⟩
  | _ =>
    refine ⟨rfl, trivial, iff_of_false Bool.false_ne_true ?_⟩
    rintro ⟨cond, n, hop⟩
    cases hop

theorem Lowers.isFixed (h : Lowers sh i op x) (hbranch : x.branch = false) : x.IsFixed := by
  cases h with
  | compute _ ha hb => exact isFixed_of_ops rfl trivial ha.isFixed hb.isFixed trivial trivial
  | load _ _ ha hb => exact isFixed_of_ops rfl trivial ha.isFixed hb.isFixed trivial trivial
  | store _ _ ha hb he => exact isFixed_of_ops rfl ha.isFixed hb.isFixed he.isFixed trivial trivial
  | compare _ ha hb => exact isFixed_of_ops rfl trivial ha.isFixed hb.isFixed trivial trivial
  | nop => exact nopItem_isFixed
  | branch => cases hbranch
  | ret => exact nopItem_isFixed

theorem saveFlag_isFixed (h : (x.op 4).IsFixed) : (saveFlag x).IsFixed :=
  isFixed_of_ops rfl trivial trivial trivial trivial h

end Item

/-! ### Behind `expand_branch` -/

/-- What the passes have made of the words: the function as it is read, and behind each pass. -/
structure Lowering (sh : Shifts) (haveUnsignedXori : Bool) (words : List (BitVec 32))
    (c₀ c₁ c₂ c₃ c : Items W) : Prop where
  loaded : Loaded sh haveUnsignedXori words c₀
  branch : Expands branchWidth branchBlock Item.renumber c₀ c₁
  slots : removeDslots c₁ = some c₂
  memory : Expands memoryWidth memoryBlock (fun reloc x => if x.memory then x else x.renumber reloc)
    c₂ c₃
  signed : Expands signedWidth signedBlock
    (fun reloc x => if x.isSigned then { x with signed := false } else x.renumber reloc) c₃ c
  num_lt : c.num < maxInsns

theorem exists_lowering (hW : W = 32 ∨ W = 64) {haveUnsignedXori : Bool} {reloc : ℕ → ℕ}
    {words : List (BitVec 32)} {c : Items W} (h : cucLoad W haveUnsignedXori reloc words = some c)
    (sh : Shifts) : ∃ c₀ c₁ c₂ c₃, Lowering sh haveUnsignedXori words c₀ c₁ c₂ c₃ c := by
  obtain ⟨c₀, h₀, h⟩ := Option.bind_eq_some_iff.1 h
  obtain ⟨c₁, h₁, h⟩ := Option.bind_eq_some_iff.1 h
  obtain ⟨c₂, h₂, h⟩ := Option.bind_eq_some_iff.1 h
  obtain ⟨c₃, h₃, h⟩ := Option.bind_eq_some_iff.1 h
  obtain ⟨h₄, hnum⟩ := expandSigned_expands h
  exact ⟨c₀, c₁, c₂, c₃, loaded_spec hW h₀ sh, (expandBranch_expands h₁).1, h₂,
    (expandMemory_expands h₃).1, h₄, hnum⟩

namespace Lowering

variable {sh : Shifts} {haveUnsignedXori : Bool} {words : List (BitVec 32)}
  {c₀ c₁ c₂ c₃ c : Items W} {i k : ℕ}

/-- Where instruction `i` lies behind `expand_branch`. -/
def early (c₀ : Items W) (i : ℕ) : ℕ := c₀.place branchWidth i

/-- The first instruction that is made of instruction `i`. -/
def first (c₀ : Items W) (i : ℕ) : Item W :=
  if (c₀.insn i).branch then saveFlag (c₀.insn i) else c₀.insn i

theorem early_succ (c₀ : Items W) (i : ℕ) :
    early c₀ (i + 1) = early c₀ i + if (c₀.insn i).branch then 3 else 1 := rfl

theorem first_isFixed (h : Lowering sh haveUnsignedXori words c₀ c₁ c₂ c₃ c) (hi : i < c₀.num) :
    (first c₀ i).IsFixed ∧ (first c₀ i).branch = false ∧ (first c₀ i).indelay = false := by
  obtain ⟨op, -, hl, -⟩ := h.loaded.lowers hi
  obtain ⟨hclear, hfour, -⟩ := hl.common
  rw [first]
  cases hb : (c₀.insn i).branch with
  | true => exact ⟨saveFlag_isFixed hfour, rfl, rfl⟩
  | false => exact ⟨hl.isFixed hb, hb, hclear⟩

theorem insn_early (h : Lowering sh haveUnsignedXori words c₀ c₁ c₂ c₃ c) (hi : i < c₀.num) :
    c₁.insn (early c₀ i) = first c₀ i := by
  have hpos : 0 < branchWidth (c₀.insn i) := by
    rw [branchWidth]
    split <;> decide
  have hinsn := h.branch.insn hi hpos
  have hfirst : branchBlock i (c₀.place branchWidth i) (c₀.insn i) 0 = first c₀ i := rfl
  rwa [hfirst, (h.first_isFixed hi).1.renumber_eq] at hinsn

/-- The branch that is made of branch `i`. -/
def branchTo (c₀ c₁ : Items W) (i : ℕ) : Item W := (refBranch i (c₀.insn i)).renumber c₁.reloc

theorem insn_branch (h : Lowering sh haveUnsignedXori words c₀ c₁ c₂ c₃ c) (hi : i < c₀.num)
    (hb : (c₀.insn i).branch = true) :
    c₁.insn (early c₀ i + 1) = nopItem ∧ c₁.insn (early c₀ i + 2) = branchTo c₀ c₁ i := by
  have hwidth : branchWidth (c₀.insn i) = 3 := if_pos hb
  have hone := h.branch.insn (k := 1) hi (by rw [hwidth]; decide)
  have htwo := h.branch.insn (k := 2) hi (by rw [hwidth]; decide)
  have hblock : branchBlock i (c₀.place branchWidth i) (c₀.insn i) 1 = nopItem ∧
      branchBlock i (c₀.place branchWidth i) (c₀.insn i) 2 = refBranch i (c₀.insn i) := by
    unfold branchBlock
    rw [if_pos hb, if_pos hb]
    exact ⟨rfl, rfl⟩
  rw [hblock.1, nopItem_isFixed.renumber_eq] at hone
  rw [hblock.2] at htwo
  exact ⟨hone, htwo⟩

theorem refBranch_branch (i : ℕ) (x : Item W) :
    (refBranch i x).branch = x.branch ∧ (refBranch i x).indelay = x.indelay := by
  unfold refBranch
  split <;> exact ⟨rfl, rfl⟩

theorem insn_cases (h : Lowering sh haveUnsignedXori words c₀ c₁ c₂ c₃ c) (hk : k < c₁.num) :
    (c₁.insn k).indelay = false ∧
      ((c₁.insn k).branch = true ↔
        ∃ i < c₀.num, (c₀.insn i).branch = true ∧ k = early c₀ i + 2) := by
  rw [h.branch.num] at hk
  obtain ⟨i, hi, j, hj, rfl⟩ := Expand.exists_block hk
  change (c₁.insn (early c₀ i + j)).indelay = false ∧
    ((c₁.insn (early c₀ i + j)).branch = true ↔
      ∃ l < c₀.num, (c₀.insn l).branch = true ∧ early c₀ i + j = early c₀ l + 2)
  obtain ⟨-, hfirst, hclear⟩ := h.first_isFixed hi
  -- The branch of another block does not lie in this one.
  have hsame : ∀ l, (c₀.insn l).branch = true → early c₀ i + j = early c₀ l + 2 →
      i = l ∧ j = 2 := by
    intro l hl heq
    have hwidth : branchWidth (c₀.insn l) = 3 := if_pos hl
    exact Expand.place_add_inj (l := 2) hj (by rw [hwidth]; decide) heq
  have hno : j ≠ 2 → ¬∃ l < c₀.num, (c₀.insn l).branch = true ∧
      early c₀ i + j = early c₀ l + 2 := by
    rintro hne ⟨l, -, hl, heq⟩
    exact hne (hsame l hl heq).2
  cases hb : (c₀.insn i).branch with
  | false =>
    have hzero : j = 0 := by
      have hwidth : branchWidth (c₀.insn i) = 1 := by rw [branchWidth, hb]; rfl
      omega
    subst hzero
    rw [Nat.add_zero, h.insn_early hi]
    exact ⟨hclear, iff_of_false (by rw [hfirst]; decide) (hno (by decide))⟩
  | true =>
    obtain ⟨hnop, hbranch⟩ := h.insn_branch hi hb
    have hwidth : branchWidth (c₀.insn i) = 3 := if_pos hb
    obtain rfl | rfl | rfl : j = 0 ∨ j = 1 ∨ j = 2 := by omega
    · rw [Nat.add_zero, h.insn_early hi]
      exact ⟨hclear, iff_of_false (by rw [hfirst]; decide) (hno (by decide))⟩
    · rw [hnop]
      exact ⟨rfl, iff_of_false Bool.false_ne_true (hno (by decide))⟩
    · rw [hbranch]
      obtain ⟨op, -, hl, -⟩ := h.loaded.lowers hi
      obtain ⟨hkeep, hkeep'⟩ := refBranch_branch i (c₀.insn i)
      refine ⟨hkeep'.trans hl.common.1, iff_of_true (hkeep.trans hb) ⟨i, hi, hb, rfl⟩⟩

/-! ### Behind `remove_dslots` -/

theorem branchTo_value (h : Lowering sh haveUnsignedXori words c₀ c₁ c₂ c₃ c) (hi : i < c₀.num)
    (hb : (c₀.insn i).branch = true) (k : ℕ) (ii : Item W) :
    jumpValue k ii (branchTo c₀ c₁ i) = some (ii, branchTo c₀ c₁ i) := by
  obtain ⟨op, -, hl, -⟩ := h.loaded.lowers hi
  generalize hx : c₀.insn i = x at hl hb
  rw [branchTo, hx]
  cases hl with
  | branch =>
    rename_i cond n
    cases cond <;> rfl
  | _ => cases hb

theorem early_lt (h : Lowering sh haveUnsignedXori words c₀ c₁ c₂ c₃ c) {j : ℕ}
    (hj : j < branchWidth (c₀.insn i)) (hi : i < c₀.num) : early c₀ i + j < c₁.num := by
  rw [h.branch.num]
  exact Nat.lt_of_lt_of_le (Nat.add_lt_add_left hj _) (Expand.place_add_le hi)

theorem movable (h : Lowering sh haveUnsignedXori words c₀ c₁ c₂ c₃ c) : Movable c₁ := by
  refine ⟨fun hk => (h.insn_cases hk).1, fun {k} hk hb => ?_, fun {k} hk hb l ii => ?_⟩
  · -- Behind a branch stands the first instruction of the next block.
    obtain ⟨i, hi, hbi, rfl⟩ := (h.insn_cases (by omega)).2.1 hb
    rw [Bool.eq_false_iff]
    intro hb'
    obtain ⟨l, hl, hbl, heq⟩ := (h.insn_cases hk).2.1 hb'
    have hsucc := early_succ c₀ i
    rw [if_pos hbi] at hsucc
    have hne : i + 1 ≤ l := by
      by_contra hlt
      have hle : early c₀ l ≤ early c₀ i := Expand.place_mono (by omega)
      omega
    have hmono : early c₀ (i + 1) ≤ early c₀ l := Expand.place_mono hne
    omega
  · obtain ⟨i, hi, hbi, rfl⟩ := (h.insn_cases hk).2.1 hb
    rw [(h.insn_branch hi hbi).2]
    exact h.branchTo_value hi hbi l ii

/-- Instruction `i` stands in the delay slot of a branch. -/
def inSlot (c₀ : Items W) (i : ℕ) : Prop := 0 < i ∧ (c₀.insn (i - 1)).branch = true

instance (c₀ : Items W) (i : ℕ) : Decidable (inSlot c₀ i) := inferInstanceAs (Decidable (_ ∧ _))

/-- Where the first instruction that is made of instruction `i` lies behind `remove_dslots`. -/
def late (c₀ : Items W) (i : ℕ) : ℕ := if inSlot c₀ i then early c₀ i - 1 else early c₀ i

theorem early_of_inSlot (hslot : inSlot c₀ i) : early c₀ i = early c₀ (i - 1) + 3 := by
  have hsucc := early_succ c₀ (i - 1)
  rwa [Nat.sub_add_cancel hslot.1, if_pos hslot.2] at hsucc

theorem branch_lt (h : Lowering sh haveUnsignedXori words c₀ c₁ c₂ c₃ c) (hi : i < c₀.num)
    (hb : (c₀.insn i).branch = true) : i + 1 < c₀.num := by
  by_contra hge
  have hlen : i + 1 = c₀.num := by omega
  have hend := (removeDslots_spec h.movable h.slots).2.2.2
  have hnum : early c₀ i + 2 + 1 = c₁.num := by
    rw [h.branch.num]
    have hsucc := early_succ c₀ i
    rw [if_pos hb, hlen] at hsucc
    exact hsucc.symm
  have hlast := hend (early c₀ i + 2) hnum
  rw [(h.insn_cases (by omega)).2.2 ⟨i, hi, hb, rfl⟩] at hlast
  cases hlast

/-- **The first instruction of each block**, behind `remove_dslots`. -/
theorem insn_late (h : Lowering sh haveUnsignedXori words c₀ c₁ c₂ c₃ c) (hi : i < c₀.num) :
    late c₀ i < c₂.num ∧ c₂.insn (late c₀ i) = first c₀ i := by
  obtain ⟨hnum, -, hinsn, -⟩ := removeDslots_spec h.movable h.slots
  have hlt : early c₀ i < c₁.num := h.early_lt (j := 0) (by rw [branchWidth]; split <;> decide) hi
  have hfirst : (c₁.insn (early c₀ i)).branch = false := by
    rw [h.insn_early hi]
    exact (h.first_isFixed hi).2.1
  rw [late, hnum]
  split_ifs with hslot
  · -- The branch in front has gone behind it.
    have hearly := early_of_inSlot hslot
    have hprev : early c₀ i - 1 = early c₀ (i - 1) + 2 := by omega
    have hbranch : (c₁.insn (early c₀ i - 1)).branch = true := by
      rw [(h.insn_cases (by omega)).2]
      exact ⟨i - 1, by omega, hslot.2, hprev⟩
    refine ⟨by omega, ?_⟩
    rw [hinsn _ (by omega), swapped, if_pos hbranch, Nat.sub_add_cancel (by omega), h.insn_early hi]
  · refine ⟨hlt, ?_⟩
    rw [hinsn _ hlt, swapped, if_neg (by rw [hfirst]; decide), if_neg, h.insn_early hi]
    rintro ⟨hpos, hbranch⟩
    obtain ⟨l, hl, hbl, heq⟩ := (h.insn_cases (by omega)).2.1 hbranch
    have hsucc := early_succ c₀ l
    rw [if_pos hbl] at hsucc
    -- Only the block of the instruction in front ends here.
    have hli : l + 1 = i := by
      by_contra hne
      rcases Nat.lt_or_ge (l + 1) i with hlt' | hge
      · have hmono : early c₀ (l + 1) + branchWidth (c₀.insn (l + 1)) ≤ early c₀ i :=
          Expand.place_add_le hlt'
        have hw : 1 ≤ branchWidth (c₀.insn (l + 1)) := by rw [branchWidth]; split <;> decide
        omega
      · have hmono : early c₀ i ≤ early c₀ l := Expand.place_mono (by omega)
        omega
    refine hslot ⟨by omega, ?_⟩
    rwa [← hli, Nat.add_sub_cancel]

/-- **The other instructions of a branch**: the branch itself stands behind its delay slot. -/
theorem insn_late_branch (h : Lowering sh haveUnsignedXori words c₀ c₁ c₂ c₃ c) (hi : i < c₀.num)
    (hb : (c₀.insn i).branch = true) :
    c₂.insn (early c₀ i + 1) = nopItem ∧ c₂.insn (early c₀ (i + 1)) = branchTo c₀ c₁ i ∧
      early c₀ (i + 1) < c₂.num := by
  obtain ⟨hnum, -, hinsn, -⟩ := removeDslots_spec h.movable h.slots
  obtain ⟨hone, htwo⟩ := h.insn_branch hi hb
  have hwidth : branchWidth (c₀.insn i) = 3 := if_pos hb
  have hlt₁ := h.early_lt (j := 1) (by rw [hwidth]; decide) hi
  have hlt₂ := h.early_lt (j := 2) (by rw [hwidth]; decide) hi
  have hsucc : early c₀ (i + 1) = early c₀ i + 3 := by rw [early_succ, if_pos hb]
  have hnext := h.branch_lt hi hb
  have hlt₃ : early c₀ (i + 1) < c₁.num :=
    h.early_lt (j := 0) (by rw [branchWidth]; split <;> decide) hnext
  have hbranch : (c₁.insn (early c₀ i + 2)).branch = true :=
    (h.insn_cases hlt₂).2.2 ⟨i, hi, hb, rfl⟩
  refine ⟨?_, ?_, by rw [hnum]; exact hlt₃⟩
  · have hnop : ¬(nopItem : Item W).branch = true := Bool.false_ne_true
    rw [hinsn _ hlt₁, swapped, hone, if_neg hnop, if_neg]
    rw [Nat.add_sub_cancel, h.insn_early hi, (h.first_isFixed hi).2.1]
    exact fun hno => Bool.noConfusion hno.2
  · have hfirst : (c₁.insn (early c₀ (i + 1))).branch = false := by
      rw [h.insn_early hnext]
      exact (h.first_isFixed hnext).2.1
    rw [hinsn _ hlt₃, swapped, hfirst, if_neg Bool.false_ne_true, hsucc,
      show early c₀ i + 3 - 1 = early c₀ i + 2 from rfl, if_pos ⟨by omega, hbranch⟩, htwo]

/-! ### The final array -/

/-- Where an instruction comes to lie behind `expand_memory` and `expand_signed`. -/
def final (c₂ c₃ : Items W) (k : ℕ) : ℕ := c₃.place signedWidth (c₂.place memoryWidth k)

theorem num_eq_final (h : Lowering sh haveUnsignedXori words c₀ c₁ c₂ c₃ c) :
    c.num = final c₂ c₃ c₂.num := by
  rw [h.signed.num, h.memory.num]
  rfl

theorem final_le (c₂ c₃ : Items W) {k l : ℕ} (hkl : k ≤ l) : final c₂ c₃ k ≤ final c₂ c₃ l :=
  Expand.place_mono (Expand.place_mono hkl)

theorem memory_lt (h : Lowering sh haveUnsignedXori words c₀ c₁ c₂ c₃ c) (hk : k < c₂.num) {j : ℕ}
    (hj : j < memoryWidth (c₂.insn k)) : c₂.place memoryWidth k + j < c₃.num := by
  rw [h.memory.num]
  exact Nat.lt_of_lt_of_le (Nat.add_lt_add_left hj _) (Expand.place_add_le hk)

theorem signed_one (h : Lowering sh haveUnsignedXori words c₀ c₁ c₂ c₃ c) {m : ℕ} (hm : m < c₃.num)
    (hx : (c₃.insn m).isSigned = false) :
    c.insn (c₃.place signedWidth m) = (c₃.insn m).renumber c.reloc ∧
      c₃.place signedWidth (m + 1) = c₃.place signedWidth m + 1 := by
  have hwidth : signedWidth (c₃.insn m) = 1 := by rw [signedWidth, hx]; rfl
  have hinsn := h.signed.insn (k := 0) hm (by rw [hwidth]; decide)
  have hblock : signedBlock m (c₃.place signedWidth m) (c₃.insn m) 0 = c₃.insn m := by
    unfold signedBlock
    rw [hx]
    rfl
  rw [hblock, hx] at hinsn
  exact ⟨hinsn, (Expand.place_succ _ m).trans (congrArg _ hwidth)⟩

/-- **An instruction that is left as it is.** -/
theorem plain_at (h : Lowering sh haveUnsignedXori words c₀ c₁ c₂ c₃ c) (hk : k < c₂.num)
    (hmem : (c₂.insn k).memory = false) (hsigned : (c₂.insn k).signed = false) :
    c.insn (final c₂ c₃ k) = ((c₂.insn k).renumber c₃.reloc).renumber c.reloc ∧
      final c₂ c₃ (k + 1) = final c₂ c₃ k + 1 := by
  have hwidth : memoryWidth (c₂.insn k) = 1 := by rw [memoryWidth, hmem]; rfl
  have hlt : c₂.place memoryWidth k < c₃.num := h.memory_lt hk (j := 0) (by rw [hwidth]; decide)
  have hinsn := h.memory.insn (k := 0) hk (by rw [hwidth]; decide)
  have hblock : memoryBlock k (c₂.place memoryWidth k) (c₂.insn k) 0 = c₂.insn k := by
    unfold memoryBlock
    rw [hmem]
    rfl
  rw [hblock, hmem] at hinsn
  have hinsn : c₃.insn (c₂.place memoryWidth k) = (c₂.insn k).renumber c₃.reloc := hinsn
  have hx : (c₃.insn (c₂.place memoryWidth k)).isSigned = false := by
    rw [hinsn]
    exact congrArg (· && !(c₂.insn k).memory) hsigned
  obtain ⟨hone, hnext⟩ := h.signed_one hlt hx
  rw [hinsn] at hone
  refine ⟨hone, ?_⟩
  have hsucc : c₂.place memoryWidth (k + 1) = c₂.place memoryWidth k + 1 :=
    (Expand.place_succ _ k).trans (congrArg _ hwidth)
  rw [final, hsucc]
  exact hnext

/-- **A memory access**, behind the addition that computes its address. -/
theorem memory_at (h : Lowering sh haveUnsignedXori words c₀ c₁ c₂ c₃ c) (hk : k < c₂.num)
    (hmem : (c₂.insn k).memory = true) (hfixed : (c₂.insn k).IsFixed) :
    c.insn (final c₂ c₃ k) = addressItem (c₂.insn k) ∧
      c.insn (final c₂ c₃ k + 1) = accessItem (final c₂ c₃ k) (c₂.insn k) ∧
      final c₂ c₃ (k + 1) = final c₂ c₃ k + 2 := by
  generalize hx : c₂.insn k = x at hmem hfixed
  have hwidth : memoryWidth (c₂.insn k) = 2 := by rw [memoryWidth, hx, hmem]; rfl
  have hlt₀ : c₂.place memoryWidth k < c₃.num := h.memory_lt hk (j := 0) (by rw [hwidth]; decide)
  have hlt₁ := h.memory_lt hk (j := 1) (by rw [hwidth]; decide)
  have hinsn₀ := h.memory.insn (k := 0) hk (by rw [hwidth]; decide)
  have hinsn₁ := h.memory.insn (k := 1) hk (by rw [hwidth]; decide)
  have hblock : memoryBlock k (c₂.place memoryWidth k) (c₂.insn k) 0 = addressItem x ∧
      memoryBlock k (c₂.place memoryWidth k) (c₂.insn k) 1 =
        accessItem (c₂.place memoryWidth k) x := by
    unfold memoryBlock
    rw [hx, if_pos hmem, if_pos hmem]
    exact ⟨rfl, rfl⟩
  have haddress := addressItem_isFixed hfixed
  rw [hblock.1, if_neg (show ¬(addressItem x).memory = true from Bool.false_ne_true),
    haddress.renumber_eq] at hinsn₀
  rw [hblock.2, if_pos (show (accessItem (c₂.place memoryWidth k) x).memory = true from hmem)]
    at hinsn₁
  have hinsn₀ : c₃.insn (c₂.place memoryWidth k) = addressItem x := hinsn₀
  obtain ⟨hone, hnext⟩ := h.signed_one hlt₀ (by rw [hinsn₀]; rfl)
  obtain ⟨htwo, hnext'⟩ := h.signed_one hlt₁ (by
    rw [hinsn₁, Item.isSigned]
    exact (congrArg (x.signed && !·) hmem).trans (Bool.and_false _))
  rw [hinsn₀, haddress.renumber_eq] at hone
  rw [hinsn₁, accessItem_renumber hfixed, h.signed.reloc hlt₀, hnext] at htwo
  have hsucc : c₂.place memoryWidth (k + 1) = c₂.place memoryWidth k + 2 :=
    (Expand.place_succ _ k).trans (congrArg _ hwidth)
  refine ⟨hone, htwo, ?_⟩
  rw [final, hsucc]
  exact hnext'.trans (congrArg (· + 1) hnext)

/-- **A signed comparison**, behind the additions of the bias. -/
theorem signed_at (h : Lowering sh haveUnsignedXori words c₀ c₁ c₂ c₃ c) (hk : k < c₂.num)
    (hmem : (c₂.insn k).memory = false) (hsigned : (c₂.insn k).signed = true)
    (hfixed : (c₂.insn k).IsFixed) :
    c.insn (final c₂ c₃ k) = biasItem (c₂.insn k) ((c₂.insn k).op 1) ∧
      c.insn (final c₂ c₃ k + 1) = biasItem (c₂.insn k) ((c₂.insn k).op 2) ∧
      c.insn (final c₂ c₃ k + 2) = { c₂.insn k with
        signed := false
        op := ![(c₂.insn k).op 0, .ref ⟨0, final c₂ c₃ k⟩, .ref ⟨0, final c₂ c₃ k + 1⟩,
          (c₂.insn k).op 3, (c₂.insn k).op 4] } ∧
      final c₂ c₃ (k + 1) = final c₂ c₃ k + 3 := by
  generalize hx : c₂.insn k = x at hmem hsigned hfixed
  have hwidth : memoryWidth (c₂.insn k) = 1 := by rw [memoryWidth, hx, hmem]; rfl
  have hlt : c₂.place memoryWidth k < c₃.num := h.memory_lt hk (j := 0) (by rw [hwidth]; decide)
  have hinsn := h.memory.insn (k := 0) hk (by rw [hwidth]; decide)
  have hblock : memoryBlock k (c₂.place memoryWidth k) (c₂.insn k) 0 = x := by
    unfold memoryBlock
    rw [hx, hmem]
    rfl
  rw [hblock, hmem, if_neg Bool.false_ne_true, hfixed.renumber_eq] at hinsn
  have hinsn : c₃.insn (c₂.place memoryWidth k) = x := hinsn
  have hsig : x.isSigned = true := by rw [Item.isSigned, hsigned, hmem]; rfl
  have hwidth' : signedWidth (c₃.insn (c₂.place memoryWidth k)) = 3 := by
    rw [signedWidth, hinsn, if_pos hsig]
  have hthree := fun j (hj : j < 3) => h.signed.insn (k := j) hlt (by rw [hwidth']; exact hj)
  have hblocks : signedBlock (c₂.place memoryWidth k) (final c₂ c₃ k) x 0 = biasItem x (x.op 1) ∧
      signedBlock (c₂.place memoryWidth k) (final c₂ c₃ k) x 1 = biasItem x (x.op 2) ∧
      signedBlock (c₂.place memoryWidth k) (final c₂ c₃ k) x 2 =
        x.setOp ![x.op 0, .ref ⟨0, final c₂ c₃ k⟩, .ref ⟨0, final c₂ c₃ k + 1⟩, x.op 3,
          x.op 4] := by
    unfold signedBlock
    rw [if_pos hsig, if_pos hsig, if_pos hsig]
    exact ⟨rfl, rfl, rfl⟩
  rw [hinsn] at hthree
  have hzero := hthree 0 (by decide)
  have hone := hthree 1 (by decide)
  have htwo := hthree 2 (by decide)
  change c.insn (final c₂ c₃ k) = _ at hzero
  change c.insn (final c₂ c₃ k + 1) = _ at hone
  change c.insn (final c₂ c₃ k + 2) = _ at htwo
  have hplace : c₃.place signedWidth (c₂.place memoryWidth k) = final c₂ c₃ k := rfl
  rw [hplace] at hzero hone htwo
  have hsucc : c₂.place memoryWidth (k + 1) = c₂.place memoryWidth k + 1 :=
    (Expand.place_succ _ k).trans (congrArg _ hwidth)
  rw [hblocks.1, if_neg (show ¬(biasItem x (x.op 1)).isSigned = true from Bool.false_ne_true),
    (biasItem_isFixed hfixed (hfixed 1)).renumber_eq] at hzero
  rw [hblocks.2.1, if_neg (show ¬(biasItem x (x.op 2)).isSigned = true from Bool.false_ne_true),
    (biasItem_isFixed hfixed (hfixed 2)).renumber_eq] at hone
  rw [hblocks.2.2] at htwo
  refine ⟨hzero, hone, htwo.trans (if_pos hsig), ?_⟩
  rw [final, hsucc]
  exact (Expand.place_succ _ _).trans (congrArg _ hwidth')

end Lowering

end Cuc
end Or1ksim
