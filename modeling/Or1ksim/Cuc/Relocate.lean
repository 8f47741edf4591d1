import Or1ksim.Cuc.Insn
import Or1ksim.Lib.Compact

/-!
# Moving the instructions of a function

`insert_insns` and `remove_nops` of `cuc/insn.c`: instructions move within their block, and the
references to them are numbered anew.

* `Linked` — a function with its lists of dependencies and its schedule of memory accesses;
* `insertInsns`, `removeNops` — the two functions;
* `Relocates` — every reference designates the instruction that it designated before;
* `insertInsns_relocates` — **`insert_insns` relocates every list**;
* `relocation_iff` — **`remove_nops` does so exactly when no entry of the lists that it leaves out
  has a NOP before it**.
-/

namespace Or1ksim
namespace Cuc

open Or1ksim.Compact

variable {W : ℕ}

/-! ### Functions with their lists -/

/-- `cuc_func` with the lists of references that its passes keep. -/
structure Linked (W : ℕ) extends Func W where
  /-- `dep` of each instruction. -/
  dep : Ref → List Ref
  /-- `mdep` of each block. -/
  mdep : ℕ → List Ref
  /-- `msched`, its first `nmsched` entries. -/
  msched : List Ref

/-- The instructions of all blocks, dead ones included. -/
def Func.InRange (f : Func W) (r : Ref) : Prop := r.bb < f.numBb ∧ r.i < f.ninsn r.bb

instance (f : Func W) (r : Ref) : Decidable (f.InRange r) := inferInstanceAs (Decidable (_ ∧ _))

/-- The instructions of all blocks, in the order of the loops over them. -/
def Func.insns (f : Func W) : List Ref :=
  (List.range f.numBb).flatMap fun b => (List.range (f.ninsn b)).map fun i => ⟨b, i⟩

theorem mem_insns {f : Func W} {r : Ref} : r ∈ f.insns ↔ f.InRange r := by
  simp only [Func.insns, List.mem_flatMap, List.mem_map, List.mem_range]
  constructor
  · rintro ⟨b, hb, i, hi, rfl⟩
    exact ⟨hb, hi⟩
  · rintro ⟨hb, hi⟩
    exact ⟨r.bb, hb, r.i, hi, rfl⟩

/-- The instruction is no NOP. -/
def Func.keeps (f : Func W) (b i : ℕ) : Bool := decide ((f.insn ⟨b, i⟩).index ≠ .nop)

/-- The instructions that are there to stay. -/
def Func.Stays (f : Func W) (r : Ref) : Prop := f.InRange r ∧ f.keeps r.bb r.i = true

/-- No reference designates a NOP, or anything outside of the function. -/
structure Linked.Sound (f : Linked W) : Prop where
  op : ∀ r, f.InRange r → ∀ k q, (f.insn r).op k = .ref q → f.Stays q
  dep : ∀ r, f.InRange r → ∀ q ∈ f.dep r, f.Stays q
  mdep : ∀ b < f.numBb, ∀ q ∈ f.mdep b, f.Stays q
  msched : ∀ q ∈ f.msched, f.Stays q

/-- No reference leads out of the function. -/
structure Linked.Within (f : Linked W) : Prop where
  op : ∀ r, f.InRange r → ∀ k q, (f.insn r).op k = .ref q → f.InRange q
  dep : ∀ r, f.InRange r → ∀ q ∈ f.dep r, f.InRange q

theorem Linked.Sound.within {f : Linked W} (hf : f.Sound) : f.Within where
  op r hr k q hk := (hf.op r hr k q hk).1
  dep r hr q hq := (hf.dep r hr q hq).1

/-! ### Relocation -/

/-- An operand whose reference is moved. -/
def Operand.relocate (pos : Ref → Ref) : Operand W → Operand W
  | .ref q => .ref (pos q)
  | o => o

/-- An instruction whose references are moved. -/
def Insn.relocate (pos : Ref → Ref) (ii : Insn W) : Insn W :=
  { ii with op := fun k => (ii.op k).relocate pos }

/-- The references of all instructions are moved. -/
def Linked.relocate (pos : Ref → Ref) (f : Linked W) : Linked W :=
  { f with
    insn := fun r => if f.InRange r then (f.insn r).relocate pos else f.insn r
    dep := fun r => if f.InRange r then (f.dep r).map pos else f.dep r }

/-! ### `insert_insns` -/

/-- Where an instruction lies after `n` are inserted before `ref`. -/
def shift (ref : Ref) (n : ℕ) (r : Ref) : Ref :=
  if r.bb = ref.bb ∧ ref.i ≤ r.i then ⟨r.bb, r.i + n⟩ else r

/-- The instructions moved, with NOPs between them. -/
def openGap (f : Linked W) (ref : Ref) (n : ℕ) : Linked W :=
  { f with
    ninsn := Function.update f.ninsn ref.bb (f.ninsn ref.bb + n)
    insn := fun r => if r.bb = ref.bb ∧ ref.i ≤ r.i then
      if r.i < ref.i + n then nopInsn else f.insn ⟨r.bb, r.i - n⟩ else f.insn r
    dep := fun r => if r.bb = ref.bb ∧ ref.i ≤ r.i then
      if r.i < ref.i + n then [] else f.dep ⟨r.bb, r.i - n⟩ else f.dep r }

/-- `insert_insns`. -/
def insertInsns (f : Linked W) (ref : Ref) (n : ℕ) : Linked W :=
  { (openGap f ref n).relocate (shift ref n) with
    mdep := fun b => if b < f.numBb then (f.mdep b).map (shift ref n) else f.mdep b
    msched := f.msched.map (shift ref n) }

/-! ### `remove_nops` -/

/-- Where an instruction lies after the NOPs of block `b` are removed. -/
def newPos (f : Func W) (b : ℕ) (r : Ref) : Ref :=
  if r.bb = b then ⟨b, place (f.keeps b) r.i⟩ else r

/-- Which instruction comes to lie there. -/
def source (f : Func W) (b : ℕ) (r : Ref) : Ref :=
  if r.bb = b then ⟨b, (kept (f.keeps b) (f.ninsn b)).getD r.i r.i⟩ else r

/-- The instructions of a block moved together. -/
def closeGaps (f : Linked W) (b : ℕ) : Linked W :=
  { f with
    ninsn := Function.update f.ninsn b (place (f.keeps b) (f.ninsn b))
    insn := fun r => f.insn (source f.toFunc b r)
    dep := fun r => f.dep (source f.toFunc b r) }

/-- The round of `remove_nops` for a block. -/
def removeBlockNops (f : Linked W) (b : ℕ) : Linked W :=
  (closeGaps f b).relocate (newPos f.toFunc b)

/-- `remove_nops`, as far as it changes the function. -/
def removeNops (f : Linked W) : Linked W := (List.range f.numBb).foldl removeBlockNops f

/-- Where an instruction lies after `remove_nops`. -/
def finalPos (f : Func W) (r : Ref) : Ref := ⟨r.bb, place (f.keeps r.bb) r.i⟩

/-! ### References that follow -/

/-- Every instruction that stays is found at its new position, and every reference designates it
there. -/
structure Relocates (f g : Linked W) (pos : Ref → Ref) : Prop where
  inRange : ∀ r, f.Stays r → g.InRange (pos r)
  injective : ∀ r s, f.Stays r → f.Stays s → pos r = pos s → r = s
  insn : ∀ r, f.Stays r → g.insn (pos r) = (f.insn r).relocate pos
  dep : ∀ r, f.Stays r → g.dep (pos r) = (f.dep r).map pos
  mdep : ∀ b < f.numBb, g.mdep b = (f.mdep b).map pos
  msched : g.msched = f.msched.map pos

variable {f g : Linked W} {pos pos' : Ref → Ref} {ref r : Ref} {n b : ℕ} {ii : Insn W}

theorem relocate_congr (h : ∀ k q, ii.op k = .ref q → pos q = pos' q) :
    ii.relocate pos = ii.relocate pos' := by
  unfold Insn.relocate
  congr 1
  funext k
  cases hk : ii.op k with
  | ref q => rw [Operand.relocate, Operand.relocate, h k q hk]
  | _ => rfl

theorem relocate_relocate : (ii.relocate pos).relocate pos' = ii.relocate (pos' ∘ pos) := by
  unfold Insn.relocate
  congr 1
  funext k
  cases hk : ii.op k <;> simp only [hk, Operand.relocate, Function.comp]

theorem insn_relocate (hr : g.InRange r) : (g.relocate pos).insn r = (g.insn r).relocate pos :=
  if_pos hr

theorem dep_relocate (hr : g.InRange r) : (g.relocate pos).dep r = (g.dep r).map pos := if_pos hr

theorem ref_eq {r s : Ref} (hbb : r.bb = s.bb) (hi : r.i = s.i) : r = s := by
  cases r
  cases s
  exact congrArg₂ Ref.mk hbb hi

theorem index_relocate (r : Ref) :
    ((g.relocate pos).insn r).index = (g.insn r).index := by
  dsimp only [Linked.relocate]
  split <;> rfl

/-! ### Inserting -/

theorem shift_cases (ref : Ref) (n : ℕ) (r : Ref) :
    (r.bb = ref.bb ∧ ref.i ≤ r.i) ∧ shift ref n r = ⟨r.bb, r.i + n⟩ ∨
      ¬(r.bb = ref.bb ∧ ref.i ≤ r.i) ∧ shift ref n r = r := by
  by_cases h : r.bb = ref.bb ∧ ref.i ≤ r.i
  · exact .inl ⟨h, if_pos h⟩
  · exact .inr ⟨h, if_neg h⟩

theorem shift_injective (ref : Ref) (n : ℕ) : Function.Injective (shift ref n) := by
  intro r s h
  obtain ⟨hr, hshiftr⟩ | ⟨hr, hshiftr⟩ := shift_cases ref n r <;>
    obtain ⟨hs, hshifts⟩ | ⟨hs, hshifts⟩ := shift_cases ref n s <;>
    rw [hshiftr, hshifts] at h
  · obtain ⟨hbb, hi⟩ := Ref.mk.inj h
    exact ref_eq hbb (Nat.add_right_cancel hi)
  · subst h
    exact absurd ⟨hr.1, Nat.le_add_right_of_le hr.2⟩ hs
  · subst h
    exact absurd ⟨hs.1, Nat.le_add_right_of_le hs.2⟩ hr
  · exact h

/-- What lies at the new position of an instruction, be it in the function or not. -/
theorem openGap_insn (f : Linked W) (ref : Ref) (n : ℕ) (r : Ref) :
    (openGap f ref n).insn (shift ref n r) = f.insn r := by
  obtain ⟨⟨hbb, hle⟩, hshift⟩ | ⟨hstay, hshift⟩ := shift_cases ref n r
  · have hgap : r.bb = ref.bb ∧ ref.i ≤ r.i + n := ⟨hbb, Nat.le_add_right_of_le hle⟩
    have hpast : ¬r.i + n < ref.i + n := by omega
    rw [hshift]
    dsimp only [openGap]
    rw [if_pos hgap, if_neg hpast, Nat.add_sub_cancel]
  · rw [hshift]
    exact if_neg hstay

theorem openGap_shift (ref : Ref) (n : ℕ) (hr : f.InRange r) :
    (openGap f ref n).InRange (shift ref n r) ∧
      (openGap f ref n).insn (shift ref n r) = f.insn r ∧
      (openGap f ref n).dep (shift ref n r) = f.dep r := by
  obtain ⟨hrange, hlt⟩ := hr
  obtain ⟨⟨hbb, hle⟩, hshift⟩ | ⟨hstay, hshift⟩ := shift_cases ref n r
  · have hgap : r.bb = ref.bb ∧ ref.i ≤ r.i + n := ⟨hbb, Nat.le_add_right_of_le hle⟩
    have hpast : ¬r.i + n < ref.i + n := by omega
    refine ⟨?_, openGap_insn f ref n r, ?_⟩ <;> rw [hshift]
    · refine ⟨hrange, ?_⟩
      dsimp only [openGap]
      rw [hbb, Function.update_self, ← hbb]
      omega
    · dsimp only [openGap]
      rw [if_pos hgap, if_neg hpast, Nat.add_sub_cancel]
  · refine ⟨?_, openGap_insn f ref n r, ?_⟩ <;> rw [hshift]
    rotate_left
    · exact if_neg hstay
    refine ⟨hrange, ?_⟩
    dsimp only [openGap]
    by_cases hbb : r.bb = ref.bb
    · rw [hbb, Function.update_self]
      rw [hbb] at hlt
      omega
    · rwa [Function.update_of_ne hbb]

/-- **`insert_insns` relocates every list.** -/
theorem insertInsns_relocates (f : Linked W) (ref : Ref) (n : ℕ) :
    Relocates f (insertInsns f ref n) (shift ref n) where
  inRange r hr := (openGap_shift _ _ hr.1).1
  injective r s _ _ h := shift_injective ref n h
  insn r hr := by
    obtain ⟨hrange, hinsn, -⟩ := openGap_shift ref n hr.1
    exact (insn_relocate hrange).trans (by rw [hinsn])
  dep r hr := by
    obtain ⟨hrange, -, hdep⟩ := openGap_shift ref n hr.1
    exact (dep_relocate hrange).trans (by rw [hdep])
  mdep b hb := if_pos hb
  msched := rfl

/-! ### Removing -/

/-- Where an instruction lies when the NOPs of the blocks before `b` are removed. -/
def stagePos (f : Func W) (b : ℕ) (r : Ref) : Ref := if r.bb < b then finalPos f r else r

/-- The function when the NOPs of the blocks before `b` are removed. -/
structure NopsRemoved (f : Linked W) (b : ℕ) (g : Linked W) : Prop where
  numBb : g.numBb = f.numBb
  ninsn : ∀ c, g.ninsn c = if c < b then place (f.keeps c) (f.ninsn c) else f.ninsn c
  keeps : ∀ c ≥ b, ∀ i < f.ninsn c, c < f.numBb → g.keeps c i = f.keeps c i
  insn : ∀ r, f.Stays r → g.insn (stagePos f.toFunc b r) =
    (f.insn r).relocate (stagePos f.toFunc b)
  dep : ∀ r, f.Stays r → g.dep (stagePos f.toFunc b r) = (f.dep r).map (stagePos f.toFunc b)
  mdep : g.mdep = f.mdep
  msched : g.msched = f.msched

theorem relocate_id (h : ∀ q, pos q = q) : ii.relocate pos = ii := by
  have hop : (fun k => (ii.op k).relocate pos) = ii.op := by
    funext k
    cases hk : ii.op k with
    | ref q => rw [Operand.relocate, h q]
    | _ => rfl
  rw [Insn.relocate, hop]

theorem map_id (h : ∀ q, pos q = q) (l : List Ref) : l.map pos = l := by
  rw [funext h, List.map_id']

theorem stage_zero (f : Linked W) : NopsRemoved f 0 f := by
  have hid : ∀ q, stagePos f.toFunc 0 q = q := fun q => if_neg (Nat.not_lt_zero q.bb)
  exact {
    numBb := rfl
    ninsn := fun c => by rw [if_neg (Nat.not_lt_zero c)]
    keeps := fun _ _ _ _ _ => rfl
    insn := fun r _ => by rw [hid, relocate_id hid]
    dep := fun r _ => by rw [hid, map_id hid]
    mdep := rfl
    msched := rfl }

section Step

variable (hs : NopsRemoved f b g) (hb : b < f.numBb)
include hs

theorem NopsRemoved.ninsn_self : g.ninsn b = f.ninsn b := by
  rw [hs.ninsn, if_neg (Nat.lt_irrefl b)]

include hb

theorem NopsRemoved.place_eq {i : ℕ} (hi : i ≤ f.ninsn b) :
    place (g.keeps b) i = place (f.keeps b) i :=
  place_congr fun k hk => hs.keeps b (Nat.le_refl b) k (by omega) hb

theorem NopsRemoved.newPos_stagePos {q : Ref} (hq : f.InRange q) :
    newPos g.toFunc b (stagePos f.toFunc b q) = stagePos f.toFunc (b + 1) q := by
  unfold stagePos
  rcases Nat.lt_trichotomy q.bb b with hlt | heq | hgt
  · rw [if_pos hlt, if_pos (by omega)]
    exact if_neg (Nat.ne_of_lt hlt)
  · rw [if_neg (by omega), if_pos (by omega), newPos, if_pos heq, finalPos]
    have hi : q.i ≤ f.ninsn b := by
      rw [← heq]
      exact Nat.le_of_lt hq.2
    rw [hs.place_eq hb hi, heq]
  · rw [if_neg (by omega), if_neg (by omega)]
    exact if_neg (Nat.ne_of_gt hgt)

theorem NopsRemoved.source_stagePos {q : Ref} (hq : f.Stays q) :
    source g.toFunc b (stagePos f.toFunc (b + 1) q) = stagePos f.toFunc b q := by
  unfold stagePos
  rcases Nat.lt_trichotomy q.bb b with hlt | heq | hgt
  · rw [if_pos (by omega), if_pos hlt]
    exact if_neg (Nat.ne_of_lt hlt)
  · have hi : q.i < f.ninsn b := heq ▸ hq.1.2
    have hkeep : g.keeps b q.i = true := by
      rw [hs.keeps b (Nat.le_refl b) _ hi hb, ← heq]
      exact hq.2
    have hget := getElem?_kept_place (n := f.ninsn b) hkeep hi
    have hfinal : finalPos f.toFunc q = ⟨b, place (g.keeps b) q.i⟩ :=
      ref_eq heq (by rw [finalPos, heq, hs.place_eq hb (Nat.le_of_lt hi)])
    rw [if_pos (by omega), if_neg (by omega), hfinal, source, if_pos rfl, hs.ninsn_self,
      List.getD_eq_getElem?_getD, hget, Option.getD_some]
    exact ref_eq heq.symm rfl
  · rw [if_neg (by omega), if_neg (by omega)]
    exact if_neg (Nat.ne_of_gt hgt)

theorem NopsRemoved.inRange_closeGaps {q : Ref} (hq : f.Stays q) :
    (closeGaps g b).InRange (stagePos f.toFunc (b + 1) q) := by
  have hlt := hq.1.2
  have hplace : place (f.keeps q.bb) q.i < place (f.keeps q.bb) (f.ninsn q.bb) :=
    place_lt_place hq.2 hlt
  unfold stagePos
  rcases Nat.lt_trichotomy q.bb b with hbefore | heq | hafter
  · rw [if_pos (by omega)]
    refine ⟨hs.numBb ▸ hq.1.1, ?_⟩
    dsimp only [closeGaps, finalPos]
    rw [Function.update_of_ne (Nat.ne_of_lt hbefore), hs.ninsn, if_pos hbefore]
    exact hplace
  · rw [if_pos (by omega)]
    refine ⟨hs.numBb ▸ hq.1.1, ?_⟩
    dsimp only [closeGaps, finalPos]
    rw [heq, Function.update_self, hs.ninsn_self, hs.place_eq hb (Nat.le_refl _), ← heq]
    exact hplace
  · rw [if_neg (by omega)]
    refine ⟨hs.numBb ▸ hq.1.1, ?_⟩
    dsimp only [closeGaps]
    rwa [Function.update_of_ne (Nat.ne_of_gt hafter), hs.ninsn, if_neg (by omega)]

/-- **The round for a block** takes the function to the next stage. -/
theorem NopsRemoved.step (hf : f.Within) : NopsRemoved f (b + 1) (removeBlockNops g b) where
  numBb := hs.numBb
  ninsn c := by
    change Function.update g.ninsn b (place (g.keeps b) (g.ninsn b)) c = _
    by_cases hc : c = b
    · rw [hc, Function.update_self, if_pos (Nat.lt_succ_self b), hs.ninsn_self,
        hs.place_eq hb (Nat.le_refl _)]
    · rw [Function.update_of_ne hc, hs.ninsn]
      exact if_congr (by omega) rfl rfl
  keeps c hc i hi hcb := by
    have hsource : source g.toFunc b ⟨c, i⟩ = ⟨c, i⟩ := if_neg (by dsimp only; omega)
    have hindex : ((removeBlockNops g b).insn ⟨c, i⟩).index = (g.insn ⟨c, i⟩).index := by
      rw [removeBlockNops, index_relocate]
      exact congrArg (fun r => (g.insn r).index) hsource
    rw [← hs.keeps c (by omega) i hi hcb]
    exact decide_eq_decide.2 (by rw [hindex])
  insn r hr := by
    rw [removeBlockNops, insn_relocate (hs.inRange_closeGaps hb hr)]
    change (g.insn (source g.toFunc b _)).relocate _ = _
    rw [hs.source_stagePos hb hr, hs.insn r hr, relocate_relocate]
    exact relocate_congr fun k q hk => hs.newPos_stagePos hb (hf.op r hr.1 k q hk)
  dep r hr := by
    rw [removeBlockNops, dep_relocate (hs.inRange_closeGaps hb hr)]
    change (g.dep (source g.toFunc b _)).map _ = _
    rw [hs.source_stagePos hb hr, hs.dep r hr, List.map_map]
    exact List.map_congr_left fun q hq => hs.newPos_stagePos hb (hf.dep r hr.1 q hq)
  mdep := hs.mdep
  msched := hs.msched

end Step

/-- **The loop over the blocks**, by induction. -/
theorem stage_removeNops (hf : f.Within) {n : ℕ} (hn : n ≤ f.numBb) :
    NopsRemoved f n ((List.range n).foldl removeBlockNops f) := by
  induction n with
  | zero => exact stage_zero f
  | succ n ih =>
    rw [List.range_succ, List.foldl_append, List.foldl_cons, List.foldl_nil]
    exact (ih (by omega)).step (by omega) hf

/-- Nothing before the instruction is removed. -/
def NoNopBefore (f : Func W) (q : Ref) : Prop := ∀ k < q.i, f.keeps q.bb k = true

theorem finalPos_eq_self_iff {q : Ref} : finalPos f.toFunc q = q ↔ NoNopBefore f.toFunc q := by
  rw [NoNopBefore, ← place_eq_self_iff]
  exact ⟨fun h => congrArg Ref.i h, fun h => ref_eq rfl h⟩

theorem map_eq_self_iff {l : List Ref} :
    l = l.map (finalPos f.toFunc) ↔ ∀ q ∈ l, NoNopBefore f.toFunc q := by
  have h : l.map id = l.map (finalPos f.toFunc) ↔ ∀ q ∈ l, id q = finalPos f.toFunc q :=
    List.map_inj_left
  rw [List.map_id] at h
  rw [h]
  exact forall₂_congr fun q _ => eq_comm.trans finalPos_eq_self_iff

theorem removeNops_stage (hf : f.Within) : NopsRemoved f f.numBb (removeNops f) :=
  stage_removeNops hf (Nat.le_refl _)

theorem stagePos_eq_finalPos {q : Ref} (hq : f.InRange q) :
    stagePos f.toFunc f.numBb q = finalPos f.toFunc q := if_pos hq.1

theorem finalPos_injective {r s : Ref} (hr : f.Stays r) (hs : f.Stays s)
    (h : finalPos f.toFunc r = finalPos f.toFunc s) : r = s := by
  obtain ⟨hbb, hi⟩ := Ref.mk.inj h
  rw [hbb] at hi
  exact ref_eq hbb (place_injective (hbb ▸ hr.2) hs.2 hi)

/-- **`remove_nops` relocates the operands and the dependencies of the instructions**, and so every
reference follows exactly when the other lists need no relocation. -/
theorem removeNops_relocates_iff (hf : f.Sound) :
    Relocates f (removeNops f) (finalPos f.toFunc) ↔
      (∀ b < f.numBb, ∀ q ∈ f.mdep b, NoNopBefore f.toFunc q) ∧
        ∀ q ∈ f.msched, NoNopBefore f.toFunc q := by
  have hstage := removeNops_stage hf.within
  constructor
  · intro h
    refine ⟨fun b hb => map_eq_self_iff.1 ?_, map_eq_self_iff.1 ?_⟩
    · rw [← h.mdep b hb, hstage.mdep]
    · rw [← h.msched, hstage.msched]
  · rintro ⟨hmdep, hmsched⟩
    exact {
      inRange := fun r hr => by
        refine ⟨hstage.numBb ▸ hr.1.1, ?_⟩
        dsimp only [finalPos]
        rw [hstage.ninsn, if_pos hr.1.1]
        exact place_lt_place hr.2 hr.1.2
      injective := fun r s => finalPos_injective
      insn := fun r hr => by
        rw [← stagePos_eq_finalPos hr.1, hstage.insn r hr]
        exact relocate_congr fun k q hk => stagePos_eq_finalPos (hf.op r hr.1 k q hk).1
      dep := fun r hr => by
        rw [← stagePos_eq_finalPos hr.1, hstage.dep r hr]
        exact List.map_congr_left fun q hq => stagePos_eq_finalPos (hf.dep r hr.1 q hq).1
      mdep := fun b hb => by rw [hstage.mdep, ← map_eq_self_iff.2 (hmdep b hb)]
      msched := by rw [hstage.msched, ← map_eq_self_iff.2 hmsched] }

/-- **Every reference follows in `insert_insns`, and in `remove_nops` exactly when no entry of the
lists that it leaves out has a NOP before it.** -/
theorem relocation_iff {f : Linked W} (hf : f.Sound) :
    (∀ ref n, Relocates f (insertInsns f ref n) (shift ref n)) ∧
      (Relocates f (removeNops f) (finalPos f.toFunc) ↔
        (∀ b < f.numBb, ∀ q ∈ f.mdep b, NoNopBefore f.toFunc q) ∧
          ∀ q ∈ f.msched, NoNopBefore f.toFunc q) :=
  ⟨insertInsns_relocates f, removeNops_relocates_iff hf⟩

/-- A scheduled load after a NOP. -/
def loadAfterNop : Linked 32 where
  numBb := 1
  dead _ := false
  ninsn _ := 2
  insn r := if r.i = 0 then nopInsn else { (nopInsn : Insn 32) with index := .lw }
  dep _ := []
  mdep _ := []
  msched := [⟨0, 1⟩]

theorem loadAfterNop_sound : loadAfterNop.Sound where
  op r _ k q h := by
    dsimp only [loadAfterNop] at h
    split at h <;> cases h
  dep _ _ _ h := absurd h List.not_mem_nil
  mdep _ _ _ h := absurd h List.not_mem_nil
  msched q h := by
    obtain rfl := List.mem_singleton.1 h
    exact ⟨by decide, by decide⟩

/-- The load follows when a NOP is inserted before it, but not when the other one is removed. -/
theorem relocation_iff_load :
    Relocates loadAfterNop (insertInsns loadAfterNop ⟨0, 1⟩ 1) (shift ⟨0, 1⟩ 1) ∧
      ¬Relocates loadAfterNop (removeNops loadAfterNop) (finalPos loadAfterNop.toFunc) :=
  ⟨(relocation_iff loadAfterNop_sound).1 ⟨0, 1⟩ 1, fun h =>
    absurd (((relocation_iff loadAfterNop_sound).2.1 h).2 ⟨0, 1⟩ (.head _) 0 (by decide))
      (by decide)⟩

/-- The schedule is not relocated. -/
theorem relocation_broken : ¬∀ f : Linked 32, f.Sound →
    Relocates f (removeNops f) (finalPos f.toFunc) := fun h =>
  absurd (h loadAfterNop loadAfterNop_sound).msched (by decide)

end Cuc
end Or1ksim
