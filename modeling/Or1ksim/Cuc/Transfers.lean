import Or1ksim.Cuc.CmovMore
import Or1ksim.Cuc.Schedule
import Or1ksim.Memory.BigEndian

/-!
# Memory transfers that are removed

`same_transfers` and `join_transfers` of `cuc/memory.c`: of two scheduled loads from the same place
one is removed, and two loads that touch are to become a wider one, with instructions that take it
apart.

* `sameTransfers`, `joinTransfers` — the two passes;
* `Transfers.Holds` — every instruction holds what it computes, or what it has loaded;
* `Carries` — the instructions see the values that they saw before, and a removed load has any
value;
* `Carries.trans` — **that goes on from one step to the next**.
-/

namespace Or1ksim
namespace Cuc

variable {W : ℕ}

/-! ### The passes -/

/-- `mtype` of a memory access. -/
structure MemType where
  /-- `MT_LOAD` -/
  load : Bool
  /-- `MT_WIDTH` -/
  width : ℕ
  /-- `MT_SIGNED` -/
  signed : Bool
deriving DecidableEq

/-- A function with `IT_SIGNED` of its instructions and `mtype` of its schedule. -/
structure Transfers (W : ℕ) extends Linked W where
  signed : Ref → Bool
  mtype : List MemType

namespace Transfers

/-- `mtype[i]` -/
def typeAt (f : Transfers W) (i : ℕ) : MemType := f.mtype.getD i ⟨false, 0, false⟩

/-- The offsets of two loads that follow each other in the schedule, if they are of one type and in
one block, and if their addresses are a constant away from the same operand. -/
def offsets (f : Transfers W) (i : ℕ) : Option (BitVec W × BitVec W) :=
  if f.typeAt (i - 1) = f.typeAt i ∧ (f.typeAt i).load ∧
      (f.scheduled (i - 1)).bb = (f.scheduled i).bb then
    match displacement f.toFunc (f.insn (f.scheduled (i - 1))),
      displacement f.toFunc (f.insn (f.scheduled i)) with
    | some (o, x), some (o', y) => if o = o' then some (x, y) else none
    | _, _ => none
  else none

/-- `t1`, the first of the two in the block. -/
def first (f : Transfers W) (i : ℕ) : Ref :=
  if (f.scheduled (i - 1)).i ≤ (f.scheduled i).i then f.scheduled (i - 1) else f.scheduled i

/-- `t2`, the other one. -/
def second (f : Transfers W) (i : ℕ) : Ref :=
  if (f.scheduled (i - 1)).i ≤ (f.scheduled i).i then f.scheduled i else f.scheduled (i - 1)

/-- `change_insn_type (&f->INSN(r), II_NOP)` -/
def nopAt (f : Transfers W) (r : Ref) : Transfers W :=
  { f with
    insn := Function.update f.insn r nopInsn
    dep := Function.update f.dep r []
    signed := Function.update f.signed r false }

/-- "Update references". -/
def mapRefs (pos : Ref → Ref) (f : Transfers W) : Transfers W :=
  { f with insn := fun r => if f.InRange r then (f.insn r).relocate pos else f.insn r }

/-- `keep:` -/
def keepAt (f : Transfers W) (i j : ℕ) : Transfers W :=
  { f with msched := f.msched.set j (f.scheduled i), mtype := f.mtype.set j (f.typeAt i) }

/-- "yes => remove actual instruction". -/
def removeSame (f : Transfers W) (i : ℕ) : Transfers W :=
  (f.nopAt (f.second i)).mapRefs fun q => if q = f.second i then f.first i else q

/-- "Check if they are the same". -/
def isSame (f : Transfers W) (i : ℕ) : Bool := (f.offsets i).any fun (x, y) => x == y

/-- The loop body of `same_transfers`, with `j`. -/
def sameStep (s : Transfers W × ℕ) (i : ℕ) : Transfers W × ℕ :=
  if s.1.isSame i then (s.1.removeSame i, s.2) else (s.1.keepAt i s.2, s.2 + 1)

/-- `nmsched = j`; an empty schedule gets an entry there that is not looked at. -/
def cut (s : Transfers W × ℕ) : Transfers W :=
  { s.1 with msched := s.1.msched.take s.2, mtype := s.1.mtype.take s.2 }

/-- `same_transfers` -/
def sameTransfers (otype : MemoryOrder) (f : Transfers W) : Transfers W :=
  if otype = .weak ∨ otype = .none then
    cut ((List.range' 1 (f.msched.length - 1)).foldl sameStep (f, 1))
  else f

/-- `insert_insns (f, ref, 10)` -/
def insertTen (f : Transfers W) (ref : Ref) : Transfers W :=
  { f with
    toLinked := insertInsns f.toLinked ref 10
    signed := fun r =>
      if r.bb = ref.bb ∧ ref.i ≤ r.i then
        if r.i < ref.i + 10 then false else f.signed ⟨r.bb, r.i - 10⟩
      else f.signed r }

/-- "Remove all dependencies to second access". -/
def removeDeps (f : Transfers W) (t2 : Ref) : Transfers W :=
  { f with dep := fun r => if f.InRange r then (f.dep r).filter (· ≠ t2) else f.dep r }

end Transfers

/-- `t1 - 1`, as an `unsigned long`. -/
def refBefore (W : ℕ) (t1 : Ref) : Ref :=
  if 0 < t1.i then ⟨t1.bb, t1.i - 1⟩
  else if 0 < t1.bb then ⟨t1.bb - 1, 0xffff⟩
  else ⟨2 ^ (W - 16) - 1, 0xffff⟩

/-- An instruction of the code for a joined load, with the operands 1, 2 and 3. -/
def joinedInsn (index : Index) (x y z : Operand W) : Insn W :=
  { (nopInsn : Insn W) with index := index, op := ![.dest (-1), x, y, z, .none] }

/-- "Build the folowing code", for two loads of a type, the first of which was at `t1`. -/
def joinedCode (t1 : Ref) (t : MemType) (n : ℕ) : Insn W :=
  let at' (n : ℕ) : Operand W := .ref ⟨t1.bb, t1.i + n⟩
  let upper : BitVec W := if t.signed then 0xffffff00 else 0
  match n with
  | 0 => { joinedInsn (if t.width = 1 then .lh else .lw) (.ref (refBefore W t1)) .none .none with
      memory := true, volatile := true }
  | 1 => joinedInsn .and (at' 0) (.const 0xff) .none
  | 2 => { joinedInsn .sfle (at' 1) (.const 0x7f) .none with cond := true }
  | 3 => joinedInsn .or (at' 1) (.const upper) .none
  | 4 => joinedInsn .cmov (at' 3) (at' 1) (at' 2)
  | 5 => joinedInsn .srl (at' 0) (.const 8) .none
  | 6 => joinedInsn .and (at' 5) (.const 0xff) .none
  | 7 => { joinedInsn .sfle (at' 6) (.const 0x7f) .none with cond := true }
  | 8 => joinedInsn .or (at' 6) (.const upper) .none
  | _ => joinedInsn .cmov (at' 8) (at' 6) (at' 7)

/-- The reference is to one of the ten instructions from `t1` on. -/
def InGap (t1 r : Ref) : Prop := r.bb = t1.bb ∧ t1.i ≤ r.i ∧ r.i < t1.i + 10

instance (t1 r : Ref) : Decidable (InGap t1 r) := inferInstanceAs (Decidable (_ ∧ _))

/-- Where a reference is led after the joined load is there, numbered as it was before. -/
def joinedRef (t1 t2 q : Ref) : Ref :=
  if q.i < t1.i ∨ t1.i + 10 ≤ q.i then
    if q = t1 then ⟨t1.bb, t1.i + 4⟩
    else if q = t2 then ⟨t1.bb, t1.i + 9⟩
    else q
  else q

namespace Transfers

/-- The ten instructions, and the schedule entry of the wider load. -/
def putCode (f : Transfers W) (i : ℕ) (t1 : Ref) (t : MemType) (dep : List Ref) : Transfers W :=
  { f with
    insn := fun r => if InGap t1 r then joinedCode t1 t (r.i - t1.i) else f.insn r
    dep := Function.update f.dep t1 dep
    msched := f.msched.set (i - 1) t1
    mtype := f.mtype.set (i - 1) ⟨true, if t.width = 1 then 2 else 4, false⟩ }

/-- "yes => remove second instruction": none where an assertion fails. -/
def joinAt (f : Transfers W) (i : ℕ) : Option (Transfers W) :=
  let t1 := f.first i
  let t2 := f.second i
  if t1.bb < f.numBb ∧ t1.i ≤ f.ninsn t1.bb ∧ f.ninsn t1.bb + 10 < maxInsns then
    let g := ((f.nopAt t1).nopAt t2).insertTen t1
    if cucCheck g.toFunc then
      some (((g.removeDeps t2).putCode i t1 (f.typeAt i) (f.dep t1)).mapRefs (joinedRef t1 t2))
    else none
  else none

/-- "Check if they touch together". -/
def touches (f : Transfers W) (i : ℕ) : Bool :=
  (f.offsets i).any fun (x, y) => x + BitVec.ofNat W (f.typeAt i).width == y

/-- The loop body of `join_transfers`, with `j`. -/
def joinStep (s : Transfers W × ℕ) (i : ℕ) : Option (Transfers W × ℕ) :=
  if s.1.touches i then (s.1.joinAt i).map fun f => (f, s.2)
  else some (s.1.keepAt i s.2, s.2 + 1)

/-- `join_transfers` -/
def joinTransfers (otype : MemoryOrder) (f : Transfers W) : Option (Transfers W) :=
  if otype = .exact then some f
  else ((List.range' 1 (f.msched.length - 1)).foldlM joinStep (f, 1)).map cut

/-- The type of a memory access; all bits of the width `-1` are set. -/
def memType (index : Index) (signed : Bool) : MemType :=
  match memWidth index with
  | some width => ⟨index.isLoad, width, signed⟩
  | none => ⟨true, 7, true⟩

/-- "Assign memory types". -/
def assignTypes (f : Linked W) (signed : Ref → Bool) : Transfers W :=
  { f with
    signed := signed
    mtype := f.msched.map fun r => memType (f.insn r).index (signed r) }

end Transfers

/-! ### Values -/

/-- What a load gets from the big-endian memory. -/
def loaded (mem : Bytes) (signed : Bool) : Width → Word → Word
  | .w1, a => if signed then (mem a).signExtend 32 else BigEndian.read mem a .w1
  | .w2, a => if signed then (mem a ++ mem (a + 1#32)).signExtend 32 else BigEndian.read mem a .w2
  | .w4, a => BigEndian.read mem a .w4

/-- The instruction computes its value from its operands and the memory. -/
def Index.isEvaluated : Index → Bool
  | .lrbb | .reg => false
  | index => index.isValue

/-- What an instruction computes. -/
def evalInsn (mem : Bytes) (env : Env) (signed : Bool) (ii : Insn W) (v : Ref → Word) : Word :=
  let x := args env v ii
  match ii.index with
  | .lb => loaded mem signed .w1 (x 1)
  | .lh => loaded mem signed .w2 (x 1)
  | .lw => loaded mem signed .w4 (x 1)
  | index => compute env 0 0 index x

/-- Every instruction holds what it computes. -/
def Transfers.Holds (f : Transfers W) (mem : Bytes) (env : Env) (v : Ref → Word) : Prop :=
  ∀ r, f.InRange r → (f.insn r).index.isEvaluated = true →
    v r = evalInsn mem env (f.signed r) (f.insn r) v

/-- The instruction is a load that has been removed. -/
def Removed (f g : Transfers W) (pos : Ref → Ref) (r : Ref) : Prop :=
  (f.insn r).index ≠ .nop ∧ (g.insn (pos r)).index = .nop

/-- The wires `w` go with the wires `v` from before: an instruction and its operands have the values
that they had, and what has been removed has the value that `z` says. -/
structure SameSeen (mem : Bytes) (env : Env) (f g : Transfers W) (pos : Ref → Ref)
    (v z w : Ref → Word) : Prop where
  holds : g.Holds mem env w
  removed : ∀ r, Removed f g pos r → w (pos r) = z r
  wire : ∀ r, ¬Removed f g pos r → w (pos r) = v r
  operand : ∀ r, f.InRange r → (g.insn (pos r)).index ≠ .nop → ∀ k,
    operandValue env w ((g.insn (pos r)).op k) = operandValue env v ((f.insn r).op k)

/-- `g` carries what `f` computes: its instructions are at `pos`, except for loads that have been
removed, whose value may then be any. -/
structure Carries (f g : Transfers W) (pos : Ref → Ref) : Prop where
  injective : Function.Injective pos
  inRange : ∀ r, f.InRange r → g.InRange (pos r)
  index : ∀ r, ¬Removed f g pos r → (g.insn (pos r)).index = (f.insn r).index
  load : ∀ r, Removed f g pos r → (f.insn r).index.isLoad = true
  seen : ∀ mem env v, f.Holds mem env v → ∀ z, ∃ w, SameSeen mem env f g pos v z w

section Values

variable {mem : Bytes} {env : Env} {f g k : Transfers W} {pos pos' : Ref → Ref} {r : Ref}
  {v w z : Ref → Word}

theorem evalInsn_congr {signed : Bool} {ii ii' : Insn W} (hindex : ii'.index = ii.index)
    (hop : ∀ k, operandValue env w (ii'.op k) = operandValue env v (ii.op k)) :
    evalInsn mem env signed ii' w = evalInsn mem env signed ii v := by
  have hargs : args env w ii' = args env v ii := funext hop
  unfold evalInsn
  rw [hargs, hindex]

theorem Carries.refl (f : Transfers W) : Carries f f id where
  injective := Function.injective_id
  inRange _ hr := hr
  index _ _ := rfl
  load _ hr := absurd hr.2 hr.1
  seen _ _ v hv _ := ⟨v, hv, fun _ hr => absurd hr.2 hr.1, fun _ _ => rfl, fun _ _ _ _ => rfl⟩

theorem removed_trans_iff (h : Carries f g pos) (h' : Carries g k pos') :
    Removed f k (pos' ∘ pos) r ↔ Removed f g pos r ∨ Removed g k pos' (pos r) := by
  unfold Removed Function.comp
  by_cases hg : (g.insn (pos r)).index = .nop
  · have hk : (k.insn (pos' (pos r))).index = .nop :=
      (h'.index (pos r) fun hrem => hrem.1 hg).trans hg
    simp only [hg, hk, and_true, ne_eq, not_true_eq_false, or_false]
  · have hf : (f.insn r).index ≠ .nop := by
      rwa [← h.index r fun hrem => hg hrem.2]
    simp only [hg, hf, ne_eq, not_false_eq_true, true_and, and_false, false_or]

/-- **The steps compose**: what the first has removed is a NOP to the second. -/
theorem Carries.trans (h : Carries f g pos) (h' : Carries g k pos') :
    Carries f k (pos' ∘ pos) where
  injective := h'.injective.comp h.injective
  inRange r hr := h'.inRange _ (h.inRange r hr)
  index r hr := by
    rw [removed_trans_iff h h', not_or] at hr
    exact (h'.index _ hr.2).trans (h.index r hr.1)
  load r hr := by
    by_cases hrem : Removed f g pos r
    · exact h.load r hrem
    · rw [← h.index r hrem]
      exact h'.load _ (((removed_trans_iff h h').1 hr).resolve_left hrem)
  seen mem env v hv z := by
    obtain ⟨w, hw⟩ := h.seen mem env v hv z
    obtain ⟨u, hu⟩ := h'.seen mem env w hw.holds (Function.extend pos z fun _ => 0)
    refine ⟨u, hu.holds, fun r hr => ?_, fun r hr => ?_, fun r hr hk j => ?_⟩
    · by_cases hrem : Removed g k pos' (pos r)
      · exact (hu.removed _ hrem).trans (h.injective.extend_apply z _ r)
      · have hfirst := ((removed_trans_iff h h').1 hr).resolve_right hrem
        exact (hu.wire _ hrem).trans (hw.removed r hfirst)
    · rw [removed_trans_iff h h', not_or] at hr
      exact (hu.wire _ hr.2).trans (hw.wire r hr.1)
    · have hg : (g.insn (pos r)).index ≠ .nop := fun hnop =>
        hk ((h'.index (pos r) fun hrem => hrem.1 hnop).trans hnop)
      exact (hu.operand _ (h.inRange r hr) hk j).trans (hw.operand r hr hg j)

end Values

end Cuc
end Or1ksim
