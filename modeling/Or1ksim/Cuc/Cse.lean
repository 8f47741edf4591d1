import Or1ksim.Cuc.Relocate
import Or1ksim.Lib.Runs

/-!
# Common subexpressions

`cse` of `cuc/insn.c`: of two instructions that compute the same the second is turned into a NOP,
and what referred to it refers to the first.

* `cse` — the pass, over all pairs of instructions;
* `Holds` — every instruction holds what it computes, in dead blocks as well, which the pass does
  not tell from the others;
* `Merged` — what the pass has done so far: every instruction has one that stands for it;
* `KeepsInterface` — the references have the same values, and the outputs are there;
* `cse_interface_iff` — **the interface is kept exactly when no output is merged into another
  instruction**.
-/

namespace Or1ksim
namespace Cuc

variable {W : ℕ}

/-! ### The pass -/

/-- The comparison of two operands: the words of destinations are not compared. -/
def Operand.same : Operand W → Operand W → Bool
  | .dest _, .dest _ => true
  | a, b => decide (a = b)

/-- The exact match of two instructions, the second of which may go. -/
def sameInsn (ii1 ii2 : Insn W) : Bool :=
  decide (ii1.index = ii2.index) && !ii2.volatile &&
    (List.finRange 5).all fun j => (ii1.op j).same (ii2.op j)

/-- An instruction that the pass looks at. -/
def cseCandidate (ii : Insn W) : Bool :=
  decide (ii.index ≠ .nop) && decide (ii.index ≠ .lrbb) && !ii.memory && !ii.memadd

/-- The second instruction is the same as the first. -/
def merges (f : Func W) (p : Ref × Ref) : Bool :=
  cseCandidate (f.insn p.1) && cseCandidate (f.insn p.2) &&
    (decide (p.1.bb ≠ p.2.bb) || decide (p.1.i < p.2.i)) && sameInsn (f.insn p.1) (f.insn p.2)

/-- References to the second lead to the first. -/
def redirect (ref1 ref2 q : Ref) : Ref := if q = ref2 then ref1 else q

/-- Removes the second instruction and relinks the references. -/
def merge (f : Func W) (ref1 ref2 : Ref) : Func W :=
  { f with
    insn := fun r => if r = ref2 then nopInsn else
      if f.InRange r then (f.insn r).relocate (redirect ref1 ref2) else f.insn r }

/-- The body of the loops. -/
def cseStep (f : Func W) (p : Ref × Ref) : Func W := if merges f p then merge f p.1 p.2 else f

/-- The instructions `ii1` and `ii2` of the four loops. -/
def Func.pairs (f : Func W) : List (Ref × Ref) :=
  f.insns.flatMap fun ref1 => f.insns.map fun ref2 => (ref1, ref2)

/-- `cse`, as far as it changes the function. -/
def cse (f : Func W) : Func W := f.pairs.foldl cseStep f

/-! ### Values in all blocks -/

/-- Every instruction that has a value holds what it computes. -/
def Holds (env : Env) (f : Func W) (v : Ref → Word) : Prop :=
  ∀ r, f.InRange r → (f.insn r).index.isValue → v r = value env f v r

/-- The value is a function of the operands. -/
def Index.isPure (index : Index) : Bool := index.isValue && !index.isUnit

/-- Loads, stores, branches, calls and latches carry the flags that they are made with. -/
def Flagged (f : Func W) : Prop :=
  ∀ r, f.InRange r → (f.insn r).index.isPure = false → cseCandidate (f.insn r) = true →
    (f.insn r).volatile = true

/-- The register that an instruction marked as output holds the final value of. -/
def Insn.outputReg (ii : Insn W) : Option (BitVec W) :=
  match ii.output, ii.op 0 with
  | true, .dest d => some d
  | _, _ => Option.none

/-- A register is the output of one instruction. -/
def OutputsDistinct (f : Func W) : Prop :=
  ∀ r s d, f.InRange r → f.InRange s → (f.insn r).outputReg = some d →
    (f.insn s).outputReg = some d → r = s

/-- The interface of a function after a pass. -/
structure KeepsInterface (f g : Func W) : Prop where
  /-- The references of the instructions that are left have the values that they had. -/
  forward : ∀ env v, Holds env f v → Holds env g v ∧ ∀ r, f.InRange r →
    (g.insn r).index ≠ .nop → args env v (g.insn r) = args env v (f.insn r)
  /-- There are no other values. -/
  backward : ∀ env w, Holds env g w → ∃ v, Holds env f v ∧ ∀ r, f.InRange r →
    (g.insn r).index ≠ .nop → v r = w r ∧ args env w (g.insn r) = args env v (f.insn r)
  /-- An output is still there. -/
  outputs : ∀ r d, f.InRange r → (f.insn r).outputReg = some d →
    ∃ s, g.InRange s ∧ (g.insn s).outputReg = some d ∧ ∀ env v, Holds env f v → v s = v r

variable {f g : Func W} {rep pos : Ref → Ref} {a b r : Ref} {ii jj : Insn W} {env : Env}
  {v w : Ref → Word}

/-- What the comparison of an operand looks at. -/
def Operand.key : Operand W → Operand W
  | .dest _ => .dest 0
  | o => o

theorem same_iff {o p : Operand W} : o.same p = true ↔ o.key = p.key := by
  cases o <;> cases p <;> simp [Operand.same, Operand.key]

/-- Two instructions that compute the same. -/
def Alike (ii jj : Insn W) : Prop :=
  ii.index = jj.index ∧ ∀ k, (ii.op k).key = (jj.op k).key

theorem Alike.refl (ii : Insn W) : Alike ii ii := ⟨rfl, fun _ => rfl⟩

theorem Alike.symm (h : Alike ii jj) : Alike jj ii := ⟨h.1.symm, fun k => (h.2 k).symm⟩

theorem Alike.trans {kk : Insn W} (h : Alike ii jj) (h' : Alike jj kk) : Alike ii kk :=
  ⟨h.1.trans h'.1, fun k => (h.2 k).trans (h'.2 k)⟩

theorem key_relocate {o p : Operand W} (h : o.key = p.key) :
    (o.relocate pos).key = (p.relocate pos).key := by
  cases o <;> cases p <;> simp_all [Operand.key, Operand.relocate]

theorem Alike.relocate (h : Alike ii jj) (pos : Ref → Ref) :
    Alike (ii.relocate pos) (jj.relocate pos) := ⟨h.1, fun k => key_relocate (h.2 k)⟩

theorem operandValue_key (o : Operand W) : operandValue env v o.key = operandValue env v o := by
  cases o <;> rfl

theorem Alike.args_eq (h : Alike ii jj) : args env v ii = args env v jj := by
  funext k
  rw [args, ← operandValue_key, h.2 k, operandValue_key, args]

theorem args_relocate (ii : Insn W) :
    args env w (ii.relocate pos) = args env (w ∘ pos) ii := by
  funext k
  dsimp only [args, Insn.relocate]
  cases ii.op k <;> rfl

theorem compute_pure {index : Index} (h : index.isPure = true) (x : OperandNo → Word)
    (b n b' n' : ℕ) : compute env b n index x = compute env b' n' index x := by
  cases index <;> first | rfl | exact absurd h (by decide)

theorem merges_iff {p : Ref × Ref} : merges f p = true ↔
    cseCandidate (f.insn p.1) = true ∧ cseCandidate (f.insn p.2) = true ∧
      (p.1.bb ≠ p.2.bb ∨ p.1.i < p.2.i) ∧ (f.insn p.2).volatile = false ∧
        Alike (f.insn p.1) (f.insn p.2) := by
  have hall : ((List.finRange 5).all fun j => ((f.insn p.1).op j).same ((f.insn p.2).op j)) = true ↔
      ∀ k, ((f.insn p.1).op k).key = ((f.insn p.2).op k).key := by
    simp only [List.all_eq_true, same_iff, List.mem_finRange, true_imp_iff]
  rw [merges, sameInsn]
  simp only [Bool.and_eq_true, Bool.or_eq_true, decide_eq_true_eq, hall, Bool.not_eq_true', Alike]
  tauto

/-! ### What the pass has done so far -/

/-- `rep r` is the instruction of `g` that stands for instruction `r` of `f`. -/
structure Merged (f g : Func W) (rep : Ref → Ref) : Prop where
  numBb : g.numBb = f.numBb
  ninsn : g.ninsn = f.ninsn
  insn : ∀ r, f.InRange r → rep r = r → g.insn r = (f.insn r).relocate rep
  gone : ∀ r, f.InRange r → rep r ≠ r → g.insn r = nopInsn
  outside : ∀ r, ¬f.InRange r → g.insn r = f.insn r
  inRange : ∀ r, f.InRange r → f.InRange (rep r)
  rep_rep : ∀ r, rep (rep r) = rep r
  /-- What is gone computes the same as what stands for it. -/
  alike : ∀ r, Alike ((f.insn r).relocate rep) ((f.insn (rep r)).relocate rep)
  isPure : ∀ r, rep r ≠ r → (f.insn r).index.isPure
  holds : ∀ env v, Holds env f v → ∀ q, v (rep q) = v q

theorem merged_self (f : Func W) : Merged f f id where
  numBb := rfl
  ninsn := rfl
  insn _ _ _ := (relocate_id fun _ => rfl).symm
  gone _ _ h := absurd rfl h
  outside _ _ := rfl
  inRange _ h := h
  rep_rep _ := rfl
  alike _ := .refl _
  isPure _ h := absurd rfl h
  holds _ _ _ _ := rfl

namespace Merged

variable (hm : Merged f g rep)
include hm

theorem inRange_iff : g.InRange r ↔ f.InRange r := by
  rw [Func.InRange, Func.InRange, hm.numBb, hm.ninsn]

theorem rep_eq (hr : f.InRange r) (hnop : (g.insn r).index ≠ .nop) : rep r = r := by
  by_contra hne
  exact hnop (congrArg Insn.index (hm.gone r hr hne))

theorem unitNo_eq (hr : f.InRange r) : g.unitNo r = f.unitNo r := by
  refine congrArg List.length (List.filter_congr fun i hi => ?_)
  have hi : f.InRange ⟨r.bb, i⟩ := ⟨hr.1, (List.mem_range.1 hi).trans hr.2⟩
  by_cases hrep : rep ⟨r.bb, i⟩ = ⟨r.bb, i⟩
  · rw [hm.insn _ hi hrep]
    rfl
  · have hpure := hm.isPure _ hrep
    rw [Index.isPure, Bool.and_eq_true, Bool.not_eq_true'] at hpure
    rw [hm.gone _ hi hrep, hpure.2]
    rfl

theorem value_eq (hr : f.InRange r) (hrep : rep r = r) :
    value env g w r = value env f (w ∘ rep) r := by
  rw [value, value, hm.unitNo_eq hr, hm.insn r hr hrep, args_relocate]
  rfl

theorem comp_rep (hv : Holds env f v) : v ∘ rep = v := funext (hm.holds env v hv)

theorem holds_forward (hv : Holds env f v) : Holds env g v := by
  intro r hr hval
  have hr := hm.inRange_iff.1 hr
  have hrep : rep r = r := hm.rep_eq hr fun hnop => by rw [hnop] at hval; cases hval
  rw [hm.value_eq hr hrep, hm.comp_rep hv]
  refine hv r hr ?_
  rwa [hm.insn r hr hrep] at hval

theorem holds_backward (hw : Holds env g w) : Holds env f (w ∘ rep) := by
  intro r hr hval
  have hs := hm.inRange r hr
  have halike := hm.alike r
  have hindex : (f.insn (rep r)).index = (f.insn r).index := halike.1.symm
  have hwrep : w (rep r) = value env f (w ∘ rep) (rep r) := by
    rw [← hm.value_eq hs (hm.rep_rep r)]
    refine hw _ (hm.inRange_iff.2 hs) ?_
    rw [hm.insn _ hs (hm.rep_rep r)]
    exact hindex ▸ hval
  have hargs : args env (w ∘ rep) (f.insn (rep r)) = args env (w ∘ rep) (f.insn r) := by
    rw [← args_relocate, ← args_relocate]
    exact halike.symm.args_eq
  by_cases hrep : rep r = r
  · rw [Function.comp_apply, hwrep, hrep]
  · rw [Function.comp_apply, hwrep, value, value, hindex, hargs]
    exact compute_pure (hm.isPure r hrep) _ _ _ _ _

end Merged

theorem Flagged.isPure (hf : Flagged f) (hm : Merged f g rep) (hb : f.InRange b)
    (hp : merges g (a, b) = true) : (f.insn b).index.isPure = true := by
  obtain ⟨-, hcand, -, hvol, -⟩ := merges_iff.1 hp
  have hinsn := hm.insn b hb (hm.rep_eq hb fun hnop => by
    rw [cseCandidate, hnop] at hcand
    cases hcand)
  rw [hinsn] at hcand hvol
  by_contra hpure
  exact Bool.noConfusion (hvol.symm.trans (hf b hb (Bool.eq_false_iff.2 hpure) hcand))

theorem redirect_of_ne {q : Ref} (h : q ≠ b) : redirect a b q = q := if_neg h

/-- One instruction is the only one that a merge redirects. -/
theorem redirect_cases (rep : Ref → Ref) (a b q : Ref) :
    rep q = b ∧ (redirect a b ∘ rep) q = a ∨ rep q ≠ b ∧ (redirect a b ∘ rep) q = rep q := by
  by_cases hq : rep q = b
  · exact .inl ⟨hq, by rw [Function.comp_apply, hq, redirect, if_pos rfl]⟩
  · exact .inr ⟨hq, redirect_of_ne hq⟩

/-- Two instructions compute the same of the same operands. -/
theorem Merged.eq_of_alike (hm : Merged f g rep) (ha : f.InRange a) (hb : f.InRange b)
    (hpure : (f.insn b).index.isPure = true)
    (hmatch : Alike ((f.insn a).relocate rep) ((f.insn b).relocate rep)) {v : Ref → Word}
    (hv : Holds env f v) : v a = v b := by
  have hindex : (f.insn a).index = (f.insn b).index := hmatch.1
  have hvalue : (f.insn b).index.isValue = true := by
    rw [Index.isPure, Bool.and_eq_true] at hpure
    exact hpure.1
  have hargs : args env v (f.insn a) = args env v (f.insn b) := by
    have h : args env v ((f.insn a).relocate rep) = args env v ((f.insn b).relocate rep) :=
      hmatch.args_eq
    rwa [args_relocate, args_relocate, hm.comp_rep hv] at h
  rw [hv a ha (hindex ▸ hvalue), hv b hb hvalue, value, value, hindex, hargs]
  exact compute_pure hpure _ _ _ _ _

/-- **A merge** keeps what the pass has done. -/
theorem Merged.merge (hf : Flagged f) (hm : Merged f g rep) (ha : f.InRange a) (hb : f.InRange b)
    (hp : merges g (a, b) = true) : Merged f (merge g a b) (redirect a b ∘ rep) := by
  obtain ⟨hcanda, hcandb, horder, -, hmatch⟩ := merges_iff.1 hp
  have hpure := hf.isPure hm hb hp
  have hnop : ∀ {ii : Insn W}, cseCandidate ii = true → ii.index ≠ .nop := fun h hnop => by
    rw [cseCandidate, hnop] at h
    cases h
  have hrepa := hm.rep_eq ha (hnop hcanda)
  have hrepb := hm.rep_eq hb (hnop hcandb)
  have hne : a ≠ b := by
    rintro rfl
    exact horder.elim (fun h => h rfl) (Nat.lt_irrefl _)
  have hinsna := hm.insn a ha hrepa
  have hinsnb := hm.insn b hb hrepb
  rw [hinsna, hinsnb] at hmatch
  have hcases := redirect_cases rep a b
  exact {
    numBb := hm.numBb
    ninsn := hm.ninsn
    insn := fun r hr hrep => by
      obtain ⟨hrb, heq⟩ | ⟨hrb, heq⟩ := hcases r
      · -- then `r` is `a`, which stands for itself
        have hra : a = r := heq.symm.trans hrep
        exact absurd (hrepa.symm.trans ((congrArg rep hra).trans hrb)) hne
      · have hrr : rep r = r := heq.symm.trans hrep
        have hrne : r ≠ b := fun h => hrb (hrr.trans h)
        have hgr : g.InRange r := hm.inRange_iff.2 hr
        rw [← relocate_relocate, ← hm.insn r hr hrr]
        exact (if_neg hrne).trans (if_pos hgr)
    gone := fun r hr hrep => by
      by_cases hrb : r = b
      · exact if_pos hrb
      · have hrr : rep r ≠ r := by
          intro hrr
          exact hrep (by rw [Function.comp_apply, hrr, redirect_of_ne hrb])
        refine (if_neg hrb).trans ((if_pos (hm.inRange_iff.2 hr)).trans ?_)
        rw [hm.gone r hr hrr]
        rfl
    outside := fun r hr => by
      have hrb : r ≠ b := fun h => hr (h ▸ hb)
      rw [← hm.outside r hr]
      exact (if_neg hrb).trans (if_neg fun h => hr (hm.inRange_iff.1 h))
    inRange := fun r hr => by
      obtain ⟨-, heq⟩ | ⟨-, heq⟩ := hcases r
      · rwa [heq]
      · rw [heq]
        exact hm.inRange r hr
    rep_rep := fun r => by
      obtain ⟨-, heq⟩ | ⟨hrb, heq⟩ := hcases r
      · rw [heq, Function.comp_apply, hrepa, redirect_of_ne hne]
      · rw [heq, Function.comp_apply, hm.rep_rep, redirect_of_ne hrb]
    alike := fun r => by
      have halike := (hm.alike r).relocate (redirect a b)
      rw [relocate_relocate, relocate_relocate] at halike
      obtain ⟨hrb, heq⟩ | ⟨-, heq⟩ := hcases r
      · have hab := hmatch.symm.relocate (redirect a b)
        rw [relocate_relocate, relocate_relocate] at hab
        rw [hrb] at halike
        rw [heq]
        exact halike.trans hab
      · rwa [heq]
    isPure := fun r hrep => by
      by_cases hrr : rep r = r
      · have hrb : r = b := by
          by_contra hrb
          exact hrep (by rw [Function.comp_apply, hrr, redirect_of_ne hrb])
        rwa [hrb]
      · exact hm.isPure r hrr
    holds := fun env v hv q => by
      obtain ⟨hqb, heq⟩ | ⟨-, heq⟩ := hcases q
      · rw [heq, hm.eq_of_alike ha hb hpure hmatch hv, ← hqb, hm.holds env v hv]
      · rw [heq, hm.holds env v hv] }

theorem mem_pairs {p : Ref × Ref} : p ∈ f.pairs ↔ f.InRange p.1 ∧ f.InRange p.2 := by
  rw [Func.pairs, List.mem_flatMap]
  constructor
  · rintro ⟨a, ha, hp⟩
    obtain ⟨b, hb, rfl⟩ := List.mem_map.1 hp
    exact ⟨mem_insns.1 ha, mem_insns.1 hb⟩
  · rintro ⟨ha, hb⟩
    exact ⟨p.1, mem_insns.2 ha, List.mem_map.2 ⟨p.2, mem_insns.2 hb, rfl⟩⟩

/-- **The whole pass**, by induction on the pairs. -/
theorem merged_foldl (hf : Flagged f) {l : List (Ref × Ref)} (hl : ∀ p ∈ l, p ∈ f.pairs) :
    ∃ rep, Merged f (l.foldl cseStep f) rep := by
  refine List.foldlRecOn (motive := fun g => ∃ rep, Merged f g rep) l cseStep
    ⟨id, merged_self f⟩ fun g ⟨rep, hm⟩ p hp => ?_
  obtain ⟨ha, hb⟩ := mem_pairs.1 (hl p hp)
  rw [cseStep]
  split
  · next hmerges => exact ⟨_, hm.merge hf ha hb hmerges⟩
  · exact ⟨rep, hm⟩

/-! ### Outputs -/

/-- The pair is merged, and the second one is an output. -/
def Loses (f : Func W) (p : Ref × Ref) : Prop :=
  merges f p = true ∧ (f.insn p.2).outputReg.isSome = true

theorem outputReg_relocate (ii : Insn W) : (ii.relocate pos).outputReg = ii.outputReg := by
  dsimp only [Insn.outputReg, Insn.relocate]
  cases ii.output <;> cases ii.op 0 <;> rfl

theorem outputReg_cseStep (g : Func W) (p : Ref × Ref) (r : Ref) :
    ((cseStep g p).insn r).outputReg =
      if merges g p = true ∧ r = p.2 then Option.none else (g.insn r).outputReg := by
  rw [cseStep]
  by_cases hmerges : merges g p = true
  · rw [if_pos hmerges]
    by_cases hr : r = p.2
    · rw [if_pos ⟨hmerges, hr⟩]
      exact congrArg Insn.outputReg (if_pos hr)
    · rw [if_neg fun h => hr h.2]
      refine (congrArg Insn.outputReg (if_neg hr)).trans ?_
      split
      · exact outputReg_relocate _
      · rfl
  · rw [if_neg hmerges, if_neg fun h => hmerges h.1]

theorem outputReg_of_foldl {l : List (Ref × Ref)} {d : BitVec W}
    (h : ((l.foldl cseStep g).insn r).outputReg = some d) : (g.insn r).outputReg = some d := by
  induction l generalizing g with
  | nil => exact h
  | cons p l ih =>
    have hstep := ih h
    rw [outputReg_cseStep] at hstep
    split at hstep
    · cases hstep
    · exact hstep

/-- No output is lost. -/
def OutputsKept (f g : Func W) : Prop :=
  ∀ r, (g.insn r).outputReg = (f.insn r).outputReg

theorem outputsKept_cseStep (hg : OutputsKept f g) (p : Ref × Ref) :
    OutputsKept f (cseStep g p) ↔ ¬Loses g p := by
  constructor
  · rintro h ⟨hmerges, hout⟩
    have hp := (hg p.2).trans ((h p.2).symm.trans (outputReg_cseStep g p p.2))
    rw [if_pos ⟨hmerges, rfl⟩] at hp
    rw [hp] at hout
    cases hout
  · intro h r
    rw [outputReg_cseStep]
    split
    · next hr =>
      obtain ⟨hmerges, rfl⟩ := hr
      rw [← hg]
      cases hout : (g.insn p.2).outputReg with
      | none => rfl
      | some d => exact absurd ⟨hmerges, by rw [hout]; rfl⟩ h
    · exact hg r

theorem outputsKept_of_prefix {pre l : List (Ref × Ref)} (hpre : pre <+: l)
    (h : OutputsKept f (l.foldl cseStep f)) : OutputsKept f (pre.foldl cseStep f) := by
  obtain ⟨rest, rfl⟩ := hpre
  intro r
  have hr := h r
  rw [List.foldl_append] at hr
  cases hout : (f.insn r).outputReg with
  | some d => exact outputReg_of_foldl (hr.trans hout)
  | none =>
    cases hlater : ((pre.foldl cseStep f).insn r).outputReg with
    | none => rfl
    | some d => exact (outputReg_of_foldl hlater).symm.trans hout ▸ rfl

theorem Merged.keepsInterface_iff (hm : Merged f g rep) (hout : OutputsDistinct f) :
    KeepsInterface f g ↔ OutputsKept f g := by
  have hkept : ∀ {r d}, f.InRange r → (g.insn r).outputReg = some d →
      (f.insn r).outputReg = some d := by
    intro r d hr hd
    by_cases hrep : rep r = r
    · rwa [hm.insn r hr hrep, outputReg_relocate] at hd
    · rw [hm.gone r hr hrep] at hd
      cases hd
  constructor
  · intro h r
    by_cases hr : f.InRange r
    · cases hd : (f.insn r).outputReg with
      | some d =>
        obtain ⟨s, hs, hds, -⟩ := h.outputs r d hr hd
        have hs := hm.inRange_iff.1 hs
        rwa [hout r s d hr hs hd (hkept hs hds)]
      | none =>
        cases hg : (g.insn r).outputReg with
        | none => rfl
        | some d => exact (hkept hr hg).symm.trans hd
    · rw [hm.outside r hr]
  · intro h
    exact {
      forward := fun env v hv => by
        refine ⟨hm.holds_forward hv, fun r hr hnop => ?_⟩
        rw [hm.insn r hr (hm.rep_eq hr hnop), args_relocate, hm.comp_rep hv]
      backward := fun env w hw => by
        refine ⟨w ∘ rep, hm.holds_backward hw, fun r hr hnop => ?_⟩
        have hrep := hm.rep_eq hr hnop
        exact ⟨congrArg w hrep, by rw [hm.insn r hr hrep, args_relocate]⟩
      outputs := fun r d hr hd =>
        ⟨r, hm.inRange_iff.2 hr, (h r).trans hd, fun _ _ _ => rfl⟩ }

/-- **The interface is kept exactly when the pass meets no output that it merges into another
instruction.** -/
theorem cse_interface_iff {f : Func W} (hf : Flagged f) (hout : OutputsDistinct f) :
    KeepsInterface f (cse f) ↔
      ∀ pre p, pre ++ [p] <+: f.pairs → ¬Loses (pre.foldl cseStep f) p := by
  obtain ⟨rep, hm⟩ := merged_foldl hf (l := f.pairs) fun _ h => h
  have hrun : (∀ pre, pre <+: f.pairs → OutputsKept f (pre.foldl cseStep f)) ↔
      ∀ pre p, pre ++ [p] <+: f.pairs → ¬Loses (pre.foldl cseStep f) p :=
    Runs.foldl_prefix_iff (P := OutputsKept f) (C := fun g p => ¬Loses g p)
      (fun g p hg => outputsKept_cseStep hg p) fun _ => rfl
  rw [← hrun]
  refine (hm.keepsInterface_iff hout).trans ⟨fun h pre hpre => outputsKept_of_prefix hpre h, ?_⟩
  exact fun h => h _ (List.prefix_refl _)

/-- The same sum twice, one of them an output. -/
def twoSums (output1 output2 : Bool) : Func 32 where
  numBb := 1
  dead _ := false
  ninsn _ := 2
  insn r := { (nopInsn : Insn 32) with
    index := .add
    output := if r.i = 0 then output1 else output2
    op := ![.dest (if r.i = 0 then 5 else 11), .register 3, .const 1, .none, .none] }

theorem twoSums_flagged (output1 output2 : Bool) : Flagged (twoSums output1 output2) :=
  fun _ _ hpure => absurd hpure (by decide : (true : Bool) ≠ false)

theorem twoSums_cases {output1 output2 : Bool} {r : Ref}
    (hr : (twoSums output1 output2).InRange r) : r = ⟨0, 0⟩ ∨ r = ⟨0, 1⟩ := by
  obtain ⟨hbb, hi⟩ := hr
  have hbb : r.bb < 1 := hbb
  have hi : r.i < 2 := hi
  rcases Nat.lt_succ_iff_lt_or_eq.1 hi with h | h
  · exact .inl (ref_eq (by dsimp only; omega) (by dsimp only; omega))
  · exact .inr (ref_eq (by dsimp only; omega) h)

theorem twoSums_distinct {output1 output2 : Bool} : OutputsDistinct (twoSums output1 output2) := by
  intro r s d hr hs hrd hsd
  obtain rfl | rfl := twoSums_cases hr <;> obtain rfl | rfl := twoSums_cases hs <;>
    cases output1 <;> cases output2 <;> first
      | rfl
      | exact absurd (hrd.trans hsd.symm) (by decide)
      | exact nomatch hrd

/-- The second sum goes, which is no output. -/
theorem cse_interface_iff_twoSums :
    KeepsInterface (twoSums true false) (cse (twoSums true false)) := by
  refine (cse_interface_iff (twoSums_flagged true false) twoSums_distinct).2 ?_
  rintro pre ⟨a, b⟩ hpre ⟨hmerges, hout⟩
  have hmem : (a, b) ∈ (twoSums true false).pairs :=
    hpre.subset (List.mem_append_right pre (List.mem_singleton_self _))
  obtain ⟨ha, hb⟩ := mem_pairs.1 hmem
  obtain ⟨d, hd⟩ := Option.isSome_iff_exists.1 hout
  have hd := outputReg_of_foldl hd
  obtain ⟨-, -, horder, -⟩ := merges_iff.1 hmerges
  obtain rfl | rfl := twoSums_cases hb
  · obtain rfl | rfl := twoSums_cases ha <;> exact absurd horder (by decide)
  · cases hd

/-- The second sum goes, which is the output. -/
theorem cse_loses_output : ¬∀ f : Func 32, Flagged f → OutputsDistinct f →
    KeepsInterface f (cse f) := by
  intro h
  obtain ⟨s, hs, hout, -⟩ := (h (twoSums false true) (twoSums_flagged false true)
    twoSums_distinct).outputs ⟨0, 1⟩ 11 (by decide) (by decide)
  have hs : (twoSums false true).InRange s := by
    obtain ⟨rep, hm⟩ := merged_foldl (twoSums_flagged false true) (l := (twoSums false true).pairs)
      fun _ h => h
    exact hm.inRange_iff.1 hs
  obtain rfl | rfl := twoSums_cases hs <;> exact absurd hout (by decide)

end Cuc
end Or1ksim
