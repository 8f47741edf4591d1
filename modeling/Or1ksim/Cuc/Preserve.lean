import Or1ksim.Cuc.Arith
import Mathlib.Data.Fintype.Basic
import Mathlib.Logic.Relation
import Mathlib.Tactic.FinCases

/-!
# What the dataflow optimiser preserves

Not every rewrite of `optimize_tree` keeps the meaning: a swapped comparison is negated, the joins
of an add with a sub add up constants that have opposite signs, an ordered comparison does not move
a constant to its other side, and a folded output loses its register. `Exact` says of the state
before a step that the step does none of this.

* `exactRun_sameMeaning` — **every run of `Exact` steps keeps the output registers, the operands of
  the stores and calls and the branch conditions**;
* `joined_outputs` — a run that does not.
-/

namespace Or1ksim
namespace Cuc

variable {W : ℕ} {f : Func W} {r : Ref} {rank : Ref → ℕ}

/-! ### The condition -/

/-- The next step from this state does not change the meaning. -/
structure Exact (s : State W) : Prop where
  /-- No comparison is swapped. -/
  swap : s.stage = .swap → s.f.Live s.ref → swaps s.insn → s.insn.index.isCompare = false
  fold : ∀ a c, s.stage = .arith → s.insn.op 1 = .const a → s.insn.op 2 = .const c →
    (fold s.insn a c).isSome → FoldExact s.insn a c
  join : ∀ q c c1, s.stage = .arith → s.insn.op 1 = .ref q → s.insn.op 2 = .const c →
    ¬isMove s.insn c → (s.f.insn q).op 2 = .const c1 → JoinExact s.insn (s.f.insn q) c c1

instance (ii : Insn W) (a b : BitVec W) : Decidable (FoldExact ii a b) :=
  decidable_of_iff
    ((ii.output → ii.op 0 = .dest (-1)) ∧ (ii.index = .sll ∨ ii.index = .srl → b.toNat < W) ∧
      (ii.index = .srl → ∀ i < 32 + b.toNat, 32 ≤ i → b.toNat ≤ i → a.getLsbD i = false))
    ⟨fun ⟨h₁, h₂, h₃⟩ => ⟨h₁, h₂, fun h i hle hb hlt => h₃ h i hlt hle hb⟩,
      fun ⟨h₁, h₂, h₃⟩ => ⟨h₁, h₂, fun h i hlt hle hb => h₃ h i hle hb hlt⟩⟩

instance (ii prev : Insn W) (c c1 : BitVec W) : Decidable (JoinExact ii prev c c1) :=
  decidable_of_iff
    ((ii.index = .add ∧ prev.index = .sub ∨ ii.index = .sub ∧ prev.index = .add →
        low c1 + low c1 = 0) ∧
      ((prev.index = .add ∨ prev.index = .sub) → ii.index.isCompare → c < 0x80000000#W →
        ii.index = .sfeq ∨ ii.index = .sfne ∨ low c1 = 0))
    ⟨fun ⟨h₁, h₂⟩ => ⟨h₁, h₂⟩, fun ⟨h₁, h₂⟩ => ⟨h₁, h₂⟩⟩

/-- `Exact`, with the operands looked at. -/
def exactCheck (s : State W) : Bool :=
  decide (s.stage = .swap → s.f.Live s.ref → swaps s.insn → s.insn.index.isCompare = false) &&
    match s.insn.op 1, s.insn.op 2 with
    | .const a, .const c =>
      decide (s.stage = .arith → (fold s.insn a c).isSome → FoldExact s.insn a c)
    | .ref q, .const c =>
      match (s.f.insn q).op 2 with
      | .const c1 =>
        decide (s.stage = .arith → ¬isMove s.insn c → JoinExact s.insn (s.f.insn q) c c1)
      | _ => true
    | _, _ => true

theorem exact_of_exactCheck {s : State W} (h : exactCheck s) : Exact s := by
  rw [exactCheck, Bool.and_eq_true] at h
  refine ⟨of_decide_eq_true h.1, fun a c hs ha hc => ?_, fun q c c1 hs hq hc hmove hc1 => ?_⟩
  · have hfold := h.2
    simp only [ha, hc] at hfold
    exact of_decide_eq_true hfold hs
  · have hjoin := h.2
    simp only [hq, hc, hc1] at hjoin
    exact of_decide_eq_true hjoin hs hmove

/-! ### The two helpers -/

/-- `apply_edge_condition` keeps the value of the instruction it rewrites. -/
structure EdgeSound (edge : Insn W → Bool × Insn W) : Prop where
  other : ∀ ii, ¬ii.index.isValue → (edge ii).2 = ii
  isValue : ∀ ii, ii.index.isValue → (edge ii).2.index.isValue
  isUnit : ∀ ii, (edge ii).2.index.isUnit = ii.index.isUnit
  dest : ∀ ii, (edge ii).2.op 0 = ii.op 0
  output : ∀ ii, (edge ii).2.output = ii.output
  uses : ∀ ii k q, (edge ii).2.op k = .ref q → ∃ k', ii.op k' = .ref q
  value : ∀ ii env v b n, ii.index.isValue →
    compute env b n (edge ii).2.index (args env v (edge ii).2) =
      compute env b n ii.index (args env v ii)

/-- `optimize_cmov_more` keeps the meaning of the function it rewrites. -/
structure CmovSound (cmov : Func W → Ref → Bool × Func W) : Prop where
  wellFormed : ∀ {f r}, WellFormed f → Acyclic f → f.Live r → (f.insn r).index = .cmov →
    WellFormed (cmov f r).2
  acyclic : ∀ {f r}, WellFormed f → Acyclic f → f.Live r → (f.insn r).index = .cmov →
    Acyclic (cmov f r).2
  meaning : ∀ {f r}, WellFormed f → Acyclic f → f.Live r → (f.insn r).index = .cmov →
    SameMeaning f (cmov f r).2
  /-- Where it returns 0 it has inserted nothing. -/
  live : ∀ {f r}, f.Live r → (f.insn r).index = .cmov → (cmov f r).1 = false →
    (cmov f r).2.Live r

theorem isEffect_of_isValue {index : Index} (h : index.isValue) : index.isEffect = false := by
  cases index <;> first | rfl | exact absurd h (by decide)

theorem EdgeSound.replaces {edge : Insn W → Bool × Insn W} (hedge : EdgeSound edge)
    (hf : WellFormed f) (hrank : Ranked rank f) (hr : f.Live r)
    (hval : (f.insn r).index.isValue) : Replaces rank f r (edge (f.insn r)).2 where
  isValue := by rw [hedge.isValue _ hval, hval]
  isUnit := hedge.isUnit _
  isEffect := by
    rw [isEffect_of_isValue hval, isEffect_of_isValue (hedge.isValue _ hval)]
  dest _ := by
    rw [hedge.dest]
    exact hf.dests hr hval
  output := hedge.output _
  register _ _ := hedge.dest _
  uses := by
    intro k q hk
    obtain ⟨k', hk'⟩ := hedge.uses _ k q hk
    exact uses_of_insn hf hrank hr hk'
  value _ _ := by rw [hedge.value _ _ _ _ _ hval, Cuc.value]
  effect _ he := by
    rw [isEffect_of_isValue hval] at he
    exact nomatch he

theorem EdgeSound.keeps {edge : Insn W → Bool × Insn W} (hedge : EdgeSound edge)
    (hf : WellFormed f) (hrank : Ranked rank f) (hr : f.Live r) :
    Keeps rank f (f.set r (edge (f.insn r)).2) := by
  by_cases hval : (f.insn r).index.isValue
  · exact (hedge.replaces hf hrank hr hval).keeps hf hrank
  · have hsame : f.set r (edge (f.insn r)).2 = f := by
      rw [hedge.other _ hval, Func.set, Function.update_eq_self]
    rw [hsame]
    exact .refl hf hrank

/-! ### Runs -/

variable {edge : Insn W → Bool × Insn W} {cmov : Func W → Ref → Bool × Func W} {s s' : State W}

/-- What holds all along a run that started with `f`. -/
structure Inv (f : Func W) (s : State W) : Prop where
  wellFormed : WellFormed s.f
  acyclic : Acyclic s.f
  meaning : SameMeaning f s.f
  /-- Inside of the loop body, the loops stand at an instruction. -/
  live : s.stage ≠ .swap → s.f.Live s.ref

theorem inv_start (hf : WellFormed f) (hac : Acyclic f) : Inv f (start f) :=
  ⟨hf, hac, .refl hf hac, fun h => absurd rfl h⟩

namespace Inv

variable (h : Inv f s)
include h

theorem of_same (hsame : s'.f = s.f) (hlive : s'.stage ≠ .swap → s.f.Live s'.ref) : Inv f s' := by
  refine ⟨?_, ?_, ?_, ?_⟩
  all_goals rw [hsame]
  exacts [h.wellFormed, h.acyclic, h.meaning, hlive]

theorem of_keeps (hkeeps : ∀ rank, Ranked rank s.f → Keeps rank s.f s'.f)
    (hlive : s'.stage ≠ .swap → s'.f.Live s'.ref) : Inv f s' := by
  obtain ⟨rank, hrank⟩ := h.acyclic
  have hk := hkeeps rank hrank
  exact ⟨hk.wellFormed, ⟨rank, hk.ranked⟩, h.meaning.trans h.wellFormed h.acyclic hk.sameMeaning,
    hlive⟩

theorem visit (hexact : Exact s) (hstage : s.stage = .swap) (hvisit : visit s = some s') :
    Inv f s' := by
  unfold Cuc.visit at hvisit
  split_ifs at hvisit with hbb hlive hswap hmod <;> cases hvisit
  · have hr : s.f.Live s.ref := ⟨hbb, hlive⟩
    refine h.of_keeps (fun rank hrank => ?_) fun _ => hr
    exact (swap_replaces h.wellFormed hrank hr hswap (hexact.swap hstage hr hswap)).keeps
      h.wellFormed hrank
  · exact h.of_same rfl fun _ => ⟨hbb, hlive⟩
  · exact h.of_same rfl fun hne => absurd hstage hne
  · exact h.of_same rfl fun hne => absurd hstage hne

theorem promote {j : ℕ} (hstage : s.stage = .promote j) (hstep : step edge cmov s = some s') :
    Inv f s' := by
  have hr : s.f.Live s.ref := h.live (by rw [hstage]; nofun)
  simp only [step, hstage] at hstep
  split_ifs at hstep with hj <;> cases hstep
  · have hpromote : (Cuc.promote s.f s.ref ⟨j, hj⟩).1.Live s.ref := by
      unfold Cuc.promote
      split <;> exact hr
    exact h.of_keeps (fun rank hrank => promote_keeps h.wellFormed hrank hr _) fun _ => hpromote
  · exact h.of_same rfl fun _ => hr

theorem cmov_step (hcmov : CmovSound cmov) (hstage : s.stage = .cmov)
    (hstep : step edge cmov s = some s') : Inv f s' := by
  have hr : s.f.Live s.ref := h.live (by rw [hstage]; nofun)
  simp only [step, hstage] at hstep
  by_cases hi : s.insn.index = .cmov
  · rw [if_pos hi] at hstep
    have hmeaning := h.meaning.trans h.wellFormed h.acyclic
      (hcmov.meaning h.wellFormed h.acyclic hr hi)
    have hwf := hcmov.wellFormed h.wellFormed h.acyclic hr hi
    have hac := hcmov.acyclic h.wellFormed h.acyclic hr hi
    split_ifs at hstep with hdone <;> cases hstep
    · exact ⟨hwf, hac, hmeaning, fun hne => absurd rfl hne⟩
    · exact ⟨hwf, hac, hmeaning, fun _ => hcmov.live hr hi (Bool.not_eq_true _ ▸ hdone)⟩
  · rw [if_neg hi] at hstep
    cases hstep
    exact h.of_same rfl fun _ => hr

theorem edge_step (hedge : EdgeSound edge) (hstage : s.stage = .edge)
    (hstep : step edge cmov s = some s') : Inv f s' := by
  have hr : s.f.Live s.ref := h.live (by rw [hstage]; nofun)
  simp only [step, hstage] at hstep
  split_ifs at hstep with hvol hdone <;> cases hstep
  · exact h.of_same rfl fun hne => absurd rfl hne
  · exact h.of_keeps (fun rank hrank => hedge.keeps h.wellFormed hrank hr) fun hne => absurd rfl hne
  · exact h.of_keeps (fun rank hrank => hedge.keeps h.wellFormed hrank hr) fun _ => hr

theorem arith (hW : W = 32 ∨ W = 64) (hexact : Exact s) (hstage : s.stage = .arith)
    (hstep : step edge cmov s = some s') : Inv f s' := by
  have hr : s.f.Live s.ref := h.live (by rw [hstage]; nofun)
  simp only [step, hstage] at hstep
  cases hstep
  refine h.of_keeps (fun rank hrank => ?_) fun hne => absurd rfl hne
  exact arith_keeps hW h.wellFormed hrank hr (fun a c => hexact.fold a c hstage)
    (fun q c c1 => hexact.join q c c1 hstage)

/-- **An exact step keeps the invariant.** -/
theorem step (hW : W = 32 ∨ W = 64) (hedge : EdgeSound edge) (hcmov : CmovSound cmov)
    (hexact : Exact s) (hstep : step edge cmov s = some s') : Inv f s' := by
  cases hstage : s.stage with
  | swap =>
    simp only [Cuc.step, hstage] at hstep
    exact h.visit hexact hstage hstep
  | promote j => exact h.promote hstage hstep
  | cmov => exact h.cmov_step hcmov hstage hstep
  | edge => exact h.edge_step hedge hstage hstep
  | arith => exact h.arith hW hexact hstage hstep

end Inv

variable (edge cmov) in
/-- A step of `optimize_tree`. -/
def Step (s s' : State W) : Prop := step edge cmov s = some s'

variable (edge cmov) in
/-- A step that meets the condition. -/
def ExactStep (s s' : State W) : Prop := Exact s ∧ Step edge cmov s s'

/-- **In a run whose steps are exact, the function keeps its meaning**: in every state, it is well
formed and acyclic, and its output registers, the operands of its stores and calls and its branch
conditions have the values they had at the start, for all inputs. -/
theorem exactRun_sameMeaning (hW : W = 32 ∨ W = 64) (hedge : EdgeSound edge)
    (hcmov : CmovSound cmov) (hf : WellFormed f) (hac : Acyclic f)
    (hrun : Relation.ReflTransGen (ExactStep edge cmov) (start f) s) :
    WellFormed s.f ∧ Acyclic s.f ∧ SameMeaning f s.f := by
  have hinv : Inv f s := by
    induction hrun with
    | refl => exact inv_start hf hac
    | tail _ hstep ih => exact ih.step hW hedge hcmov hstep.1 hstep.2
  exact ⟨hinv.wellFormed, hinv.acyclic, hinv.meaning⟩

/-! ### Sample runs -/

variable (edge cmov) in
/-- At most `n` steps of a run, from states that pass `p`. -/
def runWhile (p : State W → Bool) : ℕ → State W → State W
  | 0, s => s
  | n + 1, s => if p s then ((step edge cmov s).map (runWhile p n)).getD s else s

variable (edge cmov) in
theorem runWhile_reach {p : State W → Bool} {P : State W → Prop} (hp : ∀ s, p s → P s) (n : ℕ)
    (s : State W) : Relation.ReflTransGen (fun s s' => P s ∧ Step edge cmov s s') s
      (runWhile edge cmov p n s) := by
  induction n generalizing s with
  | zero => exact .refl
  | succ n ih =>
    rw [runWhile]
    split_ifs with hs
    · cases hstep : step edge cmov s with
      | none => exact .refl
      | some t => exact .head ⟨hp s hs, hstep⟩ (ih t)
    · exact .refl

/-- No edge condition applies. -/
def noEdge (ii : Insn W) : Bool × Insn W := (false, ii)

/-- No `cmov` is optimised. -/
def noCmov (f : Func W) (_ : Ref) : Bool × Func W := (false, f)

theorem noEdge_sound : EdgeSound (noEdge : Insn W → Bool × Insn W) :=
  ⟨fun _ _ => rfl, fun _ h => h, fun _ => rfl, fun _ => rfl, fun _ => rfl, fun _ k _ h => ⟨k, h⟩,
    fun _ _ _ _ _ _ => rfl⟩

theorem noCmov_sound : CmovSound (noCmov : Func W → Ref → Bool × Func W) :=
  ⟨fun hf _ _ _ => hf, fun _ hac _ _ => hac, fun hf hac _ _ => .refl hf hac, fun hr _ _ => hr⟩

/-- `t = r3 index 5; r11 = t + 7` -/
def joinSample (index : Index) : Func 64 where
  numBb := 1
  dead _ := false
  ninsn _ := 2
  insn r :=
    if r.i = 0 then
      { (nopInsn : Insn 64) with
        index := index
        op := ![.dest (-1), .register 3, .const 5, .none, .none] }
    else
      { (nopInsn : Insn 64) with
        output := true
        index := .add
        op := ![.dest 11, .ref ⟨0, 0⟩, .const 7, .none, .none] }

/-- The only reference is that of the second instruction to the first. -/
theorem joinSample_ref {index : Index} {r q : Ref} {k : OperandNo}
    (h : ((joinSample index).insn r).op k = .ref q) : r.i ≠ 0 ∧ q = ⟨0, 0⟩ := by
  by_cases hr : r.i = 0
  · simp only [joinSample, hr, if_true] at h
    fin_cases k <;> exact nomatch h
  · simp only [joinSample, hr, if_false] at h
    refine ⟨hr, ?_⟩
    fin_cases k <;> first | exact (Operand.ref.inj h).symm | exact nomatch h

theorem joinSample_wellFormed {index : Index} (hindex : index.isValue) :
    WellFormed (joinSample index) where
  refs _ hk := by
    obtain ⟨-, rfl⟩ := joinSample_ref hk
    exact ⟨⟨Nat.one_pos, rfl, Nat.two_pos⟩, hindex⟩
  dests {r} _ _ := by
    by_cases hr : r.i = 0
    · exact ⟨-1, by simp [joinSample, hr]⟩
    · exact ⟨11, by simp [joinSample, hr]⟩

theorem joinSample_acyclic (index : Index) : Acyclic (joinSample index) := by
  refine ⟨Ref.i, fun {r k q} _ hk => ?_⟩
  obtain ⟨hr, rfl⟩ := joinSample_ref hk
  exact Nat.pos_of_ne_zero hr

/-- `(r3 + 5) + 7` is joined, and the run returns. -/
theorem exactRun_sameMeaning_sample :
    SameMeaning (joinSample .add)
      (runWhile noEdge noCmov exactCheck 43 (start (joinSample .add))).f ∧
    step noEdge noCmov (runWhile noEdge noCmov exactCheck 43 (start (joinSample .add))) = none :=
  ⟨(exactRun_sameMeaning (.inr rfl) noEdge_sound noCmov_sound (joinSample_wellFormed rfl)
    (joinSample_acyclic _) (runWhile_reach _ _ (fun _ => exact_of_exactCheck) 43 _)).2.2, by
    decide⟩

/-- `(r3 - 5) + 7` after the run. -/
def joinedSub : State 64 := runWhile noEdge noCmov (fun _ => true) 43 (start (joinSample .sub))

theorem joinedSub_live {r : Ref} (hr : joinedSub.f.Live r) : r = ⟨0, 0⟩ ∨ r = ⟨0, 1⟩ := by
  obtain ⟨b, i⟩ := r
  obtain ⟨hb, -, hi⟩ := hr
  have hshape : joinedSub.f.numBb = 1 ∧ joinedSub.f.ninsn 0 = 2 := by decide
  dsimp only at hb hi
  obtain rfl : b = 0 := by
    rw [hshape.1] at hb
    omega
  rw [hshape.2] at hi
  rcases (by omega : i = 0 ∨ i = 1) with rfl | rfl
  · exact .inl rfl
  · exact .inr rfl

/-- All registers are 0. -/
def zeroEnv : Env where
  reg _ := 0
  unit _ _ _ _ := 0

/-- The difference in the first instruction, `x` in the second. -/
def sampleValues (x : Word) (r : Ref) : Word := if r.i = 0 then -5 else x

theorem joinSample_valuation : Valuation zeroEnv (joinSample .sub) (sampleValues 2) := by
  rintro ⟨b, i⟩ ⟨⟨hb, -, hi⟩, -⟩
  obtain rfl : b = 0 := Nat.lt_one_iff.1 hb
  rcases (Nat.lt_succ_iff_lt_or_eq.1 hi).imp_left Nat.lt_one_iff.1 with rfl | rfl
  · decide
  · decide

theorem joinedSub_valuation : Valuation zeroEnv joinedSub.f (sampleValues 12) := by
  rintro r ⟨hr, -⟩
  rcases joinedSub_live hr with rfl | rfl
  · decide
  · decide

/-- **A sub and an add are joined as if both were adds**: where `r3` is 0, the output `r11` of
`(r3 - 5) + 7` is 2 before the run and 12 after it. -/
theorem joined_outputs : ¬∀ (edge : Insn 64 → Bool × Insn 64)
    (cmov : Func 64 → Ref → Bool × Func 64) (f : Func 64) (s : State 64),
    EdgeSound edge → CmovSound cmov → WellFormed f → Acyclic f →
    Relation.ReflTransGen (Step edge cmov) (start f) s → step edge cmov s = none →
    SameMeaning f s.f := by
  intro hall
  have hrun : Relation.ReflTransGen (Step noEdge noCmov) (start (joinSample .sub)) joinedSub := by
    have hreach := runWhile_reach noEdge noCmov (p := fun _ => true) (P := fun _ => True)
      (fun _ _ => trivial) 43 (start (joinSample .sub))
    simp only [true_and] at hreach
    exact hreach
  have hsame := hall noEdge noCmov (joinSample .sub) joinedSub noEdge_sound noCmov_sound
    (joinSample_wellFormed rfl) (joinSample_acyclic _) hrun (by decide)
    zeroEnv _ _ joinSample_valuation joinedSub_valuation
  have hout : ((11, 2) : BitVec 64 × Word) ∈
      (observe zeroEnv (joinSample .sub) (sampleValues 2)).outputs :=
    ⟨⟨0, 1⟩, by decide, rfl, rfl, rfl, rfl⟩
  rw [← hsame] at hout
  obtain ⟨r, hr, -, houtput, -, hx⟩ := hout
  rcases joinedSub_live hr with rfl | rfl
  · exact absurd houtput (by decide)
  · exact absurd hx (by decide)

end Cuc
end Or1ksim
