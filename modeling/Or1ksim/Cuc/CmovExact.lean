import Or1ksim.Cuc.CmovJoin
import Or1ksim.Cuc.CmovPush

/-!
# What rewriting a CMOV keeps

When the rewriting of `Cuc.CmovMore` keeps the values of the instructions, over all its cases.

* `cmovCase_spec` — how the cases are found;
* `optimizeCmovMore_iff` — **the values are kept exactly when the joined condition, or the pushed
  operation, is right**;
* `joined_cmovs_differ` — two CMOVs that are joined wrongly.
-/

namespace Or1ksim
namespace Cuc

open Or1ksim.Compact

variable {W : ℕ}

/-! ### All cases -/

section Cases

variable {stale : Stale W} {f : Func W} {rank : Ref → ℕ} {ref p q : Ref} {d : OperandNo}
  {ii : Insn W}

/-- How the cases are found. -/
def CaseFound (stale : Stale W) (f : Func W) (ref : Ref) : CmovCase W → Prop
  | .same t => t = 2 ∧ ((f.insn ref).op 2 = .ref ref ∨ (f.insn ref).op 1 = (f.insn ref).op 2) ∨
      t = 1 ∧ (f.insn ref).op 1 = .ref ref
  | .nested t u r => nestedCase stale f ref = some (some (t, u, r))
  | .through y => throughCondition f (f.insn ref) = some (.inl y)
  | .push ii p q d => throughCondition f (f.insn ref) = some (.inr ii) ∧
      pushCase stale (f.set ref ii) ref = some (p, q, d)
  | .rest ii => throughCondition f (f.insn ref) = some (.inr ii)

theorem cmovCase_spec {c : CmovCase W} (h : cmovCase stale f ref = some c) :
    (f.insn ref).index = .cmov ∧ CaseFound stale f ref c := by
  unfold cmovCase at h
  split_ifs at h with hcmov h2 h1
  · obtain rfl := Option.some.inj h
    exact ⟨not_not.1 hcmov, .inl ⟨rfl, h2.imp_right sameOperand_eq⟩⟩
  · obtain rfl := Option.some.inj h
    exact ⟨not_not.1 hcmov, .inr ⟨rfl, h1⟩⟩
  · refine ⟨not_not.1 hcmov, ?_⟩
    obtain ⟨x, hx, hrest⟩ := Option.bind_eq_some_iff.1 h
    split at hrest
    · obtain rfl := Option.some.inj hrest
      exact hx
    · obtain ⟨y, hy, heq⟩ := Option.map_eq_some_iff.1 hrest
      split at heq
      · obtain rfl := heq
        exact hy
      · split at heq
        · next hpush =>
          obtain rfl := heq
          exact ⟨hy, hpush⟩
        · obtain rfl := heq
          exact hy

/-- The references of the condition that the CMOV goes on with have another user. -/
theorem condition_not_inner (hf : WellFormed f) (hrank : Ranked rank f) (hr : f.Live ref)
    (h : throughCondition f (f.insn ref) = some (.inr ii)) {y : Ref} (hy : ii.op 3 = .ref y) :
    f.Live y ∧ (f.insn y).index.isValue ∧ ¬InnerCmov f ref y := by
  obtain ⟨q, -, -, -, hx⟩ | ⟨q, hq, -, -, -, hx⟩ | hx := throughCondition_cases h
  · cases hx
  · obtain rfl := Sum.inr.inj hx
    have hlive := refs_below hf hrank hr hq
    have hy : (f.insn q).op 3 = .ref y := hy
    exact ⟨(hf.refs hlive.1 hy).1, (hf.refs hlive.1 hy).2, not_innerCmov (live_inRange hlive.1)
      (live_inRange hr) hy (.inl fun heq => Nat.lt_irrefl _ (heq ▸ hlive.2.2))⟩
  · obtain rfl := Sum.inr.inj hx
    exact ⟨(hf.refs hr hy).1, (hf.refs hr hy).2,
      not_innerCmov (live_inRange hr) (live_inRange hr) hy (.inr ⟨by decide, by decide⟩)⟩

/-- **The values are kept exactly where the pushed operation is right.** -/
theorem pushed_iff {g : Func W} (hf : WellFormed f) (hrank : Ranked rank f)
    (hwires : SingleWires f) (hr : f.Live ref) (hcmov : (f.insn ref).index = .cmov)
    (hcond : throughCondition f (f.insn ref) = some (.inr ii))
    (h : Pushed (f.set ref ii) g ref p q d) :
    CmovValues f g ref ↔ ∀ env v, Valuation env f v → PushedExact env f v ii p q d := by
  have hreplaces := negated_replaces hf hrank hwires hr hcmov hcond
  have hkeeps := hreplaces.keeps hf hrank
  have hinsn : (f.set ref ii).insn ref = ii := Func.set_insn_self
  have hother : ∀ {x}, x ≠ ref → (f.set ref ii).insn x = f.insn x := fun hx =>
    Func.set_insn_of_ne hx
  have hp := refs_below hkeeps.wellFormed hkeeps.ranked hr h.arm1
  have hq := refs_below hkeeps.wellFormed hkeeps.ranked hr h.arm2
  have hpne : p ≠ ref := fun heq => Nat.lt_irrefl _ (heq ▸ hp.2.2)
  have hqne : q ≠ ref := fun heq => Nat.lt_irrefl _ (heq ▸ hq.2.2)
  have hunit : (f.set ref ii).unitNo p = f.unitNo p := unitNo_eq hreplaces.insn_isUnit p
  have hexact : ∀ {env v}, PushedExact env (f.set ref ii) v ((f.set ref ii).insn ref) p q d ↔
      PushedExact env f v ii p q d := by
    intro env v
    rw [PushedExact, PushedExact, hinsn, hother hpne, hother hqne, hunit]
  have hpos : shift ref (g.ninsn ref.bb - f.ninsn ref.bb) = shift ref 1 := by
    have hninsn : g.ninsn ref.bb = f.ninsn ref.bb + 1 := by
      rw [h.ninsn, Function.update_self]
      rfl
    rw [hninsn, Nat.add_sub_cancel_left]
  constructor
  · intro hvalues env v hv
    obtain ⟨w, hw⟩ := exists_valuation (h.pushed_wellFormed hkeeps.wellFormed hkeeps.ranked hr)
      (h.pushed_acyclic hkeeps.wellFormed hkeeps.ranked hr) env
    have hfollow : ∀ {x}, f.Live x → (f.insn x).index.isValue → ¬InnerCmov f ref x →
        w (shift ref 1 x) = v x := fun {x} hx hval hnot => by
      have hx := hvalues env v w hv hw x hx hval hnot
      rwa [hpos] at hx
    -- the references of the arms' operations have other users than the CMOV
    have harm : ∀ {r k y}, f.Live r → r ≠ ref → (f.insn r).op k = .ref y →
        w (shift ref 1 y) = v y := fun {r k y} hlive hne hk =>
      hfollow (hf.refs hlive hk).1 (hf.refs hlive hk).2
        (not_innerCmov (live_inRange hlive) (live_inRange hr) hk (.inl hne))
    refine hexact.1 ((h.pushed_eq_iff hkeeps.wellFormed hr (hkeeps.valuation hv) hw
      (fun k y hk => ?_) (fun k y hk => ?_) fun y hk => ?_).1 ?_)
    · rw [hother hpne] at hk
      exact harm hp.1 hpne hk
    · rw [hother hqne] at hk
      exact harm hq.1 hqne hk
    · rw [hinsn] at hk
      obtain ⟨hy, hval, hnot⟩ := condition_not_inner hf hrank hr hcond hk
      exact hfollow hy hval hnot
    · exact hfollow hr (by rw [hcmov]; rfl) (not_innerCmov_self hrank hr)
  · intro hall env v w hv hw x hx hval _
    rw [hpos]
    refine h.pushed_values hkeeps.wellFormed hkeeps.ranked hr (hkeeps.valuation hv) hw
      (hexact.2 (hall env v hv)) hx ?_
    rw [hreplaces.insn_isValue]
    exact hval

/-- **The instructions that were there have the values that they had, exactly where the joined
condition, or the pushed operation, is right.** -/
theorem optimizeCmovMore_iff (stale : Stale W) {f g : Linked W} {ref : Ref} {modified : Bool}
    (hf : WellFormed f.toFunc) (hac : Acyclic f.toFunc) (hunits : UnitsFlagged f.toFunc)
    (hwires : SingleWires f.toFunc) (hr : f.Live ref)
    (hrun : optimizeCmovMore stale f ref = some (modified, g)) :
    CmovValues f.toFunc g.toFunc ref ↔ CmovMoreExact stale f.toFunc ref := by
  obtain ⟨rank, hrank⟩ := hac
  obtain ⟨c, hc, hrewrite⟩ := Option.bind_eq_some_iff.1 hrun
  obtain ⟨hcmov, hfound⟩ := cmovCase_spec hc
  have hnot : ∀ {k}, (f.insn ref).op k ≠ .ref ref := fun hk => Nat.lt_irrefl _ (hrank hr hk)
  -- the replacement of one instruction keeps the values
  have hkeep : ∀ {ii}, Replaces rank f.toFunc ref ii →
      CmovValues f.toFunc (f.toFunc.set ref ii) ref := fun {ii} h =>
    (h.keeps hf hrank).cmovValues rfl (fun _ => Iff.rfl) h.insn_isValue ref
  rw [CmovMoreExact, hc]
  cases c with
  | same t =>
    cases hrewrite
    rcases hfound with ⟨rfl, hself | hsame⟩ | ⟨rfl, hself⟩
    · exact absurd hself hnot
    · exact iff_of_true (hkeep (dropArm_replaces hf hrank hr hcmov hsame)) trivial
    · exact absurd hself hnot
  | nested t u r =>
    have hnested := nestedCase_spec hcmov hfound
    dsimp only [rewriteCmov] at hrewrite
    split_ifs at hrewrite
    cases hrewrite
    exact hnested.joined_iff hf hrank hr
  | through y =>
    cases hrewrite
    exact iff_of_true (hkeep (through_replaces hf hrank hr hcmov hfound)) trivial
  | push ii p q d =>
    obtain ⟨hcond, hpush⟩ := hfound
    obtain ⟨h, hh, heq⟩ := Option.map_eq_some_iff.1 hrewrite
    cases heq
    have hreplaces := negated_replaces hf hrank hwires hr hcmov hcond
    have hindex : ii.index = .cmov := by
      obtain ⟨q, -, -, -, hx⟩ | ⟨q, -, -, -, -, hx⟩ | hx := throughCondition_cases hcond
      · cases hx
      · rw [Sum.inr.inj hx]
        exact hcmov
      · rw [Sum.inr.inj hx, hcmov]
    have hinsn : (f.put ref ii).insn ref = ii := Func.set_insn_self (f := f.toFunc)
    have hunits' : UnitsFlagged (f.put ref ii).toFunc := by
      intro x hx hunit
      by_cases hxref : x = ref
      · rw [hxref, hinsn, hindex] at hunit
        cases hunit
      · have hx' : (f.put ref ii).insn x = f.insn x := Func.set_insn_of_ne (f := f.toFunc) hxref
        rw [hx'] at hunit ⊢
        exact hunits x hx hunit
    exact pushed_iff hf hrank hwires hr hcmov hcond (pushThrough_spec
      (hreplaces.wellFormed hf) hunits' hr (by rw [hinsn, hindex]) hpush hh)
  | rest ii =>
    cases hrewrite
    exact iff_of_true (hkeep (negated_replaces hf hrank hwires hr hcmov hfound)) trivial

end Cases

/-- `t = r5 ? r3 : r4; r11 = c ? t : r4` -/
def nestedCmovs (c : BitVec 32) : Linked 32 where
  numBb := 1
  dead _ := false
  ninsn _ := 2
  insn r := if r.i = 0 then
      { (nopInsn : Insn 32) with
        index := .cmov
        op := ![.dest 7, .register 3, .register 4, .register 5, .none] }
    else
      { (nopInsn : Insn 32) with
        index := .cmov
        output := true
        op := ![.dest 11, .ref ⟨0, 0⟩, .register 4, .register c, .none] }
  dep _ := []
  mdep _ := []
  msched := []

theorem nestedCmovs_op {c : BitVec 32} {r q : Ref} {k : OperandNo}
    (hk : ((nestedCmovs c).insn r).op k = .ref q) : r.i ≠ 0 ∧ q = ⟨0, 0⟩ := by
  dsimp only [nestedCmovs] at hk
  split at hk
  · match k, hk with
    | 0, hk | 1, hk | 2, hk | 3, hk | 4, hk => cases hk
  · next hi =>
    refine ⟨hi, ?_⟩
    match k, hk with
    | 1, hk => exact (Operand.ref.inj hk).symm
    | 0, hk | 2, hk | 3, hk | 4, hk => cases hk

theorem nestedCmovs_index (c : BitVec 32) (r : Ref) :
    ((nestedCmovs c).insn r).index = .cmov ∧ ((nestedCmovs c).insn r).cond = false := by
  dsimp only [nestedCmovs]
  split <;> exact ⟨rfl, rfl⟩

theorem nestedCmovs_wellFormed (c : BitVec 32) : WellFormed (nestedCmovs c).toFunc where
  refs _ hk := by
    obtain ⟨-, rfl⟩ := nestedCmovs_op hk
    exact ⟨⟨Nat.zero_lt_one, rfl, Nat.zero_lt_two⟩, rfl⟩
  dests := by
    intro r _ _
    dsimp only [nestedCmovs]
    split <;> exact ⟨_, rfl⟩

theorem nestedCmovs_acyclic (c : BitVec 32) : Acyclic (nestedCmovs c).toFunc := by
  refine ⟨Ref.i, fun _ hk => ?_⟩
  obtain ⟨hi, rfl⟩ := nestedCmovs_op hk
  exact Nat.pos_of_ne_zero hi

theorem nestedCmovs_units (c : BitVec 32) : UnitsFlagged (nestedCmovs c).toFunc := by
  intro r _ hunit
  rw [(nestedCmovs_index c r).1] at hunit
  cases hunit

theorem nestedCmovs_wires (c : BitVec 32) : SingleWires (nestedCmovs c).toFunc := by
  intro r _ _ hcond
  rw [(nestedCmovs_index c r).2] at hcond
  cases hcond

/-- Two CMOVs on one condition are joined rightly. -/
theorem optimizeCmovMore_iff_joined :
    ∃ g, optimizeCmovMore (fun _ _ => 0) (nestedCmovs 5) ⟨0, 1⟩ = some (true, g) ∧
      CmovValues (nestedCmovs 5).toFunc g.toFunc ⟨0, 1⟩ := by
  refine ⟨joinCmovs (nestedCmovs 5) ⟨0, 1⟩ ⟨0, 0⟩ 1 2, rfl, ?_⟩
  exact (optimizeCmovMore_iff (fun _ _ => 0) (nestedCmovs_wellFormed 5) (nestedCmovs_acyclic 5)
    (nestedCmovs_units 5) (nestedCmovs_wires 5) (by decide) rfl).2
    fun env v _ => .inl Iff.rfl

/-- With two conditions the joined CMOV chooses the first arm when only one of them is true. -/
theorem joined_cmovs_differ : ¬∀ (stale : Stale 32) (f g : Linked 32) (ref : Ref) (modified : Bool),
    WellFormed f.toFunc → Acyclic f.toFunc → UnitsFlagged f.toFunc → SingleWires f.toFunc →
      f.Live ref → optimizeCmovMore stale f ref = some (modified, g) →
        CmovValues f.toFunc g.toFunc ref := by
  intro h
  have hvalues := h (fun _ _ => 0) (nestedCmovs 6) (joinCmovs (nestedCmovs 6) ⟨0, 1⟩ ⟨0, 0⟩ 1 2)
    ⟨0, 1⟩ true (nestedCmovs_wellFormed 6) (nestedCmovs_acyclic 6) (nestedCmovs_units 6)
    (nestedCmovs_wires 6) (by decide) rfl
  obtain ⟨rank, hrank⟩ := nestedCmovs_acyclic 6
  have hnested : Nested (nestedCmovs 6).toFunc ⟨0, 1⟩ ⟨0, 0⟩ 1 2 :=
    ⟨.inl ⟨rfl, rfl⟩, rfl, rfl, rfl, rfl, by decide⟩
  -- `r5` and `r3` are 1, `r6` and `r4` are 0
  let env : Env := ⟨fun r => if r = 5 ∨ r = 3 then 1 else 0, fun _ _ _ _ => 0⟩
  obtain ⟨v, hv⟩ := exists_valuation (nestedCmovs_wellFormed 6) (nestedCmovs_acyclic 6) env
  have hexact : ((0 : Word) ≠ 0 ↔ (1 : Word) ≠ 0) ∨ (1 : Word) = 0 :=
    (hnested.joined_iff (nestedCmovs_wellFormed 6) hrank (by decide)).1 hvalues env v hv
  exact absurd hexact (by decide)

end Cuc
end Or1ksim
