import Or1ksim.Cuc.OptimizeTree

/-!
# Rewrites that keep the meaning

* `Keeps` — every valuation of one function is one of the other, and looks the same;
* `Keeps.sameMeaning` — **then the two functions have the same meaning**;
* `Replaces.keeps` — **one instruction is replaced by one that computes the same**;
* `Moves.link_keeps` — **a move is linked away**.
-/

namespace Or1ksim
namespace Cuc

variable {W : ℕ} {f g : Func W} {r q : Ref} {ii : Insn W} {rank : Ref → ℕ}

/-- `g` is a rewrite of `f` in which the instructions hold the same values as in `f`. -/
structure Keeps (rank : Ref → ℕ) (f g : Func W) : Prop where
  wellFormed : WellFormed g
  ranked : Ranked rank g
  valuation : ∀ {env v}, Valuation env f v → Valuation env g v
  observe : ∀ {env v}, Valuation env f v → observe env g v = observe env f v

/-- **A rewrite that keeps the values keeps the meaning.** -/
theorem Keeps.sameMeaning (h : Keeps rank f g) : SameMeaning f g := by
  intro env v w hv hw
  have hrefl := SameMeaning.refl h.wellFormed ⟨rank, h.ranked⟩
  rw [hrefl env v w (h.valuation hv) hw, h.observe hv]

theorem Keeps.refl (hf : WellFormed f) (hrank : Ranked rank f) : Keeps rank f f :=
  ⟨hf, hrank, fun hv => hv, fun _ => rfl⟩

theorem Keeps.trans {h : Func W} (hfg : Keeps rank f g) (hgh : Keeps rank g h) :
    Keeps rank f h :=
  ⟨hgh.wellFormed, hgh.ranked, fun hv => hgh.valuation (hfg.valuation hv), fun hv =>
    (hgh.observe (hfg.valuation hv)).trans (hfg.observe hv)⟩

/-- The place of an instruction among those of its kind depends on the kinds only. -/
theorem unitNo_eq (h : ∀ p, (g.insn p).index.isUnit = (f.insn p).index.isUnit) (r : Ref) :
    g.unitNo r = f.unitNo r := by
  simp only [Func.unitNo, h]

namespace Func

@[simp]
theorem live_set {p : Ref} : (f.set r ii).Live p ↔ f.Live p := Iff.rfl

theorem set_insn_self : (f.set r ii).insn r = ii := Function.update_self ..

theorem set_insn_of_ne {p : Ref} (h : p ≠ r) : (f.set r ii).insn p = f.insn p :=
  Function.update_of_ne h ..

end Func

/-! ### Replacing one instruction -/

/-- `ii` may stand at `r` in place of the instruction there. -/
structure Replaces (rank : Ref → ℕ) (f : Func W) (r : Ref) (ii : Insn W) : Prop where
  isValue : ii.index.isValue = (f.insn r).index.isValue
  isUnit : ii.index.isUnit = (f.insn r).index.isUnit
  isEffect : ii.index.isEffect = (f.insn r).index.isEffect
  dest : (f.insn r).index.isValue → ∃ d, ii.op 0 = .dest d
  output : ii.output = (f.insn r).output
  /-- An output keeps its register. -/
  register : (f.insn r).index.isValue → ii.output → ii.op 0 = (f.insn r).op 0
  uses : ∀ {k q}, ii.op k = .ref q → f.Live q ∧ (f.insn q).index.isValue ∧ rank q < rank r
  value : ∀ {env v}, Valuation env f v → (f.insn r).index.isValue →
    compute env r.bb (f.unitNo r) ii.index (args env v ii) = value env f v r
  effect : ∀ {env v}, Valuation env f v → (f.insn r).index.isEffect →
    ii.index = (f.insn r).index ∧ args env v ii = args env v (f.insn r)

namespace Replaces

variable (h : Replaces rank f r ii)
include h

theorem insn_isValue (p : Ref) :
    ((f.set r ii).insn p).index.isValue = (f.insn p).index.isValue := by
  by_cases hp : p = r
  · rw [hp, Func.set_insn_self, h.isValue]
  · rw [Func.set_insn_of_ne hp]

theorem insn_isUnit (p : Ref) :
    ((f.set r ii).insn p).index.isUnit = (f.insn p).index.isUnit := by
  by_cases hp : p = r
  · rw [hp, Func.set_insn_self, h.isUnit]
  · rw [Func.set_insn_of_ne hp]

theorem wellFormed (hf : WellFormed f) : WellFormed (f.set r ii) where
  refs := by
    intro p k q hp hk
    rw [h.insn_isValue]
    by_cases hpr : p = r
    · rw [hpr, Func.set_insn_self] at hk
      exact ⟨(h.uses hk).1, (h.uses hk).2.1⟩
    · rw [Func.set_insn_of_ne hpr] at hk
      exact hf.refs hp hk
  dests := by
    intro p hp hval
    rw [h.insn_isValue] at hval
    by_cases hpr : p = r
    · subst hpr
      rw [Func.set_insn_self]
      exact h.dest hval
    · rw [Func.set_insn_of_ne hpr]
      exact hf.dests hp hval

theorem ranked (hrank : Ranked rank f) : Ranked rank (f.set r ii) := by
  intro p k q hp hk
  by_cases hpr : p = r
  · subst hpr
    rw [Func.set_insn_self] at hk
    exact (h.uses hk).2.2
  · rw [Func.set_insn_of_ne hpr] at hk
    exact hrank hp hk

theorem valuation {env : Env} {v : Ref → Word} (hv : Valuation env f v) :
    Valuation env (f.set r ii) v := by
  rintro p ⟨hp, hval⟩
  have hunit : (f.set r ii).unitNo p = f.unitNo p := unitNo_eq h.insn_isUnit p
  rw [h.insn_isValue] at hval
  refine (hv.eq hp hval).trans ?_
  change _ = Cuc.value env (f.set r ii) v p
  rw [Cuc.value.eq_def env (f.set r ii), hunit]
  by_cases hpr : p = r
  · subst hpr
    rw [Func.set_insn_self, h.value hv hval]
  · rw [Func.set_insn_of_ne hpr, Cuc.value]

theorem observe {env : Env} {v : Ref → Word} (hv : Valuation env f v) :
    Cuc.observe env (f.set r ii) v = Cuc.observe env f v := by
  refine Observation.ext (Set.ext fun o => exists_congr fun p => and_congr_right fun hp => ?_)
    (effects_eq rfl rfl rfl fun p hp => ?_)
  · rw [h.insn_isValue]
    refine and_congr_right fun hval => ?_
    by_cases hpr : p = r
    · subst hpr
      rw [Func.set_insn_self, h.output]
      refine and_congr_right fun hout => ?_
      rw [h.register hval (h.output.trans hout)]
    · rw [Func.set_insn_of_ne hpr]
  · by_cases hpr : p = r
    · subst hpr
      rw [effectAt, effectAt, Func.set_insn_self, h.isEffect]
      split
      case isTrue he =>
        obtain ⟨hindex, hargs⟩ := h.effect hv he
        rw [hindex, hargs]
      case isFalse => rfl
    · rw [effectAt, effectAt, Func.set_insn_of_ne hpr]

/-- **An instruction may be replaced by one that computes the same.** -/
theorem keeps (hf : WellFormed f) (hrank : Ranked rank f) : Keeps rank f (f.set r ii) :=
  ⟨h.wellFormed hf, h.ranked hrank, h.valuation, h.observe⟩

end Replaces

/-! ### Linking a move away -/

section Link

theorem Operand.redirect_eq_dest {o : Operand W} {d : BitVec W} :
    o.redirect r q = .dest d ↔ o = .dest d := by
  cases o with
  | ref p =>
    rw [Operand.redirect]
    split <;> simp
  | _ => simp [Operand.redirect]

theorem Operand.redirect_eq_ref {o : Operand W} {p : Ref} (h : o.redirect r q = .ref p) :
    ∃ p', o = .ref p' ∧ p = if p' = r then q else p' := by
  cases o with
  | ref p' =>
    refine ⟨p', rfl, ?_⟩
    rw [Operand.redirect, ← apply_ite Operand.ref] at h
    exact (Operand.ref.inj h).symm
  | _ => exact nomatch h

theorem operandValue_redirect {env : Env} {v : Ref → Word} (h : v r = v q) (o : Operand W) :
    operandValue env v (o.redirect r q) = operandValue env v o := by
  cases o with
  | ref p =>
    rw [Operand.redirect]
    split
    case isTrue hp => rw [operandValue, operandValue, hp, h]
    case isFalse => rfl
  | _ => rfl

/-- The instruction at `r` is a move of the one at `q`, which is no output. -/
structure Moves (f : Func W) (r q : Ref) : Prop where
  live : f.Live r
  index : (f.insn r).index = .add
  source : (f.insn r).op 1 = .ref q
  zero : (f.insn r).op 2 = .const 0
  not_output : (f.insn q).output = false

theorem takeOver_op_zero (prev ii : Insn W) : (takeOver prev ii).op 0 = ii.op 0 := by
  simp only [takeOver, Function.update_self]

theorem takeOver_op_of_ne {k : OperandNo} (hk : k ≠ 0) (prev ii : Insn W) :
    (takeOver prev ii).op k = prev.op k :=
  Function.update_of_ne hk ..

theorem link_insn_self : (link f r q).insn r = nopInsn := Func.set_insn_self

theorem link_insn {p : Ref} (hp : p ≠ r) (hlive : f.Live p) : (link f r q).insn p =
    { (f.set q (takeOver (f.insn q) (f.insn r))).insn p with
      op := fun k => (((f.set q (takeOver (f.insn q) (f.insn r))).insn p).op k).redirect r q } := by
  have hlive' : (f.set q (takeOver (f.insn q) (f.insn r))).Live p := hlive
  rw [link, Func.set_insn_of_ne hp, redirectAll]
  simp only [hlive', if_true]

theorem ne_of_link_isValue {p : Ref} (hval : ((link f r q).insn p).index.isValue) : p ≠ r := by
  rintro rfl
  rw [link_insn_self] at hval
  exact nomatch hval

theorem link_insn_source (hq : q ≠ r) (hlive : f.Live q) : (link f r q).insn q =
    { f.insn q with
      op := fun k => ((takeOver (f.insn q) (f.insn r)).op k).redirect r q
      output := (f.insn q).output || (f.insn r).output } := by
  rw [link_insn hq hlive, Func.set_insn_self]
  rfl

theorem link_insn_of_ne {p : Ref} (hp : p ≠ r) (hpq : p ≠ q) (hlive : f.Live p) :
    (link f r q).insn p = { f.insn p with op := fun k => ((f.insn p).op k).redirect r q } := by
  rw [link_insn hp hlive, Func.set_insn_of_ne hpq]

theorem link_index {p : Ref} (hp : p ≠ r) : ((link f r q).insn p).index = (f.insn p).index := by
  have hset : ((f.set q (takeOver (f.insn q) (f.insn r))).insn p).index = (f.insn p).index := by
    by_cases hpq : p = q
    · rw [hpq, Func.set_insn_self, takeOver]
    · rw [Func.set_insn_of_ne hpq]
  rw [link, Func.set_insn_of_ne hp, redirectAll]
  dsimp only
  split <;> exact hset

namespace Moves

variable (h : Moves f r q)
include h

theorem isValue : (f.insn r).index.isValue := by rw [h.index]; rfl

theorem source_ne (hrank : Ranked rank f) : q ≠ r := by
  rintro rfl
  exact (hrank h.live h.source).false

theorem value_eq {env : Env} {v : Ref → Word} (hv : Valuation env f v) : v r = v q := by
  have hadd : v r = args env v (f.insn r) 1 + args env v (f.insn r) 2 := by
    rw [hv.eq h.live h.isValue, value, h.index, compute]
  rw [hadd, args, args, h.source, h.zero]
  simp [operandValue, low]

theorem isUnit (p : Ref) : ((link f r q).insn p).index.isUnit = (f.insn p).index.isUnit := by
  by_cases hp : p = r
  · rw [hp, link_insn_self, h.index]
    rfl
  · rw [link_index hp]

/-- References after the linking come from references before. -/
theorem ref_of_link (hf : WellFormed f) {p s : Ref} {k : OperandNo} (hlive : f.Live p)
    (hk : ((link f r q).insn p).op k = .ref s) :
    p ≠ r ∧ ∃ s', (f.insn p).op k = .ref s' ∧ s = if s' = r then q else s' := by
  have hp : p ≠ r := by
    rintro rfl
    rw [link_insn_self] at hk
    exact nomatch hk
  refine ⟨hp, ?_⟩
  by_cases hpq : p = q
  · subst hpq
    rw [link_insn_source hp hlive] at hk
    obtain ⟨s', hs', heq⟩ := Operand.redirect_eq_ref hk
    by_cases hk0 : k = 0
    · -- the destination taken over is no reference
      obtain ⟨d, hd⟩ := hf.dests h.live h.isValue
      rw [hk0, takeOver_op_zero, hd] at hs'
      exact nomatch hs'
    · rw [takeOver_op_of_ne hk0] at hs'
      exact ⟨s', hs', heq⟩
  · rw [link_insn_of_ne hp hpq hlive] at hk
    exact Operand.redirect_eq_ref hk

theorem args_link (hf : WellFormed f) {env : Env} {v : Ref → Word} (hv : Valuation env f v)
    {p : Ref} (hp : p ≠ r) (hlive : f.Live p) :
    args env v ((link f r q).insn p) = args env v (f.insn p) := by
  funext k
  rw [args, args]
  by_cases hpq : p = q
  · subst hpq
    rw [link_insn_source hp hlive]
    dsimp only
    rw [operandValue_redirect (h.value_eq hv)]
    by_cases hk0 : k = 0
    · obtain ⟨d, hd⟩ := hf.dests h.live h.isValue
      obtain ⟨d', hd'⟩ := hf.dests hlive (hf.refs h.live h.source).2
      rw [hk0, takeOver_op_zero, hd, hd', operandValue, operandValue]
      all_goals nofun
    · rw [takeOver_op_of_ne hk0]
  · rw [link_insn_of_ne hp hpq hlive, operandValue_redirect (h.value_eq hv)]

theorem link_wellFormed (hf : WellFormed f) (hrank : Ranked rank f) :
    WellFormed (link f r q) where
  refs := by
    intro p k s hp hk
    obtain ⟨-, s', hs', heq⟩ := h.ref_of_link hf hp hk
    have hq := h.source_ne hrank
    by_cases hsr : s' = r
    · rw [if_pos hsr] at heq
      rw [heq, link_index hq]
      exact hf.refs h.live h.source
    · rw [if_neg hsr] at heq
      rw [heq, link_index hsr]
      exact hf.refs hp hs'
  dests := by
    intro p (hp : f.Live p) hval
    have hpr := ne_of_link_isValue hval
    rw [link_index hpr] at hval
    by_cases hpq : p = q
    · subst hpq
      obtain ⟨d, hd⟩ := hf.dests h.live h.isValue
      refine ⟨d, ?_⟩
      rw [link_insn_source hpr hp]
      dsimp only
      rw [takeOver_op_zero, hd, Operand.redirect]
      nofun
    · obtain ⟨d, hd⟩ := hf.dests hp hval
      rw [link_insn_of_ne hpr hpq hp]
      exact ⟨d, Operand.redirect_eq_dest.2 hd⟩

theorem link_ranked (hf : WellFormed f) (hrank : Ranked rank f) : Ranked rank (link f r q) := by
  intro p k s hp hk
  obtain ⟨-, s', hs', heq⟩ := h.ref_of_link hf hp hk
  have hlt := hrank hp hs'
  by_cases hsr : s' = r
  · rw [if_pos hsr] at heq
    rw [heq]
    exact (hrank h.live h.source).trans (hsr ▸ hlt)
  · rw [if_neg hsr] at heq
    rwa [heq]

theorem link_valuation (hf : WellFormed f) {env : Env} {v : Ref → Word}
    (hv : Valuation env f v) : Valuation env (link f r q) v := by
  rintro p ⟨hp, hval⟩
  have hpr := ne_of_link_isValue hval
  rw [link_index hpr] at hval
  refine (hv.eq hp hval).trans ?_
  change _ = value env (link f r q) v p
  rw [value, value, link_index hpr, h.args_link hf hv hpr hp, unitNo_eq h.isUnit]

theorem link_observe (hf : WellFormed f) (hrank : Ranked rank f) {env : Env} {v : Ref → Word}
    (hv : Valuation env f v) : observe env (link f r q) v = observe env f v := by
  have hq := h.source_ne hrank
  obtain ⟨hqlive, hqval⟩ := hf.refs h.live h.source
  refine Observation.ext (Set.ext fun o => ⟨?_, ?_⟩) (effects_eq rfl rfl rfl fun p hp => ?_)
  · rintro ⟨p, hp, hval, hout, hd, hx⟩
    change f.Live p at hp
    have hpr := ne_of_link_isValue hval
    by_cases hpq : p = q
    · -- the source shows what the move showed before
      subst hpq
      rw [link_insn_source hpr hp] at hout hd
      dsimp only at hout hd
      rw [h.not_output, Bool.false_or] at hout
      rw [Operand.redirect_eq_dest, takeOver_op_zero] at hd
      exact ⟨r, h.live, h.isValue, hout, hd, hx.trans (h.value_eq hv).symm⟩
    · rw [link_index hpr] at hval
      rw [link_insn_of_ne hpr hpq hp] at hout hd
      exact ⟨p, hp, hval, hout, Operand.redirect_eq_dest.1 hd, hx⟩
  · rintro ⟨p, hp, hval, hout, hd, hx⟩
    by_cases hpr : p = r
    · subst hpr
      refine ⟨q, hqlive, by rwa [link_index hq], ?_, ?_, hx.trans (h.value_eq hv)⟩
      · rw [link_insn_source hq hqlive]
        dsimp only
        rw [hout, Bool.or_true]
      · rw [link_insn_source hq hqlive]
        dsimp only
        rw [Operand.redirect_eq_dest, takeOver_op_zero, hd]
    · have hpq : p ≠ q := by
        rintro rfl
        rw [h.not_output] at hout
        exact nomatch hout
      refine ⟨p, hp, by rwa [link_index hpr], ?_, ?_, hx⟩
      · rwa [link_insn_of_ne hpr hpq hp]
      · rw [link_insn_of_ne hpr hpq hp]
        exact Operand.redirect_eq_dest.2 hd
  · rw [effectAt, effectAt]
    by_cases hpr : p = r
    · rw [hpr, link_insn_self, h.index]
      rfl
    · rw [link_index hpr, h.args_link hf hv hpr hp]

/-- **Linking a move away keeps every value.** -/
theorem link_keeps (hf : WellFormed f) (hrank : Ranked rank f) : Keeps rank f (link f r q) :=
  ⟨h.link_wellFormed hf hrank, h.link_ranked hf hrank, h.link_valuation hf,
    h.link_observe hf hrank⟩

end Moves

end Link

end Cuc
end Or1ksim
