import Or1ksim.Cuc.CmovValues

/-!
# Joining two CMOVs

The CMOV in an arm of another, with one arm in common, becomes the condition of the outer one.

* `nestedCase_spec` — how the two are found;
* `Nested.joined_wellFormed`, `Nested.joined_acyclic` — the function is still one;
* `Nested.joined_iff` — **the values are kept exactly when the joined condition is right**.
-/

namespace Or1ksim
namespace Cuc

open Or1ksim.Compact

variable {W : ℕ}

/-! ### Joining two CMOVs -/

/-- The two CMOVs that are joined. -/
structure Nested (f : Func W) (ref r : Ref) (t u : OperandNo) : Prop where
  arms : t = 1 ∧ u = 2 ∨ t = 2 ∧ u = 1
  outer : (f.insn ref).index = .cmov
  arm : (f.insn ref).op t = .ref r
  inner : (f.insn r).index = .cmov
  same : (f.insn r).op u = (f.insn ref).op u
  uses : insnUses f r ≤ 1

theorem sameOperand_eq {stale : Stale W} {f : Func W} {p q : Ref} {j k : OperandNo}
    (h : sameOperand stale f p j q k = true) : (f.insn p).op j = (f.insn q).op k := by
  unfold sameOperand at h
  split at h
  · next hp hq => rw [hp, hq]
  · next hp hq => rw [hp, hq]
  · exact of_decide_eq_true h

theorem nestedArm_spec {stale : Stale W} {f : Func W} {ref r : Ref} {t u : OperandNo}
    (harms : t = 1 ∧ u = 2 ∨ t = 2 ∧ u = 1) (houter : (f.insn ref).index = .cmov)
    (h : nestedArm stale f ref t u = some (some r)) : Nested f ref r t u := by
  unfold nestedArm at h
  split at h
  · next q hq =>
    split_ifs at h with hcmov hcheck hsame
    · cases h
    · cases h
    · obtain rfl := Option.some.inj (Option.some.inj h)
      rw [not_or, Bool.not_eq_false] at hsame
      exact ⟨harms, houter, hq, not_not.1 hcmov, sameOperand_eq hsame.1, Nat.le_of_not_lt hsame.2⟩
  · cases h

theorem nestedCase_spec {stale : Stale W} {f : Func W} {ref r : Ref} {t u : OperandNo}
    (houter : (f.insn ref).index = .cmov)
    (h : nestedCase stale f ref = some (some (t, u, r))) : Nested f ref r t u := by
  unfold nestedCase at h
  split_ifs at h
  · cases h
  · obtain ⟨x, hx, hrest⟩ := Option.bind_eq_some_iff.1 h
    cases x with
    | some q =>
      cases hrest
      exact nestedArm_spec (.inl ⟨rfl, rfl⟩) houter hx
    | none =>
      obtain ⟨y, hy, hmap⟩ := Option.map_eq_some_iff.1 hrest
      obtain ⟨q, rfl, heq⟩ := Option.map_eq_some_iff.1 hmap
      cases heq
      exact nestedArm_spec (.inr ⟨rfl, rfl⟩) houter hy

/-- The function with the two CMOVs joined. -/
def joined (f : Func W) (ref r : Ref) (t u : OperandNo) : Func W :=
  (f.set r (joinedCondition (f.insn ref) (f.insn r) t u)).set ref
    (joinedChoice (f.insn ref) (f.insn r) t u r)

theorem joined_or_iff (c1 c2 x y : Word) :
    (if (if c2 ≠ 0 then c2 else c1) ≠ 0 then x else y) =
        (if c2 ≠ 0 then if c1 ≠ 0 then x else y else y) ↔ (c2 ≠ 0 ↔ c1 ≠ 0) ∨ x = y := by
  by_cases h2 : c2 = 0#32 <;> by_cases h1 : c1 = 0#32 <;> simp [h1, h2]

theorem joined_and_iff (c1 c2 x y : Word) :
    (if (if c2 ≠ 0 then c1 else c2) ≠ 0 then y else x) =
        (if c2 ≠ 0 then y else if c1 ≠ 0 then y else x) ↔ (c2 ≠ 0 ↔ c1 ≠ 0) ∨ x = y := by
  by_cases h2 : c2 = 0#32 <;> by_cases h1 : c1 = 0#32 <;> simp [h1, h2]

section Join

variable {f : Func W} {env : Env} {v w : Ref → Word} {rank : Ref → ℕ} {ref r x q : Ref}
  {t u k : OperandNo}

theorem joined_insn_ref : (joined f ref r t u).insn ref =
    joinedChoice (f.insn ref) (f.insn r) t u r := Func.set_insn_self

theorem joined_insn_other (hx : x ≠ ref) (hxr : x ≠ r) :
    (joined f ref r t u).insn x = f.insn x :=
  (Func.set_insn_of_ne hx).trans (Func.set_insn_of_ne hxr)

/-- The joined condition lies just below the choice. -/
def joinedRank (rank : Ref → ℕ) (ref r x : Ref) : ℕ :=
  if x = r then 2 * rank ref - 1 else 2 * rank x

namespace Nested

variable (h : Nested f ref r t u) (hf : WellFormed f) (hrank : Ranked rank f) (hr : f.Live ref)
include h

theorem arm_cases : t = 1 ∨ t = 2 := h.arms.imp (fun h => h.1) fun h => h.1

include hr

theorem only_use (hx : f.Live x) (hk : (f.insn x).op k = .ref r) : x = ref ∧ k = t :=
  use_unique h.uses (live_inRange hx) (live_inRange hr) hk h.arm

include hrank

theorem rank_lt : rank r < rank ref := hrank hr h.arm

theorem ne : r ≠ ref := by
  rintro rfl
  exact Nat.lt_irrefl _ (h.rank_lt hrank hr)

theorem insn_inner : (joined f ref r t u).insn r =
    joinedCondition (f.insn ref) (f.insn r) t u :=
  (Func.set_insn_of_ne (h.ne hrank hr)).trans Func.set_insn_self

theorem index_eq (x : Ref) : ((joined f ref r t u).insn x).index = (f.insn x).index := by
  by_cases hx : x = ref
  · rw [hx, joined_insn_ref]
    rfl
  · by_cases hxr : x = r
    · rw [hxr, h.insn_inner hrank hr]
      rfl
    · rw [joined_insn_other hx hxr]

theorem unitNo_eq (x : Ref) : (joined f ref r t u).unitNo x = f.unitNo x :=
  Cuc.unitNo_eq (fun p => by rw [h.index_eq hrank hr]) x

include hf

omit hrank in
theorem live : f.Live r := (hf.refs hr h.arm).1

/-- The references of the joined condition are those of the two conditions. -/
theorem condition_ref (hk : (joinedCondition (f.insn ref) (f.insn r) t u).op k = .ref q) :
    f.Live q ∧ (f.insn q).index.isValue ∧ rank q < rank ref ∧ q ≠ r := by
  have hlt := h.rank_lt hrank hr
  have hinner : ∀ {k}, (f.insn r).op k = .ref q →
      f.Live q ∧ (f.insn q).index.isValue ∧ rank q < rank ref ∧ q ≠ r := by
    intro k hk
    have hq := refs_below hf hrank (h.live hf hr) hk
    exact ⟨hq.1, hq.2.1, hq.2.2.trans hlt, fun heq => Nat.lt_irrefl _ (heq ▸ hq.2.2)⟩
  have houter : (f.insn ref).op 3 = .ref q →
      f.Live q ∧ (f.insn q).index.isValue ∧ rank q < rank ref ∧ q ≠ r := by
    intro hk
    have hq := refs_below hf hrank hr hk
    refine ⟨hq.1, hq.2.1, hq.2.2, fun heq => ?_⟩
    have ht := (h.only_use hr hr (heq ▸ hk)).2
    rcases h.arm_cases with rfl | rfl <;> cases ht
  obtain ⟨rfl, rfl⟩ | ⟨rfl, rfl⟩ := h.arms
  · match k, hk with
    | 1, hk => exact houter hk
    | 2, hk => exact hinner (k := 3) hk
    | 3, hk => exact houter hk
    | 4, hk => exact hinner (k := 4) hk
  · match k, hk with
    | 1, hk => exact hinner (k := 3) hk
    | 2, hk => exact houter hk
    | 3, hk => exact houter hk
    | 4, hk => exact hinner (k := 4) hk

/-- The references of the joined choice are the condition and those of the arms. -/
theorem choice_ref (hk : (joinedChoice (f.insn ref) (f.insn r) t u r).op k = .ref q) :
    q = r ∨ f.Live q ∧ (f.insn q).index.isValue ∧ rank q < rank ref := by
  have hlt := h.rank_lt hrank hr
  have hinner : ∀ {k}, (f.insn r).op k = .ref q →
      q = r ∨ f.Live q ∧ (f.insn q).index.isValue ∧ rank q < rank ref := by
    intro k hk
    have hq := refs_below hf hrank (h.live hf hr) hk
    exact .inr ⟨hq.1, hq.2.1, hq.2.2.trans hlt⟩
  obtain ⟨rfl, rfl⟩ | ⟨rfl, rfl⟩ := h.arms
  · match k, hk with
    | 0, hk => exact .inr (refs_below hf hrank hr (k := 0) hk)
    | 1, hk => exact hinner (k := 1) hk
    | 2, hk => exact hinner (k := 2) hk
    | 3, hk => exact .inl (Operand.ref.inj hk).symm
    | 4, hk => exact .inr (refs_below hf hrank hr (k := 4) hk)
  · match k, hk with
    | 0, hk => exact .inr (refs_below hf hrank hr (k := 0) hk)
    | 1, hk => exact hinner (k := 1) hk
    | 2, hk => exact hinner (k := 2) hk
    | 3, hk => exact .inl (Operand.ref.inj hk).symm
    | 4, hk => exact .inr (refs_below hf hrank hr (k := 4) hk)

theorem joined_ref (hx : f.Live x) (hk : ((joined f ref r t u).insn x).op k = .ref q) :
    f.Live q ∧ (f.insn q).index.isValue ∧ joinedRank rank ref r q < joinedRank rank ref r x := by
  have hne := h.ne hrank hr
  have hlt := h.rank_lt hrank hr
  have hself : joinedRank rank ref r r = 2 * rank ref - 1 := if_pos rfl
  have hother : ∀ {y}, y ≠ r → joinedRank rank ref r y = 2 * rank y := fun hy => if_neg hy
  by_cases hxref : x = ref
  · rw [hxref, joined_insn_ref] at hk
    rw [hxref, hother hne.symm]
    rcases h.choice_ref hf hrank hr hk with rfl | ⟨hlive, hval, hq⟩
    · exact ⟨h.live hf hr, by rw [h.inner]; rfl, by rw [hself]; omega⟩
    · refine ⟨hlive, hval, ?_⟩
      by_cases hqr : q = r
      · rw [hqr, hself]
        omega
      · rw [hother hqr]
        omega
  · by_cases hxr : x = r
    · rw [hxr, h.insn_inner hrank hr] at hk
      obtain ⟨hlive, hval, hq, hqr⟩ := h.condition_ref hf hrank hr hk
      rw [hxr, hself, hother hqr]
      exact ⟨hlive, hval, by omega⟩
    · rw [joined_insn_other hxref hxr] at hk
      have hq := refs_below hf hrank hx hk
      have hqr : q ≠ r := by
        rintro rfl
        exact hxref (h.only_use hr hx hk).1
      rw [hother hxr, hother hqr]
      exact ⟨hq.1, hq.2.1, by omega⟩

theorem joined_wellFormed : WellFormed (joined f ref r t u) where
  refs hx hk := by
    rw [h.index_eq hrank hr]
    have hq := h.joined_ref hf hrank hr hx hk
    exact ⟨hq.1, hq.2.1⟩
  dests := by
    intro x hx hval
    rw [h.index_eq hrank hr] at hval
    by_cases hxref : x = ref
    · rw [hxref, joined_insn_ref]
      obtain ⟨d, hd⟩ := hf.dests hr (by rw [h.outer]; rfl)
      refine ⟨d, ?_⟩
      obtain ⟨rfl, rfl⟩ | ⟨rfl, rfl⟩ := h.arms <;> exact hd
    · by_cases hxr : x = r
      · rw [hxr, h.insn_inner hrank hr]
        exact ⟨_, rfl⟩
      · rw [joined_insn_other hxref hxr]
        exact hf.dests hx hval

theorem joined_acyclic : Acyclic (joined f ref r t u) :=
  ⟨joinedRank rank ref r, fun hx hk => (h.joined_ref hf hrank hr hx hk).2.2⟩

/-- What the joined CMOVs choose is what the two chose, exactly where the conditions agree or the
arms do. -/
theorem joined_eq_iff (hv : Valuation env f v) (hw : Valuation env (joined f ref r t u) w)
    (hc1 : operandValue env w ((f.insn r).op 3) = operandValue env v ((f.insn r).op 3))
    (hc2 : operandValue env w ((f.insn ref).op 3) = operandValue env v ((f.insn ref).op 3))
    (hx : operandValue env w ((f.insn r).op t) = operandValue env v ((f.insn r).op t))
    (hy : operandValue env w ((f.insn r).op u) = operandValue env v ((f.insn r).op u)) :
    w ref = v ref ↔ JoinedExact env f v ref r t u := by
  have hlive := h.live hf hr
  have hwref := cmov_eq hw (show (joined f ref r t u).Live ref from hr)
    ((h.index_eq hrank hr ref).trans h.outer)
  have hwr := cmov_eq hw (show (joined f ref r t u).Live r from hlive)
    ((h.index_eq hrank hr r).trans h.inner)
  have hvr := cmov_eq hv hlive h.inner
  have hvref := cmov_eq hv hr h.outer
  have harm := h.arm
  have hsame := h.same
  rw [joined_insn_ref] at hwref
  rw [h.insn_inner hrank hr] at hwr
  rw [JoinedExact]
  obtain ⟨rfl, rfl⟩ | ⟨rfl, rfl⟩ := h.arms
  · change w ref = if w r ≠ 0 then operandValue env w ((f.insn r).op 1) else
      operandValue env w ((f.insn r).op 2) at hwref
    change w r = if operandValue env w ((f.insn ref).op 3) ≠ 0 then
      operandValue env w ((f.insn ref).op 3) else operandValue env w ((f.insn r).op 3) at hwr
    rw [hx, hy, hwr, hc1, hc2] at hwref
    rw [harm, ← hsame, operandValue, hvr] at hvref
    rw [hwref, hvref]
    exact joined_or_iff _ _ _ _
  · change w ref = if w r ≠ 0 then operandValue env w ((f.insn r).op 1) else
      operandValue env w ((f.insn r).op 2) at hwref
    change w r = if operandValue env w ((f.insn ref).op 3) ≠ 0 then
      operandValue env w ((f.insn r).op 3) else operandValue env w ((f.insn ref).op 3) at hwr
    rw [hx, hy, hwr, hc1, hc2] at hwref
    rw [harm, ← hsame, operandValue, hvr] at hvref
    rw [hwref, hvref]
    exact joined_and_iff _ _ _ _

/-- **The values follow where the joined condition is right**, by induction on the rank. -/
theorem joined_values (hv : Valuation env f v) (hw : Valuation env (joined f ref r t u) w)
    (hexact : JoinedExact env f v ref r t u) :
    f.Live x → (f.insn x).index.isValue → x ≠ r → w x = v x := by
  refine rank_induction (P := fun x => f.Live x → (f.insn x).index.isValue → x ≠ r → w x = v x)
    rank (fun x ih hx hval hxr => ?_) x
  have hlive := h.live hf hr
  by_cases hxref : x = ref
  · subst hxref
    have hlt := h.rank_lt hrank hr
    have hbelow : ∀ {k q}, (f.insn r).op k = .ref q → w q = v q := by
      intro k q hk
      have hq := refs_below hf hrank hlive hk
      exact ih q (hq.2.2.trans hlt) hq.1 hq.2.1 fun heq => Nat.lt_irrefl _ (heq ▸ hq.2.2)
    refine (h.joined_eq_iff hf hrank hr hv hw (operandValue_congr fun q => hbelow)
      (operandValue_congr fun q hk => ?_) (operandValue_congr fun q => hbelow)
      (operandValue_congr fun q => hbelow)).2 hexact
    have hq := refs_below hf hrank hr hk
    refine ih q hq.2.2 hq.1 hq.2.1 fun heq => ?_
    have ht := (h.only_use hr hr (heq ▸ hk)).2
    rcases h.arm_cases with rfl | rfl <;> cases ht
  · refine value_follows (fun q => q) hv hw hx hval hx rfl ?_ (h.unitNo_eq hrank hr x)
      fun k q hk => ?_
    · rw [joined_insn_other hxref hxr, relocate_id fun _ => rfl]
    · have hq := refs_below hf hrank hx hk
      exact ih q hq.2.2 hq.1 hq.2.1 fun heq => hxref (h.only_use hr hx (heq ▸ hk)).1

/-- **The values are kept exactly where the joined condition is right.** -/
theorem joined_iff : CmovValues f (joined f ref r t u) ref ↔
    ∀ env v, Valuation env f v → JoinedExact env f v ref r t u := by
  have hshift : ∀ x, shift ref ((joined f ref r t u).ninsn ref.bb - f.ninsn ref.bb) x = x :=
    shift_of_ninsn_eq rfl
  have hinner : InnerCmov f ref r := by
    refine ⟨h.inner, ?_, h.uses⟩
    rcases h.arm_cases with rfl | rfl
    · exact .inl h.arm
    · exact .inr h.arm
  constructor
  · intro hvalues env v hv
    obtain ⟨w, hw⟩ := exists_valuation (h.joined_wellFormed hf hrank hr)
      (h.joined_acyclic hf hrank hr) env
    have hfollow : ∀ {x}, f.Live x → (f.insn x).index.isValue → ¬InnerCmov f ref x →
        w x = v x := fun {x} hx hval hnot => by
      have hx := hvalues env v w hv hw x hx hval hnot
      rwa [hshift] at hx
    have hlive := h.live hf hr
    -- what the two refer to besides the inner CMOV has other users
    have hbelow : ∀ {k q}, (f.insn r).op k = .ref q → w q = v q := fun {k q} hk =>
      hfollow (hf.refs hlive hk).1 (hf.refs hlive hk).2
        (not_innerCmov (live_inRange hlive) (live_inRange hr) hk (.inl (h.ne hrank hr)))
    have hcond : ∀ q, (f.insn ref).op 3 = .ref q → w q = v q := fun q hk =>
      hfollow (hf.refs hr hk).1 (hf.refs hr hk).2
        (not_innerCmov (live_inRange hr) (live_inRange hr) hk (.inr ⟨by decide, by decide⟩))
    refine (h.joined_eq_iff hf hrank hr hv hw (operandValue_congr fun q => hbelow)
      (operandValue_congr hcond) (operandValue_congr fun q => hbelow)
      (operandValue_congr fun q => hbelow)).1 ?_
    exact hfollow hr (by rw [h.outer]; rfl) (not_innerCmov_self hrank hr)
  · intro hexact env v w hv hw x hx hval hnot
    rw [hshift]
    exact h.joined_values hf hrank hr hv hw (hexact env v hv) hx hval
      fun heq => hnot (heq ▸ hinner)

end Nested

end Join

end Cuc
end Or1ksim
