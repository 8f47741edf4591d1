import Or1ksim.Cuc.CmovMore

/-!
# The values that a rewritten CMOV keeps

What it means that a rewriting of `Cuc.CmovMore` keeps the values of the instructions, and the
rewritings that only replace the CMOV itself.

* `CmovValues` — the instructions that were there have the values that they had;
* `JoinedExact`, `PushedExact` — where the joined condition, and the pushed operation, are right;
* `use_unique` — an instruction with one use is used by one operand;
* `value_follows` — an instruction whose references follow has its value;
* `through_replaces`, `negated_replaces` — **going through the condition keeps the values**.
-/

namespace Or1ksim
namespace Cuc

open Or1ksim.Compact

variable {W : ℕ}

/-- A CMOV in an arm of the one at `ref`, which has no other user. -/
def InnerCmov (f : Func W) (ref r : Ref) : Prop :=
  (f.insn r).index = .cmov ∧ ((f.insn ref).op 1 = .ref r ∨ (f.insn ref).op 2 = .ref r) ∧
    insnUses f r ≤ 1

/-- Every instruction that was there, inner CMOVs excepted, has the value that it had; those from
`ref` on lie behind the ones that were inserted. -/
def CmovValues (f g : Func W) (ref : Ref) : Prop :=
  ∀ env v w, Valuation env f v → Valuation env g w →
    ∀ r, f.Live r → (f.insn r).index.isValue → ¬InnerCmov f ref r →
      w (shift ref (g.ninsn ref.bb - f.ninsn ref.bb) r) = v r

/-- Both conditions are true or none is, or the choice is between equal values. -/
def JoinedExact (env : Env) (f : Func W) (v : Ref → Word) (ref r : Ref) (t u : OperandNo) : Prop :=
  (operandValue env v ((f.insn ref).op 3) ≠ 0 ↔ operandValue env v ((f.insn r).op 3) ≠ 0) ∨
    operandValue env v ((f.insn r).op t) = operandValue env v ((f.insn r).op u)

/-- Where the second arm is chosen, the operation of the first computes it from its own operands
and operand `d` of the second. -/
def PushedExact (env : Env) (f : Func W) (v : Ref → Word) (ii : Insn W) (p q : Ref)
    (d : OperandNo) : Prop :=
  operandValue env v (ii.op 3) = 0 →
    compute env p.bb (f.unitNo p) (f.insn p).index
      (Function.update (args env v (f.insn p)) d (args env v (f.insn q) d)) = v q

/-- The rewriting at `ref` is right, whatever the inputs and the conditions are. -/
def CmovMoreExact (stale : Stale W) (f : Func W) (ref : Ref) : Prop :=
  match cmovCase stale f ref with
  | some (.nested t u r) => ∀ env v, Valuation env f v → JoinedExact env f v ref r t u
  | some (.push ii p q d) => ∀ env v, Valuation env f v → PushedExact env f v ii p q d
  | _ => True

/-- Loads and latches are volatile, the other instructions of their kind are conditions. -/
def UnitsFlagged (f : Func W) : Prop :=
  ∀ r, f.Live r → (f.insn r).index.isUnit → (f.insn r).volatile ∨ (f.insn r).cond

/-- A CMOV that is a condition chooses between single wires. -/
def SingleWires (f : Func W) : Prop :=
  ∀ r, f.Live r → (f.insn r).index = .cmov → (f.insn r).cond = true →
    ∀ k c, (f.insn r).op k = .const c → c = 0 ∨ c = 1

/-! ### Uses -/

section Uses

variable {f : Func W} {ref r p p' : Ref} {j j' : OperandNo}

theorem two_le_countP {α : Type} [DecidableEq α] {P : α → Bool} {l : List α} {a b : α}
    (ha : a ∈ l) (hb : b ∈ l) (hne : a ≠ b) (hPa : P a) (hPb : P b) : 2 ≤ l.countP P := by
  rw [(List.perm_cons_erase ha).countP_eq, List.countP_cons_of_pos hPa]
  have hmem : b ∈ l.erase a := (List.mem_erase_of_ne hne.symm).2 hb
  have hpos : 0 < (l.erase a).countP P := List.countP_pos_iff.2 ⟨b, hmem, hPb⟩
  omega

theorem insnUses_eq (f : Func W) (r : Ref) :
    insnUses f r = (f.insns.flatMap fun p => (List.finRange 5).map fun j => (p, j)).countP
      fun x => decide ((f.insn x.1).op x.2 = .ref r) := by
  rw [insnUses, List.countP_flatMap]
  simp only [Function.comp_def, List.countP_map]

theorem use_unique (h : insnUses f r ≤ 1) (hp : f.InRange p) (hp' : f.InRange p')
    (hj : (f.insn p).op j = .ref r) (hj' : (f.insn p').op j' = .ref r) : p = p' ∧ j = j' := by
  by_contra hne
  have hmem : ∀ {p : Ref} (j : OperandNo), f.InRange p →
      (p, j) ∈ f.insns.flatMap fun p => (List.finRange 5).map fun j => (p, j) := fun {p} j hp =>
    List.mem_flatMap.2 ⟨p, mem_insns.2 hp, List.mem_map.2 ⟨j, List.mem_finRange j, rfl⟩⟩
  have htwo : 2 ≤ insnUses f r := by
    rw [insnUses_eq]
    exact two_le_countP (hmem j hp) (hmem j' hp')
      (fun heq => hne ⟨congrArg Prod.fst heq, congrArg Prod.snd heq⟩)
      (decide_eq_true hj) (decide_eq_true hj')
  omega

theorem not_innerCmov {k : OperandNo} (hp : f.InRange p) (href : f.InRange ref)
    (hk : (f.insn p).op k = .ref r) (hother : p ≠ ref ∨ k ≠ 1 ∧ k ≠ 2) : ¬InnerCmov f ref r := by
  rintro ⟨-, harm | harm, huses⟩
  · obtain ⟨rfl, rfl⟩ := use_unique huses hp href hk harm
    exact hother.elim (fun h => h rfl) fun h => h.1 rfl
  · obtain ⟨rfl, rfl⟩ := use_unique huses hp href hk harm
    exact hother.elim (fun h => h rfl) fun h => h.2 rfl

theorem not_innerCmov_self {rank : Ref → ℕ} (hrank : Ranked rank f) (hr : f.Live ref) :
    ¬InnerCmov f ref ref := by
  rintro ⟨-, harm, -⟩
  exact harm.elim (fun hk => Nat.lt_irrefl _ (hrank hr hk)) fun hk =>
    Nat.lt_irrefl _ (hrank hr hk)

end Uses

/-! ### Values that follow -/

section Follow

variable {f g : Func W} {env : Env} {v w : Ref → Word} {rank : Ref → ℕ} {r : Ref}
  {pos : Ref → Ref} {ii : Insn W}

theorem operandValue_congr {o : Operand W} (h : ∀ q, o = .ref q → w q = v q) :
    operandValue env w o = operandValue env v o := by
  cases o with
  | ref q => exact h q rfl
  | _ => rfl

theorem args_congr (h : ∀ k q, ii.op k = .ref q → w q = v q) : args env w ii = args env v ii :=
  funext fun k => operandValue_congr (h k)

theorem operandValue_relocate (o : Operand W) :
    operandValue env w (o.relocate pos) = operandValue env (w ∘ pos) o := by
  cases o <;> rfl

theorem live_inRange (hr : f.Live r) : f.InRange r := ⟨hr.1, hr.2.2⟩

theorem value_follows (pos : Ref → Ref) (hv : Valuation env f v) (hw : Valuation env g w)
    (hr : f.Live r) (hval : (f.insn r).index.isValue) (hg : g.Live (pos r))
    (hbb : (pos r).bb = r.bb) (hinsn : g.insn (pos r) = (f.insn r).relocate pos)
    (hunit : g.unitNo (pos r) = f.unitNo r)
    (hrefs : ∀ k q, (f.insn r).op k = .ref q → w (pos q) = v q) : w (pos r) = v r := by
  have hargs : args env w ((f.insn r).relocate pos) = args env v (f.insn r) := by
    rw [args_relocate]
    exact args_congr hrefs
  rw [hw.eq hg (by rw [hinsn]; exact hval), hv.eq hr hval, value, value, hbb, hunit, hinsn, hargs]
  rfl

/-- **Induction on the rank**: what holds of an instruction where it holds of those below, holds of
all. -/
theorem rank_induction {P : Ref → Prop} (rank : Ref → ℕ)
    (hstep : ∀ r, (∀ q, rank q < rank r → P q) → P r) (r : Ref) : P r := by
  induction hn : rank r using Nat.strong_induction_on generalizing r with
  | _ n ih => exact hstep r fun q hq => ih (rank q) (hn ▸ hq) q rfl

theorem shift_of_ninsn_eq {ref : Ref} (h : g.ninsn ref.bb = f.ninsn ref.bb) (x : Ref) :
    shift ref (g.ninsn ref.bb - f.ninsn ref.bb) x = x := by
  rw [h, Nat.sub_self, shift]
  split <;> rfl

theorem Keeps.cmovValues (h : Keeps rank f g) (hninsn : g.ninsn = f.ninsn)
    (hlive : ∀ r, g.Live r ↔ f.Live r)
    (hval : ∀ r, (g.insn r).index.isValue = (f.insn r).index.isValue) (ref : Ref) :
    CmovValues f g ref := by
  intro env v w hv hw r hr hr' _
  obtain ⟨rank', hrank'⟩ := Acyclic.graph_ranked ⟨rank, h.ranked⟩ h.wellFormed env
  have hsame := Dataflow.Solves.unique hrank' hw (h.valuation hv)
    ⟨(hlive r).2 hr, (hval r).symm ▸ hr'⟩
  rw [shift_of_ninsn_eq (congrFun hninsn ref.bb), hsame]

end Follow

/-! ### One instruction is replaced -/

section Replace

variable {f : Func W} {env : Env} {v : Ref → Word} {rank : Ref → ℕ} {ref q : Ref}
  {ii : Insn W} {y : Operand W}

theorem compute_cmov {b n : ℕ} (x : OperandNo → Word) :
    compute env b n .cmov x = if x 3 ≠ 0 then x 1 else x 2 := rfl

theorem replaces_cmov (hf : WellFormed f) (hr : f.Live ref) (hcmov : (f.insn ref).index = .cmov)
    (hval : ii.index.isValue) (hunit : ii.index.isUnit = false)
    (hout : ii.output = (f.insn ref).output) (hdest : ii.op 0 = (f.insn ref).op 0)
    (huses : ∀ {k q}, ii.op k = .ref q → f.Live q ∧ (f.insn q).index.isValue ∧ rank q < rank ref)
    (hvalue : ∀ {env v}, Valuation env f v →
      compute env ref.bb (f.unitNo ref) ii.index (args env v ii) = v ref) :
    Replaces rank f ref ii where
  isValue := by
    rw [hval, hcmov]
    rfl
  isUnit := by
    rw [hunit, hcmov]
    rfl
  isEffect := by
    have hnone : ∀ index : Index, index.isValue = true → index.isEffect = false := fun index h => by
      cases index <;> first | rfl | cases h
    rw [hnone _ hval, hcmov]
    rfl
  dest h := by
    rw [hdest]
    exact hf.dests hr h
  output := hout
  register _ _ := hdest
  uses := huses
  value hv hval := (hvalue hv).trans (hv.eq hr hval)
  effect _ heffect := by
    rw [hcmov] at heffect
    cases heffect

theorem refs_below (hf : WellFormed f) (hrank : Ranked rank f) (hr : f.Live ref) {k : OperandNo}
    (hk : (f.insn ref).op k = .ref q) : f.Live q ∧ (f.insn q).index.isValue ∧ rank q < rank ref :=
  ⟨(hf.refs hr hk).1, (hf.refs hr hk).2, hrank hr hk⟩

theorem cmov_eq (hv : Valuation env f v) (hr : f.Live ref) (hcmov : (f.insn ref).index = .cmov) :
    v ref = if operandValue env v ((f.insn ref).op 3) ≠ 0 then
      operandValue env v ((f.insn ref).op 1) else operandValue env v ((f.insn ref).op 2) := by
  rw [hv.eq hr (by rw [hcmov]; rfl), value, hcmov, compute_cmov]
  rfl

/-- A CMOV between two equal arms may be replaced by one of them. -/
theorem dropArm_replaces (hf : WellFormed f) (hrank : Ranked rank f) (hr : f.Live ref)
    (hcmov : (f.insn ref).index = .cmov) (hsame : (f.insn ref).op 1 = (f.insn ref).op 2) :
    Replaces rank f ref (dropArm (f.insn ref) 2) := by
  refine replaces_cmov hf hr hcmov rfl rfl rfl rfl (fun {k q} hk => ?_) fun {env v} hv => ?_
  · match k, hk with
    | 0, hk => exact refs_below hf hrank hr (k := 0) hk
    | 1, hk => exact refs_below hf hrank hr (k := 1) hk
    | 4, hk => exact refs_below hf hrank hr (k := 4) hk
  · change operandValue env v ((f.insn ref).op 1) + low (0 : BitVec W) = v ref
    rw [cmov_eq hv hr hcmov, ← hsame, ite_self, low_zero]
    exact BitVec.add_zero _

/-- A condition may be replaced by another that is as true. -/
theorem condition_replaces (hf : WellFormed f) (hrank : Ranked rank f) (hr : f.Live ref)
    (hcmov : (f.insn ref).index = .cmov)
    (hy : ∀ q, y = .ref q → f.Live q ∧ (f.insn q).index.isValue ∧ rank q < rank ref)
    (hiff : ∀ {env v}, Valuation env f v → (operandValue env v y ≠ 0 ↔
      operandValue env v ((f.insn ref).op 3) ≠ 0)) :
    Replaces rank f ref
      { f.insn ref with op := Function.update (f.insn ref).op 3 y } := by
  refine replaces_cmov hf hr hcmov (by rw [hcmov]; rfl) (by rw [hcmov]; rfl) rfl rfl
    (fun {k q} hk => ?_) fun {env v} hv => ?_
  · match k, hk with
    | 0, hk => exact refs_below hf hrank hr (k := 0) hk
    | 1, hk => exact refs_below hf hrank hr (k := 1) hk
    | 2, hk => exact refs_below hf hrank hr (k := 2) hk
    | 3, hk => exact hy q hk
    | 4, hk => exact refs_below hf hrank hr (k := 4) hk
  · rw [hcmov, compute_cmov, cmov_eq hv hr hcmov]
    exact if_congr (hiff hv) rfl rfl

/-- The arms may be exchanged with a condition that is true where the old one is not. -/
theorem swapArms_replaces (hf : WellFormed f) (hrank : Ranked rank f) (hr : f.Live ref)
    (hcmov : (f.insn ref).index = .cmov)
    (hy : ∀ q, y = .ref q → f.Live q ∧ (f.insn q).index.isValue ∧ rank q < rank ref)
    (hiff : ∀ {env v}, Valuation env f v → (operandValue env v y ≠ 0 ↔
      ¬operandValue env v ((f.insn ref).op 3) ≠ 0)) :
    Replaces rank f ref (swapArms (f.insn ref) y) := by
  refine replaces_cmov hf hr hcmov (by rw [swapArms, hcmov]; rfl) (by rw [swapArms, hcmov]; rfl)
    rfl rfl (fun {k q} hk => ?_) fun {env v} hv => ?_
  · match k, hk with
    | 0, hk => exact refs_below hf hrank hr (k := 0) hk
    | 1, hk => exact refs_below hf hrank hr (k := 2) hk
    | 2, hk => exact refs_below hf hrank hr (k := 1) hk
    | 3, hk => exact hy q hk
    | 4, hk => exact refs_below hf hrank hr (k := 4) hk
  · have hindex : (swapArms (f.insn ref) y).index = .cmov := hcmov
    rw [hindex, compute_cmov, cmov_eq hv hr hcmov]
    refine (if_congr (hiff hv) rfl rfl).trans ?_
    exact ite_not _ _ _

end Replace

/-! ### The condition -/

section Condition

variable {f : Func W} {env : Env} {v : Ref → Word} {rank : Ref → ℕ} {ref q : Ref}
  {ii ii' prev : Insn W} {y : Operand W}

theorem throughCondition_cases {x : Operand W ⊕ Insn W} (h : throughCondition f ii = some x) :
    (∃ q, ii.op 3 = .ref q ∧ (f.insn q).index = .add ∧ (f.insn q).op 2 = .const 0 ∧
        x = .inl ((f.insn q).op 1)) ∨
      (∃ q, ii.op 3 = .ref q ∧ (f.insn q).cond = true ∧ (f.insn q).index = .cmov ∧
        negates (f.insn q) = true ∧ x = .inr (swapArms ii ((f.insn q).op 3))) ∨
      x = .inr ii := by
  unfold throughCondition at h
  split at h
  · next q hq =>
    split_ifs at h with hcond hcmov hneg hadd
    · refine .inr (.inl ⟨q, hq, ?_, hcmov, hneg, (Option.some.inj h).symm⟩)
      rwa [Bool.not_eq_false] at hcond
    · exact .inr (.inr (Option.some.inj h).symm)
    · exact .inl ⟨q, hq, hadd.1, hadd.2, (Option.some.inj h).symm⟩
    · exact .inr (.inr (Option.some.inj h).symm)
  · exact .inr (.inr (Option.some.inj h).symm)

theorem negates_iff : negates prev = true ↔
    prev.op 1 = .const 0 ∧ ∃ c, c ≠ 0 ∧ prev.op 2 = .const c := by
  unfold negates
  split
  · next a c h1 h2 =>
    rw [h1, h2, Bool.and_eq_true, decide_eq_true_eq, decide_eq_true_eq]
    constructor
    · rintro ⟨rfl, hc⟩
      exact ⟨rfl, c, hc, rfl⟩
    · rintro ⟨ha, c', hc', heq⟩
      exact ⟨Operand.const.inj ha, by rwa [Operand.const.inj heq]⟩
  · next hne =>
    refine iff_of_false Bool.false_ne_true ?_
    rintro ⟨h1, c, -, h2⟩
    exact hne 0 c h1 h2

theorem low_one_ne_zero (h : (1 : BitVec W) ≠ 0) : low (1 : BitVec W) ≠ 0 := by
  have hW : W ≠ 0 := by
    rintro rfl
    exact h (BitVec.eq_nil 1)
  intro hlow
  have hone : (1 : BitVec W).toNat = 1 := BitVec.toNat_one (by omega)
  have hnat := congrArg BitVec.toNat hlow
  rw [low, BitVec.toNat_setWidth, hone] at hnat
  exact absurd hnat (by decide)

theorem move_eq (hv : Valuation env f v) (hq : f.Live q) (hadd : (f.insn q).index = .add)
    (hzero : (f.insn q).op 2 = .const 0) : v q = operandValue env v ((f.insn q).op 1) := by
  have hx : args env v (f.insn q) 2 = 0 := by rw [args, hzero, operandValue, low_zero]
  rw [hv.eq hq (by rw [hadd]; rfl), value, hadd, compute, hx]
  exact BitVec.add_zero _

theorem negates_eq (hv : Valuation env f v) (hwires : SingleWires f) (hq : f.Live q)
    (hcmov : (f.insn q).index = .cmov) (hcond : (f.insn q).cond = true)
    (hneg : negates (f.insn q) = true) :
    v q ≠ 0 ↔ ¬operandValue env v ((f.insn q).op 3) ≠ 0 := by
  obtain ⟨h1, c, hc, h2⟩ := negates_iff.1 hneg
  obtain rfl : c = 1 := (hwires q hq hcmov hcond 2 c h2).resolve_left hc
  rw [cmov_eq hv hq hcmov, h1, h2, operandValue, operandValue, low_zero]
  split
  · next hy => exact iff_of_false (fun h => h rfl) fun h => h hy
  · next hy => exact iff_of_true (low_one_ne_zero hc) hy

theorem through_replaces (hf : WellFormed f) (hrank : Ranked rank f) (hr : f.Live ref)
    (hcmov : (f.insn ref).index = .cmov)
    (h : throughCondition f (f.insn ref) = some (.inl y)) :
    Replaces rank f ref { f.insn ref with op := Function.update (f.insn ref).op 3 y } := by
  obtain ⟨q, hq, hadd, hzero, hy⟩ | ⟨q, -, -, -, -, hx⟩ | hx := throughCondition_cases h
  · obtain rfl := Sum.inl.inj hy
    have hlive := refs_below hf hrank hr hq
    refine condition_replaces hf hrank hr hcmov (fun q' hq' => ?_) fun {env v} hv => ?_
    · have hbelow := refs_below hf hrank hlive.1 hq'
      exact ⟨hbelow.1, hbelow.2.1, hbelow.2.2.trans hlive.2.2⟩
    · rw [hq, ← move_eq hv hlive.1 hadd hzero]
      rfl
  · cases hx
  · cases hx

/-- Going on with the CMOV keeps the function, whether its condition is negated or not. -/
theorem negated_replaces (hf : WellFormed f) (hrank : Ranked rank f) (hwires : SingleWires f)
    (hr : f.Live ref) (hcmov : (f.insn ref).index = .cmov)
    (h : throughCondition f (f.insn ref) = some (.inr ii)) : Replaces rank f ref ii := by
  obtain ⟨q, -, -, -, hx⟩ | ⟨q, hq, hcond, hqcmov, hneg, hx⟩ | hx := throughCondition_cases h
  · cases hx
  · obtain rfl := Sum.inr.inj hx
    have hlive := refs_below hf hrank hr hq
    refine swapArms_replaces hf hrank hr hcmov (fun q' hq' => ?_) fun {env v} hv => ?_
    · have hbelow := refs_below hf hrank hlive.1 hq'
      exact ⟨hbelow.1, hbelow.2.1, hbelow.2.2.trans hlive.2.2⟩
    · rw [hq]
      change _ ↔ ¬v q ≠ 0
      rw [negates_eq hv hwires hlive.1 hqcmov hcond hneg, not_not]
  · obtain rfl := Sum.inr.inj hx
    have hsame : { f.insn ref with op := Function.update (f.insn ref).op 3 ((f.insn ref).op 3) } =
        f.insn ref := by rw [Function.update_eq_self]
    rw [← hsame]
    exact condition_replaces hf hrank hr hcmov (fun q hq => refs_below hf hrank hr hq)
      fun {env v} _ => Iff.rfl

end Condition

end Cuc
end Or1ksim
