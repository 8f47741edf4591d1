import Or1ksim.Cuc.Rewrite

/-!
# When the rewrites of the optimiser are exact

The operand swap, the promotion, the folding and the joining of `optimize_tree`, as replacements of
one instruction.

* `swap_replaces`, `promote_replaces` — the swap of no comparison, and every promotion;
* `FoldExact`, `fold_replaces` — the folding of a constant expression;
* `JoinExact`, `join_replaces` — the joining of two instructions with constants;
* `arith_keeps` — **the last part of the loop body**.
-/

namespace Or1ksim
namespace Cuc

variable {W : ℕ} {f : Func W} {r q : Ref} {ii prev : Insn W} {rank : Ref → ℕ} {env : Env}
  {v : Ref → Word}

/-! ### Constants on 32 wires -/

section Low

variable (a b : BitVec W)

theorem low_toNat (hb : b.toNat < 2 ^ 32) : (low b).toNat = b.toNat := by
  rw [low, BitVec.toNat_setWidth, Nat.mod_eq_of_lt hb]

/-- The bits that a right shift moves into the lower 32 must be clear. -/
theorem low_srl (hb : b.toNat < 2 ^ 32)
    (ha : ∀ i, 32 ≤ i → b.toNat ≤ i → i < 32 + b.toNat → a.getLsbD i = false) :
    low (a >>> b) = low a >>> low b := by
  rw [BitVec.ushiftRight_eq', BitVec.ushiftRight_eq', low_toNat b hb]
  refine BitVec.eq_of_getLsbD_eq fun i hi => ?_
  simp only [low, BitVec.getLsbD_setWidth, BitVec.getLsbD_ushiftRight, hi, decide_true,
    Bool.true_and]
  by_cases hlt : b.toNat + i < 32
  · simp [hlt]
  · simp [hlt, ha (b.toNat + i) (by omega) (by omega) (by omega)]

variable (hW : 32 ≤ W)
include hW

theorem low_add : low (a + b) = low a + low b := BitVec.setWidth_add _ _ hW

theorem low_mul : low (a * b) = low a * low b := BitVec.setWidth_mul _ _ hW

theorem low_sub : low (a - b) = low a - low b := by
  rw [BitVec.sub_eq_add_neg, low_add _ _ hW, BitVec.sub_eq_add_neg, low, low, low,
    BitVec.setWidth_neg_of_le hW]

theorem low_sll (hb : b.toNat < 2 ^ 32) : low (a <<< b) = low a <<< low b := by
  rw [BitVec.shiftLeft_eq', BitVec.shiftLeft_eq', low_toNat b hb]
  exact BitVec.setWidth_shiftLeft_of_le hW

end Low

/-! ### The condition -/

/-- The constant expression is worth on 32 wires what it is worth in `unsigned long`, and it is no
output. -/
structure FoldExact (ii : Insn W) (a b : BitVec W) : Prop where
  /-- The folded instruction has register -1. -/
  output : ii.output → ii.op 0 = .dest (-1)
  /-- Longer shifts are undefined. -/
  shift : ii.index = .sll ∨ ii.index = .srl → b.toNat < W
  /-- No bits come down from above bit 31. -/
  srl : ii.index = .srl → ∀ i, 32 ≤ i → b.toNat ≤ i → i < 32 + b.toNat → a.getLsbD i = false

/-- The constant `c1` of the instruction joined may be moved to the other side. -/
structure JoinExact (ii prev : Insn W) (c c1 : BitVec W) : Prop where
  /-- An add and a sub are joined as if both were adds, or both subs. -/
  opposite : ii.index = .add ∧ prev.index = .sub ∨ ii.index = .sub ∧ prev.index = .add →
    low c1 + low c1 = 0
  /-- Orders do not survive a wrap around. -/
  compare : (prev.index = .add ∨ prev.index = .sub) → ii.index.isCompare → c < 0x80000000#W →
    ii.index = .sfeq ∨ ii.index = .sfne ∨ low c1 = 0

/-! ### Replacements with the same index -/

theorem Replaces.of_index (hf : WellFormed f) (hr : f.Live r)
    (hindex : ii.index = (f.insn r).index) (hout : ii.output = (f.insn r).output)
    (hdest : (f.insn r).index.isValue → ii.op 0 = (f.insn r).op 0)
    (huses : ∀ {k q}, ii.op k = .ref q → f.Live q ∧ (f.insn q).index.isValue ∧ rank q < rank r)
    (hvalue : ∀ {env v}, Valuation env f v → (f.insn r).index.isValue →
      compute env r.bb (f.unitNo r) (f.insn r).index (args env v ii) = Cuc.value env f v r)
    (heffect : ∀ {env v}, Valuation env f v → (f.insn r).index.isEffect →
      args env v ii = args env v (f.insn r)) : Replaces rank f r ii where
  isValue := by rw [hindex]
  isUnit := by rw [hindex]
  isEffect := by rw [hindex]
  dest hval := by
    rw [hdest hval]
    exact hf.dests hr hval
  output := hout
  register hval _ := hdest hval
  uses := huses
  value hv hval := by
    rw [hindex]
    exact hvalue hv hval
  effect hv he := ⟨hindex, heffect hv he⟩

theorem swappedCompare_of_not {index : Index} (h : index.isCompare = false) :
    swappedCompare index = index := by
  cases index <;> first | rfl | exact absurd h (by decide)

theorem swap_args_one : args env v (swap ii) 1 = args env v ii 2 := by
  simp [args, swap]

theorem swap_args_two : args env v (swap ii) 2 = args env v ii 1 := by
  simp [args, swap]

/-- The commutative instructions that are no comparisons do not change with the operands. -/
theorem compute_swap {b n : ℕ} (hcom : ii.index.comutative) (hcmp : ii.index.isCompare = false)
    (hval : ii.index.isValue) :
    compute env b n ii.index (args env v (swap ii)) = compute env b n ii.index (args env v ii) := by
  cases hi : ii.index with
  | add => rw [compute, compute, swap_args_one, swap_args_two, BitVec.add_comm]
  | mul => rw [compute, compute, swap_args_one, swap_args_two, BitVec.mul_comm]
  | and => rw [compute, compute, swap_args_one, swap_args_two, BitVec.and_comm]
  | or => rw [compute, compute, swap_args_one, swap_args_two, BitVec.or_comm]
  | xor => rw [compute, compute, swap_args_one, swap_args_two, BitVec.xor_comm]
  | _ =>
    rw [hi] at hcom hcmp hval
    first
      | exact absurd hcom (by decide)
      | exact absurd hcmp (by decide)
      | exact absurd hval (by decide)

/-- An operand of an updated operand list was there before, or is the new one. -/
theorem ref_of_update {op : OperandNo → Operand W} {k k' : OperandNo} {o : Operand W} {p : Ref}
    (h : Function.update op k o k' = .ref p) : op k' = .ref p ∨ o = .ref p := by
  by_cases hk : k' = k
  · rw [hk, Function.update_self] at h
    exact .inr h
  · rw [Function.update_of_ne hk] at h
    exact .inl h

/-- What one of the instruction's own references may be replaced by. -/
theorem uses_of_insn (hf : WellFormed f) (hrank : Ranked rank f) (hr : f.Live r) {k : OperandNo}
    {p : Ref} (h : (f.insn r).op k = .ref p) :
    f.Live p ∧ (f.insn p).index.isValue ∧ rank p < rank r :=
  ⟨(hf.refs hr h).1, (hf.refs hr h).2, hrank hr h⟩

theorem uses_of_ref (hf : WellFormed f) (hrank : Ranked rank f) (hr : f.Live r) {k k' : OperandNo}
    {p : Ref} (hq : (f.insn r).op k = .ref q) (h : (f.insn q).op k' = .ref p) :
    f.Live p ∧ (f.insn p).index.isValue ∧ rank p < rank r := by
  have hlive := (hf.refs hr hq).1
  exact ⟨(hf.refs hlive h).1, (hf.refs hlive h).2, (hrank hlive h).trans (hrank hr hq)⟩

/-! ### The rewrites -/

theorem swap_replaces (hf : WellFormed f) (hrank : Ranked rank f) (hr : f.Live r)
    (hswap : swaps (f.insn r)) (hcmp : (f.insn r).index.isCompare = false) :
    Replaces rank f r (swap (f.insn r)) := by
  simp only [swaps, hcmp, Bool.or_false, Bool.and_eq_true] at hswap
  obtain ⟨⟨hconst, -⟩, hcom⟩ := hswap
  refine .of_index hf hr (swappedCompare_of_not hcmp) rfl (fun _ => ?_) (fun {k p} hk => ?_)
    (fun hv hval => ?_) (fun hv he => ?_)
  · simp [swap]
  · rcases ref_of_update hk with hk | hk
    · rcases ref_of_update hk with hk | hk
      · exact uses_of_insn hf hrank hr hk
      · exact uses_of_insn hf hrank hr hk
    · exact uses_of_insn hf hrank hr hk
  · exact compute_swap hcom hcmp hval
  · -- stores, branches and calls do not commute
    cases hi : (f.insn r).index <;> rw [hi] at hcom he <;>
      first
      | exact absurd hcom (by decide)
      | exact absurd he (by decide)

theorem promotes_eq_some {k : OperandNo} {o : Operand W} (hprom : promotes f ii k = some o) :
    ∃ q, ii.op k = .ref q ∧ (f.insn q).index = .add ∧ (f.insn q).op 2 = .const 0 ∧
      (f.insn q).op 1 = o := by
  cases hk : ii.op k with
  | ref q =>
    simp only [promotes, hk, Option.ite_none_right_eq_some, Option.some.injEq] at hprom
    obtain ⟨⟨hadd, hzero, -⟩, ho⟩ := hprom
    exact ⟨q, rfl, hadd, hzero, ho⟩
  | _ => simp only [promotes, hk, reduceCtorEq] at hprom

theorem promotes_value (hf : WellFormed f) (hr : f.Live r) {k : OperandNo} {o : Operand W}
    (hprom : promotes f (f.insn r) k = some o) (hv : Valuation env f v) :
    operandValue env v ((f.insn r).op k) = operandValue env v o := by
  obtain ⟨q, hk, hadd, hzero, ho⟩ := promotes_eq_some hprom
  obtain ⟨hq, hval⟩ := hf.refs hr hk
  have hvq : v q = args env v (f.insn q) 1 + args env v (f.insn q) 2 := by
    rw [hv.eq hq hval, value, hadd, compute]
  rw [hk, operandValue, hvq, args, args, hzero, ho]
  simp [operandValue, low]

theorem promote_replaces (hf : WellFormed f) (hrank : Ranked rank f) (hr : f.Live r)
    {k : OperandNo} {o : Operand W} (hprom : promotes f (f.insn r) k = some o) :
    Replaces rank f r { f.insn r with op := Function.update (f.insn r).op k o } := by
  have hargs : ∀ {env v}, Valuation env f v →
      args env v { f.insn r with op := Function.update (f.insn r).op k o } =
        args env v (f.insn r) := by
    intro env v hv
    funext k'
    by_cases hk : k' = k
    · simp only [args, hk, Function.update_self, promotes_value hf hr hprom hv]
    · simp only [args, Function.update_of_ne hk]
  refine .of_index hf hr rfl rfl (fun hval => ?_) (fun {k' p} hk => ?_) (fun hv hval => ?_)
    (fun hv he => hargs hv)
  · -- a destination is not promoted
    have hk : (0 : OperandNo) ≠ k := by
      rintro rfl
      obtain ⟨d, hd⟩ := hf.dests hr hval
      obtain ⟨q, hq, -⟩ := promotes_eq_some hprom
      exact nomatch hd.symm.trans hq
    exact Function.update_of_ne hk ..
  · rcases ref_of_update hk with hk | hk
    · exact uses_of_insn hf hrank hr hk
    · obtain ⟨q, hq, -, -, ho⟩ := promotes_eq_some hprom
      exact uses_of_ref hf hrank hr hq (ho.trans hk)
  · rw [hargs hv, value]

theorem compute_fold (hW : W = 32 ∨ W = 64) {a b c : BitVec W} {x : OperandNo → Word} {n m : ℕ}
    (hexact : FoldExact ii a b) (hfold : foldValue ii.index a b = some c) (ha : x 1 = low a)
    (hb : x 2 = low b) : compute env n m ii.index x = low c := by
  have hle : 32 ≤ W := by omega
  have hlt : b.toNat < W → b.toNat < 2 ^ 32 := by omega
  cases hi : ii.index <;> rw [hi] at hfold <;>
    simp only [foldValue, Option.some.injEq, reduceCtorEq] at hfold <;>
    rw [compute, ha, hb, ← hfold]
  case add => rw [low_add _ _ hle]
  case sub => rw [low_sub _ _ hle]
  case mul => rw [low_mul _ _ hle]
  case and => exact BitVec.setWidth_and.symm
  case or => exact BitVec.setWidth_or.symm
  case xor => exact BitVec.setWidth_xor.symm
  case sll => rw [low_sll _ _ hle (hlt (hexact.shift (.inl hi)))]
  case srl => rw [low_srl _ _ (hlt (hexact.shift (.inr hi))) (hexact.srl hi)]

theorem foldValue_index {index : Index} {a b c : BitVec W} (h : foldValue index a b = some c) :
    index.isValue ∧ index.isUnit = false ∧ index.isEffect = false := by
  cases index <;> simp only [foldValue, reduceCtorEq] at h <;> decide

theorem fold_replaces (hW : W = 32 ∨ W = 64) (hf : WellFormed f) (hrank : Ranked rank f)
    (hr : f.Live r) {a b : BitVec W} (ha : (f.insn r).op 1 = .const a)
    (hb : (f.insn r).op 2 = .const b) (hexact : FoldExact (f.insn r) a b)
    (hfold : fold (f.insn r) a b = some ii) : Replaces rank f r ii := by
  simp only [fold, Option.ite_none_left_eq_some, Option.map_eq_some_iff] at hfold
  obtain ⟨-, c, hc, rfl⟩ := hfold
  obtain ⟨hval, hunit, heffect⟩ := foldValue_index hc
  have hdest : (constInsn (f.insn r) c).op 0 = .dest (-1) := by simp [constInsn]
  exact {
    isValue := hval.symm
    isUnit := hunit.symm
    isEffect := heffect.symm
    dest := fun _ => ⟨-1, hdest⟩
    output := rfl
    register := fun _ hout => hdest.trans (hexact.output hout).symm
    uses := fun {k q} hk => by
      rcases ref_of_update hk with hk | hk
      · rcases ref_of_update hk with hk | hk
        · rcases ref_of_update hk with hk | hk
          · exact uses_of_insn hf hrank hr hk
          · cases hk
        · cases hk
      · cases hk
    value := fun {env v} hv _ => by
      have hold : value env f v r = low c :=
        compute_fold hW hexact hc (by rw [args, ha, operandValue]) (by rw [args, hb, operandValue])
      rw [hold]
      simp [constInsn, compute, args, operandValue, low]
    effect := fun hv he => by
      rw [heffect] at he
      exact absurd he Bool.false_ne_true }

/-- `x + c1` compares with `c` as `x` with `c - c1`, when the comparison is no order. -/
theorem compute_compare_add {index : Index} (hcmp : index.isCompare) {x c c1 : Word} {n m : ℕ}
    (h : index = .sfeq ∨ index = .sfne ∨ c1 = 0) {y z : OperandNo → Word} (hy : y 1 = x + c1)
    (hy' : y 2 = c) (hz : z 1 = x) (hz' : z 2 = c - c1) :
    compute env n m index z = compute env n m index y := by
  have hiff : x = c - c1 ↔ x + c1 = c := by
    constructor <;> intro h <;> grind
  rcases h with rfl | rfl | rfl
  · simp only [compute, hy, hy', hz, hz', hiff]
  · simp only [compute, hy, hy', hz, hz', ne_eq, hiff]
  · have hyz : y 1 = z 1 ∧ y 2 = z 2 := by simp [hy, hy', hz, hz']
    cases index <;> first
      | exact absurd hcmp (by decide)
      | simp only [compute, hyz.1, hyz.2]

theorem join_args_one {c : BitVec W} :
    args env v (joinWith ii prev c) 1 = args env v prev 1 := by
  simp [args, joinWith]

theorem join_args_two {c : BitVec W} : args env v (joinWith ii prev c) 2 = low c := by
  simp [args, joinWith, operandValue]

/-- The instructions that are joined, and the constants they get. -/
theorem join_cases {c c1 : BitVec W} {ii' : Insn W} (h : join ii prev c c1 = some ii') :
    ∃ c', ii' = joinWith ii prev c' ∧
      (ii.index = .add ∧ prev.index = .add ∧ c' = c + c1 ∨
        ii.index = .add ∧ prev.index = .sub ∧ c' = c + c1 ∨
        ii.index = .sub ∧ prev.index = .add ∧ c' = c + c1 ∨
        ii.index.isCompare ∧ prev.index = .add ∧ c < 0x80000000#W ∧ c' = c - c1 ∨
        ii.index.isCompare ∧ prev.index = .sub ∧ c < 0x80000000#W ∧ c' = c + c1) := by
  unfold join at h
  split_ifs at h with h₁ h₂ h₃ h₄ h₅ h₆ h₇ <;> cases h
  · exact ⟨_, rfl, .inl ⟨h₁.1, h₁.2, rfl⟩⟩
  · exact ⟨_, rfl, .inr (.inl ⟨h₂.1, h₂.2, rfl⟩)⟩
  · exact ⟨_, rfl, .inr (.inr (.inl ⟨h₃.1, h₃.2, rfl⟩))⟩
  · exact ⟨_, rfl, .inr (.inr (.inr (.inl ⟨h₄.2, h₄.1, h₅, rfl⟩)))⟩
  · exact ⟨_, rfl, .inr (.inr (.inr (.inr ⟨h₆.2, h₆.1, h₇, rfl⟩)))⟩

/-- A joined instruction computes what it did, when the constant may be moved. -/
theorem compute_join (hW : 32 ≤ W) {c c1 : BitVec W} {ii' : Insn W} {b n b' n' : ℕ}
    (hjoin : join ii prev c c1 = some ii') (hexact : JoinExact ii prev c c1)
    (hc : ii.op 2 = .const c) (hc1 : prev.op 2 = .const c1)
    (hprev : args env v ii 1 = compute env b' n' prev.index (args env v prev)) :
    compute env b n ii.index (args env v ii') = compute env b n ii.index (args env v ii) := by
  have hy : args env v ii 2 = low c := by rw [args, hc, operandValue]
  have hp : args env v prev 2 = low c1 := by rw [args, hc1, operandValue]
  obtain ⟨c', rfl, hcase⟩ := join_cases hjoin
  rcases hcase with ⟨hi, hj, rfl⟩ | ⟨hi, hj, rfl⟩ | ⟨hi, hj, rfl⟩ | ⟨hi, hj, hlt, rfl⟩ |
    ⟨hi, hj, hlt, rfl⟩
  · rw [hj, compute, hp] at hprev
    rw [hi, compute, compute, join_args_one, join_args_two, hprev, hy, low_add _ _ hW,
      BitVec.add_assoc, BitVec.add_comm (low c1)]
  · have hzero := hexact.opposite (.inl ⟨hi, hj⟩)
    rw [hj, compute, hp] at hprev
    rw [hi, compute, compute, join_args_one, join_args_two, hprev, hy, low_add _ _ hW]
    grind
  · have hzero := hexact.opposite (.inr ⟨hi, hj⟩)
    rw [hj, compute, hp] at hprev
    rw [hi, compute, compute, join_args_one, join_args_two, hprev, hy, low_add _ _ hW]
    grind
  · rw [hj, compute, hp] at hprev
    exact compute_compare_add hi (hexact.compare (.inl hj) hi hlt) hprev hy join_args_one
      (join_args_two.trans (low_sub _ _ hW))
  · -- a subtraction is the addition of the opposite constant
    rw [hj, compute, hp, BitVec.sub_eq_add_neg] at hprev
    have hopp : ii.index = .sfeq ∨ ii.index = .sfne ∨ -low c1 = 0 := by
      rcases hexact.compare (.inr hj) hi hlt with h | h | h
      · exact .inl h
      · exact .inr (.inl h)
      · exact .inr (.inr (by rw [h]; decide))
    refine compute_compare_add hi hopp hprev hy join_args_one ?_
    rw [join_args_two, low_add _ _ hW]
    grind

theorem join_replaces (hW : 32 ≤ W) (hf : WellFormed f) (hrank : Ranked rank f) (hr : f.Live r)
    {c c1 : BitVec W} (hq : (f.insn r).op 1 = .ref q) (hc : (f.insn r).op 2 = .const c)
    (hc1 : (f.insn q).op 2 = .const c1) (hexact : JoinExact (f.insn r) (f.insn q) c c1)
    (hjoin : join (f.insn r) (f.insn q) c c1 = some ii) : Replaces rank f r ii := by
  have hvalue : ∀ {env v}, Valuation env f v → ∀ b n,
      compute env b n (f.insn r).index (args env v ii) =
        compute env b n (f.insn r).index (args env v (f.insn r)) := by
    intro env v hv b n
    obtain ⟨hqlive, hqval⟩ := hf.refs hr hq
    have hprev : args env v (f.insn r) 1 =
        compute env q.bb (f.unitNo q) (f.insn q).index (args env v (f.insn q)) := by
      rw [args, hq, operandValue, hv.eq hqlive hqval, value]
    exact compute_join hW hjoin hexact hc hc1 hprev
  obtain ⟨c', rfl, hcase⟩ := join_cases hjoin
  refine .of_index hf hr rfl rfl (fun _ => by simp [joinWith]) (fun {k p} hk => ?_)
    (fun hv _ => by rw [hvalue hv, value]) (fun hv he => ?_)
  · rcases ref_of_update hk with hk | hk
    · rcases ref_of_update hk with hk | hk
      · exact uses_of_insn hf hrank hr hk
      · exact uses_of_ref hf hrank hr hq hk
    · exact nomatch hk
  · -- only adds, subs and comparisons are joined
    exfalso
    rcases hcase with ⟨hi, -⟩ | ⟨hi, -⟩ | ⟨hi, -⟩ | ⟨hi, -⟩ | ⟨hi, -⟩
    all_goals cases hi' : (f.insn r).index <;> simp_all [Index.isEffect, Index.isCompare]

/-- **The last part of the loop body keeps every value** when its fold and its join are exact. -/
theorem arith_keeps (hW : W = 32 ∨ W = 64) (hf : WellFormed f) (hrank : Ranked rank f)
    (hr : f.Live r)
    (hfold : ∀ a c, (f.insn r).op 1 = .const a → (f.insn r).op 2 = .const c →
      (fold (f.insn r) a c).isSome → FoldExact (f.insn r) a c)
    (hjoin : ∀ q c c1, (f.insn r).op 1 = .ref q → (f.insn r).op 2 = .const c →
      ¬isMove (f.insn r) c → (f.insn q).op 2 = .const c1 → JoinExact (f.insn r) (f.insn q) c c1) :
    Keeps rank f (arith f r).1 := by
  unfold arith
  dsimp only
  split
  case h_1 c a hc ha =>
    split
    case h_1 ii' hii =>
      exact (fold_replaces hW hf hrank hr ha hc (hfold a c ha hc (by rw [hii]; rfl)) hii).keeps
        hf hrank
    case h_2 => exact .refl hf hrank
  case h_2 c q hc hq =>
    split_ifs with hmove hkeep
    · exact .refl hf hrank
    · obtain ⟨hadd, -, hzero⟩ := hmove
      have hout : (f.insn q).output = false := by
        rw [Bool.not_eq_true, Bool.or_eq_false_iff] at hkeep
        exact hkeep.1
      exact Moves.link_keeps ⟨hr, hadd, hq, hzero ▸ hc, hout⟩ hf hrank
    · split
      case h_1 c1 hc1 =>
        split
        case h_1 ii' hii =>
          exact (join_replaces (by omega) hf hrank hr hq hc hc1 (hjoin q c c1 hq hc hmove hc1)
            hii).keeps hf hrank
        case h_2 => exact .refl hf hrank
      case h_2 => exact .refl hf hrank
  case h_3 => exact .refl hf hrank

theorem promote_keeps (hf : WellFormed f) (hrank : Ranked rank f) (hr : f.Live r) (k : OperandNo) :
    Keeps rank f (promote f r k).1 := by
  unfold promote
  split
  case h_1 o ho => exact (promote_replaces hf hrank hr ho).keeps hf hrank
  case h_2 => exact .refl hf hrank

end Cuc
end Or1ksim
