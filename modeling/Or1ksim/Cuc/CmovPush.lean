import Or1ksim.Cuc.CmovValues

/-!
# Pushing a CMOV through an operation

The CMOV between two operations of one kind becomes the operation on a CMOV between their operands.

* `pushThrough_spec` — what is inserted and what is replaced;
* `Pushed.pushed_wellFormed`, `Pushed.pushed_acyclic` — the function is still one;
* `Pushed.pushed_values` — **the values are kept when the pushed operation is right**.
-/

namespace Or1ksim
namespace Cuc

open Or1ksim.Compact

variable {W : ℕ}

/-! ### Pushing a CMOV through an operation -/

/-- The function `h` is `f` with the CMOV at `ref` pushed through the operation of `p` and `q`,
which differ in operand `d`. -/
structure Pushed (f h : Func W) (ref p q : Ref) (d : OperandNo) : Prop where
  outer : (f.insn ref).index = .cmov
  arm1 : (f.insn ref).op 1 = .ref p
  arm2 : (f.insn ref).op 2 = .ref q
  index : (f.insn p).index = (f.insn q).index
  isPure : (f.insn p).index.isPure
  d_ne : d ≠ 0
  numBb : h.numBb = f.numBb
  dead : h.dead = f.dead
  ninsn : h.ninsn = Function.update f.ninsn ref.bb (f.ninsn ref.bb + 1)
  cmov_index : (h.insn ref).index = .cmov
  cmov_op : (h.insn ref).op = Function.update (Function.update (Function.update
    ((f.insn ref).relocate (shift ref 1)).op 0 anonymous)
    1 (((f.insn p).op d).relocate (shift ref 1))) 2 (((f.insn q).op d).relocate (shift ref 1))
  op_index : (h.insn (shift ref 1 ref)).index = (f.insn p).index
  op_op : (h.insn (shift ref 1 ref)).op =
    Function.update ((f.insn p).relocate (shift ref 1)).op d (.ref ref)
  insn : ∀ x, f.InRange x → x ≠ ref → h.insn (shift ref 1 x) = (f.insn x).relocate (shift ref 1)

theorem pushCase_spec {stale : Stale W} {f : Func W} {ref p q : Ref} {d : OperandNo}
    (h : pushCase stale f ref = some (p, q, d)) :
    (f.insn ref).op 1 = .ref p ∧ (f.insn ref).op 2 = .ref q ∧ (f.insn ref).cond = false ∧
      (f.insn p).index = (f.insn q).index ∧ (f.insn p).volatile = false ∧
        differs stale f p q d = true := by
  unfold pushCase at h
  split at h
  · next p' q' hp hq =>
    split_ifs at h with hsame
    split at h
    · next d' hd =>
      cases h
      have hmem : d ∈ (List.finRange 5).filter (differs stale f p q) := by
        rw [hd]
        exact List.mem_singleton_self d
      exact ⟨hp, hq, hsame.1, hsame.2.1, hsame.2.2.1, (List.mem_filter.1 hmem).2⟩
    · cases h
  · cases h

theorem differs_dest {stale : Stale W} {f : Func W} {p q : Ref} {k : OperandNo} {a b : BitVec W}
    (ha : (f.insn p).op k = .dest a) (hb : (f.insn q).op k = .dest b) :
    differs stale f p q k = false := by
  rw [differs, ha, hb]

theorem pushedCmov_spec {f : Func W} {ii cmov : Insn W} {x y : Operand W}
    (h : pushedCmov f ii x y = some cmov) : cmov.index = .cmov ∧
      cmov.op = Function.update (Function.update (Function.update ii.op 0 anonymous) 1 x) 2 y := by
  unfold pushedCmov at h
  dsimp only at h
  split at h
  · split_ifs at h <;> cases h <;> exact ⟨rfl, rfl⟩
  · cases h
    exact ⟨rfl, rfl⟩

/-- An instruction that passes the check and chooses has operands that are conditions like it. -/
theorem cucCheck_cond {f : Func W} {r q : Ref} {k : OperandNo} (h : cucCheck f = true)
    (hr : f.InRange r) (hchoice : (f.insn r).isChoice = true) (hk : (f.insn r).op k = .ref q)
    (hlt : k < 3) : (f.insn q).cond = (f.insn r).cond := by
  have hall := List.all_eq_true.1 h r (mem_insns.2 hr)
  rw [Bool.and_eq_true] at hall
  have hoperand := List.all_eq_true.1 hall.2 k (List.mem_finRange k)
  rw [checkOperand, hk, hchoice, decide_eq_true hlt] at hoperand
  simp only [Bool.not_true, Bool.false_or, Bool.and_eq_true, decide_eq_true_eq] at hoperand
  exact hoperand.2.1

theorem shift_self (ref : Ref) : shift ref 1 ref = ⟨ref.bb, ref.i + 1⟩ :=
  if_pos ⟨rfl, Nat.le_refl _⟩

theorem shift_ne_self (ref x : Ref) : shift ref 1 x ≠ ref := by
  obtain ⟨⟨-, hle⟩, hshift⟩ | ⟨hstay, hshift⟩ := shift_cases ref 1 x <;> rw [hshift]
  · intro heq
    have hi : x.i + 1 = ref.i := congrArg Ref.i heq
    omega
  · rintro rfl
    exact hstay ⟨rfl, Nat.le_refl _⟩

theorem insertInsns_insn {f : Linked W} (ref : Ref) {x : Ref} (hx : f.InRange x) :
    (insertInsns f ref 1).insn (shift ref 1 x) = (f.insn x).relocate (shift ref 1) := by
  obtain ⟨hrange, hinsn, -⟩ := openGap_shift ref 1 hx
  exact (insn_relocate hrange).trans (by rw [hinsn])

/-- **What `pushThrough` does.** -/
theorem pushThrough_spec {stale : Stale W} {f h : Linked W} {ref p q : Ref} {d : OperandNo}
    (hf : WellFormed f.toFunc) (hunits : UnitsFlagged f.toFunc) (hr : f.Live ref)
    (houter : (f.insn ref).index = .cmov)
    (hcase : pushCase stale f.toFunc ref = some (p, q, d))
    (hpush : pushThrough f ref d = some h) : Pushed f.toFunc h.toFunc ref p q d := by
  obtain ⟨harm1, harm2, hcond, hindex, hvol, hdiffers⟩ := pushCase_spec hcase
  have hp := hf.refs hr harm1
  have hq := hf.refs hr harm2
  have hrange := live_inRange hr
  have hrange' : (insertInsns f ref 1).InRange (shift ref 1 ref) :=
    (openGap_shift ref 1 hrange).1
  have hinsn := insertInsns_insn ref hrange
  have hinsnp := insertInsns_insn ref (live_inRange hp.1)
  have hinsnq := insertInsns_insn ref (live_inRange hq.1)
  have hop1 : ((insertInsns f ref 1).insn (shift ref 1 ref)).op 1 = .ref (shift ref 1 p) := by
    rw [hinsn]
    exact congrArg (Operand.relocate _) harm1
  have hop2 : ((insertInsns f ref 1).insn (shift ref 1 ref)).op 2 = .ref (shift ref 1 q) := by
    rw [hinsn]
    exact congrArg (Operand.relocate _) harm2
  have hchoice : ((insertInsns f ref 1).insn (shift ref 1 ref)).isChoice = true := by
    rw [hinsn]
    change (decide ((f.insn ref).index = .cmov) || _) = true
    rw [houter]
    rfl
  have hself := shift_self ref
  unfold pushThrough at hpush
  dsimp only at hpush
  rw [← hself] at hpush
  split_ifs at hpush with hcheck
  rw [not_or, Bool.not_eq_false] at hcheck
  split at hpush
  case h_2 hne => exact (hne _ _ hop1 hop2).elim
  case h_1 p' q' hp' hq' =>
    obtain rfl := Operand.ref.inj (hop1.symm.trans hp')
    obtain rfl := Operand.ref.inj (hop2.symm.trans hq')
    obtain ⟨cmov, hcmov, hlast⟩ := Option.bind_eq_some_iff.1 hpush
    split_ifs at hlast
    obtain rfl := Option.some.inj hlast
    obtain ⟨hcmovi, hcmovo⟩ := pushedCmov_spec hcmov
    have hne := shift_ne_self ref
    have hcondp : (f.insn p).cond = false := by
      have h := cucCheck_cond hcheck.2 hrange' hchoice hop1 (by decide)
      rw [hinsnp, hinsn] at h
      exact h.trans hcond
    exact {
      outer := houter
      arm1 := harm1
      arm2 := harm2
      index := hindex
      isPure := by
        rw [Index.isPure, hp.2, Bool.true_and, Bool.not_eq_true']
        by_contra hunit
        rcases hunits p hp.1 (by rwa [Bool.not_eq_false] at hunit) with h | h
        · exact Bool.noConfusion (h.symm.trans hvol)
        · exact Bool.noConfusion (h.symm.trans hcondp)
      d_ne := by
        rintro rfl
        obtain ⟨a, ha⟩ := hf.dests hp.1 hp.2
        obtain ⟨b, hb⟩ := hf.dests hq.1 hq.2
        exact Bool.noConfusion ((differs_dest ha hb).symm.trans hdiffers)
      numBb := rfl
      dead := rfl
      ninsn := rfl
      cmov_index := by
        dsimp only [pushedInsns]
        rw [Function.update_of_ne (hne ref).symm, Function.update_self]
        exact hcmovi
      cmov_op := by
        dsimp only [pushedInsns]
        rw [Function.update_of_ne (hne ref).symm, Function.update_self, hcmovo, hinsn, hinsnp,
          hinsnq]
        rfl
      op_index := by
        dsimp only [pushedInsns]
        rw [Function.update_self, hinsnp]
        rfl
      op_op := by
        dsimp only [pushedInsns]
        rw [Function.update_self, hinsnp]
      insn := fun x hx hxref => by
        have hxne : shift ref 1 x ≠ shift ref 1 ref := fun h => hxref (shift_injective ref 1 h)
        dsimp only [pushedInsns]
        rw [Function.update_of_ne hxne, Function.update_of_ne (hne x), insertInsns_insn _ hx] }

section Push

variable {f g : Func W} {env : Env} {v w : Ref → Word} {rank : Ref → ℕ} {ref p q x y : Ref}
  {d k : OperandNo}

/-- Which instruction lies behind the one put in at `ref`. -/
def unshift (ref x : Ref) : Ref := if x.bb = ref.bb ∧ ref.i < x.i then ⟨x.bb, x.i - 1⟩ else x

theorem unshift_shift (ref x : Ref) : unshift ref (shift ref 1 x) = x := by
  obtain ⟨⟨hbb, hle⟩, hshift⟩ | ⟨hstay, hshift⟩ := shift_cases ref 1 x <;> rw [hshift]
  · exact if_pos ⟨hbb, Nat.lt_succ_of_le hle⟩
  · exact if_neg fun h => hstay ⟨h.1, Nat.le_of_lt h.2⟩

theorem shift_unshift (hx : x ≠ ref) : shift ref 1 (unshift ref x) = x := by
  rw [unshift]
  split
  · next h =>
    rw [shift, if_pos ⟨h.1, Nat.le_sub_one_of_lt h.2⟩]
    exact ref_eq rfl (Nat.sub_add_cancel (Nat.one_le_of_lt h.2))
  · next h =>
    refine if_neg fun hle => h ⟨hle.1, Nat.lt_of_le_of_ne hle.2 fun heq => hx ?_⟩
    exact ref_eq hle.1 heq.symm

/-- The CMOV that is put in lies just below the operation. -/
def pushedRank (rank : Ref → ℕ) (ref x : Ref) : ℕ :=
  if x = ref then 2 * rank ref - 1 else 2 * rank (unshift ref x)

theorem pushedRank_shift (rank : Ref → ℕ) (ref x : Ref) :
    pushedRank rank ref (shift ref 1 x) = 2 * rank x := by
  rw [pushedRank, if_neg (shift_ne_self ref x), unshift_shift]

namespace Pushed

variable (h : Pushed f g ref p q d) (hf : WellFormed f) (hrank : Ranked rank f) (hr : f.Live ref)
include h hr

/-- The live instructions are the new one and the old ones in their places. -/
theorem live_iff : g.Live x ↔ x = ref ∨ f.Live (unshift ref x) := by
  rw [Func.Live, Func.Live, h.numBb, h.dead, h.ninsn, unshift]
  obtain ⟨hbb, hdead, hi⟩ := hr
  by_cases hxb : x.bb = ref.bb
  · rw [hxb, Function.update_self]
    rcases Nat.lt_trichotomy x.i ref.i with hlt | heq | hgt
    · rw [if_neg fun h => Nat.lt_asymm h.2 hlt, hxb]
      exact iff_of_true ⟨hbb, hdead, by omega⟩ (.inr ⟨hbb, hdead, by omega⟩)
    · exact iff_of_true ⟨hbb, hdead, by omega⟩ (.inl (ref_eq hxb heq))
    · rw [if_pos ⟨rfl, hgt⟩]
      have hne : x ≠ ref := fun h => Nat.lt_irrefl _ (h ▸ hgt)
      dsimp only
      constructor
      · rintro ⟨-, -, hlt⟩
        exact .inr ⟨hbb, hdead, by omega⟩
      · rintro (heq | ⟨-, -, hlt⟩)
        · exact absurd heq hne
        · exact ⟨hbb, hdead, by omega⟩
  · have hne : x ≠ ref := fun h => hxb (congrArg Ref.bb h)
    rw [Function.update_of_ne hxb, if_neg fun h => hxb h.1]
    exact ⟨.inr, fun h => h.resolve_left hne⟩

theorem live_ref : g.Live ref := (h.live_iff hr).2 (.inl rfl)

theorem live_shift : g.Live (shift ref 1 x) ↔ f.Live x := by
  rw [h.live_iff hr, unshift_shift]
  exact or_iff_right (shift_ne_self ref x)

include hf

theorem live_p : f.Live p ∧ (f.insn p).index.isValue := hf.refs hr h.arm1

omit hf

omit hr in
theorem index_shift (hx : f.Live x) :
    (g.insn (shift ref 1 x)).index.isValue = (f.insn x).index.isValue ∧
      (g.insn (shift ref 1 x)).index.isUnit = (f.insn x).index.isUnit := by
  by_cases hxref : x = ref
  · have hpure := h.isPure
    rw [Index.isPure, Bool.and_eq_true, Bool.not_eq_true'] at hpure
    rw [hxref, h.op_index, h.outer, hpure.1, hpure.2]
    exact ⟨rfl, rfl⟩
  · rw [h.insn x (live_inRange hx) hxref]
    exact ⟨rfl, rfl⟩

omit hr in
/-- The instructions of their kind before an instruction are as many as before. -/
theorem unitNo_shift (hx : f.Live x) : g.unitNo (shift ref 1 x) = f.unitNo x := by
  have hunit : ∀ i, i < f.ninsn x.bb →
      (g.insn (shift ref 1 ⟨x.bb, i⟩)).index.isUnit = (f.insn ⟨x.bb, i⟩).index.isUnit :=
    fun i hi => (h.index_shift (x := ⟨x.bb, i⟩) ⟨hx.1, hx.2.1, hi⟩).2
  have hnone : (g.insn ref).index.isUnit = false := by
    rw [h.cmov_index]
    rfl
  have hbefore : ∀ {i}, ¬(x.bb = ref.bb ∧ ref.i ≤ i) → shift ref 1 ⟨x.bb, i⟩ = ⟨x.bb, i⟩ :=
    fun hi => if_neg hi
  have hafter : ∀ {i}, x.bb = ref.bb ∧ ref.i ≤ i → shift ref 1 ⟨x.bb, i⟩ = ⟨x.bb, i + 1⟩ :=
    fun hi => if_pos hi
  change place (fun i => (g.insn ⟨(shift ref 1 x).bb, i⟩).index.isUnit) (shift ref 1 x).i =
    place (fun i => (f.insn ⟨x.bb, i⟩).index.isUnit) x.i
  obtain ⟨hle, hshift⟩ | ⟨hstay, hshift⟩ := shift_cases ref 1 x
  · rw [hshift]
    refine place_insert (n := f.ninsn x.bb) (fun i hi => ?_) ?_ (fun i hi hin => ?_) hle.2
      (Nat.le_of_lt hx.2.2)
    · have hlt := hx.2.2
      have hsame := hunit i (by omega)
      rwa [hbefore fun hi' => by omega] at hsame
    · dsimp only
      rw [hle.1]
      exact hnone
    · have hsame := hunit i hin
      rwa [hafter ⟨hle.1, hi⟩] at hsame
  · rw [hshift]
    refine place_congr fun i hi => ?_
    have hsame := hunit i (hi.trans hx.2.2)
    rwa [hbefore fun hi' => hstay ⟨hi'.1, by omega⟩] at hsame

include hf hrank

/-- The references of the arms' operation, and of the other operands of the CMOV, are below it. -/
theorem below_p (hk : (f.insn p).op k = .ref y) :
    f.Live y ∧ (f.insn y).index.isValue ∧ rank y < rank ref := by
  have hp := refs_below hf hrank hr h.arm1
  have hy := refs_below hf hrank hp.1 hk
  exact ⟨hy.1, hy.2.1, hy.2.2.trans hp.2.2⟩

theorem below_q (hk : (f.insn q).op k = .ref y) :
    f.Live y ∧ (f.insn y).index.isValue ∧ rank y < rank ref := by
  have hq := refs_below hf hrank hr h.arm2
  have hy := refs_below hf hrank hq.1 hk
  exact ⟨hy.1, hy.2.1, hy.2.2.trans hq.2.2⟩

omit h hf hrank hr in
theorem relocate_eq_ref {pos : Ref → Ref} {o : Operand W} (ho : o.relocate pos = .ref x) :
    ∃ y, o = .ref y ∧ x = pos y := by
  cases o with
  | ref y => exact ⟨y, rfl, (Operand.ref.inj ho).symm⟩
  | _ => cases ho

theorem cmov_ref (hk : (g.insn ref).op k = .ref x) :
    ∃ y, x = shift ref 1 y ∧ f.Live y ∧ (f.insn y).index.isValue ∧ rank y < rank ref := by
  rw [h.cmov_op] at hk
  match k, hk with
  | 1, hk =>
    obtain ⟨y, hy, hx⟩ := relocate_eq_ref hk
    exact ⟨y, hx, h.below_p hf hrank hr hy⟩
  | 2, hk =>
    obtain ⟨y, hy, hx⟩ := relocate_eq_ref hk
    exact ⟨y, hx, h.below_q hf hrank hr hy⟩
  | 3, hk =>
    obtain ⟨y, hy, hx⟩ := relocate_eq_ref (o := (f.insn ref).op 3) hk
    exact ⟨y, hx, refs_below hf hrank hr hy⟩
  | 4, hk =>
    obtain ⟨y, hy, hx⟩ := relocate_eq_ref (o := (f.insn ref).op 4) hk
    exact ⟨y, hx, refs_below hf hrank hr hy⟩

/-- A reference of an instruction in its place: to the CMOV that is put in, from the operation, or
to an instruction of lower rank in its place. -/
theorem shift_ref (hx : f.Live x) (hk : (g.insn (shift ref 1 x)).op k = .ref y) :
    y = ref ∧ x = ref ∨
      ∃ z, y = shift ref 1 z ∧ f.Live z ∧ (f.insn z).index.isValue ∧ rank z < rank x := by
  by_cases hxref : x = ref
  · rw [hxref, h.op_op] at hk
    by_cases hkd : k = d
    · rw [hkd, Function.update_self] at hk
      exact .inl ⟨(Operand.ref.inj hk).symm, hxref⟩
    · rw [Function.update_of_ne hkd] at hk
      obtain ⟨z, hz, hy⟩ := relocate_eq_ref hk
      rw [hxref]
      exact .inr ⟨z, hy, h.below_p hf hrank hr hz⟩
  · rw [h.insn x (live_inRange hx) hxref] at hk
    obtain ⟨z, hz, hy⟩ := relocate_eq_ref hk
    exact .inr ⟨z, hy, refs_below hf hrank hx hz⟩

theorem pushed_ref (hx : g.Live x) (hk : (g.insn x).op k = .ref y) :
    g.Live y ∧ (g.insn y).index.isValue ∧ pushedRank rank ref y < pushedRank rank ref x := by
  have hp := refs_below hf hrank hr h.arm1
  have hself : pushedRank rank ref ref = 2 * rank ref - 1 := if_pos rfl
  by_cases hxref : x = ref
  · rw [hxref] at hk
    obtain ⟨z, rfl, hz, hval, hlt⟩ := h.cmov_ref hf hrank hr hk
    refine ⟨(h.live_shift hr).2 hz, (h.index_shift hz).1.trans hval, ?_⟩
    rw [hxref, hself, pushedRank_shift]
    omega
  · have hlive := ((h.live_iff hr).1 hx).resolve_left hxref
    obtain ⟨x, rfl⟩ : ∃ z, x = shift ref 1 z := ⟨_, (shift_unshift hxref).symm⟩
    rw [unshift_shift] at hlive
    rw [pushedRank_shift]
    rcases h.shift_ref hf hrank hr hlive hk with ⟨rfl, rfl⟩ | ⟨z, rfl, hz, hval, hlt⟩
    · refine ⟨h.live_ref hr, by rw [h.cmov_index]; rfl, ?_⟩
      rw [hself]
      omega
    · refine ⟨(h.live_shift hr).2 hz, (h.index_shift hz).1.trans hval, ?_⟩
      rw [pushedRank_shift]
      omega

theorem pushed_wellFormed : WellFormed g where
  refs hx hk := by
    have hy := h.pushed_ref hf hrank hr hx hk
    exact ⟨hy.1, hy.2.1⟩
  dests := by
    intro x hx hval
    by_cases hxref : x = ref
    · rw [hxref, h.cmov_op]
      exact ⟨_, rfl⟩
    · have hlive := ((h.live_iff hr).1 hx).resolve_left hxref
      obtain ⟨x, rfl⟩ : ∃ z, x = shift ref 1 z := ⟨_, (shift_unshift hxref).symm⟩
      rw [unshift_shift] at hlive
      by_cases hxr : x = ref
      · obtain ⟨a, ha⟩ := hf.dests (h.live_p hf hr).1 (h.live_p hf hr).2
        rw [hxr, h.op_op, Function.update_of_ne h.d_ne.symm]
        exact ⟨a, congrArg (Operand.relocate _) ha⟩
      · obtain ⟨a, ha⟩ := hf.dests hlive ((h.index_shift hlive).1.symm.trans hval)
        rw [h.insn x (live_inRange hlive) hxr]
        exact ⟨a, congrArg (Operand.relocate _) ha⟩

theorem pushed_acyclic : Acyclic g :=
  ⟨pushedRank rank ref, fun hx hk => (h.pushed_ref hf hrank hr hx hk).2.2⟩

omit hrank in
/-- **What the operation behind the CMOV computes** is what the CMOV chose, exactly where the
operation of the first arm is right. -/
theorem pushed_eq_iff (hv : Valuation env f v) (hw : Valuation env g w)
    (hp : ∀ k y, (f.insn p).op k = .ref y → w (shift ref 1 y) = v y)
    (hq : ∀ k y, (f.insn q).op k = .ref y → w (shift ref 1 y) = v y)
    (hc : ∀ y, (f.insn ref).op 3 = .ref y → w (shift ref 1 y) = v y) :
    w (shift ref 1 ref) = v ref ↔ PushedExact env f v (f.insn ref) p q d := by
  have hlivep := h.live_p hf hr
  have hargs : ∀ {r}, (∀ k y, (f.insn r).op k = .ref y → w (shift ref 1 y) = v y) →
      ∀ k, operandValue env w (((f.insn r).op k).relocate (shift ref 1)) =
        args env v (f.insn r) k := fun {r} hr k =>
    (operandValue_relocate _).trans (operandValue_congr (hr k))
  have hcond : operandValue env w (((f.insn ref).op 3).relocate (shift ref 1)) =
      operandValue env v ((f.insn ref).op 3) :=
    (operandValue_relocate _).trans (operandValue_congr hc)
  -- the CMOV that is put in chooses between the operands in which the arms differ
  have hwref := cmov_eq hw (h.live_ref hr) h.cmov_index
  rw [h.cmov_op] at hwref
  change w ref = if operandValue env w (((f.insn ref).op 3).relocate (shift ref 1)) ≠ 0 then
    operandValue env w (((f.insn p).op d).relocate (shift ref 1)) else
      operandValue env w (((f.insn q).op d).relocate (shift ref 1)) at hwref
  rw [hcond, hargs hp, hargs hq] at hwref
  have hop : args env w (g.insn (shift ref 1 ref)) =
      Function.update (args env v (f.insn p)) d (w ref) := by
    funext k
    rw [args, h.op_op]
    by_cases hk : k = d
    · rw [hk, Function.update_self, Function.update_self]
      rfl
    · rw [Function.update_of_ne hk, Function.update_of_ne hk]
      exact hargs hp k
  have hval : (g.insn (shift ref 1 ref)).index.isValue = true := by
    rw [h.op_index]
    exact hlivep.2
  have hwop : w (shift ref 1 ref) = compute env p.bb (f.unitNo p) (f.insn p).index
      (Function.update (args env v (f.insn p)) d (w ref)) := by
    rw [hw.eq ((h.live_shift hr).2 hr) hval, value, hop, h.op_index]
    exact compute_pure h.isPure _ _ _ _ _
  have hvref := cmov_eq hv hr h.outer
  rw [h.arm1, h.arm2] at hvref
  change v ref = if operandValue env v ((f.insn ref).op 3) ≠ 0 then v p else v q at hvref
  rw [PushedExact, hwop, hvref, hwref]
  by_cases hcv : operandValue env v ((f.insn ref).op 3) = 0
  · rw [if_neg (not_not.2 hcv), if_neg (not_not.2 hcv)]
    exact ⟨fun h _ => h, fun h => h hcv⟩
  · rw [if_pos hcv, if_pos hcv, Function.update_eq_self]
    exact iff_of_true (hv.eq hlivep.1 hlivep.2).symm fun h => absurd h hcv

/-- **The values follow where the pushed operation is right**, by induction on the rank. -/
theorem pushed_values (hv : Valuation env f v) (hw : Valuation env g w)
    (hexact : PushedExact env f v (f.insn ref) p q d) :
    f.Live x → (f.insn x).index.isValue → w (shift ref 1 x) = v x := by
  refine rank_induction
    (P := fun x => f.Live x → (f.insn x).index.isValue → w (shift ref 1 x) = v x)
    rank (fun x ih hx hval => ?_) x
  by_cases hxref : x = ref
  · subst hxref
    refine (h.pushed_eq_iff hf hr hv hw (fun k y hk => ?_) (fun k y hk => ?_) fun y hk => ?_).2
      hexact
    · obtain ⟨hy, hyval, hlt⟩ := h.below_p hf hrank hr hk
      exact ih y hlt hy hyval
    · obtain ⟨hy, hyval, hlt⟩ := h.below_q hf hrank hr hk
      exact ih y hlt hy hyval
    · obtain ⟨hy, hyval, hlt⟩ := refs_below hf hrank hr hk
      exact ih y hlt hy hyval
  · have hbb : (shift ref 1 x).bb = x.bb := by
      obtain ⟨-, hshift⟩ | ⟨-, hshift⟩ := shift_cases ref 1 x <;> rw [hshift]
    refine value_follows _ hv hw hx hval ((h.live_shift hr).2 hx) hbb
      (h.insn x (live_inRange hx) hxref) (h.unitNo_shift hx) fun k y hk => ?_
    obtain ⟨hy, hyval, hlt⟩ := refs_below hf hrank hx hk
    exact ih y hlt hy hyval

end Pushed

end Push

end Cuc
end Or1ksim
