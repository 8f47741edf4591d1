import Or1ksim.Cuc.RegDep

/-!
# References read the last definition

* `lastUsed_index` — where in a block a register is defined last;
* `visited_of_path` — the search finds every block of a path;
* `join_value` — a `cmov` at the head of a block, or what became of it, passes on the register;
* `regDep_reads_last_definition` — **along every path, a register operand that became a reference
  reads the value of the last definition of the register**.
-/

namespace Or1ksim
namespace Cuc

variable {W : ℕ}

/-! ### Definitions at the head of a block -/

section Defines

@[simp] theorem destOf_none : destOf (.none : Operand W) = none := rfl

@[simp] theorem destOf_lrbb : destOf (.lrbb : Operand W) = none := rfl

@[simp] theorem destOf_const (c : BitVec W) : destOf (.const c) = none := rfl

@[simp] theorem destOf_register (r : BitVec W) : destOf (.register r) = none := rfl

@[simp] theorem destOf_ref (q : Ref) : destOf (.ref q : Operand W) = none := rfl

variable (hW : W = 32 ∨ W = 64)
include hW

theorem destOf_reg {r : ℕ} (hr : r < maxRegs) : destOf (.dest (BitVec.ofNat W r)) = some r := by
  have hlt : r < 2 ^ 31 := hr.trans (by decide)
  have hnat : (BitVec.ofNat W r).toNat = r := by
    rw [BitVec.toNat_ofNat, Nat.mod_eq_of_lt]
    rcases hW with rfl | rfl <;> omega
  have hlow : ((BitVec.ofNat W r).setWidth 32).toNat = r := by
    rw [BitVec.toNat_setWidth, hnat, Nat.mod_eq_of_lt (by omega)]
  rw [destOf, hnat, if_pos]
  rw [BitVec.toInt_eq_toNat_of_lt (by omega)]
  exact Int.natCast_nonneg _

theorem lrbbInsn_defines {r : ℕ} : (lrbbInsn : Insn W).defines r = decide (lrbbReg = r) := by
  have h := destOf_reg hW (r := lrbbReg) (by decide)
  simp [Insn.defines, lrbbInsn, List.finRange_succ, h, Bool.beq_eq_decide_eq]

theorem cmovInsn_defines {j r : ℕ} (hj : j < maxRegs) :
    (cmovInsn j : Insn W).defines r = decide (j = r) := by
  have h := destOf_reg hW hj
  simp [Insn.defines, cmovInsn, List.finRange_succ, h, Bool.beq_eq_decide_eq]

end Defines

/-- Instruction `r` at the head of a block is the only one there to define register `r`. -/
def Heads (f : Func W) : Prop :=
  ∀ b i r, i < headInsns → 1 ≤ r → r < headInsns → (f.insn ⟨b, i⟩).defines r = decide (i = r)

theorem buildBb_heads (hW : W = 32 ∨ W = 64) (gr : Graph W) : Heads (buildBb gr).toFunc := by
  intro b i r hi hr hr'
  by_cases h0 : i = 0
  · subst h0
    have hinsn : (buildBb gr).insn ⟨b, 0⟩ = lrbbInsn := rfl
    have hne : lrbbReg ≠ r := Nat.ne_of_gt hr'
    rw [hinsn, lrbbInsn_defines hW, decide_eq_false hne, decide_eq_false (by omega)]
  · have hinsn : (buildBb gr).insn ⟨b, i⟩ = cmovInsn i := by
      change builtInsn gr ⟨b, i⟩ = _
      rw [builtInsn, if_neg h0, if_pos hi]
    rw [hinsn, cmovInsn_defines hW (hi.trans (by decide))]

section LastUsed

variable {f g : Func W} {b : ℕ} {lur lur' : LastUsed} {n r : ℕ}

theorem lastUsedFrom_congr (h : ∀ q r, (f.insn q).defines r = (g.insn q).defines r) (i : ℕ) :
    lastUsedFrom f b lur i = lastUsedFrom g b lur i := by
  induction i with
  | zero => rfl
  | succ i ih =>
    funext r
    simp only [lastUsedFrom, LastUsed.add, ih, h]

/-- A register is defined last by its instruction at the head of the block, or behind the head. -/
theorem lastUsed_index (hf : Heads f) (hr : 1 ≤ r) (hr' : r < headInsns) (hn : r < n) :
    ∃ j, j < n ∧ (j = r ∨ headInsns ≤ j) ∧ ∀ lur, lastUsedFrom f b lur n r = some ⟨b, j⟩ := by
  induction n with
  | zero => exact absurd hn (Nat.not_lt_zero r)
  | succ n ih =>
    by_cases hdef : (f.insn ⟨b, n⟩).defines r
    · refine ⟨n, Nat.lt_succ_self n, ?_, fun lur => ?_⟩
      · by_contra! hne
        rw [hf b n r hne.2 hr hr'] at hdef
        exact hne.1 (of_decide_eq_true hdef)
      · rw [lastUsedFrom, LastUsed.add, if_pos hdef]
    · have hlt : r < n := by
        refine Nat.lt_of_le_of_ne (Nat.lt_succ_iff.1 hn) ?_
        rintro rfl
        rw [hf b r r hr' hr hr'] at hdef
        exact hdef (decide_eq_true rfl)
      obtain ⟨j, hj, hcase, hlast⟩ := ih hlt
      refine ⟨j, Nat.lt_succ_of_lt hj, hcase, fun lur => ?_⟩
      rw [lastUsedFrom, LastUsed.add, if_neg hdef, hlast]

/-- Before its instruction at the head, a register has its initial reference. -/
theorem lastUsedFrom_head (hf : Heads f) (hr : 1 ≤ r) (hr' : r < headInsns) (hn : n ≤ r) :
    lastUsedFrom f b lur n r = lur r := by
  induction n with
  | zero => rfl
  | succ n ih =>
    have hdef : (f.insn ⟨b, n⟩).defines r = false := by
      rw [hf b n r (by omega) hr hr', decide_eq_false (by omega)]
    rw [lastUsedFrom, LastUsed.add, hdef, if_neg Bool.noConfusion, ih (by omega)]

end LastUsed

/-! ### The blocks of a path are found -/

section Reach

variable {f : Cfg W}

theorem visited_lastUsed (f : Cfg W) (b : ℕ) (h : (visited f).tmp b) :
    (visited f).lastUsed b = lastUsedReg f.toFunc b := by
  have hinv : ∀ b, (visited f).tmp b → (visited f).lastUsed b = lastUsedReg f.toFunc b := by
    refine Dfs.visit_invariant (P := fun s : Visited => ∀ b, s.tmp b → s.lastUsed b =
      lastUsedReg f.toFunc b) (fun a s hs b hb => ?_) _ _ _ fun b hb => absurd hb Bool.noConfusion
    by_cases hab : b = a
    · subst hab
      exact Function.update_self ..
    · rw [Visited.mark] at hb ⊢
      dsimp only at hb ⊢
      rw [Function.update_of_ne hab] at hb ⊢
      exact hs b hb
  exact hinv b h

theorem mem_succs {b c : ℕ} {k : Fin 2} (h : f.next b k = .bb c) : c ∈ f.succs b := by
  rw [Cfg.succs, List.mem_filterMap]
  refine ⟨f.next b k, ?_, by rw [h]; rfl⟩
  obtain rfl | rfl : k = 0 ∨ k = 1 := by omega
  · exact List.mem_cons_self
  · exact List.mem_cons_of_mem _ List.mem_cons_self

theorem succs_lt {gr : Graph W} (hgr : gr.Linked) {a b : ℕ} (ha : a < gr.numBb)
    (hb : b ∈ (buildBb gr).succs a) : b < gr.numBb := by
  rw [Cfg.succs, List.mem_filterMap] at hb
  obtain ⟨l, hl, hlb⟩ := hb
  cases l with
  | bb c =>
    obtain rfl : c = b := Option.some.inj hlb
    rcases List.mem_cons.1 hl with h | h
    · exact hgr.lt ha h.symm
    · exact hgr.lt ha (List.mem_singleton.1 h).symm
  | _ => exact nomatch hlb

theorem path_reach {g : Cfg W} {b : ℕ} {bs : List ℕ} (h : Path g (b :: bs)) :
    Relation.ReflTransGen (fun a c => c ∈ g.succs a) 0 b := by
  generalize hl : b :: bs = l at h
  induction h generalizing b bs with
  | start =>
    cases hl
    exact .refl
  | step _ hk ih =>
    cases hl
    exact (ih rfl).tail (mem_succs hk)

/-- **The search finds the blocks of every path.** -/
theorem visited_of_path {gr : Graph W} (hgr : gr.Linked) {b : ℕ} {bs : List ℕ}
    (h : Path (buildBb gr) (b :: bs)) : b < gr.numBb ∧ (visited (buildBb gr)).tmp b := by
  have hreach := path_reach h
  constructor
  · clear h
    induction hreach with
    | refl => exact hgr.pos
    | tail _ hbc ih => exact succs_lt hgr ih hbc
  · refine Dfs.visit_reachable (U := Finset.range gr.numBb) (fun a s b => ?_)
      (fun a ha b hb => ?_) (Finset.mem_range.2 hgr.pos) (fun _ => rfl) ?_ hreach
    · rw [Visited.mark]
      dsimp only
      by_cases hab : b = a
      · rw [hab, Function.update_self, decide_eq_true rfl, Bool.true_or]
      · rw [Function.update_of_ne hab, decide_eq_false hab, Bool.false_or]
    · exact Finset.mem_range.2 (succs_lt hgr (Finset.mem_range.1 ha) hb)
    · rw [Finset.card_range]
      exact Nat.lt_succ_self _

end Reach

/-! ### What becomes of the instructions -/

section Insns

variable {f g : Cfg W} {q : Ref}

theorem regDep_eq (h : regDep f = some g) : g.numBb = f.numBb ∧ g.ninsn = f.ninsn ∧
    g.prev = f.prev ∧ ∀ q, ∃ out, g.insn q =
      { removeUnused (withPreds f) q (assignRefs (withPreds f) q) with output := out } := by
  unfold regDep at h
  split_ifs at h
  cases h
  exact ⟨rfl, rfl, rfl, fun q => ⟨_, rfl⟩⟩

/-- The references an instruction of a block gets its registers from. -/
def useBefore (f : Cfg W) (q : Ref) : LastUsed :=
  lastUsedFrom (withPreds f) q.bb (initialUse (withPreds f) q.bb) q.i

/-- An instruction that is not removed keeps its index and has its registers resolved. -/
theorem regDep_insn (h : regDep f = some g) (hb : q.bb < f.numBb) (hi : q.i < f.ninsn q.bb)
    (hkeep : isReferred (withPreds f) q ∨ ((withPreds f).insn q).unused = false) :
    (g.insn q).index = ((withPreds f).insn q).index ∧
      ∀ k, (g.insn q).op k = resolve (useBefore f q) (((withPreds f).insn q).op k) := by
  obtain ⟨-, -, -, hinsn⟩ := regDep_eq h
  obtain ⟨out, hout⟩ := hinsn q
  have hassign : assignRefs (withPreds f) q = { (withPreds f).insn q with
      op := fun k => resolve (useBefore f q) (((withPreds f).insn q).op k) } := by
    rw [assignRefs, if_pos ⟨hb, hi⟩]
    rfl
  rw [hout, removeUnused, hassign]
  rcases hkeep with href | hunused
  · rw [if_pos href]
    exact ⟨rfl, fun k => rfl⟩
  · split_ifs with hr hun
    · exact ⟨rfl, fun k => rfl⟩
    · exact absurd hun.2.2 (by rw [hunused]; exact Bool.noConfusion)
    · exact ⟨rfl, fun k => rfl⟩

theorem joinInsn_defines {b j r : ℕ} (pa pb : Option Ref) :
    (joinInsn b (cmovInsn j : Insn W) pa pb).defines r = (cmovInsn j : Insn W).defines r := by
  cases pa <;> cases pb <;>
    simp [Insn.defines, joinInsn, cmovInsn, List.finRange_succ, Function.update]

theorem joinInsn_unused {b j : ℕ} (pa pb : Option Ref) :
    (joinInsn b (cmovInsn j : Insn W) pa pb).unused = false := by
  cases pa <;> cases pb <;> rfl

variable {gr : Graph W}

theorem buildBb_insn_zero (b : ℕ) : (buildBb gr).insn ⟨b, 0⟩ = lrbbInsn := rfl

theorem buildBb_insn_head {b j : ℕ} (hj : 1 ≤ j) (hj' : j < headInsns) :
    (buildBb gr).insn ⟨b, j⟩ = cmovInsn j := by
  change builtInsn gr ⟨b, j⟩ = _
  rw [builtInsn, if_neg (Nat.one_le_iff_ne_zero.1 hj), if_pos hj']

theorem withPreds_head {b j : ℕ} (hb : b < gr.numBb) (hj : 1 ≤ j) (hj' : j < headInsns) :
    (withPreds (buildBb gr)).insn ⟨b, j⟩ = joinInsn b (cmovInsn j)
      (predUse (visited (buildBb gr)).lastUsed (gr.prev b 0) j)
      (predUse (visited (buildBb gr)).lastUsed (gr.prev b 1) j) := by
  change setPreds (buildBb gr) _ ⟨b, j⟩ = _
  rw [setPreds, if_pos ⟨hb, hj, hj'⟩, buildBb_insn_head hj hj']
  rfl

theorem withPreds_body {b i : ℕ} (hi : headInsns ≤ i) :
    (withPreds (buildBb gr)).insn ⟨b, i⟩ = (buildBb gr).insn ⟨b, i⟩ := by
  change setPreds (buildBb gr) _ ⟨b, i⟩ = _
  rw [setPreds, if_neg (fun h => absurd h.2.2 (Nat.not_lt.2 hi))]

theorem withPreds_zero (b : ℕ) : (withPreds (buildBb gr)).insn ⟨b, 0⟩ = lrbbInsn := by
  change setPreds (buildBb gr) _ ⟨b, 0⟩ = _
  rw [setPreds, if_neg (fun h => absurd h.2.1 (Nat.not_succ_le_zero 0)), buildBb_insn_zero]

theorem withPreds_defines (q : Ref) (r : ℕ) :
    ((withPreds (buildBb gr)).insn q).defines r = ((buildBb gr).insn q).defines r := by
  change (setPreds (buildBb gr) _ q).defines r = _
  rw [setPreds]
  split
  case isTrue h =>
    obtain ⟨b, j⟩ := q
    rw [buildBb_insn_head h.2.1 h.2.2, joinInsn_defines]
  case isFalse => rfl

end Insns

/-! ### Wires of a block -/

section Wires

variable {g : Func W} {e : Env} {b n : ℕ} {v : Ref → Word} {q : Ref}

theorem slotValue_move (hindex : (g.insn q).index = .add) (hop : (g.insn q).op 2 = .const 0) :
    slotValue g e v q = operandValue e v ((g.insn q).op 1) := by
  rw [slotValue, hindex, compute, args, args, hop]
  simp [operandValue, low]

theorem slotValue_cmov {t t' q' : Ref} (hindex : (g.insn q).index = .cmov)
    (h₁ : (g.insn q).op 1 = .ref t) (h₂ : (g.insn q).op 2 = .ref t')
    (h₃ : (g.insn q).op 3 = .ref q') :
    slotValue g e v q = if v q' ≠ 0 then v t else v t' := by
  rw [slotValue, hindex, compute, args, args, args, h₁, h₂, h₃]
  rfl

theorem sourceInsns_head {f : Func W} {env : PathEnv} {tr : Trace} (hn : n ≤ headInsns) :
    sourceInsns f env e b n tr = tr := by
  induction n with
  | zero => rfl
  | succ n ih =>
    rw [sourceInsns, ih (Nat.le_of_succ_le hn)]
    exact if_neg (Nat.not_le.2 hn)

end Wires

/-! ### The head of a block -/

section Head

variable {gr : Graph W} {g : Cfg W} {env : PathEnv} {e : Env} {b p r : ℕ} {v : Ref → Word}

/-- What the references out of the block before hold when a block is entered. -/
structure Entered (gr : Graph W) (p b : ℕ) (v : Ref → Word) (val : ℕ → Word) : Prop where
  seen : (visited (buildBb gr)).tmp p
  link : gr.prev b 0 = .bb p ∨ gr.prev b 1 = .bb p
  holds : ∀ r t, 1 ≤ r → r < headInsns → lastUsedReg (buildBb gr).toFunc p r = some t →
    v t = val r

theorem headInsns_le_ninsn {b : ℕ} (hb : b < gr.numBb) : headInsns ≤ (buildBb gr).ninsn b := by
  have hsome : gr.blocks[b]? = some gr.blocks[b] := List.getElem?_eq_getElem hb
  change headInsns ≤ gr.blocks[b]?.elim _ _
  rw [hsome, Option.elim_some]
  cases gr.blocks[b].last with
  | none => exact Nat.le_refl _
  | some last => exact Nat.le_add_left _ _

/-- A `cmov` that refers to the `lrbb` of its block keeps it. -/
theorem lrbb_referred (hb : b < gr.numBb) (hr : 1 ≤ r) (hr' : r < headInsns) {pa pb : Ref}
    (hpa : predUse (visited (buildBb gr)).lastUsed (gr.prev b 0) r = some pa)
    (hpb : predUse (visited (buildBb gr)).lastUsed (gr.prev b 1) r = some pb) :
    isReferred (withPreds (buildBb gr)) ⟨b, 0⟩ := by
  rw [isReferred, List.any_eq_true]
  refine ⟨b, List.mem_range.2 hb, ?_⟩
  rw [List.any_eq_true]
  refine ⟨r, List.mem_range.2 (hr'.trans_le (headInsns_le_ninsn hb)), ?_⟩
  rw [List.any_eq_true]
  refine ⟨3, List.mem_finRange 3, ?_⟩
  rw [withPreds_head hb hr hr', hpa, hpb]
  simp [joinInsn]

theorem lrbb_value (hreg : regDep (buildBb gr) = some g) (hb : b < gr.numBb) {t : ℕ} {left : Bool}
    (href : isReferred (withPreds (buildBb gr)) ⟨b, 0⟩) (hn : 0 < r) :
    slotInsns g.toFunc (env.block t left) b r v ⟨b, 0⟩ = flag left := by
  have hi : 0 < (buildBb gr).ninsn b :=
    Nat.lt_of_lt_of_le (by decide) (headInsns_le_ninsn hb)
  obtain ⟨hindex, -⟩ := regDep_insn (q := ⟨b, 0⟩) hreg hb hi (.inl href)
  rw [withPreds_zero] at hindex
  rw [slotInsns_of_lt hn, slotValue, hindex]
  rfl

/-- A reference out of the block before has not been overwritten when the head comes to it. -/
theorem slotInsns_pred (hW : W = 32 ∨ W = 64) (hr : 1 ≤ r) (hr' : r < headInsns)
    (hp : p < gr.numBb) {t : Ref} (ht : lastUsedReg (buildBb gr).toFunc p r = some t) :
    slotInsns g.toFunc e b r v t = v t := by
  obtain ⟨j, -, hj, hlast⟩ := lastUsed_index (b := p) (buildBb_heads hW gr) hr hr'
    (hr'.trans_le (headInsns_le_ninsn hp))
  rw [lastUsedReg, hlast] at ht
  obtain rfl := Option.some.inj ht
  refine slotInsns_of_not (.inr ?_)
  change r ≤ j
  omega

/-- The last definition in the block before, as the `cmov`s find it. -/
theorem Entered.predUse_eq {val : ℕ → Word} (hW : W = 32 ∨ W = 64) (h : Entered gr p b v val)
    (hp : p < gr.numBb) (hr : 1 ≤ r) (hr' : r < headInsns) :
    ∃ t, predUse (visited (buildBb gr)).lastUsed (.bb p) r = some t ∧
      lastUsedReg (buildBb gr).toFunc p r = some t := by
  obtain ⟨j, -, -, hlast⟩ := lastUsed_index (b := p) (buildBb_heads hW gr) hr hr'
    (hr'.trans_le (headInsns_le_ninsn hp))
  refine ⟨⟨p, j⟩, ?_, hlast _⟩
  change (visited (buildBb gr)).lastUsed p r = _
  rw [visited_lastUsed _ p h.seen]
  exact hlast _

/-- **A register enters a block by its `cmov`**, or by the move that became of it. -/
theorem join_value {val : ℕ → Word} {t : ℕ} (hW : W = 32 ∨ W = 64)
    (hreg : regDep (buildBb gr) = some g) (hb : b < gr.numBb) (hp : p < gr.numBb)
    (h : Entered gr p b v val) (hr : 1 ≤ r) (hr' : r < headInsns) :
    let e := env.block t (gr.prev b 0 == .bb p)
    slotValue g.toFunc e (slotInsns g.toFunc e b r v) ⟨b, r⟩ = val r := by
  intro e
  obtain ⟨tp, hpred, htp⟩ := h.predUse_eq hW hp hr hr'
  have hval : slotInsns g.toFunc e b r v tp = val r :=
    (slotInsns_pred hW hr hr' hp htp).trans (h.holds r tp hr hr' htp)
  have hunused : ((withPreds (buildBb gr)).insn ⟨b, r⟩).unused = false := by
    rw [withPreds_head hb hr hr']
    exact joinInsn_unused _ _
  obtain ⟨hindex, hop⟩ := regDep_insn (q := ⟨b, r⟩) hreg hb
    (hr'.trans_le (headInsns_le_ninsn hb)) (.inr hunused)
  rw [withPreds_head hb hr hr'] at hindex hop
  cases hpa : predUse (visited (buildBb gr)).lastUsed (gr.prev b 0) r with
  | none =>
    have hlink : gr.prev b 1 = .bb p := by
      refine h.link.resolve_left fun h0 => ?_
      rw [h0, hpred] at hpa
      exact nomatch hpa
    rw [hpa, hlink, hpred] at hindex hop
    rw [slotValue_move hindex (hop 2), hop 1]
    exact hval
  | some pa =>
    cases hpb : predUse (visited (buildBb gr)).lastUsed (gr.prev b 1) r with
    | none =>
      have hlink : gr.prev b 0 = .bb p := by
        refine h.link.resolve_right fun h1 => ?_
        rw [h1, hpred] at hpb
        exact nomatch hpb
      rw [hpb, hlink, hpred] at hindex hop
      rw [slotValue_move hindex (hop 2), hop 1]
      exact hval
    | some pb =>
      have href := lrbb_referred hb hr hr' hpa hpb
      rw [hpa, hpb] at hindex hop
      rw [slotValue_cmov hindex (hop 1) (hop 2) (hop 3), lrbb_value hreg hb href hr]
      by_cases hleft : gr.prev b 0 = .bb p
      · rw [hleft, hpred] at hpa
        rw [hleft, beq_self_eq_true, if_pos (by decide), ← Option.some.inj hpa, hval]
      · rw [h.link.resolve_left hleft, hpred] at hpb
        rw [beq_eq_false_iff_ne.2 hleft, if_neg (by decide), ← Option.some.inj hpb, hval]

theorem withPreds_heads (hW : W = 32 ∨ W = 64) (gr : Graph W) :
    Heads (withPreds (buildBb gr)) := by
  intro b i r hi hr hr'
  rw [withPreds_defines, buildBb_heads hW gr b i r hi hr hr']

/-- **The first block reads the input registers** when it is entered first. -/
theorem start_value (hW : W = 32 ∨ W = 64) (hgr : gr.Linked) (hreg : regDep (buildBb gr) = some g)
    (he : e.reg = env.reg) (hr : 1 ≤ r) (hr' : r < headInsns) :
    slotValue g.toFunc e (slotInsns g.toFunc e 0 r v) ⟨0, r⟩ = env.reg r := by
  have hunused : ((withPreds (buildBb gr)).insn ⟨0, r⟩).unused = false := by
    rw [withPreds_head hgr.pos hr hr']
    exact joinInsn_unused _ _
  obtain ⟨hindex, hop⟩ := regDep_insn (q := ⟨0, r⟩) hreg hgr.pos
    (hr'.trans_le (headInsns_le_ninsn hgr.pos)) (.inr hunused)
  rw [withPreds_head hgr.pos hr hr', hgr.start, hgr.single] at hindex hop
  have hlt : r < 2 ^ W := by
    have h33 : r < 33 := hr'
    rcases hW with rfl | rfl <;> omega
  have hnat : (BitVec.ofNat W r).toNat = r := by rw [BitVec.toNat_ofNat, Nat.mod_eq_of_lt hlt]
  have hne : BitVec.ofNat W r ≠ 0 := by
    intro h0
    rw [h0] at hnat
    simp at hnat
    omega
  have huse : useBefore (buildBb gr) ⟨0, r⟩ r = none := by
    rw [useBefore, lastUsedFrom_head (withPreds_heads hW gr) hr hr' (Nat.le_refl r), initialUse,
      if_neg fun h => Nat.ne_of_lt hr' h.1]
  have hop1 : (g.insn ⟨0, r⟩).op 1 = .register (BitVec.ofNat W r) := by
    rw [hop 1]
    change resolve _ (.register (BitVec.ofNat W r)) = _
    rw [resolve, if_neg hne, hnat, huse]
  rw [slotValue_move hindex (hop 2), hop1, operandValue, hnat, he]

end Head

/-! ### The body of a block -/

section Body

variable {gr : Graph W} {g : Cfg W} {env : PathEnv} {b n : ℕ} {v : Ref → Word} {tr : Trace}

theorem lastValue_cons {f : Func W} (q : Ref) (x : Word) (r : ℕ) :
    lastValue f env ((q, x) :: tr) r =
      if (f.insn q).defines r then x else lastValue f env tr r := by
  rw [lastValue, List.find?_cons]
  cases h : (f.insn q).defines r with
  | true => rfl
  | false => rfl

theorem lastOf_cons (q q' : Ref) (x : Word) :
    lastOf env ((q, x) :: tr) q' = if q = q' then x else lastOf env tr q' := by
  rw [lastOf, List.find?_cons]
  by_cases h : q = q'
  · rw [if_pos h, beq_iff_eq.2 h]
    rfl
  · rw [if_neg h, beq_eq_false_iff_ne.2 h]
    rfl

/-- The wires follow the registers before instruction `n` of block `b`. -/
structure Follows (gr : Graph W) (env : PathEnv) (b n : ℕ) (v : Ref → Word) (tr : Trace) :
    Prop where
  regs : ∀ r t, 1 ≤ r → r < headInsns →
    lastUsedFrom (buildBb gr).toFunc b (fun _ => none) n r = some t →
      v t = lastValue (buildBb gr).toFunc env tr r
  wires : ∀ q : Ref, headInsns ≤ q.i → v q = lastOf env tr q

/-- The registers the loaded instructions read are those of the machine and the flag. -/
def RegsValid (gr : Graph W) : Prop :=
  ∀ i k w, (gr.insn i).op k = .register w → w.toNat < lrbbReg

/-- Behind the head of a block, a register operand has a reference. -/
theorem useBefore_eq (hW : W = 32 ∨ W = 64) {r : ℕ} (hr : 1 ≤ r) (hr' : r < headInsns)
    (hn : r < n) : ∃ t, useBefore (buildBb gr) ⟨b, n⟩ r = some t ∧
      lastUsedFrom (buildBb gr).toFunc b (fun _ => none) n r = some t := by
  obtain ⟨j, -, -, hlast⟩ := lastUsed_index (b := b) (buildBb_heads hW gr) hr hr' hn
  refine ⟨⟨b, j⟩, ?_, hlast _⟩
  rw [useBefore, lastUsedFrom_congr withPreds_defines]
  exact hlast _

theorem buildBb_op_body (hn : headInsns ≤ n) (k : OperandNo) :
    ∃ i, ((buildBb gr).insn ⟨b, n⟩).op k = relocRef gr.blocks b ((gr.insn i).op k) := by
  change ∃ i, (builtInsn gr ⟨b, n⟩).op k = _
  have h0 : n ≠ 0 := Nat.ne_of_gt (Nat.lt_of_lt_of_le (by decide) hn)
  rw [builtInsn, if_neg h0, if_neg (Nat.not_lt.2 hn)]
  exact ⟨_, rfl⟩

/-- A register operand behind the head is one of the machine's registers or the flag. -/
theorem register_lt (hregs : RegsValid gr) (hn : headInsns ≤ n) {k : OperandNo} {w : BitVec W}
    (hop : ((buildBb gr).insn ⟨b, n⟩).op k = .register w) : w.toNat < headInsns := by
  obtain ⟨i, hi⟩ := buildBb_op_body (b := b) hn k
  rw [hi] at hop
  cases hk : (gr.insn i).op k with
  | register w' =>
    rw [hk, relocRef] at hop
    · cases hop
      exact hregs i k w hk
    · nofun
  | ref q => rw [hk, relocRef] at hop; exact nomatch hop
  | _ => rw [hk] at hop; exact nomatch hop

/-- A reference that was there behind the head leads behind a head. -/
theorem ref_ge (hn : headInsns ≤ n) {k : OperandNo} {q : Ref}
    (hop : ((buildBb gr).insn ⟨b, n⟩).op k = .ref q) : headInsns ≤ q.i := by
  obtain ⟨i, hi⟩ := buildBb_op_body (b := b) hn k
  rw [hi] at hop
  cases hk : (gr.insn i).op k with
  | ref q' =>
    rw [hk, relocRef] at hop
    cases hop
    exact Nat.le_add_left _ _
  | _ => rw [hk] at hop; exact nomatch hop

/-- **An operand has the value it had**, whether it was resolved or not. -/
theorem operand_value {e : Env} (hW : W = 32 ∨ W = 64) (hregs : RegsValid gr)
    (hn : headInsns ≤ n) (h : Follows gr env b n v tr) (k : OperandNo) :
    operandValue e v (resolve (useBefore (buildBb gr) ⟨b, n⟩)
      (((buildBb gr).insn ⟨b, n⟩).op k)) =
        sourceOperand (buildBb gr).toFunc env tr (((buildBb gr).insn ⟨b, n⟩).op k) := by
  cases hop : ((buildBb gr).insn ⟨b, n⟩).op k with
  | register w =>
    have hlt := register_lt hregs hn hop
    rw [resolve, sourceOperand]
    split
    case isTrue => simp [operandValue, low]
    case isFalse hne =>
      have hpos : 1 ≤ w.toNat := by
        rw [Nat.one_le_iff_ne_zero]
        exact fun h0 => hne (BitVec.eq_of_toNat_eq (h0.trans (BitVec.toNat_zero).symm))
      obtain ⟨t, huse, hlast⟩ := useBefore_eq (b := b) hW hpos hlt (hlt.trans_le hn)
      rw [huse]
      exact h.regs _ t hpos hlt hlast
  | ref q => exact h.wires q (ref_ge hn hop)
  | _ => rfl

/-- No loaded instruction is marked for removal. -/
def NoneUnused (gr : Graph W) : Prop := ∀ i, (gr.insn i).unused = false

/-- An instruction behind the head keeps its index, and its registers are resolved. -/
theorem regDep_insn_body (hunused : NoneUnused gr) (hreg : regDep (buildBb gr) = some g)
    (hb : b < gr.numBb) (hn : headInsns ≤ n) (hn' : n < (buildBb gr).ninsn b) :
    (g.insn ⟨b, n⟩).index = ((buildBb gr).insn ⟨b, n⟩).index ∧
      ∀ k, (g.insn ⟨b, n⟩).op k =
        resolve (useBefore (buildBb gr) ⟨b, n⟩) (((buildBb gr).insn ⟨b, n⟩).op k) := by
  have hclear : ((withPreds (buildBb gr)).insn ⟨b, n⟩).unused = false := by
    have h0 : n ≠ 0 := Nat.ne_of_gt (Nat.lt_of_lt_of_le (by decide) hn)
    rw [withPreds_body hn]
    change (builtInsn gr ⟨b, n⟩).unused = false
    rw [builtInsn, if_neg h0, if_neg (Nat.not_lt.2 hn)]
    exact hunused _
  have hinsn := regDep_insn (q := ⟨b, n⟩) hreg hb hn' (.inr hclear)
  rwa [withPreds_body hn] at hinsn

/-- **An instruction computes what it computed**. -/
theorem slotValue_body {e : Env} (hW : W = 32 ∨ W = 64) (hregs : RegsValid gr)
    (hunused : NoneUnused gr) (hreg : regDep (buildBb gr) = some g) (hb : b < gr.numBb)
    (hn : headInsns ≤ n) (hn' : n < (buildBb gr).ninsn b) (h : Follows gr env b n v tr) :
    slotValue g.toFunc e v ⟨b, n⟩ = sourceValue (buildBb gr).toFunc env e tr ⟨b, n⟩ := by
  obtain ⟨hindex, hop⟩ := regDep_insn_body hunused hreg hb hn hn'
  rw [slotValue, sourceValue, hindex]
  congr 1
  funext k
  rw [args, hop k, operand_value hW hregs hn h k]

theorem Follows.step {e : Env} {x : Word} (hW : W = 32 ∨ W = 64) (hn : headInsns ≤ n)
    (h : Follows gr env b n v tr) (hx : slotValue g.toFunc e v ⟨b, n⟩ = x) :
    Follows gr env b (n + 1) (Function.update v ⟨b, n⟩ (slotValue g.toFunc e v ⟨b, n⟩))
      ((⟨b, n⟩, x) :: tr) := by
  rw [hx]
  refine ⟨fun r t hr hr' ht => ?_, fun q hq => ?_⟩
  · rw [lastValue_cons]
    rw [lastUsedFrom, LastUsed.add] at ht
    split
    case isTrue hdef =>
      rw [if_pos hdef] at ht
      rw [← Option.some.inj ht, Function.update_self]
    case isFalse hdef =>
      rw [if_neg hdef] at ht
      obtain ⟨j, hj, -, hlast⟩ := lastUsed_index (b := b) (buildBb_heads hW gr) hr hr'
        (hr'.trans_le hn)
      have hne : t ≠ ⟨b, n⟩ := by
        rw [hlast] at ht
        rintro rfl
        exact Nat.ne_of_lt hj (congrArg Ref.i (Option.some.inj ht))
      rw [Function.update_of_ne hne]
      exact h.regs r t hr hr' ht
  · rw [lastOf_cons]
    by_cases hqn : q = ⟨b, n⟩
    · rw [hqn, Function.update_self, if_pos rfl]
    · rw [Function.update_of_ne hqn, if_neg (Ne.symm hqn)]
      exact h.wires q hq

/-- The head of a block, when its `cmov`s pass the registers on. -/
theorem follows_head {e : Env} (hW : W = 32 ∨ W = 64) {f : Func W}
    (hjoin : ∀ r, 1 ≤ r → r < headInsns →
      slotValue g.toFunc e (slotInsns g.toFunc e b r v) ⟨b, r⟩ =
        lastValue (buildBb gr).toFunc env tr r)
    (hwires : ∀ q : Ref, headInsns ≤ q.i → v q = lastOf env tr q) :
    Follows gr env b headInsns (slotInsns g.toFunc e b headInsns v)
      (sourceInsns f env e b headInsns tr) := by
  rw [sourceInsns_head (Nat.le_refl _)]
  refine ⟨fun r t hr hr' ht => ?_, fun q hq => ?_⟩
  · obtain ⟨j, hj, hcase, hlast⟩ := lastUsed_index (b := b) (buildBb_heads hW gr) hr hr' hr'
    obtain rfl : j = r := hcase.resolve_right (Nat.not_le.2 hj)
    rw [hlast] at ht
    rw [← Option.some.inj ht, slotInsns_of_lt hr', hjoin j hr hr']
  · rw [slotInsns_of_not (.inr hq), hwires q hq]

/-- **The wires follow the registers through a block.** -/
theorem follows_body {e : Env} (hW : W = 32 ∨ W = 64) (hregs : RegsValid gr)
    (hunused : NoneUnused gr) (hreg : regDep (buildBb gr) = some g) (hb : b < gr.numBb)
    (hhead : Follows gr env b headInsns (slotInsns g.toFunc e b headInsns v)
      (sourceInsns (buildBb gr).toFunc env e b headInsns tr))
    (hn : headInsns ≤ n) (hn' : n ≤ (buildBb gr).ninsn b) :
    Follows gr env b n (slotInsns g.toFunc e b n v)
      (sourceInsns (buildBb gr).toFunc env e b n tr) := by
  induction n, hn using Nat.le_induction with
  | base => exact hhead
  | succ n hn ih =>
    have h := ih (Nat.le_of_succ_le hn')
    have hx := slotValue_body (e := e) hW hregs hunused hreg hb hn hn' h
    have hstep := h.step hW hn hx
    rw [slotInsns, sourceInsns, if_pos hn]
    exact hstep

end Body

/-! ### Paths -/

section Paths

variable {c : Code W} {gr : Graph W} {g : Cfg W} {env : PathEnv} {b r : ℕ} {bs : List ℕ}

theorem blockEnv_eq (hreg : regDep (buildBb gr) = some g) (env : PathEnv) (b : ℕ) (bs : List ℕ) :
    blockEnv g env b bs = blockEnv (buildBb gr) env b bs := by
  rw [blockEnv, blockEnv, (regDep_eq hreg).2.2.1]

/-- The registers enter block `b` after the path `bs`. -/
def Enters (gr : Graph W) (g : Cfg W) (env : PathEnv) (b : ℕ) (bs : List ℕ) : Prop :=
  ∀ r, 1 ≤ r → r < headInsns →
    slotValue g.toFunc (blockEnv (buildBb gr) env b bs) (slotsBefore g env b bs r) ⟨b, r⟩ =
      lastValue (buildBb gr).toFunc env (sourceTrace (buildBb gr) env bs) r

/-- Where the registers enter a block, the wires follow them through it. -/
theorem Enters.follows (hW : W = 32 ∨ W = 64) (hregs : RegsValid gr) (hunused : NoneUnused gr)
    (hreg : regDep (buildBb gr) = some g) (hb : b < gr.numBb) (h : Enters gr g env b bs)
    (hwires : ∀ q : Ref, headInsns ≤ q.i →
      slots g env bs q = lastOf env (sourceTrace (buildBb gr) env bs) q)
    {n : ℕ} (hn : headInsns ≤ n) (hn' : n ≤ (buildBb gr).ninsn b) :
    Follows gr env b n (slotsBefore g env b bs n) (sourceBefore (buildBb gr) env b bs n) := by
  rw [slotsBefore, sourceBefore, blockEnv_eq hreg]
  refine follows_body hW hregs hunused hreg hb (follows_head hW (fun r hr hr' => ?_) hwires) hn hn'
  have henter := h r hr hr'
  simp only [slotsBefore, blockEnv_eq hreg] at henter
  exact henter

theorem slots_path (hreg : regDep (buildBb gr) = some g) :
    slots g env (b :: bs) = slotsBefore g env b bs ((buildBb gr).ninsn b) := by
  rw [slots, slotsBefore, (regDep_eq hreg).2.1]

variable (env) in
/-- **The registers enter every block of a path**, and the wires of the instructions behind the
heads hold what the instructions computed last. -/
theorem enters_path (hW : W = 32 ∨ W = 64) (hgr : gr.Linked) (hregs : RegsValid gr)
    (hunused : NoneUnused gr) (hreg : regDep (buildBb gr) = some g)
    (hpath : Path (buildBb gr) (b :: bs)) :
    Enters gr g env b bs ∧ ∀ q : Ref, headInsns ≤ q.i →
      slots g env bs q = lastOf env (sourceTrace (buildBb gr) env bs) q := by
  generalize hl : b :: bs = l at hpath
  induction hpath generalizing b bs with
  | start =>
    cases hl
    refine ⟨fun r hr hr' => ?_, fun q _ => rfl⟩
    simp only [slotsBefore, blockEnv_eq hreg]
    exact start_value hW hgr hreg rfl hr hr'
  | @step p b' ps k hprev hk ih =>
    cases hl
    obtain ⟨henter, hwires⟩ := ih rfl
    obtain ⟨hp, hseen⟩ := visited_of_path hgr hprev
    have hfollow := henter.follows hW hregs hunused hreg hp hwires (headInsns_le_ninsn hp)
      (Nat.le_refl _)
    rw [← slots_path hreg] at hfollow
    refine ⟨fun r hr hr' => ?_, hfollow.wires⟩
    have hentered : Entered gr p b' (slots g env (p :: ps))
        (lastValue (buildBb gr).toFunc env (sourceTrace (buildBb gr) env (p :: ps))) :=
      ⟨hseen, hgr.link hp hk, fun r t hr hr' ht => hfollow.regs r t hr hr' ht⟩
    simp only [slotsBefore, blockEnv_eq hreg]
    exact join_value hW hreg (hgr.lt hp hk) hp hentered hr hr'

theorem linkedInsn_cases (c : Code W) (bbs : List Block) (i : ℕ) :
    (linkedInsn c bbs i).unused = (c.insn i).unused ∧
        (∀ k, (linkedInsn c bbs i).op k = (c.insn i).op k ∨
          ∃ t, (linkedInsn c bbs i).op k = .bb t) ∨
      linkedInsn c bbs i = nopInsn := by
  unfold linkedInsn
  split
  · split
    · exact .inr rfl
    · split
      case h_1 j _ _ =>
        refine .inl ⟨rfl, fun k => ?_⟩
        by_cases hk : k = 0
        · exact .inr ⟨BitVec.ofNat W (reloc bbs j), by simp [hk]⟩
        · exact .inl (by simp [hk])
      case h_2 => exact .inl ⟨rfl, fun k => .inl rfl⟩
  · exact .inl ⟨rfl, fun k => .inl rfl⟩

theorem detectBb_insn (hdetect : detectBb c = some gr) :
    ∃ bbs, gr.insn = linkedInsn c bbs := by
  unfold detectBb at hdetect
  split_ifs at hdetect
  obtain ⟨bbs, -, h⟩ := Option.bind_eq_some_iff.1 hdetect
  obtain ⟨prev, -, h⟩ := Option.bind_eq_some_iff.1 h
  split_ifs at h
  cases h
  exact ⟨bbs, rfl⟩

theorem regsValid_of_code (hdetect : detectBb c = some gr)
    (hregs : ∀ i k w, (c.insn i).op k = .register w → w.toNat < lrbbReg) : RegsValid gr := by
  obtain ⟨bbs, hinsn⟩ := detectBb_insn hdetect
  intro i k w hk
  rw [hinsn] at hk
  rcases linkedInsn_cases c bbs i with ⟨-, hop⟩ | hnop
  · rcases hop k with hsame | ⟨t, hbb⟩
    · exact hregs i k w (hsame.symm.trans hk)
    · exact nomatch hbb.symm.trans hk
  · rw [hnop] at hk
    exact nomatch hk

theorem noneUnused_of_code (hdetect : detectBb c = some gr)
    (hunused : ∀ i, (c.insn i).unused = false) : NoneUnused gr := by
  obtain ⟨bbs, hinsn⟩ := detectBb_insn hdetect
  intro i
  rw [hinsn]
  rcases linkedInsn_cases c bbs i with ⟨hsame, -⟩ | hnop
  · rw [hsame, hunused]
  · rw [hnop]
    rfl

/-- **Along every path, a reference reads the last definition.** A register operand of a function
that `reg_dep` turned into a reference holds, where its instruction is executed on a path from the
first block, the value of the last definition of the register on the path, or the input value of the
register when there is none; and so does, at the head of each block, what the `cmov` of each
register passes on. -/
theorem regDep_reads_last_definition (hW : W = 32 ∨ W = 64)
    (hregs : ∀ i k w, (c.insn i).op k = .register w → w.toNat < lrbbReg)
    (hunused : ∀ i, (c.insn i).unused = false) (hdetect : detectBb c = some gr)
    (hreg : regDep (buildBb gr) = some g) (hpath : Path (buildBb gr) (b :: bs)) (env : PathEnv) :
    (∀ i k w t, headInsns ≤ i → i < (buildBb gr).ninsn b →
      ((buildBb gr).insn ⟨b, i⟩).op k = .register w → (g.insn ⟨b, i⟩).op k = .ref t →
        slotsBefore g env b bs i t =
          lastValue (buildBb gr).toFunc env (sourceBefore (buildBb gr) env b bs i) w.toNat) ∧
    ∀ r, 1 ≤ r → r < headInsns →
      slotValue g.toFunc (blockEnv g env b bs) (slotsBefore g env b bs r) ⟨b, r⟩ =
        lastValue (buildBb gr).toFunc env (sourceTrace (buildBb gr) env bs) r := by
  have hgr := detectBb_linked hdetect
  have hvalid := regsValid_of_code hdetect hregs
  have hnone := noneUnused_of_code hdetect hunused
  obtain ⟨hb, -⟩ := visited_of_path hgr hpath
  obtain ⟨henter, hwires⟩ := enters_path env hW hgr hvalid hnone hreg hpath
  refine ⟨fun i k w t hi hi' hop ht => ?_, fun r hr hr' => ?_⟩
  · have hfollow := henter.follows hW hvalid hnone hreg hb hwires hi (Nat.le_of_lt hi')
    have hvalue := operand_value (e := blockEnv g env b bs) hW hvalid hi hfollow k
    have hresolve := (regDep_insn_body hnone hreg hb hi hi').2 k
    rw [← hresolve, ht, hop, operandValue, sourceOperand] at hvalue
    by_cases hw : w = 0
    · -- register 0 became a constant
      rw [hop, resolve, if_pos hw, ht] at hresolve
      cases hresolve
    · rwa [if_neg hw] at hvalue
  · rw [blockEnv_eq hreg]
    exact henter r hr hr'

end Paths

/-! ### A loop -/

/-- `r3 = r4 + 1; do r3 = r3 + r5; while (flag); r11 = r3 + 0` -/
def loopCode : Code 64 where
  num := 4
  insn
    | 0 => { (nopInsn : Insn 64) with
        index := .add, op := ![.dest 3, .register 4, .const 1, .none, .none] }
    | 1 => { (nopInsn : Insn 64) with
        index := .add, op := ![.dest 3, .register 3, .register 5, .none, .none] }
    | 2 => { (nopInsn : Insn 64) with
        branch := true, index := .bf, op := ![.jump 1, .register 32, .none, .none, .none] }
    | 3 => { (nopInsn : Insn 64) with
        index := .add, op := ![.dest 11, .register 3, .const 0, .none, .none] }
    | _ => nopInsn

/-- The graph of the loop. -/
def loopGraph : Graph 64 := (detectBb loopCode).get (by decide +kernel)

/-- The loop with its references. -/
def loopCfg : Cfg 64 := (regDep (buildBb loopGraph)).get (by decide +kernel)

theorem loopCode_insn (i : ℕ) : (∀ k w, (loopCode.insn i).op k = .register w →
    w.toNat < lrbbReg) ∧ (loopCode.insn i).unused = false := by
  rcases i with _ | _ | _ | _ | i
  all_goals
    refine ⟨fun (k : Fin 5) w hop => ?_, rfl⟩
    obtain rfl | rfl | rfl | rfl | rfl : k = 0 ∨ k = 1 ∨ k = 2 ∨ k = 3 ∨ k = 4 := by omega
    all_goals
      cases hop
      try decide

/-- The register `n` starts with the value `n`. -/
def loopEnv : PathEnv where
  reg := BitVec.ofNat 32
  init _ := 0
  unit _ _ _ _ _ := 0

theorem loop_path : Path (buildBb loopGraph) [1, 1, 0] :=
  .step (k := 0) (.step (k := 0) .start (by decide)) (by decide)

/-- The second time around, the loop reads the sum of the first. -/
theorem loop_reads_last_definition :
    slotsBefore loopCfg loopEnv 1 [1, 0] 33 ⟨1, 3⟩ = lastValue (buildBb loopGraph).toFunc loopEnv
      (sourceBefore (buildBb loopGraph) loopEnv 1 [1, 0] 33) 3 :=
  (regDep_reads_last_definition (.inr rfl) (fun i => (loopCode_insn i).1)
    (fun i => (loopCode_insn i).2) (Option.some_get _).symm (Option.some_get _).symm loop_path
    loopEnv).1 33 1 3 ⟨1, 3⟩ (by decide) (by decide +kernel) (by decide +kernel) (by decide +kernel)

/-- That sum is `(4 + 1) + 5`. -/
example : slotsBefore loopCfg loopEnv 1 [1, 0] 33 ⟨1, 3⟩ = 10 := by decide

end Cuc
end Or1ksim
