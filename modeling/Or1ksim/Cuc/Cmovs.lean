import Or1ksim.Cuc.Edge
import Or1ksim.Cuc.RemoveDead
import Or1ksim.Cuc.Rewrite
import Or1ksim.Lib.Runs

/-!
# CMOVs that choose between equal values

`cmov_needed` and `optimize_cmovs` of `cuc/insn.c`: a CMOV whose arms lead to one primary input,
through moves and other CMOVs, is replaced by a move of that input.

* `cmovNeeded`, `optimizeCmovs` — the two functions, with a bound on the depth of the recursion;
* `PrimaryInput` — what the arms of an instruction lead to;
* `PrimaryInput.exists_eq` — an instruction has the value of one of its primary inputs;
* `Agree` — what the search has found out when it says that a CMOV is not needed;
* `cmovs_sound` — **the search ends on every graph and leaves the marks as they were, and in an
  acyclic function no value changes**.
-/

namespace Or1ksim
namespace Cuc

variable {W : ℕ}

/-! ### The search -/

/-- The state of `cmov_needed`. -/
structure CmovSearch (W : ℕ) where
  /-- `tmp` of each instruction. -/
  tmp : Ref → ℤ
  /-- `tmp_op` and `tmp_opt`: the first primary input, if there is one. -/
  op : Operand W

/-- Sets `tmp` of an instruction. -/
def CmovSearch.mark (s : CmovSearch W) (ref : Ref) (tmp : ℤ) : CmovSearch W :=
  { s with tmp := Function.update s.tmp ref tmp }

/-- A primary input: is it another one than the first? -/
def primaryInput (o : Operand W) (s : CmovSearch W) : Bool × CmovSearch W :=
  if s.op = .none then (false, { s with op := o }) else (decide (s.op ≠ o), s)

/-- The operands that are followed, of moves and of CMOVs. -/
def Insn.arms (ii : Insn W) : List (Operand W) :=
  if ii.index = .add ∧ ii.volatile = false ∧ ii.op 2 = .const 0 then [ii.op 1]
  else if ii.index ≠ .cmov ∨ ii.volatile = true then []
  else [ii.op 1, ii.op 2]

/-- Follows a reference; anything else is a primary input. -/
def operandNeeded (needed : Ref → CmovSearch W → Option (Bool × CmovSearch W)) (o : Operand W)
    (s : CmovSearch W) : Option (Bool × CmovSearch W) :=
  match o with
  | .ref q => needed q s
  | o => some (primaryInput o s)

/-- Follows the arms, until two of them differ. -/
def armsNeeded (needed : Ref → CmovSearch W → Option (Bool × CmovSearch W)) :
    List (Operand W) → CmovSearch W → Option (Bool × CmovSearch W)
  | [], s => some (false, s)
  | o :: os, s =>
    (operandNeeded needed o s).bind fun x => if x.1 then some x else armsNeeded needed os x.2

/-- What `cmov_needed` does at an instruction without a mark. -/
def insnNeeded (f : Func W) (needed : Ref → CmovSearch W → Option (Bool × CmovSearch W)) (ref : Ref)
    (s : CmovSearch W) : Option (Bool × CmovSearch W) :=
  if (f.insn ref).arms = [] then some (primaryInput (.ref ref) s)
  else armsNeeded needed (f.insn ref).arms s

/-- `cmov_needed`; `none` where the recursion is deeper than the first argument. -/
def cmovNeeded (f : Func W) : ℕ → Ref → CmovSearch W → Option (Bool × CmovSearch W)
  | 0, _, _ => none
  | n + 1, ref, s =>
    if s.tmp ref ≠ 0 then some (false, s)
    else (insnNeeded f (cmovNeeded f n) ref (s.mark ref 1)).map fun x => (x.1, x.2.mark ref 0)

/-- The CMOV turned into a move. -/
def toMove (ii : Insn W) (o : Operand W) : Insn W :=
  { ii with
    index := .add
    op := fun k => if k = 1 then o else if k = 2 then .const 0 else if k = 3 then .none
      else ii.op k }

/-- The body of the loops of `optimize_cmovs`; `none` also where its assertion fails. -/
def cmovStep (fuel : ℕ) (x : Func W × (Ref → ℤ)) (ref : Ref) : Option (Func W × (Ref → ℤ)) :=
  let (f, tmp) := x
  if (f.insn ref).index = .cmov ∧ (f.insn ref).volatile = false then
    (cmovNeeded f fuel ref ⟨tmp, .none⟩).bind fun y =>
      if y.1 then some (f, y.2.tmp)
      else if y.2.op = .none then none
      else some (f.set ref (toMove (f.insn ref) y.2.op), y.2.tmp)
  else some (f, tmp)

/-- The instructions of the blocks that are not dead. -/
def Func.liveInsns (f : Func W) : List Ref := f.insns.filter fun r => !f.dead r.bb

/-- `optimize_cmovs`, with the marks that it leaves. -/
def optimizeCmovs (fuel : ℕ) (f : Func W) (tmp : Ref → ℤ) : Option (Func W × (Ref → ℤ)) :=
  f.liveInsns.foldlM (cmovStep fuel) (f, fun r => if f.Live r then 0 else tmp r)

/-! ### The marks -/

section Marks

variable {f : Func W} {needed needed' : Ref → CmovSearch W → Option (Bool × CmovSearch W)}
  {s t : CmovSearch W} {x : Bool} {n : ℕ} {r : Ref} {o : Operand W}

theorem primaryInput_tmp (o : Operand W) (s : CmovSearch W) :
    (primaryInput o s).2.tmp = s.tmp := by
  rw [primaryInput]
  split <;> rfl

/-- The search leaves the marks as they were. -/
def Restores (needed : Ref → CmovSearch W → Option (Bool × CmovSearch W)) : Prop :=
  ∀ {q s x t}, needed q s = some (x, t) → t.tmp = s.tmp

theorem Restores.operand (h : Restores needed) (ho : operandNeeded needed o s = some (x, t)) :
    t.tmp = s.tmp := by
  unfold operandNeeded at ho
  split at ho
  · exact h ho
  · have hy := congrArg (fun y => y.2.tmp) (Option.some.inj ho)
    exact hy.symm.trans (primaryInput_tmp _ s)

theorem armsNeeded_cons {os : List (Operand W)} {y : Bool × CmovSearch W} :
    armsNeeded needed (o :: os) s = some y ↔
      ∃ z, operandNeeded needed o s = some z ∧
        (if z.1 then some z else armsNeeded needed os z.2) = some y := by
  rw [armsNeeded, Option.bind_eq_some_iff]

theorem Restores.arms (h : Restores needed) {os : List (Operand W)}
    (hos : armsNeeded needed os s = some (x, t)) : t.tmp = s.tmp := by
  induction os generalizing s with
  | nil =>
    cases hos
    rfl
  | cons o os ih =>
    obtain ⟨⟨y, u⟩, ho, hrest⟩ := armsNeeded_cons.1 hos
    have hu := h.operand ho
    split at hrest
    · cases hrest
      exact hu
    · exact (ih hrest).trans hu

theorem Restores.insn (h : Restores needed) (hr : insnNeeded f needed r s = some (x, t)) :
    t.tmp = s.tmp := by
  rw [insnNeeded] at hr
  split at hr
  · have hy := congrArg (fun y => y.2.tmp) (Option.some.inj hr)
    exact hy.symm.trans (primaryInput_tmp _ s)
  · exact h.arms hr

/-- **Every mark is left as it was found.** -/
theorem cmovNeeded_restores (f : Func W) (n : ℕ) : Restores (cmovNeeded f n) := by
  induction n with
  | zero => exact fun h => nomatch h
  | succ n ih =>
    intro q s x t h
    rw [cmovNeeded] at h
    split at h
    · cases h
      rfl
    · next hmark =>
      obtain ⟨⟨y, u⟩, hu, heq⟩ := Option.map_eq_some_iff.1 h
      cases heq
      have hu : u.tmp = Function.update s.tmp q 1 := ih.insn hu
      change Function.update u.tmp q 0 = s.tmp
      rw [hu, Function.update_idem, ← not_not.1 hmark, Function.update_eq_self]

/-! ### The bound -/

/-- What one search finds, the other finds as well. -/
def Extends (needed needed' : Ref → CmovSearch W → Option (Bool × CmovSearch W)) : Prop :=
  ∀ {q s y}, needed q s = some y → needed' q s = some y

theorem Extends.operand (h : Extends needed needed') {y : Bool × CmovSearch W}
    (ho : operandNeeded needed o s = some y) : operandNeeded needed' o s = some y := by
  cases o with
  | ref q => exact h ho
  | _ => exact ho

theorem Extends.arms (h : Extends needed needed') {os : List (Operand W)}
    {y : Bool × CmovSearch W} (hos : armsNeeded needed os s = some y) :
    armsNeeded needed' os s = some y := by
  induction os generalizing s with
  | nil => exact hos
  | cons o os ih =>
    obtain ⟨z, hz, hrest⟩ := armsNeeded_cons.1 hos
    refine armsNeeded_cons.2 ⟨z, h.operand hz, ?_⟩
    split at hrest
    · next hz1 => rwa [if_pos hz1]
    · next hz1 => rw [if_neg hz1, ih hrest]

theorem Extends.insn (h : Extends needed needed') {y : Bool × CmovSearch W}
    (hr : insnNeeded f needed r s = some y) : insnNeeded f needed' r s = some y := by
  rw [insnNeeded] at hr ⊢
  split at hr
  · next harms => rwa [if_pos harms]
  · next harms => rw [if_neg harms, h.arms hr]

theorem cmovNeeded_extends (f : Func W) (n : ℕ) :
    Extends (cmovNeeded f n) (cmovNeeded f (n + 1)) := by
  induction n with
  | zero => exact fun h => nomatch h
  | succ n ih =>
    intro q s y h
    rw [cmovNeeded] at h ⊢
    split at h
    · next hmark => rw [if_pos hmark, h]
    · next hmark =>
      obtain ⟨z, hz, heq⟩ := Option.map_eq_some_iff.1 h
      rw [if_neg hmark, ih.insn hz, ← heq]
      rfl

theorem cmovNeeded_mono {m : ℕ} (hnm : n ≤ m) : Extends (cmovNeeded f n) (cmovNeeded f m) := by
  induction m, hnm using Nat.le_induction with
  | base => exact fun h => h
  | succ m _ ih => exact fun h => cmovNeeded_extends f m (ih h)

/-- An instruction has a mark. -/
def CmovSearch.marked (s : CmovSearch W) (r : Ref) : Bool := decide (s.tmp r ≠ 0)

theorem marked_mark (a : Ref) (s : CmovSearch W) (b : Ref) :
    (s.mark a 1).marked b = (decide (b = a) || s.marked b) := by
  have htmp : (s.mark a 1).tmp b = Function.update s.tmp a 1 b := rfl
  by_cases hb : b = a
  · rw [CmovSearch.marked, htmp, hb, decide_eq_true rfl, Function.update_self]
    rfl
  · rw [CmovSearch.marked, htmp, decide_eq_false hb, Function.update_of_ne hb]
    rfl

theorem unseen_congr {U : Finset Ref} (h : t.tmp = s.tmp) :
    Dfs.unseen CmovSearch.marked U t = Dfs.unseen CmovSearch.marked U s := by
  refine Finset.filter_congr fun b _ => ?_
  rw [CmovSearch.marked, CmovSearch.marked, h]

/-- The arms are followed to their end when each of them is. -/
theorem exists_armsNeeded {U : Finset Ref} {m : ℕ} (hneeded : Restores needed)
    (hU : ∀ q ∈ U, ∀ s, (Dfs.unseen CmovSearch.marked U s).card < m → ∃ y, needed q s = some y)
    {os : List (Operand W)} (hos : ∀ q, .ref q ∈ os → q ∈ U)
    (hs : (Dfs.unseen CmovSearch.marked U s).card < m) : ∃ y, armsNeeded needed os s = some y := by
  induction os generalizing s with
  | nil => exact ⟨_, rfl⟩
  | cons o os ih =>
    have hoperand : ∃ z, operandNeeded needed o s = some z := by
      cases o with
      | ref q => exact hU q (hos q List.mem_cons_self) s hs
      | _ => exact ⟨_, rfl⟩
    obtain ⟨⟨x, t⟩, hz⟩ := hoperand
    have ht : (Dfs.unseen CmovSearch.marked U t).card < m := by
      rwa [unseen_congr (hneeded.operand hz)]
    cases x with
    | true => exact ⟨_, armsNeeded_cons.2 ⟨_, hz, rfl⟩⟩
    | false =>
      obtain ⟨y, hy⟩ := ih (fun q hq => hos q (List.mem_cons_of_mem o hq)) ht
      exact ⟨y, armsNeeded_cons.2 ⟨_, hz, hy⟩⟩

/-- **The search ends**: every instruction on its way has a mark, and so the number of those
without one bounds its depth. -/
theorem exists_cmovNeeded {U : Finset Ref} (hU : ∀ a ∈ U, ∀ q, .ref q ∈ (f.insn a).arms → q ∈ U)
    (n : ℕ) (hr : r ∈ U) (hn : (Dfs.unseen CmovSearch.marked U s).card < n) :
    ∃ y, cmovNeeded f n r s = some y := by
  induction n generalizing r s with
  | zero => exact absurd hn (Nat.not_lt_zero _)
  | succ n ih =>
    rw [cmovNeeded]
    by_cases hmark : s.tmp r ≠ 0
    · exact ⟨_, if_pos hmark⟩
    · rw [if_neg hmark, insnNeeded]
      by_cases harms : (f.insn r).arms = []
      · rw [if_pos harms]
        exact ⟨_, rfl⟩
      · have hclear : s.marked r = false := decide_eq_false hmark
        have hless := Dfs.unseen_mark marked_mark hr hclear
        have hfewer : (Dfs.unseen CmovSearch.marked U (s.mark r 1)).card < n :=
          hless.trans_le (Nat.lt_succ_iff.1 hn)
        obtain ⟨y, hy⟩ := exists_armsNeeded (cmovNeeded_restores f n)
          (fun q hq s hs => ih hq hs) (hU r hr) hfewer
        rw [if_neg harms, hy]
        exact ⟨_, rfl⟩

end Marks

/-! ### Primary inputs -/

/-- What is reached from an operand through moves and CMOVs. -/
inductive PrimaryInput (f : Func W) : Operand W → Operand W → Prop
  | word {o : Operand W} : (∀ q, o ≠ .ref q) → PrimaryInput f o o
  | insn {r : Ref} : (f.insn r).arms = [] → PrimaryInput f (.ref r) (.ref r)
  | arm {r : Ref} {o p : Operand W} : o ∈ (f.insn r).arms → PrimaryInput f o p →
      PrimaryInput f (.ref r) p

/-- Moves and CMOVs have the operands that are followed. -/
def Filled (f : Func W) : Prop := ∀ r, f.Live r → ∀ o ∈ (f.insn r).arms, o ≠ .none

section Inputs

variable {f : Func W} {env : Env} {v : Ref → Word} {rank : Ref → ℕ} {r q : Ref} {o p : Operand W}

theorem arms_cases (ii : Insn W) :
    ii.arms = [] ∨
      (ii.index = .add ∧ ii.volatile = false ∧ ii.op 2 = .const 0) ∧ ii.arms = [ii.op 1] ∨
        ii.index = .cmov ∧ ii.arms = [ii.op 1, ii.op 2] := by
  rw [Insn.arms]
  split
  · next h => exact .inr (.inl ⟨h, rfl⟩)
  · split
    · exact .inl rfl
    · next h => exact .inr (.inr ⟨not_not.1 fun hne => h (.inl hne), rfl⟩)

theorem mem_arms {ii : Insn W} (ho : o ∈ ii.arms) : ∃ k, ii.op k = o := by
  obtain h | ⟨-, h⟩ | ⟨-, h⟩ := arms_cases ii <;> rw [h] at ho
  · exact absurd ho List.not_mem_nil
  · exact ⟨1, (List.mem_singleton.1 ho).symm⟩
  · rcases List.mem_cons.1 ho with rfl | ho
    · exact ⟨1, rfl⟩
    · exact ⟨2, (List.mem_singleton.1 ho).symm⟩

/-- An instruction has the value of one of the operands that are followed. -/
theorem exists_arm_eq (hv : Valuation env f v) (hr : f.Live r)
    (hval : (f.insn r).index.isValue) (harms : (f.insn r).arms ≠ []) :
    ∃ o ∈ (f.insn r).arms, v r = operandValue env v o := by
  rw [hv.eq hr hval, value]
  obtain h | ⟨⟨hindex, -, hzero⟩, h⟩ | ⟨hindex, h⟩ := arms_cases (f.insn r)
  · exact absurd h harms
  · refine ⟨(f.insn r).op 1, h ▸ List.mem_singleton_self _, ?_⟩
    have hx : args env v (f.insn r) 2 = 0 := by rw [args, hzero, operandValue, low_zero]
    rw [hindex, compute, hx]
    exact BitVec.add_zero _
  · rw [hindex, compute, h]
    split
    · exact ⟨_, List.mem_cons_self, rfl⟩
    · exact ⟨_, List.mem_cons_of_mem _ (List.mem_singleton_self _), rfl⟩

/-- An operand leads to an instruction that has a value, if it is a reference. -/
def Leads (f : Func W) (o : Operand W) : Prop :=
  ∀ q, o = .ref q → f.Live q ∧ (f.insn q).index.isValue

theorem leads_arm (hf : WellFormed f) (hr : f.Live r) (ho : o ∈ (f.insn r).arms) :
    Leads f o := by
  obtain ⟨k, hk⟩ := mem_arms ho
  exact fun q hq => hf.refs hr (hk.trans hq)

/-- An operand that is a reference to an instruction of a rank below `m`, or no reference. -/
def Below (rank : Ref → ℕ) (m : ℕ) (o : Operand W) : Prop := ∀ q, o = .ref q → rank q < m

/-- **A value is that of a primary input**, by induction on the rank. -/
theorem PrimaryInput.exists_eq (hf : WellFormed f) (hrank : Ranked rank f)
    (hv : Valuation env f v) {m : ℕ} (ho : Leads f o) (hm : Below rank m o) :
    ∃ p, PrimaryInput f o p ∧ operandValue env v o = operandValue env v p := by
  induction m generalizing o with
  | zero =>
    exact ⟨o, .word fun q hq => absurd (hm q hq) (Nat.not_lt_zero _), rfl⟩
  | succ m ih =>
    by_cases hword : ∀ q, o ≠ .ref q
    · exact ⟨o, .word hword, rfl⟩
    · obtain ⟨r, hr⟩ := Classical.not_forall.1 hword
      obtain rfl := not_not.1 hr
      obtain ⟨hlive, hval⟩ := ho r rfl
      by_cases harms : (f.insn r).arms = []
      · exact ⟨.ref r, .insn harms, rfl⟩
      · obtain ⟨o, harm, heq⟩ := exists_arm_eq hv hlive hval harms
        have hbelow : Below rank m o := by
          intro q hq
          obtain ⟨k, hk⟩ := mem_arms harm
          have hlt : rank q < rank r := hrank hlive (hk.trans hq)
          exact hlt.trans_le (Nat.lt_succ_iff.1 (hm r rfl))
        obtain ⟨p, hp, hpeq⟩ := ih (leads_arm hf hlive harm) hbelow
        exact ⟨p, .arm harm hp, heq.trans hpeq⟩

theorem PrimaryInput.leads (h : PrimaryInput f o p) (hf : WellFormed f) (hrank : Ranked rank f)
    {m : ℕ} (ho : Leads f o) (hm : Below rank m o) : Leads f p ∧ Below rank m p := by
  induction h with
  | word _ => exact ⟨ho, hm⟩
  | insn _ => exact ⟨ho, hm⟩
  | @arm r o p harm _ ih =>
    have hlive := (ho r rfl).1
    refine ih (leads_arm hf hlive harm) fun q hq => ?_
    obtain ⟨k, hk⟩ := mem_arms harm
    have hlt : rank q < rank r := hrank hlive (hk.trans hq)
    exact hlt.trans (hm r rfl)

end Inputs

/-! ### What the search finds out -/

/-- The primary inputs of an operand are the one that was found, and the first if there was one. -/
structure Agree (f : Func W) (o : Operand W) (s t : CmovSearch W) : Prop where
  same : ∀ p, PrimaryInput f o p → t.op = p
  first : s.op ≠ .none → t.op = s.op
  found : t.op ≠ .none

section Found

variable {f : Func W} {needed : Ref → CmovSearch W → Option (Bool × CmovSearch W)}
  {s t : CmovSearch W} {rank : Ref → ℕ} {r : Ref} {o p : Operand W}

theorem agree_primaryInput (hp : p ≠ .none) (h : primaryInput p s = (false, t))
    (ho : ∀ p', PrimaryInput f o p' → p' = p) : Agree f o s t := by
  rw [primaryInput] at h
  split at h
  · next hnone =>
    obtain rfl := (Prod.mk.inj h).2
    exact ⟨fun p' hp' => (ho p' hp').symm, fun hs => absurd hnone hs, hp⟩
  · next hsome =>
    obtain ⟨hsame, rfl⟩ := Prod.mk.inj h
    have hsame : s.op = p := not_not.1 (of_decide_eq_false hsame)
    exact ⟨fun p' hp' => hsame.trans (ho p' hp').symm, fun _ => rfl, hsome⟩

theorem agree_operand (hfill : o ≠ .none)
    (hneeded : ∀ q, o = .ref q → needed q s = some (false, t) → Agree f (.ref q) s t)
    (h : operandNeeded needed o s = some (false, t)) : Agree f o s t := by
  by_cases hword : ∀ q, o ≠ .ref q
  · refine agree_primaryInput hfill ?_ fun p hp => ?_
    · cases o with
      | ref q => exact absurd rfl (hword q)
      | _ => exact Option.some.inj h
    · cases hp with
      | word _ => rfl
      | insn _ => exact absurd rfl (hword _)
      | arm _ _ => exact absurd rfl (hword _)
  · obtain ⟨q, hq⟩ := Classical.not_forall.1 hword
    obtain rfl := not_not.1 hq
    exact hneeded q rfl h

/-- The arms agree with each other and with the first primary input. -/
theorem agree_arms {tmp : Ref → ℤ} {os : List (Operand W)} (hrestores : Restores needed)
    (hfill : ∀ o ∈ os, o ≠ .none)
    (hneeded : ∀ q, .ref q ∈ os → ∀ s t, s.tmp = tmp → needed q s = some (false, t) →
      Agree f (.ref q) s t)
    (hs : s.tmp = tmp) (h : armsNeeded needed os s = some (false, t)) :
    (∀ o ∈ os, ∀ p, PrimaryInput f o p → t.op = p) ∧ (s.op ≠ .none → t.op = s.op) ∧
      (os ≠ [] → t.op ≠ .none) := by
  induction os generalizing s with
  | nil =>
    cases h
    exact ⟨fun o ho => absurd ho List.not_mem_nil, fun _ => rfl, fun hne => absurd rfl hne⟩
  | cons o os ih =>
    obtain ⟨⟨x, u⟩, hu, hrest⟩ := armsNeeded_cons.1 h
    cases x with
    | true => cases hrest
    | false =>
      have ho : Agree f o s u := agree_operand (hfill o List.mem_cons_self)
        (fun q hq hu => hneeded q (hq ▸ List.mem_cons_self) s u hs hu) hu
      obtain ⟨hsame, hfirst, -⟩ := ih (fun p hp => hfill p (List.mem_cons_of_mem o hp))
        (fun q hq => hneeded q (List.mem_cons_of_mem o hq)) ((hrestores.operand hu).trans hs) hrest
      -- from the first arm on there is a first primary input
      have htu : t.op = u.op := hfirst ho.found
      refine ⟨fun p hp => ?_, fun hne => htu.trans (ho.first hne), fun _ => htu ▸ ho.found⟩
      rcases List.mem_cons.1 hp with rfl | hp
      · exact fun p' hp' => htu.trans (ho.same p' hp')
      · exact hsame p hp

/-- **What the search finds out**: when only instructions above have a mark, the primary inputs are
all the same where the answer is no. -/
theorem cmovNeeded_agree (hf : WellFormed f) (hrank : Ranked rank f) (hfilled : Filled f) (n : ℕ)
    (hr : f.Live r) (hmarks : ∀ q, f.Live q → s.tmp q ≠ 0 → rank r < rank q)
    (h : cmovNeeded f n r s = some (false, t)) : Agree f (.ref r) s t := by
  induction n generalizing r s t with
  | zero => cases h
  | succ n ih =>
    have hclear : ¬s.tmp r ≠ 0 := fun hne => Nat.lt_irrefl _ (hmarks r hr hne)
    rw [cmovNeeded, if_neg hclear] at h
    obtain ⟨⟨x, u⟩, hu, heq⟩ := Option.map_eq_some_iff.1 h
    obtain ⟨rfl, rfl⟩ := Prod.mk.inj heq
    rw [insnNeeded] at hu
    split at hu
    · next harms =>
      have hagree : Agree f (.ref r) (s.mark r 1) u := by
        refine agree_primaryInput (by simp) (Option.some.inj hu) fun p hp => ?_
        cases hp with
        | word hword => exact absurd rfl (hword r)
        | insn _ => rfl
        | arm harm _ => exact absurd (harms ▸ harm) List.not_mem_nil
      exact ⟨hagree.same, hagree.first, hagree.found⟩
    · next harms =>
      -- on the way to an arm, one more instruction above it has a mark
      have harm : ∀ q, .ref q ∈ (f.insn r).arms → ∀ s' t', s'.tmp = (s.mark r 1).tmp →
          cmovNeeded f n q s' = some (false, t') → Agree f (.ref q) s' t' := by
        intro q hq s' t' hs' h'
        obtain ⟨k, hk⟩ := mem_arms hq
        have hlt : rank q < rank r := hrank hr hk
        refine ih (hf.refs hr hk).1 (fun q' hq' hmark => ?_) h'
        rw [hs'] at hmark
        by_cases hqr : q' = r
        · exact hqr ▸ hlt
        · change Function.update s.tmp r 1 q' ≠ 0 at hmark
          rw [Function.update_of_ne hqr] at hmark
          exact hlt.trans (hmarks q' hq' hmark)
      obtain ⟨hsame, hfirst, hfound⟩ := agree_arms (f := f) (cmovNeeded_restores f n)
        (hfilled r hr) harm rfl hu
      refine ⟨fun p hp => ?_, hfirst, hfound harms⟩
      cases hp with
      | word hword => exact absurd rfl (hword r)
      | insn hnil => exact absurd hnil harms
      | arm harm hp => exact hsame _ harm _ hp

/-- **A CMOV that is not needed has the value of its primary input**, which lies below it. -/
theorem cmov_value (hf : WellFormed f) (hrank : Ranked rank f) (hfilled : Filled f) {n : ℕ}
    (hr : f.Live r) (hcmov : (f.insn r).index = .cmov)
    (hvol : (f.insn r).volatile = false) (hclear : ∀ q, f.Live q → s.tmp q = 0)
    (h : cmovNeeded f n r s = some (false, t)) :
    t.op ≠ .none ∧
      (∀ env v, Valuation env f v → v r = operandValue env v t.op) ∧
      ((∃ env v, Valuation env f v) → Leads f t.op ∧ Below rank (rank r) t.op) := by
  have hagree := cmovNeeded_agree hf hrank hfilled n hr
    (fun q hq hmark => absurd (hclear q hq) hmark) h
  have harms : (f.insn r).arms = [(f.insn r).op 1, (f.insn r).op 2] := by
    rw [Insn.arms, hcmov, if_neg (fun h => nomatch h.1), if_neg (by simp [hvol])]
  have hval : (f.insn r).index.isValue := by
    rw [hcmov]
    rfl
  have harm : ∀ o ∈ (f.insn r).arms, Leads f o ∧ Below rank (rank r) o := by
    intro o ho
    refine ⟨leads_arm hf hr ho, fun q hq => ?_⟩
    obtain ⟨k, hk⟩ := mem_arms ho
    exact hrank hr (hk.trans hq)
  -- some arm has the value of the CMOV, and a primary input has the value of the arm
  have hprimary : ∀ env v, Valuation env f v → ∃ o ∈ (f.insn r).arms, ∃ p, PrimaryInput f o p ∧
      v r = operandValue env v p := by
    intro env v hv
    obtain ⟨o, ho, heq⟩ := exists_arm_eq hv hr hval (by rw [harms]; simp)
    obtain ⟨p, hp, hpeq⟩ := PrimaryInput.exists_eq hf hrank hv (harm o ho).1 (harm o ho).2
    exact ⟨o, ho, p, hp, heq.trans hpeq⟩
  refine ⟨hagree.found, fun env v hv => ?_, ?_⟩
  · obtain ⟨o, ho, p, hp, heq⟩ := hprimary env v hv
    rw [hagree.same p (.arm ho hp), heq]
  · rintro ⟨env, v, hv⟩
    obtain ⟨o, ho, p, hp, -⟩ := hprimary env v hv
    rw [hagree.same p (.arm ho hp)]
    exact hp.leads hf hrank (harm o ho).1 (harm o ho).2

end Found

/-! ### The pass -/

section Pass

variable {f : Func W} {rank : Ref → ℕ} {r : Ref} {o : Operand W}

theorem toMove_op_one (ii : Insn W) (o : Operand W) : (toMove ii o).op 1 = o := rfl

theorem toMove_op_two (ii : Insn W) (o : Operand W) : (toMove ii o).op 2 = .const 0 := rfl

theorem toMove_op_ref {ii : Insn W} {k : OperandNo} {q : Ref} (h : (toMove ii o).op k = .ref q) :
    o = .ref q ∨ ii.op k = .ref q := by
  dsimp only [toMove] at h
  split_ifs at h
  · exact .inl h
  · exact .inr h

theorem toMove_replaces (hf : WellFormed f) (hrank : Ranked rank f) (hr : f.Live r)
    (hcmov : (f.insn r).index = .cmov) (hleads : Leads f o) (hbelow : Below rank (rank r) o)
    (hvalue : ∀ env v, Valuation env f v → v r = operandValue env v o) :
    Replaces rank f r (toMove (f.insn r) o) where
  isValue := by rw [hcmov]; rfl
  isUnit := by rw [hcmov]; rfl
  isEffect := by rw [hcmov]; rfl
  dest hval := hf.dests hr hval
  output := rfl
  register _ _ := rfl
  uses := by
    intro k q hk
    rcases toMove_op_ref hk with ho | hold
    · exact ⟨(hleads q ho).1, (hleads q ho).2, hbelow q ho⟩
    · exact ⟨(hf.refs hr hold).1, (hf.refs hr hold).2, hrank hr hold⟩
  value := by
    intro env v hv hval
    have hx : args env v (toMove (f.insn r) o) 2 = 0 := by
      rw [args, toMove_op_two, operandValue, low_zero]
    rw [← hv.eq hr hval, hvalue env v hv]
    change args env v (toMove (f.insn r) o) 1 + args env v (toMove (f.insn r) o) 2 = _
    rw [hx, args, toMove_op_one]
    exact BitVec.add_zero _
  effect := by
    intro env v _ heffect
    rw [hcmov] at heffect
    cases heffect

theorem filled_set (hfilled : Filled f) (hvol : (f.insn r).volatile = false) (ho : o ≠ .none) :
    Filled (f.set r (toMove (f.insn r) o)) := by
  intro p hp
  by_cases hpr : p = r
  · have harms : (toMove (f.insn r) o).arms = [o] := if_pos ⟨rfl, hvol, rfl⟩
    rw [hpr, Func.set_insn_self, harms]
    exact fun o' ho' => List.mem_singleton.1 ho' ▸ ho
  · rw [Func.set_insn_of_ne hpr]
    exact hfilled p hp

/-- The function that was rewritten, and the marks, between two rounds of the loops. -/
structure CmovInv (rank : Ref → ℕ) (f : Func W) (x : Func W × (Ref → ℤ)) : Prop where
  keeps : Keeps rank f x.1
  filled : Filled x.1
  live : ∀ r, x.1.Live r ↔ f.Live r
  isValue : ∀ r, (x.1.insn r).index.isValue = (f.insn r).index.isValue
  clear : ∀ r, f.Live r → x.2 r = 0

theorem mem_liveInsns : r ∈ f.liveInsns ↔ f.Live r := by
  rw [Func.liveInsns, List.mem_filter, mem_insns, Func.InRange, Func.Live, Bool.not_eq_true']
  tauto

/-- The search ends at a live instruction, when its depth may exceed their number. -/
theorem exists_cmovNeeded_live (hf : WellFormed f) {fuel : ℕ}
    (hfuel : f.liveInsns.toFinset.card < fuel) (hr : f.Live r) (s : CmovSearch W) :
    ∃ y, cmovNeeded f fuel r s = some y := by
  refine exists_cmovNeeded (U := f.liveInsns.toFinset) (fun a ha q hq => ?_) fuel
    (List.mem_toFinset.2 (mem_liveInsns.2 hr))
    ((Finset.card_le_card (Finset.filter_subset _ _)).trans_lt hfuel)
  obtain ⟨k, hk⟩ := mem_arms hq
  have ha := mem_liveInsns.1 (List.mem_toFinset.1 ha)
  exact List.mem_toFinset.2 (mem_liveInsns.2 (hf.refs ha hk).1)

theorem CmovInv.live_eq {x : Func W × (Ref → ℤ)} (h : CmovInv rank f x) :
    x.1.liveInsns.toFinset = f.liveInsns.toFinset := by
  ext r
  rw [List.mem_toFinset, List.mem_toFinset, mem_liveInsns, mem_liveInsns, h.live]

/-- **A round of the loops**: it ends, its assertion holds, and it keeps what the rounds before
have kept. -/
theorem CmovInv.step {x : Func W × (Ref → ℤ)} {fuel : ℕ}
    (hfuel : f.liveInsns.toFinset.card < fuel) (h : CmovInv rank f x) (hr : f.Live r) :
    ∃ y, cmovStep fuel x r = some y ∧ CmovInv rank f y := by
  obtain ⟨g, tmp⟩ := x
  have hrg : g.Live r := (h.live r).2 hr
  have hclear : ∀ q, g.Live q → tmp q = 0 := fun q hq => h.clear q ((h.live q).1 hq)
  rw [cmovStep]
  by_cases hcmov : (g.insn r).index = .cmov ∧ (g.insn r).volatile = false
  · obtain ⟨⟨needed, t⟩, ht⟩ := exists_cmovNeeded_live h.keeps.wellFormed
      (by rw [h.live_eq]; exact hfuel) hrg ⟨tmp, .none⟩
    have htmp : t.tmp = tmp := cmovNeeded_restores g fuel ht
    rw [if_pos hcmov, ht, Option.bind_some]
    cases needed with
    | true =>
      refine ⟨(g, t.tmp), rfl, ?_⟩
      rw [htmp]
      exact h
    | false =>
      obtain ⟨hfound, hvalue, hbelow⟩ := cmov_value h.keeps.wellFormed h.keeps.ranked h.filled hrg
        hcmov.1 hcmov.2 hclear ht
      obtain ⟨hleads, hbelow⟩ := hbelow
        ⟨emptyEnv, exists_valuation h.keeps.wellFormed ⟨rank, h.keeps.ranked⟩ emptyEnv⟩
      have hreplaces := toMove_replaces h.keeps.wellFormed h.keeps.ranked hrg hcmov.1 hleads hbelow
        hvalue
      refine ⟨(g.set r (toMove (g.insn r) t.op), t.tmp), ?_, ?_⟩
      · exact (if_neg Bool.false_ne_true).trans (if_neg hfound)
      · rw [htmp]
        exact {
          keeps := h.keeps.trans (hreplaces.keeps h.keeps.wellFormed h.keeps.ranked)
          filled := filled_set h.filled hcmov.2 hfound
          live := h.live
          isValue := fun p => (hreplaces.insn_isValue p).trans (h.isValue p)
          clear := h.clear }
  · rw [if_neg hcmov]
    exact ⟨(g, tmp), rfl, h⟩

theorem cmovStep_mono {n m : ℕ} (hnm : n ≤ m) (x : Func W × (Ref → ℤ)) (r : Ref)
    (y : Func W × (Ref → ℤ)) (h : cmovStep n x r = some y) : cmovStep m x r = some y := by
  obtain ⟨g, tmp⟩ := x
  rw [cmovStep] at h ⊢
  split at h
  · next hcmov =>
    obtain ⟨z, hz, hrest⟩ := Option.bind_eq_some_iff.1 h
    rw [if_pos hcmov, cmovNeeded_mono hnm hz]
    exact hrest
  · next hcmov => rw [if_neg hcmov, h]

/-- **The pass ends and keeps the values.** -/
theorem exists_optimizeCmovs (hf : WellFormed f) (hrank : Ranked rank f) (hfilled : Filled f)
    (tmp : Ref → ℤ) : ∃ bound x, (∀ fuel ≥ bound, optimizeCmovs fuel f tmp = some x) ∧
      CmovInv rank f x := by
  have hstart : CmovInv rank f (f, fun r => if f.Live r then 0 else tmp r) :=
    ⟨.refl hf hrank, hfilled, fun _ => Iff.rfl, fun _ => rfl, fun _ hr => if_pos hr⟩
  have hstep : ∀ r ∈ f.liveInsns, ∀ y, CmovInv rank f y →
      ∃ z, cmovStep (f.liveInsns.toFinset.card + 1) y r = some z ∧ CmovInv rank f z :=
    fun r hr y hy => hy.step (Nat.lt_succ_self _) (mem_liveInsns.1 hr)
  obtain ⟨x, hx, hinv⟩ := Runs.exists_foldlM hstep hstart
  exact ⟨_, x, fun fuel hfuel =>
    Runs.foldlM_eq_of_le (fun y r z hz => cmovStep_mono hfuel y r z hz) hx, hinv⟩

end Pass

/-- **Redundant CMOVs are removed soundly**: on every graph, cyclic or not, the search ends and
leaves the marks as it found them; in an acyclic function a CMOV that is not needed has the value
of the primary input that was found, whatever the conditions and the inputs are, and the whole pass
ends and keeps the value of every instruction. -/
theorem cmovs_sound :
    (∀ f : Func W, (∀ r, f.InRange r → ∀ k q, (f.insn r).op k = .ref q → f.InRange q) →
      ∀ r, f.InRange r → ∀ s, ∃ bound needed t,
        (∀ fuel ≥ bound, cmovNeeded f fuel r s = some (needed, t)) ∧ t.tmp = s.tmp) ∧
    ∀ f : Func W, WellFormed f → Acyclic f → Filled f →
      (∀ fuel r s t, f.Live r → (f.insn r).index = .cmov → (f.insn r).volatile = false →
        (∀ q, f.Live q → s.tmp q = 0) → cmovNeeded f fuel r s = some (false, t) →
          ∀ env v, Valuation env f v → v r = operandValue env v t.op) ∧
      ∀ tmp, ∃ bound g tmp', (∀ fuel ≥ bound, optimizeCmovs fuel f tmp = some (g, tmp')) ∧
        ∀ env v w, Valuation env f v → Valuation env g w →
          ∀ r, f.Live r → (f.insn r).index.isValue → w r = v r := by
  refine ⟨fun f hwithin r hr s => ?_, fun f hf ⟨rank, hrank⟩ hfilled => ⟨?_, fun tmp => ?_⟩⟩
  · have hU : ∀ a ∈ f.insns.toFinset, ∀ q, .ref q ∈ (f.insn a).arms → q ∈ f.insns.toFinset := by
      intro a ha q hq
      obtain ⟨k, hk⟩ := mem_arms hq
      exact List.mem_toFinset.2 (mem_insns.2
        (hwithin a (mem_insns.1 (List.mem_toFinset.1 ha)) k q hk))
    obtain ⟨⟨needed, t⟩, ht⟩ := exists_cmovNeeded (s := s) hU _
      (List.mem_toFinset.2 (mem_insns.2 hr)) (Nat.lt_succ_self _)
    exact ⟨_, needed, t, fun fuel hfuel => cmovNeeded_mono hfuel ht, cmovNeeded_restores f _ ht⟩
  · intro fuel r s t hr hcmov hvol hclear h
    exact (cmov_value hf hrank hfilled hr hcmov hvol hclear h).2.1
  · obtain ⟨bound, ⟨g, tmp'⟩, hrun, hinv⟩ := exists_optimizeCmovs hf hrank hfilled tmp
    refine ⟨bound, g, tmp', hrun, fun env v w hv hw r hr hval => ?_⟩
    obtain ⟨rank', hrank'⟩ := Acyclic.graph_ranked ⟨rank, hinv.keeps.ranked⟩
      hinv.keeps.wellFormed env
    exact Dataflow.Solves.unique hrank' hw (hinv.keeps.valuation hv)
      ⟨(hinv.live r).2 hr, (hinv.isValue r).symm ▸ hval⟩

/-- `r11 = r4 ? (r5 ? r3 : r3 + 0) : r3`: a CMOV and a move under a CMOV. -/
def nestedArms : Func 32 where
  numBb := 1
  dead _ := false
  ninsn _ := 3
  insn r :=
    match r.i with
    | 0 => { (nopInsn : Insn 32) with
        index := .add, op := ![.dest (-1), .register 3, .const 0, .none, .none] }
    | 1 => { (nopInsn : Insn 32) with
        index := .cmov, op := ![.dest (-1), .register 3, .ref ⟨0, 0⟩, .register 5, .none] }
    | _ => { (nopInsn : Insn 32) with
        index := .cmov, output := true
        op := ![.dest 11, .ref ⟨0, 1⟩, .register 3, .register 4, .none] }

theorem nestedArms_ref {r q : Ref} {k : OperandNo} (h : (nestedArms.insn r).op k = .ref q) :
    q.bb = 0 ∧ q.i < r.i ∧ q.i < 2 := by
  obtain ⟨b, i⟩ := r
  match i, k with
  | 0, 0 | 0, 1 | 0, 2 | 0, 3 | 0, 4 => cases h
  | 1, 0 | 1, 1 | 1, 3 | 1, 4 => cases h
  | 1, 2 =>
    cases h
    exact ⟨rfl, Nat.one_pos, Nat.two_pos⟩
  | i + 2, 0 | i + 2, 2 | i + 2, 3 | i + 2, 4 => cases h
  | i + 2, 1 =>
    cases h
    exact ⟨rfl, Nat.lt_add_left i (by decide), by decide⟩

theorem nestedArms_wellFormed : WellFormed nestedArms where
  refs := by
    rintro r k ⟨b, i⟩ hr h
    obtain ⟨rfl, -, hi⟩ := nestedArms_ref h
    match i, hi with
    | 0, _ | 1, _ => decide
  dests := by
    rintro ⟨b, i⟩ - -
    match i with
    | 0 | 1 => exact ⟨-1, rfl⟩
    | _ + 2 => exact ⟨11, rfl⟩

theorem nestedArms_filled : Filled nestedArms := by
  rintro ⟨b, i⟩ ⟨hb, -, hi⟩ o ho
  obtain rfl : b = 0 := Nat.lt_one_iff.1 hb
  have hi : i < 3 := hi
  revert o
  match i, hi with
  | 0, _ | 1, _ | 2, _ => decide

/-- The search follows the arms through the other CMOV, and ends at the one register that they lead
to. -/
theorem cmovs_sound_nestedArms :
    (∃ bound needed t, (∀ fuel ≥ bound,
      cmovNeeded nestedArms fuel ⟨0, 2⟩ ⟨fun _ => 0, .none⟩ = some (needed, t)) ∧
        t.tmp = fun _ => 0) ∧
    (∀ env v, Valuation env nestedArms v →
      v ⟨0, 2⟩ = operandValue env v (.register 3 : Operand 32)) ∧
    ∃ bound g tmp', (∀ fuel ≥ bound, optimizeCmovs fuel nestedArms (fun _ => 0) = some (g, tmp')) ∧
      ∀ env v w, Valuation env nestedArms v → Valuation env g w →
        ∀ r, nestedArms.Live r → (nestedArms.insn r).index.isValue → w r = v r := by
  obtain ⟨hends, hsound⟩ := @cmovs_sound 32
  have hinside : ∀ r, nestedArms.InRange r → ∀ k q, (nestedArms.insn r).op k = .ref q →
      nestedArms.InRange q := by
    intro r hr k q h
    obtain ⟨hb, -, hi⟩ := (nestedArms_wellFormed.refs ⟨hr.1, rfl, hr.2⟩ h).1
    exact ⟨hb, hi⟩
  obtain ⟨hvalue, hpass⟩ := hsound nestedArms nestedArms_wellFormed
    ⟨Ref.i, fun _ h => (nestedArms_ref h).2.1⟩ nestedArms_filled
  have hsearch : (cmovNeeded nestedArms 3 ⟨0, 2⟩ ⟨fun _ => 0, .none⟩).map
      (fun x => (x.1, x.2.op)) = some (false, .register 3) := by decide
  obtain ⟨⟨needed, t⟩, ht, heq⟩ := Option.map_eq_some_iff.1 hsearch
  obtain ⟨rfl, hop⟩ := Prod.mk.inj heq
  refine ⟨hends _ hinside ⟨0, 2⟩ (by decide) _, fun env v hv => ?_, hpass _⟩
  rw [hvalue 3 ⟨0, 2⟩ _ t (by decide) rfl rfl (fun _ _ => rfl) ht env v hv]
  exact congrArg _ hop
end Cuc
end Or1ksim
