import Mathlib.Data.List.Chain
import Or1ksim.Mc.Areas

/-!
# The loop that takes the areas of a controller

* `Grabbing`, `Grabbing.keep`, `Grabbing.take` — the loop as long as no two areas of the controller
  follow each other;
* `Lost`, `Lost.step` — what is left after two that do: **the second one stays in the list**, as
  `prev` is then the first one, which is not in the list any more;
* `grab_separated`, `grab_adjacent` — the loop in the two cases.
-/

namespace Or1ksim
namespace Mc

open Linked

variable {C : Type}

/-! ### Updates -/

section

variable {s : State C} {p a : ℕ} {q : Option ℕ}

theorem next_setNext : (s.setNext p q).next = Function.update s.next p q := by
  funext a
  by_cases h : a = p
  · subst h
    simp [State.next, State.setNext]
  · simp [State.next, State.setNext, h]

theorem toReg_setNext : ((s.setNext p q).area a).toReg = (s.area a).toReg := by
  by_cases h : a = p
  · subst h
    simp [State.setNext]
  · simp [State.setNext, h]

end

/-- What no loop over the areas changes, for a controller `c` that takes areas out of `as`: the data
of the areas, the indices, the lists of the other controllers and the links of the other cells. -/
structure Same (c : C) (as : List ℕ) (s s' : State C) : Prop where
  size : s'.size = s.size
  reg : ∀ a, (s'.area a).toReg = (s.area a).toReg
  index : ∀ d, (s'.mc d).index = (s.mc d).index
  lists : ∀ d, d ≠ c → (s'.mc d).mcAreas = (s.mc d).mcAreas
  next : ∀ a ∉ as, s'.next a = s.next a

theorem Same.refl (c : C) (as : List ℕ) (s : State C) : Same c as s s :=
  ⟨rfl, fun _ => rfl, fun _ => rfl, fun _ _ => rfl, fun _ _ => rfl⟩

theorem Same.trans {c : C} {as : List ℕ} {s t u : State C} (h : Same c as s t)
    (h' : Same c as t u) : Same c as s u :=
  ⟨h'.size.trans h.size, fun a => (h'.reg a).trans (h.reg a),
    fun d => (h'.index d).trans (h.index d), fun d hd => (h'.lists d hd).trans (h.lists d hd),
    fun a ha => (h'.next a ha).trans (h.next a ha)⟩

theorem Same.mc_eq {c : C} {as : List ℕ} {s s' : State C} (h : Same c as s s') (a : ℕ) :
    (s'.area a).mc = (s.area a).mc :=
  congrArg Reg.mc (h.reg a)

variable {c : C} {k : ℤ}

/-! ### The loop -/

/-- The loop after the areas `done` and before the areas `rest`: the areas of index `k` have been
moved to the list of `c`, which held `mine`, in the opposite order. -/
structure Grabbing (k : ℤ) (mine done rest : List ℕ) (c : C) (cur prev : Option ℕ) (s : State C) :
    Prop where
  index : (s.mc c).index = k
  head : Seg s.next s.mcAreas (done.filter fun a => (s.area a).mc ≠ k) cur
  left : Seg s.next cur rest none
  list : Seg s.next (s.mc c).mcAreas ((done.filter fun a => (s.area a).mc = k).reverse ++ mine) none
  last : prev = done.getLast?
  nodup : (done ++ rest).Nodup
  apart : ∀ a ∈ mine, a ∉ done ++ rest

variable {mine done rest : List ℕ} {cur prev : Option ℕ} {s : State C} {x : ℕ}

theorem Grabbing.cur_eq (h : Grabbing k mine done (x :: rest) c cur prev s) : cur = some x :=
  h.left.1

theorem Grabbing.notMem (h : Grabbing k mine done (x :: rest) c cur prev s) :
    x ∉ done ∧ x ∉ rest := by
  have hnodup := h.nodup
  rw [List.nodup_append] at hnodup
  exact ⟨fun hx => hnodup.2.2 x hx x List.mem_cons_self rfl, (List.nodup_cons.1 hnodup.2.1).1⟩

theorem Grabbing.prev_ne (h : Grabbing k mine done (x :: rest) c cur prev s) : prev ≠ some x := by
  rw [h.last]
  exact fun hx => h.notMem.1 (List.mem_of_getLast? hx)

theorem Grabbing.keep (h : Grabbing k mine done (x :: rest) c cur prev s) (hx : (s.area x).mc ≠ k) :
    Grabbing k mine (done ++ [x]) rest c (s.next x) (some x) s where
  index := h.index
  head := by
    rw [List.filter_append, List.filter_cons_of_pos (by simpa using hx), List.filter_nil,
      seg_concat]
    exact ⟨h.cur_eq ▸ h.head, rfl⟩
  left := h.left.2
  list := by
    rw [List.filter_append, List.filter_cons_of_neg (by simpa using hx), List.filter_nil,
      List.append_nil]
    exact h.list
  last := by simp
  nodup := by simpa using h.nodup
  apart := by simpa using h.apart

variable [DecidableEq C]

/-- The state after the body of the loop has taken the area at `cur`. -/
def taken (c : C) (cur : ℕ) (prev : Option ℕ) (s : State C) : State C :=
  -- `prev` is the area before `cur`, even if it has just been moved to the list of `c` itself.
  let s₁ :=
    match prev with
    | some prev => s.setNext prev (s.next cur)
    | none => s.setHead (s.next cur)
  (s₁.setNext cur (s₁.mc c).mcAreas).setList c (some cur)

theorem next_taken {cur : ℕ} {prev : Option ℕ} {s : State C} :
    (taken c cur prev s).next =
      Function.update (match prev with
        | some p => Function.update s.next p (s.next cur)
        | none => s.next) cur (s.mc c).mcAreas := by
  cases prev with
  | none => exact next_setNext
  | some p =>
    change ((s.setNext p (s.next cur)).setNext cur _).next = _
    rw [next_setNext, next_setNext]
    rfl

theorem same_taken {cur : ℕ} {prev : Option ℕ} {s : State C} {as : List ℕ} (hcur : cur ∈ as)
    (hprev : ∀ p, prev = some p → p ∈ as) : Same c as s (taken c cur prev s) where
  size := by cases prev <;> rfl
  reg a := by
    cases prev with
    | none => exact toReg_setNext
    | some p => exact toReg_setNext.trans toReg_setNext
  index d := by
    have hindex : (((taken c cur prev s).mc) d).index = (s.mc d).index := by
      by_cases hd : d = c
      · subst hd
        cases prev <;> simp [taken, State.setList, State.setNext, State.setHead]
      · cases prev <;> simp [taken, State.setList, State.setNext, State.setHead, hd]
    exact hindex
  lists d hd := by cases prev <;> simp [taken, State.setList, State.setNext, State.setHead, hd]
  next a ha := by
    have hne : a ≠ cur := fun h => ha (h ▸ hcur)
    rw [next_taken, Function.update_of_ne hne]
    cases prev with
    | none => rfl
    | some p =>
      have hap : a ≠ p := fun h => ha (h ▸ hprev p rfl)
      exact Function.update_of_ne hap _ _

theorem grab_succ {fuel cur : ℕ} {prev : Option ℕ} {s : State C} (hprev : prev ≠ some cur) :
    grab c (fuel + 1) (some cur) prev s =
      if (s.area cur).mc = (s.mc c).index then
        grab c fuel (s.next cur) (some cur) (taken c cur prev s)
      else grab c fuel (s.next cur) (some cur) s := by
  cases prev with
  | none => rfl
  | some p =>
    have hne : cur ≠ p := fun h => hprev (congrArg some h.symm)
    have htmp : (s.setNext p (s.next cur)).next cur = s.next cur := by
      rw [next_setNext, Function.update_of_ne hne]
    rw [grab]
    simp only [htmp]
    rfl

/-! ### Areas apart from each other -/

theorem Grabbing.same (h : Grabbing k mine done (x :: rest) c cur prev s) :
    Same c (done ++ x :: rest) s (taken c x prev s) := by
  refine same_taken (by simp) fun p hp => List.mem_append_left _ ?_
  rw [h.last] at hp
  exact List.mem_of_getLast? hp

/-- An area of the index is moved, if the one before it was not. -/
theorem Grabbing.take (h : Grabbing k mine done (x :: rest) c cur prev s) (hx : (s.area x).mc = k)
    (hprev : ∀ p, prev = some p → (s.area p).mc ≠ k) :
    Grabbing k mine (done ++ [x]) rest c (s.next x) (some x) (taken c x prev s) := by
  obtain ⟨hdone, hrest⟩ := h.notMem
  have hsame := h.same
  have hkept : ∀ a, ((taken c x prev s).area a).mc = (s.area a).mc := hsame.mc_eq
  have hlast : ∀ a ∈ rest ++ mine, prev ≠ some a := by
    intro a ha hp
    rw [h.last] at hp
    have hmem := List.mem_of_getLast? hp
    rcases List.mem_append.1 ha with ha | ha
    · exact (List.nodup_append.1 h.nodup).2.2 a hmem a (List.mem_cons_of_mem _ ha) rfl
    · exact h.apart a ha (List.mem_append_left _ hmem)
  -- Only the area itself and the one before it are linked anew.
  have hnext : ∀ a, a ≠ x → prev ≠ some a → (taken c x prev s).next a = s.next a := by
    intro a hax hap
    rw [next_taken, Function.update_of_ne hax]
    cases prev with
    | none => rfl
    | some p => exact Function.update_of_ne (fun hpa => hap (congrArg some hpa.symm)) _ _
  have hmine : x ∉ mine := fun hm => h.apart x hm (by simp)
  refine ⟨?_, ?_, ?_, ?_, by simp, by simpa using h.nodup, by simpa using h.apart⟩
  · rw [hsame.index, h.index]
  · -- The link to the area is replaced by the link from it.
    simp only [hkept]
    rw [List.filter_append, List.filter_cons_of_neg (by simpa using hx), List.filter_nil,
      List.append_nil]
    cases hp : prev with
    | none =>
      have hnil : done = [] := List.getLast?_eq_none_iff.1 (h.last ▸ hp)
      subst hnil
      rfl
    | some p =>
      obtain ⟨before, rfl⟩ := List.getLast?_eq_some_iff.1 (h.last ▸ hp)
      have hpk : (s.area p).mc ≠ k := hprev p hp
      have hpb : p ∉ before := fun hb =>
        (List.nodup_append.1 (List.nodup_append.1 h.nodup).1).2.2 p hb p List.mem_cons_self rfl
      have hhead := h.head
      rw [h.cur_eq] at hhead
      rw [List.filter_append, List.filter_cons_of_pos (by simpa using hpk),
        List.filter_nil] at hhead ⊢
      rw [next_taken]
      refine (hhead.redirect fun hb => hpb (List.mem_of_mem_filter hb)).update fun hx => hdone ?_
      rw [List.mem_append] at hx ⊢
      exact hx.imp_left List.mem_of_mem_filter
  · refine h.left.2.congr fun a ha => hnext a ?_ (hlast a (List.mem_append_left _ ha))
    rintro rfl
    exact hrest ha
  · simp only [hkept]
    rw [List.filter_append, List.filter_cons_of_pos (by simpa using hx), List.filter_nil,
      List.reverse_append, List.reverse_singleton, List.singleton_append, List.cons_append]
    refine ⟨by cases prev <;> simp [taken, State.setList], ?_⟩
    have hx' : (taken c x prev s).next x = (s.mc c).mcAreas := by
      rw [next_taken, Function.update_self]
    rw [hx']
    refine h.list.congr fun a ha => ?_
    rw [List.mem_append, List.mem_reverse, List.mem_filter, decide_eq_true_iff] at ha
    rcases ha with ⟨ha, hak⟩ | ha
    · exact hnext a (fun hax => hdone (hax ▸ ha)) fun hp => hprev a hp hak
    · exact hnext a (fun hax => hmine (hax ▸ ha)) (hlast a (List.mem_append_right _ ha))

/-- No two areas of the index `k` follow each other. -/
def Separated (k : ℤ) (mcs : List ℤ) : Prop := mcs.IsChain fun i j => ¬(i = k ∧ j = k)

instance (k : ℤ) (mcs : List ℤ) : Decidable (Separated k mcs) :=
  inferInstanceAs (Decidable (mcs.IsChain _))

theorem separated_cons {f : ℕ → ℤ} : Separated k ((prev.toList ++ x :: rest).map f) ↔
    (∀ p, prev = some p → ¬(f p = k ∧ f x = k)) ∧ Separated k ((x :: rest).map f) := by
  cases prev with
  | none => simp
  | some p =>
    rw [Option.toList_some, List.singleton_append, List.map_cons, List.map_cons, Separated,
      List.isChain_cons_cons, Separated]
    simp

/-- **Areas apart from each other** are all moved, and the others stay in their order. -/
theorem grab_separated {fuel : ℕ} (h : Grabbing k mine done rest c cur prev s)
    (hfuel : rest.length ≤ fuel)
    (hsep : Separated k ((prev.toList ++ rest).map fun a => (s.area a).mc)) :
    ∃ s', grab c fuel cur prev s = some s' ∧ Same c (done ++ rest) s s' ∧
      Grabbing k mine (done ++ rest) [] c none (done ++ rest).getLast? s' := by
  induction rest generalizing done cur prev s fuel with
  | nil =>
    obtain rfl : cur = none := h.left
    rw [List.append_nil]
    refine ⟨s, by rw [grab], Same.refl _ _ _, ?_⟩
    rw [← h.last]
    exact h
  | cons x rest ih =>
    obtain ⟨fuel, rfl⟩ : ∃ n, fuel = n + 1 := ⟨fuel - 1, by rw [List.length_cons] at hfuel; omega⟩
    have hle : rest.length ≤ fuel := by simpa using hfuel
    obtain ⟨hfirst, hrest⟩ := separated_cons.1 hsep
    rw [h.cur_eq, grab_succ h.prev_ne, List.append_cons done]
    split_ifs with hx
    · have hxk : (s.area x).mc = k := hx.trans h.index
      have hsame := h.same
      have htake := h.take hxk fun p hp hpk => hfirst p hp ⟨hpk, hxk⟩
      obtain ⟨s', hgrab, hsame', hdone⟩ := ih htake hle (by simp only [hsame.mc_eq]; exact hrest)
      rw [List.append_cons done] at hsame
      exact ⟨s', hgrab, hsame.trans hsame', hdone⟩
    · exact ih (h.keep fun hxk => hx (hxk.trans h.index.symm)) hle hrest

/-! ### Areas next to each other -/

/-- The list still leads to an area `x` of the index `k`, over cells that the loop does not link
anew any more: neither one of the areas `rest` nor the one before them. -/
structure Lost (before : List ℕ) (x : ℕ) (rest : List ℕ) (cur prev : Option ℕ) (s : State C) :
    Prop where
  head : Seg s.next s.mcAreas before (some x)
  left : Seg s.next cur rest none
  last : ∃ p, prev = some p ∧ p ∉ before ∧ p ∉ rest
  nodup : rest.Nodup
  apart : ∀ a ∈ rest, a ∉ before

theorem Lost.step {before : List ℕ} {y : ℕ} (h : Lost before x (y :: rest) cur prev s) :
    Lost before x rest (s.next y) (some y) s ∧
      Lost before x rest (s.next y) (some y) (taken c y prev s) := by
  obtain ⟨p, rfl, hpb, hpr⟩ := h.last
  obtain ⟨hy, hnodup⟩ := List.nodup_cons.1 h.nodup
  have hyb := h.apart y List.mem_cons_self
  have hapart : ∀ a ∈ rest, a ∉ before := fun a ha => h.apart a (List.mem_cons_of_mem _ ha)
  have hlast : ∃ p, some y = some p ∧ p ∉ before ∧ p ∉ rest := ⟨y, rfl, hyb, hy⟩
  refine ⟨⟨h.head, h.left.2, hlast, hnodup, hapart⟩, ?_, ?_, hlast, hnodup, hapart⟩
  · rw [next_taken]
    exact (h.head.update hpb).update hyb
  · rw [next_taken]
    exact (h.left.2.update fun hp => hpr (List.mem_cons_of_mem _ hp)).update hy

theorem grab_lost {fuel : ℕ} {before : List ℕ} {s' : State C} (h : Lost before x rest cur prev s)
    (hgrab : grab c fuel cur prev s = some s') : Seg s'.next s'.mcAreas before (some x) := by
  -- Whether the areas behind it are taken or not, the links up to `x` stay.
  induction rest generalizing cur prev s fuel with
  | nil =>
    obtain rfl : cur = none := h.left
    rw [grab] at hgrab
    cases hgrab
    exact h.head
  | cons y rest ih =>
    obtain ⟨p, hp, -, hpr⟩ := h.last
    have hne : prev ≠ some y := by
      rw [hp]
      exact fun hpy => hpr (Option.some.inj hpy ▸ List.mem_cons_self)
    obtain ⟨hskip, htake⟩ := h.step (c := c)
    cases fuel with
    | zero =>
      rw [h.left.1, grab] at hgrab
      cases hgrab
    | succ fuel =>
      rw [h.left.1, grab_succ hne] at hgrab
      split_ifs at hgrab with hy
      · exact ih htake hgrab
      · exact ih hskip hgrab

/-- **Of two areas next to each other the second one stays**: the list leads to it after the
loop. -/
theorem grab_adjacent {fuel : ℕ} {s' : State C} (h : Grabbing k mine done rest c cur prev s)
    (hsep : ¬Separated k ((prev.toList ++ rest).map fun a => (s.area a).mc))
    (hgrab : grab c fuel cur prev s = some s') :
    ∃ before x, Seg s'.next s'.mcAreas before (some x) ∧ (s.area x).mc = k := by
  induction rest generalizing done cur prev s fuel with
  | nil =>
    refine absurd ?_ hsep
    cases prev <;> simp [Separated]
  | cons x rest ih =>
    cases fuel with
    | zero =>
      rw [h.cur_eq, grab] at hgrab
      cases hgrab
    | succ fuel =>
      rw [h.cur_eq, grab_succ h.prev_ne] at hgrab
      by_cases hfirst : ∃ p, prev = some p ∧ (s.area p).mc = k ∧ (s.area x).mc = k
      · -- The list leads to `x`, and the cell before it there is not `prev`.
        obtain ⟨p, rfl, hpk, hxk⟩ := hfirst
        rw [if_pos (hxk.trans h.index.symm)] at hgrab
        obtain ⟨hdone, hrest⟩ := h.notMem
        have hp : p ∈ done := List.mem_of_getLast? h.last.symm
        have hprest : p ∉ rest := fun hpr =>
          (List.nodup_append.1 h.nodup).2.2 p hp p (List.mem_cons_of_mem _ hpr) rfl
        have hlost : Lost (done.filter fun a => (s.area a).mc ≠ k) x rest (s.next x) (some x)
            (taken c x (some p) s) := by
          refine ⟨?_, ?_, ⟨x, rfl, fun hx => hdone (List.mem_of_mem_filter hx), hrest⟩,
            (List.nodup_cons.1 (List.nodup_append.1 h.nodup).2.1).2, fun a ha hd => ?_⟩
          · rw [next_taken]
            have hhead := h.head
            rw [h.cur_eq] at hhead
            exact (hhead.update (by simp [hpk])).update fun hx => hdone (List.mem_of_mem_filter hx)
          · rw [next_taken]
            exact (h.left.2.update hprest).update hrest
          · exact (List.nodup_append.1 h.nodup).2.2 a (List.mem_of_mem_filter hd) a
              (List.mem_cons_of_mem _ ha) rfl
        exact ⟨_, x, grab_lost hlost hgrab, hxk⟩
      · have hrest : ¬Separated k ((x :: rest).map fun a => (s.area a).mc) := fun hrest =>
          hsep (separated_cons.2 ⟨fun p hp hk => hfirst ⟨p, hp, hk⟩, hrest⟩)
        split_ifs at hgrab with hx
        · have hxk : (s.area x).mc = k := hx.trans h.index
          have hsame := h.same
          obtain ⟨before, y, hseg, hy⟩ := ih (h.take hxk fun p hp hpk => hfirst ⟨p, hp, hpk, hxk⟩)
            (by simp only [hsame.mc_eq]; exact hrest) hgrab
          exact ⟨before, y, hseg, (hsame.mc_eq y).symm.trans hy⟩
        · exact ih (h.keep fun hxk => hx (hxk.trans h.index.symm)) hrest hgrab

end Mc
end Or1ksim
