import Mathlib.Data.Finset.Card
import Mathlib.Data.Finset.Filter
import Mathlib.Logic.Relation

/-!
# Depth-first search

A search that marks the places it comes to and goes on from every place once.

* `Dfs.visit` — the search, with a bound on its depth;
* `Dfs.visit_invariant` — what every mark keeps, the search keeps;
* `Dfs.visit_closed` — **with enough depth, the successors of what was marked are marked**;
* `Dfs.visit_reachable` — so everything reachable from the start is marked;
* `Dfs.search` — the search with the bound on its depth observed;
* `Dfs.search_all` — **searches from several places end and mark what can be reached from them**.
-/

namespace Or1ksim
namespace Dfs

variable {α σ : Type} (succ : α → List α) (seen : σ → α → Bool) (mark : α → σ → σ)

/-- Marks `a` and goes on with its successors, unless it is marked. -/
def visit : ℕ → α → σ → σ
  | 0, _, s => s
  | n + 1, a, s => if seen s a then s else (succ a).foldl (fun s b => visit n b s) (mark a s)

/-- The same search, which says when its depth was too small. -/
def search : ℕ → α → σ → Option σ
  | 0, _, _ => none
  | n + 1, a, s =>
    if seen s a then some s else (succ a).foldlM (fun s b => search n b s) (mark a s)

/-- `b` can be reached from `a`. -/
abbrev Reaches (a b : α) : Prop := Relation.ReflTransGen (fun b c => c ∈ succ b) a b

variable {succ seen mark}

theorem visit_succ (n : ℕ) (a : α) (s : σ) : visit succ seen mark (n + 1) a s =
    if seen s a then s else (succ a).foldl (fun s b => visit succ seen mark n b s) (mark a s) := rfl

theorem search_succ (n : ℕ) (a : α) (s : σ) : search succ seen mark (n + 1) a s =
    if seen s a then some s
    else (succ a).foldlM (fun s b => search succ seen mark n b s) (mark a s) := rfl

theorem visit_invariant {P : σ → Prop} (hmark : ∀ a s, P s → P (mark a s)) (n : ℕ) (a : α) (s : σ)
    (hs : P s) : P (visit succ seen mark n a s) := by
  induction n generalizing a s with
  | zero => exact hs
  | succ n ih =>
    rw [visit_succ]
    split
    · exact hs
    · exact List.foldlRecOn (succ a) _ (hmark a s hs) fun t ht b _ => ih b t ht

/-- `t` has more marks than `s`, and all successors of the new ones. -/
structure Grows (succ : α → List α) (seen : σ → α → Bool) (s t : σ) : Prop where
  mono : ∀ b, seen s b → seen t b
  closed : ∀ b, seen t b → seen s b = false → ∀ c ∈ succ b, seen t c

theorem Grows.refl (s : σ) : Grows succ seen s s :=
  ⟨fun _ h => h, fun _ h h' => absurd (h.symm.trans h') Bool.noConfusion⟩

theorem Grows.trans {s t u : σ} (hst : Grows succ seen s t) (htu : Grows succ seen t u) :
    Grows succ seen s u := by
  refine ⟨fun b hb => htu.mono b (hst.mono b hb), fun b hu hs c hc => ?_⟩
  cases ht : seen t b with
  | true => exact htu.mono c (hst.closed b ht hs c hc)
  | false => exact htu.closed b hu ht c hc

/-- The places of `U` without a mark. -/
def unseen (seen : σ → α → Bool) (U : Finset α) (s : σ) : Finset α :=
  U.filter fun b => seen s b = false

variable {U : Finset α}

theorem Grows.card_unseen_le {s t : σ} (h : Grows succ seen s t) :
    (unseen seen U t).card ≤ (unseen seen U s).card := by
  refine Finset.card_le_card fun b hb => ?_
  obtain ⟨hbU, hb⟩ := Finset.mem_filter.1 hb
  refine Finset.mem_filter.2 ⟨hbU, ?_⟩
  cases hs : seen s b with
  | true => exact absurd (hb.symm.trans (h.mono b hs)) Bool.noConfusion
  | false => rfl

theorem foldl_closed {f : σ → α → σ} {n : ℕ}
    (hf : ∀ b ∈ U, ∀ t, (unseen seen U t).card < n → Grows succ seen t (f t b) ∧ seen (f t b) b)
    {l : List α} (hl : ∀ b ∈ l, b ∈ U) {s : σ} (hs : (unseen seen U s).card < n) :
    Grows succ seen s (l.foldl f s) ∧ ∀ b ∈ l, seen (l.foldl f s) b := by
  induction l generalizing s with
  | nil => exact ⟨.refl s, fun b hb => absurd hb List.not_mem_nil⟩
  | cons b l ih =>
    obtain ⟨hgrow, hb⟩ := hf b (hl b List.mem_cons_self) s hs
    obtain ⟨hgrow', hl'⟩ := ih (fun c hc => hl c (List.mem_cons_of_mem b hc))
      (hgrow.card_unseen_le.trans_lt hs)
    refine ⟨hgrow.trans hgrow', fun c hc => ?_⟩
    rcases List.mem_cons.1 hc with rfl | hc
    · exact hgrow'.mono c hb
    · exact hl' c hc

variable [DecidableEq α] (hmark : ∀ a s b, seen (mark a s) b = (decide (b = a) || seen s b))
include hmark

theorem unseen_mark {a : α} {s : σ} (ha : a ∈ U) (hseen : seen s a = false) :
    (unseen seen U (mark a s)).card < (unseen seen U s).card := by
  refine Finset.card_lt_card (Finset.ssubset_iff_of_subset (fun b hb => ?_) |>.2 ⟨a, ?_, ?_⟩)
  · obtain ⟨hbU, hb⟩ := Finset.mem_filter.1 hb
    rw [hmark, Bool.or_eq_false_iff] at hb
    exact Finset.mem_filter.2 ⟨hbU, hb.2⟩
  · exact Finset.mem_filter.2 ⟨ha, hseen⟩
  · intro hb
    have hne := (Finset.mem_filter.1 hb).2
    rw [hmark, Bool.or_eq_false_iff] at hne
    exact of_decide_eq_false hne.1 rfl

/-- **The successors of what the search marks are marked**: the number of places without a mark
bounds its depth. -/
theorem visit_closed (hU : ∀ a ∈ U, ∀ b ∈ succ a, b ∈ U) (n : ℕ) {a : α} {s : σ} (ha : a ∈ U)
    (hn : (unseen seen U s).card < n) :
    Grows succ seen s (visit succ seen mark n a s) ∧ seen (visit succ seen mark n a s) a := by
  induction n generalizing a s with
  | zero => exact absurd hn (Nat.not_lt_zero _)
  | succ n ih =>
    rw [visit_succ]
    cases hseen : seen s a with
    | true => exact ⟨.refl s, hseen⟩
    | false =>
      have hself : seen (mark a s) a := by simp [hmark]
      obtain ⟨hgrow, hsucc⟩ := foldl_closed (f := fun s b => visit succ seen mark n b s)
        (fun b hb t ht => ih hb ht) (hU a ha)
        ((unseen_mark hmark ha hseen).trans_le (Nat.lt_succ_iff.1 hn))
      refine ⟨⟨fun b hb => hgrow.mono b (by rw [hmark, hb, Bool.or_true]), fun b hb hsb c hc => ?_⟩,
        hgrow.mono a hself⟩
      -- the start has its successors marked last, the others when they were marked
      by_cases hba : b = a
      · exact hsucc c (hba ▸ hc)
      · exact hgrow.closed b hb (by rw [hmark, hsb, decide_eq_false hba]; rfl) c hc

/-- **Everything that can be reached is marked.** -/
theorem visit_reachable (hU : ∀ a ∈ U, ∀ b ∈ succ a, b ∈ U) {n : ℕ} {a b : α} {s : σ} (ha : a ∈ U)
    (hs : ∀ b, seen s b = false) (hn : U.card < n)
    (hreach : Reaches succ a b) :
    seen (visit succ seen mark n a s) b := by
  obtain ⟨hgrow, hself⟩ := visit_closed hmark hU n ha
    ((Finset.card_le_card (Finset.filter_subset _ U)).trans_lt hn)
  induction hreach with
  | refl => exact hself
  | tail _ hbc ih => exact hgrow.closed _ (ih hgrow hself) (hs _) _ hbc

omit [DecidableEq α] hmark in
/-- Going on with several places, where the depth is enough. -/
theorem foldlM_eq_foldl {f : σ → α → σ} {g : σ → α → Option σ} {n : ℕ}
    (hf : ∀ b ∈ U, ∀ t, (unseen seen U t).card < n → Grows succ seen t (f t b))
    (hg : ∀ b ∈ U, ∀ t, (unseen seen U t).card < n → g t b = some (f t b))
    {l : List α} (hl : ∀ b ∈ l, b ∈ U) {s : σ} (hs : (unseen seen U s).card < n) :
    l.foldlM g s = some (l.foldl f s) := by
  induction l generalizing s with
  | nil => rfl
  | cons b l ih =>
    have hb := hl b List.mem_cons_self
    rw [List.foldlM_cons, hg b hb s hs]
    exact ih (fun c hc => hl c (List.mem_cons_of_mem b hc))
      ((hf b hb s hs).card_unseen_le.trans_lt hs)

/-- **The search ends when its depth exceeds the number of places without a mark.** -/
theorem search_eq_visit (hU : ∀ a ∈ U, ∀ b ∈ succ a, b ∈ U) (n : ℕ) {a : α} {s : σ} (ha : a ∈ U)
    (hn : (unseen seen U s).card < n) :
    search succ seen mark n a s = some (visit succ seen mark n a s) := by
  induction n generalizing a s with
  | zero => exact absurd hn (Nat.not_lt_zero _)
  | succ n ih =>
    rw [search_succ, visit_succ]
    cases hseen : seen s a with
    | true => rfl
    | false =>
      exact foldlM_eq_foldl (fun b hb t ht => (visit_closed hmark hU n hb ht).1)
        (fun b hb t ht => ih hb ht) (hU a ha)
        ((unseen_mark hmark ha hseen).trans_le (Nat.lt_succ_iff.1 hn))

theorem visit_sound (n : ℕ) {a b : α} {s : σ} (hb : seen (visit succ seen mark n a s) b) :
    seen s b ∨ Reaches succ a b := by
  induction n generalizing a b s with
  | zero => exact .inl hb
  | succ n ih =>
    rw [visit_succ] at hb
    split at hb
    · exact .inl hb
    · -- what is marked so far was marked before, is the start, or comes after a successor of it
      revert b
      refine List.foldlRecOn (motive := fun t => ∀ {b}, seen t b → seen s b ∨ Reaches succ a b)
        (succ a) _ (fun {b} hb => ?_) fun t ht c hc {b} hb => ?_
      · rw [hmark, Bool.or_eq_true, decide_eq_true_eq] at hb
        rcases hb with rfl | hb
        · exact .inr .refl
        · exact .inl hb
      · rcases ih hb with hb | hb
        · exact ht hb
        · exact .inr (.head hc hb)

/-- The successors of all marked places are marked. -/
def Closed (succ : α → List α) (seen : σ → α → Bool) (U : Finset α) (s : σ) : Prop :=
  ∀ b ∈ U, seen s b → ∀ c ∈ succ b, seen s c

omit [DecidableEq α] hmark in
theorem Grows.keeps_closed {s t : σ} (h : Grows succ seen s t) (hs : Closed succ seen U s) :
    Closed succ seen U t := by
  intro b hb ht c hc
  cases hseen : seen s b with
  | true => exact h.mono c (hs b hb hseen c hc)
  | false => exact h.closed b ht hseen c hc

omit [DecidableEq α] hmark in
theorem Closed.reaches {t : σ} (ht : Closed succ seen U t) (hU : ∀ a ∈ U, ∀ b ∈ succ a, b ∈ U)
    {a b : α} (ha : a ∈ U) (hseen : seen t a) (hreach : Reaches succ a b) : seen t b := by
  have hboth : b ∈ U ∧ seen t b := by
    induction hreach with
    | refl => exact ⟨ha, hseen⟩
    | tail _ hbc ih => exact ⟨hU _ ih.1 _ hbc, ht _ ih.1 ih.2 _ hbc⟩
  exact hboth.2

/-- **Searches from several places, one after the other, end and mark what can be reached.** -/
theorem search_all (hU : ∀ a ∈ U, ∀ b ∈ succ a, b ∈ U) {n : ℕ} {roots : List α}
    (hroots : ∀ a ∈ roots, a ∈ U) {s : σ} (hs : Closed succ seen U s)
    (hn : (unseen seen U s).card < n) :
    ∃ t, roots.foldlM (fun s a => search succ seen mark n a s) s = some t ∧
      ∀ b, seen t b ↔ seen s b ∨ ∃ a ∈ roots, Reaches succ a b := by
  induction roots generalizing s with
  | nil => exact ⟨s, rfl, fun b => by simp⟩
  | cons a l ih =>
    have ha := hroots a List.mem_cons_self
    obtain ⟨hgrow, hself⟩ := visit_closed hmark hU n ha hn
    have hclosed := hgrow.keeps_closed hs
    obtain ⟨t, ht, hiff⟩ := ih (fun c hc => hroots c (List.mem_cons_of_mem a hc)) hclosed
      (hgrow.card_unseen_le.trans_lt hn)
    refine ⟨t, by rw [List.foldlM_cons, search_eq_visit hmark hU n ha hn]; exact ht, fun b => ?_⟩
    have hvisit : seen (visit succ seen mark n a s) b ↔ seen s b ∨ Reaches succ a b := by
      refine ⟨visit_sound hmark n, ?_⟩
      rintro (hb | hb)
      · exact hgrow.mono b hb
      · exact hclosed.reaches hU ha hself hb
    rw [hiff, hvisit, or_assoc]
    simp only [List.mem_cons, exists_eq_or_imp]

end Dfs
end Or1ksim
