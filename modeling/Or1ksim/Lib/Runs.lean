import Mathlib.Data.List.Induction
import Mathlib.Logic.Basic

/-!
# Runs of a step that may stop

A step function `f : σ → α → Except ε σ`, run over a list of inputs by `List.foldlM`.

* `map_eq_ok_iff`, `bind_eq_ok_iff` — results of `Except.map` and of a bind;
* `foldlM_append_eq_ok_iff` — a run over two lists goes through a state in between;
* `Along` — a condition on the steps of a run;
* `foldlM_invariant` — what such steps keep holds at the end of a run of them;
* `foldlM_range_invariant` — the same for a loop that counts, with the count in the invariant;
* `along_iff` — an exact condition on the steps is an exact condition on the runs;
* `avoids_run_iff` — an exact condition for not stopping with one error;
* `foldl_prefix_iff` — the same for steps that always go on;
* `steps` — a step taken again and again: it ends if a rank falls;
* `exists_foldlM`, `foldlM_keeps` — a run goes on as long as its steps do, and keeps what they keep.
-/

namespace Or1ksim
namespace Runs

variable {ε α β σ : Type}

theorem map_eq_ok_iff {f : α → β} {x : Except ε α} {b : β} :
    x.map f = .ok b ↔ ∃ a, x = .ok a ∧ f a = b := by
  cases x with
  | error e => simp [Except.map]
  | ok a => simp [Except.map]

theorem bind_eq_ok_iff {f : α → Except ε β} {x : Except ε α} {b : β} :
    x >>= f = .ok b ↔ ∃ a, x = .ok a ∧ f a = .ok b := by
  cases x with
  | error e => simp [bind, Except.bind]
  | ok a => simp [bind, Except.bind]

theorem bind_eq_error_iff {f : α → Except ε β} {x : Except ε α} {e : ε} :
    x >>= f = .error e ↔ x = .error e ∨ ∃ a, x = .ok a ∧ f a = .error e := by
  cases x with
  | error e => simp [bind, Except.bind]
  | ok a => simp [bind, Except.bind]

theorem exists_ok_of_any {p : α → Bool} {x : Except ε α} (h : x.toOption.any p = true) :
    ∃ a, x = .ok a ∧ p a = true := by
  cases x with
  | error e => exact absurd h Bool.false_ne_true
  | ok a => exact ⟨a, rfl, h⟩

/-- The error, if there is one. -/
def errorOf : Except ε α → Option ε
  | .error e => some e
  | .ok _ => none

theorem eq_error_of_errorOf {x : Except ε α} {e : ε} (h : errorOf x = some e) : x = .error e := by
  cases x with
  | error e' =>
    cases h
    rfl
  | ok a => cases h

variable {f : σ → α → Except ε σ}

theorem foldlM_cons_eq_ok_iff {a : α} {as : List α} {s t : σ} :
    (a :: as).foldlM f s = .ok t ↔ ∃ u, f s a = .ok u ∧ as.foldlM f u = .ok t := by
  rw [List.foldlM_cons, bind_eq_ok_iff]

theorem foldlM_append_eq_ok_iff {as bs : List α} {s t : σ} :
    (as ++ bs).foldlM f s = .ok t ↔ ∃ u, as.foldlM f s = .ok u ∧ bs.foldlM f u = .ok t := by
  rw [List.foldlM_append, bind_eq_ok_iff]

/-- A condition on every step of a run: it holds of each input in the state it is met in. -/
def Along (f : σ → α → Except ε σ) (C : σ → α → Prop) : σ → List α → Prop
  | _, [] => True
  | s, a :: as => C s a ∧ ∀ t, f s a = .ok t → Along f C t as

/-- What every step keeps that meets the condition, holds at the end of a run all of whose steps
meet it. -/
theorem foldlM_invariant {C : σ → α → Prop} {P : σ → Prop}
    (hstep : ∀ s a t, P s → C s a → f s a = .ok t → P t) {as : List α} {s t : σ} (hs : P s)
    (hC : Along f C s as) (h : as.foldlM f s = .ok t) : P t := by
  induction as generalizing s with
  | nil =>
    cases h
    exact hs
  | cons a as ih =>
    obtain ⟨u, hu, h⟩ := foldlM_cons_eq_ok_iff.1 h
    exact ih (hstep s a u hs hC.1 hu) (hC.2 u hu) h

/-- What each turn of a loop carries from its number to the next holds behind the last turn. -/
theorem foldlM_range_invariant {f : σ → ℕ → Except ε σ} {P : ℕ → σ → Prop} {n : ℕ} {s t : σ}
    (hstep : ∀ k < n, ∀ t u, P k t → f t k = .ok u → P (k + 1) u) (hs : P 0 s)
    (h : (List.range n).foldlM f s = .ok t) : P n t := by
  induction n generalizing t with
  | zero =>
    cases h
    exact hs
  | succ n ih =>
    rw [List.range_succ] at h
    obtain ⟨u, hu, h⟩ := foldlM_append_eq_ok_iff.1 h
    obtain ⟨u', hu', h⟩ := foldlM_cons_eq_ok_iff.1 h
    cases h
    exact hstep n (Nat.lt_succ_self n) u _ (ih (fun k hk => hstep k (Nat.lt_succ_of_lt hk)) hu) hu'

/-- If the condition is exactly what makes the steps on some inputs keep `P`, a run over such inputs
meets it exactly when `P` holds in every state of the run. -/
theorem along_iff_of_mem {C : σ → α → Prop} {P : σ → Prop} {as : List α} {s : σ}
    (hstep : ∀ a ∈ as, ∀ s, P s → ((∀ t, f s a = .ok t → P t) ↔ C s a)) (hs : P s) :
    (∀ pre, pre <+: as → ∀ t, pre.foldlM f s = .ok t → P t) ↔ Along f C s as := by
  induction as generalizing s with
  | nil =>
    refine iff_of_true (fun pre hpre t h => ?_) trivial
    obtain rfl := List.prefix_nil.1 hpre
    cases h
    exact hs
  | cons a as ih =>
    have hhead := hstep a (.head as)
    have htail := fun b hb => hstep b (.tail a hb)
    constructor
    · intro hall
      have hkeep : ∀ t, f s a = .ok t → P t := fun t ht =>
        hall [a] (List.prefix_iff_eq_take.2 rfl) t (foldlM_cons_eq_ok_iff.2 ⟨t, ht, rfl⟩)
      refine ⟨(hhead s hs).1 hkeep, fun t ht => (ih htail (hkeep t ht)).1 fun pre hpre u hu => ?_⟩
      exact hall (a :: pre) ((List.prefix_cons_inj a).2 hpre) u
        (foldlM_cons_eq_ok_iff.2 ⟨t, ht, hu⟩)
    · rintro ⟨hC, hrest⟩ pre hpre t h
      cases pre with
      | nil =>
        cases h
        exact hs
      | cons b pre =>
        obtain ⟨rfl, hrestpre⟩ := List.cons_prefix_cons.1 hpre
        obtain ⟨u, hu, h⟩ := foldlM_cons_eq_ok_iff.1 h
        exact (ih htail ((hhead s hs).2 hC u hu)).2 (hrest u hu) pre hrestpre t h

/-- If the condition is exactly what makes a step keep `P`, a run meets it exactly when `P` holds in
every state of the run. -/
theorem along_iff {C : σ → α → Prop} {P : σ → Prop}
    (hstep : ∀ s a, P s → ((∀ t, f s a = .ok t → P t) ↔ C s a)) {as : List α} {s : σ} (hs : P s) :
    (∀ pre, pre <+: as → ∀ t, pre.foldlM f s = .ok t → P t) ↔ Along f C s as :=
  along_iff_of_mem (fun a _ s => hstep s a) hs

/-- The condition on a run is a condition on its beginnings. -/
theorem Along.of_prefix {C : σ → α → Prop} {pre as : List α} {s : σ} (hpre : pre <+: as)
    (h : Along f C s as) : Along f C s pre := by
  induction pre generalizing s as with
  | nil => trivial
  | cons a pre ih =>
    cases as with
    | nil => exact absurd (List.prefix_nil.1 hpre) (List.cons_ne_nil a pre)
    | cons b as =>
      obtain ⟨rfl, htail⟩ := List.cons_prefix_cons.1 hpre
      exact ⟨h.1, fun t ht => ih htail (h.2 t ht)⟩

theorem along_cons_ok {C : σ → α → Prop} {a : α} {as : List α} {s t : σ} (h : f s a = .ok t) :
    Along f C s (a :: as) ↔ C s a ∧ Along f C t as := by
  rw [Along, h]
  simp only [Except.ok.injEq, forall_eq']

theorem along_cons_error {C : σ → α → Prop} {a : α} {as : List α} {s : σ} {e : ε}
    (h : f s a = .error e) : Along f C s (a :: as) ↔ C s a := by
  rw [Along, h]
  exact and_iff_left nofun

/-- A condition that is decidable at each step is decidable along a run. -/
instance decidableAlong {C : σ → α → Prop} [∀ s a, Decidable (C s a)] :
    (s : σ) → (as : List α) → Decidable (Along f C s as)
  | _, [] => isTrue trivial
  | s, a :: as =>
    match h : f s a with
    | .ok t =>
      have := decidableAlong (C := C) t as
      decidable_of_iff _ (along_cons_ok h).symm
    | .error _ => decidable_of_iff _ (along_cons_error h).symm

theorem along_of_mem {C : σ → α → Prop} {as : List α} (h : ∀ a ∈ as, ∀ s, C s a) (s : σ) :
    Along f C s as := by
  induction as generalizing s with
  | nil => trivial
  | cons a as ih => exact ⟨h a (.head _) s, fun t _ => ih (fun a ha => h a (.tail _ ha)) t⟩

theorem along_of_forall {C : α → Prop} {as : List α} (h : ∀ a ∈ as, C a) (s : σ) :
    Along f (fun _ => C) s as :=
  along_of_mem (fun a ha _ => h a ha) s

/-! ### Runs that must not stop one way -/

/-- There is no result for another reason than the bad one, or the result meets the condition. -/
def Avoids (bad : ε) (Q : α → Prop) (x : Except ε α) : Prop :=
  x ≠ .error bad ∧ ∀ a, x = .ok a → Q a

section

variable {bad : ε} {Q : α → Prop} {R : β → Prop} {x : Except ε α}

theorem avoids_ok {a : α} (h : Q a) : Avoids bad Q (.ok a) := by
  refine ⟨(fun he => nomatch he), fun b hb => ?_⟩
  cases hb
  exact h

theorem Avoids.bind {g : α → Except ε β} (hx : Avoids bad Q x)
    (hg : ∀ a, x = .ok a → Q a → Avoids bad R (g a)) : Avoids bad R (x >>= g) := by
  obtain ⟨hbad, hQ⟩ := hx
  cases x with
  | error e =>
    refine ⟨fun he => ?_, fun b hb => nomatch hb⟩
    cases he
    exact hbad rfl
  | ok a => exact hg a rfl (hQ a rfl)

/-- If the condition is exactly what makes an allowed step avoid the bad error, and such steps keep
`P`, a run of allowed steps meets it exactly when no beginning of the run meets the bad error. -/
theorem avoids_run_iff {A C : σ → α → Prop} {P Q : σ → Prop}
    (hstep : ∀ s a, P s → A s a → (f s a ≠ .error bad ↔ C s a) ∧ ∀ t, f s a = .ok t → P t)
    (hQ : ∀ s, P s → Q s) {as : List α} {s : σ} (hs : P s) (hA : Along f A s as) :
    (∀ pre, pre <+: as → Avoids bad Q (pre.foldlM f s)) ↔ Along f C s as := by
  induction as generalizing s with
  | nil =>
    refine iff_of_true (fun pre hpre => ?_) trivial
    obtain rfl := List.prefix_nil.1 hpre
    exact avoids_ok (hQ s hs)
  | cons a as ih =>
    obtain ⟨ha, hrest⟩ := hA
    obtain ⟨hbad, hkeep⟩ := hstep s a hs ha
    constructor
    · intro hall
      have hhead : f s a ≠ .error bad := by
        intro herror
        refine (hall [a] (List.prefix_iff_eq_take.2 rfl)).1 ?_
        rw [List.foldlM_cons, herror]
        rfl
      refine ⟨hbad.1 hhead, fun t ht => (ih (hkeep t ht) (hrest t ht)).1 fun pre hpre => ?_⟩
      have hcons := hall (a :: pre) ((List.prefix_cons_inj a).2 hpre)
      rwa [List.foldlM_cons, ht] at hcons
    · rintro ⟨hC, hCrest⟩ pre hpre
      cases pre with
      | nil => exact avoids_ok (hQ s hs)
      | cons b pre =>
        obtain ⟨rfl, hrestpre⟩ := List.cons_prefix_cons.1 hpre
        rw [List.foldlM_cons]
        have hb : Avoids bad P (f s b) := ⟨hbad.2 hC, hkeep⟩
        refine hb.bind fun t ht hP => ?_
        exact (ih hP (hrest t ht)).2 (hCrest t ht) pre hrestpre

end

/-! ### Steps that always go on -/

/-- What a step keeps exactly under a condition is kept by runs exactly under it. -/
theorem foldl_prefix_iff {g : σ → α → σ} {C : σ → α → Prop} {P : σ → Prop} {as : List α} {s : σ}
    (hstep : ∀ s a, P s → (P (g s a) ↔ C s a)) (hs : P s) :
    (∀ pre, pre <+: as → P (pre.foldl g s)) ↔
      ∀ pre a, pre ++ [a] <+: as → C (pre.foldl g s) a := by
  have hsnoc : ∀ pre a, (pre ++ [a]).foldl g s = g (pre.foldl g s) a := fun pre a => by
    rw [List.foldl_append, List.foldl_cons, List.foldl_nil]
  constructor
  · intro h pre a hpre
    have hlast := h (pre ++ [a]) hpre
    rw [hsnoc] at hlast
    exact (hstep _ a (h pre ((List.prefix_append pre [a]).trans hpre))).1 hlast
  · intro h pre
    -- The run is extended by its last step.
    induction pre using List.reverseRecOn with
    | nil => exact fun _ => hs
    | append_singleton pre a ih =>
      intro hpre
      rw [hsnoc]
      exact (hstep _ a (ih ((List.prefix_append pre [a]).trans hpre))).2 (h pre a hpre)

/-! ### Steps that may end -/

/-- The state after `n` steps, if so many are made. -/
def steps (step : σ → Option σ) : ℕ → σ → Option σ
  | 0, s => some s
  | n + 1, s => (step s).bind (steps step n)

section Steps

variable {step : σ → Option σ} {I : σ → Prop}

theorem steps_invariant (hstep : ∀ s t, I s → step s = some t → I t) {n : ℕ} {s t : σ} (hs : I s)
    (h : steps step n s = some t) : I t := by
  induction n generalizing s with
  | zero =>
    cases h
    exact hs
  | succ n ih =>
    obtain ⟨u, hu, h⟩ := Option.bind_eq_some_iff.1 h
    exact ih (hstep s u hs hu) h

end Steps

section Foldl

variable {f f' : σ → α → Option σ}

theorem exists_foldlM {P : σ → Prop} {as : List α}
    (hstep : ∀ a ∈ as, ∀ s, P s → ∃ t, f s a = some t ∧ P t) {s : σ} (hs : P s) :
    ∃ t, as.foldlM f s = some t ∧ P t := by
  induction as generalizing s with
  | nil => exact ⟨s, rfl, hs⟩
  | cons a as ih =>
    obtain ⟨t, ht, hP⟩ := hstep a List.mem_cons_self s hs
    obtain ⟨u, hu, hPu⟩ := ih (fun b hb => hstep b (List.mem_cons_of_mem a hb)) hP
    exact ⟨u, by rw [List.foldlM_cons, ht]; exact hu, hPu⟩

theorem foldlM_keeps {P : σ → Prop} (hstep : ∀ s a t, P s → f s a = some t → P t) {as : List α}
    {s t : σ} (hs : P s) (h : as.foldlM f s = some t) : P t := by
  induction as generalizing s with
  | nil =>
    cases h
    exact hs
  | cons a as ih =>
    rw [List.foldlM_cons] at h
    obtain ⟨u, hu, hrest⟩ := Option.bind_eq_some_iff.1 h
    exact ih (hstep s a u hs hu) hrest

/-- What every step carries from the inputs so far to those with the next one holds at the end of a
run. -/
theorem foldlM_prefix {P : List α → σ → Prop}
    (hstep : ∀ pre a s t, P pre s → f s a = some t → P (pre ++ [a]) t) {as pre : List α} {s t : σ}
    (hs : P pre s) (h : as.foldlM f s = some t) : P (pre ++ as) t := by
  induction as generalizing pre s with
  | nil =>
    cases h
    rwa [List.append_nil]
  | cons a as ih =>
    rw [List.foldlM_cons] at h
    obtain ⟨u, hu, hrest⟩ := Option.bind_eq_some_iff.1 h
    rw [← List.singleton_append, ← List.append_assoc]
    exact ih (hstep pre a s u hs hu) hrest

/-- What each turn of a loop carries from its number to the next holds behind the last turn. -/
theorem foldlM_count {f : σ → ℕ → Option σ} {P : ℕ → σ → Prop} {n : ℕ} {s t : σ}
    (hstep : ∀ k < n, ∀ t u, P k t → f t k = some u → P (k + 1) u) (hs : P 0 s)
    (h : (List.range n).foldlM f s = some t) : P n t := by
  induction n generalizing t with
  | zero =>
    cases h
    exact hs
  | succ n ih =>
    rw [List.range_succ, List.foldlM_append] at h
    obtain ⟨u, hu, h⟩ := Option.bind_eq_some_iff.1 h
    rw [List.foldlM_cons] at h
    obtain ⟨v, hv, h⟩ := Option.bind_eq_some_iff.1 h
    cases h
    exact hstep n (Nat.lt_succ_self n) u _ (ih (fun k hk => hstep k (Nat.lt_succ_of_lt hk)) hu) hv

theorem foldlM_eq_of_le (hle : ∀ s a t, f s a = some t → f' s a = some t) {as : List α} {s t : σ}
    (h : as.foldlM f s = some t) : as.foldlM f' s = some t := by
  induction as generalizing s with
  | nil => exact h
  | cons a as ih =>
    rw [List.foldlM_cons] at h ⊢
    obtain ⟨u, hu, hrest⟩ := Option.bind_eq_some_iff.1 h
    exact Option.bind_eq_some_iff.2 ⟨u, hle s a u hu, ih hrest⟩

end Foldl
end Runs
end Or1ksim
