import Mathlib.Data.List.Infix
import Or1ksim.Lib.Runs

/-!
# One machine runs in step with another

Two machines, each given by a step that may stop.  Every step of the first one takes the second one
at least one step, and what the first one has put out is put out by the second one, at the latest
with the next step of the first.

* `Ends`, `Emits` — the last state of a run, and what a run puts out, whether it ends or not;
* `Simulates` — what has to be shown of one step, as long as a condition is met;
* `Simulates.ends_iff` — **the runs end alike**;
* `Simulates.emits_iff` — **the runs put out the same**.
-/

namespace Or1ksim
namespace Runs

variable {σ τ β γ : Type}

section Steps

variable {f : σ → Option σ} {s t u : σ} {m n : ℕ}

theorem steps_add (f : σ → Option σ) (m n : ℕ) (s : σ) :
    steps f (m + n) s = (steps f m s).bind (steps f n) := by
  induction m generalizing s with
  | zero => rw [Nat.zero_add, steps, Option.bind_some]
  | succ m ih =>
    rw [Nat.succ_add, steps, steps, Option.bind_assoc]
    exact congrArg _ (funext ih)

theorem steps_one (f : σ → Option σ) (s : σ) : steps f 1 s = f s := Option.bind_fun_some (f s)

theorem steps_trans (hm : steps f m s = some t) (hn : steps f n t = some u) :
    steps f (m + n) s = some u := by
  rw [steps_add, hm, Option.bind_some, hn]

theorem steps_sub (hm : steps f m s = some t) (hn : steps f n s = some u) (h : m ≤ n) :
    steps f (n - m) t = some u := by
  have hsplit := steps_add f m (n - m) s
  rwa [Nat.add_sub_cancel' h, hn, hm, Option.bind_some, eq_comm] at hsplit

theorem steps_of_eq_none (ht : f t = none) (h : steps f n t = some u) : n = 0 ∧ u = t := by
  cases n with
  | zero =>
    cases h
    exact ⟨rfl, rfl⟩
  | succ n =>
    rw [steps, ht] at h
    cases h

end Steps

/-- The run from `s` ends in `t`. -/
def Ends (f : σ → Option σ) (s t : σ) : Prop := ∃ n, steps f n s = some t ∧ f t = none

theorem Ends.unique {f : σ → Option σ} {s t u : σ} (ht : Ends f s t) (hu : Ends f s u) : t = u := by
  obtain ⟨m, hm, hend⟩ := ht
  obtain ⟨n, hn, hend'⟩ := hu
  rcases Nat.le_total m n with h | h
  · exact (steps_of_eq_none hend (steps_sub hm hn h)).2.symm
  · exact (steps_of_eq_none hend' (steps_sub hn hm h)).2

/-- The run from `s` puts out `l`, and perhaps more. -/
def Emits (f : σ → Option σ) (out : σ → List β) (s : σ) (l : List β) : Prop :=
  ∃ n t, steps f n s = some t ∧ l <+: out t

/-- All states of the run from `s` meet the condition. -/
def Throughout (f : σ → Option σ) (C : σ → Prop) (s : σ) : Prop :=
  ∀ n t, steps f n s = some t → C t

theorem Throughout.head {f : σ → Option σ} {C : σ → Prop} {s : σ} (h : Throughout f C s) : C s :=
  h 0 s rfl

theorem Throughout.tail {f : σ → Option σ} {C : σ → Prop} {s t : σ} (h : Throughout f C s)
    (hst : f s = some t) : Throughout f C t := by
  intro n u hu
  refine h (n + 1) u ?_
  rw [steps, hst, Option.bind_some, hu]

/-- The second machine runs in step with the first one, in related states, as long as the condition
is met. -/
structure Simulates (f : σ → Option σ) (g : τ → Option τ) (R : σ → τ → Prop) (C : σ → Prop)
    (out : σ → List β) (out' : τ → List β) (final : σ → γ) (final' : τ → γ) : Prop where
  halt : ∀ {s t}, R s t → f s = none → g t = none ∧ final' t = final s ∧ out' t = out s
  step : ∀ {s s' t}, R s t → C s → f s = some s' →
    ∃ n t', steps g (n + 1) t = some t' ∧ R s' t' ∧ out s <+: out' t'
  behind : ∀ {s t}, R s t → out' t <+: out s
  grows : ∀ {t t'}, g t = some t' → out' t <+: out' t'

namespace Simulates

variable {f : σ → Option σ} {g : τ → Option τ} {R : σ → τ → Prop} {C : σ → Prop}
  {out : σ → List β} {out' : τ → List β} {final : σ → γ} {final' : τ → γ} {s u : σ} {t v : τ}
  {m n : ℕ}

theorem grows_steps (h : Simulates f g R C out out' final final') (hv : steps g n t = some v) :
    out' t <+: out' v :=
  steps_invariant (I := fun w => out' t <+: out' w) (fun _ _ hw hstep => hw.trans (h.grows hstep))
    List.prefix_rfl hv

theorem follows (h : Simulates f g R C out out' final final') (hR : R s t)
    (hC : Throughout f C s) (hu : steps f n s = some u) :
    ∃ m v, steps g m t = some v ∧ R u v := by
  induction n generalizing s t with
  | zero =>
    cases hu
    exact ⟨0, t, rfl, hR⟩
  | succ n ih =>
    obtain ⟨s', hs', hu⟩ := Option.bind_eq_some_iff.1 hu
    obtain ⟨k, t', ht', hR', -⟩ := h.step hR hC.head hs'
    obtain ⟨m, v, hv, hRv⟩ := ih hR' (hC.tail hs') hu
    exact ⟨k + 1 + m, v, steps_trans ht' hv, hRv⟩

/-- A run of the second machine goes on to where it follows the first one. -/
theorem leads (h : Simulates f g R C out out' final final') (hR : R s t)
    (hC : Throughout f C s) (hv : steps g m t = some v) :
    ∃ n u k w, steps f n s = some u ∧ steps g k v = some w ∧ R u w := by
  induction m using Nat.strong_induction_on generalizing s t with
  | _ m ih =>
    cases hs : f s with
    | none =>
      obtain ⟨-, rfl⟩ := steps_of_eq_none (h.halt hR hs).1 hv
      exact ⟨0, s, 0, v, rfl, rfl, hR⟩
    | some s' =>
      obtain ⟨k, t', ht', hR', -⟩ := h.step hR hC.head hs
      rcases Nat.lt_or_ge k m with hlt | hge
      · obtain ⟨n, u, l, w, hu, hw, hRw⟩ :=
          ih (m - (k + 1)) (by omega) hR' (hC.tail hs) (steps_sub ht' hv hlt)
        refine ⟨n + 1, u, l, w, ?_, hw, hRw⟩
        rw [steps, hs, Option.bind_some, hu]
      · refine ⟨1, s', k + 1 - m, t', ?_, steps_sub hv ht' (by omega), hR'⟩
        rw [steps_one, hs]

/-- **The runs end alike.** -/
theorem ends_iff (h : Simulates f g R C out out' final final') (hR : R s t)
    (hC : Throughout f C s) (x : γ) :
    (∃ v, Ends g t v ∧ final' v = x) ↔ ∃ u, Ends f s u ∧ final u = x := by
  constructor
  · rintro ⟨v, ⟨m, hv, hend⟩, rfl⟩
    obtain ⟨n, u, k, w, hu, hw, hRw⟩ := h.leads hR hC hv
    obtain ⟨-, rfl⟩ := steps_of_eq_none hend hw
    cases hf : f u with
    | none => exact ⟨u, ⟨n, hu, hf⟩, (h.halt hRw hf).2.1.symm⟩
    | some u' =>
      obtain ⟨j, t', ht', -⟩ := h.step hRw (hC n u hu) hf
      exact absurd (steps_of_eq_none hend ht').1 (Nat.succ_ne_zero j)
  · rintro ⟨u, ⟨n, hu, hend⟩, rfl⟩
    obtain ⟨m, v, hv, hRv⟩ := h.follows hR hC hu
    obtain ⟨hg, hfinal, -⟩ := h.halt hRv hend
    exact ⟨v, ⟨m, hv, hg⟩, hfinal⟩

/-- **The runs put out the same.** -/
theorem emits_iff (h : Simulates f g R C out out' final final') (hR : R s t)
    (hC : Throughout f C s) (l : List β) : Emits g out' t l ↔ Emits f out s l := by
  constructor
  · rintro ⟨m, v, hv, hl⟩
    obtain ⟨n, u, k, w, hu, hw, hRw⟩ := h.leads hR hC hv
    exact ⟨n, u, hu, (hl.trans (h.grows_steps hw)).trans (h.behind hRw)⟩
  · rintro ⟨n, u, hu, hl⟩
    obtain ⟨m, v, hv, hRv⟩ := h.follows hR hC hu
    cases hf : f u with
    | none => exact ⟨m, v, hv, by rwa [(h.halt hRv hf).2.2]⟩
    | some u' =>
      obtain ⟨k, t', ht', -, hout⟩ := h.step hRv (hC n u hu) hf
      exact ⟨m + (k + 1), t', steps_trans hv ht', hl.trans hout⟩

end Simulates
end Runs
end Or1ksim
