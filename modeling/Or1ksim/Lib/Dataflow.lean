import Mathlib.Data.Nat.Notation
import Mathlib.Logic.Basic

/-!
# Acyclic dataflow graphs

The nodes of a graph compute values from the values of the nodes they use.

* `Dataflow.Solves` — an assignment of values that every node agrees with;
* `Dataflow.Ranked` — every node uses nodes of the graph, of a lower rank;
* `Dataflow.Solves.unique`, `Dataflow.Ranked.exists_solves` — **a ranked graph has exactly one
  solution** on its nodes.
-/

namespace Or1ksim

/-- A graph of nodes `ρ` that compute values of type `β`. -/
structure Dataflow (ρ β : Type) where
  /-- The nodes of the graph. -/
  node : ρ → Prop
  /-- The nodes whose values a node reads. -/
  uses : ρ → ρ → Prop
  /-- What a node computes when the others hold the given values. -/
  value : (ρ → β) → ρ → β
  /-- A node reads nothing but what it uses. -/
  value_congr : ∀ {v w : ρ → β} {r : ρ}, (∀ q, uses r q → v q = w q) → value v r = value w r

namespace Dataflow

variable {ρ β : Type} {G : Dataflow ρ β} {rank : ρ → ℕ} {v w : ρ → β}

/-- Every node holds what it computes. -/
def Solves (G : Dataflow ρ β) (v : ρ → β) : Prop :=
  ∀ r, G.node r → v r = G.value v r

/-- What a node uses is a node of the graph, and of a lower rank. -/
def Ranked (G : Dataflow ρ β) (rank : ρ → ℕ) : Prop :=
  ∀ r q, G.node r → G.uses r q → G.node q ∧ rank q < rank r

/-- **Two solutions of a ranked graph agree** on its nodes. -/
theorem Solves.unique (hrank : G.Ranked rank) (hv : G.Solves v) (hw : G.Solves w) {r : ρ}
    (hr : G.node r) : v r = w r := by
  induction h : rank r using Nat.strongRecOn generalizing r with
  | ind n ih =>
    rw [hv r hr, hw r hr]
    refine G.value_congr fun q hq => ?_
    obtain ⟨hqn, hlt⟩ := hrank r q hr hq
    exact ih (rank q) (h ▸ hlt) hqn rfl

/-- The values after `n` rounds of computing every node. -/
def rounds [Inhabited β] (G : Dataflow ρ β) : ℕ → ρ → β
  | 0 => fun _ => default
  | n + 1 => G.value (G.rounds n)

/-- A node of rank `n` does not change after round `n + 1`. -/
theorem Ranked.rounds_stable [Inhabited β] (hrank : G.Ranked rank) {r : ρ} (hr : G.node r) {n : ℕ}
    (hn : rank r < n) : G.rounds n r = G.rounds (rank r + 1) r := by
  induction h : rank r using Nat.strongRecOn generalizing r n with
  | ind k ih =>
    obtain ⟨n, rfl⟩ := Nat.exists_eq_succ_of_ne_zero (Nat.ne_zero_of_lt hn)
    refine G.value_congr fun q hq => ?_
    obtain ⟨hqn, hlt⟩ := hrank r q hr hq
    have hk : rank q < k := h ▸ hlt
    rw [ih (rank q) hk hqn (n := n) (by omega) rfl, ih (rank q) hk hqn (n := k) hk rfl]

/-- **A ranked graph has a solution.** -/
theorem Ranked.exists_solves [Inhabited β] (hrank : G.Ranked rank) : ∃ v, G.Solves v := by
  refine ⟨fun r => G.rounds (rank r + 1) r, fun r hr => G.value_congr fun q hq => ?_⟩
  obtain ⟨hqn, hlt⟩ := hrank r q hr hq
  exact hrank.rounds_stable hqn hlt

end Dataflow
end Or1ksim
