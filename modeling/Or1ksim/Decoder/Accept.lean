import Or1ksim.Decoder.Correct

/-!
# Tables that the builder accepts

Whether building succeeds, and how many cells the automaton takes, only depends on how the common
mask bits split the instructions.

* `treeCells` — the cells of the tree for a list of instructions, if there is one;
* `coverInsn_of_treeCells` — `cover_insn` builds a tree of that size;
* `buildAutomata_of_treeCells` — so `build_automata` accepts a table whose tree is small enough.
-/

namespace Or1ksim
namespace Decoder

variable {W : ℕ} (P : Patterns W)

/-- The cells of the children `i`, `i + 1`, and so on of a node, `k` of them. -/
def childrenCells (cells : ℕ → Option ℕ) : ℕ → ℕ → Option ℕ
  | 0, _ => some 0
  | k + 1, i => (cells i).bind fun n => (childrenCells cells k (i + 1)).map (n + ·)

/-- The cells of the tree for the instructions `C`, in at most the given number of levels; `none`
if some instructions cannot be told apart. -/
def treeCells : ℕ → BitVec 32 → List ℕ → Option ℕ
  | 0, _, _ => none
  | _ + 1, _, [] => some 0
  | _ + 1, _, [_] => some 1
  | fuel + 1, mask, j₁ :: j₂ :: ds =>
    let best := longestMatch (commonMask P mask (j₁ :: j₂ :: ds))
    if best.2 = 0 then none
    else
      (childrenCells (fun i => treeCells fuel (childMask W mask best.1 best.2)
        (child P (j₁ :: j₂ :: ds) best.1 best.2 i)) (2 ^ best.2) 0).map (2 + 2 ^ best.2 + ·)

variable {P}

/-- The end of the tree that a call builds. -/
def treeEnd (cur n : ℕ) : List ℕ → Option ℕ
  | [] => none
  | _ => some (cur + n)

theorem treeCells_nil {fuel n : ℕ} {mask : BitVec 32} (h : treeCells P fuel mask [] = some n) :
    n = 0 := by
  cases fuel with
  | zero => cases h
  | succ fuel =>
    cases h
    rfl

/-- **All children** are built, if each of them is. -/
theorem coverChildren_of_cells {d pass first len next cur₀ k i cur m : ℕ} {C : List ℕ}
    {b₀ b : Build W} (cells : List ℕ → Option ℕ) (hnil : ∀ n, cells [] = some n → n = 0)
    (cover : ℕ → ℕ → Build W → Except BuildError (Option ℕ × Build W))
    (hcover : ∀ cur pass b r b', cover cur pass b = .ok (r, b') → (∀ j, b.inPass j ≤ b.curpass) →
      pass ≤ b.curpass → Post P d pass cur b b' r)
    (hbuild : ∀ cur pass b n, (∀ j, b.inPass j ≤ b.curpass) → pass ≤ b.curpass →
      cells (cands P b pass) = some n →
      ∃ b', cover cur pass b = .ok (treeEnd cur n (cands P b pass), b'))
    (hC : C = cands P b₀ pass)
    (hfix : ∀ j ∈ C, (P.insnMask j >>> first) &&& Bits.lowMask W len = Bits.lowMask W len)
    (hlen : len ≤ W) (hnext : next + 2 ^ len = cur₀) (hpass : pass ≤ b₀.curpass)
    (hk : i + k = 2 ^ len) (h : LoopInv P d pass first len next cur₀ C b₀ i cur b)
    (hcells : childrenCells (fun i => cells (child P C first len i)) k i = some m) :
    ∃ b', coverChildren P cover pass first len next k i cur b = .ok (cur + m, b') := by
  induction k generalizing i cur b m with
  | zero =>
    cases hcells
    exact ⟨b, rfl⟩
  | succ k ih =>
    obtain ⟨n, hn, hrest⟩ := Option.bind_eq_some_iff.1 hcells
    obtain ⟨m', hm', rfl⟩ := Option.map_eq_some_iff.1 hrest
    have hn : cells (child P C first len i) = some n := hn
    have hcands := cands_mark hC hfix hlen (by omega) h
    have hbound := h.bounded_mark
    obtain ⟨b', hb'⟩ := hbuild cur (b.curpass + 1)
      { b with curpass := b.curpass + 1,
               inPass := mark P { b with curpass := b.curpass + 1 } pass first len i } n hbound
      (le_refl _) (by rw [hcands]; exact hn)
    rw [hcands] at hb'
    have hpost := hcover _ _ _ _ _ hb' hbound (le_refl _)
    have hstep := h.step hC hfix hlen (by omega) hnext hpass hpost
    have hend : (treeEnd cur n (child P C first len i)).getD cur = cur + n := by
      cases hchild : child P C first len i with
      | nil =>
        rw [hchild] at hn
        rw [hnil n hn]
        rfl
      | cons j C => rfl
    rw [hend] at hstep
    obtain ⟨b'', hb''⟩ := ih (by omega) hstep hm'
    refine ⟨b'', ?_⟩
    rw [coverChildren]
    simp only [hb']
    change coverChildren P cover pass first len next k (i + 1)
      ((treeEnd cur n (child P C first len i)).getD cur) _ = _
    rw [hend, ← Nat.add_assoc]
    exact hb''

/-- **A call of `cover_insn`** builds a tree of the size that the candidates need. -/
theorem coverInsn_of_treeCells (hW : 32 ≤ W) {fuel : ℕ} (cur pass : ℕ) {n : ℕ}
    {mask : BitVec 32} (b : Build W)
    (hbound : ∀ j, b.inPass j ≤ b.curpass) (hpass : pass ≤ b.curpass)
    (hcells : treeCells P fuel mask (cands P b pass) = some n) :
    ∃ b', coverInsn P fuel cur pass mask b = .ok (treeEnd cur n (cands P b pass), b') := by
  induction fuel generalizing cur pass n mask b with
  | zero => cases hcells
  | succ fuel ih =>
    match hc : cands P b pass with
    | [] =>
      rw [coverInsn, hc]
      exact ⟨_, rfl⟩
    | [j] =>
      rw [hc, treeCells] at hcells
      cases hcells
      rw [coverInsn, hc]
      exact ⟨_, rfl⟩
    | j₁ :: j₂ :: ds =>
      rw [hc, treeCells] at hcells
      rw [coverInsn, hc]
      dsimp only at hcells ⊢
      split_ifs at hcells with hzero
      rw [if_neg hzero]
      obtain ⟨m, hm, rfl⟩ := Option.map_eq_some_iff.1 hcells
      have hfield := longestMatch_isField hW hzero
      generalize longestMatch (commonMask P mask (j₁ :: j₂ :: ds)) = best at *
      obtain ⟨first, len⟩ := best
      dsimp only at hfield hm ⊢
      set b₀ := (b.store cur (BitVec.ofNat W first)).store (cur + 1) (Bits.lowMask W len) with hb₀
      have hC : j₁ :: j₂ :: ds = cands P b₀ pass := hc.symm
      obtain ⟨b', hb'⟩ := coverChildren_of_cells
        (treeCells P fuel (childMask W mask first len)) (fun n hn => treeCells_nil hn)
        (fun cur pass b => coverInsn P fuel cur pass (childMask W mask first len) b)
        (fun cur pass b r b' hok hb hp => coverInsn_post hW hok hb hp)
        (fun cur pass b n hb hp hn => ih cur pass b hb hp hn) hC hfield.fixed hfield.le_width rfl
        hpass (Nat.zero_add _)
        (LoopInv.init hbound) hm
      refine ⟨b', ?_⟩
      rw [hb']
      simp only [Except.map, treeEnd]
      congr 3
      omega

/-- **A table is accepted** if the tree for it has between 1 and 1200 cells. -/
theorem buildAutomata_of_treeCells (hW : 32 ≤ W) {n : ℕ} (junk : ℕ → BitVec W)
    (hnum : P.num ≠ 0)
    (hcells : treeCells P coverDepth 0xffffffff#32 (List.range P.num) = some n)
    (hn : n ≤ maxAutomataSize) : ∃ automata, buildAutomata P junk = .ok automata := by
  have hcands : cands P (Build.init P junk) 0 = List.range P.num := by
    simp [cands, Build.init]
  obtain ⟨b', hb'⟩ := coverInsn_of_treeCells hW 0 0 (Build.init P junk)
    (fun _ => le_refl 0) (le_refl 0) (by rw [hcands]; exact hcells)
  have hend : treeEnd 0 n (cands P (Build.init P junk) 0) = some (0 + n) := by
    rw [hcands]
    cases hrange : List.range P.num with
    | nil => exact absurd (List.range_eq_nil.1 hrange) hnum
    | cons j C => rfl
  refine ⟨b'.automata, ?_⟩
  rw [buildAutomata, hb', hend]
  dsimp only
  rw [if_neg (by omega)]

end Decoder
end Or1ksim
