import Or1ksim.Decoder.Correct

/-!
# The calls of `cover_insn`

The recursion of `cover_insn` as a tree of calls, each with its arguments and the globals it finds.

* `coverInsn_stable` — the bound on the recursion depth does not matter;
* `Nested` — a call makes another one, for one of its children;
* `Nested.loses` — the mask of the nested call has lost the field of its parent;
* `nested_wf` — **the recursion ends**;
* `upTo_succ`, `loopInv_of_upTo` — one more child, and what has been done before it.
-/

namespace Or1ksim
namespace Decoder

variable {W : ℕ} {P : Patterns W}

/-! ### Depth -/

theorem coverChildren_congr
    {cover cover' : ℕ → ℕ → Build W → Except BuildError (Option ℕ × Build W)}
    (h : ∀ cur pass b, cover cur pass b = cover' cur pass b) (pass first len next k i cur : ℕ)
    (b : Build W) :
    coverChildren P cover pass first len next k i cur b =
      coverChildren P cover' pass first len next k i cur b := by
  rw [show cover = cover' from funext fun cur => funext fun pass => funext fun b => h cur pass b]

/-- Every depth that is larger than the number of bits in the mask is as good as another. -/
theorem coverInsn_stable (hW : 32 ≤ W) {fuel fuel' cur pass : ℕ} {mask : BitVec 32} {b : Build W}
    (hfuel : bitCount mask < fuel) (hfuel' : bitCount mask < fuel') :
    coverInsn P fuel cur pass mask b = coverInsn P fuel' cur pass mask b := by
  induction fuel generalizing fuel' cur pass mask b with
  | zero => omega
  | succ fuel ih =>
    obtain ⟨fuel', rfl⟩ : ∃ k, fuel' = k + 1 := ⟨fuel' - 1, by omega⟩
    match hc : cands P b pass with
    | [] => rw [coverInsn, coverInsn, hc]
    | [j] => rw [coverInsn, coverInsn, hc]
    | j₁ :: j₂ :: ds =>
      rw [coverInsn, coverInsn, hc]
      dsimp only
      split_ifs with hzero
      · rfl
      · -- Both depths are enough for the mask of the children too.
        have hlt := bitCount_childMask_lt hW (longestMatch_isField hW hzero)
        generalize longestMatch (commonMask P mask (j₁ :: j₂ :: ds)) = best at *
        have hsame : ∀ cur pass b, coverInsn P fuel cur pass (childMask W mask best.1 best.2) b =
            coverInsn P fuel' cur pass (childMask W mask best.1 best.2) b :=
          fun cur pass b => ih (by omega) (by omega)
        rw [coverChildren_congr hsame]

/-! ### Calls -/

/-- The arguments of a call of `cover_insn`, and the globals it finds. -/
structure Call (W : ℕ) where
  cur : ℕ
  pass : ℕ
  mask : BitVec 32
  build : Build W

namespace Call

variable (P) (c : Call W)

/-- The instructions of the pass. -/
def insns : List ℕ := cands P c.build c.pass

/-- `best_first`. -/
def bestFirst : ℕ := (longestMatch (commonMask P c.mask (c.insns P))).1

/-- `best_len`. -/
def bestLen : ℕ := (longestMatch (commonMask P c.mask (c.insns P))).2

/-- The call gets to the loop over the children. -/
structure Splits : Prop where
  two : 2 ≤ (c.insns P).length
  found : c.bestLen P ≠ 0

/-- The cell behind the table of children. -/
def behind : ℕ := c.cur + 2 + 2 ^ c.bestLen P

/-- The globals when the field has been stored. -/
def stored : Build W :=
  (c.build.store c.cur (BitVec.ofNat W (c.bestFirst P))).store (c.cur + 1)
    (Bits.lowMask W (c.bestLen P))

/-- What the call does, with enough depth for any mask. -/
def result : Except BuildError (Option ℕ × Build W) :=
  coverInsn P coverDepth c.cur c.pass c.mask c.build

/-- The mask that the children get. -/
def rest : BitVec 32 := childMask W c.mask (c.bestFirst P) (c.bestLen P)

/-- `cur` and the globals after the first `i` children. -/
def upTo (i : ℕ) : Except BuildError (ℕ × Build W) :=
  coverChildren P (fun cur pass b => coverInsn P coverDepth cur pass (c.rest P) b) c.pass
    (c.bestFirst P) (c.bestLen P) (c.cur + 2) i 0 (c.behind P) (c.stored P)

/-- The call for child `i`, with `cur` and the globals after the children before it. -/
def childCall (i cur : ℕ) (b : Build W) : Call W :=
  ⟨cur, b.curpass + 1, c.rest P,
    { b with curpass := b.curpass + 1,
             inPass := mark P { b with curpass := b.curpass + 1 } c.pass (c.bestFirst P)
               (c.bestLen P) i }⟩

/-- No instruction is in a pass that was not handed out. -/
structure Valid (c : Call W) : Prop where
  bounded : ∀ j, c.build.inPass j ≤ c.build.curpass
  pass_le : c.pass ≤ c.build.curpass

end Call

/-- The call `c` makes the call `c'` for its child `i`. -/
inductive Nested (P : Patterns W) (c : Call W) (i : ℕ) : Call W → Prop
  | call {cur : ℕ} {b : Build W} (hsplits : c.Splits P) (hi : i < 2 ^ c.bestLen P)
      (h : c.upTo P i = .ok (cur, b)) : Nested P c i (c.childCall P i cur b)

variable {c c' : Call W} {i : ℕ}

theorem Call.Splits.exists_cons (h : c.Splits P) :
    ∃ j₁ j₂ ds, c.insns P = j₁ :: j₂ :: ds := by
  match hc : c.insns P, h.two with
  | j₁ :: j₂ :: ds, _ => exact ⟨j₁, j₂, ds, rfl⟩

theorem Call.Splits.isField (hW : 32 ≤ W) (h : c.Splits P) :
    IsField P c.mask (c.insns P) (c.bestFirst P) (c.bestLen P) :=
  longestMatch_isField hW h.found

theorem Call.Splits.bitCount_lt (hW : 32 ≤ W) (h : c.Splits P) :
    bitCount (c.rest P) < bitCount c.mask := bitCount_childMask_lt hW (h.isField hW)

/-- The mask `mask'` is `mask` without the bits of a field, which are in `mask`. -/
structure Loses (mask mask' : BitVec 32) (first len : ℕ) : Prop where
  ne_zero : len ≠ 0
  inside : first + len ≤ 32
  had : ∀ k, first ≤ k → k < first + len → mask.getLsbD k = true
  left : ∀ k < 32, mask'.getLsbD k = (mask.getLsbD k && !decide (first ≤ k ∧ k < first + len))

theorem Nested.loses (hW : 32 ≤ W) (h : Nested P c i c') :
    Loses c.mask c'.mask (c.bestFirst P) (c.bestLen P) := by
  obtain ⟨hsplits, -, -⟩ := h
  have hfield := hsplits.isField hW
  exact ⟨hfield.ne_zero, hfield.inside, hfield.unused,
    fun k hk => getLsbD_childMask hW c.mask _ _ hk⟩

/-- **The recursion ends**: there is no infinite chain of nested calls. -/
theorem nested_wf (hW : 32 ≤ W) (P : Patterns W) :
    WellFounded fun c' c : Call W => ∃ i, Nested P c i c' := by
  refine Subrelation.wf ?_ (measure fun c : Call W => bitCount c.mask).wf
  rintro c' c ⟨i, ⟨hsplits, -, -⟩⟩
  exact hsplits.bitCount_lt hW

/-! ### The result of a call -/

theorem result_nil (h : c.insns P = []) : c.result P = .ok (none, c.build) := by
  rw [Call.insns] at h
  rw [Call.result, coverDepth, coverInsn, h]

theorem result_single {j : ℕ} (h : c.insns P = [j]) :
    c.result P = .ok (some (c.cur + 1),
      { c.build.store c.cur (leafFlag W ||| BitVec.ofNat W j) with
        nuncovered := c.build.nuncovered - 1 }) := by
  rw [Call.insns] at h
  rw [Call.result, coverDepth, coverInsn, h]

/-- The recursion of the source: the bound on the depth is gone. -/
theorem result_splits (hW : 32 ≤ W) (h : c.Splits P) :
    c.result P = (c.upTo P (2 ^ c.bestLen P)).map fun r => (some r.1, r.2) := by
  obtain ⟨j₁, j₂, ds, hc⟩ := h.exists_cons
  have hzero : ¬(longestMatch (commonMask P c.mask (j₁ :: j₂ :: ds))).2 = 0 := hc ▸ h.found
  have hlt := h.bitCount_lt hW
  have hdepth := bitCount_lt_coverDepth c.mask
  -- The nested calls of the model have one level less.
  have hsame : ∀ cur pass b, coverInsn P 32 cur pass (c.rest P) b =
      coverInsn P coverDepth cur pass (c.rest P) b := by
    intro cur pass b
    have hthis : coverDepth = 33 := rfl
    exact coverInsn_stable hW (by omega) (by omega)
  rw [Call.upTo, ← coverChildren_congr hsame, Call.result, coverDepth, coverInsn]
  rw [Call.rest, Call.behind, Call.stored, Call.bestFirst, Call.bestLen, hc]
  rw [Call.insns] at hc
  rw [hc]
  exact if_neg hzero

theorem result_ne_depth (hW : 32 ≤ W) (c : Call W) : c.result P ≠ .error .depth :=
  coverInsn_ne_depth hW (bitCount_lt_coverDepth _)

theorem splits_of_ok {r : Option ℕ} {b : Build W} {j₁ j₂ : ℕ} {ds : List ℕ}
    (hc : c.insns P = j₁ :: j₂ :: ds) (h : c.result P = .ok (r, b)) : c.Splits P := by
  refine ⟨by rw [hc]; simp, ?_⟩
  have hzero := (coverInsn_node hc h).1
  rwa [Call.bestLen, hc]

/-! ### Child by child -/

theorem coverChildren_succ {cover : ℕ → ℕ → Build W → Except BuildError (Option ℕ × Build W)}
    {pass first len next k i cur : ℕ} {b : Build W} {p : ℕ × Build W}
    (h : coverChildren P cover pass first len next (k + 1) i cur b = .ok p) :
    ∃ cur' b' r b'', coverChildren P cover pass first len next k i cur b = .ok (cur', b') ∧
      cover cur' (b'.curpass + 1)
        { b' with curpass := b'.curpass + 1,
                  inPass := mark P { b' with curpass := b'.curpass + 1 } pass first len (i + k) } =
          .ok (r, b'') ∧
      p = (r.getD cur', b''.store (next + (i + k)) (childCell W cur' r)) := by
  -- The loop counts up from `i`, so the induction takes the first child off and not the last.
  induction k generalizing i cur b with
  | zero =>
    rw [coverChildren] at h
    cases hc : cover cur (b.curpass + 1)
        { b with curpass := b.curpass + 1,
                 inPass := mark P { b with curpass := b.curpass + 1 } pass first len i } with
    | error err =>
      simp only [hc] at h
      cases h
    | ok res =>
      obtain ⟨r, b₂⟩ := res
      simp only [hc] at h
      cases h
      exact ⟨cur, b, r, b₂, rfl, hc, rfl⟩
  | succ k ih =>
    rw [coverChildren] at h
    cases hc : cover cur (b.curpass + 1)
        { b with curpass := b.curpass + 1,
                 inPass := mark P { b with curpass := b.curpass + 1 } pass first len i } with
    | error err =>
      simp only [hc] at h
      cases h
    | ok res =>
      obtain ⟨r, b₂⟩ := res
      simp only [hc] at h
      obtain ⟨cur', b', r', b'', hrun, hcover, hp⟩ := ih h
      rw [Nat.add_right_comm, Nat.add_assoc] at hcover hp
      refine ⟨cur', b', r', b'', ?_, hcover, hp⟩
      rw [coverChildren]
      simp only [hc]
      exact hrun

/-- **One more child** is the call for it, and its entry in the table. -/
theorem upTo_succ {p : ℕ × Build W} (h : c.upTo P (i + 1) = .ok p) :
    ∃ cur b r b', c.upTo P i = .ok (cur, b) ∧ (c.childCall P i cur b).result P = .ok (r, b') ∧
      p = (r.getD cur, b'.store (c.cur + 2 + i) (childCell W cur r)) := by
  obtain ⟨cur, b, r, b', hrun, hcover, hp⟩ := coverChildren_succ h
  rw [Nat.zero_add] at hcover hp
  exact ⟨cur, b, r, b', hrun, hcover, hp⟩

theorem upTo_of_le {k : ℕ} {p : ℕ × Build W} (h : c.upTo P k = .ok p) (hik : i ≤ k) :
    ∃ p', c.upTo P i = .ok p' := by
  induction k, hik using Nat.le_induction generalizing p with
  | base => exact ⟨p, h⟩
  | succ k _ ih =>
    obtain ⟨cur, b, -, -, hrun, -, -⟩ := upTo_succ h
    exact ih hrun

theorem insns_stored : c.insns P = cands P (c.stored P) c.pass := rfl

theorem post_of_result (hW : 32 ≤ W) (hv : c.Valid) {r : Option ℕ} {b : Build W}
    (h : c.result P = .ok (r, b)) : Post P coverDepth c.pass c.cur c.build b r :=
  coverInsn_post hW h hv.bounded hv.pass_le

theorem loopInv_of_upTo (hW : 32 ≤ W) (hv : c.Valid) (hs : c.Splits P)
    (hi : i ≤ 2 ^ c.bestLen P) {cur : ℕ} {b : Build W} (h : c.upTo P i = .ok (cur, b)) :
    LoopInv P coverDepth c.pass (c.bestFirst P) (c.bestLen P) (c.cur + 2) (c.behind P)
      (c.insns P) (c.stored P) i cur b := by
  have hfield := hs.isField hW
  have hinv := LoopInv.run
    (fun cur pass b r b' hok hb hp => coverInsn_post hW hok hb hp) insns_stored hfield.fixed
    hfield.le_width rfl hv.pass_le (by rwa [Nat.zero_add]) (LoopInv.init hv.bounded) h
  rwa [Nat.zero_add] at hinv

theorem Nested.valid (hW : 32 ≤ W) (hv : c.Valid) (h : Nested P c i c') : c'.Valid := by
  obtain ⟨hs, hi, hrun⟩ := h
  exact ⟨(loopInv_of_upTo hW hv hs hi.le hrun).bounded_mark, le_refl _⟩

theorem Nested.behind_le (hW : 32 ≤ W) (hv : c.Valid) (h : Nested P c i c') :
    c.behind P ≤ c'.cur := by
  obtain ⟨hs, hi, hrun⟩ := h
  exact (Nat.le_add_right _ _).trans (loopInv_of_upTo hW hv hs hi.le hrun).size

/-- The instructions of a nested call are those of its child. -/
theorem Nested.insns_eq (hW : 32 ≤ W) (hv : c.Valid) (h : Nested P c i c') :
    c'.insns P = child P (c.insns P) (c.bestFirst P) (c.bestLen P) i := by
  obtain ⟨hs, hi, hrun⟩ := h
  have hfield := hs.isField hW
  exact cands_mark insns_stored hfield.fixed hfield.le_width hi
    (loopInv_of_upTo hW hv hs hi.le hrun)

/-- A call is given by its parent and the number of the child. -/
theorem Nested.unique {c₁ c₂ : Call W} (h₁ : Nested P c i c₁) (h₂ : Nested P c i c₂) :
    c₁ = c₂ := by
  obtain ⟨-, -, hrun₁⟩ := h₁
  obtain ⟨-, -, hrun₂⟩ := h₂
  cases hrun₁.symm.trans hrun₂
  rfl

end Decoder
end Or1ksim
