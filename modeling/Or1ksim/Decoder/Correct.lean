import Mathlib.Data.Finset.Card
import Or1ksim.Decoder.Tree

/-!
# The automaton decodes its table

`coverInsn` builds a decision tree for the instructions of its pass and touches nothing else: the
cells it writes are its own, and the instructions it renumbers are those of the pass.

* `longestMatch_spec` — the field a node selects on is fixed in every candidate;
* `Post` — what a call of `cover_insn` leaves behind;
* `LoopInv` — the invariant of the loop over the children of a node;
* `insnDecode_iff` — **decoder soundness and completeness**.
-/

namespace Or1ksim
namespace Decoder

variable {W : ℕ} {P : Patterns W}

/-! ### The field of a node -/

/-- The run of bits found so far is inside the word and set in the mask. -/
def GoodRun (curMask : BitVec W) (best : ℕ × ℕ) : Prop :=
  best.2 ≠ 0 → best.1 + best.2 ≤ 32 ∧ best.2 < maxLen ∧
    Bits.lowMask W best.2 &&& (curMask >>> best.1) = Bits.lowMask W best.2

theorem matchFrom_spec {curMask : BitVec W} {i k len : ℕ} {best : ℕ × ℕ}
    (hk : len + k ≤ min maxLen (33 - i)) (h : GoodRun curMask best) :
    GoodRun curMask (matchFrom curMask i k len best) := by
  induction k generalizing len best with
  | zero => exact h
  | succ k ih =>
    rw [matchFrom]
    split_ifs with hm
    · refine ih (by omega) fun _ => ⟨?_, ?_, hm⟩
      · change i + len ≤ 32
        omega
      · change len < maxLen
        omega
    · exact h

theorem longestMatch_spec (curMask : BitVec W) : GoodRun curMask (longestMatch curMask) := by
  refine List.foldlRecOn (motive := GoodRun curMask) _ _ (fun h => absurd rfl h) ?_
  intro best hbest i _
  -- With no room for a longer run the inner loop does nothing.
  by_cases hroom : best.2 + 1 ≤ min maxLen (33 - i)
  · exact matchFrom_spec (by omega) hbest
  · rw [show min maxLen (33 - i) - (best.2 + 1) = 0 by omega]
    exact hbest

theorem foldl_and_le (ds : List ℕ) (m : BitVec W) :
    (ds.foldl (fun m j => m &&& P.insnMask j) m) &&& m =
        ds.foldl (fun m j => m &&& P.insnMask j) m ∧
      ∀ j ∈ ds, (ds.foldl (fun m j => m &&& P.insnMask j) m) &&& P.insnMask j =
        ds.foldl (fun m j => m &&& P.insnMask j) m := by
  induction ds generalizing m with
  | nil => exact ⟨BitVec.and_self, by simp⟩
  | cons d ds ih =>
    obtain ⟨hm, hds⟩ := ih (m &&& P.insnMask d)
    rw [List.foldl_cons]
    set x := ds.foldl (fun m j => m &&& P.insnMask j) (m &&& P.insnMask d)
    have hxm : x &&& m = x := by
      rw [← hm, BitVec.and_assoc, BitVec.and_comm (m &&& _) m, ← BitVec.and_assoc m m,
        BitVec.and_self]
    have hxd : x &&& P.insnMask d = x := by
      rw [← hm, BitVec.and_assoc, BitVec.and_assoc m, BitVec.and_self]
    refine ⟨hxm, fun j hj => ?_⟩
    rcases List.mem_cons.1 hj with rfl | hj
    · exact hxd
    · exact hds j hj

/-- A run of bits set in a smaller mask is set in a larger one. -/
theorem run_mono {x m : BitVec W} {first len : ℕ} (hx : x &&& m = x)
    (h : Bits.lowMask W len &&& (x >>> first) = Bits.lowMask W len) :
    (m >>> first) &&& Bits.lowMask W len = Bits.lowMask W len := by
  have hshift : x >>> first &&& m >>> first = x >>> first := by
    rw [← BitVec.ushiftRight_and_distrib, hx]
  calc (m >>> first) &&& Bits.lowMask W len
      = (m >>> first) &&& (Bits.lowMask W len &&& (x >>> first)) := by rw [h]
    _ = Bits.lowMask W len &&& (x >>> first &&& m >>> first) := by
        rw [BitVec.and_comm (m >>> first), BitVec.and_assoc]
    _ = Bits.lowMask W len := by rw [hshift, h]

/-- The field that a node for the instructions `ds` selects on. -/
structure IsField (P : Patterns W) (mask : BitVec 32) (ds : List ℕ) (first len : ℕ) : Prop where
  ne_zero : len ≠ 0
  inside : first + len ≤ 32
  short : len < maxLen
  le_width : len ≤ W
  /-- Its bits have not been used before. -/
  unused : ∀ i, first ≤ i → i < first + len → mask.getLsbD i = true
  fixed : ∀ j ∈ ds, (P.insnMask j >>> first) &&& Bits.lowMask W len = Bits.lowMask W len

theorem longestMatch_isField (hW : 32 ≤ W) {mask : BitVec 32} {ds : List ℕ}
    (hzero : (longestMatch (commonMask P mask ds)).2 ≠ 0) :
    IsField P mask ds (longestMatch (commonMask P mask ds)).1
      (longestMatch (commonMask P mask ds)).2 := by
  obtain ⟨hinside, hshort, hbits⟩ := longestMatch_spec (commonMask P mask ds) hzero
  generalize longestMatch (commonMask P mask ds) = best at *
  obtain ⟨first, len⟩ := best
  dsimp only at hzero hinside hshort hbits ⊢
  refine ⟨hzero, hinside, hshort, by omega, fun i hfirst hi => ?_,
    fun j hj => run_mono ((foldl_and_le _ _).2 j hj) hbits⟩
  -- The run is common to the candidates, so it is in the mask.
  have hset := run_mono (foldl_and_le (P := P) ds (mask.setWidth W)).1 hbits
  have hbit := congrArg (fun x => BitVec.getLsbD x (i - first)) hset
  have hlow : (Bits.lowMask W len).getLsbD (i - first) = true := by
    rw [Bits.getLsbD_lowMask]
    simp
    omega
  simp only [BitVec.getLsbD_and, hlow, BitVec.getLsbD_ushiftRight, BitVec.getLsbD_setWidth,
    Nat.add_sub_cancel' hfirst, Bool.and_true, Bool.and_eq_true] at hbit
  exact hbit.2

/-! ### What a call leaves behind -/

/-- The effect of a call of `cover_insn` for pass `pass` at cell `cur`, with result `r`. -/
structure Post (P : Patterns W) (d pass cur : ℕ) (b b' : Build W) (r : Option ℕ) : Prop where
  /-- Pass numbers are only handed out upwards. -/
  curpass_le : b.curpass ≤ b'.curpass
  /-- No instruction is in a pass that was not handed out. -/
  bounded : ∀ j, b'.inPass j ≤ b'.curpass
  /-- Instructions of other passes stay there. -/
  other : ∀ j, b.inPass j ≠ pass → b'.inPass j = b.inPass j
  /-- Instructions of the pass stay or move to a new pass. -/
  moved : ∀ j, b.inPass j = pass → b'.inPass j = pass ∨ b.curpass < b'.inPass j
  /-- Without a result there was nothing to cover. -/
  none : r = none → cands P b pass = [] ∧ b'.automata = b.automata
  /-- A result is the end of a tree for the instructions of the pass, which has a cell for each. -/
  some : ∀ e, r = some e → cur + (cands P b pass).length ≤ e ∧
    (∀ x, x < cur ∨ e ≤ x → b'.automata x = b.automata x) ∧
    Covers P b'.automata d cur e (cands P b pass)

theorem Post.le_end {d pass cur : ℕ} {b b' : Build W} {r : Option ℕ}
    (h : Post P d pass cur b b' r) : cur ≤ r.getD cur := by
  cases r with
  | none => exact le_refl _
  | some e =>
    have := (h.some e rfl).1
    simp only [Option.getD_some]
    omega

theorem Post.frame {d pass cur x : ℕ} {b b' : Build W} {r : Option ℕ}
    (h : Post P d pass cur b b' r) (hx : x < cur ∨ r.getD cur ≤ x) :
    b'.automata x = b.automata x := by
  cases r with
  | none => rw [(h.none rfl).2]
  | some e => exact (h.some e rfl).2.1 x hx

/-- The invariant of the loop over the children of a node, before child `i`.  The table of
children starts at `next`, the subtrees at `cur₀`. -/
structure LoopInv (P : Patterns W) (d pass first len next cur₀ : ℕ) (C : List ℕ) (b₀ : Build W)
    (i cur : ℕ) (b : Build W) : Prop where
  curpass_le : b₀.curpass ≤ b.curpass
  bounded : ∀ j, b.inPass j ≤ b.curpass
  other : ∀ j, b₀.inPass j ≠ pass → b.inPass j = b₀.inPass j
  moved : ∀ j, b₀.inPass j = pass → b.inPass j = pass ∨ b₀.curpass < b.inPass j
  todo : ∀ j, b₀.inPass j = pass → i ≤ (field P first len j).toNat → b.inPass j = pass
  size : cur₀ + (C.filter fun j => decide ((field P first len j).toNat < i)).length ≤ cur
  frame : ∀ x, (x < next ∨ next + i ≤ x) → (x < cur₀ ∨ cur ≤ x) → b.automata x = b₀.automata x
  kids : ∀ k < i, (child P C first len k = [] ∧ b.automata (next + k) = 0) ∨
    ∃ s e, cur₀ ≤ s ∧ e ≤ cur ∧ b.automata (next + k) = BitVec.ofNat W s ∧
      Covers P b.automata d s e (child P C first len k)

theorem store_automata (b : Build W) (a : ℕ) (v : BitVec W) :
    (b.store a v).automata = Function.update b.automata a v := rfl

theorem mem_cands {b : Build W} {pass j : ℕ} :
    j ∈ cands P b pass ↔ j < P.num ∧ b.inPass j = pass := by
  simp [cands]

theorem field_eq_ofNat_iff {first len i j : ℕ} (hlen : len ≤ W) (hi : i < 2 ^ len) :
    field P first len j = BitVec.ofNat W i ↔ (field P first len j).toNat = i := by
  have hW : 2 ^ len ≤ 2 ^ W := Nat.pow_le_pow_right (by decide) hlen
  rw [← BitVec.toNat_inj, BitVec.toNat_ofNat, Nat.mod_eq_of_lt (by omega)]

theorem field_lt {first len j : ℕ} (hlen : len ≤ W) : (field P first len j).toNat < 2 ^ len := by
  rw [field, Bits.toNat_and_lowMask _ hlen]
  exact Nat.mod_lt _ (Nat.two_pow_pos len)

theorem length_filter_succ (C : List ℕ) (f : ℕ → ℕ) (i : ℕ) :
    (C.filter fun j => decide (f j < i + 1)).length =
      (C.filter fun j => decide (f j < i)).length +
        (C.filter fun j => decide (f j = i)).length := by
  induction C with
  | nil => rfl
  | cons j C ih =>
    rcases lt_trichotomy (f j) i with h | h | h
    · rw [List.filter_cons_of_pos (by simp; omega), List.filter_cons_of_pos (by simpa using h),
        List.filter_cons_of_neg (by simp; omega)]
      simp only [List.length_cons, ih]
      omega
    · rw [List.filter_cons_of_pos (by simp; omega), List.filter_cons_of_neg (by simp; omega),
        List.filter_cons_of_pos (by simpa using h)]
      simp only [List.length_cons, ih]
      omega
    · rw [List.filter_cons_of_neg (by simp; omega), List.filter_cons_of_neg (by simp; omega),
        List.filter_cons_of_neg (by simp; omega), ih]

section Loop

variable {d pass first len next cur₀ : ℕ} {C : List ℕ} {b₀ : Build W}

/-- The instructions marked for child `i` are those of the node with that field value. -/
theorem cands_mark {i cur : ℕ} {b : Build W} (hC : C = cands P b₀ pass)
    (hfix : ∀ j ∈ C, (P.insnMask j >>> first) &&& Bits.lowMask W len = Bits.lowMask W len)
    (hlen : len ≤ W) (hi : i < 2 ^ len)
    (h : LoopInv P d pass first len next cur₀ C b₀ i cur b) :
    cands P { b with curpass := b.curpass + 1,
                     inPass := mark P { b with curpass := b.curpass + 1 } pass first len i }
      (b.curpass + 1) = child P C first len i := by
  rw [child, hC, cands, cands, List.filter_filter]
  refine List.filter_congr fun j hj => ?_
  have hnum : j < P.num := List.mem_range.1 hj
  rw [← Bool.decide_and, decide_eq_decide]
  simp only [mark]
  constructor
  · intro hm
    split_ifs at hm with hsel
    · refine ⟨hsel.2.1, ?_⟩
      by_contra hne
      exact hne ((h.other j hne).symm.trans hsel.1)
    · have := h.bounded j
      omega
  · rintro ⟨hfield, hpass⟩
    have hnat := (field_eq_ofNat_iff hlen hi).1 hfield
    have hj' : j ∈ C := hC ▸ mem_cands.2 ⟨hnum, hpass⟩
    rw [if_pos ⟨h.todo j hpass (le_of_eq hnat.symm), hfield, hfix j hj'⟩]

theorem LoopInv.init (hbound : ∀ j, b₀.inPass j ≤ b₀.curpass) :
    LoopInv P d pass first len next cur₀ C b₀ 0 cur₀ b₀ :=
  ⟨le_refl _, hbound, fun _ _ => rfl, fun _ hj => .inl hj, fun _ hj _ => hj, by simp,
    fun _ _ _ => rfl, fun k hk => absurd hk (Nat.not_lt_zero k)⟩

/-- Marking the instructions of a child keeps to the passes handed out. -/
theorem LoopInv.bounded_mark {i cur : ℕ} {b : Build W}
    (h : LoopInv P d pass first len next cur₀ C b₀ i cur b) (j : ℕ) :
    mark P { b with curpass := b.curpass + 1 } pass first len i j ≤ b.curpass + 1 := by
  have := h.bounded j
  rw [mark]
  split_ifs
  · exact le_refl _
  · exact Nat.le_succ_of_le this

/-- **One child** keeps the loop invariant. -/
theorem LoopInv.step {i cur : ℕ} {b b' : Build W} {c : Option ℕ} (hC : C = cands P b₀ pass)
    (hfix : ∀ j ∈ C, (P.insnMask j >>> first) &&& Bits.lowMask W len = Bits.lowMask W len)
    (hlen : len ≤ W) (hi : i < 2 ^ len) (hnext : next + 2 ^ len = cur₀) (hpass : pass ≤ b₀.curpass)
    (h : LoopInv P d pass first len next cur₀ C b₀ i cur b)
    (hpost : Post P d (b.curpass + 1) cur
      { b with curpass := b.curpass + 1,
               inPass := mark P { b with curpass := b.curpass + 1 } pass first len i } b' c) :
    LoopInv P d pass first len next cur₀ C b₀ (i + 1) (c.getD cur)
      (b'.store (next + i) (childCell W cur c)) := by
  have hcands := cands_mark hC hfix hlen hi h
  have hle : cur₀ ≤ cur := by have := h.size; omega
  have hcur : cur ≤ c.getD cur := hpost.le_end
  -- Outside the subtree of this child nothing is written but its entry of the table.
  have hframe : ∀ x, x < cur ∨ c.getD cur ≤ x → b'.automata x = b.automata x :=
    fun x hx => hpost.frame hx
  -- Instructions that are not marked keep their pass.
  have hkeep : ∀ j, b.inPass j ≠ pass ∨ field P first len j ≠ BitVec.ofNat W i →
      b'.inPass j = b.inPass j := by
    intro j hj
    have hmark : mark P { b with curpass := b.curpass + 1 } pass first len i j = b.inPass j := by
      rw [mark, if_neg]
      rintro ⟨hp, hf, -⟩
      exact hj.elim (fun hne => hne hp) fun hne => hne hf
    have hne : mark P { b with curpass := b.curpass + 1 } pass first len i j ≠ b.curpass + 1 := by
      rw [hmark]
      have := h.bounded j
      omega
    exact (hpost.other j hne).trans hmark
  have hcurpass : b.curpass + 1 ≤ b'.curpass := hpost.curpass_le
  have hb₀ := h.curpass_le
  have hstore : ∀ x v, x ≠ next + i → (b'.store (next + i) v).automata x = b'.automata x := by
    intro x v hx
    rw [store_automata, Function.update_of_ne hx]
  refine ⟨?_, hpost.bounded, fun j hj => ?_, fun j hj => ?_, fun j hj hij => ?_, ?_,
    fun x hx hx' => ?_, fun k hk => ?_⟩
  · change b₀.curpass ≤ b'.curpass
    omega
  · have hb := h.other j hj
    exact (hkeep j (.inl (by rw [hb]; exact hj))).trans hb
  · change b'.inPass j = pass ∨ b₀.curpass < b'.inPass j
    rcases h.moved j hj with hp | hgt
    · by_cases hm : mark P { b with curpass := b.curpass + 1 } pass first len i j = b.curpass + 1
      · rcases hpost.moved j hm with he | hlt
        · right
          omega
        · right
          change b.curpass + 1 < b'.inPass j at hlt
          omega
      · left
        rw [hpost.other j hm]
        change mark P { b with curpass := b.curpass + 1 } pass first len i j = pass
        rw [mark] at hm ⊢
        split_ifs at hm ⊢ with hsel
        · exact absurd rfl hm
        · exact hp
    · right
      rw [hkeep j (.inl (by omega))]
      exact hgt
  · change b'.inPass j = pass
    have hne : field P first len j ≠ BitVec.ofNat W i := by
      rw [Ne, field_eq_ofNat_iff hlen hi]
      omega
    rw [hkeep j (.inr hne)]
    exact h.todo j hj (by omega)
  · have hchild : (C.filter fun j => decide ((field P first len j).toNat = i)) =
        child P C first len i := by
      refine List.filter_congr fun j _ => ?_
      rw [decide_eq_decide, field_eq_ofNat_iff hlen hi]
    have hsize := h.size
    rw [length_filter_succ, hchild, ← hcands]
    cases hc : c with
    | none =>
      rw [(hpost.none hc).1]
      simp only [List.length_nil, Option.getD_none]
      omega
    | some e =>
      have := (hpost.some e hc).1
      simp only [Option.getD_some]
      omega
  · rw [hstore x _ (by omega), hframe x (by omega)]
    exact h.frame x (by omega) (by omega)
  · rcases Nat.lt_succ_iff_lt_or_eq.1 hk with hk | rfl
    · have hcell : (b'.store (next + i) (childCell W cur c)).automata (next + k) =
          b.automata (next + k) := by
        rw [hstore _ _ (by omega), hframe _ (by omega)]
      rcases h.kids k hk with ⟨hnil, hzero⟩ | ⟨s, e, hs, he, hptr, htree⟩
      · exact .inl ⟨hnil, hcell.trans hzero⟩
      · refine .inr ⟨s, e, hs, by omega, hcell.trans hptr, covers_frame htree fun x hx hx' => ?_⟩
        rw [hstore x _ (by omega), hframe x (by omega)]
    · have hcell : ∀ v, (b'.store (next + k) v).automata (next + k) = v := by
        intro v
        rw [store_automata, Function.update_self]
      cases hc : c with
      | none => exact .inl ⟨hcands ▸ (hpost.none hc).1, hcell _⟩
      | some e =>
        obtain ⟨hsz, -, htree⟩ := hpost.some e hc
        rw [hcands] at htree
        refine .inr ⟨cur, e, hle, le_refl e, hcell _, covers_frame htree fun x hx _ => ?_⟩
        exact hstore x _ (by omega)

/-- **A run of the loop** keeps its invariant, if building one of them does what `Post` says. -/
theorem LoopInv.run {cover : ℕ → ℕ → Build W → Except BuildError (Option ℕ × Build W)}
    (hcover : ∀ cur pass b r b', cover cur pass b = .ok (r, b') → (∀ j, b.inPass j ≤ b.curpass) →
      pass ≤ b.curpass → Post P d pass cur b b' r)
    (hC : C = cands P b₀ pass)
    (hfix : ∀ j ∈ C, (P.insnMask j >>> first) &&& Bits.lowMask W len = Bits.lowMask W len)
    (hlen : len ≤ W) (hnext : next + 2 ^ len = cur₀) (hpass : pass ≤ b₀.curpass)
    {k i cur cur' : ℕ} {b b' : Build W} (hk : i + k ≤ 2 ^ len)
    (h : LoopInv P d pass first len next cur₀ C b₀ i cur b)
    (hrun : coverChildren P cover pass first len next k i cur b = .ok (cur', b')) :
    LoopInv P d pass first len next cur₀ C b₀ (i + k) cur' b' := by
  induction k generalizing i cur b with
  | zero =>
    cases hrun
    exact h
  | succ k ih =>
    rw [coverChildren] at hrun
    cases hc : cover cur (b.curpass + 1)
        { b with curpass := b.curpass + 1,
                 inPass := mark P { b with curpass := b.curpass + 1 } pass first len i } with
    | error err =>
      simp only [hc] at hrun
      cases hrun
    | ok res =>
      obtain ⟨c, b₂⟩ := res
      simp only [hc] at hrun
      have hpost := hcover _ _ _ _ _ hc h.bounded_mark (le_refl _)
      rw [← Nat.add_assoc, Nat.add_right_comm]
      exact ih (by omega) (h.step hC hfix hlen (by omega) hnext hpass hpost) hrun

end Loop

/-! ### The whole tree -/

theorem filter_field_lt {first len : ℕ} (hlen : len ≤ W) (C : List ℕ) :
    (C.filter fun j => decide ((field P first len j).toNat < 2 ^ len)) = C :=
  List.filter_eq_self.2 fun _ _ => decide_eq_true (field_lt hlen)

/-- A call that succeeds with at least two candidates builds a node. -/
theorem coverInsn_node {fuel cur pass j₁ j₂ : ℕ} {ds : List ℕ} {mask : BitVec 32} {b b' : Build W}
    {r : Option ℕ} (hc : cands P b pass = j₁ :: j₂ :: ds)
    (h : coverInsn P (fuel + 1) cur pass mask b = .ok (r, b')) :
    let best := longestMatch (commonMask P mask (j₁ :: j₂ :: ds))
    best.2 ≠ 0 ∧ ∃ e, r = some e ∧
      coverChildren P
        (fun cur pass b => coverInsn P fuel cur pass (childMask W mask best.1 best.2) b)
        pass best.1 best.2 (cur + 2) (2 ^ best.2) 0 (cur + 2 + 2 ^ best.2)
        ((b.store cur (BitVec.ofNat W best.1)).store (cur + 1) (Bits.lowMask W best.2)) =
          .ok (e, b') := by
  intro best
  rw [coverInsn, hc] at h
  simp only at h
  split_ifs at h with hzero
  refine ⟨hzero, ?_⟩
  cases hkids : coverChildren P
      (fun cur pass b => coverInsn P fuel cur pass (childMask W mask best.1 best.2) b)
      pass best.1 best.2 (cur + 2) (2 ^ best.2) 0 (cur + 2 + 2 ^ best.2)
      ((b.store cur (BitVec.ofNat W best.1)).store (cur + 1) (Bits.lowMask W best.2)) with
  | error err =>
    rw [hkids] at h
    cases h
  | ok res =>
    obtain ⟨e, b₁⟩ := res
    rw [hkids] at h
    cases h
    exact ⟨e, rfl, rfl⟩

/-- **A call of `cover_insn`** builds a tree for its pass. -/
theorem coverInsn_post (hW : 32 ≤ W) {fuel cur pass : ℕ} {mask : BitVec 32} {b b' : Build W}
    {r : Option ℕ} (h : coverInsn P fuel cur pass mask b = .ok (r, b'))
    (hbound : ∀ j, b.inPass j ≤ b.curpass) (hpass : pass ≤ b.curpass) :
    Post P fuel pass cur b b' r := by
  induction fuel generalizing cur pass mask b b' r with
  | zero => cases h
  | succ fuel ih =>
    match hc : cands P b pass with
    | [] =>
      rw [coverInsn, hc] at h
      cases h
      exact ⟨le_refl _, hbound, fun _ _ => rfl, fun _ hj => .inl hj, fun _ => ⟨hc, rfl⟩,
        fun e he => by cases he⟩
    | [j] =>
      rw [coverInsn, hc] at h
      cases h
      refine ⟨le_refl _, hbound, fun _ _ => rfl, fun _ hj => .inl hj, nofun, ?_⟩
      intro e he
      cases he
      rw [hc]
      refine ⟨le_refl _, fun x hx => ?_, .inl ⟨j, rfl, Nat.lt_succ_self _, ?_⟩⟩
      · rw [store_automata, Function.update_of_ne (by omega)]
      · rw [store_automata, Function.update_self]
    | j₁ :: j₂ :: ds =>
      obtain ⟨hzero, e, rfl, hkids⟩ := coverInsn_node hc h
      have hfield := longestMatch_isField hW hzero
      generalize longestMatch (commonMask P mask (j₁ :: j₂ :: ds)) = best at *
      obtain ⟨first, len⟩ := best
      dsimp only at hkids hfield
      set b₀ := (b.store cur (BitVec.ofNat W first)).store (cur + 1) (Bits.lowMask W len) with hb₀
      have hC : j₁ :: j₂ :: ds = cands P b₀ pass := hc.symm
      have hinv := LoopInv.run (fun cur pass b r b' hok hb hp => ih hok hb hp) hC hfield.fixed
        hfield.le_width rfl hpass (Nat.zero_add _).le (LoopInv.init hbound) hkids
      rw [Nat.zero_add] at hinv
      have hsize := hinv.size
      rw [filter_field_lt hfield.le_width] at hsize
      have hpos := Nat.two_pow_pos len
      refine ⟨hinv.curpass_le, hinv.bounded, hinv.other, hinv.moved, nofun, ?_⟩
      intro e' he
      cases he
      rw [hc]
      have hheader : ∀ x, x < cur + 2 → b'.automata x = b₀.automata x :=
        fun x hx => hinv.frame x (.inl hx) (.inl (by omega))
      refine ⟨by omega, fun x hx => ?_, .inr ⟨first, len, hfield.inside, hfield.short, by omega,
        ?_, ?_, hfield.fixed, hinv.kids⟩⟩
      · rw [hinv.frame x (by omega) (by omega), hb₀, store_automata, store_automata,
          Function.update_of_ne (by omega), Function.update_of_ne (by omega)]
      · rw [hheader cur (by omega), hb₀, store_automata, store_automata,
          Function.update_of_ne (by omega), Function.update_self]
      · rw [hheader (cur + 1) (by omega), hb₀, store_automata, Function.update_self]

/-! ### The recursion is deep enough -/

/-- Number of bits set in a mask. -/
def bitCount (mask : BitVec 32) : ℕ := ((Finset.range 32).filter fun i => mask.getLsbD i).card

/-- A child has the bits of its node that are not in the field. -/
theorem getLsbD_childMask (hW : 32 ≤ W) (mask : BitVec 32) (first len : ℕ) {i : ℕ} (hi : i < 32) :
    (childMask W mask first len).getLsbD i =
      (mask.getLsbD i && !decide (first ≤ i ∧ i < first + len)) := by
  have hfield : (Bits.lowMask W len <<< first).getLsbD i =
      decide (first ≤ i ∧ i < first + len) := by
    rw [Bool.eq_iff_iff]
    simp only [BitVec.getLsbD_shiftLeft, Bits.getLsbD_lowMask, Bool.and_eq_true,
      decide_eq_true_eq, Bool.not_eq_true', decide_eq_false_iff_not]
    omega
  simp only [childMask, BitVec.getLsbD_setWidth, BitVec.getLsbD_and, BitVec.getLsbD_not, hi,
    show i < W by omega, decide_true, Bool.true_and, hfield]

theorem bitCount_childMask_lt (hW : 32 ≤ W) {mask : BitVec 32} {ds : List ℕ} {first len : ℕ}
    (h : IsField P mask ds first len) :
    bitCount (childMask W mask first len) < bitCount mask := by
  have hne := h.ne_zero
  have hinside := h.inside
  apply Finset.card_lt_card
  refine Finset.ssubset_iff_of_subset (fun i hi => ?_) |>.2 ⟨first, ?_, fun hi => ?_⟩
  · obtain ⟨hi, hb⟩ := Finset.mem_filter.1 hi
    rw [getLsbD_childMask hW _ _ _ (Finset.mem_range.1 hi), Bool.and_eq_true] at hb
    exact Finset.mem_filter.2 ⟨hi, hb.1⟩
  · exact Finset.mem_filter.2
      ⟨Finset.mem_range.2 (by omega), h.unused first (le_refl _) (by omega)⟩
  · obtain ⟨hi, hb⟩ := Finset.mem_filter.1 hi
    rw [getLsbD_childMask hW _ _ _ (Finset.mem_range.1 hi), Bool.and_eq_true, Bool.not_eq_true',
      decide_eq_false_iff_not] at hb
    exact hb.2 ⟨le_refl _, by omega⟩

theorem bitCount_lt_coverDepth (mask : BitVec 32) : bitCount mask < coverDepth :=
  Nat.lt_succ_of_le (Finset.card_filter_le (Finset.range 32) fun i => mask.getLsbD i)

theorem coverChildren_error {cover : ℕ → ℕ → Build W → Except BuildError (Option ℕ × Build W)}
    {pass first len next k i cur : ℕ} {b : Build W} {err : BuildError}
    (h : coverChildren P cover pass first len next k i cur b = .error err) :
    ∃ cur pass b, cover cur pass b = .error err := by
  induction k generalizing i cur b with
  | zero => cases h
  | succ k ih =>
    rw [coverChildren] at h
    simp only at h
    cases hc : cover cur (b.curpass + 1)
        { b with curpass := b.curpass + 1,
                 inPass := mark P { b with curpass := b.curpass + 1 } pass first len i } with
    | error err' =>
      rw [hc] at h
      cases h
      exact ⟨_, _, _, hc⟩
    | ok res =>
      rw [hc] at h
      exact ih h

/-- The depth bound of the model is never what stops building. -/
theorem coverInsn_ne_depth (hW : 32 ≤ W) {fuel cur pass : ℕ} {mask : BitVec 32} {b : Build W}
    (hfuel : bitCount mask < fuel) : coverInsn P fuel cur pass mask b ≠ .error .depth := by
  induction fuel generalizing cur pass mask b with
  | zero => omega
  | succ fuel ih =>
    intro h
    match hc : cands P b pass with
    | [] =>
      rw [coverInsn, hc] at h
      cases h
    | [j] =>
      rw [coverInsn, hc] at h
      cases h
    | j₁ :: j₂ :: ds =>
      rw [coverInsn, hc] at h
      simp only at h
      split_ifs at h with hzero
      · cases h
      · have hlt := bitCount_childMask_lt hW (longestMatch_isField hW hzero)
        generalize longestMatch (commonMask P mask (j₁ :: j₂ :: ds)) = best at *
        cases hkids : coverChildren P
            (fun cur pass b => coverInsn P fuel cur pass (childMask W mask best.1 best.2) b)
            pass best.1 best.2 (cur + 2) (2 ^ best.2) 0 (cur + 2 + 2 ^ best.2)
            ((b.store cur (BitVec.ofNat W best.1)).store (cur + 1) (Bits.lowMask W best.2)) with
        | ok res =>
          rw [hkids] at h
          cases h
        | error err =>
          rw [hkids] at h
          cases h
          obtain ⟨cur', pass', b', herr⟩ := coverChildren_error hkids
          exact ih (by omega) herr

theorem buildAutomata_ne_depth (hW : 32 ≤ W) (P : Patterns W) (junk : ℕ → BitVec W) :
    buildAutomata P junk ≠ .error .depth := by
  have hcover : coverInsn P coverDepth 0 0 0xffffffff#32 (Build.init P junk) ≠ .error .depth :=
    coverInsn_ne_depth hW (bitCount_lt_coverDepth _)
  intro h
  unfold buildAutomata at h
  split at h
  · rename_i hc
    cases h
    exact hcover hc
  · cases h
  · split_ifs at h
    cases h

/-! ### The decoder -/

theorem buildAutomata_ok {junk automata : ℕ → BitVec W}
    (h : buildAutomata P junk = .ok automata) :
    ∃ e b, coverInsn P coverDepth 0 0 0xffffffff#32 (Build.init P junk) = .ok (some e, b) ∧
      e ≤ maxAutomataSize ∧ b.automata = automata := by
  unfold buildAutomata at h
  split at h
  · cases h
  · cases h
  · rename_i e b hcover
    split_ifs at h with hbig
    cases h
    exact ⟨e, b, hcover, Nat.not_lt.1 hbig, rfl⟩

/-- The automaton of an accepted table is a tree for the whole table, of at most 1200 cells. -/
theorem covers_of_buildAutomata (hW : 32 ≤ W) {junk automata : ℕ → BitVec W}
    (h : buildAutomata P junk = .ok automata) :
    ∃ e, P.num ≤ e ∧ e ≤ maxAutomataSize ∧
      Covers P automata coverDepth 0 e (List.range P.num) := by
  obtain ⟨e, b, hcover, hbig, rfl⟩ := buildAutomata_ok h
  have hcands : cands P (Build.init P junk) 0 = List.range P.num := by
    simp [cands, Build.init]
  have hpost := coverInsn_post hW hcover (fun _ => le_refl 0) (le_refl 0)
  obtain ⟨hsize, -, htree⟩ := hpost.some e rfl
  rw [hcands] at hsize htree
  rw [List.length_range] at hsize
  exact ⟨e, by omega, hbig, htree⟩

theorem insnDecode_spec (hW : 32 ≤ W) {junk automata : ℕ → BitVec W}
    (h : buildAutomata P junk = .ok automata) (w : BitVec 32) :
    ∃ r, insnDecode P automata w = some r ∧
      (r = -1 ∨ ∃ j < P.num, r = j ∧ P.Matches w j) ∧ ∀ j < P.num, P.Matches w j → r = j := by
  obtain ⟨e, hnum, hsize, htree⟩ := covers_of_buildAutomata hW h
  have hmax : maxAutomataSize = 1200 := rfl
  have hsmall : ∀ j ∈ List.range P.num, j < 2 ^ 31 := by
    intro j hj
    have := List.mem_range.1 hj
    omega
  obtain ⟨r, hr, hres, hall⟩ := decodeFrom_covers hW (by decide : coverDepth ≤ maxAutomataSize)
    hsize hsmall htree w
  refine ⟨r, hr, ?_, fun j hj hm => hall j (List.mem_range.2 hj) hm⟩
  exact hres.imp_right fun ⟨j, hj, hrj⟩ => ⟨j, List.mem_range.1 hj, hrj⟩

/-- **Decoder soundness and completeness.**  For every table of encodings that `build_automata`
accepts, with 32-bit `unsigned long`, and every instruction word, the decoder returns index `i`
exactly when the word matches entry `i` and `-1` exactly when it matches none; so no word matches
two entries. -/
theorem insnDecode_iff {encs : List Encoding} {junk automata : ℕ → BitVec 32}
    (h : buildAutomata (Patterns.ofEncodings 32 encs) junk = .ok automata) (w : BitVec 32) :
    (∀ i < encs.length, insnDecode (Patterns.ofEncodings 32 encs) automata w = some (i : ℤ) ↔
      (Patterns.ofEncodings 32 encs).Matches w i) ∧
    (insnDecode (Patterns.ofEncodings 32 encs) automata w = some (-1) ↔
      ∀ i < encs.length, ¬(Patterns.ofEncodings 32 encs).Matches w i) ∧
    ∀ i < encs.length, ∀ j < encs.length, (Patterns.ofEncodings 32 encs).Matches w i →
      (Patterns.ofEncodings 32 encs).Matches w j → i = j := by
  obtain ⟨r, hr, hres, hall⟩ := insnDecode_spec (le_refl 32) h w
  rw [hr]
  refine ⟨fun i hi => ⟨fun he => ?_, fun hm => by rw [hall i hi hm]⟩,
    ⟨fun he i hi hm => ?_, fun hno => ?_⟩, fun i hi j hj hmi hmj => ?_⟩
  · cases he
    rcases hres with hneg | ⟨j, -, hij, hm⟩
    · omega
    · rwa [Int.ofNat_inj.1 hij]
  · cases he
    have := hall i hi hm
    omega
  · rcases hres with rfl | ⟨j, hj, -, hm⟩
    · rfl
    · exact absurd hm (hno j hj)
  · have := (hall i hi hmi).symm.trans (hall j hj hmj)
    exact Int.ofNat_inj.1 this

/-- A table of two encodings that differ in the first bit. -/
theorem insnDecode_iff_two :
    ∃ automata, buildAutomata (Patterns.ofEncodings 32 [['0', 'A'], ['1', 'A']]) (fun _ => 0) =
        .ok automata ∧
      insnDecode (Patterns.ofEncodings 32 [['0', 'A'], ['1', 'A']]) automata 0xc0000000#32 =
        some 1 := by
  obtain ⟨automata, hbuild⟩ : ∃ automata, buildAutomata
      (Patterns.ofEncodings 32 [['0', 'A'], ['1', 'A']]) (fun _ => 0) = .ok automata := ⟨_, rfl⟩
  exact ⟨automata, hbuild, ((insnDecode_iff hbuild 0xc0000000#32).1 1 (by decide)).2 (by decide)⟩

end Decoder
end Or1ksim
