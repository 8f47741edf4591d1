import Mathlib.Order.CompletePartialOrder
import Mathlib.Order.Interval.Set.Disjoint
import Or1ksim.Decoder.Calls

/-!
# The layout of the automaton

Each call of `cover_insn` that has instructions to cover builds one node, and a node is given by its
path, the numbers of the children that lead to it.

* `Written` — the cells of a node, as its call leaves them;
* `Laid` — the nodes below a call have cells of their own, between the start and the end of the
  call, and these are written;
* `laid_of_result` — **a call that succeeds lays out its nodes**;
* `automata_linked` — the recursion ends, the nodes of an automaton are disjoint, a child entry
  points to the node of the child, and zero stands for no child.
-/

namespace Or1ksim
namespace Decoder

variable {W : ℕ} {P : Patterns W}

namespace Call

variable (P) (c : Call W)

/-- The cell behind those of the node. -/
def stop : ℕ := if (c.insns P).length ≤ 1 then c.cur + 1 else c.behind P

/-- The cells of the node: one for a leaf; else the field, its mask and the table of children. -/
def cells : Set ℕ := Set.Ico c.cur (c.stop P)

/-- The entry for the call in the table of its parent. -/
def pointer : BitVec W := if c.insns P = [] then 0 else BitVec.ofNat W c.cur

end Call

/-- A path of nested calls, by the numbers of the children. -/
inductive Path (P : Patterns W) : Call W → List ℕ → Call W → Prop
  | here (c : Call W) : Path P c [] c
  | child {c c₁ c' : Call W} {i : ℕ} {p : List ℕ} (h : Nested P c i c₁) (hp : Path P c₁ p c') :
      Path P c (i :: p) c'

/-- The cells of a node. -/
inductive Written (P : Patterns W) (mem : ℕ → BitVec W) (c : Call W) : Prop
  | leaf {j : ℕ} (hc : c.insns P = [j]) (cell : mem c.cur = leafFlag W ||| BitVec.ofNat W j)
  | node (hs : c.Splits P) (first : mem c.cur = BitVec.ofNat W (c.bestFirst P))
      (mask : mem (c.cur + 1) = Bits.lowMask W (c.bestLen P))
      (slot : ∀ i < 2 ^ c.bestLen P,
        ∃ c', Nested P c i c' ∧ mem (c.cur + 2 + i) = c'.pointer P)

/-- The nodes below the call `c`, which ends at cell `e`. -/
structure Laid (P : Patterns W) (c : Call W) (e : ℕ) (mem : ℕ → BitVec W) : Prop where
  inside : ∀ p c', Path P c p c' → c'.insns P ≠ [] → c.cur ≤ c'.cur ∧ c'.stop P ≤ e
  disjoint : ∀ p₁ p₂ c₁ c₂, Path P c p₁ c₁ → Path P c p₂ c₂ → c₁.insns P ≠ [] →
    c₂.insns P ≠ [] → p₁ ≠ p₂ → Disjoint (c₁.cells P) (c₂.cells P)
  written : ∀ p c', Path P c p c' → c'.insns P ≠ [] → Written P mem c'

variable {c c' : Call W} {i : ℕ} {mem mem' : ℕ → BitVec W} {e : ℕ} {p : List ℕ}

theorem Call.slot_lt_behind (hi : i < 2 ^ c.bestLen P) : c.cur + 2 + i < c.behind P :=
  Nat.add_lt_add_left hi _

theorem Call.header_lt_behind : c.cur + 1 < c.behind P :=
  Nat.lt_of_lt_of_le (Nat.lt_succ_self _) (Nat.le_add_right _ _)

theorem Call.stop_of_splits (hs : c.Splits P) : c.stop P = c.behind P :=
  if_neg (Nat.not_le.2 hs.two)

theorem Call.stop_of_single {j : ℕ} (hc : c.insns P = [j]) : c.stop P = c.cur + 1 :=
  if_pos (by rw [hc]; exact le_refl 1)

theorem Call.not_splits_of_length (hc : (c.insns P).length ≤ 1) : ¬c.Splits P :=
  fun hs => absurd hs.two (by omega)

theorem disjoint_of_stop_le {c₁ c₂ : Call W} (h : c₁.stop P ≤ c₂.cur) :
    Disjoint (c₁.cells P) (c₂.cells P) := by
  rw [Set.disjoint_left]
  intro x hx hx'
  exact absurd (hx.2.trans_le (h.trans hx'.1)) (lt_irrefl x)

theorem Written.frame (h : Written P mem c)
    (heq : ∀ x, c.cur ≤ x → x < c.stop P → mem' x = mem x) : Written P mem' c := by
  cases h with
  | leaf hc cell =>
    rw [Call.stop_of_single hc] at heq
    exact .leaf hc ((heq c.cur (le_refl _) (Nat.lt_succ_self _)).trans cell)
  | node hs first mask slot =>
    rw [Call.stop_of_splits hs, Call.behind] at heq
    have hpos := Nat.two_pow_pos (c.bestLen P)
    refine .node hs ((heq _ (le_refl _) (by omega)).trans first)
      ((heq _ (by omega) (by omega)).trans mask) fun i hi => ?_
    obtain ⟨c', hn, hslot⟩ := slot i hi
    exact ⟨c', hn, (heq _ (by omega) (by omega)).trans hslot⟩

theorem Laid.frame (h : Laid P c e mem) (heq : ∀ x, c.cur ≤ x → x < e → mem' x = mem x) :
    Laid P c e mem' := by
  refine ⟨h.inside, h.disjoint, fun p c' hp hc' => (h.written p c' hp hc').frame ?_⟩
  obtain ⟨hcur, hstop⟩ := h.inside p c' hp hc'
  exact fun x hx hx' => heq x (hcur.trans hx) (hx'.trans_le hstop)

/-! ### Calls without children -/

theorem Path.of_not_splits (hs : ¬c.Splits P) (h : Path P c p c') : p = [] ∧ c' = c := by
  cases h with
  | here => exact ⟨rfl, rfl⟩
  | child h hp =>
    obtain ⟨hs', -, -⟩ := h
    exact absurd hs' hs

theorem laid_of_not_splits (hs : ¬c.Splits P) (hstop : c.insns P ≠ [] → c.stop P ≤ e)
    (hw : c.insns P ≠ [] → Written P mem c) : Laid P c e mem := by
  refine ⟨fun p c' hp hc' => ?_, fun p₁ p₂ c₁ c₂ h₁ h₂ _ _ hne => ?_, fun p c' hp hc' => ?_⟩
  · obtain ⟨-, rfl⟩ := hp.of_not_splits hs
    exact ⟨le_refl _, hstop hc'⟩
  · exact absurd ((h₁.of_not_splits hs).1.trans (h₂.of_not_splits hs).1.symm) hne
  · obtain ⟨-, rfl⟩ := hp.of_not_splits hs
    exact hw hc'

/-! ### The loop over the children -/

/-- What the first `i` children leave, the later ones only change in their entries of the table. -/
theorem upTo_frame (hW : 32 ≤ W) (hv : c.Valid) (hs : c.Splits P) {k cur cur' : ℕ}
    {b b' : Build W} (hik : i ≤ k) (hk : k ≤ 2 ^ c.bestLen P) (hi : c.upTo P i = .ok (cur, b))
    (h : c.upTo P k = .ok (cur', b')) :
    cur ≤ cur' ∧ ∀ x, x < cur → (x < c.cur + 2 + i ∨ c.behind P ≤ x) →
      b'.automata x = b.automata x := by
  -- Child `k` starts where child `k - 1` ended, so the cells before it stay.
  induction k, hik using Nat.le_induction generalizing cur' b' with
  | base =>
    cases hi.symm.trans h
    exact ⟨le_refl _, fun _ _ _ => rfl⟩
  | succ k hik ih =>
    obtain ⟨cur₁, b₁, r, b₂, hrun, hcall, hp⟩ := upTo_succ h
    cases hp
    obtain ⟨hle, hframe⟩ := ih (by omega) hrun
    have hn : Nested P c k (c.childCall P k cur₁ b₁) := .call hs hk hrun
    have hpost := post_of_result hW (hn.valid hW hv) hcall
    have hend : cur₁ ≤ r.getD cur₁ := hpost.le_end
    refine ⟨hle.trans hend, fun x hx hx' => ?_⟩
    rw [Call.behind] at hx'
    rw [store_automata, Function.update_of_ne (by omega), ← hframe x hx hx']
    exact hpost.frame (.inl (hx.trans_le hle))

theorem cur_of_nested (h : Nested P c i c') : ∃ b, c.upTo P i = .ok (c'.cur, b) := by
  obtain ⟨-, -, hrun⟩ := h
  exact ⟨_, hrun⟩

theorem childCell_eq_pointer (hW : 32 ≤ W) (hv : c.Valid) {r : Option ℕ} {b : Build W}
    (h : c.result P = .ok (r, b)) : childCell W c.cur r = c.pointer P := by
  by_cases hc : c.insns P = []
  · rw [result_nil hc] at h
    cases h
    exact (if_pos hc).symm
  · cases r with
    | none => exact absurd ((post_of_result hW hv h).none rfl).1 hc
    | some e => exact (if_neg hc).symm

/-- What is below child `i` of `c`, with the nodes between the children before and behind it. -/
structure Kid (P : Patterns W) (c : Call W) (e : ℕ) (mem : ℕ → BitVec W) (i : ℕ) (c' : Call W)
    (e' : ℕ) : Prop where
  laid : Laid P c' e' mem
  behind_le : c.behind P ≤ c'.cur
  end_le : e' ≤ e
  before : ∀ k c'', i < k → Nested P c k c'' → e' ≤ c''.cur
  slot : mem (c.cur + 2 + i) = c'.pointer P

/-- **A child** is laid out when its call returns, and stays so to the end of the loop. -/
theorem kid_of_nested (hW : 32 ≤ W) (hv : c.Valid) (hs : c.Splits P) {b : Build W}
    (hfull : c.upTo P (2 ^ c.bestLen P) = .ok (e, b)) (hn : Nested P c i c')
    (hlaid : ∀ r b', c'.result P = .ok (r, b') → Laid P c' (r.getD c'.cur) b'.automata) :
    ∃ e', Kid P c e b.automata i c' e' := by
  have hv' := hn.valid hW hv
  have hbehind := hn.behind_le hW hv
  obtain @⟨cur, b₀, -, hi, hrun⟩ := hn
  change c.behind P ≤ cur at hbehind
  -- The loop got past child `i`, with the same call for it.
  obtain ⟨q, hnext⟩ := upTo_of_le hfull (Nat.succ_le_of_lt hi)
  obtain ⟨cur', b₁, r, b₂, hrun', hcall, hq⟩ := upTo_succ hnext
  cases hrun.symm.trans hrun'
  subst hq
  have hend : cur ≤ r.getD cur := (post_of_result hW hv' hcall).le_end
  obtain ⟨hle, hframe⟩ := upTo_frame hW hv hs hi (le_refl _) hnext hfull
  have hslot : c.cur + 2 + i < c.behind P := Call.slot_lt_behind hi
  -- Later children write neither to the cells of this one nor to its entry.
  refine ⟨r.getD cur, (hlaid r b₂ hcall).frame fun x hx hx' => ?_, hbehind, hle,
    fun k c'' hik hn'' => ?_, ?_⟩
  · have hx : cur ≤ x := hx
    rw [hframe x hx' (.inr (hbehind.trans hx)), store_automata, Function.update_of_ne (by omega)]
  · obtain ⟨b'', hrun''⟩ := cur_of_nested hn''
    obtain ⟨-, hk, -⟩ := hn''
    exact (upTo_frame hW hv hs hik hk.le hnext hrun'').1
  · rw [hframe _ (by omega) (.inl (by omega)), store_automata, Function.update_self]
    exact childCell_eq_pointer hW hv' hcall

/-- **The nodes below a call** are its own and those of its children, each in their own cells. -/
theorem laid_of_kids (hs : c.Splits P) (hbehind : c.behind P ≤ e) (hw : Written P mem c)
    (hkids : ∀ i c', Nested P c i c' → ∃ e', Kid P c e mem i c' e') : Laid P c e mem := by
  have hstop := Call.stop_of_splits hs
  have hcur : c.cur ≤ c.behind P := (Nat.lt_of_succ_lt Call.header_lt_behind).le
  have hchild : ∀ i c₁ p c', Nested P c i c₁ → Path P c₁ p c' → c'.insns P ≠ [] →
      c.behind P ≤ c'.cur ∧ c'.stop P ≤ e ∧ Written P mem c' := by
    intro i c₁ p c' hn hp hc'
    obtain ⟨e', hkid⟩ := hkids i c₁ hn
    obtain ⟨hle, hle'⟩ := hkid.laid.inside p c' hp hc'
    exact ⟨hkid.behind_le.trans hle, hle'.trans hkid.end_le, hkid.laid.written p c' hp hc'⟩
  have hsiblings : ∀ i₁ i₂ c₁ c₂ p₁ p₂ c₁' c₂', i₁ < i₂ → Nested P c i₁ c₁ → Nested P c i₂ c₂ →
      Path P c₁ p₁ c₁' → Path P c₂ p₂ c₂' → c₁'.insns P ≠ [] → c₂'.insns P ≠ [] →
      Disjoint (c₁'.cells P) (c₂'.cells P) := by
    intro i₁ i₂ c₁ c₂ p₁ p₂ c₁' c₂' hlt hn₁ hn₂ hp₁ hp₂ hc₁ hc₂
    obtain ⟨e₁, hkid₁⟩ := hkids i₁ c₁ hn₁
    obtain ⟨e₂, hkid₂⟩ := hkids i₂ c₂ hn₂
    have hstop₁ := (hkid₁.laid.inside p₁ c₁' hp₁ hc₁).2
    have hcur₂ := (hkid₂.laid.inside p₂ c₂' hp₂ hc₂).1
    exact disjoint_of_stop_le ((hstop₁.trans (hkid₁.before i₂ c₂ hlt hn₂)).trans hcur₂)
  refine ⟨fun p c' hp hc' => ?_, fun p₁ p₂ c₁ c₂ h₁ h₂ hc₁ hc₂ hne => ?_, fun p c' hp hc' => ?_⟩
  · cases hp with
    | here => exact ⟨le_refl _, hstop ▸ hbehind⟩
    | child hn hp =>
      obtain ⟨hle, hle', -⟩ := hchild _ _ _ _ hn hp hc'
      exact ⟨hcur.trans hle, hle'⟩
  · cases h₁ with
    | here =>
      cases h₂ with
      | here => exact absurd rfl hne
      | child hn₂ hp₂ =>
        exact disjoint_of_stop_le (hstop ▸ (hchild _ _ _ _ hn₂ hp₂ hc₂).1)
    | @child _ d₁ _ i₁ p₁ hn₁ hp₁ =>
      cases h₂ with
      | here => exact (disjoint_of_stop_le (hstop ▸ (hchild _ _ _ _ hn₁ hp₁ hc₁).1)).symm
      | @child _ d₂ _ i₂ p₂ hn₂ hp₂ =>
        -- The paths part here, or in the same child further below.
        rcases lt_trichotomy i₁ i₂ with hlt | rfl | hlt
        · exact hsiblings _ _ _ _ _ _ _ _ hlt hn₁ hn₂ hp₁ hp₂ hc₁ hc₂
        · obtain rfl := hn₁.unique hn₂
          obtain ⟨e', hkid⟩ := hkids _ _ hn₁
          exact hkid.laid.disjoint p₁ p₂ c₁ c₂ hp₁ hp₂ hc₁ hc₂ fun h => hne (by rw [h])
        · exact (hsiblings _ _ _ _ _ _ _ _ hlt hn₂ hn₁ hp₂ hp₁ hc₂ hc₁).symm
  · cases hp with
    | here => exact hw
    | child hn hp => exact (hchild _ _ _ _ hn hp hc').2.2

/-- **A call that succeeds** lays out its nodes. -/
theorem laid_of_result (hW : 32 ≤ W) {r : Option ℕ} {b : Build W} (hv : c.Valid)
    (h : c.result P = .ok (r, b)) : Laid P c (r.getD c.cur) b.automata := by
  -- The induction is on the nested calls: what is laid out below a child holds on its return.
  induction c using (nested_wf hW P).induction generalizing r b with
  | _ c ih =>
    match hc : c.insns P with
    | [] =>
      have hs : ¬c.Splits P := Call.not_splits_of_length (by rw [hc]; exact Nat.zero_le 1)
      exact laid_of_not_splits hs (fun hne => absurd hc hne) fun hne => absurd hc hne
    | [j] =>
      have hs : ¬c.Splits P := Call.not_splits_of_length (by rw [hc]; exact le_refl 1)
      rw [result_single hc] at h
      cases h
      refine laid_of_not_splits hs (fun _ => (Call.stop_of_single hc).le) fun _ => .leaf hc ?_
      exact Function.update_self ..
    | j₁ :: j₂ :: ds =>
      have hs := splits_of_ok hc h
      rw [result_splits hW hs] at h
      cases hfull : c.upTo P (2 ^ c.bestLen P) with
      | error err =>
        rw [hfull] at h
        cases h
      | ok q =>
        obtain ⟨e, b'⟩ := q
        rw [hfull] at h
        cases h
        have hkids : ∀ i c', Nested P c i c' → ∃ e', Kid P c e b'.automata i c' e' :=
          fun i c' hn => kid_of_nested hW hv hs hfull hn
            fun r b hok => ih c' ⟨i, hn⟩ (hn.valid hW hv) hok
        obtain ⟨hbehind, hframe⟩ :=
          upTo_frame hW hv hs (Nat.zero_le _) (le_refl _) (rfl : c.upTo P 0 = .ok _) hfull
        have hheader : c.cur + 1 < c.behind P := Call.header_lt_behind
        refine laid_of_kids hs hbehind (.node hs ?_ ?_ fun i hi => ?_) hkids
        · rw [hframe _ (by omega) (.inl (by omega)), Call.stored, store_automata, store_automata,
            Function.update_of_ne (by omega), Function.update_self]
        · rw [hframe _ hheader (.inl (by omega)), Call.stored, store_automata,
            Function.update_self]
        · obtain ⟨q, hrun⟩ := upTo_of_le hfull hi.le
          have hn : Nested P c i (c.childCall P i q.1 q.2) := .call hs hi hrun
          obtain ⟨e', hkid⟩ := hkids i _ hn
          exact ⟨_, hn, hkid.slot⟩

/-! ### The automaton -/

theorem Path.valid (hW : 32 ≤ W) (hv : c.Valid) (h : Path P c p c') : c'.Valid := by
  induction h with
  | here c => exact hv
  | child hn _ ih => exact ih (hn.valid hW hv)

theorem Path.snoc {c'' : Call W} (h : Path P c p c') (hn : Nested P c' i c'') :
    Path P c (p ++ [i]) c'' := by
  induction h with
  | here c => exact .child hn (.here c'')
  | child h _ ih => exact .child h (ih hn)

theorem Call.cur_lt_stop (c : Call W) : c.cur < c.stop P := by
  rw [Call.stop]
  split_ifs
  · exact Nat.lt_succ_self _
  · exact Nat.lt_of_succ_lt Call.header_lt_behind

/-- The call that covers the whole table. -/
def Call.root (P : Patterns W) (junk : ℕ → BitVec W) : Call W :=
  ⟨0, 0, 0xffffffff#32, Build.init P junk⟩

theorem Call.root_valid (junk : ℕ → BitVec W) : (Call.root P junk).Valid :=
  ⟨fun _ => le_refl 0, le_refl 0⟩

/-- The recursion of `cover_insn` ends. -/
structure Terminates (P : Patterns W) : Prop where
  /-- There is no infinite chain of nested calls. -/
  wf : WellFounded fun c' c : Call W => ∃ i, Nested P c i c'
  /-- A nested call gets the mask without the bits that its parent selects on. -/
  loses : ∀ (c : Call W) i c', Nested P c i c' →
    Loses c.mask c'.mask (c.bestFirst P) (c.bestLen P)
  /-- The depth bound of the model stops no call, and a larger bound changes nothing. -/
  depth : ∀ c : Call W, c.result P ≠ .error .depth ∧
    ∀ fuel ≥ coverDepth, coverInsn P fuel c.cur c.pass c.mask c.build = c.result P

/-- The nodes of an automaton, below the call `root`, are well linked. -/
structure Linked (P : Patterns W) (root : Call W) (automata : ℕ → BitVec W) : Prop where
  disjoint : ∀ p₁ p₂ c₁ c₂, Path P root p₁ c₁ → Path P root p₂ c₂ → c₁.insns P ≠ [] →
    c₂.insns P ≠ [] → p₁ ≠ p₂ → Disjoint (c₁.cells P) (c₂.cells P)
  inside : ∀ p c, Path P root p c → c.insns P ≠ [] → ∀ x ∈ c.cells P, x < maxAutomataSize
  /-- The flag in the first cell tells leaves from nodes with children. -/
  flag : ∀ p c, Path P root p c → c.insns P ≠ [] →
    (automata c.cur &&& leafFlag W = 0 ↔ c.Splits P)
  /-- An entry is zero if there is no child, that is no instruction with this value of the field,
  and else the offset of the node built for it. -/
  slot : ∀ p c, Path P root p c → c.Splits P → ∀ i < 2 ^ c.bestLen P, ∃ c', Nested P c i c' ∧
    c'.insns P = child P (c.insns P) (c.bestFirst P) (c.bestLen P) i ∧
    (automata (c.cur + 2 + i) = 0 ↔ c'.insns P = []) ∧
    (automata (c.cur + 2 + i) ≠ 0 → (automata (c.cur + 2 + i)).toNat = c'.cur ∧
      c.cur < c'.cur ∧ c'.cur < maxAutomataSize)

theorem pointer_spec (hW : 32 ≤ W) (hpos : 0 < c.cur)
    (hlt : c.insns P ≠ [] → c.cur < maxAutomataSize) :
    (c.pointer P = 0 ↔ c.insns P = []) ∧
      (c.pointer P ≠ 0 → (c.pointer P).toNat = c.cur ∧ c.cur < maxAutomataSize) := by
  rw [Call.pointer]
  split_ifs with hc
  · exact ⟨iff_of_true rfl hc, fun hne => absurd rfl hne⟩
  · have hmax : maxAutomataSize = 1200 := rfl
    have hcur := hlt hc
    have hnat : (BitVec.ofNat W c.cur).toNat = c.cur := toNat_ofNat_of_lt hW (by omega)
    exact ⟨iff_of_false (ofNat_ne_zero hW hpos (by omega)) hc, fun _ => ⟨hnat, hcur⟩⟩

theorem Written.flag (hW : 32 ≤ W) (h : Written P mem c) :
    mem c.cur &&& leafFlag W = 0 ↔ c.Splits P := by
  cases h with
  | leaf hc cell =>
    rw [cell]
    exact iff_of_false (leaf_and_leafFlag hW _)
      (Call.not_splits_of_length (by rw [hc]; exact le_refl 1))
  | node hs first mask slot =>
    have hinside := (hs.isField hW).inside
    rw [first]
    exact iff_of_true (node_and_leafFlag hW (by omega)) hs

theorem linked_of_laid (hW : 32 ≤ W) (hv : c.Valid) (h : Laid P c e mem)
    (he : e ≤ maxAutomataSize) : Linked P c mem := by
  have hinside : ∀ p c', Path P c p c' → c'.insns P ≠ [] → c'.stop P ≤ maxAutomataSize :=
    fun p c' hp hc' => (h.inside p c' hp hc').2.trans he
  refine ⟨h.disjoint, fun p c' hp hc' x hx => hx.2.trans_le (hinside p c' hp hc'),
    fun p c' hp hc' => (h.written p c' hp hc').flag hW, fun p c' hp hs i hi => ?_⟩
  have hne : c'.insns P ≠ [] := fun hnil => by
    have htwo := hs.two
    rw [hnil] at htwo
    exact absurd htwo (by decide)
  cases h.written p c' hp hne with
  | leaf hc cell => exact absurd hs (Call.not_splits_of_length (by rw [hc]; exact le_refl 1))
  | node _ _ _ slot =>
    obtain ⟨c'', hn, hslot⟩ := slot i hi
    have hv' := hp.valid hW hv
    have hlt : c'.cur < c''.cur :=
      (Nat.lt_of_succ_lt Call.header_lt_behind).trans_le (hn.behind_le hW hv')
    have hsize : c''.insns P ≠ [] → c''.cur < maxAutomataSize :=
      fun hc'' => (Call.cur_lt_stop c'').trans_le (hinside _ _ (hp.snoc hn) hc'')
    obtain ⟨hzero, hne⟩ := pointer_spec hW (Nat.zero_lt_of_lt hlt) hsize
    rw [hslot]
    exact ⟨c'', hn, hn.insns_eq hW hv', hzero, fun h => ⟨(hne h).1, hlt, (hne h).2⟩⟩

/-! ### The walk -/

theorem decodeFrom_mono {w : BitVec 32} {fuel fuel' a : ℕ} {r : ℤ} (hle : fuel ≤ fuel')
    (h : decodeFrom P mem w fuel a = some r) : decodeFrom P mem w fuel' a = some r := by
  induction fuel generalizing fuel' a with
  | zero => cases h
  | succ fuel ih =>
    obtain ⟨fuel', rfl⟩ : ∃ k, fuel' = k + 1 := ⟨fuel' - 1, by omega⟩
    rw [decodeFrom] at h ⊢
    dsimp only at h ⊢
    split_ifs at h ⊢
    · exact h
    · exact ih (by omega) h
    · exact h
    · exact h

/-- The walk visits at most as many nodes as there are levels. -/
theorem decodeFrom_ends (hW : 32 ≤ W) {junk automata : ℕ → BitVec W}
    (h : buildAutomata P junk = .ok automata) (w : BitVec 32) :
    ∃ r, insnDecode P automata w = some r ∧
      ∀ fuel ≥ coverDepth, decodeFrom P automata w fuel 0 = some r := by
  obtain ⟨e, hnum, hsize, htree⟩ := covers_of_buildAutomata hW h
  have hmax : maxAutomataSize = 1200 := rfl
  have hsmall : ∀ j ∈ List.range P.num, j < 2 ^ 31 := by
    intro j hj
    have hj := List.mem_range.1 hj
    omega
  obtain ⟨r, hr, -, -⟩ := decodeFrom_covers hW (le_refl coverDepth) hsize hsmall htree w
  exact ⟨r, decodeFrom_mono (by decide) hr, fun fuel hfuel => decodeFrom_mono hfuel hr⟩

/-- **The automaton is well linked.**  The recursion that builds it ends for every table, since each
nested call has lost bits of its mask.  If building succeeds, distinct nodes have disjoint cells in
the array; a child entry is zero if there is no child, and else the offset of the child's node,
behind its parent; and every walk through the automaton ends. -/
theorem automata_linked (hW : 32 ≤ W) (P : Patterns W) (junk : ℕ → BitVec W) :
    Terminates P ∧ buildAutomata P junk ≠ .error .depth ∧
      ∀ automata, buildAutomata P junk = .ok automata → Linked P (Call.root P junk) automata ∧
        ∀ w, ∃ r, insnDecode P automata w = some r ∧
          ∀ fuel ≥ coverDepth, decodeFrom P automata w fuel 0 = some r := by
  refine ⟨⟨nested_wf hW P, fun c i c' hn => hn.loses hW, fun c => ⟨result_ne_depth hW c, ?_⟩⟩,
    buildAutomata_ne_depth hW P junk, fun automata h => ⟨?_, decodeFrom_ends hW h⟩⟩
  · intro fuel hfuel
    have hbits := bitCount_lt_coverDepth c.mask
    exact coverInsn_stable hW (by omega) hbits
  · obtain ⟨e, b, hcover, hsize, rfl⟩ := buildAutomata_ok h
    have hv := Call.root_valid (P := P) junk
    have hlaid := laid_of_result hW hv hcover
    exact linked_of_laid hW hv hlaid hsize

/-- For a table of two encodings that differ in the first bit. -/
theorem automata_linked_two :
    ∃ automata, buildAutomata (Patterns.ofEncodings 32 [['0', 'A'], ['1', 'A']]) (fun _ => 0) =
        .ok automata ∧
      Linked (Patterns.ofEncodings 32 [['0', 'A'], ['1', 'A']])
        (Call.root (Patterns.ofEncodings 32 [['0', 'A'], ['1', 'A']]) fun _ => 0) automata := by
  obtain ⟨automata, hbuild⟩ : ∃ automata, buildAutomata
      (Patterns.ofEncodings 32 [['0', 'A'], ['1', 'A']]) (fun _ => 0) = .ok automata := ⟨_, rfl⟩
  exact ⟨automata, hbuild, ((automata_linked (le_refl 32) _ _).2.2 automata hbuild).1⟩

end Decoder
end Or1ksim
