import Or1ksim.Cuc.Insn

/-!
# Basic blocks

`detect_bb` of `cuc/bb.c`: the instructions of a function are cut into basic blocks, artificial
blocks are put in front of every block with more than two edges into it, and each block gets links
to the blocks it comes from.

* `blocks`, `nextOf` — the blocks and the edges between them;
* `relocate` — the artificial blocks, and the edges after they are in;
* `addPrevs` — the links backwards;
* `detectBb` — the graph, or none where an assertion fails;
* `detectBb_linked` — **every edge leads to a block of the function that links back to it**, and
  none leads to the first block.
-/

namespace Or1ksim
namespace Cuc

variable {W : ℕ}

/-- The instructions of a function as they were loaded: `insn` and `num_insn`. -/
structure Code (W : ℕ) where
  num : ℕ
  insn : ℕ → Insn W

/-- The word of an operand. -/
def Operand.word : Operand W → BitVec W
  | .const c | .register c | .dest c | .jump c | .bb c => c
  | .ref q => BitVec.ofNat W (q.bb * 0x10000 + q.i)
  | .none | .lrbb => 0

/-- Where a branch goes, as an `int`. -/
def jumpTarget (ii : Insn W) : ℤ := ((ii.op 0).word.setWidth 32).toInt

namespace Code

variable (c : Code W)

/-- A branch to instruction `i`. -/
def isTarget (i : ℕ) : Bool :=
  (List.range c.num).any fun j => (c.insn j).branch && jumpTarget (c.insn j) == i

/-- `IT_BBSTART` -/
def isStart (i : ℕ) : Bool :=
  i == 0 || (c.insn (i - 1)).branch || c.isTarget i

/-- `IT_BBEND` -/
def isEnd (i : ℕ) : Bool :=
  (c.insn i).branch || c.isTarget (i + 1) || i + 1 == c.num

/-- No branch leaves the function. -/
def jumpsInside : Bool :=
  (List.range c.num).all fun i =>
    !(c.insn i).branch || (0 ≤ jumpTarget (c.insn i) && jumpTarget (c.insn i) < c.num)

/-- The first and the last instruction of each block that ends among the first `n` instructions,
and the start of the block not yet ended. -/
def scan : ℕ → List (ℕ × ℕ) × ℕ
  | 0 => ([], 0)
  | i + 1 =>
    let (bbs, start) := scan i
    let first := if c.isStart i then i else start
    if c.isEnd i then (bbs ++ [(first, i)], first) else (bbs, first)

/-- The basic blocks of the function, each by its first and its last instruction. -/
def blocks : List (ℕ × ℕ) := (c.scan c.num).1

/-- The edges out of the block at place `i`: to the target of its branch and to the block behind
it. -/
def nextOf (i last : ℕ) : Option (Fin 2 → Option ℕ) :=
  if (c.insn last).branch then
    if (c.insn last).index = .bf then
      -- `assert (j < f->num_bb)`
      (c.blocks.findIdx? fun b => BitVec.ofNat W b.1 == ((c.insn last).op 0).word).map fun j =>
        ![some j, some (i + 1)]
    else none
  else if last + 1 = c.num then some ![none, none]
  else some ![some (i + 1), none]

end Code

/-- `cuc_bb`: the instructions of a block and the edges out of it. -/
structure Block where
  first : ℕ
  /-- None for an artificial block. -/
  last : Option ℕ
  next : Fin 2 → Option ℕ

/-- The blocks with the edges between them. -/
def Code.forward (c : Code W) : Option (List Block) :=
  c.blocks.zipIdx.mapM fun ((first, last), i) =>
    (c.nextOf i last).map fun next => { first := first, last := some last, next := next }

/-! ### Artificial blocks -/

/-- `tmp`: the number of edges into block `j`. -/
def edgesInto (bbs : List Block) (j : ℕ) : ℕ :=
  (bbs.map fun b => (List.finRange 2).countP fun k => b.next k == some j).sum

/-- The artificial blocks that block `j` needs. -/
def artificial (bbs : List Block) (j : ℕ) : ℕ := edgesInto bbs j - 2

/-- An artificial block in front of a block. -/
def artificialBlock (b : Block) : Block := { b with last := none, next := ![none, none] }

/-- The blocks, the artificial ones in front of those that need them. -/
def insertArtificial (bbs : List Block) : List Block :=
  bbs.zipIdx.flatMap fun (b, j) =>
    List.replicate (artificial bbs j) (artificialBlock b) ++ [b]

/-- The place that block `j` has then; the array was cleared beyond the blocks. -/
def reloc (bbs : List Block) (j : ℕ) : ℕ :=
  if j < bbs.length then ((List.range j).map fun m => artificial bbs m + 1).sum + artificial bbs j
  else 0

/-- `tmp` after the blocks are in their places: the edges into a block, negative while none of more
than two has been found. -/
def edgesLeft (bbs : List Block) (t : ℕ) : ℤ :=
  ((List.range bbs.length).find? fun j => reloc bbs j == t).elim 0 fun j =>
    if edgesInto bbs j > 2 then -(edgesInto bbs j : ℤ) else edgesInto bbs j

/-- The block an edge to block `j` leads to: the first two of more than two edges to the first
artificial block, the others to the blocks behind it. -/
def relocEdge (bbs : List Block) (tmp : ℕ → ℤ) (j : ℕ) : ℕ × (ℕ → ℤ) :=
  let t := reloc bbs j
  if tmp t < 0 then (t - (-tmp t - 2).toNat, Function.update tmp t (-tmp t))
  else if tmp t > 2 then (t - (tmp t - 2).toNat, Function.update tmp t (tmp t - 1))
  else (t, tmp)

/-- Relocates an edge that is there. -/
def relocNext (bbs : List Block) (tmp : ℕ → ℤ) : Option ℕ → Option ℕ × (ℕ → ℤ)
  | some j => (some (relocEdge bbs tmp j).1, (relocEdge bbs tmp j).2)
  | none => (none, tmp)

/-- Relocates the edges of blocks, the first of which stands at place `i`. -/
def relocBlocks (bbs : List Block) : ℕ → (ℕ → ℤ) → List Block → List Block
  | _, _, [] => []
  | i, tmp, b :: rest =>
    let e0 := relocNext bbs tmp (b.next 0)
    let e1 := relocNext bbs e0.2 (b.next 1)
    -- artificial blocks lead to the block behind them
    let n0 := if b.last.isNone then some (i + 1) else e0.1
    { b with next := ![n0, e1.1] } :: relocBlocks bbs (i + 1) e1.2 rest

/-- The blocks after the artificial ones are in. -/
def relocate (bbs : List Block) : List Block :=
  relocBlocks bbs 0 (edgesLeft bbs) (insertArtificial bbs)

/-- A branch whose condition is constant. -/
def isUnconditional (c : Code W) (b : Block) : Bool :=
  b.last.any fun last => (c.insn last).branch && match (c.insn last).op 1 with
    | .const _ => true
    | _ => false

/-- Unconditional branches do not continue to the next block. -/
def dropFallThrough (c : Code W) (b : Block) : Block :=
  if isUnconditional c b then { b with next := ![b.next 0, none] } else b

/-! ### Links backwards -/

/-- The edge from block `i` is recorded at the block it leads to; three edges fail an assertion. -/
def addPrev (prev : ℕ → Fin 2 → Option ℕ) (i : ℕ) : Option ℕ → Option (ℕ → Fin 2 → Option ℕ)
  | none => some prev
  | some t =>
    if prev t 0 = none then some (Function.update prev t ![some i, prev t 1])
    else if prev t 1 = none then some (Function.update prev t ![prev t 0, some i])
    else none

/-- The edges of the first `n` blocks are recorded. -/
def addPrevs (next : ℕ → Fin 2 → Option ℕ) : ℕ → Option (ℕ → Fin 2 → Option ℕ)
  | 0 => some fun _ _ => none
  | i + 1 =>
    (addPrevs next i).bind fun prev =>
      (addPrev prev i (next i 0)).bind fun prev => addPrev prev i (next i 1)

/-- A link between blocks: -1, `BBID_START`, `BBID_END` or a block. -/
inductive Link where
  | none
  | start
  | stop
  | bb (b : ℕ)
deriving DecidableEq

/-- The link of an edge. -/
def Link.ofEdge : Option ℕ → Link
  | some b => .bb b
  | Option.none => .none

/-- The control-flow graph of a function, with the instructions as they are left. -/
structure Graph (W : ℕ) where
  insn : ℕ → Insn W
  blocks : List Block
  next : ℕ → Fin 2 → Link
  prev : ℕ → Fin 2 → Link

/-- The number of blocks. -/
def Graph.numBb (g : Graph W) : ℕ := g.blocks.length

/-- The edges out of a block. -/
def nextIn (bbs : List Block) (i : ℕ) (k : Fin 2) : Option ℕ := bbs[i]?.bind fun b => b.next k

/-- A branch at the end of a block gets the place of the block it leads to; an unconditional one is
no longer needed. -/
def linkedInsn (c : Code W) (bbs : List Block) (i : ℕ) : Insn W :=
  match bbs.find? fun b => b.last == some i with
  | some b =>
    if isUnconditional c b then nopInsn
    else match (c.insn i).branch, b.next 0 with
      | true, some j =>
        { c.insn i with
          op := Function.update (c.insn i).op 0 (.bb (BitVec.ofNat W (reloc bbs j))) }
      | _, _ => c.insn i
  | none => c.insn i

/-- `detect_bb`; none where it exits or an assertion fails. -/
def detectBb (c : Code W) : Option (Graph W) :=
  if c.jumpsInside ∧ 0 < c.blocks.length ∧ c.blocks.length < 0x1000 then
    c.forward.bind fun bbs₀ =>
      let bbs := (relocate bbs₀).map (dropFallThrough c)
      let next := nextIn bbs
      let n := bbs.length - 1
      (addPrevs next bbs.length).bind fun prev =>
        -- the markers go where no edges are
        if prev 0 0 = none ∧ next n 0 = none ∧ next n 1 = none then
          some {
            insn := linkedInsn c bbs₀
            blocks := bbs
            next := Function.update (fun i k => .ofEdge (next i k)) n ![.stop, .none]
            prev :=
              Function.update (fun i k => .ofEdge (prev i k)) 0 ![.start, .ofEdge (prev 0 1)] }
        else Option.none
  else Option.none

/-! ### What the graph is like -/

section Range

variable {bbs : List Block}

theorem sum_zipIdx_map {β : Type} (f : ℕ → ℕ) (l : List β) (i : ℕ) :
    ((l.zipIdx i).map fun p => f p.2).sum = ((List.range' i l.length).map f).sum := by
  induction l generalizing i with
  | nil => rfl
  | cons b l ih =>
    simp only [List.zipIdx_cons, List.map_cons, List.sum_cons, List.length_cons, List.range'_succ,
      ih]

theorem length_insertArtificial (bbs : List Block) : (insertArtificial bbs).length =
    ((List.range bbs.length).map fun m => artificial bbs m + 1).sum := by
  rw [List.range_eq_range', ← sum_zipIdx_map, insertArtificial, List.length_flatMap]
  simp only [List.length_append, List.length_replicate, List.length_singleton]

theorem reloc_lt (hpos : 0 < bbs.length) (j : ℕ) :
    reloc bbs j < (insertArtificial bbs).length := by
  rw [length_insertArtificial, reloc]
  have hmono : ∀ n, j < n →
      ((List.range j).map fun m => artificial bbs m + 1).sum + artificial bbs j <
        ((List.range n).map fun m => artificial bbs m + 1).sum := by
    intro n hn
    induction n with
    | zero => exact absurd hn (Nat.not_lt_zero j)
    | succ n ih =>
      rw [List.range_succ, List.map_append, List.sum_append]
      rcases Nat.lt_succ_iff_lt_or_eq.1 hn with hlt | rfl
      · exact Nat.lt_add_right _ (ih hlt)
      · simp
  split
  case isTrue hj => exact hmono _ hj
  case isFalse =>
    obtain ⟨n, hn⟩ := Nat.exists_eq_succ_of_ne_zero (Nat.ne_of_gt hpos)
    rw [hn, List.range_succ, List.map_append, List.sum_append, List.map_singleton,
      List.sum_singleton]
    omega

theorem relocEdge_le (tmp : ℕ → ℤ) (j : ℕ) : (relocEdge bbs tmp j).1 ≤ reloc bbs j := by
  unfold relocEdge
  dsimp only
  split_ifs
  · exact Nat.sub_le _ _
  · exact Nat.sub_le _ _
  · exact le_rfl

theorem relocNext_lt (hpos : 0 < bbs.length) {tmp : ℕ → ℤ} {n : Option ℕ} {t : ℕ}
    (h : (relocNext bbs tmp n).1 = some t) : t < (insertArtificial bbs).length := by
  cases n with
  | none => exact nomatch h
  | some j =>
    rw [relocNext] at h
    exact Option.some.inj h ▸ (relocEdge_le tmp j).trans_lt (reloc_lt hpos j)

@[simp]
theorem length_relocBlocks (i : ℕ) (tmp : ℕ → ℤ) (l : List Block) :
    (relocBlocks bbs i tmp l).length = l.length := by
  induction l generalizing i tmp with
  | nil => rfl
  | cons b l ih => simp only [relocBlocks, List.length_cons, ih]

/-- An edge leads to a relocated block, or from an artificial block to the one behind it. -/
theorem relocBlocks_next (hpos : 0 < bbs.length) {i m : ℕ} {tmp : ℕ → ℤ} {l : List Block}
    {b : Block} {k : Fin 2} {t : ℕ} (hb : (relocBlocks bbs i tmp l)[m]? = some b)
    (ht : b.next k = some t) :
    t < (insertArtificial bbs).length ∨ b.last = none ∧ k = 0 ∧ t = i + m + 1 := by
  induction l generalizing i m tmp with
  | nil => simp [relocBlocks] at hb
  | cons c l ih =>
    rw [relocBlocks] at hb
    cases m with
    | zero =>
      obtain rfl := Option.some.inj hb
      obtain rfl | rfl : k = 0 ∨ k = 1 := by omega
      · change (if c.last.isNone then some (i + 1) else (relocNext bbs tmp (c.next 0)).1) = some t
          at ht
        split at ht
        case isTrue hlast =>
          exact .inr ⟨Option.isNone_iff_eq_none.1 hlast, rfl, (Option.some.inj ht).symm⟩
        case isFalse => exact .inl (relocNext_lt hpos ht)
      · exact .inl (relocNext_lt hpos ht)
    | succ m =>
      have h := ih hb
      rwa [Nat.add_right_comm i 1 m] at h

end Range

section Backward

variable {prev prev' : ℕ → Fin 2 → Option ℕ} {next : ℕ → Fin 2 → Option ℕ}

/-- Block `t` links back to block `i`; the first link is the first to be taken. -/
structure Recorded (prev : ℕ → Fin 2 → Option ℕ) (i t : ℕ) : Prop where
  first : prev t 0 ≠ none
  link : prev t 0 = some i ∨ prev t 1 = some i

theorem addPrev_keeps {i j t : ℕ} {e : Option ℕ} (h : addPrev prev i e = some prev')
    (hrec : Recorded prev j t) : Recorded prev' j t := by
  cases e with
  | none =>
    cases h
    exact hrec
  | some u =>
    rw [addPrev] at h
    by_cases htu : t = u
    · subst htu
      rw [if_neg hrec.first] at h
      split_ifs at h with h1
      cases h
      have hlink : prev t 0 = some j := by
        rcases hrec.link with h0 | h1'
        · exact h0
        · exact nomatch h1.symm.trans h1'
      constructor
      · simpa using hrec.first
      · simpa using .inl hlink
    · split_ifs at h <;> cases h <;> constructor <;> rw [Function.update_of_ne htu]
      exacts [hrec.first, hrec.link, hrec.first, hrec.link]

theorem addPrev_records {i t : ℕ} (h : addPrev prev i (some t) = some prev') :
    Recorded prev' i t := by
  rw [addPrev] at h
  split_ifs at h with h0 h1 <;> cases h
  · constructor <;> simp
  · constructor
    · simpa using h0
    · simp

/-- **Every edge is recorded** at the block it leads to. -/
theorem addPrevs_records {n : ℕ} (h : addPrevs next n = some prev) {i t : ℕ} {k : Fin 2}
    (hi : i < n) (hk : next i k = some t) : Recorded prev i t := by
  induction n generalizing prev with
  | zero => exact absurd hi (Nat.not_lt_zero i)
  | succ n ih =>
    rw [addPrevs, Option.bind_eq_some_iff] at h
    obtain ⟨prev₀, h₀, h⟩ := h
    rw [Option.bind_eq_some_iff] at h
    obtain ⟨prev₁, h₁, h₂⟩ := h
    rcases Nat.lt_succ_iff_lt_or_eq.1 hi with hlt | rfl
    · exact addPrev_keeps h₂ (addPrev_keeps h₁ (ih h₀ hlt))
    · obtain rfl | rfl : k = 0 ∨ k = 1 := by omega
      · rw [hk] at h₁
        exact addPrev_keeps h₂ (addPrev_records h₁)
      · rw [hk] at h₂
        exact addPrev_records h₂

theorem addPrev_second {i t : ℕ} {e : Option ℕ} (h : addPrev prev i e = some prev')
    (hprev : prev t 0 = none → prev t 1 = none) (h0 : prev' t 0 = none) : prev' t 1 = none := by
  cases e with
  | none =>
    cases h
    exact hprev h0
  | some u =>
    rw [addPrev] at h
    by_cases htu : t = u
    · subst htu
      split_ifs at h with hu <;> cases h <;> rw [Function.update_self] at h0
      · exact nomatch h0
      · exact absurd h0 hu
    · split_ifs at h <;> cases h <;> rw [Function.update_of_ne htu] at h0 ⊢ <;> exact hprev h0

/-- The second link of a block is not taken before the first. -/
theorem addPrevs_second {n t : ℕ} (h : addPrevs next n = some prev) (h0 : prev t 0 = none) :
    prev t 1 = none := by
  induction n generalizing prev with
  | zero =>
    cases h
    rfl
  | succ n ih =>
    rw [addPrevs, Option.bind_eq_some_iff] at h
    obtain ⟨prev₀, h₀, h⟩ := h
    rw [Option.bind_eq_some_iff] at h
    obtain ⟨prev₁, h₁, h₂⟩ := h
    exact addPrev_second h₂ (addPrev_second h₁ (ih h₀)) h0

end Backward

/-! ### The graph -/

theorem length_of_mapM {α β : Type} {f : α → Option β} {l : List α} {l' : List β}
    (h : l.mapM f = some l') : l'.length = l.length := by
  induction l generalizing l' with
  | nil =>
    cases h
    rfl
  | cons a l ih =>
    simp only [List.mapM_cons, bind, Option.bind_eq_some_iff, pure, Option.some.injEq] at h
    obtain ⟨b, -, bs, hbs, rfl⟩ := h
    rw [List.length_cons, List.length_cons, ih hbs]

theorem exists_mapM {α β : Type} {f : α → Option β} {l : List α}
    (h : ∀ a ∈ l, ∃ b, f a = some b) : ∃ l', l.mapM f = some l' := by
  induction l with
  | nil => exact ⟨[], rfl⟩
  | cons a l ih =>
    obtain ⟨b, hb⟩ := h a List.mem_cons_self
    obtain ⟨bs, hbs⟩ := ih fun a ha => h a (List.mem_cons_of_mem _ ha)
    exact ⟨b :: bs, by simp only [List.mapM_cons, hb, hbs, bind, pure, Option.bind_some]⟩

theorem getElem?_of_mapM {α β : Type} {f : α → Option β} {l : List α} {l' : List β}
    (h : l.mapM f = some l') {i : ℕ} {b : β} (hb : l'[i]? = some b) :
    ∃ a, l[i]? = some a ∧ f a = some b := by
  induction l generalizing l' i with
  | nil =>
    cases h
    simp at hb
  | cons a l ih =>
    simp only [List.mapM_cons, bind, Option.bind_eq_some_iff, pure, Option.some.injEq] at h
    obtain ⟨b', hb', bs, hbs, rfl⟩ := h
    cases i with
    | zero =>
      obtain rfl := Option.some.inj hb
      exact ⟨a, rfl, hb'⟩
    | succ i => exact ih hbs hb

theorem forward_length {c : Code W} {bbs : List Block} (h : c.forward = some bbs) :
    bbs.length = c.blocks.length := by
  rw [length_of_mapM h, List.length_zipIdx]

theorem dropFallThrough_next {c : Code W} {b : Block} {k : Fin 2} {t : ℕ}
    (h : (dropFallThrough c b).next k = some t) : b.next k = some t := by
  unfold dropFallThrough at h
  split_ifs at h
  · obtain rfl | rfl : k = 0 ∨ k = 1 := by omega
    · exact h
    · exact nomatch h
  · exact h

/-- The edges lead to blocks, except perhaps one out of the last block. -/
theorem relocate_next_lt {c : Code W} {bbs : List Block} (hpos : 0 < bbs.length) {i t : ℕ}
    {k : Fin 2} (hi : i + 1 < ((relocate bbs).map (dropFallThrough c)).length)
    (hk : nextIn ((relocate bbs).map (dropFallThrough c)) i k = some t) :
    t < ((relocate bbs).map (dropFallThrough c)).length := by
  rw [List.length_map, relocate, length_relocBlocks] at hi ⊢
  rw [nextIn, List.getElem?_map, Option.bind_eq_some_iff] at hk
  obtain ⟨b', hb', hk⟩ := hk
  obtain ⟨b, hb, rfl⟩ := Option.map_eq_some_iff.1 hb'
  rcases relocBlocks_next hpos hb (dropFallThrough_next hk) with hlt | ⟨-, -, rfl⟩
  · exact hlt
  · omega

theorem Link.ofEdge_eq_bb {e : Option ℕ} {b : ℕ} : Link.ofEdge e = .bb b ↔ e = some b := by
  cases e <;> simp [Link.ofEdge]

/-- What the graphs of `detectBb` have in common. -/
structure Graph.Linked (g : Graph W) : Prop where
  pos : 0 < g.numBb
  start : g.prev 0 0 = .start
  single : g.prev 0 1 = .none
  stop : g.next (g.numBb - 1) 0 = .stop
  lt : ∀ {i k t}, i < g.numBb → g.next i k = .bb t → t < g.numBb
  pos_of_edge : ∀ {i k t}, i < g.numBb → g.next i k = .bb t → 0 < t
  link : ∀ {i k t}, i < g.numBb → g.next i k = .bb t → g.prev t 0 = .bb i ∨ g.prev t 1 = .bb i

/-- **In a graph of basic blocks every edge leads to a block that links back**, and none leads to
the first block. -/
theorem detectBb_linked {c : Code W} {g : Graph W} (h : detectBb c = some g) : g.Linked := by
  unfold detectBb at h
  split_ifs at h with hc
  obtain ⟨-, hblocks, -⟩ := hc
  rw [Option.bind_eq_some_iff] at h
  obtain ⟨bbs, hbbs, h⟩ := h
  have hpos : 0 < bbs.length := forward_length hbbs ▸ hblocks
  rw [Option.bind_eq_some_iff] at h
  obtain ⟨prev, hprev, h⟩ := h
  split_ifs at h with hend
  obtain ⟨hfirst, -⟩ := hend
  cases h
  have hlt := @relocate_next_lt W c bbs hpos
  have hlength : 0 < ((relocate bbs).map (dropFallThrough c)).length := by
    rw [List.length_map, relocate, length_relocBlocks]
    exact (Nat.zero_le _).trans_lt (reloc_lt hpos 0)
  generalize (relocate bbs).map (dropFallThrough c) = bs at hprev hfirst hlt hlength
  -- an edge of the graph is one between the blocks, and not out of the last one
  have hedge : ∀ {i k t}, i < bs.length →
      Function.update (fun i k => Link.ofEdge (nextIn bs i k)) (bs.length - 1) ![.stop, .none] i k =
        .bb t → i + 1 < bs.length ∧ nextIn bs i k = some t := by
    intro i k t hi hk
    by_cases hn : i = bs.length - 1
    · rw [hn, Function.update_self] at hk
      obtain rfl | rfl : k = 0 ∨ k = 1 := by omega
      · exact nomatch hk
      · exact nomatch hk
    · rw [Function.update_of_ne hn] at hk
      exact ⟨by omega, Link.ofEdge_eq_bb.1 hk⟩
  have hrec : ∀ {i k t}, i < bs.length →
      Function.update (fun i k => Link.ofEdge (nextIn bs i k)) (bs.length - 1) ![.stop, .none] i k =
        .bb t → Recorded prev i t ∧ 0 < t := by
    intro i k t hi hk
    have hr := addPrevs_records hprev hi (hedge hi hk).2
    refine ⟨hr, Nat.pos_of_ne_zero ?_⟩
    rintro rfl
    exact hr.first hfirst
  refine ⟨hlength, ?_, ?_, ?_, fun hi hk => ?_, fun hi hk => (hrec hi hk).2, fun hi hk => ?_⟩
  · dsimp only
    rw [Function.update_self]
    rfl
  · dsimp only
    rw [Function.update_self, addPrevs_second hprev hfirst]
    rfl
  · dsimp only [Graph.numBb]
    rw [Function.update_self]
    rfl
  · exact hlt (hedge hi hk).1 (hedge hi hk).2
  · obtain ⟨hr, ht⟩ := hrec hi hk
    dsimp only
    rw [Function.update_of_ne (Nat.ne_of_gt ht)]
    exact hr.link.imp Link.ofEdge_eq_bb.2 Link.ofEdge_eq_bb.2

end Cuc
end Or1ksim
