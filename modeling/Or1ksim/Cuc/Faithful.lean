import Or1ksim.Cuc.Partition
import Or1ksim.Cuc.FanIn
import Mathlib.Data.Fintype.Card

/-!
# Basic block detection is faithful

What the control-flow graph of `detect_bb` of `cuc/bb.c` says about the function.

* `addPrevs_spec` — each block gets a link back for every edge into it, as long as there are two at
  most;
* `exists_arrival` — an edge between the blocks of the graph is one of the two into its place;
* `Graph.Leads` — a block is reached from another through artificial blocks;
* `detectBb_faithful` — **the blocks cut the instructions in order, their links agree, and the
  blocks reached from the end of a block are those that begin at the instructions that may come
  after its last one**, for a function whose blocks fit the array `bb`;
* `detectBb_branches` — a function with too many blocks stops at an assertion.
-/

namespace Or1ksim
namespace Cuc

variable {W : ℕ}

/-! ### Links backwards -/

section Links

variable {next prev : ℕ → Fin 2 → Option ℕ} {es : List (ℕ × Fin 2)} {n : ℕ}

/-- The edges out of the first `n` blocks, in the order in which they are recorded. -/
def edgesOf : ℕ → List (ℕ × Fin 2)
  | 0 => []
  | n + 1 => edgesOf n ++ [(n, 0), (n, 1)]

/-- The edges of a list that lead to block `t`. -/
def edgesTo (next : ℕ → Fin 2 → Option ℕ) (es : List (ℕ × Fin 2)) (t : ℕ) : List (ℕ × Fin 2) :=
  es.filter fun e => next e.1 e.2 == some t

/-- The links of each block are the edges into it, in order. -/
def RecordedAll (prev next : ℕ → Fin 2 → Option ℕ) (es : List (ℕ × Fin 2)) : Prop :=
  ∀ t (k : Fin 2), prev t k = ((edgesTo next es t)[(k : ℕ)]?).map Prod.fst

theorem lt_of_mem_edgesOf {e : ℕ × Fin 2} (h : e ∈ edgesOf n) : e.1 < n := by
  induction n with
  | zero => exact nomatch h
  | succ n ih =>
    rw [edgesOf, List.mem_append] at h
    rcases h with h | h
    · exact Nat.lt_succ_of_lt (ih h)
    · simp only [List.mem_cons, List.not_mem_nil, or_false] at h
      rcases h with rfl | rfl <;> exact Nat.lt_succ_self n

theorem nodup_edgesOf (n : ℕ) : (edgesOf n).Nodup := by
  induction n with
  | zero => exact List.nodup_nil
  | succ n ih =>
    rw [edgesOf, List.nodup_append]
    refine ⟨ih, by simp, fun e he e' he' => ?_⟩
    rintro rfl
    have hlt := lt_of_mem_edgesOf he
    simp only [List.mem_cons, List.not_mem_nil, or_false] at he'
    rcases he' with rfl | rfl <;> exact Nat.lt_irrefl n hlt

theorem edgesTo_append (es es' : List (ℕ × Fin 2)) (t : ℕ) :
    edgesTo next (es ++ es') t = edgesTo next es t ++ edgesTo next es' t := List.filter_append ..

/-- One more edge is recorded at the block it leads to, and nowhere else. -/
theorem RecordedAll.update (h : RecordedAll prev next es) {i t : ℕ} {k : Fin 2}
    (hk : next i k = some t) {f : Fin 2 → Option ℕ}
    (hf : ∀ k' : Fin 2, f k' = ((edgesTo next es t ++ [(i, k)])[(k' : ℕ)]?).map Prod.fst) :
    RecordedAll (Function.update prev t f) next (es ++ [(i, k)]) := by
  intro u k'
  rw [edgesTo_append]
  by_cases hu : u = t
  · have hnew : edgesTo next [(i, k)] t = [(i, k)] := by simp [edgesTo, hk]
    rw [hu, Function.update_self, hnew, hf]
  · have hnew : edgesTo next [(i, k)] u = [] := by simp [edgesTo, hk, Ne.symm hu]
    rw [Function.update_of_ne hu, hnew, List.append_nil, h u k']

theorem addPrev_spec (h : RecordedAll prev next es) (i : ℕ) (k : Fin 2)
    (hlength : ∀ t, (edgesTo next (es ++ [(i, k)]) t).length ≤ 2) :
    ∃ prev', addPrev prev i (next i k) = some prev' ∧ RecordedAll prev' next (es ++ [(i, k)]) := by
  cases hk : next i k with
  | none =>
    refine ⟨prev, rfl, fun t k' => ?_⟩
    rw [h t k', edgesTo_append]
    simp [edgesTo, hk]
  | some t =>
    have hself : edgesTo next (es ++ [(i, k)]) t = edgesTo next es t ++ [(i, k)] := by
      rw [edgesTo_append]
      simp [edgesTo, hk]
    have hlt := hlength t
    rw [hself, List.length_append, List.length_singleton] at hlt
    have hupdate := fun f => h.update hk (f := f)
    have h0 := h t 0
    have h1 := h t 1
    rw [addPrev]
    cases hes : edgesTo next es t with
    | nil =>
      rw [hes] at h0 h1 hupdate
      change prev t 0 = none at h0
      rw [if_pos h0]
      refine ⟨_, rfl, hupdate _ fun k' => ?_⟩
      obtain rfl | rfl : k' = 0 ∨ k' = 1 := by omega
      · rfl
      · exact h1
    | cons e l =>
      obtain rfl : l = [] := by
        rw [hes, List.length_cons] at hlt
        exact List.eq_nil_of_length_eq_zero (by omega)
      rw [hes] at h0 h1 hupdate
      change prev t 0 = some e.1 at h0
      change prev t 1 = none at h1
      have hsome : ¬prev t 0 = none := by
        rw [h0]
        exact Option.some_ne_none _
      rw [if_neg hsome, if_pos h1]
      refine ⟨_, rfl, hupdate _ fun k' => ?_⟩
      obtain rfl | rfl : k' = 0 ∨ k' = 1 := by omega
      · exact h0
      · rfl

/-- **Each block gets a link back for every edge into it**, as long as there are two at most. -/
theorem addPrevs_spec (hlength : ∀ t, (edgesTo next (edgesOf n) t).length ≤ 2) :
    ∃ prev, addPrevs next n = some prev ∧ RecordedAll prev next (edgesOf n) := by
  induction n with
  | zero => exact ⟨_, rfl, fun _ _ => rfl⟩
  | succ n ih =>
    have hshort : ∀ es es' : List (ℕ × Fin 2), ∀ t,
        (edgesTo next es t).length ≤ (edgesTo next (es ++ es') t).length := by
      intro es es' t
      rw [edgesTo_append, List.length_append]
      exact Nat.le_add_right _ _
    have hsplit : edgesOf (n + 1) = edgesOf n ++ [(n, 0)] ++ [(n, 1)] := by
      rw [edgesOf, List.append_assoc, List.singleton_append]
    rw [hsplit] at hlength ⊢
    obtain ⟨prev₀, h₀, hrec₀⟩ := ih fun t =>
      (hshort _ _ t).trans ((hshort _ _ t).trans (hlength t))
    obtain ⟨prev₁, h₁, hrec₁⟩ := addPrev_spec hrec₀ n 0 fun t =>
      (hshort _ _ t).trans (hlength t)
    obtain ⟨prev₂, h₂, hrec₂⟩ := addPrev_spec hrec₁ n 1 hlength
    exact ⟨prev₂, by rw [addPrevs, h₀, Option.bind_some, h₁, Option.bind_some, h₂], hrec₂⟩

theorem countP_links {l : List (ℕ × Fin 2)} (hl : l.length ≤ 2) (i : ℕ) :
    ((List.finRange 2).countP fun k : Fin 2 => (l[(k : ℕ)]?).map Prod.fst == some i) =
      l.countP fun e => e.1 == i := by
  match l, hl with
  | [], _ => rfl
  | [e], _ => simp [List.finRange_succ, List.countP_cons]
  | [e, e'], _ => simp [List.finRange_succ, List.countP_cons, Nat.add_comm]

theorem countP_edgesTo {i t : ℕ} (hi : i < n) :
    (edgesTo next (edgesOf n) t).countP (fun e => e.1 == i) =
      (List.finRange 2).countP fun k => next i k == some t := by
  induction n with
  | zero => exact absurd hi (Nat.not_lt_zero i)
  | succ n ih =>
    rw [edgesOf, edgesTo_append, List.countP_append]
    rcases Nat.lt_succ_iff_lt_or_eq.1 hi with hlt | rfl
    · have hnew : (edgesTo next [(n, 0), (n, 1)] t).countP (fun e => e.1 == i) = 0 := by
        rw [List.countP_eq_zero]
        intro e he
        have hmem := List.mem_of_mem_filter he
        simp only [List.mem_cons, List.not_mem_nil, or_false] at hmem
        rcases hmem with rfl | rfl <;> simp [Nat.ne_of_gt hlt]
      rw [ih hlt, hnew, Nat.add_zero]
    · have hold : (edgesTo next (edgesOf i) t).countP (fun e => e.1 == i) = 0 := by
        rw [List.countP_eq_zero]
        intro e he
        have hlt := lt_of_mem_edgesOf (List.mem_of_mem_filter he)
        simpa using Nat.ne_of_lt hlt
      rw [hold, Nat.zero_add, edgesTo, List.countP_filter]
      simp [List.finRange_succ, List.countP_cons, Nat.add_comm]

end Links

/-! ### The blocks of the graph -/

section Blocks

variable {c : Code W} {bbs : List Block}

/-- The blocks of the graph, when `bbs` are those of the function. -/
def graphBlocks (c : Code W) (bbs : List Block) : List Block :=
  (relocate bbs).map (dropFallThrough c)

theorem length_graphBlocks (c : Code W) (bbs : List Block) :
    (graphBlocks c bbs).length = place bbs bbs.length := by
  rw [graphBlocks, List.length_map, length_relocate]

/-- Unconditional branches do not continue, wherever the edges lead. -/
theorem dropFallThrough_relocated (c : Code W) (b : Block) (f : Fin 2 → ℕ → ℕ) (k : Fin 2) :
    (dropFallThrough c { b with next := fun k => (b.next k).map (f k) }).next k =
      ((dropFallThrough c b).next k).map (f k) := by
  have hsame : isUnconditional c { b with next := fun k => (b.next k).map (f k) } =
      isUnconditional c b := rfl
  rw [dropFallThrough, dropFallThrough, hsame]
  cases isUnconditional c b with
  | false => rfl
  | true =>
    obtain rfl | rfl : k = 0 ∨ k = 1 := by omega
    · rfl
    · rfl

variable {i j o : ℕ} {b : Block}

theorem graphBlocks_block (hflow : Flow bbs) (hb : bbs[j]? = some b) :
    ∃ b', (graphBlocks c bbs)[reloc bbs j]? = some b' ∧ b'.first = b.first ∧ b'.last = b.last ∧
      ∀ k, b'.next k = ((dropFallThrough c b).next k).map
        fun t => edgePlace bbs (edgesBefore bbs j k t) t := by
  rw [graphBlocks, List.getElem?_map, relocate_block hflow hb]
  refine ⟨_, rfl, ?_, ?_, dropFallThrough_relocated c b _⟩
  · unfold dropFallThrough
    split_ifs <;> rfl
  · unfold dropFallThrough
    split_ifs <;> rfl

theorem graphBlocks_artificial (hflow : Flow bbs) (hb : bbs[j]? = some b)
    (ho : o < artificial bbs j) :
    (graphBlocks c bbs)[place bbs j + o]? =
      some { artificialBlock b with next := ![some (place bbs j + o + 1), none] } := by
  rw [graphBlocks, List.getElem?_map, relocate_artificial hflow hb ho]
  rfl

/-- **An edge of the graph is the first or a later one into its place.** -/
theorem exists_arrival (hflow : Flow bbs) {q p : ℕ} {k : Fin 2}
    (h : nextIn (graphBlocks c bbs) q k = some p) : ∃ v, Arrival bbs p v (q, k) := by
  obtain ⟨b', hb', hk⟩ := Option.bind_eq_some_iff.1 h
  have hq : q < (relocate bbs).length := by
    have hlt := (List.getElem?_eq_some_iff.1 hb').1
    rwa [length_graphBlocks, ← length_relocate] at hlt
  obtain ⟨j, b, hb, rfl | ⟨o, ho, rfl⟩⟩ := exists_place hq
  · obtain ⟨b'', hb'', -, -, hnext⟩ := graphBlocks_block (c := c) hflow hb
    obtain rfl := Option.some.inj (hb'.symm.trans hb'')
    rw [hnext, Option.map_eq_some_iff] at hk
    obtain ⟨t, ht, rfl⟩ := hk
    have hedge := dropFallThrough_next ht
    by_cases hfirst : edgesBefore bbs j k t = 0
    · exact ⟨0, .edge hb hedge rfl (iff_of_true rfl hfirst)⟩
    · exact ⟨1, .edge hb hedge rfl (iff_of_false (by decide) hfirst)⟩
  · obtain rfl := Option.some.inj (hb'.symm.trans (graphBlocks_artificial hflow hb ho))
    match k with
    | 0 => exact ⟨0, .chain ho (Option.some.inj hk).symm rfl⟩
    | 1 => exact nomatch hk

/-- A list without duplicates has two members at most if two labels tell them apart. -/
theorem length_le_two {α : Type} {l : List α} (hl : l.Nodup) {R : Fin 2 → α → Prop}
    (hR : ∀ a ∈ l, ∃ v, R v a) (hinj : ∀ {v a a'}, R v a → R v a' → a = a') : l.length ≤ 2 := by
  choose! f hf using hR
  have hnodup : (l.map f).Nodup := hl.map_on fun a ha a' ha' heq =>
    hinj (hf a ha) (heq ▸ hf a' ha')
  have hcard := hnodup.length_le_card
  rwa [List.length_map, Fintype.card_fin] at hcard

/-- **A block of the graph has two edges into it at most.** -/
theorem length_edgesTo (hflow : Flow bbs) (n t : ℕ) :
    (edgesTo (nextIn (graphBlocks c bbs)) (edgesOf n) t).length ≤ 2 := by
  refine length_le_two ((nodup_edgesOf n).filter _) (R := Arrival bbs t) (fun e he => ?_)
    fun h h' => h.inj hflow h'
  exact exists_arrival hflow (beq_iff_eq.1 (List.mem_filter.1 he).2)

theorem range_dropFallThrough (c : Code W) (b : Block) :
    (dropFallThrough c b).range = b.range := by
  unfold dropFallThrough
  split_ifs <;> rfl

theorem ranges_placed (bbs : List Block) (j : ℕ) (b : Block) :
    (placed bbs j b).filterMap Block.range = b.range.toList := by
  have hnil : ((List.range (artificial bbs j)).map fun o =>
      { artificialBlock b with next := ![some (place bbs j + o + 1), none] }).filterMap
        Block.range = [] := by
    rw [List.filterMap_eq_nil_iff]
    intro b' hb'
    obtain ⟨o, -, rfl⟩ := List.mem_map.1 hb'
    rfl
  rw [placed, List.filterMap_append, hnil, List.nil_append, List.filterMap_eq_flatMap_toList]
  exact List.append_nil _

/-- The blocks of the graph with instructions are those of the function, in order. -/
theorem ranges_graphBlocks (hflow : Flow bbs) :
    (graphBlocks c bbs).filterMap Block.range = bbs.filterMap Block.range := by
  have hdrop : Block.range ∘ dropFallThrough c = Block.range :=
    funext fun b => range_dropFallThrough c b
  rw [graphBlocks, List.filterMap_map, hdrop, relocate_eq hflow, List.filterMap_flatMap]
  simp only [ranges_placed]
  conv_rhs => rw [← List.zipIdx_map_fst 0 bbs, List.filterMap_eq_flatMap_toList,
    List.flatMap_map]

end Blocks

/-! ### The graph of a function -/

section Built

variable {c : Code W} {bbs : List Block} {g : Graph W}

/-- Block `j`, which has instructions, is reached from the end of block `i` through artificial
blocks only. -/
inductive Graph.Leads (g : Graph W) : ℕ → ℕ → Prop
  | edge {i j : ℕ} {k : Fin 2} {b : Block} (h : g.next i k = .bb j)
      (hb : g.blocks[j]? = some b) (hlast : b.last ≠ Option.none) : Leads g i j
  | through {i t j : ℕ} {k : Fin 2} {b : Block} (h : g.next i k = .bb t)
      (hb : g.blocks[t]? = some b) (hlast : b.last = Option.none) (hrest : Leads g t j) :
      Leads g i j

/-- The blocks fit the array `bb` with its `MAX_BB` places: those of the function with one to
spare, and all of them with the artificial ones. -/
structure Code.Fits (c : Code W) : Prop where
  blocks : c.blocks.length < 0x1000
  artificial : ∀ bbs, c.forward = some bbs → (insertArtificial bbs).length ≤ 0x1000

/-- The graph says what the function does. -/
structure Graph.Faithful (c : Code W) (g : Graph W) : Prop where
  /-- The blocks cut the instructions in order. -/
  tiles : Tiles 0 (g.blocks.filterMap Block.range) c.num
  next_lt : ∀ {i t : ℕ} {k : Fin 2}, g.next i k = .bb t → i < g.numBb ∧ t < g.numBb
  /-- A block links back to another as often as there are edges from there. -/
  links : ∀ i t : ℕ, ((List.finRange 2).countP fun k => g.next i k == .bb t) =
    (List.finRange 2).countP fun k => g.prev t k == .bb i
  /-- The blocks reached from the end of a block begin at the instructions that may come next. -/
  leads_iff : ∀ {i t first last : ℕ} {b b' : Block}, g.blocks[i]? = some b →
    b.last = some last → g.blocks[t]? = some b' → b'.last ≠ Option.none → b'.first = first →
    (g.Leads i t ↔ c.Next last first)
  /-- A block begins at each instruction that may come next. -/
  exists_next : ∀ {i last j : ℕ} {b : Block}, g.blocks[i]? = some b → b.last = some last →
    c.Next last j → ∃ (t : ℕ) (b' : Block), g.Leads i t ∧ g.blocks[t]? = some b' ∧ b'.first = j

/-- How a graph is built from the blocks of the function. -/
structure Built (c : Code W) (bbs : List Block) (g : Graph W) : Prop where
  blocks : g.blocks = graphBlocks c bbs
  next : ∀ {i t : ℕ} {k : Fin 2},
    g.next i k = .bb t ↔ nextIn (graphBlocks c bbs) i k = some t
  prev : ∀ {i t : ℕ} {k : Fin 2}, g.prev t k = .bb i ↔
    ((edgesTo (nextIn (graphBlocks c bbs)) (edgesOf (graphBlocks c bbs).length) t)[(k : ℕ)]?).map
      Prod.fst = some i

theorem Code.Edges.flow (h : c.Edges bbs) (hc : c.Loaded) : Flow bbs where
  pos := h.length ▸ hc.blocks_ne_nil
  last hb hnone := by
    obtain ⟨p, -, -, hlast, -⟩ := h.block hb
    exact nomatch hnone.symm.trans hlast
  next_lt := h.next_lt
  next_pos := h.next_pos hc
  next_last := h.next_last hc

theorem nextIn_last (hflow : Flow bbs) (k : Fin 2) :
    nextIn (graphBlocks c bbs) ((graphBlocks c bbs).length - 1) k = none := by
  obtain ⟨m, hm⟩ := Nat.exists_eq_succ_of_ne_zero (Nat.ne_of_gt hflow.pos)
  have hlt : m < bbs.length := hm ▸ Nat.lt_succ_self m
  have hb := List.getElem?_eq_getElem hlt
  have hlast : (graphBlocks c bbs).length - 1 = reloc bbs m := by
    rw [length_graphBlocks, hm, Nat.succ_eq_add_one, place_succ, reloc_eq hlt, ← Nat.add_assoc,
      Nat.add_sub_cancel]
  obtain ⟨b', hb', -, -, hnext⟩ := graphBlocks_block (c := c) hflow hb
  rw [hlast, nextIn, hb', Option.bind_some, hnext, Option.map_eq_none_iff]
  cases hk : (dropFallThrough c bbs[m]).next k with
  | none => rfl
  | some t => cases (dropFallThrough_next hk).symm.trans (hflow.next_last hb hm.symm)

theorem edgesTo_zero (hflow : Flow bbs) (n : ℕ) :
    edgesTo (nextIn (graphBlocks c bbs)) (edgesOf n) 0 = [] := by
  rw [edgesTo, List.filter_eq_nil_iff]
  intro e _ he
  obtain ⟨v, harrival⟩ := exists_arrival hflow (beq_iff_eq.1 he)
  exact Nat.lt_irrefl 0 (harrival.pos hflow)

/-- The graph with the markers where no edges are. -/
def markedGraph (c : Code W) (bbs : List Block) (prev : ℕ → Fin 2 → Option ℕ) : Graph W where
  insn := linkedInsn c bbs
  blocks := graphBlocks c bbs
  next := Function.update (fun i k => .ofEdge (nextIn (graphBlocks c bbs) i k))
    ((graphBlocks c bbs).length - 1) ![.stop, .none]
  prev := Function.update (fun i k => .ofEdge (prev i k)) 0 ![.start, .ofEdge (prev 0 1)]

theorem ofEdge_update_iff {f : ℕ → Fin 2 → Option ℕ} {n : ℕ} {m : Link} (hm : ∀ t, m ≠ .bb t)
    (hnone : f n 0 = none) {i t : ℕ} {k : Fin 2} :
    Function.update (fun i k => Link.ofEdge (f i k)) n ![m, .ofEdge (f n 1)] i k = .bb t ↔
      f i k = some t := by
  by_cases hi : i = n
  · rw [hi, Function.update_self]
    match k with
    | 0 => exact iff_of_false (hm t) fun h => nomatch hnone.symm.trans h
    | 1 => exact Link.ofEdge_eq_bb
  · rw [Function.update_of_ne hi]
    exact Link.ofEdge_eq_bb

/-- **No assertion fails** when the blocks fit. -/
theorem exists_built (hc : c.Loaded) (hfit : c.blocks.length < 0x1000) :
    ∃ bbs g, detectBb c = some g ∧ c.Edges bbs ∧ Built c bbs g := by
  obtain ⟨bbs, hbbs, hedges⟩ := hc.exists_forward
  have hflow := hedges.flow hc
  obtain ⟨prev, hprev, hrec⟩ := addPrevs_spec fun t =>
    length_edgesTo (c := c) hflow (graphBlocks c bbs).length t
  have hzero : ∀ k, prev 0 k = none := by
    intro k
    rw [hrec, edgesTo_zero hflow]
    rfl
  have hlast := nextIn_last (c := c) hflow
  refine ⟨bbs, markedGraph c bbs prev, ?_, hedges, rfl, ?_, ?_⟩
  · rw [detectBb, if_pos ⟨hc.jumpsInside, hc.blocks_ne_nil, hfit⟩, hbbs, Option.bind_some]
    change ((addPrevs (nextIn (graphBlocks c bbs)) (graphBlocks c bbs).length).bind _) = _
    rw [hprev, Option.bind_some]
    exact if_pos ⟨hzero 0, hlast 0, hlast 1⟩
  · intro i t k
    have hstop : Link.none = .ofEdge
        (nextIn (graphBlocks c bbs) ((graphBlocks c bbs).length - 1) 1) := by
      rw [hlast]
      rfl
    rw [markedGraph, hstop]
    exact ofEdge_update_iff (m := .stop) (fun _ h => nomatch h) (hlast 0)
  · intro i t k
    rw [← hrec]
    exact ofEdge_update_iff (m := .start) (fun _ h => nomatch h) (hzero 0)

namespace Built

variable (hbuilt : Built c bbs g) (hflow : Flow bbs)

include hbuilt

include hflow in
theorem next_lt {i t : ℕ} {k : Fin 2} (h : g.next i k = .bb t) :
    i < g.numBb ∧ t < g.numBb := by
  have hnext := hbuilt.next.1 h
  have hi : i < (graphBlocks c bbs).length := by
    obtain ⟨b, hb, -⟩ := Option.bind_eq_some_iff.1 hnext
    exact (List.getElem?_eq_some_iff.1 hb).1
  have hne : i ≠ (graphBlocks c bbs).length - 1 := by
    rintro rfl
    exact nomatch hnext.symm.trans (nextIn_last hflow k)
  rw [Graph.numBb, hbuilt.blocks]
  have hlt : i + 1 < (graphBlocks c bbs).length := by omega
  exact ⟨hi, relocate_next_lt hflow.pos hlt hnext⟩

include hflow in
theorem links (i t : ℕ) : ((List.finRange 2).countP fun k => g.next i k == .bb t) =
    (List.finRange 2).countP fun k => g.prev t k == .bb i := by
  have hnext : ((List.finRange 2).countP fun k => g.next i k == .bb t) =
      (List.finRange 2).countP fun k => nextIn (graphBlocks c bbs) i k == some t :=
    List.countP_congr fun k _ => by rw [beq_iff_eq, beq_iff_eq, hbuilt.next]
  have hprev : ((List.finRange 2).countP fun k => g.prev t k == .bb i) =
      (edgesTo (nextIn (graphBlocks c bbs)) (edgesOf (graphBlocks c bbs).length) t).countP
        fun e => e.1 == i :=
    (List.countP_congr fun k _ => by rw [beq_iff_eq, beq_iff_eq, hbuilt.prev]).trans
      (countP_links (length_edgesTo hflow _ t) i)
  rw [hnext, hprev]
  by_cases hi : i < (graphBlocks c bbs).length
  · rw [countP_edgesTo hi]
  · have hnone : ∀ k, nextIn (graphBlocks c bbs) i k = none := by
      intro k
      rw [nextIn, List.getElem?_eq_none (Nat.le_of_not_lt hi)]
      rfl
    have hzero : (edgesTo (nextIn (graphBlocks c bbs))
        (edgesOf (graphBlocks c bbs).length) t).countP (fun e => e.1 == i) = 0 := by
      rw [List.countP_eq_zero]
      intro e he heq
      exact hi (beq_iff_eq.1 heq ▸ lt_of_mem_edgesOf (List.mem_of_mem_filter he))
    rw [hzero]
    simp only [hnone]
    rfl

/-! ### Following the edges -/

/-- An edge to place `p` leads to block `t`, through artificial blocks if one is there. -/
def Arrives (g : Graph W) (p t : ℕ) : Prop :=
  ∃ b, g.blocks[p]? = some b ∧
    (b.last ≠ Option.none ∧ t = p ∨ b.last = Option.none ∧ g.Leads p t)

omit hbuilt in
theorem leads_iff_arrives {i t : ℕ} :
    g.Leads i t ↔ ∃ k p, g.next i k = .bb p ∧ Arrives g p t := by
  constructor
  · intro h
    cases h with
    | edge h hb hlast => exact ⟨_, _, h, _, hb, .inl ⟨hlast, rfl⟩⟩
    | through h hb hlast hrest => exact ⟨_, _, h, _, hb, .inr ⟨hlast, hrest⟩⟩
  · rintro ⟨k, p, h, b, hb, ⟨hlast, rfl⟩ | ⟨hlast, hrest⟩⟩
    · exact .edge h hb hlast
    · exact .through h hb hlast hrest

include hflow in
/-- **From any of the places of block `j` an edge leads on to the block itself.** -/
theorem arrives_iff {j o t : ℕ} {b : Block} (hb : bbs[j]? = some b)
    (ho : o ≤ artificial bbs j) : Arrives g (place bbs j + o) t ↔ t = reloc bbs j := by
  have hj := (List.getElem?_eq_some_iff.1 hb).1
  -- from the block itself to the artificial blocks in front of it
  induction hn : artificial bbs j - o generalizing o with
  | zero =>
    have hplace : place bbs j + o = reloc bbs j := by
      rw [reloc_eq hj]
      omega
    obtain ⟨b', hb', -, hlast, -⟩ := graphBlocks_block (c := c) hflow hb
    rw [hplace, Arrives, hbuilt.blocks, hb']
    have hsome : b'.last ≠ none := hlast ▸ hflow.last hb
    constructor
    · rintro ⟨b'', heq, h⟩
      obtain rfl := Option.some.inj heq
      rcases h with h | h
      · exact h.2
      · exact absurd h.1 hsome
    · rintro rfl
      exact ⟨b', rfl, .inl ⟨hsome, rfl⟩⟩
  | succ n ih =>
    have hlt : o < artificial bbs j := by omega
    have hb' := graphBlocks_artificial (c := c) hflow hb hlt
    have hnext : ∀ {k : Fin 2} {p : ℕ}, g.next (place bbs j + o) k = .bb p ↔
        k = 0 ∧ p = place bbs j + (o + 1) := by
      intro k p
      rw [hbuilt.next, nextIn, hb', Option.bind_some]
      obtain rfl | rfl : k = 0 ∨ k = 1 := by omega
      · change some (place bbs j + o + 1) = some p ↔ _
        rw [Option.some.injEq, Nat.add_assoc]
        exact ⟨fun h => ⟨rfl, h.symm⟩, fun h => h.2.symm⟩
      · refine iff_of_false (fun h => ?_) fun h => absurd h.1 (by decide)
        cases h
    have hrest : Arrives g (place bbs j + (o + 1)) t ↔ t = reloc bbs j :=
      ih (Nat.succ_le_of_lt hlt) (by omega)
    rw [← hrest, Arrives, hbuilt.blocks, hb']
    constructor
    · rintro ⟨b'', heq, h⟩
      obtain rfl := Option.some.inj heq
      rcases h with h | h
      · exact absurd rfl h.1
      · obtain ⟨k, p, hk, hp⟩ := leads_iff_arrives.1 h.2
        obtain ⟨-, rfl⟩ := hnext.1 hk
        exact hp
    · intro h
      exact ⟨_, rfl, .inr ⟨rfl, leads_iff_arrives.2 ⟨0, _, hnext.2 ⟨rfl, rfl⟩, h⟩⟩⟩

include hflow in
/-- The blocks reached from the end of a block are those that its edges led to before the
artificial blocks were in. -/
theorem leads_iff_edge {j t : ℕ} {b : Block} (hb : bbs[j]? = some b) :
    g.Leads (reloc bbs j) t ↔
      ∃ k m, (dropFallThrough c b).next k = some m ∧ t = reloc bbs m := by
  obtain ⟨b', hb', -, -, hnext⟩ := graphBlocks_block (c := c) hflow hb
  have hedge : ∀ {k : Fin 2} {p : ℕ}, g.next (reloc bbs j) k = .bb p ↔
      ∃ m, (dropFallThrough c b).next k = some m ∧
        edgePlace bbs (edgesBefore bbs j k m) m = p := by
    intro k p
    rw [hbuilt.next, nextIn, hb', Option.bind_some, hnext, Option.map_eq_some_iff]
  have harrives : ∀ {k : Fin 2} {m : ℕ}, (dropFallThrough c b).next k = some m →
      (Arrives g (edgePlace bbs (edgesBefore bbs j k m) m) t ↔ t = reloc bbs m) := by
    intro k m hm
    have hlt := hflow.next_lt hb (dropFallThrough_next hm)
    rw [edgePlace_eq hlt]
    exact hbuilt.arrives_iff hflow (List.getElem?_eq_getElem hlt) (Nat.sub_le _ _)
  rw [leads_iff_arrives]
  constructor
  · rintro ⟨k, p, hp, h⟩
    obtain ⟨m, hm, rfl⟩ := hedge.1 hp
    exact ⟨k, m, hm, (harrives hm).1 h⟩
  · rintro ⟨k, m, hm, h⟩
    exact ⟨k, _, hedge.2 ⟨m, hm, rfl⟩, (harrives hm).2 h⟩

include hflow in
/-- A block of the graph with instructions is one of the function. -/
theorem exists_block {p last : ℕ} {b : Block} (hb : g.blocks[p]? = some b)
    (hlast : b.last = some last) : ∃ (j : ℕ) (b₀ : Block),
      bbs[j]? = some b₀ ∧ p = reloc bbs j ∧ b₀.first = b.first ∧ b₀.last = some last := by
  rw [hbuilt.blocks] at hb
  have hp : p < (relocate bbs).length := by
    have hlt := (List.getElem?_eq_some_iff.1 hb).1
    rwa [length_graphBlocks, ← length_relocate] at hlt
  obtain ⟨j, b₀, hb₀, rfl | ⟨o, ho, rfl⟩⟩ := exists_place hp
  · obtain ⟨b', hb', hfirst, hlast', -⟩ := graphBlocks_block (c := c) hflow hb₀
    obtain rfl := Option.some.inj (hb.symm.trans hb')
    exact ⟨j, b₀, hb₀, rfl, hfirst.symm, hlast'.symm.trans hlast⟩
  · obtain rfl := Option.some.inj (hb.symm.trans (graphBlocks_artificial hflow hb₀ ho))
    exact nomatch hlast

/-- **A graph that is built so says what the function does.** -/
theorem faithful (hc : c.Loaded) (hedges : c.Edges bbs) : g.Faithful c := by
  have hflow := hedges.flow hc
  -- between blocks of the function
  have hleads : ∀ {j m last : ℕ} {b : Block}, bbs[j]? = some b → b.last = some last →
      m < bbs.length → (g.Leads (reloc bbs j) (reloc bbs m) ↔
        ∃ q : ℕ × ℕ, c.blocks[m]? = some q ∧ c.Next last q.1) := by
    intro j m last b hb hlast hm
    rw [hbuilt.leads_iff_edge hflow hb, ← hedges.edge_iff hc hb hlast]
    constructor
    · rintro ⟨k, m', hk, heq⟩
      rw [reloc_inj hm (hflow.next_lt hb (dropFallThrough_next hk)) heq]
      exact ⟨k, hk⟩
    · rintro ⟨k, hk⟩
      exact ⟨k, m, hk, rfl⟩
  refine ⟨?_, hbuilt.next_lt hflow, hbuilt.links hflow, ?_, ?_⟩
  · rw [hbuilt.blocks, ranges_graphBlocks hflow, hedges.ranges]
    exact hc.tiles
  · intro i t first last b b' hb hlast hb' hlast' hfirst
    obtain ⟨j, b₀, hb₀, rfl, -, hlast₀⟩ := hbuilt.exists_block hflow hb hlast
    obtain ⟨last', hlast'⟩ := Option.ne_none_iff_exists'.1 hlast'
    obtain ⟨m, b₁, hb₁, rfl, hfirst₁, -⟩ := hbuilt.exists_block hflow hb' hlast'
    rw [hleads hb₀ hlast₀ (List.getElem?_eq_some_iff.1 hb₁).1]
    obtain ⟨q, hq, hfirstq, -⟩ := hedges.block hb₁
    have hqf : q.1 = first := hfirstq.symm.trans (hfirst₁.trans hfirst)
    constructor
    · rintro ⟨q', hq', hnext⟩
      obtain rfl := Option.some.inj (hq.symm.trans hq')
      exact hqf ▸ hnext
    · intro hnext
      exact ⟨q, hq, hqf.symm ▸ hnext⟩
  · intro i last j' b hb hlast hnext
    obtain ⟨j, b₀, hb₀, rfl, -, hlast₀⟩ := hbuilt.exists_block hflow hb hlast
    obtain ⟨p, hp, -, hlastp, -⟩ := hedges.block hb₀
    obtain rfl : p.2 = last := Option.some.inj (hlastp.symm.trans hlast₀)
    obtain ⟨m, q, hq, rfl⟩ := hc.exists_next hp hnext
    have hm : m < bbs.length := hedges.length ▸ (List.getElem?_eq_some_iff.1 hq).1
    obtain ⟨q', hq', hfirst, -⟩ := hedges.block (List.getElem?_eq_getElem hm)
    obtain rfl := Option.some.inj (hq.symm.trans hq')
    obtain ⟨b', hb', hfirst', -⟩ :=
      graphBlocks_block (c := c) hflow (List.getElem?_eq_getElem hm)
    refine ⟨reloc bbs m, b', (hleads hb₀ hlast₀ hm).2 ⟨q, hq, hnext⟩, ?_,
      hfirst'.trans hfirst⟩
    rw [hbuilt.blocks]
    exact hb'

end Built
end Built

/-- **Basic block detection is faithful** for a function whose blocks fit. -/
theorem detectBb_faithful {c : Code W} (hc : c.Loaded) (hfit : c.Fits) :
    ∃ g, detectBb c = some g ∧ g.Faithful c := by
  obtain ⟨bbs, g, hg, hedges, hbuilt⟩ := exists_built hc hfit.blocks
  exact ⟨g, hg, hbuilt.faithful hc hedges⟩

/-- `n` branches, each to the instruction that `target` says, and an instruction behind them. -/
def branches (n : ℕ) (target : ℕ → ℕ) : Code 32 where
  num := n + 1
  insn i := if i < n then
    { (nopInsn : Insn 32) with
      branch := true, index := .bf, op := ![.jump (target i), .register 32, .none, .none, .none] }
    else nopInsn

theorem branches_branch {n i : ℕ} {target : ℕ → ℕ} :
    ((branches n target).insn i).branch = true ↔ i < n := by
  rw [branches]
  dsimp only
  split_ifs with hi
  · exact iff_of_true rfl hi
  · exact iff_of_false nofun hi

theorem branches_loaded {n : ℕ} {target : ℕ → ℕ} (hn : n < 0x10000)
    (htarget : ∀ i < n, 0 < target i ∧ target i ≤ n) : (branches n target).Loaded := by
  have hword : ∀ {i}, i < n → (branches n target).target i = target i := by
    intro i hi
    have hlt := (htarget i hi).2
    rw [Code.target, branches]
    dsimp only
    rw [if_pos hi]
    exact Nat.mod_eq_of_lt (by omega)
  refine ⟨le_rfl, Nat.succ_pos n, hn, fun {i} _ hbranch => ?_, fun {i} _ hbranch => ?_,
    fun {i} _ hbranch => ?_, ?_⟩
  · have hi := branches_branch.1 hbranch
    rw [branches]
    dsimp only
    rw [if_pos hi]
  · have hi := branches_branch.1 hbranch
    exact (hword hi).symm ▸ (htarget i hi).1
  · have hi := branches_branch.1 hbranch
    exact (hword hi).symm ▸ Nat.lt_succ_of_le (htarget i hi).2
  · rw [← Bool.not_eq_true, branches_branch]
    exact Nat.lt_irrefl n

/-- Three branches to the last instruction, which two artificial blocks are put in front of. -/
theorem detectBb_faithful_join : ∃ g, detectBb (branches 3 fun _ => 3) = some g ∧
    g.Faithful (branches 3 fun _ => 3) := by
  refine detectBb_faithful (branches_loaded (by decide) fun _ _ => ⟨by decide, le_rfl⟩)
    ⟨by decide, fun bbs hbbs => ?_⟩
  have hlength : (branches 3 fun _ => 3).forward.map (fun bbs => (insertArtificial bbs).length) =
      some 6 := by decide
  rw [hbbs] at hlength
  exact (Option.some.inj hlength).trans_le (by decide)

/-- Branches and the instruction behind them are blocks of their own. -/
theorem blocks_branches (n : ℕ) (target : ℕ → ℕ) :
    (branches n target).blocks.length = n + 1 := by
  have hend : ∀ i < n + 1, (branches n target).isEnd i = true := by
    intro i hi
    rw [Code.isEnd, Bool.or_eq_true, Bool.or_eq_true, branches_branch, beq_iff_eq]
    rcases Nat.lt_succ_iff_lt_or_eq.1 hi with hlt | rfl
    · exact .inl (.inl hlt)
    · exact .inr rfl
  have hscan : ∀ m ≤ n + 1, ((branches n target).scan m).1.length = m := by
    intro m hm
    induction m with
    | zero => rfl
    | succ m ih =>
      rw [Code.scan]
      dsimp only
      rw [if_pos (hend m hm), List.length_append, ih (Nat.le_of_succ_le hm)]
      rfl
  exact hscan _ le_rfl

/-- A function with too many blocks stops at an assertion. -/
theorem detectBb_branches : ¬∀ c : Code 32, c.Loaded → ∃ g, detectBb c = some g ∧ g.Faithful c := by
  intro h
  obtain ⟨g, hg, -⟩ := h (branches 0xfff (· + 1))
    (branches_loaded (by decide) fun i hi => ⟨Nat.succ_pos i, hi⟩)
  rw [detectBb, if_neg] at hg
  · exact nomatch hg
  · rintro ⟨-, -, hlt⟩
    rw [blocks_branches] at hlt
    exact absurd hlt (by decide)

end Cuc
end Or1ksim
