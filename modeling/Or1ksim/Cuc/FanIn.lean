import Or1ksim.Cuc.DetectBb
import Or1ksim.Lib.Tiling

/-!
# Artificial blocks

How `detect_bb` of `cuc/bb.c` puts artificial blocks in front of the blocks with more than two
edges into them, and where the edges lead then.

* `Flow` — the edges it starts from;
* `relocate_eq` — **the edges by a formula**: edge number `m` into a block with `n` edges is moved
  `n - 1 - max m 1` places to the front, artificial blocks lead to the block behind them;
* `relocate_block`, `relocate_artificial` — what is at a place;
* `Arrival.inj` — a place has two edges into it at most, an earlier and a later one.
-/

namespace Or1ksim
namespace Cuc

/-- The edges between the blocks of a function: they lead to blocks other than the first one, and
none leads out of the last block. -/
structure Flow (bbs : List Block) : Prop where
  pos : 0 < bbs.length
  last : ∀ {i : ℕ} {b : Block}, bbs[i]? = some b → b.last ≠ none
  next_lt : ∀ {i j : ℕ} {b : Block} {k : Fin 2}, bbs[i]? = some b → b.next k = some j →
    j < bbs.length
  next_pos : ∀ {i j : ℕ} {b : Block} {k : Fin 2}, bbs[i]? = some b → b.next k = some j → 0 < j
  next_last : ∀ {i : ℕ} {b : Block} {k : Fin 2}, bbs[i]? = some b → i + 1 = bbs.length →
    b.next k = none

/-- Where the artificial blocks in front of block `j` begin. -/
def place (bbs : List Block) (j : ℕ) : ℕ := offset (fun m => artificial bbs m + 1) j

/-- The edges to block `j` that come before edge `k` of block `i`. -/
def edgesBefore (bbs : List Block) (i : ℕ) (k : Fin 2) (j : ℕ) : ℕ :=
  edgesInto (bbs.take i) j + if k = 1 ∧ nextIn bbs i 0 = some j then 1 else 0

/-- The place that an edge to block `j` leads to when `m` edges to it come earlier. -/
def edgePlace (bbs : List Block) (m j : ℕ) : ℕ :=
  reloc bbs j - (edgesInto bbs j - 1 - max m 1)

variable {bbs : List Block}

theorem place_succ (bbs : List Block) (j : ℕ) :
    place bbs (j + 1) = place bbs j + (artificial bbs j + 1) := offset_succ _ _

theorem reloc_eq {j : ℕ} (hj : j < bbs.length) : reloc bbs j = place bbs j + artificial bbs j :=
  if_pos hj

theorem place_add_inj {i j o o' : ℕ} (ho : o ≤ artificial bbs i) (ho' : o' ≤ artificial bbs j)
    (h : place bbs i + o = place bbs j + o') : i = j ∧ o = o' :=
  offset_add_inj (fun _ => Nat.succ_pos _) (Nat.lt_succ_of_le ho) (Nat.lt_succ_of_le ho') h

theorem le_place (bbs : List Block) (j : ℕ) : j ≤ place bbs j := by
  induction j with
  | zero => exact Nat.zero_le _
  | succ j ih =>
    rw [place_succ]
    omega

/-- An edge leads to a place between the first artificial block and the block itself. -/
theorem edgePlace_eq {m j : ℕ} (hj : j < bbs.length) :
    edgePlace bbs m j =
      place bbs j + (artificial bbs j - (edgesInto bbs j - 1 - max m 1)) := by
  rw [edgePlace, reloc_eq hj, artificial]
  omega

/-! ### Counting the edges -/

section Count

theorem countP_next (b : Block) (j : ℕ) :
    ((List.finRange 2).countP fun k => b.next k == some j) =
      (if b.next 0 = some j then 1 else 0) + if b.next 1 = some j then 1 else 0 := by
  simp [List.finRange_succ, List.countP_cons, Nat.add_comm]

theorem edgesInto_append (l l' : List Block) (j : ℕ) :
    edgesInto (l ++ l') j = edgesInto l j + edgesInto l' j := by
  rw [edgesInto, List.map_append, List.sum_append, edgesInto, edgesInto]

theorem edgesInto_cons (b : Block) (l : List Block) (j : ℕ) :
    edgesInto (b :: l) j = (if b.next 0 = some j then 1 else 0) +
      (if b.next 1 = some j then 1 else 0) + edgesInto l j := by
  rw [edgesInto, List.map_cons, List.sum_cons, countP_next, edgesInto]

theorem edgesInto_take_succ {i : ℕ} {b : Block} (hb : bbs[i]? = some b) (j : ℕ) :
    edgesInto (bbs.take (i + 1)) j = edgesInto (bbs.take i) j +
      ((if b.next 0 = some j then 1 else 0) + if b.next 1 = some j then 1 else 0) := by
  rw [List.take_add_one, hb, Option.toList_some, edgesInto_append, edgesInto_cons]
  rfl

theorem edgesInto_take_le {i i' : ℕ} (h : i ≤ i') (j : ℕ) :
    edgesInto (bbs.take i) j ≤ edgesInto (bbs.take i') j := by
  have htake : bbs.take i' = bbs.take i ++ (bbs.take i').drop i := by
    conv_lhs => rw [← List.take_append_drop i (bbs.take i'), List.take_take, Nat.min_eq_left h]
  rw [htake, edgesInto_append]
  exact Nat.le_add_right _ _

variable {i i' j : ℕ} {b b' : Block} {k k' : Fin 2}

theorem edgesBefore_lt_take (hb : bbs[i]? = some b) (hk : b.next k = some j) :
    edgesBefore bbs i k j < edgesInto (bbs.take (i + 1)) j := by
  have hnext : nextIn bbs i 0 = b.next 0 := by
    rw [nextIn, hb]
    rfl
  rw [edgesBefore, hnext, edgesInto_take_succ hb]
  obtain rfl | rfl : k = 0 ∨ k = 1 := by omega
  · rw [if_neg fun h => absurd h.1 (by decide), hk, if_pos rfl]
    omega
  · simp [hk]

theorem edgesBefore_lt (hb : bbs[i]? = some b) (hk : b.next k = some j) :
    edgesBefore bbs i k j < edgesInto bbs j := by
  have hle : edgesInto (bbs.take (i + 1)) j ≤ edgesInto (bbs.take bbs.length) j :=
    edgesInto_take_le (List.getElem?_eq_some_iff.1 hb).1 j
  rw [List.take_length] at hle
  exact (edgesBefore_lt_take hb hk).trans_le hle

/-- **The edges to a block are numbered in order.** -/
theorem edgesBefore_inj (hb : bbs[i]? = some b) (hk : b.next k = some j)
    (hb' : bbs[i']? = some b') (hk' : b'.next k' = some j)
    (h : edgesBefore bbs i k j = edgesBefore bbs i' k' j) : i = i' ∧ k = k' := by
  have hlater : ∀ {i i' : ℕ} {k k' : Fin 2} {b : Block}, bbs[i]? = some b → b.next k = some j →
      i < i' → edgesBefore bbs i k j < edgesBefore bbs i' k' j := fun hb hk hlt =>
    (edgesBefore_lt_take hb hk).trans_le ((edgesInto_take_le hlt j).trans (Nat.le_add_right _ _))
  rcases Nat.lt_trichotomy i i' with hlt | rfl | hlt
  · exact absurd h (Nat.ne_of_lt (hlater hb hk hlt))
  · refine ⟨rfl, ?_⟩
    have hnext : nextIn bbs i 0 = b.next 0 := by
      rw [nextIn, hb]
      rfl
    obtain rfl := Option.some.inj (hb.symm.trans hb')
    rw [edgesBefore, edgesBefore, hnext] at h
    obtain rfl | rfl : k = 0 ∨ k = 1 := by omega
    · obtain rfl | rfl : k' = 0 ∨ k' = 1 := by omega
      · rfl
      · simp [hk] at h
    · obtain rfl | rfl : k' = 0 ∨ k' = 1 := by omega
      · simp [hk'] at h
      · rfl
  · exact absurd h.symm (Nat.ne_of_lt (hlater hb' hk' hlt))

end Count

/-! ### Relocating the edges -/

section Relocating

/-- `tmp` of a block with `n` edges into it once `m` of them are relocated. -/
def tmpAfter (n m : ℕ) : ℤ := if n ≤ 2 then n else if m = 0 then -n else max 2 (n - m + 1)

/-- `tmp` when `seen j` of the edges to block `j` are relocated, for each `j`. -/
def Counted (bbs : List Block) (tmp : ℕ → ℤ) (seen : ℕ → ℕ) : Prop :=
  ∀ j < bbs.length, tmp (reloc bbs j) = tmpAfter (edgesInto bbs j) (seen j)

theorem reloc_inj {i j : ℕ} (hi : i < bbs.length) (hj : j < bbs.length)
    (h : reloc bbs i = reloc bbs j) : i = j := by
  rw [reloc_eq hi, reloc_eq hj] at h
  exact (place_add_inj le_rfl le_rfl h).1

theorem edgesLeft_counted : Counted bbs (edgesLeft bbs) fun _ => 0 := by
  intro j hj
  have hfind : (List.range bbs.length).find? (fun m => reloc bbs m == reloc bbs j) = some j := by
    rw [List.find?_range_eq_some]
    refine ⟨beq_self_eq_true _, List.mem_range.2 hj, fun m hm => ?_⟩
    rw [Bool.not_eq_true', beq_eq_false_iff_ne]
    intro heq
    exact Nat.ne_of_lt hm (reloc_inj (hm.trans hj) hj heq)
  rw [edgesLeft, hfind, tmpAfter, if_pos rfl]
  change (if edgesInto bbs j > 2 then -(edgesInto bbs j : ℤ) else edgesInto bbs j) = _
  omega

variable {tmp : ℕ → ℤ} {seen : ℕ → ℕ}

/-- The edge to block `j` that comes after `seen j` others. -/
theorem relocEdge_fst (h : Counted bbs tmp seen) {j : ℕ} (hj : j < bbs.length)
    (hseen : seen j < edgesInto bbs j) : (relocEdge bbs tmp j).1 = edgePlace bbs (seen j) j := by
  have htmp := h j hj
  rw [relocEdge, edgePlace]
  rw [htmp, tmpAfter]
  split_ifs <;> omega

theorem relocEdge_counted (h : Counted bbs tmp seen) {j : ℕ} (hj : j < bbs.length)
    (hseen : seen j < edgesInto bbs j) :
    Counted bbs (relocEdge bbs tmp j).2 fun m => seen m + if j = m then 1 else 0 := by
  intro m hm
  have htmp := h j hj
  rw [tmpAfter] at htmp
  dsimp only
  by_cases hjm : j = m
  · subst hjm
    have hnew : tmpAfter (edgesInto bbs j) (seen j + 1) = if tmp (reloc bbs j) < 0 then
        -tmp (reloc bbs j) else if tmp (reloc bbs j) > 2 then tmp (reloc bbs j) - 1
        else tmp (reloc bbs j) := by
      rw [htmp, tmpAfter]
      omega
    rw [if_pos rfl, hnew, relocEdge]
    split_ifs with hneg hmany
    · exact Function.update_self ..
    · exact Function.update_self ..
    · rfl
  · have hne : reloc bbs m ≠ reloc bbs j := fun heq => hjm (reloc_inj hm hj heq).symm
    rw [if_neg hjm, Nat.add_zero, ← h m hm, relocEdge]
    split_ifs with hneg hmany
    · exact Function.update_of_ne hne _ _
    · exact Function.update_of_ne hne _ _
    · rfl

/-- An edge, if it is there, after `seen` of the edges to its block. -/
theorem relocNext_spec (h : Counted bbs tmp seen) {e : Option ℕ}
    (he : ∀ {j}, e = some j → j < bbs.length ∧ seen j < edgesInto bbs j) :
    (relocNext bbs tmp e).1 = e.map (fun j => edgePlace bbs (seen j) j) ∧
      Counted bbs (relocNext bbs tmp e).2 fun m => seen m + if e = some m then 1 else 0 := by
  cases e with
  | none => exact ⟨rfl, h⟩
  | some j =>
    obtain ⟨hj, hseen⟩ := he rfl
    refine ⟨congrArg some (relocEdge_fst h hj hseen), ?_⟩
    simp only [relocNext, Option.some.injEq]
    exact relocEdge_counted h hj hseen

/-- Artificial blocks lead to the block behind them and leave `tmp` as it is. -/
theorem relocBlocks_artificial (i n : ℕ) (tmp : ℕ → ℤ) (b : Block) (l : List Block) :
    relocBlocks bbs i tmp (List.replicate n (artificialBlock b) ++ l) =
      (List.range n).map (fun o => { artificialBlock b with next := ![some (i + o + 1), none] }) ++
        relocBlocks bbs (i + n) tmp l := by
  induction n generalizing i with
  | zero => rfl
  | succ n ih =>
    rw [List.replicate_succ, List.cons_append, relocBlocks, List.range_succ_eq_map, List.map_cons,
      List.map_map, List.cons_append]
    refine congrArg (List.cons _) ?_
    have htail := ih (i + 1)
    rw [Nat.add_right_comm i 1 n] at htail
    refine htail.trans (congrArg (· ++ _) (List.map_congr_left fun o _ => ?_))
    rw [Function.comp_apply, Nat.succ_eq_add_one, Nat.add_right_comm i 1 o, Nat.add_assoc i o 1]

/-- The artificial blocks in front of block `j` and the block, with the edges out of them. -/
def placed (bbs : List Block) (j : ℕ) (b : Block) : List Block :=
  (List.range (artificial bbs j)).map (fun o =>
      { artificialBlock b with next := ![some (place bbs j + o + 1), none] }) ++
    [{ b with next := fun k => (b.next k).map fun t => edgePlace bbs (edgesBefore bbs j k t) t }]

theorem length_placed (bbs : List Block) (j : ℕ) (b : Block) :
    (placed bbs j b).length = artificial bbs j + 1 := by
  rw [placed, List.length_append, List.length_map, List.length_range, List.length_singleton]

/-- Block `j` behind its artificial blocks, when the edges out of the blocks before it are
relocated. -/
theorem relocBlocks_segment (hflow : Flow bbs) {j : ℕ} {b : Block} (hb : bbs[j]? = some b)
    (h : Counted bbs tmp (edgesInto (bbs.take j))) (l : List Block) :
    ∃ tmp', Counted bbs tmp' (edgesInto (bbs.take (j + 1))) ∧
      relocBlocks bbs (place bbs j) tmp
          (List.replicate (artificial bbs j) (artificialBlock b) ++ b :: l) =
        placed bbs j b ++ relocBlocks bbs (place bbs (j + 1)) tmp' l := by
  have hnext : nextIn bbs j 0 = b.next 0 := by
    rw [nextIn, hb]
    rfl
  -- the number of edges seen is the one the formula speaks of
  have hseen : ∀ (k : Fin 2) (t : ℕ), edgesBefore bbs j k t =
      edgesInto (bbs.take j) t + if k = 1 ∧ b.next 0 = some t then 1 else 0 := by
    intro k t
    rw [edgesBefore, hnext]
  obtain ⟨hfirst, hcounted⟩ := relocNext_spec h (e := b.next 0) fun {t} ht => by
    refine ⟨hflow.next_lt hb ht, ?_⟩
    have hlt := edgesBefore_lt hb ht
    rwa [hseen, if_neg fun h => absurd h.1 (by decide)] at hlt
  obtain ⟨hsecond, hcounted'⟩ := relocNext_spec hcounted (e := b.next 1) fun {t} ht => by
    refine ⟨hflow.next_lt hb ht, ?_⟩
    have hlt := edgesBefore_lt hb ht
    simpa only [hseen, true_and] using hlt
  refine ⟨(relocNext bbs (relocNext bbs tmp (b.next 0)).2 (b.next 1)).2, ?_, ?_⟩
  · intro t ht
    rw [hcounted' t ht, edgesInto_take_succ hb, ← Nat.add_assoc]
  · rw [relocBlocks_artificial, placed, List.append_assoc, List.singleton_append, relocBlocks,
      place_succ, Nat.add_assoc]
    refine congrArg (_ ++ ·) (congrArg (· :: _) (congrArg (Block.mk b.first b.last) ?_))
    have hlast : ¬b.last.isNone = true := fun h =>
      hflow.last hb (Option.isNone_iff_eq_none.1 h)
    refine funext (Fin.forall_fin_two.2 ⟨?_, ?_⟩)
    · refine (if_neg hlast).trans (hfirst.trans (Option.map_congr fun t _ => ?_))
      rw [hseen, if_neg fun h => absurd h.1 (by decide), Nat.add_zero]
    · refine hsecond.trans (Option.map_congr fun t _ => ?_)
      simp only [hseen, true_and]

theorem relocBlocks_segments (hflow : Flow bbs) {j : ℕ} {suf : List Block}
    (hsuf : bbs.drop j = suf) (h : Counted bbs tmp (edgesInto (bbs.take j))) :
    relocBlocks bbs (place bbs j) tmp ((suf.zipIdx j).flatMap fun x =>
        List.replicate (artificial bbs x.2) (artificialBlock x.1) ++ [x.1]) =
      (suf.zipIdx j).flatMap fun x => placed bbs x.2 x.1 := by
  induction suf generalizing j tmp with
  | nil => rfl
  | cons b suf ih =>
    have hb : bbs[j]? = some b := by
      have hhead : (bbs.drop j)[0]? = bbs[j + 0]? := List.getElem?_drop
      rw [hsuf] at hhead
      exact hhead.symm
    have hdrop : bbs.drop (j + 1) = suf := by
      rw [← List.drop_drop, hsuf, List.drop_one, List.tail_cons]
    rw [List.zipIdx_cons, List.flatMap_cons, List.flatMap_cons, List.append_assoc,
      List.singleton_append]
    obtain ⟨tmp', h', heq⟩ := relocBlocks_segment hflow hb h _
    exact heq.trans (congrArg (placed bbs j b ++ ·) (ih hdrop h'))

/-- **The artificial blocks and the edges by a formula.** -/
theorem relocate_eq (hflow : Flow bbs) :
    relocate bbs = bbs.zipIdx.flatMap fun x => placed bbs x.2 x.1 :=
  relocBlocks_segments (j := 0) hflow rfl edgesLeft_counted

end Relocating

/-! ### What is at a place -/

section Places

variable {j o p : ℕ} {b : Block}

theorem length_relocate (bbs : List Block) : (relocate bbs).length = place bbs bbs.length := by
  rw [relocate, length_relocBlocks, length_insertArtificial]
  rfl

/-- A block has its own instructions and the edges by the formula. -/
theorem relocate_block (hflow : Flow bbs) (hb : bbs[j]? = some b) :
    (relocate bbs)[reloc bbs j]? = some { b with
      next := fun k => (b.next k).map fun t => edgePlace bbs (edgesBefore bbs j k t) t } := by
  rw [relocate_eq hflow, reloc_eq (List.getElem?_eq_some_iff.1 hb).1, place,
    getElem?_segments (length_placed bbs) hb (Nat.lt_succ_self _), placed,
    List.getElem?_append_right (by simp)]
  simp

theorem relocate_artificial (hflow : Flow bbs) (hb : bbs[j]? = some b)
    (ho : o < artificial bbs j) :
    (relocate bbs)[place bbs j + o]? =
      some { artificialBlock b with next := ![some (place bbs j + o + 1), none] } := by
  rw [relocate_eq hflow, place, getElem?_segments (length_placed bbs) hb (Nat.lt_succ_of_lt ho),
    placed, List.getElem?_append_left (by simpa using ho), List.getElem?_map,
    List.getElem?_range ho]
  rfl

/-- At each place there is a block of the function or an artificial one in front of it. -/
theorem exists_place (hp : p < (relocate bbs).length) : ∃ (j : ℕ) (b : Block),
    bbs[j]? = some b ∧ (p = reloc bbs j ∨ ∃ o < artificial bbs j, p = place bbs j + o) := by
  rw [length_relocate] at hp
  obtain ⟨j, hj, o, ho, rfl⟩ := exists_offset hp
  refine ⟨j, bbs[j], List.getElem?_eq_getElem hj, ?_⟩
  rcases Nat.lt_succ_iff_lt_or_eq.1 ho with ho | rfl
  · exact .inr ⟨o, ho, rfl⟩
  · exact .inl (reloc_eq hj).symm

end Places

/-! ### The edges into a place -/

/-- The edge leads to place `p`; it is the one that comes first there when `v` is 0, the later one
otherwise. -/
inductive Arrival (bbs : List Block) (p : ℕ) (v : Fin 2) : ℕ × Fin 2 → Prop
  | chain {j o : ℕ} (ho : o < artificial bbs j) (hp : p = place bbs j + o + 1)
      (hv : v = 0) : Arrival bbs p v (place bbs j + o, 0)
  | edge {i j : ℕ} {b : Block} {k : Fin 2} (hb : bbs[i]? = some b) (hk : b.next k = some j)
      (hp : p = edgePlace bbs (edgesBefore bbs i k j) j)
      (hv : v = 0 ↔ edgesBefore bbs i k j = 0) : Arrival bbs p v (reloc bbs i, k)

namespace Arrival

variable {p : ℕ} {v : Fin 2} {e e' : ℕ × Fin 2}

/-- The first edges lead to the first artificial block, to which no artificial block leads. -/
theorem chain_ne_edge (hflow : Flow bbs) {i j j' o : ℕ} {b : Block} {k : Fin 2}
    (ho : o < artificial bbs j) (hb : bbs[i]? = some b) (hk : b.next k = some j')
    (hfirst : edgesBefore bbs i k j' = 0) :
    place bbs j + o + 1 ≠ edgePlace bbs (edgesBefore bbs i k j') j' := by
  intro heq
  rw [edgePlace_eq (hflow.next_lt hb hk), hfirst, Nat.add_assoc] at heq
  have h := (place_add_inj (Nat.succ_le_of_lt ho) (Nat.sub_le _ _) heq).2
  rw [artificial] at h
  omega

/-- **A place has two edges into it at most**, one that comes first and a later one. -/
theorem inj (hflow : Flow bbs) (h : Arrival bbs p v e) (h' : Arrival bbs p v e') : e = e' := by
  cases h with
  | chain ho hp hv =>
    cases h' with
    | chain ho' hp' hv' =>
      have heq := Nat.succ.inj (hp.symm.trans hp')
      rw [heq]
    | edge hb' hk' hp' hv' =>
      exact absurd (hp.symm.trans hp') (chain_ne_edge hflow ho hb' hk' (hv'.1 hv))
  | @edge i j b k hb hk hp hv =>
    cases h' with
    | chain ho' hp' hv' =>
      exact absurd (hp'.symm.trans hp) (chain_ne_edge hflow ho' hb hk (hv.1 hv'))
    | @edge i' j' b' k' hb' hk' hp' hv' =>
      have heq := hp.symm.trans hp'
      rw [edgePlace_eq (hflow.next_lt hb hk), edgePlace_eq (hflow.next_lt hb' hk')] at heq
      obtain ⟨rfl, hoff⟩ := place_add_inj (Nat.sub_le _ _) (Nat.sub_le _ _) heq
      have hlt := edgesBefore_lt hb hk
      have hlt' := edgesBefore_lt hb' hk'
      -- the place and whether it is the first tell the number of the edge
      have hnumber : edgesBefore bbs i k j = edgesBefore bbs i' k' j := by
        rw [artificial] at hoff
        have hboth := hv.symm.trans hv'
        omega
      obtain ⟨rfl, rfl⟩ := edgesBefore_inj hb hk hb' hk' hnumber
      rfl

theorem pos (hflow : Flow bbs) (h : Arrival bbs p v e) : 0 < p := by
  cases h with
  | chain ho hp hv =>
    rw [hp]
    exact Nat.succ_pos _
  | @edge i j b k hb hk hp hv =>
    rw [hp, edgePlace_eq (hflow.next_lt hb hk)]
    exact Nat.add_pos_left ((hflow.next_pos hb hk).trans_le (le_place bbs j)) _

end Arrival
end Cuc
end Or1ksim
