import Or1ksim.Cuc.DetectBb
import Or1ksim.Lib.Tiling

/-!
# The blocks cut the function

Where `detect_bb` of `cuc/bb.c` begins and ends its blocks, and the edges it finds between them
before it puts in artificial ones.

* `Code.Loaded` — the instructions that the loader hands over;
* `Loaded.tiles` — **the blocks cut the instructions in order**;
* `Loaded.exists_block` — an instruction that has to begin a block does;
* `Code.Next` — the instructions that may come after another;
* `Loaded.exists_forward` — no assertion fails on the way to the edges;
* `Loaded.edge_iff` — **the edges out of a block lead to the blocks that begin at the instructions
  that may come after its last one**.
-/

namespace Or1ksim
namespace Cuc

variable {W : ℕ}

namespace Code

variable (c : Code W)

/-- The instruction a branch goes to. -/
def target (i : ℕ) : ℕ := ((c.insn i).op 0).word.toNat

/-- A branch whose condition is constant, as `l.j` is loaded. -/
def unconditional (i : ℕ) : Bool :=
  (c.insn i).branch && match (c.insn i).op 1 with
    | .const _ => true
    | _ => false

/-- The instructions of a function as `cuc_load` leaves them, in the array `insn`: the branches
go to instructions of the function other than the first one, and the last one is no branch. -/
structure Loaded : Prop where
  /-- `unsigned long` has 32 bits at least. -/
  width : 32 ≤ W
  pos : 0 < c.num
  /-- `MAX_INSNS` -/
  num_le : c.num ≤ 0x10000
  bf : ∀ {i}, i < c.num → (c.insn i).branch = true → (c.insn i).index = .bf
  target_pos : ∀ {i}, i < c.num → (c.insn i).branch = true → 0 < c.target i
  target_lt : ∀ {i}, i < c.num → (c.insn i).branch = true → c.target i < c.num
  last : (c.insn (c.num - 1)).branch = false

/-- Instruction `j` may come after instruction `i`. -/
def Next (i j : ℕ) : Prop :=
  if (c.insn i).branch then j = c.target i ∨ c.unconditional i = false ∧ j = i + 1
  else i + 1 < c.num ∧ j = i + 1

end Code

open Code

variable {c : Code W}

theorem isUnconditional_eq {b : Block} {last : ℕ} (hb : b.last = some last) :
    isUnconditional c b = c.unconditional last := by
  rw [isUnconditional, hb]
  rfl

namespace Code
namespace Loaded

section Targets

variable (hc : c.Loaded) {i : ℕ}

include hc

theorem jumpTarget_eq (hi : i < c.num) (hbranch : (c.insn i).branch = true) :
    jumpTarget (c.insn i) = c.target i := by
  have hlt : c.target i < 0x10000 := (hc.target_lt hi hbranch).trans_le hc.num_le
  have hword : (((c.insn i).op 0).word.setWidth 32).toNat = c.target i := by
    rw [BitVec.toNat_setWidth]
    exact Nat.mod_eq_of_lt (hlt.trans (by decide))
  rw [jumpTarget, BitVec.toInt_eq_toNat_of_lt (by omega), hword]

theorem jumpsInside : c.jumpsInside = true := by
  rw [Code.jumpsInside, List.all_eq_true]
  intro i hi
  rw [List.mem_range] at hi
  cases hbranch : (c.insn i).branch with
  | false => rfl
  | true =>
    have hlt := hc.target_lt hi hbranch
    rw [hc.jumpTarget_eq hi hbranch]
    simp only [Bool.not_true, Bool.false_or, Bool.and_eq_true, decide_eq_true_eq]
    omega

theorem isTarget_iff : c.isTarget i = true ↔
    ∃ j < c.num, (c.insn j).branch = true ∧ c.target j = i := by
  simp only [isTarget, List.any_eq_true, List.mem_range, Bool.and_eq_true, beq_iff_eq]
  refine exists_congr fun j => and_congr_right fun hj => and_congr_right fun hbranch => ?_
  rw [hc.jumpTarget_eq hj hbranch, Int.natCast_inj]

end Targets

end Loaded

theorem isEnd_eq (i : ℕ) : c.isEnd i = (c.isStart (i + 1) || i + 1 == c.num) := by
  simp [isEnd, isStart]

/-- Block `p` ends where the function ends or another block starts, and nowhere before. -/
structure Uncut (c : Code W) (p : ℕ × ℕ) : Prop where
  isEnd : c.isEnd p.2 = true
  not_isEnd : ∀ {i}, p.1 ≤ i → i < p.2 → c.isEnd i = false

/-- What `scan` has done before instruction `n`: the blocks cut the instructions before `start`,
where the block not yet ended starts. -/
structure Scanned (c : Code W) (n start : ℕ) : Prop where
  tiles : Tiles 0 (c.scan n).1 start
  uncut : ∀ p ∈ (c.scan n).1, c.Uncut p
  le : start ≤ n
  not_isEnd : ∀ {i}, start ≤ i → i < n → c.isEnd i = false
  isEnd : start = n → n = 0 ∨ c.isEnd (n - 1) = true
  start : start < n → (c.scan n).2 = start

theorem Scanned.first_eq {n start : ℕ} (h : c.Scanned n start) (hn : n < c.num) :
    (if c.isStart n then n else (c.scan n).2) = start := by
  rcases Nat.eq_zero_or_pos n with rfl | hpos
  · exact (Nat.le_zero.1 h.le).symm
  · have hstart := c.isEnd_eq (n - 1)
    rw [Nat.sub_add_cancel hpos, beq_eq_false_iff_ne.2 (Nat.ne_of_lt hn), Bool.or_false] at hstart
    rcases Nat.lt_or_eq_of_le h.le with hlt | heq
    · rw [← hstart, h.not_isEnd (Nat.le_sub_one_of_lt hlt) (Nat.sub_lt hpos Nat.one_pos),
        if_neg Bool.false_ne_true]
      exact h.start hlt
    · rw [← hstart, (h.isEnd heq).resolve_left (Nat.ne_of_gt hpos), if_pos rfl, heq]

theorem exists_scanned {n : ℕ} (hn : n ≤ c.num) : ∃ start, c.Scanned n start := by
  induction n with
  | zero =>
    refine ⟨0, rfl, fun p hp => ?_, le_rfl, fun _ hi => ?_, fun _ => .inl rfl, fun _ => rfl⟩
    · exact nomatch hp
    · exact absurd hi (Nat.not_lt_zero _)
  | succ n ih =>
    obtain ⟨start, h⟩ := ih (Nat.le_of_succ_le hn)
    have hfirst := h.first_eq hn
    have hscan : c.scan (n + 1) = if c.isEnd n then ((c.scan n).1 ++ [(start, n)], start)
        else ((c.scan n).1, start) := by
      rw [scan]
      dsimp only
      rw [hfirst]
    cases hend : c.isEnd n with
    | true =>
      rw [hend, if_pos rfl] at hscan
      refine ⟨n + 1, ?_, ?_, le_rfl, fun _ _ => by omega, fun _ => .inr hend,
        fun hlt => absurd hlt (Nat.lt_irrefl _)⟩
      · rw [hscan]
        exact h.tiles.concat h.le
      · intro p hp
        rw [hscan, List.mem_append, List.mem_singleton] at hp
        rcases hp with hp | rfl
        · exact h.uncut p hp
        · exact ⟨hend, h.not_isEnd⟩
    | false =>
      rw [hend, if_neg Bool.false_ne_true] at hscan
      refine ⟨start, ?_, ?_, Nat.le_succ_of_le h.le, ?_, ?_, fun _ => ?_⟩
      · rw [hscan]
        exact h.tiles
      · rw [hscan]
        exact h.uncut
      · intro i hi hlt
        rcases Nat.lt_succ_iff_lt_or_eq.1 hlt with hlt | rfl
        · exact h.not_isEnd hi hlt
        · exact hend
      · intro heq
        exact absurd (heq.symm.trans_le h.le) (Nat.not_succ_le_self n)
      · rw [hscan]

/-- **The blocks cut the instructions in order**, each up to the first end of a block. -/
theorem blocks_tiles (c : Code W) (hpos : 0 < c.num) :
    Tiles 0 c.blocks c.num ∧ ∀ p ∈ c.blocks, c.Uncut p := by
  obtain ⟨start, h⟩ := c.exists_scanned le_rfl
  have hend : c.isEnd (c.num - 1) = true := by
    rw [isEnd_eq, Nat.sub_add_cancel hpos, beq_self_eq_true, Bool.or_true]
  -- no block is left that has not ended
  obtain rfl : start = c.num := by
    rcases Nat.lt_or_eq_of_le h.le with hlt | heq
    · exact nomatch hend.symm.trans
        (h.not_isEnd (Nat.le_sub_one_of_lt hlt) (Nat.sub_lt hpos Nat.one_pos))
    · exact heq
  exact ⟨h.tiles, h.uncut⟩

theorem exists_block (hpos : 0 < c.num) {s : ℕ} (hs : s < c.num) (hstart : c.isStart s = true) :
    ∃ (i : ℕ) (p : ℕ × ℕ), c.blocks[i]? = some p ∧ p.1 = s := by
  obtain ⟨htiles, huncut⟩ := c.blocks_tiles hpos
  obtain ⟨i, p, hp, hle, hge⟩ := htiles.exists_mem (Nat.zero_le s) hs
  refine ⟨i, p, hp, ?_⟩
  by_contra hne
  have hmem := huncut p (List.mem_of_getElem? hp)
  have hend := c.isEnd_eq (s - 1)
  rw [Nat.sub_add_cancel (by omega), hstart, Bool.true_or,
    hmem.not_isEnd (by omega) (by omega)] at hend
  exact nomatch hend

end Code

/-! ### The edges -/

namespace Code.Loaded

section Edges

variable (hc : c.Loaded) {i : ℕ} {p : ℕ × ℕ}

include hc

theorem tiles : Tiles 0 c.blocks c.num := (c.blocks_tiles hc.pos).1

theorem last_lt (hp : c.blocks[i]? = some p) : p.2 < c.num := (hc.tiles.bounds hp).2.2

theorem exists_target (hi : i < c.num) (hbranch : (c.insn i).branch = true) :
    ∃ (j : ℕ) (q : ℕ × ℕ), c.blocks[j]? = some q ∧ q.1 = c.target i := by
  refine c.exists_block hc.pos (hc.target_lt hi hbranch) ?_
  rw [isStart, (hc.isTarget_iff).2 ⟨i, hi, hbranch, rfl⟩, Bool.or_true]

/-- There is a block behind one that does not end the function. -/
theorem exists_succ (hp : c.blocks[i]? = some p) (hne : p.2 + 1 ≠ c.num) :
    ∃ q : ℕ × ℕ, c.blocks[i + 1]? = some q ∧ q.1 = p.2 + 1 := by
  have hlt := (List.getElem?_eq_some_iff.1 hp).1
  have hlast := (hc.tiles.last_succ hp).not.1 hne
  obtain ⟨q, hq⟩ : ∃ q, c.blocks[i + 1]? = some q :=
    ⟨_, List.getElem?_eq_getElem (by omega : i + 1 < c.blocks.length)⟩
  exact ⟨q, hq, hc.tiles.first_succ hp hq⟩

theorem branch_ne (hbranch : (c.insn i).branch = true) : i + 1 ≠ c.num := by
  rintro h
  have hlast := hc.last
  rw [← h, Nat.add_sub_cancel] at hlast
  exact nomatch hbranch.symm.trans hlast

theorem findIdx?_target {j : ℕ} {q : ℕ × ℕ} (hq : c.blocks[j]? = some q)
    (hfirst : q.1 = c.target i) :
    (c.blocks.findIdx? fun b => BitVec.ofNat W b.1 == ((c.insn i).op 0).word) = some j := by
  have hword : ∀ {m : ℕ} {r : ℕ × ℕ}, c.blocks[m]? = some r →
      (BitVec.ofNat W r.1 = ((c.insn i).op 0).word ↔ r.1 = c.target i) := by
    intro m r hr
    have hlt := (hc.tiles.bounds hr).2.1.trans_lt (hc.last_lt hr)
    have hpow : (0x10000 : ℕ) ≤ 2 ^ W :=
      Nat.pow_le_pow_right (n := 2) (by decide) ((by decide : 16 ≤ 32).trans hc.width)
    rw [← BitVec.toNat_inj, BitVec.toNat_ofNat,
      Nat.mod_eq_of_lt (hlt.trans_le (hc.num_le.trans hpow))]
    rfl
  obtain ⟨hj, hget⟩ := List.getElem?_eq_some_iff.1 hq
  refine List.findIdx?_eq_some_iff_getElem.2 ⟨hj, ?_, fun m hm => ?_⟩
  · rw [hget, beq_iff_eq]
    exact (hword hq).2 hfirst
  · have hr := List.getElem?_eq_getElem (hm.trans hj)
    rw [beq_iff_eq, hword hr]
    intro heq
    exact Nat.ne_of_lt hm (hc.tiles.first_inj hr hq (heq.trans hfirst.symm))

/-- The block behind one that does not end the function, by its place and by its first
instruction. -/
theorem succ_eq_iff (hp : c.blocks[i]? = some p) (hne : p.2 + 1 ≠ c.num) {j : ℕ} :
    i + 1 = j ↔ ∃ q : ℕ × ℕ, c.blocks[j]? = some q ∧ q.1 = p.2 + 1 := by
  obtain ⟨q, hq, hfirst⟩ := hc.exists_succ hp hne
  constructor
  · rintro rfl
    exact ⟨q, hq, hfirst⟩
  · rintro ⟨r, hr, hfirst'⟩
    exact hc.tiles.first_inj hq hr (hfirst.trans hfirst'.symm)

/-- The edges of a branch: to the block at its target and to the one behind. -/
theorem nextOf_branch (hp : c.blocks[i]? = some p) (hbranch : (c.insn p.2).branch = true) :
    ∃ next, c.nextOf i p.2 = some next ∧
      ∀ {j : ℕ} {k : Fin 2}, next k = some j ↔ ∃ q : ℕ × ℕ, c.blocks[j]? = some q ∧
        (k = 0 ∧ q.1 = c.target p.2 ∨ k = 1 ∧ q.1 = p.2 + 1) := by
  have hlt := hc.last_lt hp
  have h01 : (0 : Fin 2) ≠ 1 := by decide
  obtain ⟨t, q, hq, hfirst⟩ := hc.exists_target hlt hbranch
  refine ⟨![some t, some (i + 1)], ?_, fun {j k} => ?_⟩
  · rw [nextOf, if_pos hbranch, if_pos (hc.bf hlt hbranch),
      hc.findIdx?_target hq hfirst]
    rfl
  · match k with
    | 0 =>
      simp only [Matrix.cons_val_zero, Option.some.injEq, true_and, h01, false_and, or_false]
      constructor
      · rintro rfl
        exact ⟨q, hq, hfirst⟩
      · rintro ⟨r, hr, hfirst'⟩
        exact hc.tiles.first_inj hq hr (hfirst.trans hfirst'.symm)
    | 1 =>
      simp only [Matrix.cons_val_one, Matrix.cons_val_fin_one, Option.some.injEq, h01.symm,
        false_and, true_and, false_or]
      exact hc.succ_eq_iff hp (hc.branch_ne hbranch)

/-- The edge of another instruction: to the block behind, unless the function ends. -/
theorem nextOf_fallThrough (hp : c.blocks[i]? = some p)
    (hbranch : (c.insn p.2).branch = false) : ∃ next, c.nextOf i p.2 = some next ∧
      ∀ {j : ℕ} {k : Fin 2}, next k = some j ↔
        ∃ q : ℕ × ℕ, c.blocks[j]? = some q ∧ k = 0 ∧ q.1 = p.2 + 1 := by
  have h01 : (0 : Fin 2) ≠ 1 := by decide
  by_cases hne : p.2 + 1 = c.num
  · refine ⟨![Option.none, Option.none], ?_, fun {j k} => ?_⟩
    · rw [nextOf, hbranch, if_neg Bool.false_ne_true, if_pos hne]
    · constructor
      · intro h
        match k with
        | 0 => exact nomatch h
        | 1 => exact nomatch h
      · rintro ⟨q, hq, -, hfirst⟩
        have := hc.tiles.bounds hq
        omega
  · refine ⟨![some (i + 1), Option.none], ?_, fun {j k} => ?_⟩
    · rw [nextOf, hbranch, if_neg Bool.false_ne_true, if_neg hne]
    · match k with
      | 0 =>
        simp only [Matrix.cons_val_zero, Option.some.injEq, true_and]
        exact hc.succ_eq_iff hp hne
      | 1 =>
        simp only [Matrix.cons_val_one, Matrix.cons_val_fin_one, reduceCtorEq, h01.symm,
          false_and, and_false, exists_false]

theorem nextOf_eq (hp : c.blocks[i]? = some p) : ∃ next, c.nextOf i p.2 = some next ∧
    ∀ {j : ℕ} {k : Fin 2}, next k = some j ↔ ∃ q : ℕ × ℕ, c.blocks[j]? = some q ∧
      if (c.insn p.2).branch then k = 0 ∧ q.1 = c.target p.2 ∨ k = 1 ∧ q.1 = p.2 + 1
      else k = 0 ∧ q.1 = p.2 + 1 := by
  cases hbranch : (c.insn p.2).branch with
  | true =>
    simp only [if_true]
    exact hc.nextOf_branch hp hbranch
  | false =>
    simp only [Bool.false_eq_true, if_false]
    exact hc.nextOf_fallThrough hp hbranch

end Edges

end Code.Loaded

theorem dropFallThrough_next_iff {b : Block} {last j : ℕ} {k : Fin 2} (hb : b.last = some last) :
    (dropFallThrough c b).next k = some j ↔
      b.next k = some j ∧ (k = 1 → c.unconditional last = false) := by
  rw [dropFallThrough, isUnconditional_eq hb]
  cases c.unconditional last with
  | false => simp
  | true =>
    match k with
    | 0 => simp
    | 1 => simp

/-- The first and the last instruction of a block; an artificial one has none. -/
def Block.range (b : Block) : Option (ℕ × ℕ) := b.last.map (b.first, ·)

/-- The blocks with the edges between them, before the artificial ones are in. -/
structure Code.Edges (c : Code W) (bbs : List Block) : Prop where
  length : bbs.length = c.blocks.length
  block : ∀ {i : ℕ} {b : Block}, bbs[i]? = some b → ∃ p : ℕ × ℕ, c.blocks[i]? = some p ∧
    b.first = p.1 ∧ b.last = some p.2 ∧ ∀ {j : ℕ} {k : Fin 2}, b.next k = some j ↔
      ∃ q : ℕ × ℕ, c.blocks[j]? = some q ∧
        if (c.insn p.2).branch then k = 0 ∧ q.1 = c.target p.2 ∨ k = 1 ∧ q.1 = p.2 + 1
        else k = 0 ∧ q.1 = p.2 + 1

namespace Code.Loaded

variable (hc : c.Loaded)

include hc

/-- **No assertion fails on the way to the edges.** -/
theorem exists_forward : ∃ bbs, c.forward = some bbs ∧ c.Edges bbs := by
  obtain ⟨bbs, hbbs⟩ : ∃ bbs, c.forward = some bbs := by
    refine exists_mapM fun x hx => ?_
    obtain ⟨⟨first, last⟩, i⟩ := x
    have hp : c.blocks[i]? = some (first, last) := List.mem_zipIdx_iff_getElem?.1 hx
    obtain ⟨next, hnext, -⟩ := hc.nextOf_eq hp
    dsimp only at hnext ⊢
    rw [hnext]
    exact ⟨_, rfl⟩
  refine ⟨bbs, hbbs, forward_length hbbs, fun {i b} hb => ?_⟩
  obtain ⟨⟨p, i'⟩, hx, hb⟩ := getElem?_of_mapM hbbs hb
  rw [List.getElem?_zipIdx, Nat.zero_add, Option.map_eq_some_iff] at hx
  obtain ⟨p', hp, heq⟩ := hx
  cases heq
  obtain ⟨next, hnext, hedge⟩ := hc.nextOf_eq hp
  dsimp only at hb hnext
  rw [hnext] at hb
  cases hb
  exact ⟨p, hp, rfl, rfl, hedge⟩

/-- A block begins at each instruction that may come after the last one of a block. -/
theorem exists_next {i j : ℕ} {p : ℕ × ℕ} (hp : c.blocks[i]? = some p) (h : c.Next p.2 j) :
    ∃ (m : ℕ) (q : ℕ × ℕ), c.blocks[m]? = some q ∧ q.1 = j := by
  have hsucc : p.2 + 1 ≠ c.num → j = p.2 + 1 →
      ∃ (m : ℕ) (q : ℕ × ℕ), c.blocks[m]? = some q ∧ q.1 = j := by
    rintro hne rfl
    exact ⟨i + 1, hc.exists_succ hp hne⟩
  rw [Next] at h
  split at h
  case isTrue hbranch =>
    rcases h with rfl | ⟨-, hj⟩
    · exact hc.exists_target (hc.last_lt hp) hbranch
    · exact hsucc (hc.branch_ne hbranch) hj
  case isFalse => exact hsucc (Nat.ne_of_lt h.1) h.2

theorem blocks_ne_nil : 0 < c.blocks.length := by
  have htiles := hc.tiles
  cases hblocks : c.blocks with
  | nil =>
    rw [hblocks] at htiles
    exact absurd htiles (Nat.ne_of_lt hc.pos)
  | cons p l => exact Nat.succ_pos _

end Code.Loaded

namespace Code.Edges

variable {bbs : List Block} {i j : ℕ} {b : Block} {k : Fin 2}

theorem ranges (h : c.Edges bbs) : bbs.filterMap Block.range = c.blocks := by
  have hmap : bbs.map Block.range = c.blocks.map some := by
    refine List.ext_getElem? fun i => ?_
    rw [List.getElem?_map, List.getElem?_map]
    cases hb : bbs[i]? with
    | none =>
      rw [List.getElem?_eq_none_iff, h.length, ← List.getElem?_eq_none_iff] at hb
      rw [hb]
      rfl
    | some b =>
      obtain ⟨p, hp, hfirst, hlast, -⟩ := h.block hb
      rw [hp, Option.map_some, Option.map_some, Block.range, hfirst, hlast]
      rfl
  have h := congrArg (List.filterMap id) hmap
  rwa [List.filterMap_map, List.filterMap_map, Function.id_comp, Function.id_comp,
    List.filterMap_some] at h

theorem next_lt (h : c.Edges bbs) (hb : bbs[i]? = some b) (hk : b.next k = some j) :
    j < bbs.length := by
  obtain ⟨p, -, -, -, hedge⟩ := h.block hb
  obtain ⟨q, hq, -⟩ := hedge.1 hk
  rw [h.length]
  exact (List.getElem?_eq_some_iff.1 hq).1

theorem next_pos (h : c.Edges bbs) (hc : c.Loaded) (hb : bbs[i]? = some b)
    (hk : b.next k = some j) : 0 < j := by
  obtain ⟨p, hp, -, -, hedge⟩ := h.block hb
  obtain ⟨q, hq, hfirst⟩ := hedge.1 hk
  refine Nat.pos_of_ne_zero ?_
  rintro rfl
  have hzero : q.1 = 0 := by
    have htiles := hc.tiles
    cases hblocks : c.blocks with
    | nil => simp [hblocks] at hq
    | cons r l =>
      rw [hblocks] at hq htiles
      obtain rfl := Option.some.inj hq
      exact htiles.1
  split at hfirst
  case isTrue hbranch =>
    have := hc.target_pos (hc.last_lt hp) hbranch
    omega
  case isFalse => omega

theorem next_last (h : c.Edges bbs) (hc : c.Loaded) (hb : bbs[i]? = some b)
    (hlast : i + 1 = bbs.length) : b.next k = Option.none := by
  obtain ⟨p, hp, -, -, hedge⟩ := h.block hb
  have hend : p.2 + 1 = c.num := (hc.tiles.last_succ hp).2 (h.length ▸ hlast)
  cases hk : b.next k with
  | none => rfl
  | some j =>
    obtain ⟨q, hq, hfirst⟩ := hedge.1 hk
    have hlt := hc.tiles.bounds hq
    split at hfirst
    case isTrue hbranch => exact absurd hend (hc.branch_ne hbranch)
    case isFalse => omega

/-- **The edges out of a block lead to the blocks that begin at the instructions that may come
after its last one**, once unconditional branches do not continue to the next block. -/
theorem edge_iff (h : c.Edges bbs) (hc : c.Loaded) (hb : bbs[i]? = some b) {last : ℕ}
    (hlast : b.last = some last) :
    (∃ k, (dropFallThrough c b).next k = some j) ↔
      ∃ q : ℕ × ℕ, c.blocks[j]? = some q ∧ c.Next last q.1 := by
  obtain ⟨p, hp, -, hlast', hedge⟩ := h.block hb
  obtain rfl : p.2 = last := Option.some.inj (hlast'.symm.trans hlast)
  have h01 : (0 : Fin 2) ≠ 1 := by decide
  simp only [dropFallThrough_next_iff hlast, hedge]
  cases hbranch : (c.insn p.2).branch with
  | true =>
    simp only [Next, hbranch, if_true]
    constructor
    · rintro ⟨k, ⟨q, hq, hfirst⟩, hk⟩
      exact ⟨q, hq, hfirst.imp And.right fun h => ⟨hk h.1, h.2⟩⟩
    · rintro ⟨q, hq, hfirst | ⟨hcond, hfirst⟩⟩
      · exact ⟨0, ⟨q, hq, .inl ⟨rfl, hfirst⟩⟩, fun h => absurd h h01⟩
      · exact ⟨1, ⟨q, hq, .inr ⟨rfl, hfirst⟩⟩, fun _ => hcond⟩
  | false =>
    simp only [Next, hbranch, Bool.false_eq_true, if_false]
    constructor
    · rintro ⟨k, ⟨q, hq, -, hfirst⟩, -⟩
      have := hc.tiles.bounds hq
      exact ⟨q, hq, by omega, hfirst⟩
    · rintro ⟨q, hq, -, hfirst⟩
      exact ⟨0, ⟨q, hq, rfl, hfirst⟩, fun h => absurd h h01⟩

end Code.Edges
end Cuc
end Or1ksim
