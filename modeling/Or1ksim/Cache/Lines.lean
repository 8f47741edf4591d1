import Or1ksim.Cache.Dcache

/-!
# Lines and loops of the data cache

The address arithmetic of hits and refills and what each loop of the cache code computes, for any
accepted geometry.

* `evalsimMem_of_ram`, `setsimMem_of_ram` — accesses to RAM as fields of a word, in the shifts and
  masks the cache itself uses;
* `lineIndex_eq`, `toNat_refillAddr` — the index and address expressions as `/` and `%`;
* `refill_line` — a refill in critical-word-first order loads the whole block;
* `findWay_some`, `findWay_none`, `readVictim_lt`, `writeVictim_lt` — the scans over the ways.
-/

namespace Or1ksim
namespace Cache

/-- The access is naturally aligned. -/
def Aligned (a : Addr) (n : Width) : Prop := a.toNat % n.bytes = 0

/-! ### Memory seen by words -/

theorem and_two_ne_zero_iff {a : Addr} (h : a.toNat % 2 = 0) :
    a &&& 2#32 ≠ 0#32 ↔ a.toNat % 4 = 2 := by
  have hsplit : a &&& 2#32 = (a &&& 3#32) &&& 2#32 := by
    rw [BitVec.and_assoc]
    rfl
  have hcase : a.toNat % 4 = 0 ∨ a.toNat % 4 = 2 := by omega
  rw [hsplit]
  rcases hcase with hc | hc
  · have h3 : a &&& 3#32 = 0#32 := and_three_eq_zero.2 hc
    rw [h3, hc]
    decide
  · have h3 : a &&& 3#32 = 2#32 := BitVec.eq_of_toNat_eq (by rw [toNat_and_three, hc]; rfl)
    rw [h3, hc]
    decide

theorem evalsimMem_of_ram {M : Memory} {a : Addr} {n : Width} (hr : M.Ram a) (ha : Aligned a n) :
    M.evalsimMem a n = some (readPart (wordAt M.bytes a) a n) := by
  obtain ⟨r, hr, hread, -⟩ := hr
  simp only [Memory.evalsimMem, hr, Option.map_some, Memory.readfunc, if_pos hread]
  congr 1
  cases n with
  | w1 =>
    simp only [readPart, simmemRead8_eq, toNat_and_three]
    exact Bits.setWidth_extractLsb' _ _ 8
  | w2 =>
    have ha : a.toNat % 2 = 0 := ha
    simp only [readPart, simmemRead16_eq M.bytes ha, and_two_ne_zero_iff ha]
    have hk : 8 * (2 - a.toNat % 4) = if a.toNat % 4 = 2 then 0 else 16 := by
      split_ifs <;> omega
    rw [hk]
    exact Bits.setWidth_extractLsb' _ _ 16
  | w4 =>
    have ha : a.toNat % 4 = 0 := ha
    simp only [readPart, wordAt, wordBase_of_aligned ha]

theorem insertField_setWidth (x v : Word) (k n : ℕ) :
    Bits.insertField x k (v.setWidth n) =
      (x &&& ~~~(Bits.lowMask 32 n <<< k)) ||| ((v &&& Bits.lowMask 32 n) <<< k) := by
  rw [Bits.insertField, Bits.setWidth_setWidth_eq_and]

theorem setsimMem_of_ram {M : Memory} {a : Addr} {v : Word} {n : Width} (hr : M.Ram a)
    (ha : Aligned a n) :
    ∃ M', M.setsimMem a v n = some M' ∧ M'.areas = M.areas ∧
      ∀ b, wordAt M'.bytes b =
        if wordBase b = wordBase a then writePart (wordAt M.bytes b) a v n
        else wordAt M.bytes b := by
  obtain ⟨r, hr, -, hwrite⟩ := hr
  refine ⟨{ M with bytes := Memory.writefunc M.bytes r a v n },
    by rw [Memory.setsimMem, hr, Option.map_some], rfl, fun b => ?_⟩
  simp only [Memory.writefunc, if_pos hwrite]
  cases n with
  | w1 =>
    rw [wordAt_simmemWrite8]
    simp only [writePart, toNat_and_three, insertField_setWidth]
    rfl
  | w2 =>
    have ha : a.toNat % 2 = 0 := ha
    rw [wordAt_simmemWrite16 _ ha]
    simp only [writePart, and_two_ne_zero_iff ha, insertField_setWidth]
    have hcase : a.toNat % 4 = 0 ∨ a.toNat % 4 = 2 := by omega
    rcases hcase with hc | hc <;> simp only [hc] <;> rfl
  | w4 =>
    rw [wordAt_simmemWrite32 _ ha]
    rfl

namespace DcConfig

variable (cfg : DcConfig)

/-! ### Address arithmetic -/

theorem blocksize_pos : 0 < cfg.blocksize := by
  rcases cfg.blocksize_ok with h | h <;> omega

theorem nsets_pos : 0 < cfg.nsets := by
  obtain ⟨k, hk⟩ := cfg.nsets_ok.1
  rw [hk]
  exact Nat.two_pow_pos k

theorem nways_pos : 0 < cfg.nways := by
  obtain ⟨k, hk⟩ := cfg.nways_ok.1
  rw [hk]
  exact Nat.two_pow_pos k

theorem toNat_and_blockMask (a : Addr) : (a &&& cfg.blockMask).toNat = a.toNat % cfg.blocksize := by
  rw [blockMask]
  rcases cfg.blocksize_ok with h | h <;> rw [h]
  · exact Bits.toNat_and_lowMask (k := 4) a (by decide)
  · exact Bits.toNat_and_lowMask (k := 5) a (by decide)

theorem toNat_and_not_blockMask (a : Addr) :
    (a &&& ~~~cfg.blockMask).toNat = a.toNat / cfg.blocksize * cfg.blocksize := by
  rw [blockMask]
  rcases cfg.blocksize_ok with h | h <;> rw [h]
  · exact Bits.toNat_and_not_lowMask a 4
  · exact Bits.toNat_and_not_lowMask a 5

theorem lineIndex_eq (a : Addr) (i : ℕ) :
    cfg.lineIndex a i = (a.toNat + i) % cfg.blocksize / 4 := by
  rw [lineIndex, BitVec.toNat_ushiftRight, toNat_and_blockMask, BitVec.toNat_add,
    BitVec.toNat_ofNat, Nat.shiftRight_eq_div_pow]
  rcases cfg.blocksize_ok with h | h <;> rw [h] <;> omega

theorem toNat_refillAddr (a : Addr) (i : ℕ) :
    (cfg.refillAddr a i).toNat =
      a.toNat / cfg.blocksize * cfg.blocksize + (a.toNat / 4 * 4 + i) % cfg.blocksize := by
  have hbase : (a &&& ~~~3#32).toNat = a.toNat / 4 * 4 := toNat_wordBase a
  have hlt := a.isLt
  rw [refillAddr, BitVec.toNat_add, toNat_and_not_blockMask, toNat_and_blockMask,
    BitVec.toNat_add, BitVec.toNat_ofNat, hbase]
  rcases cfg.blocksize_ok with h | h <;> rw [h] <;> omega

/-- Word `j` of the block that contains `b`. -/
def wordOf (b : Addr) (j : ℕ) : Addr :=
  BitVec.ofNat 32 (b.toNat / cfg.blocksize * cfg.blocksize + 4 * j)

theorem toNat_wordOf (b : Addr) {j : ℕ} (hj : j < cfg.blocksize / 4) :
    (cfg.wordOf b j).toNat = b.toNat / cfg.blocksize * cfg.blocksize + 4 * j := by
  have hlt := b.isLt
  rw [wordOf, BitVec.toNat_ofNat]
  rcases cfg.blocksize_ok with h | h <;> rw [h] at hj ⊢ <;> omega

theorem lineIndex_lt (a : Addr) (i : ℕ) : cfg.lineIndex a i < cfg.blocksize / 4 := by
  rw [lineIndex_eq]
  rcases cfg.blocksize_ok with h | h <;> rw [h] <;> omega

/-- The word an access hits in the line is the word that contains its address. -/
theorem wordBase_wordOf_lineIndex (a : Addr) :
    wordBase (cfg.wordOf a (cfg.lineIndex a 0)) = wordBase a := by
  rw [wordBase_eq_iff, toNat_wordOf _ _ (lineIndex_lt ..), lineIndex_eq]
  rcases cfg.blocksize_ok with h | h <;> rw [h] <;> omega

theorem refillAddr_eq_wordOf (a : Addr) {i : ℕ} (hi : i % 4 = 0) :
    cfg.refillAddr a i = cfg.wordOf a (cfg.lineIndex a i) := by
  apply BitVec.eq_of_toNat_eq
  rw [toNat_refillAddr, toNat_wordOf _ _ (lineIndex_lt ..), lineIndex_eq]
  rcases cfg.blocksize_ok with h | h <;> rw [h] <;> omega

/-- Two addresses with one set and one tag are in one block. -/
theorem block_eq_of_set_tag {a b : Addr} (hset : cfg.set a = cfg.set b)
    (htag : cfg.tag a = cfg.tag b) : a.toNat / cfg.blocksize = b.toNat / cfg.blocksize := by
  have hle : ∀ c : Addr, c.toNat / cfg.blocksize / cfg.nsets < 2 ^ 32 := fun c =>
    lt_of_le_of_lt ((Nat.div_le_self _ _).trans (Nat.div_le_self _ _)) c.isLt
  have hquot : a.toNat / cfg.blocksize / cfg.nsets = b.toNat / cfg.blocksize / cfg.nsets := by
    have := congrArg BitVec.toNat htag
    rwa [tag, tag, BitVec.toNat_ofNat, BitVec.toNat_ofNat, Nat.mod_eq_of_lt (hle a),
      Nat.mod_eq_of_lt (hle b)] at this
  rw [← Nat.div_add_mod (a.toNat / cfg.blocksize) cfg.nsets,
    ← Nat.div_add_mod (b.toNat / cfg.blocksize) cfg.nsets, hquot]
  exact congrArg _ hset

theorem tag_ne_invalidTag (a : Addr) : cfg.tag a ≠ invalidTag := by
  intro h
  have hlt := a.isLt
  have hle : a.toNat / cfg.blocksize / cfg.nsets ≤ a.toNat / cfg.blocksize := Nat.div_le_self _ _
  have hnum : (a.toNat / cfg.blocksize / cfg.nsets) % 2 ^ 32 = 2 ^ 32 - 1 := by
    have := congrArg BitVec.toNat h
    rwa [tag, invalidTag, BitVec.toNat_ofNat, BitVec.toNat_allOnes] at this
  generalize a.toNat / cfg.blocksize / cfg.nsets = q at hle hnum
  rcases cfg.blocksize_ok with hb | hb <;> rw [hb] at hle <;> omega

theorem set_lt (a : Addr) : cfg.set a < cfg.nsets := Nat.mod_lt _ cfg.nsets_pos

theorem wordBase_wordOf_eq_iff {a b : Addr} {j : ℕ} (hj : j < cfg.blocksize / 4) :
    wordBase (cfg.wordOf b j) = wordBase a ↔
      b.toNat / cfg.blocksize = a.toNat / cfg.blocksize ∧ j = cfg.lineIndex a 0 := by
  rw [wordBase_eq_iff, toNat_wordOf _ _ hj, lineIndex_eq]
  rcases cfg.blocksize_ok with h | h <;> rw [h] at hj ⊢ <;> omega

/-! ### The loops -/

variable {cfg}

theorem mem_refillSteps {i : ℕ} : i ∈ cfg.refillSteps ↔ i % 4 = 0 ∧ i < cfg.blocksize := by
  simp only [refillSteps, List.mem_map, List.mem_range]
  rcases cfg.blocksize_ok with h | h <;> rw [h]
  · exact ⟨by rintro ⟨j, hj, rfl⟩; omega, fun ⟨h4, hi⟩ => ⟨i / 4, by omega, by omega⟩⟩
  · exact ⟨by rintro ⟨j, hj, rfl⟩; omega, fun ⟨h4, hi⟩ => ⟨i / 4, by omega, by omega⟩⟩

theorem exists_refillStep (a : Addr) {j : ℕ} (hj : j < cfg.blocksize / 4) :
    ∃ i ∈ cfg.refillSteps, cfg.lineIndex a i = j := by
  refine ⟨(4 * j + cfg.blocksize - a.toNat / 4 * 4 % cfg.blocksize) % cfg.blocksize, ?_, ?_⟩
  · rw [mem_refillSteps]
    rcases cfg.blocksize_ok with h | h <;> rw [h] <;> omega
  · rw [lineIndex_eq]
    rcases cfg.blocksize_ok with h | h <;> rw [h] at hj ⊢ <;> omega

/-- A refill over RAM succeeds, and each word it touches gets the memory word. -/
theorem refill_line {M : Memory} {a : Addr} {is : List ℕ}
    (hram : ∀ b : Addr, b.toNat / cfg.blocksize = a.toNat / cfg.blocksize → M.Ram b)
    (his : ∀ i ∈ is, i % 4 = 0) (line : ℕ → Word) :
    ∃ line', cfg.refill M a is line = (line', true) ∧
      ∀ j, (∃ i ∈ is, cfg.lineIndex a i = j) ∨ line j = wordAt M.bytes (cfg.wordOf a j) →
        line' j = wordAt M.bytes (cfg.wordOf a j) := by
  induction is generalizing line with
  | nil => exact ⟨line, rfl, fun j hj => hj.resolve_left (by simp)⟩
  | cons i is ih =>
    have hi := his i (List.mem_cons_self ..)
    have haddr := refillAddr_eq_wordOf cfg a hi
    have hnat := toNat_wordOf cfg a (lineIndex_lt cfg a i)
    have hread : M.evalsimMem (cfg.refillAddr a i) .w4 =
        some (wordAt M.bytes (cfg.wordOf a (cfg.lineIndex a i))) := by
      rw [haddr]
      refine evalsimMem_of_ram (hram _ ?_) ?_
      · have hlt := lineIndex_lt cfg a i
        rw [hnat]
        rcases cfg.blocksize_ok with h | h <;> rw [h] at hlt ⊢ <;> omega
      · change (cfg.wordOf a (cfg.lineIndex a i)).toNat % 4 = 0
        rw [hnat]
        rcases cfg.blocksize_ok with h | h <;> rw [h] <;> omega
    obtain ⟨line', hline', hval⟩ := ih (fun i hi => his i (List.mem_cons_of_mem _ hi))
      (Function.update line (cfg.lineIndex a i)
        (wordAt M.bytes (cfg.wordOf a (cfg.lineIndex a i))))
    refine ⟨line', by rw [refill, hread]; exact hline', fun j hj => hval j ?_⟩
    by_cases hij : cfg.lineIndex a i = j
    · right
      rw [← hij, Function.update_self]
    · rcases hj with ⟨i', hi', hj⟩ | hj
      · rcases List.mem_cons.1 hi' with rfl | hi'
        · exact absurd hj hij
        · exact .inl ⟨i', hi', hj⟩
      · right
        rw [Function.update_of_ne (Ne.symm hij), hj]

theorem findWay_spec (ways : ℕ → DcWay) (t : Addr) (n : ℕ) :
    match (List.range n).foldl (fun way i => if (ways i).tagaddr = t then some i else way) none with
    | some w => w < n ∧ (ways w).tagaddr = t
    | none => ∀ i < n, (ways i).tagaddr ≠ t := by
  induction n with
  | zero => simp
  | succ n ih =>
    rw [List.range_succ, List.foldl_append, List.foldl_cons, List.foldl_nil]
    by_cases hn : (ways n).tagaddr = t
    · rw [if_pos hn]
      exact ⟨Nat.lt_succ_self n, hn⟩
    · rw [if_neg hn]
      cases hf : (List.range n).foldl
          (fun way i => if (ways i).tagaddr = t then some i else way) none with
      | some w =>
        rw [hf] at ih
        exact ⟨Nat.lt_succ_of_lt ih.1, ih.2⟩
      | none =>
        rw [hf] at ih
        intro i hi
        rcases Nat.lt_succ_iff_lt_or_eq.1 hi with hi | rfl
        · exact ih i hi
        · exact hn

theorem findWay_some {ways : ℕ → DcWay} {t : Addr} {w : ℕ} (h : cfg.findWay ways t = some w) :
    w < cfg.nways ∧ (ways w).tagaddr = t := by
  have := findWay_spec ways t cfg.nways
  rw [findWay] at h
  rwa [h] at this

theorem findWay_none {ways : ℕ → DcWay} {t : Addr} (h : cfg.findWay ways t = none) :
    ∀ i < cfg.nways, (ways i).tagaddr ≠ t := by
  have := findWay_spec ways t cfg.nways
  rw [findWay] at h
  rwa [h] at this

theorem readVictim_lt (ways : ℕ → DcWay) : cfg.readVictim ways < cfg.nways := by
  refine List.foldlRecOn (motive := fun m : ℕ × ℤ => m.1 < cfg.nways) _ _ cfg.nways_pos ?_
  intro m hm i hi
  split_ifs
  · exact List.mem_range.1 hi
  · exact hm

theorem writeVictim_lt (ways : ℕ → DcWay) : cfg.writeVictim ways < cfg.nways := by
  refine List.foldlRecOn (motive := fun m : ℕ => m < cfg.nways) _ _ cfg.nways_pos ?_
  intro m hm i hi
  split_ifs
  · exact List.mem_range.1 hi
  · exact hm

end DcConfig
end Cache
end Or1ksim
