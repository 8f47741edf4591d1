import Or1ksim.Cache.Icache

/-!
# The instruction cache is transparent

Writes do not reach the instruction cache, so its lines may be stale, but only in blocks that
were written and not yet invalidated.  The invariant `Fresh` says so: a valid line equals the block
of memory its tag and set name, unless a pending address is in that block.

* `set_eq`, `toNat_tagaddr`, `slot_eq` — the masks and shifts of `ic_end_sec` as `/` and `%`;
* `Fresh.fetch`, `Fresh.inv`, `Fresh.write` — each access keeps the invariant;
* `icRun_transparent` — **every fetch** of a disciplined sequence returns the memory word.
-/

namespace Or1ksim
namespace Cache

namespace IcConfig

variable (cfg : IcConfig)

/-! ### Address arithmetic -/

theorem two_pow_blocksizeLog2 : 2 ^ blocksizeLog2 cfg = cfg.blocksize := by
  rw [blocksizeLog2]
  rcases cfg.blocksize_ok with h | h <;> rw [h] <;> decide

theorem toNat_setMask : (setMask cfg).toNat = (cfg.nsets - 1) <<< blocksizeLog2 cfg := by
  have hle := cfg.nsets_ok.2
  have hsets : (BitVec.ofNat 32 (cfg.nsets - 1)).toNat = cfg.nsets - 1 := by
    rw [BitVec.toNat_ofNat]
    omega
  rw [setMask, BitVec.toNat_shiftLeft, hsets, Nat.shiftLeft_eq, two_pow_blocksizeLog2]
  rcases cfg.blocksize_ok with h | h <;> rw [h] <;> omega

theorem set_eq (a : Addr) : set cfg a = a.toNat / cfg.blocksize % cfg.nsets := by
  obtain ⟨⟨k, hk⟩, -⟩ := cfg.nsets_ok
  rw [set, BitVec.toNat_ushiftRight, BitVec.toNat_and, toNat_setMask, Nat.shiftRight_and_distrib,
    Nat.shiftLeft_shiftRight, hk, Nat.and_two_pow_sub_one_eq_mod, Nat.shiftRight_eq_div_pow,
    two_pow_blocksizeLog2]

theorem toNat_tagaddr (a : Addr) :
    (tagaddr cfg a).toNat =
      a.toNat / (cfg.nsets * cfg.blocksize) * (cfg.nsets * cfg.blocksize) := by
  obtain ⟨⟨k, hk⟩, -⟩ := cfg.nsets_ok
  have hpow : cfg.nsets * cfg.blocksize = 2 ^ (k + blocksizeLog2 cfg) := by
    rw [pow_add, two_pow_blocksizeLog2, hk]
  rw [tagaddr, tagaddrMask, hpow]
  exact Bits.toNat_and_not_lowMask a _

/-- Two addresses with one set and one tag are in one block. -/
theorem block_eq {a b : Addr} (hset : set cfg a = set cfg b)
    (htag : tagaddr cfg a = tagaddr cfg b) :
    a.toNat / cfg.blocksize = b.toNat / cfg.blocksize := by
  have hpos : 0 < cfg.nsets * cfg.blocksize := Nat.mul_pos cfg.nsets_pos cfg.blocksize_pos
  have hquot : a.toNat / (cfg.nsets * cfg.blocksize) = b.toNat / (cfg.nsets * cfg.blocksize) := by
    have hnat := congrArg BitVec.toNat htag
    rw [toNat_tagaddr, toNat_tagaddr] at hnat
    exact Nat.eq_of_mul_eq_mul_right hpos hnat
  rw [mul_comm, ← Nat.div_div_eq_div_mul, ← Nat.div_div_eq_div_mul] at hquot
  rw [set_eq, set_eq] at hset
  rw [← Nat.div_add_mod (a.toNat / cfg.blocksize) cfg.nsets,
    ← Nat.div_add_mod (b.toNat / cfg.blocksize) cfg.nsets, hquot, hset]

theorem set_tag_of_block {a b : Addr} (h : a.toNat / cfg.blocksize = b.toNat / cfg.blocksize) :
    set cfg a = set cfg b ∧ tagaddr cfg a = tagaddr cfg b := by
  refine ⟨by rw [set_eq, set_eq, h], BitVec.eq_of_toNat_eq ?_⟩
  rw [toNat_tagaddr, toNat_tagaddr, mul_comm cfg.nsets, ← Nat.div_div_eq_div_mul,
    ← Nat.div_div_eq_div_mul, h]

theorem tagaddr_ne_invalidTag (a : Addr) : tagaddr cfg a ≠ invalidTag := by
  intro h
  have hnat := congrArg BitVec.toNat h
  rw [toNat_tagaddr, invalidTag, BitVec.toNat_allOnes] at hnat
  have hdvd : 2 ∣ cfg.nsets * cfg.blocksize := by
    rcases cfg.blocksize_ok with hb | hb <;> rw [hb] <;> exact Dvd.dvd.mul_left (by decide) _
  have heven : 2 ∣ 2 ^ 32 - 1 := hnat ▸ Dvd.dvd.mul_left hdvd _
  exact absurd heven (by decide)

theorem set_lt (a : Addr) : set cfg a < cfg.nsets := by
  rw [set_eq]
  exact Nat.mod_lt _ cfg.nsets_pos

theorem slot_eq (way : ℕ) (offset : Addr) :
    slot cfg way offset = way * cfg.blocksize + offset.toNat % cfg.blocksize := by
  have hoff : (offset &&& blockOffsetMask cfg).toNat = offset.toNat % cfg.blocksize :=
    cfg.toNat_and_blockMask offset
  have hlt : offset.toNat % cfg.blocksize < 2 ^ blocksizeLog2 cfg := by
    rw [two_pow_blocksizeLog2]
    exact Nat.mod_lt _ cfg.blocksize_pos
  rw [slot, hoff, ← Nat.shiftLeft_add_eq_or_of_lt hlt, Nat.shiftLeft_eq, two_pow_blocksizeLog2]

variable {cfg}

theorem mem_ways {s way : ℕ} (hs : s < cfg.nsets) :
    way ∈ ways cfg s ↔ way < lastWay cfg ∧ way % cfg.nsets = s := by
  simp only [ways, lastWay, List.mem_map, List.mem_range]
  constructor
  · rintro ⟨i, hi, rfl⟩
    constructor
    · calc s + i * cfg.nsets < cfg.nsets + i * cfg.nsets := Nat.add_lt_add_right hs _
        _ = (i + 1) * cfg.nsets := by ring
        _ ≤ cfg.nways * cfg.nsets := Nat.mul_le_mul_right _ hi
        _ = cfg.nsets * cfg.nways := mul_comm ..
    · rw [Nat.add_mul_mod_self_right, Nat.mod_eq_of_lt hs]
  · rintro ⟨hway, rfl⟩
    refine ⟨way / cfg.nsets, Nat.div_lt_of_lt_mul hway, ?_⟩
    rw [mul_comm, Nat.mod_add_div]

theorem slot_reloadAddr (way : ℕ) {a : Addr} {i : ℕ} (ha : a.toNat % 4 = 0) (hi : i % 4 = 0) :
    slot cfg way (reloadAddr cfg a i) = way * cfg.blocksize + 4 * cfg.lineIndex a i := by
  have hoff : (a &&& blockOffsetMask cfg).toNat = a.toNat % cfg.blocksize :=
    cfg.toNat_and_blockMask a
  rw [slot_eq, reloadAddr, BitVec.toNat_add, BitVec.toNat_ofNat, hoff, DcConfig.lineIndex_eq]
  rcases cfg.blocksize_ok with h | h <;> rw [h] <;> omega

/-- Address of the word that the refill loads in round `i`. -/
theorem refillAddr_eq {a : Addr} {i : ℕ} (ha : a.toNat % 4 = 0) (hi : i % 4 = 0) :
    (a &&& ~~~blockOffsetMask cfg) ||| (reloadAddr cfg a i &&& blockOffsetMask cfg) =
      cfg.wordOf a (cfg.lineIndex a i) := by
  have hbase : (a &&& ~~~blockOffsetMask cfg).toNat = a.toNat / cfg.blocksize * cfg.blocksize :=
    cfg.toNat_and_not_blockMask a
  have hoff : ∀ b : Addr, (b &&& blockOffsetMask cfg).toNat = b.toNat % cfg.blocksize :=
    cfg.toNat_and_blockMask
  apply BitVec.eq_of_toNat_eq
  rw [Bits.toNat_or_of_disjoint (k := blocksizeLog2 cfg), hbase, hoff, reloadAddr,
    BitVec.toNat_add, BitVec.toNat_ofNat, hoff, cfg.toNat_wordOf _ (cfg.lineIndex_lt ..),
    DcConfig.lineIndex_eq]
  · rcases cfg.blocksize_ok with h | h <;> rw [h] <;> omega
  · rw [two_pow_blocksizeLog2, hbase, Nat.mul_mod_left]
  · rw [two_pow_blocksizeLog2, hoff]
    exact Nat.mod_lt _ cfg.blocksize_pos

/-! ### Lines -/

/-- The line of `way` holds the block of memory that contains `b`. -/
def Stored (cfg : IcConfig) (mem : ℕ → Word) (way : ℕ) (m : Bytes) (b : Addr) : Prop :=
  ∀ j < cfg.blocksize / 4, mem (way * cfg.blocksize + 4 * j) = wordAt m (cfg.wordOf b j)

theorem Stored.at {mem : ℕ → Word} {way : ℕ} {m : Bytes} {a b : Addr}
    (h : Stored cfg mem way m b) (hab : a.toNat / cfg.blocksize = b.toNat / cfg.blocksize) :
    mem (way * cfg.blocksize + 4 * cfg.lineIndex a 0) = wordAt m a := by
  have hword : cfg.wordOf b (cfg.lineIndex a 0) = cfg.wordOf a (cfg.lineIndex a 0) := by
    rw [DcConfig.wordOf, DcConfig.wordOf, hab]
  rw [h _ (cfg.lineIndex_lt ..), hword, wordAt, wordAt, cfg.wordBase_wordOf_lineIndex]

/-- A refill over RAM succeeds, gives each word it touches the memory word, and keeps the other
lines. -/
theorem refill_stored {M : Memory} {a : Addr} {is : List ℕ} (way : ℕ) (ha : a.toNat % 4 = 0)
    (hram : ∀ b : Addr, b.toNat / cfg.blocksize = a.toNat / cfg.blocksize → M.Ram b)
    (his : ∀ i ∈ is, i % 4 = 0) (mem : ℕ → Word) :
    ∃ mem', refill cfg M a way is mem = (mem', true) ∧
      (∀ j, (∃ i ∈ is, cfg.lineIndex a i = j) ∨
          mem (way * cfg.blocksize + 4 * j) = wordAt M.bytes (cfg.wordOf a j) →
        mem' (way * cfg.blocksize + 4 * j) = wordAt M.bytes (cfg.wordOf a j)) ∧
      ∀ k, k / cfg.blocksize ≠ way → mem' k = mem k := by
  induction is generalizing mem with
  | nil => exact ⟨mem, rfl, fun j hj => hj.resolve_left (by simp), fun _ _ => rfl⟩
  | cons i is ih =>
    have hi := his i List.mem_cons_self
    have hlt := cfg.lineIndex_lt a i
    have hnat := cfg.toNat_wordOf a hlt
    have hread : M.evalsimMem (cfg.wordOf a (cfg.lineIndex a i)) .w4 =
        some (wordAt M.bytes (cfg.wordOf a (cfg.lineIndex a i))) := by
      refine evalsimMem_of_ram (hram _ ?_) ?_
      · rw [hnat]
        rcases cfg.blocksize_ok with h | h <;> rw [h] at hlt ⊢ <;> omega
      · change (cfg.wordOf a (cfg.lineIndex a i)).toNat % 4 = 0
        rw [hnat]
        rcases cfg.blocksize_ok with h | h <;> rw [h] <;> omega
    obtain ⟨mem', hmem', hval, hkeep⟩ := ih (fun i hi => his i (List.mem_cons_of_mem _ hi))
      (Function.update mem (way * cfg.blocksize + 4 * cfg.lineIndex a i)
        (wordAt M.bytes (cfg.wordOf a (cfg.lineIndex a i))))
    refine ⟨mem', ?_, fun j hj => hval j ?_, fun k hk => ?_⟩
    · rw [refill, refillAddr_eq ha hi, hread, slot_reloadAddr way ha hi]
      exact hmem'
    · by_cases hij : cfg.lineIndex a i = j
      · right
        rw [← hij, Function.update_self]
      · rcases hj with ⟨i', hi', hj⟩ | hj
        · rcases List.mem_cons.1 hi' with rfl | hi'
          · exact absurd hj hij
          · exact .inl ⟨i', hi', hj⟩
        · right
          rw [Function.update_of_ne (by omega), hj]
    · rw [hkeep k hk, Function.update_of_ne]
      rintro rfl
      apply hk
      rcases cfg.blocksize_ok with h | h <;> rw [h] at hlt ⊢ <;> omega

theorem victim_mem (ic : Ic) {s : ℕ} : victim cfg ic s ∈ ways cfg s := by
  have hfirst : s ∈ ways cfg s := List.mem_map.2 ⟨0, List.mem_range.2 cfg.nways_pos, by simp⟩
  refine List.foldlRecOn (motive := fun m : ℕ × ℕ => m.1 ∈ ways cfg s) _ _ hfirst ?_
  intro m hm way hway
  split_ifs
  · exact hway
  · exact hm

theorem findWay_isSome_iff {ic : Ic} {a : Addr} :
    (findWay cfg ic a).isSome ↔ ∃ way ∈ ways cfg (set cfg a), ic.tags way = tagaddr cfg a := by
  simp [findWay, List.find?_isSome]

end IcConfig

open IcConfig

variable {cfg : IcConfig} {icp : Bool} {env : IcEnv} {S : IcState} {ic : Ic} {m m' : Bytes}
  {P : Set Addr} {a b : Addr}

/-! ### The invariant -/

/-- Every valid line holds the block its tag and set name, unless an address of the block is
pending. -/
def Fresh (cfg : IcConfig) (ic : Ic) (m : Bytes) (P : Set Addr) : Prop :=
  ∀ way < lastWay cfg, ic.tags way ≠ invalidTag →
    ∃ b, set cfg b = way % cfg.nsets ∧ tagaddr cfg b = ic.tags way ∧
      (Stored cfg ic.mem way m b ∨ ∃ p ∈ P, p.toNat / cfg.blocksize = b.toNat / cfg.blocksize)

theorem fresh_icEndSec (m : Bytes) : Fresh cfg icEndSec m ∅ :=
  fun _ _ hvalid => absurd rfl hvalid

theorem Fresh.with_lrus (h : Fresh cfg ic m P) (lrus : ℕ → ℕ) :
    Fresh cfg { ic with lrus := lrus } m P := h

theorem Fresh.hit (h : Fresh cfg ic m ∅) {way : ℕ} (hfind : findWay cfg ic a = some way)
    (ha : a.toNat % 4 = 0) : ic.mem (slot cfg way a) = wordAt m a := by
  have hmem : way ∈ ways cfg (set cfg a) := List.mem_of_find?_eq_some hfind
  have htag : ic.tags way = tagaddr cfg a := by simpa using List.find?_some hfind
  obtain ⟨hlt, hset⟩ := (mem_ways (set_lt cfg a)).1 hmem
  obtain ⟨b, hbset, hbtag, hstored | ⟨p, hp, -⟩⟩ :=
    h way hlt (by rw [htag]; exact tagaddr_ne_invalidTag cfg a)
  · have hblock := block_eq cfg (hset.symm.trans hbset.symm) (htag.symm.trans hbtag.symm)
    have hslot : slot cfg way a = way * cfg.blocksize + 4 * cfg.lineIndex a 0 := by
      rw [slot_eq, DcConfig.lineIndex_eq]
      rcases cfg.blocksize_ok with hb | hb <;> rw [hb] <;> omega
    rw [hslot, hstored.at hblock]
  · exact absurd hp (Set.notMem_empty p)

/-- A refill puts the block of `a` into the victim and keeps the other lines. -/
theorem Fresh.refill (h : Fresh cfg ic m P) {way : ℕ} (hway : way ∈ ways cfg (set cfg a))
    {mem : ℕ → Word} (hstored : Stored cfg mem way m a)
    (hkeep : ∀ k, k / cfg.blocksize ≠ way → mem k = ic.mem k) (lrus : ℕ → ℕ) :
    Fresh cfg ⟨mem, Function.update ic.tags way (tagaddr cfg a), lrus⟩ m P := by
  intro w hw hvalid
  dsimp only at hvalid ⊢
  by_cases hwv : w = way
  · subst hwv
    refine ⟨a, ((mem_ways (set_lt cfg a)).1 hway).2.symm, ?_, .inl hstored⟩
    rw [Function.update_self]
  · rw [Function.update_of_ne hwv] at hvalid ⊢
    obtain ⟨b, hset, htag, hline⟩ := h w hw hvalid
    refine ⟨b, hset, htag, hline.imp_left fun hst j hj => ?_⟩
    have hne : (w * cfg.blocksize + 4 * j) / cfg.blocksize ≠ way := by
      have hdiv : (w * cfg.blocksize + 4 * j) / cfg.blocksize = w := by
        rcases cfg.blocksize_ok with hb | hb <;> rw [hb] at hj ⊢ <;> omega
      rwa [hdiv]
    rw [hkeep _ hne, hst j hj]

/-- **A fetch** returns the memory word and keeps the invariant. -/
theorem Fresh.fetch (h : icp = true → Fresh cfg S.ic S.mem.bytes ∅) (ha : a.toNat % 4 = 0)
    (hram : ∀ b : Addr, b.toNat / cfg.blocksize = a.toNat / cfg.blocksize → S.mem.Ram b) :
    (icSimulateFetch cfg icp env S a).value = wordAt S.mem.bytes a ∧
      (icSimulateFetch cfg icp env S a).busErr = false ∧
      (icp = true → Fresh cfg (icSimulateFetch cfg icp env S a).ic S.mem.bytes ∅) := by
  unfold icSimulateFetch
  by_cases hoff : (!icp || !env.ice || env.insnCi) = true
  · have hread : S.mem.evalsimMem a .w4 = some (wordAt S.mem.bytes a) :=
      evalsimMem_of_ram (hram a rfl) ha
    simp only [if_pos hoff, hread]
    exact ⟨trivial, trivial, h⟩
  · have hicp : icp = true := by
      cases icp <;> simp_all
    have hfresh := h hicp
    rw [if_neg hoff]
    cases hfind : findWay cfg S.ic a with
    | some way => exact ⟨hfresh.hit hfind ha, rfl, fun _ => hfresh.with_lrus _⟩
    | none =>
      have hway : victim cfg S.ic (set cfg a) ∈ ways cfg (set cfg a) := victim_mem S.ic
      obtain ⟨mem, hmem, hval, hkeep⟩ := refill_stored (victim cfg S.ic (set cfg a)) ha hram
        (fun i hi => (DcConfig.mem_refillSteps.1 hi).1) S.ic.mem
      have hstored : Stored cfg mem (victim cfg S.ic (set cfg a)) S.mem.bytes a :=
        fun j hj => hval j (.inl (DcConfig.exists_refillStep a hj))
      have hlast : slot cfg (victim cfg S.ic (set cfg a)) (reloadAddr cfg a cfg.blocksize) =
          victim cfg S.ic (set cfg a) * cfg.blocksize + 4 * cfg.lineIndex a 0 := by
        -- The address the loop stops at is one block past the critical word.
        rw [slot_reloadAddr _ ha (by rcases cfg.blocksize_ok with hb | hb <;> rw [hb]),
          DcConfig.lineIndex_eq, DcConfig.lineIndex_eq, Nat.add_mod_right, Nat.add_zero]
      simp only [hmem, hlast]
      exact ⟨hstored.at rfl, trivial, fun _ => hfresh.refill hway hstored hkeep _⟩

/-- **An invalidation** settles its address. -/
theorem Fresh.inv (h : Fresh cfg ic m P) : Fresh cfg (icInv cfg true env ic a) m (P \ {a}) := by
  -- Whatever the enable bit, the ways of the set with the tag of `a` are invalidated.
  obtain ⟨p, hp, heq⟩ : ∃ p : ℕ → Bool, (∀ way, ic.tags way = tagaddr cfg a → p way) ∧
      icInv cfg true env ic a = invalidateWays cfg ic (set cfg a) p := by
    cases henv : env.ice with
    | false => exact ⟨fun _ => true, fun _ _ => rfl, by simp [icInv, henv]⟩
    | true =>
      exact ⟨fun way => decide (ic.tags way = tagaddr cfg a), fun _ hw => decide_eq_true hw,
        by simp [icInv, henv]⟩
  rw [heq]
  intro way hway hvalid
  simp only [invalidateWays] at hvalid ⊢
  by_cases hinv : way ∈ ways cfg (set cfg a) ∧ p way = true
  · rw [if_pos hinv] at hvalid
    exact absurd rfl hvalid
  rw [if_neg hinv] at hvalid ⊢
  obtain ⟨b, hset, htag, hstored | ⟨q, hq, hblock⟩⟩ := h way hway hvalid
  · exact ⟨b, hset, htag, .inl hstored⟩
  · refine ⟨b, hset, htag, .inr ⟨q, ⟨hq, ?_⟩, hblock⟩⟩
    rintro rfl
    obtain ⟨hset', htag'⟩ := set_tag_of_block cfg hblock
    exact hinv ⟨(mem_ways (set_lt cfg q)).2 ⟨hway, (hset'.trans hset).symm⟩,
      hp way (htag'.trans htag).symm⟩

/-- **A write** leaves at most the block of its address stale, and that one only when cached. -/
theorem Fresh.write (h : Fresh cfg ic m P)
    (hm : ∀ b, wordBase b ≠ wordBase a → wordAt m' b = wordAt m b) :
    Fresh cfg ic m' {p | p ∈ P ∨ p = a ∧ (findWay cfg ic a).isSome} := by
  intro way hway hvalid
  obtain ⟨b, hset, htag, hline⟩ := h way hway hvalid
  by_cases hblock : a.toNat / cfg.blocksize = b.toNat / cfg.blocksize
  · obtain ⟨hset', htag'⟩ := set_tag_of_block cfg hblock
    have hcached : (findWay cfg ic a).isSome :=
      findWay_isSome_iff.2 ⟨way, (mem_ways (set_lt cfg a)).2 ⟨hway, (hset'.trans hset).symm⟩,
        (htag'.trans htag).symm⟩
    exact ⟨b, hset, htag, .inr ⟨a, .inr ⟨rfl, hcached⟩, hblock⟩⟩
  · refine ⟨b, hset, htag, ?_⟩
    rcases hline with hstored | ⟨p, hp, hpb⟩
    · left
      intro j hj
      rw [hstored j hj, hm]
      rw [Ne, cfg.wordBase_wordOf_eq_iff hj]
      exact fun hboth => hblock hboth.1.symm
    · exact .inr ⟨p, .inl hp, hpb⟩

/-! ### Sequences of accesses -/

/-- The access is an aligned one of RAM; a fetch may load the whole block. -/
def IcOp.OnRam (cfg : IcConfig) (M : Memory) : IcOp → Prop
  | .fetch _ a => a.toNat % 4 = 0 ∧
      ∀ b : Addr, b.toNat / cfg.blocksize = a.toNat / cfg.blocksize → M.Ram b
  | .inv _ _ => True
  | .write a _ n => Aligned a n ∧ M.Ram a

theorem IcOp.onRam_congr {M N : Memory} (hareas : M.areas = N.areas) {op : IcOp} :
    op.OnRam cfg M ↔ op.OnRam cfg N := by
  cases op <;> simp only [IcOp.OnRam, Memory.ram_congr hareas]

/-- Fetches return the memory words as long as what is pending is invalidated before them. -/
theorem icRun_eq_memRun (ops : List IcOp) (S : IcState) (P : Set Addr)
    (h : icp = true → Fresh cfg S.ic S.mem.bytes P) (hP : ∀ p ∈ P, InvNext p ops)
    (hram : ∀ op ∈ ops, op.OnRam cfg S.mem) (hops : Disciplined cfg icp S ops) :
    icRun cfg icp S ops = memRun S.mem ops := by
  induction ops generalizing S P with
  | nil => rfl
  | cons op ops ih =>
    have hop := hram op List.mem_cons_self
    have hrest : ∀ op ∈ ops, op.OnRam cfg S.mem := fun op h => hram op (List.mem_cons_of_mem _ h)
    cases op with
    | fetch env a =>
      obtain rfl : P = ∅ := Set.eq_empty_iff_forall_notMem.2 hP
      obtain ⟨hval, herr, hnext⟩ := @Fresh.fetch cfg icp env S a h hop.1 hop.2
      have hread : S.mem.evalsimMem a .w4 = some (wordAt S.mem.bytes a) :=
        evalsimMem_of_ram (hop.2 a rfl) hop.1
      have htail := ih (icStep cfg icp S (.fetch env a)) ∅ hnext
        (fun p hp => absurd hp (Set.notMem_empty p)) hrest hops
      simp only [icRun, memRun, hval, herr, hread, htail]
      rfl
    | inv env a =>
      refine ih (icStep cfg icp S (.inv env a)) (P \ {a}) ?_ ?_ hrest hops
      · rintro rfl
        exact (h rfl).inv
      · rintro p ⟨hp, hne⟩
        exact (hP p hp).resolve_left fun heq => hne heq.symm
    | write a data n =>
      obtain ⟨M', hset, hareas, hword⟩ := setsimMem_of_ram (v := data) hop.2 hop.1
      have hstep : icStep cfg icp S (.write a data n) = ⟨S.ic, M'⟩ := by
        rw [icStep, hset, Option.getD_some]
      rw [Disciplined, hstep] at hops
      rw [icRun, hstep, memRun, hset, Option.getD_some]
      · refine ih ⟨S.ic, M'⟩ {p | p ∈ P ∨ p = a ∧ (findWay cfg S.ic a).isSome} ?_ ?_ ?_ hops.2
        · exact fun hicp => (h hicp).write fun b hb => by rw [hword b, if_neg hb]
        · rintro p (hp | ⟨rfl, hcached⟩)
          · exact hP p hp
          · exact hops.1 hcached
        · exact fun op h => (IcOp.onRam_congr hareas).2 (hrest op h)
      · intro env b heq
        nomatch heq

/-- **Instruction cache transparency.**  For every accepted geometry, from the cleared cache, every
sequence of aligned fetches of RAM, invalidations and writes of RAM in which a write to a cached
address is invalidated before the next fetch fetches the words that memory holds. -/
theorem icRun_transparent (cfg : IcConfig) (icp : Bool) (M : Memory) {ops : List IcOp}
    (hram : ∀ op ∈ ops, op.OnRam cfg M) (hops : Disciplined cfg icp ⟨icEndSec, M⟩ ops) :
    icRun cfg icp ⟨icEndSec, M⟩ ops = memRun M ops :=
  icRun_eq_memRun ops ⟨icEndSec, M⟩ ∅ (fun _ => fresh_icEndSec M.bytes)
    (fun p hp => absurd hp (Set.notMem_empty p)) hram hops

/-- A direct-mapped cache of two 16-byte blocks. -/
def smallIcConfig : IcConfig :=
  ⟨2, 1, 16, 2, smallDcConfig.nsets_ok, smallDcConfig.nways_ok, smallDcConfig.blocksize_ok,
    smallDcConfig.ustates_ok⟩

/-- A cached word is overwritten, invalidated and fetched again. -/
theorem icRun_transparent_small :
    icRun smallIcConfig true ⟨icEndSec, Memory.flat fun _ => 0⟩
        [.fetch ⟨true, false⟩ 0x44#32, .write 0x44#32 0x15000000#32 .w4,
          .inv ⟨true, false⟩ 0x44#32, .fetch ⟨true, false⟩ 0x44#32] =
      [(0#32, false), (0x15000000#32, false)] := by
  refine (icRun_transparent smallIcConfig true _ ?_ ?_).trans (by decide)
  · intro op hop
    simp only [List.mem_cons, List.not_mem_nil, or_false] at hop
    rcases hop with rfl | rfl | rfl | rfl
    · exact ⟨rfl, fun b _ => Memory.flat_ram _ b⟩
    · exact ⟨rfl, Memory.flat_ram _ _⟩
    · trivial
    · exact ⟨rfl, fun b _ => Memory.flat_ram _ b⟩
  · exact ⟨fun _ => .inl rfl, trivial⟩

end Cache
end Or1ksim
