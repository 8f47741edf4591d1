import Or1ksim.Cache.Lines

/-!
# The data cache is transparent

Over RAM the cache never shows: every read returns what memory holds and memory ends up as if there
were no cache.  The invariant is `Coherent`: a valid line equals the block of memory its tag and
set name, and no set holds a block twice.

* `WaysOk` — the invariant for one set, with a lemma for each way a set changes;
* `DcState.Ok.read`, `DcState.Ok.write`, `DcState.Ok.inv` — each operation keeps the invariant;
* `dcRun_transparent` — **transparency** of every sequence of accesses.
-/

namespace Or1ksim
namespace Cache

open DcConfig

variable {cfg : DcConfig}

/-! ### The invariant -/

/-- The line holds the block of memory that contains `b`. -/
def Holds (cfg : DcConfig) (m : Bytes) (b : Addr) (line : ℕ → Word) : Prop :=
  ∀ j < cfg.blocksize / 4, line j = wordAt m (cfg.wordOf b j)

/-- The ways of set `s` agree with memory. -/
structure WaysOk (cfg : DcConfig) (s : ℕ) (ways : ℕ → DcWay) (m : Bytes) : Prop where
  /-- A valid way holds a block of its set. -/
  line : ∀ i < cfg.nways, (ways i).tagaddr ≠ invalidTag →
    ∃ b, cfg.set b = s ∧ cfg.tag b = (ways i).tagaddr ∧ Holds cfg m b (ways i).line
  /-- No block is held twice. -/
  unique : ∀ i < cfg.nways, ∀ j < cfg.nways, (ways i).tagaddr ≠ invalidTag →
    (ways i).tagaddr = (ways j).tagaddr → i = j

/-- The cache agrees with memory. -/
def Coherent (cfg : DcConfig) (D : Dc) (m : Bytes) : Prop :=
  ∀ s < cfg.nsets, WaysOk cfg s (D s) m

variable {s : ℕ} {ways ways' : ℕ → DcWay} {m m' : Bytes} {a b : Addr} {D : Dc}

theorem WaysOk.congr (h : WaysOk cfg s ways m)
    (heq : ∀ i, (ways' i).tagaddr = (ways i).tagaddr ∧ (ways' i).line = (ways i).line) :
    WaysOk cfg s ways' m where
  line := fun i hi hv => by
    rw [(heq i).1, (heq i).2] at *
    exact h.line i hi hv
  unique := fun i hi j hj hv he => by
    rw [(heq i).1] at hv he
    rw [(heq j).1] at he
    exact h.unique i hi j hj hv he

theorem touchHit_eq (ways : ℕ → DcWay) (way i : ℕ) :
    (cfg.touchHit ways way i).tagaddr = (ways i).tagaddr ∧
      (cfg.touchHit ways way i).line = (ways i).line := by
  unfold touchHit
  split_ifs <;> exact ⟨rfl, rfl⟩

theorem touchMiss_eq (ways : ℕ → DcWay) (way i : ℕ) :
    (cfg.touchMiss ways way i).tagaddr = (ways i).tagaddr ∧
      (cfg.touchMiss ways way i).line = (ways i).line := by
  unfold touchMiss
  split_ifs <;> exact ⟨rfl, rfl⟩

theorem WaysOk.invalidate (h : WaysOk cfg s ways m) (way : ℕ) {x : DcWay}
    (hx : x.tagaddr = invalidTag) : WaysOk cfg s (Function.update ways way x) m where
  line := fun i hi hv => by
    by_cases hiw : i = way
    · subst hiw
      rw [Function.update_self] at hv
      exact absurd hx hv
    · rw [Function.update_of_ne hiw] at *
      exact h.line i hi hv
  unique := fun i hi j hj hv he => by
    by_cases hiw : i = way
    · subst hiw
      rw [Function.update_self] at hv
      exact absurd hx hv
    · rw [Function.update_of_ne hiw] at hv he
      by_cases hjw : j = way
      · subst hjw
        rw [Function.update_self, hx] at he
        exact absurd he hv
      · rw [Function.update_of_ne hjw] at he
        exact h.unique i hi j hj hv he

/-- Replacing a way by a block of the set that no other way holds. -/
theorem WaysOk.load (h : WaysOk cfg s ways m) (way : ℕ) {x : DcWay} (hset : cfg.set a = s)
    (htag : x.tagaddr = cfg.tag a) (hline : Holds cfg m a x.line)
    (hfresh : ∀ i < cfg.nways, i ≠ way → (ways i).tagaddr ≠ cfg.tag a) :
    WaysOk cfg s (Function.update ways way x) m where
  line := fun i hi hv => by
    by_cases hiw : i = way
    · subst hiw
      rw [Function.update_self] at *
      exact ⟨a, hset, htag.symm, hline⟩
    · rw [Function.update_of_ne hiw] at *
      exact h.line i hi hv
  unique := fun i hi j hj hv he => by
    by_cases hiw : i = way
    · by_cases hjw : j = way
      · rw [hiw, hjw]
      · rw [hiw, Function.update_self, Function.update_of_ne hjw, htag] at he
        exact absurd he.symm (hfresh j hj hjw)
    · by_cases hjw : j = way
      · rw [hjw, Function.update_self, Function.update_of_ne hiw, htag] at he
        exact absurd he (hfresh i hi hiw)
      · rw [Function.update_of_ne hiw] at hv he
        rw [Function.update_of_ne hjw] at he
        exact h.unique i hi j hj hv he

theorem Coherent.setWays (h : Coherent cfg D m) (hw : WaysOk cfg s ways m) :
    Coherent cfg (setWays D s ways) m := by
  intro t ht
  by_cases hts : t = s
  · subst hts
    rw [Cache.setWays, Function.update_self]
    exact hw
  · rw [Cache.setWays, Function.update_of_ne hts]
    exact h t ht

/-- The line of a hit holds the word that contains the address. -/
theorem WaysOk.hit (h : WaysOk cfg (cfg.set a) ways m) {way : ℕ} (hway : way < cfg.nways)
    (htag : (ways way).tagaddr = cfg.tag a) : Holds cfg m a (ways way).line := by
  obtain ⟨b, hset, hb, hline⟩ := h.line way hway (htag ▸ cfg.tag_ne_invalidTag a)
  have hblock := cfg.block_eq_of_set_tag hset (hb.trans htag)
  intro j hj
  rw [hline j hj, wordOf, hblock, ← wordOf]

theorem wordAt_congr (h : wordBase a = wordBase b) : wordAt m a = wordAt m b := by
  rw [wordAt, h, wordAt]

theorem Holds.lineIndex {line : ℕ → Word} (h : Holds cfg m a line) :
    line (cfg.lineIndex a 0) = wordAt m a := by
  rw [h _ (lineIndex_lt ..)]
  exact wordAt_congr (cfg.wordBase_wordOf_lineIndex a)

/-! ### Refills -/

/-- **A miss loads the block**, whichever way is the victim. -/
theorem dcRefill_line {M : Memory} (D : Dc) (w : ℕ)
    (hram : ∀ b : Addr, b.toNat / cfg.blocksize = a.toNat / cfg.blocksize → M.Ram b) :
    ∃ line, Holds cfg M.bytes a line ∧
      dcRefill cfg D M a w = (setWays D (cfg.set a) (cfg.touchMiss
        (Function.update (D (cfg.set a)) w
          { D (cfg.set a) w with line := line, tagaddr := cfg.tag a }) w), true) := by
  obtain ⟨line, hrefill, hline⟩ := refill_line hram
    (fun i hi => (mem_refillSteps.1 hi).1) (D (cfg.set a) w).line
  exact ⟨line, fun j hj => hline j (.inl (exists_refillStep a hj)), by rw [dcRefill, hrefill]⟩

theorem dcRefill_spec {M : Memory} (h : Coherent cfg D M.bytes) (way : ℕ)
    (hmiss : cfg.findWay (D (cfg.set a)) (cfg.tag a) = none)
    (hram : ∀ b : Addr, b.toNat / cfg.blocksize = a.toNat / cfg.blocksize → M.Ram b) :
    ∃ D', dcRefill cfg D M a way = (D', true) ∧ Coherent cfg D' M.bytes ∧
      (D' (cfg.set a) way).line (cfg.lineIndex a 0) = wordAt M.bytes a := by
  obtain ⟨line, hholds, hrefill⟩ := dcRefill_line D way hram
  have hfresh : ∀ i < cfg.nways, i ≠ way → (D (cfg.set a) i).tagaddr ≠ cfg.tag a :=
    fun i hi _ => findWay_none hmiss i hi
  refine ⟨_, hrefill, ?_, ?_⟩
  · refine h.setWays (WaysOk.congr ?_ fun i => touchMiss_eq _ way i)
    exact (h _ (cfg.set_lt a)).load way rfl rfl hholds hfresh
  · rw [Cache.setWays, Function.update_self, (touchMiss_eq _ way way).2, Function.update_self]
    exact hholds.lineIndex

/-! ### Writes to memory -/

/-- Memory `m'` is `m` with the word at `a` replaced by `x`. -/
def WordSet (m m' : Bytes) (a : Addr) (x : Word) : Prop :=
  ∀ b, wordAt m' b = if wordBase b = wordBase a then x else wordAt m b

theorem setsimMem_wordSet {M : Memory} {n : Width} (hram : M.Ram a) (halign : Aligned a n)
    (v : Word) : ∃ M', M.setsimMem a v n = some M' ∧ M'.areas = M.areas ∧
      WordSet M.bytes M'.bytes a (writePart (wordAt M.bytes a) a v n) := by
  obtain ⟨M', hset, hareas, hwords⟩ := setsimMem_of_ram (v := v) hram halign
  refine ⟨M', hset, hareas, fun b => ?_⟩
  rw [hwords]
  split_ifs with hb
  · rw [wordAt_congr hb]
  · rfl

theorem Holds.frame {x : Word} (hm : WordSet m m' a x) {line : ℕ → Word}
    (h : Holds cfg m b line) (hne : b.toNat / cfg.blocksize ≠ a.toNat / cfg.blocksize) :
    Holds cfg m' b line := by
  intro j hj
  rw [hm, if_neg fun he => hne ((cfg.wordBase_wordOf_eq_iff hj).1 he).1, h j hj]

theorem Holds.write {x : Word} (hm : WordSet m m' a x) {line : ℕ → Word}
    (h : Holds cfg m a line) :
    Holds cfg m' a (Function.update line (cfg.lineIndex a 0) x) := by
  intro j hj
  by_cases hja : j = cfg.lineIndex a 0
  · subst hja
    rw [Function.update_self, hm, if_pos (cfg.wordBase_wordOf_lineIndex a)]
  · have hword : wordBase (cfg.wordOf a j) ≠ wordBase a := fun he =>
      hja ((cfg.wordBase_wordOf_eq_iff hj).1 he).2
    rw [Function.update_of_ne hja, hm, if_neg hword, h j hj]

/-- A write leaves in agreement every way that does not hold the block written. -/
theorem WaysOk.frame {x : Word} (hm : WordSet m m' a x) (h : WaysOk cfg s ways m)
    (hout : s = cfg.set a → ∀ i < cfg.nways, (ways i).tagaddr ≠ cfg.tag a) :
    WaysOk cfg s ways m' where
  line := fun i hi hv => by
    obtain ⟨b, hset, htag, hline⟩ := h.line i hi hv
    refine ⟨b, hset, htag, hline.frame hm fun hblock => ?_⟩
    have hs : cfg.set b = cfg.set a := by rw [DcConfig.set, hblock, DcConfig.set]
    have ht : cfg.tag b = cfg.tag a := by rw [DcConfig.tag, hblock, DcConfig.tag]
    exact hout (hset.symm.trans hs) i hi (htag.symm.trans ht)
  unique := h.unique

/-- A write-through hit: the way that holds the block is updated, the others do not hold it. -/
theorem WaysOk.writeHit {x : Word} (hm : WordSet m m' a x) (h : WaysOk cfg (cfg.set a) ways m)
    {way : ℕ} (hway : way < cfg.nways) (htag : (ways way).tagaddr = cfg.tag a) (y : DcWay)
    (hy : y.tagaddr = cfg.tag a)
    (hline : y.line = Function.update (ways way).line (cfg.lineIndex a 0) x) :
    WaysOk cfg (cfg.set a) (Function.update ways way y) m' := by
  have hvalid : (ways way).tagaddr ≠ invalidTag := htag ▸ cfg.tag_ne_invalidTag a
  have hfresh : ∀ i < cfg.nways, i ≠ way → (ways i).tagaddr ≠ cfg.tag a := by
    intro i hi hne he
    exact hne (h.unique way hway i hi hvalid (htag.trans he.symm)).symm
  -- Drop the way, let the write pass by the others, and put the updated line back.
  have hdrop := h.invalidate way (x := { y with tagaddr := invalidTag }) rfl
  have hframe := hdrop.frame hm fun _ i hi => by
    by_cases hiw : i = way
    · subst hiw
      rw [Function.update_self]
      exact (cfg.tag_ne_invalidTag a).symm
    · rw [Function.update_of_ne hiw]
      exact hfresh i hi hiw
  have hload := hframe.load way (x := y) rfl hy
    (by rw [hline]; exact (h.hit hway htag).write hm)
    (fun i hi hne => by rw [Function.update_of_ne hne]; exact hfresh i hi hne)
  rwa [Function.update_idem] at hload

/-! ### One access -/

/-- The access is aligned and its block is RAM. -/
def DcOp.OnRam (cfg : DcConfig) (M : Memory) : DcOp → Prop
  | .read a n => Aligned a n ∧
      ∀ b : Addr, b.toNat / cfg.blocksize = a.toNat / cfg.blocksize → M.Ram b
  | .write a _ n => Aligned a n ∧
      ∀ b : Addr, b.toNat / cfg.blocksize = a.toNat / cfg.blocksize → M.Ram b
  | .inv _ => True

theorem DcOp.onRam_congr {M N : Memory} (h : M.areas = N.areas) {op : DcOp} :
    op.OnRam cfg M ↔ op.OnRam cfg N := by
  cases op <;> simp only [DcOp.OnRam, Memory.ram_congr h]

/-- The cache is switched on and the page may be cached. -/
def DcEnv.Caching (env : DcEnv) : Prop := env.dce = true ∧ env.dataCi = false

/-- A cache that is present is coherent; one that is not is never looked at. -/
def DcState.Ok (cfg : DcConfig) (env : DcEnv) (S : DcState) : Prop :=
  env.dcp = true → Coherent cfg S.dc S.mem.bytes

variable {env : DcEnv} {S : DcState} {n : Width} {v : Word}

/-- **A read** returns the memory word's part and keeps the cache coherent. -/
theorem DcState.Ok.read (h : S.Ok cfg env) (henv : env.Caching)
    (hop : (DcOp.read a n).OnRam cfg S.mem) :
    (dcSimulateRead cfg env S a n).value = (S.mem.evalsimMem a n).getD 0 ∧
      (dcSimulateRead cfg env S a n).busErr = (S.mem.evalsimMem a n).isNone ∧
      (dcSimulateRead cfg env S a n).state.mem = S.mem ∧
      (dcSimulateRead cfg env S a n).state.Ok cfg env := by
  obtain ⟨halign, hram⟩ := hop
  have hdirect := evalsimMem_of_ram (hram a rfl) halign
  rw [hdirect]
  unfold dcSimulateRead
  cases hp : env.dcp with
  | false =>
    simp only [Bool.not_false, Bool.true_or, if_true, hdirect]
    exact ⟨rfl, rfl, trivial, h⟩
  | true =>
    replace h := h hp
    simp only [henv.1, henv.2, Bool.not_true, Bool.or_self, Bool.false_eq_true, if_false]
    cases hfind : cfg.findWay (S.dc (cfg.set a)) (cfg.tag a) with
    | some way =>
      obtain ⟨hway, htag⟩ := findWay_some hfind
      have hset := h _ (cfg.set_lt a)
      have hline := (hset.hit hway htag).lineIndex
      refine ⟨?_, rfl, rfl, fun _ => h.setWays (hset.congr fun i => touchHit_eq _ way i)⟩
      simp only [(touchHit_eq _ way way).2, hline, Option.getD_some]
    | none =>
      obtain ⟨D', hrefill, hcoh, hword⟩ :=
        dcRefill_spec h (cfg.readVictim (S.dc (cfg.set a))) hfind hram
      simp only [hrefill, hword]
      exact ⟨rfl, rfl, trivial, fun _ => hcoh⟩

/-- **A write** reaches memory and keeps the cache coherent. -/
theorem DcState.Ok.write (h : S.Ok cfg env) (henv : env.Caching)
    (hop : (DcOp.write a v n).OnRam cfg S.mem) :
    S.mem.setsimMem a v n = some (dcSimulateWrite cfg env S a v n).state.mem ∧
      (dcSimulateWrite cfg env S a v n).state.mem.areas = S.mem.areas ∧
      (dcSimulateWrite cfg env S a v n).state.Ok cfg env := by
  obtain ⟨halign, hram⟩ := hop
  obtain ⟨M', hset, hareas, hm⟩ := setsimMem_wordSet (hram a rfl) halign v
  unfold dcSimulateWrite
  rw [hset]
  cases hp : env.dcp with
  | false =>
    refine ⟨rfl, hareas, fun ht => ?_⟩
    rw [hp] at ht
    cases ht
  | true =>
    replace h := h hp
    simp only [henv.1, henv.2, Bool.not_true, Bool.or_self, Bool.false_eq_true, if_false]
    cases hfind : cfg.findWay (S.dc (cfg.set a)) (cfg.tag a) with
    | some way =>
      obtain ⟨hway, htag⟩ := findWay_some hfind
      have hways := h _ (cfg.set_lt a)
      have hline := (hways.hit hway htag).lineIndex
      refine ⟨rfl, hareas, fun _ t ht => ?_⟩
      by_cases hts : t = cfg.set a
      · subst hts
        simp only [Cache.setWays, Function.update_self]
        have htouch := hways.congr (@touchHit_eq cfg (S.dc (cfg.set a)) way)
        refine htouch.writeHit hm hway ((touchHit_eq _ way way).1.trans htag) _
          ((touchHit_eq _ way way).1.trans htag) ?_
        simp only [(touchHit_eq _ way way).2, hline]
      · simp only [Cache.setWays, Function.update_of_ne hts]
        exact (h t ht).frame hm fun he => absurd he hts
    | none =>
      have hframe : Coherent cfg S.dc M'.bytes := fun t ht =>
        (h t ht).frame hm fun he i hi => by
          subst he
          exact findWay_none hfind i hi
      obtain ⟨D', hrefill, hcoh, -⟩ := dcRefill_spec hframe
        (cfg.writeVictim (S.dc (cfg.set a))) hfind
        (fun b hb => (Memory.ram_congr hareas).2 (hram b hb))
      simp only [hrefill]
      exact ⟨trivial, hareas, fun _ => hcoh⟩

/-- **An invalidation** keeps the cache coherent. -/
theorem DcState.Ok.inv (h : S.Ok cfg env) (henv : env.Caching) :
    (dcInv cfg env S a).mem = S.mem ∧ (dcInv cfg env S a).Ok cfg env := by
  unfold dcInv
  cases hp : env.dcp with
  | false => exact ⟨rfl, h⟩
  | true =>
    replace h := h hp
    simp only [henv.1, Bool.not_true, Bool.false_eq_true, if_false]
    cases hfind : cfg.findWay (S.dc (cfg.set a)) (cfg.tag a) with
    | some way => exact ⟨rfl, fun _ => h.setWays ((h _ (cfg.set_lt a)).invalidate way rfl)⟩
    | none => exact ⟨rfl, fun _ => h⟩

/-! ### Sequences of accesses -/

theorem DcState.Ok.run (h : S.Ok cfg env) (henv : env.Caching) {ops : List DcOp}
    (hops : ∀ op ∈ ops, op.OnRam cfg S.mem) :
    (dcRun cfg env S ops).1 = (directRun S.mem ops).1 ∧
      (dcRun cfg env S ops).2.mem = (directRun S.mem ops).2 := by
  induction ops generalizing S with
  | nil => exact ⟨rfl, rfl⟩
  | cons op ops ih =>
    have hop := hops op (List.mem_cons_self ..)
    have hrest : ∀ op ∈ ops, op.OnRam cfg S.mem := fun op h => hops op (List.mem_cons_of_mem _ h)
    cases op with
    | read a n =>
      obtain ⟨hval, herr, hmem, hok⟩ := h.read henv hop
      have hnext := ih hok (by rw [hmem]; exact hrest)
      rw [hmem] at hnext
      simp only [dcRun, directRun, hval, herr, hnext.1, hnext.2]
      exact ⟨trivial, trivial⟩
    | write a v n =>
      obtain ⟨hset, hareas, hok⟩ := h.write henv hop
      have hnext := ih hok fun op hmem => (DcOp.onRam_congr hareas).2 (hrest op hmem)
      simp only [dcRun, directRun, hset, Option.getD_some]
      exact hnext
    | inv a =>
      obtain ⟨hmem, hok⟩ := h.inv henv (a := a)
      have hnext := ih hok (by rw [hmem]; exact hrest)
      rw [hmem] at hnext
      simp only [dcRun, directRun]
      exact hnext

/-- A cache whose tags are all invalid is coherent with any memory. -/
theorem coherent_of_invalid
    (hinv : ∀ s < cfg.nsets, ∀ i < cfg.nways, (D s i).tagaddr = invalidTag) :
    Coherent cfg D m :=
  fun s hs => ⟨fun i hi hv => absurd (hinv s hs i hi) hv,
    fun i hi _ _ hv => absurd (hinv s hs i hi) hv⟩

/-- **Data cache transparency.**  For every accepted geometry, from a cache with no valid tag and
with caching switched on, every sequence of aligned reads and writes of RAM and of invalidations
reads what it would read from memory directly and leaves the same memory. -/
theorem dcRun_transparent (cfg : DcConfig) {env : DcEnv} (henv : env.Caching) {D : Dc}
    (hinv : ∀ s < cfg.nsets, ∀ i < cfg.nways, (D s i).tagaddr = invalidTag) (M : Memory)
    {ops : List DcOp} (hops : ∀ op ∈ ops, op.OnRam cfg M) :
    (dcRun cfg env ⟨D, M⟩ ops).1 = (directRun M ops).1 ∧
      (dcRun cfg env ⟨D, M⟩ ops).2.mem = (directRun M ops).2 :=
  DcState.Ok.run (S := ⟨D, M⟩) (fun _ => coherent_of_invalid hinv) henv hops

/-- A byte written into a cached word is read back after the line was invalidated. -/
theorem dcRun_transparent_small :
    (dcRun smallDcConfig ⟨true, true, false⟩ ⟨fun _ _ => ⟨fun _ => 7, invalidTag, 0⟩,
        Memory.flat fun _ => 0⟩
      [.read 0x40#32 .w4, .write 0x41#32 0xab#32 .w1, .inv 0x40#32, .read 0x40#32 .w2]).1 =
      (directRun (Memory.flat fun _ => 0)
        [.read 0x40#32 .w4, .write 0x41#32 0xab#32 .w1, .inv 0x40#32, .read 0x40#32 .w2]).1 := by
  refine (dcRun_transparent smallDcConfig ⟨rfl, rfl⟩ (fun _ _ _ _ => rfl) _ ?_).1
  intro op hop
  simp only [List.mem_cons, List.not_mem_nil, or_false] at hop
  rcases hop with rfl | rfl | rfl | rfl
  · exact ⟨rfl, fun b _ => Memory.flat_ram _ b⟩
  · exact ⟨rfl, fun b _ => Memory.flat_ram _ b⟩
  · trivial
  · exact ⟨rfl, fun b _ => Memory.flat_ram _ b⟩

end Cache
end Or1ksim
