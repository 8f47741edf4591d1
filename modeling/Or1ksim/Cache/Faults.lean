import Or1ksim.Cache.Agrees

/-!
# Stores that fault

`reg_mem_area` of `cpu/common/abstract.c` gives an area without an access function for some width
one that raises a bus error.  An access through the data cache then goes on as if nothing had
happened, for the area is there.

* `Bus` — areas with access functions for some widths;
* `Bus.evalsimMem`, `Bus.setsimMem` — accesses, and whether they raise a bus error;
* `dcSimulateRead`, `dcSimulateWrite` — the cache of `cache/dcache-model.c` over such areas;
* `dcSimulateWrite_ofMemory` — over the areas of memory sections it is the one modelled before;
* `faulting_store` — **a faulting store leaves the cache consistent**, exactly if it does not hit a
  line whose word it would change;
* `faulting_store_hit` — which a store of a byte to a register of a word does.
-/

namespace Or1ksim
namespace Cache
namespace Faults

open DcConfig

/-! ### Areas -/

/-- An area (`struct dev_memarea`) over contents of type `σ`; a function that is `none` is one that
`reg_mem_area` replaces by `eval_mem_32_inv`, `set_mem_32_inv` or a narrower one. -/
structure Area (σ : Type) where
  /-- Bits of an address that select the area. -/
  addrMask : Addr
  /-- Value of the selecting bits. -/
  addrCompare : Addr
  /-- The memory controller's valid bit. -/
  valid : Bool
  /-- `readfunc8`, `readfunc16` and `readfunc32`. -/
  readfunc : Width → Option (σ → Addr → Word)
  /-- `writefunc8`, `writefunc16` and `writefunc32`. -/
  writefunc : Width → Option (σ → Addr → Word → σ)

/-- The registered areas and what is behind them. -/
structure Bus (σ : Type) where
  /-- Registered areas, in registration order. -/
  areas : List (Area σ)
  /-- Contents. -/
  mem : σ

namespace Bus

variable {σ : Type}

/-- `verify_memoryarea`. -/
def verifyMemoryarea (B : Bus σ) (a : Addr) : Option (Area σ) :=
  B.areas.find? fun r => decide (a &&& r.addrMask = r.addrCompare &&& r.addrMask) && r.valid

/-- `evalsim_mem8`, `evalsim_mem16`, `evalsim_mem32`: `none` outside every area, else the value and
whether a bus error was raised. -/
def evalsimMem (B : Bus σ) (a : Addr) (n : Width) : Option (Word × Bool) :=
  (B.verifyMemoryarea a).map fun r =>
    match r.readfunc n with
    | some f => (f B.mem a, false)
    | none => (0, true)

/-- `setsim_mem8`, `setsim_mem16`, `setsim_mem32`. -/
def setsimMem (B : Bus σ) (a : Addr) (v : Word) (n : Width) : Option (Bus σ × Bool) :=
  (B.verifyMemoryarea a).map fun r =>
    match r.writefunc n with
    | some f => ({ B with mem := f B.mem a v }, false)
    | none => (B, true)

/-- A word as the cache loads it. -/
def word (B : Bus σ) (a : Addr) : Word := ((B.evalsimMem (wordBase a) .w4).map Prod.fst).getD 0

/-- A store raises a bus error: there is no area, or one without write access. -/
def StoreFaults (B : Bus σ) (a : Addr) (n : Width) : Prop :=
  ∀ r, B.verifyMemoryarea a = some r → r.writefunc n = none

end Bus

/-! ### The cache -/

/-- The cache and what is behind it. -/
structure State (σ : Type) where
  /-- Cache array. -/
  dc : Dc
  /-- The areas. -/
  bus : Bus σ

/-- Result of an access: the value read, whether a bus error was raised, and the state. -/
structure Result (σ : Type) where
  /-- Value read (zero for a write). -/
  value : Word
  /-- The access raised a bus error. -/
  busErr : Bool
  /-- State after the access. -/
  state : State σ

/-- A refill: the line, whether every word was in an area, and whether a bus error was raised. -/
structure Refill where
  /-- The line. -/
  line : ℕ → Word
  /-- Every word was in an area. -/
  complete : Bool
  /-- A bus error was raised. -/
  raised : Bool

section

variable {σ : Type}

/-- The refill loop. -/
def refill (cfg : DcConfig) (B : Bus σ) (a : Addr) : List ℕ → (ℕ → Word) → Bool → Refill
  | [], line, raised => ⟨line, true, raised⟩
  | i :: is, line, raised =>
    match B.evalsimMem (cfg.refillAddr a i) .w4 with
    | none => ⟨Function.update line (cfg.lineIndex a i) 0, false, true⟩
    | some (v, e) =>
      refill cfg B a is (Function.update line (cfg.lineIndex a i) v) (raised || e)

/-- A miss on `way`: refill it, and validate it unless a word was outside every area. -/
def dcRefill (cfg : DcConfig) (D : Dc) (B : Bus σ) (a : Addr) (way : ℕ) : Dc × Refill :=
  let ways := D (cfg.set a)
  let r := refill cfg B a cfg.refillSteps (ways way).line false
  if r.complete then
    let ways := Function.update ways way { ways way with line := r.line, tagaddr := cfg.tag a }
    (setWays D (cfg.set a) (cfg.touchMiss ways way), r)
  else
    (setWays D (cfg.set a)
      (Function.update ways way { line := r.line, tagaddr := invalidTag, lru := 0 }), r)

/-- `dc_simulate_read`. -/
def dcSimulateRead (cfg : DcConfig) (env : DcEnv) (s : State σ) (a : Addr) (n : Width) :
    Result σ :=
  if !env.dcp || !env.dce || env.dataCi then
    match s.bus.evalsimMem a n with
    | some (v, e) => ⟨v, e, s⟩
    | none => ⟨0, true, s⟩
  else
    match cfg.findWay (s.dc (cfg.set a)) (cfg.tag a) with
    | some way =>
      let ways := cfg.touchHit (s.dc (cfg.set a)) way
      ⟨readPart ((ways way).line (cfg.lineIndex a 0)) a n, false,
        { s with dc := setWays s.dc (cfg.set a) ways }⟩
    | none =>
      let way := cfg.readVictim (s.dc (cfg.set a))
      let (D, r) := dcRefill cfg s.dc s.bus a way
      ⟨if r.complete then readPart ((D (cfg.set a) way).line (cfg.lineIndex a 0)) a n else 0,
        r.raised, { s with dc := D }⟩

/-- `dc_simulate_write`: it goes on if the address is in an area (`cur_area`), whether or not the
store raised a bus error. -/
def dcSimulateWrite (cfg : DcConfig) (env : DcEnv) (s : State σ) (a : Addr) (data : Word)
    (n : Width) : Result σ :=
  match s.bus.setsimMem a data n with
  | none => ⟨0, true, s⟩
  | some (B, e) =>
    if !env.dcp || !env.dce || env.dataCi then ⟨0, e, { s with bus := B }⟩
    else
      match cfg.findWay (s.dc (cfg.set a)) (cfg.tag a) with
      | some way =>
        let ways := cfg.touchHit (s.dc (cfg.set a)) way
        let j := cfg.lineIndex a 0
        let line := Function.update (ways way).line j (writePart ((ways way).line j) a data n)
        let ways := Function.update ways way { ways way with line := line }
        ⟨0, e, { bus := B, dc := setWays s.dc (cfg.set a) ways }⟩
      | none =>
        let (D, r) := dcRefill cfg s.dc B a (cfg.writeVictim (s.dc (cfg.set a)))
        ⟨0, e || r.raised, { bus := B, dc := D }⟩

end

/-! ### Memory sections -/

/-- The area of a memory section: it has all functions. -/
def Area.ofMemArea (r : MemArea) : Area Bytes where
  addrMask := r.addrMask
  addrCompare := r.addrCompare
  valid := r.valid
  readfunc := fun n => some fun m a => Memory.readfunc m r a n
  writefunc := fun n => some fun m a v => Memory.writefunc m r a v n

/-- The areas of memory sections. -/
def Bus.ofMemory (M : Memory) : Bus Bytes := ⟨M.areas.map Area.ofMemArea, M.bytes⟩

/-- A cache over memory sections. -/
def State.ofDcState (s : DcState) : State Bytes := ⟨s.dc, .ofMemory s.mem⟩

/-- The result of an access of such a cache. -/
def Result.ofDcResult (r : DcResult) : Result Bytes := ⟨r.value, r.busErr, .ofDcState r.state⟩

section

variable {cfg : DcConfig} {env : DcEnv} {M : Memory} {a : Addr} {v : Word} {n : Width}

theorem verifyMemoryarea_ofMemory (M : Memory) (a : Addr) :
    (Bus.ofMemory M).verifyMemoryarea a = (M.verifyMemoryarea a).map Area.ofMemArea :=
  List.find?_map

theorem evalsimMem_ofMemory (M : Memory) (a : Addr) (n : Width) :
    (Bus.ofMemory M).evalsimMem a n = (M.evalsimMem a n).map (·, false) := by
  rw [Bus.evalsimMem, verifyMemoryarea_ofMemory, Memory.evalsimMem, Option.map_map, Option.map_map]
  rfl

theorem setsimMem_ofMemory (M : Memory) (a : Addr) (v : Word) (n : Width) :
    (Bus.ofMemory M).setsimMem a v n =
      (M.setsimMem a v n).map fun M' => (Bus.ofMemory M', false) := by
  rw [Bus.setsimMem, verifyMemoryarea_ofMemory, Memory.setsimMem, Option.map_map, Option.map_map]
  rfl

theorem refill_ofMemory (M : Memory) (a : Addr) (is : List ℕ) (line : ℕ → Word) :
    refill cfg (Bus.ofMemory M) a is line false =
      ⟨(cfg.refill M a is line).1, (cfg.refill M a is line).2, !(cfg.refill M a is line).2⟩ := by
  induction is generalizing line with
  | nil => rfl
  | cons i is ih =>
    rw [refill, DcConfig.refill, evalsimMem_ofMemory]
    cases M.evalsimMem (cfg.refillAddr a i) .w4 with
    | none => rfl
    | some v => exact ih _

theorem dcRefill_ofMemory (cfg : DcConfig) (D : Dc) (M : Memory) (a : Addr) (way : ℕ) :
    ∃ line, dcRefill cfg D (Bus.ofMemory M) a way =
      ((Cache.dcRefill cfg D M a way).1,
        ⟨line, (Cache.dcRefill cfg D M a way).2, !(Cache.dcRefill cfg D M a way).2⟩) := by
  unfold dcRefill Cache.dcRefill
  dsimp only
  rw [refill_ofMemory]
  rcases cfg.refill M a cfg.refillSteps (D (cfg.set a) way).line with ⟨line, ok⟩
  cases ok <;> exact ⟨line, rfl⟩

/-- Over memory sections a read is the one modelled before. -/
theorem dcSimulateRead_ofMemory (cfg : DcConfig) (env : DcEnv) (s : DcState) (a : Addr)
    (n : Width) :
    dcSimulateRead cfg env (.ofDcState s) a n =
      .ofDcResult (Cache.dcSimulateRead cfg env s a n) := by
  unfold dcSimulateRead Cache.dcSimulateRead State.ofDcState
  dsimp only
  split
  · rw [evalsimMem_ofMemory]
    cases s.mem.evalsimMem a n <;> rfl
  · cases cfg.findWay (s.dc (cfg.set a)) (cfg.tag a) with
    | some way => rfl
    | none =>
      obtain ⟨line, hrefill⟩ :=
        dcRefill_ofMemory cfg s.dc s.mem a (cfg.readVictim (s.dc (cfg.set a)))
      dsimp only
      rw [hrefill]
      rcases Cache.dcRefill cfg s.dc s.mem a (cfg.readVictim (s.dc (cfg.set a))) with ⟨D, ok⟩
      cases ok <;> rfl

theorem dcSimulateWrite_ofMemory (cfg : DcConfig) (env : DcEnv) (s : DcState) (a : Addr)
    (v : Word) (n : Width) :
    dcSimulateWrite cfg env (.ofDcState s) a v n =
      .ofDcResult (Cache.dcSimulateWrite cfg env s a v n) := by
  unfold dcSimulateWrite Cache.dcSimulateWrite State.ofDcState
  dsimp only
  rw [setsimMem_ofMemory]
  cases s.mem.setsimMem a v n with
  | none => rfl
  | some M =>
    dsimp only [Option.map_some]
    split
    · rfl
    · cases cfg.findWay (s.dc (cfg.set a)) (cfg.tag a) with
      | some way => rfl
      | none =>
        obtain ⟨line, hrefill⟩ :=
          dcRefill_ofMemory cfg s.dc M a (cfg.writeVictim (s.dc (cfg.set a)))
        dsimp only
        rw [hrefill]
        rfl

end

/-! ### Consistency -/

/-- Every way that seems to hold the block of an address does. -/
def Consistent {σ : Type} (cfg : DcConfig) (S : State σ) (a : Addr) : Prop :=
  ∀ w < cfg.nways, (S.dc (cfg.set a) w).tagaddr = cfg.tag a →
    ∀ j < cfg.blocksize / 4, (S.dc (cfg.set a) w).line j = S.bus.word (cfg.wordOf a j)

section

variable {σ : Type} {cfg : DcConfig} {env : DcEnv} {S : State σ} {B : Bus σ} {D : Dc}
  {a b : Addr} {v : Word} {n : Width} {w : ℕ}

theorem wordOf_aligned (cfg : DcConfig) (a : Addr) {j : ℕ} (hj : j < cfg.blocksize / 4) :
    (cfg.wordOf a j).toNat % 4 = 0 := by
  rw [toNat_wordOf cfg a hj]
  rcases cfg.blocksize_ok with h | h <;> rw [h] <;> omega

theorem Bus.word_lineIndex (B : Bus σ) (cfg : DcConfig) (a : Addr) :
    B.word (cfg.wordOf a (cfg.lineIndex a 0)) = B.word a := by
  rw [Bus.word, cfg.wordBase_wordOf_lineIndex, Bus.word]

/-- A refill that is complete loads the words of the block. -/
theorem refill_complete {is : List ℕ} (his : ∀ i ∈ is, i % 4 = 0) {line : ℕ → Word}
    {raised : Bool} (hc : (refill cfg B a is line raised).complete = true) {j : ℕ}
    (hj : (∃ i ∈ is, cfg.lineIndex a i = j) ∨ line j = B.word (cfg.wordOf a j)) :
    (refill cfg B a is line raised).line j = B.word (cfg.wordOf a j) := by
  induction is generalizing line raised with
  | nil => exact hj.resolve_left (by simp)
  | cons i is ih =>
    have hlt := lineIndex_lt cfg a i
    have haddr := refillAddr_eq_wordOf cfg a (his i (List.mem_cons_self ..))
    rw [refill] at hc ⊢
    cases hread : B.evalsimMem (cfg.refillAddr a i) .w4 with
    | none =>
      rw [hread] at hc
      cases hc
    | some r =>
      obtain ⟨x, e⟩ := r
      rw [hread] at hc
      have hword : B.word (cfg.wordOf a (cfg.lineIndex a i)) = x := by
        rw [Bus.word, wordBase_of_aligned (wordOf_aligned cfg a hlt), ← haddr, hread]
        rfl
      refine ih (fun i hi => his i (List.mem_cons_of_mem _ hi)) hc ?_
      by_cases hij : cfg.lineIndex a i = j
      · right
        rw [← hij, Function.update_self, hword]
      · rcases hj with ⟨i', hi', hj⟩ | hj
        · rcases List.mem_cons.1 hi' with rfl | hi'
          · exact absurd hj hij
          · exact .inl ⟨i', hi', hj⟩
        · right
          rw [Function.update_of_ne (Ne.symm hij), hj]

theorem refill_raised (cfg : DcConfig) (B : Bus σ) (a : Addr) (is : List ℕ) (line : ℕ → Word)
    (raised : Bool) (hc : (refill cfg B a is line raised).complete = false) :
    (refill cfg B a is line raised).raised = true := by
  induction is generalizing line raised with
  | nil => cases hc
  | cons i is ih =>
    rw [refill] at hc ⊢
    cases hread : B.evalsimMem (cfg.refillAddr a i) .w4 with
    | none => rfl
    | some r =>
      rw [hread] at hc
      exact ih _ _ hc

theorem dcRefill_cases (cfg : DcConfig) (D : Dc) (B : Bus σ) (a : Addr) (w : ℕ) :
    (∃ line, (∀ j < cfg.blocksize / 4, line j = B.word (cfg.wordOf a j)) ∧
      (dcRefill cfg D B a w).2.complete = true ∧
      (dcRefill cfg D B a w).1 = setWays D (cfg.set a) (cfg.touchMiss
        (Function.update (D (cfg.set a)) w
          { D (cfg.set a) w with line := line, tagaddr := cfg.tag a }) w)) ∨
    (∃ line, (dcRefill cfg D B a w).2.raised = true ∧
      (dcRefill cfg D B a w).1 =
        setWays D (cfg.set a) (Function.update (D (cfg.set a)) w ⟨line, invalidTag, 0⟩)) := by
  unfold dcRefill
  dsimp only
  cases hc : (refill cfg B a cfg.refillSteps (D (cfg.set a) w).line false).complete with
  | true =>
    refine .inl ⟨_, fun j hj => ?_, hc, rfl⟩
    exact refill_complete (fun i hi => (mem_refillSteps.1 hi).1) hc (.inl (exists_refillStep a hj))
  | false => exact .inr ⟨_, refill_raised _ _ _ _ _ _ hc, rfl⟩

theorem Consistent.congr (h : Consistent cfg S a)
    (hb : b.toNat / cfg.blocksize = a.toNat / cfg.blocksize) : Consistent cfg S b := by
  have hset : cfg.set b = cfg.set a := by rw [DcConfig.set, hb, DcConfig.set]
  have htag : cfg.tag b = cfg.tag a := by rw [DcConfig.tag, hb, DcConfig.tag]
  have hword : ∀ j, cfg.wordOf b j = cfg.wordOf a j := fun j => by rw [wordOf, hb, wordOf]
  intro w hw ht j hj
  rw [hset] at ht ⊢
  rw [hword]
  exact h w hw (ht.trans htag) j hj

theorem Consistent.refill (h : Consistent cfg ⟨D, B⟩ a) (c : Addr) (w : ℕ) :
    Consistent cfg ⟨(dcRefill cfg D B c w).1, B⟩ a := by
  intro i hi ht j hj
  dsimp only at ht ⊢
  by_cases hset : cfg.set a = cfg.set c
  · have hold : (D (cfg.set c) i).tagaddr = cfg.tag a →
        (D (cfg.set c) i).line j = B.word (cfg.wordOf a j) := fun ht =>
      hset ▸ h i hi (hset ▸ ht) j hj
    rcases dcRefill_cases cfg D B c w with ⟨line, hline, -, hdc⟩ | ⟨line, -, hdc⟩
    · rw [hdc, hset, Cache.setWays, Function.update_self, (touchMiss_eq _ w i).1] at ht
      rw [hdc, hset, Cache.setWays, Function.update_self, (touchMiss_eq _ w i).2]
      by_cases hiw : i = w
      · subst hiw
        rw [Function.update_self] at ht ⊢
        dsimp only at ht ⊢
        rw [hline j hj, wordOf, cfg.block_eq_of_set_tag hset.symm ht, ← wordOf]
      · rw [Function.update_of_ne hiw] at ht ⊢
        exact hold ht
    · rw [hdc, hset, Cache.setWays, Function.update_self] at ht ⊢
      by_cases hiw : i = w
      · subst hiw
        rw [Function.update_self] at ht
        exact absurd ht.symm (cfg.tag_ne_invalidTag a)
      · rw [Function.update_of_ne hiw] at ht ⊢
        exact hold ht
  · have hsame : (dcRefill cfg D B c w).1 (cfg.set a) = D (cfg.set a) := by
      rcases dcRefill_cases cfg D B c w with ⟨line, -, -, hdc⟩ | ⟨line, -, hdc⟩ <;>
        rw [hdc, Cache.setWays, Function.update_of_ne hset]
    rw [hsame] at ht ⊢
    exact h i hi ht j hj

theorem Consistent.touchHit (h : Consistent cfg ⟨D, B⟩ a) (c : Addr) (w : ℕ) :
    Consistent cfg ⟨setWays D (cfg.set c) (cfg.touchHit (D (cfg.set c)) w), B⟩ a := by
  intro i hi ht j hj
  dsimp only at ht ⊢
  by_cases hset : cfg.set a = cfg.set c
  · rw [hset, Cache.setWays, Function.update_self] at ht ⊢
    rw [(touchHit_eq _ w i).1] at ht
    rw [(touchHit_eq _ w i).2]
    exact hset ▸ h i hi (hset ▸ ht) j hj
  · rw [Cache.setWays, Function.update_of_ne hset] at ht ⊢
    exact h i hi ht j hj

theorem Consistent.read (h : Consistent cfg S a) (env : DcEnv) (c : Addr) (n : Width) :
    Consistent cfg (dcSimulateRead cfg env S c n).state a ∧
      (dcSimulateRead cfg env S c n).state.bus = S.bus := by
  unfold dcSimulateRead
  split
  · split <;> exact ⟨h, rfl⟩
  · split
    · exact ⟨h.touchHit c _, rfl⟩
    · exact ⟨h.refill c _, rfl⟩

/-- A read of a consistent block through the cache gives what is in memory, or a bus error. -/
theorem Consistent.value (h : Consistent cfg S a) (henv : env.active = true)
    (hok : (dcSimulateRead cfg env S a n).busErr = false) :
    (dcSimulateRead cfg env S a n).value = readPart (S.bus.word a) a n := by
  have hj := lineIndex_lt cfg a 0
  unfold dcSimulateRead at hok ⊢
  rw [bypass_eq, henv, Bool.not_true, if_neg Bool.false_ne_true] at hok ⊢
  cases hfind : cfg.findWay (S.dc (cfg.set a)) (cfg.tag a) with
  | some w =>
    obtain ⟨hw, htag⟩ := findWay_some hfind
    simp only [(touchHit_eq _ w w).2]
    rw [h w hw htag _ hj, Bus.word_lineIndex]
  | none =>
    rw [hfind] at hok
    dsimp only at hok ⊢
    rcases dcRefill_cases cfg S.dc S.bus a (cfg.readVictim (S.dc (cfg.set a))) with
      ⟨line, hline, hc, hdc⟩ | ⟨line, hraised, -⟩
    · rw [hc, if_pos rfl, hdc]
      simp only [Cache.setWays, Function.update_self, (touchMiss_eq _ _ _).2]
      rw [hline _ hj, Bus.word_lineIndex]
    · rw [hraised] at hok
      cases hok

/-- A sequence of reads. -/
def reads (cfg : DcConfig) (env : DcEnv) (S : State σ) (rs : List (Addr × Width)) : State σ :=
  rs.foldl (fun S r => (dcSimulateRead cfg env S r.1 r.2).state) S

theorem Consistent.reads (h : Consistent cfg S a) (env : DcEnv) (rs : List (Addr × Width)) :
    Consistent cfg (reads cfg env S rs) a ∧ (reads cfg env S rs).bus = S.bus := by
  induction rs generalizing S with
  | nil => exact ⟨h, rfl⟩
  | cons r rs ih =>
    obtain ⟨hread, hbus⟩ := h.read env r.1 r.2
    obtain ⟨hrest, hsame⟩ := ih hread
    exact ⟨hrest, hsame.trans hbus⟩

/-! ### Main results -/

/-- After a store that left `T` of `S`, memory is unchanged and every later read of its block
through the cache, whatever is read before, gives what memory holds or a bus error. -/
structure Harmless (cfg : DcConfig) (S T : State σ) (a : Addr) : Prop where
  memory : T.bus = S.bus
  reads : ∀ env : DcEnv, env.active = true → ∀ rs b n,
    b.toNat / cfg.blocksize = a.toNat / cfg.blocksize →
    (dcSimulateRead cfg env (reads cfg env T rs) b n).busErr = false →
    (dcSimulateRead cfg env (reads cfg env T rs) b n).value = readPart (S.bus.word b) b n

theorem Consistent.harmless {T : State σ} (hT : Consistent cfg T a) (hbus : T.bus = S.bus) :
    Harmless cfg S T a := by
  refine ⟨hbus, fun env henv rs b n hb hok => ?_⟩
  obtain ⟨hreads, hsame⟩ := hT.reads env rs
  rw [(hreads.congr hb).value henv hok, hsame, hbus]

/-- A store that raises a bus error changes nothing in memory. -/
theorem Bus.StoreFaults.setsimMem (h : B.StoreFaults a n) (v : Word) :
    B.setsimMem a v n = (B.verifyMemoryarea a).map fun _ => (B, true) := by
  unfold Bus.setsimMem
  cases hr : B.verifyMemoryarea a with
  | none => rfl
  | some r => rw [Option.map_some, Option.map_some, h r hr]

theorem insert_field (x v : Word) {k l : ℕ}
    (h : (x >>> k) &&& Bits.lowMask 32 l = v &&& Bits.lowMask 32 l) :
    (x &&& ~~~(Bits.lowMask 32 l <<< k)) ||| ((v &&& Bits.lowMask 32 l) <<< k) = x := by
  rw [← h]
  ext i hi
  by_cases hik : i < k
  · simp [hik]
  · have hsplit : k + (i - k) = i := by omega
    by_cases hil : i - k < l
    · simp [hik, hil, hsplit, hi]
    · simp [hik, hil]

theorem writePart_eq_self {x v : Word} (h : readPart x a n = v &&& widthMask n) :
    writePart x a v n = x := by
  cases n with
  | w1 => exact insert_field x v (k := 8 * (3 - (a &&& 3#32).toNat)) (l := 8) h
  | w2 =>
    unfold readPart at h
    unfold writePart
    by_cases ha : a &&& 2#32 ≠ 0#32
    · simp only [if_pos ha] at h ⊢
      exact insert_field x v (k := 0) (l := 16) h
    · simp only [if_neg ha] at h ⊢
      exact insert_field x v (k := 16) (l := 16) h
  | w4 => exact (h.trans BitVec.and_allOnes).symm

theorem hit_state (henv : env.active = true) (hfault : S.bus.StoreFaults a n) {r : Area σ}
    (hr : S.bus.verifyMemoryarea a = some r)
    (hfind : cfg.findWay (S.dc (cfg.set a)) (cfg.tag a) = some w) :
    let T := (dcSimulateWrite cfg env S a v n).state
    T.bus = S.bus ∧
      (∀ i, (T.dc (cfg.set a) i).tagaddr = (S.dc (cfg.set a) i).tagaddr) ∧
      (∀ i, (T.dc (cfg.set a) i).line =
        if i = w then Function.update (S.dc (cfg.set a) w).line (cfg.lineIndex a 0)
          (writePart ((S.dc (cfg.set a) w).line (cfg.lineIndex a 0)) a v n)
        else (S.dc (cfg.set a) i).line) := by
  simp only [dcSimulateWrite, hfault.setsimMem v, hr, Option.map_some, bypass_eq, henv,
    Bool.not_true, Bool.false_eq_true, if_false, hfind]
  refine ⟨trivial, fun i => ?_, fun i => ?_⟩
  · rw [Cache.setWays, Function.update_self]
    by_cases hiw : i = w
    · rw [hiw, Function.update_self]
      exact (touchHit_eq _ w w).1
    · rw [Function.update_of_ne hiw]
      exact (touchHit_eq _ w i).1
  · rw [Cache.setWays, Function.update_self]
    by_cases hiw : i = w
    · rw [hiw, Function.update_self, if_pos rfl]
      simp only [(touchHit_eq _ w w).2]
    · rw [Function.update_of_ne hiw, if_neg hiw]
      exact (touchHit_eq _ w i).2

/-- A faulting store that hits is harmless exactly if it stores what is there. -/
theorem Consistent.harmless_hit_iff (h : Consistent cfg S a) (hfault : S.bus.StoreFaults a n)
    (henv : env.active = true) {r : Area σ} (hr : S.bus.verifyMemoryarea a = some r)
    (hfind : cfg.findWay (S.dc (cfg.set a)) (cfg.tag a) = some w) :
    Harmless cfg S (dcSimulateWrite cfg env S a v n).state a ↔
      readPart (S.bus.word a) a n = v &&& widthMask n := by
  have hj := lineIndex_lt cfg a 0
  obtain ⟨hw, htag⟩ := findWay_some hfind
  obtain ⟨hbus, htags, hlines⟩ := hit_state (v := v) henv hfault hr hfind
  have hword : (S.dc (cfg.set a) w).line (cfg.lineIndex a 0) = S.bus.word a := by
    rw [h w hw htag _ hj, Bus.word_lineIndex]
  rw [hword] at hlines
  constructor
  · intro hharmless
    have hagain : cfg.findWay ((dcSimulateWrite cfg env S a v n).state.dc (cfg.set a))
        (cfg.tag a) = some w := (findWay_congr htags).trans hfind
    have hread := hharmless.reads env henv [] a n rfl
    change (dcSimulateRead cfg env (dcSimulateWrite cfg env S a v n).state a n).busErr = _ →
      (dcSimulateRead cfg env (dcSimulateWrite cfg env S a v n).state a n).value = _ at hread
    simp only [dcSimulateRead, bypass_eq, henv, Bool.not_true, Bool.false_eq_true, if_false,
      hagain, (touchHit_eq _ w w).2, hlines w, if_true, Function.update_self,
      readPart_writePart] at hread
    exact (hread trivial).symm
  · intro hsame
    -- The line is written with what it holds.
    rw [writePart_eq_self hsame] at hlines
    refine Consistent.harmless (fun i hi ht j hj => ?_) hbus
    rw [htags] at ht
    rw [hlines, hbus, ← h i hi ht j hj]
    split
    case isTrue hiw =>
      rw [hiw]
      by_cases hjk : j = cfg.lineIndex a 0
      · rw [hjk, Function.update_self, hword]
      · rw [Function.update_of_ne hjk]
    case isFalse => rfl

/-- **A faulting store leaves the cache consistent**: for every geometry, cache state consistent
with memory, address and width, if a store raises a bus error, because there is no area or one
without write access, then memory is unchanged and every later read of the block gives what memory
holds, exactly if the cache is off, or there is no area, or the store misses, or it stores what is
there. -/
theorem faulting_store (cfg : DcConfig) (env : DcEnv) (S : State σ) (a : Addr) (v : Word)
    (n : Width) (h : Consistent cfg S a) (hfault : S.bus.StoreFaults a n) :
    Harmless cfg S (dcSimulateWrite cfg env S a v n).state a ↔
      env.active = false ∨ S.bus.verifyMemoryarea a = none ∨
        cfg.findWay (S.dc (cfg.set a)) (cfg.tag a) = none ∨
        readPart (S.bus.word a) a n = v &&& widthMask n := by
  have hstore := hfault.setsimMem v
  cases hr : S.bus.verifyMemoryarea a with
  | none =>
    refine iff_of_true ?_ (.inr (.inl rfl))
    rw [hr] at hstore
    unfold dcSimulateWrite
    rw [hstore]
    exact h.harmless rfl
  | some r =>
    cases henv : env.active with
    | false =>
      refine iff_of_true ?_ (.inl rfl)
      rw [hr] at hstore
      unfold dcSimulateWrite
      rw [hstore, bypass_eq, henv]
      exact h.harmless rfl
    | true =>
      cases hfind : cfg.findWay (S.dc (cfg.set a)) (cfg.tag a) with
      | none =>
        refine iff_of_true ?_ (.inr (.inr (.inl rfl)))
        rw [hr] at hstore
        simp only [dcSimulateWrite, hstore, Option.map_some, bypass_eq, henv, Bool.not_true,
          Bool.false_eq_true, if_false, hfind]
        exact (h.refill a _).harmless rfl
      | some w =>
        rw [h.harmless_hit_iff hfault henv hr hfind]
        refine ⟨fun hsame => .inr (.inr (.inr hsame)), ?_⟩
        rintro (hc | hc | hc | hsame)
        · cases hc
        · cases hc
        · cases hc
        · exact hsame

end

/-- Registers of a word that all hold the same; they have no narrower access functions. -/
def registers : Area Word where
  addrMask := 0
  addrCompare := 0
  valid := true
  readfunc := fun n => if n = .w4 then some fun m _ => m else none
  writefunc := fun n => if n = .w4 then some fun _ _ v => v else none

/-- A cache of two blocks over such registers, its ways with one tag. -/
def registersState (tag : Addr) : State Word := ⟨fun _ _ => ⟨fun _ => 5, tag, 0⟩, ⟨[registers], 5⟩⟩

theorem registers_verify (tag a : Addr) :
    (registersState tag).bus.verifyMemoryarea a = some registers := by
  simp [registersState, Bus.verifyMemoryarea, registers]

theorem registers_faults (tag a : Addr) : (registersState tag).bus.StoreFaults a .w1 := by
  intro r hr
  obtain rfl := Option.some.inj ((registers_verify tag a).symm.trans hr)
  rfl

/-- Without a line a store of a byte is harmless. -/
theorem faulting_store_miss :
    Harmless smallDcConfig (registersState invalidTag)
      (dcSimulateWrite smallDcConfig ⟨true, true, false⟩ (registersState invalidTag) 0 0xab
        .w1).state 0 :=
  (faulting_store smallDcConfig _ _ 0 0xab .w1
    (fun _ _ ht => absurd ht.symm (smallDcConfig.tag_ne_invalidTag 0))
    (registers_faults invalidTag 0)).2 (.inr (.inr (.inl (by decide))))

/-- A store of a byte to a register that is cached faults, and is read back. -/
theorem faulting_store_hit :
    Consistent smallDcConfig (registersState 0) 0 ∧ (registersState 0).bus.StoreFaults 0 .w1 ∧
      (dcSimulateWrite smallDcConfig ⟨true, true, false⟩ (registersState 0) 0 0xab .w1).busErr =
        true ∧
      (dcSimulateRead smallDcConfig ⟨true, true, false⟩ (dcSimulateWrite smallDcConfig
        ⟨true, true, false⟩ (registersState 0) 0 0xab .w1).state 0 .w4).value = 0xab000005 ∧
      ¬Harmless smallDcConfig (registersState 0) (dcSimulateWrite smallDcConfig
        ⟨true, true, false⟩ (registersState 0) 0 0xab .w1).state 0 := by
  have hread : (dcSimulateRead smallDcConfig ⟨true, true, false⟩ (dcSimulateWrite smallDcConfig
      ⟨true, true, false⟩ (registersState 0) 0 0xab .w1).state 0 .w4).value = 0xab000005 := by
    decide
  refine ⟨fun w _ _ j _ => ?_, registers_faults 0 0, by decide, hread, fun h => ?_⟩
  · rw [Bus.word, Bus.evalsimMem, registers_verify]
    rfl
  · have hlater := h.reads ⟨true, true, false⟩ rfl [] 0 .w4 rfl (by decide)
    exact absurd (hread.symm.trans hlater) (by decide)

end Faults
end Cache
end Or1ksim
