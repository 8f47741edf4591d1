import Mathlib.Algebra.Order.Ring.Int
import Or1ksim.Memory.Area

/-!
# The data cache model

`cache/dcache-model.c`: a write-through, write-allocate data cache with a small usage counter per
way.  Timing and statistics are left out.

* `DcConfig` — a geometry the configuration code accepts;
* `dcSimulateRead`, `dcSimulateWrite`, `dcInv` — the three operations;
* `dcRun`, `directRun` — a sequence of accesses through the cache and on memory directly.
-/

namespace Or1ksim
namespace Cache

/-- A data cache geometry as `dc_nsets`, `dc_nways`, `dc_blocksize` and `dc_ustates` accept it. -/
structure DcConfig where
  /-- Number of sets. -/
  nsets : ℕ
  /-- Number of ways. -/
  nways : ℕ
  /-- Block size in bytes. -/
  blocksize : ℕ
  /-- Number of usage states. -/
  ustates : ℤ
  /-- A power of two, at most `MAX_DC_SETS`. -/
  nsets_ok : (∃ k, nsets = 2 ^ k) ∧ nsets ≤ 1024
  /-- A power of two, at most `MAX_DC_WAYS`. -/
  nways_ok : (∃ k, nways = 2 ^ k) ∧ nways ≤ 32
  /-- `MIN_DC_BLOCK_SIZE` or `MAX_DC_BLOCK_SIZE`. -/
  blocksize_ok : blocksize = 16 ∨ blocksize = 32
  /-- Two, three or four. -/
  ustates_ok : 2 ≤ ustates ∧ ustates ≤ 4

/-- A direct-mapped cache of two 16-byte blocks. -/
def smallDcConfig : DcConfig :=
  ⟨2, 1, 16, 2, ⟨⟨1, rfl⟩, by decide⟩, ⟨⟨0, rfl⟩, by decide⟩, .inl rfl, by decide⟩

/-- What the accesses read of the processor state. -/
structure DcEnv where
  /-- `UPR[DCP]`: the cache is present. -/
  dcp : Bool
  /-- `SR[DCE]`: the cache is enabled. -/
  dce : Bool
  /-- `data_ci`: the page is cache inhibited. -/
  dataCi : Bool

/-- One way of a set. -/
structure DcWay where
  /-- Cached words of the block. -/
  line : ℕ → Word
  /-- Tag, or `-1` when invalid. -/
  tagaddr : Addr
  /-- Least recently used counter. -/
  lru : ℤ

/-- The cache array, by set and way. -/
abbrev Dc := ℕ → ℕ → DcWay

/-- The cache and the memory behind it. -/
structure DcState where
  /-- Cache array. -/
  dc : Dc
  /-- Memory. -/
  mem : Memory

/-- The tag of an invalid way. -/
def invalidTag : Addr := BitVec.allOnes 32

namespace DcConfig

variable (cfg : DcConfig)

/-- Set an address maps to. -/
def set (a : Addr) : ℕ := a.toNat / cfg.blocksize % cfg.nsets

/-- Tag of an address. -/
def tag (a : Addr) : Addr := BitVec.ofNat 32 (a.toNat / cfg.blocksize / cfg.nsets)

/-- `config.dc.blocksize - 1`. -/
def blockMask : Addr := BitVec.ofNat 32 (cfg.blocksize - 1)

/-- `line[((dataaddr + i) & (blocksize - 1)) >> 2]`. -/
def lineIndex (a : Addr) (i : ℕ) : ℕ := (((a + BitVec.ofNat 32 i) &&& cfg.blockMask) >>> 2).toNat

/-- Address of the word refilled in round `i`, the critical word first. -/
def refillAddr (a : Addr) (i : ℕ) : Addr :=
  (a &&& ~~~cfg.blockMask) + (((a &&& ~~~3#32) + BitVec.ofNat 32 i) &&& cfg.blockMask)

/-- The values of the loop counter `i = 0, 4, ..` of a refill. -/
def refillSteps : List ℕ := (List.range (cfg.blocksize / 4)).map (4 * ·)

/-- The last way of the set with the tag. -/
def findWay (ways : ℕ → DcWay) (tag : Addr) : Option ℕ :=
  (List.range cfg.nways).foldl (fun way i => if (ways i).tagaddr = tag then some i else way) none

/-- Victim of a read miss: the first way with the least counter below `ustates - 1`. -/
def readVictim (ways : ℕ → DcWay) : ℕ :=
  ((List.range cfg.nways).foldl
    (fun (m : ℕ × ℤ) i => if (ways i).lru < m.2 then (i, (ways i).lru) else m)
    (0, cfg.ustates - 1)).1

/-- Victim of a write miss: the last way with a counter below `ustates - 1`. -/
def writeVictim (ways : ℕ → DcWay) : ℕ :=
  (List.range cfg.nways).foldl (fun m i => if (ways i).lru < cfg.ustates - 1 then i else m) 0

/-- Usage counters after a hit on `way`. -/
def touchHit (ways : ℕ → DcWay) (way : ℕ) : ℕ → DcWay := fun i =>
  if i = way then { ways i with lru := cfg.ustates - 1 }
  else if i < cfg.nways ∧ (ways way).lru < (ways i).lru then { ways i with lru := (ways i).lru - 1 }
  else ways i

/-- Usage counters after a refill of `way`. -/
def touchMiss (ways : ℕ → DcWay) (way : ℕ) : ℕ → DcWay := fun i =>
  if i = way then { ways i with lru := cfg.ustates - 1 }
  else if i < cfg.nways ∧ (ways i).lru ≠ 0 then { ways i with lru := (ways i).lru - 1 }
  else ways i

/-- The refill loop on the victim's line; the flag is false when a word is outside every area, in
which case the loop stops with a bus error. -/
def refill (M : Memory) (a : Addr) : List ℕ → (ℕ → Word) → (ℕ → Word) × Bool
  | [], line => (line, true)
  | i :: is, line =>
    match M.evalsimMem (cfg.refillAddr a i) .w4 with
    | none => (Function.update line (cfg.lineIndex a i) 0, false)
    | some v => refill M a is (Function.update line (cfg.lineIndex a i) v)

end DcConfig

/-- The part of the cached word `tmp` that a read of width `n` at `a` returns. -/
def readPart (tmp : Word) (a : Addr) : Width → Word
  | .w4 => tmp
  | .w2 => (tmp >>> (if a &&& 2#32 ≠ 0#32 then 0 else 16)) &&& 0xffff#32
  | .w1 => (tmp >>> (8 * (3 - (a &&& 3#32).toNat))) &&& 0xff#32

/-- The cached word `tmp` after a write of `data` of width `n` at `a`. -/
def writePart (tmp : Word) (a : Addr) (data : Word) : Width → Word
  | .w4 => data
  | .w2 =>
    (tmp &&& (0xffff#32 <<< (if a &&& 2#32 ≠ 0#32 then 16 else 0))) |||
      ((data &&& 0xffff#32) <<< (if a &&& 2#32 ≠ 0#32 then 0 else 16))
  | .w1 =>
    (tmp &&& ~~~(0xff#32 <<< (8 * (3 - (a &&& 3#32).toNat)))) |||
      ((data &&& 0xff#32) <<< (8 * (3 - (a &&& 3#32).toNat)))

/-- Result of an access: the value read, whether a bus error was raised, and the state. -/
structure DcResult where
  /-- Value read (zero for a write). -/
  value : Word
  /-- The access raised a bus error. -/
  busErr : Bool
  /-- State after the access. -/
  state : DcState

/-- The cache with the ways of set `s` replaced. -/
def setWays (D : Dc) (s : ℕ) (ways : ℕ → DcWay) : Dc := Function.update D s ways

/-- A miss on `way`: refill it, and validate it unless a word was outside every area. -/
def dcRefill (cfg : DcConfig) (D : Dc) (M : Memory) (a : Addr) (way : ℕ) : Dc × Bool :=
  let ways := D (cfg.set a)
  match cfg.refill M a cfg.refillSteps (ways way).line with
  | (line, true) =>
    let ways := Function.update ways way { ways way with line := line, tagaddr := cfg.tag a }
    (setWays D (cfg.set a) (cfg.touchMiss ways way), true)
  | (line, false) =>
    (setWays D (cfg.set a)
      (Function.update ways way { line := line, tagaddr := invalidTag, lru := 0 }), false)

/-- `dc_simulate_read`. -/
def dcSimulateRead (cfg : DcConfig) (env : DcEnv) (s : DcState) (a : Addr) (n : Width) :
    DcResult :=
  if !env.dcp || !env.dce || env.dataCi then
    match s.mem.evalsimMem a n with
    | some v => ⟨v, false, s⟩
    | none => ⟨0, true, s⟩
  else
    match cfg.findWay (s.dc (cfg.set a)) (cfg.tag a) with
    | some way =>
      let ways := cfg.touchHit (s.dc (cfg.set a)) way
      ⟨readPart ((ways way).line (cfg.lineIndex a 0)) a n, false,
        { s with dc := setWays s.dc (cfg.set a) ways }⟩
    | none =>
      let way := cfg.readVictim (s.dc (cfg.set a))
      match dcRefill cfg s.dc s.mem a way with
      | (D, true) =>
        ⟨readPart ((D (cfg.set a) way).line (cfg.lineIndex a 0)) a n, false, { s with dc := D }⟩
      | (D, false) => ⟨0, true, { s with dc := D }⟩

/-- `dc_simulate_write`. -/
def dcSimulateWrite (cfg : DcConfig) (env : DcEnv) (s : DcState) (a : Addr) (data : Word)
    (n : Width) : DcResult :=
  match s.mem.setsimMem a data n with
  | none => ⟨0, true, s⟩
  | some M =>
    if !env.dcp || !env.dce || env.dataCi then ⟨0, false, { s with mem := M }⟩
    else
      match cfg.findWay (s.dc (cfg.set a)) (cfg.tag a) with
      | some way =>
        let ways := cfg.touchHit (s.dc (cfg.set a)) way
        let j := cfg.lineIndex a 0
        let line := Function.update (ways way).line j (writePart ((ways way).line j) a data n)
        let ways := Function.update ways way { ways way with line := line }
        ⟨0, false, { mem := M, dc := setWays s.dc (cfg.set a) ways }⟩
      | none =>
        match dcRefill cfg s.dc M a (cfg.writeVictim (s.dc (cfg.set a))) with
        | (D, ok) => ⟨0, !ok, { mem := M, dc := D }⟩

/-- `dc_inv`. -/
def dcInv (cfg : DcConfig) (env : DcEnv) (s : DcState) (a : Addr) : DcState :=
  if !env.dcp then s
  else if !env.dce then
    let ways := fun i =>
      if i < cfg.nways then { s.dc (cfg.set a) i with tagaddr := invalidTag, lru := 0 }
      else s.dc (cfg.set a) i
    { s with dc := setWays s.dc (cfg.set a) ways }
  else
    match cfg.findWay (s.dc (cfg.set a)) (cfg.tag a) with
    | some way =>
      let ways := Function.update (s.dc (cfg.set a)) way
        { s.dc (cfg.set a) way with tagaddr := invalidTag, lru := 0 }
      { s with dc := setWays s.dc (cfg.set a) ways }
    | none => s

/-! ### Sequences of accesses -/

/-- An access to the data cache. -/
inductive DcOp where
  | read (a : Addr) (n : Width)
  | write (a : Addr) (data : Word) (n : Width)
  | inv (a : Addr)

/-- Accesses through the cache: the values read and whether each read raised a bus error. -/
def dcRun (cfg : DcConfig) (env : DcEnv) (s : DcState) : List DcOp → List (Word × Bool) × DcState
  | [] => ([], s)
  | .read a n :: ops =>
    let r := dcSimulateRead cfg env s a n
    let rest := dcRun cfg env r.state ops
    ((r.value, r.busErr) :: rest.1, rest.2)
  | .write a data n :: ops => dcRun cfg env (dcSimulateWrite cfg env s a data n).state ops
  | .inv a :: ops => dcRun cfg env (dcInv cfg env s a) ops

/-- The same accesses on memory directly; invalidation has nothing to do. -/
def directRun (M : Memory) : List DcOp → List (Word × Bool) × Memory
  | [] => ([], M)
  | .read a n :: ops =>
    let rest := directRun M ops
    (((M.evalsimMem a n).getD 0, (M.evalsimMem a n).isNone) :: rest.1, rest.2)
  | .write a data n :: ops => directRun ((M.setsimMem a data n).getD M) ops
  | .inv _ :: ops => directRun M ops

end Cache
end Or1ksim
