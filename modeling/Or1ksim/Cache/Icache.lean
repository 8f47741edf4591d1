import Or1ksim.Cache.Lines

/-!
# The instruction cache model

`cache/icache-model.c`: the instruction cache keeps flat arrays of tags, usage counters and words,
and reaches them by masks and shifts computed at configuration time.  Timing, statistics and the
access log are left out.

* `IcConfig` — a geometry the configuration code accepts, with the masks of `ic_end_sec`;
* `icSimulateFetch`, `icInv` — the two operations;
* `icRun`, `memRun` — a sequence of fetches, writes and invalidations through the cache, and its
  fetches on memory directly;
* `Disciplined` — every write to a cached address is invalidated before the next fetch.
-/

namespace Or1ksim
namespace Cache

/-- An instruction cache geometry as `ic_nsets`, `ic_nways`, `ic_blocksize` and `ic_ustates` accept
it.  Their bounds are those of the data cache. -/
abbrev IcConfig := DcConfig

/-- What the accesses read of the processor state besides `UPR[ICP]`. -/
structure IcEnv where
  /-- `SR[ICE]`: the cache is enabled. -/
  ice : Bool
  /-- `insn_ci`: the page is cache inhibited. -/
  insnCi : Bool
deriving DecidableEq, Repr

/-- The arrays of `struct ic`. -/
structure Ic where
  /-- Cached words, by byte offset. -/
  mem : ℕ → Word
  /-- Tags, or `-1` when invalid. -/
  tags : ℕ → Addr
  /-- Least recently used counters. -/
  lrus : ℕ → ℕ

/-- The cache and the memory behind it. -/
structure IcState where
  /-- Cache. -/
  ic : Ic
  /-- Memory. -/
  mem : Memory

namespace IcConfig

variable (cfg : IcConfig)

/-! ### The fields set by `ic_end_sec` -/

/-- `blocksize_log2`. -/
def blocksizeLog2 : ℕ := Nat.log2 cfg.blocksize

/-- `set_mask`. -/
def setMask : Addr := BitVec.ofNat 32 (cfg.nsets - 1) <<< blocksizeLog2 cfg

/-- `tagaddr_mask`. -/
def tagaddrMask : Addr := ~~~BitVec.ofNat 32 (cfg.nsets * cfg.blocksize - 1)

/-- `last_way`. -/
def lastWay : ℕ := cfg.nsets * cfg.nways

/-- `block_offset_mask`. -/
def blockOffsetMask : Addr := BitVec.ofNat 32 (cfg.blocksize - 1)

/-- `ustates_reload`. -/
def ustatesReload : ℕ := (cfg.ustates - 1).toNat

/-- The arrays as `ic_end_sec` clears them. -/
def icEndSec : Ic where
  mem := fun _ => 0
  tags := fun _ => invalidTag
  lrus := fun _ => 0

/-! ### Indices -/

/-- The set an address maps to. -/
def set (a : Addr) : ℕ := ((a &&& setMask cfg) >>> blocksizeLog2 cfg).toNat

/-- The tag of an address. -/
def tagaddr (a : Addr) : Addr := a &&& tagaddrMask cfg

/-- `for (way = set; way < last_way; way += nsets)`. -/
def ways (s : ℕ) : List ℕ := (List.range cfg.nways).map fun i => s + i * cfg.nsets

/-- `(way << blocksize_log2) | (offset & block_offset_mask)`. -/
def slot (way : ℕ) (offset : Addr) : ℕ :=
  (way <<< blocksizeLog2 cfg) ||| (offset &&& blockOffsetMask cfg).toNat

/-- `reload_addr` after `i` bytes have been loaded. -/
def reloadAddr (a : Addr) (i : ℕ) : Addr := (a &&& blockOffsetMask cfg) + BitVec.ofNat 32 i

/-! ### The loops -/

/-- The first way of the set with the tag. -/
def findWay (ic : Ic) (a : Addr) : Option ℕ :=
  (ways cfg (set cfg a)).find? fun way => decide (ic.tags way = tagaddr cfg a)

/-- The first way of the set with the least counter below `ustates - 1`, or else the first way. -/
def victim (ic : Ic) (s : ℕ) : ℕ :=
  ((ways cfg s).foldl
    (fun (m : ℕ × ℕ) way => if ic.lrus way < m.2 then (way, ic.lrus way) else m)
    (s, ustatesReload cfg)).1

/-- Usage counters after a hit on `way`. -/
def touchHit (ic : Ic) (s way : ℕ) : ℕ → ℕ := fun i =>
  if i = way then ustatesReload cfg
  else if i ∈ ways cfg s ∧ ic.lrus way < ic.lrus i then ic.lrus i - 1
  else ic.lrus i

/-- Usage counters after a refill of `way`. -/
def touchMiss (ic : Ic) (s way : ℕ) : ℕ → ℕ := fun i =>
  if i = way then ustatesReload cfg
  else if i ∈ ways cfg s then ic.lrus i - 1
  else ic.lrus i

/-- The refill loop; the flag is false when a word is outside every area, in which case the loop
stops with a bus error. -/
def refill (M : Memory) (a : Addr) (way : ℕ) : List ℕ → (ℕ → Word) → (ℕ → Word) × Bool
  | [], mem => (mem, true)
  | i :: is, mem =>
    let reload := reloadAddr cfg a i
    match M.evalsimMem
        ((a &&& ~~~blockOffsetMask cfg) ||| (reload &&& blockOffsetMask cfg)) .w4 with
    | none => (Function.update mem (slot cfg way reload) 0, false)
    | some v => refill M a way is (Function.update mem (slot cfg way reload) v)

/-- Invalidate the ways of the set that satisfy `p`. -/
def invalidateWays (ic : Ic) (s : ℕ) (p : ℕ → Bool) : Ic where
  mem := ic.mem
  tags := fun way => if way ∈ ways cfg s ∧ p way then invalidTag else ic.tags way
  lrus := fun way => if way ∈ ways cfg s ∧ p way then 0 else ic.lrus way

end IcConfig

open IcConfig

/-- Result of a fetch: the instruction, whether a bus error was raised, and the cache. -/
structure IcResult where
  /-- Word fetched. -/
  value : Word
  /-- The fetch raised a bus error. -/
  busErr : Bool
  /-- Cache after the fetch. -/
  ic : Ic

/-- `ic_simulate_fetch`. -/
def icSimulateFetch (cfg : IcConfig) (icp : Bool) (env : IcEnv) (S : IcState) (a : Addr) :
    IcResult :=
  if !icp || !env.ice || env.insnCi then
    match S.mem.evalsimMem a .w4 with
    | some v => ⟨v, false, S.ic⟩
    | none => ⟨0, true, S.ic⟩
  else
    match findWay cfg S.ic a with
    | some way =>
      ⟨S.ic.mem (slot cfg way a), false,
        { S.ic with lrus := touchHit cfg S.ic (set cfg a) way }⟩
    | none =>
      let way := victim cfg S.ic (set cfg a)
      let tags := Function.update S.ic.tags way (tagaddr cfg a)
      let lrus := touchMiss cfg S.ic (set cfg a) way
      match refill cfg S.mem a way cfg.refillSteps S.ic.mem with
      | (mem, true) =>
        ⟨mem (slot cfg way (reloadAddr cfg a cfg.blocksize)), false, ⟨mem, tags, lrus⟩⟩
      | (mem, false) =>
        ⟨0, true, ⟨mem, Function.update tags way invalidTag, Function.update lrus way 0⟩⟩

/-- `ic_inv`. -/
def icInv (cfg : IcConfig) (icp : Bool) (env : IcEnv) (ic : Ic) (a : Addr) : Ic :=
  if !icp then ic
  else if !env.ice then invalidateWays cfg ic (set cfg a) fun _ => true
  else invalidateWays cfg ic (set cfg a) fun way => decide (ic.tags way = tagaddr cfg a)

/-! ### Sequences of accesses -/

/-- An access to the cache or to the memory behind it. -/
inductive IcOp where
  /-- A fetch. -/
  | fetch (env : IcEnv) (a : Addr)
  /-- An invalidation. -/
  | inv (env : IcEnv) (a : Addr)
  /-- A memory write that the instruction cache does not see. -/
  | write (a : Addr) (data : Word) (n : Width)

/-- The state after an access. -/
def icStep (cfg : IcConfig) (icp : Bool) (S : IcState) : IcOp → IcState
  | .fetch env a => { S with ic := (icSimulateFetch cfg icp env S a).ic }
  | .inv env a => { S with ic := icInv cfg icp env S.ic a }
  | .write a data n => { S with mem := (S.mem.setsimMem a data n).getD S.mem }

/-- What the fetches of a sequence return, and whether each raised a bus error. -/
def icRun (cfg : IcConfig) (icp : Bool) (S : IcState) : List IcOp → List (Word × Bool)
  | [] => []
  | .fetch env a :: ops =>
    let r := icSimulateFetch cfg icp env S a
    (r.value, r.busErr) :: icRun cfg icp (icStep cfg icp S (.fetch env a)) ops
  | op :: ops => icRun cfg icp (icStep cfg icp S op) ops

/-- The memory word at each fetched address, at the time of the fetch. -/
def memRun (M : Memory) : List IcOp → List (Word × Bool)
  | [] => []
  | .fetch _ a :: ops => ((M.evalsimMem a .w4).getD 0, (M.evalsimMem a .w4).isNone) :: memRun M ops
  | .inv _ _ :: ops => memRun M ops
  | .write a data n :: ops => memRun ((M.setsimMem a data n).getD M) ops

/-- `ic_inv` of `a` comes before the next fetch. -/
def InvNext (a : Addr) : List IcOp → Prop
  | [] => True
  | .fetch _ _ :: _ => False
  | .inv _ b :: ops => b = a ∨ InvNext a ops
  | .write _ _ _ :: ops => InvNext a ops

/-- Every write to a cached address is followed by `ic_inv` of that address before the next
fetch. -/
def Disciplined (cfg : IcConfig) (icp : Bool) (S : IcState) : List IcOp → Prop
  | [] => True
  | .write a data n :: ops =>
    ((findWay cfg S.ic a).isSome → InvNext a ops) ∧
      Disciplined cfg icp (icStep cfg icp S (.write a data n)) ops
  | op :: ops => Disciplined cfg icp (icStep cfg icp S op) ops

end Cache
end Or1ksim
