import Or1ksim.Cache.Fetch
import Or1ksim.Cache.PowerUp
import Or1ksim.Lib.Select

/-!
# Victims

On a miss a way of the set is refilled.  Three loops choose it, by the usage counters; the one of
`dc_simulate_write` does not carry the running minimum.

* `Least`, `LastBelow` — the way with the least counter, and the last below `ustates - 1`;
* `readVictim_spec`, `write_least_iff`, `victims_eq_iff` — what the loops of the data cache choose;
* `DcState.LruOk`, `IcLruOk` — counters stay between zero and `ustates - 1`;
* `victims_least` — **victims are least recently used**, in every run, exactly if at every write
  miss no way before the last one below `ustates - 1` has a smaller counter;
* `write_victim_not_least` — with four ways one may.
-/

namespace Or1ksim
namespace Cache

open DcConfig

/-! ### The loops of the data cache -/

/-- The way has the least counter of its set. -/
def Least (cfg : DcConfig) (ways : ℕ → DcWay) (w : ℕ) : Prop :=
  ∀ i < cfg.nways, (ways w).lru ≤ (ways i).lru

/-- The way is the last with a counter below `ustates - 1`. -/
def LastBelow (cfg : DcConfig) (ways : ℕ → DcWay) (w : ℕ) : Prop :=
  w < cfg.nways ∧ (ways w).lru < cfg.ustates - 1 ∧
    ∀ i < cfg.nways, w < i → ¬(ways i).lru < cfg.ustates - 1

/-- Counters are between zero and `ustates - 1`. -/
def LruOk (cfg : DcConfig) (ways : ℕ → DcWay) : Prop :=
  ∀ i, 0 ≤ (ways i).lru ∧ (ways i).lru ≤ cfg.ustates - 1

section

variable {cfg : DcConfig} {ways : ℕ → DcWay} {w v : ℕ}

theorem LastBelow.unique (hw : LastBelow cfg ways w) (hv : LastBelow cfg ways v) : w = v := by
  rcases Nat.lt_trichotomy w v with h | h | h
  · exact absurd hv.2.1 (hw.2.2 v hv.1 h)
  · exact h
  · exact absurd hw.2.1 (hv.2.2 w hw.1 h)

theorem readVictim_spec (h : LruOk cfg ways) :
    Least cfg ways (cfg.readVictim ways) ∧
      ((cfg.readVictim ways = 0 ∧ ∀ i < cfg.nways, cfg.ustates - 1 ≤ (ways i).lru) ∨
        (cfg.readVictim ways < cfg.nways ∧
          (ways (cfg.readVictim ways)).lru < cfg.ustates - 1 ∧
          ∀ i < cfg.readVictim ways, (ways (cfg.readVictim ways)).lru < (ways i).lru)) := by
  unfold readVictim
  rcases foldl_first_least (fun i => (ways i).lru) (List.range cfg.nways) 0 (cfg.ustates - 1) with
    ⟨hfold, hle⟩ | ⟨pre, m, post, hl, hfold, hlt, hpre, hpost⟩
  · rw [hfold]
    have htop : ∀ i < cfg.nways, cfg.ustates - 1 ≤ (ways i).lru := fun i hi =>
      hle i (List.mem_range.2 hi)
    exact ⟨fun i hi => (h 0).2.trans (htop i hi), .inl ⟨rfl, htop⟩⟩
  · rw [hfold]
    obtain ⟨hm, hbefore, hafter⟩ := mem_split_range hl
    have hfirst : ∀ i < m, (ways m).lru < (ways i).lru := fun i hi => hpre i ((hbefore i).2 hi)
    refine ⟨fun i hi => ?_, .inr ⟨hm, hlt, hfirst⟩⟩
    rcases Nat.lt_trichotomy i m with him | rfl | him
    · exact (hfirst i him).le
    · exact le_rfl
    · exact hpost i ((hafter i).2 ⟨him, hi⟩)

/-- The victim of a write miss is the last way below `ustates - 1`. -/
theorem writeVictim_spec (cfg : DcConfig) (ways : ℕ → DcWay) :
    (cfg.writeVictim ways = 0 ∧ ∀ i < cfg.nways, ¬(ways i).lru < cfg.ustates - 1) ∨
      LastBelow cfg ways (cfg.writeVictim ways) := by
  unfold writeVictim
  rcases foldl_last (fun i => (ways i).lru < cfg.ustates - 1) (List.range cfg.nways) 0 with
    ⟨hfold, hnone⟩ | ⟨pre, m, post, hl, hfold, hm, hpost⟩
  · exact .inl ⟨hfold, fun i hi => hnone i (List.mem_range.2 hi)⟩
  · rw [hfold]
    obtain ⟨hlt, -, hafter⟩ := mem_split_range hl
    exact .inr ⟨hlt, hm, fun i hi hmi => hpost i ((hafter i).2 ⟨hmi, hi⟩)⟩

/-- It is least exactly if no way before has a smaller counter. -/
theorem write_least_iff (h : LruOk cfg ways) :
    Least cfg ways (cfg.writeVictim ways) ↔
      ∀ w, LastBelow cfg ways w → ∀ i < w, (ways w).lru ≤ (ways i).lru := by
  constructor
  · intro hleast w hw i hi
    rcases writeVictim_spec cfg ways with ⟨-, hnone⟩ | hlast
    · exact absurd hw.2.1 (hnone w hw.1)
    · rw [← hlast.unique hw] at hi ⊢
      exact hleast i (hi.trans hlast.1)
  · intro hbefore i hi
    rcases writeVictim_spec cfg ways with ⟨hzero, hnone⟩ | hlast
    · rw [hzero]
      exact (h 0).2.trans (not_lt.1 (hnone i hi))
    · rcases Nat.lt_trichotomy i (cfg.writeVictim ways) with him | rfl | him
      · exact hbefore _ hlast i him
      · exact le_rfl
      · exact hlast.2.1.le.trans (not_lt.1 (hlast.2.2 i hi him))

/-- The two victims are the same exactly if all ways before have greater counters. -/
theorem victims_eq_iff (h : LruOk cfg ways) :
    cfg.readVictim ways = cfg.writeVictim ways ↔
      ∀ w, LastBelow cfg ways w → ∀ i < w, (ways w).lru < (ways i).lru := by
  obtain ⟨hleast, hread⟩ := readVictim_spec h
  constructor
  · intro heq w hw
    rcases writeVictim_spec cfg ways with ⟨-, hnone⟩ | hlast
    · exact absurd hw.2.1 (hnone w hw.1)
    · rw [hlast.unique hw] at heq
      rw [heq] at hread
      rcases hread with ⟨-, htop⟩ | ⟨-, -, hfirst⟩
      · exact absurd hw.2.1 (not_lt.2 (htop w hw.1))
      · exact hfirst
  · intro hbefore
    rcases writeVictim_spec cfg ways with ⟨hzero, hnone⟩ | hlast
    · rcases hread with ⟨hr, -⟩ | ⟨hr, hlt, -⟩
      · rw [hr, hzero]
      · exact absurd hlt (hnone _ hr)
    · rcases hread with ⟨-, htop⟩ | ⟨hr, hlt, -⟩
      · exact absurd hlast.2.1 (not_lt.2 (htop _ hlast.1))
      · rcases Nat.lt_trichotomy (cfg.readVictim ways) (cfg.writeVictim ways) with hc | hc | hc
        · exact absurd (hleast _ hlast.1) (not_le.2 (hbefore _ hlast _ hc))
        · exact hc
        · exact absurd hlt (hlast.2.2 _ hr hc)

end

/-! ### Counters of the data cache -/

/-- All counters are between zero and `ustates - 1`. -/
def DcState.LruOk (cfg : DcConfig) (S : DcState) : Prop := ∀ s, Cache.LruOk cfg (S.dc s)

/-- An access with the processor as it is then. -/
def dcStep (cfg : DcConfig) (S : DcState) : DcEnv × DcOp → DcState
  | (env, .read a n) => (dcSimulateRead cfg env S a n).state
  | (env, .write a v n) => (dcSimulateWrite cfg env S a v n).state
  | (env, .inv a) => dcInv cfg env S a

/-- A sequence of accesses. -/
def dcSteps (cfg : DcConfig) (S : DcState) (ops : List (DcEnv × DcOp)) : DcState :=
  ops.foldl (dcStep cfg) S

section

variable {cfg : DcConfig} {ways : ℕ → DcWay} {S : DcState} {D : Dc} {M : Memory}

theorem ustates_pos (cfg : DcConfig) : 0 ≤ cfg.ustates - 1 := by
  have := cfg.ustates_ok.1
  omega

theorem LruOk.touchHit (h : LruOk cfg ways) (w : ℕ) : LruOk cfg (cfg.touchHit ways w) := by
  intro i
  have hi := h i
  have hw := h w
  have hpos := ustates_pos cfg
  unfold DcConfig.touchHit
  split_ifs with h1 h2
  · exact ⟨hpos, le_rfl⟩
  · dsimp only
    omega
  · exact hi

theorem LruOk.touchMiss (h : LruOk cfg ways) (w : ℕ) : LruOk cfg (cfg.touchMiss ways w) := by
  intro i
  have hi := h i
  have hpos := ustates_pos cfg
  unfold DcConfig.touchMiss
  split_ifs with h1 h2
  · exact ⟨hpos, le_rfl⟩
  · dsimp only
    omega
  · exact hi

theorem LruOk.update (h : LruOk cfg ways) (w : ℕ) {x : DcWay}
    (hx : 0 ≤ x.lru ∧ x.lru ≤ cfg.ustates - 1) : LruOk cfg (Function.update ways w x) := by
  intro i
  by_cases hiw : i = w
  · rw [hiw, Function.update_self]
    exact hx
  · rw [Function.update_of_ne hiw]
    exact h i

theorem DcState.LruOk.setWays (h : DcState.LruOk cfg ⟨D, M⟩) (s : ℕ) (hways : Cache.LruOk cfg ways)
    (M' : Memory) : DcState.LruOk cfg ⟨Cache.setWays D s ways, M'⟩ := by
  intro t
  by_cases hts : t = s
  · subst hts
    simp only [Cache.setWays, Function.update_self]
    exact hways
  · simp only [Cache.setWays, Function.update_of_ne hts]
    exact h t

theorem DcState.LruOk.dcRefill (h : DcState.LruOk cfg ⟨D, M⟩) (M' M'' : Memory) (a : Addr) (w : ℕ) :
    DcState.LruOk cfg ⟨(dcRefill cfg D M' a w).1, M''⟩ := by
  have hways := h (cfg.set a)
  unfold Cache.dcRefill
  dsimp only
  rcases cfg.refill M' a cfg.refillSteps (D (cfg.set a) w).line with ⟨line, ok⟩
  cases ok with
  | true =>
    refine h.setWays _ (LruOk.touchMiss (hways.update w ?_) w) _
    exact hways w
  | false => exact h.setWays _ (hways.update w ⟨le_rfl, ustates_pos cfg⟩) _

theorem DcState.LruOk.step (h : S.LruOk cfg) (op : DcEnv × DcOp) : (dcStep cfg S op).LruOk cfg := by
  obtain ⟨env, op⟩ := op
  cases op with
  | read a n =>
    unfold dcStep dcSimulateRead
    dsimp only
    split
    · split <;> exact h
    · split
      · exact h.setWays _ ((h _).touchHit _) _
      · have hrefill := h.dcRefill S.mem S.mem a (cfg.readVictim (S.dc (cfg.set a)))
        obtain ⟨D, ok, hD⟩ : ∃ D ok, Cache.dcRefill cfg S.dc S.mem a
            (cfg.readVictim (S.dc (cfg.set a))) = (D, ok) := ⟨_, _, rfl⟩
        rw [hD] at hrefill ⊢
        cases ok <;> exact hrefill
  | write a v n =>
    unfold dcStep dcSimulateWrite
    dsimp only
    split
    · exact h
    · split
      · exact h
      · split
        · refine h.setWays _ (LruOk.update ((h _).touchHit _) _ ?_) _
          exact (h _).touchHit _ _
        · exact h.dcRefill _ _ a _
  | inv a =>
    have hzero : ∀ x : DcWay, x.lru = 0 → 0 ≤ x.lru ∧ x.lru ≤ cfg.ustates - 1 := fun x hx => by
      rw [hx]
      exact ⟨le_rfl, ustates_pos cfg⟩
    unfold dcStep dcInv
    dsimp only
    split
    · exact h
    · split
      · refine h.setWays _ (fun i => ?_) _
        split
        · exact hzero _ rfl
        · exact h _ i
      · split
        · exact h.setWays _ ((h _).update _ (hzero _ rfl)) _
        · exact h

theorem DcState.LruOk.steps (h : S.LruOk cfg) (ops : List (DcEnv × DcOp)) :
    (dcSteps cfg S ops).LruOk cfg :=
  List.foldlRecOn ops (dcStep cfg) h fun _ h op _ => h.step op

theorem zeroDc_lruOk (cfg : DcConfig) (M : Memory) : DcState.LruOk cfg ⟨zeroDc, M⟩ :=
  fun _ _ => ⟨le_rfl, ustates_pos cfg⟩

end

/-! ### The instruction cache -/

/-- No counter is above `ustates - 1`. -/
def IcLruOk (cfg : IcConfig) (ic : Ic) : Prop := ∀ i, ic.lrus i ≤ IcConfig.ustatesReload cfg

section

variable {cfg : IcConfig} {icp : Bool} {S : IcState} {ic : Ic} {w : ℕ}

/-- The victim of a fetch has the least counter of its set. -/
theorem icVictim_least (h : IcLruOk cfg ic) (s : ℕ) :
    ∀ way ∈ IcConfig.ways cfg s, ic.lrus (IcConfig.victim cfg ic s) ≤ ic.lrus way := by
  unfold IcConfig.victim
  rcases foldl_first_least ic.lrus (IcConfig.ways cfg s) s (IcConfig.ustatesReload cfg) with
    ⟨hfold, hle⟩ | ⟨pre, m, post, hl, hfold, -, hpre, hpost⟩
  · rw [hfold]
    exact fun way hway => (h s).trans (hle way hway)
  · rw [hfold, hl]
    intro way hway
    rcases List.mem_append.1 hway with hway | hway
    · exact (hpre way hway).le
    · rcases List.mem_cons.1 hway with rfl | hway
      · exact le_rfl
      · exact hpost way hway

theorem IcLruOk.step (h : IcLruOk cfg S.ic) (op : IcOp) : IcLruOk cfg (icStep cfg icp S op).ic := by
  have htouch : ∀ s way, (∀ i, IcConfig.touchHit cfg S.ic s way i ≤ IcConfig.ustatesReload cfg) ∧
      ∀ i, IcConfig.touchMiss cfg S.ic s way i ≤ IcConfig.ustatesReload cfg := by
    refine fun s way => ⟨fun i => ?_, fun i => ?_⟩
    · have hi := h i
      unfold IcConfig.touchHit
      split_ifs <;> omega
    · have hi := h i
      unfold IcConfig.touchMiss
      split_ifs <;> omega
  have hinv : ∀ s p, IcLruOk cfg (IcConfig.invalidateWays cfg S.ic s p) := fun s p i => by
    have hi := h i
    unfold IcConfig.invalidateWays
    dsimp only
    split_ifs <;> omega
  -- A failed refill sets the counter of the victim to zero.
  cases op with
  | fetch env a =>
    unfold icStep icSimulateFetch
    dsimp only
    split
    · split <;> exact h
    · split
      · exact (htouch _ _).1
      · split
        · exact (htouch _ _).2
        · intro i
          dsimp only
          by_cases hiv : i = IcConfig.victim cfg S.ic (IcConfig.set cfg a)
          · rw [hiv, Function.update_self]
            exact Nat.zero_le _
          · rw [Function.update_of_ne hiv]
            exact (htouch _ _).2 i
  | inv env a =>
    unfold icStep icInv
    dsimp only
    split
    · exact h
    · split
      · exact hinv _ _
      · exact hinv _ _
  | write a v n => exact h

/-- A sequence of accesses. -/
def icSteps (cfg : IcConfig) (icp : Bool) (S : IcState) (ops : List IcOp) : IcState :=
  ops.foldl (icStep cfg icp) S

theorem IcLruOk.steps (h : IcLruOk cfg S.ic) (ops : List IcOp) :
    IcLruOk cfg (icSteps cfg icp S ops).ic :=
  List.foldlRecOn (motive := fun S : IcState => IcLruOk cfg S.ic) ops (icStep cfg icp) h
    fun _ h op _ => h.step op

end

/-! ### Main results -/

/-- An access of the data cache misses. -/
def DcMisses (cfg : DcConfig) (env : DcEnv) (S : DcState) (a : Addr) : Prop :=
  env.active = true ∧ cfg.findWay (S.dc (cfg.set a)) (cfg.tag a) = none

/-- If the access misses, the way that is refilled has the least counter of its set. -/
def EvictsLeast (cfg : DcConfig) (S : DcState) : DcEnv × DcOp → Prop
  | (env, .read a _) => DcMisses cfg env S a →
      Least cfg (S.dc (cfg.set a)) (cfg.readVictim (S.dc (cfg.set a)))
  | (env, .write a v n) => DcMisses cfg env S a → (S.mem.setsimMem a v n).isSome →
      Least cfg (S.dc (cfg.set a)) (cfg.writeVictim (S.dc (cfg.set a)))
  | (_, .inv _) => True

/-- If a fetch misses, the way that is refilled has the least counter of its set. -/
def IcEvictsLeast (cfg : IcConfig) (icp : Bool) (S : IcState) : IcOp → Prop
  | .fetch env a => icp = true → env.ice = true → env.insnCi = false →
      IcConfig.findWay cfg S.ic a = none →
      ∀ way ∈ IcConfig.ways cfg (IcConfig.set cfg a),
        S.ic.lrus (IcConfig.victim cfg S.ic (IcConfig.set cfg a)) ≤ S.ic.lrus way
  | _ => True

/-- If a write misses, no way before the last one below `ustates - 1` has a smaller counter. -/
def WriteLeast (cfg : DcConfig) (S : DcState) : DcEnv × DcOp → Prop
  | (env, .write a v n) => DcMisses cfg env S a → (S.mem.setsimMem a v n).isSome →
      ∀ w, LastBelow cfg (S.dc (cfg.set a)) w →
        ∀ i < w, (S.dc (cfg.set a) w).lru ≤ (S.dc (cfg.set a) i).lru
  | _ => True

theorem evictsLeast_iff {cfg : DcConfig} {S : DcState} (h : S.LruOk cfg) (op : DcEnv × DcOp) :
    EvictsLeast cfg S op ↔ WriteLeast cfg S op := by
  obtain ⟨env, op⟩ := op
  cases op with
  | read a n => exact iff_of_true (fun _ => (readVictim_spec (h _)).1) trivial
  | write a v n => exact forall₂_congr fun _ _ => write_least_iff (h _)
  | inv a => exact Iff.rfl

/-- **The victim is least recently used**: for every geometry and in every sequence of accesses from
power-up, on every miss of the data cache and of the instruction cache the way that is refilled has
the least counter of its set, exactly if at every write miss no way before the last one below
`ustates - 1` has a smaller counter; and a read miss and a write miss of one address in one state
evict the same way, exactly if at every miss all ways before that one have greater counters. -/
theorem victims_least (cfg : DcConfig) (M : Memory) (ops : List (DcEnv × DcOp)) (icCfg : IcConfig)
    (icp : Bool) (icM : Memory) (icOps : List IcOp) :
    ((∀ pre op, pre ++ [op] <+: ops → EvictsLeast cfg (dcSteps cfg ⟨zeroDc, M⟩ pre) op) ∧
        (∀ pre op, pre ++ [op] <+: icOps →
          IcEvictsLeast icCfg icp (icSteps icCfg icp ⟨IcConfig.icEndSec, icM⟩ pre) op) ↔
      ∀ pre op, pre ++ [op] <+: ops → WriteLeast cfg (dcSteps cfg ⟨zeroDc, M⟩ pre) op) ∧
    ((∀ pre env a, pre <+: ops → DcMisses cfg env (dcSteps cfg ⟨zeroDc, M⟩ pre) a →
        cfg.readVictim ((dcSteps cfg ⟨zeroDc, M⟩ pre).dc (cfg.set a)) =
          cfg.writeVictim ((dcSteps cfg ⟨zeroDc, M⟩ pre).dc (cfg.set a))) ↔
      ∀ pre env a, pre <+: ops → DcMisses cfg env (dcSteps cfg ⟨zeroDc, M⟩ pre) a →
        ∀ w, LastBelow cfg ((dcSteps cfg ⟨zeroDc, M⟩ pre).dc (cfg.set a)) w →
          ∀ i < w, ((dcSteps cfg ⟨zeroDc, M⟩ pre).dc (cfg.set a) w).lru <
            ((dcSteps cfg ⟨zeroDc, M⟩ pre).dc (cfg.set a) i).lru) := by
  have hok : ∀ pre, (dcSteps cfg ⟨zeroDc, M⟩ pre).LruOk cfg := (zeroDc_lruOk cfg M).steps
  have hfetch : ∀ pre op, pre ++ [op] <+: icOps →
      IcEvictsLeast icCfg icp (icSteps icCfg icp ⟨IcConfig.icEndSec, icM⟩ pre) op := by
    intro pre op _
    have hstart : IcLruOk icCfg IcConfig.icEndSec := fun _ => Nat.zero_le _
    cases op with
    | fetch env a => exact fun _ _ _ _ => icVictim_least (IcLruOk.steps hstart pre) _
    | inv env a => trivial
    | write a v n => trivial
  constructor
  · rw [and_iff_left hfetch]
    exact forall₃_congr fun pre op _ => evictsLeast_iff (hok pre) op
  · exact forall₃_congr fun pre env a => forall₂_congr fun _ _ => victims_eq_iff (hok pre _)

/-- A cache of one set of four ways with three usage states. -/
def fourWays : DcConfig :=
  ⟨1, 4, 16, 3, ⟨⟨0, rfl⟩, by decide⟩, ⟨⟨2, rfl⟩, by decide⟩, smallDcConfig.blocksize_ok,
    by decide⟩

/-- A write, a read and a write, each of a block of its own: the second write evicts the block of
the first, although two ways have not been used at all. -/
theorem write_victim_not_least :
    ¬EvictsLeast fourWays (dcSteps fourWays ⟨zeroDc, .flat fun _ => 0⟩
      [(⟨true, true, false⟩, .write 0x10 1 .w4), (⟨true, true, false⟩, .read 0x20 .w4)])
      (⟨true, true, false⟩, .write 0x30 1 .w4) := by
  intro h
  exact absurd (h ⟨rfl, by decide⟩ (by decide) 1 (by decide)) (by decide)

end Cache
end Or1ksim
