import Mathlib.Order.Bounds.Basic
import Or1ksim.Cpu.Tick

/-!
# When the timer matches

A write to `SPR_TTMR` or `SPR_TTCR` computes from the counter how many cycles it takes until the
low bits of the counter agree with `SPR_TTMR[TP]`, and queues the exception for that time.

* `tickMatches`, `later` — the counter agrees; some cycles later;
* `isLeast_cyclesUntilExcept` — the time computed is the time the counter takes;
* `MatchExact` — the exception is queued for the first match, if there is to be one;
* `matchExact_iff` — **the match time**: a stopped continuous timer is the exception.
-/

namespace Or1ksim
namespace Cpu

open Bits Insn

/-! ### The counter -/

/-- The counter agrees with `SPR_TTMR[TP]` on the low 28 bits. -/
def tickMatches (s : Sim) : Prop := sprReadTtcr s &&& ttmrTP = s.sprs sprTTMR &&& ttmrTP

/-- Some cycles later. -/
def later (s : Sim) (n : ℕ) : Sim := { s with cycles := s.cycles + BitVec.ofNat 64 n }

/-- What a write to a register of the timer promises: the exception is queued if the timer counts or
matches already, for the first time that the counter matches. -/
structure MatchExact (s : Sim) : Prop where
  queued : Job.tickRaiseExcept ∈ s.sched.funcs ↔ s.tickCounting ≠ 0 ∨ tickMatches s
  due : ∀ x ∈ s.sched.dues, x.1.2.1 = .tickRaiseExcept →
    ∃ n : ℕ, x.2 = n ∧ IsLeast {n | tickMatches (later s n)} n

/-- The first time that a counter modulo `m` gets to a value. -/
theorem isLeast_mod {m a : ℕ} (ha : a < m) (x : ℕ) :
    IsLeast {n | (x + n) % m = a} ((a + (m - x % m)) % m) := by
  have hm : 0 < m := by omega
  have hx := Nat.mod_lt x hm
  constructor
  · change (x + (a + (m - x % m)) % m) % m = a
    rw [Nat.add_mod_mod, ← Nat.mod_add_mod, show x % m + (a + (m - x % m)) = a + m by omega,
      Nat.add_mod_right, Nat.mod_eq_of_lt ha]
  · intro n hn
    change (x + n) % m = a at hn
    have hsum : x + n + (m - x % m) = n + m * (x / m + 1) := by
      have := Nat.mod_add_div x m
      rw [Nat.mul_add]
      omega
    rw [← hn, Nat.mod_add_mod, hsum, Nat.add_mul_mod_self_left]
    exact Nat.mod_le n m

theorem toNat_and_ttmrTP (v : Word) : (v &&& ttmrTP).toNat = v.toNat % 2 ^ 28 := by
  rw [BitVec.toNat_and]
  exact Nat.and_two_pow_sub_one_eq_mod _ 28

theorem toNat_cyclesUntilExcept (v w : Word) :
    (cyclesUntilExcept (v &&& ttmrTP) (w &&& ttmrTP)).toNat =
      (v.toNat % 2 ^ 28 + (2 ^ 28 - w.toNat % 2 ^ 28)) % 2 ^ 28 := by
  have hv := toNat_and_ttmrTP v
  have hw := toNat_and_ttmrTP w
  generalize v &&& ttmrTP = a at hv ⊢
  generalize w &&& ttmrTP = b at hw ⊢
  unfold cyclesUntilExcept
  split
  case isTrue hle =>
    rw [BitVec.le_def] at hle
    rw [BitVec.toNat_sub_of_le (BitVec.le_def.2 hle)]
    omega
  case isFalse hlt =>
    rw [BitVec.le_def] at hlt
    have h28 : (0x0fffffff : Word).toNat = 2 ^ 28 - 1 := rfl
    have h1 : (1 : Word).toNat = 1 := rfl
    rw [BitVec.toNat_add, BitVec.toNat_add, BitVec.toNat_sub]
    omega

theorem tickMatches_iff {s : Sim} :
    tickMatches s ↔ (sprReadTtcr s).toNat % 2 ^ 28 = (s.sprs sprTTMR).toNat % 2 ^ 28 := by
  rw [tickMatches, ← BitVec.toNat_inj, toNat_and_ttmrTP, toNat_and_ttmrTP]

/-- A counter that counts moves on by the cycles that pass. -/
theorem sprReadTtcr_later {s : Sim} (hcounting : s.tickCounting ≠ 0) (n : ℕ) :
    (sprReadTtcr (later s n)).toNat % 2 ^ 28 = ((sprReadTtcr s).toNat + n) % 2 ^ 28 := by
  have hlater : (later s n).tickCounting ≠ 0 := hcounting
  unfold sprReadTtcr
  rw [if_neg hlater, if_neg hcounting]
  change ((s.cycles + BitVec.ofNat 64 n - s.cycleCountAtTickStart).setWidth 32).toNat % 2 ^ 28 = _
  rw [BitVec.toNat_setWidth, BitVec.toNat_setWidth, BitVec.toNat_sub, BitVec.toNat_sub,
    BitVec.toNat_add, BitVec.toNat_ofNat]
  omega

/-- **The time computed** is the time a counter that counts takes to match. -/
theorem isLeast_cyclesUntilExcept {s : Sim} (hcounting : s.tickCounting ≠ 0) :
    IsLeast {n | tickMatches (later s n)}
      (cyclesUntilExcept (s.sprs sprTTMR &&& ttmrTP) (sprReadTtcr s &&& ttmrTP)).toNat := by
  have hset : {n | tickMatches (later s n)} =
      {n | ((sprReadTtcr s).toNat + n) % 2 ^ 28 = (s.sprs sprTTMR).toNat % 2 ^ 28} := by
    refine Set.ext fun n => ?_
    change tickMatches (later s n) ↔ ((sprReadTtcr s).toNat + n) % 2 ^ 28 = _
    rw [tickMatches_iff, sprReadTtcr_later hcounting]
    rfl
  rw [hset, toNat_cyclesUntilExcept]
  exact isLeast_mod (Nat.mod_lt _ (by decide)) _

/-- A counter that matches takes no time, whether it counts or not. -/
theorem isLeast_of_tickMatches {s : Sim} (h : tickMatches s) :
    cyclesUntilExcept (s.sprs sprTTMR &&& ttmrTP) (sprReadTtcr s &&& ttmrTP) = 0 ∧
      IsLeast {n | tickMatches (later s n)} 0 := by
  refine ⟨?_, ?_, fun n _ => Nat.zero_le n⟩
  · rw [← h, cyclesUntilExcept, if_pos (BitVec.le_refl _)]
    exact BitVec.sub_self _
  · have hlater : later s 0 = s := by
      change { s with cycles := s.cycles + 0#64 } = s
      rw [BitVec.add_zero]
    change tickMatches (later s 0)
    rwa [hlater]

/-! ### The exception on the queue -/

section Queue

variable {s t : Sim}

theorem dues_of_schedAdd {job : Job} {time : ℕ} (h : s.schedAdd job time = .ok t) :
    OnlySched s t ∧ ∃ c l₁ l₂, s.sched.dues = l₁ ++ l₂ ∧
      t.sched.dues = l₁ ++ ((c, job, ()), (time : ℤ)) :: l₂ := by
  refine ⟨.of_withSched h, ?_⟩
  obtain ⟨q, hq, rfl⟩ := withSched_eq_ok h
  exact Sched.dues_schedAdd (Int.natCast_nonneg time) hq

/-- No exception is queued. -/
def NoRaise (s : Sim) : Prop := ∀ x ∈ s.sched.dues, x.1.2.1 ≠ .tickRaiseExcept

theorem noRaise_iff : NoRaise s ↔ Job.tickRaiseExcept ∉ s.sched.funcs := by
  rw [Sched.funcs_eq_dues, List.mem_map]
  exact ⟨fun h ⟨x, hx, he⟩ => h x hx he, fun h x hx he => h ⟨x, hx, he⟩⟩

theorem NoRaise.schedAdd {job : Job} {time : ℕ} (hs : NoRaise s) (hjob : job ≠ .tickRaiseExcept)
    (h : s.schedAdd job time = .ok t) : NoRaise t := by
  obtain ⟨-, c, l₁, l₂, hs', ht⟩ := dues_of_schedAdd h
  intro x hx
  rw [ht, List.mem_append, List.mem_cons] at hx
  rcases hx with hx | rfl | hx
  · exact hs x (by rw [hs']; exact List.mem_append_left _ hx)
  · exact hjob
  · exact hs x (by rw [hs']; exact List.mem_append_right _ hx)

/-- The exception is queued once, for the time given. -/
def RaiseAt (s : Sim) (n : ℕ) : Prop :=
  Job.tickRaiseExcept ∈ s.sched.funcs ∧ ∀ x ∈ s.sched.dues, x.1.2.1 = .tickRaiseExcept → x.2 = n

theorem queueRaise_raiseAt {cycles : ℕ} (hs : NoRaise s) (hie : s.ttmrBit ttmrIE = true)
    (hip : s.ttmrBit ttmrIP = false) (h : queueRaise s cycles = .ok t) : RaiseAt t cycles := by
  rw [queueRaise_eq, if_pos ⟨hie, hip⟩] at h
  obtain ⟨-, c, l₁, l₂, hs', ht⟩ := dues_of_schedAdd h
  refine ⟨?_, fun x hx hjob => ?_⟩
  · rw [Sched.funcs_eq_dues, ht]
    simp
  · rw [ht, List.mem_append, List.mem_cons] at hx
    rcases hx with hx | rfl | hx
    · exact absurd hjob (hs x (by rw [hs']; exact List.mem_append_left _ hx))
    · rfl
    · exact absurd hjob (hs x (by rw [hs']; exact List.mem_append_right _ hx))

/-- Every mode queues the exception, apart from a one-shot timer that has stopped. -/
theorem queueMode_raiseAt {cycles : ℕ} (hs : NoRaise s) (hmode : s.tickMode ≠ 0)
    (hcounting : s.tickMode = ttmrSR → s.tickCounting ≠ 0) (hie : s.ttmrBit ttmrIE = true)
    (hip : s.ttmrBit ttmrIP = false) (h : queueMode s cycles = .ok t) : RaiseAt t cycles := by
  unfold queueMode at h
  dsimp only at h
  rw [← Sim.tickMode, if_neg hmode] at h
  have hboth : ∀ {job : Job}, job ≠ .tickRaiseExcept →
      (do let s ← s.schedAdd job cycles; queueRaise s cycles) = .ok t → RaiseAt t cycles := by
    intro job hjob h
    obtain ⟨q, hq, h⟩ := Runs.bind_eq_ok_iff.1 h
    obtain ⟨honly, -⟩ := dues_of_schedAdd hq
    exact queueRaise_raiseAt (hs.schedAdd hjob hq) (by rw [honly.ttmrBit, hie])
      (by rw [honly.ttmrBit, hip]) h
  split_ifs at h with hrt hsr hstop
  · exact hboth (by decide) h
  · exact hboth (by decide) h
  · exact absurd (hcounting hsr) hstop
  · exact queueRaise_raiseAt hs hie hip h

/-- **`sched_timer_job`** queues the exception for the time computed, unless it is disabled or
pending. -/
theorem schedTimerJob_raiseAt {prevTtmr : Word} (hold : QueuedUnder s prevTtmr)
    (hmode : s.tickMode ≠ 0) (hcounting : s.tickMode = ttmrSR → s.tickCounting ≠ 0)
    (hie : s.ttmrBit ttmrIE = true) (hip : s.ttmrBit ttmrIP = false)
    (h : schedTimerJob s prevTtmr = .ok t) :
    RaiseAt t (cyclesUntilExcept (s.sprs sprTTMR &&& ttmrTP) (sprReadTtcr s &&& ttmrTP)).toNat := by
  obtain ⟨q, h₁, h⟩ := Runs.bind_eq_ok_iff.1 h
  obtain ⟨u, h₂, h⟩ := Runs.bind_eq_ok_iff.1 h
  obtain ⟨honly, hready⟩ := unqueue_ready hold h₁ h₂
  have hnone : NoRaise u := by
    rw [noRaise_iff, ← mem_tickJobs rfl, hready, honly.ttmrBit, hip]
    exact List.not_mem_nil
  refine queueMode_raiseAt hnone ?_ ?_ ?_ ?_ h
  · rwa [honly.tickMode]
  · rwa [honly.tickMode, honly.tickCounting]
  · rwa [honly.ttmrBit]
  · rwa [honly.ttmrBit]

theorem schedTimerJob_onlySched {prevTtmr : Word} (h : schedTimerJob s prevTtmr = .ok t) :
    OnlySched s t := by
  obtain ⟨q, h₁, h⟩ := Runs.bind_eq_ok_iff.1 h
  obtain ⟨u, h₂, h⟩ := Runs.bind_eq_ok_iff.1 h
  exact ((unqueueRaise_spec h₁).1.trans (unqueueMode_spec h₂).1).trans (queueMode_perm h).1

theorem OnlySched.tickMatches_later (h : OnlySched s t) (n : ℕ) :
    tickMatches (later t n) ↔ tickMatches (later s n) := by
  rw [h]
  rfl

/-- A write that queues the exception for the time computed keeps its promise unless the timer has
stopped without matching. -/
theorem matchExact_iff_of_raiseAt (honly : OnlySched s t)
    (h : RaiseAt t
      (cyclesUntilExcept (s.sprs sprTTMR &&& ttmrTP) (sprReadTtcr s &&& ttmrTP)).toNat) :
    MatchExact t ↔ s.tickCounting ≠ 0 ∨ tickMatches s := by
  have hnow : tickMatches t ↔ tickMatches s := by
    rw [honly]
    rfl
  constructor
  · intro hexact
    have := hexact.queued.1 h.1
    rwa [hnow, honly.tickCounting] at this
  · intro hcase
    refine ⟨iff_of_true h.1 ?_, fun x hx hjob => ⟨_, h.2 x hx hjob, ?_⟩⟩
    · rwa [hnow, honly.tickCounting]
    · simp only [honly.tickMatches_later]
      rcases hcase with hcounting | hmatches
      · exact isLeast_cyclesUntilExcept hcounting
      · obtain ⟨hzero, hleast⟩ := isLeast_of_tickMatches hmatches
        rwa [hzero]

end Queue

/-! ### Writes -/

section Writes

variable {cfg : Config} {s t : Sim} {regno : Regno} {value : Word}

theorem tickMode_cases (s : Sim) :
    s.tickMode = 0 ∨ s.tickMode = ttmrRT ∨ s.tickMode = ttmrSR ∨ s.tickMode = ttmrCR := by
  have hmask : ttmrM = BitVec.twoPow 32 30 ||| BitVec.twoPow 32 31 := by decide
  rw [Sim.tickMode, hmask, BitVec.and_or_distrib_left, BitVec.and_twoPow, BitVec.and_twoPow]
  cases (s.sprs sprTTMR).getLsbD 30 <;> cases (s.sprs sprTTMR).getLsbD 31 <;> decide

theorem mtspr_ttcr (cfg : Config) (s : Sim) (value : Word) :
    mtspr cfg s sprTTCR value = schedTimerJob (ttcrWritten s value) (s.sprs sprTTMR) := rfl

theorem mtspr_ttmr (cfg : Config) (s : Sim) (value : Word) :
    mtspr cfg s sprTTMR value = schedTimerJob (ttmrWritten s value) (s.sprs sprTTMR) :=
  sprWriteTtmr_setSpr s value _

theorem tickCounting_ttmrWritten (s : Sim) (value : Word) :
    (ttmrWritten s value).tickCounting =
      if value &&& ttmrM = ttmrCR ∧ (ttmrWritten s value).sprs sprTTCR = value &&& ttmrTP then 0
      else value &&& ttmrM := rfl

theorem ttmrWritten_matches (hmode : (ttmrWritten s value).tickMode ≠ 0)
    (hstop : (ttmrWritten s value).tickCounting = 0) : tickMatches (ttmrWritten s value) := by
  rw [ttmrWritten_tickMode] at hmode
  have hsprs : ∀ v : Word, clearBit v ttmrIP &&& ttmrTP = v &&& ttmrTP := by
    intro v
    refine BitVec.eq_of_getLsbD_eq fun i hi => ?_
    rw [BitVec.getLsbD_and, BitVec.getLsbD_and, getLsbD_clearBit]
    by_cases hip : i = ttmrIP
    · subst hip
      rw [show ttmrTP.getLsbD ttmrIP = false by decide, Bool.and_false, Bool.and_false]
    · simp [hip]
  rw [tickMatches, ttmrWritten_ttmr, hsprs, sprReadTtcr, if_pos hstop]
  rw [tickCounting_ttmrWritten] at hstop
  split at hstop
  case isTrue h => rw [h.2, BitVec.and_assoc, BitVec.and_self]
  case isFalse => exact absurd hstop hmode

theorem ttmr_matchExact (hs : TickInv s) (h : mtspr cfg s sprTTMR value = .ok t)
    (hmode : t.tickMode ≠ 0) (hie : t.ttmrBit ttmrIE = true) (hip : t.ttmrBit ttmrIP = false) :
    MatchExact t := by
  rw [mtspr_ttmr] at h
  have honly := schedTimerJob_onlySched h
  rw [honly.tickMode] at hmode
  rw [honly.ttmrBit] at hie hip
  have hraise := schedTimerJob_raiseAt (hs.queuedUnder_ttmrWritten value) hmode
    (ttmrWritten_counting (by decide) (by decide)) hie hip h
  rw [matchExact_iff_of_raiseAt honly hraise]
  rcases eq_or_ne (ttmrWritten s value).tickCounting 0 with hstop | hcounting
  · exact .inr (ttmrWritten_matches hmode hstop)
  · exact .inl hcounting

/-- After a write to `SPR_TTCR` it is, unless the timer has stopped in the continuous mode and the
new count does not match. -/
theorem ttcr_matchExact_iff (hs : TickInv s) (h : mtspr cfg s sprTTCR value = .ok t)
    (hmode : t.tickMode ≠ 0) (hie : t.ttmrBit ttmrIE = true) (hip : t.ttmrBit ttmrIP = false) :
    MatchExact t ↔
      ¬(s.tickMode = ttmrCR ∧ s.tickCounting = 0 ∧
        value &&& ttmrTP ≠ s.sprs sprTTMR &&& ttmrTP) := by
  rw [mtspr_ttcr] at h
  have honly := schedTimerJob_onlySched h
  rw [honly.tickMode] at hmode
  rw [honly.ttmrBit] at hie hip
  have hu : TickInv (ttcrWritten s value) := (ttcrWritten_sameTick s value).tickInv hs
  have hraise := schedTimerJob_raiseAt hu.queuedUnder hmode
    (fun hm => hu.armed_counting hm hie hip) hie hip h
  rw [matchExact_iff_of_raiseAt honly hraise]
  have hmatches : s.tickCounting = 0 →
      (tickMatches (ttcrWritten s value) ↔
        value &&& ttmrTP = s.sprs sprTTMR &&& ttmrTP) := by
    intro hstop
    have hread : sprReadTtcr (ttcrWritten s value) = value := if_pos hstop
    rw [tickMatches, hread]
    rfl
  constructor
  · rintro (hcounting | hmatch) ⟨-, hstop, hne⟩
    · exact hcounting hstop
    · exact hne ((hmatches hstop).1 hmatch)
  · intro hno
    refine (eq_or_ne s.tickCounting 0).symm.imp_right fun hstop => ?_
    rw [hmatches hstop]
    by_contra hne
    refine hno ⟨?_, hstop, hne⟩
    -- A timer of another mode counts.
    rcases tickMode_cases s with h0 | hrt | hsr | hcr
    · exact absurd h0 hmode
    · exact absurd hstop (hs.counting hrt)
    · exact absurd hstop (hs.armed_counting hsr hie hip)
    · exact hcr

/-- **The match time is exact** after a write to `SPR_TTMR` or `SPR_TTCR` that leaves the timer
running with its exception enabled and not pending, unless a new count is written to a continuous
timer that has stopped and the count does not match. -/
theorem matchExact_iff (hs : Reachable cfg s) (hr : regno = sprTTMR ∨ regno = sprTTCR)
    (h : mtspr cfg s regno value = .ok t) (hmode : t.tickMode ≠ 0)
    (hie : t.ttmrBit ttmrIE = true) (hip : t.ttmrBit ttmrIP = false) :
    MatchExact t ↔
      ¬(regno = sprTTCR ∧ s.tickMode = ttmrCR ∧ s.tickCounting = 0 ∧
        value &&& ttmrTP ≠ s.sprs sprTTMR &&& ttmrTP) := by
  rcases hr with rfl | rfl
  · refine iff_of_true (ttmr_matchExact hs.tickInv h hmode hie hip) ?_
    exact fun hno => absurd hno.1 (by decide)
  · rw [ttcr_matchExact_iff hs.tickInv h hmode hie hip, eq_self, true_and]

end Writes

/-! ### A stopped timer -/

theorem resetSched_raise : ∃ q₁ q₂ q₃,
    Sched.schedAdd resetSched .tickRaiseExcept () 0 = some q₁ ∧
      Sched.schedFindRemove q₁ .tickRaiseExcept () = some q₂ ∧
      Sched.schedAdd q₂ .tickRaiseExcept () 0x0ffffffb = some q₃ := ⟨_, _, _, rfl, rfl, rfl⟩

/-- Turning on a continuous timer whose count matches stops it and queues its exception. -/
theorem mtspr_ttmr_stops (cfg : Config) {s : Sim} {q : Sched.State Job Unit}
    (httmr : s.sprs sprTTMR = 0) (httcr : s.sprs sprTTCR = 0) (hstop : s.tickCounting = 0)
    (hq : Sched.schedAdd s.sched .tickRaiseExcept () 0 = some q) :
    mtspr cfg s sprTTMR 0xe0000000 = .ok { ttmrWritten s 0xe0000000 with sched := q } ∧
      (ttmrWritten s 0xe0000000).sprs sprTTMR = 0xe0000000 ∧
      (ttmrWritten s 0xe0000000).tickCounting = 0 := by
  have hctr : (ttmrWritten s 0xe0000000).sprs sprTTCR = 0 :=
    (ttmrWritten_ttcr hstop _).trans httcr
  have hmr : (ttmrWritten s 0xe0000000).sprs sprTTMR = 0xe0000000 := by
    rw [ttmrWritten_ttmr]
    decide
  have hcounting : (ttmrWritten s 0xe0000000).tickCounting = 0 := by
    rw [tickCounting_ttmrWritten, hctr]
    decide
  have hread : sprReadTtcr (ttmrWritten s 0xe0000000) = 0 :=
    (sprReadTtcr_ttmrWritten s _).trans hctr
  have hsched := ttmrWritten_sched s 0xe0000000
  refine ⟨?_, hmr, hcounting⟩
  rw [mtspr_ttmr, httmr]
  generalize ttmrWritten s 0xe0000000 = u at hmr hread hcounting hsched
  have hcycles : cyclesUntilExcept (u.sprs sprTTMR &&& ttmrTP) (sprReadTtcr u &&& ttmrTP) = 0 := by
    rw [hread, hmr]
    decide
  have hmode : queueMode u 0 = .ok { u with sched := q } := by
    unfold queueMode
    dsimp only
    rw [hmr, if_neg (by decide), if_neg (by decide), if_neg (by decide), queueRaise_eq,
      Sim.ttmrBit, Sim.ttmrBit, hmr, if_pos (by decide), Sim.schedAdd, hsched]
    rw [show ((0 : ℕ) : ℤ) = 0 from rfl, hq]
    rfl
  unfold schedTimerJob
  rw [hcycles]
  exact hmode

/-- After a reset, such a program writes to `SPR_TTMR` with the timer at rest. -/
theorem writeTimer_run {cfg : Config} {mem : Memory} {insn k : Word}
    (hfirst : mem.evalsimMem 0x100 .w4 = some insn)
    (hsecond : mem.evalsimMem 0x104 .w4 = some 0xc1400800#32)
    (hdec : decodeInsn cfg.haveUnsignedXori insn = some movhiRow)
    (hparams : ∀ s : Sim, params s movhiRow insn = [.reg 1, .value k]) :
    ∃ s₁ s₂, simReset cfg (powerOn 0x601 0x8001 mem) = .ok s₁ ∧ cpuClock cfg s₁ = .ok s₂ ∧
      cpuClock cfg s₂ =
        (mtspr cfg { s₂ with exceptPending := false, nextDelayInsn := false } sprTTMR
          (k <<< 16)).map updatePc ∧
      s₂.sprs sprTTMR = 0 ∧ s₂.sprs sprTTCR = 0 ∧ s₂.tickCounting = 0 ∧ s₂.sched = resetSched := by
  obtain ⟨s₁, hreset, hs₁⟩ := simReset_powerOn cfg 0x601 0x8001 mem
  obtain ⟨hclock, hwrite⟩ := writeTimer_clocks hfirst hsecond hdec hparams hs₁
  have hsprs : ∀ r, r ≠ sprPPC → (movhiDone s₁ (k <<< 16)).sprs r = s₁.sprs r := fun r hr =>
    updatePc_sprs _ hr
  exact ⟨s₁, _, hreset, hclock, hwrite, (hsprs _ (by decide)).trans hs₁.ttmr,
    (hsprs _ (by decide)).trans hs₁.ttcr, hs₁.tickCounting, hs₁.sched⟩

theorem stopTimer_run {q : Sched.State Job Unit}
    (hq : Sched.schedAdd resetSched .tickRaiseExcept () 0 = some q) :
    ∃ s₁ s, simReset defaultConfig (powerOn 0x601 0x8001 stopTimer) = .ok s₁ ∧
      exec defaultConfig s₁ [.clock, .clock] = .ok s ∧ s.sprs sprTTMR = 0xe0000000 ∧
      s.tickCounting = 0 ∧ s.sched = q := by
  have hinsn₁ : stopTimer.evalsimMem 0x100 .w4 = some 0x1820e000#32 := by decide
  have hinsn₂ : stopTimer.evalsimMem 0x104 .w4 = some 0xc1400800#32 := by decide
  obtain ⟨s₁, s₂, hreset, hfirst, hsecond, httmr₂, httcr₂, hcounting, hsched⟩ :=
    writeTimer_run (k := 0xe000) hinsn₁ hinsn₂ (decodeInsn_movhi _) fun _ => rfl
  rw [← hsched] at hq
  obtain ⟨hwrite, httmr, hstop⟩ := mtspr_ttmr_stops defaultConfig
    (s := { s₂ with exceptPending := false, nextDelayInsn := false }) httmr₂ httcr₂ hcounting hq
  rw [show (0xe000 : Word) <<< 16 = 0xe0000000 by decide, hwrite] at hsecond
  refine ⟨s₁, _, hreset, Runs.foldlM_cons_eq_ok_iff.2 ⟨s₂, hfirst,
    Runs.foldlM_cons_eq_ok_iff.2 ⟨_, hsecond, rfl⟩⟩, ?_, hstop, rfl⟩
  exact (updatePc_sprs _ (by decide)).trans httmr

/-- A count written to the stopped timer queues its exception anew. -/
theorem mtspr_ttcr_stopped (cfg : Config) {s : Sim} {q₁ q₂ : Sched.State Job Unit}
    (httmr : s.sprs sprTTMR = 0xe0000000) (hstop : s.tickCounting = 0)
    (hq₁ : Sched.schedFindRemove s.sched .tickRaiseExcept () = some q₁)
    (hq₂ : Sched.schedAdd q₁ .tickRaiseExcept () 0x0ffffffb = some q₂) :
    mtspr cfg s sprTTCR 5 = .ok { ttcrWritten s 5 with sched := q₂ } := by
  have hmr : (ttcrWritten s 5).sprs sprTTMR = 0xe0000000 :=
    (ttcrWritten_sameTick s 5).ttmr.trans httmr
  have hread : sprReadTtcr (ttcrWritten s 5) = 5 := if_pos hstop
  have hsched : (ttcrWritten s 5).sched = s.sched := rfl
  rw [mtspr_ttcr, httmr]
  generalize ttcrWritten s 5 = u at hmr hread hsched
  have hcycles : (cyclesUntilExcept (u.sprs sprTTMR &&& ttmrTP)
      (sprReadTtcr u &&& ttmrTP)).toNat = 0x0ffffffb := by
    rw [hread, hmr]
    decide
  have hraise : unqueueRaise u 0xe0000000 = .ok { u with sched := q₁ } := by
    unfold unqueueRaise
    rw [hmr, if_pos (by decide), Sim.schedFindRemove, hsched, hq₁]
    rfl
  have hmode : queueMode { u with sched := q₁ } 0x0ffffffb = .ok { u with sched := q₂ } := by
    unfold queueMode
    dsimp only
    rw [hmr, if_neg (by decide), if_neg (by decide), if_neg (by decide), queueRaise_eq,
      Sim.ttmrBit, Sim.ttmrBit]
    dsimp only
    rw [hmr, if_pos (by decide), Sim.schedAdd]
    dsimp only
    rw [show ((0x0ffffffb : ℕ) : ℤ) = 0x0ffffffb from rfl, hq₂]
    rfl
  unfold schedTimerJob
  dsimp only
  rw [hcycles, hraise]
  exact hmode

/-- A program that writes 5 to the count of the stopped timer: the exception is queued, though the
timer neither counts nor matches. -/
theorem stopTimer_inexact :
    ∃ s₁ s t, simReset defaultConfig (powerOn 0x601 0x8001 stopTimer) = .ok s₁ ∧
      exec defaultConfig s₁ [.clock, .clock] = .ok s ∧
      mtspr defaultConfig s sprTTCR 5 = .ok t ∧ t.tickMode ≠ 0 ∧ t.ttmrBit ttmrIE = true ∧
      t.ttmrBit ttmrIP = false ∧ ¬MatchExact t := by
  obtain ⟨q₁, q₂, q₃, hq₁, hq₂, hq₃⟩ := resetSched_raise
  obtain ⟨s₁, s, hreset, hrun, httmr, hstop, hsched⟩ := stopTimer_run hq₁
  rw [← hsched] at hq₂
  have hwrite := mtspr_ttcr_stopped defaultConfig httmr hstop hq₂ hq₃
  have hs : TickInv s := Reachable.tickInv ⟨0x601, 0x8001, stopTimer, s₁, _, hreset, hrun⟩
  generalize ht : { ttcrWritten s 5 with sched := q₃ } = t at hwrite
  have hmr : t.sprs sprTTMR = 0xe0000000 := ht ▸ (ttcrWritten_sameTick s 5).ttmr.trans httmr
  have hmode : t.tickMode ≠ 0 := by
    rw [Sim.tickMode, hmr]
    decide
  have hie : t.ttmrBit ttmrIE = true := by
    rw [Sim.ttmrBit, hmr]
    decide
  have hip : t.ttmrBit ttmrIP = false := by
    rw [Sim.ttmrBit, hmr]
    decide
  refine ⟨s₁, s, t, hreset, hrun, hwrite, hmode, hie, hip, ?_⟩
  rw [ttcr_matchExact_iff hs hwrite hmode hie hip, not_not]
  refine ⟨?_, hstop, ?_⟩
  · rw [Sim.tickMode, httmr]
    decide
  · rw [httmr]
    decide

/-- The condition in the state that program reaches. -/
theorem matchExact_stopTimer :
    ∃ s t, Reachable defaultConfig s ∧ mtspr defaultConfig s sprTTCR 5 = .ok t ∧
      (MatchExact t ↔
        ¬(sprTTCR = sprTTCR ∧ s.tickMode = ttmrCR ∧ s.tickCounting = 0 ∧
          5 &&& ttmrTP ≠ s.sprs sprTTMR &&& ttmrTP)) := by
  obtain ⟨q₁, q₂, q₃, hq₁, hq₂, hq₃⟩ := resetSched_raise
  obtain ⟨s₁, s, hreset, hrun, httmr, hstop, hsched⟩ := stopTimer_run hq₁
  rw [← hsched] at hq₂
  have hwrite := mtspr_ttcr_stopped defaultConfig httmr hstop hq₂ hq₃
  have hs : Reachable defaultConfig s := ⟨0x601, 0x8001, stopTimer, s₁, _, hreset, hrun⟩
  generalize ht : { ttcrWritten s 5 with sched := q₃ } = t at hwrite
  have hmr : t.sprs sprTTMR = 0xe0000000 := ht ▸ (ttcrWritten_sameTick s 5).ttmr.trans httmr
  refine ⟨s, t, hs, hwrite, matchExact_iff hs (.inr rfl) hwrite ?_ ?_ ?_⟩
  · rw [Sim.tickMode, hmr]
    decide
  · rw [Sim.ttmrBit, hmr]
    decide
  · rw [Sim.ttmrBit, hmr]
    decide

end Cpu
end Or1ksim
