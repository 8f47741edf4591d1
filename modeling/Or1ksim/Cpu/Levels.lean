import Or1ksim.Cpu.Delivery
import Or1ksim.Cpu.Library
import Or1ksim.Cpu.TickMatch

/-!
# Interrupt lines of the library

The requests of the embedding program are collected in two words, from which the main loop takes
them.  The words hold which lines were set and which were cleared, not in which order.

* `Encodes` — a word of requests: line 31 stands for all bits above it;
* `takeRequests_spec` — what the main loop makes of the requests;
* `LevelsFollow` — a line is what the last call for it says;
* `levelsFollow_iff` — **the lines are levels** unless a line is cleared and then set again.
-/

namespace Or1ksim
namespace Cpu

open Bits

/-! ### Words of requests -/

/-- The word holds the requests for the lines of `p`. -/
def Encodes (w : BitVec 64) (p : ℕ → Bool) : Prop := ∀ k < 64, w.getLsbD k = p (min k 31)

theorem getLsbD_intBit {i k : ℕ} (hi : i < 32) (hk : k < 64) :
    (intBit i).getLsbD k = decide (min k 31 = i) := by
  rw [intBit, BitVec.getLsbD_signExtend, BitVec.msb_eq_getLsbD_last]
  simp only [BitVec.getLsbD_twoPow, hk, hi, decide_true, Bool.true_and]
  by_cases hk32 : k < 32
  · rw [if_pos hk32, decide_eq_decide]
    omega
  · rw [if_neg hk32, decide_eq_decide]
    omega

theorem getLsbD_intMask {i k : ℕ} (hi : i < 32) (hk : k < 64) :
    (intMask i).getLsbD k = !decide (min k 31 = i) := by
  rw [intMask, BitVec.getLsbD_signExtend, BitVec.msb_eq_getLsbD_last]
  simp only [BitVec.getLsbD_not, BitVec.getLsbD_twoPow, hk, hi, decide_true, Bool.true_and]
  by_cases hk32 : k < 32
  · rw [if_pos hk32, decide_eq_true hk32, Bool.true_and]
    congr 1
    rw [decide_eq_decide]
    omega
  · rw [if_neg hk32]
    simp only [Nat.reduceSub, Nat.reduceLT, decide_true, Bool.true_and]
    congr 1
    rw [decide_eq_decide]
    omega

theorem encodes_zero : Encodes 0 fun _ => false := fun _ _ => BitVec.getLsbD_zero

theorem Encodes.set {w : BitVec 64} {p : ℕ → Bool} (h : Encodes w p) (i : Fin 32) :
    Encodes (w ||| intBit i) fun k => p k || decide (k = i) := by
  intro k hk
  rw [BitVec.getLsbD_or, h k hk, getLsbD_intBit i.isLt hk]

/-- The requests for the first `n` lines have been taken. -/
def EncodesFrom (n : ℕ) (w : BitVec 64) (p : ℕ → Bool) : Prop :=
  ∀ k < 64, w.getLsbD k = (decide (n ≤ min k 31) && p (min k 31))

theorem encodesFrom_zero {w : BitVec 64} {p : ℕ → Bool} :
    EncodesFrom 0 w p ↔ Encodes w p := by
  simp [EncodesFrom, Encodes]

theorem EncodesFrom.eq_zero {n : ℕ} {w : BitVec 64} {p : ℕ → Bool} (h : EncodesFrom n w p)
    (hn : 32 ≤ n) : w = 0 := by
  refine BitVec.eq_of_getLsbD_eq fun k hk => ?_
  have hno : ¬n ≤ min k 31 := by omega
  rw [h k hk, decide_eq_false hno, Bool.false_and]
  exact BitVec.getLsbD_zero.symm

theorem EncodesFrom.line {n : ℕ} {w : BitVec 64} {p : ℕ → Bool} (h : EncodesFrom n w p)
    (hn : n < 32) : w.getLsbD n = p n := by
  have hmin : min n 31 = n := by omega
  rw [h n (by omega), hmin, decide_eq_true (le_refl n), Bool.true_and]

/-- The lines before the next one are those before it and itself. -/
theorem decide_lt_succ_and {n k : ℕ} {p : ℕ → Bool} (h : k = n → p n = false) :
    (decide (k < n + 1) && p k) = (decide (k < n) && p k) := by
  by_cases hkn : k = n
  · rw [hkn, h hkn, Bool.and_false, Bool.and_false]
  · have hlt : k < n + 1 ↔ k < n := by omega
    rw [decide_eq_decide.2 hlt]

/-- A line that is requested is taken, with everything its shift has set. -/
theorem EncodesFrom.taken {n : ℕ} {w : BitVec 64} {p : ℕ → Bool} (h : EncodesFrom n w p)
    (hn : n < 32) : EncodesFrom (n + 1) (w &&& intMask n) p := by
  intro k hk
  rw [BitVec.getLsbD_and, h k hk, getLsbD_intMask hn hk]
  by_cases hkn : min k 31 = n
  · simp [hkn]
  · have : n ≤ min k 31 ↔ n + 1 ≤ min k 31 := by omega
    simp only [this, hkn, decide_false, Bool.not_false, Bool.and_true]

theorem EncodesFrom.passed {n : ℕ} {w : BitVec 64} {p : ℕ → Bool} (h : EncodesFrom n w p)
    (hn : n < 64) (hoff : w.getLsbD n = false) : EncodesFrom (n + 1) w p := by
  intro k hk
  rw [h k hk]
  have hoff' := h n hn
  rw [hoff] at hoff'
  by_cases hkn : min k 31 = n
  · have hn' : min n 31 = n := by omega
    rw [hn'] at hoff'
    simp only [le_refl, decide_true, Bool.true_and] at hoff'
    simp [hkn, ← hoff']
  · have : n ≤ min k 31 ↔ n + 1 ≤ min k 31 := by omega
    simp only [this]

/-! ### Taking requests -/

section Requests

variable {cfg : Config} {s t u : LibSim} {p : ℕ → Bool}

/-- `SPR_PICSR`. -/
def LibSim.picsr (s : LibSim) : Word := s.sim.sprs sprPICSR

theorem reportInterrupt_picsr {s t : Sim} {line : Fin 32} (hpic : cfg.picEnabled = true)
    (h : reportInterrupt cfg s line = .ok t) :
    t.sprs sprPICSR = s.sprs sprPICSR ||| BitVec.twoPow 32 line := by
  unfold reportInterrupt at h
  simp only [hpic, Bool.not_true, Bool.false_eq_true, if_false] at h
  rw [Sim.setSpr_sprs_of_ne (by decide)] at h
  split at h
  case isTrue hon =>
    -- The line is pending already.
    cases h
    rw [Sim.setSpr_sprs_of_ne (by decide)]
    rw [BitVec.and_twoPow] at hon
    refine BitVec.eq_of_getLsbD_eq fun k hk => ?_
    rw [BitVec.getLsbD_or, BitVec.getLsbD_twoPow]
    by_cases hk' : line.val = k
    · subst hk'
      split at hon
      case isTrue hbit => rw [hbit, Bool.true_or]
      case isFalse => exact absurd rfl hon
    · simp [hk']
  case isFalse =>
    split at h
    · obtain ⟨q, -, rfl⟩ := withSched_eq_ok h
      dsimp only
      exact Sim.setSpr_sprs_self
    · cases h
      exact Sim.setSpr_sprs_self

/-- The first `n` lines have been looked at. -/
structure SetsTaken (n : ℕ) (s t : LibSim) (p : ℕ → Bool) : Prop where
  word : EncodesFrom n t.extIntSet p
  clr : t.extIntClr = s.extIntClr
  picsr : ∀ k < 32, t.picsr.getLsbD k = (s.picsr.getLsbD k || (decide (k < n) && p k))

theorem SetsTaken.step {n : ℕ} (hpic : cfg.picEnabled = true) (hn : n < 64)
    (ht : SetsTaken n s t p) (h : takeSet cfg t n = .ok u) : SetsTaken (n + 1) s u p := by
  unfold takeSet at h
  split at h
  case isTrue hon =>
    split at h
    case isTrue hn32 =>
      obtain ⟨sim, hsim, rfl⟩ := Runs.map_eq_ok_iff.1 h
      have hpn : p n = true := (ht.word.line hn32).symm.trans hon
      refine ⟨ht.word.taken hn32, ht.clr, fun k hk => ?_⟩
      change (sim.sprs sprPICSR).getLsbD k = _
      rw [reportInterrupt_picsr hpic hsim, BitVec.getLsbD_or, ← LibSim.picsr, ht.picsr k hk,
        BitVec.getLsbD_twoPow]
      by_cases hkn : k = n
      · subst hkn
        simp [hk, hpn]
      · have : k < n ↔ k < n + 1 := by omega
        simp [this, Ne.symm hkn]
    case isFalse => cases h
  case isFalse hoff =>
    cases h
    rw [Bool.not_eq_true] at hoff
    refine ⟨ht.word.passed hn hoff, ht.clr, fun k hk => ?_⟩
    rw [ht.picsr k hk, decide_lt_succ_and fun he => ?_]
    exact (ht.word.line (he ▸ hk)).symm.trans hoff

theorem SetsTaken.run {n : ℕ} (hpic : cfg.picEnabled = true) (hn : n ≤ 64)
    (hs : Encodes s.extIntSet p) (h : (List.range n).foldlM (takeSet cfg) s = .ok t) :
    SetsTaken n s t p := by
  have hstart : SetsTaken 0 s s p := ⟨encodesFrom_zero.2 hs, rfl, fun k _ => by simp⟩
  exact Runs.foldlM_range_invariant (P := fun k t => SetsTaken k s t p)
    (fun k hk _ _ ht hu => ht.step hpic (hk.trans_le hn) hu) hstart h

/-- The first `n` lines have been looked at. -/
structure ClrsTaken (n : ℕ) (s t : LibSim) (p : ℕ → Bool) : Prop where
  word : EncodesFrom n t.extIntClr p
  set : t.extIntSet = s.extIntSet
  picsr : ∀ k < 32, t.picsr.getLsbD k = (s.picsr.getLsbD k && !(decide (k < n) && p k))

theorem ClrsTaken.step {n : ℕ} (hn : n < 64) (ht : ClrsTaken n s t p)
    (h : takeClr t n = .ok u) : ClrsTaken (n + 1) s u p := by
  unfold takeClr at h
  split at h
  case isTrue hon =>
    split at h
    case isTrue hn32 =>
      cases h
      have hpn : p n = true := (ht.word.line hn32).symm.trans hon
      refine ⟨ht.word.taken hn32, ht.set, fun k hk => ?_⟩
      change ((clearInterrupt t.sim ⟨n, hn32⟩).sprs sprPICSR).getLsbD k = _
      rw [clearInterrupt, Sim.setSpr_sprs_self, BitVec.getLsbD_and, ← LibSim.picsr, ht.picsr k hk,
        BitVec.getLsbD_not, BitVec.getLsbD_twoPow]
      by_cases hkn : k = n
      · subst hkn
        simp [hk, hpn]
      · have : k < n ↔ k < n + 1 := by omega
        simp [hk, this, Ne.symm hkn]
    case isFalse => cases h
  case isFalse hoff =>
    cases h
    rw [Bool.not_eq_true] at hoff
    refine ⟨ht.word.passed hn hoff, ht.set, fun k hk => ?_⟩
    rw [ht.picsr k hk, decide_lt_succ_and fun he => ?_]
    exact (ht.word.line (he ▸ hk)).symm.trans hoff

theorem ClrsTaken.run {n : ℕ} (hn : n ≤ 64) (hs : Encodes s.extIntClr p)
    (h : (List.range n).foldlM takeClr s = .ok t) : ClrsTaken n s t p := by
  have hstart : ClrsTaken 0 s s p := ⟨encodesFrom_zero.2 hs, rfl, fun k _ => by simp⟩
  exact Runs.foldlM_range_invariant (P := fun k t => ClrsTaken k s t p)
    (fun k hk _ _ ht hu => ht.step (hk.trans_le hn) hu) hstart h

theorem Encodes.eq_false {w : BitVec 64} (h : Encodes w p) (hw : w = 0) {k : ℕ} (hk : k < 32) :
    p k = false := by
  have := h k (by omega)
  rw [hw, show min k 31 = k by omega] at this
  exact this.symm.trans BitVec.getLsbD_zero

theorem takeSets_spec (hpic : cfg.picEnabled = true) (hs : Encodes s.extIntSet p)
    (h : takeSets cfg s = .ok t) :
    t.extIntSet = 0 ∧ t.extIntClr = s.extIntClr ∧
      ∀ k < 32, t.picsr.getLsbD k = (s.picsr.getLsbD k || p k) := by
  unfold takeSets at h
  split at h
  case isTrue =>
    have ht := SetsTaken.run hpic le_rfl hs h
    refine ⟨ht.word.eq_zero (by decide), ht.clr, fun k hk => ?_⟩
    rw [ht.picsr k hk, decide_eq_true (show k < 64 by omega), Bool.true_and]
  case isFalse hzero =>
    cases h
    refine ⟨not_not.1 hzero, rfl, fun k hk => ?_⟩
    rw [hs.eq_false (not_not.1 hzero) hk, Bool.or_false]

theorem takeClrs_spec (hs : Encodes s.extIntClr p) (h : takeClrs s = .ok t) :
    t.extIntClr = 0 ∧ t.extIntSet = s.extIntSet ∧
      ∀ k < 32, t.picsr.getLsbD k = (s.picsr.getLsbD k && !p k) := by
  unfold takeClrs at h
  split at h
  case isTrue =>
    have ht := ClrsTaken.run le_rfl hs h
    refine ⟨ht.word.eq_zero (by decide), ht.set, fun k hk => ?_⟩
    rw [ht.picsr k hk, decide_eq_true (show k < 64 by omega), Bool.true_and]
  case isFalse hzero =>
    cases h
    refine ⟨not_not.1 hzero, rfl, fun k hk => ?_⟩
    rw [hs.eq_false (not_not.1 hzero) hk, Bool.not_false, Bool.and_true]

/-- **The requests**: the lines that were set are pending, and of these and all others those that
were cleared are not. -/
theorem takeRequests_spec {p' : ℕ → Bool} (hpic : cfg.picEnabled = true)
    (hset : Encodes s.extIntSet p) (hclr : Encodes s.extIntClr p')
    (h : takeRequests cfg s = .ok t) :
    t.extIntSet = 0 ∧ t.extIntClr = 0 ∧
      ∀ k < 32, t.picsr.getLsbD k = ((s.picsr.getLsbD k || p k) && !p' k) := by
  obtain ⟨u, hu, h⟩ := Runs.bind_eq_ok_iff.1 h
  obtain ⟨huset, huclr, hupicsr⟩ := takeSets_spec hpic hset hu
  obtain ⟨htclr, htset, htpicsr⟩ := takeClrs_spec (huclr ▸ hclr) h
  refine ⟨htset.trans huset, htclr, fun k hk => ?_⟩
  rw [htpicsr k hk, hupicsr k hk]

end Requests

/-! ### Calls -/

/-- A call for an interrupt line. -/
inductive LineCall where
  /-- `or1ksim_interrupt_set`. -/
  | set (i : Fin 32)
  /-- `or1ksim_interrupt_clear`. -/
  | clear (i : Fin 32)
deriving DecidableEq

/-- One call. -/
def LineCall.exec (cfg : Config) (s : LibSim) : LineCall → LibSim
  | .set i => or1ksimInterruptSet cfg s i
  | .clear i => or1ksimInterruptClear cfg s i

/-- Calls between two iterations. -/
def requests (cfg : Config) (s : LibSim) (calls : List LineCall) : LibSim :=
  calls.foldl (LineCall.exec cfg) s

/-- What a call makes of a line that is a level. -/
def LineCall.level (i : Fin 32) (b : Bool) (c : LineCall) : Bool :=
  if c = .set i then true else if c = .clear i then false else b

/-- A line that is a level, after calls: as the last call for it says, or as before. -/
def levelAfter (i : Fin 32) (b : Bool) (calls : List LineCall) : Bool :=
  calls.foldl (LineCall.level i) b

/-- Every line is what the last call for it says, and a line without a call is as before. -/
def LevelsFollow (calls : List LineCall) (picsr picsr' : Word) : Prop :=
  ∀ i : Fin 32, picsr'.getLsbD i = levelAfter i (picsr.getLsbD i) calls

/-- The lines for which there is such a call. -/
def called (call : Fin 32 → LineCall) (calls : List LineCall) (k : ℕ) : Bool :=
  if h : k < 32 then decide (call ⟨k, h⟩ ∈ calls) else false

section Calls

variable {cfg : Config} {s : LibSim} {calls : List LineCall} {i : Fin 32} {b : Bool}

theorem levelAfter_of_not_cleared (h : .clear i ∉ calls) :
    levelAfter i b calls = (b || decide (.set i ∈ calls)) := by
  induction calls generalizing b with
  | nil => simp [levelAfter]
  | cons c calls ih =>
    obtain ⟨hc, hcalls⟩ := not_or.1 (mt List.mem_cons.2 h)
    change levelAfter i (c.level i b) calls = _
    rw [ih hcalls]
    by_cases hset : c = .set i
    · subst hset
      simp [LineCall.level]
    · simp [LineCall.level, hset, Ne.symm hc, Ne.symm hset]

/-- Once it has been cleared, it does not matter what a line was before. -/
theorem levelAfter_of_cleared (h : .clear i ∈ calls) :
    levelAfter i b calls = levelAfter i false calls := by
  induction calls generalizing b with
  | nil => cases h
  | cons c calls ih =>
    change levelAfter i (c.level i b) calls = levelAfter i (c.level i false) calls
    by_cases hset : c = .set i
    · rw [LineCall.level, LineCall.level, if_pos hset, if_pos hset]
    by_cases hclear : c = .clear i
    · rw [LineCall.level, LineCall.level, if_neg hset, if_neg hset, if_pos hclear, if_pos hclear]
    rw [LineCall.level, LineCall.level, if_neg hset, if_neg hset, if_neg hclear, if_neg hclear]
    exact ih ((List.mem_cons.1 h).resolve_left (Ne.symm hclear))

theorem exec_sim (c : LineCall) : (c.exec cfg s).sim = s.sim := by
  cases c <;> simp only [LineCall.exec, or1ksimInterruptSet, or1ksimInterruptClear] <;> split <;>
    rfl

theorem requests_sim : (requests cfg s calls).sim = s.sim := by
  induction calls generalizing s with
  | nil => rfl
  | cons c calls ih => exact ih.trans (exec_sim c)

theorem called_cons (call : Fin 32 → LineCall) (hinj : Function.Injective call)
    (i : Fin 32) (calls : List LineCall) (k : ℕ) :
    called call (call i :: calls) k = (decide (k = i) || called call calls k) := by
  unfold called
  by_cases hk : k < 32
  · rw [dif_pos hk, dif_pos hk, ← Bool.decide_or, decide_eq_decide, List.mem_cons, hinj.eq_iff,
      Fin.ext_iff]
  · have : k ≠ i := by omega
    simp [hk, this]

theorem called_cons_of_ne {call : Fin 32 → LineCall} {c : LineCall} (hc : ∀ i, c ≠ call i)
    (calls : List LineCall) (k : ℕ) : called call (c :: calls) k = called call calls k := by
  unfold called
  by_cases hk : k < 32
  · simp [hk, (hc ⟨k, hk⟩).symm]
  · simp [hk]

theorem requests_encodes {p p' : ℕ → Bool} (hlevel : cfg.edgeTrigger = false)
    (hset : Encodes s.extIntSet p) (hclr : Encodes s.extIntClr p') :
    Encodes (requests cfg s calls).extIntSet (fun k => p k || called .set calls k) ∧
      Encodes (requests cfg s calls).extIntClr (fun k => p' k || called .clear calls k) := by
  induction calls generalizing s p p' with
  | nil =>
    refine ⟨fun k hk => (hset k hk).trans ?_, fun k hk => (hclr k hk).trans ?_⟩
    · simp [called]
    · simp [called]
  | cons c calls ih =>
    cases c with
    | set i =>
      have hexec : (LineCall.set i).exec cfg s =
          { s with extIntSet := s.extIntSet ||| intBit i } := by
        rw [LineCall.exec, or1ksimInterruptSet, hlevel, if_neg Bool.false_ne_true]
      have hstep : requests cfg s (.set i :: calls) =
          requests cfg { s with extIntSet := s.extIntSet ||| intBit i } calls := by
        rw [← hexec]
        rfl
      have hcons : ∀ k, called LineCall.set (.set i :: calls) k =
          (decide (k = i) || called LineCall.set calls k) :=
        called_cons _ (fun _ _ => LineCall.set.inj) i calls
      have hother : ∀ k, called LineCall.clear (.set i :: calls) k =
          called LineCall.clear calls k := called_cons_of_ne (fun _ h => by cases h) calls
      rw [hstep]
      simp only [hcons, hother, ← Bool.or_assoc]
      exact ih (hset.set i) hclr
    | clear i =>
      have hexec : (LineCall.clear i).exec cfg s =
          { s with extIntClr := s.extIntClr ||| intBit i } := by
        rw [LineCall.exec, or1ksimInterruptClear, hlevel, if_neg Bool.false_ne_true]
      have hstep : requests cfg s (.clear i :: calls) =
          requests cfg { s with extIntClr := s.extIntClr ||| intBit i } calls := by
        rw [← hexec]
        rfl
      have hcons : ∀ k, called LineCall.clear (.clear i :: calls) k =
          (decide (k = i) || called LineCall.clear calls k) :=
        called_cons _ (fun _ _ => LineCall.clear.inj) i calls
      have hother : ∀ k, called LineCall.set (.clear i :: calls) k =
          called LineCall.set calls k := called_cons_of_ne (fun _ h => by cases h) calls
      rw [hstep]
      simp only [hcons, hother, ← Bool.or_assoc]
      exact ih hset (hclr.set i)

/-- What the main loop makes of the calls is what the last ones say, unless a line was cleared
before it was set last. -/
theorem levelsFollow_iff_of_taken {picsr picsr' : Word}
    (h : ∀ k < 32, picsr'.getLsbD k =
      ((picsr.getLsbD k || called .set calls k) && !called .clear calls k)) :
    LevelsFollow calls picsr picsr' ↔
      ∀ i, ¬(.clear i ∈ calls ∧ levelAfter i false calls = true) := by
  refine forall_congr' fun i => ?_
  have hcalled : ∀ call, called call calls i = decide (call i ∈ calls) := fun call =>
    dif_pos i.isLt
  rw [h i i.isLt, hcalled, hcalled]
  by_cases hclear : LineCall.clear i ∈ calls
  · rw [levelAfter_of_cleared hclear]
    cases levelAfter i false calls <;> simp [hclear]
  · rw [levelAfter_of_not_cleared hclear]
    simp [hclear]

end Calls

/-! ### Iterations -/

section Iteration

variable {cfg : Config} {s t : LibSim} {calls : List LineCall} {fuel : ℕ} {i : Input}

theorem exceptHandle_picsr (s : Sim) (e : Exception) (ea : Addr) :
    (exceptHandle s e ea).sprs sprPICSR = s.sprs sprPICSR := by
  have hdebug := (SameInts.of_quiet (.debugIgnoreException s e)).picsr
  unfold exceptHandle
  dsimp only
  split
  · exact hdebug
  · rw [enterException_sprs _ _ _ (by decide) (by decide) (by decide) (by decide), hdebug]

/-- With level-triggered interrupts no instruction changes what is pending. -/
theorem picsr_keeps (hlevel : cfg.edgeTrigger = false) (v : Word) :
    Keeps cfg fun s => s.sprs sprPICSR = v where
  calm h hs := (h.sprs _ (by decide)).trans hs
  enter hs := (enterException_sprs _ _ _ (by decide) (by decide) (by decide) (by decide)).trans hs
  mtspr := by
    intro s t regno value h hs
    by_cases hpicsr : regno = sprPICSR
    · subst hpicsr
      have hraw : mtspr cfg s sprPICSR value =
          .ok (if cfg.edgeTrigger then s.setSpr sprPICSR value
            else (s.setSpr sprPICSR value).setSpr sprPICSR (s.sprs sprPICSR)) := rfl
      rw [hraw, hlevel, if_neg Bool.false_ne_true] at h
      cases h
      exact Sim.setSpr_sprs_self.trans hs
    by_cases hsr : regno = sprSR
    · subst hsr
      rw [mtspr_sr] at h
      dsimp only at h
      split at h
      · obtain ⟨q, rfl⟩ := picIntsEn_eq_ok h
        dsimp only
        rw [Sim.setSpr_sprs_of_ne (by decide)]
        exact hs
      · cases h
        exact (Sim.setSpr_sprs_of_ne (by decide)).trans hs
    by_cases hpicmr : regno = sprPICMR
    · subst hpicmr
      rw [mtspr_picmr] at h
      dsimp only at h
      split at h
      · obtain ⟨q, rfl⟩ := picIntsEn_eq_ok h
        dsimp only
        rw [Sim.setSpr_sprs_of_ne (by decide)]
        exact hs
      · cases h
        exact (Sim.setSpr_sprs_of_ne (by decide)).trans hs
    have hset : SameInts s (s.setSpr regno value) := .setSpr hsr hpicmr hpicsr value
    cases mtspr_step hsr hpicmr hpicsr h with
    | plain h => exact h.picsr.trans hs
    | prefetch pa h _ =>
      rw [h.picsr]
      unfold evalsimMem
      split
      · exact hset.picsr.trans hs
      · exact (exceptHandle_picsr _ _ _).trans (hset.picsr.trans hs)

/-- No peripheral has queued a job. -/
def NoDevice (s : Sim) : Prop := ∀ job ∈ s.sched.funcs, ∀ ops, job ≠ .device ops

theorem NoDevice.schedAdd {s : Sim} {q : Sched.State Job Unit} {job : Job} {time : ℤ}
    (hs : NoDevice s) (hjob : ∀ ops, job ≠ .device ops)
    (h : Sched.schedAdd s.sched job () time = some q) : NoDevice { s with sched := q } := by
  intro job' hmem
  rcases (Sched.mem_funcs_schedAdd h).1 hmem with rfl | hmem
  · exact hjob
  · exact hs job' hmem

theorem NoDevice.of_sched {s t : Sim} (hs : NoDevice s) (h : t.sched = s.sched) : NoDevice t := by
  unfold NoDevice
  rw [h]
  exact hs

/-- A job that is not a peripheral's changes nothing that is pending. -/
theorem job_picsr {s t : Sim} {job : Job} (hs : NoDevice s) (hjob : ∀ ops, job ≠ .device ops)
    (h : job.exec cfg s = .ok t) : NoDevice t ∧ t.sprs sprPICSR = s.sprs sprPICSR := by
  have hexcept : ∀ {s : Sim} (e : Exception) (ea : Addr), NoDevice s →
      NoDevice (exceptHandle s e ea) := by
    intro s e ea hs
    refine hs.of_sched ?_
    unfold exceptHandle
    dsimp only
    split
    · exact (Quiet.debugIgnoreException s e).sched
    · rw [enterException_sched, (Quiet.debugIgnoreException s e).sched]
  cases job with
  | schedGuard =>
    obtain ⟨q, hq, rfl⟩ := withSched_eq_ok h
    refine ⟨fun job hmem => ?_, rfl⟩
    by_cases hguard : job = .schedGuard
    · subst hguard
      exact nofun
    · exact hs job (Sched.mem_funcs_schedGuard hguard hq hmem)
  | picRepInt =>
    cases h
    unfold picRepInt
    split
    · exact ⟨hexcept _ _ hs, exceptHandle_picsr _ _ _⟩
    · exact ⟨hs, rfl⟩
  | tickRaiseExcept =>
    obtain ⟨u, hu, h⟩ := Runs.bind_eq_ok_iff.1 h
    obtain ⟨q, hq, rfl⟩ := withSched_eq_ok hu
    obtain ⟨time, -, hq⟩ := Option.bind_eq_some_iff.1 hq
    have hnodev := NoDevice.schedAdd (s := s.setSpr sprTTMR (setBit (s.sprs sprTTMR) ttmrIP)) hs
      (fun _ h => by cases h) hq
    cases h
    split
    · exact ⟨hexcept _ _ hnodev, exceptHandle_picsr _ _ _⟩
    · exact ⟨hnodev, rfl⟩
  | tickRestart =>
    obtain ⟨q, hq, rfl⟩ := withSched_eq_ok h
    exact ⟨NoDevice.schedAdd (s := s.setSpr sprTTCR 0) hs (fun _ h => by cases h) hq,
      rfl⟩
  | tickOneShot =>
    cases h
    exact ⟨hs, rfl⟩
  | device ops => exact absurd rfl (hjob ops)

theorem schedulerPass_picsr {s t : Sim} (hs : NoDevice s) (h : schedulerPass cfg fuel s = .ok t) :
    t.sprs sprPICSR = s.sprs sprPICSR := by
  induction fuel generalizing s with
  | zero => cases h
  | succ fuel ih =>
    obtain ⟨u, hu, h⟩ := Runs.bind_eq_ok_iff.1 h
    obtain ⟨tmp, q, hpop, hexec⟩ := runJob_eq_ok hu
    have hfuncs := Sched.funcs_popJob hpop
    have hq : NoDevice { s with sched := q } := fun job hmem =>
      hs job (hfuncs ▸ List.mem_cons_of_mem _ hmem)
    have htmp : ∀ ops, tmp.func ≠ .device ops := hs tmp.func (hfuncs ▸ List.mem_cons_self ..)
    obtain ⟨hnodev, hpicsr⟩ := job_picsr hq htmp hexec
    split at h
    · exact (ih hnodev h).trans hpicsr
    · cases h
      exact hpicsr

theorem updateQueue_picsr {timeStart : BitVec 64} (hs : NoDevice s.sim)
    (h : updateQueue cfg fuel timeStart s = .ok t) : t.picsr = s.picsr := by
  obtain ⟨u, hu, h⟩ := Runs.bind_eq_ok_iff.1 h
  obtain ⟨q, hq, rfl⟩ := withSched_eq_ok hu
  obtain ⟨v, hv, h⟩ := Runs.bind_eq_ok_iff.1 h
  cases h
  change v.sprs sprPICSR = _
  have hnodev : NoDevice { s.sim with sched := q } := by
    unfold NoDevice
    rw [Sched.funcs_charge hq]
    exact hs
  unfold runScheduler at hv
  split at hv
  · have hpass := schedulerPass_picsr hnodev hv
    exact hpass
  · cases hv
    rfl

theorem updateQueue_words {timeStart : BitVec 64} (h : updateQueue cfg fuel timeStart s = .ok t) :
    t.extIntSet = s.extIntSet ∧ t.extIntClr = s.extIntClr := by
  obtain ⟨u, -, h⟩ := Runs.bind_eq_ok_iff.1 h
  obtain ⟨v, -, h⟩ := Runs.bind_eq_ok_iff.1 h
  cases h
  exact ⟨rfl, rfl⟩

theorem singleStep_sprs (s : Sim) : (singleStep s).sprs = s.sprs := by
  unfold singleStep Sim.setStallState
  split <;> rfl

/-- **The lines are levels**: after calls between two iterations, the next iteration takes their
requests, which leaves every line as the last call for it says, and every other line as it was,
unless a line was cleared before it was set last.  The scheduler then runs the jobs that are due,
which change no line unless they are a peripheral's, and no request is left for the iteration after
it. -/
theorem levelsFollow_iff (hpic : cfg.picEnabled = true) (hlevel : cfg.edgeTrigger = false)
    (hset : s.extIntSet = 0) (hclr : s.extIntClr = 0)
    (h : iteration cfg fuel i (requests cfg s calls) = .ok (none, t)) :
    ∃ w u, w.picsr = s.picsr ∧ w.extIntSet = (requests cfg s calls).extIntSet ∧
      w.extIntClr = (requests cfg s calls).extIntClr ∧ takeRequests cfg w = .ok u ∧
      (LevelsFollow calls s.picsr u.picsr ↔
        ∀ i, ¬(.clear i ∈ calls ∧ levelAfter i false calls = true)) ∧
      updateQueue cfg fuel s.sim.cycles u = .ok t ∧ (NoDevice u.sim → t.picsr = u.picsr) ∧
      t.extIntSet = 0 ∧ t.extIntClr = 0 := by
  unfold iteration at h
  rw [requests_sim] at h
  split at h
  case isTrue => cases h
  case isFalse =>
    obtain ⟨q, hclock, h⟩ := Runs.bind_eq_ok_iff.1 h
    dsimp only at h
    split at h
    case isTrue => cases h
    case isFalse =>
      obtain ⟨t', h, ht⟩ := Runs.map_eq_ok_iff.1 h
      cases ht
      obtain ⟨u, hu, h⟩ := Runs.bind_eq_ok_iff.1 h
      have hpicsr : q.sprs sprPICSR = s.picsr := cpuClock_keeps (picsr_keeps hlevel _) rfl hclock
      have hwords := @requests_encodes cfg s calls _ _ hlevel (hset ▸ encodes_zero)
        (hclr ▸ encodes_zero)
      obtain ⟨hwset, hwclr⟩ := hwords
      obtain ⟨w, hu, hset', hclr', hpicsr'⟩ : ∃ w, takeRequests cfg w = .ok u ∧
          w.extIntSet = (requests cfg s calls).extIntSet ∧
          w.extIntClr = (requests cfg s calls).extIntClr ∧
          w.picsr = (singleStep q).sprs sprPICSR := ⟨_, hu, rfl, rfl, rfl⟩
      rw [singleStep_sprs, hpicsr] at hpicsr'
      rw [← hset'] at hwset
      rw [← hclr'] at hwclr
      obtain ⟨huset, huclr, hupicsr⟩ := takeRequests_spec hpic hwset hwclr hu
      obtain ⟨htset, htclr⟩ := updateQueue_words h
      refine ⟨w, u, hpicsr', hset', hclr', hu, levelsFollow_iff_of_taken fun k hk => ?_, h,
        fun hdev => updateQueue_picsr hdev h, htset.trans huset, htclr.trans huclr⟩
      rw [hupicsr k hk, Bool.false_or, Bool.false_or, hpicsr']

end Iteration

/-! ### A line cleared and set again -/

/-- A line that is asserted while interrupts are disabled is pending. -/
theorem reportInterrupt_disabled {cfg : Config} {s : Sim} {line : Fin 32}
    (hpic : cfg.picEnabled = true) (hnone : s.sprs sprPICSR = 0) (hiee : s.srBit srIEE = false) :
    reportInterrupt cfg s line =
      .ok ((s.setSpr sprPMR (s.sprs sprPMR &&& ~~~0x30#32)).setSpr sprPICSR
        (BitVec.twoPow 32 line)) := by
  have hzero : (0 : Word) &&& BitVec.twoPow 32 line = 0 := BitVec.zero_and
  have hor : (0 : Word) ||| BitVec.twoPow 32 line = BitVec.twoPow 32 line := BitVec.zero_or
  unfold reportInterrupt
  simp only [hpic, Bool.not_true, Bool.false_eq_true, if_false]
  rw [Sim.setSpr_sprs_of_ne (by decide), hnone, hzero, hor, if_neg (not_not.2 rfl), if_neg]
  rintro ⟨-, hon⟩
  rw [setSpr_srBit (by decide), setSpr_srBit (by decide), hiee] at hon
  cases hon

theorem takeSet_none {cfg : Config} {s : LibSim} (hs : s.extIntSet = 0) (is : List ℕ) :
    is.foldlM (takeSet cfg) s = .ok s := by
  induction is with
  | nil => rfl
  | cons i is ih =>
    refine Runs.foldlM_cons_eq_ok_iff.2 ⟨s, ?_, ih⟩
    rw [takeSet, hs, if_neg]
    exact Bool.eq_false_iff.1 BitVec.getLsbD_zero

theorem takeClr_none {s : LibSim} (hs : s.extIntClr = 0) (is : List ℕ) :
    is.foldlM takeClr s = .ok s := by
  induction is with
  | nil => rfl
  | cons i is ih =>
    refine Runs.foldlM_cons_eq_ok_iff.2 ⟨s, ?_, ih⟩
    rw [takeClr, hs, if_neg]
    exact Bool.eq_false_iff.1 BitVec.getLsbD_zero

theorem takeRequests_both {cfg : Config} {s : LibSim} (hpic : cfg.picEnabled = true)
    (hset : s.extIntSet = 1) (hclr : s.extIntClr = 1) (hnone : s.picsr = 0)
    (hiee : s.sim.srBit srIEE = false) :
    takeRequests cfg s = .ok { s with
      sim := (s.sim.setSpr sprPMR (s.sim.sprs sprPMR &&& ~~~0x30#32)).setSpr sprPICSR 0
      extIntSet := 0
      extIntClr := 0 } := by
  have hrange : List.range numInts = 0 :: List.range' 1 63 := rfl
  have hsets : takeSets cfg s = .ok { s with
      sim := (s.sim.setSpr sprPMR (s.sim.sprs sprPMR &&& ~~~0x30#32)).setSpr sprPICSR 1
      extIntSet := 0 } := by
    unfold takeSets
    rw [if_pos (by rw [hset]; decide), hrange]
    refine Runs.foldlM_cons_eq_ok_iff.2 ⟨_, ?_, takeSet_none rfl _⟩
    rw [takeSet, hset, if_pos (by decide), dif_pos (by decide),
      reportInterrupt_disabled hpic hnone hiee]
    rfl
  have hclrs : ∀ s : LibSim, s.extIntClr = 1 → takeClrs s = .ok { s with
      sim := clearInterrupt s.sim 0
      extIntClr := 0 } := by
    intro s hs
    unfold takeClrs
    rw [if_pos (by rw [hs]; decide), hrange]
    refine Runs.foldlM_cons_eq_ok_iff.2 ⟨_, ?_, takeClr_none rfl _⟩
    rw [takeClr, hs, if_pos (by decide), dif_pos (by decide)]
    rfl
  refine Runs.bind_eq_ok_iff.2 ⟨_, hsets, ?_⟩
  rw [hclrs]
  · simp only [clearInterrupt, Sim.setSpr_sprs_self, Sim.setSpr_setSpr]
    rfl
  · exact hclr

theorem updateQueue_idle {cfg : Config} {fuel : ℕ} {timeStart : BitVec 64} {s : LibSim} {n : ℤ}
    {q : Sched.State Job Unit} (hn : (s.sim.cycles - timeStart).toInt = n)
    (hq : Sched.charge s.sim.sched n = some q) (hhead : Sched.headDue q = false) :
    updateQueue cfg fuel timeStart s =
      .ok { s with sim := { s.sim with sched := q }, charged := s.charged + n } := by
  unfold updateQueue
  rw [hn]
  dsimp only
  rw [hq]
  refine Runs.bind_eq_ok_iff.2 ⟨_, rfl, Runs.bind_eq_ok_iff.2 ⟨{ s.sim with sched := q }, ?_, rfl⟩⟩
  rw [runScheduler, if_neg (by rw [hhead]; decide)]

/-- An instruction that does not stall the processor, of one cycle. -/
theorem iteration_of_clock {cfg : Config} {fuel : ℕ} {s : LibSim} {t : Sim}
    (hclock : cpuClock cfg s.sim = .ok t) (hdmr : t.sprs sprDMR1 = 0) (hstalled : t.stalled = false)
    (i : Input) (hi : i.breakpoint = false) :
    iteration cfg fuel i s =
      (finishIteration cfg fuel s.sim.cycles i.memCycles
        { s with sim := t, spent := s.spent + i.memCycles }).map fun s => (none, s) := by
  have hstep : singleStep t = t := by
    rw [singleStep, hdmr]
    rfl
  unfold iteration
  rw [hi, hclock]
  change (if (singleStep t).stalled = true then _ else _) = _
  rw [hstep, hstalled]
  rfl

/-- An iteration in which the line is cleared and set again. -/
theorem clearThenSet_run :
    ∃ s₁ t, simReset levelConfig (powerOn 0x601 0x8001 stopTimer) = .ok s₁ ∧
      s₁.sprs sprPICSR = 0 ∧ t.picsr = 0 ∧
      iteration levelConfig 0 ⟨false, 1⟩
        (requests levelConfig (libStart s₁) [.clear 0, .set 0]) = .ok (none, t) := by
  obtain ⟨s₁, hreset, hs₁⟩ := simReset_powerOn levelConfig 0x601 0x8001 stopTimer
  obtain ⟨q, hq, hhead⟩ : ∃ q, Sched.charge resetSched 1 = some q ∧ Sched.headDue q = false :=
    ⟨_, rfl, rfl⟩
  have hclock := cpuClock_movhi levelConfig (s := s₁) (by rw [Sim.srBit, hs₁.sr]; decide)
    (by rw [hs₁.mem, hs₁.pc]; decide)
  generalize hs₂ : movhiDone s₁ 0xe0000000 = s₂ at hclock
  have hsprs : ∀ r, r ≠ sprPPC → s₂.sprs r = s₁.sprs r := fun r hr => hs₂ ▸ updatePc_sprs _ hr
  have hdmr : s₂.sprs sprDMR1 = 0 := (hsprs _ (by decide)).trans hs₁.dmr1
  have hstalled : s₂.stalled = false := hs₂ ▸ hs₁.stalled
  have hsched : s₂.sched = resetSched := hs₂ ▸ hs₁.sched
  have hcycles : s₂.cycles = s₁.cycles := hs₂ ▸ rfl
  have hiee : s₂.srBit srIEE = false := by
    rw [Sim.srBit, Sim.sr, hsprs _ (by decide), ← Sim.sr, hs₁.sr]
    decide
  generalize hw : requests levelConfig (libStart s₁) [.clear 0, .set 0] = w
  have hwsim : w.sim = s₁ := hw ▸ requests_sim
  have hwset : w.extIntSet = 1 := by
    rw [← hw]
    change 0 ||| intBit 0 = 1
    decide
  have hwclr : w.extIntClr = 1 := by
    rw [← hw]
    change 0 ||| intBit 0 = 1
    decide
  have helapsed : (s₂.cycles + BitVec.ofNat 64 1 - w.sim.cycles).toInt = 1 := by
    rw [hwsim, hcycles, BitVec.add_comm, BitVec.add_sub_cancel]
    decide
  have hfinish : ∃ t, t.picsr = 0 ∧
      finishIteration levelConfig 0 w.sim.cycles 1 { w with sim := s₂, spent := w.spent + 1 } =
        .ok t := by
    have htaken := @takeRequests_both levelConfig { w with
      sim := { s₂ with cycles := s₂.cycles + BitVec.ofNat 64 1 }
      spent := w.spent + 1
      advanced := w.advanced + 1 } rfl hwset hwclr ((hsprs _ (by decide)).trans hs₁.picsr) hiee
    refine ⟨_, ?_, Runs.bind_eq_ok_iff.2 ⟨_, htaken, updateQueue_idle helapsed (q := q) ?_ hhead⟩⟩
    · rfl
    · change Sched.charge s₂.sched 1 = some q
      rw [hsched, hq]
  obtain ⟨t, ht, hfinish⟩ := hfinish
  refine ⟨s₁, t, hreset, hs₁.picsr, ht, ?_⟩
  rw [hw, iteration_of_clock (by rw [hwsim]; exact hclock) hdmr hstalled _ rfl]
  exact Runs.map_eq_ok_iff.2 ⟨t, hfinish, rfl⟩

/-- The line was set last, and is not pending after the iteration. -/
theorem clearThenSet_lost :
    ∃ s₁ t, simReset levelConfig (powerOn 0x601 0x8001 stopTimer) = .ok s₁ ∧
      iteration levelConfig 0 ⟨false, 1⟩
        (requests levelConfig (libStart s₁) [.clear 0, .set 0]) = .ok (none, t) ∧
      ¬LevelsFollow [.clear 0, .set 0] (libStart s₁).picsr t.picsr := by
  obtain ⟨s₁, t, hreset, -, ht, hrun⟩ := clearThenSet_run
  refine ⟨s₁, t, hreset, hrun, fun hfollow => ?_⟩
  have hline := hfollow 0
  rw [ht] at hline
  revert hline
  cases (libStart s₁).picsr.getLsbD (0 : Fin 32).val <;> decide

/-- The condition fails for these calls, and so do the levels. -/
theorem levelsFollow_clearThenSet :
    ∃ s₁ t w u, simReset levelConfig (powerOn 0x601 0x8001 stopTimer) = .ok s₁ ∧
      w.extIntSet = 1 ∧ w.extIntClr = 1 ∧ takeRequests levelConfig w = .ok u ∧
      ¬LevelsFollow [.clear 0, .set 0] (libStart s₁).picsr u.picsr ∧
      updateQueue levelConfig 0 s₁.cycles u = .ok t := by
  obtain ⟨s₁, t, hreset, -, -, hrun⟩ := clearThenSet_run
  obtain ⟨w, u, -, hset, hclr, htaken, hiff, hqueue, -⟩ := levelsFollow_iff rfl rfl rfl rfl hrun
  have hbit : 0 ||| intBit 0 = 1 := by decide
  refine ⟨s₁, t, w, u, hreset, hset.trans hbit, hclr.trans hbit, htaken, fun hfollow => ?_,
    hqueue⟩
  exact hiff.1 hfollow 0 ⟨.head _, by decide⟩

end Cpu
end Or1ksim
