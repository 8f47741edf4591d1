import Or1ksim.Eth.Interrupts

/-!
# The descriptor indices of the Ethernet controller

* `InRange` — both indices name descriptors, and the transmitter's is one of its own;
* `Fits` — the writes and packets that keep them there;
* `bd_indices_in_range` — **the indices stay in range in every run in which `TX_BD_NUM` leaves a
  receive descriptor and is not lowered below the index of a running transmitter, and in which the
  last descriptor of `bd_ram` wraps**;
* `bd_indices_overrun` — they do not otherwise.
-/

namespace Or1ksim
namespace Eth

variable {cfg : Config} {s t : State}

/-- Both indices name descriptors, and the transmitter's is one of its own while it runs. -/
def InRange (s : State) : Prop :=
  s.txBdIndex + 1 < ethBdCount ∧ s.rxBdIndex + 1 < ethBdCount ∧
    (s.regs.moder.getLsbD moderTXEN = true → 0 < s.regs.txBdNum → s.txBdIndex < 2 * s.regs.txBdNum)

/-- What keeps the indices in range: descriptors start at even words, and there is one left for the
receiver. -/
structure Ranged (s : State) : Prop where
  inRange : InRange s
  txEven : s.txBdIndex % 2 = 0
  rxEven : s.rxBdIndex % 2 = 0
  txBdNum : 2 * s.regs.txBdNum + 1 < ethBdCount

/-- The descriptor at the end of `bd_ram` wraps: it does so by its flag, and when the transmitter
uses it also if it is the last that is its own. -/
def WrapsAtEnd (cfg : Config) (w : World) (s : State) : Job → Prop
  | .txClock => Sends s → s.regs.txBdNum = 0 → s.txBdIndex + 2 = ethBdCount →
      (s.regs.bdRam s.txBdIndex).getLsbD bdWRAP = true
  | .rxClock => Fills cfg w.arrival s → s.rxBdIndex + 2 = ethBdCount →
      (s.regs.bdRam s.rxBdIndex).getLsbD bdWRAP = true

/-- `TX_BD_NUM` leaves a receive descriptor, and the descriptor of a running transmitter. -/
def Splits (s : State) (value : Word) : Prop :=
  2 * (value &&& 0xff).toNat + 1 < ethBdCount ∧
    (s.regs.moder.getLsbD moderTXEN = true → 0 < (value &&& 0xff).toNat →
      s.txBdIndex < 2 * (value &&& 0xff).toNat)

/-- The event does not lead out of the descriptors. -/
def Fits (cfg : Config) (s : State) : Event → Prop
  | .write addr value _ => regAt addr = some .txBdNum → Splits s value
  | .outside _ => True
  | .schedule w =>
    match Sched.dispatch s.sched with
    | some (some j, q) => WrapsAtEnd cfg w { s with sched := q } j
    | _ => True

section Decidable

instance (s : State) : Decidable (InRange s) := inferInstanceAs (Decidable (_ ∧ _ ∧ _))

instance (s : State) : Decidable (Sends s) := inferInstanceAs (Decidable (_ ∧ _))

instance (cfg : Config) (a : Arrival) (s : State) : Decidable (Fills cfg a s) :=
  inferInstanceAs (Decidable (_ ∧ _ ∧ _ ∧ _))

instance (s : State) (value : Word) : Decidable (Splits s value) :=
  inferInstanceAs (Decidable (_ ∧ _))

instance (cfg : Config) (w : World) (s : State) : (j : Job) → Decidable (WrapsAtEnd cfg w s j)
  | .txClock => inferInstanceAs (Decidable (_ → _))
  | .rxClock => inferInstanceAs (Decidable (_ → _))

instance (cfg : Config) (s : State) : (e : Event) → Decidable (Fits cfg s e)
  | .write _ _ _ => inferInstanceAs (Decidable (_ → _))
  | .outside _ => isTrue trivial
  | .schedule w =>
    match h : Sched.dispatch s.sched with
    | some (some j, q) =>
      decidable_of_iff (WrapsAtEnd cfg w { s with sched := q } j) (by rw [Fits, h])
    | some (none, _) => .isTrue (by rw [Fits, h]; trivial)
    | none => .isTrue (by rw [Fits, h]; trivial)

end Decidable

/-! ### One event -/

theorem lastTxBd_of_pos {n : ℕ} (hn : 0 < n) (hlt : 2 * n + 1 < ethBdCount) :
    lastTxBd n = (n - 1) * 2 := by
  unfold lastTxBd ethBdCount at *
  omega

theorem Ranged.advanceTx {w : Word} (hs : Ranged s)
    (hend : s.regs.txBdNum = 0 → s.txBdIndex + 2 = ethBdCount → w.getLsbD bdWRAP = true) :
    (advanceTx s w).txBdIndex + 1 < ethBdCount ∧ (advanceTx s w).txBdIndex % 2 = 0 ∧
      (0 < s.regs.txBdNum → (advanceTx s w).txBdIndex < 2 * s.regs.txBdNum) := by
  have hnum := hs.txBdNum
  have heven := hs.txEven
  have hlt := hs.inRange.1
  unfold Eth.advanceTx
  split
  · exact ⟨(by decide : 0 + 1 < ethBdCount), rfl, fun h => Nat.mul_pos two_pos h⟩
  · next hno =>
    simp only [Bool.or_eq_true, decide_eq_true_eq, not_or, not_le] at hno
    obtain ⟨hflag, hlast⟩ := hno
    dsimp only
    rcases Nat.eq_zero_or_pos s.regs.txBdNum with hzero | hpos
    · have hnot : s.txBdIndex + 2 ≠ ethBdCount := fun h => hflag (hend hzero h)
      unfold ethBdCount at *
      omega
    · rw [lastTxBd_of_pos hpos hnum] at hlast
      unfold ethBdCount at *
      omega

theorem Ranged.advanceRx {w : Word} (hs : Ranged s)
    (hend : s.rxBdIndex + 2 = ethBdCount → w.getLsbD bdWRAP = true) :
    (advanceRx s w).rxBdIndex + 1 < ethBdCount ∧ (advanceRx s w).rxBdIndex % 2 = 0 := by
  have hnum := hs.txBdNum
  have heven := hs.rxEven
  have hlt := hs.inRange.2.1
  unfold Eth.advanceRx
  split
  · dsimp only
    omega
  · next hno =>
    simp only [Bool.or_eq_true, decide_eq_true_eq, not_or, not_le] at hno
    have hnot : s.rxBdIndex + 2 ≠ ethBdCount := fun h => hno.1 (hend h)
    dsimp only
    unfold ethBdCount at *
    omega

/-- A state with the same mode and split, and indices that are in range too. -/
theorem Ranged.moved (hs : Ranged s) (hmoder : t.regs.moder = s.regs.moder)
    (hnum : t.regs.txBdNum = s.regs.txBdNum)
    (htx : t.txBdIndex = s.txBdIndex ∨ t.txBdIndex + 1 < ethBdCount ∧ t.txBdIndex % 2 = 0 ∧
      (0 < s.regs.txBdNum → t.txBdIndex < 2 * s.regs.txBdNum))
    (hrx : t.rxBdIndex = s.rxBdIndex ∨ t.rxBdIndex + 1 < ethBdCount ∧ t.rxBdIndex % 2 = 0) :
    Ranged t := by
  obtain ⟨⟨htxlt, hrxlt, hown⟩, htxeven, hrxeven, hsplit⟩ := hs
  refine ⟨⟨?_, ?_, ?_⟩, ?_, ?_, ?_⟩
  · rcases htx with h | h
    · rwa [h]
    · exact h.1
  · rcases hrx with h | h
    · rwa [h]
    · exact h.1
  · rw [hmoder, hnum]
    intro hen hpos
    rcases htx with h | h
    · rw [h]
      exact hown hen hpos
    · exact h.2.2 hpos
  · rcases htx with h | h
    · rwa [h]
    · exact h.2.1
  · rcases hrx with h | h
    · rwa [h]
    · exact h.2
  · rwa [hnum]

theorem ranged_jobExec {w : World} {j : Job} (hs : Ranged s) (hend : WrapsAtEnd cfg w s j)
    (h : j.exec cfg w s = .ok t) : Ranged t := by
  cases j with
  | txClock =>
    obtain ⟨v, hv, h⟩ := Runs.bind_eq_ok_iff.1 h
    obtain ⟨q, -, rfl⟩ := withSched_eq_ok h
    obtain ⟨hworks, hrx, hsent⟩ := txWork_spec hv
    refine hs.moved hworks.moder hworks.txBdNum ?_ (.inl hrx)
    rcases hsent with ⟨hsends, htx⟩ | ⟨-, htx⟩
    · right
      dsimp only
      rw [htx]
      exact hs.advanceTx (hend hsends)
    · exact .inl htx
  | rxClock =>
    obtain ⟨v, hv, h⟩ := Runs.bind_eq_ok_iff.1 h
    obtain ⟨q, -, rfl⟩ := withSched_eq_ok h
    obtain ⟨hworks, htx, hfilled⟩ := rxWork_spec hv
    refine hs.moved hworks.moder hworks.txBdNum (.inl htx) ?_
    rcases hfilled with ⟨hfills, hrx⟩ | ⟨-, hrx⟩
    · right
      dsimp only
      rw [hrx]
      exact hs.advanceRx (hend hfills)
    · exact .inl hrx

theorem ranged_ethReset (hs : Ranged s) : Ranged (ethReset cfg s) := by
  unfold ethReset
  split
  · exact hs
  · exact ⟨⟨(by decide : 0 + 1 < ethBdCount), (by decide : 0x40 * 2 + 1 < ethBdCount),
      fun _ _ => (by decide : 0 < 2 * 0x40)⟩, rfl, (by decide : 0x40 * 2 % 2 = 0),
      (by decide : 2 * 0x40 + 1 < ethBdCount)⟩

theorem Ranged.setModer {value : Word} (hs : Ranged s)
    (hown : value.getLsbD moderTXEN = true → 0 < s.regs.txBdNum →
      s.txBdIndex < 2 * s.regs.txBdNum) :
    Ranged { s with regs := { s.regs with moder := value } } :=
  ⟨⟨hs.inRange.1, hs.inRange.2.1, hown⟩, hs.txEven, hs.rxEven, hs.txBdNum⟩

/-- The mode is set.  A transmitter that was running keeps its index, and one that starts does so at
the first descriptor. -/
theorem ranged_writeModer {value : Word} {polls : List Arrival} (hs : Ranged s)
    (h : writeReg cfg value polls s .moder = .ok t) : Ranged t := by
  obtain ⟨u, hu, h⟩ := Runs.bind_eq_ok_iff.1 h
  obtain ⟨w, hw, h⟩ := Runs.bind_eq_ok_iff.1 h
  obtain rfl := Except.ok.inj h
  obtain ⟨v, q, hv, htx, hrx, -, rfl⟩ := writeRxen_spec hu
  obtain ⟨q', i, -, hi, rfl⟩ := writeTxen_spec hw
  have hvs : Ranged v := by
    refine hs.moved hv.moder hv.txBdNum (.inl htx) ?_
    rcases hrx with hrx | hrx
    · exact .inl hrx
    · have hnum := hs.txBdNum
      omega
  have hlast : Ranged { v with txBdIndex := i, sched := q' } := by
    refine hvs.moved rfl rfl ?_ (.inl rfl)
    rcases hi with rfl | ⟨rfl, -⟩
    · exact .inr ⟨(by decide : 0 + 1 < ethBdCount), rfl, fun hpos => Nat.mul_pos two_pos hpos⟩
    · exact .inl rfl
  have hown : value.getLsbD moderTXEN = true → 0 < v.regs.txBdNum → i < 2 * v.regs.txBdNum := by
    intro hen hpos
    rcases hi with rfl | ⟨rfl, hwas⟩
    · exact Nat.mul_pos two_pos hpos
    · exact hvs.inRange.2.2 (hwas hen) hpos
  split
  · refine (ranged_ethReset hlast).setModer ?_
    unfold ethReset
    split
    · exact hown
    · exact fun _ _ => (by decide : 0 < 2 * 0x40)
  · exact hlast.setModer hown

theorem ranged_writeReg {value : Word} {polls : List Arrival} {r : Reg} (hs : Ranged s)
    (hfits : r = .txBdNum → Splits s value) (h : writeReg cfg value polls s r = .ok t) :
    Ranged t := by
  by_cases hmoder : r = .moder
  · subst hmoder
    exact ranged_writeModer hs h
  · by_cases hnum : r = .txBdNum
    · obtain ⟨hsplit, hown⟩ := hfits hnum
      subst hnum
      cases h
      refine ⟨⟨hs.inRange.1, ?_, hown⟩, hs.txEven, ?_, hsplit⟩
      · dsimp only
        omega
      · exact Nat.mul_mod_left _ 2
    · obtain ⟨hworks, htx, hrx⟩ := writeReg_works hmoder hnum h
      exact hs.moved hworks.moder hworks.txBdNum (.inl htx) (.inl hrx)

theorem ranged_event {e : Event} (hs : Ranged s) (hfits : Fits cfg s e)
    (h : e.exec cfg s = .ok t) : Ranged t := by
  have hqueue : ∀ q, Ranged { s with sched := q } := fun q => hs.moved rfl rfl (.inl rfl) (.inl rfl)
  cases e with
  | write addr value polls =>
    have h : ethWrite32 cfg addr value polls s = .ok t := h
    unfold ethWrite32 at h
    split at h
    case h_1 r hr => exact ranged_writeReg hs (fun hnum => hfits (hnum ▸ hr)) h
    case h_2 =>
      cases h
      exact hs
  | outside e =>
    obtain ⟨q, -, rfl⟩ := withSched_eq_ok h
    exact hqueue q
  | schedule w =>
    have h : runJob cfg w s = .ok t := h
    unfold runJob at h
    rw [Fits] at hfits
    split at h
    case h_1 j q hq =>
      rw [hq] at hfits
      exact ranged_jobExec (hqueue q) hfits h
    case h_2 q hq =>
      cases h
      exact hqueue q
    case h_3 => cases h

theorem ranged_secStart (q : Sched.Queue Job) : Ranged (secStart q) :=
  ⟨⟨(by decide : 0 + 1 < ethBdCount), (by decide : 0 + 1 < ethBdCount),
    fun _ h => absurd h (lt_irrefl 0)⟩, rfl, rfl, (by decide : 2 * 0 + 1 < ethBdCount)⟩

/-- **The indices stay in range in every run in which `TX_BD_NUM` leaves a receive descriptor and is
not lowered below the index of a running transmitter, and in which the last descriptor of `bd_ram`
wraps.** -/
theorem bd_indices_in_range {q : Sched.Queue Job} {es : List Event}
    (hfits : Runs.Along (Event.exec cfg) (Fits cfg) (ethReset cfg (secStart q)) es) :
    ∀ pre, pre <+: es → ∀ t, pre.foldlM (Event.exec cfg) (ethReset cfg (secStart q)) = .ok t →
      InRange t := by
  intro pre hpre t h
  have hranged : Ranged t :=
    Runs.foldlM_invariant (fun _ _ _ hs hfits h => ranged_event hs hfits h)
      (ranged_ethReset (ranged_secStart q)) (hfits.of_prefix hpre) h
  exact hranged.inRange

/-- A packet is sent from the first of four descriptors while the receiver waits behind them. -/
theorem bd_indices_in_range_sent :
    ∃ t, [Event.write 0x20 4 [], .write 0x400 0x00048000 [], .write 0x00 3 [],
          .outside (.charge 1), .schedule .quiet].foldlM (Event.exec fileConfig)
        (ethReset fileConfig (secStart Sched.idleQueue)) = .ok t ∧
      t.txBdIndex = 2 ∧ t.rxBdIndex = 8 ∧ InRange t := by
  obtain ⟨t, ht, htest⟩ := Runs.exists_ok_of_any
    (p := fun t : State => decide (t.txBdIndex = 2 ∧ t.rxBdIndex = 8))
    (x := [Event.write 0x20 4 [], .write 0x400 0x00048000 [], .write 0x00 3 [],
        .outside (.charge 1), .schedule .quiet].foldlM (Event.exec fileConfig)
      (ethReset fileConfig (secStart Sched.idleQueue))) (by decide)
  obtain ⟨htx, hrx⟩ := of_decide_eq_true htest
  exact ⟨t, ht, htx, hrx, bd_indices_in_range (by decide) _ (List.prefix_refl _) t ht⟩

/-- **All 128 descriptors may be given to the transmitter, which leaves the receiver with an index
behind them; when it is enabled it reads beyond `bd_ram`.** -/
theorem bd_indices_overrun :
    (¬∀ (cfg : Config) (q : Sched.Queue Job) (es : List Event) (t : State),
      es.foldlM (Event.exec cfg) (ethReset cfg (secStart q)) = .ok t → InRange t) ∧
    [Event.write 0x20 0x80 [], .write 0x00 1 [], .outside (.charge 1),
        .schedule .quiet].foldlM (Event.exec fileConfig)
      (ethReset fileConfig (secStart Sched.idleQueue)) = .error .outOfRange := by
  constructor
  · intro hall
    exact absurd (hall fileConfig Sched.idleQueue [.write 0x20 0x80 []] _ rfl) (by decide)
  · exact Runs.eq_error_of_errorOf (by decide)

end Eth
end Or1ksim
