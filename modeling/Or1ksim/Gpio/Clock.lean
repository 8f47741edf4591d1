import Or1ksim.Gpio.Output

/-!
# The external clock of the GPIO

The device runs on the external clock if `RGPIO_CTRL_ECLK` is set.

* `activeEdges` — the edges of a sequence of levels that should clock the device;
* `ClocksDevice`, `deviceClocks` — the calls of `gpio_device_clock`;
* `Reachable`, `Reachable.lastLevel` — the level that the device holds while it waits for an edge;
* `deviceClocks_of_waiting`, `deviceClocks_of_clocked` — **one clock at most**: the level that is
  compared is refreshed by a clock only, so that the inactive half of the external clock is not
  seen;
* `deviceClocks_iff` — so the clocks are the active edges as long as there is one at most.
-/

namespace Or1ksim
namespace Gpio

variable {W : ℕ}

/-- The edges from the inactive level of the external clock to its active one, from level `last`.
The inactive level is `negativeEdge`. -/
def activeEdges (negativeEdge : Bool) : Bool → List Bool → ℕ
  | _, [] => 0
  | last, value :: values =>
    (if last = negativeEdge ∧ value ≠ negativeEdge then 1 else 0) +
      activeEdges negativeEdge value values

/-- The device takes over a level of the external clock. -/
def State.setLevel (value : Bool) (s : State W) : State W :=
  { s with next := { s.next with externalClock := value } }

/-- The level makes `gpio_external_clock` call `gpio_device_clock`. -/
def ClocksDevice (value : Bool) (s : State W) : Prop :=
  s.curr.ctrl.getLsbD ctrlECLK = true ∧ value ≠ s.curr.externalClock ∧
    value ≠ s.curr.ctrl.getLsbD ctrlNEC
deriving Decidable

theorem gpioExternalClock_eq (value : Bool) (s : State W) :
    gpioExternalClock value s =
      if ClocksDevice value s then gpioDeviceClock (s.setLevel value) else s.setLevel value :=
  rfl

/-- The number of calls of `gpio_device_clock` while the levels are delivered. -/
def deviceClocks : State W → List Bool → ℕ
  | _, [] => 0
  | s, value :: values =>
    (if ClocksDevice value s then 1 else 0) + deviceClocks (gpioExternalClock value s) values

/-- The device runs on the external clock, and goes on to do so with the same active edge. -/
structure ExternalMode (s : State W) : Prop where
  curr : s.curr.ctrl.getLsbD ctrlECLK = true
  next : s.next.ctrl.getLsbD ctrlECLK = true
  edge : s.next.ctrl.getLsbD ctrlNEC = s.curr.ctrl.getLsbD ctrlNEC

/-! ### What the device does -/

/-- What happens to the device. -/
inductive Input (W : ℕ) where
  | reset
  | clock
  | doInt
  | write (addr : Addr) (value : Word)
  | vapi (which : ℕ) (data : BitVec W)
deriving DecidableEq

/-- `gpio_reset` after the first one, and the other functions of the device. -/
def Input.exec : Input W → State W → State W
  | .reset => fun s => s.emit .scheduleClock
  | .clock => gpioClock
  | .doInt => gpioDoInt
  | .write addr value => gpioWrite32 addr value
  | .vapi which data => gpioVapiRead which data

/-- The states of a device that starts from its reset. -/
inductive Reachable : State W → Prop where
  | init (vapi : Bool) : Reachable (reset vapi)
  | step {s : State W} (hs : Reachable s) (i : Input W) : Reachable (i.exec s)

/-! ### One clock -/

/-- The interrupt of the inputs touches neither the level nor the choice of the edge. -/
theorem inputInterrupt_level (s : State W) :
    (inputInterrupt s).next.externalClock = s.next.externalClock ∧
      (inputInterrupt s).next.ctrl.getLsbD ctrlNEC = s.next.ctrl.getLsbD ctrlNEC := by
  unfold inputInterrupt
  dsimp only
  split
  · refine ⟨rfl, ?_⟩
    simp only [State.emit, Bits.getLsbD_setBit]
    simp [ctrlNEC, ctrlINTS]
  · exact ⟨rfl, rfl⟩

/-- After a clock both halves hold the same registers, with the level and the mode they had. -/
theorem gpioDeviceClock_spec (s : State W) :
    (gpioDeviceClock s).curr = (gpioDeviceClock s).next ∧
      (gpioDeviceClock s).next.externalClock = s.next.externalClock ∧
      (gpioDeviceClock s).next.ctrl.getLsbD ctrlECLK = s.next.ctrl.getLsbD ctrlECLK ∧
      (gpioDeviceClock s).next.ctrl.getLsbD ctrlNEC = s.next.ctrl.getLsbD ctrlNEC := by
  obtain ⟨t, ht, hnext⟩ := gpioDeviceClock_eq s
  obtain ⟨hlevel, hedge⟩ := inputInterrupt_level t
  obtain ⟨-, -, -, hmode⟩ := inputInterrupt_next t
  rw [ht]
  refine ⟨rfl, hlevel.trans ?_, hmode.trans ?_, hedge.trans ?_⟩
  · rw [hnext, nextPins]
  · rw [hnext, nextPins]
  · rw [hnext, nextPins]

/-- A level leaves the device in its mode, and is taken over.  It becomes the current one only with
a clock. -/
theorem ExternalMode.external {s : State W} (hs : ExternalMode s) (value : Bool) :
    ExternalMode (gpioExternalClock value s) ∧
      (gpioExternalClock value s).next.externalClock = value ∧
      (gpioExternalClock value s).curr.ctrl.getLsbD ctrlNEC = s.curr.ctrl.getLsbD ctrlNEC ∧
      (gpioExternalClock value s).curr.externalClock =
        if ClocksDevice value s then value else s.curr.externalClock := by
  rw [gpioExternalClock_eq]
  split_ifs with hclock
  · obtain ⟨hsame, hlevel, hmode, hedge⟩ := gpioDeviceClock_spec (s.setLevel value)
    have hcurr := hmode.trans hs.next
    refine ⟨⟨?_, hcurr, ?_⟩, hlevel, ?_, ?_⟩
    · rw [hsame]; exact hcurr
    · rw [hsame]
    · rw [hsame, hedge]; exact hs.edge
    · rw [hsame]; exact hlevel
  · exact ⟨⟨hs.curr, hs.next, hs.edge⟩, rfl, rfl, rfl⟩

/-! ### The level that is compared -/

/-- While the device runs on the external clock, a level that differs from the current one is the
inactive one: with the active one the device would have been clocked. -/
def LastLevel (s : State W) : Prop :=
  s.curr.ctrl.getLsbD ctrlECLK = true → s.next.externalClock ≠ s.curr.externalClock →
    s.next.externalClock = s.curr.ctrl.getLsbD ctrlNEC

theorem LastLevel.of_clock (s : State W) : LastLevel (gpioDeviceClock s) := by
  intro _ hne
  rw [(gpioDeviceClock_spec s).1] at hne
  exact absurd rfl hne

theorem LastLevel.external (value : Bool) (s : State W) :
    LastLevel (gpioExternalClock value s) := by
  rw [gpioExternalClock_eq]
  split_ifs with hclock
  · exact .of_clock _
  · intro hmode hne
    by_contra hactive
    exact hclock ⟨hmode, hne, hactive⟩

/-- What does not touch the current registers nor the level keeps it. -/
theorem LastLevel.of_eq {s t : State W} (hs : LastLevel s) (hcurr : t.curr = s.curr)
    (hlevel : t.next.externalClock = s.next.externalClock) : LastLevel t := by
  intro hmode hne
  rw [hcurr] at hmode hne ⊢
  rw [hlevel] at hne ⊢
  exact hs hmode hne

theorem gpioWrite32_level (addr : Addr) (value : Word) (s : State W) :
    (gpioWrite32 addr value s).curr = s.curr ∧
      (gpioWrite32 addr value s).next.externalClock = s.next.externalClock := by
  unfold gpioWrite32
  dsimp only
  split_ifs <;> exact ⟨rfl, rfl⟩

theorem LastLevel.vapi {s : State W} (hs : LastLevel s) (which : ℕ) (data : BitVec W) :
    LastLevel (gpioVapiRead which data s) := by
  unfold gpioVapiRead
  split
  case h_3 => exact .external _ s
  all_goals exact hs.of_eq rfl rfl

theorem Reachable.lastLevel {s : State W} (hs : Reachable s) : LastLevel s := by
  induction hs with
  | init vapi => exact fun _ hne => absurd rfl hne
  | step hs i ih =>
    cases i with
    | reset => exact ih.of_eq rfl rfl
    | clock =>
      rw [Input.exec, gpioClock]
      split_ifs with hmode
      · exact ih.of_eq rfl rfl
      · exact (LastLevel.of_clock _).of_eq rfl rfl
    | doInt => exact ih.of_eq rfl rfl
    | write addr value =>
      obtain ⟨hcurr, hlevel⟩ := gpioWrite32_level addr value _
      exact ih.of_eq hcurr hlevel
    | vapi which data => exact ih.vapi which data

/-! ### Sequences of levels -/

/-- **A device that holds the active level is not clocked again**, whatever the levels. -/
theorem deviceClocks_of_clocked {s : State W} (hs : ExternalMode s)
    (hactive : s.curr.externalClock ≠ s.curr.ctrl.getLsbD ctrlNEC) (values : List Bool) :
    deviceClocks s values = 0 := by
  induction values generalizing s with
  | nil => rfl
  | cons value values ih =>
    have hno : ¬ClocksDevice value s := by
      rintro ⟨-, hne, hedge⟩
      exact hne ((Bool.eq_not.2 hedge).trans (Bool.eq_not.2 hactive).symm)
    obtain ⟨hmode, -, hedge, hlevel⟩ := hs.external value
    rw [if_neg hno] at hlevel
    rw [deviceClocks, if_neg hno, ih hmode (by rwa [hlevel, hedge])]

/-- A device that holds the inactive level is clocked at the first active one, and then never again.
-/
theorem deviceClocks_of_waiting {s : State W} (hs : ExternalMode s)
    (hinactive : s.curr.externalClock = s.curr.ctrl.getLsbD ctrlNEC) (values : List Bool) :
    deviceClocks s values =
      if ∃ value ∈ values, value ≠ s.curr.ctrl.getLsbD ctrlNEC then 1 else 0 := by
  induction values generalizing s with
  | nil => simp [deviceClocks]
  | cons value values ih =>
    obtain ⟨hmode, -, hedge, hlevel⟩ := hs.external value
    by_cases hvalue : value = s.curr.ctrl.getLsbD ctrlNEC
    · have hno : ¬ClocksDevice value s := fun h => h.2.2 hvalue
      rw [if_neg hno] at hlevel
      rw [deviceClocks, if_neg hno, ih hmode (by rw [hlevel, hedge, hinactive]), hedge,
        Nat.zero_add]
      simp [hvalue]
    · have hyes : ClocksDevice value s := ⟨hs.curr, by rwa [hinactive], hvalue⟩
      rw [if_pos hyes] at hlevel
      rw [deviceClocks, if_pos hyes, deviceClocks_of_clocked hmode (by rwa [hlevel, hedge]),
        if_pos ⟨value, List.mem_cons_self, hvalue⟩]

/-- From the inactive level there is an edge if there is an active level. -/
theorem activeEdges_eq_zero_iff (negativeEdge : Bool) (values : List Bool) :
    activeEdges negativeEdge negativeEdge values = 0 ↔
      ¬∃ value ∈ values, value ≠ negativeEdge := by
  induction values with
  | nil => simp [activeEdges]
  | cons value values ih =>
    by_cases hvalue : value = negativeEdge
    · subst hvalue
      simp [activeEdges, ih]
    · simp [activeEdges, hvalue]

/-- **The device is clocked at every active edge of the external clock exactly if there is no such
edge, or one only and the device holds the inactive level.** -/
theorem deviceClocks_iff {s : State W} (hs : Reachable s) (hmode : ExternalMode s)
    (values : List Bool) :
    deviceClocks s values =
        activeEdges (s.curr.ctrl.getLsbD ctrlNEC) s.next.externalClock values ↔
      activeEdges (s.curr.ctrl.getLsbD ctrlNEC) s.next.externalClock values = 0 ∨
        activeEdges (s.curr.ctrl.getLsbD ctrlNEC) s.next.externalClock values = 1 ∧
          s.curr.externalClock = s.curr.ctrl.getLsbD ctrlNEC := by
  by_cases hinactive : s.curr.externalClock = s.curr.ctrl.getLsbD ctrlNEC
  · have hlast : s.next.externalClock = s.curr.ctrl.getLsbD ctrlNEC := by
      by_contra hne
      exact hne (hs.lastLevel hmode.curr (by rwa [hinactive]))
    have hedges := activeEdges_eq_zero_iff (s.curr.ctrl.getLsbD ctrlNEC) values
    rw [deviceClocks_of_waiting hmode hinactive, hlast]
    split_ifs with hany
    · have hpos := mt hedges.1 (not_not_intro hany)
      simp only [hinactive, and_true]
      omega
    · simp [hedges.2 hany]
  · rw [deviceClocks_of_clocked hmode hinactive]
    simp [hinactive, eq_comm]

/-- A device that has been put on the external clock. -/
def externalDevice : State 32 :=
  (Input.clock : Input 32).exec ((Input.write rgpioCtrl 1).exec (reset false))

theorem externalDevice_reachable : Reachable externalDevice :=
  .step (.step (.init false) (.write rgpioCtrl 1)) .clock

/-- One pulse of the external clock is one clock, and a train of two pulses is not two. -/
theorem deviceClocks_iff_pulse :
    deviceClocks externalDevice [false, true, true, false] =
        activeEdges false false [false, true, true, false] ∧
      activeEdges false false [false, true, true, false] = 1 ∧
      deviceClocks externalDevice [true, false, true, false] ≠
        activeEdges false false [true, false, true, false] := by
  have hiff := deviceClocks_iff externalDevice_reachable ⟨rfl, rfl, rfl⟩
  refine ⟨(hiff _).2 (.inr ⟨by decide, rfl⟩), by decide, fun hall => ?_⟩
  exact absurd ((hiff _).1 hall) (by decide)

/-- **A train of pulses is one clock too**: the second of two rising edges is not seen. -/
theorem second_edge_missed :
    Reachable externalDevice ∧ ExternalMode externalDevice ∧
      externalDevice.next.externalClock = false ∧
      deviceClocks externalDevice [true, false, true] = 1 ∧
      activeEdges (externalDevice.curr.ctrl.getLsbD ctrlNEC) false [true, false, true] = 2 :=
  ⟨externalDevice_reachable, ⟨rfl, rfl, rfl⟩, rfl, by decide, by decide⟩

end Gpio
end Or1ksim
