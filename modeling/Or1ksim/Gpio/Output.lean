import Or1ksim.Gpio.Basic

/-!
# The outputs of the GPIO

The guest writes `RGPIO_OUT` and `RGPIO_OE` while the device is clocked.

* `Access` — a write of one of the two registers, or a system clock;
* `lastOut`, `lastOe` — the values written last;
* `EnabledSince` — an output is enabled at every clock since `RGPIO_OUT` was last written;
* `output_after_clock` — **an output is driven high if it is so in both registers and has been
  enabled since `RGPIO_OUT` was written**;
* `output_iff` — so the order of the writes matters unless the outputs stay enabled.
-/

namespace Or1ksim
namespace Gpio

variable {W : ℕ}

/-- A write of one of the two output registers, or a system clock. -/
inductive Access where
  | out (value : Word)
  | oe (value : Word)
  | clock
deriving DecidableEq

/-- What the device does. -/
def Access.exec : Access → State W → State W
  | .out value => gpioWrite32 rgpioOut value
  | .oe value => gpioWrite32 rgpioOe value
  | .clock => gpioClock

/-- A sequence of accesses. -/
def run (s : State W) (as : List Access) : State W := as.foldl (fun s a => a.exec s) s

/-- The value last written to `RGPIO_OUT`, or the one that was there before. -/
def lastOut (old : BitVec W) : List Access → BitVec W
  | [] => old
  | .out value :: as => lastOut (value.setWidth W) as
  | _ :: as => lastOut old as

/-- The value last written to `RGPIO_OE`, or the one that was there before. -/
def lastOe (old : BitVec W) : List Access → BitVec W
  | [] => old
  | .oe value :: as => lastOe (value.setWidth W) as
  | _ :: as => lastOe old as

/-- Output `i` is enabled at every clock since `RGPIO_OUT` was last written. -/
def EnabledSince (oe : BitVec W) (as : List Access) (i : ℕ) : Prop :=
  ∀ pre post, as = pre ++ .clock :: post → (∀ value, .out value ∉ post) →
    (lastOe oe pre).getLsbD i = true

/-- No output is replaced with an auxiliary input, and the device runs on the system clock. -/
structure Plain (s : State W) : Prop where
  aux : s.next.aux = 0
  currClock : s.curr.ctrl.getLsbD ctrlECLK = false
  nextClock : s.next.ctrl.getLsbD ctrlECLK = false

/-! ### One access -/

/-- The interrupt of the inputs touches neither the outputs nor the choice of the clock. -/
theorem inputInterrupt_next (s : State W) :
    (inputInterrupt s).next.out = s.next.out ∧ (inputInterrupt s).next.oe = s.next.oe ∧
      (inputInterrupt s).next.aux = s.next.aux ∧
      (inputInterrupt s).next.ctrl.getLsbD ctrlECLK = s.next.ctrl.getLsbD ctrlECLK := by
  unfold inputInterrupt
  dsimp only
  split
  · refine ⟨rfl, rfl, rfl, ?_⟩
    simp only [State.emit, Bits.getLsbD_setBit]
    simp [ctrlECLK, ctrlINTS]
  · exact ⟨rfl, rfl, rfl, rfl⟩

/-- A clock of the device: the message to the outside world changes nothing of the registers. -/
theorem gpioDeviceClock_eq (s : State W) : ∃ t : State W,
    gpioDeviceClock s = { inputInterrupt t with curr := (inputInterrupt t).next } ∧
      t.next = nextPins s.auxiliaryInputs s.next := by
  unfold gpioDeviceClock
  dsimp only
  split
  · exact ⟨_, rfl, rfl⟩
  · exact ⟨_, rfl, rfl⟩

/-- A clock of a plain device keeps the enabled outputs, drives them, and leaves it plain. -/
theorem gpioClock_plain {s : State W} (hs : Plain s) :
    (gpioClock s).next.out = s.next.out &&& s.next.oe ∧ (gpioClock s).next.oe = s.next.oe ∧
      (gpioClock s).curr.out = (gpioClock s).next.out ∧ Plain (gpioClock s) := by
  have hpins : (nextPins s.auxiliaryInputs s.next).out = s.next.out &&& s.next.oe := by
    simp [nextPins, hs.aux]
  have hclock : gpioClock s = (gpioDeviceClock s).emit .scheduleClock := by
    simp [gpioClock, hs.currClock]
  obtain ⟨t, ht, hnext⟩ := gpioDeviceClock_eq s
  obtain ⟨hout, hoe, haux, hctrl⟩ := inputInterrupt_next t
  rw [hclock, ht]
  refine ⟨?_, ?_, rfl, ?_⟩
  · exact hout.trans (by rw [hnext, hpins])
  · exact hoe.trans (by rw [hnext]; rfl)
  · have hselect : (inputInterrupt t).next.ctrl.getLsbD ctrlECLK = false := by
      rw [hctrl, hnext]
      exact hs.nextClock
    exact ⟨haux.trans (by rw [hnext]; exact hs.aux), hselect, hselect⟩

/-- No access of this kind makes a plain device another one. -/
theorem Plain.exec {s : State W} (hs : Plain s) (a : Access) : Plain (a.exec s) := by
  cases a with
  | out value => exact ⟨hs.aux, hs.currClock, hs.nextClock⟩
  | oe value => exact ⟨hs.aux, hs.currClock, hs.nextClock⟩
  | clock => exact (gpioClock_plain hs).2.2.2

/-! ### Runs -/

theorem enabledSince_nil (oe : BitVec W) (i : ℕ) : EnabledSince oe [] i :=
  fun pre _ h => absurd h.symm (List.append_ne_nil_of_right_ne_nil pre (List.cons_ne_nil _ _))

/-- The first access: at a clock the output must be enabled, unless it is written later on. -/
theorem enabledSince_cons {oe : BitVec W} {a : Access} {as : List Access} {i : ℕ} :
    EnabledSince oe (a :: as) i ↔
      (a = .clock → (∀ value, .out value ∉ as) → oe.getLsbD i = true) ∧
        EnabledSince (lastOe oe [a]) as i := by
  have hcons : ∀ pre, lastOe oe (a :: pre) = lastOe (lastOe oe [a]) pre := by
    intro pre
    cases a <;> rfl
  constructor
  · intro h
    refine ⟨fun ha hlast => h [] as (by rw [ha]; rfl) hlast, fun pre post has hlast => ?_⟩
    rw [← hcons]
    exact h (a :: pre) post (by rw [has]; rfl) hlast
  · rintro ⟨hhead, htail⟩ pre post has hlast
    cases pre with
    | nil =>
      obtain ⟨rfl, rfl⟩ := List.cons_eq_cons.1 has
      exact hhead rfl hlast
    | cons b pre =>
      obtain ⟨rfl, rfl⟩ := List.cons_eq_cons.1 has
      rw [hcons]
      exact htail pre post rfl hlast

theorem lastOut_of_not_mem {old : BitVec W} {as : List Access} (h : ∀ value, .out value ∉ as) :
    lastOut old as = old := by
  induction as with
  | nil => rfl
  | cons a as ih =>
    cases a with
    | out value => exact absurd List.mem_cons_self (h value)
    | oe value => exact ih fun v hv => h v (.tail _ hv)
    | clock => exact ih fun v hv => h v (.tail _ hv)

theorem lastOut_of_mem {old : BitVec W} {as : List Access} {value : Word} (h : .out value ∈ as)
    (new : BitVec W) : lastOut old as = lastOut new as := by
  induction as with
  | nil => exact absurd h List.not_mem_nil
  | cons a as ih =>
    cases a with
    | out v => rfl
    | oe v => exact ih ((List.mem_cons.1 h).resolve_left nofun)
    | clock => exact ih ((List.mem_cons.1 h).resolve_left nofun)

/-- **The registers after a sequence of accesses**: of the value last written to `RGPIO_OUT` those
bits are left that have been enabled since. -/
theorem run_plain {s : State W} (hs : Plain s) (as : List Access) :
    Plain (run s as) ∧ (run s as).next.oe = lastOe s.next.oe as ∧
      ∀ i, (run s as).next.out.getLsbD i = true ↔
        (lastOut s.next.out as).getLsbD i = true ∧ EnabledSince s.next.oe as i := by
  induction as generalizing s with
  | nil => exact ⟨hs, rfl, fun i => (and_iff_left (enabledSince_nil _ i)).symm⟩
  | cons a as ih =>
    obtain ⟨hplain, hoe, hout⟩ := ih (hs.exec a)
    change Plain (run (a.exec s) as) ∧ (run (a.exec s) as).next.oe = _ ∧
      ∀ i, (run (a.exec s) as).next.out.getLsbD i = true ↔ _
    refine ⟨hplain, ?_, fun i => ?_⟩
    · rw [hoe]
      cases a with
      | out value => rfl
      | oe value => rfl
      | clock => rw [Access.exec, (gpioClock_plain hs).2.1]; rfl
    · rw [hout, enabledSince_cons]
      cases a with
      | out value => exact and_congr_right fun _ => (and_iff_right nofun).symm
      | oe value => exact and_congr_right fun _ => (and_iff_right nofun).symm
      | clock =>
        obtain ⟨hkept, hsame, -, -⟩ := gpioClock_plain hs
        rw [Access.exec, hkept, hsame]
        -- What the clock masks does not matter if the register is written afterwards.
        by_cases hwritten : ∃ value, .out value ∈ as
        · obtain ⟨value, hmem⟩ := hwritten
          rw [lastOut_of_mem hmem s.next.out]
          refine and_congr_right fun _ => (and_iff_right fun _ hno => ?_).symm
          exact absurd hmem (hno value)
        · rw [not_exists] at hwritten
          rw [lastOut_of_not_mem hwritten, BitVec.getLsbD_and, Bool.and_eq_true, and_assoc]
          have hlast : lastOut s.next.out (.clock :: as) = s.next.out :=
            (lastOut_of_not_mem hwritten : lastOut s.next.out as = s.next.out)
          rw [hlast]
          refine and_congr_right fun _ => and_congr_left fun _ => ?_
          exact ⟨fun h _ _ => h, fun h => h rfl hwritten⟩

/-- **What is driven after a clock**: an output is high if it is so in the value last written to
`RGPIO_OUT` and in the one last written to `RGPIO_OE`, and has been enabled since the former. -/
theorem output_after_clock {s : State W} (hs : Plain s) (as : List Access) (i : ℕ) :
    (run s (as ++ [.clock])).curr.out.getLsbD i = true ↔
      (lastOut s.next.out as &&& lastOe s.next.oe as).getLsbD i = true ∧
        EnabledSince s.next.oe as i := by
  obtain ⟨hplain, hoe, hout⟩ := run_plain hs as
  obtain ⟨hkept, -, hdriven, -⟩ := gpioClock_plain hplain
  have hrun : run s (as ++ [.clock]) = gpioClock (run s as) := by
    rw [run, List.foldl_append]
    rfl
  rw [hrun, hdriven, hkept, hoe, BitVec.getLsbD_and, BitVec.getLsbD_and, Bool.and_eq_true,
    Bool.and_eq_true, hout, and_right_comm]

/-! ### The order of the writes -/

/-- Every output that ends enabled and high has been enabled since `RGPIO_OUT` was written. -/
def StaysEnabled (s : State W) (as : List Access) : Prop :=
  ∀ i, (lastOut s.next.out as &&& lastOe s.next.oe as).getLsbD i = true →
    EnabledSince s.next.oe as i

/-- **The output after a clock is `OUT & OE` exactly if the outputs that end enabled and high have
been enabled at every clock since `RGPIO_OUT` was last written, and two sequences with the same last
values end with the same output exactly if they agree on which of these outputs have been.** -/
theorem output_iff {s : State W} (hs : Plain s) (as : List Access) :
    ((run s (as ++ [.clock])).curr.out = lastOut s.next.out as &&& lastOe s.next.oe as ↔
        StaysEnabled s as) ∧
      ∀ bs, lastOut s.next.out bs = lastOut s.next.out as →
        lastOe s.next.oe bs = lastOe s.next.oe as →
        ((run s (as ++ [.clock])).curr.out = (run s (bs ++ [.clock])).curr.out ↔
          ∀ i, (lastOut s.next.out as &&& lastOe s.next.oe as).getLsbD i = true →
            (EnabledSince s.next.oe as i ↔ EnabledSince s.next.oe bs i)) := by
  have hext : ∀ x y : BitVec W, x = y ↔ ∀ i, x.getLsbD i = true ↔ y.getLsbD i = true := by
    refine fun x y => ⟨fun h i => by rw [h], fun h => ?_⟩
    exact BitVec.eq_of_getLsbD_eq fun i _ => Bool.eq_iff_iff.2 (h i)
  constructor
  · rw [hext, StaysEnabled]
    refine forall_congr' fun i => ?_
    rw [output_after_clock hs]
    exact and_iff_left_iff_imp
  · intro bs hout hoe
    rw [hext]
    refine forall_congr' fun i => ?_
    rw [output_after_clock hs, output_after_clock hs, hout, hoe]
    exact and_congr_right_iff

theorem plain_reset (vapi : Bool) : Plain (reset vapi : State W) :=
  ⟨rfl, BitVec.getLsbD_zero, BitVec.getLsbD_zero⟩

/-- Outputs that are enabled before a value is written to them are driven, and stay driven while
others are enabled; and one that is enabled after its value has been clocked is not. -/
theorem output_iff_enabled :
    (run (reset false : State 32) ([.oe 5, .clock, .out 5, .clock, .oe 7] ++ [.clock])).curr.out =
        5 ∧
      ¬StaysEnabled (reset false : State 32) [.oe 5, .out 7, .clock, .oe 7] := by
  constructor
  · refine (output_iff (plain_reset false) [.oe 5, .clock, .out 5, .clock, .oe 7]).1.2 ?_
    intro i hi pre post heq hout
    match pre with
    | [] | [_, _] | [_, _, _, _] | [_, _, _, _, _] => cases heq
    | [_] =>
      -- The value is written after this clock.
      cases heq
      exact absurd List.mem_cons_self (hout 5)
    | [_, _, _] =>
      cases heq
      exact hi
    | _ :: _ :: _ :: _ :: _ :: _ :: _ => cases heq
  · refine fun hstays => absurd ((output_iff (plain_reset false) _).1.2 hstays) ?_
    decide +kernel

/-- **A value that is clocked while its outputs are disabled is lost**: from a reset, `OUT = 5`
before `OE = 5` drives nothing if there is a clock in between, and 5 without one or in the other
order. -/
theorem output_lost :
    (run (reset false : State 32) ([.out 5, .clock, .oe 5] ++ [.clock])).curr.out = 0 ∧
      (run (reset false : State 32) ([.out 5, .oe 5] ++ [.clock])).curr.out = 5 ∧
      (run (reset false : State 32) ([.oe 5, .clock, .out 5] ++ [.clock])).curr.out = 5 := by
  decide +kernel

end Gpio
end Or1ksim
