import Or1ksim.Debug.Matchpoints

/-!
# Watchpoints

The rest of `calculate_watchpoints` (`debug/debug-unit.c`): eight watchpoints are chained from the
matchpoints, two count how often those fire, and all of them may break.

* `firstWatchpoints`, `updateCounters`, `watchpoints` — the array `wp`;
* `calculateWatchpoints` — the function;
* `hits` — how often an access counts; `runAccesses` — a sequence of accesses;
* `counts_iff` — when the counters count.
-/

namespace Or1ksim
namespace Cpu

open Bits

/-! ### The registers -/

-- The counters and the matchpoints are written as literals.
local instance neZero_two : NeZero 2 := ⟨by decide⟩
local instance neZero_eight : NeZero 8 := ⟨by decide⟩

/-- `SPR_DMR2`. -/
def sprDMR2 : Regno := 0x3011

/-- `SPR_DWCR0`, `SPR_DWCR1`. -/
def sprDWCR : Fin 2 → Regno
  | 0 => 0x3012
  | 1 => 0x3013

/-- `SPR_DMR2_WGB`: the watchpoints that generate a break. -/
def dmr2WGB : Word := 0x003ff000

/-- `SPR_DMR2_AWTC_OFF`. -/
def dmr2AWTC : ℕ := 2
/-- `SPR_DMR2_WGB_OFF`. -/
def dmr2WGBOff : ℕ := 12
/-- `SPR_DMR2_WBS_OFF`. -/
def dmr2WBSOff : ℕ := 22

/-- `SPR_DWCR_COUNT`. -/
def dwcrCOUNT : Word := 0x0000ffff
/-- `SPR_DWCR_MATCH`. -/
def dwcrMATCH : Word := 0xffff0000

/-! ### The watchpoints -/

/-- An access that `calculate_watchpoints` is called with. -/
structure Access where
  action : Action
  udata : BitVec 64
deriving DecidableEq

/-- The matchpoints that fire. -/
def mp (s : Sim) (a : Access) (i : ℕ) : Bool :=
  if h : i < 8 then matchpoint s a.action a.udata ⟨i, h⟩ != 0 else false

/-- `match_found`. -/
def matchFound (s : Sim) (a : Access) : Bool := (List.range 8).any (mp s a)

/-- The field of `SPR_DMR1` that chains a watchpoint. -/
def dmr1CW (dmr1 : Word) (i : ℕ) : Word := (dmr1 >>> (2 * i)) &&& 3

/-- A watchpoint from its own condition and the watchpoint before it.  The last case is reserved. -/
def chain (dmr1 : Word) (i : ℕ) (own before : Bool) : Bool :=
  if dmr1CW dmr1 i = 0 then own
  else if dmr1CW dmr1 i = 1 then own && before
  else if dmr1CW dmr1 i = 2 then own || before
  else false

/-- The non-counting watchpoints.  The first would be chained with an external one, which is not
supported. -/
def firstWatchpoints (dmr1 : Word) (mp : ℕ → Bool) : ℕ → Bool
  | 0 => if dmr1CW dmr1 0 = 0 then mp 0 else false
  | i + 1 => chain dmr1 (i + 1) (mp (i + 1)) (firstWatchpoints dmr1 mp i)

/-- The counter that a watchpoint is assigned to. -/
def counterOf (dmr2 : Word) (i : ℕ) : Fin 2 := if dmr2.getLsbD (dmr2AWTC + i) then 1 else 0

/-- `counter0_enabled`, `counter1_enabled`. -/
def counterEnabled (dmr2 : Word) (k : Fin 2) : Bool := dmr2.getLsbD k

/-- One round of the loop that increments the counters, which are of type `short`. -/
def countStep (dmr2 : Word) (wp : ℕ → Bool) (counter : Fin 2 → BitVec 16) (i : ℕ) :
    Fin 2 → BitVec 16 :=
  let k := counterOf dmr2 i
  if counterEnabled dmr2 k && wp i then Function.update counter k (counter k + 1) else counter

/-- `&= ~SPR_DWCR_COUNT` and `|= counter`: the `short` is sign-extended. -/
def storeCount (dwcr : Word) (counter : BitVec 16) : Word :=
  (dwcr &&& ~~~dwcrCOUNT) ||| counter.signExtend 32

/-- "Increment counters." -/
def updateCounters (s : Sim) (wp : ℕ → Bool) : Sim :=
  let dmr2 := s.sprs sprDMR2
  if counterEnabled dmr2 0 || counterEnabled dmr2 1 then
    let counter := (List.range 8).foldl (countStep dmr2 wp) fun k =>
      (s.sprs (sprDWCR k) &&& dwcrCOUNT).setWidth 16
    let s := s.setSpr (sprDWCR 0) (storeCount (s.sprs (sprDWCR 0)) (counter 0))
    s.setSpr (sprDWCR 1) (storeCount (s.sprs (sprDWCR 1)) (counter 1))
  else s

/-- `counter0_matched`, `counter1_matched`. -/
def counterMatched (dwcr : Word) : Bool := dwcr &&& dwcrCOUNT == (dwcr &&& dwcrMATCH) >>> 16

/-- The watchpoints of an access that matches, and the counters after it. -/
def watchpoints (s : Sim) (a : Access) : Sim × (ℕ → Bool) :=
  let dmr1 := s.sprs sprDMR1
  let wp := firstWatchpoints dmr1 (mp s a)
  let s := updateCounters s wp
  let wp8 := chain dmr1 8 (counterMatched (s.sprs (sprDWCR 0))) (wp 7)
  let wp9 := chain dmr1 9 (counterMatched (s.sprs (sprDWCR 1))) wp8
  (s, fun i => if i = 8 then wp8 else if i = 9 then wp9 else wp i)

/-- One round of the last loop: the status bit of a watchpoint that breaks. -/
def breakStep (wp : ℕ → Bool) (r : Word × Bool) (i : ℕ) : Word × Bool :=
  if r.1.getLsbD (dmr2WGBOff + i) && wp i then (r.1 ||| BitVec.twoPow 32 (dmr2WBSOff + i), true)
  else r

/-- `calculate_watchpoints`: the registers after it, and whether there is a breakpoint. -/
def calculateWatchpoints (s : Sim) (a : Access) : Sim × Bool :=
  if !matchFound s a then (s, false)
  else
    let (s, wp) := watchpoints s a
    let (dmr2, found) := (List.range 10).foldl (breakStep wp) (s.sprs sprDMR2, false)
    (s.setSpr sprDMR2 dmr2, found)

/-! ### The fields of a counter -/

/-- The count. -/
def countField (dwcr : Word) : BitVec 16 := dwcr.setWidth 16

/-- The value to match. -/
def matchField (dwcr : Word) : BitVec 16 := (dwcr >>> 16).setWidth 16

section Fields

variable {dwcr : Word} {counter : BitVec 16}

end Fields

/-! ### How often an access counts -/

/-- The non-counting watchpoints that an access fires and that are assigned to a counter, if it is
enabled. -/
def hits (s : Sim) (a : Access) (k : Fin 2) : ℕ :=
  (List.range 8).countP fun i =>
    counterEnabled (s.sprs sprDMR2) k && counterOf (s.sprs sprDMR2) i == k &&
      firstWatchpoints (s.sprs sprDMR1) (mp s a) i

/-- What a call does not change: all registers but the counters and the status bits. -/
structure SameSetup (s t : Sim) : Prop where
  sprs : ∀ r, r ≠ sprDMR2 → (∀ k, r ≠ sprDWCR k) → t.sprs r = s.sprs r
  dmr2 : ∀ i < dmr2WBSOff, (t.sprs sprDMR2).getLsbD i = (s.sprs sprDMR2).getLsbD i

namespace SameSetup

variable {s t u : Sim}

theorem refl (s : Sim) : SameSetup s s := ⟨fun _ _ _ => rfl, fun _ _ => rfl⟩

theorem trans (h : SameSetup s t) (h' : SameSetup t u) : SameSetup s u :=
  ⟨fun r h₁ h₂ => (h'.sprs r h₁ h₂).trans (h.sprs r h₁ h₂),
    fun i hi => (h'.dmr2 i hi).trans (h.dmr2 i hi)⟩

theorem dmr1 (h : SameSetup s t) : t.sprs sprDMR1 = s.sprs sprDMR1 :=
  h.sprs _ (by decide) (by decide)

theorem matchpoint (h : SameSetup s t) (action : Action) (udata : BitVec 64) (i : Fin 8) :
    Cpu.matchpoint t action udata i = Cpu.matchpoint s action udata i := by
  have hdcr : ∀ i : Fin 8, sprDCR i ≠ sprDMR2 ∧ ∀ k, sprDCR i ≠ sprDWCR k := by decide
  have hdvr : ∀ i : Fin 8, sprDVR i ≠ sprDMR2 ∧ ∀ k, sprDVR i ≠ sprDWCR k := by decide
  unfold Cpu.matchpoint
  rw [h.sprs _ (hdcr i).1 (hdcr i).2, h.sprs _ (hdvr i).1 (hdvr i).2]

theorem mp (h : SameSetup s t) (a : Access) : Cpu.mp t a = Cpu.mp s a := by
  funext i
  unfold Cpu.mp
  split
  · rw [h.matchpoint]
  · rfl

theorem matchFound (h : SameSetup s t) (a : Access) : Cpu.matchFound t a = Cpu.matchFound s a := by
  rw [Cpu.matchFound, h.mp, Cpu.matchFound]

theorem counterEnabled (h : SameSetup s t) (k : Fin 2) :
    Cpu.counterEnabled (t.sprs sprDMR2) k = Cpu.counterEnabled (s.sprs sprDMR2) k :=
  h.dmr2 k (by have := k.isLt; unfold dmr2WBSOff; omega)

theorem hits (h : SameSetup s t) (a : Access) : Cpu.hits t a = Cpu.hits s a := by
  funext k
  unfold Cpu.hits
  rw [h.mp, h.dmr1, h.counterEnabled]
  refine List.countP_congr fun i hi => ?_
  have hi : i < 8 := List.mem_range.1 hi
  have hcounter : counterOf (t.sprs sprDMR2) i = counterOf (s.sprs sprDMR2) i := by
    unfold counterOf
    rw [h.dmr2 _ (by unfold dmr2AWTC dmr2WBSOff; omega)]
  rw [hcounter]

end SameSetup

/-! ### One call -/

section Call

variable {s : Sim} {a : Access} {wp : ℕ → Bool}

end Call

/-! ### Sequences of accesses -/

/-- How often they count. -/
def totalHits (s : Sim) (as : List Access) (k : Fin 2) : ℕ := (as.map fun a => hits s a k).sum

/-- What the count should be after them. -/
def countAfter (s : Sim) (as : List Access) (k : Fin 2) : BitVec 16 :=
  countField (s.sprs (sprDWCR k)) + BitVec.ofNat 16 (totalHits s as k)

/-- The counters have counted the accesses, and nothing else of them has changed. -/
structure Counted (s : Sim) (as : List Access) (t : Sim) : Prop where
  count : ∀ k, countField (t.sprs (sprDWCR k)) = countAfter s as k
  kept : ∀ k, matchField (t.sprs (sprDWCR k)) = matchField (s.sprs (sprDWCR k))

section Run

variable {s t : Sim} {pre : List Access} {a : Access}

theorem Counted.nil (s : Sim) : Counted s [] s :=
  ⟨fun _ => (BitVec.add_zero _).symm, fun _ => rfl⟩

end Run

end Cpu
end Or1ksim
