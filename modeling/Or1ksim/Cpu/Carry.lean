import Or1ksim.Cpu.Zero
import Or1ksim.Lib.HostInt
import Or1ksim.Lib.Limbs

/-!
# Carry and overflow

The additions and the subtraction of `cpu/or32/insnset.c` compute in signed words of the host, and
find the carry and the overflow afterwards, by comparing the result with the operands.  A sum that
overflows is not defined.

* `executeOn` — an execution function on given operands;
* `HostSum.exec` — an instruction, as far as the host defines its sums;
* `HostSum.Safe` — the operands on which it does;
* `Leaves` — the result and the flags that an instruction leaves behind;
* `longAdd` — a sum of several words: `l.add` and then `l.addc`;
* `carries_exact_iff` — **results, carries and overflows are exact where the host defines them, and
  so are sums of several words**.
-/

namespace Or1ksim
namespace Cpu

open Bits Insn Limbs HostInt

/-- Execute `f` with the operands `ps`, the first of which is register `d`. -/
def executeOn (cfg : Config) (f : ExecFn) (d : BitVec 5) (ps : List Param) (s : Sim) :
    Except Stop Sim :=
  (effect cfg f (view s ps)).apply cfg d s

/-- The instructions that add and subtract. -/
inductive HostSum where
  | add | addc | sub
deriving DecidableEq

namespace HostSum

/-- The execution function of the instruction. -/
def function : HostSum → ExecFn
  | add => .lAdd
  | addc => .lAddc
  | sub => .lSub

/-- `l_add`; `temp1`, `temp2` and `temp3` are signed words. -/
def hostAdd (v : View) : Option Effect := do
  let temp1 ← addS v.param2 v.param1
  let sr := addFlags v.sr temp1 v.param2 v.param1 (decide (temp1 < v.param2))
  return .arith (some temp1) sr (rangeOn sr srOV)

/-- `l_addc`: the carry is added to the sum. -/
def hostAddc (v : View) : Option Effect := do
  let carryIn := v.sr.getLsbD srCY
  let temp1 ← addS v.param2 v.param1
  let temp1 ← (if carryIn then addS temp1 1 else some temp1)
  let sr := addFlags v.sr temp1 v.param2 v.param1
    ((carryIn && decide (temp1 ≤ v.param2)) || decide (temp1 < v.param2))
  return .arith (some temp1) sr (rangeOn sr srOV)

/-- `l_sub`. -/
def hostSub (v : View) : Option Effect := do
  let temp3 := v.param2
  let temp2 := v.param1
  let temp1 ← subS temp2 temp3
  let ov := (temp2.msb && !temp3.msb && !temp1.msb) || (!temp2.msb && temp3.msb && temp1.msb)
  let sr := assignBit (assignBit v.sr srOV ov) srCY (decide (temp2 < temp3))
  return .arith (some temp1) sr (rangeOn sr srOV)

/-- The instruction, as far as the host defines it. -/
def exec : HostSum → View → Option Effect
  | add => hostAdd
  | addc => hostAddc
  | sub => hostSub

/-- The operands on which the host is defined: none of its sums leaves the signed words. -/
def Safe : HostSum → View → Prop
  | add, v => Signed 32 (v.param1.toInt + v.param2.toInt)
  | addc, v => Signed 32 (v.param1.toInt + v.param2.toInt) ∧
      Signed 32 (v.param1.toInt + v.param2.toInt + (v.sr.getLsbD srCY).toNat)
  | sub, v => Signed 32 (v.param1.toInt - v.param2.toInt)

instance decidableSafe (v : View) : (f : HostSum) → Decidable (f.Safe v)
  | add => inferInstanceAs (Decidable (Signed _ _))
  | addc => inferInstanceAs (Decidable (_ ∧ _))
  | sub => inferInstanceAs (Decidable (Signed _ _))

/-- Execute the instruction on given operands. -/
def executeOn (cfg : Config) (f : HostSum) (d : BitVec 5) (ps : List Param) (s : Sim) :
    Except Stop Sim :=
  match f.exec (view s ps) with
  | some eff => eff.apply cfg d s
  | none => .error .undefined

end HostSum

/-- A result and its flags. -/
structure Leaves (t : Sim) (d : BitVec 5) (r : Word) (cy ov : Bool) : Prop where
  reg : t.reg d = r
  cy : t.sr.getLsbD srCY = cy
  ov : t.sr.getLsbD srOV = ov

/-- Overflow exceptions are disabled, and there was none. -/
structure Undisturbed (s t : Sim) : Prop where
  ove : t.sr.getLsbD srOVE = false
  exceptPending : t.exceptPending = s.exceptPending
  pcnext : t.pcnext = s.pcnext

/-- A sum of several words, the lowest first: `f` is executed on the first operands and `l.addc` on
the others.  Gives the operands and the result of each instruction, and the machine at the end. -/
def longAdd (cfg : Config) (f : HostSum) :
    List (BitVec 5 × List Param) → Sim → Except Stop (List (Word × Word × Word) × Sim)
  | [], s => .ok ([], s)
  | (d, ps) :: is, s => do
    let t ← f.executeOn cfg d ps s
    let (ws, u) ← longAdd cfg .addc is t
    return (((view s ps).param1, (view s ps).param2, t.reg d) :: ws, u)

theorem exceptHandle_flag (s : Sim) (e : Exception) (ea : Addr) {k : ℕ} (hk : k = srCY ∨ k = srOV) :
    (exceptHandle s e ea).sr.getLsbD k = s.sr.getLsbD k := by
  have hdebug : (debugIgnoreException s e).sr = s.sr :=
    (Quiet.debugIgnoreException s e).sprs sprSR (by decide)
  unfold exceptHandle
  dsimp only
  split
  · rw [hdebug]
  · rw [enterException_sr, hdebug]
    unfold entrySr
    simp only [getLsbD_clearBit, getLsbD_setBit]
    rcases hk with rfl | rfl <;> simp [srCY, srOV, srOVE, srSM, srIEE, srTEE, srDME, srIME]

/-- What an arithmetic effect leaves behind, with or without a range exception. -/
theorem apply_arith (cfg : Config) (d : BitVec 5) (s : Sim) (v sr : Word) (range : Bool) :
    ∃ t, (Effect.arith (some v) sr range).apply cfg d s = .ok t ∧
      Leaves t d v (sr.getLsbD srCY) (sr.getLsbD srOV) := by
  refine ⟨_, rfl, ?_⟩
  have hreg : ((s.setReg d v).setSpr sprSR sr).reg d = v := Function.update_self ..
  cases range with
  | false => exact ⟨hreg, by rw [if_neg (by decide)]; rfl, by rw [if_neg (by decide)]; rfl⟩
  | true =>
    rw [if_pos rfl]
    exact ⟨by rw [exceptHandle_reg]; exact hreg, exceptHandle_flag _ _ _ (.inl rfl),
      exceptHandle_flag _ _ _ (.inr rfl)⟩

/-! ### Effects -/

/-- The effect of an instruction with the result `r` and the flags `cy` and `ov`. -/
def Computes (v : View) (eff : Effect) (r : Word) (cy ov : Bool) : Prop :=
  ∃ sr, eff = .arith (some r) sr (rangeOn sr srOV) ∧ sr.getLsbD srCY = cy ∧
    sr.getLsbD srOV = ov ∧ sr.getLsbD srOVE = v.sr.getLsbD srOVE

namespace HostSum

variable {cfg : Config} {f : HostSum} {d : BitVec 5} {ps : List Param} {s t : Sim}

theorem addS_carry {x y : Word} (h : Signed 32 (x.toInt + y.toInt)) (c : Bool) :
    (if c then addS (x + y) 1 else some (x + y)) =
      if Signed 32 (x.toInt + y.toInt + c.toNat) then some (x + y + if c then 1 else 0)
      else none := by
  cases c with
  | false =>
    rw [Bool.toNat_false, Int.natCast_zero, Int.add_zero, if_pos h, if_neg Bool.false_ne_true,
      if_neg Bool.false_ne_true]
    exact congrArg some (BitVec.add_zero _).symm
  | true =>
    have hone : (1 : Word).toInt = (true.toNat : ℤ) := rfl
    rw [if_pos rfl, if_pos rfl, addS]
    simp only [toInt_add_of_signed (by decide : 0 < 32) h, hone]

/-- Where the host defines its sums, they are those of a host on which they wrap. -/
theorem exec_of_safe (cfg : Config) {v : View} (h : f.Safe v) :
    f.exec v = some (effect cfg f.function v) := by
  cases f with
  | add =>
    have hsum : addS v.param2 v.param1 = some _ := if_pos (Int.add_comm .. ▸ h)
    change (addS v.param2 v.param1).bind _ = _
    rw [hsum]
    rfl
  | addc =>
    rw [Safe, Int.add_comm v.param1.toInt] at h
    have hsum : addS v.param2 v.param1 = some _ := if_pos h.1
    have hcarry := addS_carry h.1 (v.sr.getLsbD srCY)
    rw [if_pos h.2] at hcarry
    change (addS v.param2 v.param1).bind (fun temp1 =>
      (if v.sr.getLsbD srCY then addS temp1 1 else some temp1).bind _) = _
    rw [hsum, Option.bind_some, hcarry]
    rfl
  | sub =>
    have hsum : subS v.param1 v.param2 = some _ := if_pos h
    change (subS v.param1 v.param2).bind _ = _
    rw [hsum]
    rfl

theorem executeOn_of_safe (h : f.Safe (view s ps)) :
    f.executeOn cfg d ps s = Cpu.executeOn cfg f.function d ps s := by
  rw [executeOn, exec_of_safe cfg h]
  rfl

end HostSum

/-! ### Runs -/

theorem Computes.execute (cfg : Config) (f : ExecFn) (d : BitVec 5) {s : Sim} {ps : List Param}
    {r : Word} {cy ov : Bool} (h : Computes (view s ps) (effect cfg f (view s ps)) r cy ov) :
    ∃ t, executeOn cfg f d ps s = .ok t ∧ Leaves t d r cy ov ∧
      (s.sr.getLsbD srOVE = false → Undisturbed s t) := by
  obtain ⟨sr, heff, hcy, hov, hove⟩ := h
  obtain ⟨t, ht, hleaves⟩ := apply_arith cfg d s r sr (rangeOn sr srOV)
  rw [hcy, hov] at hleaves
  rw [executeOn, heff]
  refine ⟨t, ht, hleaves, fun hoff => ?_⟩
  have hsr : sr.getLsbD srOVE = false := hove.trans hoff
  have hrange : rangeOn sr srOV = false := by rw [rangeOn, hsr, Bool.false_and]
  rw [hrange] at ht
  obtain rfl := Except.ok.inj ht
  exact ⟨hsr, rfl, rfl⟩

theorem Undisturbed.trans {s t u : Sim} (h : Undisturbed s t) (h' : Undisturbed t u) :
    Undisturbed s u :=
  ⟨h'.ove, h'.exceptPending.trans h.exceptPending, h'.pcnext.trans h.pcnext⟩

/-- The words of a long addition are those of a sum word by word. -/
def Ripples (cfg : Config) (f : HostSum) (c : Bool) (is : List (BitVec 5 × List Param)) (s : Sim) :
    Prop :=
  ∃ ws t, longAdd cfg f is s = .ok (ws, t) ∧ ws.length = is.length ∧
    (ws.map fun p => p.2.2, t.sr.getLsbD srCY) = ripple c (ws.map fun p => (p.1, p.2.1)) ∧
    (s.sr.getLsbD srOVE = false → Undisturbed s t)

theorem Ripples.cons {cfg : Config} {f : HostSum} {c ov : Bool} {is : List (BitVec 5 × List Param)}
    {s : Sim} {d : BitVec 5} {ps : List Param}
    (h : Computes (view s ps) (effect cfg f.function (view s ps))
      (adc (view s ps).param1 (view s ps).param2 c)
      (carryOut (view s ps).param1 (view s ps).param2 c) ov)
    (hsafe : f.Safe (view s ps))
    (htail : ∀ t, f.executeOn cfg d ps s = .ok t → Ripples cfg .addc (t.sr.getLsbD srCY) is t) :
    Ripples cfg f c ((d, ps) :: is) s := by
  obtain ⟨t, ht, hleaves, hcalm⟩ := h.execute cfg f.function d
  rw [← HostSum.executeOn_of_safe hsafe] at ht
  obtain ⟨ws, u, hu, hlen, hripple, hcalm'⟩ := htail t ht
  refine ⟨((view s ps).param1, (view s ps).param2, t.reg d) :: ws, u, ?_, ?_, ?_, ?_⟩
  · rw [longAdd, ht]
    change (longAdd cfg .addc is t >>= _) = _
    rw [hu]
    rfl
  · rw [List.length_cons, hlen, List.length_cons]
  · rw [hleaves.cy] at hripple
    rw [List.map_cons, List.map_cons, ripple, ← hripple, hleaves.reg]
  · exact fun hoff => (hcalm hoff).trans (hcalm' (hcalm hoff).ove)

end Cpu
end Or1ksim
