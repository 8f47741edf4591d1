import Mathlib.Data.Nat.Notation
import Mathlib.Data.List.Basic

/-!
# Cyclic redundancy checks

The bit-serial check with a polynomial of any width, most significant bit first, and bit strings of
words in that order.

* `Crc.step`, `Crc.run` — one bit and a string of bits;
* `Crc.run_injective`, `Crc.run_flip_ne` — a string keeps different remainders apart, and **one
  flipped bit always shows**.
-/

namespace Or1ksim

/-! ### Bit strings -/

/-- The bits of a word, most significant first. -/
def msbFirst {w : ℕ} (v : BitVec w) : List Bool := (List.range w).map v.getMsbD

@[simp] theorem length_msbFirst {w : ℕ} (v : BitVec w) : (msbFirst v).length = w := by
  simp [msbFirst]

theorem msbFirst_injective {w : ℕ} {u v : BitVec w} (h : msbFirst u = msbFirst v) : u = v := by
  apply BitVec.eq_of_getMsbD_eq
  intro i hi
  exact List.map_inj_left.1 h i (List.mem_range.2 hi)

/-- A string with bit `k` inverted. -/
def flipBit (bs : List Bool) (k : ℕ) : List Bool := bs.modify k not

@[simp] theorem length_flipBit (bs : List Bool) (k : ℕ) : (flipBit bs k).length = bs.length :=
  List.length_modify ..

theorem flipBit_cons_zero (b : Bool) (bs : List Bool) : flipBit (b :: bs) 0 = (!b) :: bs := by
  simp [flipBit]

theorem flipBit_cons_succ (b : Bool) (bs : List Bool) (k : ℕ) :
    flipBit (b :: bs) (k + 1) = b :: flipBit bs k := by
  simp [flipBit]

theorem flipBit_ne {bs : List Bool} {k : ℕ} (hk : k < bs.length) : flipBit bs k ≠ bs := by
  induction bs generalizing k with
  | nil => exact absurd hk (Nat.not_lt_zero k)
  | cons b bs ih =>
    cases k with
    | zero =>
      rw [flipBit_cons_zero]
      intro h
      cases b <;> cases h
    | succ k =>
      rw [flipBit_cons_succ]
      intro h
      exact ih (Nat.lt_of_succ_lt_succ hk) (List.cons.inj h).2

namespace Crc

/-! ### Remainders -/

variable {w : ℕ} (poly : BitVec w)

/-- Shift one bit in. -/
def step (c : BitVec w) (b : Bool) : BitVec w := (c <<< 1) ^^^ (if b ^^ c.msb then poly else 0#w)

/-- Shift a string of bits in. -/
def run (c : BitVec w) (bs : List Bool) : BitVec w := bs.foldl (step poly) c

theorem run_append (c : BitVec w) (bs bs' : List Bool) :
    run poly c (bs ++ bs') = run poly (run poly c bs) bs' :=
  List.foldl_append ..

variable {poly}

theorem eq_of_shift_eq {c c' : BitVec w} (hmsb : c.msb = c'.msb) (h : c <<< 1 = c' <<< 1) :
    c = c' := by
  apply BitVec.eq_of_getMsbD_eq
  intro i hi
  cases i with
  | zero => exact hmsb
  | succ i =>
    have hbit := congrArg (fun v : BitVec w => v.getMsbD i) h
    simp only [BitVec.getMsbD_shiftLeft] at hbit
    exact hbit

/-- With the lowest coefficient set, one bit keeps different remainders apart. -/
theorem step_injective (hpoly : poly.getLsbD 0 = true) {c c' : BitVec w} {b : Bool}
    (h : step poly c b = step poly c' b) : c = c' := by
  have hw : 0 < w := BitVec.lt_of_getLsbD hpoly
  have hmsb : c.msb = c'.msb := by
    have hbit := congrArg (fun v : BitVec w => v.getLsbD 0) h
    simp only [step, BitVec.getLsbD_xor, BitVec.getLsbD_shiftLeft] at hbit
    cases b <;> cases hc : c.msb <;> cases hc' : c'.msb <;> simp_all
  refine eq_of_shift_eq hmsb ?_
  rw [step, step, hmsb] at h
  exact (BitVec.xor_left_inj _).1 h

theorem run_injective (hpoly : poly.getLsbD 0 = true) (bs : List Bool) {c c' : BitVec w}
    (h : run poly c bs = run poly c' bs) : c = c' := by
  induction bs generalizing c c' with
  | nil => exact h
  | cons b bs ih => exact step_injective hpoly (ih h)

theorem run_replicate_false (n : ℕ) : run poly 0#w (List.replicate n false) = 0#w := by
  induction n with
  | zero => rfl
  | succ n ih =>
    have hstep : step poly 0#w false = 0#w := by
      rw [step, BitVec.zero_shiftLeft, BitVec.msb_zero, Bool.xor_false, if_neg Bool.false_ne_true,
        BitVec.xor_zero]
    rw [List.replicate_succ, run, List.foldl_cons, hstep]
    exact ih

/-- **One flipped bit** changes the remainder. -/
theorem run_flip_ne (hpoly : poly.getLsbD 0 = true) (bs : List Bool) {k : ℕ} (hk : k < bs.length)
    (c : BitVec w) : run poly c (flipBit bs k) ≠ run poly c bs := by
  induction bs generalizing c k with
  | nil => exact absurd hk (Nat.not_lt_zero k)
  | cons b bs ih =>
    cases k with
    | zero =>
      rw [flipBit_cons_zero]
      intro h
      have hstep : step poly c (!b) = step poly c b := run_injective hpoly bs h
      rw [step, step, BitVec.xor_right_inj] at hstep
      have hne : poly ≠ 0#w := by
        rintro rfl
        simp at hpoly
      cases b <;> cases hmsb : c.msb <;> simp_all
    | succ k =>
      rw [flipBit_cons_succ]
      exact ih (Nat.lt_of_succ_lt_succ hk) (step poly c b)

end Crc
end Or1ksim
