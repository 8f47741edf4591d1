import Mathlib.Data.Nat.Basic
import Mathlib.Logic.Function.Basic

/-!
# Growing an array in place

Every entry of an array gives way to a block of entries.  The blocks are written from the last one
down, into the array that they are made from, and the new place of each entry is noted.

* `place` — where the block of an entry starts;
* `grow` — the loop;
* `grow_block` — **every block is made from the entry as it was**, if no block is
  empty: none is written over an entry that is still to be read;
* `exists_block`, `place_add_inj` — every place is in one block.
-/

namespace Or1ksim
namespace Expand

variable {α : Type}

/-- Where the block of entry `i` starts. -/
def place (width : ℕ → ℕ) : ℕ → ℕ
  | 0 => 0
  | i + 1 => place width i + width i

/-- The array, the places noted so far, and where the last block that was written starts. -/
structure Growing (α : Type) where
  insn : ℕ → α
  reloc : ℕ → ℕ
  d : ℕ

/-- Entry `i` gives way to the block `block i d x`, of `width x` entries, that ends below `d`. -/
def Growing.step (width : α → ℕ) (block : ℕ → ℕ → α → ℕ → α) (s : Growing α) (i : ℕ) :
    Growing α :=
  let x := s.insn i
  let d := s.d - width x
  { insn := fun k => if d ≤ k ∧ k < s.d then block i d x (k - d) else s.insn k
    reloc := Function.update s.reloc i d
    d := d }

/-- The entries below `n` give way to their blocks, the last one first. -/
def grow (width : α → ℕ) (block : ℕ → ℕ → α → ℕ → α) : ℕ → Growing α → Growing α
  | 0, s => s
  | i + 1, s => grow width block i (s.step width block i)

section Place

variable {w : ℕ → ℕ} {i j k l : ℕ}

@[simp] theorem place_zero (w : ℕ → ℕ) : place w 0 = 0 := rfl

theorem place_succ (w : ℕ → ℕ) (i : ℕ) : place w (i + 1) = place w i + w i := rfl

theorem place_mono (h : i ≤ j) : place w i ≤ place w j := by
  induction j, h using Nat.le_induction with
  | base => exact Nat.le_refl _
  | succ j _ ih => exact Nat.le_trans ih (Nat.le_add_right _ _)

theorem place_add_le (h : i < j) : place w i + w i ≤ place w j :=
  place_mono (w := w) (Nat.succ_le_of_lt h)

theorem le_place (hwidth : ∀ k < i, 1 ≤ w k) : i ≤ place w i := by
  induction i with
  | zero => exact Nat.zero_le _
  | succ i ih =>
    have hle := ih fun k hk => hwidth k (Nat.lt_succ_of_lt hk)
    have hpos := hwidth i (Nat.lt_succ_self i)
    rw [place_succ]
    omega

/-- **The blocks do not meet.** -/
theorem place_add_inj (hk : k < w i) (hl : l < w j)
    (h : place w i + k = place w j + l) : i = j ∧ k = l := by
  rcases Nat.lt_trichotomy i j with hij | rfl | hij
  · have := place_add_le (w := w) hij
    omega
  · exact ⟨rfl, by omega⟩
  · have := place_add_le (w := w) hij
    omega

/-- **Every place is in a block.** -/
theorem exists_block {n m : ℕ} (h : m < place w n) :
    ∃ i < n, ∃ k < w i, m = place w i + k := by
  induction n with
  | zero => exact absurd h (Nat.not_lt_zero m)
  | succ n ih =>
    rcases Nat.lt_or_ge m (place w n) with hlt | hge
    · obtain ⟨i, hi, k, hk, hm⟩ := ih hlt
      exact ⟨i, Nat.lt_succ_of_lt hi, k, hk, hm⟩
    · rw [place_succ] at h
      exact ⟨n, Nat.lt_succ_self n, m - place w n, by omega, by omega⟩

/-- The widths of entries that are left as they are, and of the others. -/
theorem place_eq_add_count {p : ℕ → Bool} {c : ℕ}
    (hwidth : ∀ k < i, w k = if p k then c + 1 else 1) :
    place w i = i + c * (List.range i).countP p := by
  induction i with
  | zero => simp
  | succ i ih =>
    rw [place_succ, ih fun k hk => hwidth k (Nat.lt_succ_of_lt hk), hwidth i (Nat.lt_succ_self i),
      List.range_succ, List.countP_append, List.countP_singleton, Nat.mul_add]
    split_ifs <;> omega

end Place

section Grow

variable {width : α → ℕ} {block : ℕ → ℕ → α → ℕ → α} {a : ℕ → α} {n : ℕ} {s : Growing α}

variable (block) in
theorem step_succ (hd : s.d = place (fun k => width (a k)) (n + 1)) (hn : s.insn n = a n) :
    (s.step width block n).d = place (fun k => width (a k)) n ∧
      (s.step width block n).reloc = Function.update s.reloc n (place (fun k => width (a k)) n) ∧
      ∀ k, (s.step width block n).insn k =
        if place (fun k => width (a k)) n ≤ k ∧ k < place (fun k => width (a k)) (n + 1) then
          block n (place (fun k => width (a k)) n) (a n) (k - place (fun k => width (a k)) n)
        else s.insn k := by
  have hsub : s.d - width (a n) = place (fun k => width (a k)) n := by
    rw [hd, place_succ]
    omega
  refine ⟨?_, ?_, fun k => ?_⟩
  · rw [Growing.step, hn, hsub]
  · rw [Growing.step, hn, hsub]
  · rw [Growing.step, hn, hsub, hd]

theorem grow_spec (hd : s.d = place (fun k => width (a k)) n) (ha : ∀ k < s.d, s.insn k = a k)
    (hwidth : ∀ k < n, 1 ≤ width (a k)) :
    (∀ i < n, (grow width block n s).reloc i = place (fun k => width (a k)) i ∧
      ∀ k < width (a i), (grow width block n s).insn (place (fun k => width (a k)) i + k) =
        block i (place (fun k => width (a k)) i) (a i) k) ∧
    (∀ i, n ≤ i → (grow width block n s).reloc i = s.reloc i) ∧
      ∀ k, s.d ≤ k → (grow width block n s).insn k = s.insn k := by
  induction n generalizing s with
  | zero => exact ⟨fun i hi => absurd hi (Nat.not_lt_zero i), fun _ _ => rfl, fun _ _ => rfl⟩
  | succ n ih =>
    have hwidth' : ∀ k < n, 1 ≤ width (a k) := fun k hk => hwidth k (Nat.lt_succ_of_lt hk)
    have hpos := hwidth n (Nat.lt_succ_self n)
    have hsucc := place_succ (fun k => width (a k)) n
    -- The entry is read before a block is written over it.
    have hread : s.insn n = a n := ha n (by have := le_place hwidth'; omega)
    obtain ⟨hd', hreloc', hinsn'⟩ := step_succ block hd hread
    have hkeep : ∀ k < (s.step width block n).d, (s.step width block n).insn k = a k := by
      intro k hk
      rw [hinsn', if_neg (by omega), ha k (by omega)]
    obtain ⟨hmade, hrest, hleft⟩ := ih hd' hkeep hwidth'
    refine ⟨fun i hi => ?_, fun i hi => ?_, fun k hk => ?_⟩
    · rcases Nat.lt_succ_iff_lt_or_eq.1 hi with hlt | rfl
      · exact hmade i hlt
      · refine ⟨?_, fun k hk => ?_⟩
        · rw [grow, hrest i (Nat.le_refl i), hreloc', Function.update_self]
        · rw [grow, hleft _ (by omega), hinsn', if_pos (by omega), Nat.add_sub_cancel_left]
    · rw [grow, hrest i (by omega), hreloc', Function.update_of_ne (by omega)]
    · rw [grow, hleft k (by omega), hinsn', if_neg (by omega)]

variable (block) in
/-- **The blocks are made from the entries as they were**, and the places noted are theirs. -/
theorem grow_block (reloc : ℕ → ℕ) (hwidth : ∀ k < n, 1 ≤ width (a k)) {i : ℕ} (hi : i < n) :
    (grow width block n ⟨a, reloc, place (fun k => width (a k)) n⟩).reloc i =
        place (fun k => width (a k)) i ∧
      ∀ k < width (a i), (grow width block n ⟨a, reloc, place (fun k => width (a k)) n⟩).insn
          (place (fun k => width (a k)) i + k) =
        block i (place (fun k => width (a k)) i) (a i) k :=
  (grow_spec rfl (fun _ _ => rfl) hwidth).1 i hi

end Grow
end Expand
end Or1ksim
