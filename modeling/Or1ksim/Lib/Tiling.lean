import Mathlib.Algebra.GroupWithZero.Nat
import Mathlib.Data.List.Induction
import Mathlib.Order.Monotone.Basic

/-!
# Tilings of a range

A list of intervals that cut a range of numbers in order, and segments laid end to end.

* `Tiles` — each interval begins where the one before it ends;
* `Tiles.exists_mem` — **every number of the range is in an interval**;
* `Tiles.first_inj` — no two intervals begin at the same number;
* `offset`, `exists_offset` — where a segment begins, and the segment a place is in;
* `getElem?_segments` — what is at a place.
-/

namespace Or1ksim

/-- The intervals, each given by its first and its last number, cut the numbers from `a` up to `e`
in order. -/
def Tiles : ℕ → List (ℕ × ℕ) → ℕ → Prop
  | a, [], e => a = e
  | a, p :: l, e => p.1 = a ∧ p.1 ≤ p.2 ∧ Tiles (p.2 + 1) l e

namespace Tiles

variable {a e i j : ℕ} {l : List (ℕ × ℕ)} {p q : ℕ × ℕ}

theorem le (h : Tiles a l e) : a ≤ e := by
  induction l generalizing a with
  | nil => exact Nat.le_of_eq h
  | cons p l ih =>
    obtain ⟨rfl, hp, h⟩ := h
    have := ih h
    omega

theorem concat (h : Tiles a l e) {last : ℕ} (hlast : e ≤ last) :
    Tiles a (l ++ [(e, last)]) (last + 1) := by
  induction l generalizing a with
  | nil => exact ⟨h.symm, hlast, rfl⟩
  | cons p l ih => exact ⟨h.1, h.2.1, ih h.2.2⟩

theorem bounds (h : Tiles a l e) (hp : l[i]? = some p) : a ≤ p.1 ∧ p.1 ≤ p.2 ∧ p.2 < e := by
  induction l generalizing a i with
  | nil => simp at hp
  | cons q l ih =>
    obtain ⟨rfl, hq, h⟩ := h
    cases i with
    | zero =>
      obtain rfl := Option.some.inj hp
      exact ⟨le_rfl, hq, h.le⟩
    | succ i =>
      have := ih h hp
      omega

/-- **Every number of the range is in an interval.** -/
theorem exists_mem (h : Tiles a l e) {s : ℕ} (hs : a ≤ s) (he : s < e) :
    ∃ (i : ℕ) (p : ℕ × ℕ), l[i]? = some p ∧ p.1 ≤ s ∧ s ≤ p.2 := by
  induction l generalizing a with
  | nil =>
    obtain rfl : a = e := h
    omega
  | cons p l ih =>
    obtain ⟨rfl, hp, h⟩ := h
    by_cases hsp : s ≤ p.2
    · exact ⟨0, p, rfl, hs, hsp⟩
    · obtain ⟨i, q, hq, hmem⟩ := ih h (by omega)
      exact ⟨i + 1, q, hq, hmem⟩

theorem first_succ (h : Tiles a l e) (hp : l[i]? = some p) (hq : l[i + 1]? = some q) :
    q.1 = p.2 + 1 := by
  induction l generalizing a i with
  | nil => simp at hp
  | cons r l ih =>
    obtain ⟨rfl, -, h⟩ := h
    cases i with
    | zero =>
      obtain rfl := Option.some.inj hp
      cases l with
      | nil => simp at hq
      | cons r' l =>
        obtain rfl := Option.some.inj hq
        exact h.1
    | succ i => exact ih h hp hq

theorem last_succ (h : Tiles a l e) (hp : l[i]? = some p) :
    p.2 + 1 = e ↔ i + 1 = l.length := by
  induction l generalizing a i with
  | nil => simp at hp
  | cons q l ih =>
    obtain ⟨rfl, -, h⟩ := h
    cases i with
    | zero =>
      obtain rfl := Option.some.inj hp
      cases l with
      | nil => exact ⟨fun _ => rfl, fun _ => h⟩
      | cons r l =>
        have hr : q.2 + 1 ≤ r.1 ∧ r.1 ≤ r.2 ∧ r.2 < e := bounds h (List.getElem?_cons_zero ..)
        constructor
        · intro he
          omega
        · intro hlength
          simp at hlength
    | succ i =>
      rw [ih h hp, List.length_cons]
      omega

theorem first_inj (h : Tiles a l e) (hp : l[i]? = some p) (hq : l[j]? = some q)
    (heq : p.1 = q.1) : i = j := by
  induction l generalizing a i j with
  | nil => simp at hp
  | cons r l ih =>
    obtain ⟨rfl, hr, h⟩ := h
    match i, j with
    | 0, 0 => rfl
    | 0, j + 1 =>
      obtain rfl := Option.some.inj hp
      have := bounds h hq
      omega
    | i + 1, 0 =>
      obtain rfl := Option.some.inj hq
      have := bounds h hp
      omega
    | i + 1, j + 1 => exact congrArg (· + 1) (ih h hp hq)

end Tiles

/-! ### Segments laid end to end -/

/-- Where segment `j` begins when segment `m` has `w m` places. -/
def offset (w : ℕ → ℕ) (j : ℕ) : ℕ := ((List.range j).map w).sum

section Offset

variable {w : ℕ → ℕ}

theorem offset_succ (w : ℕ → ℕ) (j : ℕ) : offset w (j + 1) = offset w j + w j := by
  rw [offset, List.range_succ, List.map_append, List.sum_append, List.map_singleton,
    List.sum_singleton, offset]

theorem offset_strictMono (hw : ∀ j, 0 < w j) : StrictMono (offset w) :=
  strictMono_nat_of_lt_succ fun j => by
    rw [offset_succ]
    exact Nat.lt_add_of_pos_right (hw j)

theorem exists_offset {n p : ℕ} (hp : p < offset w n) :
    ∃ j < n, ∃ o < w j, p = offset w j + o := by
  induction n with
  | zero => exact absurd hp (Nat.not_lt_zero p)
  | succ n ih =>
    by_cases hn : p < offset w n
    · obtain ⟨j, hj, ho⟩ := ih hn
      exact ⟨j, Nat.lt_succ_of_lt hj, ho⟩
    · rw [offset_succ] at hp
      exact ⟨n, Nat.lt_succ_self n, p - offset w n, by omega, by omega⟩

theorem offset_add_inj (hw : ∀ j, 0 < w j) {i j o o' : ℕ} (ho : o < w i) (ho' : o' < w j)
    (h : offset w i + o = offset w j + o') : i = j ∧ o = o' := by
  have hmono := (offset_strictMono hw).monotone
  rcases Nat.lt_trichotomy i j with hij | rfl | hij
  · have := hmono (Nat.succ_le_of_lt hij)
    rw [Nat.succ_eq_add_one, offset_succ] at this
    omega
  · exact ⟨rfl, Nat.add_left_cancel h⟩
  · have := hmono (Nat.succ_le_of_lt hij)
    rw [Nat.succ_eq_add_one, offset_succ] at this
    omega

variable {α β : Type} {f : ℕ → α → List β}

theorem length_segments (hf : ∀ j a, (f j a).length = w j) (l : List α) :
    (l.zipIdx.flatMap fun x => f x.2 x.1).length = offset w l.length := by
  induction l using List.reverseRecOn with
  | nil => rfl
  | append_singleton l a ih =>
    rw [List.zipIdx_append, List.flatMap_append, List.length_append, ih, List.length_append,
      List.length_singleton, offset_succ]
    simp [hf]

/-- **What is at a place of a segment.** -/
theorem getElem?_segments (hf : ∀ j a, (f j a).length = w j) {l : List α} {j o : ℕ} {a : α}
    (ha : l[j]? = some a) (ho : o < w j) :
    (l.zipIdx.flatMap fun x => f x.2 x.1)[offset w j + o]? = (f j a)[o]? := by
  induction l using List.reverseRecOn with
  | nil => simp at ha
  | append_singleton l b ih =>
    rw [List.zipIdx_append, List.flatMap_append]
    have hlength := length_segments hf l
    by_cases hj : j < l.length
    · rw [List.getElem?_append_left hj] at ha
      have hlt : offset w j + o < (l.zipIdx.flatMap fun x => f x.2 x.1).length := by
        obtain ⟨b, hb⟩ : ∃ b, (f j a)[o]? = some b :=
          ⟨_, List.getElem?_eq_getElem ((hf j a).symm ▸ ho)⟩
        rw [← ih ha] at hb
        exact (List.getElem?_eq_some_iff.1 hb).1
      rw [List.getElem?_append_left hlt, ih ha]
    · obtain rfl : j = l.length := by
        have hlt := (List.getElem?_eq_some_iff.1 ha).1
        rw [List.length_append, List.length_singleton] at hlt
        omega
      rw [List.getElem?_append_right (Nat.le_refl _), Nat.sub_self] at ha
      obtain rfl := Option.some.inj ha
      rw [List.getElem?_append_right (by omega), hlength, Nat.add_sub_cancel_left]
      simp

end Offset

end Or1ksim
