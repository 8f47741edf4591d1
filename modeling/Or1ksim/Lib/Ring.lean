import Mathlib.Data.Nat.ModEq
import Mathlib.Logic.Function.Basic

/-!
# Circular buffers

A buffer of `len` places, of which `full` from place `tail` on are in use.

* `contents` — what is in the buffer, oldest first;
* `contents_push`, `contents_pop` — putting an element in and taking one out;
* `contents_update_tail` — writing the oldest element;
* `contents_overwrite` — writing to the next place of a full buffer replaces the oldest element.
-/

namespace Or1ksim
namespace Ring

variable {α : Type} {buf : ℕ → α} {tail full len : ℕ} {a : α}

/-- What is in the buffer, oldest first. -/
def contents (buf : ℕ → α) (tail full len : ℕ) : List α :=
  (List.range full).map fun k => buf ((tail + k) % len)

@[simp] theorem contents_zero : contents buf tail 0 len = [] := rfl

@[simp] theorem length_contents : (contents buf tail full len).length = full := by
  rw [contents, List.length_map, List.length_range]

theorem place_ne {k m : ℕ} (hk : k < len) (hm : m < len) (hne : k ≠ m) :
    (tail + k) % len ≠ (tail + m) % len := by
  intro heq
  have hmod : k ≡ m [MOD len] := Nat.ModEq.add_left_cancel' tail heq
  exact hne (Nat.ModEq.eq_of_lt_of_lt hmod hk hm)

theorem contents_push (hfull : full < len) :
    contents (Function.update buf ((tail + full) % len) a) tail (full + 1) len =
      contents buf tail full len ++ [a] := by
  rw [contents, List.range_succ, List.map_append, List.map_singleton, Function.update_self]
  congr 1
  refine List.map_congr_left fun k hk => Function.update_of_ne ?_ _ _
  have hk' := List.mem_range.1 hk
  exact place_ne (by omega) hfull (by omega)

theorem contents_pop (htail : tail < len) :
    contents buf tail (full + 1) len = buf tail :: contents buf ((tail + 1) % len) full len := by
  rw [contents, List.range_succ_eq_map, List.map_cons, List.map_map, Nat.add_zero,
    Nat.mod_eq_of_lt htail]
  congr 1
  refine List.map_congr_left fun k _ => ?_
  rw [Function.comp_apply, Nat.mod_add_mod]
  congr 2
  omega

theorem contents_update_tail (htail : tail < len) (hfull : full < len) :
    contents (Function.update buf tail a) tail (full + 1) len =
      a :: contents buf ((tail + 1) % len) full len := by
  rw [contents_pop htail, Function.update_self]
  congr 1
  refine List.map_congr_left fun k hk => Function.update_of_ne ?_ _ _
  have hk' := List.mem_range.1 hk
  have hne : (tail + (1 + k)) % len ≠ (tail + 0) % len :=
    place_ne (by omega) (by omega) (by omega)
  rw [Nat.add_zero, Nat.mod_eq_of_lt htail] at hne
  rw [Nat.mod_add_mod, Nat.add_assoc]
  exact hne

theorem contents_overwrite (htail : tail < len) :
    contents (Function.update buf ((tail + len) % len) a) tail len len =
      (contents buf tail len len).set 0 a := by
  obtain ⟨n, rfl⟩ : ∃ n, len = n + 1 := ⟨len - 1, by omega⟩
  rw [Nat.add_mod_right, Nat.mod_eq_of_lt htail, contents_update_tail htail n.lt_succ_self,
    contents_pop htail, List.set_cons_zero]

end Ring
end Or1ksim
