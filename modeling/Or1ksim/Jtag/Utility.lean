import Or1ksim.Jtag.Register
import Or1ksim.Lib.Remainder

/-!
# Checks and reversals of any width

The handlers of `debug/jtag.c` check a message in pieces of different widths, and reverse fields of
different widths.

* `crc32_append` — a value is checked in two pieces as in one;
* `toPoly_crc32` — **the check is a remainder**, although the masks of the loop have 28 bits;
* `reverseBits_eq` — the six rounds reverse the low bits, and clear the others;
* `reverseBits_reverseBits` — **a reversal undoes itself**.
-/

namespace Or1ksim
namespace Jtag

open Polynomial

/-! ### The check -/

theorem crc32_append (v hi lo : BitVec 64) {a b : ℕ}
    (hhi : ∀ i < a, hi.getLsbD i = v.getLsbD (b + i))
    (hlo : ∀ i < b, lo.getLsbD i = v.getLsbD i) (c : Word) :
    crc32 v (a + b) c = crc32 lo b (crc32 hi a c) := by
  have hfirst : (List.range a).map (fun k => v.getLsbD (a + b - 1 - k)) =
      (List.range a).map fun k => hi.getLsbD (a - 1 - k) := by
    refine List.map_congr_left fun k hk => ?_
    have hk := List.mem_range.1 hk
    rw [hhi _ (by omega)]
    exact congrArg v.getLsbD (by omega)
  have hrest : (List.range b).map ((fun k => v.getLsbD (a + b - 1 - k)) ∘ (a + ·)) =
      (List.range b).map fun k => lo.getLsbD (b - 1 - k) := by
    refine List.map_congr_left fun k hk => ?_
    have hk := List.mem_range.1 hk
    rw [hlo _ (by omega), Function.comp_apply]
    exact congrArg v.getLsbD (by omega)
  rw [crc32_eq_run, crc32_eq_run, crc32_eq_run, ← Crc.run_append, List.range_add, List.map_append,
    List.map_map, hfirst, hrest]

theorem toPoly_crc32 {v : BitVec 64} {n : ℕ} (hv : v.toNat < 2 ^ n) (c : Word) :
    Crc.toPoly (crc32 v n c) =
      (Crc.toPoly c * X ^ n + Crc.toPoly v * X ^ 32) %ₘ (X ^ 32 + Crc.toPoly crc32Poly) := by
  rw [crc32_eq_run, Crc.toPoly_run, ← Crc.toPoly_eq_bitsPoly hv, List.length_map,
    List.length_range, Crc.divisor]

/-! ### Reversal -/

theorem reverseBits_eq (v : BitVec 64) {n : ℕ} (hn : n ≤ 64) :
    reverseBits v n = (v.setWidth n).reverse.setWidth 64 := by
  apply BitVec.eq_of_getLsbD_eq
  intro i hi
  rw [BitVec.getLsbD_setWidth, BitVec.getLsbD_reverse, BitVec.getMsbD_eq_getLsbD,
    BitVec.getLsbD_setWidth, decide_eq_true hi, Bool.true_and]
  by_cases hin : i < n
  · rw [getLsbD_reverseBits v hn hin, decide_eq_true hin, decide_eq_true (by omega),
      Bool.true_and, Bool.true_and]
  · rw [decide_eq_false hin, Bool.false_and, reverseBits, BitVec.getLsbD_ushiftRight]
    exact BitVec.getLsbD_of_ge _ _ (by omega)

theorem reverseBits_reverseBits {v : BitVec 64} {n : ℕ} (hn : n ≤ 64) (hv : v.toNat < 2 ^ n) :
    reverseBits (reverseBits v n) n = v := by
  have hnarrow : ∀ u : BitVec n, (u.setWidth 64).setWidth n = u := fun u => by
    rw [BitVec.setWidth_setWidth_of_le _ hn, BitVec.setWidth_eq]
  have hwiden : (v.setWidth n).setWidth 64 = v := by
    apply BitVec.eq_of_toNat_eq
    rw [BitVec.toNat_setWidth, BitVec.toNat_setWidth, Nat.mod_eq_of_lt hv, Nat.mod_eq_of_lt v.isLt]
  rw [reverseBits_eq _ hn, reverseBits_eq _ hn, hnarrow, BitVec.reverse_reverse_eq, hwiden]

/-! ### Any width -/

/-- **Checks chain, and reversals undo themselves.**  A value of up to 64 bits is checked in two
pieces as in one; its check is the remainder, over GF(2), of the value behind the check so far; and
it is reversed bit by bit, and back by another reversal. -/
theorem crc32_chains_reverseBits_involutive :
    (∀ (c : Word) (a b v : ℕ), a + b ≤ 64 → v < 2 ^ (a + b) →
      crc32 (BitVec.ofNat 64 v) (a + b) c =
        crc32 (BitVec.ofNat 64 (v % 2 ^ b)) b (crc32 (BitVec.ofNat 64 (v >>> b)) a c)) ∧
    (∀ (c : Word) (n v : ℕ), n ≤ 64 → v < 2 ^ n →
      Crc.toPoly (crc32 (BitVec.ofNat 64 v) n c) =
        (Crc.toPoly c * X ^ n + Crc.toPoly (BitVec.ofNat 64 v) * X ^ 32) %ₘ
          (X ^ 32 + Crc.toPoly crc32Poly)) ∧
    ∀ n v : ℕ, 1 ≤ n → n ≤ 64 → v < 2 ^ n →
      reverseBits (reverseBits (BitVec.ofNat 64 v) n) n = BitVec.ofNat 64 v ∧
        ∀ k < n, (reverseBits (BitVec.ofNat 64 v) n).getLsbD k = v.testBit (n - 1 - k) := by
  have htoNat : ∀ {n v : ℕ}, v < 2 ^ n → (BitVec.ofNat 64 v).toNat < 2 ^ n := fun {n v} hv =>
    (Nat.mod_le v _).trans_lt hv
  refine ⟨fun c a b v hab _ => ?_, fun c n v hn hv => ?_, fun n v _ hn hv => ⟨?_, fun k hk => ?_⟩⟩
  · refine crc32_append _ _ _ (fun i hi => ?_) (fun i hi => ?_) c
    · rw [BitVec.getLsbD_ofNat, BitVec.getLsbD_ofNat, Nat.testBit_shiftRight,
        decide_eq_true (by omega), decide_eq_true (by omega)]
    · rw [BitVec.getLsbD_ofNat, BitVec.getLsbD_ofNat, Nat.testBit_mod_two_pow, decide_eq_true hi,
        Bool.true_and]
  · exact toPoly_crc32 (htoNat hv) c
  · exact reverseBits_reverseBits hn (htoNat hv)
  · rw [getLsbD_reverseBits _ hn hk, BitVec.getLsbD_ofNat, decide_eq_true (by omega),
      Bool.true_and]

/-- The bit that selects a module and the number of the WishBone module. -/
theorem crc32_chains_select :
    crc32 (BitVec.ofNat 64 16) 5 0xffffffff =
        crc32 (BitVec.ofNat 64 (16 % 2 ^ 4)) 4 (crc32 (BitVec.ofNat 64 (16 >>> 4)) 1 0xffffffff) ∧
      Crc.toPoly (crc32 (BitVec.ofNat 64 16) 5 0xffffffff) =
        (Crc.toPoly 0xffffffff#32 * X ^ 5 + Crc.toPoly (BitVec.ofNat 64 16) * X ^ 32) %ₘ
          (X ^ 32 + Crc.toPoly crc32Poly) ∧
      reverseBits (reverseBits (BitVec.ofNat 64 16) 5) 5 = BitVec.ofNat 64 16 :=
  ⟨crc32_chains_reverseBits_involutive.1 0xffffffff 1 4 16 (by decide) (by decide),
    crc32_chains_reverseBits_involutive.2.1 0xffffffff 5 16 (by decide) (by decide),
    (crc32_chains_reverseBits_involutive.2.2 5 16 (by decide) (by decide) (by decide)).1⟩

end Jtag
end Or1ksim
