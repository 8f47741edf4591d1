import Or1ksim.Decoder.Automata

/-!
# Decision trees in the automaton array

`Covers mem d a e C` says that the cells `[a, e)` of the automaton hold a decision tree of depth at
most `d` for the instructions `C`: a leaf for a single instruction, or a node that selects on a
field that is fixed in every instruction of `C`, with one subtree for each value of the field.

* `covers_frame` — a tree only depends on its own cells;
* `decodeFrom_covers` — the walk from the root of a tree ends at the only instruction of `C` that
  can match the word, and returns it exactly when it does match.
-/

namespace Or1ksim
namespace Decoder

variable {W : ℕ} (P : Patterns W)

/-- The instructions of `C` whose field has value `i`. -/
def child (C : List ℕ) (first len i : ℕ) : List ℕ :=
  C.filter fun j => decide (field P first len j = BitVec.ofNat W i)

/-- The cells `[a, e)` hold a decision tree for the instructions `C`. -/
def Covers (mem : ℕ → BitVec W) : ℕ → ℕ → ℕ → List ℕ → Prop
  | 0, _, _, _ => False
  | d + 1, a, e, C =>
    (∃ j, C = [j] ∧ a < e ∧ mem a = leafFlag W ||| BitVec.ofNat W j) ∨
    ∃ first len, first + len ≤ 32 ∧ len < maxLen ∧ a + 2 + 2 ^ len ≤ e ∧
      mem a = BitVec.ofNat W first ∧ mem (a + 1) = Bits.lowMask W len ∧
      (∀ j ∈ C, (P.insnMask j >>> first) &&& Bits.lowMask W len = Bits.lowMask W len) ∧
      ∀ i < 2 ^ len,
        (child P C first len i = [] ∧ mem (a + 2 + i) = 0) ∨
        ∃ b e', a + 2 + 2 ^ len ≤ b ∧ e' ≤ e ∧ mem (a + 2 + i) = BitVec.ofNat W b ∧
          Covers mem d b e' (child P C first len i)

variable {P} {mem mem' : ℕ → BitVec W} {d a e : ℕ} {C : List ℕ}

theorem covers_lt (h : Covers P mem d a e C) : a < e := by
  cases d with
  | zero => exact h.elim
  | succ d =>
    rcases h with ⟨j, -, hlt, -⟩ | ⟨first, len, -, -, hle, -⟩
    · exact hlt
    · have := Nat.two_pow_pos len
      omega

theorem covers_frame (h : Covers P mem d a e C) (heq : ∀ x, a ≤ x → x < e → mem' x = mem x) :
    Covers P mem' d a e C := by
  induction d generalizing a e C with
  | zero => exact h
  | succ d ih =>
    rcases h with ⟨j, hC, hlt, hcell⟩ | ⟨first, len, hfl, hlen, hle, hfirst, hmask, hfix, hkids⟩
    · exact .inl ⟨j, hC, hlt, by rw [heq a (le_refl a) hlt, hcell]⟩
    · have hpos := Nat.two_pow_pos len
      refine .inr ⟨first, len, hfl, hlen, hle, by rw [heq a (le_refl a) (by omega), hfirst],
        by rw [heq (a + 1) (by omega) (by omega), hmask], hfix, fun i hi => ?_⟩
      rcases hkids i hi with ⟨hC, hcell⟩ | ⟨b, e', hb, he', hcell, hkid⟩
      · exact .inl ⟨hC, by rw [heq _ (by omega) (by omega), hcell]⟩
      · refine .inr ⟨b, e', hb, he', by rw [heq _ (by omega) (by omega), hcell], ?_⟩
        exact ih hkid fun x hx hx' => heq x (by omega) (by omega)

/-! ### Cells -/

theorem toNat_leafFlag (hW : 32 ≤ W) : (leafFlag W).toNat = 2 ^ 31 := by
  have h : 2 ^ 32 ≤ 2 ^ W := Nat.pow_le_pow_right (by decide) hW
  rw [leafFlag, BitVec.toNat_setWidth]
  exact Nat.mod_eq_of_lt (lt_of_lt_of_le (by decide) h)

theorem toNat_ofNat_of_lt (hW : 32 ≤ W) {n : ℕ} (hn : n < 2 ^ 32) :
    (BitVec.ofNat W n).toNat = n := by
  have h : 2 ^ 32 ≤ 2 ^ W := Nat.pow_le_pow_right (by decide) hW
  rw [BitVec.toNat_ofNat, Nat.mod_eq_of_lt (by omega)]

theorem ofNat_ne_zero (hW : 32 ≤ W) {n : ℕ} (hpos : 0 < n) (hn : n < 2 ^ 32) :
    BitVec.ofNat W n ≠ 0 := by
  intro hz
  have hnat := toNat_ofNat_of_lt hW hn
  rw [hz, BitVec.ofNat_eq_ofNat, BitVec.toNat_ofNat, Nat.zero_mod] at hnat
  omega

theorem notLeafFlag_eq (hW : 32 ≤ W) :
    (~~~0x80000000#32).setWidth W = Bits.lowMask W 31 := by
  have h : 2 ^ 32 ≤ 2 ^ W := Nat.pow_le_pow_right (by decide) hW
  apply BitVec.eq_of_toNat_eq
  rw [Bits.toNat_lowMask (by omega), BitVec.toNat_setWidth]
  exact Nat.mod_eq_of_lt (lt_of_lt_of_le (by decide) h)

/-- A cell that holds a number below the flag is not a leaf. -/
theorem node_and_leafFlag (hW : 32 ≤ W) {n : ℕ} (hn : n < 2 ^ 31) :
    BitVec.ofNat W n &&& leafFlag W = 0 := by
  apply BitVec.eq_of_toNat_eq
  rw [BitVec.toNat_and, toNat_ofNat_of_lt hW (by omega), toNat_leafFlag hW, Nat.and_two_pow,
    Nat.testBit_lt_two_pow hn]
  rfl

theorem leaf_and_leafFlag (hW : 32 ≤ W) (x : BitVec W) : (leafFlag W ||| x) &&& leafFlag W ≠ 0 := by
  intro h
  have hbit := congrArg (fun y => BitVec.getLsbD y 31) h
  have hflag : (leafFlag W).getLsbD 31 = true := by
    rw [BitVec.getLsbD, toNat_leafFlag hW]
    decide
  simp [hflag] at hbit

theorem toNat_leaf_index (hW : 32 ≤ W) {j : ℕ} (hj : j < 2 ^ 31) :
    ((leafFlag W ||| BitVec.ofNat W j) &&& (~~~0x80000000#32).setWidth W).toNat = j := by
  rw [notLeafFlag_eq hW, Bits.toNat_and_lowMask _ (by omega), BitVec.toNat_or, toNat_leafFlag hW,
    toNat_ofNat_of_lt hW (by omega)]
  have hor : 2 ^ 31 ||| j = 2 ^ 31 + j := by
    have := Nat.shiftLeft_add_eq_or_of_lt hj 1
    rw [Nat.shiftLeft_eq, Nat.one_mul] at this
    exact this.symm
  rw [hor]
  omega

/-! ### The walk -/

theorem setWidth_ushiftRight (hW : 32 ≤ W) (w : BitVec 32) (n : ℕ) :
    (w >>> n).setWidth W = w.setWidth W >>> n := by
  apply BitVec.eq_of_getLsbD_eq
  intro i hi
  simp only [BitVec.getLsbD_setWidth, BitVec.getLsbD_ushiftRight, hi, decide_true, Bool.true_and]
  by_cases hn : n + i < W
  · simp [hn]
  · rw [BitVec.getLsbD_of_ge w _ (by omega)]
    simp

/-- A word that matches takes the branch of the instruction. -/
theorem field_of_matches (hW : 32 ≤ W) {w : BitVec 32} {j first len : ℕ} (h : P.Matches w j)
    (hfix : (P.insnMask j >>> first) &&& Bits.lowMask W len = Bits.lowMask W len) :
    field P first len j = (w >>> first).setWidth W &&& Bits.lowMask W len := by
  have hsplit : (P.insnMask j &&& w.setWidth W) >>> first =
      (P.insnMask j >>> first) &&& (w.setWidth W >>> first) := BitVec.ushiftRight_and_distrib ..
  calc field P first len j
      = ((P.insnMask j &&& w.setWidth W) >>> first) &&& Bits.lowMask W len := by
        rw [field, h]
    _ = (w.setWidth W >>> first) &&& ((P.insnMask j >>> first) &&& Bits.lowMask W len) := by
        rw [hsplit, BitVec.and_comm (P.insnMask j >>> first), BitVec.and_assoc]
    _ = (w >>> first).setWidth W &&& Bits.lowMask W len := by
        rw [hfix, setWidth_ushiftRight hW]

/-- **The walk through a tree** ends, returns an instruction only if it matches, and returns any
instruction of the tree that matches. -/
theorem decodeFrom_covers (hW : 32 ≤ W) {fuel : ℕ} (hd : d ≤ fuel) (he : e ≤ maxAutomataSize)
    (hC : ∀ j ∈ C, j < 2 ^ 31) (h : Covers P mem d a e C) (w : BitVec 32) :
    ∃ r, decodeFrom P mem w fuel a = some r ∧
      (r = -1 ∨ ∃ j ∈ C, r = j ∧ P.Matches w j) ∧ ∀ j ∈ C, P.Matches w j → r = j := by
  induction d generalizing fuel a e C with
  | zero => exact h.elim
  | succ d ih =>
    obtain ⟨fuel, rfl⟩ : ∃ k, fuel = k + 1 := ⟨fuel - 1, by omega⟩
    rcases h with ⟨j, rfl, -, hcell⟩ | ⟨first, len, hfl, hlen, hle, hfirst, hmask, hfix, hkids⟩
    · have hj := hC j (List.mem_singleton_self j)
      rw [decodeFrom, if_neg (by rw [hcell]; exact leaf_and_leafFlag hW _)]
      simp only [hcell, toNat_leaf_index hW hj]
      by_cases hm : P.Matches w j
      · have hm' : P.insnMask j &&& w.setWidth W = P.insn j := hm
        refine ⟨j, by rw [if_pos hm'], .inr ⟨j, List.mem_singleton_self j, rfl, hm⟩, ?_⟩
        intro k hk _
        rw [List.mem_singleton.1 hk]
      · have hm' : ¬P.insnMask j &&& w.setWidth W = P.insn j := hm
        refine ⟨-1, by rw [if_neg hm'], .inl rfl, ?_⟩
        intro k hk hk'
        exact absurd (List.mem_singleton.1 hk ▸ hk') hm
    · have hlt : first < 2 ^ 31 := lt_of_le_of_lt (by omega) (by decide : 32 < 2 ^ 31)
      have hnum : ((BitVec.ofNat W first).setWidth 32).toNat = first := by
        rw [BitVec.toNat_setWidth, toNat_ofNat_of_lt hW (by omega), Nat.mod_eq_of_lt (by omega)]
      rw [decodeFrom, if_pos (by rw [hfirst]; exact node_and_leafFlag hW hlt)]
      simp only [hfirst, hmask, hnum]
      have hlenW : len ≤ W := by omega
      have hidx : ((w >>> first).setWidth W &&& Bits.lowMask W len).toNat < 2 ^ len := by
        rw [Bits.toNat_and_lowMask _ hlenW]
        exact Nat.mod_lt _ (Nat.two_pow_pos len)
      -- Every instruction that matches is in the subtree the walk goes to.
      have hmem : ∀ j ∈ C, P.Matches w j → j ∈ child P C first len
          ((w >>> first).setWidth W &&& Bits.lowMask W len).toNat := by
        intro j hj hm
        rw [child, List.mem_filter]
        refine ⟨hj, decide_eq_true ?_⟩
        rw [field_of_matches hW hm (hfix j hj), BitVec.ofNat_toNat, BitVec.setWidth_eq]
      rcases hkids _ hidx with ⟨hnil, hcell⟩ | ⟨b, e', hb, he', hcell, hkid⟩
      · refine ⟨-1, by rw [if_pos hcell], .inl rfl, fun j hj hm => ?_⟩
        have := hmem j hj hm
        rw [hnil] at this
        cases this
      · have hbe := covers_lt hkid
        have hb32 : b < 2 ^ 32 := by
          have : maxAutomataSize = 1200 := rfl
          omega
        have hcellNat : (BitVec.ofNat W b).toNat = b := toNat_ofNat_of_lt hW hb32
        have hne : BitVec.ofNat W b ≠ 0 := ofNat_ne_zero hW (by omega) hb32
        have hsub : ∀ j ∈ child P C first len
            ((w >>> first).setWidth W &&& Bits.lowMask W len).toNat, j ∈ C :=
          fun j hj => (List.mem_filter.1 hj).1
        obtain ⟨r, hr, hres, hall⟩ :=
          ih (by omega : d ≤ fuel) (by omega) (fun j hj => hC j (hsub j hj)) hkid
        refine ⟨r, by rw [hcell, if_neg hne, hcellNat, hr], ?_, fun j hj hm => ?_⟩
        · exact hres.imp_right fun ⟨j, hj, hrj⟩ => ⟨j, hsub j hj, hrj⟩
        · exact hall j (hmem j hj hm) hm

end Decoder
end Or1ksim
