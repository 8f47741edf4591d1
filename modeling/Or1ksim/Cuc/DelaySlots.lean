import Or1ksim.Cuc.Executes

/-!
# Branches and their delay slots

A branch of the loaded function stands behind the instruction of its delay slot, and depends on what
an instruction in front of both has saved.

* `TargetsInside`, `Orderly` — what is asked of a function, and of the states of a run;
* `branch_at`, `ran_save`, `step_branch` — the branch, and the flag that is saved for it;
* `InStep` — the two machines are in step, outside of delay slots and in them;
* `step_plain`, `step_delayed` — **every instruction is caught up with**.
-/

namespace Or1ksim
namespace Cuc

open Runs (steps steps_one steps_trans Ends Emits Throughout Simulates)
open Lowering

variable {W : ℕ} {sh : Shifts} {haveUnsignedXori : Bool} {words : List (BitVec 32)}
  {c₀ c₁ c₂ c₃ c : Items W} {i p : ℕ} {s : Or1k} {t : Machine} {cond : Option Bool} {n : Word}

/-! ### The functions -/

section Runs

variable (sh : Shifts) (haveUnsignedXori : Bool) (words : List (BitVec 32))

/-- Every branch leads to an instruction of the function. -/
def TargetsInside : Prop :=
  ∀ p cond n, Or1k.opAt sh haveUnsignedXori words p = some (.branch cond n) →
    0 ≤ Or1k.target p n ∧ Or1k.target p n < words.length

/-- An instruction stands in the delay slot of a branch. -/
def InSlot (p : ℕ) : Prop :=
  0 < p ∧ ∃ cond n, Or1k.opAt sh haveUnsignedXori words (p - 1) = some (.branch cond n)

/-- What the current instruction does is kept by `cuc_load`: a branch that is taken does not lead to
a delay slot, and in a delay slot there is no conditional branch, and no other jump unless the next
instruction is the one behind it. -/
structure Orderly (s : Or1k) : Prop where
  target : ∀ {cond n}, Or1k.opAt sh haveUnsignedXori words s.pc = some (.branch cond n) →
    Or1k.taken cond s.flag = true →
      ¬InSlot sh haveUnsignedXori words (Or1k.target s.pc n).toNat
  cond : ∀ {cond n}, InSlot sh haveUnsignedXori words s.pc →
    Or1k.opAt sh haveUnsignedXori words s.pc = some (.branch cond n) →
      cond = none ∧ s.npc = s.pc + 1
  ret : InSlot sh haveUnsignedXori words s.pc →
    Or1k.opAt sh haveUnsignedXori words s.pc = some .ret → s.npc = s.pc + 1

end Runs

/-! ### Branches -/

theorem toNat_target (hW : 16 ≤ W) (h0 : 0 ≤ Or1k.target i n) (hlt : Or1k.target i n < maxInsns) :
    (BitVec.ofNat W i + n.signExtend W).toNat = (Or1k.target i n).toNat := by
  have hpow : 2 ^ 16 ≤ 2 ^ W := Nat.pow_le_pow_right (by decide) hW
  have hsum : BitVec.ofNat W i + n.signExtend W = BitVec.ofInt W (Or1k.target i n) := by
    rw [Or1k.target, BitVec.ofInt_add, BitVec.ofInt_natCast, BitVec.signExtend]
  have hbound : Or1k.target i n < ((2 ^ W : ℕ) : ℤ) :=
    Int.lt_of_lt_of_le hlt (Int.ofNat_le.2 hpow)
  rw [hsum, BitVec.toNat_ofInt, Int.emod_eq_of_lt h0 hbound]

/-- What a branch of the loaded function depends on. -/
def condOperand (c₀ c₂ c₃ : Items W) (p : ℕ) (cond : Option Bool) : Operand W :=
  cond.elim (.const 1) fun _ => .ref ⟨0, final c₂ c₃ (early c₀ p)⟩

namespace Lowering

theorem slots_num (h : Lowering sh haveUnsignedXori words c₀ c₁ c₂ c₃ c) : c₂.num = c₁.num :=
  (removeDslots_spec h.movable h.slots).1

theorem num_le (h : Lowering sh haveUnsignedXori words c₀ c₁ c₂ c₃ c) :
    c₀.num ≤ c₂.num ∧ c₂.num ≤ c₃.num ∧ c₃.num ≤ c.num := by
  refine ⟨?_, ?_, ?_⟩
  · rw [h.slots_num, h.branch.num]
    exact Expand.le_place fun k _ => by rw [branchWidth]; split <;> decide
  · rw [h.memory.num]
    exact Expand.le_place fun k _ => by rw [memoryWidth]; split <;> decide
  · rw [h.signed.num]
    exact Expand.le_place fun k _ => by rw [signedWidth]; split <;> decide

theorem toNat_ofNat (hW : 16 ≤ W) (h : Lowering sh haveUnsignedXori words c₀ c₁ c₂ c₃ c) {k : ℕ}
    (hk : k < c.num) : (BitVec.ofNat W k).toNat = k := by
  have hpow : 2 ^ 16 ≤ 2 ^ W := Nat.pow_le_pow_right (by decide) hW
  have hmax : maxInsns = 2 ^ 16 := rfl
  have hnum := h.num_lt
  rw [BitVec.toNat_ofNat, Nat.mod_eq_of_lt (by omega)]

theorem reloc_place (h : Lowering sh haveUnsignedXori words c₀ c₁ c₂ c₃ c) (hi : i < c₀.num) :
    c₁.reloc i = early c₀ i ∧ c₃.reloc (early c₀ i) = c₂.place memoryWidth (early c₀ i) ∧
      c.reloc (c₂.place memoryWidth (early c₀ i)) = final c₂ c₃ (early c₀ i) ∧
      early c₀ i < c₂.num ∧ c₂.place memoryWidth (early c₀ i) < c₃.num := by
  have hearly : early c₀ i < c₂.num := by
    rw [h.slots_num]
    exact h.early_lt (j := 0) (by rw [branchWidth]; split <;> decide) hi
  have hplace : c₂.place memoryWidth (early c₀ i) < c₃.num :=
    h.memory_lt hearly (j := 0) (by rw [memoryWidth]; split <;> decide)
  exact ⟨h.branch.reloc hi, h.memory.reloc hearly, h.signed.reloc hplace, hearly, hplace⟩

theorem final_lt_num (h : Lowering sh haveUnsignedXori words c₀ c₁ c₂ c₃ c) (hi : i < c₀.num) :
    final c₂ c₃ (early c₀ i) < c.num := by
  rw [h.signed.num]
  have hpos : 0 < signedWidth (c₃.insn (c₂.place memoryWidth (early c₀ i))) := by
    rw [signedWidth]
    split <;> decide
  exact Nat.lt_of_lt_of_le (Nat.lt_add_of_pos_right hpos)
    (Expand.place_add_le (h.reloc_place hi).2.2.2.2)

theorem renumber_jump (hW : 16 ≤ W) (h : Lowering sh haveUnsignedXori words c₀ c₁ c₂ c₃ c)
    (hi : i < c₀.num) {v : BitVec W} (hv : v.toNat = i) :
    (((Operand.jump v).renumber c₁.reloc).renumber c₃.reloc).renumber c.reloc =
      .jump (BitVec.ofNat W (final c₂ c₃ (early c₀ i))) := by
  obtain ⟨h₁, h₂, h₃, hlt₁, hlt₂⟩ := h.reloc_place hi
  obtain ⟨-, hle₁, hle₂⟩ := h.num_le
  simp only [Operand.renumber]
  rw [hv, h₁, h.toNat_ofNat hW (Nat.lt_of_lt_of_le hlt₁ (Nat.le_trans hle₁ hle₂)), h₂,
    h.toNat_ofNat hW (Nat.lt_of_lt_of_le hlt₂ hle₂), h₃]

theorem renumber_ref (h : Lowering sh haveUnsignedXori words c₀ c₁ c₂ c₃ c) (hi : i < c₀.num) :
    (((Operand.ref ⟨0, i⟩ : Operand W).renumber c₁.reloc).renumber c₃.reloc).renumber c.reloc =
      .ref ⟨0, final c₂ c₃ (early c₀ i)⟩ := by
  obtain ⟨h₁, h₂, h₃, -⟩ := h.reloc_place hi
  simp only [Operand.renumber]
  rw [h₁, h₂, h₃]

/-- **A branch of the loaded function.** -/
theorem branch_at (hW : 16 ≤ W) (h : Lowering sh haveUnsignedXori words c₀ c₁ c₂ c₃ c)
    (hi : i < c₀.num) (hl : Lowers sh i (.branch cond n) (c₀.insn i)) (h0 : 0 ≤ Or1k.target i n)
    (hlt : Or1k.target i n < c₀.num) :
    (c.insn (final c₂ c₃ (early c₀ (i + 1)))).index = .bf ∧
      (c.insn (final c₂ c₃ (early c₀ (i + 1)))).op 1 = condOperand c₀ c₂ c₃ i cond ∧
      ((c.insn (final c₂ c₃ (early c₀ (i + 1)))).op 0).word.toNat =
        final c₂ c₃ (early c₀ (Or1k.target i n).toNat) ∧
      final c₂ c₃ (early c₀ (i + 1) + 1) = final c₂ c₃ (early c₀ (i + 1)) + 1 := by
  have hb : (c₀.insn i).branch = true := hl.common.2.2.2 ⟨cond, n, rfl⟩
  obtain ⟨-, hinsn, hplace⟩ := h.insn_late_branch hi hb
  generalize hx : c₀.insn i = x at hl
  obtain ⟨hle₀, hle₂, hle₃⟩ := h.num_le
  have hmax := h.num_lt
  have hjump := h.renumber_jump hW (i := (Or1k.target i n).toNat) (by omega)
    (toNat_target hW h0 (by omega))
  cases hl with
  | branch =>
    obtain ⟨hfinal, hnext⟩ := h.plain_at hplace (by rw [hinsn, branchTo, hx]; cases cond <;> rfl)
      (by rw [hinsn, branchTo, hx]; cases cond <;> rfl)
    rw [hinsn, branchTo, hx] at hfinal
    refine ⟨?_, ?_, ?_, hnext⟩ <;> rw [hfinal]
    · cases cond <;> rfl
    · cases cond with
      | none => rfl
      | some b => exact h.renumber_ref hi
    · have hword := congrArg (fun o => o.word.toNat) hjump
      rw [Operand.word, h.toNat_ofNat hW (h.final_lt_num (by omega))] at hword
      cases cond <;> exact hword

theorem low_one (hW : W = 32 ∨ W = 64) : low (1 : BitVec W) = 1 := by
  rcases hW with rfl | rfl <;> rfl

/-- **The flag is saved** for the branch behind the delay slot, negated if required. -/
theorem ran_save (h : Lowering sh haveUnsignedXori words c₀ c₁ c₂ c₃ c) {k : ℕ} (hk : k < c₂.num)
    {x : Item W} (hx : c₂.insn k = saveFlag x) (hl : Lowers sh i (.branch cond n) x)
    (hW : W = 32 ∨ W = 64) (ha : Agrees s t) (hpc : t.pc = final c₂ c₃ k) :
    ∃ t', Ran sh c t (final c₂ c₃ k) (final c₂ c₃ (k + 1)) t' ∧ Agrees s t' ∧
      ∀ b, cond = some b → t'.vals (final c₂ c₃ k) = flag (Or1k.taken cond s.flag) := by
  obtain ⟨hinsn, hnext⟩ := h.plain_at hk (by rw [hx]; rfl) (by rw [hx]; rfl)
  have hfixed : (saveFlag x).IsFixed := saveFlag_isFixed hl.common.2.1
  rw [hx, hfixed.renumber_eq, hfixed.renumber_eq, ← hpc] at hinsn
  have hlt : t.pc < c.num := by
    rw [hpc]
    exact h.final_lt (j := 0) hk (by omega)
  have hexec : t.exec sh (c.insn t.pc) = t.saved
      (if t.regs 32 ≠ 0 then if x.flag1 then 0 else 1 else if x.flag1 then 1 else 0) := by
    rw [hinsn]
    change t.write (.dest (-1)) (if t.regs (flagReg : BitVec W).toNat ≠ 0
      then low (if x.flag1 then (0 : BitVec W) else 1)
      else low (if x.flag1 then (1 : BitVec W) else 0)) = _
    rw [Machine.write_none, flagReg_toNat hW, apply_ite low, apply_ite low, low_zero, low_one hW]
  refine ⟨_, ran_step hlt hexec (by rw [hnext, ← hpc]; rfl) rfl fun l hl => ?_,
    ⟨ha.regs, ha.flag, ha.mem⟩, ?_⟩
  · exact t.saved_vals_of_ne _ (by omega)
  · rintro b rfl
    rw [← hpc, t.saved_vals_self, ha.flag]
    cases hl with
    | branch =>
      cases b <;> cases s.flag <;> rfl

/-- **The branch**, behind its delay slot. -/
theorem step_branch (hW : W = 32 ∨ W = 64) (h : Lowering sh haveUnsignedXori words c₀ c₁ c₂ c₃ c)
    (hi : i < c₀.num) (hl : Lowers sh i (.branch cond n) (c₀.insn i)) (h0 : 0 ≤ Or1k.target i n)
    (hlt : Or1k.target i n < c₀.num) {b : Bool}
    (hvalue : t.value (condOperand c₀ c₂ c₃ i cond : Operand W) = flag b)
    (hpc : t.pc = final c₂ c₃ (early c₀ (i + 1))) :
    t.step sh c = some { t with
      pc := final c₂ c₃ (if b then early c₀ (Or1k.target i n).toNat else early c₀ (i + 1) + 1)
      outcomes := t.outcomes ++ [b] } := by
  obtain ⟨hindex, hcond, hjump, hnext⟩ := h.branch_at (by omega) hi hl h0 hlt
  have hnum : t.pc < c.num := by
    rw [hpc]
    exact h.final_lt_num (h.branch_lt hi (hl.common.2.2.2 ⟨cond, n, rfl⟩))
  rw [Machine.step_of_lt hnum, hpc, Machine.exec_branch hindex, hcond, hvalue, hjump, hpc]
  cases b with
  | false => 
    rw [if_neg (by decide), if_neg (by decide), hnext]
    rfl
  | true => 
    rw [if_pos (by decide), if_pos (by decide)]
    rfl

/-! ### The instructions of a word -/

theorem inSlot_iff (h : Lowering sh haveUnsignedXori words c₀ c₁ c₂ c₃ c) (hp : p ≤ c₀.num) :
    inSlot c₀ p ↔ InSlot sh haveUnsignedXori words p := by
  refine and_congr_right fun hpos => ?_
  obtain ⟨op, hop, hl, -⟩ := h.loaded.lowers (i := p - 1) (by omega)
  rw [hl.common.2.2, hop]
  simp only [Option.some.injEq]

theorem exec_late (hW : W = 32 ∨ W = 64) (h : Lowering sh haveUnsignedXori words c₀ c₁ c₂ c₃ c)
    (hi : i < c₀.num) {op : Operation} (hl : Lowers sh i op (c₀.insn i))
    (hb : (c₀.insn i).branch = false) (ha : Agrees s t) (hpc : t.pc = final c₂ c₃ (late c₀ i))
    (num : ℕ) :
    ∃ t', Ran sh c t (final c₂ c₃ (late c₀ i)) (final c₂ c₃ (late c₀ i + 1)) t' ∧
      Agrees (s.exec num op) t' := by
  obtain ⟨hk, hx⟩ := h.insn_late hi
  rw [first, hb, if_neg Bool.false_ne_true] at hx
  exact h.exec_block hW hk hx hl hb hpc ha num

theorem save_late (hW : W = 32 ∨ W = 64) (h : Lowering sh haveUnsignedXori words c₀ c₁ c₂ c₃ c)
    (hi : i < c₀.num) (hl : Lowers sh i (.branch cond n) (c₀.insn i)) (ha : Agrees s t)
    (hpc : t.pc = final c₂ c₃ (late c₀ i)) :
    ∃ t', Ran sh c t (final c₂ c₃ (late c₀ i)) (final c₂ c₃ (late c₀ i + 1)) t' ∧ Agrees s t' ∧
      ∀ b, cond = some b → t'.vals (final c₂ c₃ (late c₀ i)) = flag (Or1k.taken cond s.flag) := by
  obtain ⟨hk, hx⟩ := h.insn_late hi
  rw [first, if_pos (hl.common.2.2.2 ⟨cond, n, rfl⟩)] at hx
  exact h.ran_save hk hx hl hW ha hpc

/-- The delay slot of a branch begins behind the flag that is saved. -/
theorem nop_late (h : Lowering sh haveUnsignedXori words c₀ c₁ c₂ c₃ c) (hi : i < c₀.num)
    (hb : (c₀.insn i).branch = true) (hpc : t.pc = final c₂ c₃ (early c₀ i + 1)) :
    Ran sh c t (final c₂ c₃ (early c₀ i + 1)) (final c₂ c₃ (late c₀ (i + 1)))
      { t with pc := t.pc + 1 } := by
  obtain ⟨hnop, -, hlt⟩ := h.insn_late_branch hi hb
  have hsucc : early c₀ (i + 1) = early c₀ i + 3 := by rw [early_succ, if_pos hb]
  have hlate : late c₀ (i + 1) = early c₀ i + 1 + 1 := by
    rw [late, if_pos ⟨Nat.succ_pos i, hb⟩]
    omega
  rw [hlate]
  exact h.ran_nop (by omega) hnop hpc

end Lowering

/-- The instruction behind the next one follows, also where the function returns from the end. -/
theorem Or1k.exec_other {op : Operation} {num : ℕ} (hb : ∀ cond n, op ≠ .branch cond n)
    (hret : op = .ret → num = s.npc + 1) :
    (s.exec num op).pc = s.npc ∧ (s.exec num op).npc = s.npc + 1 ∧
      (s.exec num op).outcomes = s.outcomes := by
  cases op with
  | branch cond n => exact absurd rfl (hb cond n)
  | ret => exact ⟨rfl, hret rfl, rfl⟩
  | _ => exact ⟨rfl, rfl, rfl⟩

theorem Machine.outcomes_prefix (t : Machine) (x : Item W) :
    t.outcomes <+: (t.exec sh x).outcomes := by
  unfold exec
  split
  case h_2 => exact ⟨_, rfl⟩
  all_goals exact List.prefix_rfl

/-! ### In step -/

/-- The instruction behind the current one is next, and none is in a delay slot. -/
structure Plain (c₀ c₂ c₃ : Items W) (s : Or1k) (t : Machine) : Prop where
  le : s.pc ≤ c₀.num
  npc : s.npc = s.pc + 1
  slot : ¬inSlot c₀ s.pc
  place : t.pc = final c₂ c₃ (early c₀ s.pc)
  outcomes : t.outcomes = s.outcomes

/-- The current instruction stands in the delay slot of a branch, which has been taken if `b` is
set. -/
structure Delayed (sh : Shifts) (haveUnsignedXori : Bool) (words : List (BitVec 32))
    (c₀ c₂ c₃ : Items W) (b : Bool) (s : Or1k) (t : Machine) (cond : Option Bool) (n : Word)
    (p : ℕ) : Prop where
  op : Or1k.opAt sh haveUnsignedXori words p = some (.branch cond n)
  lt : p < c₀.num
  pc : s.pc = p + 1
  npc : s.npc = if b then (Or1k.target p n).toNat else s.pc + 1
  slot : b = true → ¬inSlot c₀ (Or1k.target p n).toNat
  place : t.pc = final c₂ c₃ (late c₀ s.pc)
  value : t.value (condOperand c₀ c₂ c₃ p cond : Operand W) = flag b
  outcomes : s.outcomes = t.outcomes ++ [b]

/-- The two machines are in step. -/
def InStep (sh : Shifts) (haveUnsignedXori : Bool) (words : List (BitVec 32))
    (c₀ c₂ c₃ : Items W) (s : Or1k) (t : Machine) : Prop :=
  Agrees s t ∧ (Plain c₀ c₂ c₃ s t ∨
    ∃ b cond n p, Delayed sh haveUnsignedXori words c₀ c₂ c₃ b s t cond n p)

/-- Behind an instruction, the second machine runs on to where the two are in step again. -/
def CatchesUp (sh : Shifts) (haveUnsignedXori : Bool) (words : List (BitVec 32))
    (c₀ c₂ c₃ c : Items W) (op : Operation) (s : Or1k) (t : Machine) : Prop :=
  ∃ n t', steps (Machine.step sh c) (n + 1) t = some t' ∧
    InStep sh haveUnsignedXori words c₀ c₂ c₃ (s.exec c₀.num op) t' ∧ t'.outcomes = s.outcomes

namespace Lowering

/-- **An instruction outside of delay slots.** -/
theorem step_plain (hW : W = 32 ∨ W = 64) (h : Lowering sh haveUnsignedXori words c₀ c₁ c₂ c₃ c)
    (hinside : TargetsInside sh haveUnsignedXori words) (ha : Agrees s t)
    (hp : Plain c₀ c₂ c₃ s t) (hs : Orderly sh haveUnsignedXori words s)
    {op : Operation} (hop : Or1k.opAt sh haveUnsignedXori words s.pc = some op)
    (hl : Lowers sh s.pc op (c₀.insn s.pc)) (hret : op = .ret ↔ s.pc + 2 = c₀.num)
    (hi : s.pc < c₀.num) :
    CatchesUp sh haveUnsignedXori words c₀ c₂ c₃ c op s t := by
  have hlate : late c₀ s.pc = early c₀ s.pc := if_neg hp.slot
  have hpc := hp.place
  rw [← hlate] at hpc
  cases hb : (c₀.insn s.pc).branch with
  | false =>
    obtain ⟨t', hran, ha'⟩ := h.exec_late hW hi hl hb ha hpc c₀.num
    obtain ⟨m, hm⟩ := hran.steps
    have hother : ∀ cond n, op ≠ .branch cond n := fun cond n heq => by
      rw [hl.common.2.2.2 ⟨cond, n, heq⟩] at hb
      cases hb
    have hend : op = .ret → c₀.num = s.npc + 1 := fun heq => by rw [hp.npc, ← hret.1 heq]
    obtain ⟨hpc', hnpc', hout'⟩ := s.exec_other hother hend
    refine ⟨m, t', hm, ⟨ha', .inl ?_⟩, hran.outcomes.trans hp.outcomes⟩
    rw [hp.npc] at hpc' hnpc'
    refine ⟨by omega, by rw [hnpc', hpc'], ?_, ?_, by rw [hran.outcomes, hp.outcomes, hout']⟩
    · rw [hpc']
      rintro ⟨-, hbranch⟩
      rw [Nat.add_sub_cancel, hb] at hbranch
      cases hbranch
    · rw [hran.pc, hlate, hpc', early_succ, hb, if_neg Bool.false_ne_true]
  | true =>
    obtain ⟨cond, n, rfl⟩ := hl.common.2.2.1 hb
    obtain ⟨t₁, hran, ha₁, hval⟩ := h.save_late hW hi hl ha hpc
    have hnop : Ran sh c t₁ _ (final c₂ c₃ (late c₀ (s.pc + 1))) _ :=
      h.nop_late hi hb (by rw [hran.pc, hlate])
    obtain ⟨m, hm⟩ := hran.steps
    obtain ⟨m', hm'⟩ := hnop.steps
    have hsteps := steps_trans hm hm'
    refine ⟨m + 1 + m', _, hsteps, ⟨⟨ha₁.regs, ha₁.flag, ha₁.mem⟩, .inr
      ⟨Or1k.taken cond s.flag, cond, n, s.pc, ?_⟩⟩, hran.outcomes.trans hp.outcomes⟩
    have hpc' : (s.exec c₀.num (.branch cond n)).pc = s.pc + 1 := hp.npc
    refine ⟨hop, hi, hpc', ?_, ?_, ?_, ?_, ?_⟩
    · rw [hpc', ← hp.npc]
      rfl
    · intro htaken
      obtain ⟨h0, hlt⟩ := hinside _ _ _ hop
      rw [← h.loaded.num] at hlt
      rw [h.inSlot_iff (by omega)]
      exact hs.target hop htaken
    · rw [hpc']
      exact hnop.pc
    · cases cond with
      | none => exact low_one hW
      | some b =>
        rw [hlate] at hval
        exact hval b rfl
    · exact congrArg (· ++ [Or1k.taken cond s.flag]) (hran.outcomes.trans hp.outcomes).symm

theorem final_lt_final (h : p < i) : final c₂ c₃ p < final c₂ c₃ i := by
  have hmemory : c₂.place memoryWidth p < c₂.place memoryWidth i := by
    refine Nat.lt_of_lt_of_le (Nat.lt_add_of_pos_right ?_) (Expand.place_add_le h)
    rw [memoryWidth]
    split <;> decide
  refine Nat.lt_of_lt_of_le (Nat.lt_add_of_pos_right ?_) (Expand.place_add_le hmemory)
  rw [signedWidth]
  split <;> decide

/-- **A branch, behind the first instruction of its delay slot.** -/
theorem steps_delayed (hW : W = 32 ∨ W = 64) (h : Lowering sh haveUnsignedXori words c₀ c₁ c₂ c₃ c)
    (hinside : TargetsInside sh haveUnsignedXori words) {b : Bool}
    (hd : Delayed sh haveUnsignedXori words c₀ c₂ c₃ b s t cond n p) {t₁ : Machine}
    (hran : Ran sh c t (final c₂ c₃ (late c₀ s.pc)) (final c₂ c₃ (late c₀ s.pc + 1)) t₁) :
    ∃ m, steps (Machine.step sh c) (m + 1) t = some { t₁ with
      pc := final c₂ c₃ (if b then early c₀ (Or1k.target p n).toNat else early c₀ s.pc + 1)
      outcomes := s.outcomes } := by
  obtain ⟨op, hop, hl, -⟩ := h.loaded.lowers hd.lt
  obtain rfl : op = .branch cond n := Option.some.inj (hop.symm.trans hd.op)
  obtain ⟨h0, hlt⟩ := hinside _ _ _ hop
  rw [← h.loaded.num] at hlt
  have hslot : inSlot c₀ s.pc := by
    rw [hd.pc]
    exact ⟨Nat.succ_pos p, hl.common.2.2.2 ⟨cond, n, rfl⟩⟩
  have hearly := early_of_inSlot hslot
  have hlate : late c₀ s.pc = early c₀ p + 2 := by
    rw [late, if_pos hslot, hearly, hd.pc]
    rfl
  -- The delay slot leaves the flag that was saved.
  have hvalue : t₁.value (condOperand c₀ c₂ c₃ p cond : Operand W) = flag b := by
    rw [← hd.value]
    cases cond with
    | none => rfl
    | some b =>
      refine hran.vals _ (final_lt_final ?_)
      omega
  have hpc : t₁.pc = final c₂ c₃ (early c₀ (p + 1)) := by
    rw [hran.pc, ← hd.pc, hearly, hlate, hd.pc]
    rfl
  obtain ⟨m, hm⟩ := hran.steps
  have hbranch := h.step_branch hW hd.lt hl h0 hlt hvalue hpc
  rw [← steps_one (Machine.step sh c)] at hbranch
  refine ⟨m + 1, ?_⟩
  have hsteps := steps_trans hm hbranch
  rwa [hran.outcomes, ← hd.outcomes, ← hd.pc] at hsteps

/-- **An instruction in a delay slot.** -/
theorem step_delayed (hW : W = 32 ∨ W = 64) (h : Lowering sh haveUnsignedXori words c₀ c₁ c₂ c₃ c)
    (hinside : TargetsInside sh haveUnsignedXori words) (ha : Agrees s t) {b : Bool}
    (hd : Delayed sh haveUnsignedXori words c₀ c₂ c₃ b s t cond n p)
    (hs : Orderly sh haveUnsignedXori words s)
    {op : Operation} (hop : Or1k.opAt sh haveUnsignedXori words s.pc = some op)
    (hl : Lowers sh s.pc op (c₀.insn s.pc)) (hret : op = .ret ↔ s.pc + 2 = c₀.num)
    (hi : s.pc < c₀.num) :
    CatchesUp sh haveUnsignedXori words c₀ c₂ c₃ c op s t := by
  have hslot : InSlot sh haveUnsignedXori words s.pc := by
    refine ⟨by rw [hd.pc]; exact Nat.succ_pos p, cond, n, ?_⟩
    rw [hd.pc]
    exact hd.op
  have hlate : late c₀ s.pc + 1 = early c₀ s.pc := by
    have hearly := early_of_inSlot ((h.inSlot_iff (Nat.le_of_lt hi)).2 hslot)
    rw [late, if_pos ((h.inSlot_iff (Nat.le_of_lt hi)).2 hslot)]
    omega
  cases hb : (c₀.insn s.pc).branch with
  | false =>
    have hother : ∀ cond n, op ≠ .branch cond n := fun cond n heq => by
      rw [hl.common.2.2.2 ⟨cond, n, heq⟩] at hb
      cases hb
    obtain ⟨t₁, hran, ha₁⟩ := h.exec_late hW hi hl hb ha hd.place c₀.num
    obtain ⟨m, hm⟩ := h.steps_delayed hW hinside hd hran
    have hend : op = .ret → c₀.num = s.npc + 1 := fun heq => by
      rw [hs.ret hslot (by rw [hop, heq]), ← hret.1 heq]
    obtain ⟨hpc', hnpc', hout'⟩ := s.exec_other hother hend
    refine ⟨m, _, hm, ⟨⟨ha₁.regs, ha₁.flag, ha₁.mem⟩, .inl ?_⟩, rfl⟩
    have hnpc := hd.npc
    cases b with
    | false =>
      rw [if_neg Bool.false_ne_true] at hnpc
      rw [hnpc] at hpc' hnpc'
      refine ⟨by omega, by rw [hnpc', hpc'], ?_, ?_, hout'.symm⟩
      · rw [hpc']
        rintro ⟨-, hbranch⟩
        rw [Nat.add_sub_cancel, hb] at hbranch
        cases hbranch
      · rw [hpc', early_succ, hb]
        rfl
    | true =>
      obtain ⟨h0, hlt⟩ := hinside _ _ _ hd.op
      rw [← h.loaded.num] at hlt
      rw [if_pos rfl] at hnpc
      rw [hnpc] at hpc' hnpc'
      refine ⟨by omega, by rw [hnpc', hpc'], ?_, ?_, hout'.symm⟩
      · rw [hpc']
        exact hd.slot rfl
      · rw [hpc']
        rfl
  | true =>
    obtain ⟨cond', n', rfl⟩ := hl.common.2.2.1 hb
    obtain ⟨rfl, hnpc⟩ := hs.cond hslot hop
    -- A branch that is taken does not lead behind the jump in its delay slot.
    have hfalse : b = false := by
      rw [Bool.eq_false_iff]
      rintro rfl
      have hother := hd.slot rfl
      have htarget : (Or1k.target p n).toNat = s.pc + 1 := by
        rw [← hnpc, hd.npc]
        rfl
      rw [htarget] at hother
      exact hother ⟨Nat.succ_pos _, hb⟩
    subst hfalse
    obtain ⟨t₁, hran, ha₁, -⟩ := h.save_late hW hi hl ha hd.place
    obtain ⟨m, hm⟩ := h.steps_delayed hW hinside hd hran
    have hnop : Ran sh c { t₁ with
        pc := final c₂ c₃ (early c₀ s.pc + 1), outcomes := s.outcomes } _ _ _ :=
      h.nop_late hi hb rfl
    obtain ⟨m', hm'⟩ := hnop.steps
    have hsteps := steps_trans hm hm'
    refine ⟨m + 1 + m', _, hsteps, ⟨⟨ha₁.regs, ha₁.flag, ha₁.mem⟩, .inr
      ⟨true, none, n', s.pc, ?_⟩⟩, rfl⟩
    have hpc' : (s.exec c₀.num (.branch none n')).pc = s.pc + 1 := hnpc
    refine ⟨hop, hi, hpc', rfl, ?_, ?_, low_one hW, rfl⟩
    · intro _
      obtain ⟨h0, hlt⟩ := hinside _ _ _ hop
      rw [← h.loaded.num] at hlt
      rw [h.inSlot_iff (by omega)]
      exact hs.target hop rfl
    · rw [hpc']
      exact hnop.pc

end Lowering

end Cuc
end Or1ksim
