import Or1ksim.Cuc.DelaySlots

/-!
# Runs of a loaded function

* `Lowering.simulates` — the loaded function runs in step with the words;
* `cucLoad_preserves` — **it ends as they do, and takes the same branches**, as long as the branches
  are orderly;
* `orderly_of_check` — a function that is orderly in every state;
* `cucLoad_not_preserves` — a jump into the delay slot of another jump.
-/

namespace Or1ksim
namespace Cuc

open Runs (steps Ends Emits Throughout Simulates)
open Lowering

variable {W : ℕ} {sh : Shifts} {haveUnsignedXori : Bool} {words : List (BitVec 32)}
  {c₀ c₁ c₂ c₃ c : Items W} {p : ℕ} {op : Operation} {cond : Option Bool} {n : Word}

/-- The general purpose registers, the flag, the memory, and whether the branches were taken. -/
structure Observed where
  regs : Fin 32 → Word
  flag : Word
  mem : Bytes
  outcomes : List Bool

def Or1k.observed (s : Or1k) : Observed :=
  ⟨fun r => s.regs r, Cuc.flag s.flag, s.mem, s.outcomes⟩

def Machine.observed (t : Machine) : Observed := ⟨fun r => t.regs r, t.regs 32, t.mem, t.outcomes⟩

/-- The first instruction is next. -/
def Or1k.start (regs : ℕ → Word) (f : Bool) (mem : Bytes) : Or1k := ⟨regs, f, mem, 0, 1, []⟩

def Machine.start (regs : ℕ → Word) (f : Bool) (mem : Bytes) (vals : ℕ → Word) : Machine :=
  ⟨Function.update regs 32 (flag f), vals, mem, 0, []⟩

namespace Lowering

theorem early_num (h : Lowering sh haveUnsignedXori words c₀ c₁ c₂ c₃ c) :
    final c₂ c₃ (early c₀ c₀.num) = c.num := by
  rw [h.num_eq_final, h.slots_num, h.branch.num]
  rfl

/-- **The loaded function runs in step with the words.** -/
theorem simulates (hW : W = 32 ∨ W = 64) (h : Lowering sh haveUnsignedXori words c₀ c₁ c₂ c₃ c)
    (hinside : TargetsInside sh haveUnsignedXori words) :
    Simulates (Or1k.step sh haveUnsignedXori words) (Machine.step sh c)
      (InStep sh haveUnsignedXori words c₀ c₂ c₃) (Orderly sh haveUnsignedXori words)
      Or1k.outcomes Machine.outcomes Or1k.observed Machine.observed where
  halt := by
    rintro s t ⟨ha, hin⟩ hstep
    have hge : c₀.num ≤ s.pc := by
      by_contra hlt
      obtain ⟨op, hop, -⟩ := h.loaded.lowers (Nat.lt_of_not_le hlt)
      rw [Or1k.step, hop] at hstep
      cases hstep
    rcases hin with hp | ⟨b, cond, n, p, hd⟩
    · have hpc : t.pc = c.num := by
        rw [hp.place, Nat.le_antisymm hp.le hge, h.early_num]
      refine ⟨if_neg (by omega), ?_, hp.outcomes⟩
      rw [Machine.observed, Or1k.observed, ha.flag, ha.mem, hp.outcomes]
      congr 1
      exact funext fun r => ha.regs r r.isLt
    · obtain ⟨op, hop, hl, -⟩ := h.loaded.lowers hd.lt
      obtain rfl : op = .branch cond n := Option.some.inj (hop.symm.trans hd.op)
      have hlt := h.branch_lt hd.lt (hl.common.2.2.2 ⟨cond, n, rfl⟩)
      have hpc := hd.pc
      omega
  step := by
    rintro s s' t ⟨ha, hin⟩ hs hstep
    obtain ⟨op, hop, rfl⟩ := Option.map_eq_some_iff.1 hstep
    have hi : s.pc < c₀.num := by
      rw [h.loaded.num]
      obtain ⟨w, hw, -⟩ := Option.bind_eq_some_iff.1 hop
      exact (List.getElem?_eq_some_iff.1 hw).1
    obtain ⟨op', hop', hl, hret⟩ := h.loaded.lowers hi
    obtain rfl : op' = op := Option.some.inj (hop'.symm.trans hop)
    rw [← h.loaded.num]
    obtain ⟨m, t', ht', hin', hout⟩ :
        CatchesUp sh haveUnsignedXori words c₀ c₂ c₃ c op' s t := by
      rcases hin with hp | ⟨b, cond, n, p, hd⟩
      · exact h.step_plain hW hinside ha hp hs hop hl hret hi
      · exact h.step_delayed hW hinside ha hd hs hop hl hret hi
    exact ⟨m, t', ht', hin', hout ▸ List.prefix_rfl⟩
  behind := by
    rintro s t ⟨-, hp | ⟨b, cond, n, p, hd⟩⟩
    · rw [hp.outcomes]
    · exact ⟨[b], hd.outcomes.symm⟩
  grows := by
    intro t t' hstep
    unfold Machine.step at hstep
    split_ifs at hstep
    cases hstep
    exact t.outcomes_prefix _

end Lowering

/-! ### Runs -/

/-- The words and the loaded function do the same, from the same registers, flag and memory. -/
def Preserves (sh : Shifts) (haveUnsignedXori : Bool) (words : List (BitVec 32)) (c : Items W)
    (s : Or1k) (t : Machine) : Prop :=
  (∀ x, (∃ v, Ends (Machine.step sh c) t v ∧ v.observed = x) ↔
    ∃ u, Ends (Or1k.step sh haveUnsignedXori words) s u ∧ u.observed = x) ∧
  ∀ l, Emits (Machine.step sh c) Machine.outcomes t l ↔
    Emits (Or1k.step sh haveUnsignedXori words) Or1k.outcomes s l

/-- **`cuc_load` preserves what the words do**, in every run whose branches are orderly. -/
theorem cucLoad_preserves (hW : W = 32 ∨ W = 64) {reloc : ℕ → ℕ}
    (hload : cucLoad W haveUnsignedXori reloc words = some c)
    (hinside : TargetsInside sh haveUnsignedXori words) (regs vals : ℕ → Word) (f : Bool)
    (mem : Bytes)
    (hrun : Throughout (Or1k.step sh haveUnsignedXori words)
      (Orderly sh haveUnsignedXori words) (Or1k.start regs f mem)) :
    Preserves sh haveUnsignedXori words c (Or1k.start regs f mem)
      (Machine.start regs f mem vals) := by
  obtain ⟨c₀, c₁, c₂, c₃, h⟩ := exists_lowering hW hload sh
  have hsim := h.simulates hW hinside
  have hstart : InStep sh haveUnsignedXori words c₀ c₂ c₃ (Or1k.start regs f mem)
      (Machine.start regs f mem vals) := by
    refine ⟨⟨fun r hr => ?_, ?_, rfl⟩, .inl ⟨Nat.zero_le _, rfl, fun hslot => ?_, rfl, rfl⟩⟩
    · change Function.update regs 32 (flag f) r = regs r
      rw [Function.update_of_ne (Nat.ne_of_lt hr)]
    · change Function.update regs 32 (flag f) 32 = flag f
      rw [Function.update_self]
    · exact absurd hslot.1 (Nat.lt_irrefl 0)
  exact ⟨hsim.ends_iff hstart hrun, hsim.emits_iff hstart hrun⟩

/-! ### What can be seen without running -/

/-- Where an instruction leads. -/
inductive Control where
  | next
  | branch (cond : Option Bool) (n : Word)
  | ret
deriving DecidableEq

def Operation.control : Operation → Control
  | .branch cond n => .branch cond n
  | .ret => .ret
  | _ => .next

/-- Where the words of a function lead. -/
def controls (sh : Shifts) (haveUnsignedXori : Bool) (words : List (BitVec 32)) :
    List (Option Control) :=
  (words.map (operation sh haveUnsignedXori)).map (Option.map Operation.control)

/-- Where the branch at place `p` leads. -/
def leadsTo (l : List (Option Control)) (p : ℕ) : Option ℤ :=
  match l[p]? with
  | some (some (.branch _ n)) => some (Or1k.target p n)
  | _ => none

def isSlot (l : List (Option Control)) (p : ℕ) : Bool :=
  decide (0 < p) && (leadsTo l (p - 1)).isSome

/-- Every branch leads to an instruction of the function. -/
def checkTargets (l : List (Option Control)) : Bool :=
  (List.range l.length).all fun p =>
    (leadsTo l p).all fun t => decide (0 ≤ t) && decide (t < (l.length : ℤ))

/-- No branch leads to a delay slot, and no jump stands in one. -/
def checkSlots (l : List (Option Control)) : Bool :=
  (List.range l.length).all fun p =>
    ((leadsTo l p).all fun t => !isSlot l t.toNat) &&
      (!isSlot l p || l[p]? == some (some .next))

theorem controls_of_opAt (h : Or1k.opAt sh haveUnsignedXori words p = some op) :
    p < (controls sh haveUnsignedXori words).length ∧
      (controls sh haveUnsignedXori words)[p]? = some (some op.control) := by
  obtain ⟨w, hw, hop⟩ := Option.bind_eq_some_iff.1 h
  have hget : (controls sh haveUnsignedXori words)[p]? = some (some op.control) := by
    rw [controls, List.getElem?_map, List.getElem?_map, hw, Option.map_some, hop]
    rfl
  exact ⟨(List.getElem?_eq_some_iff.1 hget).1, hget⟩

theorem leadsTo_of_opAt (h : Or1k.opAt sh haveUnsignedXori words p = some (.branch cond n)) :
    leadsTo (controls sh haveUnsignedXori words) p = some (Or1k.target p n) := by
  rw [leadsTo, (controls_of_opAt h).2]
  rfl

theorem isSlot_of_inSlot (h : InSlot sh haveUnsignedXori words p) :
    isSlot (controls sh haveUnsignedXori words) p = true := by
  obtain ⟨hpos, cond, n, hop⟩ := h
  rw [isSlot, decide_eq_true hpos, leadsTo_of_opAt hop]
  rfl

theorem targetsInside_of_check (h : checkTargets (controls sh haveUnsignedXori words) = true) :
    TargetsInside sh haveUnsignedXori words := by
  intro p cond n hop
  have hlen : (controls sh haveUnsignedXori words).length = words.length := by
    rw [controls, List.length_map, List.length_map]
  have hcheck := List.all_eq_true.1 h p (List.mem_range.2 (controls_of_opAt hop).1)
  rw [leadsTo_of_opAt hop, Option.all_some, Bool.and_eq_true, hlen] at hcheck
  exact ⟨of_decide_eq_true hcheck.1, of_decide_eq_true hcheck.2⟩

/-- **A function without jumps in delay slots, or into them, is orderly in every state.** -/
theorem orderly_of_check (h : checkSlots (controls sh haveUnsignedXori words) = true) (s : Or1k) :
    Orderly sh haveUnsignedXori words s := by
  have hcheck := fun {op} (hop : Or1k.opAt sh haveUnsignedXori words s.pc = some op) =>
    Bool.and_eq_true_iff.1
      (List.all_eq_true.1 h s.pc (List.mem_range.2 (controls_of_opAt hop).1))
  -- Only an instruction that leads to the next one stands in a delay slot.
  have hnext : ∀ {op}, InSlot sh haveUnsignedXori words s.pc →
      Or1k.opAt sh haveUnsignedXori words s.pc = some op → op.control = .next := by
    intro op hslot hop
    have hright := (hcheck hop).2
    rw [isSlot_of_inSlot hslot, (controls_of_opAt hop).2] at hright
    simpa using hright
  refine ⟨fun {cond n} hop _ hslot => ?_, fun {cond n} hslot hop => ?_, fun hslot hop => ?_⟩
  · have hleft := (hcheck hop).1
    rw [leadsTo_of_opAt hop, Option.all_some, isSlot_of_inSlot hslot] at hleft
    cases hleft
  · cases hnext hslot hop
  · cases hnext hslot hop

/-! ### Programs -/

/-- A load, a signed comparison, a branch with an addition in its delay slot, and a store. -/
def branchOverStore : List (BitVec 32) :=
  [0x84830000, 0xe5442800, 0x10000003, 0x9cc60001, 0xd4033004, 0x44004800, 0x15000000]

/-- The rows that its words match. -/
def branchOverStoreRows : {rows // RowsOf 32 true branchOverStore rows} :=
  ⟨[112, 205, 3, 118, 173, 104, 4].filterMap ((Insn.opcodes true)[·]?),
    rowsOf_of_check (.inl rfl) (by decide +kernel)⟩

theorem branchOverStore_loads :
    controls anyShifts true branchOverStore =
        [some .next, some .next, some (.branch (some true) 3), some .next, some .next, some .ret,
          some .next] ∧
      (cucLoad 32 true (fun _ => 0) branchOverStore).isSome = true := by
  constructor
  · rw [controls, map_operation_of_rows (.inl rfl) branchOverStoreRows.2]
    decide
  · rw [cucLoad, loadWords, foldlM_loadRow (by decide) branchOverStoreRows.2]
    decide

/-- The run takes the branch, so that nothing is stored. -/
theorem cucLoad_preserves_branchOverStore :
    ∃ c, cucLoad 32 true (fun _ => 0) branchOverStore = some c ∧
      Preserves anyShifts true branchOverStore c (Or1k.start (fun _ => 0) false fun _ => 1)
        (Machine.start (fun _ => 0) false (fun _ => 1) fun _ => 0) := by
  obtain ⟨c, hc⟩ := Option.isSome_iff_exists.1 branchOverStore_loads.2
  refine ⟨c, hc, cucLoad_preserves (.inl rfl) hc ?_ _ _ _ _ fun _ t _ => ?_⟩
  · refine targetsInside_of_check ?_
    rw [branchOverStore_loads.1]
    decide
  · refine orderly_of_check ?_ t
    rw [branchOverStore_loads.1]
    decide

/-- A jump into the delay slot of another jump. -/
def jumpIntoSlot : List (BitVec 32) :=
  [0x00000003, 0x15000000, 0x00000002, 0x18600005, 0x44004800, 0x15000000]

/-- The rows that its words match. -/
def jumpIntoSlotRows : {rows // RowsOf 64 true jumpIntoSlot rows} :=
  ⟨[0, 4, 0, 5, 104, 4].filterMap ((Insn.opcodes true)[·]?),
    rowsOf_of_check (.inr rfl) (by decide +kernel)⟩

theorem controls_jumpIntoSlot : controls anyShifts true jumpIntoSlot =
    [some (.branch none 3), some .next, some (.branch none 2), some .next, some .ret,
      some .next] := by
  rw [controls, map_operation_of_rows (.inr rfl) jumpIntoSlotRows.2]
  decide

theorem opAt_jumpIntoSlot : Or1k.opAt anyShifts true jumpIntoSlot = fun p =>
    (((jumpIntoSlot.zip jumpIntoSlotRows.1).map fun x =>
      (kind anyShifts x.2.function).operation
        ((rowLetters x.2).map (letterSource x.2.enc x.1)))[p]?).join := by
  funext p
  rw [← map_operation_of_rows (.inr rfl) jumpIntoSlotRows.2, List.getElem?_map, Or1k.opAt]
  cases jumpIntoSlot[p]? <;> rfl

/-- The words run through the delay slot that is jumped to. -/
theorem run_jumpIntoSlot :
    ∃ u, Ends (Or1k.step anyShifts true jumpIntoSlot)
      (Or1k.start (fun _ => 0) false fun _ => 0) u ∧ u.regs 3 = 0x50000 := by
  have hrun : ((steps (Or1k.step anyShifts true jumpIntoSlot) 5
      (Or1k.start (fun _ => 0) false fun _ => 0)).map fun u =>
        (u.regs 3, (Or1k.step anyShifts true jumpIntoSlot u).isNone)) = some (0x50000, true) := by
    have hstep : Or1k.step anyShifts true jumpIntoSlot =
        fun s => (Or1k.opAt anyShifts true jumpIntoSlot s.pc).map (s.exec 6) := rfl
    rw [opAt_jumpIntoSlot] at hstep
    rw [hstep]
    decide
  obtain ⟨u, hu, heq⟩ := Option.map_eq_some_iff.1 hrun
  rw [Prod.mk.injEq, Option.isNone_iff_eq_none] at heq
  exact ⟨u, ⟨5, hu, heq.2⟩, heq.1⟩

theorem loaded_jumpIntoSlot :
    ∃ c, cucLoad 64 true (fun _ => 0) jumpIntoSlot = some c ∧
      ∃ v, Ends (Machine.step anyShifts c)
        (Machine.start (fun _ => 0) false (fun _ => 0) fun _ => 0) v ∧ v.regs 3 = 0 := by
  have hrun : ((cucLoad 64 true (fun _ => 0) jumpIntoSlot).bind fun c =>
      (steps (Machine.step anyShifts c) 7
        (Machine.start (fun _ => 0) false (fun _ => 0) fun _ => 0)).map fun v =>
          (v.regs 3, (Machine.step anyShifts c v).isNone)) = some (0, true) := by
    rw [cucLoad, loadWords, foldlM_loadRow (by decide) jumpIntoSlotRows.2]
    decide
  obtain ⟨c, hc, hrun⟩ := Option.bind_eq_some_iff.1 hrun
  obtain ⟨v, hv, heq⟩ := Option.map_eq_some_iff.1 hrun
  rw [Prod.mk.injEq, Option.isNone_iff_eq_none] at heq
  exact ⟨c, hc, v, ⟨7, hv, heq.2⟩, heq.1⟩

/-- **`cuc_load` accepts a function that it does not preserve**: the assertion that no delay slot is
the target of a branch reads a flag that is not yet set. -/
theorem cucLoad_not_preserves :
    ∃ c, cucLoad 64 true (fun _ => 0) jumpIntoSlot = some c ∧
      TargetsInside anyShifts true jumpIntoSlot ∧
      ¬Preserves anyShifts true jumpIntoSlot c (Or1k.start (fun _ => 0) false fun _ => 0)
        (Machine.start (fun _ => 0) false (fun _ => 0) fun _ => 0) := by
  obtain ⟨c, hc, v, hv, hv3⟩ := loaded_jumpIntoSlot
  obtain ⟨u, hu, hu3⟩ := run_jumpIntoSlot
  refine ⟨c, hc, targetsInside_of_check ?_, fun hpreserves => ?_⟩
  · rw [controls_jumpIntoSlot]
    decide
  · obtain ⟨w, hw, heq⟩ := (hpreserves.1 u.observed).2 ⟨u, hu, rfl⟩
    rw [hw.unique hv] at heq
    have hregs : v.regs 3 = u.regs 3 := congrFun (congrArg Observed.regs heq) 3
    rw [hv3, hu3] at hregs
    exact absurd hregs (by decide)

end Cuc
end Or1ksim
