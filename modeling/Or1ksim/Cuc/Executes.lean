import Or1ksim.Cuc.Lowered
import Or1ksim.Lib.Simulation

/-!
# The block of an instruction does what its word does

* `Machine.exec_value`, `Machine.exec_load`, `Machine.exec_store` — one step, for each kind of
  instruction;
* `Agrees` — the registers, the flag and the memory of the two machines;
* `exec_block` — **the block of an instruction without a delay slot** takes the one machine to where
  the word takes the other, and keeps what was computed in front of it.
-/

namespace Or1ksim
namespace Cuc

open Runs (steps steps_one steps_trans)
open Lowering

variable {W : ℕ} {sh : Shifts} {c : Items W} {t : Machine} {x : Item W}

/-! ### One step -/

theorem not_isStore {index : Index} (h : index.isLoad = true) : ¬index.isStore = true := by
  cases index <;> first | exact Bool.false_ne_true | cases h

theorem result_two {index : Index} (h : index.isArith = true ∨ index.isCompare = true)
    (x : OperandNo → Word) : sh.result index x = sh.result index (two (x 1) (x 2)) := by
  cases index <;> first | rfl | exact absurd h (by decide)

namespace Machine

theorem step_of_lt (h : t.pc < c.num) : t.step sh c = some (t.exec sh (c.insn t.pc)) := if_pos h

theorem exec_nop (h : x.index = .nop) : t.exec sh x = { t with pc := t.pc + 1 } := by
  rw [exec, h]

theorem exec_value (h : x.index.isArith = true ∨ x.index.isCompare = true) :
    t.exec sh x =
      t.write (x.op 0) (sh.result x.index (two (t.value (x.op 1)) (t.value (x.op 2)))) := by
  rw [← result_two h fun k => t.value (x.op k)]
  unfold exec
  cases hx : x.index <;> rw [hx] at h <;> first | rfl | exact absurd h (by decide)

theorem exec_load (h : x.index.isLoad = true) :
    t.exec sh x = t.write (x.op 0) (extended x.signed
      (BigEndian.read t.mem (t.value (x.op 1)) x.index.width) x.index.width) := by
  unfold exec
  cases hx : x.index <;> rw [hx] at h <;> first | rfl | cases h

theorem exec_store (h : x.index.isStore = true) :
    t.exec sh x = { t with
      mem := BigEndian.write t.mem (t.value (x.op 1)) (t.value (x.op 0)) x.index.width
      pc := t.pc + 1 } := by
  unfold exec
  cases hx : x.index <;> rw [hx] at h <;> first | rfl | cases h

theorem exec_branch (h : x.index = .bf) :
    t.exec sh x = { t with
      pc := if t.value (x.op 1) ≠ 0 then (x.op 0).word.toNat else t.pc + 1
      outcomes := t.outcomes ++ [decide (t.value (x.op 1) ≠ 0)] } := by
  rw [exec, h]
  simp only [decide_eq_true_eq]

/-- A value has been computed for no register. -/
def saved (t : Machine) (v : Word) : Machine :=
  { t with vals := Function.update t.vals t.pc v, pc := t.pc + 1 }

@[simp] theorem saved_regs (t : Machine) (v : Word) : (t.saved v).regs = t.regs := rfl

@[simp] theorem saved_mem (t : Machine) (v : Word) : (t.saved v).mem = t.mem := rfl

@[simp] theorem saved_pc (t : Machine) (v : Word) : (t.saved v).pc = t.pc + 1 := rfl

@[simp] theorem saved_outcomes (t : Machine) (v : Word) : (t.saved v).outcomes = t.outcomes := rfl

theorem saved_vals_self (t : Machine) (v : Word) : (t.saved v).vals t.pc = v :=
  Function.update_self ..

theorem saved_vals_of_ne (t : Machine) (v : Word) {k : ℕ} (hk : k ≠ t.pc) :
    (t.saved v).vals k = t.vals k := Function.update_of_ne hk ..

theorem write_none (t : Machine) (v : Word) :
    t.write (.dest (-1) : Operand W) v = t.saved v := by
  rw [write]
  simp only [if_pos]
  rfl

theorem write_dest {r : BitVec W} (hr : r ≠ -1) (t : Machine) (v : Word) :
    t.write (.dest r) v =
      { t with
        regs := Function.update t.regs r.toNat v
        vals := Function.update t.vals t.pc v
        pc := t.pc + 1 } := by
  rw [write]
  simp only [if_neg hr]

theorem exec_dest (h : x.index.isArith = true ∨ x.index.isCompare = true) {r : BitVec W}
    (hop : x.op 0 = .dest r) (hr : r ≠ -1) {v : Word}
    (hv : sh.result x.index (two (t.value (x.op 1)) (t.value (x.op 2))) = v) :
    t.exec sh x =
      { t with
        regs := Function.update t.regs r.toNat v
        vals := Function.update t.vals t.pc v
        pc := t.pc + 1 } := by
  rw [exec_value h, hop, hv, write_dest hr]

/-- An access to an address that has been computed at place `d`. -/
theorem exec_access_load {d : ℕ} (h : x.index.isLoad = true) {r : BitVec W} (hop : x.op 0 = .dest r)
    (hr : r ≠ -1) :
    t.exec sh (accessItem d x) =
      { t with
        regs := Function.update t.regs r.toNat (extended x.signed
          (BigEndian.read t.mem (t.vals d) x.index.width) x.index.width)
        vals := Function.update t.vals t.pc (extended x.signed
          (BigEndian.read t.mem (t.vals d) x.index.width) x.index.width)
        pc := t.pc + 1 } := by
  have hops : (accessItem d x).op = ![.dest r, .ref ⟨0, d⟩, .none, .none, x.op 4] := by
    rw [accessItem, if_neg (not_isStore h), hop]
  rw [exec_load (x := accessItem d x) h, hops]
  exact write_dest hr t _

theorem exec_access_store {d : ℕ} (h : x.index.isStore = true) :
    t.exec sh (accessItem d x) =
      { t with
        mem := BigEndian.write t.mem (t.vals d) (t.value (x.op 2)) x.index.width
        pc := t.pc + 1 } := by
  have hops : (accessItem d x).op = ![x.op 2, .ref ⟨0, d⟩, .none, x.op 3, x.op 4] := by
    rw [accessItem, if_pos h]
  rw [exec_store (x := accessItem d x) h, hops]
  rfl

end Machine

theorem ne_neg_one (hW : W = 32 ∨ W = 64) {r : BitVec W} (hr : r.toNat ≤ 32) : r ≠ -1 := by
  rintro rfl
  rcases hW with rfl | rfl
  · exact absurd hr (by decide)
  · exact absurd hr (by decide)

theorem flagReg_toNat (hW : W = 32 ∨ W = 64) : (flagReg : BitVec W).toNat = 32 := by
  rcases hW with rfl | rfl <;> rfl

/-! ### The two machines -/

/-- The machines hold the same. -/
structure Agrees (s : Or1k) (t : Machine) : Prop where
  regs : ∀ r < 32, t.regs r = s.regs r
  flag : t.regs 32 = flag s.flag
  mem : t.mem = s.mem

theorem Agrees.update {s s' : Or1k} {t' : Machine} (h : Agrees s t) {d : ℕ} (hd : d < 32) {v : Word}
    (hregs : s'.regs = Function.update s.regs d v) (hflag : s'.flag = s.flag)
    (hmem : s'.mem = s.mem) (hregs' : t'.regs = Function.update t.regs d v)
    (hmem' : t'.mem = t.mem) : Agrees s' t' := by
  refine ⟨fun r hr => ?_, ?_, by rw [hmem', hmem, h.mem]⟩
  · rw [hregs, hregs']
    by_cases hrd : r = d
    · rw [hrd, Function.update_self, Function.update_self]
    · rw [Function.update_of_ne hrd, Function.update_of_ne hrd, h.regs r hr]
  · rw [hregs', Function.update_of_ne (Nat.ne_of_gt hd), h.flag, hflag]

theorem Agrees.setFlag {s s' : Or1k} {t' : Machine} (h : Agrees s t) (hregs : s'.regs = s.regs)
    (hmem : s'.mem = s.mem) (hregs' : t'.regs = Function.update t.regs 32 (Cuc.flag s'.flag))
    (hmem' : t'.mem = t.mem) : Agrees s' t' := by
  refine ⟨fun r hr => ?_, ?_, by rw [hmem', hmem, h.mem]⟩
  · rw [hregs, hregs', Function.update_of_ne (Nat.ne_of_lt hr), h.regs r hr]
  · rw [hregs', Function.update_self]

/-- The second machine has run to place `p`, and left what was computed in front of place `q`. -/
structure Ran (sh : Shifts) (c : Items W) (t : Machine) (q p : ℕ) (t' : Machine) : Prop where
  steps : ∃ n, steps (Machine.step sh c) (n + 1) t = some t'
  pc : t'.pc = p
  outcomes : t'.outcomes = t.outcomes
  vals : ∀ k < q, t'.vals k = t.vals k

theorem Ran.trans {t' t'' : Machine} {q p p' : ℕ} (h : Ran sh c t q p t')
    (h' : Ran sh c t' q p' t'') : Ran sh c t q p' t'' := by
  obtain ⟨n, hn⟩ := h.steps
  obtain ⟨m, hm⟩ := h'.steps
  have hsteps := steps_trans hn hm
  refine ⟨⟨n + 1 + m, hsteps⟩, h'.pc, h'.outcomes.trans h.outcomes, fun k hk => ?_⟩
  rw [h'.vals k hk, h.vals k hk]

theorem ran_step (hlt : t.pc < c.num) {q p : ℕ} {t' : Machine}
    (hexec : t.exec sh (c.insn t.pc) = t') (hpc : t'.pc = p) (hout : t'.outcomes = t.outcomes)
    (hvals : ∀ k < q, t'.vals k = t.vals k) : Ran sh c t q p t' := by
  refine ⟨⟨0, ?_⟩, hpc, hout, hvals⟩
  rw [steps_one, Machine.step_of_lt hlt, hexec]

theorem ran_value (hlt : t.pc < c.num)
    (hindex : (c.insn t.pc).index.isArith = true ∨ (c.insn t.pc).index.isCompare = true)
    (hop : (c.insn t.pc).op 0 = .dest (-1)) {q : ℕ} (hq : q ≤ t.pc) {v : Word}
    (hv : sh.result (c.insn t.pc).index
      (two (t.value ((c.insn t.pc).op 1)) (t.value ((c.insn t.pc).op 2))) = v) :
    Ran sh c t q (t.pc + 1) (t.saved v) := by
  refine ran_step hlt ?_ rfl rfl fun k hk => t.saved_vals_of_ne v (by omega)
  rw [Machine.exec_value hindex, hop, hv, Machine.write_none]

theorem low_bias (hW : W = 32 ∨ W = 64) : low (0x80000000 : BitVec W) = 0x80000000 := by
  rcases hW with rfl | rfl <;> rfl

theorem ran_bias (hW : W = 32 ∨ W = 64) (hlt : t.pc < c.num) {o : Operand W}
    (hinsn : c.insn t.pc = biasItem x o) (ho : o.IsSource) {q : ℕ} (hq : q ≤ t.pc) :
    Ran sh c t q (t.pc + 1) (t.saved (o.sourceValue t.regs + 0x80000000)) := by
  refine ran_value hlt ?_ ?_ hq ?_ <;> rw [hinsn]
  · exact .inl rfl
  · rfl
  · change t.value o + low (0x80000000 : BitVec W) = _
    rw [ho.value_eq, low_bias hW]

/-! ### One block -/

namespace Lowering

variable {haveUnsignedXori : Bool} {words : List (BitVec 32)} {c₀ c₁ c₂ c₃ : Items W} {i k : ℕ}

theorem final_lt (h : Lowering sh haveUnsignedXori words c₀ c₁ c₂ c₃ c) (hk : k < c₂.num) {j : ℕ}
    (hnext : final c₂ c₃ k + j < final c₂ c₃ (k + 1)) : final c₂ c₃ k + j < c.num := by
  rw [h.num_eq_final]
  exact Nat.lt_of_lt_of_le hnext (final_le c₂ c₃ hk)

theorem ran_nop (h : Lowering sh haveUnsignedXori words c₀ c₁ c₂ c₃ c) (hk : k < c₂.num)
    (hx : c₂.insn k = nopItem) (hpc : t.pc = final c₂ c₃ k) :
    Ran sh c t (final c₂ c₃ k) (final c₂ c₃ (k + 1)) { t with pc := t.pc + 1 } := by
  obtain ⟨hinsn, hnext⟩ := h.plain_at hk (by rw [hx]; rfl) (by rw [hx]; rfl)
  have hlt : t.pc < c.num := by
    rw [hpc]
    exact h.final_lt (j := 0) hk (by omega)
  refine ran_step hlt (Machine.exec_nop ?_) (by rw [hnext, hpc]) rfl fun _ _ => rfl
  rw [hpc, hinsn, hx]
  rfl

theorem ran_compute (hW : W = 32 ∨ W = 64) (h : Lowering sh haveUnsignedXori words c₀ c₁ c₂ c₃ c)
    (hk : k < c₂.num) (hx : c₂.insn k = x) (hmem : x.memory = false) (hsigned : x.signed = false)
    (hfixed : x.IsFixed)
    (hindex : x.index.isArith = true ∨ x.index.isCompare = true)
    {rd : BitVec W} (hop : x.op 0 = .dest rd) (hrd : rd.toNat ≤ 32) {v : Word}
    (hv : sh.result x.index
      (two (t.value (x.op 1)) (t.value (x.op 2))) = v)
    (hpc : t.pc = final c₂ c₃ k) :
    ∃ t', Ran sh c t (final c₂ c₃ k) (final c₂ c₃ (k + 1)) t' ∧
      t'.regs = Function.update t.regs rd.toNat v ∧ t'.mem = t.mem := by
  subst hx
  obtain ⟨hinsn, hnext⟩ := h.plain_at hk hmem hsigned
  have hlt : t.pc < c.num := by
    rw [hpc]
    exact h.final_lt (j := 0) hk (by omega)
  rw [hfixed.renumber_eq, hfixed.renumber_eq, ← hpc] at hinsn
  have hexec := Machine.exec_dest hindex hop (ne_neg_one hW hrd) hv
  rw [← hinsn] at hexec
  exact ⟨_, ran_step hlt hexec (by rw [hnext, hpc]) rfl
    fun l hl => Function.update_of_ne (by omega) .., rfl, rfl⟩

theorem ran_address (h : Lowering sh haveUnsignedXori words c₀ c₁ c₂ c₃ c)
    (hk : k < c₂.num) (hx : c₂.insn k = x) (hmem : x.memory = true) (hfixed : x.IsFixed)
    {addr : Word}
    (haddr : t.value ((addressItem x).op 1) + t.value ((addressItem x).op 2) =
      addr) (hpc : t.pc = final c₂ c₃ k) :
    Ran sh c t (final c₂ c₃ k) (final c₂ c₃ k + 1) (t.saved addr) := by
  subst hx
  obtain ⟨hinsn, -, hnext⟩ := h.memory_at hk hmem hfixed
  have hlt : t.pc < c.num := by
    rw [hpc]
    exact h.final_lt (j := 0) hk (by omega)
  rw [← hpc] at hinsn ⊢
  have hop : (addressItem (c₂.insn k)).op 0 = .dest (-1) := by
    rw [addressItem]
    dsimp only
    split <;> rfl
  exact ran_value hlt (by rw [hinsn]; exact .inl rfl) (by rw [hinsn, hop]) (le_refl _)
    (by rw [hinsn]; exact haddr)

theorem ran_load (hW : W = 32 ∨ W = 64) (h : Lowering sh haveUnsignedXori words c₀ c₁ c₂ c₃ c)
    (hk : k < c₂.num) (hx : c₂.insn k = x) (hmem : x.memory = true) (hfixed : x.IsFixed)
    (hload : x.index.isLoad = true)
    {rd : BitVec W} (hop : x.op 0 = .dest rd) (hrd : rd.toNat ≤ 32) {addr : Word}
    (haddr : t.value (x.op 1) + t.value (x.op 2) = addr)
    (hpc : t.pc = final c₂ c₃ k) :
    ∃ t', Ran sh c t (final c₂ c₃ k) (final c₂ c₃ (k + 1)) t' ∧
      t'.regs = Function.update t.regs rd.toNat (extended x.signed
        (BigEndian.read t.mem addr x.index.width) x.index.width) ∧
      t'.mem = t.mem := by
  subst hx
  obtain ⟨-, hinsn, hnext⟩ := h.memory_at hk hmem hfixed
  have haddress : (addressItem (c₂.insn k)).op =
      ![.dest (-1), (c₂.insn k).op 1, (c₂.insn k).op 2, (c₂.insn k).op 3, (c₂.insn k).op 4] := by
    rw [addressItem, if_neg (not_isStore hload)]
  have hfirst : Ran sh c t (final c₂ c₃ k) (final c₂ c₃ k + 1) (t.saved addr) :=
    h.ran_address hk rfl hmem hfixed (by rw [haddress]; exact haddr) hpc
  have hexec : (t.saved addr).exec sh (accessItem t.pc (c₂.insn k)) = _ :=
    Machine.exec_access_load hload hop (ne_neg_one hW hrd)
  rw [t.saved_vals_self, hpc, ← hinsn, ← hfirst.pc] at hexec
  refine ⟨_, hfirst.trans (ran_step ?_ hexec ?_ rfl fun l hl => Function.update_of_ne ?_ ..), rfl,
    rfl⟩
  · rw [hfirst.pc]
    exact h.final_lt hk (by omega)
  · rw [hfirst.pc, hnext]
  · rw [hfirst.pc]
    omega

theorem ran_store (h : Lowering sh haveUnsignedXori words c₀ c₁ c₂ c₃ c)
    (hk : k < c₂.num) (hx : c₂.insn k = x) (hmem : x.memory = true) (hfixed : x.IsFixed)
    (hstore : x.index.isStore = true) (hsource : (x.op 2).IsSource)
    {addr : Word} (haddr : t.value (x.op 1) + t.value (x.op 0) = addr)
    (hpc : t.pc = final c₂ c₃ k) :
    ∃ t', Ran sh c t (final c₂ c₃ k) (final c₂ c₃ (k + 1)) t' ∧ t'.regs = t.regs ∧
      t'.mem = BigEndian.write t.mem addr ((x.op 2).sourceValue t.regs)
        x.index.width := by
  subst hx
  obtain ⟨-, hinsn, hnext⟩ := h.memory_at hk hmem hfixed
  have haddress : (addressItem (c₂.insn k)).op =
      ![.dest (-1), (c₂.insn k).op 1, (c₂.insn k).op 0, .none, (c₂.insn k).op 4] := by
    rw [addressItem, if_pos hstore]
  have hfirst : Ran sh c t (final c₂ c₃ k) (final c₂ c₃ k + 1) (t.saved addr) :=
    h.ran_address hk rfl hmem hfixed (by rw [haddress]; exact haddr) hpc
  have hexec : (t.saved addr).exec sh (accessItem t.pc (c₂.insn k)) = _ :=
    Machine.exec_access_store hstore
  rw [t.saved_vals_self, hsource.value_eq, hpc, ← hinsn, ← hfirst.pc] at hexec
  refine ⟨_, hfirst.trans (ran_step ?_ hexec ?_ rfl fun _ _ => rfl), rfl, rfl⟩
  · rw [hfirst.pc]
    exact h.final_lt hk (by omega)
  · rw [hfirst.pc, hnext]

theorem ran_signed (hW : W = 32 ∨ W = 64) (h : Lowering sh haveUnsignedXori words c₀ c₁ c₂ c₃ c)
    (hk : k < c₂.num) (hx : c₂.insn k = x) (hmem : x.memory = false) (hsigned : x.signed = true)
    (hfixed : x.IsFixed) (hindex : x.index.isCompare = true)
    {rd : BitVec W} (hop : x.op 0 = .dest rd) (hrd : rd.toNat ≤ 32)
    (hsource₁ : (x.op 1).IsSource) (hsource₂ : (x.op 2).IsSource) {v : Word}
    (hv : sh.result x.index (two ((x.op 1).sourceValue t.regs + 0x80000000)
      ((x.op 2).sourceValue t.regs + 0x80000000)) = v)
    (hpc : t.pc = final c₂ c₃ k) :
    ∃ t', Ran sh c t (final c₂ c₃ k) (final c₂ c₃ (k + 1)) t' ∧
      t'.regs = Function.update t.regs rd.toNat v ∧ t'.mem = t.mem := by
  subst hx
  obtain ⟨hinsn₀, hinsn₁, hinsn₂, hnext⟩ := h.signed_at hk hmem hsigned hfixed
  have hlt := fun j (hj : j < 3) => h.final_lt (j := j) hk (by omega)
  rw [← hpc] at hinsn₀ hinsn₁ hinsn₂ hnext hlt ⊢
  -- The bias is added to both operands.
  have hfirst : Ran sh c t t.pc (t.pc + 1)
      (t.saved (((c₂.insn k).op 1).sourceValue t.regs + 0x80000000)) :=
    ran_bias hW (hlt 0 (by decide)) hinsn₀ hsource₁ (le_refl t.pc)
  generalize ((c₂.insn k).op 1).sourceValue t.regs + 0x80000000 = a at hfirst hv
  have hsecond : Ran sh c (t.saved a) t.pc ((t.saved a).pc + 1)
      ((t.saved a).saved (((c₂.insn k).op 2).sourceValue (t.saved a).regs + 0x80000000)) :=
    ran_bias hW (hlt 1 (by decide)) hinsn₁ hsource₂ (Nat.le_succ t.pc)
  rw [t.saved_regs] at hsecond
  generalize ((c₂.insn k).op 2).sourceValue t.regs + 0x80000000 = b at hsecond hv
  have ha : ((t.saved a).saved b).vals t.pc = a := by
    rw [(t.saved a).saved_vals_of_ne b (Nat.ne_of_lt (Nat.lt_succ_self t.pc)), t.saved_vals_self]
  have hb : ((t.saved a).saved b).vals (t.pc + 1) = b := (t.saved a).saved_vals_self b
  have hthird : ((t.saved a).saved b).exec sh (c.insn (t.pc + 2)) =
      { (t.saved a).saved b with
        regs := Function.update t.regs rd.toNat v
        vals := Function.update ((t.saved a).saved b).vals (t.pc + 2) v
        pc := t.pc + 3 } := by
    refine Machine.exec_dest (r := rd) (v := v) ?_ ?_ (ne_neg_one hW hrd) ?_ <;> rw [hinsn₂]
    · exact .inr hindex
    · exact hop
    · change sh.result (c₂.insn k).index (two (((t.saved a).saved b).vals t.pc)
        (((t.saved a).saved b).vals (t.pc + 1))) = v
      rw [ha, hb, hv]
  refine ⟨_, hfirst.trans (hsecond.trans (ran_step (hlt 2 (by decide)) hthird ?_ rfl ?_)), rfl,
    rfl⟩
  · exact hnext.symm
  · exact fun l hl => Function.update_of_ne (Nat.ne_of_lt (Nat.lt_add_right 2 hl)) ..

/-- **The block of an instruction does what its word does**, if it is no branch. -/
theorem exec_block (hW : W = 32 ∨ W = 64) (h : Lowering sh haveUnsignedXori words c₀ c₁ c₂ c₃ c)
    (hk : k < c₂.num) (hx : c₂.insn k = x) {op : Operation} (hl : Lowers sh i op x)
    (hbranch : x.branch = false) (hpc : t.pc = final c₂ c₃ k) {s : Or1k} (ha : Agrees s t)
    (num : ℕ) :
    ∃ t', Ran sh c t (final c₂ c₃ k) (final c₂ c₃ (k + 1)) t' ∧ Agrees (s.exec num op) t' := by
  have hfixed := hl.isFixed hbranch
  cases hl with
  | compute hindex hsa hsb hd hrd hv =>
    obtain ⟨t', hran, hregs, hmem⟩ :=
      h.ran_compute hW hk hx rfl rfl hfixed (.inl hindex) rfl (by omega) rfl hpc
    refine ⟨t', hran, ha.update hd rfl rfl rfl ?_ hmem⟩
    rw [hregs, hrd, ← hv s.regs t.regs ha.regs, ← hsa.value_eq t, ← hsb.value_eq t]
    rfl
  | load hindex hwidth hsa hsb hd hrd hv =>
    obtain ⟨t', hran, hregs, hmem⟩ :=
      h.ran_load hW hk hx rfl hfixed hindex rfl (by omega) rfl hpc
    refine ⟨t', hran, ha.update hd rfl rfl rfl ?_ hmem⟩
    rw [hregs, hrd, ← hv s.regs t.regs ha.regs, ← hsa.value_eq t, ← hsb.value_eq t, ← hwidth,
      ← ha.mem]
    rfl
  | @store w addr v index a b e hindex hwidth hsa hsb hse hv =>
    obtain ⟨haddr, hvalue⟩ := hv s.regs t.regs ha.regs
    rw [← hsa.value_eq t, ← hsb.value_eq t] at haddr
    obtain ⟨t', hran, hregs, hmem⟩ := h.ran_store hk hx rfl hfixed hindex hse haddr hpc
    refine ⟨t', hran, ⟨by rw [hregs]; exact ha.regs, by rw [hregs]; exact ha.flag, ?_⟩⟩
    change t'.mem = BigEndian.write s.mem (addr s.regs) (v s.regs) w
    rw [hmem, ← hvalue, ← ha.mem, ← hwidth]
    rfl
  | @compare f index signed a b hindex hsa hsb hv =>
    have hv := hv s.regs t.regs ha.regs
    obtain ⟨t', hran, hregs, hmem⟩ : ∃ t', Ran sh c t (final c₂ c₃ k) (final c₂ c₃ (k + 1)) t' ∧
        t'.regs = Function.update t.regs (flagReg : BitVec W).toNat (flag (f s.regs)) ∧
          t'.mem = t.mem := by
      cases signed with
      | false =>
        refine h.ran_compute hW hk hx rfl rfl hfixed (.inr hindex) rfl (flagReg_toNat hW).le ?_ hpc
        rw [← hv, ← hsa.value_eq t, ← hsb.value_eq t]
        rfl
      | true =>
        exact h.ran_signed hW hk hx rfl rfl hfixed hindex rfl (flagReg_toNat hW).le hsa hsb hv hpc
    rw [flagReg_toNat hW] at hregs
    exact ⟨t', hran, ha.setFlag rfl rfl hregs hmem⟩
  | nop =>
    exact ⟨_, h.ran_nop hk hx hpc, ha.regs, ha.flag, ha.mem⟩
  | branch => cases hbranch
  | ret => exact ⟨_, h.ran_nop hk hx hpc, ha.regs, ha.flag, ha.mem⟩

end Lowering

end Cuc
end Or1ksim
