import Or1ksim.Cuc.JoinTransfers

/-!
# Joins that are sound

What the users of two loads see after `join_transfers` of `cuc/memory.c` depends on where their
references lead: to the instructions that have been removed, and not to the values that have been
taken apart.

* `JoinSound` — all operands mean what they meant before;
* `JoinQuiet` — the two loads have no users, and no reference is led to the new code by mistake;
* `joinSound_iff` — **a join is sound exactly when it is quiet**;
* `joins_sound_iff` — **and so are all joins of the loop**, which then carry the values;
* `joined_bytes_lost` — two bytes side by side whose users see neither.
-/

namespace Or1ksim
namespace Cuc

variable {W : ℕ}

/-! ### Sound joins -/

/-- The two loads of a join, and the additions before them. -/
structure Loads (f : Transfers W) (t1 t2 : Ref) (t : MemType) : Prop where
  pair : Pair t1 t2
  load : ∀ r, r = t1 ∨ r = t2 → f.InRange r ∧ IsLoadOf f r t
  address : ∀ r, r = t1 ∨ r = t2 → ∃ q, (f.insn r).op 1 = .ref q ∧ (f.insn q).index = .add

/-- After the join, all operands mean what they meant before: whatever the memory is and the values
of the other instructions are, as long as the two loads and the new code have theirs. -/
def JoinSound (f g : Transfers W) (t1 t2 : Ref) : Prop :=
  ∀ (mem : Bytes) (env : Env) (v w : Ref → Word),
    (∀ r, r = t1 ∨ r = t2 → v r = evalInsn mem env (f.signed r) (f.insn r) v) →
    (∀ r, r ≠ t1 → r ≠ t2 → w (shift t1 10 r) = v r) →
    (∀ r, InGap t1 r → w r = evalInsn mem env (g.signed r) (g.insn r) w) →
    ∀ r, f.InRange r → r ≠ t1 → r ≠ t2 → ∀ k,
      operandValue env w ((g.insn (shift t1 10 r)).op k) = operandValue env v ((f.insn r).op k)

/-- The first load is a byte without a sign, its address is the instruction before it, and the
second one is ten instructions later. -/
structure Lucky (f : Transfers W) (t1 t2 : Ref) (t : MemType) : Prop where
  apart : t1.i + 10 = t2.i
  width : t.width = 1
  unsigned : t.signed = false
  address : (f.insn t1).op 1 = .ref (refBefore W t1)

/-- The loads have no users, and no reference is led to the new code by mistake, except for those to
a first load that is lucky. -/
def JoinQuiet (f : Transfers W) (t1 t2 : Ref) (t : MemType) : Prop :=
  ∀ r, f.InRange r → r ≠ t1 → r ≠ t2 → ∀ k q, (f.insn r).op k = .ref q →
    q ≠ t2 ∧ (q = t1 → Lucky f t1 t2 t) ∧ (Misled t1 t2 q → q = t1)

section Sound

variable {f g : Transfers W} {i : ℕ} {t1 t2 : Ref} {mem : Bytes} {env : Env} {v w z : Ref → Word}

theorem loads_of_touches (hW : 32 ≤ W) (hf : ScheduleOk f) (hi : i < f.msched.length)
    (h : f.touches i = true) : Loads f (f.first i) (f.second i) (f.typeAt i) := by
  obtain ⟨⟨x, y⟩, hoff, hxy⟩ := (Option.any_eq_true _ _).1 h
  obtain ⟨ha, hb⟩ := pair_loads hf hi hoff
  obtain ⟨⟨-, -, hbb⟩, o, hdispa, hdispb⟩ := offsets_spec hoff
  have hne : f.scheduled (i - 1) ≠ f.scheduled i := by
    intro he
    rw [he, hdispb] at hdispa
    obtain rfl : y = x := (Prod.mk.inj (Option.some.inj hdispa)).2
    obtain ⟨hpos, hle⟩ := memWidth_bounds ha.2.width
    have hpow : 2 ^ 32 ≤ 2 ^ W := Nat.pow_le_pow_right (by decide) hW
    have hzero := congrArg BitVec.toNat (BitVec.add_right_eq_self.1 (eq_of_beq hxy))
    rw [BitVec.toNat_ofNat, BitVec.toNat_ofNat, Nat.zero_mod, Nat.mod_eq_of_lt (by omega)] at hzero
    omega
  have hpair : Pair (f.first i) (f.second i) := by
    unfold Transfers.first Transfers.second
    have hi' : (f.scheduled (i - 1)).i ≠ (f.scheduled i).i := fun he => hne (ref_eq hbb he)
    split_ifs with hle
    · exact ⟨hbb.symm, by omega⟩
    · exact ⟨hbb, by omega⟩
  have hcases : ∀ r, r = f.first i ∨ r = f.second i →
      r = f.scheduled (i - 1) ∨ r = f.scheduled i := by
    obtain ⟨h₁, h₂⟩ | ⟨h₁, h₂⟩ := first_second f i <;> rw [h₁, h₂]
    · exact fun r hr => hr
    · exact fun r hr => hr.symm
  refine ⟨hpair, fun r hr => ?_, fun r hr => ?_⟩
  · obtain rfl | rfl := hcases r hr
    · exact ha
    · exact hb
  · obtain rfl | rfl := hcases r hr
    · obtain ⟨q, hq, hadd, -⟩ := displacement_eq_some.1 hdispa
      exact ⟨q, hq, hadd⟩
    · obtain ⟨q, hq, hadd, -⟩ := displacement_eq_some.1 hdispb
      exact ⟨q, hq, hadd⟩

/-- The wires after a join: the new code, and what was there before, but for the loads. -/
noncomputable def joinWires (mem : Bytes) (t : MemType) (t1 t2 : Ref) (p : Word)
    (v z : Ref → Word) :
    Ref → Word :=
  Function.extend (shift t1 10) (fun r => if r = t1 ∨ r = t2 then z r else v r) fun r =>
    joinedValue mem t p (r.i - t1.i)

theorem joinWires_shift (mem : Bytes) (t : MemType) (t1 t2 : Ref) (p : Word) (v z : Ref → Word)
    (r : Ref) :
    joinWires mem t t1 t2 p v z (shift t1 10 r) = if r = t1 ∨ r = t2 then z r else v r :=
  (shift_injective t1 10).extend_apply _ _ r

theorem joinWires_gap (mem : Bytes) (t : MemType) (t1 t2 : Ref) (p : Word) (v z : Ref → Word)
    {n : ℕ} (hn : n < 10) :
    joinWires mem t t1 t2 p v z ⟨t1.bb, t1.i + n⟩ = joinedValue mem t p n := by
  have hgap : InGap t1 ⟨t1.bb, t1.i + n⟩ :=
    ⟨rfl, Nat.le_add_right _ _, Nat.add_lt_add_left hn _⟩
  refine (Function.extend_apply' _ _ _ ?_).trans ?_
  · rintro ⟨q, hq⟩
    exact shift_not_inGap t1 q (hq ▸ hgap)
  · rw [Nat.add_sub_cancel_left]

theorem joinWires_refBefore (hW : 32 ≤ W) (hp : Pair t1 t2) (t : MemType) (p : Word) :
    joinWires mem t t1 t2 p v z (refBefore W t1) = v (refBefore W t1) := by
  obtain ⟨hfirst, hsecond⟩ := refBefore_ne hp hW
  rw [← shift_refBefore hW t1, joinWires_shift, if_neg (not_or.2 ⟨hfirst, hsecond⟩),
    shift_refBefore hW]

/-- **The new code computes** what its wires have. -/
theorem joinWires_code (hW : 32 ≤ W) (hp : Pair t1 t2) (hg : Joined f g i t1 t2) {r : Ref}
    (hr : InGap t1 r) :
    joinWires mem (f.typeAt i) t1 t2 (v (refBefore W t1)) v z r =
      evalInsn mem env (g.signed r) (g.insn r)
        (joinWires mem (f.typeAt i) t1 t2 (v (refBefore W t1)) v z) := by
  obtain ⟨n, hn, rfl⟩ : ∃ n < 10, r = ⟨t1.bb, t1.i + n⟩ := by
    obtain ⟨hbb, hfrom, hto⟩ := hr
    exact ⟨r.i - t1.i, by omega, ref_eq hbb (by dsimp only; omega)⟩
  rw [hg.code n hn, hg.unsigned n hn, evalInsn_joinedCode hW hn, joinWires_refBefore hW hp,
    joinWires_gap _ _ _ _ _ _ _ hn, joinedValue_step hn]
  exact joinedStep_congr (fun m hm => (joinWires_gap _ _ _ _ _ _ _ (hm.trans hn)).symm) hn

/-- The values of the new code, whatever the other instructions have. -/
theorem code_value (hW : 32 ≤ W) (hg : Joined f g i t1 t2)
    (hw : ∀ r, InGap t1 r → w r = evalInsn mem env (g.signed r) (g.insn r) w) :
    w ⟨t1.bb, t1.i + 9⟩ = joinedValue mem (f.typeAt i) (w (refBefore W t1)) 9 := by
  refine joinedStep_value (x := fun m => w ⟨t1.bb, t1.i + m⟩) (fun m hm => ?_) (by decide)
  have hgap : InGap t1 ⟨t1.bb, t1.i + m⟩ := ⟨rfl, Nat.le_add_right _ _, Nat.add_lt_add_left hm _⟩
  refine (hw _ hgap).trans ?_
  rw [hg.code m hm, hg.unsigned m hm, evalInsn_joinedCode hW hm]

/-- The bytes of a load. -/
def loadWidth : ℕ → Width
  | 1 => .w1
  | 2 => .w2
  | _ => .w4

theorem evalInsn_of_load {r q : Ref} {t : MemType} (h : IsLoadOf f r t)
    (hop : (f.insn r).op 1 = .ref q) :
    evalInsn mem env (f.signed r) (f.insn r) v = loaded mem t.signed (loadWidth t.width) (v q) := by
  obtain ⟨hload, hwidth, hsigned⟩ := h
  unfold evalInsn
  dsimp only [args]
  rw [hop, hsigned]
  cases hindex : (f.insn r).index <;> rw [hindex] at hload hwidth <;> cases hload <;>
    obtain hw := Option.some.inj hwidth <;> rw [← hw] <;> rfl

/-- **A quiet join is sound.** -/
theorem JoinQuiet.sound (hW : 32 ≤ W) (hl : Loads f t1 t2 (f.typeAt i)) (hg : Joined f g i t1 t2)
    (hquiet : JoinQuiet f t1 t2 (f.typeAt i)) : JoinSound f g t1 t2 := by
  intro mem env v w hload hother hcode r hr hfirst hsecond k
  rw [hg.insn r hr hfirst hsecond]
  change operandValue env w (((f.insn r).op k).relocate _) = _
  cases hop : (f.insn r).op k with
  | ref q =>
    obtain ⟨hq2, hq1, hmisled⟩ := hquiet r hr hfirst hsecond k q hop
    change w (lead t1 t2 q) = v q
    rw [lead_eq hl.pair]
    by_cases hq : q = t1
    · -- The value is that of the byte, by luck.
      subst hq
      have hlucky := hq1 rfl
      obtain ⟨hb1, hb2⟩ := refBefore_ne hl.pair hW
      have hbefore := hother _ hb1 hb2
      rw [shift_refBefore hW] at hbefore
      rw [if_pos ⟨rfl, le_rfl, hlucky.apart⟩, code_value hW hg hcode, hbefore,
        joinedValue_byte hlucky.width hlucky.unsigned, hload q (.inl rfl),
        evalInsn_of_load (hl.load q (.inl rfl)).2 hlucky.address, hlucky.unsigned, hlucky.width]
      rfl
    · rw [if_neg fun hm => hq (hmisled hm)]
      exact hother q hq hq2
  | _ => rfl

/-- The values before a join: those of `u`, but for the loads. -/
def loadWires (f : Transfers W) (t1 t2 : Ref) (mem : Bytes) (env : Env) (u : Ref → Word) (r : Ref) :
    Word :=
  if r = t1 ∨ r = t2 then evalInsn mem env (f.signed r) (f.insn r) u else u r

theorem loadWires_of_ne {u : Ref → Word} {r : Ref} (hfirst : r ≠ t1) (hsecond : r ≠ t2) :
    loadWires f t1 t2 mem env u r = u r := if_neg (not_or.2 ⟨hfirst, hsecond⟩)

theorem Loads.address_ne {t : MemType} (hl : Loads f t1 t2 t) {q : Ref}
    (hq : (f.insn q).index = .add) : q ≠ t1 ∧ q ≠ t2 := by
  have hne : ∀ r, r = t1 ∨ r = t2 → q ≠ r := by
    rintro r hr rfl
    have hload := (hl.load q hr).2.load
    rw [hq] at hload
    cases hload
  exact ⟨hne t1 (.inl rfl), hne t2 (.inr rfl)⟩

theorem loadWires_load {t : MemType} (hl : Loads f t1 t2 t) (u : Ref → Word) {r : Ref}
    (hr : r = t1 ∨ r = t2) : loadWires f t1 t2 mem env u r =
      evalInsn mem env (f.signed r) (f.insn r) (loadWires f t1 t2 mem env u) := by
  obtain ⟨q, hop, hindex⟩ := hl.address r hr
  obtain ⟨hfirst, hsecond⟩ := hl.address_ne hindex
  refine (if_pos hr).trans (evalInsn_load (hl.load r hr).2.load rfl ?_).symm
  rw [hop]
  exact loadWires_of_ne hfirst hsecond

/-- What a sound join says about the operands of an instruction, for every memory and values. -/
theorem JoinSound.operand_eq (hs : JoinSound f g t1 t2) (hW : 32 ≤ W)
    (hl : Loads f t1 t2 (f.typeAt i)) (hg : Joined f g i t1 t2) (mem : Bytes) (env : Env)
    (u : Ref → Word) {r q : Ref} (hr : f.InRange r) (hfirst : r ≠ t1) (hsecond : r ≠ t2)
    {k : OperandNo} (hop : (f.insn r).op k = .ref q) :
    (if Misled t1 t2 q then joinedValue mem (f.typeAt i) (u (refBefore W t1)) 9
      else if q = t1 ∨ q = t2 then loadWires f t1 t2 mem env u q + 1
      else loadWires f t1 t2 mem env u q) = loadWires f t1 t2 mem env u q := by
  obtain ⟨hb1, hb2⟩ := refBefore_ne hl.pair hW
  have hbefore : loadWires f t1 t2 mem env u (refBefore W t1) = u (refBefore W t1) :=
    loadWires_of_ne hb1 hb2
  have hother : ∀ r, r ≠ t1 → r ≠ t2 →
      joinWires mem (f.typeAt i) t1 t2 (loadWires f t1 t2 mem env u (refBefore W t1))
        (loadWires f t1 t2 mem env u) (fun r => loadWires f t1 t2 mem env u r + 1)
        (shift t1 10 r) = loadWires f t1 t2 mem env u r := fun r hr1 hr2 =>
    (joinWires_shift ..).trans (if_neg (not_or.2 ⟨hr1, hr2⟩))
  have h := hs mem env _ _ (fun r hr => loadWires_load hl u hr) hother
    (fun r hr => joinWires_code hW hl.pair hg hr) r hr hfirst hsecond k
  rw [hg.insn r hr hfirst hsecond] at h
  change operandValue env _ (((f.insn r).op k).relocate _) = _ at h
  rw [hop] at h
  change joinWires _ _ _ _ _ _ _ (lead t1 t2 q) = loadWires f t1 t2 mem env u q at h
  rw [lead_eq hl.pair] at h
  by_cases hm : Misled t1 t2 q
  · rw [if_pos hm, joinWires_gap _ _ _ _ _ _ _ (by decide), hbefore] at h
    rwa [if_pos hm]
  · rw [if_neg hm, joinWires_shift] at h
    rwa [if_neg hm]

/-- The new code has the value of the first load by luck only. -/
theorem lucky_of_values {t : MemType} {p q : Ref} (h : ∀ (mem : Bytes) (u : Ref → Word),
    joinedValue mem t (u p) 9 = loaded mem t.signed (loadWidth t.width) (u q)) :
    t.width = 1 ∧ t.signed = false ∧ q = p := by
  have hsigned : t.signed = false := by
    by_contra hne
    have hzero := h (fun _ => 0) fun _ => 0
    rw [joinedValue_zero, Bool.eq_true_of_not_eq_false hne, if_pos rfl] at hzero
    revert hzero
    generalize loadWidth t.width = n
    cases n <;> decide
  have hwidth : t.width = 1 := by
    by_contra hne
    have hff := h (fun _ => 0xff) fun _ => 0
    rw [joinedValue_ff, hsigned] at hff
    revert hff
    unfold loadWidth
    split
    next hw => exact absurd hw hne
    all_goals decide
  refine ⟨hwidth, hsigned, ?_⟩
  by_contra hne
  have hbyte := h (fun a => if a = 0 then 1 else 0) fun r => if r = q then 0 else 1
  rw [joinedValue_byte hwidth hsigned, hsigned, hwidth, if_pos rfl, if_neg (Ne.symm hne)] at hbyte
  exact absurd hbyte (by decide)

/-- **A sound join is quiet.** -/
theorem JoinSound.quiet (hs : JoinSound f g t1 t2) (hW : 32 ≤ W)
    (hl : Loads f t1 t2 (f.typeAt i)) (hg : Joined f g i t1 t2) :
    JoinQuiet f t1 t2 (f.typeAt i) := by
  intro r hr hfirst hsecond k q hop
  have heq := fun mem u => hs.operand_eq hW hl hg mem ⟨fun _ => 0, fun _ _ _ _ => 0⟩ u hr hfirst
    hsecond hop
  -- A load that is removed may have any value.
  have hremoved : q = t1 ∨ q = t2 → Misled t1 t2 q := by
    intro hq
    by_contra hm
    have h := heq (fun _ => 0) fun _ => 0
    rw [if_neg hm, if_pos hq] at h
    exact absurd (BitVec.add_right_eq_self.1 h) (by decide)
  have hnot2 : ¬Misled t1 t2 t2 := fun hm => absurd hm.2.2 (by omega)
  refine ⟨fun hq => hnot2 (hq ▸ hremoved (.inr hq)), fun hq => ?_, fun hm => ?_⟩
  · subst hq
    have hm := hremoved (.inl rfl)
    obtain ⟨a, ha, hindex⟩ := hl.address q (.inl rfl)
    have hne := hl.address_ne hindex
    obtain ⟨hwidth, hunsigned, rfl⟩ := lucky_of_values (t := f.typeAt i) (p := refBefore W q)
      (q := a) fun mem u => by
        have h := heq mem u
        rw [if_pos hm, loadWires, if_pos (.inl rfl),
          evalInsn_of_load (hl.load q (.inl rfl)).2 ha] at h
        exact h
    exact ⟨hm.2.2, hwidth, hunsigned, ha⟩
  · by_contra hq
    have hq2 : q ≠ t2 := fun he => hnot2 (he ▸ hm)
    have h := heq (fun _ => 0) fun _ => 1
    rw [if_pos hm, loadWires_of_ne hq hq2, joinedValue_zero] at h
    split_ifs at h <;> exact absurd h (by decide)

/-- **A join is sound exactly when it is quiet.** -/
theorem joinSound_iff (hW : 32 ≤ W) (hl : Loads f t1 t2 (f.typeAt i)) (hg : Joined f g i t1 t2) :
    JoinSound f g t1 t2 ↔ JoinQuiet f t1 t2 (f.typeAt i) :=
  ⟨fun hs => hs.quiet hW hl hg, fun hquiet => hquiet.sound hW hl hg⟩

end Sound

/-! ### Quiet joins -/

section Quiet

variable {f g : Transfers W} {i : ℕ} {t1 t2 r : Ref}

theorem joined_removed_iff (hl : Loads f t1 t2 (f.typeAt i)) (hg : Joined f g i t1 t2) :
    Removed f g (shift t1 10) r ↔ r = t1 ∨ r = t2 := by
  constructor
  · intro hr
    by_contra hne
    obtain ⟨hfirst, hsecond⟩ := not_or.1 hne
    exact hr.1 ((hg.index r hfirst hsecond).symm.trans hr.2)
  · intro hr
    refine ⟨fun hnop => ?_, congrArg Insn.index (hg.nop r hr)⟩
    have hload := (hl.load r hr).2.load
    rw [hnop] at hload
    cases hload

/-- **A quiet join carries the values.** -/
theorem JoinQuiet.carries (hW : 32 ≤ W) (hl : Loads f t1 t2 (f.typeAt i)) (hg : Joined f g i t1 t2)
    (hquiet : JoinQuiet f t1 t2 (f.typeAt i)) : Carries f g (shift t1 10) := by
  have hremoved : ∀ r, Removed f g (shift t1 10) r ↔ r = t1 ∨ r = t2 := fun r =>
    joined_removed_iff hl hg
  refine ⟨shift_injective t1 10, hg.inRange, fun r hr => ?_, fun r hr => ?_,
    fun mem env v hv z => ⟨joinWires mem (f.typeAt i) t1 t2 (v (refBefore W t1)) v z, ?_⟩⟩
  · obtain ⟨hfirst, hsecond⟩ := not_or.1 (mt (hremoved r).2 hr)
    exact hg.index r hfirst hsecond
  · exact (hl.load r ((hremoved r).1 hr)).2.load
  · have hloads : ∀ r, r = t1 ∨ r = t2 → v r = evalInsn mem env (f.signed r) (f.insn r) v :=
      fun r hr => hv r (hl.load r hr).1 (isEvaluated_of_isLoad (hl.load r hr).2.load)
    have hwire : ∀ r, r ≠ t1 → r ≠ t2 →
        joinWires mem (f.typeAt i) t1 t2 (v (refBefore W t1)) v z (shift t1 10 r) = v r :=
      fun r hr1 hr2 => (joinWires_shift ..).trans (if_neg (not_or.2 ⟨hr1, hr2⟩))
    have hoperand := hquiet.sound hW hl hg mem env v _ hloads hwire fun r hr =>
      joinWires_code hW hl.pair hg hr
    have hstay : ∀ r, (g.insn (shift t1 10 r)).index ≠ .nop → r ≠ t1 ∧ r ≠ t2 := fun r hindex =>
      not_or.1 fun hr => hindex (congrArg Insn.index (hg.nop r hr))
    refine ⟨fun r hr heval => ?_, fun r hr => ?_, fun r hr => ?_, fun r hr hindex k => ?_⟩
    · obtain hgap | ⟨q, hq, rfl⟩ := hg.cases r hr
      · exact joinWires_code hW hl.pair hg hgap
      · have hnop : (g.insn (shift t1 10 q)).index ≠ .nop := fun hnop => by
          rw [hnop] at heval
          cases heval
        obtain ⟨hfirst, hsecond⟩ := hstay q hnop
        rw [hg.index q hfirst hsecond] at heval
        rw [hwire q hfirst hsecond, hg.signed q hfirst hsecond,
          evalInsn_congr (hg.index q hfirst hsecond) (hoperand q hq hfirst hsecond)]
        exact hv q hq heval
    · exact (joinWires_shift ..).trans (if_pos ((hremoved r).1 hr))
    · obtain ⟨hfirst, hsecond⟩ := not_or.1 (mt (hremoved r).2 hr)
      exact hwire r hfirst hsecond
    · obtain ⟨hfirst, hsecond⟩ := hstay r hindex
      exact hoperand r hr hfirst hsecond k

theorem EntryOk.joined {t : MemType} (hg : Joined f g i t1 t2) (h : EntryOk f r t) :
    EntryOk g (shift t1 10 r) t := by
  refine ⟨hg.inRange r h.1, fun hload => ?_⟩
  by_cases hr : r = t1 ∨ r = t2
  · exact .inl (hg.nop r hr)
  obtain ⟨hfirst, hsecond⟩ := not_or.1 hr
  rw [hg.insn r h.1 hfirst hsecond]
  rcases h.2 hload with hnop | hok
  · rw [hnop]
    exact .inl rfl
  · exact .inr (hok.of_eq (hg.index r hfirst hsecond) (hg.signed r hfirst hsecond))

/-- The schedule has the types of its instructions after a join, too. -/
theorem scheduleOk_joined (hf : ScheduleOk f) (hi : i < f.msched.length)
    (hg : Joined f g i t1 t2) : ScheduleOk g := by
  have hlen : g.msched.length = f.msched.length := by
    rw [hg.msched, List.length_set, List.length_map]
  refine ⟨by rw [hlen, hg.mtype, List.length_set, hf.length_eq], fun m hm => ?_⟩
  rw [hlen] at hm
  unfold Linked.scheduled Transfers.typeAt
  rw [hg.msched, hg.mtype, getD_set _ _ _ (by rw [List.length_map]; omega),
    getD_set _ _ _ (by rw [hf.length_eq]; omega)]
  by_cases hmi : m = i - 1
  · rw [if_pos hmi, if_pos hmi]
    refine ⟨hg.head, fun _ => .inr ?_⟩
    have hcode : g.insn t1 = joinedCode t1 (f.typeAt i) 0 := hg.code 0 (by decide)
    have hunsigned : g.signed t1 = false := hg.unsigned 0 (by decide)
    refine ⟨?_, ?_, hunsigned⟩ <;> rw [hcode] <;> unfold joinedCode <;> dsimp only [joinedInsn] <;>
      split_ifs <;> rfl
  · have hget : (f.msched.map (shift t1 10)).getD m ⟨0, 0⟩ = shift t1 10 (f.scheduled m) := by
      rw [scheduled_eq hm, List.getD_eq_getElem _ _ (by rwa [List.length_map]), List.getElem_map]
    rw [if_neg hmi, if_neg hmi, hget]
    exact (hf.entry m hm).joined hg

end Quiet

/-! ### The loop of `join_transfers` -/

/-- The state of the loop after `n` steps. -/
def JoinReached (f : Transfers W) (n : ℕ) (s : Transfers W × ℕ) : Prop :=
  (List.range' 1 n).foldlM Transfers.joinStep (f, 1) = some s

/-- A join of the loop: the function before it and after it, for the schedule entry `i`. -/
structure JoinMade (f : Transfers W) (g g' : Transfers W) (i : ℕ) : Prop where
  lt : i < f.msched.length
  reached : ∃ n j, n + 1 = i ∧ JoinReached f n (g, j)
  touches : g.touches i = true
  joinAt : g.joinAt i = some g'

/-- Every join of the loop is sound. -/
def JoinsSound (f : Transfers W) : Prop :=
  ∀ g g' i, JoinMade f g g' i → JoinSound g g' (g.first i) (g.second i)

/-- Every join of the loop is quiet. -/
def JoinsQuiet (f : Transfers W) : Prop :=
  ∀ g g' i, JoinMade f g g' i → JoinQuiet g (g.first i) (g.second i) (g.typeAt i)

section Loop

variable {f g g' : Transfers W} {i n : ℕ} {s s' : Transfers W × ℕ}

theorem joinReached_succ : JoinReached f (n + 1) s ↔
    ∃ s₀, JoinReached f n s₀ ∧ Transfers.joinStep s₀ (n + 1) = some s := by
  unfold JoinReached
  rw [List.range'_1_concat, List.foldlM_append, Nat.add_comm 1 n]
  simp only [List.foldlM_cons, List.foldlM_nil, bind_pure]
  exact Option.bind_eq_some_iff

theorem joinStep_cases (h : Transfers.joinStep s i = some s') :
    (s.1.touches i = true ∧ s.1.joinAt i = some s'.1 ∧ s'.2 = s.2) ∨
      (s.1.keepAt i s.2, s.2 + 1) = s' := by
  unfold Transfers.joinStep at h
  split_ifs at h with htouch
  · obtain ⟨g, hg, rfl⟩ := Option.map_eq_some_iff.1 h
    exact .inl ⟨htouch, hg, rfl⟩
  · exact .inr (Option.some.inj h)

/-- The loop of `join_transfers` before step `i`. -/
structure JoinLoop (f : Transfers W) (i : ℕ) (s : Transfers W × ℕ) : Prop where
  schedule : ScheduleOk s.1
  le : s.2 ≤ i
  length_eq : s.1.msched.length = f.msched.length

theorem touches_joined (hW : 32 ≤ W) (hf : ScheduleOk f) (hi : i < f.msched.length)
    (htouch : f.touches i = true) (h : f.joinAt i = some g) :
    Loads f (f.first i) (f.second i) (f.typeAt i) ∧ Joined f g i (f.first i) (f.second i) := by
  have hl := loads_of_touches hW hf hi htouch
  exact ⟨hl, joinAt_joined hW hl.pair (fun r hr => (hl.load r hr).1) h⟩

theorem JoinLoop.step (hW : 32 ≤ W) (h : JoinLoop f i s) (hlen : i < f.msched.length)
    (hs : Transfers.joinStep s i = some s') : JoinLoop f (i + 1) s' := by
  have hi : i < s.1.msched.length := h.length_eq ▸ hlen
  obtain ⟨htouch, hjoin, hj⟩ | rfl := joinStep_cases hs
  · obtain ⟨-, hg⟩ := touches_joined hW h.schedule hi htouch hjoin
    refine ⟨scheduleOk_joined h.schedule hi hg, hj ▸ Nat.le_succ_of_le h.le, ?_⟩
    rw [hg.msched, List.length_set, List.length_map, h.length_eq]
  · exact ⟨scheduleOk_keepAt h.schedule hi (h.le.trans_lt hi), Nat.succ_le_succ h.le,
      (List.length_set ..).trans h.length_eq⟩

/-- **The loop**, by induction on the steps. -/
theorem joinLoop (hW : 32 ≤ W) (hf : ScheduleOk f) (hn : n ≤ f.msched.length - 1)
    (h : JoinReached f n s) : JoinLoop f (n + 1) s := by
  induction n generalizing s with
  | zero =>
    obtain rfl := Option.some.inj h
    exact ⟨hf, le_rfl, rfl⟩
  | succ n ih =>
    obtain ⟨s₀, hreach, hstep⟩ := joinReached_succ.1 h
    exact (ih (by omega) hreach).step hW (by omega) hstep

theorem JoinMade.joined (hW : 32 ≤ W) (hf : ScheduleOk f) (h : JoinMade f g g' i) :
    Loads g (g.first i) (g.second i) (g.typeAt i) ∧ Joined g g' i (g.first i) (g.second i) := by
  obtain ⟨hlt, ⟨n, j, rfl, hreach⟩, htouch, hjoin⟩ := h
  have hloop := joinLoop hW hf (by omega) hreach
  exact touches_joined hW hloop.schedule (hloop.length_eq ▸ hlt) htouch hjoin

/-- The loop carries the values as long as its joins are quiet. -/
theorem joins_carry (hW : 32 ≤ W) (hf : ScheduleOk f) (hquiet : JoinsQuiet f)
    (hn : n ≤ f.msched.length - 1) (h : JoinReached f n s) : ∃ pos, Carries f s.1 pos := by
  induction n generalizing s with
  | zero =>
    obtain rfl := Option.some.inj h
    exact ⟨id, .refl f⟩
  | succ n ih =>
    obtain ⟨s₀, hreach, hstep⟩ := joinReached_succ.1 h
    obtain ⟨pos, hpos⟩ := ih (by omega) hreach
    obtain ⟨htouch, hjoin, -⟩ | rfl := joinStep_cases hstep
    · have hmade : JoinMade f s₀.1 s.1 (n + 1) := ⟨by omega, ⟨n, s₀.2, rfl, hreach⟩, htouch, hjoin⟩
      obtain ⟨hl, hg⟩ := hmade.joined hW hf
      exact ⟨_, hpos.trans ((hquiet _ _ _ hmade).carries hW hl hg)⟩
    · exact ⟨_, hpos.trans (carries_keepAt s₀.1 (n + 1) s₀.2)⟩

end Loop

/-! ### Main results -/

/-- The function when its transfers are scheduled and have their types. -/
def typed (otype : MemoryOrder) (f : Marked W) (signed : Ref → Bool) : Transfers W :=
  Transfers.assignTypes (reorder otype f).toLinked signed

theorem reorder_toFunc (otype : MemoryOrder) (f : Marked W) :
    (reorder otype f).toFunc = f.toFunc := by
  have hsteps : ∀ (is : List ℕ) (g : Marked W), (is.foldl scheduleStep g).toFunc = g.toFunc := by
    intro is
    induction is with
    | nil => exact fun _ => rfl
    | cons i is ih => exact fun g => ih (scheduleStep g i)
  unfold reorder
  dsimp only
  split_ifs
  · exact hsteps _ _
  · rfl

theorem typed_toFunc (otype : MemoryOrder) (f : Marked W) (signed : Ref → Bool) :
    (typed otype f signed).toFunc = f.toFunc := reorder_toFunc otype f

/-- The memory instructions of the function are loads and stores. -/
def HasWidths (f : Func W) : Prop :=
  ∀ r, f.InRange r → (f.insn r).memory = true → ∃ n, memWidth (f.insn r).index = some n

theorem scheduleOk_typed (otype : MemoryOrder) (f : Marked W) (signed : Ref → Bool)
    (hf : HasWidths f.toFunc) : ScheduleOk (typed otype f signed) := by
  refine ⟨List.length_map .., fun m hm => ?_⟩
  have hlt : m < (reorder otype f).msched.length := hm
  have hscheduled : (typed otype f signed).scheduled m = (reorder otype f).msched[m] :=
    scheduled_eq hm
  have hmem : (reorder otype f).msched[m] ∈ f.memoryInsns :=
    (reorder_ordered otype f).1.mem_iff.1 (List.getElem_mem hlt)
  have htype : (typed otype f signed).typeAt m =
      Transfers.memType ((typed otype f signed).insn (reorder otype f).msched[m]).index
        (signed (reorder otype f).msched[m]) := by
    unfold typed Transfers.assignTypes Transfers.typeAt
    dsimp only
    rw [List.getD_eq_getElem _ _ (by rwa [List.length_map]), List.getElem_map]
  rw [hscheduled, htype]
  generalize (reorder otype f).msched[m] = r at *
  obtain ⟨hinsns, hmemory⟩ := List.mem_filter.1 hmem
  obtain ⟨n, hn⟩ := hf r (mem_insns.1 hinsns) hmemory
  unfold EntryOk Transfers.memType
  rw [typed_toFunc, hn]
  exact ⟨mem_insns.1 hinsns, fun hload => .inr ⟨by rw [typed_toFunc]; exact hload,
    by rw [typed_toFunc]; exact hn, rfl⟩⟩

theorem refsInside_of_cucCheck {f : Func W} (h : cucCheck f = true) : RefsInside f := by
  intro r hr k q hq
  have hinsn := List.all_eq_true.1 h r (mem_insns.2 hr)
  rw [Bool.and_eq_true] at hinsn
  have hoperand := List.all_eq_true.1 hinsn.2 k (List.mem_finRange k)
  rw [checkOperand, hq] at hoperand
  exact of_decide_eq_true (Bool.and_eq_true_iff.1 hoperand).1

/-- **Joining the transfers**: every join is sound exactly if it is quiet, and as long as all are,
the two passes carry the values of the function. -/
theorem joins_sound_iff (hW : 32 ≤ W) (otype : MemoryOrder) (f : Marked W) (signed : Ref → Bool)
    (hin : RefsInside f.toFunc) (hwidth : HasWidths f.toFunc) :
    (JoinsSound (Transfers.sameTransfers otype (typed otype f signed)) ↔
        JoinsQuiet (Transfers.sameTransfers otype (typed otype f signed))) ∧
      (otype = .exact ∨ JoinsQuiet (Transfers.sameTransfers otype (typed otype f signed)) →
        ∀ g, Transfers.joinTransfers otype (Transfers.sameTransfers otype (typed otype f signed)) =
          some g → ∃ pos, Carries (typed otype f signed) g pos) := by
  have hnodup : (typed otype f signed).msched.Nodup :=
    (reorder_ordered otype f).1.nodup_iff.2 (memoryInsns_nodup f.toFunc)
  obtain ⟨hsame, hok⟩ := sameTransfers_carries otype (scheduleOk_typed otype f signed hwidth)
    (by rwa [typed_toFunc]) hnodup
  refine ⟨forall₄_congr fun g g' i hmade => ?_, fun hquiet g hg => ?_⟩
  · obtain ⟨hl, hj⟩ := hmade.joined hW hok
    exact joinSound_iff hW hl hj
  · unfold Transfers.joinTransfers at hg
    split_ifs at hg with hexact
    · exact ⟨id, Option.some.inj hg ▸ hsame⟩
    · obtain ⟨s, hs, rfl⟩ := Option.map_eq_some_iff.1 hg
      obtain ⟨pos, hpos⟩ := joins_carry hW hok (hquiet.resolve_left hexact) le_rfl hs
      exact ⟨_, hsame.trans (hpos.trans (carries_cut s))⟩

/-- A byte that is loaded twice, with a user of both loads, and the byte behind it. -/
def usedByte : Marked 32 where
  numBb := 1
  dead _ := false
  ninsn _ := 12
  insn r :=
    match r.i with
    | 0 | 2 => { (nopInsn : Insn 32) with
        index := .add, op := ![.dest (-1), .register 4, .const 0, .none, .none] }
    | 1 => { (nopInsn : Insn 32) with
        memory := true, index := .lb, op := ![.dest (-1), .ref ⟨0, 0⟩, .none, .none, .none] }
    | 3 => { (nopInsn : Insn 32) with
        memory := true, index := .lb, op := ![.dest (-1), .ref ⟨0, 2⟩, .none, .none, .none] }
    | 4 => { (nopInsn : Insn 32) with
        index := .sub, op := ![.dest (-1), .ref ⟨0, 1⟩, .ref ⟨0, 3⟩, .none, .none] }
    | 10 => { (nopInsn : Insn 32) with
        index := .add, op := ![.dest (-1), .register 4, .const 1, .none, .none] }
    | 11 => { (nopInsn : Insn 32) with
        memory := true, index := .lb, op := ![.dest (-1), .ref ⟨0, 10⟩, .none, .none, .none] }
    | i => { (nopInsn : Insn 32) with
        index := .xor, op := ![.dest (-1), .ref ⟨0, i - 1⟩, .register 5, .none, .none] }
  dep _ := []
  mdep _ := []
  msched := []
  flag1 _ := false

/-- The byte after `same_transfers`. -/
def usedByteSame : Transfers 32 :=
  Transfers.sameTransfers .weak (typed .weak usedByte fun _ => false)

theorem hasWidths_usedByte : HasWidths usedByte.toFunc := by
  intro r hr hmemory
  obtain ⟨b, i⟩ := r
  have hi : i < 12 := hr.2
  interval_cases i <;> first | exact ⟨1, rfl⟩ | cases hmemory

/-- A load has gone with its users to another one, and that one is joined: both operands of the
subtraction lead to what has been taken apart. -/
theorem joins_sound_iff_used : ∃ g pos, Transfers.joinTransfers .weak usedByteSame = some g ∧
    (g.insn ⟨0, 14⟩).index = .sub ∧ (∀ k, k = 1 ∨ k = 2 → (g.insn ⟨0, 14⟩).op k = .ref ⟨0, 10⟩) ∧
    Carries (typed .weak usedByte fun _ => false) g pos := by
  have hjoined : (Transfers.joinTransfers .weak usedByteSame).map (fun g =>
      ((g.insn ⟨0, 14⟩).index, (g.insn ⟨0, 14⟩).op 1, (g.insn ⟨0, 14⟩).op 2)) =
        some (.sub, .ref ⟨0, 10⟩, .ref ⟨0, 10⟩) := by decide
  have hdata : usedByteSame.msched = [⟨0, 1⟩, ⟨0, 11⟩] ∧ usedByteSame.first 1 = ⟨0, 1⟩ ∧
      usedByteSame.second 1 = ⟨0, 11⟩ ∧ usedByteSame.numBb = 1 ∧ usedByteSame.ninsn 0 = 12 ∧
      usedByteSame.typeAt 1 = ⟨true, 1, false⟩ ∧
      (usedByteSame.insn ⟨0, 1⟩).op 1 = .ref ⟨0, 0⟩ := by decide
  obtain ⟨hmsched, hfirst, hsecond, hbb, hninsn, htype, haddress⟩ := hdata
  have hop : ∀ i < 12, ∀ k, ∀ j < 12, (usedByteSame.insn ⟨0, i⟩).op k = .ref ⟨0, j⟩ → j ≠ 11 := by
    decide
  have hin : ∀ i < 12, ∀ k q, (usedByteSame.insn ⟨0, i⟩).op k = .ref q → usedByteSame.InRange q :=
    fun i hi => refsInside_of_cucCheck (f := usedByteSame.toFunc) (by decide) ⟨0, i⟩
      ⟨hbb.symm ▸ Nat.one_pos, hninsn.symm ▸ hi⟩
  have hquiet : JoinsQuiet usedByteSame := by
    rintro g g' i ⟨hlt, ⟨n, j, rfl, hreach⟩, -, -⟩ ⟨b, i⟩ ⟨hb, hi⟩ - - k q hq
    rw [hmsched] at hlt
    obtain rfl : n = 0 := Nat.lt_one_iff.1 (Nat.lt_of_succ_lt_succ hlt)
    obtain ⟨rfl, rfl⟩ := Prod.mk.inj (Option.some.inj hreach)
    obtain rfl : b = 0 := Nat.lt_one_iff.1 (hbb ▸ hb)
    obtain ⟨qb, qi⟩ := q
    obtain ⟨hqb, hqi⟩ := hin i (hninsn ▸ hi) k _ hq
    obtain rfl : qb = 0 := Nat.lt_one_iff.1 (hbb ▸ hqb)
    rw [hfirst, hsecond, htype]
    refine ⟨fun he => hop i (hninsn ▸ hi) k qi (hninsn ▸ hqi) hq (congrArg Ref.i he),
      fun _ => ⟨rfl, rfl, rfl, haddress⟩, fun hmisled => ?_⟩
    have hone : qi + 10 = 11 := hmisled.2.2
    obtain rfl : qi = 1 := by omega
    rfl
  obtain ⟨g, hg, heq⟩ := Option.map_eq_some_iff.1 hjoined
  simp only [Prod.mk.injEq] at heq
  obtain ⟨hindex, hop1, hop2⟩ := heq
  obtain ⟨pos, hpos⟩ := (joins_sound_iff (by decide) .weak usedByte (fun _ => false)
    (refsInside_of_cucCheck (by decide)) hasWidths_usedByte).2 (.inr hquiet) g hg
  refine ⟨g, pos, hg, hindex, ?_, hpos⟩
  rintro k (rfl | rfl)
  · exact hop1
  · exact hop2

/-- Two bytes side by side, and an instruction that uses both. -/
def twoBytes : Marked 32 where
  numBb := 1
  dead _ := false
  ninsn _ := 5
  insn r :=
    match r.i with
    | 0 => { (nopInsn : Insn 32) with
        index := .add, op := ![.dest (-1), .register 4, .const 0, .none, .none] }
    | 1 => { (nopInsn : Insn 32) with
        memory := true, index := .lb, op := ![.dest (-1), .ref ⟨0, 0⟩, .none, .none, .none] }
    | 2 => { (nopInsn : Insn 32) with
        index := .add, op := ![.dest (-1), .register 4, .const 1, .none, .none] }
    | 3 => { (nopInsn : Insn 32) with
        memory := true, index := .lb, op := ![.dest (-1), .ref ⟨0, 2⟩, .none, .none, .none] }
    | _ => { (nopInsn : Insn 32) with
        index := .xor, op := ![.dest (-1), .ref ⟨0, 1⟩, .ref ⟨0, 3⟩, .none, .none] }
  dep _ := []
  mdep _ := []
  msched := []
  flag1 _ := false

/-- The two bytes after `same_transfers`. -/
def twoBytesSame : Transfers 32 :=
  Transfers.sameTransfers .weak (typed .weak twoBytes fun _ => false)

theorem hasWidths_twoBytes : HasWidths twoBytes.toFunc := by
  intro r _ hmemory
  obtain ⟨b, i⟩ := r
  match i with
  | 0 => cases hmemory
  | 1 => exact ⟨1, rfl⟩
  | 2 => cases hmemory
  | 3 => exact ⟨1, rfl⟩
  | _ + 4 => cases hmemory

/-- The instructions after the two bytes have been joined. -/
def joinedIndices : List Index :=
  [.add, .lh, .and, .sfle, .or, .cmov, .srl, .and, .sfle, .or, .cmov, .nop, .add, .nop, .xor]

/-- What becomes of the two bytes and of their user. -/
structure BytesJoined (g : Transfers 32) : Prop where
  numBb : g.numBb = 1
  ninsn : g.ninsn 0 = 15
  index : ∀ i < 15, (g.insn ⟨0, i⟩).index = joinedIndices.getD i .nop
  user : (g.insn ⟨0, 14⟩).op 1 = .ref ⟨0, 11⟩

theorem bytesJoined : ∃ g, Transfers.joinTransfers .weak twoBytesSame = some g ∧
    BytesJoined g := by
  have hjoined : (Transfers.joinTransfers .weak twoBytesSame).map (fun g =>
      (g.numBb, g.ninsn 0, (List.range 15).map fun i => (g.insn ⟨0, i⟩).index,
        (g.insn ⟨0, 14⟩).op 1)) = some (1, 15, joinedIndices, .ref ⟨0, 11⟩) := by decide
  obtain ⟨g, hg, hdata⟩ := Option.map_eq_some_iff.1 hjoined
  simp only [Prod.mk.injEq] at hdata
  obtain ⟨hbb, hninsn, hindices, huser⟩ := hdata
  refine ⟨g, hg, hbb, hninsn, fun i hi => ?_, huser⟩
  rw [← hindices, List.getD_eq_getElem _ _ (by simpa using hi), List.getElem_map,
    List.getElem_range]

section Lost

variable {g : Transfers 32} {pos : Ref → Ref} {r : Ref}

theorem BytesJoined.pos_eq (hg : BytesJoined g)
    (hpos : Carries (typed .weak twoBytes fun _ => false) g pos)
    (hr : (typed .weak twoBytes fun _ => false).InRange r) : ∃ i < 15, pos r = ⟨0, i⟩ := by
  obtain ⟨hb, hi⟩ := hpos.inRange r hr
  rw [hg.numBb] at hb
  have hb0 := Nat.lt_one_iff.1 hb
  rw [hb0, hg.ninsn] at hi
  exact ⟨_, hi, ref_eq hb0 rfl⟩

theorem BytesJoined.byte (hg : BytesJoined g)
    (hpos : Carries (typed .weak twoBytes fun _ => false) g pos)
    (hr : (typed .weak twoBytes fun _ => false).InRange r)
    (hlb : ((typed .weak twoBytes fun _ => false).insn r).index = .lb) :
    Removed (typed .weak twoBytes fun _ => false) g pos r ∧
      (pos r = ⟨0, 11⟩ ∨ pos r = ⟨0, 13⟩) := by
  obtain ⟨i, hi, heq⟩ := hg.pos_eq hpos hr
  have hindex := hg.index i hi
  rw [← heq] at hindex
  have hremoved : Removed (typed .weak twoBytes fun _ => false) g pos r := by
    by_contra hstay
    rw [hpos.index r hstay, hlb] at hindex
    exact absurd hindex.symm ((by decide : ∀ i < 15, joinedIndices.getD i .nop ≠ .lb) i hi)
  rw [hremoved.2] at hindex
  have hnops : ∀ i < 15, Index.nop = joinedIndices.getD i .nop → i = 11 ∨ i = 13 := by decide
  rw [heq]
  exact ⟨hremoved, (hnops i hi hindex).imp (fun h => by rw [h]) fun h => by rw [h]⟩

theorem BytesJoined.user_eq (hg : BytesJoined g)
    (hpos : Carries (typed .weak twoBytes fun _ => false) g pos) : pos ⟨0, 4⟩ = ⟨0, 14⟩ := by
  have hxor : ((typed .weak twoBytes fun _ => false).insn ⟨0, 4⟩).index = .xor := by
    rw [typed_toFunc]
    rfl
  obtain ⟨i, hi, heq⟩ := hg.pos_eq hpos (r := ⟨0, 4⟩) (by rw [typed_toFunc]; decide)
  have hindex := hg.index i hi
  have hstay : ¬Removed (typed .weak twoBytes fun _ => false) g pos ⟨0, 4⟩ := fun hremoved => by
    have hload := hpos.load _ hremoved
    rw [hxor] at hload
    cases hload
  rw [← heq, hpos.index _ hstay, hxor] at hindex
  have huser : ∀ i < 15, Index.xor = joinedIndices.getD i .nop → i = 14 := by decide
  rw [heq, huser i hi hindex]

end Lost

/-- **The users of two joined bytes** see neither: their references lead to the instructions that
were removed. -/
theorem joined_bytes_lost : ¬∀ (otype : MemoryOrder) (f : Marked 32) (signed : Ref → Bool),
    RefsInside f.toFunc → HasWidths f.toFunc → ∀ g, Transfers.joinTransfers otype
      (Transfers.sameTransfers otype (typed otype f signed)) = some g →
        ∃ pos, Carries (typed otype f signed) g pos := by
  intro h
  obtain ⟨g, hg, hjoined⟩ := bytesJoined
  obtain ⟨pos, hpos⟩ := h .weak twoBytes (fun _ => false)
    (refsInside_of_cucCheck (by decide)) hasWidths_twoBytes g hg
  have hrange : ∀ i < 5, (typed .weak twoBytes fun _ => false).InRange ⟨0, i⟩ := fun i hi => by
    rw [typed_toFunc]
    exact ⟨Nat.one_pos, hi⟩
  obtain ⟨hrem1, hplace1⟩ := hjoined.byte hpos (hrange 1 (by decide)) (by rw [typed_toFunc]; rfl)
  obtain ⟨hrem3, hplace3⟩ := hjoined.byte hpos (hrange 3 (by decide)) (by rw [typed_toFunc]; rfl)
  have hone : ∃ r, Removed (typed .weak twoBytes fun _ => false) g pos r ∧ pos r = ⟨0, 11⟩ := by
    rcases hplace1 with h1 | h1
    · exact ⟨_, hrem1, h1⟩
    rcases hplace3 with h3 | h3
    · exact ⟨_, hrem3, h3⟩
    · exact absurd (hpos.injective (h1.trans h3.symm)) (by decide)
  obtain ⟨r, hremoved, heq⟩ := hone
  have hv : (typed .weak twoBytes fun _ => false).Holds (fun _ => 0)
      ⟨fun _ => 0, fun _ _ _ _ => 0⟩ fun r => if r.i = 2 then 1 else 0 := by
    rintro ⟨b, i⟩ hr heval
    rw [typed_toFunc] at hr heval ⊢
    obtain rfl : b = 0 := Nat.lt_one_iff.1 hr.1
    have hi : i < 5 := hr.2
    interval_cases i <;> decide
  obtain ⟨w, hw⟩ := hpos.seen _ _ _ hv fun _ => 1
  have huser := hw.operand ⟨0, 4⟩ (hrange 4 (by decide)) (by
    rw [hjoined.user_eq hpos, hjoined.index 14 (by decide)]
    decide) 1
  rw [hjoined.user_eq hpos, hjoined.user, typed_toFunc] at huser
  have hwire := hw.removed r hremoved
  rw [heq] at hwire
  exact absurd (hwire.symm.trans huser) (by decide)

end Cuc
end Or1ksim
