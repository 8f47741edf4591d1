import Or1ksim.Cuc.SameTransfers
import Mathlib.Tactic.IntervalCases

/-!
# What is made of two loads that touch

`join_transfers` of `cuc/memory.c`: two loads that touch become a wider one, and ten instructions
that take it apart.

* `lead` — where a join leads the references;
* `Joined` — what it makes of a function;
* `joinAt_joined` — **it does so where its assertions hold**;
* `joinedValue` — what the ten instructions compute.
-/

namespace Or1ksim
namespace Cuc

variable {W : ℕ}

/-! ### What a join makes of a function -/

/-- A reference to an instruction that comes to lie where the second load was. -/
def Misled (t1 t2 q : Ref) : Prop := q.bb = t1.bb ∧ t1.i ≤ q.i ∧ q.i + 10 = t2.i

instance (t1 t2 q : Ref) : Decidable (Misled t1 t2 q) := inferInstanceAs (Decidable (_ ∧ _))

/-- Where a reference is led by a join. -/
def lead (t1 t2 q : Ref) : Ref := joinedRef t1 t2 (shift t1 10 q)

theorem joinedRef_of_inGap {t1 t2 r : Ref} (h : InGap t1 r) : joinedRef t1 t2 r = r := by
  obtain ⟨-, hle, hlt⟩ := h
  exact if_neg (by omega)

theorem shift_not_inGap (t1 r : Ref) : ¬InGap t1 (shift t1 10 r) := by
  unfold InGap
  obtain ⟨hr, hshift⟩ | ⟨hr, hshift⟩ := shift_cases t1 10 r <;> rw [hshift]
  · dsimp only
    omega
  · omega

/-- Every instruction of the longer function is new, or was there before. -/
theorem inGap_or_shift (t1 r : Ref) : InGap t1 r ∨ ∃ q, r = shift t1 10 q := by
  by_cases hgap : InGap t1 r
  · exact .inl hgap
  refine .inr ?_
  unfold InGap at hgap
  by_cases hr : r.bb = t1.bb ∧ t1.i ≤ r.i
  · refine ⟨⟨r.bb, r.i - 10⟩, ?_⟩
    rw [shift, if_pos ⟨hr.1, by dsimp only; omega⟩]
    exact ref_eq rfl (by dsimp only; omega)
  · exact ⟨r, (if_neg hr).symm⟩

/-- The loads are in one block, in this order. -/
structure Pair (t1 t2 : Ref) : Prop where
  bb : t2.bb = t1.bb
  lt : t1.i < t2.i

section Lead

variable {t1 t2 q : Ref}

/-- **Where the references are led**: never from the two loads to the values taken apart. -/
theorem lead_eq (h : Pair t1 t2) :
    lead t1 t2 q = if Misled t1 t2 q then ⟨t1.bb, t1.i + 9⟩ else shift t1 10 q := by
  have hbb := h.bb
  have hlt := h.lt
  unfold lead joinedRef
  obtain ⟨⟨hq, hle⟩, hshift⟩ | ⟨hq, hshift⟩ := shift_cases t1 10 q <;> rw [hshift]
  · have hfirst : (⟨q.bb, q.i + 10⟩ : Ref) ≠ t1 := fun he => by
      have hi := congrArg Ref.i he
      dsimp only at hi
      omega
    have hsecond : (⟨q.bb, q.i + 10⟩ : Ref) = t2 ↔ q.i + 10 = t2.i :=
      ⟨congrArg Ref.i, fun hi => ref_eq (hq.trans hbb.symm) hi⟩
    rw [if_pos (.inr (by dsimp only; omega)), if_neg hfirst]
    exact if_congr (hsecond.trans ⟨fun hi => ⟨hq, hle, hi⟩, fun h => h.2.2⟩) rfl rfl
  · have hfirst : q ≠ t1 := fun he => hq ⟨by rw [he], by rw [he]⟩
    have hsecond : q ≠ t2 := fun he => hq ⟨by rw [he, hbb], by rw [he]; omega⟩
    have hstay : ¬Misled t1 t2 q := fun h => hq ⟨h.1, h.2.1⟩
    rw [if_neg hfirst, if_neg hsecond, ite_self, if_neg hstay]

theorem shift_refBefore (hW : 32 ≤ W) (t1 : Ref) :
    shift t1 10 (refBefore W t1) = refBefore W t1 := by
  have hpow : 2 ^ 16 ≤ 2 ^ (W - 16) := Nat.pow_le_pow_right (by omega) (by omega)
  refine if_neg ?_
  unfold refBefore
  split_ifs <;> dsimp only <;> omega

theorem refBefore_ne (h : Pair t1 t2) (hW : 32 ≤ W) :
    refBefore W t1 ≠ t1 ∧ refBefore W t1 ≠ t2 := by
  have hpow : 2 ^ 16 ≤ 2 ^ (W - 16) := Nat.pow_le_pow_right (by omega) (by omega)
  have hbb := h.bb
  have hlt := h.lt
  unfold refBefore
  constructor <;> intro he <;> split_ifs at he <;>
    obtain ⟨hb, hi⟩ := And.intro (congrArg Ref.bb he) (congrArg Ref.i he) <;>
      dsimp only at hb hi <;> omega

end Lead

/-- What a join makes of a function. -/
structure Joined (f g : Transfers W) (i : ℕ) (t1 t2 : Ref) : Prop where
  inRange : ∀ r, f.InRange r → g.InRange (shift t1 10 r)
  cases : ∀ r, g.InRange r → InGap t1 r ∨ ∃ q, f.InRange q ∧ r = shift t1 10 q
  code : ∀ n < 10, g.insn ⟨t1.bb, t1.i + n⟩ = joinedCode t1 (f.typeAt i) n
  unsigned : ∀ n < 10, g.signed ⟨t1.bb, t1.i + n⟩ = false
  nop : ∀ r, r = t1 ∨ r = t2 → g.insn (shift t1 10 r) = nopInsn
  insn : ∀ r, f.InRange r → r ≠ t1 → r ≠ t2 →
    g.insn (shift t1 10 r) = (f.insn r).relocate (lead t1 t2)
  index : ∀ r, r ≠ t1 → r ≠ t2 → (g.insn (shift t1 10 r)).index = (f.insn r).index
  signed : ∀ r, r ≠ t1 → r ≠ t2 → g.signed (shift t1 10 r) = f.signed r
  msched : g.msched = (f.msched.map (shift t1 10)).set (i - 1) t1
  mtype : g.mtype = f.mtype.set (i - 1) ⟨true, if (f.typeAt i).width = 1 then 2 else 4, false⟩
  head : g.InRange t1

section Join

variable {f g : Transfers W} {i : ℕ} {r : Ref}

theorem insertTen_insn (f : Transfers W) (t1 : Ref) (hr : f.InRange r) :
    (f.insertTen t1).insn (shift t1 10 r) = (f.insn r).relocate (shift t1 10) := by
  obtain ⟨hrange, hinsn, -⟩ := openGap_shift t1 10 hr
  exact (insn_relocate hrange).trans (by rw [hinsn])

theorem insertTen_index (f : Transfers W) (t1 r : Ref) :
    ((f.insertTen t1).insn (shift t1 10 r)).index = (f.insn r).index := by
  change (((openGap f.toLinked t1 10).relocate _).insn _).index = _
  rw [index_relocate, openGap_insn]

theorem insertTen_signed (f : Transfers W) (t1 r : Ref) :
    (f.insertTen t1).signed (shift t1 10 r) = f.signed r := by
  unfold Transfers.insertTen
  dsimp only
  obtain ⟨⟨hbb, hle⟩, hshift⟩ | ⟨hr, hshift⟩ := shift_cases t1 10 r <;> rw [hshift]
  · have hpast : ¬r.i + 10 < t1.i + 10 := by omega
    rw [if_pos ⟨hbb, by dsimp only; omega⟩, if_neg hpast, Nat.add_sub_cancel]
  · exact if_neg hr

theorem mapRefs_insn {pos : Ref → Ref} (hr : f.InRange r) :
    (f.mapRefs pos).insn r = (f.insn r).relocate pos := if_pos hr

theorem mapRefs_index (f : Transfers W) (pos : Ref → Ref) (r : Ref) :
    ((f.mapRefs pos).insn r).index = (f.insn r).index := by
  dsimp only [Transfers.mapRefs]
  split_ifs <;> rfl

theorem putCode_insn (f : Transfers W) (t1 : Ref) (t : MemType) (dep : List Ref) (r : Ref) :
    (f.putCode i t1 t dep).insn (shift t1 10 r) = f.insn (shift t1 10 r) :=
  if_neg (shift_not_inGap t1 r)

theorem joinedOp_refs {d x y z : Operand W} {k : OperandNo} {q : Ref}
    (h : (![d, x, y, z, .none] : OperandNo → Operand W) k = .ref q) :
    d = .ref q ∨ x = .ref q ∨ y = .ref q ∨ z = .ref q :=
  match k with
  | 0 => .inl h
  | 1 => .inr (.inl h)
  | 2 => .inr (.inr (.inl h))
  | 3 => .inr (.inr (.inr h))
  | 4 => nomatch h

/-- The new code refers to itself and to what is taken to be the address. -/
theorem joinedCode_refs {t1 q : Ref} {t : MemType} {n : ℕ} (hn : n < 10) {k : OperandNo}
    (h : (joinedCode (W := W) t1 t n).op k = .ref q) : InGap t1 q ∨ q = refBefore W t1 := by
  have hgap : ∀ m < 10, InGap t1 ⟨t1.bb, t1.i + m⟩ := fun m hm =>
    ⟨rfl, Nat.le_add_right _ _, Nat.add_lt_add_left hm _⟩
  interval_cases n <;> obtain h | h | h | h := joinedOp_refs h <;> cases h <;>
    first | exact .inr rfl | exact .inl (hgap _ (by decide))

theorem joinedCode_relocate {t1 t2 : Ref} (hp : Pair t1 t2) (hW : 32 ≤ W) (t : MemType) {n : ℕ}
    (hn : n < 10) :
    (joinedCode (W := W) t1 t n).relocate (joinedRef t1 t2) = joinedCode t1 t n := by
  have hid : (joinedCode (W := W) t1 t n).relocate id = joinedCode t1 t n :=
    relocate_id fun _ => rfl
  refine Eq.trans (relocate_congr fun k q hq => ?_) hid
  obtain hgap | rfl := joinedCode_refs hn hq
  · exact joinedRef_of_inGap hgap
  · obtain ⟨hfirst, hsecond⟩ := refBefore_ne hp hW
    unfold joinedRef
    rw [if_neg hfirst, if_neg hsecond, ite_self]
    rfl

theorem inRange_of_shift {t1 : Ref} (hle : t1.i ≤ f.ninsn t1.bb)
    (hr : (f.insertTen t1).InRange (shift t1 10 r)) : f.InRange r := by
  obtain ⟨hbb, hi⟩ := hr
  change _ < Function.update f.ninsn t1.bb (f.ninsn t1.bb + 10) _ at hi
  obtain ⟨⟨hsame, hpast⟩, hshift⟩ | ⟨hstay, hshift⟩ := shift_cases t1 10 r <;> rw [hshift] at hbb hi
  · rw [hsame, Function.update_self] at hi
    dsimp only at hi
    exact ⟨hbb, by rw [hsame]; omega⟩
  · refine ⟨hbb, ?_⟩
    by_cases hsame : r.bb = t1.bb
    · rw [hsame]
      omega
    · rwa [Function.update_of_ne hsame] at hi

theorem inRange_gap {t1 : Ref} (hbb : t1.bb < f.numBb) (hle : t1.i ≤ f.ninsn t1.bb) {n : ℕ}
    (hn : n < 10) : (f.insertTen t1).InRange ⟨t1.bb, t1.i + n⟩ := by
  refine ⟨hbb, ?_⟩
  change t1.i + n < Function.update f.ninsn t1.bb (f.ninsn t1.bb + 10) t1.bb
  rw [Function.update_self]
  omega

theorem nops_insn {t1 t2 : Ref} (h : r = t1 ∨ r = t2) :
    ((f.nopAt t1).nopAt t2).insn r = nopInsn := by
  change Function.update (Function.update f.insn t1 _) t2 _ r = _
  by_cases ht2 : r = t2
  · rw [ht2, Function.update_self]
  · rw [Function.update_of_ne ht2, h.resolve_right ht2, Function.update_self]

theorem nops_of_ne {t1 t2 : Ref} (hfirst : r ≠ t1) (hsecond : r ≠ t2) :
    ((f.nopAt t1).nopAt t2).insn r = f.insn r ∧
      ((f.nopAt t1).nopAt t2).signed r = f.signed r :=
  ⟨(Function.update_of_ne hsecond _ _).trans (Function.update_of_ne hfirst _ _),
    (Function.update_of_ne hsecond _ _).trans (Function.update_of_ne hfirst _ _)⟩

/-- **What a join makes of a function**, if its assertions hold. -/
theorem joinAt_joined (hW : 32 ≤ W) (hp : Pair (f.first i) (f.second i))
    (hloads : ∀ r, r = f.first i ∨ r = f.second i → f.InRange r) (h : f.joinAt i = some g) :
    Joined f g i (f.first i) (f.second i) := by
  unfold Transfers.joinAt at h
  dsimp only at h
  split_ifs at h with hroom hcheck
  obtain ⟨hbb, hle, -⟩ := hroom
  generalize f.first i = t1 at *
  generalize f.second i = t2 at *
  obtain rfl := Option.some.inj h
  have hgap : ∀ n, n < 10 → InGap t1 ⟨t1.bb, t1.i + n⟩ := fun n hn =>
    ⟨rfl, Nat.le_add_right _ _, Nat.add_lt_add_left hn _⟩
  have hinRange : ∀ r, f.InRange r →
      (((f.nopAt t1).nopAt t2).insertTen t1).InRange (shift t1 10 r) :=
    fun r hr => (openGap_shift (f := ((f.nopAt t1).nopAt t2).toLinked) t1 10 hr).1
  have hinsn : ∀ r, f.InRange r →
      ((((((f.nopAt t1).nopAt t2).insertTen t1).removeDeps t2).putCode i t1 (f.typeAt i)
        (f.dep t1)).mapRefs (joinedRef t1 t2)).insn (shift t1 10 r) =
      (((f.nopAt t1).nopAt t2).insn r).relocate (lead t1 t2) := fun r hr => by
    refine (mapRefs_insn ?_).trans ?_
    · exact hinRange r hr
    rw [putCode_insn]
    refine (congrArg (Insn.relocate _) (insertTen_insn ((f.nopAt t1).nopAt t2) t1 hr)).trans ?_
    rw [relocate_relocate]
    rfl
  exact {
    inRange := hinRange
    cases := fun r hr => by
      obtain hin | ⟨q, rfl⟩ := inGap_or_shift t1 r
      · exact .inl hin
      · exact .inr ⟨q, inRange_of_shift (f := (f.nopAt t1).nopAt t2) hle hr, rfl⟩
    code := fun n hn => by
      refine (mapRefs_insn ?_).trans ?_
      · exact inRange_gap (f := (f.nopAt t1).nopAt t2) hbb hle hn
      refine (congrArg (Insn.relocate _) (if_pos (hgap n hn))).trans ?_
      rw [Nat.add_sub_cancel_left]
      exact joinedCode_relocate hp hW _ hn
    unsigned := fun n hn => by
      obtain ⟨hsame, hfrom, hto⟩ := hgap n hn
      exact (if_pos ⟨hsame, hfrom⟩).trans (if_pos hto)
    nop := fun r hr => by
      rw [hinsn r (hloads r hr), nops_insn hr]
      rfl
    insn := fun r hr hfirst hsecond => by
      rw [hinsn r hr, (nops_of_ne hfirst hsecond).1]
    index := fun r hfirst hsecond => by
      rw [mapRefs_index, putCode_insn]
      refine (insertTen_index _ _ _).trans ?_
      rw [(nops_of_ne hfirst hsecond).1]
    signed := fun r hfirst hsecond =>
      (insertTen_signed _ _ _).trans (nops_of_ne hfirst hsecond).2
    msched := rfl
    mtype := rfl
    head := inRange_gap (f := (f.nopAt t1).nopAt t2) hbb hle (n := 0) (by decide) }

end Join

/-! ### What the new code computes -/

/-- The wider load. -/
def wider (mem : Bytes) (t : MemType) (p : Word) : Word :=
  loaded mem false (if t.width = 1 then .w2 else .w4) p

/-- What takes a load apart. -/
def takenOut (signed : Bool) (x : Word) : ℕ → Word
  | 0 => x
  | 1 => x &&& 0xff
  | 2 => flag (x &&& 0xff ≤ 0x7f)
  | 3 => x &&& 0xff ||| if signed then 0xffffff00 else 0
  | _ => if x &&& 0xff ≤ 0x7f then x &&& 0xff ||| if signed then 0xffffff00 else 0 else x &&& 0xff

/-- What the new code computes, if `t1 - 1` has the value `p`. -/
def joinedValue (mem : Bytes) (t : MemType) (p : Word) (n : ℕ) : Word :=
  if n < 5 then takenOut t.signed (wider mem t p) n
  else takenOut t.signed (wider mem t p >>> 8) (n - 5)

/-- An instruction of the new code, where the others have the values `x`. -/
def joinedStep (mem : Bytes) (t : MemType) (p : Word) (x : ℕ → Word) : ℕ → Word
  | 0 => wider mem t p
  | 1 => x 0 &&& 0xff
  | 2 => flag (x 1 ≤ 0x7f)
  | 3 => x 1 ||| if t.signed then 0xffffff00 else 0
  | 4 => if x 2 ≠ 0 then x 3 else x 1
  | 5 => x 0 >>> 8
  | 6 => x 5 &&& 0xff
  | 7 => flag (x 6 ≤ 0x7f)
  | 8 => x 6 ||| if t.signed then 0xffffff00 else 0
  | _ => if x 7 ≠ 0 then x 8 else x 6

section Values

variable {mem : Bytes} {env : Env} {t : MemType} {t1 : Ref} {n : ℕ} {w : Ref → Word} {x : ℕ → Word}
  {p : Word}

theorem evalInsn_joinedCode (hW : 32 ≤ W) (hn : n < 10) :
    evalInsn mem env false (joinedCode (W := W) t1 t n) w =
      joinedStep mem t (w (refBefore W t1)) (fun m => w ⟨t1.bb, t1.i + m⟩) n := by
  have hlow : ∀ c, low (BitVec.ofNat W c) = BitVec.ofNat 32 c := BitVec.setWidth_ofNat_of_le hW
  have hupper : low (if t.signed then 0xffffff00 else 0 : BitVec W) =
      if t.signed then 0xffffff00 else 0 := by
    split_ifs
    · exact hlow _
    · exact hlow _
  interval_cases n
  · unfold joinedStep wider joinedCode
    by_cases ht : t.width = 1 <;> simp only [ht] <;> rfl
  · change w _ &&& low 255#W = w _ &&& 0xff
    rw [hlow]
    rfl
  · change flag (w _ ≤ low 127#W) = flag (w _ ≤ 0x7f)
    rw [hlow]
    rfl
  · change w _ ||| low _ = w _ ||| _
    rw [hupper]
  · rfl
  · change w _ >>> low 8#W = w _ >>> 8
    rw [hlow]
    rfl
  · change w _ &&& low 255#W = w _ &&& 0xff
    rw [hlow]
    rfl
  · change flag (w _ ≤ low 127#W) = flag (w _ ≤ 0x7f)
    rw [hlow]
    rfl
  · change w _ ||| low _ = w _ ||| _
    rw [hupper]
  · rfl

theorem flag_ne_zero {b : Bool} : flag b ≠ 0 ↔ b = true := by
  cases b <;> decide

theorem joinedValue_step (hn : n < 10) :
    joinedValue mem t p n = joinedStep mem t p (joinedValue mem t p) n := by
  interval_cases n <;> try rfl
  · change _ = if flag _ ≠ 0 then _ else _
    simp only [flag_ne_zero, decide_eq_true_eq]
    rfl
  · change _ = if flag _ ≠ 0 then _ else _
    simp only [flag_ne_zero, decide_eq_true_eq]
    rfl

theorem joinedStep_congr {y : ℕ → Word} (h : ∀ m < n, x m = y m) (hn : n < 10) :
    joinedStep mem t p x n = joinedStep mem t p y n := by
  interval_cases n <;> unfold joinedStep <;> simp (disch := decide) only [h]

theorem joinedStep_value (h : ∀ m < 10, x m = joinedStep mem t p x m) (hn : n < 10) :
    x n = joinedValue mem t p n := by
  induction n using Nat.strong_induction_on with
  | _ n ih =>
    rw [h n hn, joinedValue_step hn]
    exact joinedStep_congr (fun m hm => ih m hm (hm.trans hn)) hn

theorem high_byte (a b : Byte) : (a ++ b).setWidth 32 >>> 8 &&& 0xff#32 = a.setWidth 32 := by
  have ha := a.isLt
  have hb := b.isLt
  have hab : (a ++ b).toNat = a.toNat * 256 + b.toNat := by
    rw [BitVec.toNat_append, ← Nat.shiftLeft_add_eq_or_of_lt hb, Nat.shiftLeft_eq]
  have hmask : (0xff#32).toNat = 2 ^ 8 - 1 := rfl
  apply BitVec.eq_of_toNat_eq
  rw [BitVec.toNat_and, hmask, Nat.and_two_pow_sub_one_eq_mod, BitVec.toNat_ushiftRight,
    BitVec.toNat_setWidth, hab, BitVec.toNat_setWidth, Nat.shiftRight_eq_div_pow]
  omega

theorem joinedValue_nine {y : Word} (h : wider mem t p >>> 8 &&& 0xff = y) :
    joinedValue mem t p 9 = if y ≤ 0x7f then y ||| if t.signed then 0xffffff00 else 0 else y := by
  subst h
  rfl

/-- The last value is the byte at the address, if it is a byte without a sign. -/
theorem joinedValue_byte (hwidth : t.width = 1) (hsigned : t.signed = false) :
    joinedValue mem t p 9 = loaded mem false .w1 p := by
  have hpart : wider mem t p >>> 8 &&& 0xff = (mem p).setWidth 32 := by
    rw [wider, if_pos hwidth]
    exact high_byte (mem p) (mem (p + 1#32))
  rw [joinedValue_nine hpart, hsigned]
  simp only [Bool.false_eq_true, if_false]
  exact ite_eq_right_iff.2 fun _ => BitVec.or_zero

theorem joinedValue_zero : joinedValue (fun _ => 0) t p 9 = if t.signed then 0xffffff00 else 0 := by
  have hpart : wider (fun _ => 0) t p >>> 8 &&& 0xff = 0 := by
    unfold wider
    split_ifs <;> dsimp only [loaded, BigEndian.read] <;> decide
  rw [joinedValue_nine hpart, if_pos (by decide)]
  exact BitVec.zero_or

theorem joinedValue_ff : joinedValue (fun _ => 0xff) t p 9 = 0xff := by
  have hpart : wider (fun _ => 0xff) t p >>> 8 &&& 0xff = 0xff := by
    unfold wider
    split_ifs <;> dsimp only [loaded, BigEndian.read] <;> decide
  rw [joinedValue_nine hpart, if_neg (by decide)]

end Values

end Cuc
end Or1ksim
