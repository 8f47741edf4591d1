import Or1ksim.Cuc.Transfers

/-!
# Loads from the same place

`same_transfers` of `cuc/memory.c`: the second of two scheduled loads from the same place is
removed, and the first one is used instead.

* `ScheduleOk` — the schedule has the types of its instructions;
* `same_value` — two loads from the same place have the same value;
* `removeSame_carries` — so one of them may be removed;
* `sameTransfers_carries` — **the pass carries the values**.
-/

namespace Or1ksim
namespace Cuc

variable {W : ℕ}

/-! ### The schedule -/

/-- The schedule entry is for a load of this type. -/
structure IsLoadOf (f : Transfers W) (r : Ref) (t : MemType) : Prop where
  load : (f.insn r).index.isLoad = true
  width : memWidth (f.insn r).index = some t.width
  signed : f.signed r = t.signed

/-- An instruction of the same kind is a load of the same type. -/
theorem IsLoadOf.of_eq {f g : Transfers W} {r q : Ref} {t : MemType} (h : IsLoadOf f r t)
    (hindex : (g.insn q).index = (f.insn r).index) (hsigned : g.signed q = f.signed r) :
    IsLoadOf g q t :=
  ⟨hindex ▸ h.load, hindex ▸ h.width, hsigned.trans h.signed⟩

/-- The entry has the type of its instruction, which may have been removed. -/
def EntryOk (f : Transfers W) (r : Ref) (t : MemType) : Prop :=
  f.InRange r ∧ (t.load = true → f.insn r = nopInsn ∨ IsLoadOf f r t)

/-- All entries are right. -/
structure ScheduleOk (f : Transfers W) : Prop where
  length_eq : f.mtype.length = f.msched.length
  entry : ∀ m < f.msched.length, EntryOk f (f.scheduled m) (f.typeAt m)

/-- References lead to instructions of the function. -/
def RefsInside (f : Func W) : Prop :=
  ∀ r, f.InRange r → ∀ k q, (f.insn r).op k = .ref q → f.InRange q

section Schedule

variable {f : Transfers W} {i : ℕ} {x y : BitVec W} {r : Ref}

theorem offsets_spec (h : f.offsets i = some (x, y)) :
    (f.typeAt (i - 1) = f.typeAt i ∧ (f.typeAt i).load = true ∧
      (f.scheduled (i - 1)).bb = (f.scheduled i).bb) ∧
      ∃ o, displacement f.toFunc (f.insn (f.scheduled (i - 1))) = some (o, x) ∧
        displacement f.toFunc (f.insn (f.scheduled i)) = some (o, y) := by
  unfold Transfers.offsets at h
  split_ifs at h with hcond
  refine ⟨hcond, ?_⟩
  split at h
  next o x' o' y' ha hb =>
    split_ifs at h with ho
    obtain ⟨rfl, rfl⟩ := Prod.mk.inj (Option.some.inj h)
    subst ho
    exact ⟨o, ha, hb⟩
  next => cases h

theorem displacement_nopInsn : displacement f.toFunc nopInsn = none := rfl

theorem first_second (f : Transfers W) (i : ℕ) :
    f.first i = f.scheduled (i - 1) ∧ f.second i = f.scheduled i ∨
      f.first i = f.scheduled i ∧ f.second i = f.scheduled (i - 1) := by
  unfold Transfers.first Transfers.second
  split_ifs
  · exact .inl ⟨rfl, rfl⟩
  · exact .inr ⟨rfl, rfl⟩

theorem pair_loads (hf : ScheduleOk f) (hi : i < f.msched.length)
    (h : f.offsets i = some (x, y)) :
    (f.InRange (f.scheduled (i - 1)) ∧ IsLoadOf f (f.scheduled (i - 1)) (f.typeAt i)) ∧
      f.InRange (f.scheduled i) ∧ IsLoadOf f (f.scheduled i) (f.typeAt i) := by
  obtain ⟨⟨htype, hload, -⟩, o, ha, hb⟩ := offsets_spec h
  obtain ⟨hra, hoka⟩ := hf.entry (i - 1) (by omega)
  obtain ⟨hrb, hokb⟩ := hf.entry i hi
  refine ⟨⟨hra, ?_⟩, hrb, ?_⟩
  · rw [htype] at hoka
    refine (hoka hload).resolve_left fun hnop => ?_
    rw [hnop, displacement_nopInsn] at ha
    cases ha
  · refine (hokb hload).resolve_left fun hnop => ?_
    rw [hnop, displacement_nopInsn] at hb
    cases hb

theorem index_eq_of_width {index index' : Index} (h : index.isLoad = true)
    (h' : index'.isLoad = true)
    (hw : memWidth index = memWidth index') : index = index' := by
  cases index <;> cases h <;> cases index' <;> cases h' <;> first | rfl | cases hw

theorem isEvaluated_of_isLoad {index : Index} (h : index.isLoad = true) :
    index.isEvaluated = true := by
  cases index <;> cases h <;> rfl

variable {mem : Bytes} {env : Env} {v w : Ref → Word}

theorem evalInsn_load {signed : Bool} {ii ii' : Insn W} (hload : ii.index.isLoad = true)
    (hindex : ii'.index = ii.index)
    (haddr : operandValue env w (ii'.op 1) = operandValue env v (ii.op 1)) :
    evalInsn mem env signed ii' w = evalInsn mem env signed ii v := by
  unfold evalInsn
  rw [hindex]
  dsimp only [args]
  rw [haddr]
  cases hii : ii.index <;> rw [hii] at hload <;> first | rfl | cases hload

theorem address_value (hv : f.Holds mem env v) (hin : RefsInside f.toFunc) {o : Operand W}
    (hr : f.InRange r) (h : displacement f.toFunc (f.insn r) = some (o, x)) :
    operandValue env v ((f.insn r).op 1) = operandValue env v o + low x := by
  obtain ⟨q, hq, hindex, ho, hx⟩ := displacement_eq_some.1 h
  have hval := hv q (hin r hr 1 q hq) (by rw [hindex]; rfl)
  rw [hq, operandValue, hval, evalInsn, hindex, ← ho]
  simp only [compute, args, hx, operandValue]

/-- **Loads from the same place** have the same value. -/
theorem same_value (hv : f.Holds mem env v) (hin : RefsInside f.toFunc) (hf : ScheduleOk f)
    (hi : i < f.msched.length) (h : f.isSame i = true) :
    v (f.scheduled i) = v (f.scheduled (i - 1)) := by
  obtain ⟨⟨x, y⟩, hoff, hxy⟩ := (Option.any_eq_true _ _).1 h
  obtain rfl : x = y := eq_of_beq hxy
  obtain ⟨⟨hra, hla⟩, hrb, hlb⟩ := pair_loads hf hi hoff
  obtain ⟨-, o, ha, hb⟩ := offsets_spec hoff
  have hindex := index_eq_of_width hlb.load hla.load (hlb.width.trans hla.width.symm)
  rw [hv _ hra (isEvaluated_of_isLoad hla.load), hv _ hrb (isEvaluated_of_isLoad hlb.load),
    hla.signed, hlb.signed]
  refine evalInsn_load hla.load hindex ?_
  rw [address_value hv hin hra ha, address_value hv hin hrb hb]

end Schedule

/-! ### Removing a load from the same place -/

section Same

variable {f : Transfers W} {i j : ℕ} {r : Ref} {t : MemType}

/-- Where the references to the removed load are led. -/
def sameRef (t1 t2 q : Ref) : Ref := if q = t2 then t1 else q

theorem removeSame_second : (f.removeSame i).insn (f.second i) = nopInsn := by
  unfold Transfers.removeSame Transfers.mapRefs Transfers.nopAt
  dsimp only
  rw [Function.update_self]
  split_ifs <;> rfl

theorem removeSame_insn (hr : r ≠ f.second i) (hrange : f.InRange r) :
    (f.removeSame i).insn r = (f.insn r).relocate (sameRef (f.first i) (f.second i)) := by
  unfold Transfers.removeSame Transfers.mapRefs Transfers.nopAt
  dsimp only
  rw [Function.update_of_ne hr]
  exact if_pos hrange

theorem removeSame_index (hr : r ≠ f.second i) :
    ((f.removeSame i).insn r).index = (f.insn r).index := by
  unfold Transfers.removeSame Transfers.mapRefs Transfers.nopAt
  dsimp only
  rw [Function.update_of_ne hr]
  split_ifs <;> rfl

theorem removeSame_signed (hr : r ≠ f.second i) : (f.removeSame i).signed r = f.signed r :=
  Function.update_of_ne hr _ _

theorem removeSame_operand {env : Env} {v z : Ref → Word} (hne : f.first i ≠ f.second i)
    (hsame : v (f.second i) = v (f.first i)) (o : Operand W) :
    operandValue env (Function.update v (f.second i) (z (f.second i)))
      (o.relocate (sameRef (f.first i) (f.second i))) = operandValue env v o := by
  cases o with
  | ref q =>
    dsimp only [Operand.relocate, operandValue, sameRef]
    split_ifs with hq
    · rw [Function.update_of_ne hne, hq, hsame]
    · exact Function.update_of_ne hq _ _
  | _ => rfl

/-- The load that is removed is there, and has the value of the other one. -/
theorem second_load (hf : ScheduleOk f) (hi : i < f.msched.length) (h : f.isSame i = true) :
    (f.insn (f.second i)).index.isLoad = true := by
  obtain ⟨⟨x, y⟩, hoff, -⟩ := (Option.any_eq_true _ _).1 h
  obtain ⟨⟨-, hla⟩, -, hlb⟩ := pair_loads hf hi hoff
  obtain ⟨-, h₂⟩ | ⟨-, h₂⟩ := first_second f i <;> rw [h₂]
  · exact hlb.load
  · exact hla.load

theorem second_value {mem : Bytes} {env : Env} {v : Ref → Word} (hv : f.Holds mem env v)
    (hin : RefsInside f.toFunc) (hf : ScheduleOk f) (hi : i < f.msched.length)
    (h : f.isSame i = true) : v (f.second i) = v (f.first i) := by
  have hvalue := same_value hv hin hf hi h
  obtain ⟨h₁, h₂⟩ | ⟨h₁, h₂⟩ := first_second f i <;> rw [h₁, h₂]
  · exact hvalue
  · exact hvalue.symm

theorem removeSame_removed_iff (hload : (f.insn (f.second i)).index.isLoad = true) :
    Removed f (f.removeSame i) id r ↔ r = f.second i := by
  constructor
  · intro hr
    by_contra hne
    exact hr.1 ((removeSame_index hne).symm.trans hr.2)
  · rintro rfl
    refine ⟨fun hnop => ?_, congrArg Insn.index removeSame_second⟩
    rw [hnop] at hload
    cases hload

/-- **Removing a load from the same place** carries the values. -/
theorem removeSame_carries (hf : ScheduleOk f) (hin : RefsInside f.toFunc)
    (hi : i < f.msched.length) (hdistinct : f.scheduled (i - 1) ≠ f.scheduled i)
    (h : f.isSame i = true) : Carries f (f.removeSame i) id := by
  have hne : f.first i ≠ f.second i := by
    obtain ⟨h₁, h₂⟩ | ⟨h₁, h₂⟩ := first_second f i <;> rw [h₁, h₂]
    · exact hdistinct
    · exact hdistinct.symm
  have hload := second_load hf hi h
  have hremoved : ∀ r, Removed f (f.removeSame i) id r ↔ r = f.second i := fun r =>
    removeSame_removed_iff hload
  refine ⟨Function.injective_id, fun r hr => hr, fun r hr => ?_, fun r hr => ?_,
    fun mem env v hv z => ⟨Function.update v (f.second i) (z (f.second i)), ?_⟩⟩
  · exact removeSame_index fun he => hr ((hremoved r).2 he)
  · rw [(hremoved r).1 hr]
    exact hload
  · have hoperand : ∀ r, f.InRange r → r ≠ f.second i → ∀ k,
        operandValue env (Function.update v (f.second i) (z (f.second i)))
          (((f.removeSame i).insn r).op k) = operandValue env v ((f.insn r).op k) := by
      intro r hr hr' k
      rw [removeSame_insn hr' hr]
      exact removeSame_operand hne (second_value hv hin hf hi h) _
    refine ⟨fun r hr heval => ?_, fun r hr => ?_, fun r hr => ?_, fun r hr hindex k => ?_⟩
    · have hr' : r ≠ f.second i := by
        rintro rfl
        rw [removeSame_second] at heval
        cases heval
      rw [Function.update_of_ne hr', removeSame_signed hr',
        evalInsn_congr (removeSame_index hr') (hoperand r hr hr')]
      rw [removeSame_index hr'] at heval
      exact hv r hr heval
    · rw [(hremoved r).1 hr]
      exact Function.update_self _ _ _
    · exact Function.update_of_ne (fun he => hr ((hremoved r).2 he)) _ _
    · refine hoperand r hr (fun he => hindex ?_) k
      rw [he]
      exact congrArg Insn.index removeSame_second

theorem EntryOk.removeSame (h : EntryOk f r t) : EntryOk (f.removeSame i) r t := by
  refine ⟨h.1, fun hload => ?_⟩
  by_cases hr : r = f.second i
  · rw [hr]
    exact .inl removeSame_second
  · rw [removeSame_insn hr h.1]
    rcases h.2 hload with hnop | hok
    · rw [hnop]
      exact .inl rfl
    · exact .inr (hok.of_eq (removeSame_index hr) (removeSame_signed hr))

theorem refsInside_removeSame (hin : RefsInside f.toFunc) (hfirst : f.InRange (f.first i)) :
    RefsInside (f.removeSame i).toFunc := by
  intro r hr k q hq
  by_cases hr' : r = f.second i
  · rw [hr', removeSame_second] at hq
    cases hq
  · rw [removeSame_insn hr' hr] at hq
    change ((f.insn r).op k).relocate _ = _ at hq
    cases hop : (f.insn r).op k with
    | ref p =>
      rw [hop, Operand.relocate, Operand.ref.injEq, sameRef] at hq
      split_ifs at hq with hp
      · exact hq ▸ hfirst
      · exact hq ▸ hin r hr k p hop
    | _ =>
      rw [hop] at hq
      cases hq

end Same

/-! ### The loop of `same_transfers` -/

section Loop

variable {f g : Transfers W} {i j n : ℕ} {s : Transfers W × ℕ}

theorem carries_of_eq (hfunc : g.toFunc = f.toFunc) (hsigned : g.signed = f.signed) :
    Carries f g id := by
  have hinsn : g.insn = f.insn := congrArg Func.insn hfunc
  have hrange : ∀ r, g.InRange r ↔ f.InRange r := fun r => by rw [hfunc]
  have hremoved : ∀ r, ¬Removed f g id r := by
    rintro r ⟨hr, hnop⟩
    rw [hinsn] at hnop
    exact hr hnop
  refine ⟨Function.injective_id, fun r hr => (hrange r).2 hr, fun r _ => ?_,
    fun r hr => absurd hr (hremoved r), fun mem env v hv z => ⟨v, ?_, fun r hr =>
      absurd hr (hremoved r), fun _ _ => rfl, fun r _ _ k => ?_⟩⟩
  · rw [hinsn]
    rfl
  · intro r hr heval
    rw [hinsn] at heval ⊢
    rw [hsigned]
    exact hv r ((hrange r).1 hr) heval
  · rw [hinsn]
    rfl

theorem getD_set {α : Type} (l : List α) (d x : α) (hj : j < l.length) (m : ℕ) :
    (l.set j x).getD m d = if m = j then x else l.getD m d := by
  rw [List.getD_eq_getElem?_getD, List.getElem?_set, List.getD_eq_getElem?_getD]
  by_cases hm : j = m
  · subst hm
    rw [if_pos rfl, if_pos hj, if_pos rfl]
    rfl
  · rw [if_neg hm, if_neg (Ne.symm hm)]

theorem EntryOk.congr {r : Ref} {t : MemType} (hfunc : g.toFunc = f.toFunc)
    (hsigned : g.signed = f.signed) (h : EntryOk f r t) : EntryOk g r t := by
  have hinsn : g.insn = f.insn := congrArg Func.insn hfunc
  refine ⟨by rw [hfunc]; exact h.1, fun hload => ?_⟩
  rw [hinsn]
  exact (h.2 hload).imp_right fun hok => hok.of_eq (by rw [hinsn]) (by rw [hsigned])

theorem ScheduleOk.set {r : Ref} {t : MemType} (hfunc : g.toFunc = f.toFunc)
    (hsigned : g.signed = f.signed) (hmsched : g.msched = f.msched.set j r)
    (hmtype : g.mtype = f.mtype.set j t) (hf : ScheduleOk f) (hj : j < f.msched.length)
    (hentry : EntryOk f r t) : ScheduleOk g := by
  refine ⟨?_, fun m hm => ?_⟩
  · rw [hmsched, hmtype, List.length_set, List.length_set]
    exact hf.length_eq
  · rw [hmsched, List.length_set] at hm
    refine EntryOk.congr hfunc hsigned ?_
    unfold Linked.scheduled Transfers.typeAt
    rw [hmsched, hmtype, getD_set _ _ _ hj, getD_set _ _ _ (by rw [hf.length_eq]; exact hj)]
    split_ifs
    · exact hentry
    · exact hf.entry m hm

theorem carries_keepAt (f : Transfers W) (i j : ℕ) : Carries f (f.keepAt i j) id :=
  carries_of_eq rfl rfl

theorem carries_cut (s : Transfers W × ℕ) : Carries s.1 (Transfers.cut s) id :=
  carries_of_eq rfl rfl

theorem scheduleOk_keepAt (hf : ScheduleOk f) (hi : i < f.msched.length)
    (hj : j < f.msched.length) : ScheduleOk (f.keepAt i j) :=
  ScheduleOk.set (f := f) rfl rfl rfl rfl hf hj (hf.entry i hi)

theorem scheduleOk_cut (hf : ScheduleOk s.1) : ScheduleOk (Transfers.cut s) := by
  refine ⟨?_, fun m hm => ?_⟩
  · change (s.1.mtype.take s.2).length = (s.1.msched.take s.2).length
    rw [List.length_take, List.length_take, hf.length_eq]
  · change m < (s.1.msched.take s.2).length at hm
    rw [List.length_take] at hm
    have hentry : EntryOk (Transfers.cut s) (s.1.scheduled m) (s.1.typeAt m) :=
      EntryOk.congr (f := s.1) rfl rfl (hf.entry m (by omega))
    have hget : ∀ {α : Type} (l : List α) (d : α), (l.take s.2).getD m d = l.getD m d := by
      intro α l d
      rw [List.getD_eq_getElem?_getD, List.getElem?_take_of_lt (by omega),
        List.getD_eq_getElem?_getD]
    change EntryOk _ ((s.1.msched.take s.2).getD m _) ((s.1.mtype.take s.2).getD m _)
    rw [hget, hget]
    exact hentry

/-- The loop of `same_transfers` before step `i`. -/
structure SameLoop (f : Transfers W) (i : ℕ) (s : Transfers W × ℕ) : Prop where
  schedule : ScheduleOk s.1
  inside : RefsInside s.1.toFunc
  le : s.2 ≤ i
  length_eq : s.1.msched.length = f.msched.length
  /-- What is still to come has not been moved. -/
  nodup : (s.1.msched.drop (i - 1)).Nodup
  carries : Carries f s.1 id

theorem SameLoop.step (h : SameLoop f i s) (hi : 0 < i) (hlen : i < f.msched.length) :
    SameLoop f (i + 1) (Transfers.sameStep s i) := by
  have hlt : i < s.1.msched.length := h.length_eq ▸ hlen
  have hdrop : s.1.msched.drop (i - 1) = s.1.scheduled (i - 1) :: s.1.msched.drop i := by
    rw [List.drop_eq_getElem_cons (by omega), Nat.sub_add_cancel hi, scheduled_eq (by omega)]
  have hnodup := h.nodup
  rw [hdrop, List.nodup_cons] at hnodup
  have hmem : s.1.scheduled i ∈ s.1.msched.drop i := by
    rw [List.drop_eq_getElem_cons hlt, scheduled_eq hlt]
    exact List.mem_cons_self
  unfold Transfers.sameStep
  split_ifs with hsame
  · have hdistinct : s.1.scheduled (i - 1) ≠ s.1.scheduled i := fun he => hnodup.1 (he ▸ hmem)
    obtain ⟨⟨x, y⟩, hoff, -⟩ := (Option.any_eq_true _ _).1 hsame
    obtain ⟨⟨hra, -⟩, hrb, -⟩ := pair_loads h.schedule hlt hoff
    have hfirst : s.1.InRange (s.1.first i) := by
      obtain ⟨h₁, -⟩ | ⟨h₁, -⟩ := first_second s.1 i <;> rw [h₁]
      · exact hra
      · exact hrb
    exact {
      schedule := ⟨h.schedule.length_eq, fun m hm => (h.schedule.entry m hm).removeSame⟩
      inside := refsInside_removeSame h.inside hfirst
      le := Nat.le_succ_of_le h.le
      length_eq := h.length_eq
      nodup := hnodup.2
      carries := h.carries.trans (removeSame_carries h.schedule h.inside hlt hdistinct hsame) }
  · have hset : (s.1.keepAt i s.2).msched.drop i = s.1.msched.drop i := by
      change (s.1.msched.set s.2 (s.1.scheduled i)).drop i = _
      rcases h.le.lt_or_eq with hj | hj
      · exact List.drop_set_of_lt hj
      · rw [hj, scheduled_eq hlt, List.set_getElem_self]
    exact {
      schedule := scheduleOk_keepAt h.schedule hlt (h.le.trans_lt hlt)
      inside := h.inside
      le := Nat.succ_le_succ h.le
      length_eq := (List.length_set ..).trans h.length_eq
      nodup := by
        change ((s.1.keepAt i s.2).msched.drop i).Nodup
        rw [hset]
        exact hnodup.2
      carries := h.carries.trans (carries_keepAt s.1 i s.2) }

/-- **The loop**, by induction on the steps. -/
theorem sameLoop (hf : ScheduleOk f) (hin : RefsInside f.toFunc) (hnodup : f.msched.Nodup)
    (hn : n ≤ f.msched.length - 1) :
    SameLoop f (n + 1) ((List.range' 1 n).foldl Transfers.sameStep (f, 1)) := by
  induction n with
  | zero => exact ⟨hf, hin, le_rfl, rfl, hnodup, .refl f⟩
  | succ n ih =>
    rw [List.range'_1_concat, List.foldl_append, Nat.add_comm 1 n]
    exact (ih (by omega)).step n.succ_pos (by omega)

/-- **`same_transfers`** carries the values, whatever has been removed. -/
theorem sameTransfers_carries (otype : MemoryOrder) (hf : ScheduleOk f) (hin : RefsInside f.toFunc)
    (hnodup : f.msched.Nodup) : Carries f (Transfers.sameTransfers otype f) id ∧
      ScheduleOk (Transfers.sameTransfers otype f) := by
  unfold Transfers.sameTransfers
  split_ifs
  · have hloop := sameLoop hf hin hnodup le_rfl
    exact ⟨hloop.carries.trans (carries_cut _), scheduleOk_cut hloop.schedule⟩
  · exact ⟨.refl f, hf⟩

end Loop

end Cuc
end Or1ksim
