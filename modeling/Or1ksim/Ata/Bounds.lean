import Or1ksim.Ata.Address
import Or1ksim.Ata.Buffer

/-!
# The sectors of a transfer

Only the first sector of `READ_SECTORS` and `WRITE_SECTORS` is compared with the size of the disk;
the next one is due when the buffer has gone through the data port.

* `TransferOk` — what is asked of a transfer, until the next command;
* `step_same_or_moves` — a step moves no sector, or it is the last word of one;
* `exists_farther` — words that go through the port move one sector after the other;
* `transfer_iff` — **a transfer stays on the disk** exactly if it is refused, or ends there.
-/

namespace Or1ksim
namespace Ata

variable {d t u : Device} {e : Event} {f : EndTFunc}

/-! ### What is asked of a transfer -/

/-- A command is written. -/
def Event.IsCommand : Event → Prop
  | .write r _ => r = .cr
  | _ => False

/-- The words that go through the data port. -/
def Event.IsData : Event → Prop
  | .read r => r = .dr
  | .write r _ => r = .dr
  | _ => False

/-- A run without a command. -/
def DataPhase (es : List Event) (d t : Device) : Prop :=
  (∀ e ∈ es, ¬e.IsCommand) ∧ es.foldlM Device.step d = some t

/-- The address is not found. -/
def Idnf (d : Device) : Prop := d.regs.status &&& srErr ≠ 0 ∧ d.regs.error &&& errIdnf ≠ 0

instance (d : Device) : Decidable (Idnf d) := inferInstanceAs (Decidable (_ ∧ _))

/-- The last word of the buffer is due, and another sector after it. -/
def Due (d : Device) : Prop :=
  d.Drq ∧ d.internals.dbufCnt = 1 ∧ d.internals.endTFunc.isSome ∧ d.internals.nrSect ≠ 0

/-- The next sector would be past the last one. -/
def PastEnd (d : Device) : Prop :=
  d.conf.sizeSect.toNat * bytesPerSector ≤ d.internals.lba.toNat

/-- `d` is the disk before a command for sectors, and `t` after it.  The transfer stays in its
sectors, which are on the disk; what would go past the end sets the error and does not access the
file. -/
structure TransferOk (d t : Device) : Prop where
  inside : ∀ es u, DataPhase es t u → ∃ new, u.accesses = new ++ d.accesses ∧
    ∀ a ∈ new, ∃ s, (ataCalcLba d).toNat ≤ s ∧ s < (ataCalcLba d).toNat + sectorCount d ∧
      s < d.conf.sizeSect.toNat ∧ a.offset = bytesPerSector * s
  command : d.conf.sizeSect ≤ ataCalcLba d → (¬d.conf.packet → Idnf t) ∧
    ∀ es u, DataPhase es t u → u.accesses = d.accesses
  continuation : ∀ es u e v, DataPhase es t u → u.step e = some v → e.IsData → Due u → PastEnd u →
    Idnf v ∧ v.accesses = u.accesses

/-! ### Steps -/

/-- Nothing has been moved, and data is requested only if it was. -/
structure Same (d t : Device) : Prop where
  conf : t.conf = d.conf
  lba : t.internals.lba = d.internals.lba
  nrSect : t.internals.nrSect = d.internals.nrSect
  endTFunc : t.internals.endTFunc = d.internals.endTFunc
  accesses : t.accesses = d.accesses
  drq : t.Drq → d.Drq

theorem Same.refl (d : Device) : Same d d := ⟨rfl, rfl, rfl, rfl, rfl, id⟩

theorem Same.trans (h : Same d t) (h' : Same t u) : Same d u :=
  ⟨h'.conf.trans h.conf, h'.lba.trans h.lba, h'.nrSect.trans h.nrSect, h'.endTFunc.trans h.endTFunc,
    h'.accesses.trans h.accesses, fun hu => h.drq (h'.drq hu)⟩

theorem Same.after (h' : Same t u) (h : Same d t) : Same d u := h.trans h'

theorem same_setStatus_and (d : Device) (m : Byte) (hm : m &&& srDrq = srDrq ∨ m &&& srDrq = 0) :
    Same d (d.setStatus (d.regs.status &&& m)) := by
  refine ⟨rfl, rfl, rfl, rfl, rfl, fun ht => ?_⟩
  rcases hm with hm | hm
  · exact fun hd => ht ((and_srDrq hm).trans hd)
  · exact absurd (and_srDrq_zero hm) ht

theorem same_setStatus_or (d : Device) {m : Byte} (hm : m &&& srDrq = 0) :
    Same d (d.setStatus (d.regs.status ||| m)) :=
  ⟨rfl, rfl, rfl, rfl, rfl, fun ht hd => ht ((or_srDrq hm).trans hd)⟩

theorem diagnostics_same (d : Device) : Same d (ataExecuteDeviceDiagnosticsCmd d) := by
  have hinternals := diagnostics_internals (d := d)
  refine ⟨?_, by rw [hinternals], by rw [hinternals], by rw [hinternals], ?_, fun ht => ?_⟩
  · unfold ataExecuteDeviceDiagnosticsCmd ataSetDeviceSignature
    dsimp only
    split_ifs <;> rfl
  · unfold ataExecuteDeviceDiagnosticsCmd ataSetDeviceSignature
    dsimp only
    split_ifs <;> rfl
  · unfold Device.Drq at ht
    rw [diagnostics_status] at ht
    split_ifs at ht with hpacket
    · rwa [and_srDrq rfl] at ht
    · exact absurd (and_srDrq_zero rfl) ht

theorem endReset_same (d : Device) : Same d (endReset d) := by
  have hbusy := (diagnostics_same d).trans
    (same_setStatus_and (ataExecuteDeviceDiagnosticsCmd d) (~~~srBsy) (.inl rfl))
  unfold endReset
  dsimp only
  split_ifs with hpacket
  · exact hbusy.trans ⟨rfl, rfl, rfl, rfl, rfl, id⟩
  · exact (hbusy.trans (same_setStatus_or _ rfl)).trans ⟨rfl, rfl, rfl, rfl, rfl, id⟩

theorem ataCmdComplete_same (d : Device) : Same d (ataCmdComplete d) := by
  have hbusy := same_setStatus_and d (~~~srBsy) (.inl rfl)
  unfold ataCmdComplete
  dsimp only
  split_ifs with hmasked hselected hraised
  · exact hbusy
  · exact hbusy
  · exact hbusy.trans ⟨rfl, rfl, rfl, rfl, rfl, id⟩
  · exact hbusy

theorem ataDeviceHwReset_same (resetSignal daspo pdiagi daspi : Bool) (d : Device) :
    Same d (ataDeviceHwReset resetSignal daspo pdiagi daspi d) := by
  unfold ataDeviceHwReset
  split_ifs
  · exact .refl d
  · exact (endReset_same _).after ⟨rfl, rfl, rfl, rfl, rfl, id⟩
  · exact (same_setStatus_or d (m := srBsy) rfl).trans ⟨rfl, rfl, rfl, rfl, rfl, id⟩
  · exact .refl d

theorem ataDeviceDoControlRegister_same (d : Device) : Same d (ataDeviceDoControlRegister d) := by
  unfold ataDeviceDoControlRegister
  split_ifs
  · exact (same_setStatus_or d (m := srBsy) rfl).trans ⟨rfl, rfl, rfl, rfl, rfl, id⟩
  · exact .refl d
  · exact endReset_same d
  · exact .refl d

/-- The last word of the buffer has gone through the port. -/
def Moves (d t : Device) : Prop :=
  d.Drq ∧ ∃ f u, d.internals.endTFunc = some f ∧ Same d u ∧ Same (f.call u) t

theorem advanceData_last (hcnt : d.internals.dbufCnt = 1) (hf : d.internals.endTFunc = some f) :
    ∃ u, Same d u ∧ advanceData d = f.call u := by
  refine ⟨{ d with internals := { d.internals with
    dbufPtr := d.internals.dbufPtr + 1, dbufCnt := d.internals.dbufCnt - 1 } }.setStatus
      (d.regs.status &&& ~~~srDrq), ?_, ?_⟩
  · exact (same_setStatus_and _ (~~~srDrq) (.inr rfl)).after ⟨rfl, rfl, rfl, rfl, rfl, id⟩
  · have hzero : d.internals.dbufCnt - 1 = 0 := by
      rw [hcnt]
      rfl
    unfold advanceData
    dsimp only
    rw [if_pos hzero]
    simp only [Device.setStatus, hf]

theorem advanceData_more (hcnt : d.internals.dbufCnt ≠ 1) :
    advanceData d = { d with internals := { d.internals with
      dbufPtr := d.internals.dbufPtr + 1, dbufCnt := d.internals.dbufCnt - 1 } } := by
  have hne : d.internals.dbufCnt - 1 ≠ 0 := by
    intro hz
    refine hcnt ?_
    have hback := BitVec.sub_add_cancel d.internals.dbufCnt 1
    rw [hz] at hback
    exact hback.symm
  unfold advanceData
  dsimp only
  rw [if_neg hne]

theorem advanceData_same_or_moves (hdrq : d.Drq) :
    Same d (advanceData d) ∨ Moves d (advanceData d) := by
  by_cases hcnt : d.internals.dbufCnt = 1
  · cases hf : d.internals.endTFunc with
    | none =>
      refine .inl ?_
      have hzero : d.internals.dbufCnt - 1 = 0 := by
        rw [hcnt]
        rfl
      unfold advanceData
      dsimp only
      rw [if_pos hzero]
      simp only [Device.setStatus, hf]
      exact ⟨rfl, rfl, rfl, hf.symm ▸ rfl, rfl, fun _ => hdrq⟩
    | some f =>
      obtain ⟨u, hu, hcall⟩ := advanceData_last hcnt hf
      exact .inr ⟨hdrq, f, u, hf, hu, hcall ▸ .refl _⟩
  · rw [advanceData_more hcnt]
    exact .inl ⟨rfl, rfl, rfl, rfl, rfl, id⟩

/-- **A step that is no command** moves nothing, or it is the last word of a sector. -/
theorem step_same_or_moves (he : ¬e.IsCommand) (h : d.step e = some t) : Same d t ∨ Moves d t := by
  cases e with
  | read r =>
    cases h
    cases r with
    | dr =>
      unfold ataDeviceRead
      dsimp only
      split_ifs with hdrq
      · exact advanceData_same_or_moves hdrq
      · exact .inl (.refl d)
    | sr =>
      unfold ataDeviceRead
      dsimp only
      split_ifs
      · exact .inl ⟨rfl, rfl, rfl, rfl, rfl, id⟩
      · exact .inl (.refl d)
    | _ => exact .inl (.refl d)
  | write r value =>
    cases r with
    | cr => exact absurd rfl he
    | dr =>
      cases h
      unfold writeData
      split_ifs with hdrq
      · have hstore : Same d { d with internals := { d.internals with
            dbuf := Function.update d.internals.dbuf d.internals.dbufPtr (le16 value) } } :=
          ⟨rfl, rfl, rfl, rfl, rfl, id⟩
        have hport : ∀ u : Device, Same u { u with regs := { u.regs with dataportI := value } } :=
          fun u => ⟨rfl, rfl, rfl, rfl, rfl, id⟩
        rcases advanceData_same_or_moves (d := { d with internals := { d.internals with
            dbuf := Function.update d.internals.dbuf d.internals.dbufPtr (le16 value) } }) hdrq with
          hsame | ⟨-, f, u, hf, hu, hcall⟩
        · exact .inl ((hstore.trans hsame).trans (hport _))
        · exact .inr ⟨hdrq, f, u, hf, hstore.trans hu, hcall.trans (hport _)⟩
      · exact .inl (.refl d)
    | dcr =>
      cases h
      exact .inl ((ataDeviceDoControlRegister_same _).after ⟨rfl, rfl, rfl, rfl, rfl, id⟩)
    | _ =>
      cases h
      exact .inl ⟨rfl, rfl, rfl, rfl, rfl, id⟩
  | hwReset resetSignal daspo pdiagi daspi =>
    cases h
    exact .inl (ataDeviceHwReset_same ..)
  | complete =>
    cases h
    exact .inl (ataCmdComplete_same d)

/-- What every step keeps that is no command, a data phase keeps. -/
theorem dataPhase_keeps {P : Device → Prop}
    (hP : ∀ {d e t}, ¬e.IsCommand → P d → d.step e = some t → P t) {es : List Event} (hd : P d)
    (h : DataPhase es d t) : P t := by
  obtain ⟨hes, hrun⟩ := h
  induction es generalizing d with
  | nil =>
    cases hrun
    exact hd
  | cons e es ih =>
    rw [List.foldlM_cons] at hrun
    obtain ⟨u, hu, hrun⟩ := Option.bind_eq_some_iff.1 hrun
    exact ih (hP (hes e (.head es)) hd hu) (fun e' he' => hes e' (.tail e he')) hrun

/-! ### A transfer that is refused -/

/-- No data is requested, so that nothing is moved. -/
def Quiet (old : List FileAccess) (d : Device) : Prop := ¬d.Drq ∧ d.accesses = old

theorem quiet_keeps {old : List FileAccess} {es : List Event} (hd : Quiet old d)
    (h : DataPhase es d t) : Quiet old t := by
  refine dataPhase_keeps (fun {d e t} he hd ht => ?_) hd h
  rcases step_same_or_moves he ht with hsame | hmoves
  · exact ⟨fun hdrq => hd.1 (hsame.drq hdrq), hsame.accesses.trans hd.2⟩
  · exact absurd hmoves.1 hd.1

/-! ### A transfer that ends on the disk -/

/-- `n` of the sectors from `base` on are still to be moved, and the others have been. -/
structure Within (base count : ℕ) (old : List FileAccess) (d : Device) : Prop where
  next : ∃ n, n ≤ count ∧ d.internals.nrSect = count - n ∧
    d.internals.lba.toNat = bytesPerSector * (base + n)
  accesses : ∃ new, d.accesses = new ++ old ∧
    ∀ a ∈ new, ∃ s, base ≤ s ∧ s < base + count ∧ a.offset = bytesPerSector * s

section Within

variable {base count : ℕ} {old : List FileAccess}

theorem Within.same (h : Within base count old d) (ht : Same d t) : Within base count old t := by
  refine ⟨?_, ?_⟩
  · rw [ht.nrSect, ht.lba]
    exact h.next
  · rw [ht.accesses]
    exact h.accesses

theorem Within.moved (hend : base + count < 2 ^ 23) (h : Within base count old d) {w : Bool}
    (hzero : d.internals.nrSect ≠ 0)
    (hnr : t.internals.nrSect = d.internals.nrSect - 1)
    (hlba : t.internals.lba = d.internals.lba + BitVec.ofNat 32 bytesPerSector)
    (haccesses : t.accesses = ⟨w, d.internals.lba.toNat⟩ :: d.accesses) :
    Within base count old t := by
  obtain ⟨⟨n, hn, hleft, hnext⟩, new, hnew, hin⟩ := h
  have hbytes : (BitVec.ofNat 32 bytesPerSector : Word).toNat = 512 := rfl
  refine ⟨⟨n + 1, by omega, by omega, ?_⟩, ⟨w, d.internals.lba.toNat⟩ :: new, ?_, ?_⟩
  · rw [hlba, BitVec.toNat_add, hnext, hbytes, bytesPerSector]
    omega
  · rw [haccesses, hnew]
    rfl
  · intro a ha
    rcases List.mem_cons.1 ha with rfl | ha
    · exact ⟨base + n, by omega, by omega, hnext⟩
    · exact hin a ha

theorem Within.call (hend : base + count < 2 ^ 23) (h : Within base count old d) (f : EndTFunc) :
    Within base count old (f.call d) := by
  cases f with
  | readSect =>
    change Within base count old (ataReadSect d)
    unfold ataReadSect
    split_ifs with hzero
    · exact h
    · exact h.moved hend hzero rfl rfl rfl
  | writeSect =>
    change Within base count old (ataWriteSect d)
    unfold ataWriteSect
    split_ifs with hzero hlast
    · exact ⟨h.next, h.accesses⟩
    · exact h.moved hend hzero rfl rfl rfl
    · exact h.moved hend hzero rfl rfl rfl

theorem within_keeps (hend : base + count < 2 ^ 23) {es : List Event} (hd : Within base count old d)
    (h : DataPhase es d t) : Within base count old t := by
  refine dataPhase_keeps (fun {d e t} he hd ht => ?_) hd h
  rcases step_same_or_moves he ht with hsame | ⟨-, f, u, -, hu, hcall⟩
  · exact hd.same hsame
  · exact ((hd.same hu).call hend f).same hcall

end Within

/-! ### A transfer that goes on -/

/-- A full buffer is due to go through the port, and `nrSect` sectors with it. -/
structure Ready (f : EndTFunc) (d : Device) : Prop where
  drq : d.Drq
  cnt : d.internals.dbufCnt = BitVec.ofNat 16 wordsPerSector
  endTFunc : d.internals.endTFunc = some f

theorem step_read (hdrq : d.Drq) : d.step (.read .dr) = some (advanceData d) := by
  change some (ataDeviceRead .dr d).2 = _
  unfold ataDeviceRead
  dsimp only
  rw [if_pos hdrq]

theorem exists_words {n : ℕ} (hdrq : d.Drq) (hcnt : d.internals.dbufCnt = BitVec.ofNat 16 (n + 1))
    (hn : n < wordsPerSector) (hf : d.internals.endTFunc = some f) :
    ∃ u, Same d u ∧
      (List.replicate (n + 1) (Event.read .dr)).foldlM Device.step d = some (f.call u) := by
  induction n generalizing d with
  | zero =>
    obtain ⟨u, hu, hlast⟩ := advanceData_last hcnt hf
    refine ⟨u, hu, ?_⟩
    rw [List.replicate_one, List.foldlM_cons, step_read hdrq, hlast]
    rfl
  | succ n ih =>
    have hlt : n + 1 < 256 := hn
    have hcnt' : d.internals.dbufCnt.toNat = n + 2 := by
      rw [hcnt, BitVec.toNat_ofNat, Nat.mod_eq_of_lt (by omega)]
    have hmore := advanceData_more (d := d) fun hone => by
      rw [hone] at hcnt'
      exact absurd hcnt' (by simp)
    have hnext : d.internals.dbufCnt - 1 = BitVec.ofNat 16 (n + 1) := by
      rw [hcnt]
      refine BitVec.eq_of_toNat_eq ?_
      have hone : (1 : Half).toNat = 1 := rfl
      rw [BitVec.toNat_sub, BitVec.toNat_ofNat, BitVec.toNat_ofNat, hone]
      omega
    obtain ⟨u, hu, hrun⟩ := ih (d := { d with internals := { d.internals with
      dbufPtr := d.internals.dbufPtr + 1, dbufCnt := d.internals.dbufCnt - 1 } }) hdrq hnext
        (Nat.lt_of_succ_lt hn) hf
    refine ⟨u, hu.after ⟨rfl, rfl, rfl, rfl, rfl, id⟩, ?_⟩
    rw [List.replicate_succ, List.foldlM_cons, step_read hdrq, hmore]
    exact hrun

/-- A sector is moved, and the buffer is due again if there is another one. -/
theorem call_moves (f : EndTFunc) (hzero : d.internals.nrSect ≠ 0)
    (hf : d.internals.endTFunc = some f) :
    (∃ w, (f.call d).accesses = ⟨w, d.internals.lba.toNat⟩ :: d.accesses) ∧
      (f.call d).internals.nrSect = d.internals.nrSect - 1 ∧
      (f.call d).internals.lba = d.internals.lba + BitVec.ofNat 32 bytesPerSector ∧
      (d.internals.nrSect - 1 ≠ 0 → Ready f (f.call d)) := by
  cases f with
  | readSect =>
    change (∃ w, (ataReadSect d).accesses = _) ∧ (ataReadSect d).internals.nrSect = _ ∧
      (ataReadSect d).internals.lba = _ ∧ (_ → Ready _ (ataReadSect d))
    unfold ataReadSect
    rw [if_neg hzero]
    refine ⟨⟨false, rfl⟩, rfl, rfl, fun _ => ⟨?_, rfl, hf⟩⟩
    change (srDrdy ||| srDrq) &&& srDrq ≠ 0
    decide
  | writeSect =>
    change (∃ w, (ataWriteSect d).accesses = _) ∧ (ataWriteSect d).internals.nrSect = _ ∧
      (ataWriteSect d).internals.lba = _ ∧ (_ → Ready _ (ataWriteSect d))
    unfold ataWriteSect
    rw [if_neg hzero]
    refine ⟨⟨true, rfl⟩, rfl, rfl, fun hleft => ⟨?_, rfl, hf⟩⟩
    change (if d.internals.nrSect - 1 = 0 then srDrdy ||| srDsc ||| srBsy
      else srDrdy ||| srDrq ||| srDsc ||| srBsy) &&& srDrq ≠ 0
    rw [if_neg hleft]
    decide

/-- Words that go through the port move one sector after the other. -/
theorem exists_farther {k : ℕ} (hd : Ready f d) (hk : k < d.internals.nrSect) :
    ∃ n t w more, (List.replicate n (Event.read .dr)).foldlM Device.step d = some t ∧
      t.accesses = ⟨w, (d.internals.lba + BitVec.ofNat 32 (bytesPerSector * k)).toNat⟩ ::
        (more ++ d.accesses) := by
  induction k generalizing d with
  | zero =>
    obtain ⟨u, hu, hrun⟩ := exists_words (n := 255) hd.drq hd.cnt (by decide) hd.endTFunc
    obtain ⟨⟨w, hw⟩, -⟩ := call_moves f (d := u) (by rw [hu.nrSect]; omega)
      (by rw [hu.endTFunc, hd.endTFunc])
    refine ⟨256, f.call u, w, [], hrun, ?_⟩
    rw [hw, hu.lba, hu.accesses, Nat.mul_zero, BitVec.add_zero, List.nil_append]
  | succ k ih =>
    obtain ⟨u, hu, hrun⟩ := exists_words (n := 255) hd.drq hd.cnt (by decide) hd.endTFunc
    obtain ⟨⟨w, hw⟩, hnr, hlba, hready⟩ := call_moves f (d := u) (by rw [hu.nrSect]; omega)
      (by rw [hu.endTFunc, hd.endTFunc])
    rw [hu.nrSect] at hnr hready
    obtain ⟨n, t, w', more, hrest, ht⟩ := ih (hready (by omega)) (by rw [hnr]; omega)
    refine ⟨256 + n, t, w', more ++ [⟨w, u.internals.lba.toNat⟩], ?_, ?_⟩
    · rw [← List.replicate_append_replicate, List.foldlM_append, hrun]
      exact hrest
    · have hsum : d.internals.lba + BitVec.ofNat 32 bytesPerSector +
          BitVec.ofNat 32 (bytesPerSector * k) =
            d.internals.lba + BitVec.ofNat 32 (bytesPerSector * (k + 1)) := by
        rw [BitVec.add_assoc, ← BitVec.ofNat_add, Nat.mul_succ, Nat.add_comm bytesPerSector]
      rw [ht, hlba, hu.lba, hsum, hw, hu.lba, hu.accesses, List.append_assoc, List.singleton_append]

/-! ### The command -/

theorem sectorCount_pos (d : Device) : 0 < sectorCount d := by
  unfold sectorCount
  split_ifs with hzero
  · decide
  · exact Nat.pos_of_ne_zero fun hz => hzero (BitVec.eq_of_toNat_eq hz)

theorem startTransfer_eq_none (h : d.conf.packet ∨ d.conf.sizeSect ≤ ataCalcLba d) :
    startTransfer f d = none := by
  unfold startTransfer
  split_ifs with hpacket hsize
  · rfl
  · rfl
  · exact absurd h (not_or.2 ⟨hpacket, hsize⟩)

theorem startTransfer_eq_some (h : ¬(d.conf.packet ∨ d.conf.sizeSect ≤ ataCalcLba d)) :
    startTransfer f d = some { d with internals := { d.internals with
      lba := ataCalcLba d * BitVec.ofNat 32 bytesPerSector
      nrSect := sectorCount d
      endTFunc := some f } } := by
  obtain ⟨hpacket, hsize⟩ := not_or.1 h
  unfold startTransfer
  rw [if_neg hpacket, if_neg hsize]

theorem refuseTransfer_quiet (d : Device) :
    Quiet d.accesses (refuseTransfer d) ∧ (¬d.conf.packet → Idnf (refuseTransfer d)) := by
  unfold refuseTransfer
  split_ifs with hpacket
  · refine ⟨⟨not_not.2 ?_, rfl⟩, fun hno => absurd hpacket hno⟩
    change (srErr ||| srDrdy) &&& srDrq = 0
    rfl
  · refine ⟨⟨not_not.2 ?_, rfl⟩, fun _ => ⟨?_, ?_⟩⟩
    · change (srDrdy ||| srErr) &&& srDrq = 0
      rfl
    · change (srDrdy ||| srErr) &&& srErr ≠ 0
      decide
    · change errIdnf &&& errIdnf ≠ 0
      decide

theorem ataReadSectorsCmd_quiet (h : d.conf.packet ∨ d.conf.sizeSect ≤ ataCalcLba d) :
    Quiet d.accesses (ataReadSectorsCmd d) ∧ (¬d.conf.packet → Idnf (ataReadSectorsCmd d)) := by
  unfold ataReadSectorsCmd
  rw [startTransfer_eq_none h]
  exact refuseTransfer_quiet d

theorem ataWriteSectors_quiet (h : d.conf.packet ∨ d.conf.sizeSect ≤ ataCalcLba d) :
    Quiet d.accesses (ataWriteSectors d) ∧ (¬d.conf.packet → Idnf (ataWriteSectors d)) := by
  unfold ataWriteSectors
  rw [startTransfer_eq_none h]
  exact refuseTransfer_quiet d

/-- `t` is the disk with `n` of the sectors from the first one on moved; the others are due. -/
structure Started (n : ℕ) (d t : Device) : Prop where
  le_one : n ≤ 1
  conf : t.conf = d.conf
  ready : t.internals.nrSect ≠ 0 → ∃ f, Ready f t
  nrSect : t.internals.nrSect = sectorCount d - n
  lba : t.internals.lba = (ataCalcLba d + BitVec.ofNat 32 n) * BitVec.ofNat 32 bytesPerSector
  accesses : ∃ w, t.accesses =
    List.replicate n ⟨w, (ataCalcLba d * BitVec.ofNat 32 bytesPerSector).toNat⟩ ++ d.accesses

theorem ataReadSectorsCmd_started (h : ¬(d.conf.packet ∨ d.conf.sizeSect ≤ ataCalcLba d)) :
    Started 1 d (ataReadSectorsCmd d) := by
  unfold ataReadSectorsCmd
  rw [startTransfer_eq_some h]
  dsimp only
  obtain ⟨haccesses, hnr, hlba, hready⟩ := call_moves .readSect (d := { d with
    internals := { d.internals with
      lba := ataCalcLba d * BitVec.ofNat 32 bytesPerSector
      nrSect := sectorCount d
      endTFunc := some .readSect } }) (sectorCount_pos d).ne' rfl
  refine ⟨le_rfl, ?_, fun hne => ⟨_, hready (hnr ▸ hne)⟩, hnr, hlba.trans ?_, haccesses⟩
  · unfold ataReadSect
    split_ifs <;> rfl
  · rw [BitVec.add_mul]
    rfl

/-- `WRITE_SECTORS` waits for the words of the first sector. -/
theorem ataWriteSectors_started (h : ¬(d.conf.packet ∨ d.conf.sizeSect ≤ ataCalcLba d)) :
    Started 0 d ((ataWriteSectors d).complete 40000) := by
  unfold ataWriteSectors
  rw [startTransfer_eq_some h]
  refine ⟨by decide, rfl, fun _ => ⟨.writeSect, ?_, rfl, rfl⟩, rfl, ?_, ⟨true, rfl⟩⟩
  · change (srBsy ||| srDrdy ||| srDrq) &&& srDrq ≠ 0
    decide
  · rw [BitVec.add_zero]
    rfl

/-- **A command for sectors** is refused, or it starts. -/
theorem refused_or_started (hselected : d.Selected) {value : Half}
    (hvalue : value.setWidth 8 = cmdReadSectors ∨ value.setWidth 8 = cmdWriteSectors)
    (ht : d.step (.write .cr value) = some t) :
    (d.conf.packet ∨ d.conf.sizeSect ≤ ataCalcLba d) ∧ Quiet d.accesses t ∧
        (¬d.conf.packet → Idnf t) ∨
      ¬(d.conf.packet ∨ d.conf.sizeSect ≤ ataCalcLba d) ∧ ∃ n, Started n d t := by
  change ataDeviceDoCommandRegister _ = some t at ht
  unfold ataDeviceDoCommandRegister at ht
  rw [if_pos (.inl hselected)] at ht
  unfold ataDeviceExecuteCmd at ht
  dsimp only at ht
  rcases hvalue with hread | hwrite
  · rw [hread, if_neg (by decide), if_neg (by decide), if_neg (by decide), if_neg (by decide),
      if_pos rfl] at ht
    cases ht
    by_cases h : d.conf.packet ∨ d.conf.sizeSect ≤ ataCalcLba d
    · exact .inl ⟨h, ataReadSectorsCmd_quiet (d := { d with
        regs := { d.regs with command := cmdReadSectors } }) h⟩
    · obtain ⟨hone, hconf, hready, hnr, hlba, haccesses⟩ := ataReadSectorsCmd_started (d := { d with
        regs := { d.regs with command := cmdReadSectors } }) h
      exact .inr ⟨h, 1, hone, hconf, hready, hnr, hlba, haccesses⟩
  · rw [hwrite, if_neg (by decide), if_neg (by decide), if_neg (by decide), if_neg (by decide),
      if_neg (by decide), if_neg (by decide), if_pos rfl] at ht
    cases ht
    by_cases h : d.conf.packet ∨ d.conf.sizeSect ≤ ataCalcLba d
    · exact .inl ⟨h, ataWriteSectors_quiet (d := { d with
        regs := { d.regs with command := cmdWriteSectors } }) h⟩
    · obtain ⟨hone, hconf, hready, hnr, hlba, haccesses⟩ := ataWriteSectors_started (d := { d with
        regs := { d.regs with command := cmdWriteSectors } }) h
      exact .inr ⟨h, 0, hone, hconf, hready, hnr, hlba, haccesses⟩

/-! ### Main results -/

theorem Quiet.transferOk (hquiet : Quiet d.accesses t) (hidnf : ¬d.conf.packet → Idnf t) :
    TransferOk d t where
  inside es u hu := by
    refine ⟨[], (quiet_keeps hquiet hu).2, fun a ha => ?_⟩
    cases ha
  command _ := ⟨hidnf, fun es u hu => (quiet_keeps hquiet hu).2⟩
  continuation es u e v hu _ _ hdue _ := absurd hdue.1 (quiet_keeps hquiet hu).1

theorem dataPhase_conf {es : List Event} (h : DataPhase es d t) : t.conf = d.conf := by
  refine dataPhase_keeps (P := fun t => t.conf = d.conf) (fun he hd ht => ?_) rfl h
  rcases step_same_or_moves he ht with hsame | ⟨-, f, u, -, hu, hcall⟩
  · exact hsame.conf.trans hd
  · have hf : (f.call u).conf = u.conf := by
      cases f with
      | readSect =>
        change (ataReadSect u).conf = u.conf
        unfold ataReadSect
        split_ifs <;> rfl
      | writeSect =>
        change (ataWriteSect u).conf = u.conf
        unfold ataWriteSect
        split_ifs <;> rfl
    exact hcall.conf.trans (hf.trans (hu.conf.trans hd))

section Started

variable {n : ℕ}

theorem Started.transferOk (hd : Started n d t)
    (hend : (ataCalcLba d).toNat + sectorCount d ≤ d.conf.sizeSect.toNat) : TransferOk d t := by
  have hsize := sizeSect_lt d.conf
  have hcount := sectorCount_pos d
  have hone := hd.le_one
  have hbytes : (BitVec.ofNat 32 bytesPerSector : Word).toNat = 512 := rfl
  have hwithin : Within (ataCalcLba d).toNat (sectorCount d) d.accesses t := by
    obtain ⟨w, haccesses⟩ := hd.accesses
    refine ⟨⟨n, by omega, hd.nrSect, ?_⟩, _, haccesses, fun a ha => ?_⟩
    · rw [hd.lba, BitVec.toNat_mul, BitVec.toNat_add, BitVec.toNat_ofNat, hbytes, bytesPerSector]
      omega
    · rw [List.eq_of_mem_replicate ha]
      refine ⟨(ataCalcLba d).toNat, le_rfl, by omega, ?_⟩
      change (ataCalcLba d * BitVec.ofNat 32 bytesPerSector).toNat = _
      rw [BitVec.toNat_mul, hbytes, bytesPerSector]
      omega
  have hkeeps := fun es u (hu : DataPhase es t u) => within_keeps (by omega) hwithin hu
  refine ⟨fun es u hu => ?_, fun hpast => ?_, fun es u e v hu _ _ hdue hpast => ?_⟩
  · obtain ⟨new, hnew, hin⟩ := (hkeeps es u hu).accesses
    refine ⟨new, hnew, fun a ha => ?_⟩
    obtain ⟨s, hle, hlt, hs⟩ := hin a ha
    exact ⟨s, hle, hlt, by omega, hs⟩
  · have hle : d.conf.sizeSect.toNat ≤ (ataCalcLba d).toNat := hpast
    omega
  · -- As long as a sector is due, it is one of the transfer.
    obtain ⟨m, hm, hleft, hlba⟩ := (hkeeps es u hu).next
    have hne := hdue.2.2.2
    unfold PastEnd at hpast
    rw [dataPhase_conf hu, hd.conf, hlba, bytesPerSector] at hpast
    omega

theorem Started.not_transferOk (hd : Started n d t)
    (hstart : (ataCalcLba d).toNat < d.conf.sizeSect.toNat)
    (hend : d.conf.sizeSect.toNat < (ataCalcLba d).toNat + sectorCount d) : ¬TransferOk d t := by
  intro hok
  have hsize := sizeSect_lt d.conf
  have hone := hd.le_one
  have hnr := hd.nrSect
  have hbytes : (BitVec.ofNat 32 bytesPerSector : Word).toNat = 512 := rfl
  obtain ⟨f, hready⟩ := hd.ready (by omega)
  obtain ⟨m, u, w, more, hrun, hu⟩ := exists_farther (k := d.conf.sizeSect.toNat -
    (ataCalcLba d).toNat - n) hready (by omega)
  have hphase : DataPhase (List.replicate m (.read .dr)) t u := by
    refine ⟨fun e he => ?_, hrun⟩
    rw [List.eq_of_mem_replicate he]
    exact id
  obtain ⟨new, hnew, hin⟩ := hok.inside _ u hphase
  obtain ⟨w', haccesses⟩ := hd.accesses
  rw [hu, haccesses, ← List.append_assoc, ← List.cons_append] at hnew
  obtain ⟨s, -, -, hs, hoffset⟩ := hin _ (List.append_cancel_right hnew ▸ List.mem_cons_self)
  have hfar : (t.internals.lba + BitVec.ofNat 32 (bytesPerSector * (d.conf.sizeSect.toNat -
      (ataCalcLba d).toNat - n))).toNat = bytesPerSector * d.conf.sizeSect.toNat := by
    rw [hd.lba, BitVec.toNat_add, BitVec.toNat_mul, BitVec.toNat_add, BitVec.toNat_ofNat, hbytes,
      BitVec.toNat_ofNat, bytesPerSector]
    omega
  have hsame : bytesPerSector * d.conf.sizeSect.toNat = bytesPerSector * s :=
    hfar.symm.trans hoffset
  rw [bytesPerSector] at hsame
  omega

end Started

/-- **Transfers stay on the disk**: after `READ_SECTORS` and `WRITE_SECTORS`, until the next
command, all accesses to the file are to sectors of the transfer and of the disk, exactly if the
disk does not know the command, the first sector is not on the disk, or the last one is. -/
theorem transfer_iff (hselected : d.Selected) {value : Half}
    (hvalue : value.setWidth 8 = cmdReadSectors ∨ value.setWidth 8 = cmdWriteSectors)
    (ht : d.step (.write .cr value) = some t) :
    TransferOk d t ↔ d.conf.packet ∨ d.conf.sizeSect.toNat ≤ (ataCalcLba d).toNat ∨
      (ataCalcLba d).toNat + sectorCount d ≤ d.conf.sizeSect.toNat := by
  rcases refused_or_started hselected hvalue ht with ⟨hrefused, hquiet, hidnf⟩ | ⟨h, n, hstarted⟩
  · refine iff_of_true (hquiet.transferOk hidnf) ?_
    rcases hrefused with hpacket | hsize
    · exact .inl hpacket
    · exact .inr (.inl hsize)
  · obtain ⟨hpacket, hsize⟩ := not_or.1 h
    have hstart : (ataCalcLba d).toNat < d.conf.sizeSect.toNat := Nat.lt_of_not_le hsize
    rw [or_iff_right hpacket, or_iff_right (Nat.not_le.2 hstart)]
    refine ⟨fun hok => ?_, hstarted.transferOk⟩
    by_contra hend
    exact hstarted.not_transferOk hstart (Nat.lt_of_not_le hend) hok

/-- A disk of two sectors, with the sector and the count in its task file. -/
def twoSectors (number count : Byte) : Device :=
  let d := ataDeviceInit ⟨true, 0, false, 7, 32, [], 2, 4⟩ (List.replicate 1024 0) 0
  { d with regs := { d.regs with sectorNumber := number, sectorCount := count } }

/-- Both sectors are read. -/
theorem transfer_iff_both : ∃ t, (twoSectors 1 2).step (.write .cr 0x20) = some t ∧
    TransferOk (twoSectors 1 2) t := by
  have hrun : ((twoSectors 1 2).step (.write .cr 0x20)).isSome = true := rfl
  obtain ⟨t, ht⟩ := Option.isSome_iff_exists.1 hrun
  have hselected : (twoSectors 1 2).Selected := rfl
  exact ⟨t, ht, (transfer_iff hselected (.inl rfl) ht).2 (.inr (.inr (by decide +kernel)))⟩

/-- **Two sectors from the last one on**: once the last sector is read, the file is accessed behind
it. -/
theorem transfer_leaves_disk :
    (((twoSectors 2 2).step (.write .cr 0x20)).bind
        fun t => (List.replicate 256 (Event.read .dr)).foldlM Device.step t).map
          (fun u => (u.accesses, decide (Idnf u))) =
        some ([⟨false, 1024⟩, ⟨false, 512⟩], false) ∧
      ∃ t, (twoSectors 2 2).step (.write .cr 0x20) = some t ∧ ¬TransferOk (twoSectors 2 2) t := by
  have hrun : (((twoSectors 2 2).step (.write .cr 0x20)).bind
      fun t => (List.replicate 256 (Event.read .dr)).foldlM Device.step t).map
        (fun u => (u.accesses, decide (Idnf u))) =
      some ([⟨false, 1024⟩, ⟨false, 512⟩], false) := by decide +kernel
  refine ⟨hrun, ?_⟩
  obtain ⟨u, hu, hfar⟩ := Option.map_eq_some_iff.1 hrun
  obtain ⟨t, ht, hu⟩ := Option.bind_eq_some_iff.1 hu
  refine ⟨t, ht, fun hok => ?_⟩
  obtain ⟨new, hnew, hin⟩ := hok.inside _ u
    ⟨fun e he => by rw [List.eq_of_mem_replicate he]; exact id, hu⟩
  rw [(Prod.mk.inj hfar).1, show (twoSectors 2 2).accesses = [] from rfl, List.append_nil] at hnew
  obtain ⟨s, -, -, hs, hoffset⟩ := hin ⟨false, 1024⟩ (hnew ▸ List.mem_cons_self)
  have hsize : (twoSectors 2 2).conf.sizeSect.toNat = 2 := by decide +kernel
  rw [hsize] at hs
  rw [bytesPerSector] at hoffset
  change 1024 = 512 * s at hoffset
  omega

end Ata
end Or1ksim
