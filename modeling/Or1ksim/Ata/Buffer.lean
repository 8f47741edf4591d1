import Or1ksim.Ata.Basic
import Or1ksim.Lib.Runs

/-!
# The data port of a disk

The port goes through a buffer of one sector.  Commands reset the pointer and the count of the words
that are left, and every word moves both.

* `BufferOk` — as long as data is requested, the words that are left end where the buffer ends;
* `step_bufferOk` — every step of a disk keeps that;
* `buffer_bounds` — **no access to the data port is outside the buffer**, in any run.
-/

namespace Or1ksim
namespace Ata

variable {d t : Device} {e : Event} {b m : Byte}

/-! ### The request bit -/

theorem and_srDrq (h : m &&& srDrq = srDrq) : (b &&& m) &&& srDrq = b &&& srDrq := by
  rw [BitVec.and_assoc, h]

theorem and_srDrq_zero (h : m &&& srDrq = 0) : (b &&& m) &&& srDrq = 0 := by
  rw [BitVec.and_assoc, h]
  exact BitVec.and_zero

theorem or_srDrq (h : m &&& srDrq = 0) : (b ||| m) &&& srDrq = b &&& srDrq := by
  rw [BitVec.and_or_distrib_right, h]
  exact BitVec.or_zero

/-! ### The invariant -/

/-- While data is requested, at least one word is left, and the words that are left end at the end
of the buffer.  Beyond that nothing has been written. -/
structure BufferOk (d : Device) : Prop where
  cnt : d.Drq → 1 ≤ d.internals.dbufCnt.toNat
  ptr : d.Drq → d.internals.dbufPtr + d.internals.dbufCnt.toNat = wordsPerSector
  outside : ∀ i, wordsPerSector ≤ i → d.internals.dbuf i = 0

/-- The word of the buffer that an access to the data port is for. -/
def dataWord (d : Device) : Option ℕ := if d.Drq then some d.internals.dbufPtr else none

theorem BufferOk.dataWord_lt (h : BufferOk d) {i : ℕ} (hi : dataWord d = some i) :
    i < wordsPerSector := by
  unfold dataWord at hi
  split_ifs at hi with hdrq
  cases hi
  have hcnt := h.cnt hdrq
  have hptr := h.ptr hdrq
  omega

/-- The buffer is as it was, and data is requested only if it was. -/
theorem BufferOk.of_same (h : BufferOk d) (hdbuf : t.internals.dbuf = d.internals.dbuf)
    (hptr : t.internals.dbufPtr = d.internals.dbufPtr)
    (hcnt : t.internals.dbufCnt = d.internals.dbufCnt)
    (hdrq : t.regs.status &&& srDrq = d.regs.status &&& srDrq ∨ t.regs.status &&& srDrq = 0) :
    BufferOk t := by
  have hback : t.Drq → d.Drq := by
    intro ht
    rcases hdrq with hsame | hzero
    · exact fun hd => ht (hsame.trans hd)
    · exact absurd hzero ht
  refine ⟨fun ht => ?_, fun ht => ?_, fun i hi => ?_⟩
  · rw [hcnt]
    exact h.cnt (hback ht)
  · rw [hcnt, hptr]
    exact h.ptr (hback ht)
  · rw [hdbuf]
    exact h.outside i hi

theorem BufferOk.of_idle (status : Byte) (hstatus : d.regs.status = status)
    (hdrq : status &&& srDrq = 0)
    (houtside : ∀ i, wordsPerSector ≤ i → d.internals.dbuf i = 0) : BufferOk d := by
  have hno : ¬d.Drq := not_not.2 (hstatus ▸ hdrq)
  exact ⟨fun hd => absurd hd hno, fun hd => absurd hd hno, houtside⟩

theorem BufferOk.of_full (hcnt : d.internals.dbufCnt = BitVec.ofNat 16 wordsPerSector)
    (hptr : d.internals.dbufPtr = 0)
    (houtside : ∀ i, wordsPerSector ≤ i → d.internals.dbuf i = 0) : BufferOk d := by
  refine ⟨fun _ => ?_, fun _ => ?_, houtside⟩
  · rw [hcnt]
    decide
  · rw [hcnt, hptr]
    rfl

/-! ### Sectors -/

theorem ataCmdComplete_bufferOk (h : BufferOk d) : BufferOk (ataCmdComplete d) := by
  have hbusy : BufferOk (d.setStatus (d.regs.status &&& ~~~srBsy)) :=
    h.of_same rfl rfl rfl (.inl (and_srDrq rfl))
  unfold ataCmdComplete
  dsimp only
  split_ifs with hmasked hselected hraised
  · exact hbusy
  · exact hbusy
  · exact hbusy.of_same rfl rfl rfl (.inl rfl)
  · exact hbusy

theorem ataReadSect_bufferOk (h : BufferOk d) : BufferOk (ataReadSect d) := by
  unfold ataReadSect
  split_ifs with hzero
  · exact h
  · refine .of_full rfl rfl fun i hi => ?_
    change freadInto d.file _ d.internals.dbuf i = 0
    unfold freadInto
    rw [if_neg (Nat.not_lt.2 hi)]
    exact h.outside i hi

theorem ataWriteSect_bufferOk (h : BufferOk d) : BufferOk (ataWriteSect d) := by
  unfold ataWriteSect
  split_ifs with hzero hlast
  · exact .of_idle srDrdy rfl rfl h.outside
  · exact .of_full rfl rfl h.outside
  · exact .of_full rfl rfl h.outside

theorem EndTFunc.call_bufferOk (f : EndTFunc) (h : BufferOk d) : BufferOk (f.call d) := by
  cases f with
  | readSect => exact ataReadSect_bufferOk h
  | writeSect => exact ataWriteSect_bufferOk h

/-! ### Commands -/

theorem diagnostics_internals : (ataExecuteDeviceDiagnosticsCmd d).internals = d.internals := by
  unfold ataExecuteDeviceDiagnosticsCmd ataSetDeviceSignature
  dsimp only
  split_ifs <;> rfl

theorem diagnostics_status : (ataExecuteDeviceDiagnosticsCmd d).regs.status =
    d.regs.status &&& if d.conf.packet then 0xf8 else 0x82 := by
  unfold ataExecuteDeviceDiagnosticsCmd ataSetDeviceSignature
  dsimp only
  split_ifs <;> rfl

theorem diagnostics_bufferOk (h : BufferOk d) : BufferOk (ataExecuteDeviceDiagnosticsCmd d) := by
  refine h.of_same (by rw [diagnostics_internals]) (by rw [diagnostics_internals])
    (by rw [diagnostics_internals]) ?_
  rw [diagnostics_status]
  split_ifs with hpacket
  · exact .inl (and_srDrq rfl)
  · exact .inr (and_srDrq_zero rfl)

theorem abortPacket_bufferOk {status : Byte} (hstatus : status &&& srDrq = 0)
    (h : BufferOk d) : BufferOk (abortPacket status d) :=
  .of_idle status rfl hstatus h.outside

theorem identifyWord_outside {cyl current capacity : Word} {i : ℕ} (hi : wordsPerSector ≤ i) :
    identifyWord d cyl current capacity i = none := by
  have hbig : 256 ≤ i := hi
  unfold identifyWord
  split
  case h_42 => rw [if_neg (by omega), if_neg (by omega), if_neg (by omega)]
  all_goals omega

theorem ataIdentifyDeviceCmd_bufferOk (h : BufferOk d) (ht : ataIdentifyDeviceCmd d = some t) :
    BufferOk t := by
  unfold ataIdentifyDeviceCmd at ht
  dsimp only at ht
  split_ifs at ht with hpacket
  · cases ht
    exact abortPacket_bufferOk rfl (.of_full rfl rfl h.outside)
  · obtain ⟨cyl, -, ht⟩ := Option.bind_eq_some_iff.1 ht
    obtain ⟨current, -, ht⟩ := Option.bind_eq_some_iff.1 ht
    obtain ⟨capacity, -, ht⟩ := Option.bind_eq_some_iff.1 ht
    cases ht
    refine .of_full rfl rfl fun i hi => ?_
    have hne : i ≠ 255 := by
      have hbig : 256 ≤ i := hi
      omega
    simp only [Device.setStatus, Function.update_of_ne hne, identifyWord_outside hi,
      Option.getD_none]
    exact h.outside i hi

theorem refuseTransfer_bufferOk (h : BufferOk d) : BufferOk (refuseTransfer d) := by
  unfold refuseTransfer
  split_ifs with hpacket
  · exact abortPacket_bufferOk rfl h
  · exact .of_idle (srDrdy ||| srErr) rfl rfl h.outside

theorem startTransfer_bufferOk {f : EndTFunc} (h : BufferOk d) (ht : startTransfer f d = some t) :
    BufferOk t := by
  unfold startTransfer at ht
  split_ifs at ht
  cases ht
  exact h.of_same rfl rfl rfl (.inl rfl)

theorem ataReadSectorsCmd_bufferOk (h : BufferOk d) : BufferOk (ataReadSectorsCmd d) := by
  unfold ataReadSectorsCmd
  cases ht : startTransfer .readSect d with
  | none => exact refuseTransfer_bufferOk h
  | some t => exact ataReadSect_bufferOk (startTransfer_bufferOk h ht)

theorem ataWriteSectors_bufferOk (h : BufferOk d) : BufferOk (ataWriteSectors d) := by
  unfold ataWriteSectors
  cases ht : startTransfer .writeSect d with
  | none => exact refuseTransfer_bufferOk h
  | some t => exact .of_full rfl rfl (startTransfer_bufferOk h ht).outside

/-- Setting the address registers leaves the buffer as it was. -/
theorem ataSetSect_bufferOk {sect : Word} (h : BufferOk d) (ht : ataSetSect sect d = some t) :
    BufferOk t := by
  unfold ataSetSect at ht
  dsimp only at ht
  split_ifs at ht <;> cases ht <;> exact h.of_same rfl rfl rfl (.inl rfl)

theorem ataSetFeatures_bufferOk (h : BufferOk d) : BufferOk (ataSetFeatures d) := by
  unfold ataSetFeatures
  split_ifs with hmode
  · exact .of_idle (srDsc ||| srDrdy ||| srBsy) rfl rfl h.outside
  · exact .of_idle (srErr ||| srBsy ||| srDrdy) rfl rfl h.outside

theorem complete_bufferOk {delay : ℕ} (h : BufferOk d) : BufferOk (d.complete delay) :=
  h.of_same rfl rfl rfl (.inl rfl)

/-- **Commands**, each of them at any time. -/
theorem ataDeviceExecuteCmd_bufferOk (h : BufferOk d) (ht : ataDeviceExecuteCmd d = some t) :
    BufferOk t := by
  unfold ataDeviceExecuteCmd at ht
  split_ifs at ht with hreset hdiag hidentify hinit hread hnative hwrite hfeatures
  · cases ht
    exact complete_bufferOk (diagnostics_bufferOk h)
  · cases ht
    exact complete_bufferOk (diagnostics_bufferOk h)
  · exact ataIdentifyDeviceCmd_bufferOk h ht
  · cases ht
    exact complete_bufferOk (.of_idle (srBsy ||| srDrdy) rfl rfl h.outside)
  · cases ht
    exact ataReadSectorsCmd_bufferOk h
  · obtain ⟨u, hu, rfl⟩ := Option.map_eq_some_iff.1 ht
    obtain ⟨v, hv, rfl⟩ := Option.map_eq_some_iff.1 hu
    exact complete_bufferOk
      (.of_idle (srDrdy ||| srBsy) rfl rfl (ataSetSect_bufferOk h hv).outside)
  · cases ht
    exact complete_bufferOk (ataWriteSectors_bufferOk h)
  · cases ht
    exact complete_bufferOk (ataSetFeatures_bufferOk h)
  · cases ht
    exact complete_bufferOk (.of_idle (srErr ||| srBsy ||| srDrdy) rfl rfl h.outside)

/-! ### Steps -/

theorem advanceData_bufferOk (h : BufferOk d) (hdrq : d.Drq) : BufferOk (advanceData d) := by
  have hcnt := h.cnt hdrq
  have hptr := h.ptr hdrq
  have hone : (1 : Half) ≤ d.internals.dbufCnt := hcnt
  unfold advanceData
  dsimp only
  split_ifs with hlast
  · have hidle : ∀ u : Device, u.regs.status = d.regs.status &&& ~~~srDrq →
        u.internals.dbuf = d.internals.dbuf → BufferOk u := fun u hstatus hdbuf =>
      .of_idle _ hstatus (and_srDrq_zero rfl) (by rw [hdbuf]; exact h.outside)
    cases hf : d.internals.endTFunc with
    | none => exact hidle _ rfl rfl
    | some f => exact f.call_bufferOk (hidle _ rfl rfl)
  · have hsub : (d.internals.dbufCnt - 1).toNat = d.internals.dbufCnt.toNat - 1 :=
      BitVec.toNat_sub_of_le hone
    have hne : (d.internals.dbufCnt - 1).toNat ≠ 0 := fun hz =>
      hlast (BitVec.eq_of_toNat_eq hz)
    rw [hsub] at hne
    refine ⟨fun _ => ?_, fun _ => ?_, h.outside⟩
    · change 1 ≤ (d.internals.dbufCnt - 1).toNat
      omega
    · change d.internals.dbufPtr + 1 + (d.internals.dbufCnt - 1).toNat = wordsPerSector
      omega

theorem writeData_bufferOk {value : Half} (h : BufferOk d) : BufferOk (writeData value d) := by
  unfold writeData
  split_ifs with hdrq
  · have hlt : d.internals.dbufPtr < wordsPerSector := h.dataWord_lt (if_pos hdrq)
    have hwritten : BufferOk { d with internals := { d.internals with
        dbuf := Function.update d.internals.dbuf d.internals.dbufPtr (le16 value) } } := by
      refine ⟨h.cnt, h.ptr, fun i hi => ?_⟩
      exact (Function.update_of_ne (by omega) _ _).trans (h.outside i hi)
    exact (advanceData_bufferOk hwritten hdrq).of_same rfl rfl rfl (.inl rfl)
  · exact h

theorem endReset_bufferOk (h : BufferOk d) : BufferOk (endReset d) := by
  have hdiag := diagnostics_bufferOk h
  unfold endReset
  dsimp only
  split_ifs with hpacket
  · exact hdiag.of_same rfl rfl rfl (.inl (and_srDrq rfl))
  · exact hdiag.of_same rfl rfl rfl (.inl ((or_srDrq rfl).trans (and_srDrq rfl)))

theorem ataDeviceHwReset_bufferOk {resetSignal daspo pdiagi daspi : Bool} (h : BufferOk d) :
    BufferOk (ataDeviceHwReset resetSignal daspo pdiagi daspi d) := by
  unfold ataDeviceHwReset
  split_ifs
  · exact h
  · exact endReset_bufferOk (h.of_same rfl rfl rfl (.inl rfl))
  · exact h.of_same rfl rfl rfl (.inl (or_srDrq rfl))
  · exact h

theorem ataDeviceDoControlRegister_bufferOk (h : BufferOk d) :
    BufferOk (ataDeviceDoControlRegister d) := by
  unfold ataDeviceDoControlRegister
  split_ifs
  · exact h.of_same rfl rfl rfl (.inl (or_srDrq rfl))
  · exact h
  · exact endReset_bufferOk h
  · exact h

/-- **A step of a disk** keeps the invariant. -/
theorem step_bufferOk (h : BufferOk d) (ht : d.step e = some t) : BufferOk t := by
  cases e with
  | read r =>
    cases ht
    cases r with
    | dr =>
      unfold ataDeviceRead
      dsimp only
      split_ifs with hdrq
      · exact advanceData_bufferOk h hdrq
      · exact h
    | sr =>
      unfold ataDeviceRead
      dsimp only
      split_ifs
      · exact h.of_same rfl rfl rfl (.inl rfl)
      · exact h
    | _ => exact h
  | write r value =>
    cases r with
    | cr =>
      change ataDeviceDoCommandRegister _ = some t at ht
      unfold ataDeviceDoCommandRegister at ht
      have hcommand : BufferOk { d with regs := { d.regs with command := value.setWidth 8 } } :=
        h.of_same rfl rfl rfl (.inl rfl)
      split_ifs at ht with hexec
      · exact ataDeviceExecuteCmd_bufferOk hcommand ht
      · cases ht
        exact hcommand
    | dr =>
      cases ht
      exact writeData_bufferOk h
    | dcr =>
      cases ht
      exact ataDeviceDoControlRegister_bufferOk (h.of_same rfl rfl rfl (.inl rfl))
    | _ =>
      cases ht
      exact h.of_same rfl rfl rfl (.inl rfl)
  | hwReset resetSignal daspo pdiagi daspi =>
    cases ht
    exact ataDeviceHwReset_bufferOk h
  | complete =>
    cases ht
    exact ataCmdComplete_bufferOk h

/-! ### Runs -/

theorem ataDeviceInit_bufferOk (conf : Conf) (file : List Byte) (dev : Byte) :
    BufferOk (ataDeviceInit conf file dev) :=
  .of_idle 0 rfl rfl fun _ _ => rfl

variable {typed : Bool} {conf0 conf1 : Conf} {file0 file1 : List Byte} {events : List CableEvent}
  {ds : Devices}

theorem run_bufferOk
    (h : events.foldlM Devices.step (ataDevicesInit typed conf0 conf1 file0 file1) = some ds) :
    BufferOk ds.device0 ∧ BufferOk ds.device1 :=
  Runs.foldlM_keeps
    (fun _ _ _ hP hstep => Devices.step_keeps (fun hd ht => step_bufferOk hd ht) hP hstep)
    ⟨ataDeviceInit_bufferOk .., ataDeviceInit_bufferOk ..⟩ h

/-- **The data port**: in every state that is reached from power-on, a disk that requests data has
words left, which end at the end of the buffer; the word that an access is for is in the buffer, and
nothing has been written outside. -/
theorem buffer_bounds
    (h : events.foldlM Devices.step (ataDevicesInit typed conf0 conf1 file0 file1) = some ds)
    (hd : d = ds.device0 ∨ d = ds.device1) :
    (d.Drq → 1 ≤ d.internals.dbufCnt.toNat ∧
        d.internals.dbufPtr + d.internals.dbufCnt.toNat = wordsPerSector) ∧
      (∀ i, dataWord d = some i → i < wordsPerSector) ∧
      ∀ i, wordsPerSector ≤ i → d.internals.dbuf i = 0 := by
  have hok : BufferOk d := by
    obtain ⟨h0, h1⟩ := run_bufferOk h
    rcases hd with rfl | rfl
    · exact h0
    · exact h1
  exact ⟨fun hdrq => ⟨hok.cnt hdrq, hok.ptr hdrq⟩, fun i hi => hok.dataWord_lt hi, hok.outside⟩

/-- A run with a new command after the first word of a sector that is written. -/
def commandMidway : List CableEvent :=
  [.hwReset true, .hwReset false, .write .dhr 0, .write .snr 1, .write .cr 0x30, .write .dr 0x1234,
    .write .cr 0x20, .read .dr]

/-- A disk of one sector, and none beside it. -/
def oneSector : Devices :=
  ataDevicesInit true ⟨true, 0, false, 7, 32, [], 2, 4⟩ ⟨false, 0, false, 7, 32, [], 2, 4⟩
    (List.replicate bytesPerSector 0) []

/-- After it the disk requests the other words of the sector that is read. -/
theorem buffer_bounds_midway : ∃ ds, commandMidway.foldlM Devices.step oneSector = some ds ∧
    ds.device0.Drq ∧
      ds.device0.internals.dbufPtr + ds.device0.internals.dbufCnt.toNat = wordsPerSector := by
  have hrun : ((commandMidway.foldlM Devices.step oneSector).any
      fun ds => decide ds.device0.Drq) = true := by decide +kernel
  obtain ⟨ds, hds, hdrq⟩ := (Option.any_eq_true _ _).1 hrun
  have hdrq := of_decide_eq_true hdrq
  exact ⟨ds, hds, hdrq, ((buffer_bounds hds (.inl rfl)).1 hdrq).2⟩

end Ata
end Or1ksim
