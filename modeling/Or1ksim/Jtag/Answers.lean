import Or1ksim.Jtag.Transfer
import Or1ksim.Lib.Runs

/-!
# Answers of the JTAG handlers

What each handler puts into the register, for all requests that start alike: the state that follows,
the status and the data are the same for them.

* `Agree` — requests that start alike, and their fields;
* `selectModule_form`, `writeCommand_form`, `writeControl_form`, `goCommandWrite_form` — responses
  without data;
* `goCommandRead_form`, `readCommand_form`, `readControl_form` — responses with data.
-/

namespace Or1ksim
namespace Jtag

open Cpu

/-! ### Requests that start alike -/

/-- The registers have the same bits before bit `a`. -/
def Agree (a : ℕ) (j j₀ : Jreg) : Prop := ∀ i < a, bit j i = bit j₀ i

section Agree

variable {a : ℕ} {j j₀ : Jreg}

theorem Agree.mono {b : ℕ} (h : Agree a j j₀) (hb : b ≤ a) : Agree b j j₀ :=
  fun i hi => h i (by omega)

theorem Agree.bits_eq (h : Agree a j j₀) {off n : ℕ} (hle : off + n ≤ a) :
    bits j off n = bits j₀ off n := by
  refine List.map_congr_left fun i hi => ?_
  have hi := List.mem_range.1 hi
  exact h (off + i) (by omega)

theorem Agree.reverseBits_eq (h : Agree a j j₀) (off : ℕ) {x y : BitVec 64} {n : ℕ} (hn : n ≤ 64)
    (hle : off + n ≤ a) (hx : ∀ i < n, x.getLsbD i = bit j (off + i))
    (hy : ∀ i < n, y.getLsbD i = bit j₀ (off + i)) : reverseBits x n = reverseBits y n := by
  have hlow : (reverseBits x n).setWidth n = (reverseBits y n).setWidth n :=
    msbFirst_injective ((msbFirst_reverseBits hn hx).trans
      ((h.bits_eq hle).trans (msbFirst_reverseBits hn hy).symm))
  have hwhole : ∀ z : BitVec 64, reverseBits z n = ((reverseBits z n).setWidth n).setWidth 64 :=
    fun z => (BitVec.setWidth_eq _).symm.trans (reverseBits_setWidth z hn 64)
  rw [hwhole x, hlow, ← hwhole]

theorem Agree.crcIn5_eq (h : Agree a j j₀) {o : ℕ} (hle : 8 * o + 37 ≤ a) :
    crcIn5 j o = crcIn5 j₀ o :=
  msbFirst_injective ((msbFirst_crcIn5 j o).trans
    ((h.bits_eq (by omega)).trans (msbFirst_crcIn5 j₀ o).symm))

theorem Agree.crcIn1_eq (h : Agree a j j₀) {o : ℕ} (hle : 8 * o + 33 ≤ a) :
    crcIn1 j o = crcIn1 j₀ o :=
  msbFirst_injective ((msbFirst_crcIn1 j o).trans
    ((h.bits_eq (by omega)).trans (msbFirst_crcIn1 j₀ o).symm))

theorem Agree.nibble1_eq (h : Agree a j j₀) (hle : 5 ≤ a) :
    reverseBits (((j 0 >>> 1) &&& 0xf#8).setWidth 64) 4 =
      reverseBits (((j₀ 0 >>> 1) &&& 0xf#8).setWidth 64) 4 :=
  h.reverseBits_eq 1 (by decide) (by omega) (fun _ hi => getLsbD_nibble1 j hi)
    fun _ hi => getLsbD_nibble1 j₀ hi

theorem Agree.dataByte_eq (h : Agree a j j₀) {i : ℕ} (hle : 8 * i + 13 ≤ a) :
    dataByte j i = dataByte j₀ i :=
  msbFirst_injective ((msbFirst_dataByte j i).trans
    ((h.bits_eq (by omega)).trans (msbFirst_dataByte j₀ i).symm))

theorem Agree.cmdOf_eq (h : Agree a j j₀) (hle : 5 ≤ a) : cmdOf j = cmdOf j₀ :=
  cmdOf_congr (h.bits_eq (by omega))

end Agree

/-! ### What the handlers answer -/

variable {cfg : Config} {t : Target} {j₀ : Jreg} {numBits : ℕ}

/-- `select_module` answers with a status that is no overrun. -/
theorem selectModule_form (t : Target) (j₀ : Jreg) :
    ∃ t' status, status.getLsbD 3 = false ∧ ∀ j, Agree 37 j j₀ →
      selectModule t j 73 = (t', constructResponse j status 0xffffffff#32 0 37) := by
  have hsize : ¬36 + 32 + 4 + 1 ≠ 73 := by decide
  generalize hm : (reverseBits (((j₀ 0 >>> 1) &&& 0xf#8).setWidth 64) 4).setWidth 8 = m
  have hfield : ∀ j, Agree 37 j j₀ →
      (reverseBits (((j 0 >>> 1) &&& 0xf#8).setWidth 64) 4).setWidth 8 = m := fun j hj => by
    rw [hj.nibble1_eq (by decide), hm]
  have hin : ∀ j, Agree 37 j j₀ → crcIn5 j 0 = crcIn5 j₀ 0 := fun j hj =>
    hj.crcIn5_eq (by decide)
  -- four modules, or a wrong CRC
  by_cases hcrc : crc32 (m.setWidth 64) 4 (crc32 1#64 1 0xffffffff#32) = crcIn5 j₀ 0
  · by_cases h0 : m = 0x0
    · refine ⟨{ t with debug := { t.debug with modId := .wishbone } }, jsOk, by decide,
        fun j hj => ?_⟩
      simp only [selectModule, if_neg hsize, hfield j hj, hin j hj, if_pos hcrc, if_pos h0]
    by_cases h1 : m = 0x1
    · refine ⟨{ t with debug := { t.debug with modId := .cpu0 } }, jsOk, by decide,
        fun j hj => ?_⟩
      simp only [selectModule, if_neg hsize, hfield j hj, hin j hj, if_pos hcrc, if_neg h0,
        if_pos h1]
    by_cases h2 : m = 0x2
    · refine ⟨{ t with debug := { t.debug with modId := .cpu1 } }, jsOk, by decide,
        fun j hj => ?_⟩
      simp only [selectModule, if_neg hsize, hfield j hj, hin j hj, if_pos hcrc, if_neg h0,
        if_neg h1, if_pos h2]
    · refine ⟨{ t with debug := { t.debug with modId := .undefined } }, jsOk ||| jsModuleMissing,
        by decide, fun j hj => ?_⟩
      simp only [selectModule, if_neg hsize, hfield j hj, hin j hj, if_pos hcrc, if_neg h0,
        if_neg h1, if_neg h2]
  · refine ⟨t, jsOk ||| jsCrcInError, by decide, fun j hj => ?_⟩
    simp only [selectModule, if_neg hsize, hfield j hj, hin j hj, if_neg hcrc]

/-- `write_command` answers with a status that is no overrun. -/
theorem writeCommand_form (t : Target) (j₀ : Jreg) :
    ∃ t' status, status.getLsbD 3 = false ∧ ∀ j, Agree 89 j j₀ →
      writeCommand t j 125 = (t', constructResponse j status 0xffffffff#32 0 89) := by
  have hsize : ¬36 + 32 + 16 + 32 + 4 + 4 + 1 ≠ 125 := by decide
  have hacc : ∀ j, Agree 89 j j₀ → reverseBits (nibble5 j) 4 = reverseBits (nibble5 j₀) 4 :=
    fun j hj => hj.reverseBits_eq 5 (by decide) (by decide)
      (fun _ hi => getLsbD_nibble5 j hi) fun _ hi => getLsbD_nibble5 j₀ hi
  have haddr : ∀ j, Agree 89 j j₀ → reverseBits (word1 j 1) 32 = reverseBits (word1 j₀ 1) 32 :=
    fun j hj => hj.reverseBits_eq (8 * 1 + 1) (by decide) (by decide)
      (fun _ hi => getLsbD_word1 j 1 hi) fun _ hi => getLsbD_word1 j₀ 1 hi
  have hlen : ∀ j, Agree 89 j j₀ → reverseBits (half1 j 5) 16 = reverseBits (half1 j₀ 5) 16 :=
    fun j hj => hj.reverseBits_eq (8 * 5 + 1) (by decide) (by decide)
      (fun _ hi => getLsbD_half1 j 5 hi) fun _ hi => getLsbD_half1 j₀ 5 hi
  have hin : ∀ j, Agree 89 j j₀ → crcIn1 j 7 = crcIn1 j₀ 7 := fun j hj =>
    hj.crcIn1_eq (by decide)
  -- each field and the CRC are before bit 89
  by_cases hcrc : crc32 (((reverseBits (half1 j₀ 5) 16).setWidth 16).setWidth 64) 16
      (crc32 (((reverseBits (word1 j₀ 1) 32).setWidth 32).setWidth 64) 32
        (crc32 (((reverseBits (nibble5 j₀) 4).setWidth 8).setWidth 64) 4
          (crcOfCmd .writeCommand))) = crcIn1 j₀ 7
  · refine ⟨(writeCommand t j₀ 125).1, jsOk, by decide, fun j hj => ?_⟩
    simp only [writeCommand, if_neg hsize, hacc j hj, haddr j hj, hlen j hj, hin j hj, if_pos hcrc]
  · refine ⟨t.undefine, jsOk ||| jsCrcInError, by decide, fun j hj => ?_⟩
    simp only [writeCommand, if_neg hsize, hacc j hj, haddr j hj, hlen j hj, hin j hj, if_neg hcrc]

/-- `write_control` stops the simulator or answers with a status that is no overrun. -/
theorem writeControl_form (cfg : Config) (t : Target) (j₀ : Jreg) :
    (∃ e, ∀ j, Agree 89 j j₀ → writeControl cfg t j 125 = .error e) ∨
      ∃ t' status, status.getLsbD 3 = false ∧ ∀ j, Agree 89 j j₀ →
        writeControl cfg t j 125 = .ok (t', constructResponse j status 0xffffffff#32 0 89) := by
  have hsize : ¬36 + 32 + 52 + 4 + 1 ≠ 125 := by decide
  generalize hd : reverseBits (control5 j₀) 52 = data
  have hdata : ∀ j, Agree 89 j j₀ → reverseBits (control5 j) 52 = data := fun j hj => by
    rw [← hd]
    exact hj.reverseBits_eq 5 (by decide) (by decide)
      (fun _ hi => getLsbD_control5 j hi) fun _ hi => getLsbD_control5 j₀ hi
  have hin : ∀ j, Agree 89 j j₀ → crcIn1 j 7 = crcIn1 j₀ 7 := fun j hj =>
    hj.crcIn1_eq (by decide)
  by_cases hcrc : crc32 data 52 (crcOfCmd .writeControl) = crcIn1 j₀ 7
  · -- the simulator stops where the reset does
    generalize hsim : (if t.debug.modId = .cpu0 then
      if data.getLsbD jcbReset then simReset cfg t.sim
      else .ok (t.sim.setStallState (data.getLsbD jcbStall))
      else .ok t.sim : Except Stop Sim) = sim
    cases sim with
    | error e =>
      refine .inl ⟨e, fun j hj => ?_⟩
      simp only [writeControl, if_neg hsize, hdata j hj, hin j hj, if_pos hcrc, hsim]
      rfl
    | ok sim =>
      refine .inr ⟨{ t with sim := sim }, jsOk, by decide, fun j hj => ?_⟩
      simp only [writeControl, if_neg hsize, hdata j hj, hin j hj, if_pos hcrc, hsim]
      rfl
  · refine .inr ⟨t, jsOk ||| jsCrcInError, by decide, fun j hj => ?_⟩
    simp only [writeControl, if_neg hsize, hdata j hj, hin j hj, if_neg hcrc]

/-! ### `GO_COMMAND` -/

/-- The statuses of `GO_COMMAND` never say that the module is missing. -/
theorem transferSize_status (size numBits : ℕ) :
    (transferSize size numBits).2.getLsbD 1 = false := by
  have hok : jsOk.getLsbD 1 = false := by decide
  have hover : jsOverUnderrun.getLsbD 1 = false := by decide
  simp only [transferSize]
  split
  · exact hok
  · exact hover

theorem or_getLsbD_one {x y : Byte} (hx : x.getLsbD 1 = false) (hy : y.getLsbD 1 = false) :
    (x ||| y).getLsbD 1 = false := by
  rw [BitVec.getLsbD_or, hx, hy]
  rfl

theorem wishboneWrite_status {jreg : Jreg} {n : ℕ} {status : Byte}
    (h : status.getLsbD 1 = false) : (wishboneWrite t jreg n status).2.getLsbD 1 = false := by
  refine List.foldlRecOn (motive := fun r => r.2.getLsbD 1 = false) (List.range n)
    (wishboneWriteByte t.debug jreg) (b := (t.sim.mem, status)) h fun r hr i _ => ?_
  unfold wishboneWriteByte
  split
  · split
    · exact or_getLsbD_one hr (by decide)
    · exact hr
  · exact hr

/-- A write takes from the register the bytes of the data only. -/
theorem Agree.wishboneWrite_eq {a n : ℕ} {j : Jreg} (h : Agree a j j₀) (hle : 8 * n + 5 ≤ a)
    (status : Byte) : wishboneWrite t j n status = wishboneWrite t j₀ n status := by
  have hfold : (List.range n).foldl (wishboneWriteByte t.debug j) (t.sim.mem, status) =
      (List.range n).foldl (wishboneWriteByte t.debug j₀) (t.sim.mem, status) := by
    refine List.foldl_ext _ _ _ fun r i hi => ?_
    have hi := List.mem_range.1 hi
    rw [wishboneWriteByte, wishboneWriteByte, h.dataByte_eq (by omega)]
  rw [wishboneWrite, wishboneWrite, hfold]

theorem Agree.sprWrite_eq {a n : ℕ} {j : Jreg} (h : Agree a j j₀) (hle : 8 * n + 5 ≤ a)
    (status : Byte) : sprWrite cfg t j n status = sprWrite cfg t j₀ n status := by
  have hfold : (List.range n).foldl (fun (spr : Word) i =>
        if i < 4 then spr ||| ((dataByte j i).setWidth 32 <<< (8 * i)) else spr) 0 =
      (List.range n).foldl (fun (spr : Word) i =>
        if i < 4 then spr ||| ((dataByte j₀ i).setWidth 32 <<< (8 * i)) else spr) 0 := by
    refine List.foldl_ext _ _ _ fun r i hi => ?_
    have hi := List.mem_range.1 hi
    rw [h.dataByte_eq (by omega)]
  rw [sprWrite, sprWrite, hfold]

/-- `go_command_write` stops the simulator or answers with a status that names no module. -/
theorem goCommandWrite_form (cfg : Config) (t : Target) (j₀ : Jreg) (numBits : ℕ) {n : ℕ}
    (hn : (transferSize t.debug.size numBits).1 = n) :
    (∃ e, ∀ j, Agree (37 + 8 * n) j j₀ → goCommandWrite cfg t j numBits = .error e) ∨
      ∃ t' status, status.getLsbD 1 = false ∧ ∀ j, Agree (37 + 8 * n) j j₀ →
        goCommandWrite cfg t j numBits =
          .ok (t', constructResponse j status 0xffffffff#32 0 (37 + 8 * n)) := by
  subst hn
  have hstatus := transferSize_status t.debug.size numBits
  generalize hsize : transferSize t.debug.size numBits = size at hstatus ⊢
  obtain ⟨n, status⟩ := size
  have hcrc : ∀ j, Agree (37 + 8 * n) j j₀ → (List.range n).foldl
      (fun crc i => crc32 (((reverseBits (byte5 j i) 8).setWidth 8).setWidth 64) 8 crc)
        (crcOfCmd .goCommand) =
      (List.range n).foldl
        (fun crc i => crc32 (((reverseBits (byte5 j₀ i) 8).setWidth 8).setWidth 64) 8 crc)
        (crcOfCmd .goCommand) := fun j hj => by
    refine List.foldl_ext _ _ _ fun crc i hi => ?_
    have hi := List.mem_range.1 hi
    rw [hj.reverseBits_eq (8 * i + 5) (by decide) (by omega) (fun _ hk => getLsbD_byte5 j i hk)
      fun _ hk => getLsbD_byte5 j₀ i hk]
  have hin : ∀ j, Agree (37 + 8 * n) j j₀ → crcIn5 j n = crcIn5 j₀ n := fun j hj =>
    hj.crcIn5_eq (by omega)
  by_cases hok : (List.range n).foldl
      (fun crc i => crc32 (((reverseBits (byte5 j₀ i) 8).setWidth 8).setWidth 64) 8 crc)
      (crcOfCmd .goCommand) = crcIn5 j₀ n
  · cases hmod : t.debug.modId with
    | wishbone =>
      refine .inr ⟨(wishboneWrite t j₀ n status).1, (wishboneWrite t j₀ n status).2,
        wishboneWrite_status hstatus, fun j hj => ?_⟩
      simp only [goCommandWrite, hsize, hcrc j hj, hin j hj, if_pos hok, hmod,
        hj.wishboneWrite_eq (by omega : 8 * n + 5 ≤ 37 + 8 * n)]
      rfl
    | cpu0 =>
      cases hspr : sprWrite cfg t j₀ n status with
      | error e =>
        refine .inl ⟨e, fun j hj => ?_⟩
        simp only [goCommandWrite, hsize, hcrc j hj, hin j hj, if_pos hok, hmod,
          hj.sprWrite_eq (by omega : 8 * n + 5 ≤ 37 + 8 * n), hspr]
        rfl
      | ok r =>
        have hkeep : r.2 = status := by
          obtain ⟨sim, -, rfl⟩ := Runs.map_eq_ok_iff.1 hspr
          rfl
        refine .inr ⟨r.1, r.2, hkeep ▸ hstatus, fun j hj => ?_⟩
        simp only [goCommandWrite, hsize, hcrc j hj, hin j hj, if_pos hok, hmod,
          hj.sprWrite_eq (by omega : 8 * n + 5 ≤ 37 + 8 * n), hspr]
        rfl
    | undefined | cpu1 =>
      refine .inr ⟨t, status, hstatus, fun j hj => ?_⟩
      simp only [goCommandWrite, hsize, hcrc j hj, hin j hj, if_pos hok, hmod]
      rfl
  · refine .inr ⟨t, status ||| jsCrcInError, or_getLsbD_one hstatus (by decide), fun j hj => ?_⟩
    simp only [goCommandWrite, hsize, hcrc j hj, hin j hj, if_neg hok]

/-- What a read leaves in any register: the same data, whatever else the register holds. -/
structure ReadsTo (read : Jreg → Target × ReadResult) (n : ℕ) (t' : Target) (status : Byte)
    (data : List Bool) : Prop where
  length_data : data.length = 8 * n
  fills : ∀ j, ∃ reg, read j = (t', ⟨reg, crcOfBits data, status⟩) ∧ bits reg 37 (8 * n) = data ∧
    ∀ i, i < 37 ∨ 37 + 8 * n ≤ i → bit reg i = bit j i

theorem length_flatMap_msbFirst (byte : ℕ → Byte) (n : ℕ) :
    ((List.range n).flatMap fun i => msbFirst (byte i)).length = 8 * n := by
  simp [List.length_flatMap, Nat.mul_comm]

/-- A round of `wishbone_read` stores a byte that does not depend on the register. -/
theorem wishboneReadByte_eq (t : Target) : ∃ (byte : ℕ → Byte) (next : ℕ → Byte → Byte),
    (∀ i st, st.getLsbD 1 = false → (next i st).getLsbD 1 = false) ∧
      wishboneReadByte t = fun r i => r.store i (byte i) (next i r.status) := by
  refine ⟨fun i => if i < t.debug.size ∧
      (t.sim.mem.verifyMemoryarea (t.debug.byteAddr i)).isSome then
        t.sim.mem.evalDirect8 (t.debug.byteAddr i) else 0,
    fun i st => if i < t.debug.size ∧
      (t.sim.mem.verifyMemoryarea (t.debug.byteAddr i)).isNone then st ||| jsWishboneError else st,
    fun i st hst => ?_, ?_⟩
  · dsimp only
    split
    · exact or_getLsbD_one hst (by decide)
    · exact hst
  · funext r i
    rw [wishboneReadByte]
    by_cases hi : i < t.debug.size
    · cases harea : t.sim.mem.verifyMemoryarea (t.debug.byteAddr i) <;> simp [hi, harea]
    · simp [hi]

theorem wishboneRead_form (t : Target) (n : ℕ) {status : Byte} (h : status.getLsbD 1 = false) :
    ∃ t' st data, st.getLsbD 1 = false ∧
      ReadsTo (fun j => wishboneRead t j n status) n t' st data := by
  obtain ⟨byte, next, hnext, hround⟩ := wishboneReadByte_eq t
  have hstatus : ((List.range n).foldl (fun st i => next i st) status).getLsbD 1 = false :=
    List.foldlRecOn (motive := fun st => st.getLsbD 1 = false) (List.range n)
      (fun st i => next i st) (b := status) h fun st hst i _ => hnext i st hst
  refine ⟨advance t ((List.range n).foldl (fun st i => next i st) status) t.debug.size, _, _,
    hstatus, length_flatMap_msbFirst byte n, fun j => ?_⟩
  obtain ⟨reg, hfold, hdata, hkeep⟩ := store_loop byte next j status n
  refine ⟨reg, ?_, hdata, hkeep⟩
  rw [wishboneRead, hround, hfold]

theorem sprRead_form (cfg : Config) (t : Target) (n : ℕ) (status : Byte) :
    ∃ t' data, ReadsTo (fun j => sprRead cfg t j n status) n t' status data := by
  generalize hspr : mfspr cfg t.sim (t.debug.addr.setWidth 16) = spr
  refine ⟨advance t status 1, _,
    length_flatMap_msbFirst (fun i => if i < 4 then (spr >>> (8 * i)).setWidth 8 else 0) n,
    fun j => ?_⟩
  obtain ⟨reg, hfold, hdata, hkeep⟩ := store_loop
    (fun i => if i < 4 then (spr >>> (8 * i)).setWidth 8 else 0) (fun _ st => st) j status n
  rw [List.foldl_fixed] at hfold
  refine ⟨reg, ?_, hdata, hkeep⟩
  rw [sprRead, hspr, hfold]

theorem nullRead_form (t : Target) (n : ℕ) (status : Byte) :
    ∃ data, ReadsTo (fun j => nullRead t j n status) n t status data := by
  refine ⟨_, length_flatMap_msbFirst (fun _ => 0) n, fun j => ?_⟩
  obtain ⟨reg, hfold, hdata, hkeep⟩ := store_loop (fun _ => 0) (fun _ st => st) j status n
  rw [List.foldl_fixed] at hfold
  refine ⟨reg, ?_, hdata, hkeep⟩
  rw [nullRead, hfold]

/-- `go_command_read` with the right CRC answers with its data. -/
theorem goCommandRead_form (cfg : Config) (t : Target) (j₀ : Jreg) (numBits : ℕ) {n : ℕ}
    (hn : (transferSize t.debug.size numBits).1 = n) (hcrc : crcOfCmd .goCommand = crcIn5 j₀ 0) :
    ∃ t' status data, status.getLsbD 1 = false ∧ data.length = 8 * n ∧ ∀ j, Agree 37 j j₀ →
      ∃ reg, goCommandRead cfg t j numBits =
          (t', constructResponse reg status (crcOfBits data) (8 * n) 37) ∧
        bits reg 37 (8 * n) = data ∧ ∀ i, 37 + 8 * n ≤ i → bit reg i = bit j i := by
  subst hn
  have hstatus := transferSize_status t.debug.size numBits
  generalize hsize : transferSize t.debug.size numBits = size at hstatus ⊢
  obtain ⟨n, status⟩ := size
  have hin : ∀ j, Agree 37 j j₀ → crcIn5 j 0 = crcIn5 j₀ 0 := fun j hj =>
    hj.crcIn5_eq (by decide)
  -- whichever module is read, the rest of the handler is the same
  have hanswer : ∀ {read : Jreg → Target × ReadResult} {t' : Target} {st : Byte}
      {data : List Bool}, ReadsTo read n t' st data → (∀ j, Agree 37 j j₀ →
        goCommandRead cfg t j numBits =
          ((read j).1, constructResponse (read j).2.jreg (read j).2.status (read j).2.crc (8 * n)
            37)) →
      ∀ j, Agree 37 j j₀ → ∃ reg, goCommandRead cfg t j numBits =
          (t', constructResponse reg st (crcOfBits data) (8 * n) 37) ∧
        bits reg 37 (8 * n) = data ∧ ∀ i, 37 + 8 * n ≤ i → bit reg i = bit j i := by
    intro read t' st data hread hform j hj
    obtain ⟨reg, hrun, hdata, hkeep⟩ := hread.fills j
    refine ⟨reg, ?_, hdata, fun i hi => hkeep i (.inr hi)⟩
    rw [hform j hj, hrun]
  cases hmod : t.debug.modId with
  | wishbone =>
    obtain ⟨t', st, data, hst, hread⟩ := wishboneRead_form t n hstatus
    refine ⟨t', st, data, hst, hread.length_data, hanswer hread fun j hj => ?_⟩
    simp only [goCommandRead, hsize, hin j hj, if_pos hcrc, hmod]
  | cpu0 =>
    obtain ⟨t', data, hread⟩ := sprRead_form cfg t n status
    refine ⟨t', status, data, hstatus, hread.length_data, hanswer hread fun j hj => ?_⟩
    simp only [goCommandRead, hsize, hin j hj, if_pos hcrc, hmod]
  | undefined | cpu1 =>
    obtain ⟨data, hread⟩ := nullRead_form t n status
    refine ⟨t, status, data, hstatus, hread.length_data, hanswer hread fun j hj => ?_⟩
    simp only [goCommandRead, hsize, hin j hj, if_pos hcrc, hmod]

/-- `go_command_read` with a wrong CRC leaves the request where the data go, and starts the CRC at
zero. -/
theorem goCommandRead_form_error (cfg : Config) (t : Target) (j₀ : Jreg) (numBits : ℕ) {n : ℕ}
    (hn : (transferSize t.debug.size numBits).1 = n) (hcrc : crcOfCmd .goCommand ≠ crcIn5 j₀ 0) :
    ∃ status, status.getLsbD 1 = false ∧ ∀ j, Agree 37 j j₀ →
      goCommandRead cfg t j numBits = (t, constructResponse j status 0 (8 * n) 37) := by
  subst hn
  have hstatus := transferSize_status t.debug.size numBits
  generalize hsize : transferSize t.debug.size numBits = size at hstatus ⊢
  obtain ⟨n, status⟩ := size
  refine ⟨status ||| jsCrcInError, or_getLsbD_one hstatus (by decide), fun j hj => ?_⟩
  simp only [goCommandRead, hsize, hj.crcIn5_eq (by decide : 8 * 0 + 37 ≤ 37), if_neg hcrc]

/-! ### `READ_COMMAND` and `READ_CONTROL` -/

/-- `read_command` and `read_control` with a wrong CRC leave the request where the data go. -/
theorem read_form_error (t : Target) (j₀ : Jreg) :
    (crcOfCmd .readCommand ≠ crcIn5 j₀ 0 → ∀ j, Agree 37 j j₀ →
      readCommand t j 125 = constructResponse j (jsOk ||| jsCrcInError) 0xffffffff#32 52 37) ∧
    (crcOfCmd .readControl ≠ crcIn5 j₀ 0 → ∀ j, Agree 37 j j₀ →
      readControl t j 125 = constructResponse j (jsOk ||| jsCrcInError) 0xffffffff#32 52 37) := by
  have hsize : ¬88 + 32 + 4 + 1 ≠ 125 := by decide
  constructor
  · intro hcrc j hj
    simp only [readCommand, if_neg hsize, hj.crcIn5_eq (by decide : 8 * 0 + 37 ≤ 37), if_neg hcrc]
  · intro hcrc j hj
    simp only [readControl, if_neg hsize, hj.crcIn5_eq (by decide : 8 * 0 + 37 ≤ 37), if_neg hcrc]

/-- A response with its data laid over the request. -/
def LaysOver (read : Jreg → Jreg) (j₀ : Jreg) (data : ℕ → Bool) : Prop :=
  ∀ j, Agree 37 j j₀ → ∃ reg,
    read j = constructResponse reg jsOk (crcOfBits ((List.range 52).map data)) 52 37 ∧
      ∀ i, bit reg i = (bit j i || (decide (37 ≤ i ∧ i < 89) && data (i - 37)))

theorem readCommand_form (t : Target) (j₀ : Jreg) (hcrc : crcOfCmd .readCommand = crcIn5 j₀ 0) :
    ∃ data, LaysOver (fun j => readCommand t j 125) j₀ data := by
  have hsize : ¬88 + 32 + 4 + 1 ≠ 125 := by decide
  generalize hacc : (if t.debug.writeDefined then t.debug.accType else 0 : Byte) = accType
  generalize haddr : (if t.debug.writeDefined then t.debug.addr.setWidth 32 else 0 : Word) = addr
  generalize hlen : (if t.debug.writeDefined then BitVec.ofNat 16 (t.debug.size + 2 ^ 64 - 1)
    else 0 : BitVec 16) = len
  have hsum : crc32 (len.setWidth 64) 16 (crc32 (addr.setWidth 64) 32
      (crc32 (accType.setWidth 64) 4 0xffffffff#32)) =
        crcOfBits ((List.range 52).map (readCommandBit accType addr len)) := by
    have hfield : ∀ {w : ℕ} (x : BitVec w) (n off : ℕ) (crc : Word), w ≤ 64 → n ≤ w →
        (∀ k < n, readCommandBit accType addr len (off + k) = x.getLsbD (n - 1 - k)) →
        crc32 (x.setWidth 64) n crc = Crc.run crc32Poly crc
          ((List.range n).map fun k => readCommandBit accType addr len (off + k)) := by
      intro w x n off crc hw hn hx
      rw [crc32_eq_run]
      congr 1
      refine List.map_congr_left fun k hk => ?_
      have hk := List.mem_range.1 hk
      rw [hx k hk, BitVec.getLsbD_setWidth, decide_eq_true (by omega : n - 1 - k < 64),
        Bool.true_and]
    rw [hfield accType 4 0 _ (by decide) (by decide), hfield addr 32 4 _ (by decide) (by decide),
      hfield len 16 36 _ (by decide) (by decide), show 52 = 4 + 32 + 16 by rfl, List.range_add,
      List.range_add, List.map_append, List.map_append, crcOfBits_append, crcOfBits_append,
      List.map_map, List.map_map]
    · simp only [Nat.zero_add]
      rfl
    · intro k hk
      rw [readCommandBit, if_neg (by omega), if_neg (by omega)]
      congr 1
      omega
    · intro k hk
      rw [readCommandBit, if_neg (by omega), if_pos (by omega)]
      congr 1
      omega
    · intro k hk
      rw [readCommandBit, if_pos (by omega), Nat.zero_add]
  refine ⟨readCommandBit accType addr len, fun j hj => ⟨_, ?_,
    bit_readCommand_fields accType addr len j⟩⟩
  simp only [readCommand, if_neg hsize, hj.crcIn5_eq (by decide : 8 * 0 + 37 ≤ 37), if_pos hcrc,
    hacc, haddr, hlen, hsum]

set_option maxRecDepth 20000 in
theorem readControl_form (t : Target) (j₀ : Jreg) (hcrc : crcOfCmd .readControl = crcIn5 j₀ 0) :
    ∃ data, LaysOver (fun j => readControl t j 125) j₀ data := by
  have hsize : ¬88 + 32 + 4 + 1 ≠ 125 := by decide
  have horIn : ∀ (k : ℕ) (j : Jreg), orIn k 0#8 j = j := fun k j => by
    rw [orIn, BitVec.or_zero, Function.update_eq_self]
  by_cases hstalled : t.debug.modId = .cpu0 ∧ t.sim.stalled
  · refine ⟨fun k => k = 1, fun j hj => ⟨orIn 4 0x40#8 j, ?_, fun i => ?_⟩⟩
    · have hrev : reverseBits (1#64 <<< jcbStall) 52 = 2#64 := by decide
      have hsum : crc32 (1#64 <<< jcbStall) 52 0xffffffff#32 =
          crcOfBits ((List.range 52).map fun k => decide (k = 1)) := by decide
      have h4 : (2#64 <<< 5).setWidth 8 &&& 0xf8#8 = 0x40#8 := by decide
      have h5 : (2#64 >>> 3).setWidth 8 &&& 0x07#8 = 0#8 := by decide
      have hmiddle : ∀ n ∈ [11, 19, 27, 35, 43], (2#64 >>> n).setWidth 8 = 0#8 := by decide
      have h11 : (2#64 >>> 51).setWidth 8 &&& 0x01#8 = 0#8 := by decide
      simp only [readControl, if_neg hsize, hj.crcIn5_eq (by decide : 8 * 0 + 37 ≤ 37), if_pos hcrc,
        if_pos hstalled, hrev, hsum, h4, h5, hmiddle 11 (by decide), hmiddle 19 (by decide),
        hmiddle 27 (by decide), hmiddle 35 (by decide), hmiddle 43 (by decide), h11, horIn]
    · have hbits : ∀ r < 8, (0x40#8).getLsbD r = decide (r = 6) := by decide
      rw [bit_orIn, hbits _ (Nat.mod_lt _ (by decide))]
      congr 1
      rw [← Bool.decide_and, ← Bool.decide_and]
      exact decide_eq_decide.2 (by omega)
  · refine ⟨fun k => false, fun j hj => ⟨j, ?_, fun i => ?_⟩⟩
    · have hzero : reverseBits 0#64 52 = 0#64 := by decide
      have hsum : crc32 0#64 52 0xffffffff#32 =
          crcOfBits ((List.range 52).map fun _ => false) := by decide
      simp only [readControl, if_neg hsize, hj.crcIn5_eq (by decide : 8 * 0 + 37 ≤ 37), if_pos hcrc,
        if_neg hstalled, hzero, hsum, BitVec.zero_shiftLeft, BitVec.zero_ushiftRight,
        BitVec.setWidth_zero, BitVec.zero_and, horIn, BitVec.ofNat_eq_ofNat]
    · simp

end Jtag
end Or1ksim
