import Or1ksim.Jtag.Leaks

/-!
# The CRC of JTAG responses

A response ends in the CRC of its data and its status.

* `CrcValid` — the CRC as a host computes it;
* `crcValid_constructResponse_iff` — a response that is constructed has it if the CRC of its data
  was handed in;
* `response_crc_iff` — **the shifts whose response has a valid CRC**.
-/

namespace Or1ksim
namespace Jtag

open Cpu

/-- The last 32 bits of the response are the CRC of the data, which follow the zeros, and of the
status. -/
def CrcValid (zeros total : ℕ) (out : Jreg) : Prop :=
  bits out (total - 32) 32 = msbFirst (crcOfBits (bits out zeros (total - 32 - zeros)))

instance (zeros total : ℕ) (out : Jreg) : Decidable (CrcValid zeros total out) :=
  inferInstanceAs (Decidable (_ = _))

/-! ### Responses that are constructed -/

theorem crc32Poly_odd : crc32Poly.getLsbD 0 = true := by decide

/-- A response that is constructed over clear bits has a valid CRC if it continues the CRC of the
data. -/
theorem crcValid_constructResponse_iff (jreg : Jreg) (status : Byte) (crc : Word)
    (ign zeros : ℕ) (hlt : ign + zeros < 2 ^ 32)
    (hoff : (ign + zeros) % 8 = 5 ∨ (ign + zeros) % 8 = 1)
    (hclear : ∀ i, ign + zeros ≤ i → i < 8 * ((ign + zeros) / 8 + 1) → bit jreg i = false) :
    CrcValid zeros (ign + zeros + 36) (constructResponse jreg status crc ign zeros) ↔
      crc = crcOfBits (bits jreg zeros ign) := by
  obtain ⟨-, hdata, hstatus, hcrc⟩ := bits_constructResponse jreg status crc ign zeros hlt hoff
    hclear
  rw [CrcValid, show ign + zeros + 36 - 32 = zeros + ign + 4 by omega,
    show zeros + ign + 4 - zeros = ign + 4 by omega, bits_add, hcrc, hdata, hstatus,
    crcOfBits_append, crc32_status]
  constructor
  · exact fun h => Crc.run_injective crc32Poly_odd _ (msbFirst_injective h)
  · rintro rfl
    rfl

/-! ### Responses of zeros -/

/-- The CRC of zeros is not zero, since it starts from ones. -/
theorem crcOfBits_replicate_ne (n : ℕ) : crcOfBits (List.replicate n false) ≠ 0 := by
  intro h
  have hzero : Crc.run crc32Poly 0#32 (List.replicate n false) = 0#32 :=
    Crc.run_replicate_false n
  exact absurd (Crc.run_injective crc32Poly_odd _ (h.trans hzero.symm)) (by decide)

theorem not_crcValid_of_clear {out : Jreg} {zeros total : ℕ} (hle : zeros + 32 ≤ total)
    (hclear : ∀ i, zeros ≤ i → i < total → bit out i = false) : ¬CrcValid zeros total out := by
  intro hvalid
  rw [CrcValid, bits_eq_replicate fun i _ _ => hclear i (by omega) (by omega),
    bits_eq_replicate fun i _ _ => hclear i (by omega) (by omega)] at hvalid
  have hcrc : msbFirst (0 : Word) =
      msbFirst (crcOfBits (List.replicate (total - 32 - zeros) false)) := hvalid
  exact crcOfBits_replicate_ne _ (msbFirst_injective hcrc).symm

/-! ### Each handler -/

variable {cfg : Config} {t t' : Target} {numBits : ℕ} {j out : Jreg} {k : Kind}

theorem crcValid_without_data (status : Byte) {zeros : ℕ} (hlt : zeros < 2 ^ 32)
    (hoff : zeros % 8 = 5 ∨ zeros % 8 = 1)
    (hclear : ∀ i, zeros ≤ i → i < zeros + 36 → bit j i = false) :
    CrcValid zeros (zeros + 36) (constructResponse j status 0xffffffff#32 0 zeros) := by
  have hvalid := (crcValid_constructResponse_iff j status 0xffffffff#32 0 zeros (by omega)
    (by omega) fun i hi hlt => hclear i (by omega) (by omega)).2 rfl
  rwa [Nat.zero_add] at hvalid

theorem crcValid_selectModule (hclear : ∀ i, 37 ≤ i → i < 73 → bit j i = false) :
    CrcValid 37 73 (selectModule t j 73).2 := by
  obtain ⟨t', status, -, hform⟩ := selectModule_form t j
  rw [hform j fun _ _ => rfl]
  exact crcValid_without_data status (by decide) (.inl rfl) hclear

theorem crcValid_writeCommand (hclear : ∀ i, 89 ≤ i → i < 125 → bit j i = false) :
    CrcValid 89 125 (writeCommand t j 125).2 := by
  obtain ⟨t', status, -, hform⟩ := writeCommand_form t j
  rw [hform j fun _ _ => rfl]
  exact crcValid_without_data status (by decide) (.inr rfl) hclear

theorem crcValid_writeControl (hclear : ∀ i, 89 ≤ i → i < 125 → bit j i = false)
    (hrun : writeControl cfg t j 125 = .ok (t', out)) : CrcValid 89 125 out := by
  rcases writeControl_form cfg t j with ⟨e, herror⟩ | ⟨t₁, status, -, hform⟩
  · rw [herror j fun _ _ => rfl] at hrun
    cases hrun
  · rw [hform j fun _ _ => rfl] at hrun
    obtain ⟨rfl, rfl⟩ := Prod.mk.inj (Except.ok.inj hrun)
    exact crcValid_without_data status (by decide) (.inr rfl) hclear

theorem crcValid_goCommandWrite {n : ℕ} (hn : goBytes t numBits = n) (hlt : 8 * n + 73 < 2 ^ 32)
    (hclear : ∀ i, 37 + 8 * n ≤ i → i < 73 + 8 * n → bit j i = false)
    (hrun : goCommandWrite cfg t j numBits = .ok (t', out)) :
    CrcValid (37 + 8 * n) (73 + 8 * n) out := by
  rcases goCommandWrite_form cfg t j numBits hn with ⟨e, herror⟩ | ⟨t₁, status, -, hform⟩
  · rw [herror j fun _ _ => rfl] at hrun
    cases hrun
  · rw [hform j fun _ _ => rfl] at hrun
    obtain ⟨rfl, rfl⟩ := Prod.mk.inj (Except.ok.inj hrun)
    rw [show 73 + 8 * n = 37 + 8 * n + 36 by omega] at hclear ⊢
    exact crcValid_without_data status (by omega) (by omega) hclear

/-- The response of `READ_COMMAND` and `READ_CONTROL` has a valid CRC if the request has. -/
theorem crcValid_laysOver {read : Jreg → Jreg} {data : ℕ → Bool} (h : LaysOver read j data)
    (hclear : ∀ i, 37 ≤ i → i < 125 → bit j i = false) : CrcValid 37 125 (read j) := by
  obtain ⟨reg, hrun, hreg⟩ := h j fun _ _ => rfl
  rw [hrun]
  refine (crcValid_constructResponse_iff reg jsOk _ 52 37 (by decide) (.inr rfl)
    fun i hi hlt => ?_).2 ?_
  · rw [hreg, hclear i (by omega) (by omega), decide_eq_false (by omega)]
    rfl
  · congr 1
    refine List.map_congr_left fun k hk => ?_
    have hk := List.mem_range.1 hk
    rw [hreg, hclear _ (by omega) (by omega), decide_eq_true (by omega), Nat.add_sub_cancel_left]
    rfl

/-- With a wrong CRC, `READ_COMMAND` and `READ_CONTROL` leave their data out of the CRC. -/
theorem not_crcValid_read_error (status : Byte)
    (hclear : ∀ i, 37 ≤ i → i < 125 → bit j i = false) :
    ¬CrcValid 37 125 (constructResponse j status 0xffffffff#32 52 37) := by
  intro hvalid
  have hcrc := (crcValid_constructResponse_iff j status _ 52 37 (by decide) (.inr rfl)
    fun i hi hlt => hclear i (by omega) (by omega)).1 hvalid
  rw [bits_eq_replicate fun i hi hlt => hclear i hi (by omega)] at hcrc
  exact absurd hcrc (by decide +kernel)

theorem crcValid_readCommand_iff (hclear : ∀ i, 37 ≤ i → i < 125 → bit j i = false) :
    CrcValid 37 125 (readCommand t j 125) ↔ crcOfCmd .readCommand = crcIn5 j 0 := by
  constructor
  · intro hvalid
    by_contra hcrc
    rw [(read_form_error t j).1 hcrc j fun _ _ => rfl] at hvalid
    exact not_crcValid_read_error _ hclear hvalid
  · intro hcrc
    obtain ⟨data, hdata⟩ := readCommand_form t j hcrc
    have hvalid := crcValid_laysOver hdata hclear
    exact hvalid

theorem crcValid_readControl_iff (hclear : ∀ i, 37 ≤ i → i < 125 → bit j i = false) :
    CrcValid 37 125 (readControl t j 125) ↔ crcOfCmd .readControl = crcIn5 j 0 := by
  constructor
  · intro hvalid
    by_contra hcrc
    rw [(read_form_error t j).2 hcrc j fun _ _ => rfl] at hvalid
    exact not_crcValid_read_error _ hclear hvalid
  · intro hcrc
    obtain ⟨data, hdata⟩ := readControl_form t j hcrc
    have hvalid := crcValid_laysOver hdata hclear
    exact hvalid

/-- With a wrong CRC, `GO_COMMAND` for a read starts the CRC at zero. -/
theorem crcValid_goCommandRead_iff {n : ℕ} (hn : goBytes t numBits = n)
    (hfits : 8 * n + 73 < 2 ^ 32)
    (hclear : ∀ i, 37 ≤ i → i < 73 + 8 * n → bit j i = false) :
    CrcValid 37 (73 + 8 * n) (goCommandRead cfg t j numBits).2 ↔
      crcOfCmd .goCommand = crcIn5 j 0 := by
  have htotal : 73 + 8 * n = 8 * n + 37 + 36 := by omega
  -- zero is no CRC of zeros
  constructor
  · intro hvalid
    by_contra hcrc
    obtain ⟨status, -, hform⟩ := goCommandRead_form_error cfg t j numBits hn hcrc
    rw [hform j fun _ _ => rfl, htotal] at hvalid
    have hzero := (crcValid_constructResponse_iff j status _ (8 * n) 37 (by omega) (by omega)
      fun i hi hlt => hclear i (by omega) (by omega)).1 hvalid
    rw [bits_eq_replicate fun i hi hlt => hclear i hi (by omega)] at hzero
    exact crcOfBits_replicate_ne _ hzero.symm
  · intro hcrc
    obtain ⟨t', status, data, -, -, hform⟩ := goCommandRead_form cfg t j numBits hn hcrc
    obtain ⟨reg, hrun, hdata, hkeep⟩ := hform j fun _ _ => rfl
    rw [hrun, htotal]
    refine (crcValid_constructResponse_iff reg status _ (8 * n) 37 (by omega) (by omega)
      fun i hi hlt => ?_).2 (by rw [hdata])
    rw [hkeep i (by omega), hclear i (by omega) (by omega)]

/-! ### Every shift -/

/-- The response has data. -/
def Kind.Reads (t : Target) : Kind → Prop
  | .cmd .readCommand | .cmd .readControl => True
  | .cmd .goCommand => ¬isWrite t.debug.accType
  | _ => False

theorem kindOf_cmd {c : Cmd} (hk : kindOf j = some (.cmd c)) :
    bit j 0 = false ∧ cmdOf j = some c := by
  unfold kindOf at hk
  split at hk
  case isTrue => cases hk
  case isFalse hsel =>
    obtain ⟨c', hc, hcc'⟩ := Option.map_eq_some_iff.1 hk
    exact ⟨Bool.eq_false_of_not_eq_true hsel, by rw [hc, Kind.cmd.inj hcc']⟩

theorem crcOk_iff_of_cmd {c : Cmd} (hk : kindOf j = some (.cmd c))
    (hoff : crcOff t j numBits = some 5) : CrcOk t j numBits ↔ crcOfCmd c = crcIn5 j 0 := by
  obtain ⟨hsel, hc⟩ := kindOf_cmd hk
  rw [crcComputed_iff (msbFirst_crcIn5 j 0) (crcOfCmd_eq hsel hc), CrcOk]
  constructor
  · rintro ⟨n, hn, hok⟩
    obtain rfl := Option.some.inj (hoff.symm.trans hn)
    exact hok
  · exact fun hok => ⟨5, hoff, hok⟩

theorem handle_goCommand_crcValid_iff (hk : kindOf j = some (.cmd .goCommand))
    (hmin : (Kind.cmd .goCommand).minBits ≤ numBits) (hlt : numBits < 2 ^ 31)
    (ha : (Kind.cmd .goCommand).Answered t numBits)
    (hclear : ∀ i, (Kind.cmd .goCommand).ignored t numBits ≤ i →
      i < (Kind.cmd .goCommand).total t numBits → bit j i = false)
    (hrun : (Kind.cmd .goCommand).handle cfg t numBits j = .ok (t', out)) :
    CrcValid ((Kind.cmd .goCommand).ignored t numBits) ((Kind.cmd .goCommand).total t numBits) out ↔
      ((Kind.cmd .goCommand).Reads t → CrcOk t j numBits) := by
  obtain ⟨-, hsize⟩ := ha
  obtain ⟨hsel, hc⟩ := kindOf_cmd hk
  have hfits : 8 * goBytes t numBits + 73 < 2 ^ 32 := by
    have htotal := goTotal_le t hmin
    omega
  rw [if_pos rfl] at hsize
  obtain ⟨hdef, haccess⟩ := hsize
  rw [Kind.handle, goCommand, hdef] at hrun
  by_cases hw : isWrite t.debug.accType
  · have hrun : goCommandWrite cfg t j numBits = .ok (t', out) := by
      rw [← hrun, if_pos hw]
      rfl
    rw [Kind.ignored, if_pos hw] at hclear ⊢
    exact iff_of_true (crcValid_goCommandWrite rfl hfits hclear hrun) fun h => (h hw).elim
  · have hr := haccess.resolve_left hw
    have hoff : crcOff t j numBits = some 5 := by
      rw [crcOff, hsel, hc, hdef]
      simp only [hw, hr, if_true, if_false, Bool.false_eq_true, Bool.not_true]
    obtain rfl : (goCommandRead cfg t j numBits).2 = out := by
      rw [if_neg hw, if_pos hr] at hrun
      exact congrArg Prod.snd (Except.ok.inj hrun)
    rw [Kind.ignored, if_neg hw] at hclear ⊢
    exact (crcValid_goCommandRead_iff rfl hfits hclear).trans
      ((crcOk_iff_of_cmd hk hoff).symm.trans ⟨fun h _ => h, fun h => h hw⟩)

theorem handle_crcValid_iff (hk : kindOf j = some k) (hmin : k.minBits ≤ numBits)
    (hlt : numBits < 2 ^ 31) (ha : k.Answered t numBits)
    (hclear : ∀ i, k.ignored t numBits ≤ i → i < k.total t numBits → bit j i = false)
    (hrun : k.handle cfg t numBits j = .ok (t', out)) :
    CrcValid (k.ignored t numBits) (k.total t numBits) out ↔
      (k.Reads t → CrcOk t j numBits) := by
  have hsize := ha.2
  rcases k with _ | c
  · rw [if_neg (by decide)] at hsize
    subst hsize
    obtain rfl : (selectModule t j 73).2 = out := congrArg Prod.snd (Except.ok.inj hrun)
    exact iff_of_true (crcValid_selectModule hclear) fun h => h.elim
  obtain ⟨hsel, hc⟩ := kindOf_cmd hk
  cases c
  case goCommand => exact handle_goCommand_crcValid_iff hk hmin hlt ha hclear hrun
  all_goals
    rw [if_neg (by decide)] at hsize
    subst hsize
  case readCommand =>
    have hoff : crcOff t j (Kind.cmd .readCommand).minBits = some 5 := by
      rw [crcOff, hsel, hc]
      rfl
    obtain rfl : readCommand t j 125 = out := congrArg Prod.snd (Except.ok.inj hrun)
    exact (crcValid_readCommand_iff hclear).trans
      ((crcOk_iff_of_cmd hk hoff).symm.trans ⟨fun h _ => h, fun h => h trivial⟩)
  case readControl =>
    have hoff : crcOff t j (Kind.cmd .readControl).minBits = some 5 := by
      rw [crcOff, hsel, hc]
      rfl
    obtain rfl : readControl t j 125 = out := congrArg Prod.snd (Except.ok.inj hrun)
    exact (crcValid_readControl_iff hclear).trans
      ((crcOk_iff_of_cmd hk hoff).symm.trans ⟨fun h _ => h, fun h => h trivial⟩)
  case writeCommand =>
    obtain rfl : (writeCommand t j 125).2 = out := congrArg Prod.snd (Except.ok.inj hrun)
    exact iff_of_true (crcValid_writeCommand hclear) fun h => h.elim
  case writeControl =>
    exact iff_of_true (crcValid_writeControl hclear hrun) fun h => h.elim

theorem total_le (t : Target) (hk : k.minBits ≤ numBits) : k.total t numBits ≤ numBits := by
  rcases k with _ | c
  · exact hk
  cases c
  case goCommand => exact goTotal_le t hk
  all_goals exact hk

/-- **The shifts whose response has a valid CRC**: those whose handler constructs a response, and
finds the right CRC in the request when the response has data. -/
theorem response_crc_iff (cfg : Config) (t : Target) (r : Request numBits)
    (hzero : ∀ i, r.kind.ignored t numBits ≤ i → i < numBits → bit r.jreg i = false)
    (hrun : jtagShiftDr cfg t r.jreg numBits = .ok (t', out)) :
    CrcValid (r.kind.ignored t numBits) (r.kind.total t numBits) out ↔
      r.kind.Answered t numBits ∧ (r.kind.Reads t → CrcOk t r.jreg numBits) := by
  have htotal := total_le t r.minBits_le
  have hroom := ignored_add_le_total t numBits r.kind
  rw [jtagShiftDr_of_kind r.kind_eq] at hrun
  -- what is not constructed ends in zeros
  have hnot : (∀ i, r.kind.ignored t numBits ≤ i → i < r.kind.total t numBits →
      bit out i = false) → ¬r.kind.Answered t numBits →
      (CrcValid (r.kind.ignored t numBits) (r.kind.total t numBits) out ↔
        r.kind.Answered t numBits ∧ (r.kind.Reads t → CrcOk t r.jreg numBits)) :=
    fun hclear ha => iff_of_false (not_crcValid_of_clear (by omega) hclear) fun h => ha h.1
  by_cases hinstr : t.debug.instr = some jiDebug
  · rw [if_pos hinstr] at hrun
    by_cases ha : r.kind.Answered t numBits
    · rw [handle_crcValid_iff r.kind_eq r.minBits_le r.numBits_lt ha
        (fun i hi hlt => hzero i hi (by omega)) hrun]
      exact ⟨fun h => ⟨ha, h⟩, fun h => h.2⟩
    · refine hnot (fun i hi hlt => ?_) ha
      by_cases hcleared : r.kind.Cleared t
      · rw [handle_of_cleared hcleared] at hrun
        obtain ⟨rfl, rfl⟩ := Prod.mk.inj (Except.ok.inj hrun)
        exact bit_cleared (by omega)
      · obtain ⟨t₁, hkeep⟩ := handle_of_not_answered cfg hinstr ha hcleared
        rw [hkeep] at hrun
        obtain ⟨rfl, rfl⟩ := Prod.mk.inj (Except.ok.inj hrun)
        exact hzero i hi (by omega)
  · rw [if_neg hinstr] at hrun
    obtain ⟨rfl, rfl⟩ := Prod.mk.inj (Except.ok.inj hrun)
    exact hnot (fun i hi hlt => hzero i hi (by omega)) fun ha => hinstr ha.1

/-- The response to the request that selects the first processor has a valid CRC. -/
theorem response_crc_iff_selectCpu0 : ∃ t' out,
    jtagShiftDr defaultConfig ⟨powerOn 0x601 0 (Memory.flat fun _ => 0), startDebug⟩ selectCpu0 73 =
      .ok (t', out) ∧ CrcValid 37 73 out :=
  ⟨_, _, rfl, (response_crc_iff defaultConfig ⟨powerOn 0x601 0 (Memory.flat fun _ => 0), startDebug⟩
    selectRequest (by decide : ∀ i, 37 ≤ i → i < 73 → bit selectCpu0 i = false) rfl).2
      ⟨by decide, fun h => h.elim⟩⟩

theorem oneByte_le : 1 ≤ 65536 := by decide

/-- The interface after a `WRITE_COMMAND` to read a byte. -/
def readByte : Debug :=
  { startDebug with
    modId := .wishbone
    writeDefined := true
    accType := 4
    addr := 0x100
    size := 1
    size_le := oneByte_le }

/-- A `GO_COMMAND` register with no CRC is answered with a wrong CRC. -/
theorem goCommandRead_wrong_crc : ∃ t' out,
    jtagShiftDr defaultConfig ⟨powerOn 0x601 0 (Memory.flat fun _ => 0), readByte⟩ (ofBytes []) 81 =
      .ok (t', out) ∧
    kindOf (ofBytes []) = some (.cmd .goCommand) ∧ (∀ i, bit (ofBytes []) i = false) ∧
    Kind.Answered ⟨powerOn 0x601 0 (Memory.flat fun _ => 0), readByte⟩ 81 (.cmd .goCommand) ∧
    ¬CrcValid (Kind.ignored ⟨powerOn 0x601 0 (Memory.flat fun _ => 0), readByte⟩ 81
      (.cmd .goCommand))
      (Kind.total ⟨powerOn 0x601 0 (Memory.flat fun _ => 0), readByte⟩ 81 (.cmd .goCommand)) out :=
  ⟨_, _, rfl, by decide, fun i => by simp [bit, ofBytes], by decide, by decide⟩

end Jtag
end Or1ksim
