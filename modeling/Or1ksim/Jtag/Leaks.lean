import Or1ksim.Jtag.Answers
import Or1ksim.Jtag.Gating

/-!
# What JTAG responses show of the request

A request ends in bits that are ignored.  The response is put over them, and some of them show
through.

* `Request` — a register with a request of one of the six formats;
* `Leaks` — a shift whose response is its own, but for a range of bits of the request that are laid
  over it; `jtagShiftDr_leaks` says which range that is;
* `ignored_bits_iff` — **when a response does not depend on ignored bits**.
-/

namespace Or1ksim
namespace Jtag

open Cpu

/-! ### Formats -/

/-- The six registers. -/
inductive Kind where
  | select
  | cmd (c : Cmd)
deriving DecidableEq, Repr

/-- The register that a request is for. -/
def kindOf (jreg : Jreg) : Option Kind :=
  if bit jreg 0 then some .select else (cmdOf jreg).map .cmd

/-- The bits of a request that has no data. -/
def Kind.minBits : Kind → ℕ
  | .select | .cmd .goCommand => 73
  | _ => 125

/-- The number of bytes of a transfer. -/
def goBytes (t : Target) (numBits : ℕ) : ℕ := (transferSize t.debug.size numBits).1

/-- Where the ignored bits of a request start.  The zeros of the response end there. -/
def Kind.ignored (t : Target) (numBits : ℕ) : Kind → ℕ
  | .select | .cmd .readCommand | .cmd .readControl => 37
  | .cmd .writeCommand | .cmd .writeControl => 89
  | .cmd .goCommand => if isWrite t.debug.accType then 37 + 8 * goBytes t numBits else 37

/-- The bits of the response: zeros, data, status and CRC. -/
def Kind.total (t : Target) (numBits : ℕ) : Kind → ℕ
  | .cmd .goCommand => 73 + 8 * goBytes t numBits
  | k => k.minBits

/-- The handler constructs a response. -/
def Kind.Answered (t : Target) (numBits : ℕ) (k : Kind) : Prop :=
  t.debug.instr = some jiDebug ∧
    if k = .cmd .goCommand then
      t.debug.writeDefined = true ∧ (isWrite t.debug.accType ∨ isRead t.debug.accType)
    else numBits = k.minBits

/-- `GO_COMMAND` with no `WRITE_COMMAND` before it: the whole register is cleared. -/
def Kind.Cleared (t : Target) (k : Kind) : Prop :=
  t.debug.instr = some jiDebug ∧ k = .cmd .goCommand ∧ t.debug.writeDefined = false

instance (t : Target) (numBits : ℕ) (k : Kind) : Decidable (k.Answered t numBits) := by
  unfold Kind.Answered
  infer_instance

instance (t : Target) (k : Kind) : Decidable (k.Cleared t) :=
  inferInstanceAs (Decidable (_ ∧ _ ∧ _))

/-- The bits of the request that show in a response that is constructed, from the first number to
the second.  A response is laid over the byte that its status starts in; `READ_COMMAND` and
`READ_CONTROL` lay their data over the request, too, and so does `GO_COMMAND` for a read when it
finds a wrong CRC. -/
def Kind.laidOver (t : Target) (jreg : Jreg) (numBits : ℕ) : Kind → ℕ × ℕ
  | .select => (37, 40)
  | .cmd .readCommand | .cmd .readControl => (37, 96)
  | .cmd .writeCommand | .cmd .writeControl => (89, 96)
  | .cmd .goCommand =>
    if isWrite t.debug.accType ∨ crcOfCmd .goCommand = crcIn5 jreg 0 then
      (37 + 8 * goBytes t numBits, 40 + 8 * goBytes t numBits)
    else (37, 40 + 8 * goBytes t numBits)

/-- The bits of the request that show in the response.  A handler that constructs none leaves them
all. -/
def Kind.shown (t : Target) (jreg : Jreg) (numBits : ℕ) (k : Kind) : ℕ × ℕ :=
  if k.Cleared t then (k.ignored t numBits, k.ignored t numBits)
  else if ¬k.Answered t numBits then (k.ignored t numBits, k.total t numBits)
  else k.laidOver t jreg numBits

/-- A register of at least the bits of its format; their number is an `int`. -/
structure Request (numBits : ℕ) where
  jreg : Jreg
  kind : Kind
  kind_eq : kindOf jreg = some kind
  minBits_le : kind.minBits ≤ numBits
  numBits_lt : numBits < 2 ^ 31

/-! ### Dispatch -/

variable {cfg : Config} {t : Target} {numBits : ℕ} {j j₀ : Jreg} {k : Kind}

/-- The handler of a register. -/
def Kind.handle (cfg : Config) (t : Target) (numBits : ℕ) (k : Kind) (jreg : Jreg) :
    Except Stop (Target × Jreg) :=
  match k with
  | .select => .ok (selectModule t jreg numBits)
  | .cmd .goCommand => goCommand cfg t jreg numBits
  | .cmd .readCommand => .ok (t, readCommand t jreg numBits)
  | .cmd .writeCommand => .ok (writeCommand t jreg numBits)
  | .cmd .readControl => .ok (t, readControl t jreg numBits)
  | .cmd .writeControl => writeControl cfg t jreg numBits

theorem jtagShiftDr_of_kind (hk : kindOf j = some k) :
    jtagShiftDr cfg t j numBits =
      if t.debug.instr = some jiDebug then k.handle cfg t numBits j else .ok (t, j) := by
  rw [jtagShiftDr]
  by_cases hinstr : t.debug.instr = some jiDebug
  · rw [if_neg (not_not.2 hinstr), if_pos hinstr]
    unfold kindOf at hk
    split at hk
    case isTrue hsel =>
      obtain rfl := Option.some.inj hk
      rw [if_pos ((bit_zero_iff j).2 hsel)]
      rfl
    case isFalse hsel =>
      obtain ⟨c, hc, rfl⟩ := Option.map_eq_some_iff.1 hk
      rw [if_neg (mt (bit_zero_iff j).1 hsel), hc]
      cases c <;> rfl
  · rw [if_pos hinstr, if_neg hinstr]

theorem Agree.kindOf_eq {a : ℕ} (h : Agree a j j₀) (hle : 5 ≤ a) : kindOf j = kindOf j₀ := by
  rw [kindOf, kindOf, h 0 (by omega), h.cmdOf_eq hle]

theorem ignored_ge (t : Target) (numBits : ℕ) (k : Kind) : 37 ≤ k.ignored t numBits := by
  rcases k with _ | ⟨_ | _ | _ | _ | _⟩ <;> dsimp only [Kind.ignored] <;> (try split) <;> omega

/-- After its zeros a response has room for its status and its CRC. -/
theorem ignored_add_le_total (t : Target) (numBits : ℕ) (k : Kind) :
    k.ignored t numBits + 36 ≤ k.total t numBits := by
  rcases k with _ | ⟨_ | _ | _ | _ | _⟩ <;>
    dsimp only [Kind.ignored, Kind.total, Kind.minBits] <;> (try split) <;> omega

theorem shown_bounds (t : Target) (jreg : Jreg) (numBits : ℕ) (k : Kind) :
    k.ignored t numBits ≤ (k.shown t jreg numBits).1 ∧
      (k.shown t jreg numBits).2 ≤ k.total t numBits := by
  have htotal := ignored_add_le_total t numBits k
  unfold Kind.shown
  split
  · exact ⟨le_rfl, by dsimp only; omega⟩
  split
  · exact ⟨le_rfl, le_rfl⟩
  rcases k with _ | ⟨_ | _ | _ | _ | _⟩
  case cmd.goCommand =>
    by_cases hw : isWrite t.debug.accType
    · simp only [Kind.ignored, Kind.total, Kind.laidOver, hw, if_true, true_or]
      omega
    · simp only [Kind.ignored, Kind.total, Kind.laidOver, hw, if_false, false_or]
      split
      · constructor <;> omega
      · constructor <;> omega
  all_goals
    simp only [Kind.ignored, Kind.total, Kind.minBits, Kind.laidOver]
    omega

/-! ### Responses laid over requests -/

/-- What a shift makes of the registers that start like `j₀`: the same state, and a response of its
own over which the bits `lo` to `hi` of the request are laid; they are not all set there anyway. -/
def Leaks (shift : Jreg → Except Stop (Target × Jreg)) (j₀ : Jreg) (a total lo hi : ℕ) : Prop :=
  (∃ e, ∀ j, Agree a j j₀ → shift j = .error e) ∨
    ∃ (t' : Target) (own : ℕ → Bool),
      (∀ j, Agree a j j₀ → ∃ out, shift j = .ok (t', out) ∧
        ∀ i < total, bit out i = (own i || (decide (lo ≤ i ∧ i < hi) && bit j i))) ∧
      (lo < hi → ∃ i, lo ≤ i ∧ i < hi ∧ own i = false)

/-- A response that is constructed over a register that shows the request from bit `lo` on. -/
theorem leaks_of_response {shift : Jreg → Except Stop (Target × Jreg)} {t' : Target}
    {status : Byte} {crc : Word} {a : ℕ} (ign z lo p : ℕ) (base : ℕ → Bool)
    (hlt : ign + z < 2 ^ 32) (hoff : (ign + z) % 8 = 5 ∨ (ign + z) % 8 = 1) (hzlo : z ≤ lo)
    (hlo : lo ≤ ign + z)
    (hshift : ∀ j, Agree a j j₀ → ∃ reg,
      shift j = .ok (t', constructResponse reg status crc ign z) ∧
        ∀ i, z ≤ i → i < 8 * ((ign + z) / 8 + 1) →
          bit reg i = (base i || (decide (lo ≤ i) && bit j i)))
    (hp : p < 3) (hroom : (ign + z) % 8 + p < 8) (hstatus : status.getLsbD (3 - p) = false)
    (hbase : base (ign + z + p) = false) :
    Leaks shift j₀ a (ign + z + 36) lo (8 * ((ign + z) / 8 + 1)) := by
  refine .inr ⟨t', fun i => (decide (z ≤ i ∧ i < 8 * ((ign + z) / 8 + 1)) && base i) ||
    (decide (ign + z ≤ i) && tailBit status crc (i - (ign + z))), fun j hj => ?_, fun _ => ?_⟩
  · obtain ⟨reg, hrun, hreg⟩ := hshift j hj
    refine ⟨_, hrun, fun i hi => ?_⟩
    rw [bit_constructResponse _ _ _ hlt hoff hi]
    dsimp only
    -- behind the byte that the status starts in the response is its own
    by_cases hin : z ≤ i ∧ i < 8 * ((ign + z) / 8 + 1)
    · rw [hreg i hin.1 hin.2, decide_eq_true hin]
      have hshown : decide (lo ≤ i ∧ i < 8 * ((ign + z) / 8 + 1)) = decide (lo ≤ i) :=
        decide_eq_decide.2 ⟨fun h => h.1, fun h => ⟨h, hin.2⟩⟩
      rw [hshown, Bool.true_and, Bool.true_and, Bool.or_right_comm]
    · rw [decide_eq_false hin, decide_eq_false (by omega : ¬(lo ≤ i ∧ _))]
      simp only [Bool.false_and, Bool.false_or, Bool.or_false]
  · refine ⟨ign + z + p, by omega, by omega, ?_⟩
    have htail : tailBit status crc (ign + z + p - (ign + z)) = false := by
      rw [Nat.add_sub_cancel_left, tailBit, if_pos (by omega), hstatus]
    simp only [hbase, htail, Bool.and_false, Bool.or_false]

theorem leaks_unchanged {shift : Jreg → Except Stop (Target × Jreg)} (t' : Target) {a total : ℕ}
    (hshift : ∀ j, Agree a j j₀ → shift j = .ok (t', j)) : Leaks shift j₀ a total a total := by
  refine .inr ⟨t', fun i => decide (i < a) && bit j₀ i,
    fun j hj => ⟨j, hshift j hj, fun i hi => ?_⟩, fun hlt => ⟨a, le_rfl, hlt, ?_⟩⟩
  · dsimp only
    by_cases hia : i < a
    · rw [hj i hia, decide_eq_true hia, decide_eq_false (by omega : ¬(a ≤ i ∧ _))]
      simp only [Bool.true_and, Bool.false_and, Bool.or_false]
    · rw [decide_eq_false hia, decide_eq_true (⟨by omega, hi⟩ : a ≤ i ∧ i < total)]
      simp only [Bool.true_and, Bool.false_and, Bool.false_or]
  · dsimp only
    rw [decide_eq_false (Nat.lt_irrefl a), Bool.false_and]

/-- A response over the request itself, at a status that has a clear bit. -/
theorem leaks_of_constructResponse {shift : Jreg → Except Stop (Target × Jreg)} {t' : Target}
    {status : Byte} {crc : Word} {a : ℕ} (ign z p : ℕ)
    (hlt : ign + z < 2 ^ 32) (hoff : (ign + z) % 8 = 5 ∨ (ign + z) % 8 = 1) (hp : p < 3)
    (hroom : (ign + z) % 8 + p < 8) (hstatus : status.getLsbD (3 - p) = false)
    (hshift : ∀ j, Agree a j j₀ → shift j = .ok (t', constructResponse j status crc ign z)) :
    Leaks shift j₀ a (ign + z + 36) z (8 * ((ign + z) / 8 + 1)) := by
  refine leaks_of_response ign z z p (fun _ => false) hlt hoff le_rfl (Nat.le_add_left _ _)
    (fun j hj => ⟨j, hshift j hj, fun i hzi _ => ?_⟩) hp hroom hstatus rfl
  rw [decide_eq_true hzi, Bool.true_and, Bool.false_or]

theorem leaks_of_laysOver {read : Jreg → Jreg} {data : ℕ → Bool} (h : LaysOver read j₀ data) :
    Leaks (fun j => .ok (t, read j)) j₀ 37 125 37 96 := by
  have hshift : ∀ j, Agree 37 j j₀ → ∃ reg,
      (.ok (t, read j) : Except Stop (Target × Jreg)) = .ok (t, constructResponse reg jsOk
        (crcOfBits ((List.range 52).map data)) 52 37) ∧
      ∀ i, 37 ≤ i → i < 8 * ((52 + 37) / 8 + 1) → bit reg i =
        ((decide (37 ≤ i ∧ i < 89) && data (i - 37)) || (decide (37 ≤ i) && bit j i)) := by
    intro j hj
    obtain ⟨reg, hrun, hreg⟩ := h j hj
    refine ⟨reg, congrArg (fun r => Except.ok (t, r)) hrun, fun i hi _ => ?_⟩
    rw [hreg, decide_eq_true hi, Bool.true_and, Bool.or_comm]
  exact leaks_of_response 52 37 37 0 _ (by decide) (.inr rfl) le_rfl (by decide) hshift
    (by decide) (by decide) (by decide) rfl

/-! ### Each handler -/

theorem leaks_select (t : Target) (j₀ : Jreg) :
    Leaks (fun j => .ok (selectModule t j 73)) j₀ 37 73 37 40 := by
  obtain ⟨t', status, hstatus, hform⟩ := selectModule_form t j₀
  exact leaks_of_constructResponse 0 37 0 (by decide) (.inl rfl) (by decide) (by decide)
    hstatus fun j hj => congrArg Except.ok (hform j hj)

theorem leaks_writeCommand (t : Target) (j₀ : Jreg) :
    Leaks (fun j => .ok (writeCommand t j 125)) j₀ 89 125 89 96 := by
  obtain ⟨t', status, hstatus, hform⟩ := writeCommand_form t j₀
  exact leaks_of_constructResponse 0 89 0 (by decide) (.inr rfl) (by decide) (by decide)
    hstatus fun j hj => congrArg Except.ok (hform j hj)

theorem leaks_writeControl (cfg : Config) (t : Target) (j₀ : Jreg) :
    Leaks (fun j => writeControl cfg t j 125) j₀ 89 125 89 96 := by
  rcases writeControl_form cfg t j₀ with herror | ⟨t', status, hstatus, hform⟩
  · exact .inl herror
  · exact leaks_of_constructResponse 0 89 0 (by decide) (.inr rfl) (by decide) (by decide)
      hstatus hform

theorem leaks_readCommand (t : Target) (j₀ : Jreg) :
    Leaks (fun j => .ok (t, readCommand t j 125)) j₀ 37 125 37 96 := by
  by_cases hcrc : crcOfCmd .readCommand = crcIn5 j₀ 0
  · obtain ⟨data, hdata⟩ := readCommand_form t j₀ hcrc
    exact leaks_of_laysOver hdata
  · exact leaks_of_constructResponse 52 37 0 (by decide) (.inr rfl) (by decide) (by decide)
      (by decide : (jsOk ||| jsCrcInError).getLsbD 3 = false)
      fun j hj => congrArg (fun r => Except.ok (t, r)) ((read_form_error t j₀).1 hcrc j hj)

theorem leaks_readControl (t : Target) (j₀ : Jreg) :
    Leaks (fun j => .ok (t, readControl t j 125)) j₀ 37 125 37 96 := by
  by_cases hcrc : crcOfCmd .readControl = crcIn5 j₀ 0
  · obtain ⟨data, hdata⟩ := readControl_form t j₀ hcrc
    exact leaks_of_laysOver hdata
  · exact leaks_of_constructResponse 52 37 0 (by decide) (.inr rfl) (by decide) (by decide)
      (by decide : (jsOk ||| jsCrcInError).getLsbD 3 = false)
      fun j hj => congrArg (fun r => Except.ok (t, r)) ((read_form_error t j₀).2 hcrc j hj)

theorem leaks_goCommandWrite (cfg : Config) (t : Target) (j₀ : Jreg) (numBits : ℕ)
    (hfits : 73 + 8 * goBytes t numBits < 2 ^ 32) :
    Leaks (fun j => goCommandWrite cfg t j numBits) j₀ (37 + 8 * goBytes t numBits)
      (73 + 8 * goBytes t numBits) (37 + 8 * goBytes t numBits) (40 + 8 * goBytes t numBits) := by
  generalize hn : goBytes t numBits = n at hfits ⊢
  rcases goCommandWrite_form cfg t j₀ numBits hn with herror | ⟨t', status, hstatus, hform⟩
  · exact .inl herror
  · have hleaks := leaks_of_constructResponse 0 (37 + 8 * n) 2 (by omega) (by omega)
      (by decide) (by omega) hstatus hform
    rwa [show 0 + (37 + 8 * n) + 36 = 73 + 8 * n by omega,
      show 8 * ((0 + (37 + 8 * n)) / 8 + 1) = 40 + 8 * n by omega] at hleaks

/-- A read with the right CRC leaves no bit of the request before the status. -/
theorem leaks_goCommandRead (cfg : Config) (t : Target) (j₀ : Jreg) (numBits : ℕ)
    (hfits : 73 + 8 * goBytes t numBits < 2 ^ 32) (hcrc : crcOfCmd .goCommand = crcIn5 j₀ 0) :
    Leaks (fun j => .ok (goCommandRead cfg t j numBits)) j₀ 37 (73 + 8 * goBytes t numBits)
      (37 + 8 * goBytes t numBits) (40 + 8 * goBytes t numBits) := by
  generalize hn : goBytes t numBits = n at hfits ⊢
  obtain ⟨t', status, data, hstatus, -, hform⟩ := goCommandRead_form cfg t j₀ numBits hn hcrc
  -- the data are cleared before they are stored, so the request shows only behind them
  have hshift : ∀ j, Agree 37 j j₀ → ∃ reg,
      (.ok (goCommandRead cfg t j numBits) : Except Stop (Target × Jreg)) =
        .ok (t', constructResponse reg status (crcOfBits data) (8 * n) 37) ∧
      ∀ i, 37 ≤ i → i < 8 * ((8 * n + 37) / 8 + 1) → bit reg i =
        ((decide (i < 37 + 8 * n) && data.getD (i - 37) false) ||
          (decide (37 + 8 * n ≤ i) && bit j i)) := by
    intro j hj
    obtain ⟨reg, hrun, hdata, hkeep⟩ := hform j hj
    refine ⟨reg, congrArg Except.ok hrun, fun i hi _ => ?_⟩
    by_cases hlt : i < 37 + 8 * n
    · have hbit : data.getD (i - 37) false = bit reg i := by
        rw [← hdata, bits, List.getD_eq_getElem?_getD, List.getElem?_map,
          List.getElem?_range (by omega), Option.map_some, Option.getD_some,
          Nat.add_sub_of_le hi]
      rw [hbit, decide_eq_true hlt, decide_eq_false (by omega : ¬37 + 8 * n ≤ i), Bool.true_and,
        Bool.false_and, Bool.or_false]
    · rw [hkeep i (by omega), decide_eq_false hlt, decide_eq_true (by omega : 37 + 8 * n ≤ i),
        Bool.false_and, Bool.true_and, Bool.false_or]
  have hleaks := leaks_of_response (8 * n) 37 (37 + 8 * n) 2 _ (by omega) (by omega) (by omega)
    (by omega) hshift (by decide) (by omega) hstatus
    (by rw [decide_eq_false (by omega), Bool.false_and])
  rwa [show 8 * n + 37 + 36 = 73 + 8 * n by omega,
    show 8 * ((8 * n + 37) / 8 + 1) = 40 + 8 * n by omega] at hleaks

/-- A read with a wrong CRC leaves the request where the data go. -/
theorem leaks_goCommandRead_error (cfg : Config) (t : Target) (j₀ : Jreg) (numBits : ℕ)
    (hfits : 73 + 8 * goBytes t numBits < 2 ^ 32) (hcrc : crcOfCmd .goCommand ≠ crcIn5 j₀ 0) :
    Leaks (fun j => .ok (goCommandRead cfg t j numBits)) j₀ 37 (73 + 8 * goBytes t numBits)
      37 (40 + 8 * goBytes t numBits) := by
  generalize hn : goBytes t numBits = n at hfits ⊢
  obtain ⟨status, hstatus, hform⟩ := goCommandRead_form_error cfg t j₀ numBits hn hcrc
  have hleaks := leaks_of_constructResponse (8 * n) 37 2 (by omega) (by omega) (by decide)
    (by omega) hstatus fun j hj => congrArg Except.ok (hform j hj)
  rwa [show 8 * n + 37 + 36 = 73 + 8 * n by omega,
    show 8 * ((8 * n + 37) / 8 + 1) = 40 + 8 * n by omega] at hleaks

/-! ### Every shift -/

theorem Leaks.congr {shift shift' : Jreg → Except Stop (Target × Jreg)} {a total lo hi : ℕ}
    (h : Leaks shift j₀ a total lo hi) (heq : ∀ j, Agree a j j₀ → shift' j = shift j) :
    Leaks shift' j₀ a total lo hi := by
  rcases h with ⟨e, he⟩ | ⟨t', own, hrun, hown⟩
  · exact .inl ⟨e, fun j hj => (heq j hj).trans (he j hj)⟩
  · exact .inr ⟨t', own, fun j hj => by rw [heq j hj]; exact hrun j hj, hown⟩

theorem shown_of_cleared (h : k.Cleared t) (jreg : Jreg) (numBits : ℕ) :
    k.shown t jreg numBits = (k.ignored t numBits, k.ignored t numBits) := if_pos h

theorem shown_of_not_answered (h : ¬k.Cleared t) (ha : ¬k.Answered t numBits) (jreg : Jreg) :
    k.shown t jreg numBits = (k.ignored t numBits, k.total t numBits) :=
  (if_neg h).trans (if_pos ha)

theorem not_cleared_of_answered (ha : k.Answered t numBits) : ¬k.Cleared t := by
  rintro ⟨-, rfl, hundef⟩
  rw [Kind.Answered, if_pos rfl, hundef] at ha
  exact Bool.false_ne_true ha.2.1

theorem goTotal_le (t : Target) (hbits : 73 ≤ numBits) : 73 + 8 * goBytes t numBits ≤ numBits := by
  simp only [goBytes, transferSize]
  split
  · omega
  · have hmod := Nat.mod_le (numBits - 73) (2 ^ 64)
    rw [show t.debug.size * 8 + numBits + 2 ^ 64 - (36 + 8 * t.debug.size + 32 + 4 + 1) =
      numBits - 73 + 2 ^ 64 by omega, Nat.add_mod_right]
    dsimp only
    omega

/-- `GO_COMMAND` with no `WRITE_COMMAND` before it clears the register. -/
theorem handle_of_cleared (h : k.Cleared t) (jreg : Jreg) :
    k.handle cfg t numBits jreg =
      .ok (t, fun b => if b < (numBits + 7) / 8 then 0 else jreg b) := by
  obtain ⟨-, rfl, hundef⟩ := h
  rw [Kind.handle, goCommand, hundef]
  rfl

theorem bit_cleared {i : ℕ} (hi : i < numBits) :
    bit (fun b => if b < (numBits + 7) / 8 then 0 else j b) i = false := by
  rw [bit, if_pos (by omega), BitVec.ofNat_eq_ofNat, BitVec.getLsbD_zero]

/-- A handler that constructs no response otherwise leaves the register. -/
theorem handle_of_not_answered (cfg : Config) (hinstr : t.debug.instr = some jiDebug)
    (ha : ¬k.Answered t numBits) (hcleared : ¬k.Cleared t) :
    ∃ t', ∀ jreg, k.handle cfg t numBits jreg = .ok (t', jreg) := by
  -- a register of another length, or an access of no known type
  have hsize : k ≠ .cmd .goCommand → numBits ≠ k.minBits := fun hne heq =>
    ha ⟨hinstr, by rwa [if_neg hne]⟩
  rcases k with _ | c
  · have hne : 36 + 32 + 4 + 1 ≠ numBits := (hsize (by decide)).symm
    refine ⟨t, fun j => ?_⟩
    rw [Kind.handle, selectModule, if_pos hne]
  cases c
  case goCommand =>
    have hdef : t.debug.writeDefined = true := by
      by_contra hundef
      exact hcleared ⟨hinstr, rfl, Bool.eq_false_of_not_eq_true hundef⟩
    have haccess : ¬(isWrite t.debug.accType ∨ isRead t.debug.accType) := fun h =>
      ha ⟨hinstr, by rw [if_pos rfl]; exact ⟨hdef, h⟩⟩
    refine ⟨t, fun j => ?_⟩
    rw [Kind.handle, goCommand, hdef, if_neg (mt Or.inl haccess), if_neg (mt Or.inr haccess)]
    rfl
  case readCommand =>
    have hne : 88 + 32 + 4 + 1 ≠ numBits := (hsize (by decide)).symm
    refine ⟨t, fun j => ?_⟩
    rw [Kind.handle, readCommand, if_pos hne]
  case writeCommand =>
    have hne : 36 + 32 + 16 + 32 + 4 + 4 + 1 ≠ numBits := (hsize (by decide)).symm
    refine ⟨t.undefine, fun j => ?_⟩
    rw [Kind.handle, writeCommand, if_pos hne]
  case readControl =>
    have hne : 88 + 32 + 4 + 1 ≠ numBits := (hsize (by decide)).symm
    refine ⟨t, fun j => ?_⟩
    rw [Kind.handle, readControl, if_pos hne]
  case writeControl =>
    have hne : 36 + 32 + 52 + 4 + 1 ≠ numBits := (hsize (by decide)).symm
    refine ⟨t, fun j => ?_⟩
    rw [Kind.handle, writeControl, if_pos hne]

theorem handle_leaks_not_answered (hk : k.minBits ≤ numBits)
    (hinstr : t.debug.instr = some jiDebug) (ha : ¬k.Answered t numBits) (j₀ : Jreg) :
    Leaks (k.handle cfg t numBits) j₀ (k.ignored t numBits) (k.total t numBits)
      (k.shown t j₀ numBits).1 (k.shown t j₀ numBits).2 := by
  by_cases hcleared : k.Cleared t
  · rw [shown_of_cleared hcleared]
    refine .inr ⟨t, fun _ => false, fun j _ => ⟨_, handle_of_cleared hcleared j, fun i hi => ?_⟩,
      fun hlt => absurd hlt (Nat.lt_irrefl _)⟩
    obtain ⟨-, rfl, -⟩ := hcleared
    rw [bit_cleared (lt_of_lt_of_le hi (goTotal_le t hk)), decide_eq_false (by omega)]
    rfl
  · rw [shown_of_not_answered hcleared ha]
    obtain ⟨t', hrun⟩ := handle_of_not_answered cfg hinstr ha hcleared
    exact leaks_unchanged t' fun j _ => hrun j

theorem handle_leaks_answered (hk : k.minBits ≤ numBits) (hlt : numBits < 2 ^ 31)
    (ha : k.Answered t numBits) (j₀ : Jreg) :
    Leaks (k.handle cfg t numBits) j₀ (k.ignored t numBits) (k.total t numBits)
      (k.shown t j₀ numBits).1 (k.shown t j₀ numBits).2 := by
  rw [Kind.shown, if_neg (not_cleared_of_answered ha), if_neg (not_not.2 ha)]
  obtain ⟨-, hsize⟩ := ha
  rcases k with _ | c
  · rw [if_neg (by decide)] at hsize
    subst hsize
    exact leaks_select t j₀
  cases c
  case goCommand =>
    rw [if_pos rfl] at hsize
    obtain ⟨hdef, haccess⟩ := hsize
    have hfits : 73 + 8 * goBytes t numBits < 2 ^ 32 :=
      (goTotal_le t hk).trans_lt (hlt.trans (by decide))
    by_cases hw : isWrite t.debug.accType
    · rw [Kind.laidOver, if_pos (.inl hw), Kind.ignored, if_pos hw]
      refine (leaks_goCommandWrite cfg t j₀ numBits hfits).congr fun j _ => ?_
      rw [Kind.handle, goCommand, hdef, if_pos hw]
      rfl
    · have hread : ∀ j, Agree 37 j j₀ → Kind.handle cfg t numBits (.cmd .goCommand) j =
          .ok (goCommandRead cfg t j numBits) := fun j _ => by
        rw [Kind.handle, goCommand, hdef, if_neg hw, if_pos (haccess.resolve_left hw)]
        rfl
      rw [Kind.ignored, if_neg hw]
      by_cases hcrc : crcOfCmd .goCommand = crcIn5 j₀ 0
      · rw [Kind.laidOver, if_pos (.inr hcrc)]
        exact (leaks_goCommandRead cfg t j₀ numBits hfits hcrc).congr hread
      · rw [Kind.laidOver, if_neg (not_or.2 ⟨hw, hcrc⟩)]
        exact (leaks_goCommandRead_error cfg t j₀ numBits hfits hcrc).congr hread
  all_goals
    rw [if_neg (by decide)] at hsize
    subst hsize
  · exact leaks_readCommand t j₀
  · exact leaks_writeCommand t j₀
  · exact leaks_readControl t j₀
  · exact leaks_writeControl cfg t j₀

/-- **What a shift shows of its request.** -/
theorem jtagShiftDr_leaks (cfg : Config) (t : Target) (r : Request numBits) :
    Leaks (fun j => jtagShiftDr cfg t j numBits) r.jreg (r.kind.ignored t numBits)
      (r.kind.total t numBits) (r.kind.shown t r.jreg numBits).1
      (r.kind.shown t r.jreg numBits).2 := by
  have hkind : ∀ j, Agree (r.kind.ignored t numBits) j r.jreg → kindOf j = some r.kind :=
    fun j hj => (hj.kindOf_eq (le_trans (by decide) (ignored_ge t numBits r.kind))).trans r.kind_eq
  by_cases hinstr : t.debug.instr = some jiDebug
  · have hleaks : Leaks (r.kind.handle cfg t numBits) r.jreg (r.kind.ignored t numBits)
        (r.kind.total t numBits) (r.kind.shown t r.jreg numBits).1
        (r.kind.shown t r.jreg numBits).2 := by
      by_cases ha : r.kind.Answered t numBits
      · exact handle_leaks_answered r.minBits_le r.numBits_lt ha r.jreg
      · exact handle_leaks_not_answered r.minBits_le hinstr ha r.jreg
    refine hleaks.congr fun j hj => ?_
    rw [jtagShiftDr_of_kind (hkind j hj), if_pos hinstr]
  · rw [shown_of_not_answered (fun h => hinstr h.1) (fun h => hinstr h.1)]
    refine leaks_unchanged t fun j hj => ?_
    rw [jtagShiftDr_of_kind (hkind j hj), if_neg hinstr]

/-! ### What a host observes -/

/-- What a shift is observed to do: the state that follows and the fields of the response. -/
def observed (total : ℕ) (outcome : Except Stop (Target × Jreg)) :
    Except Stop (Target × List Bool) :=
  outcome.map fun r => (r.1, bits r.2 0 total)

/-- The shift of a register. -/
def Request.observe (cfg : Config) (t : Target) (r : Request numBits) (jreg : Jreg) :
    Except Stop (Target × List Bool) :=
  observed (r.kind.total t numBits) (jtagShiftDr cfg t jreg numBits)

/-- The register differs from the request in ignored bits only. -/
def Request.Similar (t : Target) (r : Request numBits) (jreg : Jreg) : Prop :=
  Agree (r.kind.ignored t numBits) jreg r.jreg

theorem bits_zero_eq_iff {n : ℕ} {out out' : Jreg} :
    bits out 0 n = bits out' 0 n ↔ ∀ i < n, bit out i = bit out' i := by
  rw [bits, bits, List.map_inj_left]
  simp only [List.mem_range, Nat.zero_add]

theorem shown_lt (hcleared : ¬k.Cleared t) (jreg : Jreg) (numBits : ℕ) :
    (k.shown t jreg numBits).1 < (k.shown t jreg numBits).2 := by
  by_cases ha : k.Answered t numBits
  · rw [Kind.shown, if_neg hcleared, if_neg (not_not.2 ha)]
    rcases k with _ | ⟨_ | _ | _ | _ | _⟩
    case cmd.goCommand =>
      rw [Kind.laidOver]
      split <;> dsimp only <;> omega
    all_goals
      dsimp only [Kind.laidOver]
      omega
  · have htotal := ignored_add_le_total t numBits k
    rw [shown_of_not_answered hcleared ha]
    dsimp only
    omega

/-- Two responses with bits of their requests laid over them. -/
theorem responses_eq_iff {j' out out' : Jreg} {own : ℕ → Bool} {total lo hi : ℕ} (hhi : hi ≤ total)
    (hbits : ∀ i < total, bit out i = (own i || (decide (lo ≤ i ∧ i < hi) && bit j i)))
    (hbits' : ∀ i < total, bit out' i = (own i || (decide (lo ≤ i ∧ i < hi) && bit j' i))) :
    (∀ i < total, bit out i = bit out' i) ↔
      ∀ i, lo ≤ i → i < hi → bit j i = bit j' i ∨ own i = true := by
  constructor
  · intro h i hloi hihi
    have heq := h i (by omega)
    rw [hbits i (by omega), hbits' i (by omega), decide_eq_true ⟨hloi, hihi⟩] at heq
    cases hset : own i
    · rw [hset] at heq
      exact .inl heq
    · exact .inr rfl
  · intro h i hlt
    rw [hbits i hlt, hbits' i hlt]
    by_cases hin : lo ≤ i ∧ i < hi
    · rcases h i hin.1 hin.2 with hbit | hset
      · rw [hbit]
      · rw [hset, Bool.true_or, Bool.true_or]
    · rw [decide_eq_false hin, Bool.false_and, Bool.false_and]

/-- **When a response does not depend on ignored bits**: for all requests that start alike, only
when it is cleared; for two of them, when they have the same bits where bits of the request show,
but for those that are set in the response anyway. -/
theorem ignored_bits_iff (cfg : Config) (t : Target) (r : Request numBits) :
    ((∀ j j', r.Similar t j → r.Similar t j' → r.observe cfg t j = r.observe cfg t j') ↔
      r.kind.Cleared t ∨ ∃ e, jtagShiftDr cfg t r.jreg numBits = .error e) ∧
    ∃ own : ℕ → Bool,
      (∀ z t' out, r.Similar t z → (∀ i, r.kind.ignored t numBits ≤ i → bit z i = false) →
        jtagShiftDr cfg t z numBits = .ok (t', out) →
        ∀ i < r.kind.total t numBits, bit out i = own i) ∧
      ∀ j j', r.Similar t j → r.Similar t j' →
        (r.observe cfg t j = r.observe cfg t j' ↔
          (∃ e, jtagShiftDr cfg t r.jreg numBits = .error e) ∨
          ∀ i, (r.kind.shown t r.jreg numBits).1 ≤ i → i < (r.kind.shown t r.jreg numBits).2 →
            bit j i = bit j' i ∨ own i = true) := by
  have hself : r.Similar t r.jreg := fun _ _ => rfl
  obtain ⟨hlo, hhi⟩ := shown_bounds t r.jreg numBits r.kind
  have hleaks := jtagShiftDr_leaks cfg t r
  dsimp only [Leaks] at hleaks
  rcases hleaks with ⟨e, herror⟩ | ⟨t', own, hrun, hown⟩
  · -- the simulator stops
    have hsame : ∀ j j', r.Similar t j → r.Similar t j' →
        r.observe cfg t j = r.observe cfg t j' := fun j j' hj hj' => by
      rw [Request.observe, Request.observe, herror j hj, herror j' hj']
    have hstops : ∃ e, jtagShiftDr cfg t r.jreg numBits = .error e := ⟨e, herror _ hself⟩
    refine ⟨iff_of_true hsame (.inr hstops), fun _ => false, fun z t' out hz _ hout => ?_,
      fun j j' hj hj' => iff_of_true (hsame j j' hj hj') (.inl hstops)⟩
    rw [herror z hz] at hout
    cases hout
  have hreturns : ¬∃ e, jtagShiftDr cfg t r.jreg numBits = .error e := by
    rintro ⟨e, he⟩
    obtain ⟨out, hout, -⟩ := hrun r.jreg hself
    rw [he] at hout
    cases hout
  have hpair : ∀ j j', r.Similar t j → r.Similar t j' →
      (r.observe cfg t j = r.observe cfg t j' ↔
        ∀ i, (r.kind.shown t r.jreg numBits).1 ≤ i → i < (r.kind.shown t r.jreg numBits).2 →
          bit j i = bit j' i ∨ own i = true) := by
    intro j j' hj hj'
    obtain ⟨out, hout, hbits⟩ := hrun j hj
    obtain ⟨out', hout', hbits'⟩ := hrun j' hj'
    rw [Request.observe, Request.observe, hout, hout', ← responses_eq_iff hhi hbits hbits',
      ← bits_zero_eq_iff]
    exact ⟨fun h => (Prod.mk.inj (Except.ok.inj h)).2,
      fun h => congrArg (fun l => Except.ok (t', l)) h⟩
  refine ⟨⟨fun hall => .inl ?_, fun h j j' hj hj' => ?_⟩, own,
    fun z t₁ out hz hzero hout i hi => ?_,
    fun j j' hj hj' => (hpair j j' hj hj').trans ⟨.inr, fun h => h.resolve_left hreturns⟩⟩
  · -- one bit that shows is enough to tell two registers apart
    by_contra hcleared
    obtain ⟨i, hloi, hihi, hclear⟩ := hown (shown_lt hcleared r.jreg numBits)
    have hflip : r.Similar t (flip r.jreg i) := fun i' hi' => by
      rw [bit_flip, if_neg (by omega)]
    rcases (hpair _ _ hself hflip).1 (hall _ _ hself hflip) i hloi hihi with hbit | hset
    · rw [bit_flip, if_pos rfl] at hbit
      exact Bool.not_ne_self _ hbit.symm
    · rw [hclear] at hset
      cases hset
  · have hcleared := h.resolve_right hreturns
    refine (hpair j j' hj hj').2 fun i hloi hihi => ?_
    rw [shown_of_cleared hcleared] at hloi hihi
    exact absurd hihi (Nat.not_lt.2 hloi)
  · obtain ⟨out', hout', hbits⟩ := hrun z hz
    rw [hout] at hout'
    obtain rfl := (Prod.mk.inj (Except.ok.inj hout')).2
    rw [hbits i hi]
    by_cases hge : r.kind.ignored t numBits ≤ i
    · rw [hzero i hge, Bool.and_false, Bool.or_false]
    · rw [decide_eq_false (by omega), Bool.false_and, Bool.or_false]

/-- The request that selects the first processor. -/
def selectRequest : Request 73 := ⟨selectCpu0, .select, by decide, by decide, by decide⟩

/-- The first bit that is ignored is the bit of an overrun in the response. -/
theorem overrun_of_ignored_bit :
    selectRequest.Similar ⟨powerOn 0x601 0 (Memory.flat fun _ => 0), startDebug⟩
        (flip selectCpu0 37) ∧
      selectRequest.observe defaultConfig ⟨powerOn 0x601 0 (Memory.flat fun _ => 0), startDebug⟩
          (flip selectCpu0 37) ≠
        selectRequest.observe defaultConfig ⟨powerOn 0x601 0 (Memory.flat fun _ => 0), startDebug⟩
          selectCpu0 := by
  refine ⟨fun i (hi : i < 37) => by rw [bit_flip, if_neg (by omega)]; rfl, fun h => ?_⟩
  have hbit := congrArg (fun r => r.toOption.map fun seen => seen.2.getD 37 false) h
  have htrue : ((selectRequest.observe defaultConfig
      ⟨powerOn 0x601 0 (Memory.flat fun _ => 0), startDebug⟩ (flip selectCpu0 37)).toOption.map
        fun seen => seen.2.getD 37 false) = some true := by decide
  have hfalse : ((selectRequest.observe defaultConfig
      ⟨powerOn 0x601 0 (Memory.flat fun _ => 0), startDebug⟩ selectCpu0).toOption.map
        fun seen => seen.2.getD 37 false) = some false := by decide
  cases htrue.symm.trans (hbit.trans hfalse)

end Jtag
end Or1ksim
