import Mathlib.Data.BitVec
import Mathlib.Data.List.TakeWhile
import Or1ksim.Lib.Buckets
import Or1ksim.Lib.Scan

/-!
# Labels and breakpoints

`cpu/common/labels.c`, the toggle of a breakpoint in `cpu/common/trace.c`, and the stop at a
breakpoint in `fetch` of `cpu/or32/execute.c`.

* `addLabel`, `getLabel`, `findLabel`, `evalLabel` — the labels, in chains by their address;
* `evalLabel_exact` — **the value of a label with offsets**, whichever labels were added;
* `addBreakpoint`, `removeBreakpoint`, `hasBreakpoint`, `setInsnbrkpoint` — the list of breakpoints;
* `fetch` — the simulator stops at a breakpoint, once;
* `breakpoints_exact` — **breakpoints are those toggled an odd number of times**, and none is passed
  without a stop.
-/

namespace Or1ksim
namespace Labels

open Scan

/-- An `oraddr_t`. -/
abbrev Addr := BitVec 32

/-! ### Labels -/

/-- `struct label_entry` -/
structure Label where
  addr : Addr
  name : List Char
deriving DecidableEq, Repr

/-- `LABELS_HASH_SIZE` -/
def labelsHashSize : ℕ := 119

/-- The chain of a label. -/
def Label.chain (l : Label) : ℕ := l.addr.toNat % labelsHashSize

/-- `init_labels` -/
def initLabels : ℕ → List Label := fun _ => []

/-- `add_label` -/
def addLabel (labelHash : ℕ → List Label) (l : Label) : ℕ → List Label :=
  Buckets.append Label.chain labelHash l

/-- `get_label` -/
def getLabel (labelHash : ℕ → List Label) (addr : Addr) : Option Label :=
  (labelHash (addr.toNat % labelsHashSize)).find? fun l => l.addr = addr

/-- `find_label` -/
def findLabel (labelHash : ℕ → List Label) (name : List Char) : Option Label :=
  Buckets.search labelsHashSize labelHash fun l => l.name = name

/-- `strchr`: the text before the first `c`, and the text behind it. -/
def strchr (c : Char) (s : List Char) : Option (List Char × List Char) :=
  match s.dropWhile (· ≠ c) with
  | [] => none
  | _ :: rest => some (s.takeWhile (· ≠ c), rest)

/-- A text is cut at a character, and a number read behind it. -/
def cut (c : Char) (name : List Char) : List Char × BitVec 32 :=
  match strchr c name with
  | some (name, rest) => (name, atoi rest)
  | none => (name, 0)

/-- `eval_label` -/
def evalLabel (labelHash : ℕ → List Label) (name : List Char) : Addr :=
  let (name, positiveOffset) := cut '+' name
  let (name, negativeOffset) := cut '-' name
  match findLabel labelHash name with
  | none => 0
  | some le => le.addr + positiveOffset - negativeOffset

/-- The first of the labels with a name, of those in the lowest chain. -/
def named (ls : List Label) (name : List Char) : Option Label :=
  ls.find? fun l => l.name = name && ls.all fun l' => !(l'.name = name) || l.chain ≤ l'.chain

/-- A number behind a character, if there is one. -/
def offset (c : Char) (digits : Option (List Char)) : List Char :=
  digits.elim [] fun ds => c :: ds

/-- Its value. -/
def offsetValue (digits : Option (List Char)) : ℕ := digits.elim 0 fun ds => scanDigits ds 0

section

variable {ls : List Label} {name rest ds : List Char} {c : Char}

theorem chain_lt (l : Label) : l.chain < labelsHashSize := Nat.mod_lt _ (by decide)

theorem getLabel_addLabel (ls : List Label) (addr : Addr) :
    getLabel (ls.foldl addLabel initLabels) addr = ls.find? fun l => l.addr = addr := by
  have hchain := Buckets.foldl_append_apply Label.chain ls (addr.toNat % labelsHashSize)
  unfold getLabel
  change (ls.foldl (Buckets.append Label.chain) (fun _ => []) _).find? _ = _
  rw [hchain, List.find?_filter]
  refine List.find?_congr fun l _ => ?_
  by_cases h : l.addr = addr
  · simp [Label.chain, h]
  · simp [h]

theorem findLabel_addLabel (ls : List Label) (name : List Char) :
    findLabel (ls.foldl addLabel initLabels) name = named ls name :=
  Buckets.search_foldl_append chain_lt

theorem strchr_append (h : c ∉ name) : strchr c (name ++ c :: rest) = some (name, rest) := by
  have hne : ∀ d ∈ name, decide (d ≠ c) = true := fun d hd =>
    decide_eq_true fun hdc => h (hdc ▸ hd)
  unfold strchr
  rw [List.dropWhile_append_of_pos hne, List.takeWhile_append_of_pos hne,
    List.dropWhile_cons_of_neg (by simp), List.takeWhile_cons_of_neg (by simp), List.append_nil]

theorem strchr_eq_none (h : c ∉ name) : strchr c name = none := by
  have hne : ∀ d ∈ name, decide (d ≠ c) = true := fun d hd =>
    decide_eq_true fun hdc => h (hdc ▸ hd)
  unfold strchr
  rw [List.dropWhile_eq_nil_iff.2 hne]

theorem cut_offset (h : c ∉ name) {digits : Option (List Char)}
    (hdigits : ∀ ds ∈ digits, ∀ d ∈ ds, isDigit d = true) (hlt : offsetValue digits < 2 ^ 63) :
    cut c (name ++ offset c digits) = (name, BitVec.ofNat 32 (offsetValue digits)) := by
  unfold cut
  cases digits with
  | none =>
    rw [offset, Option.elim_none, List.append_nil, strchr_eq_none h]
    rfl
  | some ds =>
    rw [offset, Option.elim_some, strchr_append h]
    exact congrArg _ (atoi_digits (hdigits ds rfl) hlt)

theorem not_mem_offset {c' : Char} (hc : c' ≠ c) (hlow : c'.toNat < 48)
    {digits : Option (List Char)} (hdigits : ∀ ds ∈ digits, ∀ d ∈ ds, isDigit d = true) :
    c' ∉ offset c digits := by
  cases digits with
  | none => exact List.not_mem_nil
  | some ds =>
    rw [offset, Option.elim_some, List.mem_cons, not_or]
    refine ⟨hc, fun h => ?_⟩
    have hdigit : 48 ≤ c'.toNat := le_toNat_of_isDigit (hdigits ds rfl c' h)
    omega

end

/-- **The value of a label**: of the labels that were added with the name, it is the address of the
first one in the lowest chain, with the offsets; a label that was not added is zero.  The label of
an address is the first that was added. -/
theorem evalLabel_exact (ls : List Label) (name : List Char) (minus plus : Option (List Char))
    (hname : '+' ∉ name ∧ '-' ∉ name)
    (hminus : ∀ ds ∈ minus, ∀ d ∈ ds, isDigit d = true)
    (hplus : ∀ ds ∈ plus, ∀ d ∈ ds, isDigit d = true)
    (hlt : offsetValue minus < 2 ^ 63 ∧ offsetValue plus < 2 ^ 63) (addr : Addr) :
    let labelHash := ls.foldl addLabel initLabels
    evalLabel labelHash (name ++ offset '-' minus ++ offset '+' plus) =
        (match named ls name with
          | none => 0
          | some l => l.addr + BitVec.ofNat 32 (offsetValue plus) -
              BitVec.ofNat 32 (offsetValue minus)) ∧
      getLabel labelHash addr = ls.find? fun l => l.addr = addr := by
  have hplusName : '+' ∉ name ++ offset '-' minus := by
    rw [List.mem_append, not_or]
    exact ⟨hname.1, not_mem_offset (by decide) (by decide) hminus⟩
  refine ⟨?_, getLabel_addLabel ls addr⟩
  unfold evalLabel
  rw [cut_offset hplusName hplus hlt.2]
  dsimp only
  rw [cut_offset hname.2 hminus hlt.1]
  dsimp only
  rw [findLabel_addLabel]

/-- `_main` is at `0x2000` and at `0x1000`, of which `0x1000` is in the lower chain. -/
theorem evalLabel_exact_main :
    evalLabel ([⟨0x2000, ['m']⟩, ⟨0x1000, ['m']⟩].foldl addLabel initLabels)
      ['m', '-', '4', '+', '1', '6'] = 0x100c :=
  (evalLabel_exact [⟨0x2000, ['m']⟩, ⟨0x1000, ['m']⟩] ['m'] (some ['4']) (some ['1', '6'])
    (by decide) (fun _ hds => by cases hds; simp [isDigit])
    (fun _ hds => by cases hds; simp [isDigit]) (by decide) 0).1

/-! ### Breakpoints -/

/-- `breakpoints`, and `break_just_hit` of `fetch`. -/
structure Breaks where
  breakpoints : List Addr
  breakJustHit : Bool
deriving DecidableEq, Repr

/-- `init_breakpoints`, and the zero of the data segment. -/
def initBreakpoints : Breaks := ⟨[], false⟩

/-- `add_breakpoint` -/
def addBreakpoint (breakpoints : List Addr) (addr : Addr) : List Addr := addr :: breakpoints

/-- `remove_breakpoint` -/
def removeBreakpoint (breakpoints : List Addr) (addr : Addr) : List Addr :=
  breakpoints.filter (· ≠ addr)

/-- `has_breakpoint` -/
def hasBreakpoint (breakpoints : List Addr) (addr : Addr) : Bool := breakpoints.any (· = addr)

/-- `set_insnbrkpoint`, without what it prints. -/
def setInsnbrkpoint (breakpoints : List Addr) (addr : Addr) : List Addr :=
  let addr := addr &&& ~~~3
  if hasBreakpoint breakpoints addr then removeBreakpoint breakpoints addr
  else addBreakpoint breakpoints addr

/-- The start of `fetch`, at the translation of the program counter: whether the simulator stops. -/
def fetch (s : Breaks) (addr : Addr) : Bool × Breaks :=
  if s.breakpoints ≠ [] then
    if hasBreakpoint s.breakpoints addr && !s.breakJustHit then
      (true, { s with breakJustHit := true })
    else (false, { s with breakJustHit := false })
  else (false, s)

/-- What happens to the breakpoints: one is toggled, or the simulator begins an instruction. -/
inductive Event where
  | toggle (addr : Addr)
  | fetch (addr : Addr)
deriving DecidableEq, Repr

/-- The state after an event. -/
def step (s : Breaks) : Event → Breaks
  | .toggle addr => { s with breakpoints := setInsnbrkpoint s.breakpoints addr }
  | .fetch addr => (fetch s addr).2

/-- The state after some events. -/
def run (evs : List Event) : Breaks := evs.foldl step initBreakpoints

/-- The event toggles the breakpoint of an aligned address. -/
def Event.toggles (addr : Addr) : Event → Bool
  | .toggle a => a &&& ~~~3 = addr
  | .fetch _ => false

/-- The last instruction that was begun while there was a breakpoint stopped. -/
def LastStopped (evs : List Event) : Prop :=
  ∃ before addr after, evs = before ++ .fetch addr :: after ∧ (fetch (run before) addr).1 = true ∧
    ∀ mid addr' rest, after = mid ++ .fetch addr' :: rest →
      (run (before ++ .fetch addr :: mid)).breakpoints = []

section

variable {s : Breaks} {evs : List Event} {e : Event} {addr a : Addr}

theorem run_concat (evs : List Event) (e : Event) : run (evs ++ [e]) = step (run evs) e := by
  rw [run, List.foldl_append, ← run]
  rfl

theorem hasBreakpoint_iff {breakpoints : List Addr} :
    hasBreakpoint breakpoints a = true ↔ a ∈ breakpoints := by
  simp [hasBreakpoint]

theorem mem_setInsnbrkpoint {breakpoints : List Addr} :
    a ∈ setInsnbrkpoint breakpoints addr ↔
      if addr &&& ~~~3 = a then a ∉ breakpoints else a ∈ breakpoints := by
  unfold setInsnbrkpoint removeBreakpoint addBreakpoint
  generalize addr &&& ~~~3 = b
  dsimp only
  by_cases hb : b = a
  · subst hb
    rw [if_pos rfl]
    by_cases h : hasBreakpoint breakpoints b = true
    · rw [if_pos h]
      simp [hasBreakpoint_iff.1 h]
    · rw [if_neg h]
      simp [mt hasBreakpoint_iff.2 h]
  · rw [if_neg hb]
    split
    · simp [Ne.symm hb]
    · simp [Ne.symm hb]

theorem fetch_breakpoints (s : Breaks) (addr : Addr) :
    (fetch s addr).2.breakpoints = s.breakpoints := by
  unfold fetch
  split
  · split <;> rfl
  · rfl

theorem fetch_stops_iff :
    (fetch s addr).1 = true ↔ hasBreakpoint s.breakpoints addr = true ∧ ¬s.breakJustHit = true := by
  unfold fetch
  by_cases hempty : s.breakpoints = []
  · simp [hempty, hasBreakpoint]
  · rw [if_pos hempty]
    split <;> simp_all

/-- **Breakpoints are those toggled an odd number of times**. -/
theorem mem_breakpoints (evs : List Event) (addr : Addr) :
    addr ∈ (run evs).breakpoints ↔ evs.countP (Event.toggles addr) % 2 = 1 := by
  induction evs using List.reverseRecOn with
  | nil => simp [run, initBreakpoints]
  | append_singleton evs e ih =>
    rw [run_concat, List.countP_append, List.countP_singleton]
    cases e with
    | toggle a =>
      rw [step, mem_setInsnbrkpoint, ih, Event.toggles]
      generalize a &&& ~~~3 = b
      by_cases hb : b = addr
      · rw [if_pos hb, if_pos (decide_eq_true hb)]
        omega
      · rw [if_neg hb, if_neg (by simpa using hb), Nat.add_zero]
    | fetch a =>
      rw [step, fetch_breakpoints, ih]
      simp [Event.toggles]

theorem concat_eq_append_cons {α : Type} {l pre post : List α} {x y : α} :
    l ++ [x] = pre ++ y :: post ↔
      (post = [] ∧ l = pre ∧ x = y) ∨ ∃ rest, post = rest ++ [x] ∧ l = pre ++ y :: rest := by
  constructor
  · intro h
    rcases List.eq_nil_or_concat' post with rfl | ⟨rest, z, rfl⟩
    · obtain ⟨hl, hx⟩ := List.append_inj' h rfl
      exact .inl ⟨rfl, hl, List.singleton_inj.1 hx⟩
    · rw [← List.cons_append, ← List.append_assoc] at h
      obtain ⟨hl, hx⟩ := List.append_inj' h rfl
      exact .inr ⟨rest, by rw [List.singleton_inj.1 hx], hl⟩
  · rintro (⟨rfl, rfl, rfl⟩ | ⟨rest, rfl, rfl⟩)
    · rfl
    · rw [List.append_assoc, List.cons_append]

theorem lastStopped_toggle : LastStopped (evs ++ [.toggle addr]) ↔ LastStopped evs := by
  constructor
  · rintro ⟨before, a, after, heq, hstop, hidle⟩
    rcases concat_eq_append_cons.1 heq with ⟨-, -, h⟩ | ⟨rest, rfl, rfl⟩
    · cases h
    · refine ⟨before, a, rest, rfl, hstop, fun mid a' rest' h => ?_⟩
      refine hidle mid a' (rest' ++ [.toggle addr]) ?_
      rw [h, List.append_assoc, List.cons_append]
  · rintro ⟨before, a, after, rfl, hstop, hidle⟩
    refine ⟨before, a, after ++ [.toggle addr], by rw [List.append_assoc, List.cons_append], hstop,
      fun mid a' rest h => ?_⟩
    rcases concat_eq_append_cons.1 h with ⟨-, -, h⟩ | ⟨rest', rfl, rfl⟩
    · cases h
    · exact hidle mid a' rest' rfl

theorem lastStopped_fetch : LastStopped (evs ++ [.fetch addr]) ↔
    (fetch (run evs) addr).1 = true ∨ (LastStopped evs ∧ (run evs).breakpoints = []) := by
  constructor
  · rintro ⟨before, a, after, heq, hstop, hidle⟩
    rcases concat_eq_append_cons.1 heq with ⟨rfl, rfl, h⟩ | ⟨rest, rfl, rfl⟩
    · cases h
      exact .inl hstop
    · refine .inr ⟨⟨before, a, rest, rfl, hstop, fun mid a' rest' h => ?_⟩, hidle rest addr [] rfl⟩
      refine hidle mid a' (rest' ++ [.fetch addr]) ?_
      rw [h, List.append_assoc, List.cons_append]
  · rintro (hstop | ⟨⟨before, a, after, rfl, hstop, hidle⟩, hempty⟩)
    · refine ⟨evs, addr, [], rfl, hstop, fun mid a' rest h => ?_⟩
      simp at h
    · refine ⟨before, a, after ++ [.fetch addr], by rw [List.append_assoc, List.cons_append], hstop,
        fun mid a' rest h => ?_⟩
      rcases concat_eq_append_cons.1 h with ⟨-, rfl, -⟩ | ⟨rest', rfl, rfl⟩
      · exact hempty
      · exact hidle mid a' rest' rfl

theorem breakJustHit_iff (evs : List Event) :
    (run evs).breakJustHit = true ↔ LastStopped evs := by
  induction evs using List.reverseRecOn with
  | nil =>
    refine ⟨fun h => (by cases h), fun ⟨before, a, after, h, _⟩ => ?_⟩
    simp at h
  | append_singleton evs e ih =>
    rw [run_concat]
    cases e with
    | toggle a => rw [lastStopped_toggle, ← ih, step]
    | fetch a =>
      rw [lastStopped_fetch, ← ih, step]
      unfold fetch
      by_cases hempty : (run evs).breakpoints = []
      · simp [hempty]
      · rw [if_pos hempty]
        split <;> simp [hempty]

/-- **A breakpoint is not passed without a stop**: a breakpoint is set if it was toggled an odd
number of times, and the simulator stops at an address with a breakpoint, unless the last
instruction that was begun while there was a breakpoint stopped; it does not stop twice in a row. -/
theorem breakpoints_exact (evs : List Event) (addr : Addr) :
    (hasBreakpoint (run evs).breakpoints addr = true ↔
        evs.countP (Event.toggles addr) % 2 = 1) ∧
      ((fetch (run evs) addr).1 = true ↔
        evs.countP (Event.toggles addr) % 2 = 1 ∧ ¬LastStopped evs) ∧
      ((fetch (run evs) addr).1 = true → ∀ (toggles : List Addr) (a : Addr),
        (fetch (run (evs ++ .fetch addr :: toggles.map Event.toggle)) a).1 = false) := by
  have hset : hasBreakpoint (run evs).breakpoints addr = true ↔
      evs.countP (Event.toggles addr) % 2 = 1 := hasBreakpoint_iff.trans (mem_breakpoints evs addr)
  refine ⟨hset, ?_, fun hstop toggles a => ?_⟩
  · rw [fetch_stops_iff, ← hset, ← breakJustHit_iff]
  · have hlast : LastStopped (evs ++ .fetch addr :: toggles.map Event.toggle) := by
      induction toggles using List.reverseRecOn with
      | nil => exact lastStopped_fetch.2 (.inl hstop)
      | append_singleton toggles b ih =>
        rw [List.map_append, ← List.cons_append, ← List.append_assoc]
        exact lastStopped_toggle.2 ih
    refine Bool.eq_false_iff.2 fun h => ?_
    exact (fetch_stops_iff.1 h).2 ((breakJustHit_iff _).2 hlast)

end

end Labels
end Or1ksim
