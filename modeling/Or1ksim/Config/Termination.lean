import Mathlib.Logic.Relation
import Or1ksim.Config.Script
import Or1ksim.Lib.Runs

/-!
# Reading a configuration file ends

* `nextWord_length`, `nextLexeme_length` — a lexeme takes characters of the file;
* `nextLexeme_finishes`, `skipSection_finishes` — the loops below the main loop end, but for the
  ones that skip to the end of the line;
* `skipLine_of_mem`, `skipLine_of_notMem` — these end exactly when there is an end of the line;
* `iteration_length` — every round of the main loop takes characters or is the last;
* `config_terminates` — **reading a file ends exactly when no round comes to skip the last line**;
* `config_hangs` — a file of one character.
-/

namespace Or1ksim
namespace Config

variable {reg : Registry} {s t : Parse} {f g r w : Text} {n : ℕ}

/-! ### Words -/

theorem length_skipSpace_le (f : Text) : (skipSpace f).length ≤ f.length := by
  induction f with
  | nil => exact Nat.le_refl 0
  | cons c f ih =>
    rw [skipSpace]
    split
    · exact Nat.le_trans ih (Nat.le_succ _)
    · exact Nat.le_refl _

theorem stringLoop_length {p : Text × Text} (h : stringLoop w f = .ok p) :
    p.2.length ≤ f.length := by
  fun_induction stringLoop w f with
  | case1 => cases h; exact Nat.le_refl 0
  | case2 => cases h
  | case3 => cases h; exact Nat.le_refl _
  | case4 => cases h; exact Nat.le_succ _
  | case5 w c f hlen hquote ih => exact Nat.le_trans (ih h) (Nat.le_succ _)

theorem stringLoop_finishes (w f : Text) : stringLoop w f ≠ .error .unfinished := by
  fun_induction stringLoop w f with
  | case1 => exact nofun
  | case2 => exact nofun
  | case3 => exact nofun
  | case4 => exact nofun
  | case5 w c f hlen hquote ih => exact ih

theorem wordLoop_length (w f : Text) :
    (wordLoop w f).1.length + (wordLoop w f).2.length = w.length + f.length := by
  fun_induction wordLoop w f with
  | case1 => rfl
  | case2 => rfl
  | case3 => rfl
  | case4 w c f hlen hspace ih =>
    rw [ih, List.length_append, List.length_singleton, List.length_cons, Nat.add_right_comm,
      Nat.add_assoc]

theorem endWord_eq_ok_iff {o : Option Text} :
    endWord w r = .ok (o, f) ↔
      w.length ≠ strSize - 1 ∧ o = (if w.length = 0 then none else some w) ∧ f = r := by
  unfold endWord
  by_cases hlen : w.length = strSize - 1
  · rw [if_pos hlen]
    exact ⟨nofun, fun h => absurd hlen h.1⟩
  · rw [if_neg hlen, Except.ok.injEq, Prod.mk.injEq, eq_comm, eq_comm (a := r)]
    exact ⟨fun h => ⟨hlen, h⟩, fun h => h.2⟩

theorem bind_ne_unfinished {α β : Type} {x : Except Halt α} {k : α → Except Halt β}
    (hx : x ≠ .error .unfinished) (hk : ∀ a, x = .ok a → k a ≠ .error .unfinished) :
    x.bind k ≠ .error .unfinished := by
  cases x with
  | error e => exact fun h => hx (congrArg Except.error (Except.error.inj h))
  | ok a => exact hk a rfl

theorem endWord_finishes (w r : Text) : endWord w r ≠ .error .unfinished := by
  unfold endWord
  split <;> exact nofun

theorem nextWord_finishes (f : Text) : nextWord f ≠ .error .unfinished := by
  unfold nextWord
  split
  · exact endWord_finishes _ _
  · next c g hg =>
    split
    · exact bind_ne_unfinished (stringLoop_finishes [] g) fun p _ => endWord_finishes _ _
    · exact endWord_finishes _ _

theorem nextWord_length {o : Option Text} (h : nextWord f = .ok (o, r)) :
    r.length ≤ f.length ∧ (o ≠ none → r.length < f.length) := by
  have hskip := length_skipSpace_le f
  unfold nextWord at h
  split at h
  · obtain ⟨-, rfl, rfl⟩ := endWord_eq_ok_iff.1 h
    exact ⟨Nat.zero_le _, fun ho => absurd rfl ho⟩
  · next c g hg =>
    rw [hg, List.length_cons] at hskip
    split at h
    · obtain ⟨p, hp, hend⟩ := Runs.bind_eq_ok_iff.1 h
      obtain ⟨-, -, rfl⟩ := endWord_eq_ok_iff.1 hend
      have hle := stringLoop_length hp
      rw [List.length_tail]
      omega
    · obtain ⟨-, rfl, rfl⟩ := endWord_eq_ok_iff.1 h
      have hsum := wordLoop_length [] (c :: g)
      rw [List.length_nil, Nat.zero_add, List.length_cons] at hsum
      refine ⟨by omega, fun ho => ?_⟩
      have hne : (wordLoop [] (c :: g)).1.length ≠ 0 := fun h0 => ho (if_pos h0)
      omega

/-! ### Lexemes -/

theorem skipComment_length {c₀ c₁ : Byte} (h : skipComment c₀ c₁ f = .ok r) :
    r.length ≤ f.length := by
  fun_induction skipComment c₀ c₁ f with
  | case1 => cases h; exact Nat.le_refl 0
  | case2 => cases h
  | case3 => cases h; exact Nat.le_refl _
  | case4 c₀ c₁ c f hopen ih => exact Nat.le_trans (ih h) (Nat.le_succ _)

theorem skipComment_finishes (c₀ c₁ : Byte) (f : Text) :
    skipComment c₀ c₁ f ≠ .error .unfinished := by
  fun_induction skipComment c₀ c₁ f with
  | case1 => exact nofun
  | case2 => exact nofun
  | case3 => exact nofun
  | case4 c₀ c₁ c f hopen ih => exact ih

theorem nextLexemeLoop_finishes (hn : f.length < n) :
    nextLexemeLoop n f ≠ .error .unfinished := by
  induction n generalizing f with
  | zero => exact absurd hn (Nat.not_lt_zero _)
  | succ n ih =>
    refine bind_ne_unfinished (nextWord_finishes f) ?_
    rintro ⟨_ | word, r⟩ hword
    · exact nofun
    · have hlt := (nextWord_length hword).2 (Option.some_ne_none word)
      dsimp only
      split
      · refine bind_ne_unfinished (skipComment_finishes 0 0 r) fun r' hr' => ih ?_
        have hle := skipComment_length hr'
        omega
      · exact nofun

theorem nextLexemeLoop_length {o : Option Text} (h : nextLexemeLoop n f = .ok (o, r)) :
    r.length ≤ f.length ∧ (o ≠ none → r.length < f.length) := by
  induction n generalizing f with
  | zero => cases h
  | succ n ih =>
    obtain ⟨⟨word, r'⟩, hword, hrest⟩ := Runs.bind_eq_ok_iff.1 h
    obtain ⟨hle, hlt⟩ := nextWord_length hword
    cases word with
    | none =>
      obtain ⟨rfl, rfl⟩ := Prod.mk.inj (Except.ok.inj hrest)
      exact ⟨hle, fun ho => absurd rfl ho⟩
    | some word =>
      have hlt := hlt (Option.some_ne_none word)
      dsimp only at hrest
      split at hrest
      · obtain ⟨r'', hcomment, hloop⟩ := Runs.bind_eq_ok_iff.1 hrest
        have hle' := skipComment_length hcomment
        have hih := (ih hloop).1
        omega
      · obtain ⟨rfl, rfl⟩ := Prod.mk.inj (Except.ok.inj hrest)
        exact ⟨hle, fun _ => hlt⟩

theorem nextLexeme_finishes (f : Text) : nextLexeme f ≠ .error .unfinished :=
  nextLexemeLoop_finishes (Nat.lt_succ_self _)

theorem nextLexeme_length {o : Option Text} (h : nextLexeme f = .ok (o, r)) :
    r.length ≤ f.length ∧ (o ≠ none → r.length < f.length) :=
  nextLexemeLoop_length h

/-! ### Skipping -/

theorem skipSectionLoop_finishes (hn : f.length < n) :
    skipSectionLoop n f ≠ .error .unfinished := by
  induction n generalizing f with
  | zero => exact absurd hn (Nat.not_lt_zero _)
  | succ n ih =>
    refine bind_ne_unfinished (nextLexeme_finishes f) ?_
    rintro ⟨_ | lexeme, r⟩ hlexeme
    · exact nofun
    · have hlt := (nextLexeme_length hlexeme).2 (Option.some_ne_none lexeme)
      dsimp only
      split
      · exact nofun
      · exact ih (by omega)

theorem skipSectionLoop_length (h : skipSectionLoop n f = .ok r) : r.length ≤ f.length := by
  induction n generalizing f with
  | zero => cases h
  | succ n ih =>
    obtain ⟨⟨lexeme, r'⟩, hlexeme, hrest⟩ := Runs.bind_eq_ok_iff.1 h
    have hle := (nextLexeme_length hlexeme).1
    cases lexeme with
    | none =>
      obtain rfl := Except.ok.inj hrest
      exact hle
    | some lexeme =>
      dsimp only at hrest
      split at hrest
      · obtain rfl := Except.ok.inj hrest
        exact hle
      · exact Nat.le_trans (ih hrest) hle

theorem skipSection_finishes (f : Text) : skipSection f ≠ .error .unfinished :=
  skipSectionLoop_finishes (Nat.lt_succ_self _)

/-- The file behind its first end of a line. -/
def afterLine (f : Text) : Text := (f.dropWhile fun c => c != newline).tail

theorem afterLine_cons (c : Byte) (f : Text) :
    afterLine (c :: f) = if c = newline then f else afterLine f := by
  unfold afterLine
  by_cases hc : c = newline
  · rw [if_pos hc, List.dropWhile_cons_of_neg (by rw [hc]; decide), List.tail_cons]
  · rw [if_neg hc, List.dropWhile_cons_of_pos (by simpa using hc)]

theorem skipLine_of_mem (hf : newline ∈ f) (hn : f.length ≤ n) :
    skipLine n f = .ok (afterLine f) := by
  induction f generalizing n with
  | nil => exact absurd hf List.not_mem_nil
  | cons c f ih =>
    obtain ⟨m, rfl⟩ : ∃ m, n = m + 1 := ⟨n - 1, by rw [List.length_cons] at hn; omega⟩
    rw [afterLine_cons, skipLine]
    by_cases hc : c = newline
    · rw [if_pos hc, if_pos hc]
    · rw [if_neg hc, if_neg hc]
      exact ih (List.mem_of_ne_of_mem (Ne.symm hc) hf) (Nat.le_of_succ_le_succ hn)

theorem skipLine_of_notMem (hf : newline ∉ f) (n : ℕ) : skipLine n f = .error .unfinished := by
  induction n generalizing f with
  | zero => rw [skipLine]
  | succ n ih =>
    cases f with
    | nil => exact ih hf
    | cons c f =>
      have hc : c ≠ newline := fun h => hf (h ▸ List.mem_cons_self)
      rw [skipLine, if_neg hc]
      exact ih fun h => hf (List.mem_cons_of_mem c h)

theorem skipLine_ne_exit (n : ℕ) (f : Text) : skipLine n f ≠ .error .exit := by
  fun_induction skipLine n f with
  | case1 => exact nofun
  | case2 n ih => exact ih
  | case3 => exact nofun
  | case4 n c f hc ih => exact ih

theorem skipLine_mono {m : ℕ} (h : skipLine n f = .ok r) (hnm : n ≤ m) : skipLine m f = .ok r := by
  induction n generalizing f m with
  | zero => cases h
  | succ n ih =>
    obtain ⟨m, rfl⟩ : ∃ k, m = k + 1 := ⟨m - 1, by omega⟩
    have hnm := Nat.le_of_succ_le_succ hnm
    cases f with
    | nil =>
      change skipLine m [] = _
      exact ih h hnm
    | cons c f =>
      rw [skipLine] at h ⊢
      split at h
      · next hc => rwa [if_pos hc]
      · next hc =>
        rw [if_neg hc]
        exact ih h hnm

theorem skipLine_length (h : skipLine n f = .ok r) : r.length ≤ f.length := by
  fun_induction skipLine n f with
  | case1 => cases h
  | case2 n ih => exact ih h
  | case3 => cases h; exact Nat.le_succ _
  | case4 n c f hc ih => exact Nat.le_trans (ih h) (Nat.le_succ _)

/-! ### Rounds -/

/-- The result is there, whatever it is. -/
def Finished {α : Type} : Except (Halt × List Event) α → Prop
  | .error (.unfinished, _) => False
  | _ => True

/-- Where a parameter comes to skip to the end of the line: it is not recognized, or its argument
is missing. -/
def paramSkipsAt (sec : Section) (lexeme f : Text) : Option Text :=
  match lookupParam lexeme sec with
  | none => some f
  | some param =>
    if param.type ≠ .none then
      match readArgument f with
      | .ok (none, g) => some g
      | _ => none
    else none

/-- Where a lexeme comes to skip to the end of the line. -/
def lexemeSkipsAt (cur : Option Section) (lexeme f : Text) : Option Text :=
  match cur with
  | none => if lexeme = text "section" then none else some f
  | some sec => if lexeme = text "end" then none else paramSkipsAt sec lexeme f

/-- Where a round comes to skip to the end of the line. -/
def skipsAt (s : Parse) : Option Text :=
  match nextLexeme s.rest with
  | .ok (some lexeme, f) => lexemeSkipsAt s.cur lexeme f
  | _ => none

/-- A round comes to skip the last line, which has no end. -/
def Stuck (s : Parse) : Prop := ∃ f, skipsAt s = some f ∧ newline ∉ f

theorem finished_read {α β : Type} {x : Except Halt α} {k : α → Except (Halt × List Event) β}
    (hx : x ≠ .error .unfinished) (hk : ∀ a, x = .ok a → Finished (k a)) :
    Finished ((s.read x).bind k) := by
  cases x with
  | error e =>
    cases e with
    | exit => trivial
    | unfinished => exact absurd rfl hx
  | ok a => exact hk a rfl

theorem finished_map {α β : Type} {x : Except (Halt × List Event) α} (g : α → β)
    (hx : Finished x) : Finished (x.map g) := by
  cases x with
  | error e =>
    obtain ⟨_ | _, _⟩ := e
    · trivial
    · exact hx
  | ok a => trivial

theorem finished_of_bind {α β : Type} {x : Except (Halt × List Event) α}
    {k : α → Except (Halt × List Event) β} (h : Finished (x.bind k)) : Finished x := by
  cases x with
  | error e =>
    obtain ⟨_ | _, _⟩ := e
    · trivial
    · exact h
  | ok a => trivial

theorem finished_call (e : Event) : Finished (s.call reg e) := by
  unfold Parse.call
  split <;> trivial

theorem finished_startSection : Finished (startSection reg s) := by
  refine finished_read (nextLexeme_finishes _) ?_
  rintro ⟨_ | name, f⟩ -
  · trivial
  · dsimp only
    split
    · exact finished_call _
    · refine finished_map _ ?_
      cases hskip : skipSection f with
      | error e =>
        cases e with
        | exit => trivial
        | unfinished => exact absurd hskip (skipSection_finishes f)
      | ok g => trivial

theorem readArgument_finishes (f : Text) : readArgument f ≠ .error .unfinished := by
  refine bind_ne_unfinished (nextLexeme_finishes f) ?_
  rintro ⟨_ | lexeme, r⟩ -
  · exact nofun
  · dsimp only
    split
    · exact nextLexeme_finishes r
    · exact nofun

/-- What a round does behind its lexeme. -/
def afterLexeme (reg : Registry) (n : ℕ) (s : Parse) (lexeme : Text) :
    Except (Halt × List Event) Parse :=
  match s.cur with
  | none => if lexeme = text "section" then startSection reg s else s.skip n
  | some sec =>
    if lexeme = text "end" then { s with cur := none }.call reg (.finish sec)
    else setParam reg n s sec lexeme

theorem iteration_of_lexeme {lexeme : Text} (h : nextLexeme s.rest = .ok (some lexeme, f)) (n : ℕ) :
    iteration reg n s = (afterLexeme reg n { s with rest := f } lexeme).map some := by
  unfold iteration
  rw [h]
  rfl

theorem setParam_of_skips {sec : Section} {lexeme : Text}
    (h : paramSkipsAt sec lexeme s.rest = some f) (n : ℕ) :
    setParam reg n s sec lexeme = ({ s with rest := f } : Parse).skip n := by
  unfold paramSkipsAt at h
  unfold setParam
  cases hparam : lookupParam lexeme sec with
  | none =>
    rw [hparam] at h
    obtain rfl := Option.some.inj h
    rfl
  | some param =>
    rw [hparam] at h
    dsimp only at h ⊢
    by_cases htype : param.type ≠ .none
    · rw [if_pos htype] at h ⊢
      split at h
      · next hread =>
        obtain rfl := Option.some.inj h
        rw [hread]
        rfl
      · cases h
    · rw [if_neg htype] at h
      cases h

theorem setParam_of_not_skips (reg : Registry) {sec : Section} {lexeme : Text}
    (h : paramSkipsAt sec lexeme s.rest = none) :
    ∃ x, Finished x ∧ ∀ n, setParam reg n s sec lexeme = x := by
  unfold paramSkipsAt at h
  unfold setParam
  cases hparam : lookupParam lexeme sec with
  | none =>
    rw [hparam] at h
    cases h
  | some param =>
    rw [hparam] at h
    dsimp only at h ⊢
    by_cases htype : param.type ≠ .none
    · rw [if_pos htype] at h
      simp only [if_pos htype]
      cases hread : readArgument s.rest with
      | error e =>
        refine ⟨.error (e, s.called), ?_, fun _ => rfl⟩
        cases e with
        | exit => trivial
        | unfinished => exact absurd hread (readArgument_finishes _)
      | ok p =>
        obtain ⟨_ | value, g⟩ := p
        · rw [hread] at h
          cases h
        · exact ⟨_, finished_call _, fun _ => rfl⟩
    · simp only [if_neg htype]
      exact ⟨_, finished_call _, fun _ => rfl⟩

theorem iteration_of_skips (h : skipsAt s = some f) (n : ℕ) :
    iteration reg n s = (({ s with rest := f } : Parse).skip n).map some := by
  obtain ⟨rest, cur, called⟩ := s
  unfold skipsAt at h
  split at h
  · next lexeme g hlex =>
    rw [iteration_of_lexeme hlex, afterLexeme]
    refine congrArg (Except.map some) ?_
    cases cur with
    | none =>
      change (if lexeme = text "section" then none else some g) = some f at h
      by_cases hsection : lexeme = text "section"
      · rw [if_pos hsection] at h
        cases h
      · rw [if_neg hsection] at h
        obtain rfl := Option.some.inj h
        exact if_neg hsection
    | some sec =>
      change (if lexeme = text "end" then none else paramSkipsAt sec lexeme g) = some f at h
      by_cases hend : lexeme = text "end"
      · rw [if_pos hend] at h
        cases h
      · rw [if_neg hend] at h
        exact (if_neg hend).trans (setParam_of_skips (s := ⟨g, some sec, called⟩) h n)
  · cases h

theorem iteration_of_not_skips (reg : Registry) (h : skipsAt s = none) :
    ∃ x, Finished x ∧ ∀ n, iteration reg n s = x := by
  obtain ⟨rest, cur, called⟩ := s
  cases hlex : nextLexeme rest with
  | error e =>
    refine ⟨.error (e, called), ?_, fun n => ?_⟩
    · cases e with
      | exit => trivial
      | unfinished => exact absurd hlex (nextLexeme_finishes _)
    · unfold iteration
      rw [hlex]
      rfl
  | ok p =>
    obtain ⟨_ | lexeme, g⟩ := p
    · refine ⟨.ok none, trivial, fun n => ?_⟩
      unfold iteration
      rw [hlex]
      rfl
    · unfold skipsAt at h
      rw [hlex] at h
      have hround : ∀ n, iteration reg n ⟨rest, cur, called⟩ =
          (afterLexeme reg n ⟨g, cur, called⟩ lexeme).map some := iteration_of_lexeme hlex
      simp only [hround, afterLexeme]
      cases cur with
      | none =>
        by_cases hsection : lexeme = text "section"
        · simp only [if_pos hsection]
          exact ⟨_, finished_map some finished_startSection, fun _ => rfl⟩
        · exact absurd ((if_neg hsection).symm.trans h) (Option.some_ne_none g)
      | some sec =>
        by_cases hend : lexeme = text "end"
        · simp only [if_pos hend]
          exact ⟨_, finished_map some (finished_call _), fun _ => rfl⟩
        · obtain ⟨x, hx, hset⟩ := setParam_of_not_skips reg (s := ⟨g, some sec, called⟩)
            ((if_neg hend).symm.trans h)
          simp only [if_neg hend, hset]
          exact ⟨_, finished_map some hx, fun _ => rfl⟩

/-! ### Characters -/

theorem read_eq_ok_iff {α : Type} {x : Except Halt α} {a : α} : s.read x = .ok a ↔ x = .ok a := by
  cases x with
  | error e => exact ⟨nofun, nofun⟩
  | ok b => exact ⟨fun h => congrArg Except.ok (Except.ok.inj h), fun h => by rw [h]; rfl⟩

theorem call_eq_ok {e : Event} (h : s.call reg e = .ok t) :
    t = { s with called := s.called ++ [e] } := by
  unfold Parse.call at h
  split at h
  · exact (Except.ok.inj h).symm
  · cases h

theorem skip_length (h : s.skip n = .ok t) : t.rest.length ≤ s.rest.length := by
  obtain ⟨f, hf, rfl⟩ := Runs.map_eq_ok_iff.1 h
  exact skipLine_length (read_eq_ok_iff.1 hf)

theorem readArgument_length {o : Option Text} (h : readArgument f = .ok (o, r)) :
    r.length ≤ f.length := by
  obtain ⟨⟨lexeme, r'⟩, hlexeme, hrest⟩ := Runs.bind_eq_ok_iff.1 h
  have hle := (nextLexeme_length hlexeme).1
  cases lexeme with
  | none =>
    obtain ⟨rfl, rfl⟩ := Prod.mk.inj (Except.ok.inj hrest)
    exact hle
  | some lexeme =>
    dsimp only at hrest
    split at hrest
    · exact Nat.le_trans (nextLexeme_length hrest).1 hle
    · obtain ⟨rfl, rfl⟩ := Prod.mk.inj (Except.ok.inj hrest)
      exact hle

theorem startSection_length (h : startSection reg s = .ok t) :
    t.rest.length ≤ s.rest.length := by
  obtain ⟨⟨name, f⟩, hname, hrest⟩ := Runs.bind_eq_ok_iff.1 h
  have hle := (nextLexeme_length (read_eq_ok_iff.1 hname)).1
  cases name with
  | none => cases hrest
  | some name =>
    dsimp only at hrest
    split at hrest
    · rw [call_eq_ok hrest]
      exact hle
    · obtain ⟨g, hg, rfl⟩ := Runs.map_eq_ok_iff.1 hrest
      exact Nat.le_trans (skipSectionLoop_length (read_eq_ok_iff.1 hg)) hle

theorem setParam_length {sec : Section} {lexeme : Text} (h : setParam reg n s sec lexeme = .ok t) :
    t.rest.length ≤ s.rest.length := by
  unfold setParam at h
  split at h
  · exact skip_length h
  · split at h
    · obtain ⟨⟨value, f⟩, hvalue, hrest⟩ := Runs.bind_eq_ok_iff.1 h
      have hle := readArgument_length (read_eq_ok_iff.1 hvalue)
      cases value with
      | none => exact Nat.le_trans (skip_length hrest) hle
      | some value =>
        rw [call_eq_ok hrest]
        exact hle
    · rw [call_eq_ok h]

theorem afterLexeme_length {lexeme : Text} (h : afterLexeme reg n s lexeme = .ok t) :
    t.rest.length ≤ s.rest.length := by
  unfold afterLexeme at h
  split at h
  · split at h
    · exact startSection_length h
    · exact skip_length h
  · split at h
    · rw [call_eq_ok h]
    · exact setParam_length h

theorem iteration_length (h : iteration reg n s = .ok (some t)) :
    t.rest.length < s.rest.length := by
  obtain ⟨⟨lexeme, f⟩, hlexeme, hrest⟩ := Runs.bind_eq_ok_iff.1 h
  have hlexeme := read_eq_ok_iff.1 hlexeme
  cases lexeme with
  | none => cases hrest
  | some lexeme =>
    obtain ⟨u, hu, hut⟩ := Runs.map_eq_ok_iff.1 hrest
    obtain rfl := Option.some.inj hut
    exact Nat.lt_of_le_of_lt (afterLexeme_length hu)
      ((nextLexeme_length hlexeme).2 (Option.some_ne_none lexeme))

theorem paramSkipsAt_length {sec : Section} {lexeme : Text}
    (h : paramSkipsAt sec lexeme f = some r) : r.length ≤ f.length := by
  unfold paramSkipsAt at h
  split at h
  · exact Nat.le_of_eq (congrArg List.length (Option.some.inj h).symm)
  · split at h
    · split at h
      · next hread =>
        obtain rfl := Option.some.inj h
        exact readArgument_length hread
      · cases h
    · cases h

theorem skipsAt_length (h : skipsAt s = some f) : f.length ≤ s.rest.length := by
  unfold skipsAt at h
  split at h
  · next lexeme g hlexeme =>
    refine Nat.le_trans ?_ (nextLexeme_length hlexeme).1
    unfold lexemeSkipsAt at h
    split at h <;> split at h
    · cases h
    · exact Nat.le_of_eq (congrArg List.length (Option.some.inj h).symm)
    · cases h
    · exact paramSkipsAt_length h
  · cases h

/-! ### Main result -/

/-- The rounds of the main loop. -/
inductive Reached (reg : Registry) (s : Parse) : Parse → Prop where
  | start : Reached reg s s
  | round {t u : Parse} {n : ℕ} : Reached reg s t → iteration reg n t = .ok (some u) →
    Reached reg s u

theorem Reached.head {u : Parse} (h : iteration reg n s = .ok (some t)) (hu : Reached reg t u) :
    Reached reg s u := by
  induction hu with
  | start => exact .round .start h
  | round _ hround ih => exact .round ih hround

/-- A round ends unless it comes to skip the last line, and then it needs no more rounds of its own
loop than there are characters. -/
theorem iteration_of_not_stuck (reg : Registry) (h : ¬Stuck s) :
    ∃ x, Finished x ∧ ∀ n, s.rest.length ≤ n → iteration reg n s = x := by
  cases hskips : skipsAt s with
  | none =>
    obtain ⟨x, hx, hround⟩ := iteration_of_not_skips reg hskips
    exact ⟨x, hx, fun n _ => hround n⟩
  | some f =>
    have hmem : newline ∈ f := Decidable.byContradiction fun hf => h ⟨f, hskips, hf⟩
    refine ⟨.ok (some { s with rest := afterLine f }), trivial, fun n hn => ?_⟩
    rw [iteration_of_skips hskips, Parse.skip,
      skipLine_of_mem hmem (Nat.le_trans (skipsAt_length hskips) hn)]
    rfl

theorem iteration_of_stuck (h : Stuck s) (n : ℕ) :
    iteration reg n s = .error (.unfinished, s.called) := by
  obtain ⟨f, hskips, hf⟩ := h
  rw [iteration_of_skips hskips, Parse.skip, skipLine_of_notMem hf]
  rfl

/-- The loop over the lexemes ends if no round comes to skip the last line. -/
theorem readLoop_finishes (hs : ∀ t, Reached reg s t → ¬Stuck t) (hn : s.rest.length < n) :
    Finished (readLoop reg n s) := by
  induction n generalizing s with
  | zero => exact absurd hn (Nat.not_lt_zero _)
  | succ n ih =>
    obtain ⟨x, hx, hround⟩ := iteration_of_not_stuck reg (hs s .start)
    have hround := hround n (Nat.le_of_lt_succ hn)
    rw [readLoop, hround]
    match x, hx, hround with
    | .error e, hx, _ =>
      obtain ⟨_ | _, _⟩ := e
      · trivial
      · exact hx
    | .ok none, _, _ => trivial
    | .ok (some t), _, hround =>
      exact ih (fun u hu => hs u (hu.head hround))
        (Nat.lt_of_lt_of_le (iteration_length hround) (Nat.le_of_lt_succ hn))

/-- A round that ends does the same if its loops may make more rounds. -/
theorem iteration_mono {m : ℕ} (h : Finished (iteration reg n s)) (hnm : n ≤ m) :
    iteration reg m s = iteration reg n s := by
  cases hskips : skipsAt s with
  | none =>
    obtain ⟨x, -, hround⟩ := iteration_of_not_skips reg hskips
    rw [hround, hround]
  | some f =>
    rw [iteration_of_skips hskips] at h ⊢
    rw [iteration_of_skips hskips]
    unfold Parse.skip at h ⊢
    cases hskip : skipLine n f with
    | ok r => rw [skipLine_mono hskip hnm]
    | error e =>
      cases e with
      | exit => exact absurd hskip (skipLine_ne_exit n f)
      | unfinished =>
        dsimp only at h
        rw [hskip] at h
        exact absurd h id

theorem iteration_unique {m : ℕ} (hn : Finished (iteration reg n s))
    (hm : Finished (iteration reg m s)) : iteration reg n s = iteration reg m s := by
  rcases Nat.le_total n m with hnm | hmn
  · exact (iteration_mono hn hnm).symm
  · exact iteration_mono hm hmn

theorem Reached.cases_head {u : Parse} (h : Reached reg s u) :
    u = s ∨ ∃ t n, iteration reg n s = .ok (some t) ∧ Reached reg t u := by
  induction h with
  | start => exact .inl rfl
  | round _ hround ih =>
    obtain rfl | ⟨t, n, hhead, htail⟩ := ih
    · exact .inr ⟨_, _, hround, .start⟩
    · exact .inr ⟨t, n, hhead, .round htail hround⟩

/-- If the loop over the lexemes ends, no round comes to skip the last line. -/
theorem not_stuck_of_finished (hs : Finished (readLoop reg n s)) (ht : Reached reg s t) :
    ¬Stuck t := by
  induction n generalizing s with
  | zero => exact absurd hs id
  | succ n ih =>
    rw [readLoop] at hs
    have hstart : ¬Stuck s := fun hstuck => by
      rw [iteration_of_stuck hstuck] at hs
      exact hs
    have hfinished := finished_of_bind hs
    obtain rfl | ⟨u, m, hround, htail⟩ := ht.cases_head
    · exact hstart
    · rw [iteration_unique hfinished (m := m) (by rw [hround]; trivial), hround] at hs
      exact ih hs htail

/-- **Reading a configuration file ends exactly when no round comes to skip a line that does not
end**, and every round takes characters of the file or is the last. -/
theorem config_terminates (reg : Registry) (file : Text) :
    ((∃ fuel, Finished (readScriptFile reg fuel file)) ↔
      ∀ s, Reached reg ⟨file, none, []⟩ s → ¬Stuck s) ∧
    ∀ n s t, iteration reg n s = .ok (some t) → t.rest.length < s.rest.length :=
  ⟨⟨fun ⟨_, hfuel⟩ _ hs => not_stuck_of_finished hfuel hs,
    fun hs => ⟨file.length + 1, readLoop_finishes hs (Nat.lt_succ_self _)⟩⟩,
    fun _ _ _ h => iteration_length h⟩

/-- One character that is not recognized, and no end of its line. -/
theorem config_hangs : ¬∀ (reg : Registry) (file : Text),
    ∃ fuel, Finished (readScriptFile reg fuel file) := by
  intro hall
  obtain ⟨fuel, hfuel⟩ := hall ⟨[], fun _ => true⟩ (text "x")
  exact not_stuck_of_finished hfuel .start ⟨[], by decide, List.not_mem_nil⟩

end Config
end Or1ksim
