import Mathlib.Data.List.TakeWhile
import Or1ksim.Config.Termination

/-!
# The text of a configuration file

A file is written as words and strings with whitespace and comments between them.

* `Token`, `Sym`, `Spaced` — words, strings, ends of lines, and what may follow each other;
* `nextWord_word` — a word goes to the next whitespace, if it is not too long;
* `nextLexeme_token` — a token is read back as one lexeme;
* `nextLexeme_eq`, `skipSection_eq` — the loops below the main loop as plain recursions;
* `nextLexeme_space`, `nextLexeme_comment`, `Passed` — what does not matter to them.
-/

namespace Or1ksim
namespace Config

variable {f g r w ws : Text} {n m : ℕ} {c : Byte}

/-! ### Recursions -/

theorem nextLexemeLoop_stable (hn : f.length < n) (hm : f.length < m) :
    nextLexemeLoop n f = nextLexemeLoop m f := by
  induction n generalizing f m with
  | zero => exact absurd hn (Nat.not_lt_zero _)
  | succ n ih =>
    obtain ⟨m, rfl⟩ : ∃ k, m = k + 1 := ⟨m - 1, by omega⟩
    rw [nextLexemeLoop, nextLexemeLoop]
    cases hword : nextWord f with
    | error e => rfl
    | ok p =>
      obtain ⟨_ | word, r⟩ := p
      · rfl
      · have hlt := (nextWord_length hword).2 (Option.some_ne_none word)
        change (if _ then _ else _) = (if _ then _ else _)
        split
        · cases hcomment : skipComment 0 0 r with
          | error e => rfl
          | ok r' =>
            have hle := skipComment_length hcomment
            exact ih (by omega) (by omega)
        · rfl

theorem nextLexeme_eq (f : Text) :
    nextLexeme f = (nextWord f).bind fun
      | (none, f) => .ok (none, f)
      | (some word, f) =>
        if isComment word then (skipComment 0 0 f).bind nextLexeme
        else .ok (some (cstr word), f) := by
  rw [nextLexeme, nextLexemeLoop]
  cases hword : nextWord f with
  | error e => rfl
  | ok p =>
    obtain ⟨_ | word, r⟩ := p
    · rfl
    · have hlt := (nextWord_length hword).2 (Option.some_ne_none word)
      change (if _ then _ else _) = (if _ then _ else _)
      split
      · cases hcomment : skipComment 0 0 r with
        | error e => rfl
        | ok r' =>
          have hle := skipComment_length hcomment
          exact nextLexemeLoop_stable (by omega) (Nat.lt_succ_self _)
      · rfl

theorem nextLexeme_of_comment (h : nextWord f = .ok (some w, r)) (hw : isComment w = true) :
    nextLexeme f = (skipComment 0 0 r).bind nextLexeme := by
  rw [nextLexeme_eq, h]
  exact if_pos hw

theorem nextLexeme_of_word (h : nextWord f = .ok (some w, r)) (hw : isComment w = false) :
    nextLexeme f = .ok (some (cstr w), r) := by
  rw [nextLexeme_eq, h]
  exact if_neg (by rw [hw]; exact Bool.false_ne_true)

theorem nextLexeme_of_none (h : nextWord f = .ok (none, r)) : nextLexeme f = .ok (none, r) := by
  rw [nextLexeme_eq, h]
  rfl

theorem skipSectionLoop_stable (hn : f.length < n) (hm : f.length < m) :
    skipSectionLoop n f = skipSectionLoop m f := by
  induction n generalizing f m with
  | zero => exact absurd hn (Nat.not_lt_zero _)
  | succ n ih =>
    obtain ⟨m, rfl⟩ : ∃ k, m = k + 1 := ⟨m - 1, by omega⟩
    rw [skipSectionLoop, skipSectionLoop]
    cases hlex : nextLexeme f with
    | error e => rfl
    | ok p =>
      obtain ⟨_ | lexeme, r⟩ := p
      · rfl
      · have hlt := (nextLexeme_length hlex).2 (Option.some_ne_none lexeme)
        change (if _ then _ else _) = (if _ then _ else _)
        split
        · rfl
        · exact ih (by omega) (by omega)

/-- The loop that skips an unrecognized section, as a recursion. -/
theorem skipSection_eq (f : Text) :
    skipSection f = (nextLexeme f).bind fun
      | (none, f) => .ok f
      | (some lexeme, f) => if lexeme ≠ text "end" then .ok f else skipSection f := by
  rw [skipSection, skipSectionLoop]
  cases hlex : nextLexeme f with
  | error e => rfl
  | ok p =>
    obtain ⟨_ | lexeme, r⟩ := p
    · rfl
    · have hlt := (nextLexeme_length hlex).2 (Option.some_ne_none lexeme)
      change (if _ then _ else _) = (if _ then _ else _)
      split
      · rfl
      · exact skipSectionLoop_stable (by omega) (Nat.lt_succ_self _)

/-! ### Whitespace -/

theorem skipSpace_append (hws : ∀ c ∈ ws, isspace c = true) (f : Text) :
    skipSpace (ws ++ f) = skipSpace f := by
  induction ws with
  | nil => rfl
  | cons c ws ih =>
    obtain ⟨hc, hws⟩ := List.forall_mem_cons.1 hws
    rw [List.cons_append, skipSpace, if_pos hc, ih hws]

theorem nextLexeme_space (hws : ∀ c ∈ ws, isspace c = true) (f : Text) :
    nextLexeme (ws ++ f) = nextLexeme f := by
  have hword : nextWord (ws ++ f) = nextWord f := by rw [nextWord, skipSpace_append hws, nextWord]
  rw [nextLexeme_eq, hword, ← nextLexeme_eq]

/-- Text that is passed over in front of a lexeme. -/
def Passed (ws : Text) : Prop := ∀ f, nextLexeme (ws ++ f) = nextLexeme f

theorem Passed.append (hws : Passed ws) (hw : Passed w) : Passed (ws ++ w) := fun f => by
  rw [List.append_assoc, hws, hw]

theorem Passed.skipSection (hws : Passed ws) (f : Text) :
    skipSection (ws ++ f) = skipSection f := by
  rw [skipSection_eq, hws, ← skipSection_eq]

/-- The characters up to whitespace. -/
def wordOf (f : Text) : Text := f.takeWhile fun c => !isspace c

/-- The text behind them. -/
def behindWord (f : Text) : Text := f.dropWhile fun c => !isspace c

theorem wordOf_cons (hc : isspace c = false) (f : Text) : wordOf (c :: f) = c :: wordOf f :=
  List.takeWhile_cons_of_pos (by rw [hc]; rfl)

theorem wordOf_append (hw : ∀ c ∈ w, isspace c = false) (f : Text) :
    wordOf (w ++ f) = w ++ wordOf f :=
  List.takeWhile_append_of_pos fun c hc => by rw [hw c hc]; rfl

theorem behindWord_append (hw : ∀ c ∈ w, isspace c = false) (f : Text) :
    behindWord (w ++ f) = behindWord f :=
  List.dropWhile_append_of_pos fun c hc => by rw [hw c hc]; rfl

theorem wordLoop_short (h : w.length + (wordOf f).length < strSize - 1) :
    wordLoop w f = (w ++ wordOf f, behindWord f) := by
  induction f generalizing w with
  | nil => simp [wordLoop, wordOf, behindWord]
  | cons c f ih =>
    rw [wordLoop, if_neg (by omega)]
    by_cases hc : isspace c = true
    · simp [wordOf, behindWord, hc]
    · rw [Bool.not_eq_true] at hc
      rw [wordOf_cons hc, List.length_cons] at h
      have hbehind : behindWord (c :: f) = behindWord f :=
        List.dropWhile_cons_of_pos (by rw [hc]; rfl)
      rw [if_neg (by rw [hc]; exact Bool.false_ne_true),
        ih (by rw [List.length_append, List.length_singleton]; omega), wordOf_cons hc, hbehind,
        List.append_assoc]
      rfl

theorem wordLoop_long (hw : w.length ≤ strSize - 1)
    (h : strSize - 1 ≤ w.length + (wordOf f).length) : (wordLoop w f).1.length = strSize - 1 := by
  induction f generalizing w with
  | nil =>
    rw [wordOf, List.takeWhile_nil, List.length_nil] at h
    rw [wordLoop]
    exact Nat.le_antisymm hw h
  | cons c f ih =>
    rw [wordLoop]
    split_ifs with hlen hc
    · exact hlen
    · have hnil : wordOf (c :: f) = [] := List.takeWhile_cons_of_neg (by simp [hc])
      rw [hnil, List.length_nil] at h
      exact absurd (Nat.le_antisymm hw h) hlen
    · rw [wordOf_cons (by simpa using hc), List.length_cons] at h
      have hlength : (w ++ [c]).length = w.length + 1 := List.length_append
      exact ih (by omega) (by omega)

theorem endWord_of_short (hlen : w.length < strSize - 1) (r : Text) :
    endWord w r = .ok (if w = [] then none else some w, r) := by
  rw [endWord, if_neg (Nat.ne_of_lt hlen)]
  simp only [List.length_eq_zero_iff]

theorem nextWord_word (hc : isspace c = false) (hquote : c ≠ quote) (f : Text) :
    nextWord (c :: f) =
      if (wordOf (c :: f)).length < strSize - 1 then
        .ok (some (wordOf (c :: f)), behindWord (c :: f))
      else .error .exit := by
  have hskip : skipSpace (c :: f) = c :: f := by
    rw [skipSpace, if_neg (by rw [hc]; exact Bool.false_ne_true)]
  rw [nextWord, hskip]
  change (if c = quote then _ else _) = _
  rw [if_neg hquote]
  split_ifs with hlen
  · rw [wordLoop_short (by rw [List.length_nil, Nat.zero_add]; exact hlen), List.nil_append,
      endWord_of_short hlen, if_neg (by rw [wordOf_cons hc]; exact List.cons_ne_nil _ _)]
  · rw [endWord, if_pos (wordLoop_long (Nat.zero_le _) (by
      rw [List.length_nil, Nat.zero_add]
      exact Nat.le_of_not_lt hlen))]

/-- The text is at its end or goes on with whitespace. -/
def Ends (r : Text) : Prop := ∀ c ∈ r.head?, isspace c = true

instance (r : Text) : Decidable (Ends r) := inferInstanceAs (Decidable (∀ c ∈ r.head?, _))

theorem Ends.append (hw : Ends w) (hr : w = [] → Ends r) : Ends (w ++ r) := by
  cases w with
  | nil => exact hr rfl
  | cons c w => exact hw

theorem ends_of_space (hws : ∀ c ∈ ws, isspace c = true) : Ends ws :=
  fun c hc => hws c (List.mem_of_mem_head? hc)

theorem Ends.wordOf_eq (hr : Ends r) : wordOf r = [] := by
  cases r with
  | nil => rfl
  | cons c r => exact List.takeWhile_cons_of_neg (by simp [hr c rfl])

theorem Ends.behindWord_eq (hr : Ends r) : behindWord r = r := by
  cases r with
  | nil => rfl
  | cons c r => exact List.dropWhile_cons_of_neg (by simp [hr c rfl])

/-! ### Tokens -/

/-- A word, or a string that stands between quotes. -/
structure Token where
  chars : Text
  quoted : Bool
deriving DecidableEq

namespace Token

/-- A token is not too long, is no comment, and ends where it should.  Words and strings do not go
over the end of a line. -/
structure Wf (t : Token) : Prop where
  short : t.chars.length < strSize - 1
  nonzero : ∀ c ∈ t.chars, c ≠ 0
  comment : isComment t.chars = false
  string : t.quoted = true → ∀ c ∈ t.chars, c ≠ quote ∧ c ≠ newline
  word : t.quoted = false →
    (∀ c ∈ t.chars, isspace c = false) ∧ t.chars ≠ [] ∧ t.chars.head? ≠ some quote

/-- What a token has to be, as a test. -/
def check (t : Token) : Bool :=
  decide (t.chars.length < strSize - 1) && t.chars.all (fun c => c != 0) && !isComment t.chars &&
    if t.quoted then t.chars.all fun c => c != quote && c != newline
    else t.chars.all (fun c => !isspace c) && !t.chars.isEmpty && t.chars.head? != some quote

theorem wf_of_check {t : Token} (h : t.check = true) : t.Wf := by
  unfold check at h
  rw [Bool.and_eq_true, Bool.and_eq_true, Bool.and_eq_true, decide_eq_true_iff, List.all_eq_true,
    Bool.not_eq_true'] at h
  obtain ⟨⟨⟨hshort, hzero⟩, hcomment⟩, hrest⟩ := h
  refine ⟨hshort, fun c hc => bne_iff_ne.1 (hzero c hc), hcomment, fun hq => ?_, fun hq => ?_⟩
  · rw [hq, if_pos rfl, List.all_eq_true] at hrest
    exact fun c hc => (Bool.and_eq_true_iff.1 (hrest c hc)).imp bne_iff_ne.1 bne_iff_ne.1
  · rw [hq, if_neg Bool.false_ne_true, Bool.and_eq_true, Bool.and_eq_true,
      List.all_eq_true] at hrest
    obtain ⟨⟨hspace, hempty⟩, hhead⟩ := hrest
    refine ⟨fun c hc => by simpa using hspace c hc, fun hnil => ?_, bne_iff_ne.1 hhead⟩
    rw [hnil] at hempty
    cases hempty

/-- How a token is written. -/
def render (t : Token) : Text := if t.quoted then quote :: t.chars ++ [quote] else t.chars

/-- How a token is read. -/
def lexeme (t : Token) : Option Text := if t.chars = [] then none else some t.chars

end Token

variable {t : Token}

theorem stringLoop_append (hlen : w.length + f.length < strSize - 1)
    (hf : ∀ c ∈ f, c ≠ quote) (r : Text) : stringLoop w (f ++ quote :: r) = .ok (w ++ f, r) := by
  induction f generalizing w with
  | nil =>
    rw [List.nil_append, stringLoop, if_neg (by rw [List.length_nil] at hlen; omega), if_pos rfl,
      List.append_nil]
  | cons c f ih =>
    rw [List.length_cons] at hlen
    obtain ⟨hc, hf⟩ := List.forall_mem_cons.1 hf
    rw [List.cons_append, stringLoop, if_neg (by omega), if_neg hc,
      ih (by rw [List.length_append, List.length_singleton]; omega) hf, List.append_assoc]
    rfl

/-- A string is read up to its closing quote, and one character is lost behind it. -/
theorem nextWord_string (ht : t.Wf) (hq : t.quoted = true) (r : Text) :
    nextWord (t.render ++ r) = .ok (t.lexeme, r.tail) := by
  obtain ⟨chars, quoted⟩ := t
  obtain rfl : quoted = true := hq
  have hloop : stringLoop [] (chars ++ quote :: r) = .ok ([] ++ chars, r) :=
    stringLoop_append (by rw [List.length_nil, Nat.zero_add]; exact ht.short)
      (fun c hc => (ht.string rfl c hc).1) r
  have hskip : skipSpace (Token.render ⟨chars, true⟩ ++ r) = quote :: (chars ++ quote :: r) := by
    rw [Token.render, if_pos rfl, List.cons_append, List.cons_append, skipSpace,
      if_neg (by decide), List.append_assoc]
    rfl
  rw [nextWord, hskip]
  change (if quote = quote then _ else _) = _
  rw [if_pos rfl, hloop]
  exact endWord_of_short ht.short _

theorem nextWord_token (ht : t.Wf) (hr : Ends r) :
    nextWord (t.render ++ r) = .ok (t.lexeme, if t.quoted then r.tail else r) := by
  cases hq : t.quoted with
  | true => exact nextWord_string ht hq r
  | false =>
    obtain ⟨hspace, hne, hhead⟩ := ht.word hq
    obtain ⟨c, chars, hchars⟩ := List.exists_cons_of_ne_nil hne
    have hrender : t.render = c :: chars := by rw [Token.render, hq, ← hchars]; rfl
    have hc : isspace c = false := hspace c (by rw [hchars]; exact List.mem_cons_self)
    have hquote : c ≠ quote := fun h => hhead (by rw [hchars, h]; rfl)
    have hword : wordOf (c :: (chars ++ r)) = c :: chars := by
      rw [← List.cons_append, ← hchars, wordOf_append hspace, hr.wordOf_eq, List.append_nil]
    have hbehind : behindWord (c :: (chars ++ r)) = r := by
      rw [← List.cons_append, ← hchars, behindWord_append hspace, hr.behindWord_eq]
    rw [hrender, List.cons_append, nextWord_word hc hquote, hword, hbehind,
      if_pos (hchars ▸ ht.short), Token.lexeme, if_neg hne, hchars]
    rfl

theorem nextLexeme_token (ht : t.Wf) (hws : ∀ c ∈ ws, isspace c = true) (hr : Ends r) :
    nextLexeme (ws ++ t.render ++ r) = .ok (t.lexeme, if t.quoted then r.tail else r) := by
  have hword := nextWord_token ht hr
  have hcstr : cstr t.chars = t.chars :=
    List.takeWhile_eq_self_iff.2 fun c hc => bne_iff_ne.2 (ht.nonzero c hc)
  rw [List.append_assoc, nextLexeme_space hws]
  unfold Token.lexeme at *
  by_cases hnil : t.chars = []
  · rw [if_pos hnil] at *
    exact nextLexeme_of_none hword
  · rw [if_neg hnil] at *
    rw [nextLexeme_of_word hword ht.comment, hcstr]

/-! ### Comments -/

/-- `"/*"` -/
def opening : Text := text "/*"

/-- `"*/"` -/
def closing : Text := text "*/"

/-- A comment. -/
def comment (body : Text) : Text := opening ++ body ++ closing

theorem skipComment_body {body : Text} {c₀ c₁ : Byte} (hopen : ¬(c₀ = 42 ∧ c₁ = 47))
    (hbody : ¬closing <:+: c₁ :: body) (g : Text) :
    skipComment c₀ c₁ (body ++ closing ++ g) = .ok g := by
  -- `c₀` and `c₁` are the last two characters read: the terminator is not in them before its time.
  induction body generalizing c₀ c₁ with
  | nil =>
    have hsecond : ¬(c₁ = 42 ∧ (42 : Byte) = 47) := fun h => absurd h.2 (by decide)
    change skipComment c₀ c₁ (42 :: 47 :: g) = _
    rw [skipComment, if_neg hopen, skipComment, if_neg hsecond]
    cases g with
    | nil => rfl
    | cons c g => rfl
  | cons c body ih =>
    rw [List.cons_append, List.cons_append, skipComment, if_neg hopen]
    refine ih ?_ fun h => hbody (h.trans (List.suffix_cons _ _).isInfix)
    rintro ⟨rfl, rfl⟩
    exact hbody (List.prefix_append [42, 47] body).isInfix

theorem isComment_opening (f : Text) : isComment (opening ++ f) = true := rfl

theorem nextWord_comment (f : Text) :
    nextWord (opening ++ f) =
      if (wordOf f).length + 2 < strSize - 1 then .ok (some (opening ++ wordOf f), behindWord f)
      else .error .exit := by
  have hopening : ∀ c ∈ opening, isspace c = false := by decide
  have hword := nextWord_word (c := 47) (by decide) (by decide) (42 :: f)
  have hof : wordOf (47 :: 42 :: f) = opening ++ wordOf f := wordOf_append hopening f
  have hbehind : behindWord (47 :: 42 :: f) = behindWord f := behindWord_append hopening f
  rw [hof, hbehind, List.length_append] at hword
  rw [Nat.add_comm]
  exact hword

theorem word_append (h : ∃ c ∈ f, isspace c = true) (g : Text) :
    wordOf (f ++ g) = wordOf f ∧ behindWord (f ++ g) = behindWord f ++ g := by
  induction f with
  | nil => simp at h
  | cons c f ih =>
    by_cases hc : isspace c = true
    · simp [wordOf, behindWord, hc]
    · obtain ⟨hword, hbehind⟩ := ih (by simpa [hc] using h)
      rw [wordOf, behindWord] at *
      simp [hc, hword, hbehind, behindWord, wordOf]

/-- **A comment is skipped** if its first word ends inside of it and is not too long. -/
theorem nextLexeme_comment {body : Text} (hspace : ∃ c ∈ body, isspace c = true)
    (hshort : (wordOf body).length + 2 < strSize - 1) (hbody : ¬closing <:+: body) (g : Text) :
    nextLexeme (comment body ++ g) = nextLexeme g := by
  obtain ⟨hword, hbehind⟩ := word_append hspace (closing ++ g)
  have hsuffix : behindWord body <:+ body := List.dropWhile_suffix _
  -- The end is looked for behind the first word only, from two characters that are not there.
  have hfirst : ¬closing <:+: (0 : Byte) :: behindWord body := by
    rw [List.infix_cons_iff]
    rintro (hstart | hlater)
    · exact absurd (List.cons_prefix_cons.1 hstart).1 (by decide)
    · exact hbody (hlater.trans hsuffix.isInfix)
  have hskip := skipComment_body (by decide : ¬((0 : Byte) = 42 ∧ (0 : Byte) = 47)) hfirst g
  rw [List.append_assoc] at hskip
  have hcomment : comment body ++ g = opening ++ (body ++ (closing ++ g)) := by
    rw [comment, List.append_assoc, List.append_assoc]
  have hfound := nextWord_comment (body ++ (closing ++ g))
  rw [hword, hbehind, if_pos hshort] at hfound
  rw [hcomment, nextLexeme_of_comment hfound (isComment_opening _), hskip]
  rfl

/-! ### Symbols -/

/-- A token behind whitespace and comments, or the end of a line. -/
inductive Sym where
  | tok (gap : Text) (t : Token)
  | eol (gap : Text)
deriving DecidableEq

/-- How symbols are written. -/
def Sym.render : Sym → Text
  | .tok gap t => gap ++ t.render
  | .eol gap => gap ++ [newline]

/-- The text of some symbols. -/
def render (ss : List Sym) : Text := ss.flatMap Sym.render

/-- A comment on one line that is skipped: its first word ends inside of it and is not too long. -/
structure OnLine (body : Text) : Prop where
  space : ∃ c ∈ body, isspace c = true
  short : (wordOf body).length + 2 < strSize - 1
  closed : ¬closing <:+: body
  line : newline ∉ body

/-- Whitespace and comments inside a line. -/
inductive IsGap : Text → Prop
  | nil : IsGap []
  | space {c : Byte} {gap : Text} : isspace c = true → c ≠ newline → IsGap gap → IsGap (c :: gap)
  | comment {body gap : Text} : OnLine body → IsGap gap → IsGap (comment body ++ gap)

theorem IsGap.passed {gap : Text} (h : IsGap gap) : Passed gap := by
  induction h with
  | nil => exact fun _ => rfl
  | space hc _ _ ih => exact Passed.append (nextLexeme_space (List.forall_mem_singleton.2 hc)) ih
  | comment hbody _ ih =>
    exact Passed.append (nextLexeme_comment hbody.space hbody.short hbody.closed) ih

/-- The text starts with whitespace. -/
def StartsSpaced : List Sym → Prop
  | .tok gap _ :: _ => gap ≠ [] ∧ Ends gap
  | .eol gap :: _ => Ends gap
  | [] => False

/-- Between tokens there is whitespace, and the last line ends. -/
def Spaced : List Sym → Prop
  | [] => True
  | .tok gap t :: ss => IsGap gap ∧ t.Wf ∧ StartsSpaced ss ∧ Spaced ss
  | .eol gap :: ss => IsGap gap ∧ Spaced ss

theorem StartsSpaced.append {ss : List Sym} (h : StartsSpaced ss) (us : List Sym) :
    StartsSpaced (ss ++ us) := by
  match ss, h with
  | .tok _ _ :: _, h => exact h
  | .eol _ :: _, h => exact h

theorem Spaced.append {ss us : List Sym} (hs : Spaced ss) (hu : Spaced us) : Spaced (ss ++ us) := by
  induction ss with
  | nil => exact hu
  | cons y ss ih =>
    cases y with
    | tok gap t =>
      obtain ⟨hgap, ht, hstart, hrest⟩ := hs
      exact ⟨hgap, ht, hstart.append us, ih hrest⟩
    | eol gap => exact ⟨hs.1, ih hs.2⟩

theorem exists_space {ss : List Sym} (hstart : StartsSpaced ss) :
    ∃ c r, render ss = c :: r ∧ isspace c = true := by
  match ss, hstart with
  | .tok (c :: gap) t :: ss, h => exact ⟨c, _, rfl, h.2 c rfl⟩
  | .eol [] :: ss, _ => exact ⟨newline, _, rfl, by decide⟩
  | .eol (c :: gap) :: ss, h => exact ⟨c, _, rfl, h c rfl⟩

end Config
end Or1ksim
