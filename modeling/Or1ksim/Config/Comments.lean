import Or1ksim.Config.Lexemes

/-!
# Comments between lexemes

A comment that is inserted between two lexemes of a file.

* `Insertion` — lexemes with whitespace between them, and a comment in one of the gaps;
* `nextLexeme_comment` — a comment whose first word ends inside of it is skipped;
* `lexemes_swallowed` — one that is a single word takes what is behind it as well;
* `Insertion.Readable` — **when comments are skipped and strings are read**: whitespace before and
  in the comment, and strings that are not empty, not too long and do not look like a comment;
* `comments_iff` — these are the conditions for the lexemes to be what is written.
-/

namespace Or1ksim
namespace Config

variable {f g r w ws : Text} {c : Byte} {l : Text} {ls : List Text} {t : Token}

/-! ### Tokens -/

theorem Ends.lexemes_tail (hr : Ends r) : lexemes r.tail = lexemes r := by
  cases r with
  | nil => rfl
  | cons c r => exact (lexemes_space (List.forall_mem_singleton.2 (hr c rfl)) r).symm

/-- **A token** is the next lexeme, unless it is an empty string, which ends the sequence. -/
theorem lexemes_token_iff (ht : t.Wf) (hws : ∀ c ∈ ws, isspace c = true) (hr : Ends r) :
    lexemes (ws ++ t.render ++ r) = .ok (t.chars :: ls) ↔ t.chars ≠ [] ∧ lexemes r = .ok ls := by
  have hlex := nextLexeme_token ht hws hr
  by_cases hnil : t.chars = []
  · rw [Token.lexeme, if_pos hnil] at hlex
    rw [lexemes_of_none hlex]
    exact ⟨fun h => absurd (Except.ok.inj h) (List.cons_ne_nil _ _).symm, fun h => absurd hnil h.1⟩
  · have hrest : lexemes (if t.quoted then r.tail else r) = lexemes r := by
      split_ifs
      · exact hr.lexemes_tail
      · rfl
    rw [Token.lexeme, if_neg hnil] at hlex
    rw [lexemes_of_some hlex, hrest, Runs.map_eq_ok_iff]
    constructor
    · rintro ⟨ls', hls, hcons⟩
      obtain ⟨-, rfl⟩ := List.cons_eq_cons.1 hcons
      exact ⟨hnil, hls⟩
    · rintro ⟨-, hls⟩
      exact ⟨ls, hls, rfl⟩

theorem lexemes_render_iff (ht : t.Wf) (hr : Ends r) :
    lexemes (t.render ++ r) = .ok (t.chars :: ls) ↔ t.chars ≠ [] ∧ lexemes r = .ok ls := by
  have hnil : ∀ c ∈ ([] : Text), isspace c = true := List.forall_mem_nil _
  have hiff : lexemes ([] ++ t.render ++ r) = .ok (t.chars :: ls) ↔ _ :=
    lexemes_token_iff ht hnil hr
  rwa [List.nil_append] at hiff

/-! ### Comments without whitespace -/

/-- **A comment without whitespace** is one word with what follows it, and the next comment's end is
looked for behind that: characters are lost. -/
theorem lexemes_swallowed {body : Text} (hspace : ∀ c ∈ body, isspace c = false)
    (h : lexemes (comment body ++ g) = .ok ls) : (ls.map letters).sum + 2 ≤ letters g := by
  have hcomment : comment body ++ g = opening ++ (body ++ closing ++ g) := by
    rw [comment, List.append_assoc, List.append_assoc, List.append_assoc]
  -- The terminator is part of the word, so it is read before it is looked for.
  have hword : ∀ c ∈ body ++ closing, isspace c = false := by
    intro c hc
    rcases List.mem_append.1 hc with hc | hc
    · exact hspace c hc
    · exact (by decide : ∀ c ∈ closing, isspace c = false) c hc
  have hfound := nextWord_comment (body ++ closing ++ g)
  rw [behindWord_append hword] at hfound
  rw [hcomment, lexemes_eq] at h
  split_ifs at hfound with hshort
  · rw [nextLexeme_of_comment hfound (isComment_opening _)] at h
    cases hskip : skipComment 0 0 (behindWord g) with
    | error e =>
      rw [hskip] at h
      cases h
    | ok r =>
      rw [hskip] at h
      have hrest : lexemes r = .ok ls := by
        rw [lexemes_eq]
        exact h
      have hsum := lexemes_letters hrest
      have hlost := skipComment_letters hskip
      have hbehind : letters (behindWord g) ≤ letters g := (List.dropWhile_sublist _).countP_le
      rw [if_neg (by decide), if_neg (by decide)] at hlost
      omega
  · rw [nextLexeme_eq, hfound] at h
    cases h

/-! ### Insertions -/

/-- What can be written as a lexeme: a string of any characters but the quote and the end of the
line, or a word. -/
structure Token.IsLexeme (t : Token) : Prop where
  string : t.quoted = true → ∀ c ∈ t.chars, c ≠ quote ∧ c ≠ newline
  word : t.quoted = false → t.Wf

/-- Lexemes with whitespace between them, and a comment in the whitespace between two of them. -/
structure Insertion where
  /-- Whitespace at the start of the file. -/
  lead : Text
  /-- Lexemes, each with the whitespace behind it. -/
  before : List (Token × Text)
  /-- The lexeme before the comment. -/
  last : Token
  /-- Whitespace before the comment, which may be missing. -/
  pre : Text
  /-- The text of the comment. -/
  body : Text
  /-- Whitespace behind the comment, which may be missing. -/
  post : Text
  /-- The lexeme behind the comment. -/
  next : Token
  /-- Lexemes, each with the whitespace before it. -/
  after : List (Text × Token)
  /-- Whitespace at the end of the file. -/
  trail : Text
  isLexeme : ∀ t ∈ before.map Prod.fst ++ last :: next :: after.map Prod.snd, t.IsLexeme
  space : ∀ ws ∈ lead :: pre :: post :: trail :: (before.map Prod.snd ++ after.map Prod.fst),
    ∀ c ∈ ws, isspace c = true
  /-- There is whitespace between two lexemes. -/
  apart : ∀ ws ∈ (pre ++ post) :: (before.map Prod.snd ++ after.map Prod.fst), ws ≠ []
  /-- The terminator is not in the text of the comment. -/
  isBody : ¬closing <:+: body

namespace Insertion

/-- The lexemes. -/
def tokens (i : Insertion) : List Token :=
  i.before.map Prod.fst ++ i.last :: i.next :: i.after.map Prod.snd

/-- The text up to the lexeme before the comment. -/
def beforeText (i : Insertion) : Text := i.lead ++ i.before.flatMap fun p => p.1.render ++ p.2

/-- The text from the lexeme behind the comment on. -/
def afterText (i : Insertion) : Text :=
  i.next.render ++ ((i.after.flatMap fun p => p.1 ++ p.2.render) ++ i.trail)

/-- The file without the comment. -/
def file (i : Insertion) : Text :=
  i.beforeText ++ i.last.render ++ (i.pre ++ i.post ++ i.afterText)

/-- The file with the comment. -/
def commented (i : Insertion) : Text :=
  i.beforeText ++ i.last.render ++ (i.pre ++ comment i.body ++ i.post ++ i.afterText)

/-- Every lexeme is returned as it is written; a string as the characters between its quotes. -/
def Exact (i : Insertion) : Prop := lexemes i.file = .ok (i.tokens.map Token.chars)

/-- The comment does not change the lexemes. -/
def Unchanged (i : Insertion) : Prop := lexemes i.commented = lexemes i.file

/-- Comments are skipped and strings are read. -/
structure Readable (i : Insertion) : Prop where
  /-- Strings are not empty, fit into the buffer, and do not look like a comment. -/
  strings : ∀ t ∈ i.tokens, t.quoted = true →
    t.chars ≠ [] ∧ t.chars.length < strSize - 1 ∧ (∀ c ∈ t.chars, c ≠ 0) ∧ isComment t.chars = false
  /-- There is whitespace before the comment. -/
  behindSpace : i.pre ≠ []
  /-- There is whitespace in the comment. -/
  hasSpace : ∃ c ∈ i.body, isspace c = true
  /-- Its first word fits into the buffer. -/
  short : (wordOf i.body).length + 2 < strSize - 1

/-- The comment directly follows a string, and the lexeme behind it starts with an asterisk, as the
rest of the comment does. -/
def Asterisk (i : Insertion) : Prop :=
  i.pre = [] ∧ i.last.quoted = true ∧ i.next.chars.head? = some 42

end Insertion

/-! ### Files -/

theorem lexemes_before_iff {before : List (Token × Text)} {lead : Text}
    (hwf : ∀ p ∈ before, p.1.Wf) (hlead : ∀ c ∈ lead, isspace c = true)
    (hspace : ∀ p ∈ before, ∀ c ∈ p.2, isspace c = true) (hapart : ∀ p ∈ before, p.2 ≠ [])
    (r : Text) :
    lexemes ((lead ++ before.flatMap fun p => p.1.render ++ p.2) ++ r) =
        .ok ((before.map fun p => p.1.chars) ++ ls) ↔
      (∀ p ∈ before, p.1.chars ≠ []) ∧ lexemes r = .ok ls := by
  induction before generalizing lead with
  | nil => simp [lexemes_space hlead]
  | cons p before ih =>
    obtain ⟨hp, hwf⟩ := List.forall_mem_cons.1 hwf
    obtain ⟨hgap, hspace⟩ := List.forall_mem_cons.1 hspace
    obtain ⟨hne, hapart⟩ := List.forall_mem_cons.1 hapart
    have hends : Ends ((p.2 ++ before.flatMap fun p => p.1.render ++ p.2) ++ r) := by
      rw [List.append_assoc]
      exact (ends_of_space hgap).append fun h => absurd h hne
    have htext : (lead ++ (p :: before).flatMap fun p => p.1.render ++ p.2) ++ r =
        lead ++ p.1.render ++ ((p.2 ++ before.flatMap fun p => p.1.render ++ p.2) ++ r) := by
      simp only [List.flatMap_cons, List.append_assoc]
    rw [htext, List.map_cons, List.cons_append, lexemes_token_iff hp hlead hends,
      ih hwf hgap hspace hapart, List.forall_mem_cons, and_assoc]

theorem lexemes_after_iff {after : List (Text × Token)} {next : Token} {trail : Text}
    (hnext : next.Wf) (hwf : ∀ p ∈ after, p.2.Wf) (htrail : ∀ c ∈ trail, isspace c = true)
    (hspace : ∀ p ∈ after, ∀ c ∈ p.1, isspace c = true) (hapart : ∀ p ∈ after, p.1 ≠ [])
    (hlead : ∀ c ∈ ws, isspace c = true) :
    lexemes (ws ++ next.render ++ ((after.flatMap fun p => p.1 ++ p.2.render) ++ trail)) =
        .ok (next.chars :: after.map fun p => p.2.chars) ↔
      next.chars ≠ [] ∧ ∀ p ∈ after, p.2.chars ≠ [] := by
  induction after generalizing next ws with
  | nil =>
    have hend : lexemes trail = .ok [] := by
      rw [← List.append_nil trail, lexemes_space htrail]
      rfl
    rw [List.flatMap_nil, List.nil_append, List.map_nil,
      lexemes_token_iff hnext hlead (ends_of_space htrail)]
    simp [hend]
  | cons p after ih =>
    obtain ⟨hp, hwf⟩ := List.forall_mem_cons.1 hwf
    obtain ⟨hgap, hspace⟩ := List.forall_mem_cons.1 hspace
    obtain ⟨hne, hapart⟩ := List.forall_mem_cons.1 hapart
    have htext : ((p :: after).flatMap fun p => p.1 ++ p.2.render) ++ trail =
        p.1 ++ p.2.render ++ ((after.flatMap fun p => p.1 ++ p.2.render) ++ trail) := by
      simp only [List.flatMap_cons, List.append_assoc]
    have hends : Ends (p.1 ++ p.2.render ++
        ((after.flatMap fun p => p.1 ++ p.2.render) ++ trail)) := by
      rw [List.append_assoc]
      exact (ends_of_space hgap).append fun h => absurd h hne
    rw [htext, lexemes_token_iff hnext hlead hends, List.map_cons, ih hp hwf hspace hapart hgap,
      List.forall_mem_cons]

theorem letters_render (t : Token) : letters t.render = letters t.chars := by
  unfold Token.render
  split_ifs
  · rw [letters_append, letters, List.countP_cons_of_neg (by decide)]
    rfl
  · rfl

theorem letters_after {after : List (Text × Token)}
    (hspace : ∀ p ∈ after, ∀ c ∈ p.1, isspace c = true) :
    letters (after.flatMap fun p => p.1 ++ p.2.render) =
      ((after.map fun p => p.2.chars).map letters).sum := by
  induction after with
  | nil => rfl
  | cons p after ih =>
    obtain ⟨hgap, hspace⟩ := List.forall_mem_cons.1 hspace
    rw [List.flatMap_cons, letters_append, letters_append, letters_eq_zero hgap, letters_render,
      ih hspace]
    simp

theorem cstr_append (hw : ∀ c ∈ w, c ≠ 0) (f : Text) : cstr (w ++ f) = w ++ cstr f :=
  List.takeWhile_append_of_pos fun c hc => bne_iff_ne.2 (hw c hc)

/-- A comment that is put behind a word does not make a comment of it. -/
theorem isComment_append (ht : t.Wf) (hne : t.chars ≠ []) (g : Text) :
    isComment (t.chars ++ (opening ++ g)) = false := by
  have hcomment := ht.comment
  have hself : cstr t.chars = t.chars := by simpa [cstr] using cstr_append ht.nonzero []
  have hopening : cstr (opening ++ g) = 47 :: 42 :: cstr g := cstr_append (by decide) g
  rw [isComment, hself] at hcomment
  rw [isComment, cstr_append ht.nonzero, hopening]
  -- The first two characters decide.
  cases hchars : t.chars with
  | nil => exact absurd hchars hne
  | cons c chars =>
    rw [hchars] at hcomment
    cases chars with
    | nil =>
      change ((47 : Byte) == c && ((42 : Byte) == 47 && _)) = false
      rw [show ((42 : Byte) == 47) = false from rfl, Bool.false_and, Bool.and_false]
    | cons d chars => exact hcomment

/-- A word and what stands directly behind it are one lexeme, which is longer. -/
theorem lexemes_word_comment (ht : t.Wf) (hq : t.quoted = false) (g : Text) :
    lexemes (t.render ++ (opening ++ g)) ≠ .ok (t.chars :: ls) := by
  intro h
  obtain ⟨hspace, hne, hhead⟩ := ht.word hq
  obtain ⟨c, chars, hchars⟩ := List.exists_cons_of_ne_nil hne
  have hrender : t.render = t.chars := by rw [Token.render, hq]; rfl
  have hc : isspace c = false := hspace c (by rw [hchars]; exact List.mem_cons_self)
  have hquote : c ≠ quote := fun h => hhead (by rw [hchars, h]; rfl)
  have hof : wordOf (t.chars ++ (opening ++ g)) = t.chars ++ (opening ++ wordOf g) := by
    rw [wordOf_append hspace, wordOf_append (by decide)]
  have hword := nextWord_word hc hquote (chars ++ (opening ++ g))
  rw [← List.cons_append, ← hchars, hof] at hword
  obtain ⟨r, hlex, -⟩ := lexemes_eq_cons h
  rw [hrender] at hlex
  split_ifs at hword with hlen
  · rw [nextLexeme_of_word hword (isComment_append ht hne (wordOf g))] at hlex
    have hsame := Option.some.inj (Prod.mk.inj (Except.ok.inj hlex)).1
    rw [cstr_append ht.nonzero, List.append_right_eq_self] at hsame
    cases hsame
  · rw [nextLexeme_eq, hword] at hlex
    cases hlex

/-- The rest of a comment behind a string starts with its asterisk. -/
theorem lexemes_string_comment (ht : t.Wf) (hq : t.quoted = true)
    (h : lexemes (t.render ++ (opening ++ g)) = .ok (t.chars :: l :: ls)) : l.head? = some 42 := by
  obtain ⟨r, hlex, hrest⟩ := lexemes_eq_cons h
  obtain ⟨r', hlex', -⟩ := lexemes_eq_cons hrest
  -- The character that is lost behind the string is the slash.
  have hr : r = 42 :: g := by
    have hword := nextWord_string ht hq (opening ++ g)
    unfold Token.lexeme at hword
    split_ifs at hword with hnil
    · rw [nextLexeme_of_none hword] at hlex
      cases hlex
    · rw [nextLexeme_of_word hword ht.comment] at hlex
      exact (Prod.mk.inj (Except.ok.inj hlex)).2.symm
  subst hr
  have hword := nextWord_word (by decide : isspace 42 = false) (by decide : (42 : Byte) ≠ quote) g
  split_ifs at hword with hlen
  · rw [wordOf_cons (by decide)] at hword
    have hcomment : isComment (42 :: wordOf g) = false := rfl
    rw [nextLexeme_of_word hword hcomment] at hlex'
    cases hlex'
    rfl
  · rw [nextLexeme_eq, hword] at hlex'
    cases hlex'

namespace Insertion

variable {i : Insertion}

theorem wf_of_exact (h : i.Exact) : ∀ t ∈ i.tokens, t.Wf := by
  intro t ht
  obtain ⟨hshort, hzero, hcomment⟩ :=
    lexemes_returns h t.chars (List.mem_map_of_mem ht)
  have hlex := i.isLexeme t ht
  cases hq : t.quoted with
  | true => exact ⟨hshort, hzero, hcomment, hlex.string, fun h => by rw [hq] at h; cases h⟩
  | false => exact hlex.word hq

theorem Readable.wf (h : i.Readable) : ∀ t ∈ i.tokens, t.Wf := by
  intro t ht
  have hlex := i.isLexeme t ht
  cases hq : t.quoted with
  | true =>
    obtain ⟨-, hshort, hzero, hcomment⟩ := h.strings t ht hq
    exact ⟨hshort, hzero, hcomment, hlex.string, fun h => by rw [hq] at h; cases h⟩
  | false => exact hlex.word hq

theorem Readable.ne_nil (h : i.Readable) : ∀ t ∈ i.tokens, t.chars ≠ [] := by
  intro t ht
  cases hq : t.quoted with
  | true => exact (h.strings t ht hq).1
  | false => exact (((i.isLexeme t ht).word hq).word hq).2.1

theorem map_chars_tokens (i : Insertion) :
    i.tokens.map Token.chars = (i.before.map fun p => p.1.chars) ++
      i.last.chars :: i.next.chars :: i.after.map fun p => p.2.chars := by
  simp [tokens, Function.comp_def]

theorem forall_tokens {p : Token → Prop} :
    (∀ t ∈ i.tokens, p t) ↔
      (∀ q ∈ i.before, p q.1) ∧ p i.last ∧ p i.next ∧ ∀ q ∈ i.after, p q.2 := by
  simp only [tokens, List.forall_mem_append, List.forall_mem_cons, List.forall_mem_map]

theorem space_lead : ∀ c ∈ i.lead, isspace c = true := i.space _ (by simp)

theorem space_pre : ∀ c ∈ i.pre, isspace c = true := i.space _ (by simp)

theorem space_post : ∀ c ∈ i.post, isspace c = true := i.space _ (by simp)

theorem space_trail : ∀ c ∈ i.trail, isspace c = true := i.space _ (by simp)

theorem space_before : ∀ p ∈ i.before, ∀ c ∈ p.2, isspace c = true :=
  fun p hp => i.space p.2 (List.mem_append_right [_, _, _, _]
    (List.mem_append_left _ (List.mem_map_of_mem hp)))

theorem space_after : ∀ p ∈ i.after, ∀ c ∈ p.1, isspace c = true :=
  fun p hp => i.space p.1 (List.mem_append_right [_, _, _, _]
    (List.mem_append_right _ (List.mem_map_of_mem hp)))

theorem apart_before : ∀ p ∈ i.before, p.2 ≠ [] :=
  fun p hp => i.apart p.2 (.tail _ (List.mem_append_left _ (List.mem_map_of_mem hp)))

theorem apart_after : ∀ p ∈ i.after, p.1 ≠ [] :=
  fun p hp => i.apart p.1 (.tail _ (List.mem_append_right _ (List.mem_map_of_mem hp)))

theorem lexemes_afterText_iff (hwf : ∀ t ∈ i.tokens, t.Wf) :
    lexemes i.afterText = .ok (i.next.chars :: i.after.map fun p => p.2.chars) ↔
      i.next.chars ≠ [] ∧ ∀ p ∈ i.after, p.2.chars ≠ [] := by
  obtain ⟨-, -, hnext, hafter⟩ := forall_tokens.1 hwf
  have hnil : ∀ c ∈ ([] : Text), isspace c = true := List.forall_mem_nil _
  have hiff := lexemes_after_iff hnext hafter i.space_trail i.space_after i.apart_after hnil
  rwa [List.nil_append] at hiff

/-- The lexemes before the comment do not matter to what comes then. -/
theorem lexemes_beforeText_iff (hwf : ∀ t ∈ i.tokens, t.Wf) (r : Text) :
    lexemes (i.beforeText ++ r) = .ok (i.tokens.map Token.chars) ↔
      (∀ p ∈ i.before, p.1.chars ≠ []) ∧
        lexemes r = .ok (i.last.chars :: i.next.chars :: i.after.map fun p => p.2.chars) := by
  obtain ⟨hbefore, -⟩ := forall_tokens.1 hwf
  rw [map_chars_tokens]
  exact lexemes_before_iff hbefore i.space_lead i.space_before i.apart_before r

/-- **Without the comment**, the lexemes are what is written unless there is an empty string. -/
theorem exact_iff (hwf : ∀ t ∈ i.tokens, t.Wf) : i.Exact ↔ ∀ t ∈ i.tokens, t.chars ≠ [] := by
  obtain ⟨-, hlast, -⟩ := forall_tokens.1 hwf
  have hgap : ∀ c ∈ i.pre ++ i.post, isspace c = true :=
    List.forall_mem_append.2 ⟨i.space_pre, i.space_post⟩
  have hends : Ends (i.pre ++ i.post ++ i.afterText) :=
    (ends_of_space hgap).append fun h => absurd h (i.apart _ List.mem_cons_self)
  rw [Exact, file, List.append_assoc, lexemes_beforeText_iff hwf, forall_tokens,
    lexemes_render_iff hlast hends, lexemes_space hgap, lexemes_afterText_iff hwf]

theorem commented_iff (hwf : ∀ t ∈ i.tokens, t.Wf) (hne : ∀ t ∈ i.tokens, t.chars ≠ []) :
    lexemes i.commented = .ok (i.tokens.map Token.chars) ↔
      lexemes (i.last.render ++ (i.pre ++ comment i.body ++ i.post ++ i.afterText)) =
        .ok (i.last.chars :: i.next.chars :: i.after.map fun p => p.2.chars) := by
  rw [commented, List.append_assoc, lexemes_beforeText_iff hwf,
    and_iff_right (forall_tokens.1 hne).1]

theorem letters_afterText (i : Insertion) :
    letters i.afterText =
      ((i.next.chars :: i.after.map fun p => p.2.chars).map letters).sum := by
  rw [afterText, letters_append, letters_append, letters_render, letters_after i.space_after,
    letters_eq_zero i.space_trail]
  simp

/-- **A comment behind whitespace** is skipped if and only if there is whitespace in it, behind a
first word that is not too long. -/
theorem commented_spaced_iff (hwf : ∀ t ∈ i.tokens, t.Wf) (hne : ∀ t ∈ i.tokens, t.chars ≠ [])
    (hpre : i.pre ≠ []) :
    lexemes i.commented = .ok (i.tokens.map Token.chars) ↔
      (∃ c ∈ i.body, isspace c = true) ∧ (wordOf i.body).length + 2 < strSize - 1 := by
  obtain ⟨-, hlast, -⟩ := forall_tokens.1 hwf
  obtain ⟨-, hlastne, hrestne⟩ := forall_tokens.1 hne
  have hends : Ends (i.pre ++ (comment i.body ++ (i.post ++ i.afterText))) :=
    (ends_of_space i.space_pre).append fun h => absurd h hpre
  have hbehind : lexemes (i.post ++ i.afterText) =
      .ok (i.next.chars :: i.after.map fun p => p.2.chars) := by
    rw [lexemes_space i.space_post]
    exact (lexemes_afterText_iff hwf).2 hrestne
  rw [commented_iff hwf hne, List.append_assoc, List.append_assoc, lexemes_render_iff hlast hends,
    and_iff_right hlastne, lexemes_space i.space_pre]
  constructor
  · intro h
    by_cases hspace : ∃ c ∈ i.body, isspace c = true
    · refine ⟨hspace, Classical.byContradiction fun hlong => ?_⟩
      obtain ⟨hword, -⟩ := word_append hspace (closing ++ (i.post ++ i.afterText))
      have hfound := nextWord_comment (i.body ++ (closing ++ (i.post ++ i.afterText)))
      rw [hword, if_neg hlong] at hfound
      rw [comment, List.append_assoc, List.append_assoc, lexemes_eq, nextLexeme_eq, hfound] at h
      cases h
    · -- The lexemes have all the characters of the text behind the comment, so none can be lost.
      have hlost := lexemes_swallowed (by simpa using hspace) h
      rw [letters_append, letters_eq_zero i.space_post, letters_afterText] at hlost
      omega
  · rintro ⟨hspace, hshort⟩
    rw [lexemes_eq, nextLexeme_comment hspace hshort i.isBody, ← lexemes_eq]
    exact hbehind

end Insertion

/-- **Comments and strings.**  If strings are not empty, short and do not look like a comment, and
there is whitespace before and in the comment, then every lexeme is returned as it is written and
the comment changes nothing.  And only then, but for a comment directly behind a string when the
next lexeme starts with the asterisk that is left of the comment. -/
theorem comments_iff (i : Insertion) :
    (i.Readable → i.Exact ∧ i.Unchanged) ∧
      (i.Exact ∧ i.Unchanged → i.Readable ∨ i.Asterisk) := by
  constructor
  · intro h
    have hexact := (Insertion.exact_iff h.wf).2 h.ne_nil
    have hcommented := (Insertion.commented_spaced_iff h.wf h.ne_nil h.behindSpace).2
      ⟨h.hasSpace, h.short⟩
    exact ⟨hexact, hcommented.trans hexact.symm⟩
  · rintro ⟨hexact, hunchanged⟩
    have hwf := Insertion.wf_of_exact hexact
    have hne := (Insertion.exact_iff hwf).1 hexact
    have hcommented : lexemes i.commented = .ok (i.tokens.map Token.chars) :=
      hunchanged.trans hexact
    have hstrings : ∀ t ∈ i.tokens, t.quoted = true → t.chars ≠ [] ∧
        t.chars.length < strSize - 1 ∧ (∀ c ∈ t.chars, c ≠ 0) ∧ isComment t.chars = false :=
      fun t ht _ => ⟨hne t ht, (hwf t ht).short, (hwf t ht).nonzero, (hwf t ht).comment⟩
    by_cases hpre : i.pre = []
    · -- The comment follows a lexeme directly.
      obtain ⟨-, hlast, -⟩ := Insertion.forall_tokens.1 hwf
      rw [Insertion.commented_iff hwf hne, hpre, List.nil_append, comment, List.append_assoc,
        List.append_assoc, List.append_assoc] at hcommented
      cases hq : i.last.quoted with
      | true => exact .inr ⟨hpre, hq, lexemes_string_comment hlast hq hcommented⟩
      | false => exact absurd hcommented (lexemes_word_comment hlast hq _)
    · obtain ⟨hspace, hshort⟩ := (Insertion.commented_spaced_iff hwf hne hpre).1 hcommented
      exact .inl ⟨hstrings, hpre, hspace, hshort⟩

/-- `a b c` with the comment `text` between the first two words. -/
def wordComment : Insertion where
  lead := []
  before := []
  last := ⟨text "a", false⟩
  pre := text " "
  body := text "text"
  post := text " "
  next := ⟨text "b", false⟩
  after := [(text " ", ⟨text "c", false⟩)]
  trail := [newline]
  isLexeme := by
    have hword : ∀ t : Token, t.quoted = false → t.check = true → t.IsLexeme :=
      fun t hq ht => ⟨fun h => absurd (hq.symm.trans h) (by decide), fun _ => Token.wf_of_check ht⟩
    exact List.forall_mem_cons.2 ⟨hword _ rfl (by decide), List.forall_mem_cons.2
      ⟨hword _ rfl (by decide), List.forall_mem_singleton.2 (hword _ rfl (by decide))⟩⟩
  space := by decide
  apart := by decide
  isBody := by decide

/-- **A comment without whitespace** is not skipped: the rest of the file is taken for its text. -/
theorem comment_not_skipped : ¬(wordComment.Exact ∧ wordComment.Unchanged) := by
  rintro ⟨hexact, hunchanged⟩
  have hexit : lexemes wordComment.commented = .error .exit := by decide
  rw [Insertion.Exact, ← hunchanged, hexit] at hexact
  cases hexact

end Config
end Or1ksim
