import Or1ksim.Config.Syntax

/-!
# The lexemes of a file

What `next_lexeme` returns until it returns `NULL`.

* `lexemes`, `lexemes_eq` — the sequence, and as a recursion;
* `nextLexeme_returns` — what is returned is short and no comment;
* `letters`, `lexemes_letters` — characters are lost but never gained.
-/

namespace Or1ksim
namespace Config

variable {f g r w ws : Text} {n m : ℕ} {c : Byte} {o : Option Text} {l : Text} {ls : List Text}

/-! ### The sequence of lexemes -/

/-- `next_lexeme` is called until it returns `NULL`. -/
def lexemesLoop : ℕ → Text → Except Halt (List Text)
  | 0, _ => .error .unfinished
  | n + 1, f =>
    (nextLexeme f).bind fun
      | (none, _) => .ok []
      | (some lexeme, f) => (lexemesLoop n f).map (lexeme :: ·)

/-- The lexemes of a file.  There are fewer of them than characters. -/
def lexemes (f : Text) : Except Halt (List Text) := lexemesLoop (f.length + 1) f

theorem lexemesLoop_stable (hn : f.length < n) (hm : f.length < m) :
    lexemesLoop n f = lexemesLoop m f := by
  induction n generalizing f m with
  | zero => exact absurd hn (Nat.not_lt_zero _)
  | succ n ih =>
    obtain ⟨m, rfl⟩ : ∃ k, m = k + 1 := ⟨m - 1, by omega⟩
    rw [lexemesLoop, lexemesLoop]
    cases hlex : nextLexeme f with
    | error e => rfl
    | ok p =>
      obtain ⟨_ | lexeme, r⟩ := p
      · rfl
      · have hlt := (nextLexeme_length hlex).2 (Option.some_ne_none lexeme)
        change (lexemesLoop n r).map _ = (lexemesLoop m r).map _
        exact congrArg _ (ih (by omega) (by omega))

theorem lexemes_eq (f : Text) :
    lexemes f = (nextLexeme f).bind fun
      | (none, _) => .ok []
      | (some lexeme, f) => (lexemes f).map (lexeme :: ·) := by
  rw [lexemes, lexemesLoop]
  cases hlex : nextLexeme f with
  | error e => rfl
  | ok p =>
    obtain ⟨_ | lexeme, r⟩ := p
    · rfl
    · have hlt := (nextLexeme_length hlex).2 (Option.some_ne_none lexeme)
      change (lexemesLoop f.length r).map _ = (lexemes r).map _
      rw [lexemes, lexemesLoop_stable (by omega) (Nat.lt_succ_self _)]

theorem lexemes_space (hws : ∀ c ∈ ws, isspace c = true) (f : Text) :
    lexemes (ws ++ f) = lexemes f := by
  rw [lexemes_eq, nextLexeme_space hws, ← lexemes_eq]

theorem lexemes_of_none (h : nextLexeme f = .ok (none, r)) : lexemes f = .ok [] := by
  rw [lexemes_eq, h]
  rfl

theorem lexemes_of_some (h : nextLexeme f = .ok (some l, r)) :
    lexemes f = (lexemes r).map (l :: ·) := by
  rw [lexemes_eq, h]
  rfl

theorem lexemes_eq_cons (h : lexemes f = .ok (l :: ls)) :
    ∃ r, nextLexeme f = .ok (some l, r) ∧ lexemes r = .ok ls := by
  rw [lexemes_eq] at h
  obtain ⟨⟨_ | lexeme, r⟩, hlex, hrest⟩ := Runs.bind_eq_ok_iff.1 h
  · cases hrest
  · obtain ⟨ls', hls, hcons⟩ := Runs.map_eq_ok_iff.1 hrest
    obtain ⟨rfl, rfl⟩ := List.cons_eq_cons.1 hcons
    exact ⟨r, hlex, hls⟩

/-! ### What is returned -/

theorem stringLoop_length_le {p : Text × Text} (hw : w.length ≤ strSize - 1)
    (h : stringLoop w f = .ok p) : p.1.length ≤ strSize - 1 := by
  fun_induction stringLoop w f with
  | case1 => cases h; exact hw
  | case2 => cases h
  | case3 => cases h; exact hw
  | case4 => cases h; exact hw
  | case5 w c f hlen hquote ih =>
    refine ih ?_ h
    rw [List.length_append, List.length_singleton]
    omega

theorem wordLoop_length_le (hw : w.length ≤ strSize - 1) (f : Text) :
    (wordLoop w f).1.length ≤ strSize - 1 := by
  fun_induction wordLoop w f with
  | case1 => exact hw
  | case2 => exact hw
  | case3 => exact hw
  | case4 w c f hlen hspace ih =>
    refine ih ?_
    rw [List.length_append, List.length_singleton]
    omega

theorem nextWord_short (h : nextWord f = .ok (some w, r)) : w.length < strSize - 1 := by
  unfold nextWord at h
  split at h
  · obtain ⟨-, hsome, -⟩ := endWord_eq_ok_iff.1 h
    cases hsome
  · split at h
    · obtain ⟨p, hp, hend⟩ := Runs.bind_eq_ok_iff.1 h
      obtain ⟨hne, hsome, -⟩ := endWord_eq_ok_iff.1 hend
      have hle := stringLoop_length_le (Nat.zero_le _) hp
      split_ifs at hsome
      cases hsome
      omega
    · next c g _ _ =>
      obtain ⟨hne, hsome, -⟩ := endWord_eq_ok_iff.1 h
      have hle : (wordLoop [] (c :: g)).1.length ≤ strSize - 1 :=
        wordLoop_length_le (Nat.zero_le _) _
      split_ifs at hsome
      cases hsome
      omega

theorem cstr_cstr (w : Text) : cstr (cstr w) = cstr w := by
  rw [cstr, cstr, List.takeWhile_takeWhile]
  simp only [bne_iff_ne, and_self, decide_not]
  rfl

/-- What is returned is short, ends where a C string ends, and is no comment. -/
theorem nextLexeme_returns (h : nextLexeme f = .ok (some l, r)) :
    l.length < strSize - 1 ∧ (∀ c ∈ l, c ≠ 0) ∧ isComment l = false := by
  rw [nextLexeme] at h
  generalize f.length + 1 = n at h
  induction n generalizing f with
  | zero => cases h
  | succ n ih =>
    obtain ⟨⟨_ | word, r'⟩, hword, hrest⟩ := Runs.bind_eq_ok_iff.1 h
    · cases hrest
    · dsimp only at hrest
      split_ifs at hrest with hcomment
      · obtain ⟨r'', -, hloop⟩ := Runs.bind_eq_ok_iff.1 hrest
        exact ih hloop
      · cases hrest
        refine ⟨Nat.lt_of_le_of_lt (List.takeWhile_sublist _).length_le (nextWord_short hword),
          fun c hc => ?_, ?_⟩
        · have hzero := List.mem_takeWhile_imp (p := fun d : Byte => d != 0) hc
          exact bne_iff_ne.1 hzero
        · rw [isComment, cstr_cstr, ← isComment]
          exact Bool.eq_false_iff.2 hcomment

theorem lexemes_returns (h : lexemes f = .ok ls) :
    ∀ l ∈ ls, l.length < strSize - 1 ∧ (∀ c ∈ l, c ≠ 0) ∧ isComment l = false := by
  induction ls generalizing f with
  | nil => exact List.forall_mem_nil _
  | cons l ls ih =>
    obtain ⟨r, hlex, hrest⟩ := lexemes_eq_cons h
    exact List.forall_mem_cons.2 ⟨nextLexeme_returns hlex, ih hrest⟩

/-! ### Characters -/

/-- The number of characters that are neither whitespace nor quotes. -/
def letters (f : Text) : ℕ := f.countP fun c => !isspace c && c != quote

theorem letters_append (f g : Text) : letters (f ++ g) = letters f + letters g := List.countP_append

theorem letters_cons_le (c : Byte) (f : Text) : letters f ≤ letters (c :: f) :=
  (List.sublist_cons_self c f).countP_le

theorem letters_eq_zero (hws : ∀ c ∈ ws, isspace c = true) : letters ws = 0 :=
  List.countP_eq_zero.2 fun c hc => by simp [hws c hc]

theorem letters_skipSpace (f : Text) : letters (skipSpace f) = letters f := by
  induction f with
  | nil => rfl
  | cons c f ih =>
    rw [skipSpace]
    split_ifs with hc
    · rw [ih, letters, letters, List.countP_cons_of_neg (by simp [hc])]
    · rfl

theorem stringLoop_letters {p : Text × Text} (h : stringLoop w f = .ok p) :
    letters p.1 + letters p.2 ≤ letters w + letters f := by
  fun_induction stringLoop w f with
  | case1 => cases h; exact Nat.le_refl _
  | case2 => cases h
  | case3 => cases h; exact Nat.le_refl _
  | case4 w c f => cases h; exact Nat.add_le_add_left (letters_cons_le _ _) _
  | case5 w c f hlen hquote ih =>
    refine Nat.le_trans (ih h) (Nat.le_of_eq ?_)
    rw [← letters_append, ← letters_append, List.append_assoc]
    rfl

theorem wordLoop_letters (w f : Text) :
    letters (wordLoop w f).1 + letters (wordLoop w f).2 = letters w + letters f := by
  fun_induction wordLoop w f with
  | case1 => rfl
  | case2 => rfl
  | case3 => rfl
  | case4 w c f hlen hspace ih =>
    rw [ih, ← letters_append, ← letters_append, List.append_assoc]
    rfl

theorem nextWord_letters (h : nextWord f = .ok (o, r)) :
    letters (o.getD []) + letters r ≤ letters f := by
  have hgetD : ∀ w : Text, letters ((if w.length = 0 then none else some w : Option Text).getD []) ≤
      letters w := by
    intro w
    split_ifs
    · exact Nat.zero_le _
    · exact Nat.le_refl _
  rw [← letters_skipSpace f]
  unfold nextWord at h
  split at h
  · obtain ⟨-, rfl, rfl⟩ := endWord_eq_ok_iff.1 h
    exact Nat.zero_le _
  · next c g hg =>
    rw [hg]
    split_ifs at h
    · obtain ⟨p, hp, hend⟩ := Runs.bind_eq_ok_iff.1 h
      obtain ⟨-, rfl, rfl⟩ := endWord_eq_ok_iff.1 hend
      have hsum := stringLoop_letters hp
      have htail : letters p.2.tail ≤ letters p.2 := (List.tail_sublist _).countP_le
      have hcons := letters_cons_le c g
      have hword := hgetD p.1
      have hnil : letters [] = 0 := rfl
      omega
    · obtain ⟨-, rfl, rfl⟩ := endWord_eq_ok_iff.1 h
      have hsum := wordLoop_letters [] (c :: g)
      have hword := hgetD (wordLoop [] (c :: g)).1
      have hnil : letters [] = 0 := rfl
      omega

/-- A comment takes the two characters that end it, if they are still to come. -/
theorem skipComment_letters {c₀ c₁ : Byte} (h : skipComment c₀ c₁ f = .ok r) :
    letters r + (if c₀ = 42 ∧ c₁ = 47 then 0 else if c₁ = 42 then 1 else 2) ≤ letters f := by
  fun_induction skipComment c₀ c₁ f with
  | case1 c₀ c₁ hend => cases h; rw [if_pos hend]; exact Nat.le_refl _
  | case2 => cases h
  | case3 c₀ c₁ c f hend => cases h; rw [if_pos hend]; exact Nat.le_refl _
  | case4 c₀ c₁ c f hopen ih =>
    have hle := ih h
    have hcons := letters_cons_le c f
    rw [if_neg hopen]
    split_ifs with hstar
    · -- The asterisk has been read; only the slash ends the comment.
      by_cases hslash : c = 47
      · subst hslash
        have hletter : letters (47 :: f) = letters f + 1 := List.countP_cons_of_pos (by decide)
        rw [if_pos ⟨hstar, rfl⟩] at hle
        omega
      · rw [if_neg fun h => hslash h.2] at hle
        split_ifs at hle <;> omega
    · rw [if_neg fun h => hstar h.1] at hle
      by_cases hc : c = 42
      · subst hc
        have hletter : letters (42 :: f) = letters f + 1 := List.countP_cons_of_pos (by decide)
        rw [if_pos rfl] at hle
        omega
      · rw [if_neg hc] at hle
        omega

theorem nextLexeme_letters (h : nextLexeme f = .ok (o, r)) :
    letters (o.getD []) + letters r ≤ letters f := by
  rw [nextLexeme] at h
  generalize f.length + 1 = n at h
  induction n generalizing f with
  | zero => cases h
  | succ n ih =>
    obtain ⟨⟨_ | word, r'⟩, hword, hrest⟩ := Runs.bind_eq_ok_iff.1 h
    · cases hrest
      exact nextWord_letters hword
    · have hle : letters word + letters r' ≤ letters f := nextWord_letters hword
      dsimp only at hrest
      split_ifs at hrest with hcomment
      · obtain ⟨r'', hskip, hloop⟩ := Runs.bind_eq_ok_iff.1 hrest
        have hskip := skipComment_letters hskip
        have hih := ih hloop
        omega
      · cases hrest
        have hcstr : letters (cstr word) ≤ letters word := (List.takeWhile_sublist _).countP_le
        change letters (cstr word) + letters r ≤ letters f
        omega

theorem lexemes_letters (h : lexemes f = .ok ls) : (ls.map letters).sum ≤ letters f := by
  induction ls generalizing f with
  | nil => exact Nat.zero_le _
  | cons l ls ih =>
    obtain ⟨r, hlex, hrest⟩ := lexemes_eq_cons h
    have hle : letters l + letters r ≤ letters f := nextLexeme_letters hlex
    have hih := ih hrest
    rw [List.map_cons, List.sum_cons]
    omega

end Config
end Or1ksim
