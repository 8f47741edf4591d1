import Or1ksim.Memory.Simmem

/-!
# Reading a configuration file

`sim-config.c`: `read_script_file`, which reads a file lexeme by lexeme and calls what is registered
for its sections and their parameters.  A character that has been read and is still held in a
variable is kept at the head of the file here, so that `ungetc` puts it where it is.

* `nextWord`, `nextLexeme` — words, strings and comments;
* `skipLine` — the loop that skips to the end of the line;
* `iteration` — one round of the loop over the lexemes;
* `readScriptFile`.
-/

namespace Or1ksim
namespace Config

/-- Characters of a file, and C strings without their terminator. -/
abbrev Text := List Byte

/-- The characters of a string. -/
def text (s : String) : Text := s.toList.map fun c => BitVec.ofNat 8 c.toNat

/-- `'\n'` -/
def newline : Byte := 10

/-- `'"'` -/
def quote : Byte := 34

/-- `isspace`, in the C locale. -/
def isspace (c : Byte) : Bool := c == 32 || (9 ≤ c && c ≤ 13)

/-- `STR_SIZE` -/
def strSize : ℕ := 256

/-! ### Sections and parameters -/

/-- `enum param_t` -/
inductive ParamType where
  | none
  | int
  | longlong
  | addr
  | word
  | str
deriving DecidableEq, Repr

/-- `struct config_param`; its callback is named by the section and the parameter. -/
structure Param where
  name : Text
  type : ParamType
deriving DecidableEq

/-- `struct config_section` -/
structure Section where
  name : Text
  params : List Param
deriving DecidableEq

/-- What is called while a file is read. -/
inductive Event where
  /-- A section starts: its start function, if there is one, is called. -/
  | start (sec : Section)
  /-- The callback of a parameter, with the text of the value. -/
  | param (sec : Section) (param : Param) (value : Option Text)
  /-- A section ends. -/
  | finish (sec : Section)
deriving DecidableEq

/-- What is registered. -/
structure Registry where
  /-- `section_master_list` -/
  sections : List Section
  /-- The last of some calls returns; otherwise it exits. -/
  returns : List Event → Bool

/-- `lookup_section` -/
def lookupSection (reg : Registry) (name : Text) : Option Section :=
  reg.sections.find? fun sec => sec.name == name

/-- `lookup_param` -/
def lookupParam (name : Text) (sec : Section) : Option Param :=
  sec.params.find? fun param => param.name == name

/-! ### Words -/

/-- Why a function does not return. -/
inductive Halt where
  /-- The program exits. -/
  | exit
  /-- Its loops have not ended after so many rounds. -/
  | unfinished
deriving DecidableEq

/-- Whitespace is skipped. -/
def skipSpace : Text → Text
  | [] => []
  | c :: f => if isspace c then skipSpace f else c :: f

/-- The loop over the characters of a string, behind the opening quote. -/
def stringLoop (word : Text) : Text → Except Halt (Text × Text)
  | [] => if word.length = strSize - 1 then .ok (word, []) else .error .exit
  | c :: f =>
    if word.length = strSize - 1 then .ok (word, c :: f)
    else if c = quote then .ok (word, f)
    else stringLoop (word ++ [c]) f

/-- The loop over the characters of a word. -/
def wordLoop (word : Text) : Text → Text × Text
  | [] => (word, [])
  | c :: f =>
    if word.length = strSize - 1 then (word, c :: f)
    else if isspace c then (word, c :: f)
    else wordLoop (word ++ [c]) f

/-- The end of `next_word`: nothing is returned for an empty word. -/
def endWord (word rest : Text) : Except Halt (Option Text × Text) :=
  if word.length = strSize - 1 then .error .exit
  else .ok (if word.length = 0 then none else some word, rest)

/-- `next_word`.  After a string, one character more is read than the closing quote. -/
def nextWord (f : Text) : Except Halt (Option Text × Text) :=
  match skipSpace f with
  | [] => endWord [] []
  | c :: g =>
    if c = quote then (stringLoop [] g).bind fun r => endWord r.1 r.2.tail
    else endWord (wordLoop [] (c :: g)).1 (wordLoop [] (c :: g)).2

/-! ### Lexemes -/

/-- What `strcmp` sees of a word. -/
def cstr (word : Text) : Text := word.takeWhile fun c => c != 0

/-- A word starts a comment. -/
def isComment (word : Text) : Bool := (text "/*").isPrefixOf (cstr word)

/-- A comment is read to its end, the last two characters being known. -/
def skipComment (c₀ c₁ : Byte) : Text → Except Halt Text
  | [] => if c₀ = 42 ∧ c₁ = 47 then .ok [] else .error .exit
  | c :: f => if c₀ = 42 ∧ c₁ = 47 then .ok (c :: f) else skipComment c₁ c f

/-- The loop of `next_lexeme` over comments. -/
def nextLexemeLoop : ℕ → Text → Except Halt (Option Text × Text)
  | 0, _ => .error .unfinished
  | n + 1, f =>
    (nextWord f).bind fun
      | (none, f) => .ok (none, f)
      | (some word, f) =>
        if isComment word then (skipComment 0 0 f).bind (nextLexemeLoop n)
        else .ok (some (cstr word), f)

/-- `next_lexeme`.  There are fewer comments than characters. -/
def nextLexeme (f : Text) : Except Halt (Option Text × Text) := nextLexemeLoop (f.length + 1) f

/-! ### Skipping -/

/-- `while (( '\n' != fgetc (f)) || feof (f));`, for so many rounds.  The end of the file is read
again and again. -/
def skipLine : ℕ → Text → Except Halt Text
  | 0, _ => .error .unfinished
  | n + 1, [] => skipLine n []
  | n + 1, c :: f => if c = newline then .ok f else skipLine n f

/-- The loop that skips an unrecognized section: it leaves at a lexeme that is not `end`. -/
def skipSectionLoop : ℕ → Text → Except Halt Text
  | 0, _ => .error .unfinished
  | n + 1, f =>
    (nextLexeme f).bind fun
      | (none, f) => .ok f
      | (some lexeme, f) => if lexeme ≠ text "end" then .ok f else skipSectionLoop n f

/-- An unrecognized section is skipped.  There are fewer lexemes than characters. -/
def skipSection (f : Text) : Except Halt Text := skipSectionLoop (f.length + 1) f

/-! ### The file -/

/-- Where the loop over the lexemes is. -/
structure Parse where
  /-- What is left of the file. -/
  rest : Text
  /-- `cur_section`, if `in_section_p`. -/
  cur : Option Section
  /-- What has been called. -/
  called : List Event
deriving DecidableEq

/-- A function that reads the file is called. -/
def Parse.read {α : Type} (s : Parse) (x : Except Halt α) : Except (Halt × List Event) α :=
  x.mapError fun h => (h, s.called)

/-- A callback is called, and may exit. -/
def Parse.call (reg : Registry) (s : Parse) (e : Event) : Except (Halt × List Event) Parse :=
  if reg.returns (s.called ++ [e]) then .ok { s with called := s.called ++ [e] }
  else .error (.exit, s.called ++ [e])

/-- The rest of the line is skipped, and the loop goes on. -/
def Parse.skip (fuel : ℕ) (s : Parse) : Except (Halt × List Event) Parse :=
  (s.read (skipLine fuel s.rest)).map fun f => { s with rest := f }

/-- The lexeme was `section`. -/
def startSection (reg : Registry) (s : Parse) : Except (Halt × List Event) Parse :=
  (s.read (nextLexeme s.rest)).bind fun
    | (none, _) => .error (.exit, s.called)
    | (some name, f) =>
      match lookupSection reg name with
      | some sec => { s with rest := f, cur := some sec }.call reg (.start sec)
      | none => (s.read (skipSection f)).map fun f => { s with rest := f }

/-- The argument of a parameter, behind an optional `=`. -/
def readArgument (f : Text) : Except Halt (Option Text × Text) :=
  (nextLexeme f).bind fun
    | (none, f) => .ok (none, f)
    | (some lexeme, f) => if lexeme = text "=" then nextLexeme f else .ok (some lexeme, f)

/-- The lexeme is taken for a parameter of the section. -/
def setParam (reg : Registry) (fuel : ℕ) (s : Parse) (sec : Section) (lexeme : Text) :
    Except (Halt × List Event) Parse :=
  match lookupParam lexeme sec with
  | none => s.skip fuel
  | some param =>
    if param.type ≠ .none then
      (s.read (readArgument s.rest)).bind fun
        | (none, f) => { s with rest := f }.skip fuel
        | (some value, f) => { s with rest := f }.call reg (.param sec param (some value))
    else s.call reg (.param sec param none)

/-- One round of the loop over the lexemes; none is its end. -/
def iteration (reg : Registry) (fuel : ℕ) (s : Parse) :
    Except (Halt × List Event) (Option Parse) :=
  (s.read (nextLexeme s.rest)).bind fun
    | (none, _) => .ok none
    | (some lexeme, f) =>
      let s := { s with rest := f }
      Except.map some <|
        match s.cur with
        | none => if lexeme = text "section" then startSection reg s else s.skip fuel
        | some sec =>
          if lexeme = text "end" then { s with cur := none }.call reg (.finish sec)
          else setParam reg fuel s sec lexeme

/-- The loop over the lexemes: what has been called at the end of the file. -/
def readLoop (reg : Registry) : ℕ → Parse → Except (Halt × List Event) (List Event)
  | 0, s => .error (.unfinished, s.called)
  | n + 1, s =>
    (iteration reg n s).bind fun
      | none => .ok s.called
      | some t => readLoop reg n t

/-- `read_script_file`, of a file that is found, when its loops make so many rounds at most. -/
def readScriptFile (reg : Registry) (fuel : ℕ) (file : Text) :
    Except (Halt × List Event) (List Event) :=
  readLoop reg fuel ⟨file, none, []⟩

end Config
end Or1ksim
