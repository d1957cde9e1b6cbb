import GrammarDoc.Build.Call
import GrammarDoc.Build.Checks
import GrammarDoc.Section.Basic
import GrammarDoc.Value.Access

/-!
# The setting of a build

What a build is given beside the description: the grammar to extend, the policy on extras, the place
of the build, and an interpreter for the code of functions. Models the attributes of
`GrammarAssembler` and its `_evaluate`.
-/

namespace GrammarDoc

variable {Code : Type}

/-- The setting of a build. Models the parameters of `GrammarAssembler`. -/
structure Setting (Code : Type) where
  run : Interpreter Code
  /-- Where the build takes place. -/
  place : Place
  /-- The grammar that is extended, or `missing`. -/
  base : Value Code := .missing
  /-- Whether extras may refer to declared rules. -/
  extraReferences : Bool := false

namespace Build

/-- The result of a function of the description. If it raises a problem instead, this is reported,
in the section given unless the function named one. Models the handlers of `GrammarError` in
`_evaluate` and in `rules_validator`. -/
def absorb {α : Type} (title : String) (step : Exec Code α) : Build Code (Option α) := do
  match ← attempt step with
  | .ok a => return some a
  | .error (.problem p) =>
    report (p.attributedTo title)
    return none
  | .error (.fault f) => throw (.fault f)

/-- The elements of a value as it is at present. -/
def elements (v : Value Code) : Build Code (List (Value Code)) := do
  perform (Exec.ofFault (← present v).elements)

end Build

namespace Setting

variable (setting : Setting Code)

/-- Where a build makes what plays a role for a section. -/
def made (role title : String) : Place := (setting.place.part role).part title

/-- The builder that functions of the description are passed. Models `RuleBuilder`. -/
def builder : Value Code := .builder (setting.place.part "builder")

/-- Whether a grammar is extended. -/
def hasBase : Bool :=
  match setting.base with
  | .missing => false
  | _ => true

/-- What the base has for a section. -/
def ofBase (part : Section) : Build Code (Value Code) :=
  Build.perform (Exec.ofFault (setting.base.attribute? part.title))

/-- Calls a function of the description, as a step at a place, with the builder and what the base
has instead. -/
def call (place : Place) (f : Callable (Value Code) Code) (inherited : Value Code) :
    Exec Code (Value Code) :=
  f.offer setting.run place [setting.builder, inherited]

/-- The value of a section. A function that may take the builder is called for it; if it raises a
problem, the section keeps what the function was passed. Models `GrammarAssembler._evaluate`. -/
def evaluate (part : Section) (v inherited : Value Code) : Build Code (Value Code) := do
  match v.callable? with
  | none => return v
  | some f =>
    if f.takesArgument then
      let step := setting.call (setting.made "call" part.title) f inherited
      let result ← Build.absorb part.title step
      return result.getD inherited
    else return v

end Setting

end GrammarDoc
