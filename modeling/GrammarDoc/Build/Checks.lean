import GrammarDoc.Build.Journal
import GrammarDoc.Rule.Combinators

/-!
# Checks

The checks that all sections share. Each says whether it holds, and reports a problem if not. The
context of a check is part of its message; the problem is attributed to a section, by default to the
one that the context names. Models `require_valid_name`, `require_declared`, `require_not_declared`,
`declare` and `normalizable`.
-/

namespace GrammarDoc

variable {Code : Type}

/-- The section that a problem is attributed to: the one given, unless it is empty. -/
def attribution (context : String) (within : Option String) : Option String :=
  match within with
  | some title => if title == "" then some context else some title
  | none => some context

namespace Build

/-- Reports a problem with a cause, in a section. -/
def reportIn (within : Option String) (cause : Cause Code) : Build Code Unit :=
  report ⟨cause, within⟩

/-- Looks a name up in the namespace. Values that contain lists or mappings cannot be looked up. -/
def lookup (name : Value Code) : Build Code (Option String) := do
  if name.canBeKey then return (← get).names.find? name
  else throw (.fault .wrongType)

/-- Checks that a name has the form of one. Models `require_valid_name`. -/
def requireValidName (context : String) (within : Option String) (name : Value Code) :
    Build Code Bool := do
  if name.isValidName then return true
  reportIn (attribution context within) (.malformedName context name)
  return false

/-- Checks that a name is declared. Models `require_declared`. -/
def requireDeclared (context : String) (within : Option String) (name : Value Code) :
    Build Code Bool := do
  if (← lookup name).isSome then return true
  reportIn (attribution context within) (.undeclared context name)
  return false

/-- Checks that a name is not declared yet. Models `require_not_declared`. -/
def requireNotDeclared (context : String) (within : Option String) (name : Value Code) :
    Build Code Bool := do
  match ← lookup name with
  | none => return true
  | some first =>
    reportIn (attribution context within) (.declaredTwice context name first)
    return false

/-- Declares a name under a tag, unless it is declared already. Says whether it did. Models
`declare`. -/
def declare (name : Value Code) (tag : String) (within : Option String) : Build Code Bool := do
  if ← requireNotDeclared tag within name then
    modify fun journal ↦ { journal with names := journal.names ++ [(name, tag)] }
    return true
  else return false

/-- The rule that a value stands for, if it stands for one. Models `normalizable`. -/
def normalize (context : String) (raw : Value Code) : Build Code (Option (Rule (Value Code))) := do
  match raw.toRule with
  | .ok r => return some r
  | .error cause =>
    report (Problem.attributedTo ⟨cause, none⟩ context)
    return none

end Build

end GrammarDoc
