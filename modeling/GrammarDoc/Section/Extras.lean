import GrammarDoc.Build.Checks
import GrammarDoc.Build.Guard
import GrammarDoc.Rule.Symbols

/-!
# Extras

The rules that may stand between any two tokens; where none are given, any blank character. By
default an extra may not name what is declared. The other policy lets extras refer to rules, and all
that they refer to has to be declared. Models `extras_validator`.
-/

namespace GrammarDoc.Extras

variable {Code : Type}

/-- Any blank character. Models `WHITESPACE`. -/
def blankCharacter : Rule (Value Code) := .pattern (.string "\\s")

/-- Checks the names of an extra under a policy. -/
def checkNames (references : Bool) (r : Rule (Value Code)) : Build Code Unit := do
  if references then
    r.symbols.forM fun name ↦ discard (Build.requireDeclared "extras" none name)
  else
    match r.referencedName?.bind Value.toOption with
    | none => return ()
    | some name => discard (Build.requireNotDeclared "extras" none name)

/-- An entry of the extras. -/
def fromItem (references : Bool) (raw : Value Code) : Build Code (Option (Rule (Value Code))) := do
  match ← Build.normalize "extras" raw with
  | none => return none
  | some r =>
    checkNames references r
    return some r

/-- The extras section. Models `extras_validator`. -/
def validate (references : Bool) : Value Code → Build Code (List (Rule (Value Code))) :=
  guarded pure [⟨.present, [blankCharacter]⟩, ⟨.array "extras", []⟩] fun v ↦
    Build.filterMap (fromItem references) (v.array?.getD [])

end GrammarDoc.Extras
