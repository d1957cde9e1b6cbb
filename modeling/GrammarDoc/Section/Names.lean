import GrammarDoc.Build.Checks
import GrammarDoc.Build.Guard

/-!
# Sections of names

The sections whose entries are names of rules: the name of the grammar itself, names that are put in
place, conflicts, the word and supertypes. A name may be given as a string, by a symbol or by a
function of that name. Models `validate_name`, `validate_inline`, `validate_conflicts`,
`validate_word` and `validate_supertypes`.
-/

namespace GrammarDoc.Names

variable {Code : Type}

/-- What stands for the name of a grammar that has none of the right form. Models `INVALID_NAME`. -/
def invalidName : String := "INVALID"

/-- The name section. Models `validate_name`. -/
def validateName (v : Value Code) : Build Code (Value Code) := do
  if ← Build.requireValidName "grammar" (some "name") v then return v
  else return .string invalidName

/-- An entry of the names that are put in place. It is kept even if it is not declared. -/
def inlineName (entry : Value Code) : Build Code (Option (Value Code)) := do
  let name := entry.nameOf
  if ← Build.requireValidName "inline" none name then
    discard (Build.requireDeclared "inline" none name)
    return some name
  else return none

/-- The inline section. Models `validate_inline`. -/
def validateInline : Value Code → Build Code (List (Value Code)) :=
  guarded pure [⟨.present, []⟩, ⟨.array "inline", []⟩] fun v ↦
    Build.filterMap inlineName (v.array?.getD [])

/-- An entry of a conflict, which has to be declared. -/
def conflictName (entry : Value Code) : Build Code (Option (Value Code)) := do
  let name := entry.nameOf
  if ← Build.requireValidName "conflict" (some "conflicts") name then
    if ← Build.requireDeclared "conflict" (some "conflicts") name then return some name
    else return none
  else return none

/-- A conflict: at least two names have to be left. -/
def conflict (group : Value Code) : Build Code (Option (List (Value Code))) := do
  match group.array? with
  | none =>
    Build.reportIn (some "conflicts") (.conflictNotAnArray group)
    return none
  | some entries =>
    let names ← Build.filterMap conflictName entries
    if names.length < 2 then
      Build.reportIn (some "conflicts") (.shortConflict names group)
      return none
    else return some names

/-- The conflicts section. Models `validate_conflicts`. -/
def validateConflicts : Value Code → Build Code (List (List (Value Code))) :=
  guarded pure [⟨.present, []⟩, ⟨.array "conflicts", []⟩] fun v ↦
    Build.filterMap conflict (v.array?.getD [])

/-- The word section: a declared name, or nothing. Models `validate_word`. -/
def validateWord (v : Value Code) : Build Code (Value Code) := do
  match v with
  | .missing => return .missing
  | v =>
    let name := v.nameOf
    if ← Build.requireValidName "word" none name then
      if ← Build.requireDeclared "word" none name then return name
      else return .missing
    else return .missing

/-- Whether a value is an alias. -/
def isAlias : Value Code → Bool
  | .rule (.aliased _ _ _) => true
  | _ => false

/-- An entry of the supertypes, which may be no alias. It is kept even if it is not declared. -/
def supertype (entry : Value Code) : Build Code (Option (Value Code)) := do
  if isAlias entry then
    Build.reportIn (some "supertypes") (.aliasedSupertype entry)
    return none
  else
    let name := entry.nameOf
    if ← Build.requireValidName "supertypes" none name then
      discard (Build.requireDeclared "supertype" (some "supertypes") name)
      return some name
    else return none

/-- The supertypes section. Models `validate_supertypes`. -/
def validateSupertypes : Value Code → Build Code (List (Value Code)) :=
  guarded pure [⟨.present, []⟩, ⟨.array "supertypes", []⟩] fun v ↦
    Build.filterMap supertype (v.array?.getD [])

end GrammarDoc.Names
