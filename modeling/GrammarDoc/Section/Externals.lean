import GrammarDoc.Build.Checks
import GrammarDoc.Build.Guard

/-!
# Externals

The tokens that an external scanner produces. They are given as a list of rules, of which the
symbols declare their names, or as a mapping from names, which are all declared. Models
`validate_external_list` and `validate_external_mapping`.
-/

namespace GrammarDoc.Externals

variable {Code : Type}

/-- An entry of a list of externals. A symbol without a proper name is dropped. -/
def fromItem (raw : Value Code) : Build Code (Option (Rule (Value Code))) := do
  match ← Build.normalize "externals" raw with
  | none => return none
  | some (.symbol name) =>
    if ← Build.requireValidName "externals" none name then
      discard (Build.declare name "externals" none)
      return some (.symbol name)
    else return none
  | some r => return some r

/-- Whether a rule is a symbol of another name. -/
def misnamed? (key : Value Code) : Rule (Value Code) → Option (Value Code)
  | .symbol name => if key.same name then none else some name
  | _ => none

/-- An entry of a mapping of externals. A symbol of another name is dropped. -/
def fromEntry (entry : Value Code × Value Code) : Build Code (Option (Rule (Value Code))) := do
  let (key, raw) := entry
  if ← Build.requireValidName "externals" none key then
    match ← Build.normalize "externals" raw with
    | none => return none
    | some r =>
      match misnamed? key r with
      | some name =>
        Build.reportIn (some "externals") (.misnamedExternal key name raw)
        return none
      | none =>
        discard (Build.declare key "externals" none)
        return some r
  else return none

/-- Externals given as a list. Models `validate_external_list`. -/
def fromList (items : List (Value Code)) : Build Code (List (Rule (Value Code))) :=
  Build.filterMap fromItem items

/-- Externals given as a mapping. Models `validate_external_mapping`. -/
def fromMapping : Value Code → Build Code (List (Rule (Value Code))) :=
  guarded pure [⟨.present, []⟩, ⟨.object "externals", []⟩] fun v ↦
    Build.filterMap fromEntry (v.object?.getD [])

/-- Externals given in either form. -/
def validate (v : Value Code) : Build Code (List (Rule (Value Code))) :=
  match v.array? with
  | some items => fromList items
  | none => fromMapping v

/-- Declares inherited externals again; they are not checked otherwise. Models the first
branch of `GrammarAssembler._externals`. -/
def inherit (inherited : List (Value Code)) : Build Code Unit :=
  (inherited.filterMap Value.symbolName?).forM fun name ↦
    discard (Build.declare name "externals" none)

end GrammarDoc.Externals
