import GrammarDoc.Build.Checks
import GrammarDoc.Build.Guard

/-!
# Precedences

Ordered groups of literal strings and symbols. Messages give the position of an entry in the
description, whatever has been dropped before it. Models `validate_precedences`.
-/

namespace GrammarDoc.Precedences

variable {Code : Type}

/-- An entry of a group: a literal string or a symbol. A symbol is kept even if it is not
declared. -/
def fromItem (group entry : Nat) (raw : Value Code) : Build Code (Option (Rule (Value Code))) := do
  match ← Build.normalize "precedences" raw with
  | none => return none
  | some (.symbol name) =>
    discard (Build.requireDeclared "precedences" none name)
    return some (.symbol name)
  | some (.string v) => return some (.string v)
  | some r =>
    Build.reportIn (some "precedences") (.notAPrecedenceEntry group entry r raw)
    return none

/-- A group, which may be left empty. -/
def fromGroup (index : Nat) (group : Value Code) :
    Build Code (Option (List (Rule (Value Code)))) := do
  match group.array? with
  | none =>
    Build.reportIn (some "precedences") (.precedenceGroupNotAnArray index group)
    return none
  | some items => return some (← Build.filterMapIdx (fromItem index) items)

/-- The precedences section. Models `validate_precedences`. -/
def validate : Value Code → Build Code (List (List (Rule (Value Code)))) :=
  guarded pure [⟨.present, []⟩, ⟨.array "precedences", []⟩] fun v ↦
    Build.filterMapIdx fromGroup (v.array?.getD [])

end GrammarDoc.Precedences
