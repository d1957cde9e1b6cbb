import GrammarDoc.Build.Guard
import GrammarDoc.Build.Setting
import GrammarDoc.Rule.Symbols

/-!
# Rules

Each rule is given by a function. All names are declared before any function is called, so that
rules may refer to rules defined after them, and all functions are called before any reference is
looked up. Models `rules_validator`.
-/

namespace GrammarDoc.Rules

variable {Code : Type}

/-- The rules that a grammar has by name. What a base has may be no rule, since nothing keeps it
from being changed. -/
abbrev Definitions (Code : Type) := Table Code (Value Code)

/-- Declares the names of inherited rules. -/
def inherit (inherited : Definitions Code) : Build Code Unit :=
  inherited.keys.forM fun name ↦ discard (Build.declare name "rule" (some "rules"))

/-- Checks that an entry has a proper name and a function, and declares the name if it is new. -/
def declareEntry (inherited : Definitions Code) (entry : Value Code × Value Code) :
    Build Code (Option (Value Code × Callable (Value Code) Code)) := do
  let (name, v) := entry
  if ← Build.requireValidName "rules" none name then
    match v.callable? with
    | none =>
      Build.reportIn (some "rules") (.notARuleFunction name v)
      return none
    | some f =>
      if !inherited.has name then
        discard (Build.declare name "rule" (some "rules"))
      return some (name, f)
  else return none

/-- Calls the function of a rule, with the inherited rule of that name, for the rule. -/
def define (setting : Setting Code) (inherited : Definitions Code)
    (entry : Value Code × Callable (Value Code) Code) :
    Build Code (Option (Value Code × Rule (Value Code))) := do
  let (name, f) := entry
  let place := (setting.made "call" "rules").part name.shown
  let previous := Value.ofOption (inherited.find? name)
  match ← Build.absorb "rules" (setting.call place f previous) with
  | none => return none
  | some raw =>
    return (← Build.normalize "rules" (← Build.present raw)).map fun r ↦ (name, r)

/-- The names that some definitions refer to, each once. Models `collect_symbols` over all rules. -/
def symbols (definitions : List (Value Code)) : Except Fault (List (Value Code)) :=
  definitions.foldlM (fun found v ↦ match v with
    | .rule r => .ok (r.addSymbols found)
    | v => .error (v.noMethod "iter_children")) []

/-- Checks that all names that are referred to are declared. Models the end of `rules_validator`. -/
def resolve (definitions : Definitions Code) : Build Code Unit := do
  let rules ← definitions.mapM fun (_, v) ↦ Build.present v
  let names ← Build.ofOutcome (Outcome.ofFault (symbols rules))
  names.forM fun name ↦ discard (Build.requireDeclared "rules" none name)

/-- The rules of a grammar: the inherited ones, in place of which or after which stand the new. -/
def fromEntries (setting : Setting Code) (inherited : Definitions Code) (v : Value Code)
    (entries : List (Value Code × Value Code)) : Build Code (Definitions Code) := do
  inherit inherited
  let functions ← Build.filterMap (declareEntry inherited) entries
  let defined ← Build.filterMap (define setting inherited) functions
  let definitions := defined.foldl (fun table (name, r) ↦ table.insert name (.rule r)) inherited
  if definitions.isEmpty then
    Build.reportIn (some "rules") (.noRules v)
  resolve definitions
  return definitions

/-- The rules section, which has to be a mapping. Models `rules_validator`. -/
def validate (setting : Setting Code) (inherited : Definitions Code) :
    Value Code → Build Code (Definitions Code) :=
  guarded pure [⟨.object "rules", []⟩] fun v ↦
    fromEntries setting inherited v (v.object?.getD [])

end GrammarDoc.Rules
