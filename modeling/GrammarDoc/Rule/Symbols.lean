import GrammarDoc.Value.Table

/-!
# Symbols of a rule

The names that a rule refers to, each once, in the order in which a walk from the top and from the
left first meets them. Alias values and field names are not among them. Models `collect_symbols`.
-/

namespace GrammarDoc.Rule

variable {Code : Type}

/-- Adds a name at the end, unless an equal one is there. -/
def addName (found : List (Value Code)) (name : Value Code) : List (Value Code) :=
  if name.isIn found then found else found ++ [name]

mutual

/-- Adds the names that a rule refers to. Models `collect_symbols` with a list to add to. -/
def addSymbols (found : List (Value Code)) : Rule (Value Code) → List (Value Code)
  | symbol name => addName found name
  | group _ members => addSymbolsOfAll found members
  | wrap _ content | prec _ _ content | field _ content | aliased content _ _ =>
    addSymbols found content
  | bare _ | string _ | pattern _ | blank => found

/-- Adds the names that some rules refer to. -/
def addSymbolsOfAll (found : List (Value Code)) : List (Rule (Value Code)) → List (Value Code)
  | [] => found
  | r :: rest => addSymbolsOfAll (addSymbols found r) rest

end

/-- The names that a rule refers to. Models `collect_symbols`. -/
def symbols (r : Rule (Value Code)) : List (Value Code) := addSymbols [] r

end GrammarDoc.Rule
