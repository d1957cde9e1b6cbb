import GrammarDoc.Value.Elements

/-!
# Names of a grammar

The names that a grammar defines, and the functions that refer to them. A function for a rule either
stands for the rule's name, or takes nothing and returns the rule. Models `Grammar.names`,
`from_grammar` and the lookups of `GrammarReferences`.
-/

namespace GrammarDoc

variable {Code : Type}

namespace Grammar

/-- The names of the external symbols, in order. -/
def externalNames (g : Grammar (Value Code)) : List (Value Code) :=
  g.externals.toList.filterMap Value.symbolName?

/-- The names of all rules and external symbols, each once. Models `Grammar.names`. -/
def names (g : Grammar (Value Code)) : List (Value Code) :=
  g.externalNames.foldl (fun found name ↦ if name.isIn found then found else found ++ [name])
    (Table.keys g.rules.toList)

end Grammar

namespace References

/-- Texts from values that have to be strings, each with what comes with it. -/
def texts {β : Type} : List (Value Code × β) → Except Fault (List (String × β))
  | [] => .ok []
  | (.string s, b) :: rest => do return (s, b) :: (← texts rest)
  | _ :: _ => .error .wrongType

/-- References to the rules and to the externals with some names. -/
def ofNames (place : Place) (rules : List (String × Value Code)) (externals : List String) :
    References (Value Code) :=
  let ruleNames := rules.map (·.1)
  let symbols := externals.eraseDups
  let all := ruleNames ++ symbols.filter fun name ↦ !ruleNames.contains name
  let definition (name : String) (v : Value Code) : Value Code :=
    .callable (.constant ((place.part "definition").part name) name v)
  let reference (name : String) : Value Code :=
    .callable (.doNothing ((place.part "reference").part name) name)
  { place
    rules := ⟨place.part "rules",
      rules.map fun (name, v) ↦ (.string name, definition name v), false⟩
    externals := ⟨place.part "externals",
      symbols.map fun name ↦ (.string name, .symbol (.string name)), false⟩
    functions := ⟨place.part "functions",
      all.map fun name ↦ (.string name, reference name), false⟩ }

/-- References to rules by their names, and to the symbols among some externals. All names have to
be strings. -/
def ofParts (place : Place) (rules : List (Value Code × Value Code))
    (externals : List (Value Code)) : Except Fault (References (Value Code)) := do
  let rules ← texts rules
  let symbols ← texts ((externals.filterMap Value.symbolName?).map fun name ↦ (name, ()))
  return ofNames place rules (symbols.map (·.1))

/-- The references to a grammar. Models `from_grammar`. -/
def ofGrammar (place : Place) (g : Grammar (Value Code)) :
    Except Fault (References (Value Code)) :=
  ofParts place g.rules.toList g.externals.toList

variable (r : References (Value Code))

/-- The function that refers to a name, if the name is one that is referred to. Models
an item of `GrammarReferences`. -/
def item? (key : Value Code) : Except Fault (Value Code) :=
  if key.canBeKey then
    match Table.find? r.functions.toList key with
    | some f => .ok f
    | none => .error .missingKey
  else .error .wrongType

/-- The attribute of a name. Three attributes hide the names that are like them. Models
an attribute of `GrammarReferences`. -/
def attribute? (name : String) : Except Fault (Value Code) :=
  match name with
  | "rules" => .ok (.mapping r.rules)
  | "externals" => .ok (.mapping r.externals)
  | "_references" => .ok (.mapping r.functions)
  | _ =>
    match Table.find? r.functions.toList (.string name) with
    | some f => .ok f
    | none => .error .missingAttribute

/-- Whether a name is one that is referred to. Models membership in
`GrammarReferences`. -/
def has (name : String) : Bool := Table.has r.functions.toList (.string name)

end References

end GrammarDoc
