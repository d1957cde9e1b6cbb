import GrammarDoc.Rule.Schema
import GrammarDoc.Value.Access

/-!
# The schema of grammar documents

How a document represents a grammar: as a mapping with a fixed order of keys when written. When it
is read, only the name and the rules have to be there. A grammar has a document only if all that
stands for a rule in it has one. Models `Grammar.to_json` and `Grammar.from_json`.
-/

namespace GrammarDoc

variable {Code : Type}

namespace Grammar

/-- The items of each value, as lists that are made at the items of a place. -/
def listsOfEach (place : Place) : List (Value Code) → Except Fault (List (Value Code)) :=
  fun values ↦ values.zipIdx.mapM fun (v, i) ↦ do
    return .list { place := place.item i, toList := ← v.elements }

/-- The entries of the document of a grammar, from its name, its word and its other parts in the
order in which they are written. -/
def documentEntries (name word : Value Code) (parts : List (String × Value Code)) :
    List (Value Code × Value Code) :=
  let word := match word with
    | .missing => []
    | name => [("word", name)]
  ((("name", name) :: word) ++ parts).map fun (key, v) ↦ (.string key, v)

end Grammar

namespace Value

mutual

/-- The node or document, made at a place, that a rule or a grammar is written as. -/
def toSchema (place : Place) : Value Code → Except Fault (Value Code)
  | rule r => r.toSchema place
  | grammar g => grammarToSchema place g
  | references r => if r.has "to_json" then .ok .missing else .error .missingAttribute
  | builder _ => .error .wrongType
  | _ => .error .missingAttribute

/-- The nodes, made at the items of a place from a position on, that some values are written as. -/
def toSchemas (place : Place) (index : Nat) :
    List (Value Code) → Except Fault (List (Value Code))
  | [] => .ok []
  | v :: rest => do
    return (← toSchema (place.item index) v) :: (← toSchemas place (index + 1) rest)

/-- The list, made at a place, of the nodes that the items of a list are written as. -/
def listToSchema (place : Place) : Items (Value Code) → Except Fault (Value Code)
  | ⟨_, items, _⟩ => do return .list { place, toList := ← toSchemas place 0 items }

/-- The nodes that the keys of a mapping are written as. -/
def keysToSchema (place : Place) (index : Nat) :
    List (Value Code × Value Code) → Except Fault (List (Value Code))
  | [] => .ok []
  | (key, _) :: rest => do
    return (← toSchema (place.item index) key) :: (← keysToSchema place (index + 1) rest)

/-- The mapping, made at a place, of keys to the nodes that their values are written as. -/
def mappingToSchema (place : Place) : Entries (Value Code) → Except Fault (Value Code)
  | ⟨_, entries, _⟩ => do
    return .mapping { place, toList := ← entriesToSchema place 0 entries }

/-- The keys of a mapping with the nodes that their values are written as. -/
def entriesToSchema (place : Place) (index : Nat) :
    List (Value Code × Value Code) → Except Fault (List (Value Code × Value Code))
  | [] => .ok []
  | (key, v) :: rest => do
    return (key, ← toSchema (place.item index) v) :: (← entriesToSchema place (index + 1) rest)

/-- The list, made at a place, of the nodes that the elements of a value are written as. -/
def groupToSchema (place : Place) : Value Code → Except Fault (Value Code)
  | list items => listToSchema place items
  | tuple items => do return .list { place, toList := ← toSchemas place 0 items }
  | mapping ⟨_, entries, _⟩ => do
    return .list { place, toList := ← keysToSchema place 0 entries }
  | v => do
    match ← v.elements with
    | [] => return .list { place, toList := [] }
    | element :: _ => throw (element.noMethod "to_json")

/-- The lists of nodes that the elements of some values are written as. -/
def groupsToSchema (place : Place) (index : Nat) :
    List (Value Code) → Except Fault (List (Value Code))
  | [] => .ok []
  | v :: rest => do
    return (← groupToSchema (place.item index) v) :: (← groupsToSchema place (index + 1) rest)

/-- The list, made at a place, of the lists of nodes that the items of a list are written as. -/
def listOfGroupsToSchema (place : Place) : Items (Value Code) → Except Fault (Value Code)
  | ⟨_, items, _⟩ => do return .list { place, toList := ← groupsToSchema place 0 items }

/-- The document, made at a place, that a grammar is written as. Models `Grammar.to_json`. -/
def grammarToSchema (place : Place) : Grammar (Value Code) → Except Fault (Value Code)
  | ⟨_, name, rules, extras, externals, inline, conflicts, word, supertypes, precedences,
      again⟩ => do
    if again then throw .tooDeep
    let rules ← mappingToSchema (place.part "rules") rules
    let extras ← listToSchema (place.part "extras") extras
    let precedences ← listOfGroupsToSchema (place.part "precedences") precedences
    let conflicts ← Grammar.listsOfEach (place.part "conflicts") conflicts.toList
    let externals ← listToSchema (place.part "externals") externals
    let entries := Grammar.documentEntries name word [
      ("rules", rules),
      ("extras", extras),
      ("precedences", precedences),
      ("conflicts", .list { place := place.part "conflicts", toList := conflicts }),
      ("externals", externals),
      ("inline", .list { place := place.part "inline", toList := inline.toList }),
      ("supertypes", .list { place := place.part "supertypes", toList := supertypes.toList })]
    return .mapping { place, toList := entries }

end

end Value

namespace Grammar

/-- The document, made at a place, that a grammar is written as. -/
def toSchema (place : Place) (g : Grammar (Value Code)) : Except Fault (Value Code) :=
  Value.grammarToSchema place g

/-- The definitions that the entries of a document represent. -/
def definitionsOfSchema :
    List (Value Code × Value Code) → Outcome Code (List (Value Code × Value Code))
  | [] => return []
  | (name, v) :: rest => do
    return (name, .rule (← Rule.ofSchema v)) :: (← definitionsOfSchema rest)

/-- The elements of what a document has under a key; none if there is no such key. -/
def elementsUnder (entries : List (Value Code × Value Code)) (key : String) :
    Outcome Code (List (Value Code)) :=
  match Table.find? entries (.string key) with
  | none => return []
  | some v => Outcome.ofFault v.elements

/-- The rules that some nodes represent, as values. -/
def rulesOf (nodes : List (Value Code)) : Outcome Code (List (Value Code)) := do
  return (← Rule.ofSchemas nodes).map .rule

/-- The rules that the elements of each value represent, as lists that are made at the items of a
place. -/
def rulesOfEach (place : Place) (values : List (Value Code)) : Outcome Code (List (Value Code)) :=
  values.zipIdx.mapM fun (v, i) ↦ do
    return .list {
      place := place.item i
      toList := ← rulesOf (← Outcome.ofFault v.elements) }

/-- The grammar, made at a place, that the entries of a document represent. -/
def ofEntries (place : Place) (entries : List (Value Code × Value Code)) :
    Outcome Code (Grammar (Value Code)) := do
  let made (title : String) (items : List (Value Code)) : Items (Value Code) :=
    { place := place.part title, toList := items }
  let name ← Outcome.ofOption .missingKey (Table.find? entries (.string "name"))
  let rules ← match ← Outcome.ofOption .missingKey (Table.find? entries (.string "rules")) with
    | .mapping definitions => definitionsOfSchema definitions.toList
    | v => throw (.fault (v.noMethod "items"))
  let extras ← rulesOf (← elementsUnder entries "extras")
  let externals ← rulesOf (← elementsUnder entries "externals")
  let inline ← elementsUnder entries "inline"
  let conflicts ← Outcome.ofFault
    (listsOfEach (place.part "conflicts") (← elementsUnder entries "conflicts"))
  let supertypes ← elementsUnder entries "supertypes"
  let precedences ← rulesOfEach (place.part "precedences") (← elementsUnder entries "precedences")
  return {
    place, name
    rules := { place := place.part "rules", toList := rules }
    extras := made "extras" extras
    externals := made "externals" externals
    inline := made "inline" inline
    conflicts := made "conflicts" conflicts
    word := .ofOption (Table.find? entries (.string "word"))
    supertypes := made "supertypes" supertypes
    precedences := made "precedences" precedences }

/-- The grammar, made at a place, that a document represents. Builders and references stand in for
no mapping. Models `Grammar.from_json`. -/
def ofSchema (place : Place) : Value Code → Outcome Code (Grammar (Value Code))
  | .mapping entries => ofEntries place entries.toList
  | .builder _ => throw (.fault .missingAttribute)
  | .references r =>
    if r.has "name" && r.has "rules" then throw (.fault .missingAttribute)
    else throw (.fault .missingKey)
  | _ => throw (.fault .wrongType)

end Grammar

end GrammarDoc
