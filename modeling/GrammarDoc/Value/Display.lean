import GrammarDoc.Grammar.Schema

/-!
# Displays of values

What an answer shows of a value. A rule is shown as the node of a document and a grammar as its
document; so what has no document is not shown, and neither is a value that stands inside of
itself.
-/

namespace GrammarDoc

/-- What is shown of a value. -/
inductive Display where
  | missing
  | bool (b : Bool)
  | int (i : Int)
  | double (text : String)
  | string (s : String)
  | list (items : List Display)
  | tuple (items : List Display)
  | mapping (entries : List (Display × Display))
  | pattern (source : String)
  | function (name : String)
  /-- A callable object without a name. -/
  | object
  | builder
  | references
  /-- A rule, by its node. -/
  | rule (node : Display)
  /-- A grammar, by the parts of its document. -/
  | grammar (parts : List (String × Display))
  /-- A node of a document. -/
  | node (fields : List (String × Display))

namespace Value

variable {Code : Type}

/-- The display of a callable. -/
def displayCallable (f : Callable (Value Code) Code) : Display :=
  match f.name with
  | some name => .function name
  | none => .object

/-- The parts of a grammar that an answer shows, from its name, its word and the other parts. -/
def displayParts (name word : Display) (parts : List (String × Display)) :
    List (String × Display) :=
  match word with
  | .missing => ("name", name) :: parts
  | word => ("name", name) :: ("word", word) :: parts

/-- The display of a node with a tag and fields. -/
def displayTagged (tag : Tag) (fields : List (String × Display)) : Display :=
  .node (("type", .string tag.title) :: fields)

mutual

/-- The display of a value. -/
def display : Value Code → Except Fault Display
  | missing => .ok .missing
  | bool b => .ok (.bool b)
  | int i => .ok (.int i)
  | double x => .ok (.double x.text)
  | string s => .ok (.string s)
  | list items => displayList items
  | tuple items => do return .tuple (← displayItems items)
  | mapping entries => displayMapping entries
  | pattern p => .ok (.pattern p.source)
  | callable f => .ok (displayCallable f)
  | builder _ => .ok .builder
  | rule r => do return .rule (← displayRule r)
  | grammar g => do return .grammar (← displayGrammar g)
  | references _ => .ok .references

/-- The display of a list. -/
def displayList : Items (Value Code) → Except Fault Display
  | ⟨_, _, true⟩ => .error .tooDeep
  | ⟨_, items, false⟩ => do return .list (← displayItems items)

/-- The displays of some values. -/
def displayItems : List (Value Code) → Except Fault (List Display)
  | [] => .ok []
  | v :: rest => do return (← display v) :: (← displayItems rest)

/-- The display of a mapping. -/
def displayMapping : Entries (Value Code) → Except Fault Display
  | ⟨_, _, true⟩ => .error .tooDeep
  | ⟨_, entries, false⟩ => do return .mapping (← displayEntries entries)

/-- The displays of some keys and their values. -/
def displayEntries : List (Value Code × Value Code) → Except Fault (List (Display × Display))
  | [] => .ok []
  | (key, v) :: rest => do return (← display key, ← display v) :: (← displayEntries rest)

/-- The displays of the keys of a mapping. -/
def displayKeys : List (Value Code × Value Code) → Except Fault (List Display)
  | [] => .ok []
  | (key, _) :: rest => do return (← display key) :: (← displayKeys rest)

/-- The node of a rule; a bare node has none. -/
def displayRule : Rule (Value Code) → Except Fault Display
  | .bare _ => .error .notImplemented
  | .string v => do return displayTagged .string [("value", ← display v)]
  | .pattern v => do return displayTagged .pattern [("value", ← display v)]
  | .blank => .ok (displayTagged .blank [])
  | .symbol v => do return displayTagged .symbol [("name", ← display v)]
  | .group kind members => do
    return displayTagged (.group kind) [("members", .list (← displayRules members))]
  | .wrap kind content => do
    return displayTagged (.wrap kind) [("content", ← displayRule content)]
  | .prec variant v content => do
    let content ← displayRule content
    return displayTagged (.prec variant) [("value", ← display v), ("content", content)]
  | .field v content => do
    let content ← displayRule content
    return displayTagged .field [("name", ← display v), ("content", content)]
  | .aliased content named v => do
    let content ← displayRule content
    return displayTagged .aliased
      [("content", content), ("named", .bool named), ("value", ← display v)]

/-- The nodes of some rules. -/
def displayRules : List (Rule (Value Code)) → Except Fault (List Display)
  | [] => .ok []
  | r :: rest => do return (← displayRule r) :: (← displayRules rest)

/-- The node of what stands for a rule. -/
def displayNode : Value Code → Except Fault Display
  | rule r => displayRule r
  | grammar g => do return .node (← displayGrammar g)
  | _ => .ok .missing

/-- The list of the nodes of what stands for rules in a list. -/
def displayNodes : Items (Value Code) → Except Fault Display
  | ⟨_, items, _⟩ => do return .list (← displayNodeItems items)

/-- The nodes of what stands for some rules. -/
def displayNodeItems : List (Value Code) → Except Fault (List Display)
  | [] => .ok []
  | v :: rest => do return (← displayNode v) :: (← displayNodeItems rest)

/-- The nodes of what stands for rules among the keys of a mapping. -/
def displayNodeKeys : List (Value Code × Value Code) → Except Fault (List Display)
  | [] => .ok []
  | (key, _) :: rest => do return (← displayNode key) :: (← displayNodeKeys rest)

/-- The names and nodes of what stands for the rules of a grammar. -/
def displayDefinitions : List (Value Code × Value Code) → Except Fault (List Display)
  | [] => .ok []
  | (name, v) :: rest => do
    return .list [← display name, ← displayNode v] :: (← displayDefinitions rest)

/-- The list of nodes of a group of precedences. -/
def displayGroup : Value Code → Except Fault Display
  | list items => displayNodes items
  | tuple items => do return .list (← displayNodeItems items)
  | mapping ⟨_, entries, _⟩ => do return .list (← displayNodeKeys entries)
  | _ => .ok (.list [])

/-- The lists of nodes of some groups of precedences. -/
def displayGroups : List (Value Code) → Except Fault (List Display)
  | [] => .ok []
  | v :: rest => do return (← displayGroup v) :: (← displayGroups rest)

/-- The list of the elements of a group of conflicts. -/
def displayConflict : Value Code → Except Fault Display
  | list items => displayList items
  | tuple items => do return .list (← displayItems items)
  | mapping ⟨_, entries, _⟩ => do return .list (← displayKeys entries)
  | string s => .ok (.list (s.toList.map fun c ↦ .string (String.ofList [c])))
  | references ⟨_, _, _, ⟨_, entries, _⟩⟩ => do return .list (← displayKeys entries)
  | _ => .ok (.list [])

/-- The lists of the elements of some groups of conflicts. -/
def displayConflicts : List (Value Code) → Except Fault (List Display)
  | [] => .ok []
  | v :: rest => do return (← displayConflict v) :: (← displayConflicts rest)

/-- The parts of the document of a grammar, which has to be such that there is one. -/
def displayGrammar : Grammar (Value Code) → Except Fault (List (String × Display))
  | ⟨place, name, rules, extras, externals, inline, conflicts, word, supertypes, precedences,
      again⟩ => do
    let _ ← grammarToSchema place ⟨place, name, rules, extras, externals, inline, conflicts, word,
      supertypes, precedences, again⟩
    let name ← display name
    let word ← display word
    return displayParts name word [
      ("rules", .list (← displayDefinitions rules.toList)),
      ("extras", ← displayNodes extras),
      ("precedences", .list (← displayGroups precedences.toList)),
      ("conflicts", .list (← displayConflicts conflicts.toList)),
      ("externals", ← displayNodes externals),
      ("inline", ← displayList inline),
      ("supertypes", ← displayList supertypes)]

end

end Value

end GrammarDoc
