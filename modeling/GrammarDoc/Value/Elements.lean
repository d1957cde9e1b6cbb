import GrammarDoc.Fault
import GrammarDoc.Value.Table

/-!
# Elements of values

What a value is made of when it is gone through item by item, and whether another value is in it.
-/

namespace GrammarDoc

variable {Code : Type}

/-- Every name that is referred to: those of the rules, then those that only externals have. Models
going through `GrammarReferences`. -/
def References.names (r : References (Value Code)) : List (Value Code) :=
  Table.keys r.functions.toList

namespace Value

/-- The characters of a text, each as a string. -/
def characters (s : String) : List (Value Code) :=
  s.toList.map fun c ↦ string (String.ofList [c])

/-- The items of an array, the keys of a mapping, the characters of a string and the names of
references. A builder gives a symbol for each number; of these the first is kept, since there is
no last. -/
def elements : Value Code → Except Fault (List (Value Code))
  | list items => .ok items.toList
  | tuple items => .ok items
  | mapping entries => .ok (Table.keys entries.toList)
  | string s => .ok (characters s)
  | references r => .ok r.names
  | builder _ => .ok [symbol (int 0)]
  | _ => .error .wrongType

/-- Whether a text stands somewhere in another. -/
def standsIn (s : List Char) : List Char → Bool
  | [] => s.isEmpty
  | c :: rest => s.isPrefixOf (c :: rest) || standsIn s rest

/-- Whether a value is among the items of an array, the keys of a mapping or the names of
references, or a text that stands in a string. -/
def contains? (v key : Value Code) : Except Fault Bool :=
  match v with
  | list items => .ok (key.isIn items.toList)
  | tuple items => .ok (key.isIn items)
  | mapping entries =>
    if key.canBeKey then .ok (Table.has entries.toList key) else .error .wrongType
  | references r => if key.canBeKey then .ok (key.isIn r.names) else .error .wrongType
  | string s =>
    match key with
    | string t => .ok (standsIn t.toList s.toList)
    | _ => .error .wrongType
  | _ => .error .wrongType

end Value

end GrammarDoc
