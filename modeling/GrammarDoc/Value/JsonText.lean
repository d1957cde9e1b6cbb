import GrammarDoc.Fault
import GrammarDoc.Text.Quoted
import GrammarDoc.Value.Basic

/-!
# JSON text

The text of a value in a document file, on one line and in ASCII. Rules, functions and the like
have none, and neither has a value that stands inside of itself.
-/

namespace GrammarDoc

/-- The number in a document file. -/
def Double.jsonText : Double → String
  | nan _ => "NaN"
  | number "inf" => "Infinity"
  | number "-inf" => "-Infinity"
  | number text => text

namespace Value

variable {Code : Type}

/-- A key in a document file is a string; numbers, truth values and the absent value become one. -/
def jsonKey : Value Code → Except Fault String
  | missing => .ok "null"
  | bool b => .ok (if b then "true" else "false")
  | int i => .ok i.repr
  | double x => .ok x.jsonText
  | string s => .ok s
  | _ => .error .wrongType

mutual

/-- The text of a value. -/
def jsonText : Value Code → Except Fault String
  | missing => .ok "null"
  | bool b => .ok (if b then "true" else "false")
  | int i => .ok i.repr
  | double x => .ok x.jsonText
  | string s => .ok (Text.asciiQuoted s)
  | list items => jsonList items
  | tuple items => do return "[" ++ ", ".intercalate (← jsonItems items) ++ "]"
  | mapping entries => jsonMapping entries
  | _ => .error .wrongType

/-- The text of a list. -/
def jsonList : Items (Value Code) → Except Fault String
  | ⟨_, _, true⟩ => .error .circular
  | ⟨_, items, false⟩ => do return "[" ++ ", ".intercalate (← jsonItems items) ++ "]"

/-- The texts of some values. -/
def jsonItems : List (Value Code) → Except Fault (List String)
  | [] => .ok []
  | v :: rest => do return (← jsonText v) :: (← jsonItems rest)

/-- The text of a mapping. -/
def jsonMapping : Entries (Value Code) → Except Fault String
  | ⟨_, _, true⟩ => .error .circular
  | ⟨_, entries, false⟩ => do
    return "\x7b" ++ ", ".intercalate (← jsonEntries entries) ++ "\x7d"

/-- The texts of the entries of a mapping. -/
def jsonEntries : List (Value Code × Value Code) → Except Fault (List String)
  | [] => .ok []
  | (key, v) :: rest => do
    let name ← jsonKey key
    return (Text.asciiQuoted name ++ ": " ++ (← jsonText v)) :: (← jsonEntries rest)

end

end Value

end GrammarDoc
