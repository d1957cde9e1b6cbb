import GrammarDoc.Callable
import GrammarDoc.Double
import GrammarDoc.Grammar.Basic
import GrammarDoc.Pattern
import GrammarDoc.Rule.Basic
import GrammarDoc.Text.Identifier

/-!
# Values

The values that descriptions of grammars are made of. Sections and rules may be given any value at
all, so one type holds them all; the checks of each section sort them out. `Code` is what the body
of a function is made of, and nothing here depends on it.
-/

namespace GrammarDoc

/-- A value in a description of a grammar. -/
inductive Value (Code : Type) where
  /-- The absence of a value. -/
  | missing
  | bool (b : Bool)
  | int (i : Int)
  | double (x : Double)
  | string (s : String)
  | list (items : Items (Value Code))
  | tuple (items : List (Value Code))
  | mapping (entries : Entries (Value Code))
  | pattern (p : Pattern)
  | callable (f : Callable (Value Code) Code)
  /-- The rule builder, whose every attribute and item is a symbol. -/
  | builder (place : Place)
  | rule (r : Rule (Value Code))
  | grammar (g : Grammar (Value Code))
  | references (r : References (Value Code))

namespace Value

variable {Code : Type}

instance : Inhabited (Value Code) := ⟨missing⟩

/-- An optional value as a value. -/
def ofOption : Option (Value Code) → Value Code
  | none => missing
  | some v => v

/-- A value as an optional value; `missing` is none. -/
def toOption : Value Code → Option (Value Code)
  | missing => none
  | v => some v

/-- A symbol as a value. -/
def symbol (name : Value Code) : Value Code := rule (.symbol name)

/-- The name of a symbol, if a value is one. -/
def symbolName? : Value Code → Option (Value Code)
  | rule (.symbol name) => some name
  | _ => none

/-- Arrays are lists and tuples. Models `is_array`. -/
def array? : Value Code → Option (List (Value Code))
  | list items => some items.toList
  | tuple items => some items
  | _ => none

/-- Objects are mappings. -/
def object? : Value Code → Option (List (Value Code × Value Code))
  | mapping entries => some entries.toList
  | _ => none

/-- The callable that a value is, if it is one. Rules are none. -/
def callable? : Value Code → Option (Callable (Value Code) Code)
  | callable f => some f
  | _ => none

/-- Whether a value is a string of the form of a name. Models `is_valid_name`. -/
def isValidName : Value Code → Bool
  | string s => Text.isIdentifier s
  | _ => false

/-- Whether a value counts as true: all do but the absent value, false, zero and empty ones. -/
def truth : Value Code → Bool
  | missing => false
  | bool b => b
  | int i => i != 0
  | double x => !x.isZero
  | string s => s != ""
  | list items => !items.toList.isEmpty
  | tuple items => !items.isEmpty
  | mapping entries => !entries.toList.isEmpty
  | _ => true

/-- The name that an entry of a list of names gives: that of a symbol or a function, and any other
value is its own. Models `name_of`. -/
def nameOf : Value Code → Value Code
  | rule (.symbol name) => name
  | callable f => match f.name with
    | some name => string name
    | none => callable f
  | v => v

end Value

end GrammarDoc
