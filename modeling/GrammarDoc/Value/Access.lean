import GrammarDoc.Grammar.References

/-!
# Access to values

Attributes, items and sums, for the values that have them.
-/

namespace GrammarDoc

variable {Code : Type}

/-- A part of a grammar as a value. -/
def Grammar.part? (g : Grammar (Value Code)) : String → Option (Value Code)
  | "name" => some g.name
  | "rules" => some (.mapping g.rules)
  | "extras" => some (.list g.extras)
  | "externals" => some (.list g.externals)
  | "inline" => some (.list g.inline)
  | "conflicts" => some (.list g.conflicts)
  | "word" => some g.word
  | "supertypes" => some (.list g.supertypes)
  | "precedences" => some (.list g.precedences)
  | _ => none

/-- A part of a rule as a value. -/
def Rule.part? : Rule (Value Code) → String → Option (Value Code)
  | string v, "value" | pattern v, "value" | prec _ v _, "value" | aliased _ _ v, "value" => some v
  | symbol v, "name" | field v _, "name" => some v
  | group _ members, "members" => some (.tuple (members.map .rule))
  | wrap _ r, "content" | prec _ _ r, "content" | field _ r, "content"
  | aliased r _ _, "content" => some (.rule r)
  | aliased _ named _, "named" => some (.bool named)
  | _, _ => none

namespace Value

/-- A result, or the fault of an attribute that is not there. -/
def orMissing : Option (Value Code) → Except Fault (Value Code)
  | some v => .ok v
  | none => .error .missingAttribute

/-- An attribute of a value. Every attribute of a builder is a symbol, but for names that start
with two underscores. -/
def attribute? (v : Value Code) (name : String) : Except Fault (Value Code) :=
  match v with
  | builder _ =>
    if name.startsWith "__" then .error .missingAttribute else .ok (symbol (string name))
  | references r => r.attribute? name
  | grammar g => orMissing (g.part? name)
  | rule r => orMissing (r.part? name)
  | callable f => orMissing (if name == "__name__" then f.name.map string else none)
  | _ => .error .missingAttribute

/-- The fault of calling a method, known by its name, on a value that has no such method. Every
attribute of a builder is a symbol, which cannot be called, and a function that refers to a name
takes nothing and returns nothing. -/
def noMethod (v : Value Code) (name : String) : Fault :=
  match v with
  | builder _ => .wrongType
  | references r => if r.has name then .wrongType else .missingAttribute
  | _ => .missingAttribute

/-- The integer that a value counts as: a truth value as one or zero, but a double as none. -/
def whole? : Value Code → Option Int
  | int i => some i
  | bool b => some (if b then 1 else 0)
  | _ => none

/-- The position that a key means in an array of some length; negative ones count from the end. -/
def position? (length : Nat) (key : Value Code) : Except Fault Nat :=
  match key.whole? with
  | some i =>
    let fromStart := if i < 0 then i + length else i
    if 0 ≤ fromStart ∧ fromStart < length then .ok fromStart.toNat else .error .outOfRange
  | none => .error .wrongType

/-- An item of an array. -/
def arrayItem? (items : List (Value Code)) (key : Value Code) : Except Fault (Value Code) := do
  match items[← key.position? items.length]? with
  | some v => return v
  | none => throw .outOfRange

/-- An item of a value. Every item of a builder is a symbol. -/
def item? (v key : Value Code) : Except Fault (Value Code) :=
  match v with
  | builder _ => .ok (symbol key)
  | references r => r.item? key
  | mapping entries =>
    if key.canBeKey then
      match Table.find? entries.toList key with
      | some v => .ok v
      | none => .error .missingKey
    else .error .wrongType
  | list items => arrayItem? items.toList key
  | tuple items => arrayItem? items key
  | string s => arrayItem? (characters s) key
  | _ => .error .wrongType

/-- The sum of two integers, or one list, tuple or string after another of its kind; a list is made
at a place. -/
def add? (place : Place) : Value Code → Value Code → Except Fault (Value Code)
  | list as, list bs => .ok (list { place, toList := as.toList ++ bs.toList })
  | tuple as, tuple bs => .ok (tuple (as ++ bs))
  | string s, string t => .ok (string (s ++ t))
  | a, b =>
    match a.whole?, b.whole? with
    | some i, some j => .ok (int (i + j))
    | _, _ => .error .wrongType

end Value

end GrammarDoc
