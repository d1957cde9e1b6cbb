import GrammarDoc.Value.Equality

/-!
# Tables

Lists of keys with what belongs to them, in the order of insertion. No two keys of a table are
equal: a key that is set again keeps its place.
-/

namespace GrammarDoc

variable {Code β : Type}

/-- A table with values as its keys. -/
abbrev Table (Code β : Type) := List (Value Code × β)

namespace Table

/-- What belongs to a key. -/
def find? (table : Table Code β) (key : Value Code) : Option β :=
  (List.find? (fun entry ↦ key.same entry.1) table).map (·.2)

/-- Whether a table has a key. -/
def has (table : Table Code β) (key : Value Code) : Bool :=
  table.any fun entry ↦ key.same entry.1

/-- Sets what belongs to a key: in place, or at the end if the key is new. -/
def insert : Table Code β → Value Code → β → Table Code β
  | [], key, b => [(key, b)]
  | entry :: rest, key, b =>
    if key.same entry.1 then (entry.1, b) :: rest else entry :: insert rest key b

/-- The keys in order. -/
def keys (table : Table Code β) : List (Value Code) := table.map (·.1)

end Table

end GrammarDoc
