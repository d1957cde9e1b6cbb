import GrammarDoc.Place

/-!
# Collections

Lists and mappings that have an identity. What they hold may change in the course of a session,
wherever they are part of other values; a collection comes with what it held when it was last
looked at.
-/

namespace GrammarDoc

/-- A list with an identity. -/
structure Items (α : Type) where
  /-- Where the list was made. -/
  place : Place
  toList : List α
  /-- Whether the list stands inside of itself, and so is not gone into once more. -/
  again : Bool := false

/-- A mapping with an identity, its entries in the order of insertion. -/
structure Entries (α : Type) where
  /-- Where the mapping was made. -/
  place : Place
  toList : List (α × α)
  /-- Whether the mapping stands inside of itself, and so is not gone into once more. -/
  again : Bool := false

end GrammarDoc
