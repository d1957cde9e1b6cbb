/-!
# Places

Some values have an identity beside their content: two lists with equal items are still two lists,
and an item added to one of them is not added to the other. Such a value carries the place where
it was made. A place is known by the way that leads to it, so that no two values are made at the
same place and nothing has to be counted.
-/

namespace GrammarDoc

/-- A place where a value with an identity may be made. -/
inductive Place where
  /-- A step, by its position among all steps. -/
  | step (index : Nat)
  /-- A part of what is made at a place, or a stage of making it. -/
  | part (whole : Place) (title : String)
  /-- One of several parts of the same kind. -/
  | item (whole : Place) (index : Nat)
  /-- Where a copy of what was made at one place is made, as part of the copying at another. -/
  | copy (source copying : Place)
  deriving DecidableEq

end GrammarDoc
