/-!
# Faults

What can go wrong apart from problems of a grammar: operations on values that do not have them.
No check reports a fault; it ends whatever meets it.
-/

namespace GrammarDoc

/-- An operation that a value does not have, or that fails on it. -/
inductive Fault where
  /-- A key, a variable or a name that is not there. -/
  | missingKey
  /-- An attribute or a method that the value does not have. -/
  | missingAttribute
  /-- A value of the wrong kind, or a wrong number of arguments. -/
  | wrongType
  /-- A refusal by the code of a function. -/
  | refused
  /-- A position outside a list. -/
  | outOfRange
  /-- An operation of a node of no kind. -/
  | notImplemented
  /-- A value that stands inside of itself, where it is to be put into a text. -/
  | circular
  /-- Evaluation nested deeper than allowed, or without end. -/
  | tooDeep
  deriving DecidableEq

end GrammarDoc
