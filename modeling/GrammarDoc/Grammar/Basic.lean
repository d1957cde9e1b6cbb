import GrammarDoc.Collection

/-!
# Grammar documents

A grammar document as a parser generator takes it, and the references to its names that a
description of another grammar can use. Both are generic in the values they hold: nothing keeps what
is no rule out of a document that is changed after it was built. Models `Grammar` and
`GrammarReferences`.
-/

namespace GrammarDoc

/-- A grammar document. Rules stand in the order in which they were defined. Models `Grammar`. -/
structure Grammar (α : Type) where
  /-- Where the document was made. -/
  place : Place
  /-- The name of the language described. -/
  name : α
  rules : Entries α
  /-- Rules that may stand between any two tokens. -/
  extras : Items α
  /-- Tokens that an external scanner produces. -/
  externals : Items α
  /-- Names of rules that are put in place at each use. -/
  inline : Items α
  /-- Groups of names whose ambiguity is intended. -/
  conflicts : Items α
  /-- The name of the token that keywords are taken from, or what stands for no name. -/
  word : α
  /-- Names of hidden rules that stand for groups of rules. -/
  supertypes : Items α
  /-- Ordered groups of literal strings and symbols. -/
  precedences : Items α
  /-- Whether the document stands inside of itself, and so is not gone into once more. -/
  again : Bool := false

/-- Named functions for the rules and the external symbols of a grammar. Models
`GrammarReferences`. -/
structure References (α : Type) where
  /-- Where the references were made. -/
  place : Place
  /-- The names of the rules, each with a function that returns the rule. -/
  rules : Entries α
  /-- The names of the external symbols, each with its symbol. -/
  externals : Entries α
  /-- All names that are referred to, each with a function of that name. -/
  functions : Entries α

end GrammarDoc
