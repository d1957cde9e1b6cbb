/-!
# Sections

The sections of a description of a grammar. Models `SECTIONS`.
-/

namespace GrammarDoc

/-- The sections of a description. -/
inductive Section where
  | name
  | externals
  | rules
  | extras
  | inline
  | conflicts
  | word
  | supertypes
  | precedences
  deriving DecidableEq

namespace Section

/-- The sections in the order in which they are gone through. Each may use the names that an earlier
one declares. Models `SECTIONS`. -/
def all : List Section :=
  [name, externals, rules, extras, inline, conflicts, word, supertypes, precedences]

/-- The key of a section. -/
def title : Section → String
  | name => "name"
  | externals => "externals"
  | rules => "rules"
  | extras => "extras"
  | inline => "inline"
  | conflicts => "conflicts"
  | word => "word"
  | supertypes => "supertypes"
  | precedences => "precedences"

end Section

end GrammarDoc
