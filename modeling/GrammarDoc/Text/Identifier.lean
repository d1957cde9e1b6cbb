/-!
# Identifiers

The form that every rule, external and grammar name takes: an ASCII letter or an underscore,
followed by ASCII letters, digits and underscores. Models `NAME_PATTERN`.
-/

namespace GrammarDoc.Text

/-- An identifier starts with an ASCII letter or an underscore. -/
def isIdentifierStart (c : Char) : Bool := c.isAlpha || c == '_'

/-- After its first character an identifier may also hold ASCII digits. -/
def isIdentifierPart (c : Char) : Bool := c.isAlphanum || c == '_'

/-- Identifiers are nonempty, and every character stands where its class allows it. Models
`NAME_PATTERN`. -/
def isIdentifier (s : String) : Bool :=
  match s.toList with
  | [] => false
  | c :: rest => isIdentifierStart c && rest.all isIdentifierPart

end GrammarDoc.Text
