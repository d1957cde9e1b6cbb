import GrammarDoc.Place

/-!
# Rule trees

The nodes of a grammar's rules. The tree is generic in its scalars, the texts and numbers that its
nodes carry, since nothing checks what is put there. Models `Rule` and the classes derived from it,
`RuleType`, `Precedence` and `referenced_name`.
-/

namespace GrammarDoc

/-- The flavours of precedence that a rule may be given. Models `Precedence`. -/
inductive Precedence where
  | default
  | left
  | right
  | dynamic
  deriving DecidableEq

/-- The two ways of combining members: one after another, or any one of them. -/
inductive Grouping where
  | seq
  | choice
  deriving DecidableEq

/-- What may be done to one rule without further data: repeat it zero or more times, repeat it one
or more times, or make it one token, which extras may or may not precede. -/
inductive Wrapping where
  | repeated
  | repeated1
  | token
  | immediateToken
  deriving DecidableEq

/-- A rule tree with scalars in `α`. -/
inductive Rule (α : Type) where
  /-- A node of no kind, known only by the place where it was made. -/
  | bare (place : Place)
  /-- A literal string. -/
  | string (value : α)
  /-- A regular expression, by its source. -/
  | pattern (value : α)
  /-- The empty string. -/
  | blank
  /-- A reference to a rule or an external. -/
  | symbol (name : α)
  /-- Members in a sequence or as alternatives. -/
  | group (kind : Grouping) (members : List (Rule α))
  /-- A repetition or a token. -/
  | wrap (kind : Wrapping) (content : Rule α)
  /-- A rule with a precedence. -/
  | prec (variant : Precedence) (value : α) (content : Rule α)
  /-- A rule whose nodes get a field name. -/
  | field (name : α) (content : Rule α)
  /-- A rule that appears under another name, of a named or of an anonymous node. -/
  | aliased (content : Rule α) (named : Bool) (value : α)

namespace Rule

variable {α : Type}

/-- The rules directly under a node. Models `Rule.iter_children`. -/
def children : Rule α → List (Rule α)
  | group _ members => members
  | wrap _ content | prec _ _ content | field _ content | aliased content _ _ => [content]
  | bare _ | string _ | pattern _ | blank | symbol _ => []

/-- The name that a symbol or an alias refers to. Models `referenced_name`. -/
def referencedName? : Rule α → Option α
  | symbol name => some name
  | aliased _ _ value => some value
  | _ => none

end Rule

/-- The tags of the document schema. Models `RuleType`. -/
inductive Tag where
  | string
  | pattern
  | blank
  | symbol
  | group (kind : Grouping)
  | wrap (kind : Wrapping)
  | prec (variant : Precedence)
  | field
  | aliased
  deriving DecidableEq

namespace Tag

/-- The text of a tag. -/
def title : Tag → String
  | string => "STRING"
  | pattern => "PATTERN"
  | blank => "BLANK"
  | symbol => "SYMBOL"
  | group .seq => "SEQ"
  | group .choice => "CHOICE"
  | wrap .repeated => "REPEAT"
  | wrap .repeated1 => "REPEAT1"
  | wrap .token => "TOKEN"
  | wrap .immediateToken => "IMMEDIATE_TOKEN"
  | prec .default => "PREC"
  | prec .left => "PREC_LEFT"
  | prec .right => "PREC_RIGHT"
  | prec .dynamic => "PREC_DYNAMIC"
  | field => "FIELD"
  | aliased => "ALIAS"

/-- The tag that a text is the title of. -/
def ofTitle? : String → Option Tag
  | "STRING" => some string
  | "PATTERN" => some pattern
  | "BLANK" => some blank
  | "SYMBOL" => some symbol
  | "SEQ" => some (group .seq)
  | "CHOICE" => some (group .choice)
  | "REPEAT" => some (wrap .repeated)
  | "REPEAT1" => some (wrap .repeated1)
  | "TOKEN" => some (wrap .token)
  | "IMMEDIATE_TOKEN" => some (wrap .immediateToken)
  | "PREC" => some (prec .default)
  | "PREC_LEFT" => some (prec .left)
  | "PREC_RIGHT" => some (prec .right)
  | "PREC_DYNAMIC" => some (prec .dynamic)
  | "FIELD" => some field
  | "ALIAS" => some aliased
  | _ => none

/-- Reading a title gives back the tag that was written. -/
theorem ofTitle?_title : ∀ t : Tag, ofTitle? t.title = some t
  | string | pattern | blank | symbol | field | aliased => rfl
  | group .seq | group .choice => rfl
  | wrap .repeated | wrap .repeated1 | wrap .token | wrap .immediateToken => rfl
  | prec .default | prec .left | prec .right | prec .dynamic => rfl

end Tag

/-- The tag of a node; a bare node has none. -/
def Rule.tag? {α : Type} : Rule α → Option Tag
  | bare _ => none
  | string _ => some .string
  | pattern _ => some .pattern
  | blank => some .blank
  | symbol _ => some .symbol
  | group kind _ => some (.group kind)
  | wrap kind _ => some (.wrap kind)
  | prec variant _ _ => some (.prec variant)
  | field _ _ => some .field
  | aliased _ _ _ => some .aliased

end GrammarDoc
