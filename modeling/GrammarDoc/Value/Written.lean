import GrammarDoc.Text.Quoted
import GrammarDoc.Value.Basic

/-!
# The text of values

How messages write a value. Every value has a written form, in which strings are quoted; where a
message shows a value by itself, a string stands as it is. Dots stand for what is left out of a
value that stands inside of itself.
-/

namespace GrammarDoc

/-- Items between brackets, with commas. -/
def Text.bracketed (opening : String) (items : List String) (closing : String) : String :=
  opening ++ ", ".intercalate items ++ closing

/-- The written form of a tuple: a single item is followed by a comma. -/
def Text.tupled : List String → String
  | [item] => "(" ++ item ++ ",)"
  | items => bracketed "(" items ")"

/-- The written form of a record, from those of its fields. -/
def Text.record (title : String) (fields : List (String × String)) : String :=
  title ++ bracketed "(" (fields.map fun (name, v) ↦ name ++ "=" ++ v) ")"

/-- The written form of a flavour of precedence. -/
def Precedence.written : Precedence → String
  | .default => "<Precedence.default: 'PREC'>"
  | .left => "<Precedence.left: 'PREC_LEFT'>"
  | .right => "<Precedence.right: 'PREC_RIGHT'>"
  | .dynamic => "<Precedence.dynamic: 'PREC_DYNAMIC'>"

/-- The title of a group of members in written form. -/
def Grouping.written : Grouping → String
  | .seq => "SeqRule"
  | .choice => "ChoiceRule"

/-- The title of a repetition or a token in written form. -/
def Wrapping.written : Wrapping → String
  | .repeated => "RepeatRule"
  | .repeated1 => "Repeat1Rule"
  | .token => "TokenRule"
  | .immediateToken => "ImmediateTokenRule"

/-- The written form of a regular expression; a quoted source is cut off at 200 characters. -/
def Pattern.written (p : Pattern) : String :=
  let source := String.ofList ((Text.quoted p.source).toList.take 200)
  match p.flags.names with
  | [] => "re.compile(" ++ source ++ ")"
  | names => "re.compile(" ++ source ++ ", " ++ "|".intercalate names ++ ")"

/-- The written form of a callable. -/
def Callable.written {α Code : Type} (f : Callable α Code) : String :=
  match f.name with
  | some name => "<function " ++ name ++ ">"
  | none => "<callable>"

/-- The written form of a truth value. -/
def Text.truthWritten (b : Bool) : String := if b then "True" else "False"

/-- The written form of the absent value. -/
def Text.missingWritten : String := "None"

namespace Value

variable {Code : Type}

mutual

/-- The written form of a value. -/
def written : Value Code → String
  | missing => Text.missingWritten
  | bool b => Text.truthWritten b
  | int i => i.repr
  | double x => x.text
  | string s => Text.quoted s
  | list items => writtenList items
  | tuple items => Text.tupled (writtenItems items)
  | mapping entries => writtenMapping entries
  | pattern p => p.written
  | callable f => f.written
  | builder _ => "<sprig.dsl.RuleBuilder object>"
  | rule r => writtenRule r
  | grammar g => writtenGrammar g
  | references _ => "<sprig.dsl.GrammarReferences object>"

/-- The written form of a list. -/
def writtenList : Items (Value Code) → String
  | ⟨_, items, again⟩ => Text.bracketed "[" (if again then ["..."] else writtenItems items) "]"

/-- The written forms of some values. -/
def writtenItems : List (Value Code) → List String
  | [] => []
  | v :: rest => written v :: writtenItems rest

/-- The written form of a mapping. -/
def writtenMapping : Entries (Value Code) → String
  | ⟨_, entries, again⟩ =>
    Text.bracketed "\x7b" (if again then ["..."] else writtenEntries entries) "\x7d"

/-- The written forms of some keys and their values. -/
def writtenEntries : List (Value Code × Value Code) → List String
  | [] => []
  | (key, v) :: rest => (written key ++ ": " ++ written v) :: writtenEntries rest

/-- The written form of a rule. -/
def writtenRule : Rule (Value Code) → String
  | .bare _ => "<sprig.rules.Rule object>"
  | .string v => Text.record "StringRule" [("value", written v)]
  | .pattern v => Text.record "PatternRule" [("value", written v)]
  | .blank => Text.record "BlankRule" []
  | .symbol v => Text.record "SymbolRule" [("name", written v)]
  | .group kind members =>
    Text.record kind.written [("members", Text.tupled (writtenRules members))]
  | .wrap kind content => Text.record kind.written [("content", writtenRule content)]
  | .prec variant v content => Text.record "PrecRule"
      [("value", written v), ("content", writtenRule content), ("variant", variant.written)]
  | .field v content =>
    Text.record "FieldRule" [("name", written v), ("content", writtenRule content)]
  | .aliased content named v => Text.record "AliasRule"
      [("content", writtenRule content), ("named", Text.truthWritten named), ("value", written v)]

/-- The written forms of some rules. -/
def writtenRules : List (Rule (Value Code)) → List String
  | [] => []
  | r :: rest => writtenRule r :: writtenRules rest

/-- The written form of a grammar. -/
def writtenGrammar : Grammar (Value Code) → String
  | ⟨_, name, rules, extras, externals, inline, conflicts, word, supertypes, precedences,
      again⟩ =>
    if again then "..."
    else Text.record "Grammar" [
      ("name", written name),
      ("rules", writtenMapping rules),
      ("extras", writtenList extras),
      ("externals", writtenList externals),
      ("inline", writtenList inline),
      ("conflicts", writtenList conflicts),
      ("word", written word),
      ("supertypes", writtenList supertypes),
      ("precedences", writtenList precedences)]

end

/-- The text of a value that stands by itself in a message: a string as it is. -/
def shown : Value Code → String
  | string s => s
  | v => v.written

end Value

end GrammarDoc
