import GrammarDoc.Fault
import GrammarDoc.Value.Written

/-!
# Problems

What can be wrong with a grammar or its description. Each problem has a cause; its kind, its message
and the offending value follow from the cause. A problem is attributed to the section in which it
was found. Models `GrammarError` and the errors derived from it, with the messages that are raised.
-/

namespace GrammarDoc

/-- The kinds of problems. Models `GrammarError` and the classes derived from it. -/
inductive Kind where
  | general
  | arity
  | missingPrecedence
  | invalidRule
  | undefinedSymbol
  | invalidAliasTarget
  | invalidName
  | mismatchedName
  | duplicateName
  | undeclaredReference
  | invalidSupertype
  | structuralShape
  | noRules
  deriving DecidableEq

namespace Kind

/-- The title of a kind. -/
def title : Kind → String
  | general => "GrammarError"
  | arity => "ArityError"
  | missingPrecedence => "MissingPrecedenceError"
  | invalidRule => "InvalidRuleError"
  | undefinedSymbol => "UndefinedSymbolError"
  | invalidAliasTarget => "InvalidAliasTargetError"
  | invalidName => "InvalidNameError"
  | mismatchedName => "MismatchedNameError"
  | duplicateName => "DuplicateNameError"
  | undeclaredReference => "UndeclaredReferenceError"
  | invalidSupertype => "InvalidSupertypeError"
  | structuralShape => "StructuralShapeError"
  | noRules => "NoRulesError"

/-- All kinds. -/
def all : List Kind :=
  [general, arity, missingPrecedence, invalidRule, undefinedSymbol, invalidAliasTarget,
    invalidName, mismatchedName, duplicateName, undeclaredReference, invalidSupertype,
    structuralShape, noRules]

/-- The kind with a title. -/
def ofTitle? (title : String) : Option Kind := all.find? fun kind ↦ kind.title == title

/-- A kind and the more general kinds above it, up to the most general one. -/
def lineage : Kind → List Kind
  | general => [general]
  | undefinedSymbol => [undefinedSymbol, invalidRule, general]
  | mismatchedName => [mismatchedName, invalidName, general]
  | noRules => [noRules, structuralShape, general]
  | kind => [kind, general]

end Kind

/-- The rule-building functions that count their arguments. -/
inductive Combinator where
  | optional
  | repeated
  | repeated1
  | prec
  | precLeft
  | precRight
  | precDynamic
  deriving DecidableEq

namespace Combinator

/-- The name that a combinator is called by. -/
def title : Combinator → String
  | optional => "optional"
  | repeated => "repeat"
  | repeated1 => "repeat1"
  | prec => "prec"
  | precLeft => "prec_left"
  | precRight => "prec_right"
  | precDynamic => "prec_dynamic"

/-- What a combinator takes beside the rule. -/
def companion : Combinator → String
  | optional | repeated | repeated1 => ""
  | prec | precDynamic => " and a precedence argument"
  | precLeft | precRight => " and an optional precedence argument"

end Combinator

/-- What is wrong. -/
inductive Cause (Code : Type) where
  /-- A combinator was given no rule. -/
  | noRule (caller : Combinator)
  /-- A combinator was given more than one rule. -/
  | severalRules (caller : Combinator)
  /-- A combinator was given no precedence. -/
  | noPrecedence (caller : Combinator)
  /-- A precedence is no number. -/
  | notAPrecedence (caller : Combinator) (value : Value Code)
  /-- The absent value stands for a rule. -/
  | undefined
  /-- A callable stands for a rule, but has no name of the right form. -/
  | notANamedRule (f : Callable (Value Code) Code)
  /-- A value cannot be made a rule. -/
  | notARule (value : Value Code)
  /-- A node of a document lacks a key of its tag. -/
  | incompleteRule (tag : Tag) (key : String) (node : Value Code)
  /-- An alias target is neither a string nor a name. -/
  | notAnAliasTarget (target : Value Code)
  /-- A name has not the form of a name. -/
  | malformedName (context : String) (name : Value Code)
  /-- A name is used, but not declared. -/
  | undeclared (context : String) (name : Value Code)
  /-- A name is declared for the second time. -/
  | declaredTwice (context : String) (name : Value Code) (first : String)
  /-- An external symbol is given under another name. -/
  | misnamedExternal (key symbol raw : Value Code)
  /-- An array is needed. -/
  | notAnArray (context : String) (value : Value Code)
  /-- A mapping is needed. -/
  | notAnObject (context : String) (value : Value Code)
  /-- The description of the grammar is no mapping. -/
  | notADescription (value : Value Code)
  /-- A description has a section that there is not. -/
  | unknownSection (key : Value Code)
  /-- A rule is not given by a function. -/
  | notARuleFunction (name value : Value Code)
  /-- A grammar has no rules. -/
  | noRules (rules : Value Code)
  /-- A conflict is no array. -/
  | conflictNotAnArray (conflict : Value Code)
  /-- Fewer than two names of a conflict are left. -/
  | shortConflict (names : List (Value Code)) (conflict : Value Code)
  /-- A supertype is an alias. -/
  | aliasedSupertype (entry : Value Code)
  /-- A group of precedences is no array. -/
  | precedenceGroupNotAnArray (index : Nat) (group : Value Code)
  /-- An entry of a group of precedences is neither a string nor a symbol. -/
  | notAPrecedenceEntry (group entry : Nat) (rule : Rule (Value Code)) (raw : Value Code)
  /-- A function of the description refuses. -/
  | raised (kind : Kind) (message : String) (value : Value Code)

namespace Cause

variable {Code : Type}

/-- The kind of a cause. -/
def kind : Cause Code → Kind
  | noRule _ | severalRules _ => .arity
  | noPrecedence _ => .missingPrecedence
  | notAPrecedence _ _ | notANamedRule _ | notARule _ | incompleteRule _ _ _
  | notAPrecedenceEntry _ _ _ _ => .invalidRule
  | undefined => .undefinedSymbol
  | notAnAliasTarget _ => .invalidAliasTarget
  | malformedName _ _ => .invalidName
  | undeclared _ _ => .undeclaredReference
  | declaredTwice _ _ _ => .duplicateName
  | misnamedExternal _ _ _ => .mismatchedName
  | notAnArray _ _ | notAnObject _ _ | notADescription _ | unknownSection _
  | notARuleFunction _ _ | conflictNotAnArray _ | shortConflict _ _
  | precedenceGroupNotAnArray _ _ => .structuralShape
  | noRules _ => .noRules
  | aliasedSupertype _ => .invalidSupertype
  | raised kind _ _ => kind

/-- The offending value, or `missing` if there is none. -/
def value : Cause Code → Value Code
  | noRule _ | severalRules _ | noPrecedence _ | undefined => .missing
  | notANamedRule f => .callable f
  | notAPrecedence _ v | notARule v | incompleteRule _ _ v | notAnAliasTarget v
  | malformedName _ v | undeclared _ v | declaredTwice _ v _ | misnamedExternal _ _ v
  | notAnArray _ v | notAnObject _ v | notADescription v | unknownSection v
  | notARuleFunction _ v | noRules v | conflictNotAnArray v | shortConflict _ v
  | aliasedSupertype v | precedenceGroupNotAnArray _ v | notAPrecedenceEntry _ _ _ v
  | raised _ _ v => v

/-- The message of a cause. -/
def message : Cause Code → String
  | noRule caller => "The `" ++ caller.title ++ "` function requires a rule argument" ++
      caller.companion ++ "."
  | severalRules caller => "The `" ++ caller.title ++ "` function only takes one rule argument" ++
      caller.companion ++ ".\nYou passed multiple rules. Did you mean to call `seq`?"
  | noPrecedence caller => "Missing precedence value in `" ++ caller.title ++ "`"
  | notAPrecedence caller v => "invalid precedence value in `" ++ caller.title ++ "`: " ++ v.written
  | undefined => "Undefined symbol"
  | notANamedRule f => "invalid name for a function-rule: '" ++
      f.name.getD Text.missingWritten ++ "' for " ++ f.written
  | notARule v => "invalid rule: " ++ v.written
  | incompleteRule tag key _ => "invalid " ++ tag.title ++ " rule: missing '" ++ key ++ "'"
  | notAnAliasTarget target => "Invalid alias target " ++ target.written
  | malformedName context name => "invalid name in " ++ context ++ ": '" ++ name.shown ++ "'"
  | undeclared context name =>
    "invalid " ++ context ++ ": name '" ++ name.shown ++ "' not in namespace"
  | declaredTwice context name first =>
    context ++ " name '" ++ name.shown ++ "' has already been declared in " ++ first
  | misnamedExternal key symbol _ =>
    "mismatched external rule names '" ++ key.shown ++ "' and '" ++ symbol.shown ++ "'"
  | notAnArray context _ => context ++ " must be an array"
  | notAnObject context _ => context ++ " must be an object"
  | notADescription _ => "grammar must be an object"
  | unknownSection key => "unknown grammar section '" ++ key.shown ++ "'"
  | notARuleFunction name v =>
    "rule '" ++ name.shown ++ "' must be a function, was " ++ v.written
  | noRules _ => "Grammar must have at least one rule"
  | conflictNotAnArray conflict => "invalid conflict " ++ conflict.written ++ ": must be an array"
  | shortConflict names _ => "invalid conflict " ++
      Text.bracketed "[" (Value.writtenItems names) "]" ++ " of length " ++ names.length.repr
  | aliasedSupertype entry => "supertype " ++ entry.written ++ " cannot be an alias"
  | precedenceGroupNotAnArray index _ => "precedences[" ++ index.repr ++ "] must be an array"
  | notAPrecedenceEntry group entry r _ => "precedences[" ++ group.repr ++ "][" ++ entry.repr ++
      "] must be a string or symbol: " ++ Value.writtenRule r
  | raised _ message _ => message

end Cause

/-- A problem, with the section that it is attributed to. Models `GrammarError`. -/
structure Problem (Code : Type) where
  cause : Cause Code
  within : Option String := none

namespace Problem

variable {Code : Type}

/-- The kind of a problem. -/
def kind (p : Problem Code) : Kind := p.cause.kind

/-- The message of a problem. -/
def message (p : Problem Code) : String := p.cause.message

/-- The offending value of a problem. -/
def value (p : Problem Code) : Value Code := p.cause.value

/-- Attributes a problem to a section, unless it is attributed already. -/
def attributedTo (p : Problem Code) (title : String) : Problem Code :=
  { p with within := p.within.or (some title) }

end Problem

/-- Why there is no result: a problem that was raised, or a fault. -/
inductive Failure (Code : Type) where
  | problem (p : Problem Code)
  | fault (f : Fault)

/-- A result, or why there is none. -/
abbrev Outcome (Code α : Type) := Except (Failure Code) α

/-- A result, or the cause of a problem that belongs to no section yet. -/
def Outcome.ofCause {Code α : Type} : Except (Cause Code) α → Outcome Code α
  | .ok a => .ok a
  | .error cause => .error (.problem ⟨cause, none⟩)

/-- A result, or a fault. -/
def Outcome.ofFault {Code α : Type} : Except Fault α → Outcome Code α
  | .ok a => .ok a
  | .error f => .error (.fault f)

/-- A result, or a fault if there is none. -/
def Outcome.ofOption {Code α : Type} (f : Fault) : Option α → Outcome Code α
  | some a => .ok a
  | none => .error (.fault f)

end GrammarDoc
