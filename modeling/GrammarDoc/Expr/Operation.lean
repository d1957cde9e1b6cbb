import GrammarDoc.Assembly
import GrammarDoc.Grammar.Schema
import GrammarDoc.Text.Address
import GrammarDoc.Value.JsonText

/-!
# Operations

The functions of the library that an expression may call by name. Each takes its arguments as
values; a number of arguments that an operation does not take is a fault.
-/

namespace GrammarDoc

/-- The operations. -/
inductive Operation where
  | isValidName
  | isRule
  | normalize
  | string
  | pattern
  | blank
  | symbol
  | seq
  | choice
  | optional
  | repeated
  | repeated1
  | field
  | aliased
  | prec
  | precLeft
  | precRight
  | precDynamic
  | token
  | immediateToken
  | namedFunction
  | external
  | ruleOfSchema
  | nameOf
  | referencedName
  | collectSymbols
  | build
  | load
  | references
  | builder
  | toSchema
  | jsonText
  | children
  | tag
  | written
  | shown
  | equal
  | distinct
  | isNormal
  | bareRule
  | lineage
  | sections
  deriving DecidableEq

namespace Operation

/-- The operation of a name. -/
def ofName? : String → Option Operation
  | "is_valid_name" => some isValidName
  | "is_rule" => some isRule
  | "normalize" => some normalize
  | "string" => some string
  | "pattern" => some pattern
  | "blank" => some blank
  | "sym" => some symbol
  | "seq" => some seq
  | "choice" => some choice
  | "optional" => some optional
  | "repeat" => some repeated
  | "repeat1" => some repeated1
  | "field" => some field
  | "alias" => some aliased
  | "prec" => some prec
  | "prec_left" => some precLeft
  | "prec_right" => some precRight
  | "prec_dynamic" => some precDynamic
  | "token" => some token
  | "immediate_token" => some immediateToken
  | "named_function" => some namedFunction
  | "external" => some external
  | "rule_from_json" => some ruleOfSchema
  | "name_of" => some nameOf
  | "referenced_name" => some referencedName
  | "collect_symbols" => some collectSymbols
  | "grammar" => some build
  | "load" => some load
  | "refs" => some references
  | "builder" => some builder
  | "to_json" => some toSchema
  | "json_text" => some jsonText
  | "children" => some children
  | "rule_type" => some tag
  | "repr" => some written
  | "str" => some shown
  | "eq" => some equal
  | "distinct" => some distinct
  | "same_after_normalize" => some isNormal
  | "bare_rule" => some bareRule
  | "error_bases" => some lineage
  | "sections" => some sections
  | _ => none

variable {Code : Type}

/-- The result of an operation that makes a rule. -/
def ruleResult (outcome : Except (Cause Code) (Rule (Value Code))) : Exec Code (Value Code) :=
  Exec.ofOutcome do return .rule (← Outcome.ofCause outcome)

/-- Adds names to what stands for a list, as a walk of a rule meets them. What is no list may only
stand for one if nothing has to be added. -/
def collectInto (place : Place) (r : Rule (Value Code)) : Value Code → Exec Code (Value Code)
  | .missing => return .list { place, toList := r.symbols }
  | .list found => do
    let all := r.addSymbols found.toList
    if found.toList.length < all.length then
      Exec.setItems found.place all
    return .list found
  | v => do
    r.symbols.forM fun name ↦ do
      if !(← Exec.ofFault (v.contains? name)) then
        throw (.fault (v.noMethod "append"))
    return v

/-- The number of different elements, all of which may be looked up. -/
def distinctResult (v : Value Code) : Except Fault (Value Code) := do
  let elements ← v.elements
  if Value.allCanBeKeys elements then return .int (Value.distinct elements).length
  else throw .wrongType

/-- References to the rules and externals of a grammar, or of references to one. -/
def referencesResult (place : Place) : Value Code → Except Fault (Value Code)
  | .grammar g => do return .references (← References.ofGrammar place g)
  | v => do
    match (← v.attribute? "rules").object? with
    | some rules =>
      let externals ← (← v.attribute? "externals").elements
      return .references (← References.ofParts place rules externals)
    | none => throw .missingAttribute

/-- Builds a grammar as one step, ending at the first problem. The base may be missing. -/
def buildResult (run : Interpreter Code) (place : Place) (description base : Value Code) :
    Exec Code (Value Code) := do
  let (outcome, journal) := Setting.build { run, place, base } description (← get)
  set journal.store
  return .grammar (← Exec.ofOutcome outcome)

/-- Whether two values are equal; a comparison without end fails. -/
def equalResult (a b : Value Code) : Except Fault Bool :=
  match a.eq? b with
  | some verdict => .ok verdict
  | none => .error .tooDeep

/-- Carries out an operation, called at a place, on arguments as they are at present. -/
def apply (run : Interpreter Code) (place : Place) :
    Operation → List (Value Code) → Exec Code (Value Code)
  | isValidName, [v] => return .bool v.isValidName
  | isRule, [.rule _] => return .bool true
  | isRule, [_] => return .bool false
  | normalize, [v] => ruleResult v.toRule
  | string, [v] => return .rule (.string v)
  | pattern, [v] => return .rule (.ofPattern v)
  | blank, [] => return .rule .blank
  | symbol, [v] => return .symbol v
  | seq, args => ruleResult (Rule.grouped .seq args)
  | choice, args => ruleResult (Rule.grouped .choice args)
  | optional, args => ruleResult (Rule.optional args)
  | repeated, args => ruleResult (Rule.repeated args)
  | repeated1, args => ruleResult (Rule.repeated1 args)
  | field, [name, content] => ruleResult (Rule.named name content)
  | aliased, [content, target] => ruleResult (Rule.renamed content target)
  | prec, v :: args => ruleResult (Rule.withPrecedence .prec .default v args)
  | precDynamic, v :: args => ruleResult (Rule.withPrecedence .precDynamic .dynamic v args)
  | precLeft, args => ruleResult (Rule.associative .precLeft .left args)
  | precRight, args => ruleResult (Rule.associative .precRight .right args)
  | token, [content] => ruleResult (Rule.wrapped .token content)
  | immediateToken, [content] => ruleResult (Rule.wrapped .immediateToken content)
  | namedFunction, [.string name] | external, [.string name] =>
    return .callable (.doNothing place name)
  | ruleOfSchema, [v] => Exec.ofOutcome do return .rule (← Rule.ofSchema v)
  | nameOf, [v] => return v.nameOf
  | referencedName, [.rule r] => return .ofOption r.referencedName?
  | referencedName, [_] => return .missing
  | collectSymbols, [.rule r] => collectInto place r .missing
  | collectSymbols, [.rule r, found] => collectInto place r found
  | collectSymbols, [v] | collectSymbols, [v, _] => throw (.fault (v.noMethod "iter_children"))
  | build, [description] => buildResult run place description .missing
  | build, [description, base] => buildResult run place description base
  | load, [v] => Exec.ofOutcome do return .grammar (← Grammar.ofSchema place v)
  | references, [v] => Exec.ofFault (referencesResult place v)
  | builder, [] => return .builder place
  | toSchema, [v] => Exec.ofFault (v.toSchema place)
  | jsonText, [v] => Exec.ofFault do return .string (← (← v.toSchema place).jsonText)
  | children, [.rule r] => return .list { place, toList := r.children.map .rule }
  | children, [v] => throw (.fault (v.noMethod "iter_children"))
  | tag, [.rule r] => do
    return .string (← Exec.ofOutcome (Outcome.ofOption .missingAttribute r.tag?)).title
  | tag, [_] => throw (.fault .missingAttribute)
  | written, [v] => return .string (Text.withoutAddresses v.written)
  | shown, [v] => return .string (Text.withoutAddresses v.shown)
  | equal, [a, b] => Exec.ofFault do return .bool (← equalResult a b)
  | distinct, [v] => Exec.ofFault (distinctResult v)
  | isNormal, [.rule _] => return .bool true
  | isNormal, [v] => do
    let _ ← ruleResult v.toRule
    return .bool false
  | bareRule, [] => return .rule (.bare place)
  | lineage, [.string title] => do
    let kind ← Exec.ofOutcome (Outcome.ofOption .missingAttribute (Kind.ofTitle? title))
    return .list { place, toList := kind.lineage.map fun kind ↦ .string kind.title }
  | sections, [] =>
    return .list { place, toList := Section.all.map fun part ↦ .string part.title }
  | _, _ => throw (.fault .wrongType)

end Operation

end GrammarDoc
