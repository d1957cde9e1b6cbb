import GrammarDoc.Problem

/-!
# Rule combinators

The functions that descriptions build rules with. Wherever a rule is wanted, a string, a regular
expression or a named function may stand for one; `Value.toRule` makes it a rule. Models `normalize`
and the combinators from `seq` to `immediate_token`.
-/

namespace GrammarDoc

variable {Code : Type}

/-- The rule that a value stands for: a literal string, a regular expression without its flags, a
rule itself, or a symbol for a function. Models `normalize`. -/
def Value.toRule : Value Code → Except (Cause Code) (Rule (Value Code))
  | .rule r => .ok r
  | .string s => .ok (.string (.string s))
  | .pattern p => .ok (.pattern (.string p.source))
  | .missing => .error .undefined
  | .callable f =>
    match f.name with
    | some name =>
      if Text.isIdentifier name then .ok (.symbol (.string name)) else .error (.notANamedRule f)
    | none => .error (.notANamedRule f)
  | v => .error (.notARule v)

/-- The rules that some values stand for, or why the first that stands for none does not. -/
def Value.toRules : List (Value Code) → Except (Cause Code) (List (Rule (Value Code)))
  | [] => .ok []
  | v :: rest => do return (← v.toRule) :: (← toRules rest)

namespace Combinator

/-- The one rule that a combinator is given. Models `_check_one_rule`. -/
def theRule (caller : Combinator) : List (Value Code) → Except (Cause Code) (Value Code)
  | [v] => .ok v
  | [] => .error (.noRule caller)
  | _ => .error (.severalRules caller)

/-- The precedence that a combinator is given: a number, and truth values are none. Models
`_check_precedence`. -/
def thePrecedence (caller : Combinator) : Value Code → Except (Cause Code) (Value Code)
  | .missing => .error (.noPrecedence caller)
  | .int i => .ok (.int i)
  | .double x => .ok (.double x)
  | v => .error (.notAPrecedence caller v)

end Combinator

namespace Rule

/-- The source of a regular expression, given compiled or as it is. Models `pattern`. -/
def ofPattern : Value Code → Rule (Value Code)
  | .pattern p => .pattern (.string p.source)
  | source => .pattern source

/-- Members one after another, or as alternatives. Models `seq` and `choice`. -/
def grouped (kind : Grouping) (members : List (Value Code)) :
    Except (Cause Code) (Rule (Value Code)) := do
  return .group kind (← Value.toRules members)

/-- A rule or nothing. Models `optional`. -/
def optional (args : List (Value Code)) : Except (Cause Code) (Rule (Value Code)) := do
  let r ← (← Combinator.theRule .optional args).toRule
  return .group .choice [r, .blank]

/-- A repetition or a token. Models `token` and `immediate_token`. -/
def wrapped (kind : Wrapping) (content : Value Code) : Except (Cause Code) (Rule (Value Code)) := do
  return .wrap kind (← content.toRule)

/-- A rule, zero or more times. Models `repeat`. -/
def repeated (args : List (Value Code)) : Except (Cause Code) (Rule (Value Code)) := do
  wrapped .repeated (← Combinator.theRule .repeated args)

/-- A rule, one or more times. Models `repeat1`. -/
def repeated1 (args : List (Value Code)) : Except (Cause Code) (Rule (Value Code)) := do
  wrapped .repeated1 (← Combinator.theRule .repeated1 args)

/-- A rule with a field name, which may be any value. Models `field`. -/
def named (name content : Value Code) : Except (Cause Code) (Rule (Value Code)) := do
  return .field name (← content.toRule)

/-- What a rule appears as: an anonymous node under a string, or a named node under the name of a
symbol or a function. -/
def aliasTarget (target : Value Code) : Except (Cause Code) (Bool × Value Code) :=
  match target with
  | .string s => .ok (false, .string s)
  | .rule (.symbol name) => .ok (true, name)
  | .callable f =>
    match f.name with
    | some name =>
      if Text.isIdentifier name then .ok (true, .string name)
      else .error (.notAnAliasTarget target)
    | none => .error (.notAnAliasTarget target)
  | _ => .error (.notAnAliasTarget target)

/-- A rule that appears as something else. Models `alias`. -/
def renamed (content target : Value Code) : Except (Cause Code) (Rule (Value Code)) := do
  let r ← content.toRule
  let (named, value) ← aliasTarget target
  return .aliased r named value

/-- A rule with a precedence that has to be given. Models `prec` and `prec_dynamic`. -/
def withPrecedence (caller : Combinator) (variant : Precedence) (value : Value Code)
    (args : List (Value Code)) : Except (Cause Code) (Rule (Value Code)) := do
  let value ← caller.thePrecedence value
  let r ← (← caller.theRule args).toRule
  return .prec variant value r

/-- A rule with an associativity: a precedence may be given before the rule, and is 0 if not. Models
`prec_left` and `prec_right`. -/
def associative (caller : Combinator) (variant : Precedence) :
    List (Value Code) → Except (Cause Code) (Rule (Value Code))
  | value :: next :: rest => withPrecedence caller variant value (next :: rest)
  | args => withPrecedence caller variant (.int 0) args

end Rule

end GrammarDoc
