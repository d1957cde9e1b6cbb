import GrammarDoc.Expr.Basic

/-!
# Evaluation

The value of an expression. Operands are evaluated from left to right, and the first failure is the
failure of the whole. What an expression makes, it makes at a place of its own, within that of the
expression that it is part of; so every evaluation of a function's body has places of its own, too.
Evaluation is bounded by a depth.
-/

namespace GrammarDoc

/-- A mapping with one more entry, whose key must be such as may be looked up. -/
def Table.insert? {Code : Type} (table : Table Code (Value Code)) (key v : Value Code) :
    Outcome Code (Table Code (Value Code)) :=
  if key.canBeKey then .ok (table.insert key v) else .error (.fault .wrongType)

/-- A double-precision number from its text, written at a place. -/
def Double.ofText (place : Place) : String → Double
  | "nan" => .nan place
  | text => .number text

/-- The variables that an expression may use. -/
structure Environment where
  /-- Those of the session. -/
  session : Scope
  /-- Those of the function that the expression is part of, if it is part of one. -/
  inner : Option Scope := none

namespace Environment

/-- The variables in use: those of the session, unless a function has its own. -/
def scope (env : Environment) : Scope := env.inner.getD env.session

/-- The value of a variable. -/
def lookup? (env : Environment) (name : String) : Outcome Closure (Value Closure) :=
  Outcome.ofOption .missingKey (env.scope.lookup name)

end Environment

/-- What the code of functions does, given the variables of the session and the evaluation of
expressions at places. -/
def Closure.run (session : Scope)
    (evaluate : Environment → Place → Expr → Exec Closure (Value Closure)) : Interpreter Closure
  | place, .mk body captured, bindings =>
    evaluate { session, inner := some (bindings ++ captured.getD session) } place body

namespace Expr

/-- The value of an expression at a place, if it is found within a depth. -/
def evaluate : Nat → Environment → Place → Expr → Exec Closure (Value Closure)
  | 0, _, _, _ => throw (.fault .tooDeep)
  | depth + 1, env, place, e => do
    let value (part : Place) (e : Expr) := evaluate depth env part e
    let values (es : List Expr) := es.zipIdx.mapM fun (e, i) ↦ value (place.item i) e
    let run := Closure.run env.session (evaluate depth)
    match e with
    | missing => return .missing
    | bool b => return .bool b
    | int i => return .int i
    | double text => return .double (.ofText place text)
    | string s => return .string s
    | pattern p => return .pattern p
    | list items => return .list { place, toList := ← values items }
    | tuple items => return .tuple (← values items)
    | mapping entries =>
      let insert (table : Table Closure (Value Closure)) (entry : (Expr × Expr) × Nat) := do
        let ((key, v), i) := entry
        let key ← value ((place.item i).part "key") key
        let v ← value ((place.item i).part "value") v
        Exec.ofOutcome (table.insert? key v)
      return .mapping { place, toList := ← entries.zipIdx.foldlM insert [] }
    | function name signature body =>
      return .callable ⟨place, name, signature, .code (.mk body env.inner)⟩
    | var name => Exec.ofOutcome (env.lookup? name)
    | attr of name => do Exec.ofFault ((← value (place.part "of") of).attribute? name)
    | item of key => do
      let container ← value (place.part "of") of
      let key ← value (place.part "key") key
      Exec.ofFault ((← Exec.read container).item? key)
    | add a b => do
      let first ← value (place.part "first") a
      let second ← value (place.part "second") b
      Exec.ofFault ((← Exec.read first).add? place (← Exec.read second))
    | invoke of => do
      match (← value (place.part "of") of).callable? with
      | some f => f.apply run (place.part "call") []
      | none => throw (.fault .wrongType)
    | raise kind message within v => do
      let message ← value (place.part "message") message
      let text := (← Exec.present message).shown
      let v ← value (place.part "value") v
      match kind with
      | some kind => throw (.problem ⟨.raised kind text v, within⟩)
      | none => throw (.fault .refused)
    | call operation args => do
      let args ← (← values args).mapM Exec.present
      operation.apply run place args

end Expr

end GrammarDoc
