import GrammarDoc.Answer
import GrammarDoc.Build.Guard
import GrammarDoc.Expr.Evaluation

/-!
# The bench

Single checks, carried out one after another on one journal. A check that raises a problem or
meets a fault leaves the journal as it was then, and the bench goes on.
-/

namespace GrammarDoc

/-- What the checks on a bench share. -/
structure Bench where
  posture : Posture
  journal : Journal Closure
  /-- The names collected from rules so far. -/
  symbols : List (Value Closure) := []
  /-- The guards that have been made, under the names they were given. -/
  guards : List (String × List (Guard (Value Closure))) := []
  /-- How many checks have been carried out. -/
  count : Nat := 0
  /-- The depth to which expressions may nest, which grows with the expressions met. -/
  depth : Nat := 1000

namespace Bench

/-- A check on the bench. -/
inductive Check where
  | validName (context : String) (within : Option String) (v : Expr)
  | declared (context : String) (within : Option String) (v : Expr)
  | notDeclared (context : String) (within : Option String) (v : Expr)
  | declare (name : Expr) (tag : String) (within : Option String)
  | normalize (context : String) (v : Expr)
  /-- Makes guards, the outermost first, each with an expression for its fallback. -/
  | make (as : String) (guards : List (Shape × Expr))
  /-- Passes a value through guards. To the result, once it is shown, an item may be added, and
  another one to the list that the result begins with. -/
  | pass (through : String) (v : Expr) (outer inner : Option Expr)
  | collect (rule : Expr)
  | report (kind : Kind) (message : String) (within : Option String) (v : Expr)
  | summarize

/-- What a check answers: its result, the problems that it added to the journal, the number of
problems in the journal, and the names declared. -/
structure Reply where
  result : Except Notice Display
  added : List Complaint
  count : Nat
  names : List (Display × String)

/-- The expressions that a check meets. -/
def Check.expressions : Check → List Expr
  | validName _ _ v | declared _ _ v | notDeclared _ _ v | declare v _ _ | normalize _ v
  | collect v | report _ _ _ v => [v]
  | pass _ v outer inner => v :: outer.toList ++ inner.toList
  | make _ guards => guards.map (·.2)
  | summarize => []

variable (bench : Bench)

/-- The place of the next check. -/
def place : Place := .step bench.count

/-- The value of an expression, as a part of the next check. -/
def value (title : String) (e : Expr) : Build Closure (Value Closure) :=
  Build.perform do
    Exec.present (← Expr.evaluate bench.depth { session := [] } (bench.place.part title) e)

/-- What is shown of a value. -/
def display (v : Value Closure) : Build Closure Display := do
  Build.ofOutcome (Outcome.ofFault ((← get).store.display v))

/-- The guards of a name. -/
def guards? (name : String) : Build Closure (List (Guard (Value Closure))) :=
  Build.ofOutcome (Outcome.ofOption .missingKey (bench.guards.lookup name))

/-- The rule that a check takes symbols from. -/
def rule? (e : Expr) : Build Closure (Rule (Value Closure)) := do
  match ← bench.value "rule" e with
  | .rule r => return r
  | v => throw (.fault (v.noMethod "iter_children"))

/-- Guards made of shapes and expressions for their fallbacks. -/
def guardsOf (guards : List (Shape × Expr)) : Build Closure (List (Guard (Value Closure))) :=
  guards.zipIdx.mapM fun ((shape, e), i) ↦
    return { shape, fallback := ← bench.value i.repr e }

/-- Adds an item to a value, which has to be a list. -/
def addTo (v item : Value Closure) : Build Closure Unit :=
  match v with
  | .list items => Build.perform (Exec.append items item)
  | v => throw (.fault (v.noMethod "append"))

/-- A value behind guards: itself or, if a guard stops it, a copy of the fallback. -/
def passed (stack : List (Guard (Value Closure))) (v : Value Closure) :
    Build Closure (Value Closure) := do
  Build.present (← guarded (Build.copied (bench.place.part "fallback")) stack pure v)

/-- Carries out a check: the bench after it and what is shown of its result. -/
def perform : Check → Build Closure (Bench × Display)
  | .validName context within v => do
    return (bench, .bool (← Build.requireValidName context within (← bench.value "value" v)))
  | .declared context within v => do
    return (bench, .bool (← Build.requireDeclared context within (← bench.value "value" v)))
  | .notDeclared context within v => do
    return (bench, .bool (← Build.requireNotDeclared context within (← bench.value "value" v)))
  | .declare name tag within => do
    return (bench, .bool (← Build.declare (← bench.value "name" name) tag within))
  | .normalize context v => do
    let rule ← Build.normalize context (← bench.value "value" v)
    return (bench, ← display (.ofOption (rule.map .rule)))
  | .make as guards => do
    let stack ← bench.guardsOf guards
    return ({ bench with guards := (as, stack) :: bench.guards }, .missing)
  | .pass through v outer inner => do
    let stack ← bench.guards? through
    let result ← bench.passed stack (← bench.value "value" v)
    let shown ← display result
    match outer with
    | some item => addTo result (← bench.value "outer" item)
    | none => pure ()
    match inner with
    | some item =>
      let result ← Build.present result
      let first ← Build.ofOutcome (Outcome.ofFault (result.item? (.int 0)))
      addTo first (← bench.value "inner" item)
    | none => pure ()
    return (bench, shown)
  | .collect e => do
    let symbols := (← bench.rule? e).addSymbols bench.symbols
    return ({ bench with symbols }, .list (← symbols.mapM display))
  | .report kind message within v => do
    Build.report ⟨.raised kind message (← bench.value "value" v), within⟩
    return (bench, .missing)
  | .summarize => do
    return (bench, .string (← get).report)

/-- What is shown of the outcome of a check. -/
def shownOutcome {α : Type} (store : Store Closure) :
    Outcome Closure (α × Display) → Except Fault (Except Notice Display)
  | .ok (_, shown) => return .ok shown
  | .error failure => do return .error (← store.notice failure)

/-- Carries out a check on the journal of the bench. There is no reply if it raised or added a
problem that cannot be shown. -/
def step (check : Check) : Bench × Except Fault Reply :=
  let bench := { bench with depth := bench.depth + Expr.sizeOfAll check.expressions }
  let (outcome, journal) := Build.start (bench.perform check) bench.posture bench.journal
  let after := match outcome with
    | .ok (after, _) => after
    | .error _ => bench
  let added := journal.problems.drop bench.journal.problems.length
  let reply : Except Fault Reply := do
    return {
      result := ← shownOutcome journal.store outcome
      added := ← journal.store.complaints added
      count := journal.problems.length
      names := ← journal.store.displayNamespace journal.names }
  ({ after with journal, count := bench.count + 1 }, reply)

/-- Carries out checks in order. -/
def steps (bench : Bench) : List Check → Except Fault (List Reply)
  | [] => return []
  | check :: rest => do
    let (after, reply) := bench.step check
    return (← reply) :: (← after.steps rest)

end Bench

end GrammarDoc
