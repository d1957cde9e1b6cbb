import GrammarDoc.Answer
import GrammarDoc.Expr.Evaluation

/-!
# Sessions

A session carries out steps one after another: it builds, loads and changes grammars, and keeps
them in variables that later steps can use. A step that fails binds nothing, and the session goes
on; what it had changed before it failed stays changed.
-/

namespace GrammarDoc

/-- What a session keeps between its steps. -/
structure Session where
  scope : Scope := []
  store : Store Closure := {}
  /-- How many steps have been carried out. -/
  count : Nat := 0
  /-- The depth to which expressions may nest, which grows with the expressions met. -/
  depth : Nat := 1000

/-- How a grammar is built. -/
inductive Mode where
  /-- Collecting all problems, with a summary. -/
  | collect
  /-- Ending at the first problem. -/
  | failFast
  /-- Assembled under a posture, with the journal as the result. -/
  | assemble (posture : Posture)

/-- What is to be built, and how. -/
structure BuildRequest where
  description : Expr
  base : Expr
  extraReferences : Bool
  mode : Mode
  /-- Whether the lines of the journal are asked for. -/
  logged : Bool

/-- A step of a session. Steps name variables to take things `of` and to bind them `as`. -/
inductive Step where
  | build (request : BuildRequest) (as : Option String)
  | load (data : Expr) (as : String)
  /-- Writes a grammar as a document and reads it again. -/
  | reload (of as : String)
  | references (of as : String)
  | contains (of : String) (key : Expr)
  | append (of part : String) (item : Expr)
  | setRule (of name : String) (rule : Expr)
  | show (of : String)
  | equal (a b : String)
  | evaluate (e : Expr)

/-- The expressions that a step meets. -/
def Step.expressions : Step → List Expr
  | .build request _ => [request.description, request.base]
  | .load e _ | .contains _ e | .append _ _ e | .setRule _ _ e | .evaluate e => [e]
  | .reload _ _ | .references _ _ | .show _ | .equal _ _ => []

/-- What a step has come to: what it binds, and what it answers once that is bound. -/
structure Conclusion where
  bound : Option (String × Value Closure) := none
  answer : Store Closure → Except Fault Answer

/-- What a build has come to: the grammar if there is one, and the reply. -/
structure BuildResult where
  built : Option (Grammar (Value Closure))
  store : Store Closure
  reply : Reply

namespace BuildRequest

variable (request : BuildRequest)

/-- The reply with an answer, and with the lines of a journal if they are asked for. -/
def replyWith (journal : Journal Closure) (answer : Answer) : Reply where
  answer
  log := if request.logged then some journal.lines else none

/-- The result of a build that had an outcome, given what it answers if there is a grammar. A
failure that cannot be shown is answered by its fault alone. -/
def conclude (outcome : Outcome Closure (Grammar (Value Closure))) (journal : Journal Closure)
    (answer : Grammar (Value Closure) → Except Fault Answer) : BuildResult :=
  match outcome with
  | .ok g =>
    let shown := match answer g with
      | .ok answer => answer
      | .error f => .failed (.fault f)
    { built := some g, store := journal.store, reply := request.replyWith journal shown }
  | .error failure =>
    let reply := match journal.store.notice failure with
      | .ok notice => request.replyWith journal (.failed notice)
      | .error f => { answer := .failed (.fault f) }
    { built := none, store := journal.store, reply }

/-- What is answered to a build that is assembled: what was built, or why not, beside the problems
and the names declared. -/
def assembled (outcome : Outcome Closure (Grammar (Value Closure))) (journal : Journal Closure) :
    Except Fault Answer := do
  let store := journal.store
  let shown ← match outcome with
    | .ok g => pure (Notice.orShown (store.sheet g))
    | .error failure => pure (.error (← store.notice failure))
  let problems ← store.complaints journal.problems
  return .assembled shown problems (← store.displayNamespace journal.names)

/-- Builds what a request asks for, starting from a store. -/
def carryOut (setting : Setting Closure) (description : Value Closure) (store : Store Closure) :
    BuildResult :=
  match request.mode with
  | .collect =>
    let (outcome, journal) := setting.collect description store
    request.conclude outcome journal fun g ↦ do
      let sheet ← journal.store.sheet g
      let names ← journal.store.displayNames g
      let problems ← journal.store.complaints journal.problems
      return .collected sheet names problems journal.report
  | .failFast =>
    let (outcome, journal) := setting.build description store
    request.conclude outcome journal fun g ↦ do return .grammar (← journal.store.sheet g)
  | .assemble posture =>
    let (outcome, journal) := Build.start (setting.assemble description) posture { store }
    let answer := match assembled outcome journal with
      | .ok answer => answer
      | .error f => .failed (.fault f)
    { built := outcome.toOption, store := journal.store, reply := request.replyWith journal answer }

end BuildRequest

namespace Session

variable (s : Session)

/-- The place of the next step. -/
def place : Place := .step s.count

/-- The session with a variable bound. -/
def bind (name : String) (v : Value Closure) : Session := { s with scope := (name, v) :: s.scope }

/-- The session with what a step binds, if it binds anything. -/
def bindAll : Option (String × Value Closure) → Session
  | some (name, v) => s.bind name v
  | none => s

/-- The value of an expression that the session has met, as a part of the next step. -/
def value (title : String) (e : Expr) : Exec Closure (Value Closure) :=
  Expr.evaluate s.depth { session := s.scope } (s.place.part title) e

/-- The value of a variable, as it is at present. -/
def held (name : String) : Exec Closure (Value Closure) := do
  Exec.present (← Exec.ofOutcome (Outcome.ofOption .missingKey (s.scope.lookup name)))

/-- Adds an item to a part of what a variable holds, which is looked at before the item is. -/
def append (of part : String) (item : Expr) : Exec Closure Unit := do
  match ← Exec.ofFault ((← s.held of).attribute? part) with
  | .list items => Exec.append items (← s.value "item" item)
  | v =>
    match v.noMethod "append" with
    | .wrongType =>
      let _ ← s.value "item" item
      throw (.fault .wrongType)
    | f => throw (.fault f)

/-- Sets a rule of what a variable holds, which is looked at after the rule is. -/
def setRule (of name : String) (rule : Expr) : Exec Closure Unit := do
  let v ← s.value "rule" rule
  match ← Exec.ofFault ((← s.held of).attribute? "rules") with
  | .mapping rules => Exec.setEntries rules.place (Table.insert rules.toList (.string name) v)
  | _ => throw (.fault .wrongType)

/-- Carries out a step that is no build. -/
def perform : Step → Exec Closure Conclusion
  | .build _ _ => return { answer := fun _ ↦ .ok .done }
  | .load data as => do
    let data ← Exec.present (← s.value "data" data)
    let g ← Exec.ofOutcome (Grammar.ofSchema (s.place.part "grammar") data)
    return { bound := some (as, .grammar g), answer := fun store ↦ .grammar <$> store.sheet g }
  | .reload of as => do
    let g ← s.held of
    let document ← Exec.ofFault (g.toSchema (s.place.part "document"))
    let copy ← Exec.ofOutcome (Grammar.ofSchema (s.place.part "grammar") document)
    return {
      bound := some (as, .grammar copy)
      answer := fun _ ↦ .equal <$> Operation.equalResult (.grammar copy) g }
  | .references of as => do
    let r ← Exec.ofFault (Operation.referencesResult (s.place.part "references") (← s.held of))
    return { bound := some (as, r), answer := fun store ↦ match r with
      | .references r => do
        let rules ← (Table.keys r.rules.toList).mapM store.display
        return .references (← r.names.mapM store.display) rules
          (← store.display (.mapping r.externals))
      | _ => .ok .done }
  | .contains of key => do
    let key ← Exec.present (← s.value "key" key)
    let found ← Exec.ofFault ((← s.held of).contains? key)
    return { answer := fun _ ↦ .ok (.result (.bool found)) }
  | .append of part item => do
    s.append of part item
    return { answer := fun _ ↦ .ok .done }
  | .setRule of name rule => do
    s.setRule of name rule
    return { answer := fun _ ↦ .ok .done }
  | .show of => do
    match ← s.held of with
    | .grammar g => return { answer := fun store ↦ do
        return .shown (← store.sheet g) (← store.displayNames g) }
    | v => throw (.fault (v.noMethod "to_json"))
  | .equal a b => do
    let a ← s.held a
    let b ← s.held b
    return { answer := fun _ ↦ .equal <$> Operation.equalResult a b }
  | .evaluate e => do
    let v ← s.value "expression" e
    return { answer := fun store ↦ .result <$> store.display v }

/-- The description and the setting that a request asks for. -/
def prepare (request : BuildRequest) : Exec Closure (Value Closure × Setting Closure) := do
  let description ← s.value "options" request.description
  let base ← s.value "base" request.base
  return (description, {
    run := Closure.run s.scope (Expr.evaluate s.depth)
    place := s.place.part "build"
    base
    extraReferences := request.extraReferences })

/-- Carries out a request, and binds the grammar if there is one. -/
def build (request : BuildRequest) (as : Option String) : Session × Except Fault Reply :=
  match (s.prepare request).start s.store with
  | (.error failure, store) =>
    ({ s with store }, do return { answer := .failed (← store.notice failure) })
  | (.ok (description, setting), store) =>
    let result := request.carryOut setting description store
    let bound := do return (← as, Value.grammar (← result.built))
    ({ s with store := result.store }.bindAll bound, .ok result.reply)

/-- Carries out a step. There is no reply if it raised a problem that cannot be shown. -/
def step (s : Session) (next : Step) : Session × Except Fault Reply :=
  let s := { s with depth := s.depth + Expr.sizeOfAll next.expressions }
  let (after, reply) := match next with
    | .build request as => s.build request as
    | next =>
      match (s.perform next).start s.store with
      | (.error failure, store) =>
        ({ s with store }, do return { answer := .failed (← store.notice failure) })
      | (.ok conclusion, store) =>
        let answer := match conclusion.answer store with
          | .ok answer => answer
          | .error f => .failed (.fault f)
        ({ s with store }.bindAll conclusion.bound, .ok { answer })
  ({ after with count := after.count + 1 }, reply)

/-- Carries out steps in order. -/
def steps (s : Session) : List Step → Except Fault (List Reply)
  | [] => return []
  | next :: rest => do
    let (after, reply) := s.step next
    return (← reply) :: (← after.steps rest)

end Session

end GrammarDoc
