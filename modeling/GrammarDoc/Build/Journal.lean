import GrammarDoc.Exec
import GrammarDoc.Section.Basic
import GrammarDoc.Value.Table

/-!
# Builds

A build goes through the sections of a description and keeps a journal: the names declared so far,
the problems found, a line for each thing worth telling, and the store that the functions of the
description work on. Depending on its posture a build ends at the first problem or goes on; in
either case the journal is left as it was when the build ended. Models `ErrorLog`, and what
`GrammarAssembler` logs.
-/

namespace GrammarDoc

/-- The names declared so far, each with a tag that says where. -/
abbrev Namespace (Code : Type) := Table Code String

/-- A line of the journal. -/
inductive Entry (Code : Type) where
  /-- A section is begun; the name of the grammar is known after the first. -/
  | began (place : Section) (grammar : Option (Value Code))
  /-- A problem is reported. -/
  | reported (p : Problem Code)
  /-- All problems are reported together. -/
  | summary (text : String)

/-- The text of a line of the journal. -/
def Entry.text {Code : Type} : Entry Code → String
  | began s none => "DEBUG validating grammar " ++ s.title
  | began s (some grammar) => "DEBUG validating " ++ s.title ++ " of " ++ grammar.shown
  | reported p =>
    "DEBUG grammar error in " ++ p.within.getD Text.missingWritten ++ ": " ++ p.message
  | summary text => "DEBUG " ++ text

/-- What a build keeps. -/
structure Journal (Code : Type) where
  names : Namespace Code := []
  /-- The problems found so far, none if the build ends at the first. -/
  problems : List (Problem Code) := []
  entries : List (Entry Code) := []
  store : Store Code := {}

/-- Whether a build ends at the first problem or collects all of them. Models the `fail_fast` of an
`ErrorLog`. -/
inductive Posture where
  | failFast
  | collect
  deriving DecidableEq

/-- A step of a build. -/
abbrev Build (Code : Type) := ReaderT Posture (ExceptT (Failure Code) (StateM (Journal Code)))

namespace Build

variable {Code α β : Type}

/-- Carries out a step under a posture, from a journal. -/
def start (step : Build Code α) (posture : Posture) (journal : Journal Code) :
    Outcome Code α × Journal Code :=
  ((step posture).run).run journal

/-- A step that has a result or fails at once. -/
def ofOutcome (outcome : Outcome Code α) : Build Code α := fun _ ↦ ExceptT.mk (pure outcome)

/-- Carries out a step on the store; that it fails is a result. -/
def attempt (step : Exec Code α) : Build Code (Outcome Code α) :=
  modifyGet fun journal ↦
    let (outcome, store) := step.start journal.store
    (outcome, { journal with store })

/-- Carries out a step on the store. -/
def perform (step : Exec Code α) : Build Code α := do ofOutcome (← attempt step)

/-- A value as it is at present. -/
def present (v : Value Code) : Build Code (Value Code) := return (← get).store.present v

/-- Writes a line. -/
def log (entry : Entry Code) : Build Code Unit :=
  modify fun journal ↦ { journal with entries := journal.entries ++ [entry] }

/-- Reports a problem: writes a line about it, then ends the build or goes on. Models
`ErrorLog.report`. -/
def report (p : Problem Code) : Build Code Unit := do
  log (.reported p)
  match ← read with
  | .failFast => throw (.problem p)
  | .collect => modify fun journal ↦ { journal with problems := journal.problems ++ [p] }

/-- The results of a step for each item, of those items that have one. -/
def filterMap (step : α → Build Code (Option β)) : List α → Build Code (List β)
  | [] => return []
  | a :: rest => do
    match ← step a with
    | none => filterMap step rest
    | some b => return b :: (← filterMap step rest)

/-- The results of a step for each item and its position. -/
def filterMapIdx (step : Nat → α → Build Code (Option β)) (items : List α) :
    Build Code (List β) :=
  filterMap (fun (a, i) ↦ step i a) items.zipIdx

end Build

end GrammarDoc
