import GrammarDoc.Problem
import GrammarDoc.Value.Copy

/-!
# Steps on a store

Whatever runs the code of a function may change collections, so it works on a store: it has a
result or fails, and in either case the store is left as it was then.
-/

namespace GrammarDoc

/-- A step that may change collections. -/
abbrev Exec (Code : Type) := ExceptT (Failure Code) (StateM (Store Code))

namespace Exec

variable {Code α : Type}

/-- Carries out a step on a store. -/
def start (step : Exec Code α) (store : Store Code) : Outcome Code α × Store Code :=
  step.run.run store

/-- A step that has a result or fails at once. -/
def ofOutcome (outcome : Outcome Code α) : Exec Code α := ExceptT.mk (pure outcome)

/-- A step that has a result or meets a fault. -/
def ofFault (outcome : Except Fault α) : Exec Code α := ofOutcome (Outcome.ofFault outcome)

/-- A value as it is at present. -/
def present (v : Value Code) : Exec Code (Value Code) := return (← get).present v

/-- A value with its present items or entries, if it is a collection. -/
def read (v : Value Code) : Exec Code (Value Code) := return (← get).read v

/-- A copy of a value. -/
def copy (copying : Place) (v : Value Code) : Exec Code (Value Code) :=
  modifyGet fun store ↦ store.copy copying v

/-- Changes the items of a list. -/
def setItems (place : Place) (items : List (Value Code)) : Exec Code Unit :=
  modify fun store ↦ store.setItems place items

/-- Adds an item at the end of a list. -/
def append (list : Items (Value Code)) (v : Value Code) : Exec Code Unit :=
  modify fun store ↦ store.append list v

/-- Changes the entries of a mapping. -/
def setEntries (place : Place) (entries : List (Value Code × Value Code)) : Exec Code Unit :=
  modify fun store ↦ store.setEntries place entries

/-- A finished step leaves the store alone. -/
@[simp] theorem start_pure (a : α) (store : Store Code) :
    start (pure a) store = (.ok a, store) := rfl

/-- A failed step leaves the store alone. -/
@[simp] theorem start_throw (failure : Failure Code) (store : Store Code) :
    start (throw failure : Exec Code α) store = (.error failure, store) := rfl

/-- A given outcome comes with the store as it is. -/
@[simp] theorem start_ofOutcome (outcome : Outcome Code α) (store : Store Code) :
    start (ofOutcome outcome) store = (outcome, store) := rfl

/-- Looking at a value leaves the store alone. -/
@[simp] theorem start_present (v : Value Code) (store : Store Code) :
    start (present v) store = (.ok (store.present v), store) := rfl

end Exec

end GrammarDoc
