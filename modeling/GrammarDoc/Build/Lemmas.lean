import GrammarDoc.Build.Journal

/-!
# Laws of builds

What each operation of a build does to the journal, seen through `Build.start`: results pass
through, a failure ends the build with the journal as it was then, and reporting depends on the
posture.
-/

namespace GrammarDoc.Build

variable {Code α β : Type}

/-- A finished step leaves the journal alone. -/
@[simp] theorem start_pure (a : α) (posture : Posture) (journal : Journal Code) :
    start (pure a) posture journal = (.ok a, journal) := rfl

/-- A failed step leaves the journal alone. -/
@[simp] theorem start_throw (failure : Failure Code) (posture : Posture) (journal : Journal Code) :
    start (throw failure : Build Code α) posture journal = (.error failure, journal) := rfl

/-- The second of two steps starts from where the first has left off, unless the first failed. -/
@[simp] theorem start_bind (step : Build Code α) (next : α → Build Code β) (posture : Posture)
    (journal : Journal Code) :
    start (step >>= next) posture journal =
      match start step posture journal with
      | (.ok a, after) => start (next a) posture after
      | (.error failure, after) => (.error failure, after) := by
  simp only [start, bind, ReaderT.bind, ExceptT.bind, ExceptT.mk, ExceptT.run, StateT.bind,
    StateT.run]
  cases step posture journal with
  | mk outcome after => cases outcome <;> rfl

/-- Changing the journal is a step that always finishes. -/
@[simp] theorem start_modify (f : Journal Code → Journal Code) (posture : Posture)
    (journal : Journal Code) :
    start (modify f) posture journal = (.ok (), f journal) := rfl

/-- Reading the journal is a step that always finishes. -/
@[simp] theorem start_get (posture : Posture) (journal : Journal Code) :
    start (get : Build Code _) posture journal = (.ok journal, journal) := rfl

/-- Every step may ask for the posture. -/
@[simp] theorem start_read (posture : Posture) (journal : Journal Code) :
    start (read : Build Code _) posture journal = (.ok posture, journal) := rfl

/-- A given outcome comes with the journal as it is. -/
@[simp] theorem start_ofOutcome (outcome : Outcome Code α) (posture : Posture)
    (journal : Journal Code) :
    start (ofOutcome outcome) posture journal = (outcome, journal) := rfl

/-- Attempting a step on the store always finishes, and keeps what it did to the store. -/
@[simp] theorem start_attempt (step : Exec Code α) (posture : Posture) (journal : Journal Code) :
    start (attempt step) posture journal =
      (.ok (step.start journal.store).1,
        { journal with store := (step.start journal.store).2 }) := rfl

/-- Carrying out a step on the store has its outcome, and keeps what it did to the store. -/
@[simp] theorem start_perform (step : Exec Code α) (posture : Posture) (journal : Journal Code) :
    start (perform step) posture journal =
      ((step.start journal.store).1,
        { journal with store := (step.start journal.store).2 }) := rfl

/-- Looking at a value leaves the journal alone. -/
@[simp] theorem start_present (v : Value Code) (posture : Posture) (journal : Journal Code) :
    start (present v) posture journal = (.ok (journal.store.present v), journal) := rfl

/-- Logging adds one line at the end. -/
theorem start_log (entry : Entry Code) (posture : Posture) (journal : Journal Code) :
    start (log entry) posture journal =
      (.ok (), { journal with entries := journal.entries ++ [entry] }) := rfl

/-- A build that collects goes on after a report, with one more problem and one more line. -/
theorem start_report_collect (p : Problem Code) (journal : Journal Code) :
    start (report p) .collect journal =
      (.ok (), { journal with
        problems := journal.problems ++ [p], entries := journal.entries ++ [.reported p] }) := rfl

/-- A build that is to end at the first problem ends with the report, whose line is the last. -/
theorem start_report_failFast (p : Problem Code) (journal : Journal Code) :
    start (report p) .failFast journal =
      (.error (.problem p), { journal with entries := journal.entries ++ [.reported p] }) := rfl

/-- Nothing comes of no items. -/
@[simp] theorem filterMap_nil (step : α → Build Code (Option β)) :
    filterMap step [] = pure [] := rfl

end GrammarDoc.Build
