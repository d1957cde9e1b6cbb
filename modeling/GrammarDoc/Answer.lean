import GrammarDoc.Build.Journal
import GrammarDoc.Report
import GrammarDoc.Text.Address
import GrammarDoc.Value.Display

/-!
# Answers

What is shown of the results and failures of steps. Everything is shown as it is at the time of the
answer, texts about values are shown without addresses, and what cannot be shown is a fault instead.
-/

namespace GrammarDoc

/-- What is shown of a problem. -/
structure Complaint where
  kind : Kind
  message : String
  within : Option String
  value : Display

/-- What is shown of a failure. -/
inductive Notice where
  | problem (complaint : Complaint)
  | fault (f : Fault)

/-- What is shown of a grammar: the parts of its document. -/
abbrev Sheet := List (String × Display)

variable {Code : Type}

namespace Store

variable (store : Store Code)

/-- What is shown of a value at present. -/
def display (v : Value Code) : Except Fault Display := (store.present v).display

/-- What is shown of a grammar at present. -/
def sheet (g : Grammar (Value Code)) : Except Fault Sheet := do
  match ← store.display (.grammar g) with
  | .grammar parts => return parts
  | _ => return []

/-- What is shown of the names of a grammar at present. -/
def displayNames (g : Grammar (Value Code)) : Except Fault (List Display) := do
  match store.present (.grammar g) with
  | .grammar g => g.names.mapM Value.display
  | _ => return []

/-- What is shown of a problem. -/
def complaint (p : Problem Code) : Except Fault Complaint := do
  return {
    kind := p.kind
    message := Text.withoutAddresses p.message
    within := p.within
    value := ← store.display p.value }

/-- What is shown of some problems. -/
def complaints (problems : List (Problem Code)) : Except Fault (List Complaint) :=
  problems.mapM store.complaint

/-- What is shown of a failure. -/
def notice : Failure Code → Except Fault Notice
  | .problem p => do return .problem (← store.complaint p)
  | .fault f => return .fault f

/-- What is shown of the names that are declared. -/
def displayNamespace (names : Namespace Code) : Except Fault (List (Display × String)) :=
  names.mapM fun (name, tag) ↦ do return (← store.display name, tag)

end Store

namespace Journal

variable (journal : Journal Code)

/-- The lines of a journal, as they are shown. -/
def lines : List String := journal.entries.map fun entry ↦ Text.withoutAddresses entry.text

/-- The report on the problems of a journal, as it is shown. -/
def report : String := Text.withoutAddresses (GrammarDoc.report journal.problems)

end Journal

/-- A display, or the fault instead of it. -/
def Notice.orShown {α : Type} : Except Fault α → Except Notice α
  | .ok shown => .ok shown
  | .error f => .error (.fault f)

/-- What a step answers. -/
inductive Answer where
  | failed (notice : Notice)
  | grammar (sheet : Sheet)
  | collected (sheet : Sheet) (names : List Display) (problems : List Complaint) (report : String)
  | assembled (outcome : Except Notice Sheet) (problems : List Complaint)
    (names : List (Display × String))
  | references (names rules : List Display) (externals : Display)
  | shown (sheet : Sheet) (names : List Display)
  | equal (verdict : Bool)
  | result (v : Display)
  | done

/-- An answer, and the lines of the journal if they were asked for. -/
structure Reply where
  answer : Answer
  log : Option (List String) := none

end GrammarDoc
