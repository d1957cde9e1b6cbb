import GrammarDoc.Problem
import GrammarDoc.Text.Lines

/-!
# Reports

The text of a list of problems: how many there are, and below that each with its section, indented.
Models `format_error` and `format_error_report`.
-/

namespace GrammarDoc

variable {Code : Type}

/-- The text of a problem, with its section in front if it has one. Models `format_error`. -/
def Problem.text (p : Problem Code) : String :=
  match p.within with
  | none => p.message
  | some title => "In " ++ title ++ ": " ++ p.message

/-- The texts of some problems, one below the other. -/
def joinedText (problems : List (Problem Code)) : String :=
  "\n".intercalate (problems.map Problem.text)

/-- The report on some problems. Models `format_error_report`. -/
def report (problems : List (Problem Code)) : String :=
  let noun := if problems.length == 1 then "error" else "errors"
  let heading := problems.length.repr ++ " " ++ noun
  let body := joinedText problems
  if body == "" then heading else heading ++ ":\n" ++ Text.indent "    " body

end GrammarDoc
