/-!
# Regular expressions

A compiled regular expression as the building functions see it: its source text and the flags it
was compiled with. Flags come from the one who compiles it and from flag groups such as `(?i)` at
the head of the source.
-/

namespace GrammarDoc

/-- The flags of a regular expression. -/
structure PatternFlags where
  ignoreCase : Bool := false
  multiLine : Bool := false
  dotAll : Bool := false
  verbose : Bool := false
  ascii : Bool := false
  deriving DecidableEq

namespace PatternFlags

/-- Adds the flag that a letter stands for; other letters change nothing. -/
def insertLetter (flags : PatternFlags) : Char → PatternFlags
  | 'i' => { flags with ignoreCase := true }
  | 'm' => { flags with multiLine := true }
  | 's' => { flags with dotAll := true }
  | 'x' => { flags with verbose := true }
  | 'a' => { flags with ascii := true }
  | _ => flags

/-- The flags that the letters stand for. -/
def ofLetters (letters : List Char) : PatternFlags := letters.foldl insertLetter {}

/-- Whichever flags either side has. -/
def union (a b : PatternFlags) : PatternFlags where
  ignoreCase := a.ignoreCase || b.ignoreCase
  multiLine := a.multiLine || b.multiLine
  dotAll := a.dotAll || b.dotAll
  verbose := a.verbose || b.verbose
  ascii := a.ascii || b.ascii

/-- The names of the flags, in the order in which they are written. -/
def names (flags : PatternFlags) : List String :=
  [(flags.ignoreCase, "re.IGNORECASE"), (flags.multiLine, "re.MULTILINE"),
    (flags.dotAll, "re.DOTALL"), (flags.verbose, "re.VERBOSE"),
    (flags.ascii, "re.ASCII")].filterMap fun (set, name) ↦ if set then some name else none

/-- The places in the head of a source, where flag groups may stand. -/
inductive HeadPlace where
  /-- Between two elements. -/
  | between
  /-- Behind an opening parenthesis. -/
  | opened
  /-- Behind an opening parenthesis and a question mark, with the letters read since. -/
  | group (letters : List Char)
  /-- In a comment group. -/
  | commentGroup
  /-- In a comment that ends with the line. -/
  | lineComment

/-- The flags of the flag groups at the head of a source. Comment groups may stand among them and,
in a verbose source, blanks and line comments; anything else ends the head. In a comment, what
follows a backslash does not end it. -/
def ofHead (verbose : Bool) : HeadPlace → PatternFlags → List Char → PatternFlags
  | _, flags, [] => flags
  | .between, flags, c :: rest =>
    if c == '(' then ofHead verbose .opened flags rest
    else if verbose && c == '#' then ofHead verbose .lineComment flags rest
    else if verbose && c ∈ [' ', '\t', '\n', '\r', '\x0b', '\x0c'] then
      ofHead verbose .between flags rest
    else flags
  | .opened, flags, c :: rest => if c == '?' then ofHead verbose (.group []) flags rest else flags
  | .group letters, flags, c :: rest =>
    if c == '#' && letters.isEmpty then ofHead verbose .commentGroup flags rest
    else if c == ')' then ofHead verbose .between (flags.union (ofLetters letters)) rest
    else if c ∈ ['a', 'i', 'm', 's', 'u', 'x'] then
      ofHead verbose (.group (c :: letters)) flags rest
    else flags
  | .commentGroup, flags, '\\' :: _ :: rest => ofHead verbose .commentGroup flags rest
  | .commentGroup, flags, c :: rest =>
    ofHead verbose (if c == ')' then .between else .commentGroup) flags rest
  | .lineComment, flags, '\\' :: _ :: rest => ofHead verbose .lineComment flags rest
  | .lineComment, flags, c :: rest =>
    ofHead verbose (if c == '\n' then .between else .lineComment) flags rest

/-- The flags of a source compiled with some letters. A flag group that makes the source verbose
does so from its start on. -/
def ofSource (letters source : String) : PatternFlags :=
  let given := ofLetters letters.toList
  let flags := ofHead given.verbose .between given source.toList
  if flags.verbose then ofHead true .between flags source.toList else flags

end PatternFlags

/-- A compiled regular expression. -/
structure Pattern where
  /-- The text it was compiled from. -/
  source : String
  flags : PatternFlags
  deriving DecidableEq

/-- Compiles a source under the flags that some letters stand for. -/
def Pattern.compile (source letters : String) : Pattern :=
  ⟨source, .ofSource letters source⟩

end GrammarDoc
