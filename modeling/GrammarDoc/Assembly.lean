import GrammarDoc.Report
import GrammarDoc.Section.Externals
import GrammarDoc.Section.Extras
import GrammarDoc.Section.Names
import GrammarDoc.Section.Precedences
import GrammarDoc.Section.Rules

/-!
# Assembly

Building a grammar document from its description, section by section. A description is a mapping
from the titles of sections to their values. A grammar may be extended: then sections that are not
given are inherited, and section functions are passed what the base has. Models `GrammarAssembler`,
`grammar` and `validate_grammar`.
-/

namespace GrammarDoc

variable {Code : Type}

/-- The entries of a description in a store; what is no mapping has none. -/
def Description.given (v : Value Code) (store : Store Code) : Table Code (Value Code) :=
  (store.read v).object?.getD []

/-- The entries of a description as it is at present. -/
def Description.entries (v : Value Code) : Build Code (Table Code (Value Code)) :=
  return given v (← get).store

/-- Whether a key is the title of a section. -/
def Description.isSection (key : Value Code) : Bool :=
  key.isIn (Section.all.map fun part ↦ .string part.title)

/-- Reports the keys that are no sections. Models the loop over keys in
`GrammarAssembler.assemble`. -/
def Description.checkKeys (entries : Table Code (Value Code)) : Build Code Unit :=
  (entries.keys.filter fun key ↦ !Description.isSection key).forM fun key ↦
    Build.reportIn none (.unknownSection key)

/-- Checks a description by itself: it has to be a mapping, and its keys to be sections. Models the
beginning of `GrammarAssembler.assemble`. -/
def Description.check (v : Value Code) : Build Code Unit := do
  match (← Build.perform (Exec.read v)).object? with
  | some entries => Description.checkKeys entries
  | none => Build.reportIn none (.notADescription v)

/-- What a description gives for a section. Models `options.get(section)`. -/
def Description.get (entries : Table Code (Value Code)) (part : Section) : Value Code :=
  (entries.find? (.string part.title)).getD .missing

namespace Setting

variable (setting : Setting Code) (entries : Table Code (Value Code))

/-- The name of the grammar. Models `GrammarAssembler._name`. -/
def name : Build Code (Value Code) := do
  match Description.get entries .name, setting.hasBase with
  | .missing, true => setting.ofBase .name
  | v, _ => Names.validateName (← Build.present v)

/-- The externals that the base has, in a new list. -/
def inheritedExternals : Build Code (Items (Value Code)) := do
  let externals ← if setting.hasBase then Build.elements (← setting.ofBase .externals) else pure []
  return { place := setting.made "offered" "externals", toList := externals }

/-- The externals of the grammar. Models `GrammarAssembler._externals`. -/
def externals : Build Code (Items (Value Code)) := do
  let inherited ← setting.inheritedExternals
  match Description.get entries .externals with
  | .missing =>
    Externals.inherit inherited.toList
    return inherited
  | v =>
    let v ← Build.present (← setting.evaluate .externals v (.list inherited))
    let rules ← Externals.validate v
    return { place := setting.made "result" "externals", toList := rules.map .rule }

/-- The rules that the base has. -/
def inheritedRules : Build Code (Rules.Definitions Code) := do
  if setting.hasBase then
    match (← Build.perform (Exec.read (← setting.ofBase .rules))).object? with
    | some definitions => return definitions
    | none => throw (.fault .wrongType)
  else return []

/-- The rules of the grammar. Models `GrammarAssembler._rules`. -/
def rules : Build Code (Entries (Value Code)) := do
  let inherited ← setting.inheritedRules
  let v := match Description.get entries .rules with
    | .missing => .mapping { place := setting.made "empty" "rules", toList := [] }
    | v => v
  let definitions ← Rules.validate setting inherited (← Build.present v)
  return { place := setting.made "result" "rules", toList := definitions }

/-- What the base has for a section, if a grammar is extended. -/
def inherited (part : Section) : Build Code (Value Code) :=
  if setting.hasBase then setting.ofBase part else return .missing

/-- The symbols of the names that a value is made of, as a list that is made at a place. -/
def symbols (place : Place) (names : Value Code) : Build Code (Value Code) := do
  return .list { place, toList := (← Build.elements names).map .symbol }

/-- What the function of a section is passed if no grammar is extended: what the section is if it
is not given. -/
def offeredAnew (part : Section) : Value Code :=
  match part with
  | .word => .missing
  | .extras => .list {
      place := setting.made "offered" "extras"
      toList := [.rule Extras.blankCharacter] }
  | part => .list { place := setting.made "offered" part.title, toList := [] }

/-- What the function of a section is passed. Of what the base has, rules are passed as they are,
and names as symbols. Models `original` in `GrammarAssembler.assemble`. -/
def offered (part : Section) (inherited : Value Code) : Build Code (Value Code) := do
  let place := setting.made "offered" part.title
  if setting.hasBase then
    match part with
    | .inline | .supertypes => symbols place inherited
    | .conflicts =>
      let groups ← (← Build.elements inherited).zipIdx.mapM fun (group, i) ↦
        symbols (place.item i) group
      return .list { place, toList := groups }
    | _ => return inherited
  else return setting.offeredAnew part

/-- A section that only uses names declared before. If it is not given, what the base has is copied
as it is. Models `GrammarAssembler._section`. -/
def part (part : Section) (validate : Value Code → Build Code (List (Value Code))) :
    Build Code (Items (Value Code)) := do
  let inherited ← setting.inherited part
  let offered ← setting.offered part inherited
  match Description.get entries part, setting.hasBase with
  | .missing, true =>
    match ← Build.perform (Exec.copy (setting.made "copy" part.title) inherited) with
    | .list items => return items
    | _ => throw (.fault .wrongType)
  | v, _ =>
    let v ← Build.present (← setting.evaluate part v offered)
    return { place := setting.made "result" part.title, toList := ← validate v }

/-- Some lists as values, made at the items of what a section results in. -/
def groups (part : Section) (groups : List (List (Value Code))) : List (Value Code) :=
  groups.zipIdx.map fun (items, i) ↦
    .list { place := (setting.made "result" part.title).item i, toList := items }

/-- Whether a value is a function or a callable object whose name is declared. Models
`GrammarAssembler._is_declared_function`. -/
def refersToDeclared (v : Value Code) : Build Code Bool := do
  match v.callable? with
  | none => return false
  | some f => return (← get).names.has (.ofOption (f.name.map .string))

/-- The word of the grammar. A function of a declared name stands for that name and is not called.
Models `GrammarAssembler._section` with `names_rule`. -/
def word : Build Code (Value Code) := do
  let inherited ← setting.inherited .word
  match Description.get entries .word, setting.hasBase with
  | .missing, true => Build.perform (Exec.copy (setting.made "copy" "word") inherited)
  | v, _ =>
    if ← refersToDeclared v then Names.validateWord v.nameOf
    else Names.validateWord (← Build.present (← setting.evaluate .word v inherited))

/-- Assembles a grammar from its description. What is given for a section is looked up when its turn
comes, since the functions called before may have changed it. Models `GrammarAssembler.assemble`. -/
def assemble (description : Value Code) : Build Code (Grammar (Value Code)) := do
  Description.check description
  let given := Description.entries description
  Build.log (.began .name none)
  let name ← setting.name (← given)
  let announce (part : Section) : Build Code Unit := do
    Build.log (.began part (some (← Build.present name)))
  announce .externals
  let externals ← setting.externals (← given)
  announce .rules
  let rules ← setting.rules (← given)
  announce .extras
  let extras ← setting.part (← given) .extras fun v ↦ do
    return (← Extras.validate setting.extraReferences v).map .rule
  announce .inline
  let inline ← setting.part (← given) .inline Names.validateInline
  announce .conflicts
  let conflicts ← setting.part (← given) .conflicts fun v ↦ do
    return setting.groups .conflicts (← Names.validateConflicts v)
  announce .word
  let word ← setting.word (← given)
  announce .supertypes
  let supertypes ← setting.part (← given) .supertypes Names.validateSupertypes
  announce .precedences
  let precedences ← setting.part (← given) .precedences fun v ↦ do
    return setting.groups .precedences ((← Precedences.validate v).map (·.map .rule))
  return {
    place := setting.place.part "grammar"
    name, rules, extras, externals, inline, conflicts, word, supertypes, precedences }

/-- Assembles a grammar and, if there are problems, writes a summary of them. Models
`validate_grammar`. -/
def assembleAll (description : Value Code) : Build Code (Grammar (Value Code)) := do
  let g ← setting.assemble description
  let problems := (← get).problems
  if !problems.isEmpty then
    Build.log (.summary (report problems))
  return g

/-- Builds a grammar, starting from a store and ending at the first problem. Models `grammar`. -/
def build (description : Value Code) (store : Store Code) :
    Outcome Code (Grammar (Value Code)) × Journal Code :=
  Build.start (setting.assemble description) .failFast { store }

/-- Builds a grammar as well as possible, starting from a store and collecting all problems. Models
`validate_grammar`. -/
def collect (description : Value Code) (store : Store Code) :
    Outcome Code (Grammar (Value Code)) × Journal Code :=
  Build.start (setting.assembleAll description) .collect { store }

end Setting

end GrammarDoc
