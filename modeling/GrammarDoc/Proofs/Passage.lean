import GrammarDoc.Proofs.Build.Twins
import GrammarDoc.Proofs.Extension
import Mathlib.Logic.Function.Basic

/-!
# Passing through the sections

An assembly passes through all sections in the same way: it writes that a section is begun, and then
does what belongs to it. So whatever has been reported after that line, and before the next section
is begun, has been reported in the course of that section.
-/

namespace GrammarDoc

open Build (Yields MadeOf)

variable {Code : Type} {posture : Posture} {before between after : Journal Code}

/-! ### What belongs to a section -/

/-- What a grammar has for each section. -/
def Grammar.fields (g : Grammar (Value Code)) : Section → Value Code :=
  Section.each g.name (.list g.externals) (.mapping g.rules) (.list g.extras) (.list g.inline)
    (.list g.conflicts) g.word (.list g.supertypes) (.list g.precedences)

/-- What a grammar has for a section is its attribute of that title. -/
theorem Grammar.attribute?_title (g : Grammar (Value Code)) (part : Section) :
    (Value.grammar g).attribute? part.title = .ok (g.fields part) := by
  cases part with
  | name | externals | rules | extras | inline | conflicts | word | supertypes | precedences => rfl

namespace Setting

variable (setting : Setting Code) (entries : Table Code (Value Code))

/-- The checks of the sections that are lists and only use names declared before. -/
def checks (part : Section) (v : Value Code) : Build Code (List (Value Code)) :=
  match part with
  | .extras => do return (← Extras.validate setting.extraReferences v).map .rule
  | .inline => Names.validateInline v
  | .conflicts => do return setting.groups .conflicts (← Names.validateConflicts v)
  | .supertypes => Names.validateSupertypes v
  | .precedences => do
    return setting.groups .precedences ((← Precedences.validate v).map (·.map .rule))
  | .name | .externals | .rules | .word => return []

/-- Goes through a section, to what the grammar has for it. -/
def goThrough (part : Section) : Build Code (Value Code) :=
  match part with
  | .name => setting.name entries
  | .externals => do return .list (← setting.externals entries)
  | .rules => do return .mapping (← setting.rules entries)
  | .word => setting.word entries
  | part => do return .list (← setting.part entries part (setting.checks part))

/-- The checks only report. -/
theorem madeOf_checks {may : Move Code → Prop} (part : Section) (v : Value Code)
    (hr : Move.Reports may part.title) : MadeOf may (setting.checks part v) := by
  cases part with
  | extras => exact .bind (Extras.madeOf_validate _ v hr) fun _ ↦ .pure _
  | inline => exact Names.madeOf_validateInline v hr
  | conflicts => exact .bind (Names.madeOf_validateConflicts v hr) fun _ ↦ .pure _
  | supertypes => exact Names.madeOf_validateSupertypes v hr
  | precedences => exact .bind (Precedences.madeOf_validate v hr) fun _ ↦ .pure _
  | name | externals | rules | word => exact .pure _

/-- Going through a section. -/
theorem madeOf_goThrough {may : Move Code → Prop} (part : Section) (h : setting.Permits may) :
    MadeOf may (setting.goThrough entries part) := by
  cases part with
  | name => exact madeOf_name setting entries (h.reports .name) h.looks
  | externals => exact .bind (madeOf_externals setting entries h) fun _ ↦ .pure _
  | rules => exact .bind (madeOf_rules setting entries h) fun _ ↦ .pure _
  | word => exact madeOf_word setting entries h
  | extras | inline | conflicts | supertypes | precedences =>
    refine .bind (madeOf_part setting entries _ (fun v ↦ ?_) h) fun _ ↦ .pure _
    exact madeOf_checks setting _ v (h.reports _)

/-- A section needs no line that says that a section is begun. -/
theorem permits_within : setting.Permits fun move ↦ ∀ part grammar, move ≠ .began part grammar where
  outside _ _ _ eq := by cases eq
  reports _ _ _ _ eq := by cases eq
  looks _ _ eq := by cases eq
  declares _ _ _ _ eq := by cases eq
  calls _ _ _ _ :=
    ⟨fun _ _ eq ↦ (by cases eq), fun _ ↦ .inr fun _ _ eq ↦ (by cases eq),
      fun _ _ _ _ _ eq ↦ (by cases eq)⟩
  copies _ _ _ := .inr fun _ _ eq ↦ by cases eq

/-- Going through a section is the same from all journals with the same names and the same store. -/
theorem uniform_goThrough (part : Section) :
    Build.Uniform Eq (setting.goThrough entries part) fun _ ↦ True :=
  (setting.madeOf_goThrough entries part setting.permits_within).uniform
    (fun part grammar within ↦ within part grammar rfl) fun _ _ _ ↦ Iff.rfl

end Setting

/-! ### One section after another -/

/-- The journal after writing that a section is begun, of a grammar whose name is known if that is
not the first section. -/
def Journal.begun (journal : Journal Code) (fields : Section → Value Code) :
    Section → Journal Code
  | .name => journal.began .name none
  | part => journal.announced part (fields .name)

/-- Writing that a section is begun adds a line. -/
theorem Journal.adds_began (journal : Journal Code) (part : Section)
    (grammar : Option (Value Code)) :
    journal.Adds [.began part grammar] (journal.began part grammar) :=
  ⟨(List.append_nil _).symm, rfl⟩

/-- The line that says that a section is begun is about that section. -/
theorem Journal.exists_begun (journal : Journal Code) (fields : Section → Value Code)
    (part : Section) : ∃ grammar, journal.begun fields part = journal.began part grammar := by
  cases part with
  | name => exact ⟨_, rfl⟩
  | externals | rules | extras | inline | conflicts | word | supertypes | precedences =>
    exact ⟨_, rfl⟩

/-- Writing that a section is begun does nothing to the store. -/
@[simp] theorem Journal.store_begun (journal : Journal Code) (fields : Section → Value Code)
    (part : Section) : (journal.begun fields part).store = journal.store := by
  obtain ⟨_, begun⟩ := journal.exists_begun fields part
  rw [begun]
  rfl

/-- Of what a grammar has, only its name is in the line that says that a section is begun. -/
theorem Journal.begun_congr (journal : Journal Code) {fields fields' : Section → Value Code}
    {part : Section} (h : part ≠ .name → fields .name = fields' .name) :
    journal.begun fields part = journal.begun fields' part := by
  cases part with
  | name => rfl
  | externals | rules | extras | inline | conflicts | word | supertypes | precedences =>
    rw [begun, begun, h]
    all_goals exact fun eq ↦ by cases eq

namespace Setting

variable (setting : Setting Code) (description : Value Code)

/-- Under a posture, some sections are passed through in order, each as it is given then, and come
to what a grammar has for them. -/
inductive Traverses (posture : Posture) (fields : Section → Value Code) :
    List Section → Journal Code → Journal Code → Prop
  | nil (journal : Journal Code) : Traverses posture fields [] journal journal
  | cons {part : Section} {rest : List Section} {before between after : Journal Code} :
      Yields posture (setting.goThrough (Description.given description before.store) part)
        (before.begun fields part) (fields part) between →
      Traverses posture fields rest between after →
      Traverses posture fields (part :: rest) before after

variable {setting description} {entries : Table Code (Value Code)} {fields : Section → Value Code}
  {parts others : List Section}

/-- Some sections and then others are passed through. -/
theorem traverses_append :
    setting.Traverses description posture fields (parts ++ others) before after ↔
      ∃ between, setting.Traverses description posture fields parts before between ∧
        setting.Traverses description posture fields others between after := by
  induction parts generalizing before with
  | nil =>
    constructor
    · exact fun rest ↦ ⟨before, .nil before, rest⟩
    · rintro ⟨_, ⟨⟩, rest⟩
      exact rest
  | cons part parts ih =>
    constructor
    · rintro (_ | ⟨gone, rest⟩)
      obtain ⟨between, first, second⟩ := ih.1 rest
      exact ⟨between, .cons gone first, second⟩
    · rintro ⟨between, _ | ⟨gone, first⟩, second⟩
      exact .cons gone (ih.2 ⟨between, first, second⟩)

/-- A step that comes to a list as a value comes to its items. -/
theorem yields_list {items : Items (Value Code)} {step : Build Code (Items (Value Code))} :
    Yields posture (do return Value.list (← step)) before (.list items) after ↔
      Yields posture step before items after := by
  simp

/-- A step that comes to a mapping as a value comes to its entries. -/
theorem yields_mapping {rules : Entries (Value Code)} {step : Build Code (Entries (Value Code))} :
    Yields posture (do return Value.mapping (← step)) before (.mapping rules) after ↔
      Yields posture step before rules after := by
  simp

/-- An assembly checks the description and then passes through all sections. -/
theorem yields_assemble_iff_traverses (g : Grammar (Value Code)) :
    Yields posture (setting.assemble description) before g after ↔
      ∃ start, Yields posture (Description.check description) before () start ∧
        setting.Traverses description posture g.fields Section.all start after ∧
        g.place = setting.place.part "grammar" ∧ g.again = false := by
  rw [yields_assemble]
  constructor
  · rintro ⟨start, checked, name, j₃, atName, externals, j₄, atExternals, rules, j₅,
      atRules, extras, j₆, atExtras, inline, j₇, atInline, conflicts, j₈, atConflicts, word, j₉,
      atWord, supertypes, j₁₀, atSupertypes, precedences, _, atPrecedences, rfl, rfl⟩
    exact ⟨start, checked, .cons atName (.cons (yields_list.2 atExternals)
      (.cons (yields_mapping.2 atRules) (.cons (yields_list.2 atExtras)
        (.cons (yields_list.2 atInline) (.cons (yields_list.2 atConflicts) (.cons atWord
          (.cons (yields_list.2 atSupertypes) (.cons (yields_list.2 atPrecedences)
            (.nil _))))))))), rfl, rfl⟩
  · rintro ⟨start, checked, traverses, place, again⟩
    obtain ⟨_, name, rules, extras, externals, inline, conflicts, word, supertypes, precedences,
      _⟩ := g
    obtain _ | ⟨atName, _ | ⟨atExternals, _ | ⟨atRules, _ | ⟨atExtras, _ | ⟨atInline,
      _ | ⟨atConflicts, _ | ⟨atWord, _ | ⟨atSupertypes, _ | ⟨atPrecedences, ⟨⟩⟩⟩⟩⟩⟩⟩⟩⟩⟩ := traverses
    cases place
    cases again
    exact ⟨start, checked, name, _, atName, externals, _, yields_list.1 atExternals, rules, _,
      yields_mapping.1 atRules, extras, _, yields_list.1 atExtras, inline, _,
      yields_list.1 atInline, conflicts, _, yields_list.1 atConflicts, word, _, atWord, supertypes,
      _, yields_list.1 atSupertypes, precedences, _, yields_list.1 atPrecedences, rfl, rfl⟩

variable {part : Section} {store : Store Code}

/-- Going through the name leaves the names and the store. -/
theorem idle_of_yields_name {name : Value Code}
    (h : Yields posture (setting.name entries) before name after) :
    after.names = before.names ∧ after.store = before.store :=
  h.idle (madeOf_name setting entries (fun _ ↦ .inr ⟨_, rfl⟩) (.inl rfl))

/-- Going through a section works on the store as the build may, and only the externals and the
rules declare names. -/
theorem reaches_of_yields_goThrough {v : Value Code}
    (h : Yields posture (setting.goThrough entries part) before v after)
    (found : setting.Finds description store entries before.store) :
    setting.Reaches description store after.store ∧
      (part ∉ [Section.externals, .rules] → after.names = before.names) := by
  cases part with
  | name =>
    obtain ⟨names, same⟩ := idle_of_yields_name h
    exact ⟨same ▸ found.reached, fun _ ↦ names⟩
  | externals =>
    obtain ⟨items, _, gone, done⟩ := (Build.yields_bind _ _ _).1 h
    obtain ⟨-, rfl⟩ := (Build.yields_pure _ _).1 done
    exact ⟨(externals_cases gone found).1, fun others ↦ by simp at others⟩
  | rules =>
    obtain ⟨rules, _, gone, done⟩ := (Build.yields_bind _ _ _).1 h
    obtain ⟨-, rfl⟩ := (Build.yields_pure _ _).1 done
    exact ⟨(rules_cases gone found).1, fun others ↦ by simp at others⟩
  | word =>
    obtain ⟨reached, names, -⟩ := word_cases h found
    exact ⟨reached, fun _ ↦ names⟩
  | extras | inline | conflicts | supertypes | precedences =>
    obtain ⟨items, _, gone, done⟩ := (Build.yields_bind _ _ _).1 h
    obtain ⟨-, rfl⟩ := (Build.yields_pure _ _).1 done
    obtain ⟨reached, names, -⟩ := part_cases
      (fun v ↦ setting.madeOf_checks _ v fun _ ↦ ⟨_, rfl⟩) gone found
    exact ⟨reached, fun _ ↦ names⟩

/-- What is given is found as it is when a section is begun. -/
theorem Reaches.finds (reached : setting.Reaches description store before.store)
    (fields : Section → Value Code) (part : Section) :
    setting.Finds description store (Description.given description before.store)
      (before.begun fields part).store := by
  rw [before.store_begun]
  exact ⟨reached, rfl⟩

/-- Passing through sections works on the store as the build may, and only the externals and the
rules declare names. -/
theorem Traverses.reaches (h : setting.Traverses description posture fields parts before after)
    (reached : setting.Reaches description store before.store) :
    setting.Reaches description store after.store ∧
      ((∀ part ∈ parts, part ∉ [Section.externals, .rules]) → after.names = before.names) := by
  induction h with
  | nil journal => exact ⟨reached, fun _ ↦ rfl⟩
  | @cons part rest before between after gone _ ih =>
    obtain ⟨reached, names⟩ := reaches_of_yields_goThrough gone (reached.finds fields part)
    obtain ⟨_, begun⟩ := before.exists_begun fields part
    rw [begun] at names
    obtain ⟨reached, names'⟩ := ih reached
    refine ⟨reached, fun others ↦ ?_⟩
    rw [List.forall_mem_cons] at others
    exact (names' others.2).trans (names others.1)

/-- Whether sections are passed through depends on what a grammar has for them and on its name. -/
theorem Traverses.congr {fields' : Section → Value Code}
    (h : setting.Traverses description posture fields parts before after)
    (agree : ∀ part ∈ .name :: parts, fields part = fields' part) :
    setting.Traverses description posture fields' parts before after := by
  induction h with
  | nil journal => exact .nil journal
  | @cons part rest before between after gone _ ih =>
    rw [before.begun_congr fun _ ↦ agree .name List.mem_cons_self, agree part (by simp)] at gone
    refine .cons gone (ih fun other mem ↦ agree other ?_)
    rcases List.mem_cons.1 mem with rfl | mem
    · exact List.mem_cons_self
    · exact List.mem_cons_of_mem _ (List.mem_cons_of_mem _ mem)

/-- Sections are passed through in one way only, if the name of the grammar is known or comes
first. -/
theorem Traverses.unique {fields' : Section → Value Code} {finish : Journal Code}
    (h : setting.Traverses description posture fields parts before after)
    (h' : setting.Traverses description posture fields' parts before finish)
    (name : ∀ part ∈ parts.head?, part ≠ .name → fields .name = fields' .name) :
    after = finish ∧ ∀ part ∈ parts, fields part = fields' part := by
  induction h with
  | nil journal =>
    cases h'
    exact ⟨rfl, fun _ mem ↦ absurd mem List.not_mem_nil⟩
  | @cons part rest before between after gone _ ih =>
    obtain _ | ⟨gone', all⟩ := h'
    rw [before.begun_congr (name part rfl)] at gone
    obtain ⟨same, rfl⟩ := gone.unique gone'
    have named : fields .name = fields' .name := by
      by_cases here : part = .name
      · exact here ▸ same
      · exact name part rfl here
    obtain ⟨rfl, others⟩ := ih all fun _ _ _ ↦ named
    exact ⟨rfl, List.forall_mem_cons.2 ⟨same, others⟩⟩

/-- When some sections have been passed through, and then another one, all of them have been. The
name comes first. -/
theorem Traverses.snoc {earlier : List Section} {v : Value Code} {start : Journal Code}
    (h : setting.Traverses description posture fields earlier start between) (once : part ∉ earlier)
    (first : part = .name → earlier = [])
    (gone : Yields posture (setting.goThrough (Description.given description between.store) part)
      (between.begun fields part) v after) :
    setting.Traverses description posture (Function.update fields part v) (earlier ++ [part]) start
      after := by
  have others (other : Section) (apart : other ≠ part) :
      fields other = Function.update fields part v other :=
    (Function.update_of_ne apart v fields).symm
  have before : setting.Traverses description posture (Function.update fields part v) earlier start
      between := by
    by_cases name : part = .name
    · obtain rfl := first name
      cases h
      exact .nil _
    · refine h.congr fun other mem ↦ others other ?_
      rcases List.mem_cons.1 mem with rfl | mem
      · exact Ne.symm name
      · exact fun eq ↦ once (eq ▸ mem)
  have begun : between.begun (Function.update fields part v) part = between.begun fields part :=
    between.begun_congr fun other ↦ (others .name (Ne.symm other)).symm
  refine traverses_append.2 ⟨between, before, .cons ?_ (.nil after)⟩
  rw [begun, Function.update_self]
  exact gone

private theorem Traverses.exists_yields
    (h : setting.Traverses description posture fields parts before after) (hp : part ∈ parts) :
    ∃ entries start finish,
      Yields posture (setting.goThrough entries part) start (fields part) finish := by
  induction h with
  | nil journal => exact absurd hp List.not_mem_nil
  | cons gone _ ih =>
    rcases List.mem_cons.1 hp with rfl | later
    · exact ⟨_, _, _, gone⟩
    · exact ih later

private theorem shape_of_yields_goThrough {v : Value Code}
    (h : Yields posture (setting.goThrough entries part) before v after) :
    part ∈ [.name, .word] ∨ (part = .rules ∧ ∃ rules, v = .mapping rules) ∨
      part ≠ .rules ∧ ∃ items, v = .list items := by
  cases part with
  | name | word => exact .inl (by decide)
  | rules =>
    obtain ⟨rules, _, -, done⟩ := (Build.yields_bind _ _ _).1 h
    exact .inr (.inl ⟨rfl, rules, ((Build.yields_pure _ _).1 done).1⟩)
  | externals | extras | inline | conflicts | supertypes | precedences =>
    obtain ⟨items, _, -, done⟩ := (Build.yields_bind _ _ _).1 h
    exact .inr (.inr ⟨by decide, items, ((Build.yields_pure _ _).1 done).1⟩)

/-- Every section is passed through. -/
theorem mem_all (part : Section) : part ∈ Section.all := by
  cases part with
  | name | externals | rules | extras | inline | conflicts | word | supertypes | precedences =>
    decide

/-- No section comes before the name. -/
theorem eq_nil_of_all_eq {earlier later : List Section}
    (h : Section.all = earlier ++ .name :: later) : earlier = [] := by
  cases earlier with
  | nil => rfl
  | cons part rest =>
    have others : [Section.externals, .rules, .extras, .inline, .conflicts, .word, .supertypes,
        .precedences] = rest ++ .name :: later := (List.cons.inj h).2
    have mem : Section.name ∈ rest ++ .name :: later := by simp
    rw [← others] at mem
    simp at mem

/-- Every section is passed through once. -/
theorem not_mem_of_all_eq {earlier later : List Section}
    (split : Section.all = earlier ++ part :: later) : part ∉ earlier ++ later := by
  have nodup : Section.all.Nodup := by decide
  rw [split, List.perm_middle.nodup_iff, List.nodup_cons] at nodup
  exact nodup.1

/-- When all sections have been passed through, there is a grammar that they have come to. -/
theorem Traverses.exists_grammar
    (h : setting.Traverses description posture fields Section.all before after) (place : Place) :
    ∃ g : Grammar (Value Code), g.fields = fields ∧ g.place = place ∧ g.again = false := by
  have list (part : Section) (hp : part ∉ [.name, .rules, .word]) :
      ∃ items, fields part = .list items := by
    simp only [List.mem_cons, List.not_mem_nil, or_false, not_or] at hp
    obtain ⟨entries, start, finish, gone⟩ := h.exists_yields (mem_all part)
    rcases shape_of_yields_goThrough gone with other | ⟨rules, -⟩ | ⟨-, list⟩
    · simp [hp.1, hp.2.2] at other
    · exact absurd rules hp.2.1
    · exact list
  have mapping : ∃ rules, fields .rules = .mapping rules := by
    obtain ⟨entries, start, finish, gone⟩ := h.exists_yields (mem_all .rules)
    rcases shape_of_yields_goThrough gone with other | ⟨-, mapping⟩ | ⟨other, -⟩
    · simp at other
    · exact mapping
    · exact absurd rfl other
  obtain ⟨externals, atExternals⟩ := list .externals (by decide)
  obtain ⟨rules, atRules⟩ := mapping
  obtain ⟨extras, atExtras⟩ := list .extras (by decide)
  obtain ⟨inline, atInline⟩ := list .inline (by decide)
  obtain ⟨conflicts, atConflicts⟩ := list .conflicts (by decide)
  obtain ⟨supertypes, atSupertypes⟩ := list .supertypes (by decide)
  obtain ⟨precedences, atPrecedences⟩ := list .precedences (by decide)
  refine ⟨⟨place, fields .name, rules, extras, externals, inline, conflicts, fields .word,
    supertypes, precedences, false⟩, funext fun part ↦ ?_, rfl, rfl⟩
  cases part with
  | name | word => rfl
  | externals => exact atExternals.symm
  | rules => exact atRules.symm
  | extras => exact atExtras.symm
  | inline => exact atInline.symm
  | conflicts => exact atConflicts.symm
  | supertypes => exact atSupertypes.symm
  | precedences => exact atPrecedences.symm

end Setting

/-! ### Problems of a section -/

/-- The problems that some lines report in a section, given whether that has been begun last. -/
def Entry.problemsIn (part : Section) : Bool → List (Entry Code) → List (Problem Code)
  | _, [] => []
  | _, .began other _ :: rest => problemsIn part (other = part) rest
  | inside, .reported p :: rest =>
    if inside then p :: problemsIn part inside rest else problemsIn part inside rest
  | inside, .summary _ :: rest => problemsIn part inside rest

/-- The problems that are reported in the course of a section. -/
def Journal.problemsIn (journal : Journal Code) (part : Section) : List (Problem Code) :=
  Entry.problemsIn part false journal.entries

namespace Entry

variable {part : Section}

/-- Lines within a section report problems in that section only. -/
theorem problemsIn_append {lines : List (Entry Code)} (within : ∀ line ∈ lines, line.IsWithin)
    (inside : Bool) (rest : List (Entry Code)) :
    problemsIn part inside (lines ++ rest) =
      (if inside then lines.filterMap problem? else []) ++ problemsIn part inside rest := by
  induction lines with
  | nil => simp
  | cons line lines ih =>
    rw [List.forall_mem_cons] at within
    have ih := ih within.2
    cases line with
    | began other grammar => exact within.1.elim
    | reported p =>
      cases inside with
      | true => simp [problemsIn, problem?, ih]
      | false => simpa [problemsIn] using ih
    | summary text =>
      rw [List.filterMap_cons_none rfl]
      exact ih

/-- What is reported after a section is begun comes after what is reported before that. -/
theorem problemsIn_append_began (begun : Section) (inside : Bool) (lines rest : List (Entry Code))
    (grammar : Option (Value Code)) :
    problemsIn part inside (lines ++ .began begun grammar :: rest) =
      problemsIn part inside lines ++ problemsIn part (begun = part) rest := by
  induction lines generalizing inside with
  | nil => rfl
  | cons line lines ih =>
    cases line with
    | began other grammar => exact ih _
    | reported p =>
      cases inside with
      | true => exact congrArg (p :: ·) (ih true)
      | false => exact ih false
    | summary text => exact ih inside

private theorem problemsIn_summary (inside : Bool) (lines : List (Entry Code)) (text : String) :
    problemsIn part inside (lines ++ [.summary text]) = problemsIn part inside lines := by
  induction lines generalizing inside with
  | nil => rfl
  | cons line lines ih =>
    cases line with
    | began other grammar => exact ih _
    | reported p =>
      cases inside with
      | true => exact congrArg (p :: ·) (ih true)
      | false => exact ih false
    | summary text => exact ih inside

end Entry

namespace Setting

variable {setting : Setting Code} {description : Value Code}
  {fields : Section → Value Code} {part : Section}

/-- The lines that passing through sections adds report problems in those sections only, section by
section. -/
theorem Traverses.exists_adds {parts : List Section}
    (h : setting.Traverses description .collect fields parts before after) :
    ∃ lines, before.Adds lines after ∧
      (∀ part ∉ parts, Entry.problemsIn part true lines = [] ∧ ∀ rest,
        Entry.problemsIn part false (lines ++ rest) = Entry.problemsIn part false rest) ∧
      (parts.Nodup → lines.filterMap Entry.problem? =
        parts.flatMap fun part ↦ Entry.problemsIn part false lines) := by
  induction h with
  | nil journal => exact ⟨[], .nothing rfl rfl, fun _ _ ↦ ⟨rfl, fun _ ↦ rfl⟩, fun _ ↦ rfl⟩
  | @cons first parts before between after gone rest ih =>
    obtain ⟨grammar, begun⟩ := before.exists_begun fields first
    obtain ⟨lines, within, adds⟩ := gone.exists_adds
      (setting.madeOf_goThrough _ first setting.permits_within)
    obtain ⟨more, adds', others, eachIn⟩ := ih
    -- The lines of a section begin with one of its own, so those of other sections start afresh
    -- after it.
    have skipped {part : Section} (apart : first ≠ part) (inside : Bool)
        (rest : List (Entry Code)) :
        Entry.problemsIn part inside (.began first grammar :: (lines ++ more) ++ rest) =
          Entry.problemsIn part false (more ++ rest) := by
      rw [List.cons_append, Entry.problemsIn, decide_eq_false apart, List.append_assoc,
        Entry.problemsIn_append within]
      rfl
    refine ⟨.began first grammar :: (lines ++ more), ?_, fun part other ↦ ?_, fun nodup ↦ ?_⟩
    · rw [begun] at adds
      exact (before.adds_began first grammar).trans (adds.trans adds')
    · rw [List.mem_cons, not_or] at other
      have nothing := (others part other.2).2
      refine ⟨?_, fun rest ↦ (skipped (Ne.symm other.1) false rest).trans (nothing rest)⟩
      rw [← List.append_nil (.began first grammar :: (lines ++ more)),
        skipped (Ne.symm other.1), nothing]
      rfl
    · rw [List.nodup_cons] at nodup
      have here : Entry.problemsIn first false (.began first grammar :: (lines ++ more)) =
          lines.filterMap Entry.problem? := by
        rw [Entry.problemsIn, decide_eq_true rfl, Entry.problemsIn_append within,
          (others first nodup.1).1]
        simp
      have later (part : Section) (hp : part ∈ parts) :
          Entry.problemsIn part false (.began first grammar :: (lines ++ more)) =
            Entry.problemsIn part false more := by
        have apart : first ≠ part := fun eq ↦ nodup.1 (eq ▸ hp)
        have same := skipped apart false []
        rwa [List.append_nil, List.append_nil] at same
      rw [List.flatMap_cons, here, List.filterMap_cons_none rfl, List.filterMap_append,
        eachIn nodup.2, List.flatMap_congr later]

/-- The problems in a section are those that its lines report, after other sections and before
others have been passed through. -/
theorem problemsIn_of_traverses {start finish : Journal Code} {earlier later : List Section}
    {lines : List (Entry Code)} (outside : ∀ line ∈ before.entries, line.IsWithin)
    (first : setting.Traverses description .collect fields earlier before start)
    (within : ∀ line ∈ lines, line.IsWithin) (adds : (start.begun fields part).Adds lines finish)
    (last : setting.Traverses description .collect fields later finish after)
    (once : part ∉ earlier ++ later) :
    after.problemsIn part = lines.filterMap Entry.problem? := by
  rw [List.mem_append, not_or] at once
  obtain ⟨grammar, begun⟩ := start.exists_begun fields part
  obtain ⟨some, adds₁, others, -⟩ := first.exists_adds
  obtain ⟨more, adds₂, others', -⟩ := last.exists_adds
  rw [begun] at adds
  have entries : after.entries =
      before.entries ++ (some ++ (.began part grammar :: (lines ++ more))) := by
    rw [adds₂.entries, adds.entries, (start.adds_began part grammar).entries, adds₁.entries]
    simp only [List.append_assoc, List.cons_append, List.nil_append]
  rw [Journal.problemsIn, entries, Entry.problemsIn_append outside, (others part once.1).2,
    Entry.problemsIn, decide_eq_true rfl, Entry.problemsIn_append within, (others' part once.2).1]
  simp

variable (setting) in
/-- A build that collects has passed through all sections, from one journal to another. Before that
it may have reported problems with the description itself, and after that it may have summed up. -/
structure Course (description : Value Code) (store : Store Code) (fields : Section → Value Code)
    (start finish after : Journal Code) : Prop where
  begins : Yields .collect (Description.check description) { store } () start
  undeclared : start.names = []
  unchanged : start.store = store
  outside : ∀ line ∈ start.entries, line.IsWithin
  traverses : setting.Traverses description .collect fields Section.all
    start finish
  names : after.names = finish.names
  problems : after.problems = finish.problems
  problemsIn : ∀ part, after.problemsIn part = finish.problemsIn part

variable {store : Store Code}

/-- A build that collects goes a course, if it has a result. -/
theorem exists_course {g : Grammar (Value Code)}
    (h : setting.collect description store = (.ok g, after)) :
    ∃ start finish, setting.Course description store g.fields start finish after := by
  have within (cause : Cause Code) (part : Section) (grammar : Option (Value Code)) :
      Move.report ⟨cause, none⟩ ≠ .began part grammar := fun eq ↦ by cases eq
  rw [collect_eq] at h
  generalize run : Build.start (setting.assemble description) .collect { store } = ended at h
  obtain ⟨_ | g', finish⟩ := ended
  · cases h
  · obtain ⟨eq, rfl⟩ := Prod.mk.inj h
    cases eq
    obtain ⟨start, checked, traverses, -⟩ := (yields_assemble_iff_traverses g).1 run
    obtain ⟨lines, outside, adds⟩ := checked.exists_adds
      (Description.madeOf_check description within fun part grammar eq ↦ by cases eq)
    obtain ⟨names, unchanged⟩ := Description.of_yields_check checked
    refine ⟨start, finish, checked, names, unchanged, ?_, traverses, ?_, ?_, ?_⟩
    · intro line hl
      rw [adds.entries, List.nil_append] at hl
      exact outside line hl
    · split
      · rfl
      · rfl
    · split
      · rfl
      · rfl
    · intro part
      split
      · rfl
      · exact Entry.problemsIn_summary false finish.entries _

/-- A build passes through the sections from a store that it may come to. -/
theorem Course.reaches {start finish : Journal Code}
    (course : setting.Course description store fields start finish after) :
    setting.Reaches description store start.store := by
  rw [course.unchanged]
  exact .start

/-- The problems that a build collects are those with the description itself, and then those in each
section. -/
theorem Course.problems_eq {start finish : Journal Code}
    (course : setting.Course description store fields start finish after) :
    after.problems = start.problems ++ Section.all.flatMap after.problemsIn := by
  obtain ⟨lines, adds, -, eachIn⟩ := course.traverses.exists_adds
  have same (part : Section) : after.problemsIn part = Entry.problemsIn part false lines := by
    rw [course.problemsIn, Journal.problemsIn, adds.entries,
      Entry.problemsIn_append course.outside]
    rfl
  rw [course.problems, adds.problems, eachIn (by decide), funext same]

/-- A build goes through a section, between two journals. -/
structure Visit (setting : Setting Code) (entries : Table Code (Value Code))
    (fields : Section → Value Code) (part : Section) (before between after : Journal Code) :
    Prop where
  gone : Yields .collect (setting.goThrough entries part) (before.begun fields part) (fields part)
    between
  problems : ∀ lines : List (Entry Code), (∀ line ∈ lines, line.IsWithin) →
    (before.begun fields part).Adds lines between →
    after.problemsIn part = lines.filterMap Entry.problem?

/-- What a build goes through between the sections before it and those after is visited. -/
theorem Course.visit {start finish before between : Journal Code} {earlier later : List Section}
    (course : setting.Course description store fields start finish after)
    (split : Section.all = earlier ++ part :: later)
    (first : setting.Traverses description .collect fields earlier start before)
    (gone : Yields .collect (setting.goThrough (Description.given description before.store) part)
      (before.begun fields part) (fields part) between)
    (last : setting.Traverses description .collect fields later between finish) :
    Visit setting (Description.given description before.store) fields part before between
      after := by
  refine ⟨gone, fun lines within adds ↦ ?_⟩
  rw [course.problemsIn]
  exact problemsIn_of_traverses course.outside first within adds last (not_mem_of_all_eq split)

/-- In the course of a build each section is visited, between those before it and those after. -/
theorem Course.visits {start finish : Journal Code} {earlier later : List Section}
    (course : setting.Course description store fields start finish after)
    (split : Section.all = earlier ++ part :: later) :
    ∃ before between,
      setting.Traverses description .collect fields earlier start before ∧
      Visit setting (Description.given description before.store) fields part before between
        after ∧
      setting.Traverses description .collect fields later between finish := by
  have all := course.traverses
  rw [split] at all
  obtain ⟨before, first, _ | ⟨gone, last⟩⟩ := traverses_append.1 all
  exact ⟨before, _, first, course.visit split first gone last, last⟩

/-- A section that does the same in two builds comes to the same, and reports the same problems. -/
theorem Visit.agree {R : Store Code → Store Code → Prop} {Q : Value Code → Prop}
    {entries₁ entries₂ : Table Code (Value Code)} {fields₁ fields₂ : Section → Value Code}
    {before₁ before₂ between₁ between₂ after₁ after₂ : Journal Code}
    (visit₁ : Visit setting entries₁ fields₁ part before₁ between₁ after₁)
    (visit₂ : Visit setting entries₂ fields₂ part before₂ between₂ after₂)
    (same : setting.goThrough entries₁ part = setting.goThrough entries₂ part)
    (uniform : Build.Uniform R (setting.goThrough entries₁ part) Q)
    (matched : before₁.Match R before₂) :
    between₁.Match R between₂ ∧ fields₁ part = fields₂ part ∧
      after₁.problemsIn part = after₂.problemsIn part := by
  have begun : (before₁.begun fields₁ part).Match R (before₂.begun fields₂ part) := by
    obtain ⟨_, begun₁⟩ := before₁.exists_begun fields₁ part
    obtain ⟨_, begun₂⟩ := before₂.exists_begun fields₂ part
    rw [begun₁, begun₂]
    exact ⟨matched.names, matched.stores⟩
  have gone₂ := visit₂.gone
  rw [← same] at gone₂
  obtain ⟨eq, left, lines, within, adds₁, adds₂⟩ := uniform.of_yields begun visit₁.gone gone₂
  refine ⟨left, eq, ?_⟩
  rw [visit₁.problems lines within adds₁, visit₂.problems lines within adds₂]

end Setting

end GrammarDoc
