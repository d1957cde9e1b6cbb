import GrammarDoc.Proofs.BestEffort
import GrammarDoc.Proofs.Passage
import GrammarDoc.Proofs.Settled

/-!
# Restating a grammar

A description restates a settled grammar if what each section is evaluated to is what the grammar
has for it, in whichever form: then every check lets it through and gives it back, so the build
makes the grammar once more.
-/

namespace GrammarDoc

open Build (Yields MadeOf)

variable {Code : Type} {before after : Journal Code}

namespace Value

/-- Two lists of the same items, wherever they were made. -/
def Repeats (v w : Value Code) : Prop :=
  ∃ p q items, v = .list ⟨p, items, false⟩ ∧ w = .list ⟨q, items, false⟩

/-- An array stands for some names if it has each of these or its symbol. -/
def Spells (v : Value Code) (names : List (Value Code)) : Prop :=
  ∃ items, v.array? = some items ∧
    List.Forall₂ (fun item name ↦ item = name ∨ item = .symbol name) items names

private theorem map_array?_of_repeats {groups others : List (Value Code)}
    (h : List.Forall₂ Repeats groups others) : groups.map array? = others.map array? := by
  induction h with
  | nil => rfl
  | cons first _ ih =>
    obtain ⟨p, q, items, rfl, rfl⟩ := first
    rw [List.map_cons, List.map_cons, ih]
    rfl

private theorem compareItems_of_repeats {groups others : List (Value Code)}
    (h : List.Forall₂ Repeats groups others) :
    compareItems groups others = compareItems others others := by
  induction h with
  | nil => rfl
  | cons first _ ih =>
    obtain ⟨p, q, items, rfl, rfl⟩ := first
    rw [compareItems, compareItems, ih]
    simp [compare, compareLists]

private theorem compareLists_eq_of_items {list other : Items (Value Code)}
    (once : list.again = false)
    (once' : other.again = false) (length : list.toList.length = other.toList.length)
    (same : compareItems list.toList other.toList = compareItems other.toList other.toList) :
    compareLists list other = compareLists other other := by
  obtain ⟨p, items, again⟩ := list
  obtain ⟨q, others, again'⟩ := other
  subst once once'
  dsimp only at same length
  simp [compareLists, same, length]

private theorem compareMappings_eq_of_entries {entries other : Entries (Value Code)}
    (once : entries.again = false) (once' : other.again = false)
    (same : entries.toList = other.toList) :
    compareMappings entries other = compareMappings other other := by
  obtain ⟨p, entries, again⟩ := entries
  obtain ⟨q, others, again'⟩ := other
  subst once once'
  dsimp only at same
  simp [compareMappings, same]

end Value

namespace Grammar

/-- A grammar has what another has, in collections of its own. -/
structure Repeats (heir g : Grammar (Value Code)) : Prop where
  once : heir.Once
  name : heir.name = g.name
  rules : heir.rules.toList = g.rules.toList
  extras : heir.extras.toList = g.extras.toList
  externals : heir.externals.toList = g.externals.toList
  inline : heir.inline.toList = g.inline.toList
  conflicts : List.Forall₂ Value.Repeats heir.conflicts.toList g.conflicts.toList
  word : heir.word = g.word
  supertypes : heir.supertypes.toList = g.supertypes.toList
  precedences : List.Forall₂ Value.Repeats heir.precedences.toList g.precedences.toList

namespace Repeats

variable {heir g : Grammar (Value Code)} (h : heir.Repeats g)

include h

/-- Grammars that have the same have the same content. -/
theorem content_eq : heir.content = g.content := by
  simp only [content, h.name, h.rules, h.extras, h.externals, h.inline,
    Value.map_array?_of_repeats h.conflicts, h.word, h.supertypes,
    Value.map_array?_of_repeats h.precedences]

/-- A grammar equals the one that it repeats, if that equals itself. -/
theorem compare_eq (once : g.Once) :
    Value.compareGrammars heir g = Value.compareGrammars g g := by
  have lists {list other : Items (Value Code)} (single : list.again = false)
      (single' : other.again = false) (same : list.toList = other.toList) :
      Value.compareLists list other = Value.compareLists other other :=
    Value.compareLists_eq_of_items single single' (by rw [same]) (by rw [same])
  have groups {list other : Items (Value Code)} (single : list.again = false)
      (single' : other.again = false)
      (same : List.Forall₂ Value.Repeats list.toList other.toList) :
      Value.compareLists list other = Value.compareLists other other :=
    Value.compareLists_eq_of_items single single' same.length_eq
      (Value.compareItems_of_repeats same)
  have rules := Value.compareMappings_eq_of_entries h.once.rules once.rules h.rules
  have extras := lists h.once.extras once.extras h.extras
  have externals := lists h.once.externals once.externals h.externals
  have inline := lists h.once.inline once.inline h.inline
  have conflicts := groups h.once.conflicts once.conflicts h.conflicts
  have supertypes := lists h.once.supertypes once.supertypes h.supertypes
  have precedences := groups h.once.precedences once.precedences h.precedences
  have again := h.once.again
  have again' := once.again
  have name := h.name
  have word := h.word
  obtain ⟨p, n₁, _, _, _, _, _, w₁, _, _, _⟩ := heir
  obtain ⟨q, n₂, _, _, _, _, _, w₂, _, _, _⟩ := g
  subst again again' name word
  simp only [Value.compareGrammars, rules, extras, externals, inline, conflicts, supertypes,
    precedences, Bool.or_self, Bool.false_eq_true, if_false]

end Repeats

/-- A value that stands for what a grammar has for a section that only uses declared names. -/
def Restates (g : Grammar (Value Code)) : Section → Value Code → Prop
  | .extras, v => v.array? = some g.extras.toList
  | .inline, v => v.Spells g.inline.toList
  | .conflicts, v => ∃ groups, v.array? = some groups ∧
    List.Forall₂ (fun group made ↦ ∃ members, made.array? = some members ∧ group.Spells members)
      groups g.conflicts.toList
  | .supertypes, v => v.Spells g.supertypes.toList
  | .precedences, v => v.array? = some g.precedences.toList
  | .name, _ | .externals, _ | .rules, _ | .word, _ => False

/-- Whether the list that a grammar has for a section repeats some items. -/
def Takes (g : Grammar (Value Code)) : Section → List (Value Code) → Prop
  | .extras, results => results = g.extras.toList
  | .inline, results => results = g.inline.toList
  | .conflicts, results => List.Forall₂ Value.Repeats results g.conflicts.toList
  | .supertypes, results => results = g.supertypes.toList
  | .precedences, results => List.Forall₂ Value.Repeats results g.precedences.toList
  | .name, _ | .externals, _ | .rules, _ | .word, _ => False

end Grammar

/-- A declared name, or its symbol, gives that name. -/
theorem Names.entryGives_of_declared {names : Namespace Code}
    (valid : ∀ name ∈ names.keys, name.isValidName = true) {item name : Value Code}
    (declared : name ∈ names.keys) (h : item = name ∨ item = .symbol name) :
    EntryGives names item name := by
  refine ⟨?_, valid name declared, declared⟩
  rcases h with rfl | rfl
  · obtain ⟨s, rfl⟩ := Value.eq_string_of_isValidName (valid item declared)
    rfl
  · rfl

private theorem Names.forall₂_entryGives {names : Namespace Code}
    (valid : ∀ name ∈ names.keys, name.isValidName = true) {items members : List (Value Code)}
    (declared : ∀ name ∈ members, name ∈ names.keys)
    (h : List.Forall₂ (fun item name ↦ item = name ∨ item = .symbol name) items members) :
    List.Forall₂ (EntryGives names) items members := by
  induction h with
  | nil => exact .nil
  | cons first _ ih =>
    rw [List.forall_mem_cons] at declared
    exact .cons (entryGives_of_declared valid declared.1 first) (ih declared.2)

private theorem Names.forall₂_supertypeGives {names : Namespace Code}
    (valid : ∀ name ∈ names.keys, name.isValidName = true) {items members : List (Value Code)}
    (declared : ∀ name ∈ members, name ∈ names.keys)
    (h : List.Forall₂ (fun item name ↦ item = name ∨ item = .symbol name) items members) :
    List.Forall₂ (SupertypeGives names) items members := by
  induction h with
  | nil => exact .nil
  | @cons item name _ _ first _ ih =>
    rw [List.forall_mem_cons] at declared
    have noAlias : isAlias item = false := by
      rcases first with rfl | rfl
      · obtain ⟨s, rfl⟩ := Value.eq_string_of_isValidName (valid item declared.1)
        rfl
      · rfl
    exact .cons ⟨noAlias, entryGives_of_declared valid declared.1 first⟩ (ih declared.2)

private theorem Names.exists_conflictGives {names : Namespace Code}
    (valid : ∀ name ∈ names.keys, name.isValidName = true) {items stored : List (Value Code)}
    (conflicts : ∀ group ∈ stored, ∃ place members, group = .list ⟨place, members, false⟩ ∧
      2 ≤ members.length ∧ ∀ name ∈ members, name ∈ names.keys)
    (h : List.Forall₂ (fun group made ↦ ∃ members, made.array? = some members ∧
      group.Spells members) items stored) :
    ∃ groups, List.Forall₂ (ConflictGives names) items groups ∧
      List.Forall₂ (fun members made ↦ ∃ place, made = .list ⟨place, members, false⟩) groups
        stored := by
  induction h with
  | nil => exact ⟨[], .nil, .nil⟩
  | cons first _ ih =>
    rw [List.forall_mem_cons] at conflicts
    obtain ⟨⟨place, members, rfl, enough, declared⟩, more⟩ := conflicts
    obtain ⟨_, ⟨⟩, inner, array, spells⟩ := first
    obtain ⟨groups, gives, made⟩ := ih more
    exact ⟨members :: groups,
      .cons ⟨inner, array, forall₂_entryGives valid declared spells, enough⟩ gives,
      .cons ⟨place, rfl⟩ made⟩

private theorem Precedences.exists_groupGives {names : Namespace Code} {stored : List (Value Code)}
    (h : ∀ group ∈ stored, ∃ place, ∃ rules : List (Rule (Value Code)),
      group = .list ⟨place, rules.map .rule, false⟩ ∧ ∀ r ∈ rules, ItemGives names (.rule r) r) :
    ∃ groups, List.Forall₂ (GroupGives names) stored groups ∧
      List.Forall₂ (fun members made ↦ ∃ place, made = .list ⟨place, members, false⟩)
        (groups.map (·.map .rule)) stored := by
  induction stored with
  | nil => exact ⟨[], .nil, .nil⟩
  | cons group rest ih =>
    rw [List.forall_mem_cons] at h
    obtain ⟨⟨place, rules, rfl, gives⟩, more⟩ := h
    obtain ⟨groups, given, made⟩ := ih more
    refine ⟨rules :: groups, .cons ⟨_, rfl, ?_⟩ given, .cons ⟨place, rfl⟩ made⟩
    rw [List.forall₂_map_left_iff, List.forall₂_same]
    exact gives

private theorem Setting.forall₂_groups {setting : Setting Code} (part : Section)
    {groups : List (List (Value Code))} {items : List (Value Code)}
    (h : List.Forall₂ (fun members made ↦ ∃ place, made = .list ⟨place, members, false⟩) groups
      items) :
    List.Forall₂ Value.Repeats (setting.groups part groups) items := by
  unfold Setting.groups
  rw [List.forall₂_map_left_iff]
  rw [← List.zipIdx_map_fst 0 groups, List.forall₂_map_left_iff] at h
  refine h.imp fun group made same ↦ ?_
  obtain ⟨place, rfl⟩ := same
  exact ⟨_, place, _, rfl, rfl⟩

namespace Grammar.Settled

variable {g : Grammar (Value Code)} {references : Bool} {names : Namespace Code}
  (settled : g.Settled references names)

include settled

/-- What stands for what a settled grammar has for a section passes the checks of that section, as
the same. -/
theorem exists_yields_checks {setting : Setting Code}
    (policy : setting.extraReferences = references) {part : Section} {v : Value Code}
    (restates : g.Restates part v) (current : before.names = names) :
    ∃ results, Yields .failFast (setting.checks part v) before results before ∧
      g.Takes part results := by
  subst current policy
  have valid := settled.valid
  -- Extras and precedences are repeated as they are; names may be spelled in other ways.
  cases part with
  | extras =>
    obtain ⟨rules, eq⟩ := Value.exists_eq_map_rule g.extras.toList fun v hv ↦
      (settled.extras v hv).imp fun _ found ↦ found.1
    have all : List.Forall₂ (Extras.ItemGives setting.extraReferences before.names)
        g.extras.toList rules := by
      have extras := settled.extras
      rw [eq] at extras ⊢
      rw [List.forall₂_map_left_iff, List.forall₂_same]
      intro r hr
      obtain ⟨_, same, gives⟩ := extras _ (List.mem_map_of_mem hr)
      cases same
      exact gives
    exact ⟨rules.map .rule, (Build.yields_bind _ _ _).2 ⟨rules, before,
      (Extras.yields_validate _ v rules).2 ⟨.inr ⟨_, restates, all⟩, rfl⟩,
      (Build.yields_pure _ _).2 ⟨rfl, rfl⟩⟩, eq.symm⟩
  | inline =>
    obtain ⟨items, array, spells⟩ := restates
    exact ⟨_, (Names.yields_validateInline v _).2
      ⟨.inr ⟨items, array, Names.forall₂_entryGives valid settled.inline spells⟩, rfl⟩, rfl⟩
  | conflicts =>
    obtain ⟨items, array, spelled⟩ := restates
    obtain ⟨groups, gives, made⟩ :=
      Names.exists_conflictGives valid settled.conflicts spelled
    exact ⟨_, (Build.yields_bind _ _ _).2 ⟨groups, before,
      (Names.yields_validateConflicts v groups).2 ⟨.inr ⟨items, array, gives⟩, rfl⟩,
      (Build.yields_pure _ _).2 ⟨rfl, rfl⟩⟩, Setting.forall₂_groups .conflicts made⟩
  | supertypes =>
    obtain ⟨items, array, spells⟩ := restates
    have gives := Names.forall₂_supertypeGives valid settled.supertypes spells
    exact ⟨_, (Names.yields_validateSupertypes v _).2 ⟨.inr ⟨items, array, gives⟩, rfl⟩, rfl⟩
  | precedences =>
    obtain ⟨groups, gives, made⟩ := Precedences.exists_groupGives settled.precedences
    exact ⟨_, (Build.yields_bind _ _ _).2 ⟨groups, before,
      (Precedences.yields_validate v groups).2 ⟨.inr ⟨_, restates, gives⟩, rfl⟩,
      (Build.yields_pure _ _).2 ⟨rfl, rfl⟩⟩, Setting.forall₂_groups .precedences made⟩
  | name | externals | rules | word => exact restates.elim

/-- The names that the rules of a settled grammar refer to are found when they are looked up. -/
theorem yields_resolve {definitions : Rules.Definitions Code}
    (same : definitions.map (fun entry ↦ before.store.present entry.2) =
      g.rules.toList.map fun entry ↦ entry.2)
    (current : before.names = names) :
    Yields .failFast (Rules.resolve definitions) before () before := by
  subst current
  obtain ⟨rules, eq⟩ := Value.exists_eq_map_rule (g.rules.toList.map fun entry ↦ entry.2)
    fun v hv ↦ by
      obtain ⟨entry, he, rfl⟩ := List.mem_map.1 hv
      exact settled.definitions entry he
  refine (Rules.yields_resolve definitions ()).2 ⟨⟨rules, same.trans eq, fun name hn ↦ ?_⟩, rfl⟩
  rcases Rule.mem_of_mem_foldl_addName hn with old | mentioned
  · cases old
  · obtain ⟨body, hb, hn⟩ := Rule.mem_mentionsOfAll.1 mentioned
    rw [← eq] at hb
    obtain ⟨entry, he, rfl⟩ := List.mem_map.1 hb
    have declared := settled.mentions entry he name hn
    have valid := settled.valid name declared
    exact ⟨Value.canBeKey_of_isValidName valid, (Table.has_validName _ valid).2 declared⟩

end Grammar.Settled

/-- What the sections of a description are evaluated to, in a store that they leave as it is, if the
description restates a grammar. -/
structure Setting.Restates (setting : Setting Code) (entries : Table Code (Value Code))
    (store : Store Code) (g : Grammar (Value Code)) (names : Namespace Code) : Prop where
  name : ∀ before : Journal Code, before.store = store →
    Yields .failFast (setting.name entries) before g.name before
  externals : ∀ before : Journal Code, before.store = store → before.names = [] →
    ∃ items, Yields .failFast (setting.externals entries) before items
      (before.declaring "externals" (g.namesOf .externals)) ∧ items.toList = g.externals.toList
  rules : ∀ before : Journal Code, before.store = store →
    before.names = (g.namesOf .externals).map (fun name ↦ (name, "externals")) →
    ∃ rules, Yields .failFast (setting.rules entries) before rules
      (before.declaring "rule" (g.namesOf .rules)) ∧ rules.toList = g.rules.toList
  part : ∀ part ∈ [Section.extras, .inline, .conflicts, .supertypes, .precedences],
    ∀ before : Journal Code, before.store = store → before.names = names →
    ∃ w, g.Restates part w ∧ ∀ results,
      Yields .failFast (setting.checks part w) before results before →
      Yields .failFast (setting.part entries part (setting.checks part)) before
        ⟨setting.made "result" part.title, results, false⟩ before
  word : ∀ before : Journal Code, before.store = store → before.names = names →
    Yields .failFast (setting.word entries) before g.word before

namespace Grammar.Settled

variable {g : Grammar (Value Code)} {references : Bool} {names : Namespace Code}
  (settled : g.Settled references names) {setting : Setting Code}
  {entries : Table Code (Value Code)} {store : Store Code}

include settled

/-- A section is restated. -/
theorem exists_yields_part (policy : setting.extraReferences = references)
    (steps : setting.Restates entries store g names) (part : Section)
    (hp : part ∈ [Section.extras, .inline, .conflicts, .supertypes, .precedences])
    (here : before.store = store) (current : before.names = names) :
    ∃ items, Yields .failFast (setting.part entries part (setting.checks part)) before items
      before ∧ items.again = false ∧ g.Takes part items.toList := by
  obtain ⟨w, restates, hands⟩ := steps.part part hp before here current
  obtain ⟨results, yields, takes⟩ := settled.exists_yields_checks policy restates current
  exact ⟨_, hands results yields, rfl, takes⟩

/-- A settled grammar that is restated is assembled once more. -/
theorem exists_yields_assemble {description : Value Code}
    (policy : setting.extraReferences = references)
    (given : (store.read description).object? = some entries)
    (keys : ∀ key ∈ entries.keys, ∃ part : Section, key = .string part.title)
    (steps : setting.Restates entries store g names) :
    ∃ heir after, Yields .failFast (setting.assemble description) { store } heir after ∧
      after.names = names ∧ after.store = store ∧ heir.Repeats g := by
  obtain rfl : Description.given description store = entries := by
    rw [Description.given, given]
    rfl
  let j₂ := ({ store } : Journal Code).began .name none
  have atName := steps.name j₂ rfl
  let j₃ := j₂.announced .externals g.name
  obtain ⟨externals, atExternals, sameExternals⟩ := steps.externals j₃ rfl rfl
  let j₄ := (j₃.declaring "externals" (g.namesOf .externals)).announced .rules g.name
  obtain ⟨rules, atRules, sameRules⟩ := steps.rules j₄ rfl rfl
  let j₅ := j₄.declaring "rule" (g.namesOf .rules)
  have declared : j₅.names = names := settled.declared.symm
  let j₆ := j₅.announced .extras g.name
  obtain ⟨extras, atExtras, extrasOnce, extrasTaken⟩ :=
    settled.exists_yields_part policy steps .extras (by decide) (rfl : j₆.store = store) declared
  let j₇ := j₆.announced .inline g.name
  obtain ⟨inline, atInline, inlineOnce, inlineTaken⟩ :=
    settled.exists_yields_part policy steps .inline (by decide) (rfl : j₇.store = store) declared
  let j₈ := j₇.announced .conflicts g.name
  obtain ⟨conflicts, atConflicts, conflictsOnce, conflictsTaken⟩ :=
    settled.exists_yields_part policy steps .conflicts (by decide) (rfl : j₈.store = store) declared
  let j₉ := j₈.announced .word g.name
  have atWord := steps.word j₉ rfl declared
  let j₁₀ := j₉.announced .supertypes g.name
  obtain ⟨supertypes, atSupertypes, supertypesOnce, supertypesTaken⟩ :=
    settled.exists_yields_part policy steps .supertypes (by decide) (rfl : j₁₀.store = store)
      declared
  let j₁₁ := j₁₀.announced .precedences g.name
  obtain ⟨precedences, atPrecedences, precedencesOnce, precedencesTaken⟩ :=
    settled.exists_yields_part policy steps .precedences (by decide) (rfl : j₁₁.store = store)
      declared
  refine ⟨_, j₁₁, (setting.yields_assemble description _).2 ⟨_,
    (Description.yields_check _ _).2 ⟨⟨_, given, keys⟩, rfl⟩, _, _, atName, _, _, atExternals, _, _,
    atRules, _, _, atExtras, _, _, atInline, _, _, atConflicts, _, _, atWord, _, _, atSupertypes,
    _, _, atPrecedences, rfl, rfl⟩, declared, rfl, ?_⟩
  exact {
    once := ⟨rfl, Setting.again_of_yields_rules atRules, extrasOnce,
      Setting.again_of_yields_externals atExternals, inlineOnce, conflictsOnce, supertypesOnce,
      precedencesOnce⟩
    name := rfl, rules := sameRules, extras := extrasTaken, externals := sameExternals
    inline := inlineTaken, conflicts := conflictsTaken, word := rfl
    supertypes := supertypesTaken, precedences := precedencesTaken }

/-- A settled grammar that is restated is built once more, without any problem. -/
theorem exists_collect {description : Value Code} (policy : setting.extraReferences = references)
    (given : (store.read description).object? = some entries)
    (keys : ∀ key ∈ entries.keys, ∃ part : Section, key = .string part.title)
    (steps : setting.Restates entries store g names) :
    ∃ heir after, setting.collect description store = (.ok heir, after) ∧ after.problems = [] ∧
      after.names = names ∧ after.store = store ∧ heir.Repeats g := by
  obtain ⟨heir, journal, yields, declared, same, repeats⟩ :=
    settled.exists_yields_assemble policy given keys steps
  have made := setting.madeOf_assemble description setting.permits_all fun _ _ ↦ trivial
  have agreement := made.agreement { store }
  rw [yields] at agreement
  generalize collected : Build.start (setting.assemble description) .collect { store } = run
    at agreement
  obtain ⟨outcome, between⟩ := run
  obtain ⟨_, none, -, -⟩ := agreement
  obtain ⟨after, eq, names, problems, store⟩ := Setting.exists_collect_of_yields collected
  exact ⟨heir, after, eq, problems.trans none, names.trans declared, store.trans same, repeats⟩

end Grammar.Settled

end GrammarDoc
