import GrammarDoc.Proofs.Inheritance

/-!
# Extensions by nothing

When a grammar that was built without a base and without a problem is extended by an empty
description, all of it is inherited. Its names are declared once more, but only those that the
grammar still tells: the name of an external that was given in a mapping is not kept with its rule,
unless that is a symbol.
-/

namespace GrammarDoc

open Build (Yields MadeOf)

variable {Code : Type} {before after : Journal Code}

/-- The names that the rules of a grammar refer to, although the grammar has no rule and no external
symbol of that name. -/
def Grammar.lostNames (g : Grammar (Value Code)) : List (Value Code) :=
  g.mentions.filter fun name ↦ !name.isIn (g.namesOf .externals ++ g.namesOf .rules)

namespace Setting

variable (setting : Setting Code) (description : Value Code) (store : Store Code)

/-- A description is empty and remains so: nothing is given in any store that a build may come
to. -/
def RemainsEmpty : Prop :=
  ∀ later, setting.Reaches description store later → (later.read description).object? = some []

/-- What is inherited for a section is a copy of what the base has, made at some time in a build. -/
def Passes (part : Section) (v copy : Value Code) : Prop :=
  ∃ later, setting.Reaches description store later ∧
    (later.copy (setting.made "copy" part.title) v).1 = copy

/-- A grammar inherits all that another has: its name and rules, its externals as they are at
present, and copies of the other parts. -/
structure Inherits (g heir : Grammar (Value Code)) : Prop where
  again : heir.again = false
  name : heir.name = g.name
  rules : ∃ place, heir.rules = ⟨place, g.rules.toList, false⟩
  externals : ∃ place, heir.externals = ⟨place, g.externals.toList.map store.present, false⟩
  extras : setting.Passes description store .extras (.list g.extras) (.list heir.extras)
  inline : setting.Passes description store .inline (.list g.inline) (.list heir.inline)
  conflicts : setting.Passes description store .conflicts (.list g.conflicts) (.list heir.conflicts)
  word : setting.Passes description store .word g.word heir.word
  supertypes :
    setting.Passes description store .supertypes (.list g.supertypes) (.list heir.supertypes)
  precedences :
    setting.Passes description store .precedences (.list g.precedences) (.list heir.precedences)

variable {setting description store} {g : Grammar (Value Code)} {names : List (Value Code)}

private theorem RemainsEmpty.get_eq {later : Store Code}
    (nothing : setting.RemainsEmpty description store)
    (reached : setting.Reaches description store later) (part : Section) :
    Description.get (Description.given description later) part = .missing := by
  rw [Description.given, nothing later reached]
  rfl

/-- A section is copied in a build that only inherits, which finds no problem. -/
theorem exists_passes (nothing : setting.RemainsEmpty description store)
    (extended : setting.base = .grammar g) (part : Section)
    (validate : Value Code → Build Code (List (Value Code))) {list : Items (Value Code)}
    (attributed : (Value.grammar g).attribute? part.title = .ok (.list list))
    (groups : part = .conflicts → before.store.lists.lookup list.place = none ∧
      ∀ group ∈ list.toList, group.array?.isSome = true)
    (reached : setting.Reaches description store before.store) :
    ∃ copy after,
      Yields .collect (setting.part (Description.given description before.store) part validate)
        (before.announced part g.name) copy after ∧ after.problems = before.problems ∧
      setting.Reaches description store after.store ∧
      setting.Passes description store part (.list list) (.list copy) := by
  let announced := before.announced part g.name
  have copies : ∃ copy,
      (announced.store.copy (setting.made "copy" part.title) (.list list)).1 = .list copy ∧
      Yields .collect (setting.part (Description.given description before.store) part validate)
        announced copy { announced with
          store := (announced.store.copy (setting.made "copy" part.title) (.list list)).2 } :=
    exists_yields_part_of_missing extended (nothing.get_eq reached part) attributed groups
  obtain ⟨copy, copied, yields⟩ := copies
  exact ⟨copy, _, yields, rfl, .copy part (extended ▸ attributed) reached, _, reached, copied⟩

/-- An empty description is assembled from what it inherits. -/
theorem exists_yields_assemble_of_nothing (coherent : g.Coherent names)
    (extended : setting.base = .grammar g)
    (nothing : setting.RemainsEmpty description store)
    (alone : setting.LeavesAlone description store g)
    (free : store.Spares [setting.made "empty" "rules"]) :
    ∃ heir after, Yields .collect (setting.assemble description) { store } heir after ∧
      (after.problems = g.lostNames.map fun name ↦ ⟨.undeclared "rules" name, some "rules"⟩) ∧
      setting.Reaches description store after.store ∧
      setting.Inherits description store g heir := by
  have checked : Yields .collect (Description.check description) { store } () { store } := by
    refine (Build.yields_bind _ _ _).2 ⟨_, _, (Build.yields_read _ _).2 ⟨rfl, rfl⟩, ?_⟩
    rw [nothing store .start]
    exact (Build.yields_pure _ _).2 ⟨rfl, rfl⟩
  have distinct := coherent.declared.nodup coherent.distinct
  let j₂ := ({ store } : Journal Code).began .name none
  have atName : Yields .collect (setting.name (Description.given description store)) j₂ g.name j₂ :=
    yields_name_of_missing extended (nothing.get_eq .start .name)
  let j₃ := j₂.announced .externals g.name
  have atExternals : Yields .collect (setting.externals (Description.given description store)) j₃
      ⟨setting.made "offered" "externals", g.externals.toList.map store.present, false⟩
      (j₃.declaring "externals" (g.namesOf .externals)) :=
    yields_externals_of_missing extended (nothing.get_eq .start .externals) (alone _ .start)
      coherent.wellFormed.externals (List.nodup_append.1 distinct).1
  let j₄ := (j₃.declaring "externals" (g.namesOf .externals)).announced .rules g.name
  have keys₄ : j₄.names.keys = g.namesOf .externals := by
    change (j₃.declaring "externals" (g.namesOf .externals)).names.keys = _
    rw [Journal.keys_declaring]
    rfl
  have inheriting : ∃ after,
      Yields .collect (setting.rules (Description.given description store)) j₄
        ⟨setting.made "result" "rules", g.rules.toList, false⟩ after ∧
      _ ∧ after.store = store ∧ after.problems = _ :=
    exists_yields_rules_of_missing extended coherent (nothing.get_eq .start .rules)
      (alone _ .start) free (keys₄ ▸ distinct)
  obtain ⟨j₅, atRules, -, store₅, problems₅⟩ := inheriting
  have reached₅ : setting.Reaches description store j₅.store := store₅ ▸ .start
  -- What follows only makes copies, and each section starts from a store that copies have come to.
  obtain ⟨extras, j₆, atExtras, problems₆, reached₆, passed₆⟩ :=
    exists_passes nothing extended .extras
      (fun v ↦ do return (← Extras.validate setting.extraReferences v).map .rule) rfl (by simp)
      reached₅
  obtain ⟨inline, j₇, atInline, problems₇, reached₇, passed₇⟩ :=
    exists_passes nothing extended .inline Names.validateInline rfl (by simp) reached₆
  obtain ⟨conflicts, j₈, atConflicts, problems₈, reached₈, passed₈⟩ :=
    exists_passes nothing extended .conflicts
      (fun v ↦ do return setting.groups .conflicts (← Names.validateConflicts v))
    rfl (fun _ ↦ ⟨(alone _ reached₇).lists .conflicts _ rfl,
      fun group hg ↦ by
        obtain ⟨names, array, -⟩ := coherent.wellFormed.conflicts group hg
        rw [array, Option.isSome_some]⟩) reached₇
  let later := (j₈.store.copy (setting.made "copy" "word") g.word).2
  have atWord : Yields .collect (setting.word (Description.given description j₈.store))
      (j₈.announced .word g.name) (j₈.store.copy (setting.made "copy" "word") g.word).1
      { j₈.announced .word g.name with store := later } :=
    yields_word_of_missing extended (nothing.get_eq reached₈ .word)
  have attributed : setting.base.attribute? Section.word.title = .ok g.word := by
    rw [extended]
    rfl
  have reached₉ : setting.Reaches description store
      { j₈.announced .word g.name with store := later }.store := .copy .word attributed reached₈
  obtain ⟨supertypes, j₁₀, atSupertypes, problems₁₀, reached₁₀, passed₁₀⟩ :=
    exists_passes nothing extended .supertypes Names.validateSupertypes rfl (by simp) reached₉
  obtain ⟨precedences, j₁₁, atPrecedences, problems₁₁, reached₁₁, passed₁₁⟩ := exists_passes
    nothing extended .precedences
    (fun v ↦ do return setting.groups .precedences ((← Precedences.validate v).map (·.map .rule)))
    rfl (by simp) reached₁₀
  refine ⟨_, j₁₁, (setting.yields_assemble description _).2 ⟨_, checked, _, _,
    atName, _, _, atExternals, _, _, atRules, _, _, atExtras, _, _, atInline, _, _, atConflicts,
    _, _, atWord, _, _, atSupertypes, _, _, atPrecedences, rfl, rfl⟩, ?_, reached₁₁, ?_⟩
  · rw [problems₁₁, problems₁₀]
    change j₈.problems = _
    rw [problems₈, problems₇, problems₆, problems₅, keys₄]
    rfl
  · exact ⟨rfl, rfl, ⟨_, rfl⟩, ⟨_, rfl⟩, passed₆, passed₇, passed₈, ⟨_, reached₈, rfl⟩, passed₁₀,
      passed₁₁⟩

end Setting

private theorem Grammar.Coherent.isValidName_of_mem {g : Grammar (Value Code)}
    {names : List (Value Code)}
    (h : g.Coherent names) {part : Section} {name : Value Code} (hn : name ∈ g.namesOf part) :
    name.isValidName = true := by
  cases part with
  | name => exact List.mem_singleton.1 hn ▸ h.wellFormed.name
  | externals => exact h.wellFormed.externals name hn
  | rules => exact h.wellFormed.rules name hn
  | extras => cases hn
  | inline => exact h.wellFormed.inline name hn
  | conflicts =>
    obtain ⟨group, hg, hn⟩ := List.mem_flatMap.1 hn
    obtain ⟨members, array, -, valid⟩ := h.wellFormed.conflicts group hg
    rw [array] at hn
    exact valid name hn
  | word =>
    rw [← Value.eq_of_toOption_eq_some (Option.mem_toList.1 hn)]
    rcases h.wellFormed.word with missing | valid
    · rw [namesOf, missing] at hn
      cases hn
    · exact valid
  | supertypes => exact h.wellFormed.supertypes name hn
  | precedences => exact h.valid name (h.precedences name hn)

namespace Setting.Inherits

variable {setting : Setting Code} {description : Value Code} {store : Store Code}
  {g heir : Grammar (Value Code)} {names : List (Value Code)}
  (h : setting.Inherits description store g heir) (coherent : g.Coherent names)

include h coherent

/-- A grammar has the same names as the one that it inherits all from. -/
theorem namesOf_eq
    (untouched : ∀ later, setting.Reaches description store later → g.Untouched later)
    (part : Section) : heir.namesOf part = g.namesOf part := by
  have fixed (f : Value Code → Value Code)
      (valid : ∀ name, name.isValidName = true → f name = name) :
      (g.namesOf part).map f = g.namesOf part :=
    (List.map_congr_left fun name hn ↦ valid name (coherent.isValidName_of_mem hn)).trans
      (List.map_id _)
  -- Of a list that is passed on the names are copied, and a copy of a name is that name.
  have passed {list copy : Items (Value Code)} (had : g.list? part = some list)
      (has : heir.list? part = some copy)
      (passes : setting.Passes description store part (.list list) (.list copy))
      (namesOf : ∀ (g : Grammar (Value Code)) (list : Items (Value Code)),
        g.list? part = some list → g.namesOf part = part.namesIn list.toList) :
      heir.namesOf part = g.namesOf part := by
    obtain ⟨later, reached, copied⟩ := passes
    have clean := untouched later reached
    rw [namesOf heir copy has, later.toList_copy copied (clean.lists part list had),
      part.namesIn_copy _ _ _ (clean.groups part list had), ← namesOf g list had]
    exact fixed _ fun name valid ↦ later.copy_of_isValidName _ valid
  cases part with
  | name => exact congrArg (fun name ↦ [name]) h.name
  | externals =>
    obtain ⟨place, eq⟩ := h.externals
    refine Eq.trans ?_ (fixed store.present fun name valid ↦ store.present_of_isValidName valid)
    change heir.externals.toList.filterMap Value.symbolName? =
      (g.externals.toList.filterMap Value.symbolName?).map store.present
    rw [eq, List.filterMap_map, List.map_filterMap]
    exact List.filterMap_congr fun v _ ↦ store.symbolName?_present v
  | rules =>
    obtain ⟨place, eq⟩ := h.rules
    rw [Grammar.namesOf, Grammar.namesOf, eq]
  | extras => rfl
  | inline => exact passed rfl rfl h.inline fun _ _ eq ↦ by cases eq; rfl
  | conflicts => exact passed rfl rfl h.conflicts fun _ _ eq ↦ by cases eq; rfl
  | word =>
    obtain ⟨later, -, copied⟩ := h.word
    rw [Grammar.namesOf, Grammar.namesOf, ← copied]
    rcases coherent.wellFormed.word with missing | valid
    · rw [missing, later.copy_missing]
    · rw [later.copy_of_isValidName _ valid]
  | supertypes => exact passed rfl rfl h.supertypes fun _ _ eq ↦ by cases eq; rfl
  | precedences => exact passed rfl rfl h.precedences fun _ _ eq ↦ by cases eq; rfl

end Setting.Inherits

/-! ### Equality -/

/-- A grammar with parts that can be given, and with nothing in its extras and precedences that
equals itself only. -/
structure Grammar.Copyable (g : Grammar (Value Code)) : Prop where
  again : g.again = false
  rules : (Value.mapping g.rules).Genuine false []
  lists : ∀ list ∈ [g.externals, g.inline, g.conflicts, g.supertypes],
    (Value.list list).Genuine false []
  copies : ∀ list ∈ [g.extras, g.precedences], (Value.list list).Genuine true []

instance (g : Grammar (Value Code)) : Decidable g.Copyable :=
  decidable_of_iff (g.again = false ∧ (Value.mapping g.rules).Genuine false [] ∧
    (∀ list ∈ [g.externals, g.inline, g.conflicts, g.supertypes],
      (Value.list list).Genuine false []) ∧
    ∀ list ∈ [g.extras, g.precedences], (Value.list list).Genuine true [])
    ⟨fun ⟨again, rules, lists, copies⟩ ↦ ⟨again, rules, lists, copies⟩,
      fun h ↦ ⟨h.again, h.rules, h.lists, h.copies⟩⟩

/-- The collections in a part of a grammar are collections in the grammar. -/
theorem Grammar.places_subset {g : Grammar (Value Code)} {part : Section} {v : Value Code}
    (h : (Value.grammar g).attribute? part.title = .ok v) :
    ∀ place ∈ v.places, place ∈ (Value.grammar g).places := by
  obtain ⟨_, name, rules, extras, externals, inline, conflicts, word, supertypes, precedences, _⟩
    := g
  intro place found
  cases part <;> cases h <;> simp_all [Value.places]

private theorem Value.place_mem_places (items : Items (Value Code)) :
    items.place ∈ (list items).places := by
  obtain ⟨place, items, again⟩ := items
  rw [places, placesOfList]
  exact List.mem_cons_self

private theorem Value.genuineItems_of_names {strict : Bool} {above : List Place}
    {names : List (Value Code)}
    (h : ∀ name ∈ names, name.isValidName = true) : GenuineItems strict above names := by
  induction names with
  | nil => trivial
  | cons name rest ih =>
    obtain ⟨s, rfl⟩ := Value.eq_string_of_isValidName (h name List.mem_cons_self)
    exact ⟨trivial, ih fun other ho ↦ h other (List.mem_cons_of_mem _ ho)⟩

private theorem Value.genuineItems_of_groups {above : List Place} {groups : List (Value Code)}
    (genuine : GenuineItems false above groups)
    (h : ∀ group ∈ groups, ∃ names, group.array? = some names ∧
      ∀ name ∈ names, name.isValidName = true) : GenuineItems true above groups := by
  induction groups with
  | nil => trivial
  | cons group rest ih =>
    refine ⟨?_, ih genuine.2 fun other ho ↦ h other (List.mem_cons_of_mem _ ho)⟩
    obtain ⟨names, array, valid⟩ := h group List.mem_cons_self
    cases group with
    | list items =>
      obtain ⟨place, items, again⟩ := items
      cases array
      exact ⟨genuine.1.1, genuineItems_of_names valid⟩
    | tuple items =>
      cases array
      exact genuineItems_of_names valid
    | missing | bool | int | double | string | mapping | pattern | callable | builder | rule
    | grammar | references => cases array

private theorem Value.genuine_list {strict : Bool} {above : List Place} {list : Items (Value Code)}
    (plain : (Value.list list).Genuine false above)
    (items : GenuineItems false above list.toList → GenuineItems strict above list.toList) :
    (Value.list list).Genuine strict above := by
  obtain ⟨place, _, again⟩ := list
  exact ⟨plain.1, items plain.2⟩

/-- All parts of a grammar that are copied equal their copies. -/
theorem Grammar.Copyable.genuine {g : Grammar (Value Code)} {names : List (Value Code)}
    (copyable : g.Copyable) (coherent : g.Coherent names) {part : Section} {v : Value Code}
    (h : (Value.grammar g).attribute? part.title = .ok v)
    (copied : part ≠ .rules ∧ part ≠ .externals) : v.Genuine true [] := by
  cases part with
  | name =>
    cases h
    obtain ⟨s, eq⟩ := Value.eq_string_of_isValidName coherent.wellFormed.name
    rw [eq]
    trivial
  | externals => exact absurd rfl copied.2
  | rules => exact absurd rfl copied.1
  | extras =>
    cases h
    exact copyable.copies _ (by simp)
  | inline =>
    cases h
    exact Value.genuine_list (copyable.lists _ (by simp)) fun _ ↦
      Value.genuineItems_of_names coherent.wellFormed.inline
  | conflicts =>
    cases h
    refine Value.genuine_list (copyable.lists _ (by simp)) fun plain ↦
      Value.genuineItems_of_groups plain fun group hg ↦ ?_
    obtain ⟨members, array, -, valid⟩ := coherent.wellFormed.conflicts group hg
    exact ⟨members, array, valid⟩
  | word =>
    cases h
    rcases coherent.wellFormed.word with missing | valid
    · rw [missing]
      trivial
    · obtain ⟨s, eq⟩ := Value.eq_string_of_isValidName valid
      rw [eq]
      trivial
  | supertypes =>
    cases h
    exact Value.genuine_list (copyable.lists _ (by simp)) fun _ ↦
      Value.genuineItems_of_names coherent.wellFormed.supertypes
  | precedences =>
    cases h
    exact copyable.copies _ (by simp)

namespace Setting

variable {setting : Setting Code} {description : Value Code} {store later : Store Code}
  {g heir : Grammar (Value Code)} {names : List (Value Code)}
  (nothing : setting.RemainsEmpty description store) (extended : setting.base = .grammar g)
  (copyable : g.Copyable)
  (coherent : g.Coherent names) (spared : store.Spares (Value.grammar g).places)
  (free : store.Spares [setting.made "empty" "rules"])

include nothing extended copyable coherent spared free

/-- A build that only inherits what has not been changed leaves the store. -/
theorem eq_of_reaches (reached : setting.Reaches description store later) : later = store := by
  induction reached with
  | start => rfl
  | call place offered reached gives _ same _ =>
    have given := nothing.get_eq reached
    rcases gives with ⟨part, function⟩ | ⟨definitions, object, entry, he, -⟩
    · rw [given part] at function
      cases function
    · rw [givenRules, given .rules, same] at object
      change (store.present (.mapping ⟨setting.made "empty" "rules", [], false⟩)).object? = _
        at object
      rw [Store.present_empty_mapping free] at object
      cases object
      cases he
  | @copy later v part attributed _ same =>
    rw [extended] at attributed
    have genuine : ∃ strict, v.Genuine strict [] := by
      by_cases rules : part = .rules
      · subst rules
        cases attributed
        exact ⟨_, copyable.rules⟩
      · by_cases externals : part = .externals
        · subst externals
          cases attributed
          exact ⟨_, copyable.lists _ (by simp)⟩
        · exact ⟨_, copyable.genuine coherent attributed ⟨rules, externals⟩⟩
    obtain ⟨strict, genuine⟩ := genuine
    rw [same]
    exact Store.copy_snd_eq_self _ genuine
      fun place found ↦ spared place (Grammar.places_subset attributed place found)

/-- What is passed on equals what the base has. -/
theorem Passes.compare_eq {part : Section} {v copy : Value Code}
    (h : setting.Passes description store part v copy)
    (attributed : (Value.grammar g).attribute? part.title = .ok v)
    (copied : part ≠ .rules ∧ part ≠ .externals) : copy.compare v = some true := by
  have genuine := copyable.genuine coherent attributed copied
  obtain ⟨later, reached, rfl⟩ := h
  rw [eq_of_reaches nothing extended copyable coherent spared free reached, Store.copy_fst,
    Store.present_eq_self genuine fun place found ↦
      spared place (Grammar.places_subset attributed place found)]
  exact (Value.compare_copies [_] [] v v genuine genuine).trans (Value.compare_self v genuine)

/-- A grammar equals the one that it inherits all from, if none of the collections in that has been
changed and nothing in its extras and precedences equals itself only. -/
theorem Inherits.compare_eq (h : setting.Inherits description store g heir) :
    Value.compareGrammars heir g = some true := by
  have passed {part : Section} {list copy : Items (Value Code)}
      (passes : setting.Passes description store part (.list list) (.list copy))
      (attributed : (Value.grammar g).attribute? part.title = .ok (.list list))
      (copied : part ≠ .rules ∧ part ≠ .externals) : Value.compareLists copy list = some true := by
    have equal := passes.compare_eq nothing extended copyable coherent spared free attributed copied
    rwa [Value.compare] at equal
  have name : heir.name.compare g.name = some true := by
    rw [h.name]
    exact Value.compare_self g.name (copyable.genuine coherent
      (rfl : (Value.grammar g).attribute? Section.name.title = _) (by simp))
  have rules : Value.compareMappings heir.rules g.rules = some true := by
    obtain ⟨place, same⟩ := h.rules
    rw [same]
    exact Value.compareMappings_anew place copyable.rules
  have externals : Value.compareLists heir.externals g.externals = some true := by
    -- The externals are looked at, which does not change them.
    have within := Grammar.places_subset
      (rfl : (Value.grammar g).attribute? Section.externals.title = .ok (.list g.externals))
    have genuine := copyable.lists g.externals (by simp)
    have array := store.array?_present (.list g.externals) fun list eq ↦ by
      cases eq
      exact (spared _ (within _ (Value.place_mem_places _))).1
    rw [Store.present_eq_self genuine fun place found ↦ spared place (within place found)] at array
    have looked : g.externals.toList.map store.present = g.externals.toList :=
      (Option.some.inj array).symm
    obtain ⟨place, same⟩ := h.externals
    rw [same, looked]
    exact Value.compareLists_anew place genuine
  exact (Value.compareGrammars_eq_true h.again copyable.again).2 ⟨name, rules,
    passed h.extras rfl (by simp), externals, passed h.inline rfl (by simp),
    passed h.conflicts rfl (by simp),
    h.word.compare_eq nothing extended copyable coherent spared free rfl (by simp),
    passed h.supertypes rfl (by simp), passed h.precedences rfl (by simp)⟩

end Setting

/-! ### Extensions by nothing -/

namespace CleanBuild

/-- When a grammar that was built without a base and without a problem is extended by an empty
description, the build collects exactly one problem for each name that is lost: a name that rules
refer to and that was declared as an external, but is neither the name of a rule nor of a symbol
among the externals. The new grammar has the same rules in the same order, and the same names. It
equals the old one, unless collections in that have been changed meanwhile or something in its
extras or precedences equals itself only. -/
theorem extended_by_nothing (b : CleanBuild Code) (anew : b.setting.hasBase = false)
    {setting : Setting Code} {description : Value Code} {store : Store Code}
    (extended : setting.base = .grammar b.grammar)
    (nothing : setting.RemainsEmpty description store)
    (alone : setting.LeavesAlone description store b.grammar)
    (free : store.Spares [setting.made "empty" "rules"]) :
    ∃ g after, setting.collect description store = (.ok g, after) ∧
      (after.problems =
        b.grammar.lostNames.map fun name ↦ ⟨.undeclared "rules" name, some "rules"⟩) ∧
      (∀ name ∈ b.grammar.lostNames, (name, "externals") ∈ b.names) ∧
      g.rules.toList = b.grammar.rules.toList ∧
      (∀ part, g.namesOf part = b.grammar.namesOf part) ∧
      (b.grammar.Copyable → store.Spares (Value.grammar b.grammar).places →
        after.store = store ∧ Value.compareGrammars g b.grammar = some true) := by
  have coherent := b.coherent anew
  obtain ⟨g, journal, yields, problems, reached, inherits⟩ :=
    Setting.exists_yields_assemble_of_nothing coherent extended nothing alone free
  obtain ⟨after, collected, -, sameProblems, sameStore⟩ := Setting.exists_collect_of_yields yields
  refine ⟨g, after, collected, sameProblems.trans problems, fun name hn ↦ ?_, ?_,
    inherits.namesOf_eq coherent alone, fun copyable spared ↦ ⟨?_, ?_⟩⟩
  · -- A lost name is referred to, hence was declared, and it is not the name of a rule.
    obtain ⟨found, lost⟩ := List.mem_filter.1 hn
    rcases Rule.mem_of_mem_foldl_addName found with old | mentioned
    · cases old
    · obtain ⟨entry, he, hn⟩ := List.mem_flatMap.1 mentioned
      have declared := coherent.mentions entry he name hn
      obtain ⟨s, rfl⟩ := Value.eq_string_of_isValidName (coherent.valid _ declared)
      rcases b.mem_rules_or_externals declared with rule | external
      · have isIn := (Value.string_isIn s _).2 (List.mem_append_right
          (b.grammar.namesOf .externals) rule)
        rw [isIn] at lost
        cases lost
      · exact external
  · obtain ⟨place, same⟩ := inherits.rules
    rw [same]
  · exact sameStore.trans
      (Setting.eq_of_reaches nothing extended copyable coherent spared free reached)
  · exact inherits.compare_eq nothing extended copyable coherent spared free

/-- An external that is a symbol is declared again, so that a rule may still refer to it. -/
theorem extended_by_nothing_symbol :
    let setting (index : Nat) (base : Value Empty) : Setting Empty :=
      { run := fun _ code _ ↦ code.elim, place := .step index, base }
    let indent : Value Empty := .rule (.symbol (.string "indent"))
    let rule : Value Empty := .callable (.constant (.step 0) "a" indent)
    let first : Value Empty := .mapping ⟨.step 0, [(.string "name", .string "g"),
      (.string "externals",
        .mapping ⟨(Place.step 0).part "externals", [(.string "indent", indent)], false⟩),
      (.string "rules",
        .mapping ⟨(Place.step 0).part "rules", [(.string "a", rule)], false⟩)], false⟩
    let second : Value Empty := .mapping ⟨.step 1, [], false⟩
    ∃ (b : CleanBuild Empty) (g : Grammar (Value Empty)) (after : Journal Empty),
      b.setting = setting 0 .missing ∧ b.description = first ∧
      .string "indent" ∈ b.grammar.namesOf .externals ∧
      (setting 1 (.grammar b.grammar)).collect second {} = (.ok g, after) ∧
      after.problems = [] ∧ Value.compareGrammars g b.grammar = some true := by
  intro setting indent rule first second
  have returns : ((setting 0 .missing).build first {}).1.toOption.any (fun g ↦
      decide g.Copyable && g.lostNames.isEmpty &&
        (g.namesOf .externals).any fun name ↦ name.same (.string "indent")) = true := by
    decide +kernel
  obtain ⟨g, built, returns⟩ := Build.exists_eq_ok_of_any returns
  simp only [Bool.and_eq_true, decide_eq_true_eq, List.isEmpty_iff, List.any_eq_true] at returns
  obtain ⟨⟨copyable, none⟩, name, hn, same⟩ := returns
  obtain rfl := (Value.same_string name "indent").1 same
  let b : CleanBuild Empty := ⟨setting 0 .missing, first, {}, g, _, .inl built⟩
  have alone : (setting 1 (.grammar g)).LeavesAlone second {} g :=
    Setting.leavesAlone_of_pure fun _ code ↦ code.elim
  have empty : (setting 1 (.grammar g)).RemainsEmpty second {} := fun later reached ↦ by
    rw [Setting.eq_empty_of_reaches (fun _ code ↦ code.elim) reached]
    rfl
  have extended : (setting 1 (.grammar g)).base = .grammar b.grammar := rfl
  obtain ⟨heir, after, collected, problems, -, -, -, equal⟩ :=
    b.extended_by_nothing rfl extended empty alone fun _ _ ↦ ⟨rfl, rfl⟩
  refine ⟨b, heir, after, rfl, rfl, hn, collected, ?_, (equal copyable fun _ _ ↦ ⟨rfl, rfl⟩).2⟩
  rw [problems, none]
  rfl

/-- An external that is no symbol is not kept by its name: a rule that refers to it is fine until
the grammar is extended, although nothing is given then. -/
theorem exists_lost_name :
    let setting (index : Nat) (base : Value Empty) : Setting Empty :=
      { run := fun _ code _ ↦ code.elim, place := .step index, base }
    let rule : Value Empty :=
      .callable (.constant (.step 0) "a" (.rule (.symbol (.string "indent"))))
    let first : Value Empty := .mapping ⟨.step 0, [(.string "name", .string "g"),
      (.string "externals",
        .mapping ⟨(Place.step 0).part "externals", [(.string "indent", .string "x")], false⟩),
      (.string "rules",
        .mapping ⟨(Place.step 0).part "rules", [(.string "a", rule)], false⟩)], false⟩
    let second : Value Empty := .mapping ⟨.step 1, [], false⟩
    ∃ (g g' : Grammar (Value Empty)) (after after' : Journal Empty),
      (setting 0 .missing).collect first {} = (.ok g, after) ∧ after.problems = [] ∧
      (setting 1 (.grammar g)).collect second {} = (.ok g', after') ∧
      after'.problems.map (fun p ↦ (p.message, p.within)) =
        [("invalid rules: name 'indent' not in namespace", some "rules")] := by
  intro setting rule first second
  have returns : ((setting 0 .missing).collect first {}).1.toOption.any (fun g ↦
      let run := (setting 1 (.grammar g)).collect second {}
      run.1.toOption.any fun _ ↦ ((setting 0 .missing).collect first {}).2.problems.isEmpty &&
        run.2.problems.map (fun p ↦ (p.message, p.within)) ==
          [("invalid rules: name 'indent' not in namespace", some "rules")]) = true := by
    decide +kernel
  obtain ⟨g, built, returns⟩ := Build.exists_eq_ok_of_any returns
  obtain ⟨g', extended, returns⟩ := Build.exists_eq_ok_of_any returns
  simp only [Bool.and_eq_true, List.isEmpty_iff, beq_iff_eq] at returns
  exact ⟨g, g', _, _, built, returns.1, extended, returns.2⟩

end CleanBuild

end GrammarDoc
