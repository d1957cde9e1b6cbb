import GrammarDoc.Proofs.Inheritance
import GrammarDoc.Proofs.Presence
import GrammarDoc.Proofs.RoundTrip

/-!
# Settled grammars

A build without a base that reports nothing makes a grammar whose parts would pass the same checks
once more, as they are or with symbols for names, if all its externals are symbols: then the grammar
tells all names that were declared, so that a build that is given these parts declares the same.
-/

namespace GrammarDoc

open Build (Yields MadeOf)

variable {Code : Type} {posture : Posture} {before after : Journal Code}

/-- What has the name of a symbol is a symbol. -/
theorem Value.exists_eq_symbol {v : Value Code} (h : v.symbolName?.isSome = true) :
    ∃ name, v = .symbol name := by
  cases v with
  | rule r =>
    cases r with
    | symbol => exact ⟨_, rfl⟩
    | bare | string | pattern | blank | group | wrap | prec | field | aliased => cases h
  | missing | bool | int | double | string | list | tuple | mapping | pattern | callable | builder
  | grammar | references => cases h

/-- A grammar that passes the checks of all sections as it is, under a policy on extras, while its
external symbols and its rules are what is declared. -/
structure Grammar.Settled (g : Grammar (Value Code)) (references : Bool) (names : Namespace Code) :
    Prop where
  name : g.name.isValidName = true
  externals : g.externals.toList = (g.namesOf .externals).map .symbol
  definitions : ∀ entry ∈ g.rules.toList, ∃ r, entry.2 = .rule r
  nonempty : g.rules.toList ≠ []
  declared : names = (g.namesOf .externals).map (fun name ↦ (name, "externals")) ++
    (g.namesOf .rules).map fun name ↦ (name, "rule")
  distinct : names.keys.Nodup
  valid : ∀ name ∈ names.keys, name.isValidName = true
  mentions : ∀ entry ∈ g.rules.toList, ∀ name ∈ entry.2.mentions, name ∈ names.keys
  extras : ∀ v ∈ g.extras.toList, ∃ r, v = .rule r ∧ Extras.ItemGives references names v r
  inline : ∀ name ∈ g.inline.toList, name ∈ names.keys
  conflicts : ∀ group ∈ g.conflicts.toList, ∃ place members, group = .list ⟨place, members, false⟩ ∧
    2 ≤ members.length ∧ ∀ name ∈ members, name ∈ names.keys
  word : g.word = .missing ∨ g.word ∈ names.keys
  supertypes : ∀ name ∈ g.supertypes.toList, name ∈ names.keys
  precedences : ∀ group ∈ g.precedences.toList, ∃ place, ∃ rules : List (Rule (Value Code)),
    group = .list ⟨place, rules.map .rule, false⟩ ∧
    ∀ r ∈ rules, Precedences.ItemGives names (.rule r) r
  once : g.Once

/-! ### Builds without a base -/

namespace Setting

variable {setting : Setting Code} {entries : Table Code (Value Code)}

/-- The externals are a list made by the build. -/
theorem again_of_yields_externals {items : Items (Value Code)}
    (h : Yields posture (setting.externals entries) before items after) : items.again = false := by
  obtain ⟨inherited, between, found, rest⟩ := (Build.yields_bind _ _ _).1 h
  split at rest
  · obtain rfl := Build.eq_of_yields_return rest
    unfold inheritedExternals at found
    split at found
    · obtain ⟨_, _, -, more⟩ := (Build.yields_bind _ _ _).1 found
      obtain ⟨_, _, -, made⟩ := (Build.yields_bind _ _ _).1 more
      obtain ⟨rfl, -⟩ := (Build.yields_pure _ _).1 made
      rfl
    · obtain ⟨_, _, -, made⟩ := (Build.yields_bind _ _ _).1 found
      obtain ⟨rfl, -⟩ := (Build.yields_pure _ _).1 made
      rfl
  · obtain ⟨_, _, -, rest⟩ := (Build.yields_bind _ _ _).1 rest
    obtain ⟨_, _, -, rest⟩ := (Build.yields_bind _ _ _).1 rest
    obtain ⟨_, _, -, made⟩ := (Build.yields_bind _ _ _).1 rest
    obtain ⟨rfl, -⟩ := (Build.yields_pure _ _).1 made
    rfl

/-- The rules are a mapping made by the build. -/
theorem again_of_yields_rules {rules : Entries (Value Code)}
    (h : Yields posture (setting.rules entries) before rules after) : rules.again = false := by
  obtain ⟨_, _, -, rest⟩ := (Build.yields_bind _ _ _).1 h
  obtain ⟨_, _, -, rest⟩ := (Build.yields_bind _ _ _).1 rest
  obtain ⟨_, _, -, made⟩ := (Build.yields_bind _ _ _).1 rest
  obtain ⟨rfl, -⟩ := (Build.yields_pure _ _).1 made
  rfl

private theorem checked_of_yields_part (anew : setting.hasBase = false) {part : Section}
    {validate : Value Code → Build Code (List (Value Code))} {items : Items (Value Code)}
    (h : Yields .failFast (setting.part entries part validate) before items after) :
    items.again = false ∧
      ∃ w between, Yields .failFast (validate w) between items.toList after := by
  obtain ⟨w, store, -, results, checked, rfl⟩ := (yields_part entries anew items).1 h
  exact ⟨rfl, w, _, checked⟩

private theorem mem_groups {part : Section} {groups : List (List (Value Code))} {group : Value Code}
    (h : group ∈ setting.groups part groups) :
    ∃ place, ∃ members ∈ groups, group = .list ⟨place, members, false⟩ := by
  obtain ⟨⟨members, i⟩, hm, rfl⟩ := List.mem_map.1 h
  exact ⟨_, members, List.fst_mem_of_mem_zipIdx hm, rfl⟩

end Setting

private theorem Extras.itemGives_rule {references : Bool} {names : Namespace Code}
    {raw : Value Code} {r : Rule (Value Code)} (h : ItemGives references names raw r) :
    ItemGives references names (.rule r) r :=
  ⟨rfl, h.2⟩

private theorem Extras.itemGives_blankCharacter (references : Bool) (names : Namespace Code) :
    ItemGives references names (.rule blankCharacter) blankCharacter := by
  refine ⟨rfl, ?_⟩
  cases references with
  | true => exact fun _ none ↦ by cases none
  | false => exact fun _ none ↦ by cases none

/-! ### What has been checked -/

private theorem Extras.itemGives_of_yields {references : Bool} {v : Value Code}
    {items : List (Value Code)}
    (h : Yields .failFast (do return (← validate references v).map .rule) before items after) :
    ∀ v ∈ items, ∃ r, v = .rule r ∧ ItemGives references after.names v r := by
  obtain ⟨rules, _, checked, done⟩ := (Build.yields_bind _ _ _).1 h
  obtain ⟨rfl, rfl⟩ := (Build.yields_pure _ _).1 done
  obtain ⟨gives, rfl⟩ := (yields_validate _ v rules).1 checked
  intro v hv
  obtain ⟨r, hr, rfl⟩ := List.mem_map.1 hv
  refine ⟨r, rfl, ?_⟩
  rcases gives with ⟨-, rfl⟩ | ⟨items, -, given⟩
  · rw [List.mem_singleton.1 hr]
    exact itemGives_blankCharacter _ _
  · exact itemGives_rule (exists_of_forall₂ given hr).choose_spec

namespace Names

variable {v : Value Code} {names : List (Value Code)}

private theorem mem_of_yields_validateInline
    (h : Yields .failFast (validateInline v) before names after) :
    ∀ name ∈ names, name ∈ after.names.keys := by
  obtain ⟨gives, rfl⟩ := (yields_validateInline v names).1 h
  exact fun name hn ↦ (gives.exists_of_mem hn).choose_spec.2.2

private theorem mem_of_yields_validateSupertypes
    (h : Yields .failFast (validateSupertypes v) before names after) :
    ∀ name ∈ names, name ∈ after.names.keys := by
  obtain ⟨gives, rfl⟩ := (yields_validateSupertypes v names).1 h
  exact fun name hn ↦ (gives.exists_of_mem hn).choose_spec.2.2.2

end Names

namespace Setting

variable {setting : Setting Code} {v : Value Code} {items : List (Value Code)}

private theorem conflicts_of_yields (h : Yields .failFast (do
      return setting.groups .conflicts (← Names.validateConflicts v)) before items after) :
    ∀ group ∈ items, ∃ place members, group = .list ⟨place, members, false⟩ ∧
      2 ≤ members.length ∧ ∀ name ∈ members, name ∈ after.names.keys := by
  obtain ⟨groups, _, checked, done⟩ := (Build.yields_bind _ _ _).1 h
  obtain ⟨rfl, rfl⟩ := (Build.yields_pure _ _).1 done
  obtain ⟨gives, rfl⟩ := (Names.yields_validateConflicts v groups).1 checked
  intro group hg
  obtain ⟨place, members, hm, rfl⟩ := mem_groups hg
  obtain ⟨_, items, -, named, enough⟩ := gives.exists_of_mem hm
  exact ⟨place, members, rfl, enough, fun name hn ↦ (exists_of_forall₂ named hn).choose_spec.2.2⟩

private theorem precedences_of_yields (h : Yields .failFast (do
      return setting.groups .precedences ((← Precedences.validate v).map (·.map .rule))) before
        items after) :
    ∀ group ∈ items, ∃ place, ∃ rules : List (Rule (Value Code)),
      group = .list ⟨place, rules.map .rule, false⟩ ∧
        ∀ r ∈ rules, Precedences.ItemGives after.names (.rule r) r := by
  obtain ⟨groups, _, checked, done⟩ := (Build.yields_bind _ _ _).1 h
  obtain ⟨rfl, rfl⟩ := (Build.yields_pure _ _).1 done
  obtain ⟨gives, rfl⟩ := (Precedences.yields_validate v groups).1 checked
  intro group hg
  obtain ⟨place, _, hm, rfl⟩ := mem_groups hg
  obtain ⟨rules, hr, rfl⟩ := List.mem_map.1 hm
  obtain ⟨_, items, -, given⟩ := gives.exists_of_mem hr
  exact ⟨place, rules, rfl, fun r hr ↦ ⟨rfl, (exists_of_forall₂ given hr).choose_spec.2⟩⟩

end Setting

private theorem Grammar.externals_eq_symbols {g : Grammar (Value Code)}
    (symbols : ∀ v ∈ g.externals.toList, ∃ name, v = .symbol name) :
    g.externals.toList = (g.namesOf .externals).map .symbol := by
  change g.externals.toList = (g.externals.toList.filterMap Value.symbolName?).map .symbol
  generalize g.externals.toList = items at symbols
  induction items with
  | nil => rfl
  | cons v rest ih =>
    obtain ⟨name, rfl⟩ := symbols v List.mem_cons_self
    rw [List.filterMap_cons_some (by rfl), List.map_cons,
      ← ih fun w hw ↦ symbols w (List.mem_cons_of_mem _ hw)]

/-- A build without a base that reports nothing makes a settled grammar, if all externals are
symbols. -/
theorem CleanBuild.settled (b : CleanBuild Code) (anew : b.setting.hasBase = false)
    (symbols : ∀ v ∈ b.grammar.externals.toList, ∃ name, v = .symbol name) :
    b.grammar.Settled b.setting.extraReferences b.names := by
  have coherent := b.coherent anew
  obtain ⟨journal, start, finish, stages, names⟩ := b.exists_stages
  have finished (part : Section) (hp : part ∈ [Section.rules, .extras, .inline, .conflicts, .word,
      .supertypes, .precedences]) : (finish part).names = b.names :=
    (stages.defined part hp).trans names
  have list := Grammar.externals_eq_symbols symbols
  have externals : b.names = (b.grammar.namesOf .externals).map (fun name ↦ (name, "externals")) ++
      (b.grammar.namesOf .rules).map fun name ↦ (name, "rule") := by
    obtain ⟨externals, first, sublist, few, -, -⟩ :=
      Setting.sublist_of_yields_externals anew stages.externals (stages.finds _)
    obtain ⟨second, -⟩ := Setting.names_of_yields_rules anew stages.rules (stages.finds _)
    -- There is a name for each external, and no name beside these.
    have same : b.grammar.namesOf .externals = externals := sublist.eq_of_length_le (by
      rw [list, List.length_map] at few
      exact few)
    rw [← finished .rules (by decide), second, stages.declared, first, stages.undeclared,
      same]
    rfl
  obtain ⟨inlineOnce, w₁, j₁, atInline⟩ := Setting.checked_of_yields_part anew stages.inline
  obtain ⟨conflictsOnce, w₂, j₂, atConflicts⟩ :=
    Setting.checked_of_yields_part anew stages.conflicts
  obtain ⟨supertypesOnce, w₃, j₃, atSupertypes⟩ :=
    Setting.checked_of_yields_part anew stages.supertypes
  obtain ⟨precedencesOnce, w₄, j₄, atPrecedences⟩ :=
    Setting.checked_of_yields_part anew stages.precedences
  obtain ⟨extrasOnce, w₅, j₅, atExtras⟩ := Setting.checked_of_yields_part anew stages.extras
  have extras := Extras.itemGives_of_yields atExtras
  have inline := Names.mem_of_yields_validateInline atInline
  have conflicts := Setting.conflicts_of_yields atConflicts
  have supertypes := Names.mem_of_yields_validateSupertypes atSupertypes
  have precedences := Setting.precedences_of_yields atPrecedences
  -- All of them have been checked with the names that are declared in the end.
  rw [finished _ (by decide)] at extras inline conflicts supertypes precedences
  refine ⟨coherent.wellFormed.name, list, coherent.definitions, coherent.nonempty, externals,
    coherent.distinct, coherent.valid, coherent.mentions, extras, inline, conflicts, ?_,
    supertypes, precedences, ?_⟩
  · obtain ⟨w, store, -, gives, last⟩ := (Setting.yields_word _ anew _).1 stages.word
    have current : (start .word).names = b.names := by
      rw [← finished .word (by decide), last]
    rw [current] at gives
    exact gives.imp And.right fun named ↦ named.2.2
  · obtain ⟨_, yields, -⟩ := b.exists_yields
    obtain ⟨_, -, -, -, again⟩ := (Setting.yields_assemble_iff_traverses _).1 yields
    exact ⟨again, Setting.again_of_yields_rules stages.rules, extrasOnce,
      Setting.again_of_yields_externals stages.externals, inlineOnce, conflictsOnce, supertypesOnce,
      precedencesOnce⟩

/-! ### At any time -/

/-- None of the collections that a grammar is made of has been changed since it was made. -/
structure Grammar.AsMade (g : Grammar (Value Code)) (store : Store Code) : Prop
    extends g.Untouched store where
  extras : store.lists.lookup g.extras.place = none

/-- An extra is let through as it is at present. -/
theorem Extras.itemGives_present {references : Bool} {names : Namespace Code}
    (valid : ∀ name ∈ names.keys, name.isValidName = true) (store : Store Code)
    {r : Rule (Value Code)} (h : ItemGives references names (.rule r) r) :
    ∃ present, store.present (.rule r) = .rule present ∧
      ItemGives references names (.rule present) present := by
  obtain ⟨present, eq⟩ := store.exists_present_rule r
  refine ⟨present, eq, rfl, ?_⟩
  cases references with
  | true =>
    -- All names that the rule refers to are declared, so none has changed.
    have declared : ∀ name ∈ r.symbols, name ∈ names.keys := by
      intro name hn
      have has := (h.2 name hn).2
      rwa [Table.has_eq_isIn, Value.isIn_iff_mem valid] at has
    have mentions : present.mentions = r.mentions.map store.present := by
      have looked := store.mentions_present (.rule r)
      rwa [eq] at looked
    intro name hn
    rw [Rule.symbols, Rule.addSymbols_eq_foldl] at hn
    rcases Rule.mem_of_mem_foldl_addName hn with none | mentioned
    · cases none
    · rw [mentions] at mentioned
      obtain ⟨other, ho, rfl⟩ := List.mem_map.1 mentioned
      have found : other ∈ names.keys := by
        refine Rule.mem_of_symbols valid (fun name hn ↦ ?_) ho
        rw [← Rule.addSymbols_eq_foldl] at hn
        exact declared name hn
      rw [store.present_of_isValidName (valid other found)]
      exact ⟨Value.canBeKey_of_isValidName (valid other found),
        (Table.has_validName _ (valid other found)).2 found⟩
  | false =>
    intro name hn
    rw [store.referencedName?_present eq] at hn
    obtain ⟨other, ho, named⟩ := Option.bind_eq_some_iff.1 hn
    obtain ⟨made, hm, rfl⟩ := Option.map_eq_some_iff.1 ho
    rw [store.toOption_present] at named
    obtain ⟨made', hm', rfl⟩ := Option.map_eq_some_iff.1 named
    obtain ⟨key, free⟩ := h.2 made' (Option.bind_eq_some_iff.2 ⟨made, hm, hm'⟩)
    exact ⟨by rwa [store.canBeKey_present], by rwa [store.has_present valid]⟩

/-- A literal string or a declared symbol is one at any time. -/
theorem Precedences.itemGives_present {names : Namespace Code}
    (valid : ∀ name ∈ names.keys, name.isValidName = true) (store : Store Code)
    {r : Rule (Value Code)} (h : ItemGives names (.rule r) r) :
    ∃ present, store.present (.rule r) = .rule present ∧
      ItemGives names (.rule present) present := by
  obtain ⟨-, ⟨v, rfl⟩ | ⟨name, rfl, key, has⟩⟩ := h
  · exact ⟨_, store.present_stringRule v, rfl, .inl ⟨_, rfl⟩⟩
  · have declared : name ∈ names.keys := by
      rwa [Table.has_eq_isIn, Value.isIn_iff_mem valid] at has
    exact ⟨_, store.present_symbol (valid name declared), rfl, .inr ⟨name, rfl, key, has⟩⟩

namespace Grammar.Settled

variable {g : Grammar (Value Code)} {references : Bool} {names : Namespace Code}
  (settled : g.Settled references names) {store : Store Code} (asMade : g.AsMade store)

include settled

/-- The names of the external symbols are declared, and then those of the rules. -/
theorem keys_eq : names.keys = g.namesOf .externals ++ g.namesOf .rules := by
  rw [settled.declared, Table.keys, List.map_append, List.map_map, List.map_map]
  exact congrArg₂ _ (List.map_id _) (List.map_id _)

/-- The names of the rules are declared. -/
theorem rule_mem {name : Value Code} (hn : name ∈ g.namesOf .rules) : name ∈ names.keys :=
  settled.keys_eq ▸ List.mem_append_right _ hn

/-- The names of the external symbols are declared. -/
theorem external_mem {name : Value Code} (hn : name ∈ g.namesOf .externals) :
    name ∈ names.keys :=
  settled.keys_eq ▸ List.mem_append_left _ hn

/-- The names of the rules have the right form. -/
theorem valid_rules : ∀ name ∈ g.namesOf .rules, name.isValidName = true := fun name hn ↦
  settled.valid name (settled.rule_mem hn)

/-- The names of the external symbols have the right form. -/
theorem valid_externals : ∀ name ∈ g.namesOf .externals, name.isValidName = true := fun name hn ↦
  settled.valid name (settled.external_mem hn)

/-- The external symbols and the rules all have different names. -/
theorem nodup_names : (g.namesOf .externals ++ g.namesOf .rules).Nodup :=
  settled.keys_eq ▸ settled.distinct

/-- What gives the external symbols in order is restated where nothing is declared. -/
theorem yields_validateExternals {v : Value Code} (none : before.names = [])
    (gives : Externals.Gives v ((g.namesOf .externals).map .symbol))
    (declares : Externals.names v = g.namesOf .externals) :
    Yields .failFast (Externals.validate v) before ((g.namesOf .externals).map .symbol)
      (before.declaring "externals" (g.namesOf .externals)) :=
  (Externals.yields_validate _ _).2 ⟨gives, declares.symm ▸ (List.nodup_append.1
    settled.nodup_names).1, fun name _ ↦ by simp [none, Table.keys], by rw [declares]⟩

/-- The rules of a settled grammar are those that are defined by some names. -/
theorem exists_definitions : ∃ defined : List (Value Code × Rule (Value Code)),
    g.rules.toList = defined.map fun entry ↦ (entry.1, .rule entry.2) := by
  have definitions := settled.definitions
  generalize g.rules.toList = stored at definitions
  induction stored with
  | nil => exact ⟨[], rfl⟩
  | cons entry rest ih =>
    rw [List.forall_mem_cons] at definitions
    obtain ⟨⟨r, eq⟩, more⟩ := definitions
    obtain ⟨defined, same⟩ := ih more
    exact ⟨(entry.1, r) :: defined, by rw [same, List.map_cons, ← eq]⟩

/-- Declared names are always the same. -/
theorem present_eq {name : Value Code} (hn : name ∈ names.keys) : store.present name = name :=
  store.present_of_isValidName (settled.valid name hn)

/-- Some declared names are always the same. -/
theorem map_present_eq {members : List (Value Code)} (h : ∀ name ∈ members, name ∈ names.keys) :
    members.map store.present = members :=
  (List.map_congr_left fun name hn ↦ settled.present_eq (h name hn)).trans (List.map_id _)

/-- The word is always the same. -/
theorem word_atPresent : (g.atPresent store).word = g.word := by
  rcases settled.word with missing | declared
  · rw [atPresent, missing, store.present_missing]
  · exact settled.present_eq declared

include asMade

/-- The rules at present, by their names. -/
theorem rules_atPresent : (g.atPresent store).rules.toList =
    g.rules.toList.map fun entry ↦ (entry.1, store.present entry.2) := by
  rw [atPresent, store.mapping_of_untouched settled.once.rules asMade.rules]
  exact List.map_congr_left fun entry he ↦
    congrArg (·, store.present entry.2) (settled.present_eq (settled.rule_mem
      (List.mem_map_of_mem he)))

/-- The externals are always the same. -/
theorem externals_atPresent : (g.atPresent store).externals.toList = g.externals.toList := by
  rw [atPresent, store.list_of_untouched settled.once.externals (asMade.lists .externals _ rfl),
    settled.externals, List.map_map]
  exact List.map_congr_left fun name hn ↦
    store.present_symbol (settled.valid_externals name hn)

/-- The names of the external symbols are always the same. -/
theorem namesOf_externals_atPresent :
    (g.atPresent store).namesOf .externals = g.namesOf .externals := by
  change (g.atPresent store).externals.toList.filterMap Value.symbolName? = _
  rw [settled.externals_atPresent asMade]
  rfl

/-- The names of the rules are always the same. -/
theorem namesOf_rules_atPresent : (g.atPresent store).namesOf .rules = g.namesOf .rules := by
  rw [namesOf, settled.rules_atPresent asMade, Table.keys, List.map_map]
  rfl

private theorem toList_atPresent (part : Section) (hp : part ∈ [Section.inline, .supertypes]) :
    ((g.atPresent store).list? part).map Items.toList = (g.list? part).map Items.toList := by
  simp only [List.mem_cons, List.not_mem_nil, or_false] at hp
  rcases hp with rfl | rfl
  · simp only [list?, atPresent, Option.map_some, Option.some.injEq]
    rw [store.list_of_untouched settled.once.inline (asMade.lists .inline _ rfl)]
    exact settled.map_present_eq settled.inline
  · simp only [list?, atPresent, Option.map_some, Option.some.injEq]
    rw [store.list_of_untouched settled.once.supertypes (asMade.lists .supertypes _ rfl)]
    exact settled.map_present_eq settled.supertypes

/-- The conflicts are always the same. -/
theorem conflicts_atPresent : (g.atPresent store).conflicts.toList = g.conflicts.toList := by
  rw [atPresent, store.list_of_untouched settled.once.conflicts (asMade.lists .conflicts _ rfl)]
  refine (List.map_congr_left fun group hg ↦ ?_).trans (List.map_id _)
  obtain ⟨place, members, rfl, -, declared⟩ := settled.conflicts group hg
  rw [store.present_list (asMade.groups .conflicts _ rfl _ hg), settled.map_present_eq declared]
  rfl

private theorem precedences_atPresent : ∀ group ∈ (g.atPresent store).precedences.toList,
    ∃ place, ∃ rules : List (Rule (Value Code)), group = .list ⟨place, rules.map .rule, false⟩ ∧
      ∀ r ∈ rules, Precedences.ItemGives names (.rule r) r := by
  rw [atPresent,
    store.list_of_untouched settled.once.precedences (asMade.lists .precedences _ rfl)]
  intro group hg
  obtain ⟨made, hm, rfl⟩ := List.mem_map.1 hg
  obtain ⟨place, rules, rfl, gives⟩ := settled.precedences made hm
  rw [store.present_list (asMade.groups .precedences _ rfl _ hm), List.map_map]
  have all : ∀ v ∈ rules.map (store.present ∘ .rule), ∃ r, v = .rule r ∧
      Precedences.ItemGives names (.rule r) r := by
    intro v hv
    obtain ⟨r, hr, rfl⟩ := List.mem_map.1 hv
    exact Precedences.itemGives_present settled.valid store (gives r hr)
  obtain ⟨present, eq⟩ := Value.exists_eq_map_rule _ fun v hv ↦
    (all v hv).imp fun _ found ↦ found.1
  rw [eq] at all ⊢
  refine ⟨place, present, rfl, fun r hr ↦ ?_⟩
  obtain ⟨_, same, found⟩ := all _ (List.mem_map_of_mem hr)
  cases same
  exact found

private theorem once_atPresent : (g.atPresent store).Once := by
  obtain ⟨again, rules, extras, externals, inline, conflicts, supertypes, precedences⟩ :=
    settled.once
  refine ⟨again, ?_, ?_, ?_, ?_, ?_, ?_, ?_⟩ <;> rw [atPresent]
  · rw [store.mapping_of_untouched rules asMade.rules]
  · rw [store.list_of_untouched extras asMade.extras]
  · rw [store.list_of_untouched externals (asMade.lists .externals _ rfl)]
  · rw [store.list_of_untouched inline (asMade.lists .inline _ rfl)]
  · rw [store.list_of_untouched conflicts (asMade.lists .conflicts _ rfl)]
  · rw [store.list_of_untouched supertypes (asMade.lists .supertypes _ rfl)]
  · rw [store.list_of_untouched precedences (asMade.lists .precedences _ rfl)]

/-- At present a settled grammar is settled, too. -/
theorem atPresent : (g.atPresent store).Settled references names where
  name := by
    rw [Grammar.atPresent, store.present_of_isValidName settled.name]
    exact settled.name
  externals := by
    rw [settled.namesOf_externals_atPresent asMade, settled.externals_atPresent asMade]
    exact settled.externals
  definitions := by
    rw [settled.rules_atPresent asMade]
    intro entry he
    obtain ⟨made, hm, rfl⟩ := List.mem_map.1 he
    obtain ⟨r, eq⟩ := settled.definitions made hm
    rw [eq]
    exact store.exists_present_rule r
  nonempty := by
    rw [settled.rules_atPresent asMade]
    simpa using settled.nonempty
  declared := by
    rw [settled.namesOf_externals_atPresent asMade, settled.namesOf_rules_atPresent asMade]
    exact settled.declared
  distinct := settled.distinct
  valid := settled.valid
  mentions := by
    rw [settled.rules_atPresent asMade]
    intro entry he name hn
    obtain ⟨made, hm, rfl⟩ := List.mem_map.1 he
    rw [store.mentions_present, settled.map_present_eq (settled.mentions made hm)] at hn
    exact settled.mentions made hm name hn
  extras := by
    rw [Grammar.atPresent, store.list_of_untouched settled.once.extras asMade.extras]
    intro v hv
    obtain ⟨made, hm, rfl⟩ := List.mem_map.1 hv
    obtain ⟨r, rfl, gives⟩ := settled.extras made hm
    obtain ⟨present, eq, gives⟩ := Extras.itemGives_present settled.valid store gives
    exact ⟨present, eq, eq ▸ gives⟩
  inline :=
    (Option.some.inj (settled.toList_atPresent asMade .inline (by decide))).symm ▸ settled.inline
  conflicts := (settled.conflicts_atPresent asMade).symm ▸ settled.conflicts
  word := settled.word_atPresent.symm ▸ settled.word
  supertypes :=
    (Option.some.inj (settled.toList_atPresent asMade .supertypes (by decide))).symm ▸
      settled.supertypes
  precedences := settled.precedences_atPresent asMade
  once := settled.once_atPresent asMade

end Grammar.Settled

end GrammarDoc
