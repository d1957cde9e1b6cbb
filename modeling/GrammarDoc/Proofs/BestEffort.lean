import GrammarDoc.Proofs.Stages

/-!
# Grammars built as well as possible

A build that collects all problems still makes a grammar. Whatever was wrong with its description,
the names in that grammar have the right form; a grammar that extends it keeps them, since it copies
what it is not given.
-/

namespace GrammarDoc

open Build (Yields MadeOf)

variable {Code : Type} {posture : Posture} {before after : Journal Code}

/-! ### What comes through the checks -/

/-- Whatever is in what a section comes to was given by an item, unless the section has fallbacks
that are not empty. -/
theorem Build.exists_yields_of_mem_guarded {α β : Type} {guards : List (Guard (List β))}
    {step : α → Build Code (Option β)} {items : Value Code → List α} {v : Value Code}
    {bs : List β}
    (h : Yields posture (guarded pure guards (fun v ↦ filterMap step (items v)) v) before bs after)
    (empty : ∀ guard ∈ guards, guard.fallback = [])
    (made : ∀ a, MadeOf (fun _ ↦ True) (step a)) {b : β} (hb : b ∈ bs) :
    ∃ a between next, Yields posture (step a) between (some b) next ∧
      before.Extends between ∧ next.Extends after := by
  rcases fallback_or_yields h with ⟨fallback, -⟩ | handled
  · obtain ⟨guard, hg, rfl⟩ := List.mem_map.1 fallback
    rw [empty guard hg] at hb
    cases hb
  · obtain ⟨a, -, between, next, start, yields, rest⟩ :=
      exists_yields_of_mem_filterMap handled (fun a _ ↦ made a) hb
    exact ⟨a, between, next, yields, start, rest⟩

/-- What follows the check of a name either has a name in the right form or follows a report. -/
theorem Build.of_yields_requireValidName {α : Type} {context : String} {within : Option String}
    {name : Value Code} {next : Bool → Build Code α} {a : α}
    (h : Yields posture (requireValidName context within name >>= next) before a after) :
    (name.isValidName = true ∧ Yields posture (next true) before a after) ∨
      ∃ between, Yields posture (next false) between a after := by
  obtain ⟨valid, between, required, rest⟩ := (yields_bind _ _ _).1 h
  obtain ⟨rfl, same⟩ := (yields_requireValidName _ _ _ _).1 required
  cases valid : name.isValidName with
  | true =>
    rw [valid, if_pos rfl] at same
    rw [valid, same] at rest
    exact .inl ⟨rfl, rest⟩
  | false => exact .inr ⟨between, valid ▸ rest⟩

private theorem Build.of_yields_requireDeclared {α : Type} {context : String}
    {within : Option String} {name : Value Code} {next : Bool → Build Code α} {a : α}
    (h : Yields posture (requireDeclared context within name >>= next) before a after) :
    (before.names.has name = true ∧ Yields posture (next true) before a after) ∨
      ∃ between, Yields posture (next false) between a after := by
  obtain ⟨declared, between, required, rest⟩ := (yields_bind _ _ _).1 h
  obtain ⟨-, rfl, same⟩ := (yields_requireDeclared _ _ _ _).1 required
  cases found : before.names.has name with
  | true =>
    rw [found, if_pos rfl] at same
    rw [found, same] at rest
    exact .inl ⟨rfl, rest⟩
  | false => exact .inr ⟨between, found ▸ rest⟩

namespace Names

private theorem isValidName_of_yields_validateName {v name : Value Code}
    (h : Yields posture (validateName v) before name after) : name.isValidName = true := by
  rcases Build.of_yields_requireValidName h with ⟨valid, next⟩ | ⟨_, next⟩
  · obtain ⟨rfl, -⟩ := (Build.yields_pure _ _).1 next
    exact valid
  · obtain ⟨rfl, -⟩ := (Build.yields_pure _ _).1 next
    exact (by decide : Text.isIdentifier invalidName = true)

private theorem isValidName_of_mem_inline {v name : Value Code} {names : List (Value Code)}
    (h : Yields posture (validateInline v) before names after) (hn : name ∈ names) :
    name.isValidName = true := by
  obtain ⟨entry, between, next, yields, -⟩ := Build.exists_yields_of_mem_guarded h (by simp)
    (fun entry ↦ madeOf_inlineName entry fun _ ↦ trivial) hn
  rcases Build.of_yields_requireValidName yields with ⟨valid, last⟩ | ⟨_, last⟩
  · cases Build.eq_of_yields_return last
    exact valid
  · cases ((Build.yields_pure _ _).1 last).1

private theorem isValidName_of_mem_supertypes {v name : Value Code} {names : List (Value Code)}
    (h : Yields posture (validateSupertypes v) before names after) (hn : name ∈ names) :
    name.isValidName = true := by
  obtain ⟨entry, between, next, yields, -⟩ := Build.exists_yields_of_mem_guarded h (by simp)
    (fun entry ↦ madeOf_supertype entry fun _ ↦ trivial) hn
  unfold supertype at yields
  split at yields
  · cases Build.eq_of_yields_return yields
  · rcases Build.of_yields_requireValidName yields with ⟨valid, last⟩ | ⟨_, last⟩
    · cases Build.eq_of_yields_return last
      exact valid
    · cases ((Build.yields_pure _ _).1 last).1

private theorem of_yields_conflictName {entry name : Value Code}
    (h : Yields posture (conflictName entry) before (some name) after) :
    name.isValidName = true ∧ name ∈ after.names.keys := by
  rcases Build.of_yields_requireValidName h with ⟨valid, next⟩ | ⟨_, next⟩
  · rcases Build.of_yields_requireDeclared next with ⟨declared, last⟩ | ⟨_, last⟩
    · obtain ⟨eq, rfl⟩ := (Build.yields_pure _ _).1 last
      cases eq
      exact ⟨valid, (Table.has_validName _ valid).1 declared⟩
    · cases ((Build.yields_pure _ _).1 last).1
  · cases ((Build.yields_pure _ _).1 next).1

private theorem of_yields_conflict {group : Value Code} {names : List (Value Code)}
    (h : Yields posture (conflict group) before (some names) after) :
    2 ≤ names.length ∧ ∀ name ∈ names, name.isValidName = true ∧ name ∈ after.names.keys := by
  unfold conflict at h
  split at h
  · cases Build.eq_of_yields_return h
  · obtain ⟨results, between, went, next⟩ := (Build.yields_bind _ _ _).1 h
    split at next
    · cases Build.eq_of_yields_return next
    · next enough =>
      obtain ⟨eq, rfl⟩ := (Build.yields_pure _ _).1 next
      cases eq
      refine ⟨Nat.not_lt.1 enough, fun name hn ↦ ?_⟩
      obtain ⟨entry, -, mid, last, -, yields, rest⟩ := Build.exists_yields_of_mem_filterMap went
        (fun entry _ ↦ (madeOf_conflictName entry fun _ ↦ trivial : MadeOf (fun _ ↦ True) _)) hn
      obtain ⟨valid, declared⟩ := of_yields_conflictName yields
      exact ⟨valid, rest.mem_keys declared⟩

private theorem of_mem_conflicts {v : Value Code} {groups : List (List (Value Code))}
    {names : List (Value Code)} (h : Yields posture (validateConflicts v) before groups after)
    (hn : names ∈ groups) :
    2 ≤ names.length ∧ ∀ name ∈ names, name.isValidName = true ∧ name ∈ after.names.keys := by
  obtain ⟨group, between, next, yields, -, rest⟩ := Build.exists_yields_of_mem_guarded h (by simp)
    (fun group ↦ madeOf_conflict group fun _ ↦ trivial) hn
  obtain ⟨enough, declared⟩ := of_yields_conflict yields
  exact ⟨enough, fun name hn ↦ ⟨(declared name hn).1, rest.mem_keys (declared name hn).2⟩⟩

private theorem of_yields_validateWord {v word : Value Code}
    (h : Yields posture (validateWord v) before word after) :
    word = .missing ∨ word.isValidName = true ∧ word ∈ after.names.keys := by
  unfold validateWord at h
  split at h
  · exact .inl ((Build.yields_pure _ _).1 h).1
  · rcases Build.of_yields_requireValidName h with ⟨valid, next⟩ | ⟨_, next⟩
    · rcases Build.of_yields_requireDeclared next with ⟨declared, last⟩ | ⟨_, last⟩
      · obtain ⟨rfl, rfl⟩ := (Build.yields_pure _ _).1 last
        exact .inr ⟨valid, (Table.has_validName _ valid).1 declared⟩
      · exact .inl ((Build.yields_pure _ _).1 last).1
    · exact .inl ((Build.yields_pure _ _).1 next).1

end Names

namespace Precedences

/-- An entry of precedences is a literal string or a symbol. -/
def IsEntry (r : Rule (Value Code)) : Prop :=
  (∃ text, r = .string text) ∨ ∃ name, r = .symbol name

private theorem isEntry_of_yields_fromItem {group entry : Nat} {raw : Value Code}
    {r : Rule (Value Code)}
    (h : Yields posture (fromItem group entry raw) before (some r) after) : IsEntry r := by
  obtain ⟨result, _, -, next⟩ := (Build.yields_bind _ _ _).1 h
  split at next
  · cases ((Build.yields_pure _ _).1 next).1
  · next name =>
    cases Build.eq_of_yields_return next
    exact .inr ⟨name, rfl⟩
  · next text =>
    cases ((Build.yields_pure _ _).1 next).1
    exact .inl ⟨text, rfl⟩
  · cases Build.eq_of_yields_return next

private theorem isEntry_of_mem_precedences {v : Value Code}
    {groups : List (List (Rule (Value Code)))}
    {group : List (Rule (Value Code))} {r : Rule (Value Code)}
    (h : Yields posture (validate v) before groups after) (hg : group ∈ groups) (hr : r ∈ group) :
    IsEntry r := by
  have inGuards : Yields posture (guarded pure [⟨.present, []⟩, ⟨.array "precedences", []⟩]
      (fun v ↦ Build.filterMap (fun group ↦ fromGroup group.2 group.1) (v.array?.getD []).zipIdx) v)
      before groups after := h
  obtain ⟨⟨raw, index⟩, between, next, yields, -⟩ := Build.exists_yields_of_mem_guarded inGuards
    (by simp) (fun group ↦ madeOf_fromGroup group.2 group.1 fun _ ↦ trivial) hg
  dsimp only at yields
  unfold fromGroup at yields
  split at yields
  · cases Build.eq_of_yields_return yields
  · obtain ⟨results, _, went, done⟩ := (Build.yields_bind _ _ _).1 yields
    cases ((Build.yields_pure _ _).1 done).1
    obtain ⟨⟨item, entry⟩, -, _, _, -, yields, -⟩ := Build.exists_yields_of_mem_filterMap went
      (fun item _ ↦ (madeOf_fromItem index item.2 item.1 fun _ ↦ trivial :
        MadeOf (fun _ ↦ True) _)) hr
    exact isEntry_of_yields_fromItem yields

end Precedences

namespace Externals

/-- If an external is a symbol, its name has the right form and is declared. -/
def Declared (names : Namespace Code) (r : Rule (Value Code)) : Prop :=
  ∀ name, r = .symbol name → name.isValidName = true ∧ name ∈ names.keys

private theorem declared_of_yields_fromItem {raw : Value Code} {r : Rule (Value Code)}
    (h : Yields posture (fromItem raw) before (some r) after) : Declared after.names r := by
  obtain ⟨result, _, -, next⟩ := (Build.yields_bind _ _ _).1 h
  split at next
  · cases ((Build.yields_pure _ _).1 next).1
  · next name =>
    rcases Build.of_yields_requireValidName next with ⟨valid, last⟩ | ⟨_, last⟩
    · obtain ⟨eq, free, declared⟩ := (Build.yields_discard_return _ _ _).1 last
      cases eq
      rintro other ⟨⟩
      obtain ⟨s, rfl⟩ := Value.eq_string_of_isValidName valid
      exact ⟨valid, Build.mem_of_yields_declare declared⟩
    · cases ((Build.yields_pure _ _).1 last).1
  · next other =>
    cases ((Build.yields_pure _ _).1 next).1
    exact fun name eq ↦ absurd eq (other name)

private theorem declared_of_yields_fromEntry {entry : Value Code × Value Code}
    {r : Rule (Value Code)}
    (h : Yields posture (fromEntry entry) before (some r) after) : Declared after.names r := by
  obtain ⟨key, raw⟩ := entry
  rcases Build.of_yields_requireValidName h with ⟨valid, next⟩ | ⟨_, next⟩
  · obtain ⟨result, _, -, next⟩ := (Build.yields_bind _ _ _).1 next
    split at next
    · cases ((Build.yields_pure _ _).1 next).1
    · split at next
      · cases Build.eq_of_yields_return next
      · next named =>
        obtain ⟨eq, free, declared⟩ := (Build.yields_discard_return _ _ _).1 next
        cases eq
        rintro name rfl
        -- A symbol of another name would have been dropped.
        obtain ⟨s, rfl⟩ := Value.eq_string_of_isValidName valid
        simp only [misnamed?, ite_eq_left_iff, Value.string_same] at named
        have same : name = .string s := by_contra fun other ↦ by
          cases named other
        exact ⟨same ▸ valid, same ▸ Build.mem_of_yields_declare declared⟩
  · cases ((Build.yields_pure _ _).1 next).1

private theorem declared_of_mem_externals {v : Value Code} {rules : List (Rule (Value Code))}
    {r : Rule (Value Code)} (h : Yields posture (validate v) before rules after) (hr : r ∈ rules) :
    Declared after.names r := by
  have grow {names : Journal Code} (extends' : names.Extends after)
      (declared : Declared names.names r) : Declared after.names r := fun name eq ↦
    ⟨(declared name eq).1, extends'.mem_keys (declared name eq).2⟩
  unfold validate at h
  split at h
  · obtain ⟨raw, -, _, _, -, yields, rest⟩ := Build.exists_yields_of_mem_filterMap h
      (fun raw _ ↦ (madeOf_fromItem raw (fun _ ↦ trivial) fun _ ↦ trivial :
        MadeOf (fun _ ↦ True) _)) hr
    exact grow rest (declared_of_yields_fromItem yields)
  · obtain ⟨entry, _, _, yields, -, rest⟩ := Build.exists_yields_of_mem_guarded h (by simp)
      (fun entry ↦ madeOf_fromEntry entry (fun _ ↦ trivial) fun _ ↦ trivial) hr
    exact grow rest (declared_of_yields_fromEntry yields)

end Externals

namespace Rules

/-- Whatever the posture, the names of the rules have the right form and are declared, if those of
the inherited rules have the right form. -/
theorem of_mem_rules {setting : Setting Code} {inherited definitions : Definitions Code}
    {v key : Value Code}
    (h : Yields posture (validate setting inherited v) before definitions after)
    (valid : ∀ name ∈ inherited.keys, name.isValidName = true) (hk : key ∈ definitions.keys) :
    key.isValidName = true ∧ key ∈ after.names.keys := by
  rcases Build.fallback_or_yields h with ⟨fallback, -⟩ | handled
  · obtain rfl : definitions = [] := by simpa using fallback
    cases hk
  · obtain ⟨first, functions, second, defined, third, last, inherits, declaring, defining, rfl,
      same, resolving⟩ := fromEntries_cases handled
    have resolved : after.names = third.names :=
      (resolving.idle (madeOf_resolve _ (fun _ ↦ .inr ⟨_, rfl⟩) (.inl rfl))).1.trans same.1
    have kept {name : Value Code} (hn : name ∈ second.names.keys) : name ∈ after.names.keys := by
      rw [resolved]
      exact (extends_of_yields_define defining).mem_keys hn
    have old {name : Value Code} (hn : name ∈ inherited.keys) : name ∈ first.names.keys := by
      obtain ⟨s, rfl⟩ := Value.eq_string_of_isValidName (valid name hn)
      exact Build.mem_of_yields_forM_declare inherits hn
    have declared := extends_of_yields_declareEntry declaring
    have new : ∀ entry ∈ defined, entry.1.isValidName = true ∧ entry.1 ∈ after.names.keys := by
      intro result hr
      obtain ⟨function, hf, _, _, -, yields, -⟩ :=
        Build.exists_yields_of_mem_filterMap defining (fun _ _ ↦ anyMoves_define _ _ _) hr
      obtain ⟨entry, -, _, _, -, gives, rest⟩ :=
        Build.exists_yields_of_mem_filterMap declaring (fun _ _ ↦ anyMoves_declareEntry _ _) hf
      obtain ⟨⟨proper, -, name⟩, free⟩ := of_yields_declareEntry gives
      rw [(of_yields_define yields).2 result rfl, name]
      refine ⟨proper, kept ?_⟩
      cases has : inherited.has entry.1 with
      | false => exact rest.mem_keys (free has)
      | true => exact declared.mem_keys (old ((Table.has_validName _ proper).1 has))
    rcases (mem_keys_merged (fun entry he ↦ (new entry he).1) key).1 hk with hk | hk
    · exact ⟨valid key hk, kept (declared.mem_keys (old hk))⟩
    · obtain ⟨entry, he, rfl⟩ := List.mem_map.1 hk
      exact new entry he

end Rules

/-! ### Well-formed grammars -/

/-- A grammar in which all names have the right form, conflicts are between at least two of them,
and precedences are of literal strings and symbols. -/
structure Grammar.WellFormed (g : Grammar (Value Code)) : Prop where
  name : g.name.isValidName = true
  rules : ∀ name ∈ g.namesOf .rules, name.isValidName = true
  /-- The names are those of symbols; externals that are no symbols have none. -/
  externals : ∀ name ∈ g.namesOf .externals, name.isValidName = true
  inline : ∀ name ∈ g.namesOf .inline, name.isValidName = true
  conflicts : ∀ group ∈ g.conflicts.toList, ∃ names, group.array? = some names ∧
    2 ≤ names.length ∧ ∀ name ∈ names, name.isValidName = true
  word : g.word = .missing ∨ g.word.isValidName = true
  supertypes : ∀ name ∈ g.namesOf .supertypes, name.isValidName = true
  precedences : ∀ group ∈ g.precedences.toList, ∃ entries, group.array? = some entries ∧
    ∀ v ∈ entries, ∃ r, v = .rule r ∧ Precedences.IsEntry r

/-- The names of rules, external symbols, conflicts and the word are in a namespace. -/
def Grammar.DeclaredIn (g : Grammar (Value Code)) (names : Namespace Code) : Prop :=
  ∀ part ∈ [Section.rules, .externals, .conflicts, .word], ∀ name ∈ g.namesOf part,
    name ∈ names.keys

namespace Setting

variable {setting : Setting Code} {description : Value Code} {entries : Table Code (Value Code)}
  {start : Store Code}

/-- What is extended, if anything is, is a well-formed grammar that is untouched in a store. -/
def Extends (setting : Setting Code) (store : Store Code) : Prop :=
  setting.hasBase = true →
    ∃ base, setting.base = .grammar base ∧ base.WellFormed ∧ base.Untouched store

private theorem isValidName_of_yields_name {name : Value Code}
    (h : Yields posture (setting.name entries) before name after)
    (sound : setting.Extends before.store) : name.isValidName = true := by
  rcases name_cases h with ⟨base, has⟩ | ⟨w, checked⟩
  · obtain ⟨g, eq, wellFormed, -⟩ := sound base
    rw [eq] at has
    cases has
    exact wellFormed.name
  · exact Names.isValidName_of_yields_validateName checked

/-- The external symbols of a grammar. -/
theorem of_yields_externals {items : Items (Value Code)}
    (h : Yields posture (setting.externals entries) before items after)
    (found : setting.Finds description start entries before.store)
    (sound : setting.Extends before.store) :
    ∀ name ∈ Section.externals.namesIn items.toList,
      name.isValidName = true ∧ name ∈ after.names.keys := by
  intro name hn
  rcases (externals_cases h found).2 with
    ⟨missing, inherits, declares⟩ | ⟨-, w, _, rules, -, checked, eq⟩
  · have valid : name.isValidName = true := by
      rcases inherits with ⟨-, none⟩ | ⟨base, -⟩
      · rw [none] at hn
        cases hn
      · obtain ⟨g, eq, wellFormed, untouched⟩ := sound base
        rw [names_of_inherited_externals h found eq untouched missing] at hn
        obtain ⟨other, ho, rfl⟩ := List.mem_map.1 hn
        have valid := wellFormed.externals other ho
        exact (before.store.present_of_isValidName valid).symm ▸ valid
    obtain ⟨s, rfl⟩ := Value.eq_string_of_isValidName valid
    exact ⟨valid, Build.mem_of_yields_forM_declare declares hn⟩
  · rw [eq] at hn
    obtain ⟨v, hv, symbol⟩ := List.mem_filterMap.1 hn
    obtain ⟨r, hr, rfl⟩ := List.mem_map.1 hv
    cases r with
    | symbol other =>
      cases symbol
      exact Externals.declared_of_mem_externals checked hr name rfl
    | bare | string | pattern | blank | group | wrap | prec | field | aliased => cases symbol

/-- The names of the rules of a grammar. -/
theorem of_yields_rules {rules : Entries (Value Code)}
    (h : Yields posture (setting.rules entries) before rules after)
    (found : setting.Finds description start entries before.store)
    (sound : setting.Extends before.store) :
    ∀ name ∈ Table.keys rules.toList, name.isValidName = true ∧ name ∈ after.names.keys := by
  intro name hn
  obtain ⟨-, inherited, inherits, checked⟩ := rules_cases h found
  refine Rules.of_mem_rules checked (fun old ho ↦ ?_) hn
  rcases inherits with ⟨-, rfl⟩ | given
  · cases ho
  · obtain ⟨g, eq, wellFormed, untouched⟩ := sound given.1
    rw [eq_of_inherited_rules eq untouched (.inr given)] at ho
    exact wellFormed.rules old ho

/-- What holds of the items that come through the checks of a section, and of copies of the items
that the base has for it, holds of all items. -/
theorem forall_of_yields_part {part : Section} {items : Items (Value Code)}
    {validate : Value Code → Build Code (List (Value Code))} {P : Value Code → Prop}
    (h : Yields posture (setting.part entries part validate) before items after)
    (found : setting.Finds description start entries before.store)
    (sound : setting.Extends before.store)
    (made : ∀ v, MadeOf Move.IsReport (validate v))
    (checks : ∀ {v between}, Yields posture (validate v) between items.toList after →
      ∀ item ∈ items.toList, P item)
    (copies : ∀ g : Grammar (Value Code), setting.hasBase = true → g.WellFormed →
      g.Untouched before.store → ∃ list, g.list? part = some list ∧
        ∀ item ∈ list.toList, ∀ copying, P (before.store.copy copying item).1) :
    ∀ item ∈ items.toList, P item := by
  intro item hi
  rcases (part_cases made h found).2.2 with ⟨base, -, v, has, copied⟩ | ⟨-, w, _, -, checked⟩
  · obtain ⟨g, eq, wellFormed, untouched⟩ := sound base
    obtain ⟨list, part, copies⟩ := copies g base wellFormed untouched
    rw [eq, Grammar.attribute?_of_list? part] at has
    cases has
    rw [before.store.toList_copy copied (untouched.lists _ list part)] at hi
    obtain ⟨other, ho, rfl⟩ := List.mem_map.1 hi
    exact copies other ho _
  · exact checks checked item hi

private theorem isValidName_of_yields_inline {items : Items (Value Code)}
    (h : Yields posture (setting.part entries .inline Names.validateInline) before items after)
    (found : setting.Finds description start entries before.store)
    (sound : setting.Extends before.store) : ∀ name ∈ items.toList, name.isValidName = true := by
  refine forall_of_yields_part h found sound
    (fun v ↦ Names.madeOf_validateInline v fun _ ↦ ⟨_, rfl⟩)
    (fun checked name hn ↦ Names.isValidName_of_mem_inline checked hn)
    fun g _ wellFormed _ ↦ ⟨g.inline, rfl, fun name hn copying ↦ ?_⟩
  have valid := wellFormed.inline name hn
  rwa [before.store.copy_of_isValidName copying valid]

private theorem isValidName_of_yields_supertypes {items : Items (Value Code)}
    (h : Yields posture (setting.part entries .supertypes Names.validateSupertypes) before items
      after)
    (found : setting.Finds description start entries before.store)
    (sound : setting.Extends before.store) : ∀ name ∈ items.toList, name.isValidName = true := by
  refine forall_of_yields_part h found sound
    (fun v ↦ Names.madeOf_validateSupertypes v fun _ ↦ ⟨_, rfl⟩)
    (fun checked name hn ↦ Names.isValidName_of_mem_supertypes checked hn)
    fun g _ wellFormed _ ↦ ⟨g.supertypes, rfl, fun name hn copying ↦ ?_⟩
  have valid := wellFormed.supertypes name hn
  rwa [before.store.copy_of_isValidName copying valid]

private theorem of_yields_conflicts {items : Items (Value Code)}
    (h : Yields posture (setting.part entries .conflicts fun v ↦ do
      return setting.groups .conflicts (← Names.validateConflicts v)) before items after)
    (found : setting.Finds description start entries before.store)
    (sound : setting.Extends before.store) :
    ∀ group ∈ items.toList, ∃ names, group.array? = some names ∧ 2 ≤ names.length ∧
      ∀ name ∈ names, name.isValidName = true ∧
        (setting.hasBase = false → name ∈ after.names.keys) := by
  refine forall_of_yields_part h found sound
    (fun v ↦ .bind (Names.madeOf_validateConflicts v fun _ ↦ ⟨_, rfl⟩) fun _ ↦ .pure _)
    (fun checked group hg ↦ ?_)
    fun g base wellFormed untouched ↦ ⟨g.conflicts, rfl, fun group hg copying ↦ ?_⟩
  · obtain ⟨groups, _, checked, done⟩ := (Build.yields_bind _ _ _).1 checked
    obtain ⟨eq, rfl⟩ := (Build.yields_pure _ _).1 done
    rw [eq] at hg
    obtain ⟨⟨names, index⟩, hn, rfl⟩ := List.mem_map.1 hg
    obtain ⟨enough, declared⟩ := Names.of_mem_conflicts checked (List.fst_mem_of_mem_zipIdx hn)
    exact ⟨names, rfl, enough, fun name hn ↦ ⟨(declared name hn).1, fun _ ↦ (declared name hn).2⟩⟩
  · obtain ⟨names, array, enough, valid⟩ := wellFormed.conflicts group hg
    refine ⟨names, ?_, enough, fun name hn ↦ ⟨valid name hn, fun none ↦ ?_⟩⟩
    · have same : names.map (fun v ↦ (before.store.copy copying v).1) = names :=
        (List.map_congr_left fun name hn ↦
          before.store.copy_of_isValidName copying (valid name hn)).trans (List.map_id' names)
      rw [before.store.array?_copy copying group fun list eq ↦
        untouched.groups .conflicts _ rfl list (eq ▸ hg), array, Option.map_some, same]
    · rw [base] at none
      cases none

private theorem of_yields_word {word : Value Code}
    (h : Yields posture (setting.word entries) before word after)
    (found : setting.Finds description start entries before.store)
    (sound : setting.Extends before.store) :
    word = .missing ∨ word.isValidName = true ∧
      (setting.hasBase = false → word ∈ after.names.keys) := by
  rcases (word_cases h found).2.2 with ⟨base, -, v, has, rfl⟩ | ⟨-, w, _, -, checked⟩
  · obtain ⟨g, eq, wellFormed, -⟩ := sound base
    rw [eq] at has
    cases has
    rcases wellFormed.word with missing | valid
    · rw [missing]
      exact .inl (before.store.copy_missing _)
    · rw [before.store.copy_of_isValidName _ valid]
      refine .inr ⟨valid, fun none ↦ ?_⟩
      rw [base] at none
      cases none
  · rcases Names.of_yields_validateWord checked with missing | ⟨valid, declared⟩
    · exact .inl missing
    · exact .inr ⟨valid, fun _ ↦ declared⟩

private theorem of_yields_precedences {items : Items (Value Code)}
    (h : Yields posture (setting.part entries .precedences fun v ↦ do
      return setting.groups .precedences ((← Precedences.validate v).map (·.map .rule))) before
      items after)
    (found : setting.Finds description start entries before.store)
    (sound : setting.Extends before.store) :
    ∀ group ∈ items.toList, ∃ entries, group.array? = some entries ∧
      ∀ v ∈ entries, ∃ r, v = .rule r ∧ Precedences.IsEntry r := by
  refine forall_of_yields_part h found sound
    (fun v ↦ .bind (Precedences.madeOf_validate v fun _ ↦ ⟨_, rfl⟩) fun _ ↦ .pure _)
    (fun checked group hg ↦ ?_)
    fun g _ wellFormed untouched ↦ ⟨g.precedences, rfl, fun group hg copying ↦ ?_⟩
  · obtain ⟨groups, _, checked, done⟩ := (Build.yields_bind _ _ _).1 checked
    obtain ⟨eq, rfl⟩ := (Build.yields_pure _ _).1 done
    rw [eq] at hg
    obtain ⟨⟨entries, index⟩, hn, rfl⟩ := List.mem_map.1 hg
    obtain ⟨rules, hr, rfl⟩ := List.mem_map.1 (List.fst_mem_of_mem_zipIdx hn)
    refine ⟨_, rfl, fun v hv ↦ ?_⟩
    obtain ⟨r, hr', rfl⟩ := List.mem_map.1 hv
    exact ⟨r, rfl, Precedences.isEntry_of_mem_precedences checked hr hr'⟩
  · obtain ⟨entries, array, isEntry⟩ := wellFormed.precedences group hg
    refine ⟨_, (before.store.array?_copy copying group fun list eq ↦
      untouched.groups .precedences _ rfl list (eq ▸ hg)).trans (congrArg _ array), fun v hv ↦ ?_⟩
    obtain ⟨other, ho, rfl⟩ := List.mem_map.1 hv
    obtain ⟨r, rfl, ⟨text, rfl⟩ | ⟨name, rfl⟩⟩ := isEntry other ho
    · exact ⟨_, (before.store.copy_rule copying text).1, .inl ⟨_, rfl⟩⟩
    · exact ⟨_, (before.store.copy_rule copying name).2, .inr ⟨_, rfl⟩⟩

/-- An assembly makes a well-formed grammar if what it extends is one and is left alone. Without a
base, its names are declared in the end. -/
theorem wellFormed_of_yields_assemble {description : Value Code} {g : Grammar (Value Code)}
    (h : Yields posture (setting.assemble description) before g after)
    (sound : setting.hasBase = true → ∃ base, setting.base = .grammar base ∧ base.WellFormed ∧
      setting.LeavesAlone description before.store base) :
    g.WellFormed ∧ (setting.hasBase = false → g.DeclaredIn after.names) := by
  obtain ⟨start, finish, stages⟩ := exists_stages h
  have extends' (part : Section) : setting.Extends (start part).store := by
    intro base
    obtain ⟨g, eq, wellFormed, alone⟩ := sound base
    exact ⟨g, eq, wellFormed, alone _ (stages.begins part).reaches⟩
  have atExternals := of_yields_externals stages.externals (stages.finds _) (extends' _)
  have atRules := of_yields_rules stages.rules (stages.finds _) (extends' _)
  have atConflicts := of_yields_conflicts stages.conflicts (stages.finds _) (extends' _)
  have atWord := of_yields_word stages.word (stages.finds _) (extends' _)
  constructor
  · exact {
      name := isValidName_of_yields_name stages.name (extends' _)
      rules := fun name hn ↦ (atRules name hn).1
      externals := fun name hn ↦ (atExternals name hn).1
      inline := isValidName_of_yields_inline stages.inline (stages.finds _) (extends' _)
      conflicts := by
        intro group hg
        obtain ⟨names, array, enough, valid⟩ := atConflicts group hg
        exact ⟨names, array, enough, fun name hn ↦ (valid name hn).1⟩
      word := atWord.imp_right And.left
      supertypes :=
        isValidName_of_yields_supertypes stages.supertypes (stages.finds _) (extends' _)
      precedences := of_yields_precedences stages.precedences (stages.finds _) (extends' _) }
  · intro base part hp name hn
    have made :=
      setting.madeOf_rules (Description.given description (start .rules).store) setting.permits_all
    simp only [List.mem_cons, List.not_mem_nil, or_false] at hp
    rcases hp with rfl | rfl | rfl | rfl
    -- The names at the end are those after the rules, and also those after any later section.
    · rw [← stages.defined .rules (by decide)]
      exact (atRules name hn).2
    · rw [← stages.defined .rules (by decide)]
      refine (stages.rules.extends made).mem_keys ?_
      rw [stages.declared]
      exact (atExternals name hn).2
    · rw [← stages.defined .conflicts (by decide)]
      obtain ⟨group, hg, hn⟩ := List.mem_flatMap.1 hn
      obtain ⟨names, array, -, declared⟩ := atConflicts group hg
      rw [array] at hn
      exact (declared name hn).2 base
    · rw [← stages.defined .word (by decide)]
      have eq := Value.eq_of_toOption_eq_some (Option.mem_toList.1 hn)
      rcases atWord with missing | ⟨-, declared⟩
      · rw [Grammar.namesOf, missing] at hn
        cases hn
      · exact eq ▸ declared base

/-- A build that collects is an assembly, but for its last line. -/
theorem yields_of_collect {description : Value Code} {store : Store Code}
    {g : Grammar (Value Code)} (h : setting.collect description store = (.ok g, after)) :
    ∃ journal, Yields .collect (setting.assemble description) { store } g journal ∧
      after.names = journal.names ∧ after.problems = journal.problems ∧
      after.store = journal.store := by
  rw [collect_eq] at h
  unfold Yields
  generalize Build.start (setting.assemble description) .collect { store } = run at h
  obtain ⟨_ | g', journal⟩ := run
  · cases h
  · cases h
    refine ⟨journal, rfl, ?_⟩
    split
    · exact ⟨rfl, rfl, rfl⟩
    · exact ⟨rfl, rfl, rfl⟩

/-- An assembly that collects is a build, but for its last line. -/
theorem exists_collect_of_yields {description : Value Code} {store : Store Code}
    {g : Grammar (Value Code)} {journal : Journal Code}
    (h : Yields .collect (setting.assemble description) { store } g journal) :
    ∃ after, setting.collect description store = (.ok g, after) ∧
      after.names = journal.names ∧ after.problems = journal.problems ∧
      after.store = journal.store := by
  rw [collect_eq, h]
  refine ⟨_, rfl, ?_⟩
  split
  · exact ⟨rfl, rfl, rfl⟩
  · exact ⟨rfl, rfl, rfl⟩

end Setting

/-- The grammars that builds make one after another, with the names that are declared in the end of
each build: the first without a base, each further one extending the one before and leaving it
alone. Every build has a setting of its own and starts from a store of its own. -/
inductive BestEffort : Bool → Grammar (Value Code) → Namespace Code → Prop
  | first {setting : Setting Code} {description : Value Code} {store : Store Code}
      {g : Grammar (Value Code)} {after : Journal Code} : setting.hasBase = false →
      setting.collect description store = (.ok g, after) → BestEffort true g after.names
  | further {isFirst : Bool} {base : Grammar (Value Code)} {names : Namespace Code}
      {setting : Setting Code} {description : Value Code} {store : Store Code}
      {g : Grammar (Value Code)} {after : Journal Code} : BestEffort isFirst base names →
      setting.base = .grammar base → setting.LeavesAlone description store base →
      setting.collect description store = (.ok g, after) → BestEffort false g after.names

/-- Every grammar that is built as well as possible is well formed, whatever the problems of its
description and of those before. The names of the first one are declared. -/
theorem wellFormed_of_bestEffort {isFirst : Bool} {g : Grammar (Value Code)}
    {names : Namespace Code} (h : BestEffort isFirst g names) :
    g.WellFormed ∧ (isFirst = true → g.DeclaredIn names) := by
  induction h with
  | first noBase collected =>
    obtain ⟨journal, yields, eq, -⟩ := Setting.yields_of_collect collected
    obtain ⟨wellFormed, declared⟩ := Setting.wellFormed_of_yields_assemble yields fun base ↦ by
      rw [noBase] at base
      cases base
    exact ⟨wellFormed, fun _ ↦ eq ▸ declared noBase⟩
  | further _ eq alone collected ih =>
    obtain ⟨journal, yields, -⟩ := Setting.yields_of_collect collected
    obtain ⟨wellFormed, -⟩ := Setting.wellFormed_of_yields_assemble yields
      fun _ ↦ ⟨_, eq, ih.1, alone⟩
    refine ⟨wellFormed, fun isFirst ↦ ?_⟩
    cases isFirst

/-- A grammar is built from a description of which each section has valid and malformed entries. It
is extended by another one, in which some functions of sections raise problems, so that these
sections stay what they are. -/
theorem wellFormed_of_malformed :
    let setting (index : Nat) (base : Value Unit) : Setting Unit :=
      { run := fun _ _ _ ↦ throw (.problem ⟨.undefined, none⟩), place := .step index, base }
    let list (items : List (Value Unit)) : Value Unit := .list ⟨.step 0, items, false⟩
    let mapping (entries : Table Unit (Value Unit)) : Value Unit :=
      .mapping ⟨.step 0, entries, false⟩
    let symbol (name : String) : Value Unit := .symbol (.string name)
    let rule (name : String) (r : Rule (Value Unit)) : Value Unit × Value Unit :=
      (.string name, .callable (.constant (.step 0) name (.rule r)))
    let raising : Value Unit :=
      .callable ⟨.step 0, some "raising", { positional := ["grammar"] }, .code ()⟩
    let first : Value Unit := mapping [
      (.string "name", .string "1g"),
      (.string "externals", list [symbol "indent", symbol "2x", .string ","]),
      (.string "rules", mapping [
        rule "a" (.group .seq [.symbol (.string "b"), .symbol (.string "absent")]),
        (.string "b", raising), (.string "c", .int 5), rule "3y" .blank]),
      (.string "inline", list [.string "a", .string "4z", symbol "absent"]),
      (.string "conflicts", list [.tuple [.string "a", symbol "indent"], list [.string "a"]]),
      (.string "word", .string "a"),
      (.string "supertypes", .tuple [symbol "a", .int 5]),
      (.string "precedences", list [list [.string "high", symbol "a", .int 5], .int 5])]
    let second : Value Unit := mapping [
      (.string "name", .string "h"),
      (.string "rules", mapping [rule "d" (.symbol (.string "a")), (.int 5, raising)]),
      (.string "inline", raising),
      (.string "conflicts", list [.tuple [symbol "d", .string "a", .string "absent"], .int 5]),
      (.string "word", raising),
      (.string "precedences", list [raising, list [symbol "d", symbol "absent"]])]
    ∃ g after g' after', (setting 0 .missing).collect first {} = (.ok g, after) ∧
      (setting 1 (.grammar g)).collect second {} = (.ok g', after') ∧
      after.problems.length = 12 ∧ after'.problems.length = 10 ∧
      (∀ part ∈ Section.all, part ≠ .extras → g'.namesOf part ≠ []) ∧
      g.WellFormed ∧ g.DeclaredIn after.names ∧ BestEffort false g' after'.names ∧
      g'.WellFormed := by
  intro setting list mapping symbol rule raising first second
  have returns : ((setting 0 .missing).collect first {}).1.toOption.any (fun g ↦
      let run := (setting 1 (.grammar g)).collect second {}
      run.1.toOption.any fun g' ↦ run.2.problems.length == 10 &&
        Section.all.all fun part ↦ part = .extras || !(g'.namesOf part).isEmpty) = true := by
    decide +kernel
  have reported : ((setting 0 .missing).collect first {}).2.problems.length = 12 := by
    decide +kernel
  obtain ⟨g, built, returns⟩ := Build.exists_eq_ok_of_any returns
  obtain ⟨g', extended, returns⟩ := Build.exists_eq_ok_of_any returns
  simp only [Bool.and_eq_true, beq_iff_eq, List.all_eq_true, Bool.or_eq_true, decide_eq_true_eq,
    Bool.not_eq_true', List.isEmpty_eq_false_iff] at returns
  obtain ⟨reported', named⟩ := returns
  have start : BestEffort true g _ := .first rfl built
  have chain := BestEffort.further start rfl (Setting.leavesAlone_of_pure fun _ _ _ _ ↦ rfl)
    extended
  obtain ⟨wellFormed, declared⟩ := wellFormed_of_bestEffort start
  exact ⟨g, _, g', _, built, extended, reported, reported',
    fun part hp other ↦ (named part hp).resolve_left other, wellFormed, declared rfl, chain,
    (wellFormed_of_bestEffort chain).1⟩

/-- If a function adds to the names of the grammar that is extended, whatever their form, they are
in the grammar that is made. -/
theorem exists_not_wellFormed :
    let name : Value Unit := .string "1x"
    let inline : Items (Value Unit) :=
      ⟨((Place.step 0).part "result").part "inline", [], false⟩
    let setting (index : Nat) (base : Value Unit) : Setting Unit := {
      run := fun _ _ _ ↦ do
        Exec.append inline name
        return .string "x"
      place := .step index, base }
    let rule : Value Unit := .callable ⟨.step 1, some "b", {}, .code ()⟩
    let rules : Value Unit := .mapping ⟨(Place.step 1).part "rules", [(.string "b", rule)], false⟩
    let description : Value Unit := .mapping ⟨.step 1, [(.string "rules", rules)], false⟩
    ∃ g after g' after', (setting 0 .missing).collect .missing {} = (.ok g, after) ∧
      (setting 1 (.grammar g)).collect description after.store = (.ok g', after') ∧
      after'.problems = [] ∧ ¬ g'.WellFormed := by
  intro name inline setting rule rules description
  have returns : ((setting 0 .missing).collect .missing {}).1.toOption.any (fun g ↦
      let run := (setting 1 (.grammar g)).collect description
        ((setting 0 .missing).collect .missing {}).2.store
      run.1.toOption.any fun g' ↦
        run.2.problems.isEmpty && g'.inline.toList.any fun name ↦ !name.isValidName) = true := by
    decide +kernel
  obtain ⟨g, first, returns⟩ := Build.exists_eq_ok_of_any returns
  obtain ⟨g', second, returns⟩ := Build.exists_eq_ok_of_any returns
  simp only [Bool.and_eq_true, List.isEmpty_iff, List.any_eq_true] at returns
  obtain ⟨none, malformed, found, invalid⟩ := returns
  refine ⟨g, _, g', _, first, second, none, fun wellFormed ↦ ?_⟩
  have valid := wellFormed.inline malformed found
  rw [valid] at invalid
  cases invalid

end GrammarDoc
