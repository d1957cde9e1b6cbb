import GrammarDoc.Proofs.FieldTypes

/-!
# Looking twice

A look at a value shows every changed collection in it with its present content, so that a second
look shows nothing else. What a grammar has at present is seen by a look at each of its parts.
-/

namespace GrammarDoc

variable {Code : Type}

/-- Whether what stands for a collection has the place of that collection. -/
structure Replacement.InPlace (new : Replacement Code) : Prop where
  list : ∀ above place items, new.list above place = some items → items.place = place
  mapping : ∀ above place entries,
    new.mapping above place = some entries → entries.place = place

namespace Value

variable {new : Replacement Code}

mutual

/-- Collections that have been replaced are not replaced by others. -/
theorem replaced_replaced {above : List Place} (inPlace : new.InPlace) :
    ∀ v : Value Code, replaced new above (replaced new above v) = replaced new above v
  | missing | bool _ | int _ | double _ | string _ | pattern _ | callable _ | builder _ => by
    simp [replaced]
  | list items => by rw [replaced, replaced, replacedList_replacedList inPlace items]
  | tuple items => by rw [replaced, replaced, replacedItems_replacedItems inPlace items]
  | mapping entries => by rw [replaced, replaced, replacedMapping_replacedMapping inPlace entries]
  | rule r => by rw [replaced, replaced, replacedRule_replacedRule inPlace r]
  | grammar ⟨place, name, rules, extras, externals, inline, conflicts, word, supertypes,
      precedences, again⟩ => by
    by_cases inside : place ∈ above
    · rw [replaced, replacedGrammar, if_pos inside, replaced, replacedGrammar, if_pos inside]
    · rw [replaced, replacedGrammar, if_neg inside, replaced, replacedGrammar, if_neg inside]
      simp only [replaced_replaced inPlace name, replacedMapping_replacedMapping inPlace rules,
        replacedList_replacedList inPlace extras, replacedList_replacedList inPlace externals,
        replacedList_replacedList inPlace inline, replacedList_replacedList inPlace conflicts,
        replaced_replaced inPlace word, replacedList_replacedList inPlace supertypes,
        replacedList_replacedList inPlace precedences]
  | references ⟨_, rules, externals, functions⟩ => by
    rw [replaced, replaced, replacedMapping_replacedMapping inPlace rules,
      replacedMapping_replacedMapping inPlace externals,
      replacedMapping_replacedMapping inPlace functions]

/-- A list that has been replaced is not replaced by another. -/
theorem replacedList_replacedList {above : List Place} (inPlace : new.InPlace) :
    ∀ items : Items (Value Code),
      replacedList new above (replacedList new above items) = replacedList new above items
  | ⟨place, items, _⟩ => by
    rw [replacedList]
    cases put : new.list above place with
    | some list =>
      obtain ⟨other, inner, again⟩ := list
      obtain rfl : other = place := inPlace.list _ _ _ put
      simp only [replacedList, put]
    | none => simp only [replacedList, put, replacedItems_replacedItems inPlace items]

/-- Collections that have been replaced in items are not replaced by others. -/
theorem replacedItems_replacedItems {above : List Place} (inPlace : new.InPlace) :
    ∀ items : List (Value Code),
      replacedItems new above (replacedItems new above items) = replacedItems new above items
  | [] => by rw [replacedItems, replacedItems]
  | v :: rest => by
    rw [replacedItems, replacedItems, replaced_replaced inPlace v,
      replacedItems_replacedItems inPlace rest]

/-- A mapping that has been replaced is not replaced by another. -/
theorem replacedMapping_replacedMapping {above : List Place} (inPlace : new.InPlace) :
    ∀ entries : Entries (Value Code),
      replacedMapping new above (replacedMapping new above entries) =
        replacedMapping new above entries
  | ⟨place, entries, _⟩ => by
    rw [replacedMapping]
    cases put : new.mapping above place with
    | some mapping =>
      obtain ⟨other, inner, again⟩ := mapping
      obtain rfl : other = place := inPlace.mapping _ _ _ put
      simp only [replacedMapping, put]
    | none => simp only [replacedMapping, put, replacedEntries_replacedEntries inPlace entries]

/-- Collections that have been replaced in entries are not replaced by others. -/
theorem replacedEntries_replacedEntries {above : List Place} (inPlace : new.InPlace) :
    ∀ entries : List (Value Code × Value Code),
      replacedEntries new above (replacedEntries new above entries) =
        replacedEntries new above entries
  | [] => by rw [replacedEntries, replacedEntries]
  | (key, v) :: rest => by
    rw [replacedEntries, replacedEntries, replaced_replaced inPlace key,
      replaced_replaced inPlace v, replacedEntries_replacedEntries inPlace rest]

/-- Collections that have been replaced in a rule are not replaced by others. -/
theorem replacedRule_replacedRule {above : List Place} (inPlace : new.InPlace) :
    ∀ r : Rule (Value Code),
      replacedRule new above (replacedRule new above r) = replacedRule new above r
  | .bare _ | .blank => by simp [replacedRule]
  | .string v | .pattern v | .symbol v => by
    rw [replacedRule, replacedRule, replaced_replaced inPlace v]
  | .group _ members => by
    rw [replacedRule, replacedRule, replacedRules_replacedRules inPlace members]
  | .wrap _ content => by rw [replacedRule, replacedRule, replacedRule_replacedRule inPlace content]
  | .prec _ v content | .field v content | .aliased content _ v => by
    rw [replacedRule, replacedRule, replaced_replaced inPlace v,
      replacedRule_replacedRule inPlace content]

/-- Collections that have been replaced in rules are not replaced by others. -/
theorem replacedRules_replacedRules {above : List Place} (inPlace : new.InPlace) :
    ∀ rules : List (Rule (Value Code)),
      replacedRules new above (replacedRules new above rules) = replacedRules new above rules
  | [] => by rw [replacedRules, replacedRules]
  | r :: rest => by
    rw [replacedRules, replacedRules, replacedRule_replacedRule inPlace r,
      replacedRules_replacedRules inPlace rest]

end

variable (new)

mutual

/-- A value may be looked up in a namespace or not, whatever stands for the collections in it. -/
theorem canBeKey_replaced (above : List Place) :
    ∀ v : Value Code, (replaced new above v).canBeKey = v.canBeKey
  | missing | bool _ | int _ | double _ | string _ | pattern _ | callable _ | builder _ | list _
  | mapping _ | grammar _ | references _ => by simp [replaced, canBeKey]
  | tuple items => by rw [replaced, canBeKey, canBeKey, allCanBeKeys_replacedItems above items]
  | rule r => by rw [replaced, canBeKey, canBeKey, ruleCanBeKey_replacedRule above r]

/-- Items may be looked up or not, whatever stands for the collections in them. -/
theorem allCanBeKeys_replacedItems (above : List Place) :
    ∀ items : List (Value Code), allCanBeKeys (replacedItems new above items) = allCanBeKeys items
  | [] => by rw [replacedItems]
  | v :: rest => by
    rw [replacedItems, allCanBeKeys, allCanBeKeys, canBeKey_replaced above v,
      allCanBeKeys_replacedItems above rest]

/-- A rule may be looked up or not, whatever stands for the collections in it. -/
theorem ruleCanBeKey_replacedRule (above : List Place) :
    ∀ r : Rule (Value Code), ruleCanBeKey (replacedRule new above r) = ruleCanBeKey r
  | .bare _ | .blank => by simp [replacedRule, ruleCanBeKey]
  | .string v | .pattern v | .symbol v => by
    simp [replacedRule, ruleCanBeKey, canBeKey_replaced above v]
  | .group _ members => by
    rw [replacedRule, ruleCanBeKey, ruleCanBeKey, allRulesCanBeKeys_replacedRules above members]
  | .wrap _ content => by
    rw [replacedRule, ruleCanBeKey, ruleCanBeKey, ruleCanBeKey_replacedRule above content]
  | .prec _ v content | .field v content | .aliased content _ v => by
    simp [replacedRule, ruleCanBeKey, canBeKey_replaced above v,
      ruleCanBeKey_replacedRule above content]

/-- Rules may be looked up or not, whatever stands for the collections in them. -/
theorem allRulesCanBeKeys_replacedRules (above : List Place) :
    ∀ rules : List (Rule (Value Code)),
      allRulesCanBeKeys (replacedRules new above rules) = allRulesCanBeKeys rules
  | [] => by rw [replacedRules]
  | r :: rest => by
    rw [replacedRules, allRulesCanBeKeys, allRulesCanBeKeys, ruleCanBeKey_replacedRule above r,
      allRulesCanBeKeys_replacedRules above rest]

end

end Value

namespace Store

variable (store : Store Code)

private theorem exists_replaced_inPlace (h : ¬ store.isEmpty = true) :
    ∃ new : Replacement Code, store.present = Value.replaced new [] ∧ new.InPlace := by
  refine ⟨_, funext fun v ↦ (if_neg h).trans (presentWithin.eq_2 store _ v _), ⟨?_, ?_⟩⟩
  · intro above place list put
    obtain ⟨items, -, rfl⟩ := Option.map_eq_some_iff.1 put
    split <;> rfl
  · intro above place mapping put
    obtain ⟨entries, -, rfl⟩ := Option.map_eq_some_iff.1 put
    split <;> rfl

/-- A second look at a value shows the same. -/
@[simp] theorem present_present (v : Value Code) :
    store.present (store.present v) = store.present v := by
  by_cases empty : store.isEmpty
  · rw [present, present, if_pos empty, if_pos empty]
  · obtain ⟨new, eq, inPlace⟩ := store.exists_replaced_inPlace empty
    rw [eq]
    exact Value.replaced_replaced inPlace v

/-- A value may be looked up or not at any time. -/
@[simp] theorem canBeKey_present (v : Value Code) : (store.present v).canBeKey = v.canBeKey := by
  obtain same | ⟨new, eq, -⟩ := store.present_cases
  · simp [same]
  · rw [eq]
    exact Value.canBeKey_replaced new [] v

/-- A list that has not been changed has the items that it was made with, each as it is at
present. -/
theorem present_list {place : Place} (untouched : store.lists.lookup place = none)
    (items : List (Value Code)) :
    store.present (.list ⟨place, items, false⟩) =
      .list ⟨place, items.map store.present, false⟩ := by
  obtain same | ⟨new, eq, lists, -⟩ := store.present_cases
  · simp [same]
  · rw [eq, Value.replaced, Value.replacedList, (lists [] place).2 untouched,
      Value.replacedItems_eq_map]

/-- A mapping that has not been changed has the entries that it was made with, each as it is at
present. -/
theorem present_mapping {place : Place} (untouched : store.mappings.lookup place = none)
    (entries : List (Value Code × Value Code)) :
    store.present (.mapping ⟨place, entries, false⟩) =
      .mapping ⟨place, entries.map fun (key, v) ↦ (store.present key, store.present v), false⟩ := by
  obtain same | ⟨new, eq, -, mappings⟩ := store.present_cases
  · simp [same]
  · rw [eq, Value.replaced, Value.replacedMapping, (mappings [] place).2 untouched,
      Value.replacedEntries_eq_map]

/-- A symbol of a proper name is always the same. -/
theorem present_symbol {name : Value Code} (valid : name.isValidName = true) :
    store.present (.symbol name) = .symbol name := by
  have same := store.present_of_isValidName valid
  obtain same | ⟨new, eq, -⟩ := store.present_cases
  · simp [same]
  · rw [eq] at same ⊢
    rw [Value.symbol, Value.replaced, Value.replacedRule, same]

/-- A literal string is one at any time. -/
theorem present_stringRule (v : Value Code) :
    store.present (.rule (.string v)) = .rule (.string (store.present v)) := by
  obtain same | ⟨new, eq, -⟩ := store.present_cases
  · simp [same]
  · rw [eq, Value.replaced, Value.replacedRule]

/-- A callable is always the same. -/
theorem present_callable (f : Callable (Value Code) Code) :
    store.present (.callable f) = .callable f := by
  obtain same | ⟨new, eq, -⟩ := store.present_cases
  · simp [same]
  · simp [eq, Value.replaced]

/-- Only a missing value is missing at present. -/
theorem toOption_present (v : Value Code) :
    (store.present v).toOption = v.toOption.map store.present := by
  obtain same | ⟨new, eq, -⟩ := store.present_cases
  · simp [same]
  · rw [eq]
    cases v with
    | references r =>
      obtain ⟨_, _, _, _⟩ := r
      simp [Value.replaced, Value.toOption]
    | missing | bool | int | double | string | list | tuple | mapping | pattern | callable | builder
    | rule | grammar => simp [Value.replaced, Value.toOption]

/-- The name that a symbol or an alias refers to is looked at with the rule. -/
theorem referencedName?_present {r present : Rule (Value Code)}
    (h : store.present (.rule r) = .rule present) :
    present.referencedName? = r.referencedName?.map store.present := by
  obtain same | ⟨new, eq, -⟩ := store.present_cases
  · rw [same] at h ⊢
    cases h
    exact Option.map_id_apply.symm
  · rw [eq, Value.replaced, Value.rule.injEq] at h
    rw [eq, ← h]
    cases r <;> simp [Value.replacedRule, Rule.referencedName?]

/-- A table of proper names has a value at present if it had it before. -/
theorem has_present {β : Type} {table : Table Code β}
    (valid : ∀ name ∈ table.keys, name.isValidName = true) (v : Value Code) :
    table.has (store.present v) = table.has v := by
  rw [Bool.eq_iff_iff, Table.has_eq_isIn, Table.has_eq_isIn, Value.isIn_iff_mem valid,
    Value.isIn_iff_mem valid]
  constructor
  · intro found
    obtain ⟨s, eq⟩ := Value.eq_string_of_isValidName (valid _ found)
    rwa [eq, ← (store.present_eq_string v s).1 eq] at found
  · intro found
    rwa [store.present_of_isValidName (valid v found)]

/-- A list as it is at present. -/
def list (items : Items (Value Code)) : Items (Value Code) :=
  match store.present (.list items) with
  | .list present => present
  | _ => items

/-- A mapping as it is at present. -/
def mapping (entries : Entries (Value Code)) : Entries (Value Code) :=
  match store.present (.mapping entries) with
  | .mapping present => present
  | _ => entries

/-- A list is a list at any time. -/
theorem present_eq_list (items : Items (Value Code)) :
    store.present (.list items) = .list (store.list items) := by
  unfold list
  obtain same | ⟨new, eq, -⟩ := store.present_cases
  · simp [same]
  · rw [eq, Value.replaced]

/-- A mapping is a mapping at any time. -/
theorem present_eq_mapping (entries : Entries (Value Code)) :
    store.present (.mapping entries) = .mapping (store.mapping entries) := by
  unfold mapping
  obtain same | ⟨new, eq, -⟩ := store.present_cases
  · simp [same]
  · rw [eq, Value.replaced]

/-- A list that has not been changed, as it is at present. -/
theorem list_of_untouched {items : Items (Value Code)} (once : items.again = false)
    (untouched : store.lists.lookup items.place = none) :
    store.list items = ⟨items.place, items.toList.map store.present, false⟩ := by
  obtain ⟨place, items, again⟩ := items
  subst once
  rw [list, store.present_list untouched]

/-- A mapping that has not been changed, as it is at present. -/
theorem mapping_of_untouched {entries : Entries (Value Code)} (once : entries.again = false)
    (untouched : store.mappings.lookup entries.place = none) :
    store.mapping entries = ⟨entries.place,
      entries.toList.map fun (key, v) ↦ (store.present key, store.present v), false⟩ := by
  obtain ⟨place, entries, again⟩ := entries
  subst once
  rw [mapping, store.present_mapping untouched]

end Store

/-- A grammar as it is at present, part by part. -/
def Grammar.atPresent (g : Grammar (Value Code)) (store : Store Code) : Grammar (Value Code) where
  place := g.place
  name := store.present g.name
  rules := store.mapping g.rules
  extras := store.list g.extras
  externals := store.list g.externals
  inline := store.list g.inline
  conflicts := store.list g.conflicts
  word := store.present g.word
  supertypes := store.list g.supertypes
  precedences := store.list g.precedences
  again := g.again

/-- What a grammar has for a section at present is seen by a look at that. -/
theorem Grammar.fields_atPresent (g : Grammar (Value Code)) (store : Store Code)
    (part : Section) : (g.atPresent store).fields part = store.present (g.fields part) := by
  cases part with
  | name | word => rfl
  | rules => exact (store.present_eq_mapping _).symm
  | externals | extras | inline | conflicts | supertypes | precedences =>
    exact (store.present_eq_list _).symm

end GrammarDoc
