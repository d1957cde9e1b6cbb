import GrammarDoc.Proofs.Passage

/-!
# Types of fields

A grammar document declares each of its fields to be a string, a list or a mapping of strings or of
rules. Nothing keeps a grammar that is changed after it was built from having anything else in a
field, so whether it has what is declared is a matter of the store that it is looked at in.
-/

namespace GrammarDoc

variable {Code : Type}

namespace Value

/-- Whether a value is a string. -/
def isString : Value Code → Bool
  | string _ => true
  | _ => false

/-- Whether a value is a rule. -/
def isRule : Value Code → Bool
  | rule _ => true
  | _ => false

/-- Whether a value is a list of items of a kind. -/
def isListOf (kind : Value Code → Bool) : Value Code → Bool
  | list items => items.toList.all kind
  | _ => false

/-- A list of items of a kind has items, and they are of that kind. -/
theorem exists_of_isListOf {kind : Value Code → Bool} {v : Value Code}
    (h : v.isListOf kind = true) :
    ∃ items, v = list items ∧ ∀ item ∈ items.toList, kind item = true := by
  cases v with
  | list items => exact ⟨items, rfl, List.all_eq_true.1 h⟩
  | missing | bool | int | double | string | tuple | mapping | pattern | callable | builder | rule
  | grammar | references => cases h

/-- A list of items of a kind is an array. -/
theorem isSome_array?_of_isListOf {kind : Value Code → Bool} {v : Value Code}
    (h : v.isListOf kind = true) : v.array?.isSome = true := by
  obtain ⟨items, rfl, -⟩ := exists_of_isListOf h
  rfl

/-- What is a rule is one. -/
theorem exists_of_isRule {v : Value Code} (h : v.isRule = true) : ∃ r, v = rule r := by
  cases v with
  | rule r => exact ⟨r, rfl⟩
  | missing | bool | int | double | string | list | tuple | mapping | pattern | callable | builder
  | grammar | references => cases h

/-- What is a string is one. -/
theorem exists_of_isString {v : Value Code} (h : v.isString = true) : ∃ s, v = string s := by
  cases v with
  | string s => exact ⟨s, rfl⟩
  | missing | bool | int | double | list | tuple | mapping | pattern | callable | builder | rule
  | grammar | references => cases h

/-- A string can be looked up. -/
theorem canBeKey_of_isString {v : Value Code} (h : v.isString = true) : v.canBeKey = true := by
  obtain ⟨s, rfl⟩ := exists_of_isString h
  rw [canBeKey] <;> simp

private theorem kind_replaced (new : Replacement Code) (above : List Place) (v : Value Code) :
    (v.replaced new above).isString = v.isString ∧ (v.replaced new above).isRule = v.isRule := by
  cases v with
  | references r =>
    obtain ⟨_, _, _, _⟩ := r
    exact ⟨rfl, rfl⟩
  | missing | bool | int | double | string | list | tuple | mapping | pattern | callable | builder
  | rule | grammar => simp [replaced, isString, isRule]

/-- Replacing collections in entries replaces them in the keys and the values. -/
theorem replacedEntries_eq_map (new : Replacement Code) (above : List Place)
    (entries : List (Value Code × Value Code)) :
    replacedEntries new above entries =
      entries.map fun (key, v) ↦ (replaced new above key, replaced new above v) := by
  induction entries with
  | nil => rw [replacedEntries, List.map_nil]
  | cons entry rest ih => rw [replacedEntries, ih, List.map_cons]

end Value

/-- Whether a value is what a grammar document declares its field for a section to be. -/
def Section.declares : Section → Value Code → Bool
  | .name, v => v.isString
  | .rules, v => v.object?.any fun entries ↦ entries.all fun (key, v) ↦ key.isString && v.isRule
  | .externals, v | .extras, v => v.isListOf Value.isRule
  | .inline, v | .supertypes, v => v.isListOf Value.isString
  | .conflicts, v => v.isListOf (Value.isListOf Value.isString)
  | .word, v => v.toOption.all Value.isString
  | .precedences, v => v.isListOf (Value.isListOf Value.isRule)

/-- What a grammar document declares a section after the rules to be is a list, but for the word. -/
theorem Section.isListOf_of_declares {part : Section} {v : Value Code}
    (hp : part ∈ [Section.extras, .inline, .conflicts, .supertypes, .precedences])
    (h : part.declares v = true) : ∃ kind, v.isListOf kind = true := by
  cases part with
  | extras | inline | conflicts | supertypes | precedences => exact ⟨_, h⟩
  | name | externals | rules | word => simp at hp

namespace Store

variable (store : Store Code)

private theorem kind_presentWithin (depth : Nat) (above : List Place) (v : Value Code) :
    (store.presentWithin depth above v).isString = v.isString ∧
      (store.presentWithin depth above v).isRule = v.isRule := by
  cases depth with
  | zero => exact ⟨rfl, rfl⟩
  | succ depth => exact v.kind_replaced _ above

/-- At any time a rule is a rule, and nothing else is. -/
theorem isRule_present (v : Value Code) : (store.present v).isRule = v.isRule := by
  unfold present
  split
  · rfl
  · exact (store.kind_presentWithin _ [] v).2

/-- A mapping is a mapping at any time. -/
theorem isSome_object?_present (v : Value Code) :
    (store.present v).object?.isSome = v.object?.isSome := by
  by_cases empty : store.isEmpty
  · rw [present, if_pos empty]
  · rw [present, if_neg empty, presentWithin]
    cases v with
    | references r =>
      obtain ⟨_, _, _, _⟩ := r
      rfl
    | missing | bool | int | double | string | list | tuple | mapping | pattern | callable | builder
    | rule | grammar => simp [Value.replaced, Value.object?]

/-- Entries that are looked at one by one are of the same kinds as before. -/
private theorem all_map_kinds {look : Value Code → Value Code}
    (same : ∀ v, (look v).isString = v.isString ∧ (look v).isRule = v.isRule)
    (entries : List (Value Code × Value Code)) :
    ((entries.map fun (key, v) ↦ (look key, look v)).all fun (key, v) ↦
        key.isString && v.isRule) =
      entries.all fun (key, v) ↦ key.isString && v.isRule := by
  simp only [List.all_map, Function.comp_def, same]

/-- Whether the keys of a mapping are strings and its values rules shows before they are looked
at. -/
theorem declares_rules_present (mapping : Entries (Value Code)) :
    Section.rules.declares (store.present (.mapping mapping)) =
      (store.entries mapping).all fun (key, v) ↦ key.isString && v.isRule := by
  obtain ⟨place, made, again⟩ := mapping
  by_cases empty : store.isEmpty
  · have none : store.mappings = [] := by
      unfold isEmpty at empty
      simp_all
    rw [present, if_pos empty, entries, none]
    rfl
  · rw [present, if_neg empty, presentWithin, Value.replaced, Value.replacedMapping]
    cases found : store.mappings.lookup place with
    | none =>
      simp only [entries, found, Option.map_none]
      rw [Value.replacedEntries_eq_map]
      exact all_map_kinds (Value.kind_replaced _ _) made
    | some present =>
      simp only [entries, found, Option.map_some, List.not_mem_nil, if_false]
      exact all_map_kinds (store.kind_presentWithin _ _) present

end Store

/-- A grammar document with a single rule and nothing else, made at a place. -/
def Grammar.single (place : Place) : Grammar (Value Code) where
  place
  name := .string "g"
  rules := ⟨place.part "rules", [(.string "a", .rule (.string (.string "x")))], false⟩
  extras := ⟨place.part "extras", [], false⟩
  externals := ⟨place.part "externals", [], false⟩
  inline := ⟨place.part "inline", [], false⟩
  conflicts := ⟨place.part "conflicts", [], false⟩
  word := .missing
  supertypes := ⟨place.part "supertypes", [], false⟩
  precedences := ⟨place.part "precedences", [], false⟩

namespace Setting

variable {setting : Setting Code} {part : Section}

variable (setting) in
/-- In a store, the grammar that is extended, if there is one, has for a section what a grammar
document declares that to be. -/
def BaseTyped (part : Section) (store : Store Code) : Prop :=
  setting.base = .missing ∨
    ∃ g, setting.base = .grammar g ∧ part.declares (store.present (g.fields part)) = true

/-- What the base has for a section is what a grammar document declares that to be. -/
theorem BaseTyped.declares {v : Value Code} {store : Store Code}
    (typed : setting.BaseTyped part store) (based : setting.hasBase = true)
    (attributed : setting.base.attribute? part.title = .ok v) :
    part.declares (store.present v) = true := by
  rcases typed with none | ⟨g, extended, declares⟩
  · rw [hasBase, none] at based
    cases based
  · rw [extended, g.attribute?_title] at attributed
    cases attributed
    exact declares

/-- Looking at what the base has goes on. -/
theorem BaseTyped.exists_attribute {store : Store Code} (typed : setting.BaseTyped part store)
    (based : setting.hasBase = true) : ∃ v, setting.base.attribute? part.title = .ok v := by
  rcases typed with none | ⟨g, extended, -⟩
  · rw [hasBase, none] at based
    cases based
  · rw [extended]
    exact ⟨_, g.attribute?_title part⟩

/-- A grammar with a single rule has in each field what is declared. -/
theorem baseTyped_single {place : Place} (extended : setting.base = .grammar (.single place))
    (part : Section) : setting.BaseTyped part {} := by
  refine .inr ⟨_, extended, ?_⟩
  rw [Store.present_empty]
  cases part with
  | name | externals | rules | extras | inline | conflicts | word | supertypes | precedences => rfl

end Setting

end GrammarDoc
