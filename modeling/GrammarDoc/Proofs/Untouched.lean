import GrammarDoc.Assembly
import GrammarDoc.Proofs.Names
import Mathlib.Data.List.Basic

/-!
# Untouched grammars

A grammar that is extended is looked at and copied in the course of a build, and functions of the
description could change its lists meanwhile. As long as they do not, a copy of one of its lists
has copies of the items that the list was made with.
-/

namespace GrammarDoc

variable {Code : Type}

/-! ### Looking at values and copying them -/

namespace Value

/-- Collections are replaced item by item. -/
theorem replacedItems_eq_map (new : Replacement Code) (above : List Place)
    (items : List (Value Code)) :
    replacedItems new above items = items.map (replaced new above) := by
  induction items with
  | nil => rw [replacedItems, List.map_nil]
  | cons v rest ih => rw [replacedItems, List.map_cons, ih]

/-- Items are copied one by one. -/
theorem copiedItems_eq_map (copying : Place) (items : List (Value Code)) :
    copiedItems copying items = items.map (copied copying) := by
  induction items with
  | nil => rw [copiedItems, List.map_nil]
  | cons v rest ih => rw [copiedItems, List.map_cons, ih]

private theorem copied_eq_string (copying : Place) (v : Value Code) (s : String) :
    v.copied copying = .string s ↔ v = .string s := by
  cases v with
  | callable f =>
    rw [copied]
    cases f.name <;> simp
  | grammar g => simp [copied]
  | references r => simp [copied]
  | missing | bool | int | double | string | list | tuple | mapping | pattern | builder | rule =>
    simp [copied]

private theorem symbolName?_copied (copying : Place) (v : Value Code) :
    (v.copied copying).symbolName? = v.symbolName?.map (copied copying) := by
  cases v with
  | rule r => cases r <;> simp [copied, copiedRule, symbolName?]
  | callable f =>
    rw [copied]
    cases f.name <;> simp [symbolName?]
  | missing | bool | int | double | string | list | tuple | mapping | pattern | builder | grammar
  | references => simp [copied, symbolName?]

private theorem array?_copied (copying : Place) (v : Value Code) :
    (v.copied copying).array? = v.array?.map (·.map (copied copying)) := by
  cases v with
  | list items =>
    obtain ⟨place, items, again⟩ := items
    simp [copied, copiedList, array?, copiedItems_eq_map]
  | tuple items => simp [copied, array?, copiedItems_eq_map]
  | callable f =>
    rw [copied]
    cases f.name <;> simp [array?]
  | missing | bool | int | double | string | mapping | pattern | builder | rule | grammar
  | references => simp [copied, array?]

end Value

namespace Store

variable (store : Store Code)

/-- Looking at values leaves each as it is, or replaces the collections in it that have been
changed. -/
theorem present_cases :
    store.present = id ∨ ∃ new : Replacement Code, store.present = Value.replaced new [] ∧
      (∀ above place, new.list above place = none ↔ store.lists.lookup place = none) ∧
      ∀ above place, new.mapping above place = none ↔ store.mappings.lookup place = none := by
  by_cases empty : store.isEmpty
  · exact .inl (funext fun v ↦ if_pos empty)
  · exact .inr ⟨_, funext fun v ↦ (if_neg empty).trans (presentWithin.eq_2 store _ v _),
      fun _ _ ↦ Option.map_eq_none_iff, fun _ _ ↦ Option.map_eq_none_iff⟩

/-- Only a string is that string at present. -/
theorem present_eq_string (v : Value Code) (s : String) :
    store.present v = .string s ↔ v = .string s := by
  obtain same | ⟨new, eq, -⟩ := store.present_cases
  · simp [same]
  · rw [eq]
    cases v with
    | missing | bool | int | double | string | list | tuple | mapping | pattern | callable
    | builder | rule | grammar | references => simp [Value.replaced]

/-- The name of a symbol is looked at when the symbol is. -/
theorem symbolName?_present (v : Value Code) :
    (store.present v).symbolName? = v.symbolName?.map store.present := by
  obtain same | ⟨new, eq, -⟩ := store.present_cases
  · simp [same]
  · rw [eq]
    cases v with
    | rule r => cases r <;> simp [Value.replaced, Value.replacedRule, Value.symbolName?]
    | missing | bool | int | double | string | list | tuple | mapping | pattern | callable
    | builder | grammar | references => simp [Value.replaced, Value.symbolName?]

/-- An array that has not been changed has the items that it was made with. -/
theorem array?_present (v : Value Code)
    (h : ∀ list, v = .list list → store.lists.lookup list.place = none) :
    (store.present v).array? = v.array?.map (·.map store.present) := by
  obtain same | ⟨new, eq, untouched, -⟩ := store.present_cases
  · simp [same]
  · rw [eq]
    cases v with
    | list items =>
      obtain ⟨place, items, again⟩ := items
      simp [Value.replaced, Value.replacedList, (untouched [] place).2 (h _ rfl), Value.array?,
        Value.replacedItems_eq_map]
    | tuple items => simp [Value.replaced, Value.array?, Value.replacedItems_eq_map]
    | missing | bool | int | double | string | mapping | pattern | callable | builder | rule
    | grammar | references => simp [Value.replaced, Value.array?]

/-- What has the form of a name is always the same. -/
theorem present_of_isValidName {v : Value Code} (h : v.isValidName = true) :
    store.present v = v := by
  obtain ⟨s, rfl⟩ := Value.eq_string_of_isValidName h
  exact (store.present_eq_string _ s).2 rfl

/-- Looking at a list that has not been changed gives the items it was made with. -/
theorem elements_present {list : Items (Value Code)}
    (untouched : store.lists.lookup list.place = none) :
    (store.present (.list list)).elements = .ok (list.toList.map store.present) := by
  have array := store.array?_present (.list list) fun other eq ↦ by
    cases eq
    exact untouched
  cases present : store.present (.list list) with
  | list items | tuple items =>
    rw [present] at array
    exact congrArg Except.ok (Option.some.inj array)
  | missing | bool | int | double | string | mapping | pattern | callable | builder | rule | grammar
  | references =>
    rw [present] at array
    cases array

/-- What is copied is the value as it is at present. -/
theorem copy_fst (copying : Place) (v : Value Code) :
    (store.copy copying v).1 = (store.present v).copied copying := rfl

/-- Only the copy of a string is that string. -/
theorem copy_eq_string (copying : Place) (v : Value Code) (s : String) :
    (store.copy copying v).1 = .string s ↔ v = .string s := by
  rw [copy_fst, Value.copied_eq_string, present_eq_string]

/-- What has the form of a name is its own copy. -/
theorem copy_of_isValidName {v : Value Code} (copying : Place) (h : v.isValidName = true) :
    (store.copy copying v).1 = v := by
  obtain ⟨s, rfl⟩ := Value.eq_string_of_isValidName h
  exact (store.copy_eq_string copying _ s).2 rfl

private theorem symbolName?_copy (copying : Place) (v : Value Code) :
    ((store.copy copying v).1).symbolName? =
      v.symbolName?.map fun v ↦ (store.copy copying v).1 := by
  rw [copy_fst, Value.symbolName?_copied, symbolName?_present, Option.map_map]
  rfl

/-- The copy of an array that has not been changed has copies of the items it was made with. -/
theorem array?_copy (copying : Place) (v : Value Code)
    (h : ∀ list, v = .list list → store.lists.lookup list.place = none) :
    ((store.copy copying v).1).array? =
      v.array?.map (·.map fun v ↦ (store.copy copying v).1) := by
  rw [copy_fst, Value.array?_copied, store.array?_present v h, Option.map_map]
  congr 1
  funext items
  exact List.map_map

/-- A copy of a list that has not been changed has copies of the items it was made with. -/
theorem toList_copy {copying : Place} {list items : Items (Value Code)}
    (h : (store.copy copying (.list list)).1 = .list items)
    (untouched : store.lists.lookup list.place = none) :
    items.toList = list.toList.map fun v ↦ (store.copy copying v).1 := by
  have array := store.array?_copy copying (.list list) fun other eq ↦ by
    cases eq
    exact untouched
  rw [h] at array
  exact Option.some.inj array

/-- The copy of a literal string is a literal string, and that of a symbol is a symbol. -/
theorem copy_rule (copying : Place) (v : Value Code) :
    (store.copy copying (.rule (.string v))).1 = .rule (.string (store.copy copying v).1) ∧
      (store.copy copying (.rule (.symbol v))).1 = .rule (.symbol (store.copy copying v).1) := by
  simp only [copy_fst]
  obtain same | ⟨new, eq, -⟩ := store.present_cases
  · simp [same, Value.copied, Value.copiedRule]
  · simp [eq, Value.replaced, Value.replacedRule, Value.copied, Value.copiedRule]

/-- There is nothing to copy in an absent value. -/
theorem copy_missing (copying : Place) : (store.copy copying .missing).1 = .missing := by
  rw [copy_fst, present_missing, Value.copied]
  all_goals simp

end Store

/-! ### Names in a grammar -/

/-- The names that stand in the items of a section: those of its symbols, those in its groups or
the items themselves. -/
def Section.namesIn : Section → List (Value Code) → List (Value Code)
  | .externals, items => items.filterMap Value.symbolName?
  | .conflicts, items => items.flatMap fun group ↦ group.array?.getD []
  | .precedences, items =>
    items.flatMap fun group ↦ (group.array?.getD []).filterMap Value.symbolName?
  | _, items => items

namespace Grammar

/-- The list that a grammar has for a section that names stand in. -/
def list? {α : Type} (g : Grammar α) : Section → Option (Items α)
  | .externals => some g.externals
  | .inline => some g.inline
  | .conflicts => some g.conflicts
  | .supertypes => some g.supertypes
  | .precedences => some g.precedences
  | .name | .rules | .extras | .word => none

/-- As an attribute, what a grammar has for a section is that list. -/
theorem attribute?_of_list? {g : Grammar (Value Code)} {part : Section}
    {list : Items (Value Code)} (h : g.list? part = some list) :
    (Value.grammar g).attribute? part.title = .ok (.list list) := by
  cases part with
  | externals | inline | conflicts | supertypes | precedences =>
    cases h
    rfl
  | name | rules | extras | word => cases h

/-- The names that a grammar has in a section; those that its rules refer to are none of them. -/
def namesOf (g : Grammar (Value Code)) (part : Section) : List (Value Code) :=
  match part with
  | .name => [g.name]
  | .rules => Table.keys g.rules.toList
  | .word => g.word.toOption.toList
  | part => part.namesIn (((g.list? part).map Items.toList).getD [])

/-- None of the collections that hold the rules and the names of a grammar has been changed since
they were made. -/
structure Untouched (g : Grammar (Value Code)) (store : Store Code) : Prop where
  rules : store.mappings.lookup g.rules.place = none
  lists : ∀ part items, g.list? part = some items → store.lists.lookup items.place = none
  groups : ∀ part items, g.list? part = some items → ∀ group, .list group ∈ items.toList →
    store.lists.lookup group.place = none

end Grammar

/-- The names in copies of the items of a section are copies of the names in the items. -/
theorem Section.namesIn_copy (part : Section) (store : Store Code) (copying : Place)
    (items : List (Value Code))
    (h : ∀ group, .list group ∈ items → store.lists.lookup group.place = none) :
    part.namesIn (items.map fun v ↦ (store.copy copying v).1) =
      (part.namesIn items).map fun v ↦ (store.copy copying v).1 := by
  have symbols (items : List (Value Code)) :
      (items.map fun v ↦ (store.copy copying v).1).filterMap Value.symbolName? =
        (items.filterMap Value.symbolName?).map fun v ↦ (store.copy copying v).1 := by
    rw [List.filterMap_map, List.map_filterMap]
    exact List.filterMap_congr fun v _ ↦ store.symbolName?_copy copying v
  have groups : ∀ group ∈ items, ((store.copy copying group).1).array?.getD [] =
      (group.array?.getD []).map fun v ↦ (store.copy copying v).1 := by
    intro group hg
    rw [store.array?_copy copying group fun list eq ↦ h list (eq ▸ hg)]
    cases group.array? <;> rfl
  cases part with
  | externals => exact symbols items
  | conflicts =>
    simp only [namesIn, List.flatMap_map, List.map_flatMap]
    exact List.flatMap_congr groups
  | precedences =>
    simp only [namesIn, List.flatMap_map, List.map_flatMap]
    refine List.flatMap_congr fun group hg ↦ ?_
    rw [groups group hg, symbols]
  | name | rules | extras | inline | word | supertypes => rfl

end GrammarDoc
