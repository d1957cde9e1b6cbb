import GrammarDoc.Value.Basic

/-!
# Stores

Items can be added to a list, and entries of a mapping can be set, after values have been made of
it. A store knows the present content of every collection that was changed since it was made; all
others still hold what they came with. So looking at a value through a store shows what it is at
present, and an empty store shows it as it is.
-/

namespace GrammarDoc

/-- The present content of the collections that have been changed. -/
structure Store (Code : Type) where
  lists : List (Place × List (Value Code)) := []
  mappings : List (Place × List (Value Code × Value Code)) := []

/-- What is to stand for a collection, if it is to be replaced, given the places of the collections
that it stands in. -/
structure Replacement (Code : Type) where
  list : List Place → Place → Option (Items (Value Code))
  mapping : List Place → Place → Option (Entries (Value Code))

namespace Value

variable {Code : Type} (new : Replacement Code)

mutual

/-- A value with collections replaced. A grammar that stands inside of itself is not gone into once
more. -/
def replaced (above : List Place) : Value Code → Value Code
  | list items => list (replacedList above items)
  | tuple items => tuple (replacedItems above items)
  | mapping entries => mapping (replacedMapping above entries)
  | rule r => rule (replacedRule above r)
  | grammar g => grammar (replacedGrammar above g)
  | references ⟨place, rules, externals, functions⟩ =>
    references ⟨place, replacedMapping above rules, replacedMapping above externals,
      replacedMapping above functions⟩
  | v => v

/-- A list, replaced or with collections replaced in its items. -/
def replacedList (above : List Place) : Items (Value Code) → Items (Value Code)
  | ⟨place, items, _⟩ =>
    match new.list above place with
    | some present => present
    | none => ⟨place, replacedItems above items, false⟩

/-- Items with collections replaced. -/
def replacedItems (above : List Place) : List (Value Code) → List (Value Code)
  | [] => []
  | v :: rest => replaced above v :: replacedItems above rest

/-- A mapping, replaced or with collections replaced in its entries. -/
def replacedMapping (above : List Place) : Entries (Value Code) → Entries (Value Code)
  | ⟨place, entries, _⟩ =>
    match new.mapping above place with
    | some present => present
    | none => ⟨place, replacedEntries above entries, false⟩

/-- Entries with collections replaced. -/
def replacedEntries (above : List Place) :
    List (Value Code × Value Code) → List (Value Code × Value Code)
  | [] => []
  | (key, v) :: rest => (replaced above key, replaced above v) :: replacedEntries above rest

/-- A rule with collections replaced in its scalars. -/
def replacedRule (above : List Place) : Rule (Value Code) → Rule (Value Code)
  | .bare place => .bare place
  | .string v => .string (replaced above v)
  | .pattern v => .pattern (replaced above v)
  | .blank => .blank
  | .symbol v => .symbol (replaced above v)
  | .group kind members => .group kind (replacedRules above members)
  | .wrap kind content => .wrap kind (replacedRule above content)
  | .prec variant v content => .prec variant (replaced above v) (replacedRule above content)
  | .field v content => .field (replaced above v) (replacedRule above content)
  | .aliased content named v => .aliased (replacedRule above content) named (replaced above v)

/-- Rules with collections replaced in their scalars. -/
def replacedRules (above : List Place) : List (Rule (Value Code)) → List (Rule (Value Code))
  | [] => []
  | r :: rest => replacedRule above r :: replacedRules above rest

/-- A grammar with collections replaced in its parts. -/
def replacedGrammar (above : List Place) : Grammar (Value Code) → Grammar (Value Code)
  | ⟨place, name, rules, extras, externals, inline, conflicts, word, supertypes, precedences, _⟩ =>
    if place ∈ above then
      ⟨place, name, rules, extras, externals, inline, conflicts, word, supertypes, precedences,
        true⟩
    else
      let above := place :: above
      ⟨place, replaced above name, replacedMapping above rules, replacedList above extras,
        replacedList above externals, replacedList above inline, replacedList above conflicts,
        replaced above word, replacedList above supertypes, replacedList above precedences, false⟩

end

end Value

namespace Store

variable {Code : Type} (store : Store Code)

/-- The present items of a list. -/
def items (list : Items (Value Code)) : List (Value Code) :=
  (store.lists.lookup list.place).getD list.toList

/-- The present entries of a mapping. -/
def entries (mapping : Entries (Value Code)) : List (Value Code × Value Code) :=
  (store.mappings.lookup mapping.place).getD mapping.toList

/-- A value with its present items or entries, if it is a collection; they are not gone into. -/
def read : Value Code → Value Code
  | .list list => .list { list with toList := store.items list }
  | .mapping mapping => .mapping { mapping with toList := store.entries mapping }
  | v => v

/-- A value as it is at present, if it stands in no more than a number of changed collections. -/
def presentWithin : Nat → List Place → Value Code → Value Code
  | 0, _, v => v
  | depth + 1, above, v =>
    let new : Replacement Code :=
      { list := fun above place ↦ (store.lists.lookup place).map fun items ↦
          if place ∈ above then ⟨place, items, true⟩
          else ⟨place, items.map (presentWithin depth (place :: above)), false⟩
        mapping := fun above place ↦ (store.mappings.lookup place).map fun entries ↦
          if place ∈ above then ⟨place, entries, true⟩
          else
            let present := presentWithin depth (place :: above)
            ⟨place, entries.map fun (key, v) ↦ (present key, present v), false⟩ }
    v.replaced new above

/-- Whether no collection has been changed. -/
def isEmpty : Bool := store.lists.isEmpty && store.mappings.isEmpty

/-- A value as it is at present. Within no collection does a changed one stand twice, so that their
number bounds the depth. -/
def present (v : Value Code) : Value Code :=
  if store.isEmpty then v
  else store.presentWithin (store.lists.length + store.mappings.length + 1) [] v

/-- While nothing has been changed, every value is as it was made. -/
theorem present_empty (v : Value Code) : ({} : Store Code).present v = v := rfl

/-- A value without parts is always the same. -/
@[simp] theorem present_missing : store.present .missing = .missing := by
  unfold present
  split
  · rfl
  · simp [presentWithin, Value.replaced]

/-- Changes the items of a list. -/
def setItems (place : Place) (items : List (Value Code)) : Store Code :=
  { store with lists := (place, items) :: store.lists.eraseP (·.1 = place) }

/-- Changes the entries of a mapping. -/
def setEntries (place : Place) (entries : List (Value Code × Value Code)) : Store Code :=
  { store with mappings := (place, entries) :: store.mappings.eraseP (·.1 = place) }

/-- Adds an item at the end of a list. -/
def append (list : Items (Value Code)) (v : Value Code) : Store Code :=
  store.setItems list.place (store.items list ++ [v])

/-- The items of a list that was changed are those that it was given. -/
theorem items_setItems (list : Items (Value Code)) (items : List (Value Code)) :
    (store.setItems list.place items).items list = items := by
  simp [Store.items, setItems]

/-- The items of all other lists are left alone. -/
theorem items_setItems_of_ne {place : Place} {other : Items (Value Code)}
    (apart : other.place ≠ place) (items : List (Value Code)) :
    (store.setItems place items).items other = store.items other := by
  have erased (lists : List (Place × List (Value Code))) :
      (lists.eraseP (·.1 = place)).lookup other.place = lists.lookup other.place := by
    induction lists with
    | nil => rfl
    | cons entry rest ih =>
      obtain ⟨first, present⟩ := entry
      by_cases here : first = place
      · simp [here, List.lookup_cons, beq_false_of_ne apart]
      · simp [here, List.lookup_cons, ih]
  simp [Store.items, setItems, List.lookup_cons, beq_false_of_ne apart, erased]

end Store

end GrammarDoc
