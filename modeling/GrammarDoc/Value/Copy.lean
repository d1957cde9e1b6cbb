import GrammarDoc.Value.Store

/-!
# Copies of values

A copy of a value has a place of its own for everything in it that has an identity and may be made
anew: collections, grammars, references, builders, bare nodes and callable objects. Functions are
not made anew. What is shared within the value is shared within the copy.
-/

namespace GrammarDoc

namespace Value

variable {Code : Type} (copying : Place)

mutual

/-- The copy of a value that a copying makes. -/
def copied : Value Code → Value Code
  | list items => list (copiedList items)
  | tuple items => tuple (copiedItems items)
  | mapping entries => mapping (copiedMapping entries)
  | callable f =>
    match f.name with
    | some _ => callable f
    | none => callable { f with place := f.place.copy copying }
  | builder place => builder (place.copy copying)
  | rule r => rule (copiedRule r)
  | grammar ⟨place, name, rules, extras, externals, inline, conflicts, word, supertypes,
      precedences, again⟩ =>
    grammar ⟨place.copy copying, copied name, copiedMapping rules, copiedList extras,
      copiedList externals, copiedList inline, copiedList conflicts, copied word,
      copiedList supertypes, copiedList precedences, again⟩
  | references ⟨place, rules, externals, functions⟩ =>
    references ⟨place.copy copying, copiedMapping rules, copiedMapping externals,
      copiedMapping functions⟩
  | v => v

/-- The copy of a list. -/
def copiedList : Items (Value Code) → Items (Value Code)
  | ⟨place, items, again⟩ => ⟨place.copy copying, copiedItems items, again⟩

/-- The copies of some values. -/
def copiedItems : List (Value Code) → List (Value Code)
  | [] => []
  | v :: rest => copied v :: copiedItems rest

/-- The copy of a mapping. -/
def copiedMapping : Entries (Value Code) → Entries (Value Code)
  | ⟨place, entries, again⟩ => ⟨place.copy copying, copiedEntries entries, again⟩

/-- The copies of some keys and their values. -/
def copiedEntries : List (Value Code × Value Code) → List (Value Code × Value Code)
  | [] => []
  | (key, v) :: rest => (copied key, copied v) :: copiedEntries rest

/-- The copy of a rule. -/
def copiedRule : Rule (Value Code) → Rule (Value Code)
  | .bare place => .bare (place.copy copying)
  | .string v => .string (copied v)
  | .pattern v => .pattern (copied v)
  | .blank => .blank
  | .symbol v => .symbol (copied v)
  | .group kind members => .group kind (copiedRules members)
  | .wrap kind content => .wrap kind (copiedRule content)
  | .prec variant v content => .prec variant (copied v) (copiedRule content)
  | .field v content => .field (copied v) (copiedRule content)
  | .aliased content named v => .aliased (copiedRule content) named (copied v)

/-- The copies of some rules. -/
def copiedRules : List (Rule (Value Code)) → List (Rule (Value Code))
  | [] => []
  | r :: rest => copiedRule r :: copiedRules rest

end

mutual

/-- The places of the collections in a value. -/
def places : Value Code → List Place
  | list items => placesOfList items
  | tuple items => placesOfItems items
  | mapping entries => placesOfMapping entries
  | rule r => placesOfRule r
  | grammar ⟨_, name, rules, extras, externals, inline, conflicts, word, supertypes, precedences,
      _⟩ =>
    places name ++ placesOfMapping rules ++ placesOfList extras ++ placesOfList externals ++
      placesOfList inline ++ placesOfList conflicts ++ places word ++ placesOfList supertypes ++
      placesOfList precedences
  | references ⟨_, rules, externals, functions⟩ =>
    placesOfMapping rules ++ placesOfMapping externals ++ placesOfMapping functions
  | _ => []

/-- The places of a list and of the collections in it. -/
def placesOfList : Items (Value Code) → List Place
  | ⟨place, items, _⟩ => place :: placesOfItems items

/-- The places of the collections in some values. -/
def placesOfItems : List (Value Code) → List Place
  | [] => []
  | v :: rest => places v ++ placesOfItems rest

/-- The places of a mapping and of the collections in it. -/
def placesOfMapping : Entries (Value Code) → List Place
  | ⟨place, entries, _⟩ => place :: placesOfEntries entries

/-- The places of the collections in some keys and their values. -/
def placesOfEntries : List (Value Code × Value Code) → List Place
  | [] => []
  | (key, v) :: rest => places key ++ places v ++ placesOfEntries rest

/-- The places of the collections in the scalars of a rule. -/
def placesOfRule : Rule (Value Code) → List Place
  | .bare _ | .blank => []
  | .string v | .pattern v | .symbol v => places v
  | .group _ members => placesOfRules members
  | .wrap _ content => placesOfRule content
  | .prec _ v content | .field v content | .aliased content _ v =>
    places v ++ placesOfRule content

/-- The places of the collections in the scalars of some rules. -/
def placesOfRules : List (Rule (Value Code)) → List Place
  | [] => []
  | r :: rest => placesOfRule r ++ placesOfRules rest

end

/-- A copy of the outermost layer of a value, which is what is made at a place. -/
def outerCopied (place : Place) : Value Code → Value Code
  | list items => list { items with place }
  | mapping entries => mapping { entries with place }
  | callable f =>
    match f.name with
    | some _ => callable f
    | none => callable { f with place }
  | builder _ => builder place
  | rule (.bare _) => rule (.bare place)
  | grammar g => grammar { g with place }
  | references r => references { r with place }
  | v => v

end Value

namespace Store

variable {Code : Type} (store : Store Code)

/-- The copy of a value as it is at present, and the store that knows what is in the copies of the
changed collections. -/
def copy (copying : Place) (v : Value Code) : Value Code × Store Code :=
  let v := store.present v
  let changed := v.places
  let copied (v : Value Code) := (store.present v).copied copying
  let lists := store.lists.filterMap fun (place, items) ↦
    if place ∈ changed then some (place.copy copying, items.map copied) else none
  let mappings := store.mappings.filterMap fun (place, entries) ↦
    if place ∈ changed then
      some (place.copy copying, entries.map fun (key, v) ↦ (copied key, copied v))
    else none
  (v.copied copying, ⟨lists ++ store.lists, mappings ++ store.mappings⟩)

end Store

end GrammarDoc
