import GrammarDoc.Proofs.Relocation.Operations
import GrammarDoc.Value.Copy
import Mathlib.Data.List.Basic

/-!
# Moved stores

What has been changed in one build has been changed in the other, where it was moved to. So a moved
store shows of a moved value what the store shows of the value, moved, and a copy of a moved value
is a moved copy.
-/

namespace GrammarDoc

variable {Code : Type} (ρ : Relocation Code)

/-- A store with all places in it moved. -/
def Store.moved (store : Store Code) : Store Code where
  lists := store.lists.map (Prod.map ρ.place (List.map (Value.moved ρ)))
  mappings := store.mappings.map
    (Prod.map ρ.place (List.map (Prod.map (Value.moved ρ) (Value.moved ρ))))

private theorem lookup_moved {α β : Type} (f : α → β) (content : List (Place × α)) (place : Place) :
    (content.map (Prod.map ρ.place f)).lookup (ρ.place place) = (content.lookup place).map f := by
  induction content with
  | nil => rfl
  | cons first rest ih =>
    obtain ⟨other, a⟩ := first
    by_cases here : place = other
    · simp [here]
    · have apart : ρ.place place ≠ ρ.place other := by simpa using here
      simp [List.lookup_cons, beq_false_of_ne here, beq_false_of_ne apart, ih]

/-! ### Values as they are at present -/

/-- A replacement that stands for moved collections, with moved ones. -/
structure Replacement.Moves (new moved : Replacement Code) : Prop where
  list : ∀ above place, moved.list (above.map ρ.place) (ρ.place place) =
    (new.list above place).map (Value.movedList ρ)
  mapping : ∀ above place, moved.mapping (above.map ρ.place) (ρ.place place) =
    (new.mapping above place).map (Value.movedMapping ρ)

namespace Value

section

variable {ρ} {new new' : Replacement Code}

mutual

/-- Collections in a moved value are replaced as those in the value. -/
theorem replaced_moved (moves : new.Moves ρ new') (above : List Place) : ∀ v : Value Code,
    replaced new' (above.map ρ.place) (v.moved ρ) = (replaced new above v).moved ρ
  | missing | bool _ | int _ | double _ | string _ | pattern _ | callable _ | builder _ => by
    simp [moved, replaced]
  | list items => by rw [moved, replaced, replaced, moved, replacedList_moved moves above items]
  | tuple items => by rw [moved, replaced, replaced, moved, replacedItems_moved moves above items]
  | mapping entries => by
    rw [moved, replaced, replaced, moved, replacedMapping_moved moves above entries]
  | rule r => by rw [moved, replaced, replaced, moved, replacedRule_moved moves above r]
  | grammar g => by rw [moved, replaced, replaced, moved, replacedGrammar_moved moves above g]
  | references ⟨_, rules, externals, functions⟩ => by
    rw [moved, movedReferences, replaced, replaced, moved, movedReferences,
      replacedMapping_moved moves above rules, replacedMapping_moved moves above externals,
      replacedMapping_moved moves above functions]

private theorem replacedList_moved (moves : new.Moves ρ new') (above : List Place) :
    ∀ items : Items (Value Code), replacedList new' (above.map ρ.place) (movedList ρ items) =
      movedList ρ (replacedList new above items)
  | ⟨place, items, _⟩ => by
    rw [movedList, replacedList, replacedList, moves.list above place,
      replacedItems_moved moves above items]
    cases new.list above place with
    | none => simp [movedList]
    | some present => rfl

private theorem replacedItems_moved (moves : new.Moves ρ new') (above : List Place) :
    ∀ items : List (Value Code), replacedItems new' (above.map ρ.place) (movedItems ρ items) =
      movedItems ρ (replacedItems new above items)
  | [] => by simp only [movedItems, replacedItems]
  | v :: rest => by
    rw [movedItems, replacedItems, replacedItems, movedItems, replaced_moved moves above v,
      replacedItems_moved moves above rest]

private theorem replacedMapping_moved (moves : new.Moves ρ new') (above : List Place) :
    ∀ entries : Entries (Value Code),
      replacedMapping new' (above.map ρ.place) (movedMapping ρ entries) =
      movedMapping ρ (replacedMapping new above entries)
  | ⟨place, entries, _⟩ => by
    rw [movedMapping, replacedMapping, replacedMapping, moves.mapping above place,
      replacedEntries_moved moves above entries]
    cases new.mapping above place with
    | none => simp [movedMapping]
    | some present => rfl

private theorem replacedEntries_moved (moves : new.Moves ρ new') (above : List Place) :
    ∀ entries : List (Value Code × Value Code),
      replacedEntries new' (above.map ρ.place) (movedEntries ρ entries) =
        movedEntries ρ (replacedEntries new above entries)
  | [] => by simp only [movedEntries, replacedEntries]
  | (key, v) :: rest => by
    rw [movedEntries, replacedEntries, replacedEntries, movedEntries,
      replaced_moved moves above key,
      replaced_moved moves above v, replacedEntries_moved moves above rest]

private theorem replacedRule_moved (moves : new.Moves ρ new') (above : List Place) :
    ∀ r : Rule (Value Code),
      replacedRule new' (above.map ρ.place) (movedRule ρ r) =
        movedRule ρ (replacedRule new above r)
  | .bare _ | .blank => by simp only [movedRule, replacedRule]
  | .string v | .pattern v | .symbol v => by
    rw [movedRule, replacedRule, replacedRule, movedRule, replaced_moved moves above v]
  | .group _ members => by
    rw [movedRule, replacedRule, replacedRule, movedRule, replacedRules_moved moves above members]
  | .wrap _ content => by
    rw [movedRule, replacedRule, replacedRule, movedRule, replacedRule_moved moves above content]
  | .prec _ v content | .field v content | .aliased content _ v => by
    rw [movedRule, replacedRule, replacedRule, movedRule, replaced_moved moves above v,
      replacedRule_moved moves above content]

private theorem replacedRules_moved (moves : new.Moves ρ new') (above : List Place) :
    ∀ rules : List (Rule (Value Code)),
      replacedRules new' (above.map ρ.place) (movedRules ρ rules) =
      movedRules ρ (replacedRules new above rules)
  | [] => by simp only [movedRules, replacedRules]
  | r :: rest => by
    rw [movedRules, replacedRules, replacedRules, movedRules, replacedRule_moved moves above r,
      replacedRules_moved moves above rest]

private theorem replacedGrammar_moved (moves : new.Moves ρ new') (above : List Place) :
    ∀ g : Grammar (Value Code), replacedGrammar new' (above.map ρ.place) (movedGrammar ρ g) =
      movedGrammar ρ (replacedGrammar new above g)
  | ⟨place, name, rules, extras, externals, inline, conflicts, word, supertypes, precedences,
      _⟩ => by
    have within : ρ.place place ∈ above.map ρ.place ↔ place ∈ above :=
      List.mem_map_of_injective ρ.injective
    rw [movedGrammar, replacedGrammar, replacedGrammar]
    by_cases here : place ∈ above
    · rw [if_pos (within.2 here), if_pos here, movedGrammar]
    · have name := replaced_moved moves (place :: above) name
      have rules := replacedMapping_moved moves (place :: above) rules
      have extras := replacedList_moved moves (place :: above) extras
      have externals := replacedList_moved moves (place :: above) externals
      have inline := replacedList_moved moves (place :: above) inline
      have conflicts := replacedList_moved moves (place :: above) conflicts
      have word := replaced_moved moves (place :: above) word
      have supertypes := replacedList_moved moves (place :: above) supertypes
      have precedences := replacedList_moved moves (place :: above) precedences
      simp only [if_neg (mt within.1 here), if_neg here, movedGrammar, ← List.map_cons, name, rules,
        extras, externals, inline, conflicts, word, supertypes, precedences]

end

end

end Value

namespace Store

variable (store : Store Code)

/-- What a changed list holds is moved to where the list is. -/
@[simp] theorem lookup_lists_moved (place : Place) :
    (store.moved ρ).lists.lookup (ρ.place place) =
      (store.lists.lookup place).map (List.map (Value.moved ρ)) :=
  lookup_moved ρ _ _ _

/-- What a changed mapping holds is moved to where the mapping is. -/
@[simp] theorem lookup_mappings_moved (place : Place) :
    (store.moved ρ).mappings.lookup (ρ.place place) =
      (store.mappings.lookup place).map (List.map (Prod.map (Value.moved ρ) (Value.moved ρ))) :=
  lookup_moved ρ _ _ _

private theorem presentWithin_moved (depth : Nat) (above : List Place) (v : Value Code) :
    (store.moved ρ).presentWithin depth (above.map ρ.place) (v.moved ρ) =
      (store.presentWithin depth above v).moved ρ := by
  induction depth generalizing above v with
  | zero => simp only [presentWithin]
  | succ depth ih =>
    rw [presentWithin, presentWithin]
    have within (above : List Place) (place : Place) :
        ρ.place place ∈ above.map ρ.place ↔ place ∈ above :=
      List.mem_map_of_injective ρ.injective
    -- What stands for a changed collection is what it holds, each part as it is at present.
    refine Value.replaced_moved ⟨fun above place ↦ ?_, fun above place ↦ ?_⟩ above v
    · dsimp only
      rw [lookup_lists_moved]
      cases store.lists.lookup place with
      | none => rfl
      | some items =>
        by_cases here : place ∈ above
        · simp [here, within, Value.movedList]
        · simp [here, within, Value.movedList, ← List.map_cons, ih]
    · dsimp only
      rw [lookup_mappings_moved]
      cases store.mappings.lookup place with
      | none => rfl
      | some entries =>
        by_cases here : place ∈ above
        · simp [here, within, Value.movedMapping]
        · simp [here, within, Value.movedMapping, ← List.map_cons, ih]

private theorem isEmpty_moved : (store.moved ρ).isEmpty = store.isEmpty := by
  simp [moved, isEmpty]

/-- A moved value is at present in a moved store what it is in the store, moved. -/
@[simp] theorem present_moved (v : Value Code) :
    (store.moved ρ).present (v.moved ρ) = (store.present v).moved ρ := by
  rw [present, present, isEmpty_moved]
  split
  · rfl
  · simpa [moved] using store.presentWithin_moved ρ _ [] v

/-- Looking at the outermost layer of a moved value. -/
@[simp] theorem read_moved (v : Value Code) :
    (store.moved ρ).read (v.moved ρ) = (store.read v).moved ρ := by
  cases v with
  | list items =>
    obtain ⟨place, items, again⟩ := items
    simp only [Value.moved, Value.movedList, read, Store.items, lookup_lists_moved]
    cases store.lists.lookup place with
    | none => simp
    | some present => simp
  | mapping entries =>
    obtain ⟨place, entries, again⟩ := entries
    simp only [Value.moved, Value.movedMapping, read, Store.entries, lookup_mappings_moved]
    cases store.mappings.lookup place with
    | none => simp
    | some present => simp
  | missing | bool | int | double | string | tuple | pattern | callable | builder | rule | grammar
  | references => simp [Value.moved, read]

end Store

/-! ### Copies -/

namespace Value

mutual

/-- The collections in a moved value are where those in the value are moved to. -/
@[simp] theorem places_moved : ∀ v : Value Code, (v.moved ρ).places = v.places.map ρ.place
  | missing | bool _ | int _ | double _ | string _ | pattern _ | callable _ | builder _ => by
    simp [moved, places]
  | list items => by rw [moved, places, places, placesOfList_moved items]
  | tuple items => by rw [moved, places, places, placesOfItems_moved items]
  | mapping entries => by rw [moved, places, places, placesOfMapping_moved entries]
  | rule r => by rw [moved, places, places, placesOfRule_moved r]
  | grammar ⟨_, name, rules, extras, externals, inline, conflicts, word, supertypes, precedences,
      _⟩ => by
    simp only [moved, movedGrammar, places, List.map_append, places_moved name,
      placesOfMapping_moved rules, placesOfList_moved extras, placesOfList_moved externals,
      placesOfList_moved inline, placesOfList_moved conflicts, places_moved word,
      placesOfList_moved supertypes, placesOfList_moved precedences]
  | references ⟨_, rules, externals, functions⟩ => by
    simp only [moved, movedReferences, places, List.map_append, placesOfMapping_moved rules,
      placesOfMapping_moved externals, placesOfMapping_moved functions]

private theorem placesOfList_moved :
    ∀ items : Items (Value Code),
      placesOfList (movedList ρ items) = (placesOfList items).map ρ.place
  | ⟨_, items, _⟩ => by
    rw [movedList, placesOfList, placesOfList, placesOfItems_moved items, List.map_cons]

private theorem placesOfItems_moved :
    ∀ items : List (Value Code),
      placesOfItems (movedItems ρ items) = (placesOfItems items).map ρ.place
  | [] => by rw [movedItems, placesOfItems, List.map_nil]
  | v :: rest => by
    rw [movedItems, placesOfItems, placesOfItems, places_moved v, placesOfItems_moved rest,
      List.map_append]

private theorem placesOfMapping_moved :
    ∀ entries : Entries (Value Code),
      placesOfMapping (movedMapping ρ entries) = (placesOfMapping entries).map ρ.place
  | ⟨_, entries, _⟩ => by
    rw [movedMapping, placesOfMapping, placesOfMapping, placesOfEntries_moved entries,
      List.map_cons]

private theorem placesOfEntries_moved :
    ∀ entries : List (Value Code × Value Code),
      placesOfEntries (movedEntries ρ entries) = (placesOfEntries entries).map ρ.place
  | [] => by rw [movedEntries, placesOfEntries, List.map_nil]
  | (key, v) :: rest => by
    simp only [movedEntries, placesOfEntries, places_moved key, places_moved v,
      placesOfEntries_moved rest, List.map_append]

private theorem placesOfRule_moved :
    ∀ r : Rule (Value Code), placesOfRule (movedRule ρ r) = (placesOfRule r).map ρ.place
  | .bare _ | .blank => by simp only [movedRule, placesOfRule, List.map_nil]
  | .string v | .pattern v | .symbol v => by
    rw [movedRule, placesOfRule, placesOfRule, places_moved v]
  | .group _ members => by rw [movedRule, placesOfRule, placesOfRule, placesOfRules_moved members]
  | .wrap _ content => by rw [movedRule, placesOfRule, placesOfRule, placesOfRule_moved content]
  | .prec _ v content | .field v content | .aliased content _ v => by
    rw [movedRule, placesOfRule, placesOfRule, places_moved v, placesOfRule_moved content,
      List.map_append]

private theorem placesOfRules_moved :
    ∀ rules : List (Rule (Value Code)),
      placesOfRules (movedRules ρ rules) = (placesOfRules rules).map ρ.place
  | [] => by rw [movedRules, placesOfRules, List.map_nil]
  | r :: rest => by
    rw [movedRules, placesOfRules, placesOfRules, placesOfRule_moved r, placesOfRules_moved rest,
      List.map_append]

end

section

variable (copying : Place)

private theorem copied_movedCallable (f : Callable (Value Code) Code) :
    (callable (movedCallable ρ f)).copied (ρ.place copying) =
      ((callable f).copied copying).moved ρ := by
  obtain ⟨place, name, signature, body⟩ := f
  rw [movedCallable, copied, copied]
  cases name <;> simp [moved, movedCallable]

mutual

/-- A copy of a moved value is a moved copy. -/
@[simp] theorem copied_moved : ∀ v : Value Code,
    (v.moved ρ).copied (ρ.place copying) = (v.copied copying).moved ρ
  | missing | bool _ | int _ | double _ | string _ | pattern _ => by simp [moved, copied]
  | builder _ => by simp [moved, copied]
  | callable f => by rw [moved, copied_movedCallable]
  | list items => by rw [moved, copied, copied, moved, copiedList_moved items]
  | tuple items => by rw [moved, copied, copied, moved, copiedItems_moved items]
  | mapping entries => by rw [moved, copied, copied, moved, copiedMapping_moved entries]
  | rule r => by rw [moved, copied, copied, moved, copiedRule_moved r]
  | grammar ⟨_, name, rules, extras, externals, inline, conflicts, word, supertypes, precedences,
      _⟩ => by
    simp only [moved, movedGrammar, copied, copied_moved name, copiedMapping_moved rules,
      copiedList_moved extras, copiedList_moved externals, copiedList_moved inline,
      copiedList_moved conflicts, copied_moved word, copiedList_moved supertypes,
      copiedList_moved precedences, Relocation.place_copy]
  | references ⟨_, rules, externals, functions⟩ => by
    simp only [moved, movedReferences, copied, copiedMapping_moved rules,
      copiedMapping_moved externals, copiedMapping_moved functions, Relocation.place_copy]

private theorem copiedList_moved : ∀ items : Items (Value Code),
    copiedList (ρ.place copying) (movedList ρ items) = movedList ρ (copiedList copying items)
  | ⟨_, items, _⟩ => by
    rw [movedList, copiedList, copiedList, movedList, copiedItems_moved items,
      Relocation.place_copy]

private theorem copiedItems_moved : ∀ items : List (Value Code),
    copiedItems (ρ.place copying) (movedItems ρ items) = movedItems ρ (copiedItems copying items)
  | [] => by simp only [movedItems, copiedItems]
  | v :: rest => by
    rw [movedItems, copiedItems, copiedItems, movedItems, copied_moved v, copiedItems_moved rest]

private theorem copiedMapping_moved : ∀ entries : Entries (Value Code),
    copiedMapping (ρ.place copying) (movedMapping ρ entries) =
      movedMapping ρ (copiedMapping copying entries)
  | ⟨_, entries, _⟩ => by
    rw [movedMapping, copiedMapping, copiedMapping, movedMapping, copiedEntries_moved entries,
      Relocation.place_copy]

private theorem copiedEntries_moved : ∀ entries : List (Value Code × Value Code),
    copiedEntries (ρ.place copying) (movedEntries ρ entries) =
      movedEntries ρ (copiedEntries copying entries)
  | [] => by simp only [movedEntries, copiedEntries]
  | (key, v) :: rest => by
    rw [movedEntries, copiedEntries, copiedEntries, movedEntries, copied_moved key, copied_moved v,
      copiedEntries_moved rest]

private theorem copiedRule_moved : ∀ r : Rule (Value Code),
    copiedRule (ρ.place copying) (movedRule ρ r) = movedRule ρ (copiedRule copying r)
  | .bare _ | .blank => by simp [movedRule, copiedRule]
  | .string v | .pattern v | .symbol v => by
    rw [movedRule, copiedRule, copiedRule, movedRule, copied_moved v]
  | .group _ members => by
    rw [movedRule, copiedRule, copiedRule, movedRule, copiedRules_moved members]
  | .wrap _ content => by
    rw [movedRule, copiedRule, copiedRule, movedRule, copiedRule_moved content]
  | .prec _ v content | .field v content | .aliased content _ v => by
    rw [movedRule, copiedRule, copiedRule, movedRule, copied_moved v, copiedRule_moved content]

private theorem copiedRules_moved : ∀ rules : List (Rule (Value Code)),
    copiedRules (ρ.place copying) (movedRules ρ rules) = movedRules ρ (copiedRules copying rules)
  | [] => by simp only [movedRules, copiedRules]
  | r :: rest => by
    rw [movedRules, copiedRules, copiedRules, movedRules, copiedRule_moved r,
      copiedRules_moved rest]

end

end

end Value

private theorem filterMap_moved {α β : Type} (f : α → β) (content : List (Place × α))
    (next : Place × α → Option (Place × α)) (next' : Place × β → Option (Place × β))
    (moves : ∀ entry, next' (Prod.map ρ.place f entry) = (next entry).map (Prod.map ρ.place f)) :
    (content.map (Prod.map ρ.place f)).filterMap next' =
      (content.filterMap next).map (Prod.map ρ.place f) := by
  rw [List.filterMap_map, List.map_filterMap]
  exact congrArg (List.filterMap · content) (funext moves)

/-- A copy that is made of a moved value in a moved store is a moved copy, and leaves a moved
store. -/
theorem Store.copy_moved (store : Store Code) (copying : Place) (v : Value Code) :
    (store.moved ρ).copy (ρ.place copying) (v.moved ρ) =
      ((store.copy copying v).1.moved ρ, (store.copy copying v).2.moved ρ) := by
  have within (places : List Place) (place : Place) :
      ρ.place place ∈ places.map ρ.place ↔ place ∈ places :=
    List.mem_map_of_injective ρ.injective
  unfold copy
  simp only [present_moved, Value.places_moved, Value.copied_moved]
  refine Prod.ext rfl ?_
  change Store.mk (_ ++ (store.moved ρ).lists) (_ ++ (store.moved ρ).mappings) =
    Store.mk ((_ ++ store.lists).map _) ((_ ++ store.mappings).map _)
  rw [List.map_append, List.map_append]
  congr 2
  · refine filterMap_moved ρ _ _ _ _ fun ⟨place, items⟩ ↦ ?_
    by_cases here : place ∈ (store.present v).places
    · simp [here, within, Function.comp_def]
    · simp [here, within]
  · refine filterMap_moved ρ _ _ _ _ fun ⟨place, entries⟩ ↦ ?_
    by_cases here : place ∈ (store.present v).places
    · simp [here, within, Function.comp_def]
    · simp [here, within]

end GrammarDoc
