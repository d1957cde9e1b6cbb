import GrammarDoc.Proofs.Untouched

/-!
# What can be seen of a store

A value is looked at through a store, which may know collections that stand neither in the value nor
in a collection in it. What it knows of these does not matter: two stores that show the same at all
places in sight show every value the same in which there are only such places.
-/

namespace GrammarDoc

variable {Code : Type}

/-- Whether all collections in a value are at places in sight. -/
def Value.InSight (seen : Place → Prop) (v : Value Code) : Prop := ∀ place ∈ v.places, seen place

/-! ### Replacing what is in sight -/

/-- Two replacements put the same for collections in sight, if these stand within certain others,
and what the first puts has only collections in sight. -/
structure Replacement.Same (seen : Place → Prop) (above : List Place)
    (new other : Replacement Code) : Prop where
  list : ∀ place inner, seen place → above ⊆ inner →
    new.list inner place = other.list inner place
  mapping : ∀ place inner, seen place → above ⊆ inner →
    new.mapping inner place = other.mapping inner place
  seesList : ∀ place inner list, seen place → above ⊆ inner → new.list inner place = some list →
    ∀ found ∈ Value.placesOfList list, seen found
  seesMapping : ∀ place inner mapping, seen place → above ⊆ inner →
    new.mapping inner place = some mapping → ∀ found ∈ Value.placesOfMapping mapping, seen found

private theorem Replacement.Same.within {seen : Place → Prop} {above : List Place}
    {new other : Replacement Code} (h : Same seen above new other) (place : Place) :
    Same seen (place :: above) new other where
  list found inner sees within := h.list found inner sees (List.subset_of_cons_subset within)
  mapping found inner sees within := h.mapping found inner sees (List.subset_of_cons_subset within)
  seesList found inner list sees within :=
    h.seesList found inner list sees (List.subset_of_cons_subset within)
  seesMapping found inner mapping sees within :=
    h.seesMapping found inner mapping sees (List.subset_of_cons_subset within)

namespace Value

variable {seen : Place → Prop} {new other : Replacement Code}

mutual

/-- A value in sight is replaced the same, and by a value in sight. -/
theorem replaced_same {above : List Place} (h : Replacement.Same seen above new other) :
    ∀ v : Value Code, v.InSight seen →
      replaced new above v = replaced other above v ∧ (replaced new above v).InSight seen
  | missing, sees | bool _, sees | int _, sees | double _, sees | string _, sees | pattern _, sees
  | callable _, sees | builder _, sees => by
    simp only [replaced, true_and]
    exact sees
  | list items, sees => by
    obtain ⟨eq, sees⟩ := replacedList_same h items sees
    rw [replaced, replaced, eq]
    exact ⟨rfl, eq ▸ sees⟩
  | tuple items, sees => by
    obtain ⟨eq, sees⟩ := replacedItems_same h items sees
    rw [replaced, replaced, eq]
    exact ⟨rfl, eq ▸ sees⟩
  | mapping entries, sees => by
    obtain ⟨eq, sees⟩ := replacedMapping_same h entries sees
    rw [replaced, replaced, eq]
    exact ⟨rfl, eq ▸ sees⟩
  | rule r, sees => by
    obtain ⟨eq, sees⟩ := replacedRule_same h r sees
    rw [replaced, replaced, eq]
    exact ⟨rfl, eq ▸ sees⟩
  | grammar ⟨place, name, rules, extras, externals, inline, conflicts, word, supertypes,
      precedences, again⟩, sees => by
    by_cases inside : place ∈ above
    · rw [replaced, replaced, replacedGrammar, replacedGrammar, if_pos inside, if_pos inside]
      exact ⟨rfl, sees⟩
    · have h := h.within place
      simp only [InSight, places, List.forall_mem_append] at sees
      obtain ⟨⟨⟨⟨⟨⟨⟨⟨s₁, s₂⟩, s₃⟩, s₄⟩, s₅⟩, s₆⟩, s₇⟩, s₈⟩, s₉⟩ := sees
      obtain ⟨eq₁, s₁⟩ := replaced_same h name s₁
      obtain ⟨eq₂, s₂⟩ := replacedMapping_same h rules s₂
      obtain ⟨eq₃, s₃⟩ := replacedList_same h extras s₃
      obtain ⟨eq₄, s₄⟩ := replacedList_same h externals s₄
      obtain ⟨eq₅, s₅⟩ := replacedList_same h inline s₅
      obtain ⟨eq₆, s₆⟩ := replacedList_same h conflicts s₆
      obtain ⟨eq₇, s₇⟩ := replaced_same h word s₇
      obtain ⟨eq₈, s₈⟩ := replacedList_same h supertypes s₈
      obtain ⟨eq₉, s₉⟩ := replacedList_same h precedences s₉
      rw [replaced, replaced, replacedGrammar, replacedGrammar, if_neg inside, if_neg inside]
      simp only [← eq₁, ← eq₂, ← eq₃, ← eq₄, ← eq₅, ← eq₆, ← eq₇, ← eq₈, ← eq₉, InSight, places,
        List.forall_mem_append, true_and]
      exact ⟨⟨⟨⟨⟨⟨⟨⟨s₁, s₂⟩, s₃⟩, s₄⟩, s₅⟩, s₆⟩, s₇⟩, s₈⟩, s₉⟩
  | references ⟨_, rules, externals, functions⟩, sees => by
    simp only [InSight, places, List.forall_mem_append] at sees
    obtain ⟨⟨s₁, s₂⟩, s₃⟩ := sees
    obtain ⟨eq₁, s₁⟩ := replacedMapping_same h rules s₁
    obtain ⟨eq₂, s₂⟩ := replacedMapping_same h externals s₂
    obtain ⟨eq₃, s₃⟩ := replacedMapping_same h functions s₃
    rw [replaced, replaced]
    simp only [← eq₁, ← eq₂, ← eq₃, InSight, places, List.forall_mem_append, true_and]
    exact ⟨⟨s₁, s₂⟩, s₃⟩

/-- A list in sight is replaced the same, and by a list in sight. -/
theorem replacedList_same {above : List Place} (h : Replacement.Same seen above new other) :
    ∀ items : Items (Value Code), (∀ place ∈ placesOfList items, seen place) →
      replacedList new above items = replacedList other above items ∧
        ∀ place ∈ placesOfList (replacedList new above items), seen place
  | ⟨place, items, _⟩, sees => by
    rw [placesOfList, List.forall_mem_cons] at sees
    rw [replacedList, replacedList, ← h.list place above sees.1 (List.Subset.refl above)]
    cases put : new.list above place with
    | some list => exact ⟨rfl, h.seesList place above list sees.1 (List.Subset.refl above) put⟩
    | none =>
      obtain ⟨eq, inner⟩ := replacedItems_same h items sees.2
      simp only [← eq, placesOfList, List.forall_mem_cons, true_and]
      exact ⟨sees.1, inner⟩

/-- Items in sight are replaced the same, and by items in sight. -/
theorem replacedItems_same {above : List Place} (h : Replacement.Same seen above new other) :
    ∀ items : List (Value Code), (∀ place ∈ placesOfItems items, seen place) →
      replacedItems new above items = replacedItems other above items ∧
        ∀ place ∈ placesOfItems (replacedItems new above items), seen place
  | [], sees => by
    rw [replacedItems, replacedItems]
    exact ⟨rfl, sees⟩
  | v :: rest, sees => by
    rw [placesOfItems, List.forall_mem_append] at sees
    obtain ⟨eq, one⟩ := replaced_same h v sees.1
    obtain ⟨eq', more⟩ := replacedItems_same h rest sees.2
    rw [replacedItems, replacedItems, ← eq, ← eq', placesOfItems, List.forall_mem_append]
    exact ⟨rfl, one, more⟩

/-- A mapping in sight is replaced the same, and by a mapping in sight. -/
theorem replacedMapping_same {above : List Place} (h : Replacement.Same seen above new other) :
    ∀ entries : Entries (Value Code), (∀ place ∈ placesOfMapping entries, seen place) →
      replacedMapping new above entries = replacedMapping other above entries ∧
        ∀ place ∈ placesOfMapping (replacedMapping new above entries), seen place
  | ⟨place, entries, _⟩, sees => by
    rw [placesOfMapping, List.forall_mem_cons] at sees
    rw [replacedMapping, replacedMapping, ← h.mapping place above sees.1 (List.Subset.refl above)]
    cases put : new.mapping above place with
    | some mapping =>
      exact ⟨rfl, h.seesMapping place above mapping sees.1 (List.Subset.refl above) put⟩
    | none =>
      obtain ⟨eq, inner⟩ := replacedEntries_same h entries sees.2
      simp only [← eq, placesOfMapping, List.forall_mem_cons, true_and]
      exact ⟨sees.1, inner⟩

/-- Entries in sight are replaced the same, and by entries in sight. -/
theorem replacedEntries_same {above : List Place} (h : Replacement.Same seen above new other) :
    ∀ entries : List (Value Code × Value Code), (∀ place ∈ placesOfEntries entries, seen place) →
      replacedEntries new above entries = replacedEntries other above entries ∧
        ∀ place ∈ placesOfEntries (replacedEntries new above entries), seen place
  | [], sees => by
    rw [replacedEntries, replacedEntries]
    exact ⟨rfl, sees⟩
  | (key, v) :: rest, sees => by
    simp only [placesOfEntries, List.forall_mem_append] at sees
    obtain ⟨eq, one⟩ := replaced_same h key sees.1.1
    obtain ⟨eq', two⟩ := replaced_same h v sees.1.2
    obtain ⟨eq'', more⟩ := replacedEntries_same h rest sees.2
    rw [replacedEntries, replacedEntries, ← eq, ← eq', ← eq'', placesOfEntries,
      List.forall_mem_append, List.forall_mem_append]
    exact ⟨rfl, ⟨one, two⟩, more⟩

/-- A rule in sight is replaced the same, and by a rule in sight. -/
theorem replacedRule_same {above : List Place} (h : Replacement.Same seen above new other) :
    ∀ r : Rule (Value Code), (∀ place ∈ placesOfRule r, seen place) →
      replacedRule new above r = replacedRule other above r ∧
        ∀ place ∈ placesOfRule (replacedRule new above r), seen place
  | .bare _, sees | .blank, sees => by
    simp only [replacedRule, true_and]
    exact sees
  | .string v, sees | .pattern v, sees | .symbol v, sees => by
    obtain ⟨eq, sees⟩ := replaced_same h v sees
    rw [replacedRule, replacedRule, ← eq]
    exact ⟨rfl, sees⟩
  | .group _ members, sees => by
    obtain ⟨eq, sees⟩ := replacedRules_same h members sees
    rw [replacedRule, replacedRule, ← eq]
    exact ⟨rfl, sees⟩
  | .wrap _ content, sees => by
    obtain ⟨eq, sees⟩ := replacedRule_same h content sees
    rw [replacedRule, replacedRule, ← eq]
    exact ⟨rfl, sees⟩
  | .prec _ v content, sees | .field v content, sees | .aliased content _ v, sees => by
    rw [placesOfRule, List.forall_mem_append] at sees
    obtain ⟨eq, one⟩ := replaced_same h v sees.1
    obtain ⟨eq', more⟩ := replacedRule_same h content sees.2
    rw [replacedRule, replacedRule, ← eq, ← eq', placesOfRule, List.forall_mem_append]
    exact ⟨rfl, one, more⟩

/-- Rules in sight are replaced the same, and by rules in sight. -/
theorem replacedRules_same {above : List Place} (h : Replacement.Same seen above new other) :
    ∀ rules : List (Rule (Value Code)), (∀ place ∈ placesOfRules rules, seen place) →
      replacedRules new above rules = replacedRules other above rules ∧
        ∀ place ∈ placesOfRules (replacedRules new above rules), seen place
  | [], sees => by
    rw [replacedRules, replacedRules]
    exact ⟨rfl, sees⟩
  | r :: rest, sees => by
    rw [placesOfRules, List.forall_mem_append] at sees
    obtain ⟨eq, one⟩ := replacedRule_same h r sees.1
    obtain ⟨eq', more⟩ := replacedRules_same h rest sees.2
    rw [replacedRules, replacedRules, ← eq, ← eq', placesOfRules, List.forall_mem_append]
    exact ⟨rfl, one, more⟩

end

/-- Items are in sight if all collections in them are. -/
theorem forall_placesOfItems (items : List (Value Code)) :
    (∀ place ∈ placesOfItems items, seen place) ↔ ∀ v ∈ items, v.InSight seen := by
  induction items with
  | nil => simp [placesOfItems]
  | cons v rest ih => rw [placesOfItems, List.forall_mem_append, List.forall_mem_cons, ih, InSight]

/-- Entries are in sight if all collections in their keys and values are. -/
theorem forall_placesOfEntries (entries : List (Value Code × Value Code)) :
    (∀ place ∈ placesOfEntries entries, seen place) ↔
      ∀ entry ∈ entries, entry.1.InSight seen ∧ entry.2.InSight seen := by
  induction entries with
  | nil => simp [placesOfEntries]
  | cons entry rest ih =>
    rw [placesOfEntries, List.forall_mem_append, List.forall_mem_append, List.forall_mem_cons, ih,
      InSight, InSight]

/-- The elements of a value in sight are in sight. -/
theorem InSight.elements {v : Value Code} (sees : v.InSight seen) {items : List (Value Code)}
    (h : v.elements = .ok items) : ∀ item ∈ items, item.InSight seen := by
  have keys {entries : Entries (Value Code)}
      (sees : ∀ place ∈ placesOfMapping entries, seen place) :
      ∀ key ∈ Table.keys entries.toList, key.InSight seen := by
    rw [placesOfMapping, List.forall_mem_cons, forall_placesOfEntries] at sees
    intro key hk
    obtain ⟨entry, he, rfl⟩ := List.mem_map.1 hk
    exact (sees.2 entry he).1
  cases v with
  | list list =>
    cases h
    rw [InSight, places, placesOfList, List.forall_mem_cons, forall_placesOfItems] at sees
    exact sees.2
  | tuple items =>
    cases h
    rw [InSight, places, forall_placesOfItems] at sees
    exact sees
  | mapping entries =>
    cases h
    rw [InSight, places] at sees
    exact keys sees
  | string s =>
    cases h
    intro item hi
    obtain ⟨c, -, rfl⟩ := List.mem_map.1 hi
    intro place found
    simp [places] at found
  | references r =>
    cases h
    rw [InSight, places, List.forall_mem_append] at sees
    exact keys sees.2
  | builder place =>
    cases h
    rw [List.forall_mem_singleton]
    intro place found
    simp [symbol, places, placesOfRule] at found
  | missing | bool | int | double | pattern | callable | rule | grammar => cases h

end Value

/-! ### Stores that show the same -/

/-- Two stores know the same of all collections in sight, and nothing that is out of sight stands
in these. -/
structure Store.Alike (seen : Place → Prop) (store other : Store Code) : Prop where
  isEmpty : store.isEmpty = other.isEmpty
  lists : ∀ place, seen place → store.lists.lookup place = other.lists.lookup place
  mappings : ∀ place, seen place → store.mappings.lookup place = other.mappings.lookup place
  seesItems : ∀ place items, seen place → store.lists.lookup place = some items →
    ∀ v ∈ items, v.InSight seen
  seesEntries : ∀ place entries, seen place → store.mappings.lookup place = some entries →
    ∀ entry ∈ entries, entry.1.InSight seen ∧ entry.2.InSight seen

namespace Store

variable {seen : Place → Prop} {store other last : Store Code}

namespace Alike

/-- Empty stores are alike. -/
theorem empty : ({} : Store Code).Alike seen {} where
  isEmpty := rfl
  lists _ _ := rfl
  mappings _ _ := rfl
  seesItems _ _ _ known := by cases known
  seesEntries _ _ _ known := by cases known

/-- Being alike is symmetric. -/
theorem symm (h : store.Alike seen other) : other.Alike seen store where
  isEmpty := h.isEmpty.symm
  lists place sees := (h.lists place sees).symm
  mappings place sees := (h.mappings place sees).symm
  seesItems place items sees known := h.seesItems place items sees (h.lists place sees ▸ known)
  seesEntries place entries sees known :=
    h.seesEntries place entries sees (h.mappings place sees ▸ known)

/-- Being alike is transitive. -/
theorem trans (h : store.Alike seen other) (h' : other.Alike seen last) :
    store.Alike seen last where
  isEmpty := h.isEmpty.trans h'.isEmpty
  lists place sees := (h.lists place sees).trans (h'.lists place sees)
  mappings place sees := (h.mappings place sees).trans (h'.mappings place sees)
  seesItems := h.seesItems
  seesEntries := h.seesEntries

end Alike

/-- How many changed collections are not among some others, each as often as it is known. -/
def unopened (store : Store Code) (above : List Place) : Nat :=
  ((store.lists.map Prod.fst ++ store.mappings.map Prod.fst).filter (· ∉ above)).length

private theorem unopened_lt {above inner : List Place} {place : Place}
    (known : place ∈ store.lists.map Prod.fst ++ store.mappings.map Prod.fst)
    (within : above ⊆ inner) (new : place ∉ inner) :
    store.unopened (place :: inner) < store.unopened above := by
  unfold unopened
  generalize store.lists.map Prod.fst ++ store.mappings.map Prod.fst = changed at known ⊢
  have fewer : (changed.filter (· ∉ place :: inner)).Sublist (changed.filter (· ∉ above)) := by
    refine List.monotone_filter_right _ fun found out ↦ ?_
    simp only [List.mem_cons, not_or, decide_eq_true_eq] at out ⊢
    exact fun inside ↦ out.2 (within inside)
  apply Nat.lt_of_le_of_ne fewer.length_le
  intro same
  have found : place ∈ changed.filter (· ∉ above) := by
    rw [List.mem_filter, decide_eq_true_eq]
    exact ⟨known, fun inside ↦ new (within inside)⟩
  rw [← fewer.eq_of_length same, List.mem_filter, decide_eq_true_eq] at found
  exact found.2 List.mem_cons_self

private theorem mem_of_lookup_eq_some {β : Type} {changed : List (Place × β)} {place : Place}
    {content : β} (known : changed.lookup place = some content) : place ∈ changed.map Prod.fst := by
  obtain ⟨before, after, rfl, -⟩ := List.lookup_eq_some_iff.1 known
  simp

/-- Stores that are alike show a value in sight the same as long as no depth runs out, and there is
nothing out of sight in what they show. -/
theorem presentWithin_alike (h : store.Alike seen other) {depth depth' : Nat} {above : List Place}
    (enough : store.unopened above < depth) (enough' : other.unopened above < depth')
    {v : Value Code} (sees : v.InSight seen) :
    store.presentWithin depth above v = other.presentWithin depth' above v ∧
      (store.presentWithin depth above v).InSight seen := by
  induction depth generalizing depth' above v with
  | zero => omega
  | succ depth ih =>
    obtain ⟨depth', rfl⟩ : ∃ n, depth' = n + 1 := ⟨depth' - 1, by omega⟩
    -- Whatever stands in a changed collection is within one more collection that is opened.
    have inside {place : Place} {inner : List Place} (within : above ⊆ inner) (new : place ∉ inner)
        (known : place ∈ store.lists.map Prod.fst ++ store.mappings.map Prod.fst)
        (known' : place ∈ other.lists.map Prod.fst ++ other.mappings.map Prod.fst)
        {v : Value Code} (sees : v.InSight seen) :
        store.presentWithin depth (place :: inner) v =
            other.presentWithin depth' (place :: inner) v ∧
          (store.presentWithin depth (place :: inner) v).InSight seen := by
      have fewer := unopened_lt known within new
      have fewer' := unopened_lt known' within new
      exact ih (by omega) (by omega) sees
    have items {place : Place} {inner : List Place} {items : List (Value Code)}
        (sees : seen place) (within : above ⊆ inner) (new : place ∉ inner)
        (known : store.lists.lookup place = some items) (v : Value Code) (hv : v ∈ items) :=
      inside within new (List.mem_append_left _ (mem_of_lookup_eq_some known))
        (List.mem_append_left _ (mem_of_lookup_eq_some (h.lists place sees ▸ known)))
        (h.seesItems place items sees known v hv)
    have entries {place : Place} {inner : List Place} {entries : List (Value Code × Value Code)}
        (sees : seen place) (within : above ⊆ inner) (new : place ∉ inner)
        (known : store.mappings.lookup place = some entries) (entry : Value Code × Value Code)
        (he : entry ∈ entries) :=
      let inside {v : Value Code} (sees' : v.InSight seen) :=
        inside within new (List.mem_append_right _ (mem_of_lookup_eq_some known))
          (List.mem_append_right _ (mem_of_lookup_eq_some (h.mappings place sees ▸ known))) sees'
      And.intro (inside (h.seesEntries place entries sees known entry he).1)
        (inside (h.seesEntries place entries sees known entry he).2)
    rw [presentWithin, presentWithin]
    refine Value.replaced_same ⟨?_, ?_, ?_, ?_⟩ v sees
    · intro place inner sees within
      dsimp only
      rw [← h.lists place sees]
      cases known : store.lists.lookup place with
      | none => rfl
      | some content =>
        by_cases again : place ∈ inner
        · simp only [Option.map_some, if_pos again]
        · simp only [Option.map_some, if_neg again]
          rw [List.map_congr_left fun v hv ↦ (items sees within again known v hv).1]
    · intro place inner sees within
      dsimp only
      rw [← h.mappings place sees]
      cases known : store.mappings.lookup place with
      | none => rfl
      | some content =>
        by_cases again : place ∈ inner
        · simp only [Option.map_some, if_pos again]
        · simp only [Option.map_some, if_neg again]
          rw [List.map_congr_left fun entry he ↦ congrArg₂ Prod.mk
            (entries sees within again known entry he).1.1
            (entries sees within again known entry he).2.1]
    · intro place inner list sees within put
      obtain ⟨content, known, rfl⟩ := Option.map_eq_some_iff.1 put
      by_cases again : place ∈ inner
      · rw [if_pos again, Value.placesOfList, List.forall_mem_cons, Value.forall_placesOfItems]
        exact ⟨sees, h.seesItems place content sees known⟩
      · rw [if_neg again, Value.placesOfList, List.forall_mem_cons, Value.forall_placesOfItems,
          List.forall_mem_map]
        exact ⟨sees, fun v hv ↦ (items sees within again known v hv).2⟩
    · intro place inner mapping sees within put
      obtain ⟨content, known, rfl⟩ := Option.map_eq_some_iff.1 put
      by_cases again : place ∈ inner
      · rw [if_pos again, Value.placesOfMapping, List.forall_mem_cons,
          Value.forall_placesOfEntries]
        exact ⟨sees, h.seesEntries place content sees known⟩
      · rw [if_neg again, Value.placesOfMapping, List.forall_mem_cons,
          Value.forall_placesOfEntries, List.forall_mem_map]
        exact ⟨sees, fun entry he ↦ ⟨(entries sees within again known entry he).1.2,
          (entries sees within again known entry he).2.2⟩⟩

/-- Stores that are alike show a value in sight the same, and there is nothing out of sight in what
they show. -/
theorem present_alike (h : store.Alike seen other) {v : Value Code} (sees : v.InSight seen) :
    store.present v = other.present v ∧ (store.present v).InSight seen := by
  by_cases empty : store.isEmpty
  · rw [present, present, if_pos empty, if_pos (h.isEmpty ▸ empty)]
    exact ⟨rfl, sees⟩
  · have enough (store : Store Code) :
        store.unopened [] < store.lists.length + store.mappings.length + 1 := by
      have fewer := List.length_filter_le (· ∉ ([] : List Place))
        (store.lists.map Prod.fst ++ store.mappings.map Prod.fst)
      rw [List.length_append, List.length_map, List.length_map] at fewer
      exact Nat.lt_succ_of_le fewer
    rw [present, present, if_neg empty, if_neg (h.isEmpty ▸ empty)]
    exact presentWithin_alike h (enough store) (enough other) sees

/-- Stores that are alike give a collection in sight the same items or entries, and these are in
sight. -/
theorem read_alike (h : store.Alike seen other) {v : Value Code} (sees : v.InSight seen) :
    store.read v = other.read v ∧ (store.read v).InSight seen := by
  cases v with
  | list list =>
    rw [Value.InSight, Value.places, Value.placesOfList, List.forall_mem_cons] at sees
    rw [read, read, items, items, ← h.lists _ sees.1, Value.InSight, Value.places,
      Value.placesOfList, List.forall_mem_cons]
    refine ⟨rfl, sees.1, ?_⟩
    cases known : store.lists.lookup list.place with
    | none => exact sees.2
    | some items => exact (Value.forall_placesOfItems items).2 (h.seesItems _ items sees.1 known)
  | mapping mapping =>
    rw [Value.InSight, Value.places, Value.placesOfMapping, List.forall_mem_cons] at sees
    rw [read, read, entries, entries, ← h.mappings _ sees.1, Value.InSight, Value.places,
      Value.placesOfMapping, List.forall_mem_cons]
    refine ⟨rfl, sees.1, ?_⟩
    cases known : store.mappings.lookup mapping.place with
    | none => exact sees.2
    | some entries =>
      exact (Value.forall_placesOfEntries entries).2 (h.seesEntries _ entries sees.1 known)
  | missing | bool | int | double | string | tuple | pattern | callable | builder | rule | grammar
  | references => exact ⟨rfl, sees⟩

/-- A store in which copies are made is still alike if their places are out of sight. -/
theorem Alike.copied (h : store.Alike seen other) {copying : Place} (v : Value Code)
    (hidden : ∀ source, ¬ seen (.copy source copying)) :
    (store.copy copying v).2.Alike seen other := by
  have skipped {β : Type} {copies changed : List (Place × β)}
      (made : ∀ copy ∈ copies, ∃ source, copy.1 = .copy source copying) {place : Place}
      (sees : seen place) : (copies ++ changed).lookup place = changed.lookup place := by
    have unknown : copies.lookup place = none := by
      rw [List.lookup_eq_none_iff]
      intro copy hc
      obtain ⟨source, eq⟩ := made copy hc
      rw [bne_iff_ne, eq]
      rintro rfl
      exact hidden source sees
    rw [List.lookup_append, unknown, Option.none_or]
  have lists (place : Place) (sees : seen place) :
      (store.copy copying v).2.lists.lookup place = store.lists.lookup place := by
    refine skipped (fun copy hc ↦ ?_) sees
    obtain ⟨⟨source, content⟩, -, found⟩ := List.mem_filterMap.1 hc
    obtain ⟨-, eq⟩ := Option.ite_none_right_eq_some.1 found
    exact ⟨source, (congrArg Prod.fst (Option.some.inj eq)).symm⟩
  have mappings (place : Place) (sees : seen place) :
      (store.copy copying v).2.mappings.lookup place = store.mappings.lookup place := by
    refine skipped (fun copy hc ↦ ?_) sees
    obtain ⟨⟨source, content⟩, -, found⟩ := List.mem_filterMap.1 hc
    obtain ⟨-, eq⟩ := Option.ite_none_right_eq_some.1 found
    exact ⟨source, (congrArg Prod.fst (Option.some.inj eq)).symm⟩
  have isEmpty : (store.copy copying v).2.isEmpty = store.isEmpty := by
    obtain ⟨_ | _, _ | _⟩ := store
    all_goals simp [copy, Store.isEmpty]
  exact {
    isEmpty := isEmpty.trans h.isEmpty
    lists := fun place sees ↦ (lists place sees).trans (h.lists place sees)
    mappings := fun place sees ↦ (mappings place sees).trans (h.mappings place sees)
    seesItems := fun place items sees known ↦
      h.seesItems place items sees (lists place sees ▸ known)
    seesEntries := fun place entries sees known ↦
      h.seesEntries place entries sees (mappings place sees ▸ known) }

end Store

end GrammarDoc
