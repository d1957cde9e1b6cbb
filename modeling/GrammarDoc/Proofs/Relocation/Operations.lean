import GrammarDoc.Build.Journal
import GrammarDoc.Proofs.Relocation.Values
import GrammarDoc.Report

/-!
# Operations on moved values

What a build finds in a moved value is what it finds in the value, moved. This holds of the names
and the rules that values stand for, of tables, of the attributes of a base, and of what a store
shows of a value. A problem with a moved value has the same kind and the same message.
-/

namespace GrammarDoc

variable {Code : Type} {α β γ : Type} (ρ : Relocation Code)

/-! ### What values are -/

namespace Value

/-- Moved values are one and the same or equal if they were before. -/
@[simp] theorem same_moved (v w : Value Code) : (v.moved ρ).same (w.moved ρ) = v.same w := by
  rw [same, same, compare_moved]

/-- A moved value is among moved ones if it was before. -/
@[simp] theorem isIn_moved (v : Value Code) (values : List (Value Code)) :
    (v.moved ρ).isIn (values.map (moved ρ)) = v.isIn values := by
  simp [isIn, Function.comp_def]

/-- What has the form of a name is not moved. -/
@[simp] theorem isValidName_moved (v : Value Code) : (v.moved ρ).isValidName = v.isValidName := by
  cases v <;> simp [moved, isValidName]

/-- The name that a moved value gives is moved. -/
@[simp] theorem nameOf_moved (v : Value Code) : (v.moved ρ).nameOf = v.nameOf.moved ρ := by
  cases v with
  | rule r => cases r <;> simp [moved, movedRule, nameOf]
  | callable f =>
    obtain ⟨place, name, signature, body⟩ := f
    cases name <;> simp [moved, movedCallable, nameOf]
  | missing | bool | int | double | string | list | tuple | mapping | pattern | builder | grammar
  | references => simp [moved, nameOf]

/-- The name of a moved symbol is moved. -/
@[simp] theorem symbolName?_moved (v : Value Code) :
    (v.moved ρ).symbolName? = v.symbolName?.map (moved ρ) := by
  cases v with
  | rule r => cases r <;> simp [moved, movedRule, symbolName?]
  | missing | bool | int | double | string | list | tuple | mapping | pattern | callable | builder
  | grammar | references => simp [moved, symbolName?]

/-- The items of a moved array are moved. -/
@[simp] theorem array?_moved (v : Value Code) :
    (v.moved ρ).array? = v.array?.map (List.map (moved ρ)) := by
  cases v with
  | list items =>
    obtain ⟨place, items, again⟩ := items
    simp [moved, movedList, array?]
  | missing | bool | int | double | string | tuple | mapping | pattern | callable | builder | rule
  | grammar | references => simp [moved, array?]

/-- The entries of a moved mapping are moved. -/
@[simp] theorem object?_moved (v : Value Code) :
    (v.moved ρ).object? = v.object?.map (List.map (Prod.map (moved ρ) (moved ρ))) := by
  cases v with
  | mapping entries =>
    obtain ⟨place, entries, again⟩ := entries
    simp [moved, movedMapping, object?]
  | missing | bool | int | double | string | list | tuple | pattern | callable | builder | rule
  | grammar | references => simp [moved, object?]

/-- A moved callable is one. -/
@[simp] theorem callable?_moved (v : Value Code) :
    (v.moved ρ).callable? = v.callable?.map (movedCallable ρ) := by
  cases v <;> simp [moved, callable?]

/-- A moved value is missing if it was before. -/
@[simp] theorem toOption_moved (v : Value Code) :
    (v.moved ρ).toOption = v.toOption.map (moved ρ) := by
  cases v <;> simp [moved, toOption]

/-- A value that may be missing is moved. -/
@[simp] theorem ofOption_map_moved (v : Option (Value Code)) :
    ofOption (v.map (moved ρ)) = (ofOption v).moved ρ := by
  cases v <;> simp [ofOption, moved]

/-- A moved callable has the same name. -/
@[simp] theorem movedCallable_name (f : Callable (Value Code) Code) :
    (movedCallable ρ f).name = f.name := by
  obtain ⟨place, name, signature, body⟩ := f
  rfl

/-- A moved callable has the same signature. -/
@[simp] theorem movedCallable_signature (f : Callable (Value Code) Code) :
    (movedCallable ρ f).signature = f.signature := by
  obtain ⟨place, name, signature, body⟩ := f
  rfl

end Value

/-! ### Tables -/

namespace Table

/-- A table whose keys and values are moved. -/
abbrev moved (table : Table Code (Value Code)) : Table Code (Value Code) :=
  table.map (Prod.map (Value.moved ρ) (Value.moved ρ))

/-- What belongs to a moved key is found in a moved table. -/
@[simp] theorem find?_moved (f : β → γ) (table : Table Code β) (key : Value Code) :
    find? (table.map (Prod.map (Value.moved ρ) f)) (key.moved ρ) = (table.find? key).map f := by
  simp [find?, List.find?_map, Function.comp_def]

/-- What belongs to a text is found in a moved table. -/
@[simp] theorem find?_moved_string (f : β → γ) (table : Table Code β) (s : String) :
    find? (table.map (Prod.map (Value.moved ρ) f)) (.string s) =
      (table.find? (.string s)).map f := by
  have found := find?_moved ρ f table (.string s)
  rwa [Value.moved] at found

/-- A moved table has a moved key if it was there before. -/
@[simp] theorem has_moved (f : β → γ) (table : Table Code β) (key : Value Code) :
    has (table.map (Prod.map (Value.moved ρ) f)) (key.moved ρ) = table.has key := by
  simp [has, Function.comp_def]

/-- What belongs to a moved key is set in a moved table. -/
@[simp] theorem insert_moved (f : β → γ) (table : Table Code β) (key : Value Code) (b : β) :
    insert (table.map (Prod.map (Value.moved ρ) f)) (key.moved ρ) (f b) =
      (table.insert key b).map (Prod.map (Value.moved ρ) f) := by
  induction table with
  | nil => rfl
  | cons entry rest ih =>
    rw [List.map_cons, insert, insert, Prod.map_fst, Value.same_moved]
    split
    · rfl
    · rw [ih, List.map_cons]

/-- The keys of a moved table are moved. -/
@[simp] theorem keys_moved (f : β → γ) (table : Table Code β) :
    keys (table.map (Prod.map (Value.moved ρ) f)) = table.keys.map (Value.moved ρ) := by
  simp [keys, Function.comp_def]

end Table

/-! ### Names in rules -/

namespace Rule

/-- The name that a moved rule refers to is moved. -/
@[simp] theorem referencedName?_moved (r : Rule (Value Code)) :
    (Value.movedRule ρ r).referencedName? = r.referencedName?.map (Value.moved ρ) := by
  cases r <;> simp [Value.movedRule, referencedName?]

private theorem addName_moved (found : List (Value Code)) (name : Value Code) :
    addName (found.map (Value.moved ρ)) (name.moved ρ) =
      (addName found name).map (Value.moved ρ) := by
  rw [addName, addName, Value.isIn_moved]
  split
  · rfl
  · rw [List.map_append, List.map_singleton]

mutual

/-- The names that a moved rule refers to are moved. -/
theorem addSymbols_moved (found : List (Value Code)) :
    ∀ r : Rule (Value Code), addSymbols (found.map (Value.moved ρ)) (Value.movedRule ρ r) =
      (addSymbols found r).map (Value.moved ρ)
  | bare _ | string _ | pattern _ | blank => by simp only [Value.movedRule, addSymbols]
  | symbol name => by rw [Value.movedRule, addSymbols, addSymbols, addName_moved]
  | group _ members => by
    rw [Value.movedRule, addSymbols, addSymbols, addSymbolsOfAll_moved found members]
  | wrap _ content | prec _ _ content | field _ content | aliased content _ _ => by
    rw [Value.movedRule, addSymbols, addSymbols, addSymbols_moved found content]

private theorem addSymbolsOfAll_moved (found : List (Value Code)) :
    ∀ rules : List (Rule (Value Code)),
      addSymbolsOfAll (found.map (Value.moved ρ)) (Value.movedRules ρ rules) =
        (addSymbolsOfAll found rules).map (Value.moved ρ)
  | [] => by rw [Value.movedRules, addSymbolsOfAll, addSymbolsOfAll]
  | r :: rest => by
    rw [Value.movedRules, addSymbolsOfAll, addSymbolsOfAll, addSymbols_moved found r,
      addSymbolsOfAll_moved (addSymbols found r) rest]

end

/-- The names that a moved rule refers to are moved. -/
@[simp] theorem symbols_moved (r : Rule (Value Code)) :
    (Value.movedRule ρ r).symbols = r.symbols.map (Value.moved ρ) :=
  addSymbols_moved ρ [] r

end Rule

/-! ### Elements and attributes -/

namespace Value

private theorem moved_characters (s : String) :
    (characters s : List (Value Code)).map (moved ρ) = characters s := by
  simp [characters, moved, Function.comp_def]

/-- The names of moved references are moved. -/
@[simp] theorem names_movedReferences (r : References (Value Code)) :
    (movedReferences ρ r).names = r.names.map (moved ρ) := by
  obtain ⟨place, rules, externals, ⟨other, functions, again⟩⟩ := r
  simp [movedReferences, movedMapping, References.names]

/-- The elements of a moved value are moved. -/
@[simp] theorem elements_moved (v : Value Code) :
    (v.moved ρ).elements = v.elements.map (List.map (moved ρ)) := by
  cases v with
  | list items =>
    obtain ⟨place, items, again⟩ := items
    simp [moved, movedList, elements, Except.map]
  | mapping entries =>
    obtain ⟨place, entries, again⟩ := entries
    simp [moved, movedMapping, elements, Except.map]
  | string s =>
    rw [moved, elements, Except.map, moved_characters]
  | references r =>
    rw [moved, elements, elements, names_movedReferences]
    rfl
  | builder | missing | bool | int | double | tuple | pattern | callable | rule | grammar =>
    simp [moved, movedRule, elements, symbol, Except.map]

/-- Moved references have the same names. -/
@[simp] theorem has_movedReferences (r : References (Value Code)) (name : String) :
    (movedReferences ρ r).has name = r.has name := by
  obtain ⟨place, rules, externals, ⟨other, functions, again⟩⟩ := r
  have found := Table.has_moved ρ (moved ρ) functions (.string name)
  rw [moved] at found
  simp [movedReferences, movedMapping, References.has, found]

/-- Calling a method on a moved value fails as before. -/
@[simp] theorem noMethod_moved (v : Value Code) (name : String) :
    (v.moved ρ).noMethod name = v.noMethod name := by
  cases v <;> simp [moved, noMethod]

private theorem orMissing_moved (v : Option (Value Code)) :
    orMissing (v.map (moved ρ)) = (orMissing v).map (moved ρ) := by
  cases v <;> rfl

private theorem part?_movedGrammar (g : Grammar (Value Code)) (name : String) :
    (movedGrammar ρ g).part? name = (g.part? name).map (moved ρ) := by
  obtain ⟨_, _, _, _, _, _, _, _, _, _, _⟩ := g
  unfold Grammar.part?
  split <;> simp [movedGrammar, moved]

private theorem part?_movedRule (r : Rule (Value Code)) (name : String) :
    (movedRule ρ r).part? name = (r.part? name).map (moved ρ) := by
  cases r with
  | bare | blank => simp [movedRule, Rule.part?]
  | group kind members =>
    by_cases here : name = "members"
    · simp [here, movedRule, Rule.part?, moved, Function.comp_def]
    · simp [here, movedRule, Rule.part?]
  | string | pattern | symbol | wrap | prec | field | aliased =>
    simp only [movedRule, Rule.part?]
    split <;> simp_all [moved]

private theorem attribute?_movedReferences (r : References (Value Code)) (name : String) :
    (movedReferences ρ r).attribute? name = (r.attribute? name).map (moved ρ) := by
  obtain ⟨place, rules, externals, ⟨other, functions, again⟩⟩ := r
  unfold References.attribute?
  split
  · simp [movedReferences, moved, Except.map]
  · simp [movedReferences, moved, Except.map]
  · simp [movedReferences, moved, Except.map]
  · simp only [movedReferences, movedMapping, movedEntries_eq_map, Table.find?_moved_string]
    cases Table.find? functions (.string name) <;> rfl

/-- An attribute of a moved value is moved. -/
theorem attribute?_moved (v : Value Code) (name : String) :
    (v.moved ρ).attribute? name = (v.attribute? name).map (moved ρ) := by
  cases v with
  | builder place =>
    rw [moved, attribute?, attribute?]
    split <;> simp [Except.map, symbol, moved, movedRule]
  | references r => rw [moved, attribute?, attribute?, attribute?_movedReferences]
  | grammar g => rw [moved, attribute?, attribute?, part?_movedGrammar, orMissing_moved]
  | rule r => rw [moved, attribute?, attribute?, part?_movedRule, orMissing_moved]
  | callable f =>
    rw [moved, attribute?, attribute?, ← orMissing_moved, movedCallable_name]
    split <;> simp [moved, Function.comp_def]
  | missing | bool | int | double | string | list | tuple | mapping | pattern =>
    simp [moved, attribute?, Except.map]

end Value

end GrammarDoc
