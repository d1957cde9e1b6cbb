import GrammarDoc.Build.Call
import GrammarDoc.Grammar.References
import GrammarDoc.Proofs.Names
import GrammarDoc.Rule.Combinators
import GrammarDoc.Value.Access

/-!
# References and the names of a grammar

References to a grammar whose names are strings are made of two tables, one for its rules and one
for its external symbols, while the grammar lists its names by going through the externals after
the rules. Both come to the same names in the same order, whichever names are repeated and whichever
externals are named like rules; and each name is found with a function that stands for it.
-/

namespace GrammarDoc

variable {Code β : Type}

/-! ### Tables of texts -/

private theorem Rule.foldl_addName_strings (found names : List String) :
    (names.map .string).foldl addName (found.map .string) =
      ((found ++ names.eraseDups.filter fun name ↦ !found.contains name).map .string :
        List (Value Code)) := by
  induction names using List.reverseRecOn with
  | nil => simp
  | append_singleton names name ih =>
    rw [List.map_append, List.foldl_append, ih, List.map_singleton, List.foldl_cons,
      List.foldl_nil, addName, List.eraseDups_append]
    -- A name that comes up again is dropped by `eraseDups`, and one that was found before by the
    -- filter.
    by_cases old : name ∈ names
    · simp [Value.string_isIn, List.removeAll, old]
    · have once : [name].eraseDups = [name] := rfl
      by_cases there : name ∈ found
      · simp [Value.string_isIn, List.removeAll, old, there, once]
      · simp [Value.string_isIn, List.removeAll, old, there, once]

namespace Table

/-- In a table with something for each of some texts, exactly these are found. -/
theorem find?_map_keys (names : List String) (f : String → β) (key : Value Code) (b : β) :
    find? (names.map fun name ↦ ((.string name : Value Code), f name)) key = some b ↔
      ∃ name ∈ names, key = .string name ∧ b = f name := by
  induction names with
  | nil => simp [find?]
  | cons name rest ih =>
    rw [List.map_cons, find?_cons]
    split
    · next same =>
      have same := (Value.same_string key name).1 same
      constructor
      · intro found
        exact ⟨name, List.mem_cons_self, same, (Option.some.inj found).symm⟩
      · rintro ⟨other, -, same', rfl⟩
        cases same.symm.trans same'
        rfl
    · next other =>
      rw [ih]
      constructor
      · rintro ⟨name', later, found⟩
        exact ⟨name', List.mem_cons_of_mem name later, found⟩
      · rintro ⟨name', there, rfl, found⟩
        rcases List.mem_cons.1 there with rfl | later
        · exact absurd ((Value.same_string _ _).2 rfl) other
        · exact ⟨name', later, rfl, found⟩

/-- If what belongs to each of some texts is replaced, its replacement is found. -/
theorem find?_map_values {γ : Type} (entries : List (String × β)) (f : String → β → γ)
    {key : Value Code} {b : β}
    (h : find? (entries.map fun (name, b) ↦ ((.string name : Value Code), b)) key = some b) :
    ∃ name, key = .string name ∧
      find? (entries.map fun (name, b) ↦ ((.string name : Value Code), f name b)) key =
        some (f name b) := by
  induction entries with
  | nil => cases h
  | cons entry rest ih =>
    obtain ⟨name, c⟩ := entry
    rw [List.map_cons, find?_cons] at h
    by_cases same : key.same (.string name) = true
    · rw [if_pos same] at h
      cases h
      refine ⟨name, (Value.same_string key name).1 same, ?_⟩
      rw [List.map_cons, find?_cons, if_pos same]
    · rw [if_neg same] at h
      obtain ⟨other, eq, found⟩ := ih h
      refine ⟨other, eq, ?_⟩
      rw [List.map_cons, find?_cons, if_neg same, found]

end Table

/-! ### Functions that stand for names -/

/-- A function that takes nothing and returns nothing, and that stands for a name if that has the
form of one. -/
structure Callable.RefersTo (f : Callable (Value Code) Code) (name : String) : Prop where
  name_eq : f.name = some name
  admits_iff (n : Nat) : f.signature.admits n = true ↔ n = 0
  apply_eq (run : Interpreter Code) (place : Place) : f.apply run place [] = pure .missing
  toRule_eq : Text.isIdentifier name = true →
    (Value.callable f).toRule = .ok (.symbol (.string name))

/-- A named function that does nothing stands for its name. -/
theorem Callable.refersTo_doNothing (place : Place) (name : String) :
    (doNothing place name : Callable (Value Code) Code).RefersTo name where
  name_eq := rfl
  admits_iff n := by
    simp [doNothing, Signature.admits, Signature.required]
  apply_eq _ _ := rfl
  toRule_eq form := by simp [doNothing, Value.toRule, form]

namespace References

/-- References agree with a grammar: going through them gives its names, a key is in them and is
found if and only if it is one of these, with a function that stands for it, and for each rule there
is a function of its name that takes nothing and returns the rule. -/
structure AgreesWith (r : References (Value Code)) (g : Grammar (Value Code)) : Prop where
  elements : Value.elements (.references r) = .ok g.names
  contains_iff (key : Value Code) :
    Value.contains? (.references r) key = .ok true ↔ key ∈ g.names
  item_iff (key : Value Code) :
    (∃ f, Value.item? (.references r) key = .ok f) ↔ key ∈ g.names
  item (name : String) (v : Value Code) :
    Value.item? (.references r) (.string name) = .ok v → ∃ f, v = .callable f ∧ f.RefersTo name
  rules : Table.keys r.rules.toList = Table.keys g.rules.toList
  definition (key v : Value Code) : Table.find? g.rules.toList key = some v →
    ∃ f name, Table.find? r.rules.toList key = some (.callable f) ∧ key = .string name ∧
      f.name = some name ∧ ∀ run place, f.apply run place [] = pure v

private theorem texts_map_string (entries : List (String × β)) :
    texts (entries.map fun (name, b) ↦ ((.string name : Value Code), b)) = .ok entries := by
  induction entries with
  | nil => rfl
  | cons entry rest ih =>
    rw [List.map_cons, texts, ih]
    rfl

end References

/-! ### Grammars whose names are strings -/

section

variable {g : Grammar (Value Code)} {definitions : List (String × Value Code)}
  {symbols : List String}
  (rules : g.rules.toList = definitions.map fun (name, v) ↦ (.string name, v))
  (externals : g.externalNames = symbols.map .string)

include rules externals

namespace Grammar

/-- The names of a grammar are those of its rules, in order, and then those of its external symbols
that no rule has, where they first occur. -/
theorem names_eq :
    g.names = ((definitions.map (·.1)) ++ symbols.eraseDups.filter fun name ↦
      !(definitions.map (·.1)).contains name).map .string := by
  have keys : Table.keys g.rules.toList = (definitions.map (·.1)).map .string := by
    rw [rules, Table.keys, List.map_map, List.map_map]
    rfl
  rw [names, keys, externals]
  exact Rule.foldl_addName_strings _ _

private theorem exists_string_of_mem_names {name : Value Code} (named : name ∈ g.names) :
    ∃ s, name = .string s := by
  rw [names_eq rules externals] at named
  obtain ⟨s, -, rfl⟩ := List.mem_map.1 named
  exact ⟨s, rfl⟩

/-- No name of the grammar is there twice. -/
theorem nodup_names (distinct : (Table.keys g.rules.toList).Nodup) : g.names.Nodup := by
  have ofRules : ∀ name ∈ Table.keys g.rules.toList, ∃ s, name = .string s := by
    intro name defined
    rw [rules, Table.keys, List.map_map] at defined
    obtain ⟨entry, -, rfl⟩ := List.mem_map.1 defined
    exact ⟨entry.1, rfl⟩
  have ofExternals : ∀ name ∈ g.externalNames, ∃ s, name = .string s := by
    intro name external
    rw [externals] at external
    obtain ⟨s, -, rfl⟩ := List.mem_map.1 external
    exact ⟨s, rfl⟩
  -- Going on from the names of the rules is like starting with them.
  have all : g.names = (Table.keys g.rules.toList ++ g.externalNames).foldl Rule.addName [] := by
    rw [List.foldl_append, Rule.foldl_addName_of_nodup ofRules distinct]
    rfl
  rw [all]
  exact (Rule.mem_and_nodup_foldl_addName
    (List.forall_mem_append.2 ⟨ofRules, ofExternals⟩)).1

end Grammar

namespace References

/-- There are references to the grammar. -/
theorem ofGrammar_eq (place : Place) :
    ofGrammar place g = .ok (ofNames place definitions symbols) := by
  have named : (g.externals.toList.filterMap Value.symbolName?).map (fun name ↦ (name, ())) =
      (symbols.map fun name ↦ (name, ())).map fun (name, u) ↦ (.string name, u) := by
    rw [← Grammar.externalNames, externals, List.map_map, List.map_map]
    rfl
  have read : (symbols.map fun name ↦ (name, ())).map (·.1) = symbols := by
    rw [List.map_map]
    exact List.map_id _
  rw [ofGrammar, ofParts, rules, texts_map_string, named, texts_map_string]
  change Except.ok (ofNames place definitions _) = _
  rw [read]

private theorem names_ofNames (place : Place) :
    (ofNames place definitions symbols).names = g.names := by
  rw [Grammar.names_eq rules externals, names, Table.keys, ofNames, List.map_map]
  rfl

/-- What is found by a key is the function that stands for it, if it is a name of the grammar. -/
theorem item?_ofNames (place : Place) (key v : Value Code) :
    (ofNames place definitions symbols).item? key = .ok v ↔
      ∃ name, .string name ∈ g.names ∧ key = .string name ∧
        v = .callable (.doNothing ((place.part "reference").part name) name) := by
  have found (v : Value Code) :
      Table.find? (ofNames place definitions symbols).functions.toList key = some v ↔
        ∃ name, .string name ∈ g.names ∧ key = .string name ∧
          v = .callable (.doNothing ((place.part "reference").part name) name) := by
    rw [Grammar.names_eq rules externals]
    simp only [List.mem_map_of_injective fun _ _ ↦ Value.string.inj]
    exact Table.find?_map_keys _ _ key v
  rw [item?, ← found v]
  -- Only strings are found, and these can be looked up; so the check of the key takes nothing away.
  cases hashable : key.canBeKey with
  | false =>
    constructor
    · intro h
      cases h
    · intro there
      obtain ⟨name, -, rfl, -⟩ := (found v).1 there
      simp [Value.canBeKey] at hashable
  | true =>
    rw [if_pos rfl]
    cases Table.find? (ofNames place definitions symbols).functions.toList key with
    | none => simp
    | some f => simp

/-- The references agree with the grammar. -/
theorem agreesWith_ofNames (place : Place) :
    (ofNames place definitions symbols).AgreesWith g where
  elements := by rw [Value.elements, names_ofNames rules externals]
  contains_iff key := by
    have strings (name : Value Code) : name ∈ g.names → ∃ s, name = .string s :=
      Grammar.exists_string_of_mem_names rules externals
    rw [Value.contains?, names_ofNames rules externals, ← Value.isIn_iff_mem_of_strings strings]
    constructor
    · intro h
      split at h
      · exact Except.ok.inj h
      · cases h
    · intro there
      obtain ⟨s, rfl⟩ := strings key ((Value.isIn_iff_mem_of_strings strings).1 there)
      rw [there]
      rfl
  item_iff key := by
    constructor
    · rintro ⟨v, found⟩
      obtain ⟨name, named, rfl, -⟩ := (item?_ofNames rules externals place key v).1 found
      exact named
    · intro named
      obtain ⟨s, rfl⟩ := Grammar.exists_string_of_mem_names rules externals named
      exact ⟨_, (item?_ofNames rules externals place _ _).2 ⟨s, named, rfl, rfl⟩⟩
  item name v found := by
    obtain ⟨_, -, same, rfl⟩ := (item?_ofNames rules externals place _ _).1 found
    cases same
    exact ⟨_, rfl, Callable.refersTo_doNothing _ _⟩
  rules := by
    rw [rules, Table.keys, Table.keys, ofNames, List.map_map, List.map_map]
    rfl
  definition key v found := by
    rw [rules] at found
    obtain ⟨name, rfl, defined⟩ := Table.find?_map_values definitions (fun name v ↦
      Value.callable (.constant ((place.part "definition").part name) name v)) found
    exact ⟨_, name, defined, rfl, rfl, fun _ _ ↦ rfl⟩

end References

end

/-- The names of references to a grammar are exactly the names of the grammar, in the same order:
those of the rules and then those of the external symbols that no rule has, where they first occur.
Each of them, and nothing else, is found, with a function that stands for it. The functions for the
rules have their names, in order, and return them, and the externals are the symbols, each once and
where it first occurs. -/
theorem References.ofGrammar_agreesWith (place : Place) {g : Grammar (Value Code)}
    {definitions : List (String × Value Code)} {symbols : List String}
    (rules : g.rules.toList = definitions.map fun (name, v) ↦ (.string name, v))
    (distinct : (Table.keys g.rules.toList).Nodup)
    (externals : g.externalNames = symbols.map .string) :
    g.names = ((definitions.map (·.1)) ++ symbols.eraseDups.filter fun name ↦
      !(definitions.map (·.1)).contains name).map .string ∧
    g.names.Nodup ∧
    ∃ r, ofGrammar place g = .ok r ∧ r.AgreesWith g ∧
      r.externals.toList =
        symbols.eraseDups.map fun name ↦ (.string name, .symbol (.string name)) :=
  ⟨Grammar.names_eq rules externals, Grammar.nodup_names rules externals distinct, _,
    ofGrammar_eq rules externals place, agreesWith_ofNames rules externals place, rfl⟩

/-- A grammar in which an external is named like a rule, another is there twice, one is no symbol,
and the name of one has not the form of a name. -/
def References.clashing : Grammar (Value Unit) where
  place := .step 0
  name := .string "g"
  rules := ⟨.step 1, [(.string "b", .rule .blank), (.string "a", .symbol (.string "b"))], false⟩
  extras := ⟨.step 2, [], false⟩
  externals := ⟨.step 3, [.symbol (.string "t"), .rule (.string (.string "x")),
    .symbol (.string "a"), .symbol (.string "a b"), .symbol (.string "t")], false⟩
  inline := ⟨.step 4, [], false⟩
  conflicts := ⟨.step 5, [], false⟩
  word := .missing
  supertypes := ⟨.step 6, [], false⟩
  precedences := ⟨.step 7, [], false⟩

/-- Names that clash are referred to once. -/
theorem References.ofGrammar_agreesWith_clashing :
    (Table.keys clashing.rules.toList).Nodup ∧
    clashing.names = ["b", "a", "t", "a b"].map .string ∧ clashing.names.Nodup ∧
    ∃ r, ofGrammar (.step 8) clashing = .ok r ∧ r.AgreesWith clashing ∧
      r.externals.toList =
        ["t", "a", "a b"].map fun name ↦ (.string name, .symbol (.string name)) := by
  have rules : clashing.rules.toList =
      [("b", .rule .blank), ("a", .symbol (.string "b"))].map fun (name, v) ↦ (.string name, v) :=
    rfl
  have distinct : (Table.keys clashing.rules.toList).Nodup := by
    simp [clashing, Table.keys]
  have externals : clashing.externalNames = ["t", "a", "a b", "t"].map .string := rfl
  exact ⟨distinct, ofGrammar_agreesWith (.step 8) rules distinct externals⟩

end GrammarDoc
