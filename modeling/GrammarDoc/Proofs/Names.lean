import GrammarDoc.Rule.Symbols
import Mathlib.Data.List.Induction
import Mathlib.Data.List.Nodup
import Mathlib.Tactic.Tauto

/-!
# Names

Names that have the form of one are strings, and a string equals nothing but itself. So whether a
namespace has such a name is a matter of membership, although names are compared by the equality of
values.
-/

namespace GrammarDoc

variable {Code β : Type}

namespace Value

/-- A string equals only itself. -/
theorem string_same (s : String) (v : Value Code) : (string s).same v = true ↔ v = string s := by
  cases v with
  | string t =>
    simp only [same, compare, beq_iff_eq, Option.some.injEq, string.injEq]
    exact eq_comm
  | missing | bool | int | double | list | tuple | mapping | pattern | callable | builder | rule
  | grammar | references => simp [same, compare]

/-- Only a string equals that string. -/
theorem same_string (v : Value Code) (s : String) : v.same (string s) = true ↔ v = string s := by
  cases v with
  | string t => simp [same, compare]
  | bool b | int i | double x => simp [same, compare, sameNumber, integer?]
  | missing | list | tuple | mapping | pattern | callable | builder | rule | grammar
  | references => simp [same, compare]

/-- What has the form of a name is a string. -/
theorem eq_string_of_isValidName {v : Value Code} (h : v.isValidName = true) :
    ∃ s, v = string s := by
  cases v with
  | string s => exact ⟨s, rfl⟩
  | missing | bool | int | double | list | tuple | mapping | pattern | callable | builder | rule
  | grammar | references => simp [isValidName] at h

/-- What has the form of a name can be looked up. -/
theorem canBeKey_of_isValidName {v : Value Code} (h : v.isValidName = true) :
    v.canBeKey = true := by
  obtain ⟨s, rfl⟩ := eq_string_of_isValidName h
  simp [canBeKey]

/-- A string is among some values if one of them equals it. -/
theorem string_isIn (s : String) (values : List (Value Code)) :
    (string s).isIn values = true ↔ string s ∈ values := by
  simp [isIn, string_same]

/-- A value equals one of some strings only if it is one of them. -/
theorem isIn_iff_mem_of_strings {v : Value Code} {values : List (Value Code)}
    (strings : ∀ value ∈ values, ∃ s, value = string s) : v.isIn values = true ↔ v ∈ values := by
  simp only [isIn, List.any_eq_true]
  constructor
  · rintro ⟨value, found, same⟩
    obtain ⟨s, rfl⟩ := strings value found
    rwa [(same_string v s).1 same]
  · intro found
    obtain ⟨s, rfl⟩ := strings v found
    exact ⟨string s, found, (string_same s _).2 rfl⟩

/-- A value equals one of some names only if it is one of them. -/
theorem isIn_iff_mem {v : Value Code} {names : List (Value Code)}
    (h : ∀ name ∈ names, name.isValidName = true) : v.isIn names = true ↔ v ∈ names :=
  isIn_iff_mem_of_strings fun name hn ↦ eq_string_of_isValidName (h name hn)

/-- An optional value that is not missing is that value. -/
theorem eq_of_toOption_eq_some {v w : Value Code} (h : v.toOption = some w) : v = w := by
  cases v with
  | missing => cases h
  | bool | int | double | string | list | tuple | mapping | pattern | callable | builder | rule
  | grammar | references => exact Option.some.inj h

/-- An optional value that there is none of is missing. -/
theorem eq_missing_of_toOption_eq_none {v : Value Code} (h : v.toOption = none) : v = missing := by
  cases v with
  | missing => rfl
  | bool | int | double | string | list | tuple | mapping | pattern | callable | builder | rule
  | grammar | references => cases h

end Value

namespace Table

/-- A table has a key if an equal one is among its keys. -/
theorem has_eq_isIn (table : Table Code β) (key : Value Code) :
    table.has key = key.isIn table.keys := by
  simp [has, Value.isIn, keys, Function.comp_def]

/-- What belongs to a key is that of the first entry with it. -/
theorem find?_cons (key : Value Code) (entry : Value Code × β) (rest : Table Code β) :
    find? (entry :: rest) key = if key.same entry.1 then some entry.2 else find? rest key := by
  unfold find?
  rw [List.find?_cons]
  cases key.same entry.1 <;> rfl

/-- A key is found if and only if the table has it. -/
theorem isSome_find? (table : Table Code β) (key : Value Code) :
    (table.find? key).isSome = table.has key := by
  rw [find?, Option.isSome_map, has, List.isSome_find?]

/-- Whether a table has a string is a matter of membership. -/
theorem has_string (table : Table Code β) (s : String) :
    table.has (.string s) = true ↔ .string s ∈ table.keys := by
  rw [has_eq_isIn, Value.string_isIn]

/-- Whether a table has what has the form of a name is a matter of membership. -/
theorem has_validName (table : Table Code β) {name : Value Code} (h : name.isValidName = true) :
    table.has name = true ↔ name ∈ table.keys := by
  obtain ⟨s, rfl⟩ := Value.eq_string_of_isValidName h
  exact has_string table s

/-- A key that a table has not got is put at the end. -/
theorem insert_eq_append (table : Table Code β) (key : Value Code) (b : β)
    (h : table.has key = false) : table.insert key b = table ++ [(key, b)] := by
  induction table with
  | nil => rfl
  | cons entry rest ih =>
    simp only [has, List.any_cons, Bool.or_eq_false_iff] at h
    rw [insert, if_neg (by simp [h.1]), ih h.2, List.cons_append]

/-- What is inserted is in the table, and all else that is in it has been there. -/
theorem mem_insert {table : Table Code β} {key : Value Code} {b : β} {entry : Value Code × β}
    (h : entry ∈ table.insert key b) : entry ∈ table ∨ entry.2 = b := by
  induction table with
  | nil => exact .inr (List.mem_singleton.1 h ▸ rfl)
  | cons first rest ih =>
    rw [insert] at h
    split at h
    · rcases List.mem_cons.1 h with rfl | later
      · exact .inr rfl
      · exact .inl (List.mem_cons_of_mem first later)
    · rcases List.mem_cons.1 h with rfl | later
      · exact .inl List.mem_cons_self
      · exact (ih later).imp_left (List.mem_cons_of_mem first)

/-- In a table of names, each of them once, what belongs to a name is found by it. -/
theorem find?_of_mem {table : Table Code β} (valid : ∀ name ∈ table.keys, name.isValidName = true)
    (nodup : table.keys.Nodup) {name : Value Code} {b : β} (h : (name, b) ∈ table) :
    table.find? name = some b := by
  obtain ⟨s, rfl⟩ := Value.eq_string_of_isValidName (valid name (List.mem_map_of_mem h))
  induction table with
  | nil => cases h
  | cons entry rest ih =>
    rw [keys, List.map_cons, List.nodup_cons] at nodup
    rcases List.mem_cons.1 h with rfl | later
    · simp [find?, Value.string_same]
    · have other : (Value.string s).same entry.1 = false := by
        rw [← Bool.not_eq_true, Value.string_same]
        intro eq
        exact nodup.1 (eq ▸ List.mem_map_of_mem later)
      have more := ih (fun name hn ↦ valid name (List.mem_cons_of_mem _ hn)) nodup.2 later
      simpa [find?, other] using more

/-- The keys after one is set are those from before and that one. -/
theorem mem_keys_insert (table : Table Code β) {key : Value Code} (b : β)
    (h : key.isValidName = true) (other : Value Code) :
    other ∈ (table.insert key b).keys ↔ other ∈ table.keys ∨ other = key := by
  obtain ⟨s, rfl⟩ := Value.eq_string_of_isValidName h
  induction table with
  | nil => simp [insert, keys]
  | cons entry rest ih =>
    rw [insert]
    split
    · next same =>
      have eq : entry.1 = .string s := (Value.string_same s _).1 same
      simp only [keys, List.map_cons, List.mem_cons, eq]
      tauto
    · simp only [keys, List.map_cons, List.mem_cons] at ih ⊢
      rw [ih]
      tauto

/-- What belongs to a key in the first of two tables comes before what does in the second. -/
theorem find?_append (table others : Table Code β) (key : Value Code) :
    find? (table ++ others) key = (table.find? key).or (others.find? key) := by
  rw [find?, List.find?_append, Option.map_or]
  rfl

/-- The same belongs to every key in two tables. -/
def Agrees (table others : Table Code β) : Prop := ∀ key, table.find? key = others.find? key

/-- Two tables with the same for every key have the same keys. -/
theorem Agrees.has_eq {table others : Table Code β} (agrees : table.Agrees others)
    (key : Value Code) : table.has key = others.has key := by
  rw [← isSome_find?, ← isSome_find?, agrees key]

/-- Of keys with the same tag, each has that tag. -/
theorem find?_tagged (names : List (Value Code)) (b : β) (key : Value Code) :
    find? (names.map fun name ↦ (name, b)) key = if key.isIn names then some b else none := by
  induction names with
  | nil => rfl
  | cons name rest ih =>
    rw [Value.isIn, List.any_cons]
    cases same : key.same name with
    | true => simp [find?, same]
    | false => simpa [find?, same, Value.isIn] using ih

/-- In which order keys with the same tag come does not count. -/
theorem agrees_of_perm {names others : List (Value Code)} (perm : names.Perm others) (b : β) :
    Agrees (names.map fun name ↦ (name, b)) (others.map fun name ↦ (name, b)) := by
  intro key
  have same : key.isIn names = key.isIn others := perm.any_eq
  rw [find?_tagged, find?_tagged, same]

end Table

/-! ### Names that rules refer to -/

namespace Rule

/-- The name of a symbol, if a rule is one. -/
def symbolName? {α : Type} : Rule α → Option α
  | symbol name => some name
  | _ => none

mutual

/-- The names that a rule refers to, wherever it does, in order. -/
def mentions {α : Type} : Rule α → List α
  | symbol name => [name]
  | group _ members => mentionsOfAll members
  | wrap _ content | prec _ _ content | field _ content | aliased content _ _ => mentions content
  | bare _ | string _ | pattern _ | blank => []

/-- The names that some rules refer to. -/
def mentionsOfAll {α : Type} : List (Rule α) → List α
  | [] => []
  | r :: rest => mentions r ++ mentionsOfAll rest

end

end Rule

/-- The names that a value refers to, if it is a rule. -/
def Value.mentions : Value Code → List (Value Code)
  | .rule r => r.mentions
  | _ => []

namespace Rule

mutual

/-- The symbols of a rule are the names it refers to, each of them added unless it is there. -/
theorem addSymbols_eq_foldl (found : List (Value Code)) :
    ∀ r : Rule (Value Code), addSymbols found r = r.mentions.foldl addName found
  | bare _ | string _ | pattern _ | blank | symbol _ => by simp [addSymbols, mentions]
  | group _ members => by
    rw [addSymbols, mentions, addSymbolsOfAll_eq_foldl found members]
  | wrap _ content | prec _ _ content | field _ content | aliased content _ _ => by
    rw [addSymbols, mentions, addSymbols_eq_foldl found content]

/-- The symbols of some rules are added one rule after another. -/
theorem addSymbolsOfAll_eq_foldl (found : List (Value Code)) :
    ∀ rules : List (Rule (Value Code)),
      addSymbolsOfAll found rules = (mentionsOfAll rules).foldl addName found
  | [] => by simp [addSymbolsOfAll, mentionsOfAll]
  | r :: rest => by
    rw [addSymbolsOfAll, mentionsOfAll, List.foldl_append, addSymbols_eq_foldl found r,
      addSymbolsOfAll_eq_foldl _ rest]

end

/-- Adding names keeps the names that are there. -/
theorem mem_foldl_addName {found names : List (Value Code)} {name : Value Code}
    (h : name ∈ found) : name ∈ names.foldl addName found := by
  induction names generalizing found with
  | nil => exact h
  | cons first rest ih =>
    refine ih ?_
    unfold addName
    split
    · exact h
    · exact List.mem_append_left _ h

/-- A name that is there after some are added was there before or is one of those. -/
theorem mem_of_mem_foldl_addName {found names : List (Value Code)} {name : Value Code}
    (h : name ∈ names.foldl addName found) : name ∈ found ∨ name ∈ names := by
  induction names generalizing found with
  | nil => exact .inl h
  | cons first rest ih =>
    rcases ih h with old | new
    · unfold addName at old
      split at old
      · exact .inl old
      · rcases List.mem_append.1 old with old | new
        · exact .inl old
        · exact .inr (List.mem_cons.2 (.inl (List.mem_singleton.1 new)))
    · exact .inr (List.mem_cons_of_mem _ new)

/-- After some names are added each of them is there, or one that equals it. -/
theorem exists_mem_foldl_addName {found names : List (Value Code)} {name : Value Code}
    (h : name ∈ names) :
    ∃ other ∈ names.foldl addName found, name = other ∨ name.same other = true := by
  induction names generalizing found with
  | nil => cases h
  | cons first rest ih =>
    rcases List.mem_cons.1 h with rfl | later
    · cases there : name.isIn found with
      | false =>
        refine ⟨name, ?_, .inl rfl⟩
        rw [List.foldl_cons, addName, there]
        exact mem_foldl_addName (List.mem_append_right _ (List.mem_singleton.2 rfl))
      | true =>
        -- The equal name that was there is kept instead.
        obtain ⟨other, old, same⟩ := List.any_eq_true.1 there
        refine ⟨other, ?_, .inr same⟩
        rw [List.foldl_cons, addName, there]
        exact mem_foldl_addName old
    · exact ih later

/-- Of strings that are added, each is there once. -/
theorem mem_and_nodup_foldl_addName {names : List (Value Code)}
    (strings : ∀ name ∈ names, ∃ s, name = .string s) :
    (names.foldl addName []).Nodup ∧ ∀ name, name ∈ names.foldl addName [] ↔ name ∈ names := by
  constructor
  · induction names using List.reverseRecOn with
    | nil => exact List.nodup_nil
    | append_singleton rest name ih =>
      rw [List.foldl_append, List.foldl_cons, List.foldl_nil, addName]
      have before := ih fun name hn ↦ strings name (List.mem_append_left _ hn)
      obtain ⟨s, rfl⟩ := strings name (by simp)
      split
      · exact before
      · next new =>
        rw [Value.string_isIn] at new
        exact List.nodup_append.2 ⟨before, List.nodup_singleton _, fun old ho name hn eq ↦
          new (List.mem_singleton.1 hn ▸ eq ▸ ho)⟩
  · refine fun name ↦ ⟨fun found ↦ (mem_of_mem_foldl_addName found).resolve_left
      List.not_mem_nil, fun hn ↦ ?_⟩
    obtain ⟨other, found, eq | same⟩ := exists_mem_foldl_addName hn
    · exact eq ▸ found
    · obtain ⟨s, rfl⟩ := strings name hn
      exact (Value.string_same s other).1 same ▸ found

/-- Strings of which none is there twice are all added. -/
theorem foldl_addName_of_nodup {found names : List (Value Code)}
    (strings : ∀ name ∈ names, ∃ s, name = .string s) (nodup : (found ++ names).Nodup) :
    names.foldl addName found = found ++ names := by
  induction names generalizing found with
  | nil => exact (List.append_nil found).symm
  | cons name rest ih =>
    obtain ⟨s, rfl⟩ := strings name List.mem_cons_self
    have new : ¬ (Value.string s).isIn found = true := by
      intro old
      rw [Value.string_isIn] at old
      exact (List.nodup_append.1 nodup).2.2 _ old _ List.mem_cons_self rfl
    rw [List.append_cons] at nodup ⊢
    rw [List.foldl_cons, addName, if_neg new]
    exact ih (fun other ho ↦ strings other (List.mem_cons_of_mem _ ho)) nodup

/-- The names that some rules refer to are those that each of them refers to. -/
theorem mem_mentionsOfAll {rules : List (Rule (Value Code))} {name : Value Code} :
    name ∈ mentionsOfAll rules ↔
      ∃ body ∈ rules.map Value.rule, name ∈ Value.mentions body := by
  induction rules with
  | nil => simp [mentionsOfAll]
  | cons r rest ih => simp [mentionsOfAll, ih, Value.mentions]

/-- All names that some rules refer to are names of a namespace if their symbols are. -/
theorem mem_of_symbols {names mentioned : List (Value Code)} {name : Value Code}
    (valid : ∀ other ∈ names, other.isValidName = true)
    (h : ∀ other ∈ mentioned.foldl addName [], other ∈ names) (hn : name ∈ mentioned) :
    name ∈ names := by
  obtain ⟨other, found, eq | same⟩ := exists_mem_foldl_addName hn
  · rw [eq]
    exact h other found
  · obtain ⟨s, rfl⟩ := Value.eq_string_of_isValidName (valid other (h other found))
    rw [(Value.same_string name s).1 same]
    exact h _ found

end Rule

end GrammarDoc
