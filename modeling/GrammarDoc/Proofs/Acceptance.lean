import GrammarDoc.Proofs.Assembly
import GrammarDoc.Proofs.Postures

/-!
# Acceptance

Which descriptions of a grammar without a base are accepted without a problem. What a description
contains is found by calling its functions in the order of the sections; whether that is accepted
is then a matter of the contents alone.
-/

namespace GrammarDoc

open Build (Yields)

variable {Code : Type}

/-- Whether a value is missing or an array of certain items. -/
def Value.IsArrayOf (Item : Value Code → Prop) (v : Value Code) : Prop :=
  v = .missing ∨ ∃ items, v.array? = some items ∧ ∀ item ∈ items, Item item

/-- What a description contains, after its functions have been called. -/
structure Contents (Code : Type) where
  name : Value Code
  externals : Value Code
  /-- The mapping from names to the functions of rules. -/
  rules : Value Code
  /-- What the functions of the rules have returned, with the names of the rules. -/
  returned : List (Value Code × Value Code)
  /-- The rules that those stand for, as they are after all those functions have been called. -/
  bodies : List (Value Code)
  extras : Value Code
  inline : Value Code
  conflicts : Value Code
  word : Value Code
  supertypes : Value Code
  precedences : Value Code

namespace Contents

/-- The entries of the rules. -/
def entries (c : Contents Code) : List (Value Code × Value Code) := c.rules.object?.getD []

/-- The names that are declared: first by the externals, then by the rules. -/
def declared (c : Contents Code) : List (Value Code) :=
  Externals.names c.externals ++ Table.keys c.entries

/-- Whether a value gives a declared name. -/
def Names (c : Contents Code) (entry : Value Code) : Prop := entry.nameOf ∈ c.declared

/-- Whether the contents are those of a proper description, under a policy on extras. -/
structure Accepted (references : Bool) (c : Contents Code) : Prop where
  name : c.name.isValidName = true
  /-- In a list, symbols have proper names. In a mapping, the keys are proper names, and a symbol
  has the name that is its key. -/
  externals : c.externals = .missing ∨
    (∃ items, c.externals.array? = some items ∧ ∀ raw ∈ items, ∃ r, Externals.ItemGives raw r) ∨
    ∃ entries, c.externals.object? = some entries ∧
      ∀ entry ∈ entries, ∃ r, Externals.EntryGives entry r
  /-- No name is declared twice. -/
  distinct : c.declared.Nodup
  /-- The rules are a mapping that is not empty, from proper names to functions. -/
  rules : ∃ entry rest, c.rules.object? = some (entry :: rest) ∧
    ∀ entry ∈ c.entries, entry.1.isValidName = true ∧ ∃ f, entry.2.callable? = some f
  /-- What they return stands for a rule. -/
  returned : ∀ entry ∈ c.returned, ∃ r, entry.2.toRule = .ok r
  /-- All names that rules refer to are declared. -/
  resolved : ∀ body ∈ c.bodies, ∀ name ∈ body.mentions, name ∈ c.declared
  /-- All names that extras refer to are declared if they may be, and otherwise no extra is a
  symbol or an alias of a declared name. -/
  extras : c.extras.IsArrayOf fun raw ↦ ∃ r, raw.toRule = .ok r ∧
    if references then ∀ name ∈ r.mentions, name ∈ c.declared
    else ∀ name, r.referencedName? = some name → name ∉ c.declared
  inline : c.inline.IsArrayOf c.Names
  conflicts : c.conflicts.IsArrayOf fun group ↦
    ∃ items, group.array? = some items ∧ 2 ≤ items.length ∧ ∀ item ∈ items, c.Names item
  word : c.word = .missing ∨ c.Names c.word
  supertypes : c.supertypes.IsArrayOf fun entry ↦ Names.isAlias entry = false ∧ c.Names entry
  precedences : c.precedences.IsArrayOf fun group ↦
    ∃ items, group.array? = some items ∧ ∀ raw ∈ items, (∃ v, raw.toRule = .ok (.string v)) ∨
      ∃ name, raw.toRule = .ok (.symbol name) ∧ name ∈ c.declared

end Contents

/-- The entries of a description as it is at present. -/
def Exec.given (description : Value Code) : Exec Code (Table Code (Value Code)) :=
  return Description.given description (← get)

/-- After the entries of a description have been looked up, the store is as before. -/
theorem Exec.returns_given_bind {α : Type} {before after : Store Code} (description : Value Code)
    (next : Table Code (Value Code) → Exec Code α) (a : α) :
    Returns (given description >>= next) before a after ↔
      Returns (next (Description.given description before)) before a after := by
  have start_given : start (given description) before =
      (.ok (Description.given description before), before) := rfl
  rw [Returns, Returns, start_bind, start_given]

namespace Setting

variable (setting : Setting Code)

/-- What an entry of the rules returns, with its name. -/
def returned (entry : Value Code × Value Code) : Exec Code (Value Code × Value Code) :=
  match entry.2.callable? with
  | none => return entry
  | some f => Rules.returned setting [] (entry.1, f)

/-- The contents of a description, which are found by calling its functions in order. What is given
for a section is looked up when its turn comes. -/
def contents (description : Value Code) : Exec Code (Contents Code) := do
  let given := Exec.given description
  let name ← Exec.present (Description.get (← given) .name)
  let externals ← setting.standing .externals (Description.get (← given) .externals)
  let rules ← Exec.present (setting.givenRules (← given))
  let returned ← (rules.object?.getD []).mapM setting.returned
  let bodies ← (returned.filterMap fun entry ↦ entry.2.toRule.toOption).mapM fun r ↦
    Exec.present (.rule r)
  let extras ← setting.standing .extras (Description.get (← given) .extras)
  let inline ← setting.standing .inline (Description.get (← given) .inline)
  let conflicts ← setting.standing .conflicts (Description.get (← given) .conflicts)
  let declared := Externals.names externals ++ Table.keys (rules.object?.getD [])
  let word ← setting.wordStanding declared (Description.get (← given) .word)
  let supertypes ← setting.standing .supertypes (Description.get (← given) .supertypes)
  let precedences ← setting.standing .precedences (Description.get (← given) .precedences)
  return { name, externals, rules, returned, bodies, extras, inline, conflicts, word, supertypes,
           precedences }

end Setting

/-! ### What the sections accept -/

/-- An array is accepted if each of its items is. -/
theorem exists_arrayGives_iff {β : Type} {fallback : List β} {Gives : Value Code → β → Prop}
    {v : Value Code} :
    (∃ results, ArrayGives fallback Gives v results) ↔ v.IsArrayOf fun raw ↦ ∃ b, Gives raw b := by
  simp only [ArrayGives, Value.IsArrayOf, ← exists_forall₂_iff]
  constructor
  · rintro ⟨results, ⟨rfl, -⟩ | ⟨items, array, gives⟩⟩
    · exact .inl rfl
    · exact .inr ⟨items, array, results, gives⟩
  · rintro (rfl | ⟨items, array, results, gives⟩)
    · exact ⟨fallback, .inl ⟨rfl, rfl⟩⟩
    · exact ⟨results, .inr ⟨items, array, gives⟩⟩

section

variable {names : Namespace Code} (valid : ∀ name ∈ names.keys, name.isValidName = true)

include valid

private theorem has_iff_mem (name : Value Code) :
    name.canBeKey = true ∧ names.has name = true ↔ name ∈ names.keys := by
  rw [Table.has_eq_isIn, Value.isIn_iff_mem valid]
  exact ⟨fun h ↦ h.2, fun h ↦ ⟨Value.canBeKey_of_isValidName (valid name h), h⟩⟩

/-- All names that some rules refer to are declared if their symbols are. -/
theorem symbols_iff_mentions (mentioned : List (Value Code)) :
    (∀ name ∈ mentioned.foldl Rule.addName [], name.canBeKey = true ∧ names.has name = true) ↔
      ∀ name ∈ mentioned, name ∈ names.keys := by
  simp only [has_iff_mem valid]
  constructor
  · intro h name mem
    exact Rule.mem_of_symbols valid h mem
  · intro h name mem
    exact h name ((Rule.mem_of_mem_foldl_addName mem).resolve_left List.not_mem_nil)

/-- An entry gives a declared name. -/
theorem Names.exists_entryGives_iff (entry : Value Code) :
    (∃ name, EntryGives names entry name) ↔ entry.nameOf ∈ names.keys := by
  constructor
  · rintro ⟨_, rfl, -, declared⟩
    exact declared
  · intro declared
    exact ⟨entry.nameOf, rfl, valid _ declared, declared⟩

private theorem Names.exists_conflictGives_iff (group : Value Code) :
    (∃ result, ConflictGives names group result) ↔
      ∃ items, group.array? = some items ∧ 2 ≤ items.length ∧
        ∀ item ∈ items, item.nameOf ∈ names.keys := by
  simp only [← exists_entryGives_iff valid, ← exists_forall₂_iff]
  constructor
  · rintro ⟨result, items, array, gives, enough⟩
    exact ⟨items, array, gives.length_eq ▸ enough, result, gives⟩
  · rintro ⟨items, array, enough, result, gives⟩
    exact ⟨result, items, array, gives, gives.length_eq ▸ enough⟩

private theorem Names.exists_supertypeGives_iff (entry : Value Code) :
    (∃ name, SupertypeGives names entry name) ↔
      isAlias entry = false ∧ entry.nameOf ∈ names.keys := by
  simp only [SupertypeGives, exists_and_left, exists_entryGives_iff valid]

private theorem Names.exists_wordGives_iff (v : Value Code) :
    (∃ word, WordGives names v word) ↔ v = .missing ∨ v.nameOf ∈ names.keys := by
  simp only [WordGives, exists_or, exists_and_left, exists_entryGives_iff valid]
  simp

private theorem Precedences.exists_groupGives_iff (group : Value Code) :
    (∃ rules, GroupGives names group rules) ↔
      ∃ items, group.array? = some items ∧ ∀ raw ∈ items, (∃ v, raw.toRule = .ok (.string v)) ∨
        ∃ name, raw.toRule = .ok (.symbol name) ∧ name ∈ names.keys := by
  have item (raw : Value Code) : (∃ r, ItemGives names raw r) ↔
      (∃ v, raw.toRule = .ok (.string v)) ∨
        ∃ name, raw.toRule = .ok (.symbol name) ∧ name ∈ names.keys := by
    simp only [ItemGives, has_iff_mem valid]
    constructor
    · rintro ⟨_, rule, ⟨v, rfl⟩ | ⟨name, rfl, declared⟩⟩
      · exact .inl ⟨v, rule⟩
      · exact .inr ⟨name, rule, declared⟩
    · rintro (⟨v, rule⟩ | ⟨name, rule, declared⟩)
      · exact ⟨_, rule, .inl ⟨v, rfl⟩⟩
      · exact ⟨_, rule, .inr ⟨name, rfl, declared⟩⟩
  simp only [← item, ← exists_forall₂_iff]
  constructor
  · rintro ⟨rules, items, array, gives⟩
    exact ⟨items, array, rules, gives⟩
  · rintro ⟨items, array, rules, gives⟩
    exact ⟨rules, items, array, gives⟩

private theorem Extras.accepts_of_itemGives {references : Bool} {raw : Value Code}
    {r : Rule (Value Code)} (h : ItemGives references names raw r) :
    raw.toRule = .ok r ∧ if references then ∀ name ∈ r.mentions, name ∈ names.keys
      else ∀ name, r.referencedName? = some name → name ∉ names.keys := by
  refine ⟨h.1, ?_⟩
  have h := h.2
  cases references with
  | true =>
    rw [if_pos rfl, Rule.symbols, Rule.addSymbols_eq_foldl, symbols_iff_mentions valid] at h
    exact h
  | false =>
    rw [if_neg Bool.false_ne_true] at h
    rw [if_neg Bool.false_ne_true]
    intro name refers declared
    obtain ⟨s, rfl⟩ := Value.eq_string_of_isValidName (valid name declared)
    have absent := (h (.string s) (by rw [refers]; rfl)).2
    rw [(Table.has_string names s).2 declared] at absent
    cases absent

end

/-- Extras that are accepted report nothing, although a name may turn out not to be one. -/
theorem Extras.unreported_validate {references : Bool} {before : Journal Code} {v : Value Code}
    (valid : ∀ name ∈ before.names.keys, name.isValidName = true)
    (h : v.IsArrayOf fun raw ↦ ∃ r, raw.toRule = .ok r ∧
      if references then ∀ name ∈ r.mentions, name ∈ before.names.keys
      else ∀ name, r.referencedName? = some name → name ∉ before.names.keys) :
    Build.Unreported (validate references v) before := by
  have item (raw : Value Code) (r : Rule (Value Code)) (rule : raw.toRule = .ok r)
      (accepted : if references then ∀ name ∈ r.mentions, name ∈ before.names.keys
        else ∀ name, r.referencedName? = some name → name ∉ before.names.keys) :
      Build.Unreported (fromItem references raw) before := by
    cases references with
    | true =>
      have declared := (symbols_iff_mentions valid r.mentions).2 accepted
      rw [← Rule.addSymbols_eq_foldl] at declared
      exact ((yields_fromItem true raw (some r)).2 ⟨r, rfl, ⟨rule, declared⟩, rfl⟩).unreported
    | false =>
      have normal : Yields .failFast (Build.normalize "extras" raw) before (some r) before :=
        (Build.yields_normalize_failFast "extras" raw (some r)).2 ⟨r, rule, rfl, rfl⟩
      refine normal.unreported_bind ?_
      refine Build.Unreported.bind ?_ fun _ _ _ ↦ Build.unreported_pure (some r)
      unfold checkNames
      rw [if_neg Bool.false_ne_true]
      cases refers : r.referencedName?.bind Value.toOption with
      | none => exact Build.unreported_pure ()
      | some name =>
        obtain ⟨_, named, toOption⟩ := Option.bind_eq_some_iff.1 refers
        rw [Value.eq_of_toOption_eq_some toOption] at named
        refine (Build.unreported_requireNotDeclared "extras" none name ?_).discard
        rw [Table.has_eq_isIn, ← Bool.not_eq_true, Value.isIn_iff_mem valid]
        exact accepted name named
  have items (raws : List (Value Code)) (accepted : ∀ raw ∈ raws, ∃ r, raw.toRule = .ok r ∧
      if references then ∀ name ∈ r.mentions, name ∈ before.names.keys
      else ∀ name, r.referencedName? = some name → name ∉ before.names.keys) :
      Build.Unreported (Build.filterMap (fromItem references) raws) before := by
    refine Build.unreported_filterMap (fun raw mem ↦ ?_) fun raw _ result between yields ↦ ?_
    · obtain ⟨r, rule, names⟩ := accepted raw mem
      exact item raw r rule names
    · obtain ⟨_, _, _, same⟩ := (yields_fromItem references raw result).1 yields
      exact same
  rcases h with rfl | ⟨raws, array, accepted⟩
  · exact ((yields_validate references _ _).2 ⟨.inl ⟨rfl, rfl⟩, rfl⟩).unreported
  · cases v with
    | list | tuple =>
      cases array
      exact items _ accepted
    | missing | bool | int | double | string | mapping | pattern | callable | builder | rule
    | grammar | references => cases array

namespace Externals

/-- Externals are accepted in either form. -/
theorem exists_gives_iff (v : Value Code) :
    (∃ rules, Gives v rules) ↔ v = .missing ∨
      (∃ items, v.array? = some items ∧ ∀ raw ∈ items, ∃ r, ItemGives raw r) ∨
      ∃ entries, v.object? = some entries ∧ ∀ entry ∈ entries, ∃ r, EntryGives entry r := by
  simp only [Gives, ← exists_forall₂_iff]
  constructor
  · rintro ⟨rules, ⟨rfl, -⟩ | ⟨items, array, gives⟩ | ⟨entries, object, gives⟩⟩
    · exact .inl rfl
    · exact .inr (.inl ⟨items, array, rules, gives⟩)
    · exact .inr (.inr ⟨entries, object, rules, gives⟩)
  · rintro (rfl | ⟨items, array, rules, gives⟩ | ⟨entries, object, rules, gives⟩)
    · exact ⟨[], .inl ⟨rfl, rfl⟩⟩
    · exact ⟨rules, .inr (.inl ⟨items, array, gives⟩)⟩
    · exact ⟨rules, .inr (.inr ⟨entries, object, gives⟩)⟩

end Externals

namespace Rules

private theorem mapM_returned (setting : Setting Code) {entries : List (Value Code × Value Code)}
    {functions : List (Value Code × Callable (Value Code) Code)}
    (h : List.Forall₂ EntryGives entries functions) :
    functions.mapM (returned setting []) = entries.mapM setting.returned := by
  induction h with
  | nil => rfl
  | @cons entry function entries functions first _ ih =>
    obtain ⟨-, callable, named⟩ := first
    have same : returned setting [] function = setting.returned entry := by
      rw [Setting.returned, callable, ← named]
    rw [List.mapM_cons, List.mapM_cons, ih, same]

/-- New rules come in the order of their definition. -/
theorem merged_eq_append {inherited : Definitions Code}
    {defined : List (Value Code × Rule (Value Code))}
    (valid : ∀ entry ∈ defined, entry.1.isValidName = true)
    (distinct : (inherited.keys ++ defined.map (·.1)).Nodup) :
    merged inherited defined = inherited ++ defined.map fun entry ↦ (entry.1, .rule entry.2) := by
  induction defined generalizing inherited with
  | nil => simp [merged]
  | cons entry rest ih =>
    rw [List.map_cons, List.append_cons] at distinct
    have absent : inherited.has entry.1 = false := by
      rw [← Bool.not_eq_true, Table.has_validName inherited (valid entry List.mem_cons_self)]
      have first := (List.nodup_append.1 (List.nodup_append.1 distinct).1).2.2
      exact fun old ↦ first entry.1 old entry.1 (List.mem_singleton.2 rfl) rfl
    have inserted : inherited.insert entry.1 (.rule entry.2) =
        inherited ++ [(entry.1, .rule entry.2)] := Table.insert_eq_append inherited _ _ absent
    have step : merged inherited (entry :: rest) =
        merged (inherited.insert entry.1 (.rule entry.2)) rest := rfl
    rw [step, inserted, ih (fun other mem ↦ valid other (List.mem_cons_of_mem entry mem))]
    · simp
    · simpa [Table.keys] using distinct

/-- The rules that what functions have returned stands for, as they are at present. -/
def bodies (store : Store Code) (returned : List (Value Code × Value Code)) :
    List (Value Code) :=
  (returned.filterMap fun entry ↦ entry.2.toRule.toOption).map fun r ↦ store.present (.rule r)

private theorem bodies_of_resultGives {returned : List (Value Code × Value Code)}
    {defined : List (Value Code × Rule (Value Code))} (store : Store Code)
    (h : List.Forall₂ ResultGives returned defined) :
    bodies store returned = defined.map fun entry ↦ store.present (.rule entry.2) := by
  unfold bodies
  induction h with
  | nil => rfl
  | cons first _ ih =>
    rw [List.map_cons, ← ih, List.filterMap_cons, first.1, Except.toOption, List.map_cons]

private theorem keys_returned {setting : Setting Code}
    {entries returned : List (Value Code × Value Code)} {before after : Store Code}
    (h : (entries.mapM setting.returned).Returns before returned after) :
    Table.keys returned = Table.keys entries := by
  induction entries generalizing before returned with
  | nil =>
    obtain ⟨rfl, -⟩ := (Exec.returns_pure _ _).1 h
    rfl
  | cons entry rest ih =>
    obtain ⟨first, between, others, called, more, rfl⟩ := (Exec.returns_mapM_cons _ _ _ _).1 h
    have same : first.1 = entry.1 := by
      unfold Setting.returned Rules.returned at called
      cases function : entry.2.callable? with
      | none =>
        rw [function] at called
        rw [((Exec.returns_pure _ _).1 called).1]
      | some f =>
        simp only [function, Exec.returns_bind, Exec.returns_pure] at called
        obtain ⟨_, _, _, _, _, _, rfl, _⟩ := called
        rfl
    rw [Table.keys, List.map_cons, same]
    exact congrArg _ (ih more)

private theorem exists_map_present (store : Store Code)
    (defined : List (Value Code × Rule (Value Code))) :
    ∃ present : List (Rule (Value Code)),
      (defined.map fun entry ↦ store.present (.rule entry.2)) = present.map .rule := by
  induction defined with
  | nil => exact ⟨[], rfl⟩
  | cons entry rest ih =>
    obtain ⟨first, eq⟩ := store.exists_present_rule entry.2
    obtain ⟨present, rest⟩ := ih
    exact ⟨first :: present, by rw [List.map_cons, List.map_cons, eq, rest]⟩

private theorem yields_resolve_defined {before after : Journal Code}
    (valid : ∀ name ∈ before.names.keys, name.isValidName = true)
    (defined : List (Value Code × Rule (Value Code))) (u : Unit) :
    Yields .failFast (resolve (defined.map fun entry ↦ (entry.1, .rule entry.2))) before u after ↔
      (∀ body ∈ defined.map fun entry ↦ before.store.present (.rule entry.2),
        ∀ name ∈ body.mentions, name ∈ before.names.keys) ∧ after = before := by
  rw [yields_resolve, List.map_map]
  refine and_congr_left fun _ ↦ ?_
  obtain ⟨present, eq⟩ := exists_map_present before.store defined
  have eq' : (defined.map ((fun entry ↦ before.store.present entry.2) ∘
      fun entry ↦ (entry.1, Value.rule entry.2))) = present.map .rule := eq
  rw [eq', eq]
  constructor
  · rintro ⟨rules, same, declared⟩ body mem name mentioned
    rw [same] at mem
    exact (symbols_iff_mentions valid _).1 declared name
      (Rule.mem_mentionsOfAll.2 ⟨body, mem, mentioned⟩)
  · intro declared
    refine ⟨present, rfl, (symbols_iff_mentions valid _).2 fun name mem ↦ ?_⟩
    obtain ⟨body, mem, mentioned⟩ := Rule.mem_mentionsOfAll.1 mem
    exact declared body mem name mentioned

section

variable {setting : Setting Code} {given returned : List (Value Code × Value Code)}
  {defined : List (Value Code × Rule (Value Code))} {start store : Store Code}
  (validNames : ∀ name ∈ Table.keys given, name.isValidName = true)
  (nodup : (Table.keys given).Nodup)
  (called : (given.mapM setting.returned).Returns start returned store)
  (results : List.Forall₂ ResultGives returned defined)

include validNames nodup called results

private theorem merged_eq_map :
    merged [] defined = defined.map fun entry ↦ (entry.1, .rule entry.2) := by
  have names : defined.map (·.1) = Table.keys given :=
    (names_of_resultGives results).trans (keys_returned called)
  refine (merged_eq_append (fun entry mem ↦ validNames entry.1 ?_) ?_).trans (List.nil_append _)
  · rw [← names]
    exact List.mem_map_of_mem mem
  · rw [names]
    exact nodup

private theorem isEmpty_merged : (merged [] defined).isEmpty = given.isEmpty := by
  have length : defined.length = given.length := by
    have names := (names_of_resultGives results).trans (keys_returned called)
    have := congrArg List.length names
    rwa [List.length_map, Table.keys, List.length_map] at this
  rw [merged_eq_map validNames nodup called results, List.isEmpty_map]
  cases defined with
  | nil => rw [List.length_eq_zero_iff.1 length.symm]; rfl
  | cons _ _ => cases given with
    | nil => cases length
    | cons _ _ => rfl

private theorem yields_resolve_merged {before after : Journal Code}
    (valid : ∀ name ∈ before.names.keys, name.isValidName = true) (u : Unit) :
    Yields .failFast (resolve (merged [] defined))
        { before.declaring "rule" (Table.keys given) with store } u after ↔
      (∀ body ∈ bodies store returned, ∀ name ∈ body.mentions,
        name ∈ before.names.keys ++ Table.keys given) ∧
        after = { before with store }.declaring "rule" (Table.keys given) := by
  have keys : Table.keys (before.declaring "rule" (Table.keys given)).names =
      before.names.keys ++ Table.keys given := Journal.keys_declaring _ _ _
  rw [merged_eq_map validNames nodup called results, yields_resolve_defined ?_, keys,
    bodies_of_resultGives store results]
  · rfl
  · intro name mem
    rw [keys] at mem
    exact (List.mem_append.1 mem).elim (valid name) (validNames name)

end

end Rules

namespace Setting

private theorem isValidName_of_declared {externals : List (Value Code)}
    {given : List (Value Code × Value Code)} (old : ∀ name ∈ externals, name.isValidName = true)
    (new : ∀ entry ∈ given, entry.1.isValidName = true ∧ ∃ f, entry.2.callable? = some f) :
    ∀ name ∈ externals ++ Table.keys given, name.isValidName = true := by
  intro name mem
  rcases List.mem_append.1 mem with external | rule
  · exact old name external
  · obtain ⟨entry, given, rfl⟩ := List.mem_map.1 rule
    exact (new entry given).1

variable {setting : Setting Code} {entries : Table Code (Value Code)} {before after : Journal Code}
  {names : List (Value Code)} {s : Store Code} (base : setting.hasBase = false)

include base

/-- A section that uses the names that are declared, and changes nothing. -/
theorem exists_yields_part {part : Section}
    {validate : Value Code → Build Code (List (Value Code))} {Accepts : Value Code → Prop}
    (h : ∀ w (between next : Journal Code), between.names = before.names →
      ((∃ results, Yields .failFast (validate w) between results next) ↔
        Accepts w ∧ next = between)) :
    (∃ items, Yields .failFast (setting.part entries part validate) before items after) ↔
      ∃ w store, (setting.standing part (Description.get entries part)).Returns
          before.store w store ∧ Accepts w ∧ after = { before with store } := by
  simp only [yields_part entries base]
  constructor
  · rintro ⟨_, w, store, stands, results, yields, rfl⟩
    exact ⟨w, store, stands, (h w { before with store } after rfl).1 ⟨results, yields⟩⟩
  · rintro ⟨w, store, stands, accepts⟩
    obtain ⟨results, yields⟩ := (h w { before with store } after rfl).2 accepts
    exact ⟨_, w, store, stands, results, yields, rfl⟩

/-- The rules: a mapping from new proper names to functions that return what stands for rules, which
refer to declared names only. -/
theorem exists_yields_rules (h : before.Holds names s)
    (valid : ∀ name ∈ names, name.isValidName = true) :
    (∃ rules, Yields .failFast (setting.rules entries) before rules after) ↔
      ∃ first rest returned store,
        (s.present (setting.givenRules entries)).object? = some (first :: rest) ∧
        (∀ entry ∈ first :: rest, entry.1.isValidName = true ∧ ∃ f, entry.2.callable? = some f) ∧
        (Table.keys (first :: rest)).Nodup ∧
        (∀ name ∈ Table.keys (first :: rest), name ∉ names) ∧
        ((first :: rest).mapM setting.returned).Returns s returned store ∧
        (∀ entry ∈ returned, ∃ r, entry.2.toRule = .ok r) ∧
        (∀ body ∈ Rules.bodies store returned, ∀ name ∈ body.mentions,
          name ∈ names ++ Table.keys (first :: rest)) ∧
        after = { before with store }.declaring "rule" (Table.keys (first :: rest)) := by
  obtain ⟨rfl, rfl⟩ := h
  have newNames (given : List (Value Code × Value Code)) :
      given.filterMap (Rules.entryName? []) = Table.keys given :=
    List.filterMap_eq_map_iff_forall_eq_some.2 fun _ _ ↦ rfl
  -- Without a base, nothing is inherited.
  have inherit (u : Unit) (between : Journal Code) :
      Yields .failFast (Rules.inherit []) before u between ↔ between = before :=
    (Build.yields_pure _ _).trans (by simp)
  simp only [yields_rules entries base, Rules.yields_validate, Rules.yields_fromEntries, newNames,
    inherit]
  constructor
  · rintro ⟨definitions, given, object, _, functions, returned, store, defined, rfl,
      ⟨gives, nodup, fresh⟩, ⟨called, results⟩, ⟨rfl, some⟩, resolved⟩
    rw [Rules.mapM_returned setting gives] at called
    have entryOk := Rules.exists_entryGives_iff.1 ⟨functions, gives⟩
    have validNames : ∀ name ∈ Table.keys given, name.isValidName = true :=
      List.forall_mem_map.2 fun entry mem ↦ (entryOk entry mem).1
    rw [Rules.isEmpty_merged validNames nodup called results] at some
    obtain ⟨refers, rfl⟩ :=
      (Rules.yields_resolve_merged validNames nodup called results valid ()).1 resolved
    cases given with
    | nil => cases some
    | cons first rest =>
      exact ⟨first, rest, returned, store, object, entryOk, nodup, fresh, called,
        Rules.exists_resultGives_iff.1 ⟨defined, results⟩, refers, rfl⟩
  · rintro ⟨first, rest, returned, store, object, entryOk, nodup, fresh, called, returnOk, refers,
      rfl⟩
    have validNames : ∀ name ∈ Table.keys (first :: rest), name.isValidName = true :=
      List.forall_mem_map.2 fun entry mem ↦ (entryOk entry mem).1
    obtain ⟨functions, gives⟩ := Rules.exists_entryGives_iff.2 entryOk
    obtain ⟨defined, results⟩ := Rules.exists_resultGives_iff.2 returnOk
    refine ⟨_, _, object, before, functions, returned, store, defined, rfl, ⟨gives, nodup, fresh⟩,
      ⟨?_, results⟩, ⟨rfl, ?_⟩,
      (Rules.yields_resolve_merged validNames nodup called results valid ()).2 ⟨refers, rfl⟩⟩
    · rw [Rules.mapM_returned setting gives]
      exact called
    · rw [Rules.isEmpty_merged validNames nodup called results]
      rfl

private theorem exists_yields_inline (h : before.Holds names s)
    (valid : ∀ name ∈ names, name.isValidName = true) :
    (∃ items, Yields .failFast (setting.part entries .inline Names.validateInline) before items
        after) ↔
      ∃ w store, (setting.standing .inline (Description.get entries .inline)).Returns
          s w store ∧
        (w.IsArrayOf fun entry ↦ entry.nameOf ∈ names) ∧
        after = { before with store } := by
  obtain ⟨rfl, rfl⟩ := h
  refine exists_yields_part base fun w between next same ↦ ?_
  simp only [Names.yields_validateInline, exists_and_right, exists_arrayGives_iff, same,
    Names.exists_entryGives_iff valid]

private theorem exists_yields_conflicts (h : before.Holds names s)
    (valid : ∀ name ∈ names, name.isValidName = true) :
    (∃ items, Yields .failFast (setting.part entries .conflicts fun v ↦ do
        return setting.groups .conflicts (← Names.validateConflicts v)) before items after) ↔
      ∃ w store, (setting.standing .conflicts (Description.get entries .conflicts)).Returns
          s w store ∧
        (w.IsArrayOf fun group ↦ ∃ items, group.array? = some items ∧ 2 ≤ items.length ∧
          ∀ item ∈ items, item.nameOf ∈ names) ∧
        after = { before with store } := by
  obtain ⟨rfl, rfl⟩ := h
  refine exists_yields_part base fun w between next same ↦ ?_
  simp only [Build.exists_yields_return, Names.yields_validateConflicts, exists_and_right,
    exists_arrayGives_iff, same, Names.exists_conflictGives_iff valid]

private theorem exists_yields_word (h : before.Holds names s)
    (valid : ∀ name ∈ names, name.isValidName = true) :
    (∃ word, Yields .failFast (setting.word entries) before word after) ↔
      ∃ w store, (setting.wordStanding names (Description.get entries .word)).Returns
          s w store ∧
        (w = .missing ∨ w.nameOf ∈ names) ∧ after = { before with store } := by
  obtain ⟨rfl, rfl⟩ := h
  simp only [yields_word entries base, ← Names.exists_wordGives_iff valid]
  constructor
  · rintro ⟨word, w, store, stands, gives, same⟩
    exact ⟨w, store, stands, ⟨word, gives⟩, same⟩
  · rintro ⟨w, store, stands, ⟨word, gives⟩, same⟩
    exact ⟨word, w, store, stands, gives, same⟩

private theorem exists_yields_supertypes (h : before.Holds names s)
    (valid : ∀ name ∈ names, name.isValidName = true) :
    (∃ items, Yields .failFast (setting.part entries .supertypes Names.validateSupertypes) before
        items after) ↔
      ∃ w store, (setting.standing .supertypes (Description.get entries .supertypes)).Returns
          s w store ∧
        (w.IsArrayOf fun entry ↦ Names.isAlias entry = false ∧ entry.nameOf ∈ names) ∧
        after = { before with store } := by
  obtain ⟨rfl, rfl⟩ := h
  refine exists_yields_part base fun w between next same ↦ ?_
  simp only [Names.yields_validateSupertypes, exists_and_right, exists_arrayGives_iff, same,
    Names.exists_supertypeGives_iff valid]

private theorem exists_yields_precedences (h : before.Holds names s)
    (valid : ∀ name ∈ names, name.isValidName = true) :
    (∃ items, Yields .failFast (setting.part entries .precedences fun v ↦ do
        return setting.groups .precedences ((← Precedences.validate v).map (·.map .rule)))
        before items after) ↔
      ∃ w store, (setting.standing .precedences (Description.get entries .precedences)).Returns
          s w store ∧
        (w.IsArrayOf fun group ↦ ∃ items, group.array? = some items ∧ ∀ raw ∈ items,
          (∃ v, raw.toRule = .ok (.string v)) ∨
            ∃ name, raw.toRule = .ok (.symbol name) ∧ name ∈ names) ∧
        after = { before with store } := by
  obtain ⟨rfl, rfl⟩ := h
  refine exists_yields_part base fun w between next same ↦ ?_
  refine (Build.exists_yields_return (Precedences.validate w) _).trans ?_
  simp only [Precedences.yields_validate, exists_and_right, exists_arrayGives_iff, same,
    Precedences.exists_groupGives_iff valid]

private theorem accepts_of_yields_extras {items : Items (Value Code)}
    (h : before.Holds names s) (valid : ∀ name ∈ names, name.isValidName = true)
    (yields : Yields .failFast (setting.part entries .extras fun v ↦ do
      return (← Extras.validate setting.extraReferences v).map .rule) before items after) :
    ∃ w store, (setting.standing .extras (Description.get entries .extras)).Returns
        s w store ∧
      (w.IsArrayOf fun raw ↦ ∃ r, raw.toRule = .ok r ∧
        if setting.extraReferences then ∀ name ∈ r.mentions, name ∈ names
        else ∀ name, r.referencedName? = some name → name ∉ names) ∧
      after = { before with store } := by
  obtain ⟨rfl, rfl⟩ := h
  obtain ⟨w, store, stands, results, yields, -⟩ := (yields_part entries base items).1 yields
  obtain ⟨rules, yields⟩ := (Build.exists_yields_return _ _).1 ⟨results, yields⟩
  obtain ⟨gives, same⟩ := (Extras.yields_validate _ w rules).1 yields
  refine ⟨w, store, stands, ?_, same⟩
  rcases exists_arrayGives_iff.1 ⟨rules, gives⟩ with missing | ⟨raws, array, gives⟩
  · exact .inl missing
  · refine .inr ⟨raws, array, fun raw mem ↦ ?_⟩
    obtain ⟨r, gives⟩ := gives raw mem
    exact ⟨r, Extras.accepts_of_itemGives valid gives⟩

omit base in
/-- The contents of a description are found section by section, each from the store that the one
before it has left. -/
theorem returns_contents {description : Value Code} (c : Contents Code) (start final : Store Code) :
    let given (part : Section) (s : Store Code) : Value Code :=
      Description.get (Description.given description s) part
    (setting.contents description).Returns start c final ↔
      c.name = start.present (given .name start) ∧
      ∃ s₁, (setting.standing .externals (given .externals start)).Returns start c.externals s₁ ∧
      c.rules = s₁.present (setting.givenRules (Description.given description s₁)) ∧
      ∃ s₂, (c.entries.mapM setting.returned).Returns s₁ c.returned s₂ ∧
      c.bodies = Rules.bodies s₂ c.returned ∧
      ∃ s₃, (setting.standing .extras (given .extras s₂)).Returns s₂ c.extras s₃ ∧
      ∃ s₄, (setting.standing .inline (given .inline s₃)).Returns s₃ c.inline s₄ ∧
      ∃ s₅, (setting.standing .conflicts (given .conflicts s₄)).Returns s₄ c.conflicts s₅ ∧
      ∃ s₆, (setting.wordStanding c.declared (given .word s₅)).Returns s₅ c.word s₆ ∧
      ∃ s₇, (setting.standing .supertypes (given .supertypes s₆)).Returns s₆ c.supertypes s₇ ∧
      (setting.standing .precedences (given .precedences s₇)).Returns s₇ c.precedences final := by
  intro given
  unfold contents
  simp only [↓Exec.returns_given_bind, Exec.returns_bind, Exec.returns_present, Exec.returns_pure,
    Exec.returns_mapM_present]
  constructor
  · rintro ⟨_, _, ⟨rfl, rfl⟩, externals, s₁, external, _, _, ⟨rfl, rfl⟩, returned, s₂, called, _, _,
      ⟨rfl, rfl⟩, extras, s₃, extra, inline, s₄, inlined, conflicts, s₅, conflict, word, s₆, worded,
      supertypes, s₇, supertype, precedences, _, precedence, rfl, rfl⟩
    exact ⟨rfl, _, external, rfl, _, called, rfl, s₃, extra, s₄, inlined, s₅, conflict, s₆, worded,
      s₇, supertype, precedence⟩
  · rintro ⟨named, s₁, external, rules, s₂, called, bodies, s₃, extra, s₄, inlined, s₅, conflict,
      s₆, worded, s₇, supertype, precedence⟩
    exact ⟨c.name, _, ⟨named, rfl⟩, c.externals, s₁, external, c.rules, _, ⟨rules, rfl⟩, c.returned,
      s₂, called, c.bodies, _, ⟨bodies, rfl⟩, c.extras, s₃, extra, c.inline, s₄, inlined,
      c.conflicts, s₅, conflict, c.word, s₆, worded, c.supertypes, s₇, supertype, c.precedences,
      final, precedence, rfl, rfl⟩

private theorem exists_yields_externals (h : before.Holds [] s) :
    (∃ items, Yields .failFast (setting.externals entries) before items after) ↔
      ∃ w store, (setting.standing .externals (Description.get entries .externals)).Returns
          s w store ∧
        (∃ rules, Externals.Gives w rules) ∧ (Externals.names w).Nodup ∧
        after = { before with store }.declaring "externals" (Externals.names w) := by
  obtain ⟨keys, rfl⟩ := h
  simp [yields_externals entries base, keys]

/-- A description that a build gets through has accepted contents. -/
theorem accepted_of_yields {description : Value Code} {store : Store Code}
    {g : Grammar (Value Code)}
    (h : Yields .failFast (setting.assemble description) { store } g after) :
    (∃ entries, (store.read description).object? = some entries ∧
      ∀ key ∈ Table.keys entries, ∃ part : Section, key = .string part.title) ∧
      ∃ contents final, (setting.contents description).Returns store contents final ∧
        contents.Accepted setting.extraReferences := by
  obtain ⟨j₂, checked, name, j₃, named, externals, j₄, external, rules, j₅, ruled,
    extras, j₆, extra, inline, j₇, inlined, conflicts, j₈, conflict, word, j₉, worded, supertypes,
    j₁₀, supertype, precedences, j₁₁, precedence, -, -⟩ := (setting.yields_assemble _ g).1 h
  obtain ⟨titles, rfl⟩ := (Description.yields_check _ _).1 checked
  obtain ⟨present, validName, eq₃⟩ := (yields_name _ base _).1 named
  have holds₃ : j₃.Holds [] store := eq₃ ▸ ⟨rfl, rfl⟩
  obtain ⟨e, s₁, standsE, ⟨items, gives⟩, distinct, eq₄⟩ :=
    (exists_yields_externals base (holds₃.announced _ _)).1 ⟨_, holds₃.store ▸ external⟩
  have valid₄ := Externals.valid_names gives
  have holds₄ : j₄.Holds (Externals.names e) s₁ :=
    eq₄ ▸ ((holds₃.announced _ _).working s₁).declaring _ _
  obtain ⟨f, rest, returned, s₂, given, functions, nodup, fresh, called, results, refers, eq₅⟩ :=
    (exists_yields_rules base (holds₄.announced _ _) valid₄).1 ⟨_, holds₄.store ▸ ruled⟩
  have holds₅ : j₅.Holds (Externals.names e ++ Table.keys (f :: rest)) s₂ :=
    eq₅ ▸ ((holds₄.announced _ _).working s₂).declaring _ _
  have valid₅ := isValidName_of_declared valid₄ functions
  -- The sections that follow declare nothing.
  obtain ⟨x, s₃, standsX, okX, eq₆⟩ :=
    accepts_of_yields_extras base (holds₅.announced _ _) valid₅ (holds₅.store ▸ extra)
  have holds₆ : j₆.Holds _ s₃ := eq₆ ▸ (holds₅.announced _ _).working s₃
  obtain ⟨i, s₄, standsI, okI, eq₇⟩ :=
    (exists_yields_inline base (holds₆.announced _ _) valid₅).1 ⟨_, holds₆.store ▸ inlined⟩
  have holds₇ : j₇.Holds _ s₄ := eq₇ ▸ (holds₆.announced _ _).working s₄
  obtain ⟨c, s₅, standsC, okC, eq₈⟩ :=
    (exists_yields_conflicts base (holds₇.announced _ _) valid₅).1 ⟨_, holds₇.store ▸ conflict⟩
  have holds₈ : j₈.Holds _ s₅ := eq₈ ▸ (holds₇.announced _ _).working s₅
  obtain ⟨w, s₆, standsW, okW, eq₉⟩ :=
    (exists_yields_word base (holds₈.announced _ _) valid₅).1 ⟨_, holds₈.store ▸ worded⟩
  have holds₉ : j₉.Holds _ s₆ := eq₉ ▸ (holds₈.announced _ _).working s₆
  obtain ⟨t, s₇, standsT, okT, eq₁₀⟩ :=
    (exists_yields_supertypes base (holds₉.announced _ _) valid₅).1 ⟨_, holds₉.store ▸ supertype⟩
  have holds₁₀ : j₁₀.Holds _ s₇ := eq₁₀ ▸ (holds₉.announced _ _).working s₇
  obtain ⟨p, s₈, standsP, okP, -⟩ :=
    (exists_yields_precedences base (holds₁₀.announced _ _) valid₅).1
      ⟨_, holds₁₀.store ▸ precedence⟩
  let rules := s₁.present (setting.givenRules (Description.given description s₁))
  let contents : Contents Code :=
    ⟨name, e, rules, returned, Rules.bodies s₂ returned, x, i, c, w, t, p⟩
  have entriesEq : contents.entries = f :: rest := by
    change (Value.object? _).getD [] = _
    rw [given]
    rfl
  have declaredEq : contents.declared = Externals.names e ++ Table.keys (f :: rest) := by
    rw [Contents.declared, entriesEq]
  refine ⟨titles, contents, s₈, (returns_contents contents store s₈).2 ?_, ?_⟩
  · rw [declaredEq, entriesEq]
    exact ⟨present, s₁, standsE, rfl, s₂, called, rfl, s₃, standsX, s₄, standsI, s₅, standsC, s₆,
      standsW, s₇, standsT, standsP⟩
  · have distinct : contents.declared.Nodup := by
      rw [declaredEq, List.nodup_append]
      refine ⟨distinct, nodup, fun name old other new eq ↦ fresh other new (eq ▸ old)⟩
    have names : contents.Names = fun entry ↦ entry.nameOf ∈ Externals.names e ++
        Table.keys (f :: rest) := by
      rw [← declaredEq]
      rfl
    exact {
      name := validName
      externals := (Externals.exists_gives_iff e).1 ⟨items, gives⟩
      distinct
      rules := ⟨f, rest, given, entriesEq ▸ functions⟩
      returned := results
      resolved := declaredEq ▸ refers
      extras := declaredEq ▸ okX
      inline := names ▸ okI
      conflicts := names ▸ okC
      word := names ▸ okW
      supertypes := names ▸ okT
      precedences := declaredEq ▸ okP }

/-- A description whose contents are accepted is reported nothing about. -/
theorem unreported_of_accepted {description : Value Code} {store final : Store Code}
    {contents : Contents Code}
    (titles : ∃ entries, (store.read description).object? = some entries ∧
      ∀ key ∈ Table.keys entries, ∃ part : Section, key = .string part.title)
    (found : (setting.contents description).Returns store contents final)
    (accepted : contents.Accepted setting.extraReferences) :
    Build.Unreported (setting.assemble description) { store } := by
  obtain ⟨named, s₁, external, rules, s₂, called, bodies, s₃, extra, s₄, inlined, s₅, conflict, s₆,
    worded, s₇, supertype, precedence⟩ := (returns_contents contents store final).1 found
  obtain ⟨f, rest, given, functions⟩ := accepted.rules
  have entriesEq : contents.entries = f :: rest := by
    rw [Contents.entries, given]
    rfl
  have declaredEq : contents.declared = Externals.names contents.externals ++
      Table.keys (f :: rest) := by
    rw [Contents.declared, entriesEq]
  obtain ⟨items, gives⟩ := (Externals.exists_gives_iff _).2 accepted.externals
  have valid₄ := Externals.valid_names gives
  have valid₅ : ∀ name ∈ contents.declared, name.isValidName = true :=
    isValidName_of_declared valid₄ functions
  have distinct := accepted.distinct
  rw [declaredEq, List.nodup_append] at distinct
  obtain ⟨distinct, nodup, fresh⟩ := distinct
  rw [entriesEq] at called functions
  have began : Yields .failFast (Build.log (.began .name none)) { store } ()
      (({ store } : Journal Code).began .name none) := (Build.yields_log _ _).2 rfl
  have holds₃ : (({ store } : Journal Code).began .name none).Holds [] store := ⟨rfl, rfl⟩
  have announce (journal : Journal Code) (part : Section) :
      Yields .failFast (do Build.log (.began part (some (← Build.present contents.name)))) journal
        () (journal.announced part contents.name) := (yields_announce part contents.name ()).2 rfl
  -- Section by section: what is found there is accepted, so the section yields a result, and
  -- `unreported_bind` leaves what follows it.
  unfold assemble
  have looked (journal : Journal Code) : Yields .failFast (Description.entries description) journal
      (Description.given description journal.store) journal :=
    (Description.yields_entries _ _).2 ⟨rfl, rfl⟩
  refine ((Description.yields_check _ ()).2 ⟨titles, rfl⟩).unreported_bind ?_
  refine began.unreported_bind ((looked _).unreported_bind ?_)
  refine ((yields_name _ base _).2 ⟨named, accepted.name, rfl⟩).unreported_bind ?_
  refine (announce _ .externals).unreported_bind ((looked _).unreported_bind ?_)
  obtain ⟨_, yields⟩ := (exists_yields_externals base (holds₃.announced .externals _)).2
    ⟨contents.externals, s₁, external, ⟨items, gives⟩, distinct, rfl⟩
  have holds₄ : Journal.Holds _ (Externals.names contents.externals) s₁ :=
    ((holds₃.announced .externals contents.name).working s₁).declaring "externals" _
  refine yields.unreported_bind ?_
  refine (announce _ .rules).unreported_bind ((looked _).unreported_bind ?_)
  obtain ⟨_, yields⟩ := (exists_yields_rules base (holds₄.announced .rules contents.name) valid₄).2
    ⟨f, rest, contents.returned, s₂, rules ▸ given, functions, nodup, fun name new old ↦
      fresh name old name new rfl, called, accepted.returned,
      bodies ▸ declaredEq ▸ accepted.resolved, rfl⟩
  have holds₅ : Journal.Holds _ contents.declared s₂ :=
    declaredEq ▸ ((holds₄.announced .rules contents.name).working s₂).declaring "rule" _
  refine yields.unreported_bind ?_
  refine (announce _ .extras).unreported_bind ((looked _).unreported_bind ?_)
  -- Accepted extras report nothing, but need not yield a result: a name that cannot be a key
  -- stops the build. So what they report and what they leave are two steps here.
  refine Build.Unreported.bind (unreported_part _ base (holds₅.store.symm ▸ extra) ?_)
    fun _ _ yields ↦ ?_
  · refine Build.Unreported.bind (Extras.unreported_validate ?_ ?_) fun _ _ _ ↦
      Build.unreported_pure _
    · exact holds₅.keys.symm ▸ valid₅
    · exact holds₅.keys.symm ▸ accepted.extras
  obtain ⟨_, _, stands, -, rfl⟩ :=
    accepts_of_yields_extras base (holds₅.announced .extras contents.name) valid₅ yields
  cases extra.symm.trans stands
  have holds₆ := (holds₅.announced .extras contents.name).working s₃
  refine (announce _ .inline).unreported_bind ((looked _).unreported_bind ?_)
  obtain ⟨_, yields⟩ := (exists_yields_inline base (holds₆.announced .inline _) valid₅).2
    ⟨contents.inline, s₄, inlined, accepted.inline, rfl⟩
  have holds₇ := (holds₆.announced .inline contents.name).working s₄
  refine yields.unreported_bind ?_
  refine (announce _ .conflicts).unreported_bind ((looked _).unreported_bind ?_)
  obtain ⟨_, yields⟩ := (exists_yields_conflicts base (holds₇.announced .conflicts _) valid₅).2
    ⟨contents.conflicts, s₅, conflict, accepted.conflicts, rfl⟩
  have holds₈ := (holds₇.announced .conflicts contents.name).working s₅
  refine yields.unreported_bind ?_
  refine (announce _ .word).unreported_bind ((looked _).unreported_bind ?_)
  obtain ⟨_, yields⟩ := (exists_yields_word base (holds₈.announced .word _) valid₅).2
    ⟨contents.word, s₆, worded, accepted.word, rfl⟩
  have holds₉ := (holds₈.announced .word contents.name).working s₆
  refine yields.unreported_bind ?_
  refine (announce _ .supertypes).unreported_bind ((looked _).unreported_bind ?_)
  obtain ⟨_, yields⟩ := (exists_yields_supertypes base (holds₉.announced .supertypes _) valid₅).2
    ⟨contents.supertypes, s₇, supertype, accepted.supertypes, rfl⟩
  have holds₁₀ := (holds₉.announced .supertypes contents.name).working s₇
  refine yields.unreported_bind ?_
  refine (announce _ .precedences).unreported_bind ((looked _).unreported_bind ?_)
  obtain ⟨_, yields⟩ := (exists_yields_precedences base (holds₁₀.announced .precedences _) valid₅).2
    ⟨contents.precedences, final, precedence, accepted.precedences, rfl⟩
  exact yields.unreported_bind (Build.unreported_pure _)

/-- If a build without a base that collects all problems has a result, then it has found none if
and only if the description is a mapping from titles of sections whose contents are accepted. -/
theorem problems_collect_eq_nil_iff {description : Value Code} {store : Store Code}
    {g : Grammar (Value Code)} (h : (setting.collect description store).1 = .ok g) :
    (setting.collect description store).2.problems = [] ↔
      (∃ entries, (store.read description).object? = some entries ∧
        ∀ key ∈ Table.keys entries, ∃ part : Section, key = .string part.title) ∧
        ∃ contents final, (setting.contents description).Returns store contents final ∧
          contents.Accepted setting.extraReferences := by
  have concord := setting.concord_assemble description store
  obtain ⟨outcome, problems⟩ := setting.outcome_collect description store
  rw [outcome] at h
  rw [problems]
  constructor
  · intro none
    have built := concord.accepted g h none
    generalize run : Build.start (setting.assemble description) .failFast { store } = result
      at built
    obtain ⟨_, after⟩ := result
    cases built
    exact accepted_of_yields base run
  · rintro ⟨titles, contents, final, found, accepted⟩
    have unreported := unreported_of_accepted base titles found accepted
    cases some : (Build.start (setting.assemble description) .collect { store }).2.problems with
    | nil => rfl
    | cons p rest => exact absurd (concord.rejected p rest some).1 (unreported p)

omit base in
/-- A description that gives all sections, in different forms, is accepted if extras may refer to
what is declared. By the other policy it is not, since one of its extras is a symbol of an
external. -/
theorem accepted_mixed :
    let setting (references : Bool) : Setting Empty :=
      { run := fun _ code _ ↦ code.elim, place := .step 1, extraReferences := references }
    let list (items : List (Value Empty)) : Value Empty := .list ⟨.step 0, items, false⟩
    let mapping (entries : Table Empty (Value Empty)) : Value Empty :=
      .mapping ⟨.step 0, entries, false⟩
    let symbol (name : String) : Value Empty := .symbol (.string name)
    let function (name : String) (v : Value Empty) : Value Empty :=
      .callable { Callable.constant (.step 0) name v with signature.positional := ["grammar"] }
    let description : Value Empty := mapping [
      (.string "name", .string "g"),
      (.string "externals", function "tokens" (mapping
        [(.string "indent", symbol "indent"), (.string "comma", .string ",")])),
      (.string "rules", mapping [
        (.string "a", function "a" (.rule (.group .seq
          [.symbol (.string "b"), .wrap .repeated (.symbol (.string "indent"))]))),
        (.string "b", function "b" (.rule (.prec .left (.int 1) (.symbol (.string "a"))))),
        (.string "c", function "c" (.rule .blank))]),
      (.string "extras", list [.rule Extras.blankCharacter, symbol "indent"]),
      (.string "inline", .tuple [.string "b", symbol "c"]),
      (.string "conflicts", list [.tuple [.string "a", function "b" .missing],
        list [symbol "comma", symbol "c"]]),
      (.string "word", function "c" .missing),
      (.string "supertypes", function "types" (list [symbol "a"])),
      (.string "precedences", list [list [.string "high", symbol "b"], .tuple []])]
    (∃ g, ((setting true).collect description {}).1 = .ok g ∧
      ∃ contents final, ((setting true).contents description).Returns {} contents final ∧
        contents.Accepted true) ∧
    ∃ g, ((setting false).collect description {}).1 = .ok g ∧
      ¬ ∃ contents final, ((setting false).contents description).Returns {} contents final ∧
        contents.Accepted false := by
  intro setting list mapping symbol function description
  have returns (references : Bool) :
      ∃ g, ((setting references).collect description {}).1 = .ok g := by
    have built : ((setting references).collect description {}).1.toOption.any (fun _ ↦ true) =
        true := by
      cases references <;> decide +kernel
    obtain ⟨g, collected, -⟩ := Build.exists_eq_ok_of_any built
    exact ⟨g, congrArg Prod.fst collected⟩
  have unproblematic : ((setting true).collect description {}).2.problems.isEmpty = true := by
    decide +kernel
  have problematic : ((setting false).collect description {}).2.problems.isEmpty = false := by
    decide +kernel
  obtain ⟨g, collected⟩ := returns true
  obtain ⟨g', collected'⟩ := returns false
  obtain ⟨titles, found⟩ := (problems_collect_eq_nil_iff rfl collected).1
    (List.isEmpty_iff.1 unproblematic)
  refine ⟨⟨g, collected, found⟩, g', collected', fun found' ↦ ?_⟩
  have none := (problems_collect_eq_nil_iff rfl collected').2 ⟨titles, found'⟩
  rw [none] at problematic
  cases problematic

end Setting

end GrammarDoc
