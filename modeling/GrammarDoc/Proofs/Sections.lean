import GrammarDoc.Assembly
import GrammarDoc.Proofs.Build.Results

/-!
# Sections without problems

What each section has to be given so that a build that ends at the first problem gets through it,
and what it makes of that. Only the externals and the rules change the namespace; all other
sections leave the journal as it is.
-/

namespace GrammarDoc

open Build (Yields)

variable {Code : Type} {before after : Journal Code}

/-- A mapping is no array. -/
theorem Value.array?_of_object? {v : Value Code} {entries : List (Value Code × Value Code)}
    (h : v.object? = some entries) : v.array? = none := by
  cases v with
  | mapping => rfl
  | missing | bool | int | double | string | list | tuple | pattern | callable | builder | rule
  | grammar | references => cases h

/-! ### Related lists -/

/-- There is something related to each item if and only if there is a list of such things. -/
theorem exists_forall₂_iff {α β : Type} {R : α → β → Prop} {items : List α} :
    (∃ bs, List.Forall₂ R items bs) ↔ ∀ a ∈ items, ∃ b, R a b := by
  induction items with
  | nil => simp
  | cons a rest ih =>
    rw [List.forall_mem_cons, ← ih]
    constructor
    · rintro ⟨_, _ | ⟨first, more⟩⟩
      exact ⟨⟨_, first⟩, _, more⟩
    · rintro ⟨⟨b, first⟩, bs, more⟩
      exact ⟨b :: bs, .cons first more⟩

/-- What is in one of two related lists is related to something. -/
theorem exists_of_forall₂ {α β : Type} {R : α → β → Prop} {items : List α} {bs : List β}
    (h : List.Forall₂ R items bs) {b : β} (hb : b ∈ bs) : ∃ a, R a b :=
  exists_forall₂_iff.1 ⟨items, List.Forall₂.flip h⟩ b hb

/-! ### Externals -/

namespace Externals

/-- The name that an item of a list declares: that of a symbol. -/
def itemName? (raw : Value Code) : Option (Value Code) :=
  match raw.toRule with
  | .ok (.symbol name) => some name
  | _ => none

/-- The names that externals declare: those of the symbols of a list, or the keys of a mapping. -/
def names (v : Value Code) : List (Value Code) :=
  match v.array? with
  | some items => items.filterMap itemName?
  | none => Table.keys (v.object?.getD [])

/-- An item of a list stands for a rule, and a symbol has a proper name. -/
def ItemGives (raw : Value Code) (r : Rule (Value Code)) : Prop :=
  raw.toRule = .ok r ∧ ∀ name, r = .symbol name → name.isValidName = true

/-- An entry of a mapping has a proper name and stands for a rule, and a symbol has that name. -/
def EntryGives (entry : Value Code × Value Code) (r : Rule (Value Code)) : Prop :=
  entry.1.isValidName = true ∧ entry.2.toRule = .ok r ∧ ∀ name, r = .symbol name → name = entry.1

/-- The rules that externals stand for in either form. -/
def Gives (v : Value Code) (rules : List (Rule (Value Code))) : Prop :=
  v = .missing ∧ rules = [] ∨
    (∃ items, v.array? = some items ∧ List.Forall₂ ItemGives items rules) ∨
    ∃ entries, v.object? = some entries ∧ List.Forall₂ EntryGives entries rules

private theorem yields_declare (name : Value Code) (valid : name.isValidName = true) (free : Bool) :
    Yields .failFast (Build.declare name "externals" none) before free after ↔
      name ∉ before.names.keys ∧ free = true ∧ after = before.declaring "externals" [name] := by
  rw [Build.yields_declare_failFast, ← Table.has_validName before.names valid, Bool.not_eq_true]
  simp [Value.canBeKey_of_isValidName valid]

private theorem yields_fromItem (raw : Value Code) (result : Option (Rule (Value Code))) :
    Yields .failFast (fromItem raw) before result after ↔
      ∃ r, result = some r ∧ ItemGives raw r ∧
        (∀ name ∈ itemName? raw, name ∉ before.names.keys) ∧
        after = before.declaring "externals" (itemName? raw).toList := by
  unfold fromItem ItemGives itemName?
  simp only [Build.yields_bind, Build.yields_normalize_failFast]
  cases raw.toRule with
  | error cause => simp
  | ok r =>
    cases r with
    | symbol name =>
      cases valid : name.isValidName with
      | false => simp [valid]
      | true => simp [valid, yields_declare name valid, and_assoc, and_comm]
    | bare | string | pattern | blank | group | wrap | prec | field | aliased => simp

private theorem yields_fromEntry (entry : Value Code × Value Code)
    (result : Option (Rule (Value Code))) : Yields .failFast (fromEntry entry) before result after ↔
      ∃ r, result = some r ∧ EntryGives entry r ∧
        (∀ name ∈ some entry.1, name ∉ before.names.keys) ∧
        after = before.declaring "externals" (some entry.1).toList := by
  obtain ⟨key, raw⟩ := entry
  unfold fromEntry EntryGives
  simp only [Build.yields_bind, Build.yields_requireValidName_failFast]
  cases valid : key.isValidName with
  | false => simp
  | true =>
    obtain ⟨s, rfl⟩ := Value.eq_string_of_isValidName valid
    cases rule : raw.toRule with
    | error cause => simp [rule]
    | ok r =>
      cases r with
      | symbol name =>
        by_cases same : name = .string s
        · subst same
          simp [rule, misnamed?, Value.string_same, yields_declare _ valid, and_assoc, and_comm]
        · simp [rule, misnamed?, Value.string_same, same]
      | bare | string | pattern | blank | group | wrap | prec | field | aliased =>
        simp [rule, misnamed?, yields_declare _ valid, and_assoc, and_comm]

/-- Externals in either form. -/
theorem yields_validate (v : Value Code) (rules : List (Rule (Value Code))) :
    Yields .failFast (validate v) before rules after ↔
      Gives v rules ∧ (names v).Nodup ∧ (∀ name ∈ names v, name ∉ before.names.keys) ∧
        after = before.declaring "externals" (names v) := by
  have asList (items : List (Value Code)) :
      Yields .failFast (Build.filterMap fromItem items) before rules after ↔ _ :=
    Build.yields_filterMap_declare rules fun raw _ _ result _ ↦ yields_fromItem raw result
  have asMapping (entries : List (Value Code × Value Code)) :
      Yields .failFast (Build.filterMap fromEntry entries) before rules after ↔ _ :=
    Build.yields_filterMap_declare rules fun entry _ _ result _ ↦ yields_fromEntry entry result
  have keys (entries : List (Value Code × Value Code)) :
      entries.filterMap (fun entry ↦ some entry.1) = Table.keys entries :=
    List.filterMap_eq_map_iff_forall_eq_some.2 fun _ _ ↦ rfl
  unfold validate fromList fromMapping names Gives
  cases v with
  | list items => simp [Value.array?, Value.object?, asList]
  | tuple items => simp [Value.array?, Value.object?, asList]
  | mapping entries =>
    simp only [Value.array?, Build.yields_guarded_object _ _ _ (Build.filterMap fromEntry)]
    simp [Value.object?, asMapping, keys]
  | missing | bool | int | double | string | pattern | callable | builder | rule | grammar
  | references =>
    simp only [Value.array?, Build.yields_guarded_object _ _ _ (Build.filterMap fromEntry)]
    simp [Value.object?, Table.keys]

/-- The names that externals declare have the right form. -/
theorem valid_names {v : Value Code} {rules : List (Rule (Value Code))} (h : Gives v rules) :
    ∀ name ∈ names v, name.isValidName = true := by
  rcases h with ⟨rfl, -⟩ | ⟨items, array, gives⟩ | ⟨entries, object, gives⟩
  · intro name mem
    cases mem
  · intro name mem
    rw [names, array] at mem
    obtain ⟨raw, mem, named⟩ := List.mem_filterMap.1 mem
    obtain ⟨r, rule, valid⟩ := exists_forall₂_iff.1 ⟨rules, gives⟩ raw mem
    unfold itemName? at named
    rw [rule] at named
    cases r with
    | symbol other =>
      cases named
      exact valid name rfl
    | bare | string | pattern | blank | group | wrap | prec | field | aliased => cases named
  · rw [names, Value.array?_of_object? object, object]
    exact List.forall_mem_map.2 fun entry mem ↦
      (exists_forall₂_iff.1 ⟨rules, gives⟩ entry mem).choose_spec.1

end Externals

/-! ### Rules -/

namespace Rules

/-- The name that an entry declares, unless there is an inherited rule of that name. -/
def entryName? (inherited : Definitions Code) (entry : Value Code × Value Code) :
    Option (Value Code) :=
  if inherited.has entry.1 then none else some entry.1

/-- An entry has a proper name and a function. -/
def EntryGives (entry : Value Code × Value Code)
    (function : Value Code × Callable (Value Code) Code) : Prop :=
  entry.1.isValidName = true ∧ entry.2.callable? = some function.2 ∧ function.1 = entry.1

/-- What the function of a rule returns stands for a rule. -/
def ResultGives (returned : Value Code × Value Code) (defined : Value Code × Rule (Value Code)) :
    Prop :=
  returned.2.toRule = .ok defined.2 ∧ defined.1 = returned.1

/-- Entries give functions if and only if each has a proper name and a function. -/
theorem exists_entryGives_iff {entries : List (Value Code × Value Code)} :
    (∃ functions, List.Forall₂ EntryGives entries functions) ↔
      ∀ entry ∈ entries, entry.1.isValidName = true ∧ ∃ f, entry.2.callable? = some f := by
  rw [exists_forall₂_iff]
  refine forall₂_congr fun entry _ ↦ ?_
  constructor
  · rintro ⟨function, valid, callable, -⟩
    exact ⟨valid, function.2, callable⟩
  · rintro ⟨valid, f, callable⟩
    exact ⟨(entry.1, f), valid, callable, rfl⟩

/-- What is returned stands for definitions if and only if all of it stands for rules. -/
theorem exists_resultGives_iff {returned : List (Value Code × Value Code)} :
    (∃ defined, List.Forall₂ ResultGives returned defined) ↔
      ∀ entry ∈ returned, ∃ r, entry.2.toRule = .ok r := by
  rw [exists_forall₂_iff]
  refine forall₂_congr fun entry _ ↦ ?_
  constructor
  · rintro ⟨defined, rule, -⟩
    exact ⟨defined.2, rule⟩
  · rintro ⟨r, rule⟩
    exact ⟨(entry.1, r), rule, rfl⟩

/-- Calls the function of a rule and looks at what it returns. -/
def returned (setting : Setting Code) (inherited : Definitions Code)
    (entry : Value Code × Callable (Value Code) Code) : Exec Code (Value Code × Value Code) := do
  let place := (setting.made "call" "rules").part entry.1.shown
  let raw ← setting.call place entry.2 (.ofOption (inherited.find? entry.1))
  return (entry.1, ← Exec.present raw)

/-- The functions have the names of the entries. -/
theorem names_of_entryGives {entries : List (Value Code × Value Code)}
    {functions : List (Value Code × Callable (Value Code) Code)}
    (h : List.Forall₂ EntryGives entries functions) :
    functions.map (·.1) = Table.keys entries := by
  induction h with
  | nil => rfl
  | cons first _ ih => rw [List.map_cons, ih, first.2.2, Table.keys, Table.keys, List.map_cons]

/-- The rules defined have the names of what was returned. -/
theorem names_of_resultGives {returned : List (Value Code × Value Code)}
    {defined : List (Value Code × Rule (Value Code))}
    (h : List.Forall₂ ResultGives returned defined) :
    defined.map (·.1) = Table.keys returned := by
  induction h with
  | nil => rfl
  | cons first _ ih => rw [List.map_cons, ih, first.2, Table.keys, Table.keys, List.map_cons]

/-- What is returned has the names of the functions. -/
theorem keys_mapM_returned {setting : Setting Code} {inherited : Definitions Code}
    {functions : List (Value Code × Callable (Value Code) Code)}
    {results : List (Value Code × Value Code)} {before after : Store Code}
    (h : (functions.mapM (returned setting inherited)).Returns before results after) :
    Table.keys results = functions.map (·.1) := by
  induction functions generalizing before results with
  | nil =>
    obtain ⟨rfl, -⟩ := (Exec.returns_pure _ _).1 h
    rfl
  | cons function rest ih =>
    obtain ⟨first, between, others, called, more, rfl⟩ := (Exec.returns_mapM_cons _ _ _ _).1 h
    have same : first.1 = function.1 := by
      simp only [returned, Exec.returns_bind, Exec.returns_pure] at called
      obtain ⟨_, _, _, _, _, _, rfl, _⟩ := called
      rfl
    rw [Table.keys, List.map_cons, List.map_cons, same]
    exact congrArg _ (ih more)

private theorem yields_declareEntry (inherited : Definitions Code) (entry : Value Code × Value Code)
    (result : Option (Value Code × Callable (Value Code) Code)) :
    Yields .failFast (declareEntry inherited entry) before result after ↔
      ∃ function, result = some function ∧ EntryGives entry function ∧
        (∀ name ∈ entryName? inherited entry, name ∉ before.names.keys) ∧
        after = before.declaring "rule" (entryName? inherited entry).toList := by
  obtain ⟨name, v⟩ := entry
  unfold declareEntry EntryGives entryName?
  cases valid : name.isValidName with
  | false => simp [valid]
  | true =>
    cases function : v.callable? with
    | none => simp [valid, function]
    | some f =>
      cases old : Table.has inherited name with
      | true => simp [valid, function, old]
      | false =>
        have free : Table.has before.names name = false ↔ name ∉ before.names.keys := by
          rw [← Table.has_validName before.names valid, Bool.not_eq_true]
        simp [valid, function, old, free, Value.canBeKey_of_isValidName valid, and_assoc, and_comm]

private theorem yields_define (setting : Setting Code) (inherited : Definitions Code)
    (entry : Value Code × Callable (Value Code) Code)
    (result : Option (Value Code × Rule (Value Code))) :
    Yields .failFast (define setting inherited entry) before result after ↔
      ∃ c store defined, (returned setting inherited entry).Returns before.store c store ∧
        result = some defined ∧ ResultGives c defined ∧ after = { before with store } := by
  obtain ⟨name, f⟩ := entry
  simp only [define, returned, Build.yields_bind, Build.yields_absorb_failFast, Exec.returns_bind,
    Exec.returns_present, Exec.returns_pure]
  constructor
  · rintro ⟨_, _, ⟨raw, store, called, rfl, rfl⟩, next⟩
    simp only [Build.yields_bind, Build.yields_present, Build.yields_normalize_failFast,
      Build.yields_pure] at next
    obtain ⟨_, _, ⟨rfl, rfl⟩, _, _, ⟨r, rule, rfl, rfl⟩, rfl, rfl⟩ := next
    exact ⟨_, store, (name, r), ⟨raw, store, called, _, _, ⟨rfl, rfl⟩, rfl, rfl⟩, rfl,
      ⟨rule, rfl⟩, rfl⟩
  · rintro ⟨_, _, ⟨_, r⟩, ⟨raw, store, called, _, _, ⟨rfl, rfl⟩, rfl, rfl⟩, rfl, ⟨rule, rfl⟩, rfl⟩
    refine ⟨some raw, _, ⟨raw, _, called, rfl, rfl⟩, ?_⟩
    simp [rule]

/-- The symbols of some definitions, which have to be rules. -/
theorem symbols_eq_ok (definitions names : List (Value Code)) :
    symbols definitions = .ok names ↔
      ∃ rules : List (Rule (Value Code)), definitions = rules.map .rule ∧
        names = (Rule.mentionsOfAll rules).foldl Rule.addName [] := by
  unfold symbols
  generalize ([] : List (Value Code)) = found
  induction definitions generalizing found with
  | nil =>
    constructor
    · rintro ⟨⟩
      exact ⟨[], rfl, rfl⟩
    · rintro ⟨_ | _, eq, rfl⟩
      · rfl
      · cases eq
  | cons v rest ih =>
    rw [List.foldlM_cons]
    constructor
    · intro h
      cases v with
      | rule r =>
        obtain ⟨rules, rfl, rfl⟩ := (ih (r.addSymbols found)).1 h
        refine ⟨r :: rules, rfl, ?_⟩
        rw [Rule.mentionsOfAll, List.foldl_append, Rule.addSymbols_eq_foldl]
      | missing | bool | int | double | string | list | tuple | mapping | pattern | callable
      | builder | grammar | references => cases h
    · rintro ⟨_ | ⟨r, rules⟩, eq, rfl⟩
      · cases eq
      · cases eq
        refine (ih (r.addSymbols found)).2 ⟨rules, rfl, ?_⟩
        rw [Rule.mentionsOfAll, List.foldl_append, Rule.addSymbols_eq_foldl]

/-- All names that some definitions refer to are declared. -/
theorem yields_resolve (definitions : Definitions Code) (u : Unit) :
    Yields .failFast (resolve definitions) before u after ↔
      (∃ rules : List (Rule (Value Code)),
        definitions.map (fun entry ↦ before.store.present entry.2) = rules.map .rule ∧
        ∀ name ∈ (Rule.mentionsOfAll rules).foldl Rule.addName [],
          name.canBeKey = true ∧ before.names.has name = true) ∧ after = before := by
  have check (names : List (Value Code)) (u : Unit) :
      Yields .failFast (names.forM fun name ↦ discard (Build.requireDeclared "rules" none name))
        before u after ↔ _ :=
    Build.yields_forM u fun name _ u between ↦ show _ ↔
        (name.canBeKey = true ∧ before.names.has name = true) ∧ between = before by
      simp [and_assoc]
  unfold resolve
  simp only [Build.yields_bind, Build.yields_mapM_present, Build.yields_ofOutcome]
  constructor
  · rintro ⟨_, _, ⟨rfl, rfl⟩, names, _, ⟨symbols, rfl⟩, next⟩
    obtain ⟨declared, rfl⟩ := (check names u).1 next
    obtain ⟨rules, eq, rfl⟩ := (symbols_eq_ok _ names).1 symbols
    exact ⟨⟨rules, eq, declared⟩, rfl⟩
  · rintro ⟨⟨rules, eq, declared⟩, rfl⟩
    exact ⟨_, after, ⟨rfl, rfl⟩, _, after, ⟨(symbols_eq_ok _ _).2 ⟨rules, eq, rfl⟩, rfl⟩,
      (check _ u).2 ⟨declared, rfl⟩⟩

/-- The rules of a grammar after rules have been defined. -/
def merged (inherited : Definitions Code) (defined : List (Value Code × Rule (Value Code))) :
    Definitions Code :=
  defined.foldl (fun table (name, r) ↦ table.insert name (.rule r)) inherited

/-- The names of the rules of a grammar are the inherited ones and those of rules defined. -/
theorem mem_keys_merged {inherited : Definitions Code}
    {defined : List (Value Code × Rule (Value Code))}
    (h : ∀ entry ∈ defined, entry.1.isValidName = true) (name : Value Code) :
    name ∈ (merged inherited defined).keys ↔
      name ∈ inherited.keys ∨ name ∈ defined.map Prod.fst := by
  unfold merged
  induction defined generalizing inherited with
  | nil => simp
  | cons entry rest ih =>
    rw [List.foldl_cons, ih fun other ho ↦ h other (List.mem_cons_of_mem entry ho),
      Table.mem_keys_insert _ _ (h entry List.mem_cons_self), List.map_cons, List.mem_cons,
      or_assoc]

/-- The rules: the inherited names are declared, then those of the entries; then the functions are
called, and last all names referred to are looked up. -/
theorem yields_fromEntries (setting : Setting Code) (inherited : Definitions Code) (v : Value Code)
    (entries : List (Value Code × Value Code)) (definitions : Definitions Code) :
    Yields .failFast (fromEntries setting inherited v entries) before definitions after ↔
      ∃ declared functions cs store defined,
        Yields .failFast (inherit inherited) before () declared ∧
        (List.Forall₂ EntryGives entries functions ∧
          (entries.filterMap (entryName? inherited)).Nodup ∧
          ∀ name ∈ entries.filterMap (entryName? inherited), name ∉ declared.names.keys) ∧
        ((functions.mapM (returned setting inherited)).Returns declared.store cs store ∧
          List.Forall₂ ResultGives cs defined) ∧
        (definitions = merged inherited defined ∧ definitions.isEmpty = false) ∧
        Yields .failFast (resolve definitions)
          { declared.declaring "rule" (entries.filterMap (entryName? inherited)) with store } ()
          after := by
  have declare (between : Journal Code) (functions : List (Value Code × Callable (Value Code) Code))
      (next : Journal Code) :
      Yields .failFast (Build.filterMap (declareEntry inherited) entries) between functions
        next ↔ _ :=
    Build.yields_filterMap_declare functions fun entry _ _ result _ ↦
      yields_declareEntry inherited entry result
  have define (functions : List (Value Code × Callable (Value Code) Code)) (between : Journal Code)
      (defined : List (Value Code × Rule (Value Code))) (next : Journal Code) :
      Yields .failFast (Build.filterMap (Rules.define setting inherited) functions) between defined
        next ↔ _ :=
    Build.yields_filterMap_perform defined fun entry _ _ result _ ↦
      yields_define setting inherited entry result
  have rules (defined : List (Value Code × Rule (Value Code))) :
      defined.foldl (fun table (name, r) ↦ table.insert name (.rule r)) inherited =
        merged inherited defined := rfl
  unfold fromEntries
  simp only [Build.yields_bind, declare, define, rules]
  constructor
  · rintro ⟨_, declared, inherit, functions, _, ⟨gives, nodup, free, rfl⟩, defined, _,
      ⟨cs, store, called, given, rfl⟩, next⟩
    refine ⟨declared, functions, cs, store, defined, inherit, ⟨gives, nodup, free⟩,
      ⟨called, given⟩, ?_⟩
    cases empty : (merged inherited defined).isEmpty with
    | true => simp [empty] at next
    | false =>
      simp only [empty, Bool.false_eq_true, if_false, Build.yields_bind, Build.yields_pure] at next
      obtain ⟨_, _, resolved, rfl, rfl⟩ := next
      exact ⟨⟨rfl, empty⟩, resolved⟩
  · rintro ⟨declared, functions, cs, store, defined, inherit, ⟨gives, nodup, free⟩,
      ⟨called, given⟩, ⟨rfl, some⟩, resolved⟩
    refine ⟨(), declared, inherit, functions, _, ⟨gives, nodup, free, rfl⟩, defined, _,
      ⟨cs, store, called, given, rfl⟩, ?_⟩
    simp only [some, Bool.false_eq_true, if_false, Build.yields_bind, Build.yields_pure]
    exact ⟨(), after, resolved, trivial, rfl⟩

/-- The rules section is a mapping. -/
theorem yields_validate (setting : Setting Code) (inherited : Definitions Code) (v : Value Code)
    (definitions : Definitions Code) :
    Yields .failFast (validate setting inherited v) before definitions after ↔
      ∃ entries, v.object? = some entries ∧
        Yields .failFast (fromEntries setting inherited v entries) before definitions after := by
  unfold validate
  cases v with
  | mapping entries => simp [guarded, Guard.before, Shape.admits, Value.object?]
  | missing | bool | int | double | string | list | tuple | pattern | callable | builder | rule
  | grammar | references =>
    simp [guarded, Guard.before, Shape.admits, Shape.problem?, Value.object?]

end Rules

/-! ### Arrays -/

/-- What an array gives, item by item, and what is taken if it is missing. -/
def ArrayGives {β : Type} (fallback : List β) (Gives : Value Code → β → Prop) (v : Value Code)
    (results : List β) : Prop :=
  v = .missing ∧ results = fallback ∨
    ∃ items, v.array? = some items ∧ List.Forall₂ Gives items results

/-- Whatever an array gives is given by something, if nothing is taken when it is missing. -/
theorem ArrayGives.exists_of_mem {β : Type} {Gives : Value Code → β → Prop} {v : Value Code}
    {results : List β} (h : ArrayGives [] Gives v results) {b : β} (hb : b ∈ results) :
    ∃ item, Gives item b := by
  rcases h with ⟨-, rfl⟩ | ⟨items, -, gives⟩
  · cases hb
  · exact exists_of_forall₂ gives hb

/-- A section that goes through the items of an array and changes nothing. -/
theorem yields_array {β : Type} {title : String} {fallback other : List β}
    {handler : List (Value Code) → Build Code (List β)} {Gives : Value Code → β → Prop}
    (v : Value Code) (results : List β)
    (h : ∀ items, Yields .failFast (handler items) before results after ↔
      List.Forall₂ Gives items results ∧ after = before) :
    Yields .failFast (guarded pure [⟨.present, fallback⟩, ⟨.array title, other⟩]
        (fun v ↦ handler (v.array?.getD [])) v) before results after ↔
      ArrayGives fallback Gives v results ∧ after = before := by
  rw [Build.yields_guarded_array]
  simp only [h, ArrayGives, or_and_right, and_assoc, ← exists_and_right]

/-! ### Extras -/

namespace Extras

/-- An item stands for a rule, whose names are declared if extras may refer to rules; otherwise the
name that it is, if it is one, is free. -/
def ItemGives (references : Bool) (names : Namespace Code) (raw : Value Code)
    (r : Rule (Value Code)) : Prop :=
  raw.toRule = .ok r ∧
    if references then ∀ name ∈ r.symbols, name.canBeKey = true ∧ names.has name = true
    else ∀ name ∈ r.referencedName?.bind Value.toOption,
      name.canBeKey = true ∧ names.has name = false

/-- An item. -/
theorem yields_fromItem (references : Bool) (raw : Value Code)
    (result : Option (Rule (Value Code))) :
    Yields .failFast (fromItem references raw) before result after ↔
      ∃ r, result = some r ∧ ItemGives references before.names raw r ∧ after = before := by
  have check (names : List (Value Code)) (u : Unit) (next : Journal Code) :
      Yields .failFast (names.forM fun name ↦ discard (Build.requireDeclared "extras" none name))
        before u next ↔ _ :=
    Build.yields_forM u fun name _ u between ↦ show _ ↔
        (name.canBeKey = true ∧ before.names.has name = true) ∧ between = before by
      simp [and_assoc]
  unfold fromItem ItemGives checkNames
  cases rule : raw.toRule with
  | error cause => simp [rule]
  | ok r =>
    cases references with
    | true => simp [-List.forM_eq_forM, rule, check, and_assoc, and_comm]
    | false =>
      cases name : r.referencedName?.bind Value.toOption with
      | none => simp [rule, name, and_comm]
      | some name => simp [rule, name, and_assoc, and_comm]

/-- The extras. -/
theorem yields_validate (references : Bool) (v : Value Code) (rules : List (Rule (Value Code))) :
    Yields .failFast (validate references v) before rules after ↔
      ArrayGives [blankCharacter] (ItemGives references before.names) v rules ∧ after = before :=
  yields_array v rules fun _ ↦ Build.yields_filterMap_pure rules fun raw _ result _ ↦
    yields_fromItem references raw result

end Extras

/-! ### Names -/

namespace Names

/-- An entry gives its name, which has the right form and is declared. -/
def EntryGives (names : Namespace Code) (entry name : Value Code) : Prop :=
  name = entry.nameOf ∧ name.isValidName = true ∧ name ∈ names.keys

/-- A conflict is an array of at least two names. -/
def ConflictGives (names : Namespace Code) (group : Value Code) (result : List (Value Code)) :
    Prop :=
  ∃ items, group.array? = some items ∧ List.Forall₂ (EntryGives names) items result ∧
    2 ≤ result.length

/-- A supertype is a name, and no alias. -/
def SupertypeGives (names : Namespace Code) (entry name : Value Code) : Prop :=
  isAlias entry = false ∧ EntryGives names entry name

/-- The word is a name or missing. -/
def WordGives (names : Namespace Code) (v word : Value Code) : Prop :=
  v = .missing ∧ word = .missing ∨ EntryGives names v word

/-- A name in the right form that is declared. -/
theorem yields_requireDeclared (context : String) (within : Option String) (name : Value Code)
    (valid : name.isValidName = true) (declared : Bool) :
    Yields .failFast (Build.requireDeclared context within name) before declared after ↔
      name ∈ before.names.keys ∧ declared = true ∧ after = before := by
  rw [Build.yields_requireDeclared_failFast, Table.has_validName before.names valid]
  simp [Value.canBeKey_of_isValidName valid]

/-- The name of the grammar. -/
theorem yields_validateName (v name : Value Code) :
    Yields .failFast (validateName v) before name after ↔
      v.isValidName = true ∧ name = v ∧ after = before := by
  unfold validateName
  cases valid : v.isValidName with
  | false => simp [valid]
  | true => simp [valid]

private theorem yields_inlineName (entry : Value Code) (result : Option (Value Code)) :
    Yields .failFast (inlineName entry) before result after ↔
      ∃ name, result = some name ∧ EntryGives before.names entry name ∧ after = before := by
  unfold inlineName EntryGives
  cases valid : entry.nameOf.isValidName with
  | false => simp [valid]
  | true => simp [valid, yields_requireDeclared _ _ _ valid, and_assoc, and_comm]

/-- The names that are put in place. -/
theorem yields_validateInline (v : Value Code) (names : List (Value Code)) :
    Yields .failFast (validateInline v) before names after ↔
      ArrayGives [] (EntryGives before.names) v names ∧ after = before :=
  yields_array v names fun _ ↦ Build.yields_filterMap_pure names fun entry _ result _ ↦
    yields_inlineName entry result

private theorem yields_conflictName (entry : Value Code) (result : Option (Value Code)) :
    Yields .failFast (conflictName entry) before result after ↔
      ∃ name, result = some name ∧ EntryGives before.names entry name ∧ after = before := by
  unfold conflictName EntryGives
  cases valid : entry.nameOf.isValidName with
  | false => simp [valid]
  | true =>
    simp [valid, yields_requireDeclared _ _ _ valid, and_assoc, and_comm, and_left_comm]

private theorem yields_conflict (group : Value Code) (result : Option (List (Value Code))) :
    Yields .failFast (conflict group) before result after ↔
      ∃ names, result = some names ∧ ConflictGives before.names group names ∧ after = before := by
  have entries (items names : List (Value Code)) (next : Journal Code) :
      Yields .failFast (Build.filterMap conflictName items) before names next ↔ _ :=
    Build.yields_filterMap_pure names fun entry _ result _ ↦ yields_conflictName entry result
  unfold conflict ConflictGives
  cases array : group.array? with
  | none => simp
  | some items =>
    simp only [Build.yields_bind, entries, Option.some.injEq, exists_eq_left']
    constructor
    · rintro ⟨names, _, ⟨gives, rfl⟩, next⟩
      by_cases short : names.length < 2
      · simp [short] at next
      · simp only [short, if_false, Build.yields_pure] at next
        obtain ⟨rfl, rfl⟩ := next
        exact ⟨names, rfl, ⟨gives, by omega⟩, rfl⟩
    · rintro ⟨names, rfl, ⟨gives, enough⟩, rfl⟩
      have short : ¬ names.length < 2 := by omega
      exact ⟨names, after, ⟨gives, rfl⟩, by simp [short]⟩

/-- The conflicts. -/
theorem yields_validateConflicts (v : Value Code) (groups : List (List (Value Code))) :
    Yields .failFast (validateConflicts v) before groups after ↔
      ArrayGives [] (ConflictGives before.names) v groups ∧ after = before :=
  yields_array v groups fun _ ↦ Build.yields_filterMap_pure groups fun group _ result _ ↦
    yields_conflict group result

/-- The word. -/
theorem yields_validateWord (v word : Value Code) :
    Yields .failFast (validateWord v) before word after ↔
      WordGives before.names v word ∧ after = before := by
  have named (name : Value Code) :
      Yields .failFast (do
        if ← Build.requireValidName "word" none name then
          if ← Build.requireDeclared "word" none name then return name
          else return .missing
        else return .missing) before word after ↔
        (word = name ∧ word.isValidName = true ∧ word ∈ before.names.keys) ∧ after = before := by
    cases valid : name.isValidName with
    | false =>
      simp only [Build.yields_bind, Build.yields_requireValidName_failFast, valid]
      constructor
      · rintro ⟨_, _, ⟨⟨⟩, -⟩, -⟩
      · rintro ⟨⟨rfl, named, -⟩, -⟩
        rw [valid] at named
        cases named
    | true =>
      simp only [Build.yields_bind, Build.yields_requireValidName_failFast, valid]
      constructor
      · rintro ⟨_, _, ⟨-, rfl, rfl⟩, next⟩
        simp only [if_true, Build.yields_bind, yields_requireDeclared _ _ _ valid] at next
        obtain ⟨_, _, ⟨declared, rfl, rfl⟩, next⟩ := next
        obtain ⟨rfl, rfl⟩ := (Build.yields_pure _ _).1 next
        exact ⟨⟨rfl, valid, declared⟩, rfl⟩
      · rintro ⟨⟨rfl, -, declared⟩, rfl⟩
        refine ⟨true, after, ⟨trivial, rfl, rfl⟩, ?_⟩
        simp [yields_requireDeclared _ _ _ valid, declared]
  unfold validateWord WordGives EntryGives
  cases v with
  | missing =>
    refine (Build.yields_pure _ _).trans (and_congr_left fun _ ↦ ?_)
    constructor
    · rintro rfl
      exact .inl ⟨rfl, rfl⟩
    · rintro (⟨-, rfl⟩ | ⟨rfl, valid, -⟩)
      · rfl
      · cases valid
  | string | bool | int | double | list | tuple | mapping | pattern | callable | builder | rule
  | grammar | references =>
    exact (named _).trans (by simp)

private theorem yields_supertype (entry : Value Code) (result : Option (Value Code)) :
    Yields .failFast (supertype entry) before result after ↔
      ∃ name, result = some name ∧ SupertypeGives before.names entry name ∧ after = before := by
  unfold supertype SupertypeGives EntryGives
  cases other : isAlias entry with
  | true => simp
  | false =>
    cases valid : entry.nameOf.isValidName with
    | false => simp [valid]
    | true => simp [valid, yields_requireDeclared _ _ _ valid, and_assoc, and_comm]

/-- The supertypes. -/
theorem yields_validateSupertypes (v : Value Code) (names : List (Value Code)) :
    Yields .failFast (validateSupertypes v) before names after ↔
      ArrayGives [] (SupertypeGives before.names) v names ∧ after = before :=
  yields_array v names fun _ ↦ Build.yields_filterMap_pure names fun entry _ result _ ↦
    yields_supertype entry result

end Names

/-! ### Precedences -/

namespace Precedences

/-- An item is a literal string or a declared symbol. -/
def ItemGives (names : Namespace Code) (raw : Value Code) (r : Rule (Value Code)) : Prop :=
  raw.toRule = .ok r ∧ ((∃ v, r = .string v) ∨
    ∃ name, r = .symbol name ∧ name.canBeKey = true ∧ names.has name = true)

/-- A group is an array of such items. -/
def GroupGives (names : Namespace Code) (group : Value Code) (rules : List (Rule (Value Code))) :
    Prop :=
  ∃ items, group.array? = some items ∧ List.Forall₂ (ItemGives names) items rules

private theorem yields_fromItem (group entry : Nat) (raw : Value Code)
    (result : Option (Rule (Value Code))) :
    Yields .failFast (fromItem group entry raw) before result after ↔
      ∃ r, result = some r ∧ ItemGives before.names raw r ∧ after = before := by
  unfold fromItem ItemGives
  cases rule : raw.toRule with
  | error cause => simp [rule]
  | ok r =>
    cases r with
    | symbol name => simp [rule, and_assoc, and_comm]
    | string v => simp [rule, and_comm]
    | bare | pattern | blank | group | wrap | prec | field | aliased => simp [rule]

private theorem yields_fromGroup (index : Nat) (group : Value Code)
    (result : Option (List (Rule (Value Code)))) :
    Yields .failFast (fromGroup index group) before result after ↔
      ∃ rules, result = some rules ∧ GroupGives before.names group rules ∧ after = before := by
  have items (items : List (Value Code)) (rules : List (Rule (Value Code))) (next : Journal Code) :
      Yields .failFast (Build.filterMapIdx (fromItem index) items) before rules next ↔ _ :=
    Build.yields_filterMapIdx_pure rules fun entry raw result _ ↦
      yields_fromItem index entry raw result
  unfold fromGroup GroupGives
  cases array : group.array? with
  | none => simp
  | some raws => simp [items, and_comm]

/-- The precedences. -/
theorem yields_validate (v : Value Code) (groups : List (List (Rule (Value Code)))) :
    Yields .failFast (validate v) before groups after ↔
      ArrayGives [] (GroupGives before.names) v groups ∧ after = before :=
  yields_array v groups fun _ ↦ Build.yields_filterMapIdx_pure groups fun index group result _ ↦
    yields_fromGroup index group result

end Precedences

end GrammarDoc
