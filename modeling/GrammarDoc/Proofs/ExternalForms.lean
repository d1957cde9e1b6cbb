import GrammarDoc.Proofs.Build.Reporting

/-!
# Accounts of externals

What externals come to in a build that collects problems and has declared nothing before. In either
form each of them is kept or is dropped with one problem. In a mapping every key that is kept is
declared. In a list only symbols declare names, and of symbols with the same name all are kept, but
all after the first are reported. So a list of symbols of different names and the mapping of these
names to their symbols come to the same.
-/

namespace GrammarDoc

open Build (Yields failure?)

variable {Code : Type} {before after : Journal Code}

namespace Externals

/-! ### Verdicts -/

/-- What is found about one of the externals: the rule it is kept as, or the problem for which it is
dropped. -/
abbrev Verdict (Code : Type) := Except (Problem Code) (Rule (Value Code))

/-- The rules that are kept. -/
def kept (verdicts : List (Verdict Code)) : List (Rule (Value Code)) :=
  verdicts.filterMap Except.toOption

/-- The problems for which externals are dropped. -/
def refusals (verdicts : List (Verdict Code)) : List (Problem Code) := verdicts.filterMap failure?

/-- That a value stands for a rule, or does not. -/
def verdict (raw : Value Code) : Verdict Code :=
  raw.toRule.mapError fun cause ↦ ⟨cause, some "externals"⟩

/-- An item of a list stands for a rule, and a symbol has to have a name of the right form. -/
def verdictOfItem (raw : Value Code) : Verdict Code :=
  match verdict raw with
  | .ok (.symbol name) =>
    if name.isValidName then .ok (.symbol name)
    else .error ⟨.malformedName "externals" name, some "externals"⟩
  | found => found

/-- An entry of a mapping has a key of the right form and stands for a rule, and a symbol has to be
that of the key. -/
def verdictOfEntry (entry : Value Code × Value Code) : Verdict Code :=
  if entry.1.isValidName then
    match verdict entry.2 with
    | .ok r =>
      match misnamed? entry.1 r with
      | some name => .error ⟨.misnamedExternal entry.1 name entry.2, some "externals"⟩
      | none => .ok r
    | found => found
  else .error ⟨.malformedName "externals" entry.1, some "externals"⟩

/-! ### Lists -/

/-- The names of the symbols that are kept. -/
def symbolNames (verdicts : List (Verdict Code)) : List (Value Code) :=
  (kept verdicts).filterMap Rule.symbolName?

/-- The problems with a list, given the names that are declared: for each item that it is dropped,
or that it is a symbol whose name is declared already. -/
def problemsOf (names : List (Value Code)) : List (Verdict Code) → List (Problem Code)
  | [] => []
  | .error p :: rest => p :: problemsOf names rest
  | .ok (.symbol name) :: rest =>
    if name.isIn names then
      ⟨.declaredTwice "externals" name "externals", some "externals"⟩ :: problemsOf names rest
    else problemsOf (names ++ [name]) rest
  | .ok _ :: rest => problemsOf names rest

/-- The journal once an item of a list has been gone through, given the names that are declared. -/
def afterItem (journal : Journal Code) (names : List (Value Code)) :
    Verdict Code → Journal Code
  | .error p => journal.reporting [p]
  | .ok (.symbol name) =>
    if name.isIn names then
      journal.reporting [⟨.declaredTwice "externals" name "externals", some "externals"⟩]
    else journal.declaring "externals" [name]
  | .ok _ => journal

/-- An item of a list is kept or dropped. -/
theorem account_fromItem {names : List (Value Code)} {raw : Value Code}
    {result : Option (Rule (Value Code))}
    (declared : before.names = names.map fun name ↦ (name, "externals"))
    (h : Yields .collect (fromItem raw) before result after) :
    result = (verdictOfItem raw).toOption ∧ after = afterItem before names (verdictOfItem raw) := by
  unfold fromItem at h
  rw [Build.yields_normalize_bind] at h
  unfold verdictOfItem verdict
  cases made : raw.toRule with
  | error cause =>
    rw [made] at h
    obtain ⟨rfl, rfl⟩ := (Build.yields_pure _ _).1 h
    exact ⟨rfl, rfl⟩
  | ok r =>
    rw [made] at h
    cases r with
    | symbol name =>
      dsimp only [Except.mapError] at h ⊢
      rw [Build.yields_requireValidName_bind] at h
      by_cases valid : name.isValidName = true
      · have key := Value.canBeKey_of_isValidName valid
        rw [valid, if_pos rfl, if_pos rfl, Journal.reporting_nil, Build.yields_discard_bind,
          Build.yields_declare_bind key] at h
        obtain ⟨rfl, rfl⟩ := (Build.yields_pure _ _).1 h
        rw [if_pos valid, afterItem, declared, Table.find?_tagged]
        cases name.isIn names with
        | true => exact ⟨rfl, rfl⟩
        | false => exact ⟨rfl, rfl⟩
      · rw [Bool.not_eq_true] at valid
        rw [valid] at h
        obtain ⟨rfl, rfl⟩ := (Build.yields_pure _ _).1 h
        rw [valid]
        exact ⟨rfl, rfl⟩
    | _ =>
      obtain ⟨rfl, rfl⟩ := (Build.yields_pure _ _).1 h
      exact ⟨rfl, rfl⟩

/-- The journal with other names, all declared by externals. -/
def naming (journal : Journal Code) (names : List (Value Code)) : Journal Code :=
  { journal with names := names.map fun name ↦ (name, "externals") }

/-- A list is gone through item by item: each is kept or dropped, and each kept symbol declares its
name or is reported. -/
theorem account_fromList {names items : List (Value Code)} {rules : List (Rule (Value Code))}
    (declared : before.names = names.map fun name ↦ (name, "externals"))
    (h : Yields .collect (fromList items) before rules after) :
    rules = kept (items.map verdictOfItem) ∧
      after = (naming before ((symbolNames (items.map verdictOfItem)).foldl Rule.addName
        names)).reporting (problemsOf names (items.map verdictOfItem)) := by
  -- The induction takes along the names declared so far, which decide whether a symbol repeats one.
  induction items generalizing before names rules with
  | nil =>
    obtain ⟨rfl, rfl⟩ := (Build.yields_filterMap_nil _ _).1 h
    refine ⟨rfl, ?_⟩
    change after = (naming after names).reporting []
    rw [Journal.reporting_nil, naming, ← declared]
  | cons raw rest ih =>
    obtain ⟨result, between, first, more, others, rfl⟩ := (Build.yields_filterMap_cons _ _ _ _).1 h
    obtain ⟨rfl, rfl⟩ := account_fromItem declared first
    have reported (problems : List (Problem Code)) : (before.reporting problems).names =
        names.map fun name ↦ (name, "externals") := declared
    rw [List.map_cons]
    generalize verdictOfItem raw = found at others ⊢
    cases found with
    | error p =>
      obtain ⟨rfl, rfl⟩ := ih (reported _) others
      exact ⟨rfl, Journal.reporting_append (naming before _) [p] _⟩
    | ok r =>
      cases r with
      | symbol name =>
        dsimp only [afterItem] at others
        change _ ∧ after = (naming before ((name :: symbolNames (rest.map verdictOfItem)).foldl
          Rule.addName names)).reporting (if _ then _ else _)
        rw [List.foldl_cons, Rule.addName]
        by_cases old : name.isIn names = true
        · rw [if_pos old] at others ⊢
          rw [if_pos old]
          obtain ⟨rfl, rfl⟩ := ih (reported _) others
          exact ⟨rfl, Journal.reporting_append (naming before _) [_] _⟩
        · rw [if_neg old] at others ⊢
          rw [if_neg old]
          have declares : (before.declaring "externals" [name]).names =
              (names ++ [name]).map fun name ↦ (name, "externals") := by
            rw [List.map_append, ← declared]
            rfl
          obtain ⟨rfl, rfl⟩ := ih declares others
          exact ⟨rfl, rfl⟩
      | _ =>
        obtain ⟨rfl, rfl⟩ := ih declared others
        exact ⟨rfl, rfl⟩

/-- A list declares the names of its symbols, each once. -/
theorem yields_fromList (items : List (Value Code)) (fresh : before.names = []) :
    Yields .collect (fromList items) before (kept (items.map verdictOfItem))
      ((before.declaring "externals"
          (Value.distinct (symbolNames (items.map verdictOfItem)))).reporting
        (problemsOf [] (items.map verdictOfItem))) := by
  refine (Build.goesOn_filterMap fun raw _ _ ↦ goesOn_fromItem raw).yields
    fun rules between gone ↦ ?_
  have declared : before.names = [].map fun name ↦ (name, "externals") := fresh
  obtain ⟨eq, reported⟩ := account_fromList declared gone
  refine ⟨eq, reported.trans ?_⟩
  rw [Journal.declaring, fresh]
  rfl

/-! ### Mappings -/

/-- The key that an entry declares. -/
def keptKey? (entry : Value Code × Value Code) : Option (Value Code) :=
  (verdictOfEntry entry).toOption.map fun _ ↦ entry.1

/-- An entry of a mapping whose key is free is kept or dropped. -/
theorem account_fromEntry {entry : Value Code × Value Code}
    {result : Option (Rule (Value Code))}
    (free : entry.1.isValidName = true → before.names.find? entry.1 = none)
    (h : Yields .collect (fromEntry entry) before result after) :
    result = (verdictOfEntry entry).toOption ∧
      after = (before.declaring "externals" (keptKey? entry).toList).reporting
        (failure? (verdictOfEntry entry)).toList := by
  obtain ⟨key, raw⟩ := entry
  unfold fromEntry at h
  dsimp only at free h
  rw [Build.yields_requireValidName_bind] at h
  unfold keptKey? verdictOfEntry verdict
  dsimp only
  by_cases valid : key.isValidName = true
  · rw [valid, if_pos rfl, if_pos rfl, Journal.reporting_nil, Build.yields_normalize_bind] at h
    rw [if_pos valid]
    cases made : raw.toRule with
    | error cause =>
      rw [made] at h
      obtain ⟨rfl, rfl⟩ := (Build.yields_pure _ _).1 h
      simp [Except.mapError, Except.toOption, failure?]
    | ok r =>
      rw [made] at h
      dsimp only [Except.mapError] at h ⊢
      cases named : misnamed? key r with
      | some name =>
        rw [named] at h
        obtain ⟨rfl, -, rfl⟩ := (Build.yields_reportIn_return _ _ _ _).1 h
        simp [Except.toOption, failure?, Journal.reported, Journal.reporting]
      | none =>
        rw [named] at h
        dsimp only at h
        rw [Build.yields_discard_bind,
          Build.yields_declare_bind (Value.canBeKey_of_isValidName valid), free valid] at h
        obtain ⟨rfl, rfl⟩ := (Build.yields_pure _ _).1 h
        exact ⟨rfl, (Journal.reporting_nil _).symm⟩
  · rw [Bool.not_eq_true] at valid
    rw [valid] at h
    obtain ⟨rfl, rfl⟩ := (Build.yields_pure _ _).1 h
    simp [valid, Except.toOption, failure?, attribution]

private theorem yields_fromEntries {entries : List (Value Code × Value Code)}
    (distinct : Rules.Distinct entries) (fresh : before.names = []) :
    Yields .collect (Build.filterMap fromEntry entries) before (kept (entries.map verdictOfEntry))
      ((before.declaring "externals" (entries.filterMap keptKey?)).reporting
        (refusals (entries.map verdictOfEntry))) := by
  refine (Build.goesOn_filterMap fun entry _ _ ↦ goesOn_fromEntry entry).yields
    fun rules between gone ↦ ?_
  rw [kept, refusals, List.filterMap_map, List.filterMap_map]
  -- An entry fits a journal in which its key is free.
  refine Build.of_yields_filterMap "externals" keptKey?
    (fun entry journal ↦ entry.1.isValidName = true → journal.names.find? entry.1 = none) gone
    (fun entry _ journal result after free gives ↦ account_fromEntry free gives) ?_ ?_
  · intro entry _ _
    rw [fresh]
    rfl
  · refine distinct.imp fun {entry other} apart journal free valid ↦ ?_
    refine (journal.find?_declaring_of_notMem "externals" valid fun mem ↦ ?_).trans (free valid)
    obtain ⟨_, -, eq⟩ := Option.map_eq_some_iff.1 (Option.mem_toList.1 mem)
    exact apart (eq ▸ valid) eq

/-! ### Either form -/

/-- What is found about the symbol of a name. -/
theorem verdictOfItem_symbol (s : String) :
    verdictOfItem (.symbol (.string s) : Value Code) =
      if (Value.string s : Value Code).isValidName then .ok (.symbol (.string s))
      else .error ⟨.malformedName "externals" (.string s), some "externals"⟩ := rfl

private theorem verdictOfEntry_symbol (s : String) :
    verdictOfEntry ((.string s : Value Code), .symbol (.string s)) =
      verdictOfItem (.symbol (.string s)) := by
  have same : (Value.string s : Value Code).same (.string s) = true :=
    (Value.string_same s _).2 rfl
  rw [verdictOfItem_symbol, verdictOfEntry]
  change (if _ then match (if _ then _ else _ : Option (Value Code)) with
    | some name => _
    | none => _ else _) = _
  rw [if_pos same]

private theorem problemsOf_symbols {declared names : List String}
    (nodup : (declared ++ names).Nodup) : problemsOf (declared.map Value.string)
        (names.map fun s ↦ verdictOfItem (.symbol (.string s) : Value Code)) =
      refusals (names.map fun s ↦ verdictOfItem (.symbol (.string s))) := by
  induction names generalizing declared with
  | nil => rfl
  | cons s rest ih =>
    rw [List.map_cons, verdictOfItem_symbol]
    by_cases valid : (Value.string s : Value Code).isValidName = true
    · rw [if_pos valid]
      have new : ¬ (Value.string s : Value Code).isIn (declared.map .string) = true := by
        rw [Value.string_isIn]
        intro old
        obtain ⟨t, ht, eq⟩ := List.mem_map.1 old
        cases eq
        exact (List.nodup_append.1 nodup).2.2 s ht s List.mem_cons_self rfl
      change (if _ then _ else _) = _
      rw [if_neg new]
      rw [List.append_cons] at nodup
      have later := ih nodup
      rw [List.map_append] at later
      exact later
    · rw [if_neg valid]
      have apart : (declared ++ rest).Nodup :=
        nodup.sublist ((List.sublist_cons_self s rest).append_left declared)
      exact congrArg (List.cons _) (ih apart)

private theorem symbolNames_symbols (names : List String) :
    symbolNames (names.map fun s ↦ verdictOfItem (.symbol (.string s) : Value Code)) =
      (names.filter Text.isIdentifier).map .string := by
  induction names with
  | nil => rfl
  | cons s rest ih =>
    rw [List.map_cons, verdictOfItem_symbol, List.filter_cons]
    by_cases valid : Text.isIdentifier s = true
    · rw [if_pos valid, Value.isValidName, if_pos valid, List.map_cons, ← ih]
      rfl
    · rw [if_neg valid, Value.isValidName, if_neg valid, ← ih]
      rfl

private theorem keptKeys_symbols (names : List String) :
    (names.map fun s ↦ ((.string s : Value Code), .symbol (.string s))).filterMap keptKey? =
      symbolNames (names.map fun s ↦ verdictOfItem (.symbol (.string s) : Value Code)) := by
  rw [symbolNames, kept, List.filterMap_filterMap, List.filterMap_map, List.filterMap_map]
  refine List.filterMap_congr fun s _ ↦ ?_
  change keptKey? _ = (verdictOfItem _).toOption.bind _
  rw [keptKey?, verdictOfEntry_symbol, verdictOfItem_symbol]
  split <;> rfl

/-- An array is a list. -/
theorem validate_of_array {v : Value Code} {items : List (Value Code)}
    (array : v.array? = some items) : validate v = fromList items := by
  rw [validate, array]

/-- What is no array is a mapping, is missing or is objected to. -/
theorem yields_validate_of_not_array {v : Value Code} {rules : List (Rule (Value Code))}
    (array : v.array? = none) :
    Yields .collect (validate v) before rules after ↔
      Yields .collect (Build.filterMap fromEntry (v.object?.getD []))
        (before.reporting (Shape.objections (.object "externals") v)) rules after := by
  rw [validate, array]
  exact Build.yields_guarded_filterMap Value.object? fromEntry v rules (fun _ ↦ rfl) (fun _ ↦ rfl)
    rfl

/-- What is a mapping is gone through entry by entry. -/
theorem yields_validate_of_object {v : Value Code} {entries : List (Value Code × Value Code)}
    (object : v.object? = some entries) (distinct : Rules.Distinct entries)
    (fresh : before.names = []) :
    Yields .collect (validate v) before (kept (entries.map verdictOfEntry))
      ((before.declaring "externals" (entries.filterMap keptKey?)).reporting
        (refusals (entries.map verdictOfEntry))) := by
  have admitted : (Shape.object "externals").admits v = true := by
    rw [Shape.admits, object, Option.isSome_some]
  rw [yields_validate_of_not_array (Value.array?_of_object? object),
    Shape.objections_of_admits admitted, Journal.reporting_nil, object]
  exact yields_fromEntries distinct fresh

/-- The symbols of different names come to the same as a list and as a mapping. -/
theorem start_validate_symbols {names : List String} {symbols mapping : Value Code}
    (nodup : names.Nodup)
    (array : symbols.array? = some (names.map fun s ↦ .symbol (.string s)))
    (object : mapping.object? = some (names.map fun s ↦ (.string s, .symbol (.string s))))
    (fresh : before.names = []) :
    Build.start (validate symbols) .collect before =
      Build.start (validate mapping) .collect before := by
  have distinct : Rules.Distinct
      (names.map fun s ↦ ((.string s : Value Code), .symbol (.string s))) := by
    refine List.pairwise_map.2 (nodup.imp fun {s t} ne _ eq ↦ ne ?_)
    exact Value.string.inj eq
  have listed := yields_fromList (names.map fun s ↦ (.symbol (.string s) : Value Code)) fresh
  have mapped := yields_validate_of_object object distinct fresh
  have once : Value.distinct ((names.filter Text.isIdentifier).map .string) =
      ((names.filter Text.isIdentifier).map .string : List (Value Code)) := by
    refine Rule.foldl_addName_of_nodup (fun name hn ↦ ?_) ?_
    · obtain ⟨s, -, rfl⟩ := List.mem_map.1 hn
      exact ⟨s, rfl⟩
    · exact (nodup.filter _).map fun s t eq ↦ Value.string.inj eq
  have ofItems : (names.map fun s ↦ (.symbol (.string s) : Value Code)).map verdictOfItem =
      names.map fun s ↦ verdictOfItem (.symbol (.string s)) := by
    rw [List.map_map]
    rfl
  have ofEntries : (names.map fun s ↦ ((.string s : Value Code), .symbol (.string s))).map
      verdictOfEntry = names.map fun s ↦ verdictOfItem (.symbol (.string s)) := by
    rw [List.map_map]
    exact List.map_congr_left fun s _ ↦ verdictOfEntry_symbol s
  have problems : problemsOf [] (names.map fun s ↦ verdictOfItem (.symbol (.string s))) =
      refusals (names.map fun s ↦ verdictOfItem (.symbol (.string s) : Value Code)) :=
    @problemsOf_symbols Code [] names nodup
  rw [ofItems, symbolNames_symbols, once, problems] at listed
  rw [ofEntries, keptKeys_symbols, symbolNames_symbols] at mapped
  rw [validate_of_array array]
  exact listed.trans mapped.symm

/-- Externals come to exactly this from an empty namespace, whatever value they are given as. Of a
list and of a mapping each of the externals is kept, in order, or is dropped with one problem. Of a
mapping the keys that are kept are declared; of a list the names of the symbols that are kept are,
each once, and every further symbol of the name is reported. All else is no externals, and an
objection if it is not missing. So symbols of different names come to the same in either form. -/
theorem accounts_in_either_form (fresh : before.names = []) (v : Value Code) :
    (∀ items, v.array? = some items →
      Yields .collect (validate v) before (kept (items.map verdictOfItem))
        ((before.declaring "externals"
            (Value.distinct (symbolNames (items.map verdictOfItem)))).reporting
          (problemsOf [] (items.map verdictOfItem)))) ∧
      (∀ entries, v.object? = some entries → Rules.Distinct entries →
        Yields .collect (validate v) before (kept (entries.map verdictOfEntry))
          ((before.declaring "externals" (entries.filterMap keptKey?)).reporting
            (refusals (entries.map verdictOfEntry)))) ∧
      (v.array? = none → v.object? = none → Yields .collect (validate v) before []
        (before.reporting (Shape.objections (.object "externals") v))) ∧
      ∀ (names : List String) (mapping : Value Code), names.Nodup →
        v.array? = some (names.map fun s ↦ .symbol (.string s)) →
        mapping.object? = some (names.map fun s ↦ (.string s, .symbol (.string s))) →
          Build.start (validate v) .collect before =
            Build.start (validate mapping) .collect before := by
  refine ⟨?list, ?mapping, ?other, ?forms⟩
  case list =>
    intro items array
    rw [validate_of_array array]
    exact yields_fromList items fresh
  case mapping =>
    intro entries object distinct
    exact yields_validate_of_object object distinct fresh
  case other =>
    intro array object
    rw [yields_validate_of_not_array array, object]
    exact (Build.yields_filterMap_nil _ _).2 ⟨rfl, rfl⟩
  case forms =>
    intro names mapping nodup array object
    exact start_validate_symbols nodup array object fresh

/-- A list of a symbol, the same symbol, a string and no rule; a mapping with a symbol of another
name; a number; and the symbols of a proper and an improper name in either form. -/
theorem accounts_in_either_form_each :
    (∃ rules after, Yields .collect (validate (.tuple
          [.symbol (.string "a"), .symbol (.string "a"), .string "x", .missing]))
          ({} : Journal Empty) rules after ∧
        rules.length = 3 ∧ after.names.map Prod.snd = ["externals"] ∧
        after.problems.map Problem.kind = [.duplicateName, .undefinedSymbol]) ∧
      (∃ rules after, Yields .collect (validate (.mapping { place := .step 0, toList := [
          (.string "a", .symbol (.string "b")), (.string "b", .string "x")] })) ({} : Journal Empty)
          rules after ∧
        rules.length = 1 ∧ after.names.map Prod.snd = ["externals"] ∧
        after.problems.map Problem.kind = [.mismatchedName]) ∧
      (∃ after, Yields .collect (validate (.int 0)) ({} : Journal Empty) [] after ∧
        after.problems.map Problem.kind = [.structuralShape]) ∧
      Build.start (validate (.tuple [.symbol (.string "a"), .symbol (.string "1")])) .collect
          ({} : Journal Empty) =
        Build.start (validate (.mapping { place := .step 0, toList := [
          (.string "a", .symbol (.string "a")), (.string "1", .symbol (.string "1"))] })) .collect
          {} := by
  refine ⟨⟨_, _, (accounts_in_either_form rfl _).1 _ rfl, ?_, ?_, ?_⟩,
    ⟨_, _, (accounts_in_either_form rfl _).2.1 _ rfl (by simp [Rules.Distinct]), ?_, ?_, ?_⟩,
    ⟨_, (accounts_in_either_form rfl _).2.2.1 rfl rfl, ?_⟩,
    (accounts_in_either_form rfl _).2.2.2 ["a", "1"] _ (by decide) rfl rfl⟩
  all_goals decide +kernel

end Externals

end GrammarDoc
