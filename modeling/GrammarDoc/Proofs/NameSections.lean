import GrammarDoc.Proofs.Build.Reporting

/-!
# Accounts of the sections of names

What the sections that only refer to names come to in a build that collects problems, for any value
and any names that are declared. Every entry is checked for itself, but what becomes of one that
does not stand the checks differs from section to section: a name that is not declared is kept among
the names that are put in place and the supertypes, is left out of a conflict, which may then be too
short, and is no word.
-/

namespace GrammarDoc

open Build (Yields)

variable {Code : Type} {α : Type} {before after : Journal Code}

namespace Names

/-! ### The checks of a name -/

/-- The name that an entry gives, if it has the form of one. -/
def validName? (entry : Value Code) : Option (Value Code) :=
  if entry.nameOf.isValidName then some entry.nameOf else none

/-- The name that an entry gives, if it has the form of one and is declared. -/
def declaredName? (names : Namespace Code) (entry : Value Code) : Option (Value Code) :=
  (validName? entry).filter fun name ↦ names.has name

/-- The problem with the name that an entry gives, which is checked in one context for its form and
in another for being declared. -/
def nameProblem? (form use title : String) (names : Namespace Code) (entry : Value Code) :
    Option (Problem Code) :=
  let name := entry.nameOf
  if !name.isValidName then some ⟨.malformedName form name, some title⟩
  else if !names.has name then some ⟨.undeclared use name, some title⟩
  else none

/-- An entry whose name is kept if it has the form of one, declared or not. -/
theorem of_yields_validName {form use title : String} {within within' : Option String}
    {entry : Value Code} {result : Option (Value Code)}
    (h : Yields .collect (do
      if ← Build.requireValidName form within entry.nameOf then
        discard (Build.requireDeclared use within' entry.nameOf)
        return some entry.nameOf
      else return none) before result after)
    (formed : attribution form within = some title)
    (used : attribution use within' = some title) :
    result = validName? entry ∧
      after = before.reporting (nameProblem? form use title before.names entry).toList := by
  unfold validName? nameProblem?
  rw [Build.yields_requireValidName_bind] at h
  cases valid : entry.nameOf.isValidName with
  | false =>
    rw [valid] at h
    obtain ⟨rfl, rfl⟩ := (Build.yields_pure _ _).1 h
    simp [valid, formed]
  | true =>
    have key := Value.canBeKey_of_isValidName valid
    rw [valid, if_pos rfl, if_pos rfl, Journal.reporting_nil, Build.yields_discard_bind,
      Build.yields_requireDeclared_bind _ _ key] at h
    obtain ⟨rfl, rfl⟩ := (Build.yields_pure _ _).1 h
    cases declared : before.names.has entry.nameOf <;> simp [valid, declared, used]

/-- What depends on an entry whose name has to have the form of one and to be declared. -/
theorem of_yields_declaredName {form use title : String} {within within' : Option String}
    {entry : Value Code} {result other : α} {f : Value Code → α}
    (h : Yields .collect (do
      if ← Build.requireValidName form within entry.nameOf then
        if ← Build.requireDeclared use within' entry.nameOf then return f entry.nameOf
        else return other
      else return other) before result after)
    (formed : attribution form within = some title)
    (used : attribution use within' = some title) :
    result = ((declaredName? before.names entry).map f).getD other ∧
      after = before.reporting (nameProblem? form use title before.names entry).toList := by
  unfold declaredName? validName? nameProblem?
  rw [Build.yields_requireValidName_bind] at h
  cases valid : entry.nameOf.isValidName with
  | false =>
    rw [valid] at h
    obtain ⟨rfl, rfl⟩ := (Build.yields_pure _ _).1 h
    simp [valid, formed]
  | true =>
    have key := Value.canBeKey_of_isValidName valid
    rw [valid, if_pos rfl, if_pos rfl, Journal.reporting_nil,
      Build.yields_requireDeclared_bind _ _ key] at h
    cases declared : before.names.has entry.nameOf with
    | false =>
      rw [declared] at h
      obtain ⟨rfl, rfl⟩ := (Build.yields_pure _ _).1 h
      simp [valid, declared, used, Option.filter]
    | true =>
      rw [declared] at h
      obtain ⟨rfl, rfl⟩ := (Build.yields_pure _ _).1 h
      simp [valid, declared, Option.filter]

/-! ### Entries -/

/-- An entry of the names that are put in place. -/
theorem account_inlineName {entry : Value Code} {result : Option (Value Code)}
    (h : Yields .collect (inlineName entry) before result after) :
    result = validName? entry ∧ after = before.reporting
      (nameProblem? "inline" "inline" "inline" before.names entry).toList :=
  of_yields_validName h rfl rfl

/-- The problem with a supertype: that it is an alias, or what is wrong with its name. -/
def supertypeProblem? (names : Namespace Code) (entry : Value Code) : Option (Problem Code) :=
  if isAlias entry then some ⟨.aliasedSupertype entry, some "supertypes"⟩
  else nameProblem? "supertypes" "supertype" "supertypes" names entry

/-- An entry of the supertypes. -/
theorem account_supertype {entry : Value Code} {result : Option (Value Code)}
    (h : Yields .collect (supertype entry) before result after) :
    result = (if isAlias entry then none else validName? entry) ∧
      after = before.reporting (supertypeProblem? before.names entry).toList := by
  unfold supertypeProblem?
  unfold supertype at h
  cases aliased : isAlias entry with
  | true =>
    rw [aliased] at h
    obtain ⟨rfl, -, rfl⟩ := (Build.yields_reportIn_return _ _ _ _).1 h
    exact ⟨rfl, rfl⟩
  | false =>
    rw [aliased] at h
    exact of_yields_validName h rfl rfl

/-- An entry of a conflict. -/
theorem account_conflictName {entry : Value Code} {result : Option (Value Code)}
    (h : Yields .collect (conflictName entry) before result after) :
    result = declaredName? before.names entry ∧ after = before.reporting
      (nameProblem? "conflict" "conflict" "conflicts" before.names entry).toList := by
  obtain ⟨eq, reported⟩ := of_yields_declaredName (f := some) h rfl rfl
  refine ⟨eq.trans ?_, reported⟩
  cases declaredName? before.names entry <;> rfl

/-- The names that are left of the entries of a conflict. -/
def namesLeft (names : Namespace Code) (entries : List (Value Code)) : List (Value Code) :=
  entries.filterMap (declaredName? names)

/-- The conflict that a group comes to, if it is an array and at least two names are left of it. -/
def conflict? (names : Namespace Code) (group : Value Code) : Option (List (Value Code)) :=
  (group.array?.map (namesLeft names)).filter fun left ↦ 2 ≤ left.length

/-- The problems with a group: that it is no array, or first those with its entries, and then that
fewer than two names are left. -/
def conflictProblems (names : Namespace Code) (group : Value Code) : List (Problem Code) :=
  match group.array? with
  | none => [⟨.conflictNotAnArray group, some "conflicts"⟩]
  | some entries =>
    entries.filterMap (nameProblem? "conflict" "conflict" "conflicts" names) ++
      if (namesLeft names entries).length < 2 then
        [⟨.shortConflict (namesLeft names entries) group, some "conflicts"⟩]
      else []

/-- A group of the conflicts. -/
theorem account_conflict {group : Value Code} {result : Option (List (Value Code))}
    (h : Yields .collect (conflict group) before result after) :
    result = conflict? before.names group ∧
      after = before.reporting (conflictProblems before.names group) := by
  unfold conflict? conflictProblems
  unfold conflict at h
  cases array : group.array? with
  | none =>
    rw [array] at h
    obtain ⟨rfl, -, rfl⟩ := (Build.yields_reportIn_return _ _ _ _).1 h
    exact ⟨rfl, rfl⟩
  | some entries =>
    rw [array] at h
    obtain ⟨left, between, gone, next⟩ := (Build.yields_bind _ _ _).1 h
    obtain ⟨rfl, rfl⟩ := Build.of_yields_filterMap_reporting gone
      fun entry journal b later same checked ↦ same ▸ account_conflictName checked
    rw [← List.filterMap_eq_flatMap_toList] at next
    change Yields .collect (if (namesLeft before.names entries).length < 2 then _ else _) _ _ _
      at next
    by_cases short : (namesLeft before.names entries).length < 2
    · rw [if_pos short] at next
      obtain ⟨rfl, -, rfl⟩ := (Build.yields_reportIn_return _ _ _ _).1 next
      dsimp only
      rw [if_pos short, ← Journal.reporting_append]
      exact ⟨by simp [Option.filter, short], rfl⟩
    · rw [if_neg short] at next
      obtain ⟨rfl, rfl⟩ := (Build.yields_pure _ _).1 next
      dsimp only
      rw [if_neg short, List.append_nil]
      have enough : 2 ≤ (namesLeft before.names entries).length := Nat.le_of_not_lt short
      change some (namesLeft before.names entries) = _ ∧ _
      exact ⟨by simp [Option.filter, enough], rfl⟩

/-- The problem with a word that is given. -/
def wordProblem? (names : Namespace Code) : Value Code → Option (Problem Code)
  | .missing => none
  | v => nameProblem? "word" "word" "word" names v

/-- The word. -/
theorem account_word {v result : Value Code}
    (h : Yields .collect (validateWord v) before result after) :
    result = (declaredName? before.names v).getD .missing ∧
      after = before.reporting (wordProblem? before.names v).toList := by
  cases v with
  | missing =>
    obtain ⟨rfl, rfl⟩ := (Build.yields_pure _ _).1 h
    exact ⟨rfl, (Journal.reporting_nil _).symm⟩
  | _ =>
    obtain ⟨eq, reported⟩ := of_yields_declaredName (f := id) h rfl rfl
    rw [Option.map_id] at eq
    exact ⟨eq, reported⟩

/-! ### Whole sections -/

/-- The entries of a section, if it is an array. -/
def entriesOf (v : Value Code) : List (Value Code) := v.array?.getD []

/-- A section that is gone through entry by entry comes to what each entry gives, and reports an
objection to its shape or the problems with each entry. -/
theorem account_entries {title : String} {step : Value Code → Build Code (Option α)}
    {v : Value Code} {results : List α} {result : Value Code → Option α}
    {problems : Value Code → List (Problem Code)}
    (h : Yields .collect (guarded pure [⟨.present, []⟩, ⟨.array title, []⟩]
      (fun v ↦ Build.filterMap step (v.array?.getD [])) v) before results after)
    (account : ∀ entry journal b later, journal.names = before.names →
      Yields .collect (step entry) journal b later →
        b = result entry ∧ later = journal.reporting (problems entry)) :
    results = (entriesOf v).filterMap result ∧
      after = before.reporting
        (Shape.objections (.array title) v ++ (entriesOf v).flatMap problems) := by
  rw [Build.yields_guarded_filterMap Value.array? step v results (fun _ ↦ rfl) (fun _ ↦ rfl)
    rfl] at h
  obtain ⟨eq, reported⟩ := Build.of_yields_filterMap_reporting h account
  exact ⟨eq, reported.trans (Journal.reporting_append _ _ _)⟩

/-- The sections of names come to exactly this, whatever value they are given and whatever names are
declared. Names that are put in place and supertypes are kept if they have the form of a name, and
conflicts and the word have to be declared as well. Each entry is reported at most once, in order,
each group of a conflict after its entries, and nothing else is reported or declared. -/
theorem yields_accounts (before : Journal Code) (v : Value Code) :
    Yields .collect (validateInline v) before
        ((entriesOf v).filterMap validName?)
        (before.reporting (Shape.objections (.array "inline") v ++
          (entriesOf v).filterMap (nameProblem? "inline" "inline" "inline" before.names))) ∧
      Yields .collect (validateSupertypes v) before
        (((entriesOf v).filter fun entry ↦ !isAlias entry).filterMap validName?)
        (before.reporting (Shape.objections (.array "supertypes") v ++
          (entriesOf v).filterMap (supertypeProblem? before.names))) ∧
      Yields .collect (validateConflicts v) before
        ((entriesOf v).filterMap (conflict? before.names))
        (before.reporting (Shape.objections (.array "conflicts") v ++
          (entriesOf v).flatMap (conflictProblems before.names))) ∧
      Yields .collect (validateWord v) before
        ((declaredName? before.names v).getD .missing)
        (before.reporting (wordProblem? before.names v).toList) := by
  refine ⟨?inline, ?supertypes, ?conflicts, ?word⟩
  case inline =>
    refine (goesOn_validateInline v).yields fun names between gone ↦ ?_
    rw [List.filterMap_eq_flatMap_toList (nameProblem? _ _ _ _)]
    exact account_entries gone fun _ _ _ _ same entered ↦ same ▸ account_inlineName entered
  case supertypes =>
    refine (goesOn_validateSupertypes v).yields fun names between gone ↦ ?_
    rw [List.filterMap_eq_flatMap_toList (supertypeProblem? _), List.filterMap_filter]
    obtain ⟨eq, reported⟩ := account_entries gone
      fun _ _ _ _ same entered ↦ same ▸ account_supertype entered
    refine ⟨eq.trans (List.filterMap_congr fun entry _ ↦ ?_), reported⟩
    cases isAlias entry <;> rfl
  case conflicts =>
    refine (goesOn_validateConflicts v).yields fun groups between gone ↦ ?_
    exact account_entries gone fun _ _ _ _ same entered ↦ same ▸ account_conflict entered
  case word =>
    exact (goesOn_validateWord v).yields fun word between given ↦ account_word given

/-- A conflict of a name that is not declared and a declared one is reported twice: for the name,
and because one name alone is no conflict. -/
example : (conflictProblems [(.string "a", "rule")]
    (.tuple [.string "b", .string "a"] : Value Unit)).map Problem.kind =
      [.undeclaredReference, .structuralShape] := by
  decide +kernel

end Names

end GrammarDoc
