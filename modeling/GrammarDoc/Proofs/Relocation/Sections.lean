import GrammarDoc.Assembly
import GrammarDoc.Proofs.Relocation.Builds

/-!
# Sections elsewhere

Each check and each section does elsewhere, with what is moved to there, what it does here.
-/

namespace GrammarDoc

variable {Code : Type} {α β : Type} {ρ : Relocation Code} {P : Store Code → Prop}

open Build (Follows)

namespace Build

/-! ### Checks -/

/-- Looking a moved name up. -/
theorem follows_lookup (name : Value Code) :
    Follows ρ P id (lookup name) (lookup (name.moved ρ)) := by
  unfold lookup
  rw [Value.canBeKey_moved]
  split
  · exact .look fun journal ↦ by simp [Journal.moved]
  · exact .fault _

/-- Checking that a moved name has the form of one. -/
theorem follows_requireValidName (context : String) (within : Option String) (name : Value Code) :
    Follows ρ P id (requireValidName context within name)
      (requireValidName context within (name.moved ρ)) := by
  unfold requireValidName
  rw [Value.isValidName_moved]
  split
  · exact .pure rfl
  · exact (Follows.reportIn _ _).bind fun _ ↦ .pure rfl

/-- Checking that a moved name is declared. -/
theorem follows_requireDeclared (context : String) (within : Option String) (name : Value Code) :
    Follows ρ P id (requireDeclared context within name)
      (requireDeclared context within (name.moved ρ)) := by
  refine (follows_lookup name).bind fun found ↦ ?_
  rw [id_eq]
  split
  · exact .pure rfl
  · exact (Follows.reportIn _ _).bind fun _ ↦ .pure rfl

/-- Checking that a moved name is not declared. -/
theorem follows_requireNotDeclared (context : String) (within : Option String)
    (name : Value Code) :
    Follows ρ P id (requireNotDeclared context within name)
      (requireNotDeclared context within (name.moved ρ)) := by
  refine (follows_lookup name).bind fun found ↦ ?_
  cases found with
  | none => exact .pure rfl
  | some first => exact (Follows.reportIn _ _).bind fun _ ↦ .pure rfl

/-- Declaring a moved name. -/
theorem follows_declare (name : Value Code) (tag : String) (within : Option String) :
    Follows ρ P id (declare name tag within) (declare (name.moved ρ) tag within) := by
  refine (follows_requireNotDeclared tag within name).bind fun new ↦ ?_
  rw [id_eq]
  split
  · refine Follows.bind (.modify (fun journal ↦ ?_) fun _ ↦ rfl) fun _ ↦ .pure rfl
    simp [Journal.moved]
  · exact .pure rfl

/-- The rule that a moved value stands for. -/
theorem follows_normalize (context : String) (raw : Value Code) :
    Follows ρ P (Option.map (Value.movedRule ρ)) (normalize context raw)
      (normalize context (raw.moved ρ)) := by
  unfold normalize
  rw [Value.toRule_moved]
  cases raw.toRule with
  | ok r => exact .pure rfl
  | error cause => exact (Follows.report _).bind fun _ ↦ .pure rfl

private theorem admits_moved (shape : Shape) (v : Value Code) :
    shape.admits (v.moved ρ) = shape.admits v := by
  cases shape with
  | array | object => simp [Shape.admits]
  | present => cases v <;> simp [Shape.admits, Value.moved]

private theorem problem?_moved (shape : Shape) (v : Value Code) :
    shape.problem? (v.moved ρ) = (shape.problem? v).map (Problem.moved ρ) := by
  cases shape <;> rfl

/-- What has no place of its own comes through the guards before a handler. -/
theorem follows_guarded {f : α → β} {guards₁ : List (Guard α)} {guards₂ : List (Guard β)}
    {handler₁ : Value Code → Build Code α} {handler₂ : Value Code → Build Code β} {v : Value Code}
    (same : guards₂ = guards₁.map fun guard ↦ ⟨guard.shape, f guard.fallback⟩)
    (h : Follows ρ P f (handler₁ v) (handler₂ (v.moved ρ))) :
    Follows ρ P f (guarded pure guards₁ handler₁ v)
      (guarded pure guards₂ handler₂ (v.moved ρ)) := by
  subst same
  induction guards₁ with
  | nil => exact h
  | cons guard rest ih =>
    change Follows ρ P f (guard.before pure _ v) (Guard.before _ pure _ (v.moved ρ))
    unfold Guard.before
    rw [admits_moved, problem?_moved]
    split
    · exact ih
    · cases guard.shape.problem? v with
      | none => exact .pure rfl
      | some p => exact (Follows.report p).bind fun _ ↦ .pure rfl

end Build

private theorem items_moved (v : Value Code) :
    (v.moved ρ).array?.getD [] = (v.array?.getD []).map (Value.moved ρ) := by
  rw [Value.array?_moved]
  cases v.array? <;> rfl

/-! ### Externals -/

namespace Externals

private theorem misnamed?_moved (key : Value Code) (r : Rule (Value Code)) :
    misnamed? (key.moved ρ) (Value.movedRule ρ r) = (misnamed? key r).map (Value.moved ρ) := by
  cases r with
  | symbol name =>
    rw [Value.movedRule, misnamed?, misnamed?, Value.same_moved]
    split <;> rfl
  | bare | string | pattern | blank | group | wrap | prec | field | aliased =>
    simp [Value.movedRule, misnamed?]

private theorem follows_fromItem (raw : Value Code) :
    Follows ρ P (Option.map (Value.movedRule ρ)) (fromItem raw) (fromItem (raw.moved ρ)) := by
  refine (Build.follows_normalize "externals" raw).bind fun result ↦ ?_
  rcases result with _ | r
  · exact .pure rfl
  · cases r with
    | symbol name =>
      refine (Build.follows_requireValidName "externals" none name).bind fun valid ↦ ?_
      rw [id_eq]
      split
      · exact (Build.follows_declare name "externals" none).discard.bind fun _ ↦ .pure rfl
      · exact .pure rfl
    | bare | string | pattern | blank | group | wrap | prec | field | aliased => exact .pure rfl

private theorem follows_fromEntry (entry : Value Code × Value Code) :
    Follows ρ P (Option.map (Value.movedRule ρ)) (fromEntry entry)
      (fromEntry (entry.map (Value.moved ρ) (Value.moved ρ))) := by
  obtain ⟨key, raw⟩ := entry
  refine (Build.follows_requireValidName "externals" none key).bind fun valid ↦ ?_
  rw [id_eq]
  split
  · refine (Build.follows_normalize "externals" raw).bind fun result ↦ ?_
    rcases result with _ | r
    · exact .pure rfl
    · rw [Option.map_some]
      dsimp only
      rw [misnamed?_moved]
      cases misnamed? key r with
      | none => exact (Build.follows_declare key "externals" none).discard.bind fun _ ↦ .pure rfl
      | some name => exact (Follows.reportIn _ _).bind fun _ ↦ .pure rfl
  · exact .pure rfl

/-- The checks of moved externals. -/
theorem follows_validate (v : Value Code) :
    Follows ρ P (List.map (Value.movedRule ρ)) (validate v) (validate (v.moved ρ)) := by
  unfold validate
  rw [Value.array?_moved]
  cases v.array? with
  | some items => exact .filterMap fun entry _ ↦ follows_fromItem entry
  | none =>
    refine Build.follows_guarded rfl ?_
    rw [Value.object?_moved]
    cases v.object? with
    | none => exact .pure rfl
    | some entries => exact .filterMap fun entry _ ↦ follows_fromEntry entry

/-- Declaring moved externals that are inherited. -/
theorem follows_inherit (inherited : List (Value Code)) :
    Follows ρ P id (inherit inherited) (inherit (inherited.map (Value.moved ρ))) := by
  unfold inherit
  have names : (inherited.map (Value.moved ρ)).filterMap Value.symbolName? =
      (inherited.filterMap Value.symbolName?).map (Value.moved ρ) := by
    simp [List.filterMap_map, List.map_filterMap]
  rw [names]
  exact .forM (f := Value.moved ρ)
    (fun name ↦ (Build.follows_declare name "externals" none).discard) _

end Externals

/-! ### Extras -/

namespace Extras

private theorem follows_checkNames (references : Bool) (r : Rule (Value Code)) :
    Follows ρ P id (checkNames references r) (checkNames references (Value.movedRule ρ r)) := by
  unfold checkNames
  split
  · rw [Rule.symbols_moved]
    exact .forM (f := Value.moved ρ)
      (fun name ↦ (Build.follows_requireDeclared "extras" none name).discard) _
  · rw [Rule.referencedName?_moved]
    rcases r.referencedName? with _ | v
    · exact .pure rfl
    · rw [Option.map_some, Option.bind_some, Option.bind_some, Value.toOption_moved]
      cases v.toOption with
      | none => exact .pure rfl
      | some name => exact (Build.follows_requireNotDeclared "extras" none name).discard

private theorem follows_fromItem (references : Bool) (raw : Value Code) :
    Follows ρ P (Option.map (Value.movedRule ρ)) (fromItem references raw)
      (fromItem references (raw.moved ρ)) := by
  refine (Build.follows_normalize "extras" raw).bind fun result ↦ ?_
  rcases result with _ | r
  · exact .pure rfl
  · exact (follows_checkNames references r).bind fun _ ↦ .pure rfl

/-- The checks of moved extras. -/
theorem follows_validate (references : Bool) (v : Value Code) :
    Follows ρ P (List.map (Value.movedRule ρ)) (validate references v)
      (validate references (v.moved ρ)) := by
  refine Build.follows_guarded ?_ ?_
  · simp [blankCharacter, Value.movedRule, Value.moved]
  · rw [items_moved]
    exact .filterMap fun entry _ ↦ follows_fromItem references entry

end Extras

/-! ### Sections of names -/

namespace Names

/-- The check of a moved name of a grammar. -/
theorem follows_validateName (v : Value Code) :
    Follows ρ P (Value.moved ρ) (validateName v) (validateName (v.moved ρ)) := by
  refine (Build.follows_requireValidName "grammar" (some "name") v).bind fun valid ↦ ?_
  rw [id_eq]
  split
  · exact .pure rfl
  · exact .pure rfl

private theorem follows_inlineName (entry : Value Code) :
    Follows ρ P (Option.map (Value.moved ρ)) (inlineName entry) (inlineName (entry.moved ρ)) := by
  unfold inlineName
  rw [Value.nameOf_moved]
  refine (Build.follows_requireValidName "inline" none _).bind fun valid ↦ ?_
  rw [id_eq]
  split
  · exact (Build.follows_requireDeclared "inline" none _).discard.bind fun _ ↦ .pure rfl
  · exact .pure rfl

private theorem follows_conflictName (entry : Value Code) :
    Follows ρ P (Option.map (Value.moved ρ)) (conflictName entry)
      (conflictName (entry.moved ρ)) := by
  unfold conflictName
  rw [Value.nameOf_moved]
  refine (Build.follows_requireValidName "conflict" (some "conflicts") _).bind fun valid ↦ ?_
  rw [id_eq]
  split
  · refine (Build.follows_requireDeclared "conflict" (some "conflicts") _).bind fun declared ↦ ?_
    rw [id_eq]
    split
    · exact .pure rfl
    · exact .pure rfl
  · exact .pure rfl

private theorem follows_conflict (group : Value Code) :
    Follows ρ P (Option.map (List.map (Value.moved ρ))) (conflict group)
      (conflict (group.moved ρ)) := by
  unfold conflict
  rw [Value.array?_moved]
  cases group.array? with
  | none => exact (Follows.reportIn _ _).bind fun _ ↦ .pure rfl
  | some entries =>
    refine Follows.bind (.filterMap fun entry _ ↦ follows_conflictName entry) fun names ↦ ?_
    rw [List.length_map]
    split
    · exact (Follows.reportIn _ _).bind fun _ ↦ .pure rfl
    · exact .pure rfl

/-- The checks of moved conflicts. -/
theorem follows_validateConflicts (v : Value Code) :
    Follows ρ P (List.map (List.map (Value.moved ρ))) (validateConflicts v)
      (validateConflicts (v.moved ρ)) := by
  refine Build.follows_guarded rfl ?_
  rw [items_moved]
  exact .filterMap fun entry _ ↦ follows_conflict entry

/-- The checks of moved names that are put in place. -/
theorem follows_validateInline (v : Value Code) :
    Follows ρ P (List.map (Value.moved ρ)) (validateInline v) (validateInline (v.moved ρ)) := by
  refine Build.follows_guarded rfl ?_
  rw [items_moved]
  exact .filterMap fun entry _ ↦ follows_inlineName entry

private theorem validateWord_of_given {v : Value Code} (given : v ≠ .missing) :
    validateWord v = (do
      if ← Build.requireValidName "word" none v.nameOf then
        if ← Build.requireDeclared "word" none v.nameOf then return v.nameOf
        else return .missing
      else return .missing) := by
  unfold validateWord
  split
  · exact absurd rfl given
  · rfl

/-- The check of a moved word. -/
theorem follows_validateWord (v : Value Code) :
    Follows ρ P (Value.moved ρ) (validateWord v) (validateWord (v.moved ρ)) := by
  by_cases given : v = .missing
  · rw [given, Value.moved]
    exact .pure rfl
  · have given' : v.moved ρ ≠ .missing := by
      cases v <;> simp_all [Value.moved]
    rw [validateWord_of_given given, validateWord_of_given given', Value.nameOf_moved]
    refine (Build.follows_requireValidName "word" none _).bind fun valid ↦ ?_
    rw [id_eq]
    split
    · refine (Build.follows_requireDeclared "word" none _).bind fun declared ↦ ?_
      rw [id_eq]
      split
      · exact .pure rfl
      · exact .pure rfl
    · exact .pure rfl

private theorem isAlias_moved (v : Value Code) : isAlias (v.moved ρ) = isAlias v := by
  cases v with
  | rule r => cases r <;> simp [Value.moved, Value.movedRule, isAlias]
  | missing | bool | int | double | string | list | tuple | mapping | pattern | callable | builder
  | grammar | references => simp [Value.moved, isAlias]

private theorem follows_supertype (entry : Value Code) :
    Follows ρ P (Option.map (Value.moved ρ)) (supertype entry) (supertype (entry.moved ρ)) := by
  unfold supertype
  rw [isAlias_moved, Value.nameOf_moved]
  split
  · exact (Follows.reportIn _ _).bind fun _ ↦ .pure rfl
  · refine (Build.follows_requireValidName "supertypes" none _).bind fun valid ↦ ?_
    rw [id_eq]
    split
    · exact (Build.follows_requireDeclared _ _ _).discard.bind fun _ ↦ .pure rfl
    · exact .pure rfl

/-- The checks of moved supertypes. -/
theorem follows_validateSupertypes (v : Value Code) :
    Follows ρ P (List.map (Value.moved ρ)) (validateSupertypes v)
      (validateSupertypes (v.moved ρ)) := by
  refine Build.follows_guarded rfl ?_
  rw [items_moved]
  exact .filterMap fun entry _ ↦ follows_supertype entry

end Names

/-! ### Precedences -/

namespace Precedences

private theorem follows_fromItem (group entry : Nat) (raw : Value Code) :
    Follows ρ P (Option.map (Value.movedRule ρ)) (fromItem group entry raw)
      (fromItem group entry (raw.moved ρ)) := by
  refine (Build.follows_normalize "precedences" raw).bind fun result ↦ ?_
  rcases result with _ | r
  · exact .pure rfl
  · cases r with
    | symbol name =>
      exact (Build.follows_requireDeclared "precedences" none name).discard.bind fun _ ↦ .pure rfl
    | string v => exact .pure rfl
    | bare | pattern | blank | group | wrap | prec | field | aliased =>
      exact (Follows.reportIn _ _).bind fun _ ↦ .pure rfl

private theorem follows_fromGroup (index : Nat) (group : Value Code) :
    Follows ρ P (Option.map (List.map (Value.movedRule ρ))) (fromGroup index group)
      (fromGroup index (group.moved ρ)) := by
  unfold fromGroup
  rw [Value.array?_moved]
  cases group.array? with
  | none => exact (Follows.reportIn _ _).bind fun _ ↦ .pure rfl
  | some items => exact (Follows.filterMapIdx (follows_fromItem index) items).map fun _ ↦ rfl

/-- The checks of moved precedences. -/
theorem follows_validate (v : Value Code) :
    Follows ρ P (List.map (List.map (Value.movedRule ρ))) (validate v)
      (validate (v.moved ρ)) := by
  refine Build.follows_guarded rfl ?_
  rw [items_moved]
  exact .filterMapIdx follows_fromGroup _

end Precedences

end GrammarDoc
