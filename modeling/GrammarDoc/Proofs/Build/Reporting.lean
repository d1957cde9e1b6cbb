import GrammarDoc.Proofs.Build.GoesOn
import GrammarDoc.Proofs.Collecting

/-!
# Checks that collect problems

What a check or a guard comes to in a build that collects problems: its result, and the journal with
the problem that it reports, if there is one.
-/

namespace GrammarDoc

open Build (Yields)

variable {Code : Type} {α β : Type} {before after : Journal Code}

/-- The problems with the shape of a value, which may be missing. -/
def Shape.objections (shape : Shape) : Value Code → List (Problem Code)
  | .missing => []
  | v => if shape.admits v then [] else (shape.problem? v).toList

/-- Nothing is objected to in a value of the shape. -/
theorem Shape.objections_of_admits {shape : Shape} {v : Value Code} (h : shape.admits v = true) :
    shape.objections v = [] := by
  unfold objections
  split
  · rfl
  · rw [if_pos h]

private theorem Shape.objections_of_not_admits {shape : Shape} {v : Value Code}
    (present : v ≠ .missing)
    (h : shape.admits v = false) : shape.objections v = (shape.problem? v).toList := by
  unfold objections
  split
  · exact absurd rfl present
  · rw [if_neg (h ▸ Bool.false_ne_true)]

namespace Build

/-- Two steps, where the second does not depend on the result of the first. -/
theorem yields_discard_bind (step : Build Code α) (next : Unit → Build Code β) (b : β) :
    Yields .collect (discard step >>= next) before b after ↔
      Yields .collect (step >>= fun _ ↦ next ()) before b after := by
  simp only [yields_bind, yields_discard]
  constructor
  · rintro ⟨_, between, ⟨a, first⟩, second⟩
    exact ⟨a, between, first, second⟩
  · rintro ⟨a, between, first, second⟩
    exact ⟨(), between, ⟨a, first⟩, second⟩

/-- After a name that has not the form of one is reported, the build goes on. -/
theorem yields_requireValidName_bind (context : String) (within : Option String)
    (name : Value Code) (next : Bool → Build Code β) (b : β) :
    Yields .collect (requireValidName context within name >>= next) before b after ↔
      Yields .collect (next name.isValidName) (before.reporting (if name.isValidName then [] else
        [⟨.malformedName context name, attribution context within⟩])) b after := by
  rw [yields_bind]
  simp only [yields_requireValidName]
  cases name.isValidName with
  | true => simp
  | false => simp [Journal.reported, Journal.reporting]

/-- After a name that is not declared is reported, the build goes on. -/
theorem yields_requireDeclared_bind (context : String) (within : Option String)
    {name : Value Code} (key : name.canBeKey = true) (next : Bool → Build Code β) (b : β) :
    Yields .collect (requireDeclared context within name >>= next) before b after ↔
      Yields .collect (next (before.names.has name))
        (before.reporting (if before.names.has name then [] else
          [⟨.undeclared context name, attribution context within⟩])) b after := by
  rw [yields_bind]
  simp only [yields_requireDeclared, key, true_and]
  cases before.names.has name with
  | true => simp
  | false => simp [Journal.reported, Journal.reporting]

/-- After a value that stands for no rule is reported, the build goes on. -/
theorem yields_normalize_bind (context : String) (raw : Value Code)
    (next : Option (Rule (Value Code)) → Build Code β) (b : β) :
    Yields .collect (normalize context raw >>= next) before b after ↔
      match raw.toRule with
      | .ok r => Yields .collect (next (some r)) before b after
      | .error cause =>
        Yields .collect (next none) (before.reporting [⟨cause, some context⟩]) b after := by
  rw [yields_bind]
  simp only [yields_normalize]
  cases raw.toRule with
  | ok r => simp
  | error cause => simp [Journal.reported, Journal.reporting, Problem.attributedTo]

/-- After a name is declared that is free, or is reported, the build goes on. -/
theorem yields_declare_bind {name : Value Code} (key : name.canBeKey = true) (tag : String)
    (within : Option String) (next : Bool → Build Code β) (b : β) :
    Yields .collect (declare name tag within >>= next) before b after ↔
      Yields .collect (next (!before.names.has name))
        (match before.names.find? name with
        | none => before.declaring tag [name]
        | some first =>
          before.reporting [⟨.declaredTwice tag name first, attribution tag within⟩]) b after := by
  rw [yields_bind]
  simp only [yields_declare, key, true_and]
  cases before.names.find? name with
  | none => simp
  | some first => simp [Journal.reported, Journal.reporting]

/-- A section that is gone through item by item comes to what its items come to, after an objection
to its shape; if it has not the shape, there are no items. -/
theorem yields_guarded_filterMap {shape : Shape} (read : Value Code → Option (List α))
    (step : α → Build Code (Option β)) (v : Value Code) (bs : List β)
    (admits : ∀ v : Value Code, shape.admits v = (read v).isSome)
    (objects : ∀ v : Value Code, (shape.problem? v).isSome = true)
    (absent : read .missing = none) :
    Yields .collect (guarded pure [⟨.present, []⟩, ⟨shape, []⟩]
        (fun v ↦ filterMap step ((read v).getD [])) v) before bs after ↔
      Yields .collect (filterMap step ((read v).getD []))
        (before.reporting (shape.objections v)) bs after := by
  by_cases present : v = .missing
  · subst present
    rw [absent]
    simp [guarded, Guard.before, Shape.admits, Shape.problem?, Shape.objections]
  have there := Shape.admits_present present
  cases form : shape.admits v with
  | true =>
    rw [guarded_of_admits _ (by simp [there, form]), Shape.objections_of_admits form,
      Journal.reporting_nil]
  | false =>
    have none : read v = none := by
      rwa [admits, Option.isSome_eq_false_iff, Option.isNone_iff_eq_none] at form
    obtain ⟨p, objection⟩ := Option.isSome_iff_exists.1 (objects v)
    rw [Shape.objections_of_not_admits present form, objection, none, Option.getD_none,
      yields_filterMap_nil]
    simp [guarded, Guard.before, there, form, objection, Journal.reported, Journal.reporting,
      and_comm]

end Build

end GrammarDoc
