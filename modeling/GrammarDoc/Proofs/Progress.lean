import GrammarDoc.Proofs.Passage

/-!
# The progress of an assembly

An assembly is one step for each section, one after another: it writes that the section is begun,
goes through it, and keeps what that has come to. So what holds of each section, however it ends,
holds of a whole build by induction on the sections that are left.
-/

namespace GrammarDoc

open Build (Yields)

variable {Code : Type}

/-! ### A grammar from what it has for each section -/

/-- The items of a list. -/
def Value.listed : Value Code → Items (Value Code)
  | .list items => items
  | _ => { place := .step 0, toList := [] }

/-- The entries of a mapping. -/
def Value.mapped : Value Code → Entries (Value Code)
  | .mapping entries => entries
  | _ => { place := .step 0, toList := [] }

/-- The grammar, made at a place, that has certain things for the sections. -/
def Grammar.ofFields (place : Place) (fields : Section → Value Code) : Grammar (Value Code) where
  place := place
  name := fields .name
  rules := (fields .rules).mapped
  extras := (fields .extras).listed
  externals := (fields .externals).listed
  inline := (fields .inline).listed
  conflicts := (fields .conflicts).listed
  word := fields .word
  supertypes := (fields .supertypes).listed
  precedences := (fields .precedences).listed

namespace Setting

variable (setting : Setting Code) (description : Value Code)

/-- Passes through some sections in order: each is begun and gone through as it is given then, and
what it comes to is kept. -/
def passThrough (fields : Section → Value Code) : List Section → Build Code (Section → Value Code)
  | [] => return fields
  | part :: rest => do
    modify fun journal ↦ journal.begun fields part
    let v ← setting.goThrough (← Description.entries description) part
    passThrough (Function.update fields part v) rest

/-- An assembly checks the description and passes through all sections. -/
theorem assemble_eq : setting.assemble description = (do
    Description.check description
    return .ofFields (setting.place.part "grammar")
      (← setting.passThrough description (fun _ ↦ .missing) Section.all)) := by
  unfold assemble
  have announce (part : Section) (name : Value Code) {β : Type} (next : Unit → Build Code β) :
      (do
        let present ← Build.present name
        Build.log (.began part (some present)) >>= next) =
      modify (fun journal ↦ journal.announced part name) >>= next := rfl
  refine bind_congr fun _ ↦ ?_
  simp only [Section.all, passThrough, bind_assoc, goThrough, pure_bind, Journal.begun, announce]
  refine bind_congr fun _ ↦ bind_congr fun _ ↦ bind_congr fun _ ↦ bind_congr fun _ ↦
    bind_congr fun _ ↦ bind_congr fun _ ↦ ?_
  rfl

variable {setting description} {fields : Section → Value Code} {part : Section}
  {rest : List Section} {posture : Posture} {before : Journal Code}

/-- Passing through a section starts with what belongs to it. -/
theorem start_passThrough_cons :
    Build.start (setting.passThrough description fields (part :: rest)) posture before =
      match Build.start (setting.goThrough (Description.given description before.store) part)
        posture (before.begun fields part) with
      | (.ok v, between) =>
        Build.start (setting.passThrough description (Function.update fields part v) rest) posture
          between
      | (.error failure, between) => (.error failure, between) := by
  rw [passThrough, Build.start_bind, Build.start_modify]
  dsimp only
  rw [Build.start_bind, Description.start_entries, before.store_begun]
  dsimp only
  rw [Build.start_bind]
  generalize Build.start (setting.goThrough _ part) posture (before.begun fields part) = run
  obtain ⟨failure | v, between⟩ := run
  · rfl
  · rfl

/-- An assembly that comes to the sections passes through them, and makes a grammar of what they
come to. -/
theorem start_assemble {start : Journal Code}
    (opened : Yields posture (Description.check description) before () start) :
    Build.start (setting.assemble description) posture before =
      match Build.start (setting.passThrough description (fun _ ↦ .missing) Section.all) posture
        start with
      | (.ok fields, after) => (.ok (.ofFields (setting.place.part "grammar") fields), after)
      | (.error failure, after) => (.error failure, after) := by
  unfold Yields at opened
  rw [assemble_eq, Build.start_bind, opened]
  dsimp only
  rw [Build.start_bind]
  generalize Build.start (setting.passThrough _ _ Section.all) posture start = run
  obtain ⟨failure | fields, after⟩ := run
  · rfl
  · rfl

end Setting

end GrammarDoc
