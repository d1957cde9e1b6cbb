import GrammarDoc.Proofs.Build.Sections

/-!
# Moves of an assembly

An assembly is made of the moves of its sections, in their order: reports under the title of a
section or, for the description itself, under none; declarations; calls of the functions of the
description; and copies of what the base has.
-/

namespace GrammarDoc

open Build (MadeOf)

variable {Code : Type} {may : Move Code → Prop}

/-- The moves that the sections of an assembly need. -/
structure Setting.Permits (setting : Setting Code) (may : Move Code → Prop) : Prop where
  outside : ∀ cause, may (.report ⟨cause, none⟩)
  reports : ∀ part : Section, Move.Reports may part.title
  looks : may .look
  declares : ∀ tag, Move.Declares may tag
  calls : ∀ (part : Section) place f offered,
    Move.Calls may part.title (setting.call place f offered)
  copies : ∀ (part : Section) v,
    Move.Works may (Exec.copy (setting.made "copy" part.title) v)

/-- Looking up the entries of a description. -/
theorem Description.madeOf_entries (v : Value Code) (hl : may .look) : MadeOf may (entries v) :=
  .look _ hl

/-- Reporting the keys that are no sections. -/
theorem Description.madeOf_checkKeys (entries : Table Code (Value Code))
    (h : ∀ cause, may (.report ⟨cause, none⟩)) : MadeOf may (checkKeys entries) :=
  .forM _ fun _ ↦ .reportIn (h _)

/-- Checking a description by itself. -/
theorem Description.madeOf_check (v : Value Code) (h : ∀ cause, may (.report ⟨cause, none⟩))
    (hl : may .look) : MadeOf may (check v) := by
  refine .bind (.read v hl) fun present ↦ ?_
  split
  · exact madeOf_checkKeys _ h
  · exact .reportIn (h _)

namespace Setting

variable (setting : Setting Code) (entries : Table Code (Value Code))

/-- Looking at the elements of a value. -/
theorem madeOf_elements (v : Value Code) (hl : may .look) : MadeOf may (Build.elements v) :=
  .bind (.present v hl) fun present ↦ .performFault present.elements

/-- Looking at what the base has. -/
theorem madeOf_ofBase (part : Section) : MadeOf may (setting.ofBase part) := .performFault _

/-- The value of a section. -/
theorem madeOf_evaluate (part : Section) (v offered : Value Code)
    (hc : ∀ place f offered, Move.Calls may part.title (setting.call place f offered)) :
    MadeOf may (setting.evaluate part v offered) := by
  unfold evaluate
  split
  · exact .pure _
  · next f _ =>
    split
    · exact .bind (.absorb (hc _ f offered)) fun _ ↦ .pure _
    · exact .pure _

/-- The name of the grammar. -/
theorem madeOf_name (hr : Move.Reports may "name") (hl : may .look) :
    MadeOf may (setting.name entries) := by
  unfold name
  split
  · exact madeOf_ofBase setting .name
  · exact .bind (.present _ hl) fun present ↦ Names.madeOf_validateName present hr

/-- The externals that the base has. -/
theorem madeOf_inheritedExternals (hl : may .look) : MadeOf may setting.inheritedExternals := by
  unfold inheritedExternals
  split
  · refine .bind (madeOf_ofBase setting .externals) fun v ↦ ?_
    exact .bind (madeOf_elements v hl) fun _ ↦ .pure _
  · exact .bind (.pure _) fun _ ↦ .pure _

/-- The externals of the grammar. -/
theorem madeOf_externals (h : setting.Permits may) : MadeOf may (setting.externals entries) := by
  have hr : Move.Reports may "externals" := h.reports .externals
  refine .bind (madeOf_inheritedExternals setting h.looks) fun inherited ↦ ?_
  split
  · exact .bind (Externals.madeOf_inherit _ hr (h.declares _)) fun _ ↦ .pure _
  · refine .bind (madeOf_evaluate setting .externals _ _ (h.calls .externals)) fun v ↦ ?_
    refine .bind (.present v h.looks) fun v ↦ ?_
    exact .bind (Externals.madeOf_validate v hr (h.declares _)) fun _ ↦ .pure _

/-- The rules that the base has. -/
theorem madeOf_inheritedRules (hl : may .look) : MadeOf may setting.inheritedRules := by
  unfold inheritedRules
  split
  · refine .bind (madeOf_ofBase setting .rules) fun v ↦ .bind (.read v hl) fun v ↦ ?_
    split
    · exact .pure _
    · exact .fault _
  · exact .pure _

/-- The rules of the grammar. -/
theorem madeOf_rules (h : setting.Permits may) : MadeOf may (setting.rules entries) := by
  refine .bind (madeOf_inheritedRules setting h.looks) fun inherited ↦ ?_
  refine .bind (.present _ h.looks) fun v ↦ .bind ?_ fun _ ↦ .pure _
  exact Rules.madeOf_validate setting inherited v (h.reports .rules) (h.declares _) h.looks
    (h.calls .rules)

/-- What the base has for a section. -/
theorem madeOf_inherited (part : Section) : MadeOf may (setting.inherited part) := by
  unfold inherited
  split
  · exact madeOf_ofBase setting part
  · exact .pure _

/-- The symbols of some names. -/
theorem madeOf_symbols (place : Place) (names : Value Code) (hl : may .look) :
    MadeOf may (symbols place names) :=
  .bind (madeOf_elements names hl) fun _ ↦ .pure _

/-- What the function of a section is passed. -/
theorem madeOf_offered (part : Section) (inherited : Value Code) (hl : may .look) :
    MadeOf may (setting.offered part inherited) := by
  unfold offered
  split
  · cases part with
    | inline => exact madeOf_symbols _ inherited hl
    | supertypes => exact madeOf_symbols _ inherited hl
    | conflicts =>
      refine .bind (madeOf_elements inherited hl) fun groups ↦ .bind ?_ fun _ ↦ .pure _
      exact .mapM _ fun group ↦ madeOf_symbols _ group.1 hl
    | name | externals | rules | extras | word | precedences => exact .pure _
  · exact .pure _

/-- A section that only uses names declared before. -/
theorem madeOf_part (part : Section) {validate : Value Code → Build Code (List (Value Code))}
    (hv : ∀ v, MadeOf may (validate v)) (h : setting.Permits may) :
    MadeOf may (setting.part entries part validate) := by
  refine .bind (madeOf_inherited setting part) fun inherited ↦ ?_
  refine .bind (madeOf_offered setting part inherited h.looks) fun offered ↦ ?_
  split
  · refine .bind (.perform h.looks (fun _ _ h ↦ by cases h) (h.copies part inherited)) fun copy ↦ ?_
    split
    · exact .pure _
    · exact .fault _
  · refine .bind (madeOf_evaluate setting part _ offered (h.calls part)) fun v ↦ ?_
    exact .bind (.present v h.looks) fun v ↦ .bind (hv v) fun _ ↦ .pure _

/-- Whether a value refers to a declared name. -/
theorem madeOf_refersToDeclared (v : Value Code) : MadeOf may (refersToDeclared v) := by
  unfold refersToDeclared
  split
  · exact .pure _
  · exact .lookNames fun _ _ agrees ↦ agrees.has_eq _

/-- The word of the grammar. -/
theorem madeOf_word (h : setting.Permits may) : MadeOf may (setting.word entries) := by
  have hr : Move.Reports may "word" := h.reports .word
  refine .bind (madeOf_inherited setting .word) fun inherited ↦ ?_
  split
  · exact .perform h.looks (fun _ _ h ↦ by cases h) (h.copies .word inherited)
  · refine .bind (madeOf_refersToDeclared _) fun refers ↦ ?_
    split
    · exact Names.madeOf_validateWord _ hr
    · refine .bind (madeOf_evaluate setting .word _ inherited (h.calls .word)) fun v ↦ ?_
      exact .bind (.present v h.looks) fun v ↦ Names.madeOf_validateWord v hr

/-- A whole assembly. -/
theorem madeOf_assemble (description : Value Code) (h : setting.Permits may)
    (hb : ∀ part grammar, may (.began part grammar)) :
    MadeOf may (setting.assemble description) := by
  have began (part : Section) (name : Value Code) :
      MadeOf may (do Build.log (.began part (some (← Build.present name)))) :=
    .bind (.present name h.looks) fun _ ↦ .began (hb part _)
  have given : MadeOf may (Description.entries description) :=
    Description.madeOf_entries description h.looks
  refine .bind (Description.madeOf_check description h.outside h.looks) fun _ ↦ ?_
  refine .bind (.began (hb .name none)) fun _ ↦ .bind given fun entries ↦ ?_
  refine .bind (madeOf_name setting entries (h.reports .name) h.looks) fun name ↦ ?_
  refine .bind (began .externals name) fun _ ↦ .bind given fun entries ↦ ?_
  refine .bind (madeOf_externals setting entries h) fun externals ↦ ?_
  refine .bind (began .rules name) fun _ ↦ .bind given fun entries ↦ ?_
  refine .bind (madeOf_rules setting entries h) fun rules ↦ ?_
  refine .bind (began .extras name) fun _ ↦ .bind given fun entries ↦ ?_
  refine .bind (madeOf_part setting entries .extras (fun v ↦ .bind
    (Extras.madeOf_validate _ v (h.reports .extras)) fun _ ↦ .pure _) h) fun extras ↦ ?_
  refine .bind (began .inline name) fun _ ↦ .bind given fun entries ↦ ?_
  refine .bind (madeOf_part setting entries .inline (fun v ↦
    Names.madeOf_validateInline v (h.reports .inline)) h) fun inline ↦ ?_
  refine .bind (began .conflicts name) fun _ ↦ .bind given fun entries ↦ ?_
  refine .bind (madeOf_part setting entries .conflicts (fun v ↦ .bind
    (Names.madeOf_validateConflicts v (h.reports .conflicts)) fun _ ↦ .pure _) h) fun conflicts ↦ ?_
  refine .bind (began .word name) fun _ ↦ .bind given fun entries ↦ ?_
  refine .bind (madeOf_word setting entries h) fun word ↦ ?_
  refine .bind (began .supertypes name) fun _ ↦ .bind given fun entries ↦ ?_
  refine .bind (madeOf_part setting entries .supertypes (fun v ↦
    Names.madeOf_validateSupertypes v (h.reports .supertypes)) h) fun supertypes ↦ ?_
  refine .bind (began .precedences name) fun _ ↦ .bind given fun entries ↦ ?_
  refine .bind (madeOf_part setting entries .precedences (fun v ↦ .bind
    (Precedences.madeOf_validate v (h.reports .precedences)) fun _ ↦ .pure _) h) fun _ ↦ ?_
  exact .pure _

end Setting

end GrammarDoc
