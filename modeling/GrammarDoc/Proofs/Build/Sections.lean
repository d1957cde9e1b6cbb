import GrammarDoc.Proofs.Build.Moves

/-!
# Moves of the sections

Each section reports problems under its own title. Only the externals and the rules declare names,
and only what calls functions of the description or copies what the base has works on the store.
-/

namespace GrammarDoc

open Build (MadeOf)

variable {Code : Type} {may : Move Code → Prop}

/-! ### Externals -/

namespace Externals

/-- An entry of a list of externals. -/
theorem madeOf_fromItem (raw : Value Code) (hr : Move.Reports may "externals")
    (hd : Move.Declares may "externals") : MadeOf may (fromItem raw) := by
  refine .bind (.normalize raw hr) fun rule ↦ ?_
  split
  · exact .pure _
  · next name =>
    refine .bind (.requireValidName name rfl hr) fun valid ↦ ?_
    split
    · exact .bind (.discard (.declareName rfl hr (hd name))) fun _ ↦ .pure _
    · exact .pure _
  · exact .pure _

/-- An entry of a mapping of externals. -/
theorem madeOf_fromEntry (entry : Value Code × Value Code) (hr : Move.Reports may "externals")
    (hd : Move.Declares may "externals") : MadeOf may (fromEntry entry) := by
  obtain ⟨key, raw⟩ := entry
  refine .bind (.requireValidName key rfl hr) fun valid ↦ ?_
  split
  · refine .bind (.normalize raw hr) fun rule ↦ ?_
    split
    · exact .pure _
    · split
      · exact .bind (.reportIn (hr _)) fun _ ↦ .pure _
      · exact .bind (.discard (.declareName rfl hr (hd key))) fun _ ↦ .pure _
  · exact .pure _

/-- The externals in either form. -/
theorem madeOf_validate (v : Value Code) (hr : Move.Reports may "externals")
    (hd : Move.Declares may "externals") : MadeOf may (validate v) := by
  unfold validate
  split
  · next items _ => exact .filterMap items fun raw _ ↦ madeOf_fromItem raw hr hd
  · exact .guarded v hr (by simp) (.filterMap _ fun entry _ ↦ madeOf_fromEntry entry hr hd)

/-- Declaring inherited externals again. -/
theorem madeOf_inherit (inherited : List (Value Code)) (hr : Move.Reports may "externals")
    (hd : Move.Declares may "externals") : MadeOf may (inherit inherited) :=
  .forM _ fun name ↦ .discard (.declareName rfl hr (hd name))

end Externals

/-! ### Rules -/

namespace Rules

variable (setting : Setting Code)

/-- Declaring the names of inherited rules. -/
theorem madeOf_inherit (inherited : Definitions Code) (hr : Move.Reports may "rules")
    (hd : Move.Declares may "rule") : MadeOf may (inherit inherited) :=
  .forM _ fun name ↦ .discard (.declareName rfl hr (hd name))

/-- Declaring the name of an entry. -/
theorem madeOf_declareEntry (inherited : Definitions Code) (entry : Value Code × Value Code)
    (hr : Move.Reports may "rules") (hd : Move.Declares may "rule") :
    MadeOf may (declareEntry inherited entry) := by
  obtain ⟨name, v⟩ := entry
  refine .bind (.requireValidName name rfl hr) fun valid ↦ ?_
  split
  · split
    · exact .bind (.reportIn (hr _)) fun _ ↦ .pure _
    · split
      · exact .bind (.discard (.declareName rfl hr (hd name))) fun _ ↦ .pure _
      · exact .pure _
  · exact .pure _

/-- Calling the function of a rule. -/
theorem madeOf_define (inherited : Definitions Code)
    (entry : Value Code × Callable (Value Code) Code) (hr : Move.Reports may "rules")
    (hl : may .look)
    (hc : ∀ place f previous, Move.Calls may "rules" (setting.call place f previous)) :
    MadeOf may (define setting inherited entry) := by
  obtain ⟨name, f⟩ := entry
  refine .bind (.absorb (hc _ f _)) fun result ↦ ?_
  split
  · exact .pure _
  · next raw =>
    exact .bind (.present raw hl) fun v ↦ .bind (.normalize v hr) fun _ ↦ .pure _

/-- Whatever declares an entry is made of moves. -/
theorem anyMoves_declareEntry (inherited : Definitions Code) (entry : Value Code × Value Code) :
    MadeOf (fun _ ↦ True) (declareEntry inherited entry) :=
  madeOf_declareEntry inherited entry (fun _ ↦ trivial) fun _ ↦ trivial

/-- Whatever calls the function of a rule is made of moves. -/
theorem anyMoves_define (inherited : Definitions Code)
    (entry : Value Code × Callable (Value Code) Code) :
    MadeOf (fun _ ↦ True) (define setting inherited entry) :=
  madeOf_define setting inherited entry (fun _ ↦ trivial) trivial
    fun _ _ _ ↦ ⟨trivial, fun _ ↦ .inr trivial, fun _ _ _ ↦ trivial⟩

/-- Looking up all names that are referred to. -/
theorem madeOf_resolve (definitions : Definitions Code) (hr : Move.Reports may "rules")
    (hl : may .look) : MadeOf may (resolve definitions) := by
  refine .bind (.mapM _ fun entry ↦ .present entry.2 hl) fun rules ↦ ?_
  refine .bind ?_ fun names ↦ .forM names fun name ↦ .discard (.requireDeclared name rfl hr)
  cases symbols rules with
  | ok names => exact .pure names
  | error f => exact .fault f

/-- The rules section. -/
theorem madeOf_validate (inherited : Definitions Code) (v : Value Code)
    (hr : Move.Reports may "rules") (hd : Move.Declares may "rule") (hl : may .look)
    (hc : ∀ place f previous, Move.Calls may "rules" (setting.call place f previous)) :
    MadeOf may (validate setting inherited v) := by
  refine .guarded v hr (by simp) (.bind (madeOf_inherit inherited hr hd) fun _ ↦ ?_)
  refine .bind (.filterMap _ fun entry _ ↦ madeOf_declareEntry inherited entry hr hd)
    fun functions ↦ ?_
  refine .bind (.filterMap _ fun entry _ ↦ madeOf_define setting inherited entry hr hl hc)
    fun defined ↦ ?_
  have rest (definitions : Definitions Code) :
      MadeOf may (do resolve definitions; return definitions) :=
    .bind (madeOf_resolve definitions hr hl) fun _ ↦ .pure _
  dsimp only
  split
  · exact .bind (.reportIn (hr _)) fun _ ↦ rest _
  · exact rest _

end Rules

/-! ### Sections that only use names -/

namespace Extras

/-- Checking the names of an extra. -/
theorem madeOf_checkNames (references : Bool) (r : Rule (Value Code))
    (hr : Move.Reports may "extras") : MadeOf may (checkNames references r) := by
  unfold checkNames
  split
  · exact .forM _ fun name ↦ .discard (.requireDeclared name rfl hr)
  · split
    · exact .pure _
    · next name _ => exact .discard (.requireNotDeclared name rfl hr)

/-- The extras section. -/
theorem madeOf_validate (references : Bool) (v : Value Code) (hr : Move.Reports may "extras") :
    MadeOf may (validate references v) := by
  refine .guarded v hr (by simp) (.filterMap _ fun raw _ ↦ ?_)
  refine .bind (.normalize raw hr) fun rule ↦ ?_
  split
  · exact .pure _
  · next r => exact .bind (madeOf_checkNames references r hr) fun _ ↦ .pure _

end Extras

namespace Names

/-- The name section. -/
theorem madeOf_validateName (v : Value Code) (hr : Move.Reports may "name") :
    MadeOf may (validateName v) := by
  refine .bind (.requireValidName v rfl hr) fun valid ↦ ?_
  split
  · exact .pure _
  · exact .pure _

/-- A name that is put in place. -/
theorem madeOf_inlineName (entry : Value Code) (hr : Move.Reports may "inline") :
    MadeOf may (inlineName entry) := by
  refine .bind (.requireValidName _ rfl hr) fun valid ↦ ?_
  split
  · exact .bind (.discard (.requireDeclared _ rfl hr)) fun _ ↦ .pure _
  · exact .pure _

/-- The inline section. -/
theorem madeOf_validateInline (v : Value Code) (hr : Move.Reports may "inline") :
    MadeOf may (validateInline v) :=
  .guarded v hr (by simp) (.filterMap _ fun entry _ ↦ madeOf_inlineName entry hr)

/-- A name in a conflict. -/
theorem madeOf_conflictName (entry : Value Code) (hr : Move.Reports may "conflicts") :
    MadeOf may (conflictName entry) := by
  refine .bind (.requireValidName _ rfl hr) fun valid ↦ ?_
  split
  · refine .bind (.requireDeclared _ rfl hr) fun declared ↦ ?_
    split
    · exact .pure _
    · exact .pure _
  · exact .pure _

/-- A conflict. -/
theorem madeOf_conflict (group : Value Code) (hr : Move.Reports may "conflicts") :
    MadeOf may (conflict group) := by
  unfold conflict
  split
  · exact .bind (.reportIn (hr _)) fun _ ↦ .pure _
  · next entries _ =>
    refine .bind (.filterMap entries fun entry _ ↦ madeOf_conflictName entry hr) fun names ↦ ?_
    split
    · exact .bind (.reportIn (hr _)) fun _ ↦ .pure _
    · exact .pure _

/-- The conflicts section. -/
theorem madeOf_validateConflicts (v : Value Code) (hr : Move.Reports may "conflicts") :
    MadeOf may (validateConflicts v) :=
  .guarded v hr (by simp) (.filterMap _ fun group _ ↦ madeOf_conflict group hr)

/-- The word section. -/
theorem madeOf_validateWord (v : Value Code) (hr : Move.Reports may "word") :
    MadeOf may (validateWord v) := by
  unfold validateWord
  split
  · exact .pure _
  · refine .bind (.requireValidName _ rfl hr) fun valid ↦ ?_
    split
    · refine .bind (.requireDeclared _ rfl hr) fun declared ↦ ?_
      split
      · exact .pure _
      · exact .pure _
    · exact .pure _

/-- An entry of the supertypes. -/
theorem madeOf_supertype (entry : Value Code) (hr : Move.Reports may "supertypes") :
    MadeOf may (supertype entry) := by
  unfold supertype
  split
  · exact .bind (.reportIn (hr _)) fun _ ↦ .pure _
  · refine .bind (.requireValidName _ rfl hr) fun valid ↦ ?_
    split
    · exact .bind (.discard (.requireDeclared _ rfl hr)) fun _ ↦ .pure _
    · exact .pure _

/-- The supertypes section. -/
theorem madeOf_validateSupertypes (v : Value Code) (hr : Move.Reports may "supertypes") :
    MadeOf may (validateSupertypes v) :=
  .guarded v hr (by simp) (.filterMap _ fun entry _ ↦ madeOf_supertype entry hr)

end Names

namespace Precedences

/-- An entry of a group. -/
theorem madeOf_fromItem (group entry : Nat) (raw : Value Code)
    (hr : Move.Reports may "precedences") : MadeOf may (fromItem group entry raw) := by
  refine .bind (.normalize raw hr) fun rule ↦ ?_
  split
  · exact .pure _
  · exact .bind (.discard (.requireDeclared _ rfl hr)) fun _ ↦ .pure _
  · exact .pure _
  · exact .bind (.reportIn (hr _)) fun _ ↦ .pure _

/-- A group. -/
theorem madeOf_fromGroup (index : Nat) (group : Value Code)
    (hr : Move.Reports may "precedences") : MadeOf may (fromGroup index group) := by
  unfold fromGroup
  split
  · exact .bind (.reportIn (hr _)) fun _ ↦ .pure _
  · next items _ =>
    exact .bind (.filterMapIdx items fun j raw ↦ madeOf_fromItem index j raw hr) fun _ ↦ .pure _

/-- The precedences section. -/
theorem madeOf_validate (v : Value Code) (hr : Move.Reports may "precedences") :
    MadeOf may (validate v) :=
  .guarded v hr (by simp) (.filterMapIdx _ fun i group ↦ madeOf_fromGroup i group hr)

end Precedences

end GrammarDoc
