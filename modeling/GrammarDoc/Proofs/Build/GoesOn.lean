import GrammarDoc.Assembly
import GrammarDoc.Proofs.Build.Results

/-!
# Going on

When a step of a build that collects has a result, so that the build goes on. A report stops no such
build, so only a fault does: of a name that cannot be looked up, or of a function that is called.
Wherever a value may be of any kind, its form is checked first, and what is looked up after that is
a string. So most sections go on whatever they are given.
-/

namespace GrammarDoc

open Build (Yields)

variable {Code : Type} {α β : Type} {before : Journal Code}

/-- The names in a rule can be looked up: those of its symbols, and its value if it is an alias. -/
structure Rule.Hashable (r : Rule (Value Code)) : Prop where
  mentioned : ∀ name ∈ r.mentions, name.canBeKey = true
  referenced : ∀ name, r.referencedName? = some name → name.canBeKey = true

namespace Build

/-- From a journal, a build that collects goes on after a step. -/
def GoesOn (step : Build Code α) (before : Journal Code) : Prop :=
  ∃ a after, Yields .collect step before a after

variable {step : Build Code α}

/-- A step that goes on yields the only thing that it can yield. -/
theorem GoesOn.yields {a : α} {after : Journal Code} (goes : GoesOn step before)
    (only : ∀ b between, Yields .collect step before b between → b = a ∧ between = after) :
    Yields .collect step before a after := by
  obtain ⟨b, between, gone⟩ := goes
  obtain ⟨rfl, rfl⟩ := only b between gone
  exact gone

/-- A finished step goes on. -/
theorem goesOn_pure (a : α) : GoesOn (pure a) before :=
  ⟨a, before, (yields_pure _ _).2 ⟨rfl, rfl⟩⟩

/-- Two steps go on if the second does from where the first has left off. -/
theorem Yields.goesOn_bind {next : α → Build Code β} {a : α} {between : Journal Code}
    (h : Yields .collect step before a between) (h' : GoesOn (next a) between) :
    GoesOn (step >>= next) before := by
  obtain ⟨b, after, second⟩ := h'
  exact ⟨b, after, (yields_bind _ _ _).2 ⟨a, between, h, second⟩⟩

/-- Two steps go on if the first does, and the second does from there. -/
theorem GoesOn.bind {next : α → Build Code β} (h : GoesOn step before)
    (h' : ∀ a between, Yields .collect step before a between → GoesOn (next a) between) :
    GoesOn (step >>= next) before := by
  obtain ⟨a, between, first⟩ := h
  exact first.goesOn_bind (h' a between first)

/-- What is made of a result does not matter. -/
theorem GoesOn.return (h : GoesOn step before) (f : α → β) :
    GoesOn (do return f (← step)) before :=
  h.bind fun a _ _ ↦ goesOn_pure (f a)

/-- Leaving out the result does not matter. -/
theorem GoesOn.discard (h : GoesOn step before) : GoesOn (discard step) before :=
  GoesOn.return h fun _ ↦ ()

/-- A report goes on. -/
theorem goesOn_report (p : Problem Code) : GoesOn (report p) before :=
  ⟨(), _, (yields_report _ _).2 ⟨rfl, rfl⟩⟩

/-- A report in a section goes on. -/
theorem goesOn_reportIn (within : Option String) (cause : Cause Code) :
    GoesOn (reportIn within cause) before :=
  goesOn_report _

/-- Looking at a value goes on. -/
theorem goesOn_present (v : Value Code) : GoesOn (present v) before :=
  ⟨_, before, (yields_present _ _).2 ⟨rfl, rfl⟩⟩

/-- A function that is called stops a build only by a fault. -/
theorem goesOn_absorb {title : String} {step : Exec Code α}
    (h : ∀ f, (step.start before.store).1 ≠ .error (.fault f)) :
    GoesOn (absorb title step) before := by
  refine ((yields_attempt _ _).2 ⟨rfl, rfl⟩).goesOn_bind ?_
  split
  · exact goesOn_pure _
  · exact (goesOn_report _).bind fun _ _ _ ↦ goesOn_pure _
  · next f fault => exact absurd fault (h f)

/-! ### Checks -/

/-- A name that has not the form of one is reported; only one that has is looked into further. -/
theorem goesOn_requireValidName {context : String} {within : Option String} {name : Value Code}
    {next : Bool → Build Code β} (valid : name.isValidName = true → GoesOn (next true) before)
    (invalid : ∀ after, GoesOn (next false) after) :
    GoesOn (requireValidName context within name >>= next) before := by
  cases form : name.isValidName with
  | true =>
    have checked : Yields .collect (requireValidName context within name) before true before :=
      (yields_requireValidName _ _ _ _).2 (by simp [form])
    exact checked.goesOn_bind (valid form)
  | false =>
    have checked : Yields .collect (requireValidName context within name) before false
        (before.reported ⟨.malformedName context name, attribution context within⟩) :=
      (yields_requireValidName _ _ _ _).2 (by simp [form])
    exact checked.goesOn_bind (invalid _)

/-- Checking that a name is declared goes on if the name can be looked up. -/
theorem goesOn_requireDeclared {context : String} {within : Option String} {name : Value Code}
    (key : name.canBeKey = true) : GoesOn (requireDeclared context within name) before := by
  refine ((yields_lookup _ _).2 ⟨key, rfl, rfl⟩).goesOn_bind ?_
  split
  · exact goesOn_pure true
  · exact (goesOn_reportIn _ _).bind fun _ _ _ ↦ goesOn_pure false

/-- Checking that a name is not declared goes on if the name can be looked up. -/
theorem goesOn_requireNotDeclared {context : String} {within : Option String} {name : Value Code}
    (key : name.canBeKey = true) : GoesOn (requireNotDeclared context within name) before := by
  refine ((yields_lookup _ _).2 ⟨key, rfl, rfl⟩).goesOn_bind ?_
  cases before.names.find? name with
  | none => exact goesOn_pure true
  | some first => exact (goesOn_reportIn _ _).bind fun _ _ _ ↦ goesOn_pure false

/-- Declaring a name goes on if the name can be looked up. -/
theorem goesOn_declare {name : Value Code} {tag : String} {within : Option String}
    (key : name.canBeKey = true) : GoesOn (declare name tag within) before := by
  refine (goesOn_requireNotDeclared key).bind fun free between _ ↦ ?_
  cases free with
  | true => exact ((yields_modify _ ()).2 rfl).goesOn_bind (goesOn_pure true)
  | false => exact goesOn_pure false

/-- Making a value a rule goes on. -/
theorem goesOn_normalize (context : String) (raw : Value Code) :
    GoesOn (normalize context raw) before := by
  unfold normalize
  split
  · exact goesOn_pure _
  · exact (goesOn_report _).bind fun _ _ _ ↦ goesOn_pure none

/-- A value that is no rule is reported; a rule is looked into further. -/
theorem GoesOn.ofRule {context : String} {raw : Value Code}
    {next : Option (Rule (Value Code)) → Build Code β}
    (rule : ∀ r, raw.toRule = .ok r → GoesOn (next (some r)) before)
    (none : ∀ after, GoesOn (next none) after) :
    GoesOn (normalize context raw >>= next) before := by
  refine (goesOn_normalize context raw).bind fun result after normal ↦ ?_
  rw [yields_normalize] at normal
  split at normal
  · next r ok =>
    obtain ⟨rfl, rfl⟩ := normal
    exact rule r ok
  · obtain ⟨rfl, -⟩ := normal
    exact none after

/-- A guard goes on if the handler behind it does with what is let through. -/
theorem goesOn_guarded {guards : List (Guard α)} {handler : Value Code → Build Code α}
    {v : Value Code}
    (h : (∀ guard ∈ guards, guard.shape.admits v = true) → GoesOn (handler v) before) :
    GoesOn (guarded pure guards handler v) before := by
  induction guards with
  | nil => exact h fun guard mem ↦ absurd mem List.not_mem_nil
  | cons guard rest ih =>
    change GoesOn (guard.before pure (guarded pure rest handler) v) before
    unfold Guard.before
    split
    · next admitted =>
      apply ih
      intro others
      exact h (List.forall_mem_cons.2 ⟨admitted, others⟩)
    · split
      · exact (goesOn_report _).bind fun _ _ _ ↦ goesOn_pure _
      · exact (goesOn_pure ()).bind fun _ _ _ ↦ goesOn_pure _

/-- A section that may be missing goes on if the handler does with the items of an array. -/
theorem goesOn_guarded_array {title : String} {fallback other : α}
    {handler : List (Value Code) → Build Code α} {v : Value Code}
    (h : ∀ items, v.array? = some items → GoesOn (handler items) before) :
    GoesOn (guarded pure [⟨.present, fallback⟩, ⟨.array title, other⟩]
      (fun v ↦ handler (v.array?.getD [])) v) before := by
  apply goesOn_guarded
  intro admitted
  have array : v.array?.isSome = true := admitted ⟨.array title, other⟩ (by simp)
  obtain ⟨items, array⟩ := Option.isSome_iff_exists.1 array
  rw [array, Option.getD_some]
  exact h items array

/-! ### Going through items -/

/-- Going through items goes on if each does from where those before it have left off. -/
theorem goesOn_filterMap_of_split {step : α → Build Code (Option β)} {items : List α}
    (h : ∀ earlier a later, items = earlier ++ a :: later → ∀ bs between,
      Yields .collect (filterMap step earlier) before bs between → GoesOn (step a) between) :
    GoesOn (filterMap step items) before := by
  induction items generalizing before with
  | nil => exact goesOn_pure _
  | cons a rest ih =>
    obtain ⟨result, between, first⟩ :=
      h [] a rest rfl [] before ((yields_filterMap_nil _ _).2 ⟨rfl, rfl⟩)
    have more : GoesOn (filterMap step rest) between := by
      refine ih fun earlier b later split bs next gone ↦ ?_
      refine h (a :: earlier) b later (split ▸ rfl) (result.toList ++ bs) next ?_
      exact (yields_filterMap_cons _ _ _ _).2 ⟨result, between, first, bs, gone, rfl⟩
    obtain ⟨bs, after, gone⟩ := more
    exact ⟨_, after, (yields_filterMap_cons _ _ _ _).2 ⟨result, between, first, bs, gone, rfl⟩⟩

/-- Going through items goes on if each does, from wherever. -/
theorem goesOn_filterMap {step : α → Build Code (Option β)} {items : List α}
    (h : ∀ a ∈ items, ∀ between, GoesOn (step a) between) :
    GoesOn (filterMap step items) before := by
  refine goesOn_filterMap_of_split fun earlier a later split _ between _ ↦ ?_
  have mem : a ∈ items := split ▸ List.mem_append_right _ List.mem_cons_self
  exact h a mem between

/-- Going through items and their positions goes on if each does, from wherever. -/
theorem goesOn_filterMapIdx {step : Nat → α → Build Code (Option β)} {items : List α}
    (h : ∀ i, ∀ a ∈ items, ∀ between, GoesOn (step i a) between) :
    GoesOn (filterMapIdx step items) before :=
  goesOn_filterMap fun entry mem ↦ h entry.2 entry.1 (List.fst_mem_of_mem_zipIdx mem)

/-- Doing something for each item goes on if each does, from wherever. -/
theorem goesOn_forM {step : α → Build Code Unit} {items : List α}
    (h : ∀ a ∈ items, ∀ between, GoesOn (step a) between) : GoesOn (items.forM step) before := by
  induction items generalizing before with
  | nil => exact goesOn_pure ()
  | cons a rest ih =>
    have first := h a List.mem_cons_self before
    exact first.bind fun _ _ _ ↦ ih fun b mem ↦ h b (List.mem_cons_of_mem a mem)

end Build

open Build

/-! ### Descriptions -/

/-- Reporting the keys that are no sections goes on. -/
theorem Description.goesOn_checkKeys (entries : Table Code (Value Code)) :
    GoesOn (checkKeys entries) before :=
  goesOn_forM fun _ _ _ ↦ goesOn_reportIn _ _

/-- Checking a description by itself goes on. -/
theorem Description.goesOn_check (v : Value Code) : GoesOn (check v) before := by
  refine ((yields_read _ _).2 ⟨rfl, rfl⟩).goesOn_bind ?_
  split
  · exact goesOn_checkKeys _
  · exact goesOn_reportIn _ _

/-! ### Externals -/

namespace Externals

/-- An entry of a list of externals goes on. -/
theorem goesOn_fromItem (raw : Value Code) : GoesOn (fromItem raw) before := by
  refine (goesOn_normalize _ raw).bind fun result between _ ↦ ?_
  split
  · exact goesOn_pure none
  · refine goesOn_requireValidName (fun valid ↦ ?_) fun _ ↦ goesOn_pure none
    have key := Value.canBeKey_of_isValidName valid
    exact (goesOn_declare key).discard.bind fun _ _ _ ↦ goesOn_pure _
  · exact goesOn_pure _

/-- An entry of a mapping of externals goes on. -/
theorem goesOn_fromEntry (entry : Value Code × Value Code) : GoesOn (fromEntry entry) before := by
  refine goesOn_requireValidName (fun valid ↦ ?_) fun _ ↦ goesOn_pure none
  refine (goesOn_normalize _ entry.2).bind fun result between _ ↦ ?_
  split
  · exact goesOn_pure none
  · split
    · exact (goesOn_reportIn _ _).bind fun _ _ _ ↦ goesOn_pure none
    · have key := Value.canBeKey_of_isValidName valid
      exact (goesOn_declare key).discard.bind fun _ _ _ ↦ goesOn_pure _

/-- The externals go on in either form. -/
theorem goesOn_validate (v : Value Code) : GoesOn (validate v) before := by
  unfold validate
  split
  · exact goesOn_filterMap fun raw _ _ ↦ goesOn_fromItem raw
  · exact goesOn_guarded fun _ ↦ goesOn_filterMap fun entry _ _ ↦ goesOn_fromEntry entry

/-- Declaring inherited externals goes on if their names can be looked up. -/
theorem goesOn_inherit {inherited : List (Value Code)}
    (h : ∀ r, .rule r ∈ inherited → r.Hashable) : GoesOn (inherit inherited) before := by
  refine goesOn_forM fun name mem _ ↦ (goesOn_declare ?_).discard
  obtain ⟨v, mem, symbol⟩ := List.mem_filterMap.1 mem
  unfold Value.symbolName? at symbol
  split at symbol
  · cases symbol
    exact (h _ mem).referenced name rfl
  · cases symbol

end Externals

/-! ### Rules -/

namespace Rules

/-- Declaring the names of inherited rules goes on if they can be looked up. -/
theorem goesOn_inherit {inherited : Definitions Code}
    (h : ∀ name ∈ inherited.keys, name.canBeKey = true) : GoesOn (inherit inherited) before :=
  goesOn_forM fun name mem _ ↦ (goesOn_declare (h name mem)).discard

/-- Declaring the name of an entry goes on. -/
theorem goesOn_declareEntry (inherited : Definitions Code) (entry : Value Code × Value Code) :
    GoesOn (declareEntry inherited entry) before := by
  obtain ⟨name, v⟩ := entry
  refine goesOn_requireValidName (fun valid ↦ ?_) fun _ ↦ goesOn_pure none
  rw [if_pos rfl]
  split
  · exact (goesOn_reportIn _ _).bind fun _ _ _ ↦ goesOn_pure none
  · split
    · have key := Value.canBeKey_of_isValidName valid
      exact (goesOn_declare key).discard.bind fun _ _ _ ↦ goesOn_pure _
    · exact goesOn_pure _

/-- Calling the function of a rule goes on if the call does. -/
theorem goesOn_define {setting : Setting Code} {inherited : Definitions Code}
    {entry : Value Code × Callable (Value Code) Code}
    (h : ∀ fault, ((setting.call ((setting.made "call" "rules").part entry.1.shown) entry.2
      (.ofOption (inherited.find? entry.1))).start before.store).1 ≠ .error (.fault fault)) :
    GoesOn (define setting inherited entry) before := by
  refine (goesOn_absorb h).bind fun result between _ ↦ ?_
  split
  · exact goesOn_pure none
  · next raw _ =>
    refine (goesOn_present raw).bind fun v _ _ ↦ ?_
    exact (goesOn_normalize _ v).return fun rule ↦ rule.map fun r ↦ (entry.1, r)

end Rules

/-! ### Sections that only use names -/

namespace Extras

/-- Checking the names of an extra goes on if they can be looked up. -/
theorem goesOn_checkNames (references : Bool) {r : Rule (Value Code)} (h : r.Hashable) :
    GoesOn (checkNames references r) before := by
  unfold checkNames
  split
  · refine goesOn_forM fun name mem _ ↦ (goesOn_requireDeclared ?_).discard
    rw [Rule.symbols, Rule.addSymbols_eq_foldl] at mem
    exact h.mentioned name ((Rule.mem_of_mem_foldl_addName mem).resolve_left List.not_mem_nil)
  · split
    · exact goesOn_pure ()
    · next name found =>
      refine (goesOn_requireNotDeclared ?_).discard
      obtain ⟨v, referenced, given⟩ := Option.bind_eq_some_iff.1 found
      rw [← Value.eq_of_toOption_eq_some given]
      exact h.referenced v referenced

/-- The extras go on if the names that are referred to can be looked up. -/
theorem goesOn_validate {references : Bool} {v : Value Code}
    (h : ∀ items, v.array? = some items → ∀ raw ∈ items, ∀ r, raw.toRule = .ok r → r.Hashable) :
    GoesOn (validate references v) before := by
  refine goesOn_guarded_array fun items array ↦ goesOn_filterMap fun raw mem between ↦ ?_
  refine GoesOn.ofRule (fun r rule ↦ ?_) fun _ ↦ goesOn_pure none
  exact (goesOn_checkNames references (h items array raw mem r rule)).bind fun _ _ _ ↦ goesOn_pure _

end Extras

namespace Names

/-- The name section goes on. -/
theorem goesOn_validateName (v : Value Code) : GoesOn (validateName v) before :=
  goesOn_requireValidName (fun _ ↦ goesOn_pure v) fun _ ↦ goesOn_pure _

/-- The inline section goes on. -/
theorem goesOn_validateInline (v : Value Code) : GoesOn (validateInline v) before := by
  refine goesOn_guarded_array fun _ _ ↦ goesOn_filterMap fun entry _ _ ↦ ?_
  refine goesOn_requireValidName (fun valid ↦ ?_) fun _ ↦ goesOn_pure none
  have key := Value.canBeKey_of_isValidName valid
  exact (goesOn_requireDeclared key).discard.bind fun _ _ _ ↦ goesOn_pure _

/-- A name in a conflict goes on. -/
theorem goesOn_conflictName (entry : Value Code) : GoesOn (conflictName entry) before := by
  refine goesOn_requireValidName (fun valid ↦ ?_) fun _ ↦ goesOn_pure none
  have key := Value.canBeKey_of_isValidName valid
  refine (goesOn_requireDeclared key).bind fun declared _ _ ↦ ?_
  cases declared with
  | true => exact goesOn_pure _
  | false => exact goesOn_pure none

/-- The conflicts section goes on. -/
theorem goesOn_validateConflicts (v : Value Code) : GoesOn (validateConflicts v) before := by
  refine goesOn_guarded_array fun _ _ ↦ goesOn_filterMap fun group _ _ ↦ ?_
  unfold conflict
  split
  · exact (goesOn_reportIn _ _).bind fun _ _ _ ↦ goesOn_pure none
  · refine (goesOn_filterMap fun entry _ _ ↦ goesOn_conflictName entry).bind fun names _ _ ↦ ?_
    split
    · exact (goesOn_reportIn _ _).bind fun _ _ _ ↦ goesOn_pure none
    · exact goesOn_pure _

/-- The word section goes on. -/
theorem goesOn_validateWord (v : Value Code) : GoesOn (validateWord v) before := by
  unfold validateWord
  split
  · exact goesOn_pure _
  · refine goesOn_requireValidName (fun valid ↦ ?_) fun _ ↦ goesOn_pure _
    have key := Value.canBeKey_of_isValidName valid
    refine (goesOn_requireDeclared key).bind fun declared _ _ ↦ ?_
    cases declared with
    | true => exact goesOn_pure _
    | false => exact goesOn_pure _

/-- The supertypes section goes on. -/
theorem goesOn_validateSupertypes (v : Value Code) : GoesOn (validateSupertypes v) before := by
  refine goesOn_guarded_array fun _ _ ↦ goesOn_filterMap fun entry _ _ ↦ ?_
  unfold supertype
  split
  · exact (goesOn_reportIn _ _).bind fun _ _ _ ↦ goesOn_pure none
  · refine goesOn_requireValidName (fun valid ↦ ?_) fun _ ↦ goesOn_pure none
    have key := Value.canBeKey_of_isValidName valid
    exact (goesOn_requireDeclared key).discard.bind fun _ _ _ ↦ goesOn_pure _

end Names

namespace Precedences

/-- An entry of a group goes on if the name of a symbol can be looked up. -/
theorem goesOn_fromItem {group entry : Nat} {raw : Value Code}
    (h : ∀ name, raw.toRule = .ok (.symbol name) → name.canBeKey = true) :
    GoesOn (fromItem group entry raw) before := by
  refine GoesOn.ofRule (fun r rule ↦ ?_) fun _ ↦ goesOn_pure none
  cases r with
  | symbol name =>
    exact (goesOn_requireDeclared (h name rule)).discard.bind fun _ _ _ ↦ goesOn_pure _
  | string v => exact goesOn_pure _
  | bare | pattern | blank | group | wrap | prec | field | aliased =>
    exact (goesOn_reportIn _ _).bind fun _ _ _ ↦ goesOn_pure none

/-- The precedences section goes on if the names of symbols can be looked up. -/
theorem goesOn_validate {v : Value Code}
    (h : ∀ groups, v.array? = some groups → ∀ group ∈ groups, ∀ items, group.array? = some items →
      ∀ raw ∈ items, ∀ name, raw.toRule = .ok (.symbol name) → name.canBeKey = true) :
    GoesOn (validate v) before := by
  refine goesOn_guarded_array fun groups given ↦ goesOn_filterMapIdx fun i group mem between ↦ ?_
  unfold fromGroup
  split
  · exact (goesOn_reportIn _ _).bind fun _ _ _ ↦ goesOn_pure none
  · next items array =>
    refine GoesOn.return (goesOn_filterMapIdx fun j raw inside _ ↦ ?_) some
    exact goesOn_fromItem (h groups given group mem items array raw inside)

end Precedences

end GrammarDoc
