import GrammarDoc.Proofs.Sections

/-!
# Results of assemblies

An assembly has a result if each of its sections has one, each from the journal that the one before
it has left. A section without a base is what is given for it, or what a function that is given for
it returns, as it is then.
-/

namespace GrammarDoc

open Build (Yields)

variable {Code : Type} {posture : Posture} {before after : Journal Code}

/-- The journal after it is written that a section is begun. -/
def Journal.began (journal : Journal Code) (part : Section) (grammar : Option (Value Code)) :
    Journal Code :=
  { journal with entries := journal.entries ++ [.began part grammar] }

/-- The journal after it is written that a section of a named grammar is begun. -/
def Journal.announced (journal : Journal Code) (part : Section) (name : Value Code) :
    Journal Code :=
  journal.began part (some (journal.store.present name))

/-- A journal has some names and a store, whatever else is in it. -/
structure Journal.Holds (journal : Journal Code) (names : List (Value Code)) (store : Store Code) :
    Prop where
  keys : journal.names.keys = names
  store : journal.store = store

namespace Journal.Holds

variable {journal : Journal Code} {names : List (Value Code)} {store : Store Code}
  (h : journal.Holds names store)

include h

/-- Lines do not count. -/
theorem announced (part : Section) (name : Value Code) :
    (journal.announced part name).Holds names store :=
  ⟨h.keys, h.store⟩

/-- The store may be another one. -/
theorem working (other : Store Code) : { journal with store := other }.Holds names other :=
  ⟨h.keys, rfl⟩

/-- More names may be declared. -/
theorem declaring (tag : String) (more : List (Value Code)) :
    (journal.declaring tag more).Holds (names ++ more) store :=
  ⟨(journal.keys_declaring tag more).trans (h.keys ▸ rfl), h.store⟩

end Journal.Holds

/-- A rule remains a rule, whatever its scalars are at present. -/
theorem Store.exists_present_rule (store : Store Code) (r : Rule (Value Code)) :
    ∃ present, store.present (.rule r) = .rule present := by
  unfold Store.present
  split
  · exact ⟨r, rfl⟩
  · rw [Store.presentWithin, Value.replaced]
    exact ⟨_, rfl⟩

namespace Description

/-- Looking up the entries of a description always finishes. -/
@[simp] theorem start_entries (description : Value Code) :
    Build.start (Description.entries description) posture before =
      (.ok (given description before.store), before) := rfl

/-- Looking up the entries of a description leaves the journal alone. -/
@[simp] theorem yields_entries (description : Value Code) (entries : Table Code (Value Code)) :
    Yields posture (Description.entries description) before entries after ↔
      entries = given description before.store ∧ after = before := by
  simp [Yields, eq_comm]

/-- The keys that may stand in a description are the titles of sections. -/
theorem isSection_iff {key : Value Code} :
    isSection key = true ↔ ∃ part : Section, key = .string part.title := by
  simp only [isSection, Value.isIn, List.any_map, List.any_eq_true, Function.comp_apply,
    Value.same_string]
  constructor
  · rintro ⟨part, -, eq⟩
    exact ⟨part, eq⟩
  · rintro ⟨part, eq⟩
    exact ⟨part, by cases part <;> decide, eq⟩

/-- A description is a mapping, and all its keys are titles of sections. -/
theorem yields_check (description : Value Code) (u : Unit) :
    Yields .failFast (check description) before u after ↔
      (∃ entries : Table Code (Value Code),
        (before.store.read description).object? = some entries ∧
          ∀ key ∈ entries.keys, ∃ part : Section, key = .string part.title) ∧ after = before := by
  have keys (entries : Table Code (Value Code)) :
      Yields .failFast (checkKeys entries) before u after ↔
        (∀ key ∈ entries.keys, ∃ part : Section, key = .string part.title) ∧ after = before := by
    refine (Build.yields_forM u fun key _ u between ↦
      show _ ↔ False ∧ between = before by simp).trans (and_congr_left fun _ ↦ ?_)
    simp [← isSection_iff]
  unfold check
  rw [Build.yields_bind]
  simp only [Build.yields_read]
  cases object : (before.store.read description).object? with
  | none => simp [object]
  | some entries => simp [object, keys]

end Description

namespace Setting

variable (setting : Setting Code) (entries : Table Code (Value Code))

/-- Writing that a section of a named grammar is begun. -/
theorem yields_announce (part : Section) (name : Value Code) (u : Unit) :
    Yields posture (do Build.log (.began part (some (← Build.present name)))) before u after ↔
      after = before.announced part name := by
  simp only [Build.yields_bind, Build.yields_present, Build.yields_log]
  constructor
  · rintro ⟨_, _, ⟨rfl, rfl⟩, rfl⟩
    rfl
  · rintro rfl
    exact ⟨_, _, ⟨rfl, rfl⟩, rfl⟩

/-- An assembly checks the description and goes through its sections in order, each as it is given
when its turn comes. -/
theorem yields_assemble (description : Value Code) (g : Grammar (Value Code)) :
    Yields posture (setting.assemble description) before g after ↔
      ∃ j₁, Yields posture (Description.check description) before () j₁ ∧
      ∃ name j₂, Yields posture (setting.name (Description.given description j₁.store))
        (j₁.began .name none) name j₂ ∧
      ∃ externals j₃, Yields posture (setting.externals (Description.given description j₂.store))
        (j₂.announced .externals name) externals j₃ ∧
      ∃ rules j₄, Yields posture (setting.rules (Description.given description j₃.store))
        (j₃.announced .rules name) rules j₄ ∧
      ∃ extras j₅, Yields posture
        (setting.part (Description.given description j₄.store) .extras fun v ↦ do
          return (← Extras.validate setting.extraReferences v).map .rule)
        (j₄.announced .extras name) extras j₅ ∧
      ∃ inline j₆, Yields posture
        (setting.part (Description.given description j₅.store) .inline Names.validateInline)
        (j₅.announced .inline name) inline j₆ ∧
      ∃ conflicts j₇, Yields posture
        (setting.part (Description.given description j₆.store) .conflicts fun v ↦ do
          return setting.groups .conflicts (← Names.validateConflicts v))
        (j₆.announced .conflicts name) conflicts j₇ ∧
      ∃ word j₈, Yields posture (setting.word (Description.given description j₇.store))
        (j₇.announced .word name) word j₈ ∧
      ∃ supertypes j₉, Yields posture
        (setting.part (Description.given description j₈.store) .supertypes
          Names.validateSupertypes)
        (j₈.announced .supertypes name) supertypes j₉ ∧
      ∃ precedences j₁₀, Yields posture
        (setting.part (Description.given description j₉.store) .precedences fun v ↦ do
          return setting.groups .precedences ((← Precedences.validate v).map (·.map .rule)))
        (j₉.announced .precedences name) precedences j₁₀ ∧
      g = ⟨setting.place.part "grammar", name, rules, extras, externals, inline, conflicts, word,
        supertypes, precedences, false⟩ ∧ after = j₁₀ := by
  have began (journal : Journal Code) (u : Unit) (next : Journal Code) :
      Yields posture (Build.log (.began .name none)) journal u next ↔
        next = journal.began .name none := Build.yields_log _ u
  -- Beginning a section leaves the store, so that the description is as the one before has left it.
  have given (journal : Journal Code) (part : Section) (name : Value Code) :
      Description.given description (journal.announced part name).store =
        Description.given description journal.store := rfl
  have given_first (journal : Journal Code) :
      Description.given description (journal.began .name none).store =
        Description.given description journal.store := rfl
  unfold assemble
  simp only [↓yields_announce, ↓began, Build.yields_bind, Build.yields_pure, exists_const,
    exists_eq_left, Description.yields_entries, given, given_first, exists_and_left, and_assoc]
  exact ⟨fun h ↦ h.elim fun _ rest ↦ rest, fun rest ↦ ⟨(), rest⟩⟩

/-! ### Without a base -/

/-- What is given for a section stands for itself, or for what it returns if it is a function that
may take the builder; in either case as it is then. -/
def standing (part : Section) (v : Value Code) : Exec Code (Value Code) := do
  match v.callable? with
  | none => Exec.present v
  | some f =>
    if f.takesArgument then
      Exec.present (← setting.call (setting.made "call" part.title) f (setting.offeredAnew part))
    else Exec.present v

/-- Whether a value is a function or a callable object whose name is among some names. -/
def refers (names : List (Value Code)) (v : Value Code) : Bool :=
  match v.callable? with
  | none => false
  | some f => (Value.ofOption (f.name.map .string)).isIn names

/-- What is given for the word stands for its name if that is declared. -/
def wordStanding (names : List (Value Code)) (v : Value Code) : Exec Code (Value Code) :=
  if refers names v then return v.nameOf else setting.standing .word v

/-- What is given as the rules, or an empty mapping. -/
def givenRules : Value Code :=
  match Description.get entries .rules with
  | .missing => .mapping { place := setting.made "empty" "rules", toList := [] }
  | v => v

/-- Whether a value refers to a declared name shows in the names. -/
theorem yields_refersToDeclared (v : Value Code) (refersTo : Bool) :
    Yields posture (refersToDeclared v) before refersTo after ↔
      refersTo = refers before.names.keys v ∧ after = before := by
  unfold refersToDeclared refers
  cases v.callable? with
  | none => simp
  | some f => simp [Table.has_eq_isIn, and_comm]

/-- What is given for a section is evaluated, and looked at, before anything is done with it. -/
theorem yields_evaluate {β : Type} (part : Section) (v : Value Code)
    (next : Value Code → Build Code β) (b : β) :
    Yields .failFast (do
        let w ← setting.evaluate part v (setting.offeredAnew part)
        next (← Build.present w)) before b after ↔
      ∃ w store, (setting.standing part v).Returns before.store w store ∧
        Yields .failFast (next w) { before with store } b after := by
  unfold evaluate standing
  cases v.callable? with
  | none => simp [and_assoc]
  | some f =>
    cases takes : f.takesArgument with
    | false => simp [takes, and_assoc]
    | true =>
      simp only [takes, if_true, Build.yields_bind, Build.yields_absorb_failFast, Exec.returns_bind,
        Exec.returns_present, Build.yields_present, Build.yields_pure]
      constructor
      · rintro ⟨_, _, ⟨_, _, ⟨w, store, called, rfl, rfl⟩, rfl, rfl⟩, _, _, ⟨rfl, rfl⟩, next⟩
        exact ⟨_, _, ⟨_, _, called, rfl, rfl⟩, next⟩
      · rintro ⟨_, _, ⟨w, store, called, rfl, rfl⟩, next⟩
        exact ⟨w, _, ⟨some w, _, ⟨w, _, called, rfl, rfl⟩, rfl, rfl⟩, _, _, ⟨rfl, rfl⟩, next⟩

variable {setting} (base : setting.hasBase = false)

include base

/-- The name of a grammar without a base. -/
theorem yields_name (name : Value Code) :
    Yields .failFast (setting.name entries) before name after ↔
      name = before.store.present (Description.get entries .name) ∧ name.isValidName = true ∧
        after = before := by
  have anew : setting.name entries =
      (do Names.validateName (← Build.present (Description.get entries .name))) := by
    unfold Setting.name
    rw [base]
    cases Description.get entries .name <;> rfl
  rw [anew]
  simp only [Build.yields_bind, Build.yields_present, Names.yields_validateName]
  constructor
  · rintro ⟨_, _, ⟨rfl, rfl⟩, valid, rfl, rfl⟩
    exact ⟨rfl, valid, rfl⟩
  · rintro ⟨rfl, valid, rfl⟩
    exact ⟨_, _, ⟨rfl, rfl⟩, valid, rfl, rfl⟩

/-- Without a base, a section is what is given for it, after it has been evaluated. -/
theorem part_eq (part : Section) (validate : Value Code → Build Code (List (Value Code))) :
    setting.part entries part validate = (do
      let v ← setting.evaluate part (Description.get entries part) (setting.offeredAnew part)
      let v ← Build.present v
      return { place := setting.made "result" part.title, toList := ← validate v }) := by
  unfold Setting.part inherited offered
  simp only [base, Bool.false_eq_true, if_false, pure_bind]
  cases Description.get entries part <;> rfl

/-- A section of a grammar without a base. -/
theorem yields_part {part : Section} {validate : Value Code → Build Code (List (Value Code))}
    (items : Items (Value Code)) :
    Yields .failFast (setting.part entries part validate) before items after ↔
      ∃ w store,
        (setting.standing part (Description.get entries part)).Returns before.store w store ∧
        ∃ results, Yields .failFast (validate w) { before with store } results after ∧
          items = ⟨setting.made "result" part.title, results, false⟩ := by
  rw [part_eq entries base]
  refine (setting.yields_evaluate part _ _ items).trans ?_
  simp

/-- A section reports nothing if what is given for it stands for something about which nothing is
reported. -/
theorem unreported_part {part : Section} {validate : Value Code → Build Code (List (Value Code))}
    {w : Value Code} {store : Store Code}
    (stands : (setting.standing part (Description.get entries part)).Returns before.store w store)
    (h : Build.Unreported (validate w) { before with store }) :
    Build.Unreported (setting.part entries part validate) before := by
  rw [part_eq entries base]
  obtain ⟨v, between, evaluated, present⟩ := (Build.yields_bind _ _ _).1
    ((setting.yields_evaluate part _ pure w).2
      ⟨w, store, stands, (Build.yields_pure _ _).2 ⟨rfl, rfl⟩⟩)
  obtain ⟨x, next, looked, done⟩ := (Build.yields_bind _ _ _).1 present
  obtain ⟨rfl, rfl⟩ := (Build.yields_pure _ _).1 done
  refine evaluated.unreported_bind (looked.unreported_bind ?_)
  exact h.bind fun _ _ _ ↦ Build.unreported_pure _

/-- The externals of a grammar without a base. -/
theorem yields_externals :
    (∃ items, Yields .failFast (setting.externals entries) before items after) ↔
      ∃ w store, (setting.standing .externals (Description.get entries .externals)).Returns
          before.store w store ∧
        (∃ rules, Externals.Gives w rules) ∧ (Externals.names w).Nodup ∧
        (∀ name ∈ Externals.names w, name ∉ before.names.keys) ∧
        after = { before with store }.declaring "externals" (Externals.names w) := by
  have anew : setting.externals entries = (do
      match Description.get entries .externals with
      | .missing =>
        Externals.inherit []
        return { place := setting.made "offered" "externals", toList := [] }
      | v =>
        let w ← setting.evaluate .externals v (setting.offeredAnew .externals)
        let rules ← Externals.validate (← Build.present w)
        return { place := setting.made "result" "externals", toList := rules.map .rule }) := by
    unfold Setting.externals inheritedExternals
    simp only [base, Bool.false_eq_true, if_false, pure_bind]
    cases Description.get entries .externals <;> rfl
  have given (v : Value Code) :
      (∃ items : Items (Value Code), Yields .failFast (do
        let w ← setting.evaluate .externals v (setting.offeredAnew .externals)
        let rules ← Externals.validate (← Build.present w)
        return { place := setting.made "result" "externals", toList := rules.map .rule })
        before items after) ↔
      ∃ rules, Yields .failFast (do
        let w ← setting.evaluate .externals v (setting.offeredAnew .externals)
        Externals.validate (← Build.present w)) before rules after := by
    simp only [Build.yields_bind, Build.yields_pure]
    constructor
    · rintro ⟨_, w, j, evaluated, x, j', present, rules, _, valid, rfl, rfl⟩
      exact ⟨rules, w, j, evaluated, x, j', present, valid⟩
    · rintro ⟨rules, w, j, evaluated, x, j', present, valid⟩
      exact ⟨_, w, j, evaluated, x, j', present, rules, _, valid, rfl, rfl⟩
  -- What is given is evaluated and checked; only if nothing is given, the names that are inherited
  -- are declared, and here there are none.
  rw [anew]
  cases Description.get entries .externals with
  | missing =>
    have inherit (u : Unit) (between : Journal Code) :
        Yields .failFast (Externals.inherit []) before u between ↔ between = before :=
      (Build.yields_pure _ _).trans (by simp)
    have names : Externals.names (.missing : Value Code) = [] := rfl
    simp only [Build.yields_bind, inherit, Build.yields_pure, standing, Value.callable?,
      Exec.returns_present, Store.present_missing]
    constructor
    · rintro ⟨_, _, between, rfl, rfl, rfl⟩
      refine ⟨.missing, after.store, ⟨rfl, rfl⟩, ⟨[], .inl ⟨rfl, rfl⟩⟩, ?_⟩
      rw [names]
      simp
    · rintro ⟨_, _, ⟨rfl, rfl⟩, -, -, -, rfl⟩
      exact ⟨_, (), before, rfl, rfl, by rw [names, Journal.declaring_nil]⟩
  | bool | int | double | string | list | tuple | mapping | pattern | callable | builder | rule
  | grammar | references =>
    refine (given _).trans ?_
    simp only [yields_evaluate, Externals.yields_validate]
    constructor
    · rintro ⟨rules, w, store, stands, gives, nodup, free, rfl⟩
      exact ⟨w, store, stands, ⟨rules, gives⟩, nodup, free, rfl⟩
    · rintro ⟨w, store, stands, ⟨rules, gives⟩, nodup, free, rfl⟩
      exact ⟨rules, w, store, stands, gives, nodup, free, rfl⟩

/-- The rules of a grammar without a base. -/
theorem yields_rules :
    (∃ rules, Yields .failFast (setting.rules entries) before rules after) ↔
      ∃ definitions, Yields .failFast
        (Rules.validate setting [] (before.store.present (setting.givenRules entries)))
        before definitions after := by
  have anew : setting.rules entries = (do
      let v ← Build.present (setting.givenRules entries)
      let definitions ← Rules.validate setting [] v
      return { place := setting.made "result" "rules", toList := definitions }) := by
    unfold Setting.rules inheritedRules
    rw [if_neg (Bool.eq_false_iff.1 base), pure_bind]
    rfl
  rw [anew]
  simp

/-- The word of a grammar without a base. -/
theorem yields_word (word : Value Code) :
    Yields .failFast (setting.word entries) before word after ↔
      ∃ w store, (setting.wordStanding before.names.keys (Description.get entries .word)).Returns
          before.store w store ∧
        Names.WordGives before.names w word ∧ after = { before with store } := by
  have anew : setting.word entries = (do
      let v := Description.get entries .word
      if ← refersToDeclared v then Names.validateWord v.nameOf
      else
        let v ← setting.evaluate .word v (setting.offeredAnew .word)
        Names.validateWord (← Build.present v)) := by
    unfold Setting.word inherited
    simp only [base, Bool.false_eq_true, if_false, pure_bind]
    cases Description.get entries .word <;> rfl
  have evaluated (v : Value Code) :
      Yields .failFast (do
        let v ← setting.evaluate .word v (setting.offeredAnew .word)
        Names.validateWord (← Build.present v)) before word after ↔ _ :=
    setting.yields_evaluate .word v Names.validateWord word
  rw [anew]
  simp only [Build.yields_bind, yields_refersToDeclared, wordStanding]
  cases refers before.names.keys (Description.get entries .word) with
  | true => simp [Names.yields_validateWord]
  | false => simp [evaluated, Names.yields_validateWord]

end Setting

end GrammarDoc
