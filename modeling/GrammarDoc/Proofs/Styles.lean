import GrammarDoc.Proofs.Attribution
import GrammarDoc.Proofs.Interference
import GrammarDoc.Proofs.Spellings

/-!
# Styles of descriptions

A description may refer to rules by functions, or by symbols that functions get from the builder
they are passed. Two descriptions that only differ in this build the same grammar and report the
same problems, but for values that are kept with a problem as they were given.
-/

namespace GrammarDoc

open Build (Yields MadeOf Alike Likewise)

variable {Code : Type} {before after : Journal Code}

/-! ### What a section is when it is checked -/

/-- Two values of a section that only differ in how references are spelled. -/
def Section.Same (part : Section) : Value Code → Value Code → Prop :=
  match part with
  | .externals => Externals.Same
  | .extras => Value.SameItems Value.SameRule
  | .inline | .supertypes => Value.SameItems Value.SameName
  | .conflicts => Value.SameItems (Value.SameItems Value.SameName)
  | .word => Value.SameName
  | .precedences => Value.SameItems (Value.SameItems Value.SameRule)
  | .name | .rules => Eq

namespace Setting

variable (setting : Setting Code) (entries : Table Code (Value Code)) (part : Section)

/-- What a section is when it is checked, if it is not inherited. -/
def reading : Build Code (Value Code) :=
  match part with
  | .name => Build.present (Description.get entries .name)
  | .rules => Build.present (setting.givenRules entries)
  | .word => do
    let inherited ← setting.inherited .word
    let v := Description.get entries .word
    if ← refersToDeclared v then return v.nameOf
    else Build.present (← setting.evaluate .word v inherited)
  | part => setting.subject entries part

/-- Checks a section that only uses references, or declares externals, and makes of it what the
grammar has for it. -/
def check (v : Value Code) : Build Code (Value Code) :=
  match part with
  | .externals => do
    let rules ← Externals.validate v
    return .list { place := setting.made "result" "externals", toList := rules.map .rule }
  | .word => Names.validateWord v
  | .name | .rules => return v
  | part => do
    return .list { place := setting.made "result" part.title, toList := ← setting.checks part v }

variable {setting entries part}

private theorem externals_eq (given : Description.get entries .externals ≠ .missing) :
    setting.externals entries = (do
      let rules ← Externals.validate (← setting.subject entries .externals)
      return { place := setting.made "result" "externals", toList := rules.map .rule }) := by
  unfold externals subject passed
  split
  · next missing => exact absurd missing given
  · simp only [bind_assoc, pure_bind]

private theorem part_eq_subject (given : Description.get entries part ≠ .missing)
    (passed : setting.passed part = (do setting.offered part (← setting.inherited part)))
    (validate : Value Code → Build Code (List (Value Code))) :
    setting.part entries part validate = (do
      let v ← setting.subject entries part
      return { place := setting.made "result" part.title, toList := ← validate v }) := by
  unfold Setting.part subject
  rw [passed]
  split
  · next missing _ => exact absurd missing given
  · simp only [bind_assoc]

private theorem word_eq (given : Description.get entries .word ≠ .missing) :
    setting.word entries = (do Names.validateWord (← setting.reading entries .word)) := by
  change setting.word entries = (do
    let v ← (do
      let inherited ← setting.inherited .word
      if ← refersToDeclared (Description.get entries .word) then
        return (Description.get entries .word).nameOf
      else Build.present (← setting.evaluate .word (Description.get entries .word) inherited))
    Names.validateWord v)
  unfold word
  split
  · next missing _ => exact absurd missing given
  · rw [bind_assoc]
    refine bind_congr fun inherited ↦ ?_
    rw [bind_assoc]
    refine bind_congr fun refersTo ↦ ?_
    split
    · rw [pure_bind]
    · rw [bind_assoc]

/-- A section that only uses references, or declares externals, is read and then checked, if it is
given. -/
theorem goThrough_eq (given : Description.get entries part ≠ .missing)
    (hp : part ∉ [Section.name, .rules]) :
    setting.goThrough entries part = (do setting.check part (← setting.reading entries part)) := by
  cases part with
  | name | rules => simp at hp
  | externals =>
    change (do return Value.list (← setting.externals entries)) =
      (do setting.check .externals (← setting.subject entries .externals))
    rw [externals_eq given]
    simp only [check, bind_assoc, pure_bind]
  | word => exact word_eq given
  | extras | inline | conflicts | supertypes | precedences =>
    change (do return Value.list (← setting.part entries _ (setting.checks _))) =
      (do setting.check _ (← setting.subject entries _))
    rw [part_eq_subject given rfl]
    simp only [check, bind_assoc, pure_bind]

/-- How the references of a section are spelled makes no difference but to what is kept with a
problem. -/
theorem likewise_check {v w : Value Code} (same : part.Same v w) :
    Likewise Cause.SameButGiven Eq (setting.check part v) (setting.check part w) := by
  have steady (part : Section) (congr : setting.checks part v = setting.checks part w) :
      Likewise Cause.SameButGiven Eq (setting.checks part v) (setting.checks part w) := by
    have made : MadeOf (fun _ ↦ True) (setting.checks part w) :=
      setting.madeOf_checks part w fun _ ↦ trivial
    rw [congr]
    exact made.likewise .refl
  cases part with
  | name | rules => exact .pure same
  | externals => exact (Externals.likewise_validate same).returned _
  | word =>
    have congr : Names.validateWord v = Names.validateWord w := Names.validateWord_congr same
    have made : MadeOf (fun _ ↦ True) (Names.validateWord w) :=
      Names.madeOf_validateWord w fun _ ↦ trivial
    change Likewise _ _ (Names.validateWord v) (Names.validateWord w)
    rw [congr]
    exact made.likewise .refl
  | extras => exact (steady .extras (by rw [checks, checks, Extras.validate_congr same])).returned _
  | inline => exact (steady .inline (Names.validateInline_congr same)).returned _
  | supertypes => exact (steady .supertypes (Names.validateSupertypes_congr same)).returned _
  | precedences =>
    have congr := Precedences.validate_congr same
    exact (steady .precedences (by rw [checks, checks, congr])).returned _
  | conflicts =>
    have groups := Names.likewise_validateConflicts Cause.SameButGiven.refl .shortConflict same
    exact (groups.returned (setting.groups .conflicts)).returned _

/-! ### The word -/

variable {entries₁ entries₂ : Table Code (Value Code)} {posture : Posture} {journal : Journal Code}
  {name : String}

/-- Whether a value gives a name as the word. A function does if it takes no argument, or if its
name is declared. -/
def GivesWord (names : Namespace Code) (name : String) (v : Value Code) : Prop :=
  v.Names name ∧
    ∀ f, v.callable? = some f → f.takesArgument = false ∨ names.has (.string name) = true

private theorem GivesWord.ne_missing {names : Namespace Code} {v : Value Code}
    (h : GivesWord names name v) : v ≠ .missing := by
  rintro rfl
  obtain ⟨⟨⟩ | ⟨⟨⟩⟩, -⟩ := h

/-- What gives a name as the word is read as something that gives that name. -/
theorem exists_start_reading_word (setting : Setting Code) (posture : Posture)
    (gives : GivesWord journal.names name (Description.get entries .word)) :
    ∃ w : Value Code, w.Names name ∧
      Build.start (setting.reading entries .word) posture journal =
        Build.start (do let _ ← setting.inherited .word; return w) posture journal := by
  obtain ⟨given, called⟩ := gives
  generalize hv : Description.get entries .word = v at given called
  have looked : Build.start (refersToDeclared v) posture journal =
      (.ok (refers journal.names.keys v), journal) := (yields_refersToDeclared v _).2 ⟨rfl, rfl⟩
  obtain ⟨w, names, read⟩ : ∃ w : Value Code, w.Names name ∧ ∀ inherited,
      Build.start (do
        if ← refersToDeclared v then return v.nameOf
        else Build.present (← setting.evaluate .word v inherited)) posture journal =
      (.ok w, journal) := by
    cases refersTo : refers journal.names.keys v with
    | true =>
      refine ⟨.string name, .string, fun inherited ↦ ?_⟩
      rw [Build.start_bind, looked, given.nameOf_eq, refersTo]
      rfl
    | false =>
      refine ⟨v, given, fun inherited ↦ ?_⟩
      -- A function of a declared name would have been taken for a reference. So this one takes no
      -- argument, and it is not called.
      have idle (f : Callable (Value Code) Code) (callable : v.callable? = some f) :
          f.takesArgument = false := by
        refine (called f callable).resolve_right fun declared ↦ ?_
        have found : refers journal.names.keys v = journal.names.has (.string name) := by
          unfold refers
          rw [callable]
          dsimp only
          rw [given.name_eq callable, Table.has_eq_isIn]
          rfl
        rw [refersTo, declared] at found
        cases found
      rw [Build.start_bind, looked, refersTo]
      simp only [Bool.false_eq_true, if_false, evaluate_idle idle, pure_bind,
        Build.start_present, given.present_eq]
  have reading : setting.reading entries .word = (do
      let inherited ← setting.inherited .word
      if ← refersToDeclared v then return v.nameOf
      else Build.present (← setting.evaluate .word v inherited)) := by
    rw [← hv]
    rfl
  refine ⟨w, names, ?_⟩
  rw [reading, Build.start_bind, Build.start_bind]
  cases inherits : Build.start (setting.inherited .word) posture journal with
  | mk outcome after =>
    cases outcome with
    | error failure => rfl
    | ok inherited =>
      obtain ⟨rfl, -⟩ := of_yields_inherited inherits
      exact read inherited

/-- However a name is given as the word, the build goes on in the same way. -/
theorem start_word_congr (setting : Setting Code) (posture : Posture)
    (first : GivesWord journal.names name (Description.get entries₁ .word))
    (second : GivesWord journal.names name (Description.get entries₂ .word)) :
    Build.start (setting.word entries₁) posture journal =
      Build.start (setting.word entries₂) posture journal := by
  have checked {entries : Table Code (Value Code)}
      (gives : GivesWord journal.names name (Description.get entries .word)) :
      Build.start (setting.word entries) posture journal =
        Build.start (do
          let _ ← setting.inherited .word
          Names.validateWord (.string name)) posture journal := by
    obtain ⟨w, names, read⟩ := exists_start_reading_word setting posture gives
    rw [word_eq gives.ne_missing, Build.start_bind, read, ← Build.start_bind, bind_assoc]
    simp only [pure_bind, Names.validateWord_eq names]
  rw [checked first, checked second]

/-! ### Functions of rules that answer alike -/

/-- Two functions that, whatever they are passed and whatever the store is, leave the same store,
and return what stands for the same rule or fail alike. -/
def AnswerAlike (setting : Setting Code) (f₁ f₂ : Callable (Value Code) Code) : Prop :=
  ∀ place offered store,
    let run₁ := (setting.call place f₁ offered).start store
    let run₂ := (setting.call place f₂ offered).start store
    run₁.2 = run₂.2 ∧
      Related Eq (fun v w ↦ (run₂.2.present v).toRule = (run₂.2.present w).toRule) run₁.1 run₂.1

private theorem answerAlike_self (f : Callable (Value Code) Code) : setting.AnswerAlike f f :=
  fun _ _ _ ↦ ⟨rfl, (Related.refl (fun _ ↦ rfl) (fun _ ↦ rfl) _).imp fun _ _ same ↦ same ▸ rfl⟩

/-- Whether a function only puts a rule together: whatever it is passed, it returns what a
combination comes to for certain leaves, or raises a problem if it comes to nothing, and it leaves
the store alone. -/
def PutsTogether {ι : Type} (setting : Setting Code) (leaves : ι → Value Code)
    (c : Combination Code ι) (f : Callable (Value Code) Code) : Prop :=
  ∀ place offered store,
    (setting.call place f offered).start store = (Outcome.ofCause (c.value leaves), store)

/-- Two functions that put the same rule together answer alike, however references are spelled. -/
theorem answerAlike_of_putsTogether {ι : Type} {leaves₁ leaves₂ : ι → Value Code}
    {c : Combination Code ι} {f₁ f₂ : Callable (Value Code) Code}
    (same : ∀ i, (leaves₁ i).SameRule (leaves₂ i)) (first : setting.PutsTogether leaves₁ c f₁)
    (second : setting.PutsTogether leaves₂ c f₂) : setting.AnswerAlike f₁ f₂ := by
  intro place offered store
  dsimp only
  rw [first place offered store, second place offered store]
  refine ⟨rfl, ?_⟩
  have values := c.related_value same
  revert values
  generalize c.value leaves₁ = value₁
  generalize c.value leaves₂ = value₂
  rintro (related | rfl)
  · exact .ok (related.present store).toRule_eq
  · exact .error rfl

/-- Two entries of the rules that are the same, or give functions that answer alike for the same
name. -/
inductive SameEntry (setting : Setting Code) :
    Value Code × Value Code → Value Code × Value Code → Prop
  | refl (entry : Value Code × Value Code) : SameEntry setting entry entry
  | functions (name : Value Code) {f₁ f₂ : Callable (Value Code) Code} :
      setting.AnswerAlike f₁ f₂ → SameEntry setting (name, .callable f₁) (name, .callable f₂)

/-- Two functions for the same name that answer alike. -/
def SameFunction (setting : Setting Code) (a b : Value Code × Callable (Value Code) Code) : Prop :=
  a.1 = b.1 ∧ setting.AnswerAlike a.2 b.2

end Setting

namespace Rules

variable {setting : Setting Code} {inherited : Definitions Code}

/-- Declaring the name of an entry is the same for functions that answer alike. -/
theorem likewise_declareEntry {a b : Value Code × Value Code} (same : setting.SameEntry a b) :
    Likewise Cause.SameButGiven (Option.Rel setting.SameFunction) (declareEntry inherited a)
      (declareEntry inherited b) := by
  cases same with
  | refl =>
    refine ((anyMoves_declareEntry inherited a).likewise .refl).imp ?_
    rintro result _ rfl
    cases result with
    | none => exact .none
    | some function => exact .some ⟨rfl, Setting.answerAlike_self function.2⟩
  | functions name alike =>
    have valid : MadeOf (fun _ ↦ True) (Build.requireValidName "rules" none name) :=
      .requireValidName name rfl fun _ ↦ trivial
    have declared : MadeOf (fun _ ↦ True) (discard (Build.declare name "rule" (some "rules"))) :=
      .discard (.declareName rfl (fun _ ↦ trivial) trivial)
    unfold declareEntry
    refine (valid.likewise .refl).bind_same fun valid ↦ ?_
    split
    · dsimp only [Value.callable?]
      split
      · exact (declared.likewise .refl).bind fun _ _ _ ↦ .pure (.some ⟨rfl, alike⟩)
      · exact .pure (.some ⟨rfl, alike⟩)
    · exact .pure .none

/-- Functions that answer alike give the same rule. -/
theorem likewise_define {a b : Value Code × Callable (Value Code) Code}
    (same : setting.SameFunction a b) :
    Likewise Cause.SameButGiven Eq (define setting inherited a) (define setting inherited b) := by
  obtain ⟨name, f₁⟩ := a
  obtain ⟨_, f₂⟩ := b
  obtain ⟨rfl, alike⟩ := same
  intro posture before₁ before₂ related
  obtain ⟨stores, outcomes⟩ := alike ((setting.made "call" "rules").part name.shown)
    (.ofOption (inherited.find? name)) before₂.store
  refine (Alike.absorb .refl related stores outcomes).bind ?_
  intro result₁ result₂ after₁ after₂ _ called results left
  cases results with
  | none => exact ⟨.ok rfl, left⟩
  | @some raw₁ raw₂ same =>
    rw [← Build.store_of_yields_absorb called] at same
    have normal : Build.normalize "rules" (after₂.store.present raw₁) =
        Build.normalize "rules" (after₂.store.present raw₂) := by
      rw [Build.normalize, Build.normalize, same]
    have made : MadeOf (fun _ ↦ True) (Build.normalize "rules" (after₂.store.present raw₂)) :=
      .normalize _ fun _ ↦ trivial
    dsimp only
    rw [Build.start_bind, Build.start_bind, Build.start_present, Build.start_present, left.store]
    dsimp only
    rw [normal]
    exact (made.likewise .refl).returned _ posture after₁ after₂ left

/-- Gathering rules is the same for functions that answer alike. -/
theorem likewise_gather {entries₁ entries₂ : List (Value Code × Value Code)}
    (same : List.Forall₂ setting.SameEntry entries₁ entries₂) :
    Likewise Cause.SameButGiven Eq (gather setting inherited entries₁)
      (gather setting inherited entries₂) := by
  have made : MadeOf (fun _ ↦ True) (inherit inherited) :=
    madeOf_inherit inherited (fun _ ↦ trivial) fun _ ↦ trivial
  refine (made.likewise .refl).bind fun _ _ _ ↦ ?_
  refine (Likewise.filterMap (fun _ _ ↦ likewise_declareEntry) same).bind ?_
  intro functions₁ functions₂ functions
  exact (Likewise.filterMap_eq (fun _ _ ↦ likewise_define) functions).returned _

/-- The rules are the same for functions that answer alike, but for what is kept with a problem. -/
theorem likewise_validate {v w : Value Code} {entries₁ entries₂ : List (Value Code × Value Code)}
    (first : v.object? = some entries₁) (second : w.object? = some entries₂)
    (same : List.Forall₂ setting.SameEntry entries₁ entries₂) :
    Likewise Cause.SameButGiven Eq (validate setting inherited v)
      (validate setting inherited w) := by
  rw [validate_eq first, validate_eq second, fromEntries_eq, fromEntries_eq]
  refine (likewise_gather same).bind_same fun definitions ↦ ?_
  have made : MadeOf (fun _ ↦ True) (resolve definitions) :=
    madeOf_resolve definitions (fun _ ↦ trivial) trivial
  have resolves : Likewise Cause.SameButGiven Eq (do resolve definitions; return definitions)
      (do resolve definitions; return definitions) :=
    (made.likewise .refl).bind fun _ _ _ ↦ .pure rfl
  dsimp only
  split
  · exact (Likewise.reportIn (.noRules v w)).bind fun _ _ _ ↦ resolves
  · exact resolves

end Rules

/-! ### Descriptions in two styles -/

namespace Setting

variable (setting : Setting Code)

/-- What two descriptions give for a section, when it is begun in builds of them, only differs in
how references are spelled. For the rules that is so if they give functions that answer alike. -/
def SpellsAlike (entries₁ entries₂ : Table Code (Value Code)) (part : Section)
    (journal₁ journal₂ : Journal Code) : Prop :=
  match part with
  | .name => Description.get entries₁ .name = Description.get entries₂ .name
  | .rules => Description.get entries₁ .rules = Description.get entries₂ .rules ∨
    ∃ given₁ given₂,
      (journal₁.store.present (setting.givenRules entries₁)).object? = some given₁ ∧
      (journal₂.store.present (setting.givenRules entries₂)).object? = some given₂ ∧
      List.Forall₂ setting.SameEntry given₁ given₂
  | part =>
    (Description.get entries₁ part = .missing ↔ Description.get entries₂ part = .missing) ∧
      Alike Cause.SameButGiven part.Same
        (Build.start (setting.reading entries₁ part) .collect journal₁)
        (Build.start (setting.reading entries₂ part) .collect journal₂)

/-- Two descriptions that only differ in how they refer to rules: what is wrong with them themselves
is the same, and so is what they give for the sections, but for how references are spelled. -/
structure Respells (description₁ description₂ : Value Code) (store : Store Code) : Prop where
  opening : Description.problems description₁ store = Description.problems description₂ store
  sections : ∀ part journal₁ journal₂,
    setting.Begins .collect description₁ { store } part journal₁ →
    setting.Begins .collect description₂ { store } part journal₂ →
    journal₁.Related Cause.SameButGiven journal₂ →
    setting.SpellsAlike (Description.given description₁ journal₁.store)
      (Description.given description₂ journal₂.store) part journal₁ journal₂

variable {setting} {entries₁ entries₂ : Table Code (Value Code)} {part : Section}
  {journal₁ journal₂ : Journal Code}

private theorem likewise_goThrough
    (same : Description.get entries₁ part = Description.get entries₂ part) :
    Likewise Cause.SameButGiven Eq (setting.goThrough entries₁ part)
      (setting.goThrough entries₂ part) := by
  have made : MadeOf (fun _ ↦ True) (setting.goThrough entries₂ part) :=
    setting.madeOf_goThrough entries₂ part setting.permits_all
  rw [goThrough_congr same]
  exact made.likewise .refl

private theorem rules_eq (entries : Table Code (Value Code)) : setting.rules entries = (do
    let inherited ← setting.inheritedRules
    let v ← Build.present (setting.givenRules entries)
    return {
      place := setting.made "result" "rules"
      toList := ← Rules.validate setting inherited v }) := rfl

/-- Going through the rules of functions that answer alike. -/
theorem alike_rules {given₁ given₂ : List (Value Code × Value Code)}
    (related : journal₁.Related Cause.SameButGiven journal₂)
    (first : (journal₁.store.present (setting.givenRules entries₁)).object? = some given₁)
    (second : (journal₂.store.present (setting.givenRules entries₂)).object? = some given₂)
    (same : List.Forall₂ setting.SameEntry given₁ given₂) :
    Alike Cause.SameButGiven Eq (Build.start (setting.rules entries₁) .collect journal₁)
      (Build.start (setting.rules entries₂) .collect journal₂) := by
  have made : MadeOf (fun _ ↦ True) setting.inheritedRules :=
    setting.madeOf_inheritedRules trivial
  rw [rules_eq, rules_eq]
  refine (made.likewise .refl .collect journal₁ journal₂ related).bind ?_
  rintro inherited _ after₁ after₂ found₁ found₂ rfl left
  obtain ⟨rfl, -⟩ := of_yields_inheritedRules found₁
  obtain ⟨rfl, -⟩ := of_yields_inheritedRules found₂
  have checks : Likewise Cause.SameButGiven Eq
      (Rules.validate setting inherited (after₁.store.present (setting.givenRules entries₁)))
      (Rules.validate setting inherited (after₂.store.present (setting.givenRules entries₂))) :=
    Rules.likewise_validate first second same
  rw [Build.start_bind, Build.start_bind, Build.start_present, Build.start_present]
  exact checks.returned _ .collect after₁ after₂ left

/-- Going through a section comes to the same, and reports the same, however references are
spelled. -/
theorem alike_goThrough (related : journal₁.Related Cause.SameButGiven journal₂)
    (same : setting.SpellsAlike entries₁ entries₂ part journal₁ journal₂) :
    Alike Cause.SameButGiven Eq (Build.start (setting.goThrough entries₁ part) .collect journal₁)
      (Build.start (setting.goThrough entries₂ part) .collect journal₂) := by
  have read (hp : part ∉ [Section.name, .rules])
      (missing : Description.get entries₁ part = .missing ↔
        Description.get entries₂ part = .missing)
      (readings : Alike Cause.SameButGiven part.Same
        (Build.start (setting.reading entries₁ part) .collect journal₁)
        (Build.start (setting.reading entries₂ part) .collect journal₂)) :
      Alike Cause.SameButGiven Eq (Build.start (setting.goThrough entries₁ part) .collect journal₁)
        (Build.start (setting.goThrough entries₂ part) .collect journal₂) := by
    by_cases given : Description.get entries₁ part = .missing
    · have both := given.trans (missing.1 given).symm
      exact likewise_goThrough both .collect journal₁ journal₂ related
    · rw [goThrough_eq given hp, goThrough_eq (fun eq ↦ given (missing.2 eq)) hp]
      exact readings.bind fun v w after₁ after₂ _ _ same left ↦
        likewise_check same .collect after₁ after₂ left
  cases part with
  | name => exact likewise_goThrough same .collect journal₁ journal₂ related
  | rules =>
    obtain same | ⟨given₁, given₂, first, second, functions⟩ := same
    · exact likewise_goThrough same .collect journal₁ journal₂ related
    · refine (alike_rules related first second functions).bind ?_
      rintro rules _ after₁ after₂ - - rfl left
      exact ⟨.ok rfl, left⟩
  | externals | extras | inline | conflicts | word | supertypes | precedences =>
    exact read (by decide) same.1 same.2

variable {description₁ description₂ : Value Code} {store : Store Code}

/-- However passing through sections ends, it ends alike. The induction is on the sections that are
left, those before having been passed through in both builds. -/
theorem alike_passThrough (h : setting.Respells description₁ description₂ store)
    {fields : Section → Value Code} {earlier parts : List Section}
    {start₁ start₂ before₁ before₂ : Journal Code}
    (opened₁ : Yields .collect (Description.check description₁) { store } () start₁)
    (opened₂ : Yields .collect (Description.check description₂) { store } () start₂)
    (split : Section.all = earlier ++ parts)
    (first : setting.Traverses description₁ .collect fields earlier start₁ before₁)
    (second : setting.Traverses description₂ .collect fields earlier start₂ before₂)
    (related : before₁.Related Cause.SameButGiven before₂) :
    Alike Cause.SameButGiven Eq
      (Build.start (setting.passThrough description₁ fields parts) .collect before₁)
      (Build.start (setting.passThrough description₂ fields parts) .collect before₂) := by
  induction parts generalizing earlier fields before₁ before₂ with
  | nil => exact ⟨.ok rfl, related⟩
  | cons part rest ih =>
    have once : part ∉ earlier := fun mem ↦
      not_mem_of_all_eq split (List.mem_append_left rest mem)
    have begins₁ : setting.Begins .collect description₁ { store } part
        (before₁.begun fields part) :=
      ⟨fields, start₁, before₁, opened₁, Section.eq_earlier split ▸ first, rfl⟩
    have begins₂ : setting.Begins .collect description₂ { store } part
        (before₂.begun fields part) :=
      ⟨fields, start₂, before₂, opened₂, Section.eq_earlier split ▸ second, rfl⟩
    have begun : (before₁.begun fields part).Related Cause.SameButGiven
        (before₂.begun fields part) := by
      obtain ⟨_, begun₁⟩ := before₁.exists_begun fields part
      obtain ⟨_, begun₂⟩ := before₂.exists_begun fields part
      rw [begun₁, begun₂]
      exact ⟨related.names, related.store, related.problems⟩
    have here := alike_goThrough begun (h.sections part _ _ begins₁ begins₂ begun)
    rw [before₁.store_begun, before₂.store_begun] at here
    rw [start_passThrough_cons, start_passThrough_cons]
    cases run₁ : Build.start (setting.goThrough (Description.given description₁ before₁.store) part)
        .collect (before₁.begun fields part) with
    | mk outcome₁ between₁ =>
      cases run₂ : Build.start
          (setting.goThrough (Description.given description₂ before₂.store) part) .collect
          (before₂.begun fields part) with
      | mk outcome₂ between₂ =>
        rw [run₁, run₂] at here
        obtain ⟨outcome, left⟩ := here
        cases outcome with
        | error failures => exact ⟨.error failures, left⟩
        | ok same =>
          subst same
          have name : part = .name → earlier = [] := fun name ↦ eq_nil_of_all_eq (name ▸ split)
          exact ih (split.trans (by simp)) (first.snoc once name run₁) (second.snoc once name run₂)
            left

/-- Builds that collect the problems of two descriptions that only differ in how they refer to rules
come to the same grammar, and declare the same names and report the same problems, but for what is
kept with a problem. -/
theorem alike_collect (h : setting.Respells description₁ description₂ store) :
    Alike Cause.SameButGiven Eq (setting.collect description₁ store)
      (setting.collect description₂ store) := by
  let start (description : Value Code) : Journal Code :=
    ({ store } : Journal Code).reporting (Description.problems description store)
  have opened (description : Value Code) :
      Yields .collect (Description.check description) { store } () (start description) :=
    Description.yields_opening description
  have begins (description : Value Code) :
      setting.Traverses description .collect (fun _ ↦ .missing) [] (start description)
        (start description) := .nil _
  have related : (start description₁).Related Cause.SameButGiven (start description₂) := by
    unfold start
    rw [h.opening]
    exact ⟨rfl, rfl, List.forall₂_same.2 fun _ _ ↦ ⟨.refl _, rfl⟩⟩
  have summed (journal : Journal Code) (entries : List (Entry Code)) :
      ∃ more, (if journal.problems.isEmpty then journal else { journal with entries }) =
        { journal with entries := more } := by
    split
    · exact ⟨_, rfl⟩
    · exact ⟨_, rfl⟩
  have passed := alike_passThrough h (opened description₁) (opened description₂)
    (show Section.all = [] ++ Section.all from rfl) (begins description₁) (begins description₂)
    related
  rw [collect_eq, collect_eq, start_assemble (opened description₁),
    start_assemble (opened description₂)]
  revert passed
  generalize Build.start (setting.passThrough description₁ _ _) .collect (start description₁) = run₁
  generalize Build.start (setting.passThrough description₂ _ _) .collect (start description₂) = run₂
  obtain ⟨outcome₁, after₁⟩ := run₁
  obtain ⟨outcome₂, after₂⟩ := run₂
  rintro ⟨outcome, journal⟩
  cases outcome with
  | error failures => exact ⟨.error failures, journal⟩
  | ok same =>
    subst same
    refine ⟨.ok rfl, ?_⟩
    -- The summaries may differ in what is kept with a problem, but lines have no part in the
    -- relation.
    obtain ⟨_, last₁⟩ := summed after₁ (after₁.entries ++ [.summary (report after₁.problems)])
    obtain ⟨_, last₂⟩ := summed after₂ (after₂.entries ++ [.summary (report after₂.problems)])
    dsimp only
    rw [last₁, last₂]
    exact ⟨journal.names, journal.store, journal.problems⟩

/-- Builds that end at the first problem of two descriptions that only differ in how they refer to
rules end alike. -/
theorem related_build (h : setting.Respells description₁ description₂ store) :
    Related (Failure.Related Cause.SameButGiven) Eq (setting.build description₁ store).1
      (setting.build description₂ store).1 := by
  obtain ⟨outcome, -, -, problems⟩ := alike_collect h
  have concord₁ := setting.concord_collect_build description₁ store
  have concord₂ := setting.concord_collect_build description₂ store
  have unraised := setting.collect_ne_problem description₁ store
  revert outcome problems concord₁ concord₂ unraised
  generalize setting.collect description₁ store = run₁
  generalize setting.collect description₂ store = run₂
  obtain ⟨outcome₁, after₁⟩ := run₁
  obtain ⟨outcome₂, after₂⟩ := run₂
  intro outcome problems concord₁ concord₂ unraised
  cases reported : after₁.problems with
  | nil =>
    rw [reported] at problems
    have none := List.forall₂_nil_left_iff.1 problems
    cases outcome with
    | ok same =>
      subst same
      rw [concord₁.accepted _ rfl reported, concord₂.accepted _ rfl none]
      exact .ok rfl
    | error failures =>
      cases failures with
      | problem related => exact absurd rfl (unraised _)
      | fault f =>
        rw [concord₁.aborted f rfl reported, concord₂.aborted f rfl none]
        exact .error (.fault f)
  | cons p rest =>
    rw [reported] at problems
    obtain ⟨q, others, first, -, reported'⟩ := List.forall₂_cons_left_iff.1 problems
    rw [(concord₁.rejected p rest reported).1, (concord₂.rejected q others reported').1]
    exact .error (.problem first)

/-! ### How a description is respelled -/

private theorem reading_congr
    (same : Description.get entries₁ part = Description.get entries₂ part) :
    setting.reading entries₁ part = setting.reading entries₂ part := by
  cases part with
  | name | word => rw [reading, reading, same]
  | rules => rw [reading, reading, givenRules, givenRules, same]
  | externals | extras | inline | conflicts | supertypes | precedences =>
    change setting.subject entries₁ _ = setting.subject entries₂ _
    rw [subject, subject, same]

private theorem madeOf_reading (part : Section) :
    MadeOf (fun _ ↦ True) (setting.reading entries part) := by
  cases part with
  | name | rules => exact .present _ trivial
  | word =>
    refine .bind (setting.madeOf_inherited .word) fun inherited ↦ ?_
    refine .bind (madeOf_refersToDeclared _) fun refersTo ↦ ?_
    split
    · exact .pure _
    · exact .bind (setting.madeOf_evaluate .word _ inherited (setting.permits_all.calls .word))
        fun v ↦ .present v trivial
  | externals | extras | inline | conflicts | supertypes | precedences =>
    exact madeOf_subject _ setting.permits_all

private theorem same_self (v : Value Code) : part.Same v v := by
  cases part with
  | name | rules => rfl
  | externals => exact .items (.refl v)
  | extras | inline | conflicts | word | supertypes | precedences => exact .refl v

/-- A section that the same is given for is spelled alike. -/
theorem spellsAlike_of_eq (related : journal₁.Related Cause.SameButGiven journal₂)
    (same : Description.get entries₁ part = Description.get entries₂ part) :
    setting.SpellsAlike entries₁ entries₂ part journal₁ journal₂ := by
  have made : MadeOf (fun _ ↦ True) (setting.reading entries₂ part) := madeOf_reading part
  have readings : Likewise Cause.SameButGiven part.Same (setting.reading entries₁ part)
      (setting.reading entries₂ part) := by
    rw [reading_congr same]
    exact (made.likewise .refl).imp fun v _ eq ↦ eq ▸ same_self v
  have missing : Description.get entries₁ part = .missing ↔
      Description.get entries₂ part = .missing := by rw [same]
  cases part with
  | name => exact same
  | rules => exact .inl same
  | externals | extras | inline | conflicts | word | supertypes | precedences =>
    exact ⟨missing, readings .collect journal₁ journal₂ related⟩

/-- What is given for a section comes to a value in a store: whatever it is passed, that results and
the store is left alone. -/
def ComesTo (setting : Setting Code) (part : Section) (store : Store Code) (given v : Value Code) :
    Prop :=
  ∀ offered posture journal, journal.store = store →
    Build.start (setting.evaluate part given offered) posture journal = (.ok v, journal)

/-- What is no function that may take the builder comes to itself. -/
theorem comesTo_of_idle {v : Value Code}
    (idle : ∀ f, v.callable? = some f → f.takesArgument = false) :
    setting.ComesTo part store v v := by
  intro offered posture journal _
  rw [evaluate_idle idle, Build.start_pure]

/-- A function that may take the builder comes to what it returns. -/
theorem comesTo_of_call {f : Callable (Value Code) Code} {v : Value Code}
    (takes : f.takesArgument = true)
    (answers : ∀ offered, (setting.call (setting.made "call" part.title) f offered).start store =
      (.ok v, store)) :
    setting.ComesTo part store (.callable f) v := by
  rintro offered posture journal rfl
  unfold evaluate
  simp only [Value.callable?, takes, if_true]
  rw [Build.start_bind, Build.start_absorb, answers]
  rfl

/-- What is given for a section in two descriptions is spelled alike if what it comes to only
differs in how references are spelled. -/
theorem spellsAlike_of_comesTo (hp : part ∉ [Section.name, .rules, .word])
    (related : journal₁.Related Cause.SameButGiven journal₂) {v w : Value Code}
    (given₁ : Description.get entries₁ part ≠ .missing)
    (given₂ : Description.get entries₂ part ≠ .missing)
    (first : setting.ComesTo part journal₂.store (Description.get entries₁ part) v)
    (second : setting.ComesTo part journal₂.store (Description.get entries₂ part) w)
    (same : part.Same (journal₂.store.present v) (journal₂.store.present w)) :
    setting.SpellsAlike entries₁ entries₂ part journal₁ journal₂ := by
  have made : MadeOf (fun _ ↦ True) (setting.passed part) := madeOf_passed part trivial
  have looks : MadeOf Move.IsIdle (setting.passed part) :=
    madeOf_passed part (.inl rfl)
  have read : Alike Cause.SameButGiven part.Same
      (Build.start (setting.subject entries₁ part) .collect journal₁)
      (Build.start (setting.subject entries₂ part) .collect journal₂) := by
    refine (made.likewise .refl .collect _ _ related).bind ?_
    rintro offered _ after₁ after₂ passed₁ passed₂ rfl left
    have store₁ : after₁.store = journal₂.store := (passed₁.idle looks).2.trans related.store
    have store₂ : after₂.store = journal₂.store := (passed₂.idle looks).2
    rw [Build.start_bind, Build.start_bind, first offered .collect after₁ store₁,
      second offered .collect after₂ store₂]
    dsimp only
    rw [Build.start_present, Build.start_present, store₁, store₂]
    exact ⟨.ok same, left⟩
  cases part with
  | name | rules | word => simp at hp
  | externals | extras | inline | conflicts | supertypes | precedences =>
    exact ⟨iff_of_false given₁ given₂, read⟩

/-- A name that is given as the word in two descriptions is spelled alike. -/
theorem spellsAlike_word {name : String} (related : journal₁.Related Cause.SameButGiven journal₂)
    (first : GivesWord journal₁.names name (Description.get entries₁ .word))
    (second : GivesWord journal₂.names name (Description.get entries₂ .word)) :
    setting.SpellsAlike entries₁ entries₂ .word journal₁ journal₂ := by
  refine ⟨iff_of_false first.ne_missing second.ne_missing, ?_⟩
  obtain ⟨v, names₁, read₁⟩ := exists_start_reading_word setting .collect first
  obtain ⟨w, names₂, read₂⟩ := exists_start_reading_word setting .collect second
  have made : MadeOf (fun _ ↦ True) (setting.inherited .word) := setting.madeOf_inherited .word
  have inherits : Likewise Cause.SameButGiven Value.SameName
      (do let _ ← setting.inherited .word; return v)
      (do let _ ← setting.inherited .word; return w) :=
    (made.likewise .refl).bind fun _ _ _ ↦ .pure (.reference names₁ names₂)
  rw [read₁, read₂]
  exact inherits .collect journal₁ journal₂ related

end Setting

end GrammarDoc
