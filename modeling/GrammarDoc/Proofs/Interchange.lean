import GrammarDoc.Proofs.Relocation.Repetition
import GrammarDoc.Proofs.Styles

/-!
# The spellings are interchangeable

However a reference is spelled, by a name, by a symbol or by a function, the same is made of it. A
description by functions and one by symbols therefore build the same grammar, and report the same
in the same words; only values that are kept with a problem as they were given may differ.
-/

namespace GrammarDoc

open Build (Alike Likewise)

variable {Code : Type}

/-! ### What comes again in another style -/

/-- Whether a cause keeps a value as it is given: the group of a conflict that is too short, an
entry of a mapping of externals that has another name, or the rules if there are none among them. -/
def Cause.keepsGiven : Cause Code → Bool
  | .shortConflict _ _ | .misnamedExternal _ _ _ | .noRules _ => true
  | _ => false

/-- A problem comes again, but for a value that is kept with it as it is given. -/
structure Problem.ReappearsButGiven (ρ : Relocation Code) (p q : Problem Code) : Prop where
  kind : q.kind = p.kind
  message : q.message = p.message
  within : q.within = p.within
  value : p.cause.keepsGiven = false → p.value.Reappears ρ q.value

/-- A failure comes again, but for a value that is kept with it as it is given. -/
inductive Failure.ReappearsButGiven (ρ : Relocation Code) : Failure Code → Failure Code → Prop
  | problem {p q : Problem Code} : p.ReappearsButGiven ρ q →
      ReappearsButGiven ρ (.problem p) (.problem q)
  | fault (f : Fault) : ReappearsButGiven ρ (.fault f) (.fault f)

/-- A grammar comes again, or a failure does. -/
abbrev Outcome.ReappearsButGiven (ρ : Relocation Code) :
    Outcome Code (Grammar (Value Code)) → Outcome Code (Grammar (Value Code)) → Prop :=
  Related (Failure.ReappearsButGiven ρ) fun g g' ↦ (Value.grammar g).Reappears ρ (.grammar g')

private theorem Problem.Related.again (ρ : Relocation Code) {p q : Problem Code}
    (h : p.Related Cause.SameButGiven q) : p.ReappearsButGiven ρ (q.moved ρ) := by
  obtain ⟨cause, within⟩ := p
  obtain ⟨cause', within'⟩ := q
  obtain ⟨same, rfl⟩ := h
  cases same with
  | refl =>
    have again := Problem.reappears_moved ρ ⟨cause, within⟩
    exact ⟨again.kind, again.message, rfl, fun _ ↦ again.value⟩
  | shortConflict names v w =>
    have again := Problem.reappears_moved ρ ⟨.shortConflict names w, within⟩
    exact ⟨again.kind, again.message, rfl, fun given ↦ by cases given⟩
  | misnamedExternal key name v w =>
    have again := Problem.reappears_moved ρ ⟨.misnamedExternal key name w, within⟩
    exact ⟨again.kind, again.message, rfl, fun given ↦ by cases given⟩
  | noRules v w =>
    have again := Problem.reappears_moved ρ ⟨.noRules w, within⟩
    exact ⟨again.kind, again.message, rfl, fun given ↦ by cases given⟩

private theorem Related.again (ρ : Relocation Code)
    {outcome₁ outcome₂ : Outcome Code (Grammar (Value Code))}
    (h : Related (Failure.Related Cause.SameButGiven) Eq outcome₁ outcome₂) :
    Outcome.ReappearsButGiven ρ outcome₁ (outcome₂.moved ρ (Value.movedGrammar ρ)) := by
  cases h with
  | @ok g _ same =>
    subst same
    have again := (Value.grammar g).reappears_moved ρ
    rw [Value.moved] at again
    exact .ok again
  | error same =>
    cases same with
    | problem related => exact .error (.problem (related.again ρ))
    | fault f => exact .error (.fault f)

/-! ### A description in both styles -/

/-- What refers to a rule: a function of its name or, as the builder has it, its symbol. -/
def referring (built : Bool) (name : String) : Value Bool :=
  if built then .symbol (.string name)
  else .callable (.doNothing ((Place.step 0).part name) name)

/-- A rule, optionally followed by another one that appears as the first. -/
def Combination.sample : Combination Bool Bool :=
  .grouped .seq [.leaf true, .optional [.renamed (.leaf false) (.leaf true)]]

/-- What refers to the rules of the sample. -/
def Combination.sampleLeaves (built first : Bool) : Value Bool :=
  referring built (if first then "a" else "b")

/-- A setting in which code puts the same rule together in one style or in the other. -/
def Setting.styled : Setting Bool where
  run _ built _ :=
    Exec.ofOutcome (Outcome.ofCause (Combination.sample.value (Combination.sampleLeaves built)))
  place := .step 7

/-- A function of the description. In the builder style, it is passed the builder. -/
def Callable.styled (built : Bool) (name : String) (body : Body (Value Bool) Bool) :
    Callable (Value Bool) Bool :=
  ⟨(Place.step 1).part name, some name, { positional := if built then ["r"] else [] }, body⟩

/-- What the description gives for a section: an external of another name, functions for two rules,
a list of names, conflicts with a group that is too short, and the word. In the builder style,
functions give the externals and the list of names. -/
def Description.styledPart (built : Bool) : Section → Value Bool
  | .name => .string "g"
  | .externals =>
    let externals : Value Bool :=
      .mapping ⟨.step 6, [(.string "x", referring built "y")], false⟩
    if built then .callable (.styled built "externals" (.constant externals)) else externals
  | .rules => .mapping ⟨.step 2, [
      (.string "a", .callable (.styled built "a" (.code built))),
      (.string "b", .callable (.styled built "b" (.constant (.string "x"))))], false⟩
  | .inline =>
    let names : Value Bool := .list ⟨.step 3, [referring built "b"], false⟩
    if built then .callable (.styled built "inline" (.constant names)) else names
  | .conflicts => .list ⟨.step 4, [.list ⟨.step 5, [referring built "a"], false⟩], false⟩
  | .word => referring built "a"
  | _ => .missing

/-- The description in one style or in the other. -/
def Description.styled (built : Bool) : Value Bool :=
  .mapping ⟨.step 1, [Section.name, .externals, .rules, .inline, .conflicts, .word].map fun part ↦
    (.string part.title, styledPart built part), false⟩

private theorem Description.get_styled (built : Bool) (part : Section) :
    get (given (styled built) {}) part = styledPart built part := by
  have entries : given (styled built) {} =
      [Section.name, .externals, .rules, .inline, .conflicts, .word].map fun part ↦
        (.string part.title, styledPart built part) := rfl
  rw [entries]
  cases part <;> simp [get, Section.title, styledPart]

namespace Setting

/-- A reference in either style stands for its name. -/
theorem standsFor_referring (built : Bool) (name : String) :
    (referring built name).StandsFor name := by
  cases built with
  | false => exact .callable rfl
  | true => exact .symbol

/-- References in both styles are the same where a rule is wanted. -/
theorem sameRule_sampleLeaves (first : Bool) :
    (Combination.sampleLeaves false first).SameRule (Combination.sampleLeaves true first) := by
  refine .reference ?_ (standsFor_referring false _) (standsFor_referring true _)
  cases first <;> decide

private theorem putsTogether_styled (built : Bool) :
    styled.PutsTogether (Combination.sampleLeaves built) .sample
      (.styled built "a" (.code built)) := by
  intro place offered store
  cases built with
  | false => rfl
  | true => rfl

/-- The description in the one style only differs from that in the other in how it refers to
rules. -/
theorem respells_styled :
    styled.Respells (Description.styled false) (Description.styled true) {} := by
  refine ⟨rfl, fun part journal₁ journal₂ begins₁ begins₂ related ↦ ?_⟩
  have pure (place : Place) (built : Bool) (bindings : Bindings Bool) (store : Store Bool) :
      ((styled.run place built bindings).start store).2 = store := rfl
  have empty₁ := eq_empty_of_reaches pure begins₁.reaches
  have empty₂ := eq_empty_of_reaches pure begins₂.reaches
  rw [empty₁, empty₂]
  have a (built : Bool) : (referring built "a").StandsFor "a" := standsFor_referring built "a"
  have b (built : Bool) : (referring built "b").StandsFor "b" := standsFor_referring built "b"
  have spelled {v w : Value Bool} (hp : part ∉ [Section.name, .rules, .word])
      (given : ∀ built, Description.styledPart built part ≠ .missing)
      (first : styled.ComesTo part {} (Description.styledPart false part) v)
      (second : styled.ComesTo part {} (Description.styledPart true part) w)
      (same : part.Same v w) :
      styled.SpellsAlike (Description.given (Description.styled false) {})
        (Description.given (Description.styled true) {}) part journal₁ journal₂ := by
    refine spellsAlike_of_comesTo hp related (v := v) (w := w) ?_ ?_ ?_ ?_ ?_
    all_goals simp only [Description.get_styled, empty₂]
    exacts [given false, given true, first, second, same]
  -- What is the same in both descriptions is spelled alike at once. For the other sections it takes
  -- what they come to and how references stand in that.
  cases part with
  | name | extras | supertypes | precedences =>
    exact spellsAlike_of_eq related (by rw [Description.get_styled, Description.get_styled]; rfl)
  | externals =>
    refine spelled (by decide) (fun built eq ↦ by cases built <;> cases eq)
      (comesTo_of_idle fun _ callable ↦ by cases callable) (comesTo_of_call rfl fun _ ↦ rfl) ?_
    have y : (referring false "y").SameRule (referring true "y") :=
      .reference (by decide) (standsFor_referring false "y") (standsFor_referring true "y")
    exact .entries rfl rfl (.cons ⟨rfl, y⟩ .nil)
  | rules =>
    have alike := answerAlike_of_putsTogether sameRule_sampleLeaves (putsTogether_styled false)
      (putsTogether_styled true)
    have given (built : Bool) :
        styled.givenRules (Description.given (Description.styled built) {}) =
          Description.styledPart built .rules := by
      rw [givenRules, Description.get_styled]
      rfl
    refine .inr ⟨_, _, by rw [empty₁, given]; rfl, by rw [empty₂, given]; rfl, ?_⟩
    exact .cons (.functions _ alike) (.cons (.functions _ fun _ _ _ ↦ ⟨rfl, .ok rfl⟩) .nil)
  | inline =>
    refine spelled (by decide) (fun built eq ↦ by cases built <;> cases eq)
      (comesTo_of_idle fun _ callable ↦ by cases callable) (comesTo_of_call rfl fun _ ↦ rfl) ?_
    exact .items rfl rfl (.cons (.reference (.standsFor (b false)) (.standsFor (b true))) .nil)
  | conflicts =>
    refine spelled (by decide) (fun _ eq ↦ by cases eq)
      (comesTo_of_idle fun _ callable ↦ by cases callable)
      (comesTo_of_idle fun _ callable ↦ by cases callable) ?_
    exact .items rfl rfl (.cons (.items rfl rfl
      (.cons (.reference (.standsFor (a false)) (.standsFor (a true))) .nil)) .nil)
  | word =>
    have gives (names : Namespace Bool) (built : Bool) :
        GivesWord names "a" (Description.styledPart built .word) := by
      refine ⟨.standsFor (a built), fun f callable ↦ .inl ?_⟩
      cases built with
      | false =>
        cases callable
        rfl
      | true => cases callable
    refine spellsAlike_word related (Description.get_styled false .word ▸ gives _ false) ?_
    exact Description.get_styled true .word ▸ gives _ true

/-! ### The main result -/

variable (setting : Setting Code)

/-- Problems that only differ in what is kept as it is given are reported in the same words. -/
theorem report_congr {problems₁ problems₂ : List (Problem Code)}
    (related : List.Forall₂ (Problem.Related Cause.SameButGiven) problems₁ problems₂) :
    report problems₁ = report problems₂ := by
  have texts : problems₁.map Problem.text = problems₂.map Problem.text := by
    induction related with
    | nil => rfl
    | @cons p q _ _ head _ ih =>
      have text : p.text = q.text := by
        rw [Problem.text, Problem.text, head.within, Problem.message, Problem.message,
          head.cause.message_eq]
      rw [List.map_cons, List.map_cons, text, ih]
  rw [report, report, joinedText, joinedText, texts, related.length_eq]

/-- The spellings of a reference are interchangeable. However a name is spelled in a list of names,
the same list results and the same problems are reported, but for the group that is kept with a
conflict that is too short; the same holds of the word, unless it is given by a function that may
take the builder and is of no declared name. However references are spelled where a rule is
wanted, or the target of an alias, the same rule is put together, and functions that do so answer
alike. So two descriptions that only differ in how they refer to rules build the same grammar and
report the same problems, in the same words, but for what is kept with a problem as it is given. The
second of them is built elsewhere, so what is new in the one build comes again in the other. -/
theorem references_interchangeable :
    (∀ v w : Value Code, v.SameItems Value.SameName w →
      Names.validateInline v = Names.validateInline w ∧
        Names.validateSupertypes v = Names.validateSupertypes w) ∧
    (∀ v w : Value Code, v.SameItems (Value.SameItems Value.SameName) w →
      Likewise Cause.SameButGroup Eq (Names.validateConflicts v) (Names.validateConflicts w)) ∧
    (∀ entries₁ entries₂ name posture (journal : Journal Code),
      GivesWord journal.names name (Description.get entries₁ .word) →
      GivesWord journal.names name (Description.get entries₂ .word) →
      Build.start (setting.word entries₁) posture journal =
        Build.start (setting.word entries₂) posture journal) ∧
    (∀ (ι : Type) (leaves₁ leaves₂ : ι → Value Code) (c : Combination Code ι),
      (∀ i, (leaves₁ i).SameRule (leaves₂ i)) →
      c.rule leaves₁ = c.rule leaves₂ ∧
        ∀ f₁ f₂, setting.PutsTogether leaves₁ c f₁ → setting.PutsTogether leaves₂ c f₂ →
          setting.AnswerAlike f₁ f₂) ∧
    ∀ ρ second description₁ description₂ store,
      setting.Respells description₁ description₂ store →
      setting.Repeats ρ second description₂ store →
      second.extraReferences = setting.extraReferences →
      let run₁ := setting.collect description₁ store
      let run₂ := second.collect description₂ store
      Outcome.ReappearsButGiven ρ run₁.1 run₂.1 ∧
        Namespace.Reappears ρ run₁.2.names run₂.2.names ∧
        List.Forall₂ (Problem.ReappearsButGiven ρ) run₁.2.problems run₂.2.problems ∧
        report run₁.2.problems = report run₂.2.problems ∧
        Outcome.ReappearsButGiven ρ (setting.build description₁ store).1
          (second.build description₂ store).1 := by
  refine ⟨fun v w same ↦ ?_, fun v w same ↦ ?_, fun _ _ name posture journal first second ↦ ?_,
    fun ι leaves₁ leaves₂ c same ↦ ?_,
    fun ρ second description₁ description₂ store h repeats policy ↦ ?_⟩
  · exact ⟨Names.validateInline_congr same, Names.validateSupertypes_congr same⟩
  · exact Names.likewise_validateConflicts .refl .shortConflict same
  · exact start_word_congr setting posture first second
  · exact ⟨c.rule_congr same, fun _ _ first second ↦ answerAlike_of_putsTogether same first second⟩
  · have alike := alike_collect h
    have built := related_build h
    dsimp only
    rw [repeats.collect_eq policy, repeats.build_eq policy]
    generalize setting.collect description₁ store = run₁,
      setting.collect description₂ store = run₂ at alike
    obtain ⟨outcome, names, -, problems⟩ := alike
    refine ⟨outcome.again ρ, ?_, ?_, ?_, built.again ρ⟩
    · rw [names]
      exact Namespace.reappears_map_moved ρ run₂.2.names
    · exact List.forall₂_map_right_iff.2 (problems.imp fun _ _ same ↦ same.again ρ)
    · exact (report_congr problems).trans (report_map_moved ρ run₂.2.problems).symm

/-- The description in both styles comes to the same grammar, and declares the same names. In both,
the same is reported, in the same words, of the external and of the conflict. -/
theorem references_interchangeable_styled :
    let again : Setting Bool := { styled with place := .step 8 }
    let exchange : Relocation Bool := .ofSteps (Equiv.swap 7 8) (Equiv.injective _)
    let word (f : Value Bool) : Table Bool (Value Bool) := [(.string "word", f)]
    let function : Value Bool := .callable (.styled true "a" (.code true))
    let list (v : Value Bool) : Value Bool := .list ⟨.step 3, [v], false⟩
    let journal : Journal Bool := { store := {}, names := [(.string "a", "rule")] }
    Names.validateInline (list (referring false "5")) = Names.validateInline (list (.string "5")) ∧
    Likewise Cause.SameButGroup Eq (Names.validateConflicts (list (list (referring false "a"))))
      (Names.validateConflicts (list (list (.string "a")))) ∧
    Build.start (styled.word (word function)) .collect journal =
      Build.start (styled.word (word (.string "a"))) .collect journal ∧
    Combination.sample.rule (Combination.sampleLeaves false) =
      Combination.sample.rule (Combination.sampleLeaves true) ∧
    ∃ g g' after after', styled.collect (Description.styled false) {} = (.ok g, after) ∧
      again.collect (Description.styled true) {} = (.ok g', after') ∧
      (Value.grammar g).Reappears exchange (.grammar g') ∧
      Namespace.Reappears exchange after.names after'.names ∧
      report after.problems = report after'.problems ∧
      after.problems.map Problem.kind = [.mismatchedName, .structuralShape] ∧
      List.Forall₂ (Problem.ReappearsButGiven exchange) after.problems after'.problems ∧
      Outcome.ReappearsButGiven exchange (styled.build (Description.styled false) {}).1
        (again.build (Description.styled true) {}).1 := by
  intro again exchange word function list journal
  obtain ⟨names, conflicts, words, rules, builds⟩ := references_interchangeable styled
  have item {v w : Value Bool} {R : Value Bool → Value Bool → Prop} (h : R v w) :
      (list v).SameItems R (list w) := .items rfl rfl (.cons h .nil)
  have spelled (name : String) : (referring false name).SameName (.string name) :=
    .reference (.standsFor (standsFor_referring false name)) .string
  have given (v : Value Bool) : Description.get (word v) .word = v := by
    simp [word, Description.get, Section.title]
  have moves : styled.run.Moves exchange again.run := by
    intro place built bindings store
    cases built with
    | false => rfl
    | true => rfl
  obtain ⟨outcomes, declared, problems, texts, built⟩ := builds exchange again _ _ {}
    respells_styled (.of_moves rfl rfl rfl rfl rfl moves) rfl
  have returns : (styled.collect (Description.styled false) {}).1.toOption.any
      (fun _ ↦ true) = true := by decide +kernel
  obtain ⟨g, first, -⟩ := Build.exists_eq_ok_of_any returns
  obtain ⟨g', second, reappears⟩ : ∃ g', again.collect (Description.styled true) {} =
      (.ok g', (again.collect (Description.styled true) {}).2) ∧
        (Value.grammar g).Reappears exchange (.grammar g') := by
    rw [first] at outcomes
    revert outcomes
    generalize again.collect (Description.styled true) {} = run
    obtain ⟨outcome, after⟩ := run
    rintro ⟨reappears⟩
    exact ⟨_, rfl, reappears⟩
  refine ⟨(names _ _ (item (spelled "5"))).1, conflicts _ _ (item (item (spelled "a"))),
    words _ _ "a" .collect journal ?_ ?_, (rules _ _ _ _ sameRule_sampleLeaves).1, g, g', _, _,
    first, second, reappears, declared, texts, by decide +kernel, problems, built⟩
  · rw [given]
    exact ⟨.standsFor (.callable rfl), fun f callable ↦ .inr (by decide +kernel)⟩
  · rw [given]
    exact ⟨.string, fun f callable ↦ by cases callable⟩

/-- Nevertheless, an external of another name is kept with its problem as it is given, which is a
function in the one style and a symbol in the other. And if a rule has the builder in it, the
grammars of two builds are not equal, since the builds have different builders. -/
theorem exists_respelled_given :
    let setting (step : Nat) : Setting Response := Response.setting step .missing
    let description (name : Value Response) : Value Response :=
      .mapping ⟨.step 0, [(.string "name", .string "g"),
        (.string "rules", .mapping ⟨(Place.step 0).part "rules",
          [(.string "a", Response.function .field "a")], false⟩),
        (.string "inline", .list ⟨(Place.step 0).part "inline", [name], false⟩)], false⟩
    (styled.Respells (Description.styled false) (Description.styled true) {} ∧
      (styled.collect (Description.styled false) {}).2.problems.map
        (fun p ↦ p.value.callable?.isSome) = [true, false] ∧
      (styled.collect (Description.styled true) {}).2.problems.map
        (fun p ↦ p.value.callable?.isSome) = [false, false]) ∧
    ∃ g g' after after',
      (setting 1).collect (description (Response.function .field "a")) {} = (.ok g, after) ∧
      (setting 2).collect (description (.symbol (.string "a"))) {} = (.ok g', after') ∧
      after.problems = [] ∧ after'.problems = [] ∧
      (Value.grammar g).compare (.grammar g') = some false := by
  intro setting description
  have differ : ((setting 1).collect (description (Response.function .field "a"))
      {}).1.toOption.any (fun g ↦
        ((setting 2).collect (description (.symbol (.string "a"))) {}).1.toOption.any fun g' ↦
          (Value.grammar g).compare (.grammar g') == some false) = true := by
    decide +kernel
  obtain ⟨g, collected, differ⟩ := Build.exists_eq_ok_of_any differ
  obtain ⟨g', collected', differ⟩ := Build.exists_eq_ok_of_any differ
  exact ⟨⟨respells_styled, by decide +kernel, by decide +kernel⟩, g, g', _, _, collected,
    collected', List.isEmpty_iff.1 (by decide +kernel), List.isEmpty_iff.1 (by decide +kernel),
    beq_iff_eq.1 differ⟩

end Setting

end GrammarDoc
