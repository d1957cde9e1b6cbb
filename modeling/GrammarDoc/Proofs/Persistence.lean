import GrammarDoc.Proofs.Build.GoesOn
import GrammarDoc.Proofs.FieldTypes
import GrammarDoc.Proofs.Inheritance
import GrammarDoc.Proofs.Passage
import Mathlib.Data.List.Induction

/-!
# Persistence

A build that collects problems ends with none of them, and comes to a grammar however malformed its
description is. What can end it is a fault that is not its own: of a function that it calls, of a
name in a rule that cannot be looked up, or of a base that is not what a grammar document declares
it to be.
-/

namespace GrammarDoc

open Build (Yields MadeOf GoesOn)

variable {Code : Type} {α : Type} {before between after : Journal Code}

/-! ### No problem ends a build that collects -/

namespace Build

/-- A step that collects never fails with a problem. -/
theorem MadeOf.start_ne_problem {may : Move Code → Prop} {step : Build Code α}
    (h : MadeOf may step) (before : Journal Code) (p : Problem Code) :
    (start step .collect before).1 ≠ .error (.problem p) := by
  induction h generalizing before with
  | pure | fault | report | declare | began | lookNames | look => exact fun eq ↦ by cases eq
  | perform _ unraised _ => exact unraised before.store p
  | @absorb _ title step _ =>
    rw [start_absorb]
    rcases (step.start before.store).1 with (q | f) | a
    · exact fun eq ↦ by cases eq
    · exact fun eq ↦ by cases eq
    · exact fun eq ↦ by cases eq
  | @bind _ _ step next _ _ ih ih' =>
    have first := ih before
    rw [start_bind]
    generalize start step .collect before = run at first
    obtain ⟨failure | a, between⟩ := run
    · exact fun eq ↦ first (by cases eq; rfl)
    · exact ih' a between

end Build

/-- A build that collects never ends with a problem, whatever it is given. -/
theorem Setting.collect_ne_problem (setting : Setting Code) (description : Value Code)
    (store : Store Code) (p : Problem Code) :
    (setting.collect description store).1 ≠ .error (.problem p) := by
  rw [(setting.outcome_collect description store).1]
  have made := setting.madeOf_assemble description setting.permits_all fun _ _ ↦ trivial
  exact made.start_ne_problem { store } p

/-! ### Calls that are made and rules that are met -/

namespace Setting

variable (setting : Setting Code) (entries : Table Code (Value Code))

/-- What a function of a section is passed beside the builder. -/
def passed (part : Section) : Build Code (Value Code) :=
  match part with
  | .externals => do return .list (← setting.inheritedExternals)
  | part => do setting.offered part (← setting.inherited part)

/-- All sections but the externals offer what the base has, as it is. -/
theorem passed_of_ne_externals {part : Section} (h : part ≠ .externals) :
    setting.passed part = (do setting.offered part (← setting.inherited part)) := by
  cases part with
  | externals => exact absurd rfl h
  | name | rules | extras | inline | conflicts | word | supertypes | precedences => rfl

/-- What a section that is not inherited is before it is checked. -/
def subject (part : Section) : Build Code (Value Code) := do
  Build.present (← setting.evaluate part (Description.get entries part) (← setting.passed part))

end Setting

/-- Gathers the rules of a grammar, before the names are looked up that they refer to. -/
def Rules.gather (setting : Setting Code) (inherited : Definitions Code)
    (entries : List (Value Code × Value Code)) : Build Code (Definitions Code) := do
  inherit inherited
  let functions ← Build.filterMap (declareEntry inherited) entries
  return merged inherited (← Build.filterMap (define setting inherited) functions)

/-- A call of a function of a description: where it is made, what is called, what is passed beside
the builder, and the store then. -/
structure Call (Code : Type) where
  place : Place
  function : Callable (Value Code) Code
  offered : Value Code
  store : Store Code

namespace Setting

variable (setting : Setting Code) (entries : Table Code (Value Code))

/-- A function accepts what it is passed, and returns or raises a problem. -/
def Answers (call : Call Code) : Prop :=
  ∀ fault, ((setting.call call.place call.function call.offered).start call.store).1 ≠
    .error (.fault fault)

/-- The calls that are made in the course of a section, given the journal with which it is begun:
of the function that is given for the section, and of those that are given for the rules, one after
another. A word may refer to what is declared by a function of that name, which is not called. -/
inductive Makes : Section → Journal Code → Call Code → Prop
  | ofSection {part : Section} {before between : Journal Code} {f : Callable (Value Code) Code}
      {offered : Value Code} : part ∉ [Section.name, .rules] →
      (Description.get entries part).callable? = some f → f.takesArgument = true →
      (part = .word → refers before.names.keys (Description.get entries .word) = false) →
      Yields .collect (setting.passed part) before offered between →
      Makes part before ⟨setting.made "call" part.title, f, offered, between.store⟩
  | ofRule {before start first second third : Journal Code} {inherited : Rules.Definitions Code}
      {given : List (Value Code × Value Code)}
      {earlier later : List (Value Code × Callable (Value Code) Code)} {name : Value Code}
      {f : Callable (Value Code) Code} {defined : List (Value Code × Rule (Value Code))} :
      Yields .collect setting.inheritedRules before inherited start →
      (start.store.present (setting.givenRules entries)).object? = some given →
      Yields .collect (Rules.inherit inherited) start () first →
      Yields .collect (Build.filterMap (Rules.declareEntry inherited) given) first
        (earlier ++ (name, f) :: later) second →
      Yields .collect (Build.filterMap (Rules.define setting inherited) earlier) second defined
        third →
      Makes .rules before ⟨(setting.made "call" "rules").part name.shown, f,
        .ofOption (inherited.find? name), third.store⟩

/-- The rules that are met in the course of a section, given the journal with which it is begun:
inherited externals, all rules of the grammar, extras, and the entries of precedences. -/
inductive Meets : Section → Journal Code → Rule (Value Code) → Prop
  | external {before between : Journal Code} {items : Items (Value Code)}
      {r : Rule (Value Code)} : Description.get entries .externals = .missing →
      Yields .collect setting.inheritedExternals before items between →
      .rule r ∈ items.toList → Meets .externals before r
  | definition {before start after : Journal Code} {inherited definitions : Rules.Definitions Code}
      {given : List (Value Code × Value Code)} {entry : Value Code × Value Code}
      {r : Rule (Value Code)} : Yields .collect setting.inheritedRules before inherited start →
      (start.store.present (setting.givenRules entries)).object? = some given →
      Yields .collect (Rules.gather setting inherited given) start definitions after →
      entry ∈ definitions → after.store.present entry.2 = .rule r → Meets .rules before r
  | extra {before after : Journal Code} {v raw : Value Code} {items : List (Value Code)}
      {r : Rule (Value Code)} :
      ¬ (setting.hasBase = true ∧ Description.get entries .extras = .missing) →
      Yields .collect (setting.subject entries .extras) before v after →
      v.array? = some items → raw ∈ items → raw.toRule = .ok r → Meets .extras before r
  | precedence {before after : Journal Code} {v group raw : Value Code}
      {groups items : List (Value Code)} {r : Rule (Value Code)} :
      ¬ (setting.hasBase = true ∧ Description.get entries .precedences = .missing) →
      Yields .collect (setting.subject entries .precedences) before v after →
      v.array? = some groups → group ∈ groups → group.array? = some items → raw ∈ items →
      raw.toRule = .ok r → Meets .precedences before r

/-- In a build that collects, every function that is called answers, and the names in all rules that
are met can be looked up. -/
structure Cooperates (description : Value Code) (store : Store Code) : Prop where
  answers : ∀ part before, setting.Begins .collect description { store } part before → ∀ call,
    setting.Makes (Description.given description before.store) part before call →
      setting.Answers call
  hashable : ∀ part before, setting.Begins .collect description { store } part before → ∀ r,
    setting.Meets (Description.given description before.store) part before r → r.Hashable

end Setting

/-! ### Each section goes on -/

namespace Setting

variable {setting : Setting Code} {entries : Table Code (Value Code)} {part : Section}

private theorem goesOn_elements {v : Value Code} {kind : Value Code → Bool}
    (h : (before.store.present v).isListOf kind = true) : GoesOn (Build.elements v) before := by
  obtain ⟨items, eq, -⟩ := Value.exists_of_isListOf h
  exact ⟨items.toList, before, (Build.yields_elements _ _).2 ⟨by rw [eq]; rfl, rfl⟩⟩

private theorem goesOn_name (typed : setting.BaseTyped .name before.store) :
    GoesOn (setting.name entries) before := by
  unfold name
  split
  · next based =>
    obtain ⟨v, attributed⟩ := typed.exists_attribute based
    exact ⟨v, before, (yields_ofBase _ _).2 ⟨attributed, rfl⟩⟩
  · exact (Build.goesOn_present _).bind fun v _ _ ↦ Names.goesOn_validateName v

private theorem goesOn_inheritedExternals (typed : setting.BaseTyped .externals before.store) :
    GoesOn setting.inheritedExternals before := by
  unfold inheritedExternals
  split
  · next based =>
    obtain ⟨v, attributed⟩ := typed.exists_attribute based
    refine ((yields_ofBase _ _).2 ⟨attributed, rfl⟩).goesOn_bind ?_
    have elements : GoesOn (Build.elements v) before :=
      goesOn_elements (typed.declares based attributed)
    exact elements.return _
  · exact (Build.goesOn_pure _).return _

/-- The value of a section goes on if the function for it, if it is called, answers. -/
theorem goesOn_evaluate {v offered : Value Code}
    (h : ∀ f, v.callable? = some f → f.takesArgument = true →
      setting.Answers ⟨setting.made "call" part.title, f, offered, before.store⟩) :
    GoesOn (setting.evaluate part v offered) before := by
  unfold evaluate
  split
  · exact Build.goesOn_pure v
  · next f callable =>
    split
    · next takes => exact (Build.goesOn_absorb (h f callable takes)).return _
    · exact Build.goesOn_pure v

private theorem goesOn_externals (typed : setting.BaseTyped .externals before.store)
    (answers : ∀ call, setting.Makes entries .externals before call → setting.Answers call)
    (hashable : ∀ r, setting.Meets entries .externals before r → r.Hashable) :
    GoesOn (setting.externals entries) before := by
  refine (goesOn_inheritedExternals typed).bind fun inherited between found ↦ ?_
  split
  · next missing =>
    refine (Externals.goesOn_inherit fun r mem ↦ ?_).return _
    exact hashable r (.external missing found mem)
  · next v given =>
    have passing : Yields .collect (setting.passed .externals) before (.list inherited) between :=
      (Build.yields_bind _ _ _).2 ⟨_, _, found, (Build.yields_pure _ _).2 ⟨rfl, rfl⟩⟩
    refine GoesOn.bind (goesOn_evaluate fun f callable takes ↦ ?_) fun w _ _ ↦ ?_
    · exact answers _ (.ofSection (by decide) callable takes (fun eq ↦ by cases eq) passing)
    · refine (Build.goesOn_present w).bind fun v _ _ ↦ ?_
      exact (Externals.goesOn_validate v).return _

end Setting

namespace Rules

variable {setting : Setting Code} {inherited : Definitions Code}

/-- The rules of a grammar are gathered, and then the names are looked up that they refer to. -/
theorem fromEntries_eq (v : Value Code) (entries : List (Value Code × Value Code)) :
    fromEntries setting inherited v entries = (do
      let definitions ← gather setting inherited entries
      if definitions.isEmpty then
        Build.reportIn (some "rules") (.noRules v)
      resolve definitions
      return definitions) := by
  unfold fromEntries gather merged
  simp only [bind_assoc, pure_bind]

/-- A mapping is let through to the rules section. -/
theorem validate_eq {v : Value Code} {given : List (Value Code × Value Code)}
    (object : v.object? = some given) :
    validate setting inherited v = fromEntries setting inherited v given := by
  change Guard.before ⟨.object "rules", []⟩ pure _ v = _
  rw [Guard.before, Shape.admits, object, Option.isSome_some, if_pos rfl]
  change fromEntries setting inherited v (v.object?.getD []) = _
  rw [object, Option.getD_some]

/-- Gathering the rules goes on if every function that is called answers. -/
theorem goesOn_gather {given : List (Value Code × Value Code)}
    (keys : ∀ name ∈ inherited.keys, name.canBeKey = true)
    (answers : ∀ first earlier name f later second defined third,
      Yields .collect (inherit inherited) before () first →
      Yields .collect (Build.filterMap (declareEntry inherited) given) first
        (earlier ++ (name, f) :: later) second →
      Yields .collect (Build.filterMap (define setting inherited) earlier) second defined third →
      setting.Answers ⟨(setting.made "call" "rules").part name.shown, f,
        .ofOption (inherited.find? name), third.store⟩) :
    GoesOn (gather setting inherited given) before := by
  refine (goesOn_inherit keys).bind fun _ first inherits ↦ ?_
  have declaring : GoesOn (Build.filterMap (declareEntry inherited) given) first :=
    Build.goesOn_filterMap fun entry _ _ ↦ goesOn_declareEntry inherited entry
  refine declaring.bind fun functions second declared ↦ GoesOn.return ?_ _
  refine Build.goesOn_filterMap_of_split ?_
  intro earlier entry later split defined third called
  obtain ⟨name, f⟩ := entry
  subst split
  exact goesOn_define (answers first earlier name f later second defined third inherits declared
    called)

private theorem isRule_of_mem_merged {defined : List (Value Code × Rule (Value Code))}
    (h : ∀ entry ∈ inherited, entry.2.isRule = true) :
    ∀ entry ∈ merged inherited defined, entry.2.isRule = true := by
  unfold merged
  induction defined generalizing inherited with
  | nil => exact h
  | cons first rest ih =>
    refine ih fun entry mem ↦ ?_
    rcases Table.mem_insert mem with old | new
    · exact h entry old
    · rw [new]
      rfl

private theorem isRule_of_yields_gather {given : List (Value Code × Value Code)}
    {definitions : Definitions Code} (h : ∀ entry ∈ inherited, entry.2.isRule = true)
    (gathered : Yields .collect (gather setting inherited given) before definitions after) :
    ∀ entry ∈ definitions, entry.2.isRule = true := by
  obtain ⟨_, first, -, more⟩ := (Build.yields_bind _ _ _).1 gathered
  obtain ⟨functions, second, -, more⟩ := (Build.yields_bind _ _ _).1 more
  obtain ⟨defined, third, -, done⟩ := (Build.yields_bind _ _ _).1 more
  obtain ⟨rfl, -⟩ := (Build.yields_pure _ _).1 done
  exact isRule_of_mem_merged h

/-- Looking up all names that are referred to goes on if all definitions are rules and the names in
them can be looked up. -/
theorem goesOn_resolve {definitions : Definitions Code}
    (rules : ∀ entry ∈ definitions, entry.2.isRule = true)
    (keys : ∀ entry ∈ definitions, ∀ r, before.store.present entry.2 = .rule r →
      ∀ name ∈ r.mentions, name.canBeKey = true) :
    GoesOn (resolve definitions) before := by
  have present (entry : Value Code × Value Code) (mem : entry ∈ definitions) :
      ∃ r, before.store.present entry.2 = .rule r :=
    Value.exists_of_isRule (by rw [Store.isRule_present, rules entry mem])
  obtain ⟨bodies, eq⟩ := Value.exists_eq_map_rule
    (definitions.map fun entry ↦ before.store.present entry.2) fun v mem ↦ by
      obtain ⟨entry, there, rfl⟩ := List.mem_map.1 mem
      exact present entry there
  refine ((Build.yields_mapM_present Prod.snd _).2 ⟨rfl, rfl⟩).goesOn_bind ?_
  have symbols := (symbols_eq_ok _ _).2 ⟨bodies, eq, rfl⟩
  refine ((Build.yields_ofOutcome _ _).2 ⟨symbols, rfl⟩).goesOn_bind ?_
  refine Build.goesOn_forM fun name mem _ ↦ (Build.goesOn_requireDeclared ?_).discard
  have mentioned := (Rule.mem_of_mem_foldl_addName mem).resolve_left List.not_mem_nil
  obtain ⟨body, found, mentions⟩ := Rule.mem_mentionsOfAll.1 mentioned
  rw [← eq] at found
  obtain ⟨entry, there, rfl⟩ := List.mem_map.1 found
  obtain ⟨r, rule⟩ := present entry there
  rw [rule] at mentions
  exact keys entry there r rule name mentions

end Rules

namespace Setting

variable {setting : Setting Code} {entries : Table Code (Value Code)} {part : Section}

private theorem goesOn_inheritedRules (typed : setting.BaseTyped .rules before.store) :
    ∃ inherited, Yields .collect setting.inheritedRules before inherited before ∧
      ∀ entry ∈ inherited, entry.1.isString = true ∧ entry.2.isRule = true := by
  unfold inheritedRules
  split
  · next based =>
    rcases typed with none | ⟨g, extended, declares⟩
    · rw [hasBase, none] at based
      cases based
    · have attributed : setting.base.attribute? "rules" = .ok (.mapping g.rules) := by
        rw [extended]
        rfl
      rw [Grammar.fields, Section.each, before.store.declares_rules_present,
        List.all_eq_true] at declares
      refine ⟨before.store.entries g.rules, ?_, fun entry mem ↦ by simpa using declares entry mem⟩
      refine (Build.yields_bind _ _ _).2 ⟨_, _, (yields_ofBase .rules _).2 ⟨attributed, rfl⟩, ?_⟩
      exact (Build.yields_bind _ _ _).2 ⟨_, _, (Build.yields_read _ _).2 ⟨rfl, rfl⟩,
        (Build.yields_pure _ _).2 ⟨rfl, rfl⟩⟩
  · exact ⟨[], (Build.yields_pure _ _).2 ⟨rfl, rfl⟩, fun entry mem ↦ absurd mem List.not_mem_nil⟩

/-- The rules go on. -/
theorem goesOn_rules (typed : setting.BaseTyped .rules before.store)
    (answers : ∀ call, setting.Makes entries .rules before call → setting.Answers call)
    (hashable : ∀ r, setting.Meets entries .rules before r → r.Hashable) :
    GoesOn (setting.rules entries) before := by
  obtain ⟨inherited, found, kinds⟩ := goesOn_inheritedRules typed
  refine found.goesOn_bind ?_
  refine ((Build.yields_present _ _).2 ⟨rfl, rfl⟩).goesOn_bind (GoesOn.return ?_ _)
  change GoesOn (Rules.validate setting inherited
    (before.store.present (setting.givenRules entries))) before
  refine Build.goesOn_guarded fun admitted ↦ ?_
  obtain ⟨given, object⟩ := Option.isSome_iff_exists.1 (admitted _ (List.mem_singleton_self _))
  rw [object, Option.getD_some, Rules.fromEntries_eq]
  have gathers : GoesOn (Rules.gather setting inherited given) before := by
    refine Rules.goesOn_gather (fun name mem ↦ ?_) fun first earlier name f later second defined
      third inherits declared called ↦ ?_
    · obtain ⟨entry, there, rfl⟩ := List.mem_map.1 mem
      exact Value.canBeKey_of_isString (kinds entry there).1
    · exact answers _ (.ofRule found object inherits declared called)
  refine gathers.bind fun definitions after gathered ↦ ?_
  have rules : ∀ entry ∈ definitions, entry.2.isRule = true :=
    Rules.isRule_of_yields_gather (fun entry mem ↦ (kinds entry mem).2) gathered
  have resolves (later : Journal Code) (same : later.store = after.store) :
      GoesOn (do Rules.resolve definitions; return definitions) later := by
    refine GoesOn.bind (Rules.goesOn_resolve rules ?_) fun _ _ _ ↦ Build.goesOn_pure _
    intro entry mem r rule
    rw [same] at rule
    exact (hashable r (.definition found object gathered mem rule)).mentioned
  dsimp only
  split
  · exact ((Build.yields_reportIn _ _ ()).2 ⟨rfl, rfl⟩).goesOn_bind (resolves _ rfl)
  · exact resolves after rfl

private theorem goesOn_inherited (typed : setting.BaseTyped part before.store) :
    GoesOn (setting.inherited part) before := by
  unfold inherited
  split
  · next based =>
    obtain ⟨v, attributed⟩ := typed.exists_attribute based
    exact ⟨v, before, (yields_ofBase _ _).2 ⟨attributed, rfl⟩⟩
  · exact Build.goesOn_pure _

private theorem exists_yields_offered_of_declares {inherited : Value Code}
    (h : setting.hasBase = true → part.declares (before.store.present inherited) = true) :
    ∃ w, Yields .collect (setting.offered part inherited) before w before := by
  refine exists_yields_offered (fun base here ↦ ?_) fun base here ↦ ?_
  · have declares := h base
    cases part with
    | inline | supertypes => exact Value.isSome_array?_of_isListOf declares
    | name | externals | rules | extras | conflicts | word | precedences => simp at here
  · subst here
    obtain ⟨items, eq, kinds⟩ := Value.exists_of_isListOf (h base)
    refine ⟨items.toList, by rw [eq]; rfl, fun group mem ↦ ?_⟩
    exact Value.isSome_array?_of_isListOf (kinds group mem)

/-- A section that is a list and only uses names declared before goes on if its checks do. -/
theorem goesOn_part {validate : Value Code → Build Code (List (Value Code))}
    (hp : part ∈ [Section.extras, .inline, .conflicts, .supertypes, .precedences])
    (typed : setting.BaseTyped part before.store)
    (answers : ∀ call, setting.Makes entries part before call → setting.Answers call)
    (checks : ¬ (setting.hasBase = true ∧ Description.get entries part = .missing) →
      ∀ v between, Yields .collect (setting.subject entries part) before v between →
        GoesOn (validate v) between) :
    GoesOn (setting.part entries part validate) before := by
  refine (goesOn_inherited typed).bind fun inherited journal found ↦ ?_
  obtain ⟨rfl, attributed⟩ := of_yields_inherited found
  have declares (based : setting.hasBase = true) :=
    typed.declares based (attributed based)
  obtain ⟨offered, offering⟩ := exists_yields_offered_of_declares declares
  refine offering.goesOn_bind ?_
  have passing : Yields .collect (setting.passed part) journal offered journal := by
    rw [setting.passed_of_ne_externals (by rintro rfl; simp at hp)]
    exact (Build.yields_bind _ _ _).2 ⟨_, _, found, offering⟩
  split
  · next missing based =>
    obtain ⟨kind, list⟩ := Section.isListOf_of_declares hp (declares based)
    obtain ⟨items, eq, -⟩ := Value.exists_of_isListOf list
    refine ((Build.yields_copy _ _ _).2 ⟨rfl, rfl⟩).goesOn_bind ?_
    rw [Store.copy_fst, eq, Value.copied]
    exact Build.goesOn_pure _
  · next v other =>
    have given : ¬ (setting.hasBase = true ∧ Description.get entries part = .missing) :=
      fun inherits ↦ other inherits.2 inherits.1
    refine GoesOn.bind (goesOn_evaluate fun f callable takes ↦ ?_) fun w next evaluated ↦ ?_
    · refine answers _ (.ofSection ?_ callable takes ?_ passing)
      · simp only [List.mem_cons, List.not_mem_nil, or_false] at hp
        obtain rfl | rfl | rfl | rfl | rfl := hp
        all_goals decide
      · rintro rfl
        simp at hp
    · have looked : Yields .collect (Build.present w) next (next.store.present w) next :=
        (Build.yields_present _ _).2 ⟨rfl, rfl⟩
      refine looked.goesOn_bind (GoesOn.return (checks given _ next ?_) _)
      exact (Build.yields_bind _ _ _).2 ⟨_, _, passing,
        (Build.yields_bind _ _ _).2 ⟨_, _, evaluated, looked⟩⟩

/-- The function of the word is passed what the base has for it. -/
theorem yields_offered_word {inherited : Value Code}
    (h : Yields .collect (setting.inherited .word) before inherited after)
    (journal : Journal Code) :
    Yields .collect (setting.offered .word inherited) journal inherited journal := by
  unfold Setting.inherited at h
  unfold offered
  split
  · exact (Build.yields_pure _ _).2 ⟨rfl, rfl⟩
  · next anew =>
    rw [if_neg anew] at h
    obtain ⟨rfl, -⟩ := (Build.yields_pure _ _).1 h
    exact (Build.yields_pure _ _).2 ⟨rfl, rfl⟩

/-- The word goes on. -/
theorem goesOn_word (typed : setting.BaseTyped .word before.store)
    (answers : ∀ call, setting.Makes entries .word before call → setting.Answers call) :
    GoesOn (setting.word entries) before := by
  refine (goesOn_inherited typed).bind fun inherited journal found ↦ ?_
  obtain ⟨rfl, -⟩ := of_yields_inherited found
  have offering := yields_offered_word found journal
  split
  · exact ⟨_, _, (Build.yields_copy _ _ _).2 ⟨rfl, rfl⟩⟩
  · refine ((yields_refersToDeclared _ _).2 ⟨rfl, rfl⟩).goesOn_bind ?_
    split
    · exact Names.goesOn_validateWord _
    · next called =>
      refine GoesOn.bind (goesOn_evaluate fun f callable takes ↦ ?_) fun w _ _ ↦ ?_
      · have passing : Yields .collect (setting.passed .word) journal inherited journal :=
          (Build.yields_bind _ _ _).2 ⟨_, _, found, offering⟩
        exact answers _ (.ofSection (by decide) callable takes
          (fun _ ↦ Bool.eq_false_iff.2 called) passing)
      · exact (Build.goesOn_present w).bind fun v _ _ ↦ Names.goesOn_validateWord v

/-- Each section goes on, if the base has what a grammar document declares for it, every function
that is called answers, and the names in all rules that are met can be looked up. -/
theorem goesOn_goThrough (part : Section) (typed : setting.BaseTyped part before.store)
    (answers : ∀ call, setting.Makes entries part before call → setting.Answers call)
    (hashable : ∀ r, setting.Meets entries part before r → r.Hashable) :
    GoesOn (setting.goThrough entries part) before := by
  cases part with
  | name => exact goesOn_name typed
  | externals => exact (goesOn_externals typed answers hashable).return _
  | rules => exact (goesOn_rules typed answers hashable).return _
  | word => exact goesOn_word typed answers
  | inline =>
    exact (goesOn_part (by decide) typed answers fun _ v _ _ ↦
      Names.goesOn_validateInline v).return _
  | supertypes =>
    exact (goesOn_part (by decide) typed answers fun _ v _ _ ↦
      Names.goesOn_validateSupertypes v).return _
  | conflicts =>
    exact (goesOn_part (by decide) typed answers fun _ v _ _ ↦
      (Names.goesOn_validateConflicts v).return _).return _
  | extras =>
    refine (goesOn_part (by decide) typed answers fun given v next subject ↦ ?_).return _
    refine (Extras.goesOn_validate fun items array raw mem r rule ↦ ?_).return _
    exact hashable r (.extra given subject array mem rule)
  | precedences =>
    refine (goesOn_part (by decide) typed answers fun given v next subject ↦ ?_).return _
    refine (Precedences.goesOn_validate fun groups array group hg items inside raw mem name rule ↦
      ?_).return _
    exact (hashable _ (.precedence given subject array hg inside mem rule)).referenced name rfl

/-! ### All sections go on -/

variable {parts : List Section}

/-- Sections are all passed through, the name first, if each goes on after those before it. -/
theorem exists_traverses {description : Value Code} {start : Journal Code} (nodup : parts.Nodup)
    (first : ∀ earlier later, parts = earlier ++ .name :: later → earlier = [])
    (goesOn : ∀ fields before earlier part later, parts = earlier ++ part :: later →
      setting.Traverses description .collect fields earlier start before →
      GoesOn (setting.goThrough (Description.given description before.store) part)
        (before.begun fields part)) :
    ∃ fields finish, setting.Traverses description .collect fields parts start finish := by
  induction parts using List.reverseRecOn with
  | nil => exact ⟨fun _ ↦ .missing, start, .nil start⟩
  | append_singleton earlier last ih =>
    obtain ⟨once, -, apart⟩ := List.nodup_append.1 nodup
    have extend {some more : List Section} {part : Section}
        (split : earlier = some ++ part :: more) :
        earlier ++ [last] = some ++ part :: (more ++ [last]) := by
      rw [split, List.append_assoc, List.cons_append]
    obtain ⟨fields, between, traverses⟩ := ih once (fun some more split ↦ first _ _ (extend split))
      fun fields before some part more split ↦ goesOn fields before some part _ (extend split)
    obtain ⟨v, after, gone⟩ := goesOn fields between earlier last [] rfl traverses
    refine ⟨Function.update fields last v, after, traverses.snoc ?_ ?_ gone⟩
    · exact fun mem ↦ apart last mem last List.mem_cons_self rfl
    · rintro rfl
      exact first earlier [] rfl

/-- A build that can pass through all sections goes that course. -/
theorem exists_course_of_traverses {description : Value Code} {store : Store Code}
    {fields : Section → Value Code} {start finish : Journal Code}
    (opened : Yields .collect (Description.check description) { store } () start)
    (traverses : setting.Traverses description .collect fields Section.all start finish) :
    ∃ g after, setting.collect description store = (.ok g, after) ∧ g.fields = fields ∧
      setting.Course description store fields start finish after := by
  obtain ⟨g, rfl, place, again⟩ := traverses.exists_grammar (setting.place.part "grammar")
  have yields : Yields .collect (setting.assemble description) { store } g finish :=
    (yields_assemble_iff_traverses g).2 ⟨start, opened, traverses, place, again⟩
  obtain ⟨after, collected, -⟩ := exists_collect_of_yields yields
  obtain ⟨_, _, course⟩ := exists_course collected
  obtain ⟨-, rfl⟩ := course.begins.unique opened
  obtain ⟨rfl, -⟩ := course.traverses.unique traverses fun part head other ↦
    absurd (Option.some.inj head).symm other
  exact ⟨g, after, collected, rfl, course⟩

/-- A build leaves the store as it is after the sections have been passed through. -/
theorem Course.store_eq {description : Value Code} {store : Store Code} {g : Grammar (Value Code)}
    {start finish : Journal Code}
    (course : setting.Course description store g.fields start finish after)
    (collected : setting.collect description store = (.ok g, after)) :
    after.store = finish.store := by
  obtain ⟨journal, assembled, -, -, same⟩ := yields_of_collect collected
  obtain ⟨_, opened, traverses, -⟩ := (yields_assemble_iff_traverses g).1 assembled
  obtain ⟨-, rfl⟩ := course.begins.unique opened
  obtain ⟨rfl, -⟩ := course.traverses.unique traverses fun part head other ↦
    absurd (Option.some.inj head).symm other
  exact same

/-- A build of a description that cooperates returns a grammar, if whenever a section is begun the
base has for it what a grammar document declares. -/
theorem exists_collect_of_cooperates {description : Value Code} {store : Store Code}
    (cooperates : setting.Cooperates description store)
    (typed : ∀ part journal, setting.Begins .collect description { store } part journal →
      setting.BaseTyped part journal.store) :
    ∃ g after, setting.collect description store = (.ok g, after) := by
  have checked : GoesOn (Description.check description) { store } :=
    Description.goesOn_check description
  obtain ⟨_, start, opened⟩ := checked
  have all : ∃ fields finish,
      setting.Traverses description .collect fields Section.all start finish := by
    refine exists_traverses (by decide) (fun _ _ ↦ eq_nil_of_all_eq) ?_
    intro fields before earlier part later split traverses
    obtain rfl := Section.eq_earlier split
    have begins : setting.Begins .collect description { store } part (before.begun fields part) :=
      ⟨fields, start, before, opened, traverses, rfl⟩
    rw [← before.store_begun fields part]
    exact goesOn_goThrough part (typed part _ begins) (cooperates.answers part _ begins)
      (cooperates.hashable part _ begins)
  obtain ⟨fields, finish, traverses⟩ := all
  obtain ⟨g, after, collected, -⟩ := exists_course_of_traverses opened traverses
  exact ⟨g, after, collected⟩

/-! ### What a course visits -/

/-- In the course of a build, every section that is begun is visited. -/
theorem Course.exists_visit {description : Value Code} {store : Store Code}
    {fields : Section → Value Code} {start finish journal : Journal Code}
    (course : setting.Course description store fields start finish after)
    (begins : setting.Begins .collect description { store } part journal) :
    ∃ before between, journal = before.begun fields part ∧
      setting.Traverses description .collect fields part.earlier start before ∧
      Visit setting (Description.given description before.store) fields part before between after ∧
      setting.Traverses description .collect fields part.later between finish := by
  obtain ⟨before, between, first, visit, last⟩ := course.visits part.all_eq
  have begins' : setting.Begins .collect description { store } part (before.begun fields part) :=
    ⟨fields, start, before, course.begins, first, rfl⟩
  exact ⟨before, between, begins.unique begins', first, visit, last⟩

/-- In the course of a build, each section is begun. -/
theorem Course.exists_begins {description : Value Code} {store : Store Code}
    {fields : Section → Value Code} {start finish : Journal Code}
    (course : setting.Course description store fields start finish after) (part : Section) :
    ∃ journal, setting.Begins .collect description { store } part journal := by
  obtain ⟨before, _, first, -⟩ := course.visits part.all_eq
  exact ⟨_, fields, start, before, course.begins, first, rfl⟩

end Setting

/-! ### A malformed description that cooperates -/

/-- A description that gives a function for the externals, a number for the rules, an empty list for
the conflicts and nothing else. -/
def Description.malformed (f : Callable (Value Code) Code) : Value Code :=
  .mapping ⟨.step 1, [(.string "externals", .callable f), (.string "rules", .int 7),
    (.string "conflicts", .list ⟨(Place.step 1).part "conflicts", [], false⟩)], false⟩

namespace Setting

variable {setting : Setting Code} {entries : Table Code (Value Code)} {part : Section}

/-- What the function of a section is passed. -/
theorem madeOf_passed {may : Move Code → Prop} (part : Section) (hl : may .look) :
    MadeOf may (setting.passed part) := by
  cases part with
  | externals => exact .bind (setting.madeOf_inheritedExternals hl) fun _ ↦ .pure _
  | name | rules | extras | inline | conflicts | word | supertypes | precedences =>
    exact .bind (setting.madeOf_inherited _) fun _ ↦ setting.madeOf_offered _ _ hl

/-- What a section is before it is checked. -/
theorem madeOf_subject {may : Move Code → Prop} (part : Section) (h : setting.Permits may) :
    MadeOf may (setting.subject entries part) :=
  .bind (madeOf_passed part h.looks) fun offered ↦
    .bind (setting.madeOf_evaluate part _ offered (h.calls part)) fun v ↦ .present v h.looks

/-- What is given for a section, and is no function that may take the builder, is left as it is. -/
theorem evaluate_idle {v offered : Value Code}
    (idle : ∀ f, v.callable? = some f → f.takesArgument = false) :
    setting.evaluate part v offered = pure v := by
  unfold evaluate
  split
  · rfl
  · next f callable => simp [idle f callable]

/-- What is given for a section that is no function is as it is at present when it is checked. -/
theorem subject_of_not_callable {v : Value Code}
    (h : Yields .collect (setting.subject entries part) before v after)
    (given : (Description.get entries part).callable? = none) :
    v = after.store.present (Description.get entries part) := by
  obtain ⟨offered, between, -, more⟩ := (Build.yields_bind _ _ _).1 h
  obtain ⟨w, next, evaluated, looked⟩ := (Build.yields_bind _ _ _).1 more
  rw [evaluate_idle (by simp [given])] at evaluated
  obtain ⟨rfl, rfl⟩ := (Build.yields_pure _ _).1 evaluated
  obtain ⟨rfl, rfl⟩ := (Build.yields_present _ _).1 looked
  rfl

/-- A description cooperates if it gives a function that always answers for the externals and none
for the other sections, no mapping for the rules, and nothing for the extras and the precedences,
and no function that is called changes that. -/
theorem cooperates_of_externals {description : Value Code} {store : Store Code}
    {f : Callable (Value Code) Code}
    (still : ∀ between, setting.Reaches description store between →
      Description.given description between = Description.given description store)
    (externals : Description.get (Description.given description store) .externals = .callable f)
    (others : ∀ part ≠ .externals,
      (Description.get (Description.given description store) part).callable? = none)
    (rules : (setting.givenRules (Description.given description store)).object? = none)
    (missing : ∀ part ∈ [Section.extras, .precedences],
      Description.get (Description.given description store) part = .missing)
    (answers : ∀ offered store,
      setting.Answers ⟨setting.made "call" "externals", f, offered, store⟩) :
    setting.Cooperates description store := by
  have noRules (between : Store Code) (given : List (Value Code × Value Code)) :
      (between.present (setting.givenRules (Description.given description store))).object? ≠
        some given := by
    intro object
    have some := between.isSome_object?_present
      (setting.givenRules (Description.given description store))
    rw [object, rules] at some
    cases some
  have unchecked {part : Section} (hp : part ∈ [Section.extras, .precedences])
      {before after : Journal Code} {v : Value Code} {items : List (Value Code)}
      (subject : Yields .collect (setting.subject (Description.given description store) part)
        before v after) : v.array? ≠ some items := by
    have eq := subject_of_not_callable subject (by rw [missing part hp]; rfl)
    rw [missing part hp, Store.present_missing] at eq
    rw [eq]
    exact fun array ↦ by cases array
  refine ⟨fun part before begins call makes ↦ ?_, fun part before begins r meets ↦ ?_⟩
  · rw [still _ begins.reaches] at makes
    cases makes with
    | ofSection _ callable _ _ _ =>
      by_cases here : part = .externals
      · subst here
        rw [externals] at callable
        cases callable
        exact answers _ _
      · rw [others part here] at callable
        cases callable
    | ofRule _ object _ _ _ => exact absurd object (noRules _ _)
  · rw [still _ begins.reaches] at meets
    cases meets with
    | external missing _ _ =>
      rw [externals] at missing
      cases missing
    | definition _ object _ _ _ => exact absurd object (noRules _ _)
    | extra _ subject array _ _ => exact absurd array (unchecked (by decide) subject)
    | precedence _ subject array _ _ _ _ => exact absurd array (unchecked (by decide) subject)

/-- While no code changes a mapping, a description gives the same in every store that a build may
come to from one where none has been changed. -/
theorem given_of_unchanged {description : Value Code} {between : Store Code}
    (keeps : ∀ place code bindings store, store.mappings = [] →
      ((setting.run place code bindings).start store).2.mappings = [])
    (reached : setting.Reaches description {} between) :
    Description.given description between = Description.given description {} := by
  have unchanged : between.mappings = [] := by
    induction reached with
    | start => rfl
    | call place offered _ _ _ _ ih =>
      exact kept_of_start_call (fun store ↦ store.mappings = []) keeps _ _ _ ih
    | copy _ _ _ ih => simp [Store.copy, ih]
  cases description with
  | mapping entries => simp [Description.given, Store.read, Store.entries, unchanged]
  | _ => rfl

/-- The malformed description cooperates if its function always answers and no code changes a
mapping. -/
theorem cooperates_malformed {f : Callable (Value Code) Code}
    (keeps : ∀ place code bindings store, store.mappings = [] →
      ((setting.run place code bindings).start store).2.mappings = [])
    (answers : ∀ offered store,
      setting.Answers ⟨setting.made "call" "externals", f, offered, store⟩) :
    setting.Cooperates (Description.malformed f) {} := by
  have given (part : Section) :
      Description.get (Description.given (Description.malformed f) {}) part =
        (Table.find? [(.string "externals", .callable f), (.string "rules", .int 7),
          (.string "conflicts", .list ⟨(Place.step 1).part "conflicts", [], false⟩)]
          (.string part.title)).getD .missing := rfl
  refine cooperates_of_externals (f := f) (fun _ ↦ given_of_unchanged keeps) ?_
    (fun part other ↦ ?_) ?_ (fun part mem ↦ ?_) answers
  · simp [given, Section.title]
  · cases part <;> simp [given, Section.title, Value.callable?] at other ⊢
  · simp [givenRules, given, Section.title, Value.object?]
  · cases part <;> simp [given, Section.title] at mem ⊢

/-! ### Persistence -/

/-- A build that collects never ends with a problem, whatever it is given. And it returns a grammar
however malformed the description is, if every function that is called answers, the names in all
rules that are met can be looked up, and whenever a section is begun the base has for it what a
grammar document declares. -/
theorem collect_persists (setting : Setting Code) (description : Value Code) (store : Store Code) :
    (∀ p, (setting.collect description store).1 ≠ .error (.problem p)) ∧
      (setting.Cooperates description store →
        (∀ part journal, setting.Begins .collect description { store } part journal →
          setting.BaseTyped part journal.store) →
        ∃ g after, setting.collect description store = (.ok g, after)) :=
  ⟨setting.collect_ne_problem description store, exists_collect_of_cooperates⟩

/-- A build returns a grammar though the externals are given by a function that raises a problem,
and the rules by a number. -/
theorem collect_persists_malformed :
    let setting : Setting Unit := {
      run := fun _ _ _ ↦ throw (.problem ⟨.undefined, none⟩)
      place := .step 1, base := .grammar (.single (.step 0)) }
    let f : Callable (Value Unit) Unit := ⟨.step 1, some "f", { positional := ["b"] }, .code ()⟩
    let description : Value Unit := Description.malformed f
    setting.Cooperates description {} ∧
      (∀ part journal, setting.Begins .collect description {} part journal →
        setting.BaseTyped part journal.store) ∧
      ∃ g after, setting.collect description {} = (.ok g, after) := by
  intro setting f description
  have cooperates : setting.Cooperates description {} :=
    cooperates_malformed (fun _ _ _ _ ↦ id) fun offered store fault eq ↦ by cases eq
  have typed (part : Section) (journal : Journal Unit)
      (begins : setting.Begins .collect description {} part journal) :
      setting.BaseTyped part journal.store := by
    rw [eq_empty_of_reaches (fun _ _ _ _ ↦ rfl) begins.reaches]
    exact baseTyped_single rfl part
  exact ⟨cooperates, typed, (collect_persists setting description {}).2 cooperates typed⟩

/-- If the function that gives the externals adds a number to the conflicts of the base, which have
been what they are declared to be before, the build faults when it comes to the conflicts. -/
theorem exists_collect_eq_fault :
    let base : Grammar (Value Unit) := .single (.step 0)
    let setting : Setting Unit := {
      run := fun place _ _ ↦ do
        Exec.append base.conflicts (.int 5)
        return .list ⟨place.part "returned", [], false⟩
      place := .step 1, base := .grammar base }
    let f : Callable (Value Unit) Unit := ⟨.step 1, some "f", { positional := ["b"] }, .code ()⟩
    let description : Value Unit := Description.malformed f
    (∀ part, setting.BaseTyped part {}) ∧ setting.Cooperates description {} ∧
      (setting.collect description {}).1 = .error (.fault .wrongType) := by
  intro base setting f description
  have cooperates : setting.Cooperates description {} :=
    cooperates_malformed (fun _ _ _ _ ↦ id) fun offered store fault eq ↦ by cases eq
  refine ⟨baseTyped_single rfl, cooperates, ?_⟩
  have faults : (Build.failure? (setting.collect description {}).1).bind Build.fault? =
      some .wrongType := by
    decide +kernel
  obtain ⟨failure, fails, fault⟩ := Option.bind_eq_some_iff.1 faults
  rw [Build.eq_error_of_failure? fails, Build.eq_fault_of_fault? fault]

end Setting

end GrammarDoc
