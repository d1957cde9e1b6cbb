import GrammarDoc.Proofs.Collecting
import GrammarDoc.Proofs.Interference
import GrammarDoc.Proofs.Persistence

/-!
# The two policies on extras

The policy on extras only decides which names of an extra are looked up, and what is reported of
them. Two builds under different policies come to the same grammar and declare the same names, and
outside of the extras they report the same problems.
-/

namespace GrammarDoc

open Build (Yields MadeOf)

variable {Code : Type} {α β : Type} {before between after : Journal Code}

/-! ### Steps that agree but for what they report -/

namespace Build

/-- Whether two steps, when they collect problems and have results, come to the same from the same
names and the same store, and leave the same. They may report different problems. -/
def Agree (step₁ step₂ : Build Code α) : Prop :=
  ∀ before₁ before₂ a₁ a₂ after₁ after₂, before₁.Match Eq before₂ →
    Yields .collect step₁ before₁ a₁ after₁ → Yields .collect step₂ before₂ a₂ after₂ →
      a₁ = a₂ ∧ after₁.Match Eq after₂

/-- A step that begins no section agrees with itself. -/
theorem MadeOf.agree {step : Build Code α}
    (h : MadeOf (fun move ↦ ∀ part grammar, move ≠ .began part grammar) step) :
    Agree step step := by
  have uniform : Uniform Eq step fun _ ↦ True :=
    h.uniform (fun part grammar within ↦ within part grammar rfl) fun _ _ _ ↦ Iff.rfl
  intro before₁ before₂ a₁ a₂ after₁ after₂ matched first second
  obtain ⟨eq, left, -⟩ := uniform.of_yields matched first second
  exact ⟨eq, left⟩

private theorem agree_of_reports {step₁ step₂ : Build Code Unit} (h₁ : MadeOf Move.IsReport step₁)
    (h₂ : MadeOf Move.IsReport step₂) : Agree step₁ step₂ := by
  intro before₁ before₂ _ _ after₁ after₂ matched first second
  obtain ⟨names₁, store₁⟩ := first.same h₁
  obtain ⟨names₂, store₂⟩ := second.same h₂
  exact ⟨rfl, names₁.trans (matched.names.trans names₂.symm),
    store₁.trans (matched.stores.trans store₂.symm)⟩

/-- Steps that agree followed by steps that agree. -/
theorem Agree.bind {step₁ step₂ : Build Code α} {next₁ next₂ : α → Build Code β}
    (h : Agree step₁ step₂) (h' : ∀ a, Agree (next₁ a) (next₂ a)) :
    Agree (step₁ >>= next₁) (step₂ >>= next₂) := by
  intro before₁ before₂ b₁ b₂ after₁ after₂ matched first second
  obtain ⟨a, between₁, here₁, rest₁⟩ := (yields_bind _ _ _).1 first
  obtain ⟨_, between₂, here₂, rest₂⟩ := (yields_bind _ _ _).1 second
  obtain ⟨rfl, left⟩ := h _ _ _ _ _ _ matched here₁ here₂
  exact h' a _ _ _ _ _ _ left rest₁ rest₂

/-- A finished step agrees with itself. -/
theorem agree_pure (a : α) : Agree (pure a : Build Code α) (pure a) := MadeOf.agree (.pure a)

/-- What is made of a result does not matter. -/
theorem Agree.return {step₁ step₂ : Build Code α} (h : Agree step₁ step₂) (f : α → β) :
    Agree (do return f (← step₁)) (do return f (← step₂)) :=
  h.bind fun a ↦ agree_pure (f a)

private theorem Agree.filterMap {step₁ step₂ : α → Build Code (Option β)}
    (h : ∀ a, Agree (step₁ a) (step₂ a)) (items : List α) :
    Agree (filterMap step₁ items) (filterMap step₂ items) := by
  induction items with
  | nil => exact agree_pure []
  | cons a rest ih =>
    refine (h a).bind fun result ↦ ?_
    cases result with
    | none => exact ih
    | some b => exact ih.return _

private theorem Agree.guarded {handler₁ handler₂ : Value Code → Build Code α}
    (guards : List (Guard α)) (v : Value Code) (h : Agree (handler₁ v) (handler₂ v)) :
    Agree (guarded pure guards handler₁ v) (guarded pure guards handler₂ v) := by
  induction guards with
  | nil => exact h
  | cons guard rest ih =>
    change Agree (guard.before pure (GrammarDoc.guarded pure rest handler₁) v)
      (guard.before pure (GrammarDoc.guarded pure rest handler₂) v)
    unfold Guard.before
    split
    · exact ih
    · split
      · next p _ =>
        exact MadeOf.agree (.bind (.report fun _ _ eq ↦ by cases eq) fun _ ↦ .pure _)
      · exact MadeOf.agree (.bind (.pure ()) fun _ ↦ .pure _)

end Build

open Build (Agree)

/-! ### What is reported of an extra -/

namespace Extras

/-- The problems that are reported with an extra under a policy: that it stands for no rule; or that
it is a symbol or an alias of a name that is declared; or, if extras may refer to rules, the names
that it refers to, each once, that are not declared. -/
def problems (references : Bool) (names : Namespace Code) (raw : Value Code) :
    List (Problem Code) :=
  match raw.toRule with
  | .error cause => [⟨cause, some "extras"⟩]
  | .ok r =>
    if references then
      ((Value.distinct r.mentions).filter fun name ↦ !names.has name).map fun name ↦
        ⟨.undeclared "extras" name, some "extras"⟩
    else
      match r.referencedName?.bind Value.toOption with
      | none => []
      | some name => ((names.find? name).map fun first ↦
          ⟨.declaredTwice "extras" name first, some "extras"⟩).toList

/-- The extras agree under all policies. -/
theorem agree_validate (references others : Bool) (v : Value Code) :
    Agree (validate references v) (validate others v) := by
  refine .guarded _ v (.filterMap (fun raw ↦ ?_) _)
  have reports : Move.Reports (fun move : Move Code ↦ ∀ part grammar, move ≠ .began part grammar)
      "extras" := fun _ _ _ eq ↦ by cases eq
  have normalizes : Agree (Build.normalize "extras" raw) (Build.normalize "extras" raw) :=
    (MadeOf.normalize raw reports).agree
  refine normalizes.bind fun result ↦ ?_
  cases result with
  | none => exact Build.agree_pure none
  | some r =>
    have checks (b : Bool) : MadeOf Move.IsReport (checkNames b r) :=
      madeOf_checkNames b r fun _ ↦ ⟨_, rfl⟩
    exact (Build.agree_of_reports (checks references) (checks others)).return _

end Extras

/-! ### Sections under a policy -/

namespace Setting

variable {setting : Setting Code} {entries : Table Code (Value Code)} {part : Section}

/-- The same setting under a policy. -/
def underPolicy (setting : Setting Code) (references : Bool) : Setting Code :=
  { setting with extraReferences := references }

private theorem goThrough_underPolicy (references : Bool) (other : part ≠ .extras) :
    (setting.underPolicy references).goThrough entries part = setting.goThrough entries part := by
  cases part with
  | extras => exact absurd rfl other
  | name | externals | rules | inline | conflicts | word | supertypes | precedences => rfl

private theorem agree_part {check₁ check₂ : Value Code → Build Code (List (Value Code))}
    (checks : ∀ v, Agree (check₁ v) (check₂ v)) :
    Agree (setting.part entries part check₁) (setting.part entries part check₂) := by
  refine .bind (setting.madeOf_inherited part).agree fun inherited ↦ ?_
  refine .bind (setting.madeOf_offered part inherited setting.permits_within.looks).agree
    fun offered ↦ ?_
  generalize Description.get entries part = v
  generalize setting.hasBase = hasBase
  split
  · refine MadeOf.agree (.bind (.perform setting.permits_within.looks (fun _ _ h ↦ by cases h)
      (setting.permits_within.copies part inherited)) fun copy ↦ ?_)
    split
    · exact .pure _
    · exact .fault _
  · refine .bind (setting.madeOf_evaluate part v offered
      (setting.permits_within.calls part)).agree fun w ↦ ?_
    exact .bind (MadeOf.present w setting.permits_within.looks).agree fun v ↦ (checks v).return _

/-- Every section agrees under all policies. -/
theorem agree_goThrough (references others : Bool) (part : Section) :
    Agree ((setting.underPolicy references).goThrough entries part)
      ((setting.underPolicy others).goThrough entries part) := by
  by_cases here : part = .extras
  · subst here
    refine .return (agree_part fun v ↦ ?_) _
    exact (Extras.agree_validate references others v).return _
  · rw [goThrough_underPolicy references here, goThrough_underPolicy others here]
    exact (setting.madeOf_goThrough entries part setting.permits_within).agree

/-- Passing through sections that agree comes to the same and leaves the same. -/
theorem Traverses.agree {setting₁ setting₂ : Setting Code} {description : Value Code}
    {fields₁ fields₂ : Section → Value Code} {parts : List Section}
    {before₁ before₂ after₁ after₂ : Journal Code}
    (h₁ : setting₁.Traverses description .collect fields₁ parts before₁ after₁)
    (h₂ : setting₂.Traverses description .collect fields₂ parts before₂ after₂)
    (agree : ∀ entries part,
      Agree (setting₁.goThrough entries part) (setting₂.goThrough entries part))
    (matched : before₁.Match Eq before₂) :
    after₁.Match Eq after₂ ∧ ∀ part ∈ parts, fields₁ part = fields₂ part := by
  induction h₁ generalizing before₂ with
  | nil journal =>
    cases h₂
    exact ⟨matched, fun _ mem ↦ absurd mem List.not_mem_nil⟩
  | @cons part rest before between after gone _ ih =>
    obtain _ | ⟨gone₂, all⟩ := h₂
    have begun : (before.begun fields₁ part).Match Eq (before₂.begun fields₂ part) := by
      obtain ⟨_, begun₁⟩ := before.exists_begun fields₁ part
      obtain ⟨_, begun₂⟩ := before₂.exists_begun fields₂ part
      rw [begun₁, begun₂]
      exact ⟨matched.names, matched.stores⟩
    rw [← matched.stores] at gone₂
    obtain ⟨eq, left⟩ := agree _ part _ _ _ _ _ _ begun gone gone₂
    obtain ⟨last, others⟩ := ih all left
    exact ⟨last, List.forall_mem_cons.2 ⟨eq, others⟩⟩

end Setting

/-- A grammar is known from what it has for the sections, where it was made, and whether it stands
inside of itself. -/
theorem Grammar.eq_of_fields {g h : Grammar (Value Code)} (fields : g.fields = h.fields)
    (place : g.place = h.place) (again : g.again = h.again) : g = h := by
  obtain ⟨_, name, rules, extras, externals, inline, conflicts, word, supertypes, precedences,
    _⟩ := g
  have part (part : Section) := congrFun fields part
  cases place
  cases again
  cases (part .name : name = h.name)
  cases (part .word : word = h.word)
  cases Value.mapping.inj (part .rules : Value.mapping rules = .mapping h.rules)
  cases Value.list.inj (part .extras : Value.list extras = .list h.extras)
  cases Value.list.inj (part .externals : Value.list externals = .list h.externals)
  cases Value.list.inj (part .inline : Value.list inline = .list h.inline)
  cases Value.list.inj (part .conflicts : Value.list conflicts = .list h.conflicts)
  cases Value.list.inj (part .supertypes : Value.list supertypes = .list h.supertypes)
  cases Value.list.inj (part .precedences : Value.list precedences = .list h.precedences)
  rfl

/-! ### What the extras report -/

namespace Extras

/-- The rule that a value stands for, if it stands for one. -/
def rule? (raw : Value Code) : Option (Rule (Value Code)) := raw.toRule.toOption

/-- Checking the names of an extra reports the problems with it. -/
theorem of_yields_checkNames {references : Bool} {raw : Value Code} {r : Rule (Value Code)}
    {u : Unit} (rule : raw.toRule = .ok r)
    (h : Yields .collect (checkNames references r) before u after) :
    after = before.reporting (problems references before.names raw) := by
  unfold checkNames at h
  unfold problems
  rw [rule]
  cases references with
  | true =>
    have symbols : r.symbols = Value.distinct r.mentions := r.addSymbols_eq_foldl []
    rw [if_pos rfl, symbols] at h
    exact Build.of_yields_forM_requireDeclared h
  | false =>
    rw [if_neg Bool.false_ne_true] at h
    cases named : r.referencedName?.bind Value.toOption with
    | none =>
      rw [named] at h
      obtain ⟨-, rfl⟩ := (Build.yields_pure _ _).1 h
      simp [named]
    | some name =>
      simp only [named] at h ⊢
      obtain ⟨_, required⟩ := (Build.yields_discard _ _).1 h
      obtain ⟨-, -, reported⟩ := (Build.yields_requireNotDeclared _ _ _ _).1 required
      cases found : before.names.find? name with
      | none =>
        rw [found] at reported
        obtain rfl := reported
        simp
      | some first =>
        rw [found] at reported
        obtain ⟨-, rfl⟩ := (Build.yields_reportIn _ _ _).1 reported
        rfl

/-- An extra comes to the rule that it stands for, and the problems with it are reported. -/
theorem of_yields_fromItem {references : Bool} {raw : Value Code}
    {result : Option (Rule (Value Code))}
    (h : Yields .collect (fromItem references raw) before result after) :
    result = rule? raw ∧ after = before.reporting (problems references before.names raw) := by
  obtain ⟨normal, between, normalized, rest⟩ := (Build.yields_bind _ _ _).1 h
  rw [Build.yields_normalize] at normalized
  cases rule : raw.toRule with
  | error cause =>
    rw [rule] at normalized
    obtain ⟨rfl, reported⟩ := normalized
    obtain ⟨-, rfl⟩ := (Build.yields_report _ _).1 reported
    obtain ⟨rfl, rfl⟩ := (Build.yields_pure _ _).1 rest
    unfold rule? problems
    rw [rule]
    exact ⟨rfl, rfl⟩
  | ok r =>
    rw [rule] at normalized
    obtain ⟨rfl, rfl⟩ := normalized
    obtain ⟨_, next, checked, done⟩ := (Build.yields_bind _ _ _).1 rest
    obtain ⟨rfl, rfl⟩ := (Build.yields_pure _ _).1 done
    refine ⟨?_, of_yields_checkNames rule checked⟩
    unfold rule?
    rw [rule]
    rfl

private theorem of_yields_validate {references : Bool} {v : Value Code} {items : List (Value Code)}
    {rules : List (Rule (Value Code))} (array : v.array? = some items)
    (h : Yields .collect (validate references v) before rules after) :
    rules = items.filterMap rule? ∧
      after = before.reporting (items.flatMap (problems references before.names)) := by
  rw [validate, Build.guarded_of_array (Build.filterMap (fromItem references)) array] at h
  refine Build.of_yields_filterMap_reporting h fun raw journal b later same gone ↦ ?_
  rw [← same]
  exact of_yields_fromItem gone

end Extras

/-! ### Two builds under the two policies -/

namespace Setting

variable {setting : Setting Code} {entries : Table Code (Value Code)} {part : Section}
  {description : Value Code} {store : Store Code} {fields fields₁ fields₂ : Section → Value Code}
  {after₁ after₂ : Journal Code}

/-- Extras that are given as an array come to the rules that its items stand for, and the problems
with them are reported, item by item. -/
theorem of_yields_extras {v w : Value Code} {items : List (Value Code)}
    (subject : Yields .collect (setting.subject entries .extras) before v between)
    (array : v.array? = some items)
    (h : Yields .collect (setting.goThrough entries .extras) before w after) :
    ∃ list : Items (Value Code), w = .list list ∧
      list.toList = (items.filterMap Extras.rule?).map .rule ∧
      after = between.reporting
        (items.flatMap (Extras.problems setting.extraReferences between.names)) := by
  obtain ⟨list, _, gone, done⟩ := (Build.yields_bind _ _ _).1 h
  obtain ⟨rfl, rfl⟩ := (Build.yields_pure _ _).1 done
  obtain ⟨inherited, _, found, rest⟩ := (Build.yields_bind _ _ _).1 gone
  obtain ⟨offered, _, offering, last⟩ := (Build.yields_bind _ _ _).1 rest
  have given : Description.get entries .extras ≠ .missing := by
    intro missing
    have eq := subject_of_not_callable subject (by rw [missing]; rfl)
    rw [missing, Store.present_missing] at eq
    rw [eq] at array
    cases array
  obtain ⟨_, _, passing, more⟩ := (Build.yields_bind _ _ _).1 subject
  have passing' : Yields .collect (setting.passed .extras) before offered _ :=
    (Build.yields_bind _ _ _).2 ⟨_, _, found, offering⟩
  obtain ⟨rfl, rfl⟩ := passing.unique passing'
  obtain ⟨evaluated, _, evaluating, looking⟩ := (Build.yields_bind _ _ _).1 more
  split at last
  · next missing _ => exact absurd missing given
  · obtain ⟨_, _, evaluating', last⟩ := (Build.yields_bind _ _ _).1 last
    obtain ⟨rfl, rfl⟩ := evaluating.unique evaluating'
    obtain ⟨_, _, looking', last⟩ := (Build.yields_bind _ _ _).1 last
    obtain ⟨rfl, rfl⟩ := looking.unique looking'
    obtain ⟨values, _, checked, made⟩ := (Build.yields_bind _ _ _).1 last
    obtain ⟨rfl, rfl⟩ := (Build.yields_pure _ _).1 made
    obtain ⟨rules, _, validated, kept⟩ := (Build.yields_bind _ _ _).1 checked
    obtain ⟨rfl, rfl⟩ := (Build.yields_pure _ _).1 kept
    obtain ⟨rfl, rfl⟩ := Extras.of_yields_validate array validated
    exact ⟨_, rfl, rfl, rfl⟩

/-- Two builds under different policies visit each section, and come to it with the same names and
the same store. -/
theorem Course.exists_visits_underPolicy {references others : Bool} {start₁ start₂ : Journal Code}
    {finish₁ finish₂ : Journal Code}
    (course₁ : (setting.underPolicy references).Course description store fields₁ start₁ finish₁
      after₁)
    (course₂ : (setting.underPolicy others).Course description store fields₂ start₂ finish₂ after₂)
    (part : Section) :
    ∃ before₁ before₂ between₁ between₂, before₁.Match Eq before₂ ∧
      Visit (setting.underPolicy references) (Description.given description before₁.store) fields₁
        part before₁ between₁ after₁ ∧
      Visit (setting.underPolicy others) (Description.given description before₁.store) fields₂ part
        before₂ between₂ after₂ := by
  obtain ⟨-, rfl⟩ := course₁.begins.unique course₂.begins
  obtain ⟨before₁, between₁, first₁, visit₁, -⟩ := course₁.visits part.all_eq
  obtain ⟨before₂, between₂, first₂, visit₂, -⟩ := course₂.visits part.all_eq
  have matched :=
    (first₁.agree first₂ (fun _ ↦ agree_goThrough references others) ⟨rfl, rfl⟩).1
  rw [← matched.stores] at visit₂
  exact ⟨before₁, before₂, between₁, between₂, matched, visit₁, visit₂⟩

/-- Outside of the extras, two builds under different policies report the same problems. -/
theorem Course.problemsIn_underPolicy {references others : Bool} {start₁ start₂ : Journal Code}
    {finish₁ finish₂ : Journal Code}
    (course₁ : (setting.underPolicy references).Course description store fields₁ start₁ finish₁
      after₁)
    (course₂ : (setting.underPolicy others).Course description store fields₂ start₂ finish₂ after₂)
    (other : part ≠ .extras) : after₁.problemsIn part = after₂.problemsIn part := by
  obtain ⟨before₁, before₂, between₁, between₂, matched, visit₁, visit₂⟩ :=
    course₁.exists_visits_underPolicy course₂ part
  have gone₁ := visit₁.gone
  have gone₂ := visit₂.gone
  rw [goThrough_underPolicy references other] at gone₁
  rw [goThrough_underPolicy others other] at gone₂
  have visit₁ : Visit setting (Description.given description before₁.store) fields₁ part before₁
      between₁ after₁ := ⟨gone₁, visit₁.problems⟩
  have visit₂ : Visit setting (Description.given description before₁.store) fields₂ part before₂
      between₂ after₂ := ⟨gone₂, visit₂.problems⟩
  exact (visit₁.agree visit₂ rfl (setting.uniform_goThrough _ part) matched).2.2

/-- Two builds under different policies come to the same grammar, and declare the same names. -/
theorem Course.eq_underPolicy {references others : Bool} {start₁ start₂ : Journal Code}
    {finish₁ finish₂ : Journal Code}
    (course₁ : (setting.underPolicy references).Course description store fields₁ start₁ finish₁
      after₁)
    (course₂ : (setting.underPolicy others).Course description store fields₂ start₂ finish₂
      after₂) :
    fields₁ = fields₂ ∧ after₁.names = after₂.names := by
  obtain ⟨-, rfl⟩ := course₁.begins.unique course₂.begins
  obtain ⟨left, same⟩ := course₁.traverses.agree course₂.traverses
    (fun _ ↦ agree_goThrough references others) ⟨rfl, rfl⟩
  exact ⟨funext fun part ↦ same part (mem_all part),
    course₁.names.trans (left.names.trans course₂.names.symm)⟩

/-- A grammar that has been built stands where the build makes it, and not inside of itself. -/
theorem made_of_collect {g : Grammar (Value Code)}
    (h : setting.collect description store = (.ok g, after)) :
    g.place = setting.place.part "grammar" ∧ g.again = false := by
  have assembled : (Build.start (setting.assemble description) .collect { store }).1 = .ok g := by
    rw [← (setting.outcome_collect description store).1, h]
  have run : Yields .collect (setting.assemble description) { store } g _ :=
    Prod.ext assembled rfl
  obtain ⟨-, -, -, made⟩ := (yields_assemble_iff_traverses g).1 run
  exact made

/-- What a build comes to for extras that are given as an array, and what it reports of them. -/
theorem Course.extras {start finish journal : Journal Code}
    (course : setting.Course description store fields start finish after)
    (begins : setting.Begins .collect description { store } .extras journal) {v : Value Code}
    {items : List (Value Code)}
    (subject : Yields .collect
      (setting.subject (Description.given description journal.store) .extras) journal v between)
    (array : v.array? = some items) :
    (∃ list : Items (Value Code), fields .extras = .list list ∧
      list.toList = (items.filterMap Extras.rule?).map .rule) ∧
    ∃ raised, between.problems = journal.problems ++ raised ∧ after.problemsIn .extras =
      raised ++ items.flatMap (Extras.problems setting.extraReferences after.names) := by
  obtain ⟨before, left, rfl, first, visit, last⟩ := course.exists_visit begins
  rw [before.store_begun] at subject
  obtain ⟨list, eq, kept, rfl⟩ := of_yields_extras subject array visit.gone
  have found : setting.Finds description store (Description.given description before.store)
      (before.begun fields .extras).store := by
    rw [before.store_begun]
    exact ⟨(first.reaches course.reaches).1, rfl⟩
  have reached := (reaches_of_yields_goThrough visit.gone found).1
  have names : between.names = after.names :=
    course.names ▸ (last.names_eq reached (by decide)).symm
  obtain ⟨lines, within, adds⟩ :=
    subject.exists_adds (madeOf_subject .extras setting.permits_within)
  have checked := between.adds_reporting
    (items.flatMap (Extras.problems setting.extraReferences between.names)) "" []
  rw [Journal.declaring_nil] at checked
  refine ⟨⟨list, eq, kept⟩, lines.filterMap Entry.problem?, adds.problems, ?_⟩
  rw [visit.problems _ (List.forall_mem_append.2 ⟨within, Entry.isWithin_reported _⟩)
    (adds.trans checked), List.filterMap_append, Entry.filterMap_reported, names]

/-- Builds at the same place under two policies that collect all problems come to the same grammar
and declare the same names, and outside of the extras they report the same problems. -/
theorem agree_underPolicy {references others : Bool} {g₁ g₂ : Grammar (Value Code)}
    (collected₁ : (setting.underPolicy references).collect description store = (.ok g₁, after₁))
    (collected₂ : (setting.underPolicy others).collect description store = (.ok g₂, after₂)) :
    g₁ = g₂ ∧ after₁.names = after₂.names ∧
      (∀ part ≠ .extras, after₁.problemsIn part = after₂.problemsIn part) ∧
      ∃ outside, after₁.problems = outside ++ Section.all.flatMap after₁.problemsIn ∧
        after₂.problems = outside ++ Section.all.flatMap after₂.problemsIn := by
  obtain ⟨start₁, finish₁, course₁⟩ := exists_course collected₁
  obtain ⟨start₂, finish₂, course₂⟩ := exists_course collected₂
  obtain ⟨fields, names⟩ := course₁.eq_underPolicy course₂
  obtain ⟨place₁, again₁⟩ := made_of_collect collected₁
  obtain ⟨place₂, again₂⟩ := made_of_collect collected₂
  refine ⟨Grammar.eq_of_fields fields (place₁.trans place₂.symm) (again₁.trans again₂.symm), names,
    fun part other ↦ course₁.problemsIn_underPolicy course₂ other, start₁.problems,
    course₁.problems_eq, ?_⟩
  obtain ⟨-, rfl⟩ := course₁.begins.unique course₂.begins
  exact course₂.problems_eq

private theorem reaches_of_underPolicy {references : Bool} {later : Store Code}
    (reached : (setting.underPolicy references).Reaches description store later) :
    setting.Reaches description store later := by
  induction reached with
  | start => exact .start
  | call place offered _ gives _ earlier now => exact .call place offered earlier gives now
  | copy part has _ ih => exact .copy part has ih

/-- Whether a build is repeated does not depend on the policy. -/
theorem Repeats.underPolicy {ρ : Relocation Code} {first second : Setting Code}
    (h : first.Repeats ρ second description store) (references : Bool) :
    (first.underPolicy references).Repeats ρ second description store where
  place := h.place
  base := h.base
  inherited := h.inherited
  given := h.given
  found := h.found
  calls earlier f reached gives place offered later now :=
    h.calls earlier f (reaches_of_underPolicy reached) gives place offered later
      (reaches_of_underPolicy now)

end Setting

/-- A symbol is reported under exactly one of the two policies, unless its name is missing and
nevertheless declared. -/
theorem Extras.length_problems_symbol {names : Namespace Code} {raw name : Value Code}
    (symbol : raw.toRule = .ok (.symbol name)) (named : name = .missing → names.has name = false) :
    (problems false names raw).length + (problems true names raw).length = 1 := by
  have mentions : Value.distinct (Rule.symbol name).mentions = [name] := by
    simp [Rule.mentions, Value.distinct, Value.isIn]
  have found : (names.find? name).isSome = names.has name := names.isSome_find? name
  unfold problems
  simp only [symbol, mentions, Rule.referencedName?, Option.bind_some, if_true, Bool.false_eq_true,
    if_false]
  by_cases missing : name = .missing
  · simp [missing ▸ named missing, missing, Value.toOption]
  · have given : name.toOption = some name := by
      cases name <;> first | rfl | exact absurd rfl missing
    cases entry : names.find? name with
    | none => simp [given, entry, ← found]
    | some first => simp [given, entry, ← found]

/-- The policy on extras only changes what is reported of the extras. If builds under any two
policies that collect all problems return, they come to the same grammar and declare the same names,
and outside of the extras they report the same problems; the builds take place at different places,
so what is new in the one comes again in the other. Extras that are given as an array come to the
rules that its items stand for, in order. What is reported of them is, item by item: that the item
stands for no rule; or else, by default, that it is a symbol or an alias of a declared name, and if
extras may refer to rules, each name that it refers to and that is not declared. So a symbol is
reported under exactly one of the policies, unless its name is missing and nevertheless declared. -/
theorem Setting.policies_agree :
    (∀ (ρ : Relocation Code) (first second : Setting Code) (description : Value Code)
      (store : Store Code) (g₁ g₂ : Grammar (Value Code)) (after₁ after₂ : Journal Code),
      first.Repeats ρ second description store →
      first.collect description store = (.ok g₁, after₁) →
      second.collect description store = (.ok g₂, after₂) →
      (Value.grammar g₁).Reappears ρ (.grammar g₂) ∧
        Namespace.Reappears ρ after₁.names after₂.names ∧
        (∀ part ≠ .extras,
          Problem.ReappearAll ρ (after₁.problemsIn part) (after₂.problemsIn part)) ∧
        ∃ outside again, Problem.ReappearAll ρ outside again ∧
          after₁.problems = outside ++ Section.all.flatMap after₁.problemsIn ∧
          after₂.problems = again ++ Section.all.flatMap after₂.problemsIn) ∧
    (∀ (setting : Setting Code) (description : Value Code) (store : Store Code)
      (g : Grammar (Value Code)) (after : Journal Code),
      setting.collect description store = (.ok g, after) →
      ∀ before between v items, setting.Begins .collect description { store } .extras before →
        Yields .collect (setting.subject (Description.given description before.store) .extras)
          before v between →
        v.array? = some items →
        g.extras.toList = (items.filterMap Extras.rule?).map .rule ∧
        ∃ raised, between.problems = before.problems ++ raised ∧ after.problemsIn .extras =
          raised ++ items.flatMap (Extras.problems setting.extraReferences after.names)) ∧
    ∀ (names : Namespace Code) (raw name : Value Code), raw.toRule = .ok (.symbol name) →
      (name = .missing → names.has name = false) →
      (Extras.problems false names raw).length + (Extras.problems true names raw).length = 1 := by
  refine ⟨fun ρ first second description store g₁ g₂ after₁ after₂ repeats collected₁ collected₂ ↦
      ?_, fun setting description store g after collected before between v items begins subject
      array ↦ ?_, fun names raw name ↦ Extras.length_problems_symbol⟩
  · obtain ⟨g, after, collected, rfl, rfl⟩ :=
      (repeats.underPolicy second.extraReferences).exists_collect rfl collected₂
    change (first.underPolicy first.extraReferences).collect description store = _ at collected₁
    obtain ⟨rfl, names, same, outside, problems₁, problems₂⟩ :=
      agree_underPolicy collected₁ collected
    refine ⟨?_, names ▸ Namespace.reappears_map_moved ρ _, fun part other ↦ ?_, outside, _,
      Problem.reappearAll_map_moved ρ outside, problems₁, ?_⟩
    · have again := (Value.grammar g₁).reappears_moved ρ
      rwa [Value.moved] at again
    · rw [same part other, Journal.problemsIn_moved]
      exact Problem.reappearAll_map_moved ρ _
    · exact Journal.problems_moved ρ problems₂
  · obtain ⟨start, finish, course⟩ := exists_course collected
    obtain ⟨⟨list, eq, kept⟩, reported⟩ := course.extras begins subject array
    obtain rfl := Value.list.inj (eq : Value.list g.extras = .list list)
    exact ⟨kept, reported⟩

namespace Setting

/-- Extras that are a symbol of a declared name, a symbol of another name and a number come to the
two symbols under both policies. By default the first symbol is reported, and otherwise the second
one; the number is reported in any case. The rule has the builder in it, which is another one in the
second build. -/
theorem policies_agree_symbols :
    let list (title : String) (items : List (Value Response)) : Value Response :=
      .list ⟨(Place.step 0).part title, items, false⟩
    let a : Value Response := .symbol (.string "a")
    let b : Value Response := .symbol (.string "b")
    let first : Setting Response := Response.setting 1 .missing
    let second : Setting Response := (Response.setting 2 .missing).underPolicy true
    let description : Value Response := .mapping ⟨.step 0,
      [(.string "externals", list "externals" [a]),
        (.string "rules", .mapping ⟨(Place.step 0).part "rules",
          [(.string "r", Response.function .field "r")], false⟩),
        (.string "extras", list "extras" [a, b, .int 5])], false⟩
    ∃ g₁ g₂ after₁ after₂, first.collect description {} = (.ok g₁, after₁) ∧
      second.collect description {} = (.ok g₂, after₂) ∧
      (Value.grammar g₁).Reappears Response.exchange (.grammar g₂) ∧
      g₁.extras.toList = [a, b] ∧
      after₁.problemsIn .extras = [a, b, .int 5].flatMap (Extras.problems false after₁.names) ∧
      (after₁.problemsIn .extras).map Problem.kind = [.duplicateName, .invalidRule] ∧
      g₂.extras.toList = [a, b] ∧
      after₂.problemsIn .extras = [a, b, .int 5].flatMap (Extras.problems true after₂.names) ∧
      (after₂.problemsIn .extras).map Problem.kind = [.undeclaredReference, .invalidRule] := by
  intro list a b first second description
  have returns₁ : (first.collect description {}).1.toOption.any (fun _ ↦ true) = true := by
    decide +kernel
  have returns₂ : (second.collect description {}).1.toOption.any (fun _ ↦ true) = true := by
    decide +kernel
  obtain ⟨g₁, collected₁, -⟩ := Build.exists_eq_ok_of_any returns₁
  obtain ⟨g₂, collected₂, -⟩ := Build.exists_eq_ok_of_any returns₂
  obtain ⟨same, given, -⟩ := @policies_agree Response
  have repeats : first.Repeats Response.exchange second description {} :=
    .of_moves rfl rfl rfl rfl rfl Response.moves_run
  obtain ⟨again, -⟩ := same _ _ _ _ _ _ _ _ _ repeats collected₁ collected₂
  -- The extras are no function, so they are checked as they are given.
  have extras (setting : Setting Response) (run : setting.run = Response.run)
      (base : setting.base = .missing) (g : Grammar (Value Response)) (after : Journal Response)
      (collected : setting.collect description {} = (.ok g, after)) :
      g.extras.toList = [a, b] ∧ after.problemsIn .extras =
        [a, b, .int 5].flatMap (Extras.problems setting.extraReferences after.names) := by
    obtain ⟨start, finish, course⟩ := exists_course collected
    obtain ⟨journal, begins⟩ := course.exists_begins .extras
    have unchanged := eq_empty_of_reaches (run ▸ Response.store_run) begins.reaches
    have entry : Description.get (Description.given description {}) .extras =
        list "extras" [a, b, .int 5] := by
      have entries (part : Section) : Description.get (Description.given description {}) part =
        (Table.find? (description.object?.getD []) (.string part.title)).getD .missing := rfl
      simp [entries, description, Value.object?, Section.title]
    have anew : setting.hasBase = false := by
      rw [hasBase, base]
    have subject : Yields .collect (setting.subject (Description.given description journal.store)
        .extras) journal (list "extras" [a, b, .int 5]) journal := by
      have passed : Yields .collect (setting.passed .extras) journal (setting.offeredAnew .extras)
          journal := by
        unfold Setting.passed inherited offered
        simp only [anew]
        exact rfl
      refine (Build.yields_bind _ _ _).2 ⟨_, _, passed, ?_⟩
      rw [unchanged, entry, evaluate_idle fun f callable ↦ by cases callable]
      refine (Build.yields_bind _ _ _).2 ⟨_, _, (Build.yields_pure _ _).2 ⟨rfl, rfl⟩, ?_⟩
      exact (Build.yields_present _ _).2 ⟨by rw [unchanged]; rfl, rfl⟩
    obtain ⟨kept, raised, nothing, problems⟩ := given setting description {} g after collected
      journal journal _ _ begins subject rfl
    obtain rfl := List.self_eq_append_right.1 nothing
    exact ⟨kept, problems⟩
  obtain ⟨kept₁, problems₁⟩ := extras first rfl rfl _ _ collected₁
  obtain ⟨kept₂, problems₂⟩ := extras second rfl rfl _ _ collected₂
  exact ⟨g₁, g₂, _, _, collected₁, collected₂, again, kept₁, problems₁, by decide +kernel, kept₂,
    problems₂, by decide +kernel⟩

/-- If a base declares an external whose name is missing, an extra of that name is reported under
neither of the policies. And if a rule has the builder in it, the grammars of builds under the two
policies are not equal, since the builds have different builders. -/
theorem exists_declared_unreported :
    let list (title : String) (items : List (Value Response)) : Items (Value Response) :=
      ⟨(Place.step 0).part title, items, false⟩
    let base : Grammar (Value Response) := { Grammar.single (.step 0) with
      externals := list "externals" [.symbol .missing] }
    let first (base : Value Response) : Setting Response := Response.setting 1 base
    let second (base : Value Response) : Setting Response :=
      (Response.setting 2 base).underPolicy true
    let description (title : String) (v : Value Response) : Value Response :=
      .mapping ⟨.step 0, [(.string title, v)], false⟩
    let extras := description "extras" (.list (list "given" [.symbol .missing]))
    let rules := description "rules" (.mapping ⟨(Place.step 0).part "rules",
      [(.string "a", Response.function .field "a")], false⟩)
    (∃ g₁ g₂ after₁ after₂, (first (.grammar base)).collect extras {} = (.ok g₁, after₁) ∧
      (second (.grammar base)).collect extras {} = (.ok g₂, after₂) ∧
      g₁.extras.toList.length = 1 ∧ g₂.extras.toList.length = 1 ∧
      after₁.names.has .missing = true ∧ after₁.problems = [] ∧ after₂.problems = []) ∧
    ∃ g₁ g₂ after₁ after₂, (first .missing).collect rules {} = (.ok g₁, after₁) ∧
      (second .missing).collect rules {} = (.ok g₂, after₂) ∧
      (Value.grammar g₁).compare (.grammar g₂) = some false := by
  intro list base first second description extras rules
  constructor
  · have one₁ : ((first (.grammar base)).collect extras {}).1.toOption.any
        (fun g ↦ g.extras.toList.length == 1) = true := by decide +kernel
    have one₂ : ((second (.grammar base)).collect extras {}).1.toOption.any
        (fun g ↦ g.extras.toList.length == 1) = true := by decide +kernel
    obtain ⟨g₁, collected₁, kept₁⟩ := Build.exists_eq_ok_of_any one₁
    obtain ⟨g₂, collected₂, kept₂⟩ := Build.exists_eq_ok_of_any one₂
    exact ⟨g₁, g₂, _, _, collected₁, collected₂, beq_iff_eq.1 kept₁, beq_iff_eq.1 kept₂,
      by decide +kernel, List.isEmpty_iff.1 (by decide +kernel),
      List.isEmpty_iff.1 (by decide +kernel)⟩
  · have differ : ((first .missing).collect rules {}).1.toOption.any (fun g₁ ↦
        ((second .missing).collect rules {}).1.toOption.any fun g₂ ↦
          (Value.grammar g₁).compare (.grammar g₂) == some false) = true := by
      decide +kernel
    obtain ⟨g₁, collected₁, differ⟩ := Build.exists_eq_ok_of_any differ
    obtain ⟨g₂, collected₂, differ⟩ := Build.exists_eq_ok_of_any differ
    exact ⟨g₁, g₂, _, _, collected₁, collected₂, beq_iff_eq.1 differ⟩

end Setting

end GrammarDoc
