import GrammarDoc.Proofs.Collecting
import GrammarDoc.Proofs.Consistency
import GrammarDoc.Proofs.Copies

/-!
# Guards before a handler

However many guards stand before a handler, it is called exactly if each of them lets the value
through, and then it alone decides what comes of it. Otherwise the outermost guard that stops the
value does: there is a copy of its fallback, and its problem with the value if it has one, whatever
guards and whichever handler stand behind it.
-/

namespace GrammarDoc

variable {Code α : Type}

/-- Which values have a shape: lists and tuples are arrays, mappings are objects, and all values
are present but the one that is missing. -/
def Shape.LetsThrough : Shape → Value Code → Prop
  | array _, v => (∃ items, v = .list items) ∨ ∃ items, v = .tuple items
  | object _, v => ∃ entries, v = .mapping entries
  | present, v => v ≠ .missing

/-- What is reported about a value that has not a shape: one problem with it in the context of the
shape, but nothing if it is missing and may be. -/
def Shape.Blames : Shape → Value Code → List (Problem Code) → Prop
  | array context, v, reported | object context, v, reported =>
    ∃ p, reported = [p] ∧ p.kind = .structuralShape ∧ p.within = some context ∧ p.value = v
  | present, _, reported => reported = []

/-- A value is admitted if it has the shape. -/
theorem Shape.admits_iff (shape : Shape) (v : Value Code) :
    shape.admits v = true ↔ shape.LetsThrough v := by
  cases shape with
  | array | object => cases v <;> simp [admits, LetsThrough, Value.array?, Value.object?]
  | present => cases v <;> simp [admits, LetsThrough]

/-- The problem with a value is what it is blamed for. -/
theorem Shape.blames_problem? (shape : Shape) (v : Value Code) :
    shape.Blames v (shape.problem? v).toList := by
  cases shape with
  | array | object => exact ⟨_, rfl, rfl, rfl, rfl⟩
  | present => rfl

namespace Guard

/-- Whether a guard is the outermost of some that stops a value. -/
def IsOutermost (guards : List (Guard α)) (v : Value Code) (guard : Guard α) : Prop :=
  ∃ outer inner, guards = outer ++ guard :: inner ∧
    (∀ other ∈ outer, other.shape.LetsThrough v) ∧ ¬guard.shape.LetsThrough v

variable {guards : List (Guard α)} {v : Value Code}

private theorem stopping?_eq_none_iff :
    stopping? guards v = none ↔ ∀ guard ∈ guards, guard.shape.LetsThrough v := by
  simp [stopping?, ← Shape.admits_iff]

/-- The guard that stops a value is the outermost that does. -/
theorem stopping?_eq_some_iff {guard : Guard α} :
    stopping? guards v = some guard ↔ IsOutermost guards v guard := by
  simp only [stopping?, IsOutermost, List.find?_eq_some_iff_append, ← Shape.admits_iff,
    Bool.not_not, Bool.not_eq_true]
  constructor
  · rintro ⟨stops, outer, inner, rfl, through⟩
    exact ⟨outer, inner, rfl, through, by simpa using stops⟩
  · rintro ⟨outer, inner, rfl, through, stops⟩
    exact ⟨by simpa using stops, outer, inner, rfl, through⟩

/-- Either all guards let a value through or there is an outermost one that does not. -/
theorem all_or_exists_isOutermost (guards : List (Guard α)) (v : Value Code) :
    (∀ guard ∈ guards, guard.shape.LetsThrough v) ∨ ∃ guard, IsOutermost guards v guard := by
  cases stopping : stopping? guards v with
  | none => exact .inl (stopping?_eq_none_iff.1 stopping)
  | some guard => exact .inr ⟨guard, stopping?_eq_some_iff.1 stopping⟩

/-- The outermost guard that stops a value leaves a copy of its fallback and its problem with the
value. -/
theorem IsOutermost.start_guarded {guard : Guard α} (outermost : IsOutermost guards v guard)
    (copy : α → Build Code α) (handler : Value Code → Build Code α) (journal : Journal Code) :
    Build.start (guarded copy guards handler v) .collect journal =
      Build.start (copy guard.fallback) .collect
        (journal.reporting (guard.shape.problem? v).toList) := by
  have stops : ¬guard.shape.admits v = true := by
    obtain ⟨_, _, -, -, stops⟩ := outermost
    rwa [Shape.admits_iff]
  rw [Validation.guarded_eq, stopping?_eq_some_iff.2 outermost]
  simp only [Guard.before, if_neg stops]
  cases guard.shape.problem? v with
  | none => rw [Option.toList_none, Journal.reporting_nil]
  | some p => rw [Build.start_bind, Build.start_report_collect]; rfl

/-- Every handler is called with the value exactly if all guards let it through. -/
theorem forall_guarded_eq_iff (copy : α → Build Code α) :
    (∀ handler : Value Code → Build Code α, guarded copy guards handler v = handler v) ↔
      ∀ guard ∈ guards, guard.shape.LetsThrough v := by
  refine ⟨fun called ↦ ?_, fun through handler ↦ ?_⟩
  · refine (all_or_exists_isOutermost guards v).resolve_right ?_
    rintro ⟨guard, outermost⟩
    -- What comes of a value that is stopped would have to be two different failures.
    have first := outermost.start_guarded copy (fun _ ↦ throw (.fault .refused)) {}
    have second := outermost.start_guarded copy (fun _ ↦ throw (.fault .wrongType)) {}
    rw [called, Build.start_throw] at first second
    cases congrArg Prod.fst (first.trans second.symm)
  · refine Build.guarded_of_admits handler fun guard stands ↦ ?_
    exact (guard.shape.admits_iff v).2 (through guard stands)

end Guard

/-! ### Copies of fallbacks -/

namespace Value

/-- Whether a value equals a copy of its outermost layer. A callable object, a builder, references
and a bare node equal themselves only; a function is its own copy. -/
def EqualsItsCopy : Value Code → Prop
  | callable f => f.name ≠ none
  | builder _ | references _ | rule (.bare _) => False
  | _ => True

/-- A copy of the outermost layer of a value equals the value, unless that equals itself only. What
is in it is the same in both, so it equals itself in any case. -/
theorem compare_outerCopied {above : List Place} (place : Place) {v : Value Code}
    (genuine : v.Genuine false above) (equals : v.EqualsItsCopy) :
    (v.outerCopied place).compare v = some true := by
  cases v with
  | list items =>
    obtain ⟨other, items, again⟩ := items
    rw [Genuine, GenuineList] at genuine
    obtain ⟨rfl, items⟩ := genuine
    rw [outerCopied, compare]
    exact compareLists_anew place ⟨rfl, items⟩
  | mapping entries =>
    obtain ⟨other, entries, again⟩ := entries
    rw [Genuine, GenuineMapping] at genuine
    obtain ⟨rfl, entries⟩ := genuine
    rw [outerCopied, compare]
    exact compareMappings_anew place ⟨rfl, entries⟩
  | grammar g =>
    obtain ⟨other, name, rules, extras, externals, inline, conflicts, word, supertypes, precedences,
      again⟩ := g
    rw [Genuine] at genuine
    have same := compareGrammars_self _ genuine
    rw [GenuineGrammar] at genuine
    obtain ⟨rfl, -⟩ := genuine
    rw [outerCopied, compare]
    simpa [compareGrammars] using same
  | rule r =>
    cases r with
    | bare => simp [EqualsItsCopy] at equals
    | _ => exact compare_self _ genuine
  | callable f =>
    cases named : f.name with
    | none => simp [EqualsItsCopy, named] at equals
    | some name => simpa [outerCopied, named] using compare_self _ genuine
  | builder | references => exact absurd equals id
  | missing | bool | int | double | string | tuple | pattern => exact Value.compare_self _ genuine

/-- A copy of the outermost layer of a value is written as the value is, since nothing that is
written tells where a value was made. -/
theorem written_outerCopied (place : Place) (v : Value Code) :
    (v.outerCopied place).written = v.written := by
  cases v with
  | list items =>
    obtain ⟨_, items, _⟩ := items
    simp [outerCopied, written, writtenList]
  | mapping entries =>
    obtain ⟨_, entries, _⟩ := entries
    simp [outerCopied, written, writtenMapping]
  | grammar g =>
    obtain ⟨_, name, rules, extras, externals, inline, conflicts, word, supertypes, precedences,
      _⟩ := g
    simp [outerCopied, written, writtenGrammar]
  | rule r => cases r <;> simp [outerCopied, written, writtenRule]
  | callable f => cases named : f.name <;> simp [outerCopied, named, written, Callable.written]
  | missing | bool | int | double | string | tuple | pattern | builder | references =>
    simp [outerCopied, written]

end Value

/-- A value that may be missing behind a guard for arrays only is not let through there: the result
is a copy of the fallback of that guard. -/
example (place : Place) (handler : Value Code → Build Code (Value Code)) :
    (Build.start (guarded (Build.copied place)
      [⟨.array "extras", .list ⟨.step 0, [.int 1], false⟩⟩, ⟨.present, .int 2⟩] handler .missing)
      .collect {}).1 = .ok (.list ⟨place, [.int 1], false⟩) := rfl

end GrammarDoc
