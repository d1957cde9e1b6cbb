import GrammarDoc.Build.Checks
import GrammarDoc.Proofs.Relocation.Stores

/-!
# Moved journals

The problems that are found in one build are found in the other, each with what it is about moved
to there. They are of the same kind and have the same message. So the lines of a moved journal say
what those of the journal say.
-/

namespace GrammarDoc

variable {Code : Type} {α β : Type} (ρ : Relocation Code)

/-- A cause with all places in it moved. -/
def Cause.moved : Cause Code → Cause Code
  | noRule caller => noRule caller
  | severalRules caller => severalRules caller
  | noPrecedence caller => noPrecedence caller
  | notAPrecedence caller v => notAPrecedence caller (v.moved ρ)
  | undefined => undefined
  | notANamedRule f => notANamedRule (Value.movedCallable ρ f)
  | notARule v => notARule (v.moved ρ)
  | incompleteRule tag key node => incompleteRule tag key (node.moved ρ)
  | notAnAliasTarget target => notAnAliasTarget (target.moved ρ)
  | malformedName context name => malformedName context (name.moved ρ)
  | undeclared context name => undeclared context (name.moved ρ)
  | declaredTwice context name first => declaredTwice context (name.moved ρ) first
  | misnamedExternal key symbol raw =>
    misnamedExternal (key.moved ρ) (symbol.moved ρ) (raw.moved ρ)
  | notAnArray context v => notAnArray context (v.moved ρ)
  | notAnObject context v => notAnObject context (v.moved ρ)
  | notADescription v => notADescription (v.moved ρ)
  | unknownSection key => unknownSection (key.moved ρ)
  | notARuleFunction name v => notARuleFunction (name.moved ρ) (v.moved ρ)
  | noRules rules => noRules (rules.moved ρ)
  | conflictNotAnArray conflict => conflictNotAnArray (conflict.moved ρ)
  | shortConflict names conflict =>
    shortConflict (names.map (Value.moved ρ)) (conflict.moved ρ)
  | aliasedSupertype entry => aliasedSupertype (entry.moved ρ)
  | precedenceGroupNotAnArray index group => precedenceGroupNotAnArray index (group.moved ρ)
  | notAPrecedenceEntry group entry r raw =>
    notAPrecedenceEntry group entry (Value.movedRule ρ r) (raw.moved ρ)
  | raised kind message v => raised kind message (v.moved ρ)

/-- A problem with all places in it moved. -/
def Problem.moved (p : Problem Code) : Problem Code where
  cause := p.cause.moved ρ
  within := p.within

/-- A failure with all places in it moved. -/
def Failure.moved : Failure Code → Failure Code
  | .problem p => .problem (p.moved ρ)
  | .fault f => .fault f

/-- An outcome with all places in it moved, given how to move a result. -/
def Outcome.moved (f : α → β) : Outcome Code α → Outcome Code β
  | .ok a => .ok (f a)
  | .error failure => .error (failure.moved ρ)

/-- A line with all places in it moved. -/
def Entry.moved : Entry Code → Entry Code
  | .began part grammar => .began part (grammar.map (Value.moved ρ))
  | .reported p => .reported (p.moved ρ)
  | .summary text => .summary text

/-- A journal with all places in it moved. -/
def Journal.moved (journal : Journal Code) : Journal Code where
  names := journal.names.map (Prod.map (Value.moved ρ) id)
  problems := journal.problems.map (Problem.moved ρ)
  entries := journal.entries.map (Entry.moved ρ)
  store := journal.store.moved ρ

namespace Cause

private theorem writtenItems_map_moved (items : List (Value Code)) :
    Value.writtenItems (items.map (Value.moved ρ)) = Value.writtenItems items := by
  induction items with
  | nil => rfl
  | cons v rest ih =>
    rw [List.map_cons, Value.writtenItems, Value.writtenItems, Value.written_moved, ih]

/-- A moved cause is of the same kind. -/
@[simp] theorem kind_moved (cause : Cause Code) : (cause.moved ρ).kind = cause.kind := by
  cases cause <;> rfl

/-- A moved cause has the same message. -/
@[simp] theorem message_moved (cause : Cause Code) : (cause.moved ρ).message = cause.message := by
  cases cause with
  | noRule | severalRules | noPrecedence | undefined | incompleteRule | notAnArray | notAnObject
  | notADescription | noRules | precedenceGroupNotAnArray | raised => rfl
  | notAPrecedence | notARule | notAnAliasTarget | conflictNotAnArray | aliasedSupertype
  | malformedName | undeclared | declaredTwice | unknownSection | misnamedExternal
  | notARuleFunction | notANamedRule | shortConflict | notAPrecedenceEntry =>
    delta message
    simp only [moved, Value.written_moved, Value.shown_moved, Value.movedCallable_name,
      Value.written_movedCallable, Value.writtenRule_moved, writtenItems_map_moved,
      List.length_map]

/-- The value that a moved cause is about is moved. -/
@[simp] theorem value_moved (cause : Cause Code) :
    (cause.moved ρ).value = cause.value.moved ρ := by
  cases cause <;> simp [moved, value, Value.moved]

end Cause

namespace Problem

variable (p : Problem Code)

/-- A moved problem is of the same kind. -/
@[simp] theorem kind_moved : (p.moved ρ).kind = p.kind := p.cause.kind_moved ρ

/-- A moved problem has the same message. -/
@[simp] theorem message_moved : (p.moved ρ).message = p.message := p.cause.message_moved ρ

/-- The value that a moved problem is about is moved. -/
@[simp] theorem value_moved : (p.moved ρ).value = p.value.moved ρ := p.cause.value_moved ρ

/-- A moved problem is attributed to the same section. -/
@[simp] theorem within_moved : (p.moved ρ).within = p.within := rfl

/-- A moved problem is attributed as the problem is. -/
@[simp] theorem attributedTo_moved (title : String) :
    (p.moved ρ).attributedTo title = (p.attributedTo title).moved ρ := rfl

/-- A moved problem has the same text. -/
@[simp] theorem text_moved : (p.moved ρ).text = p.text := by
  rw [text, text, message_moved, within_moved]

end Problem

/-- The report on moved problems is the same. -/
@[simp] theorem report_map_moved (problems : List (Problem Code)) :
    report (problems.map (Problem.moved ρ)) = report problems := by
  simp [report, joinedText, Function.comp_def]

/-- A moved line has the same text. -/
@[simp] theorem Entry.text_moved (entry : Entry Code) : (entry.moved ρ).text = entry.text := by
  delta text
  rcases entry with ⟨part, none | grammar⟩ | p | text
  · rfl
  · simp only [moved, Option.map_some, Value.shown_moved]
  · simp only [moved, Problem.message_moved, Problem.within_moved]
  · rfl

/-- The rule that a moved value stands for is moved. -/
theorem Value.toRule_moved (v : Value Code) :
    (v.moved ρ).toRule =
      match v.toRule with
      | .ok r => .ok (movedRule ρ r)
      | .error cause => .error (cause.moved ρ) := by
  cases v with
  | callable f =>
    obtain ⟨place, name, signature, body⟩ := f
    cases name with
    | none => simp [moved, movedCallable, toRule, Cause.moved]
    | some name =>
      by_cases valid : Text.isIdentifier name
      · simp [moved, movedCallable, toRule, valid, movedRule]
      · simp [moved, movedCallable, toRule, valid, Cause.moved]
  | missing | bool | int | double | string | list | tuple | mapping | pattern | builder | rule
  | grammar | references => simp [moved, toRule, movedRule, Cause.moved]

end GrammarDoc
