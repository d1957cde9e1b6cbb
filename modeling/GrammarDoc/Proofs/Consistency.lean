import GrammarDoc.Build.Guard
import GrammarDoc.Proofs.Build.Results
import GrammarDoc.Rule.Symbols

/-!
# Consistency of names and problems

Checks are carried out one after another on one journal, which the first problem does not end: the
next check goes on from where the one before it has left off. However checks of all sorts are mixed,
names and problems are only ever added at the end, one problem for each check that complains. If
each problem is raised instead, the same checks raise the same problems, and the names come out the
same.
-/

namespace GrammarDoc

variable {Code : Type}

/-! ### Validations -/

/-- A single check, or whatever else may be done with names and problems, with what it is given. -/
inductive Validation (Code : Type) where
  | validName (context : String) (within : Option String) (name : Value Code)
  | declared (context : String) (within : Option String) (name : Value Code)
  | notDeclared (context : String) (within : Option String) (name : Value Code)
  | declare (name : Value Code) (tag : String) (within : Option String)
  | normalize (context : String) (raw : Value Code)
  /-- Passes a value through guards, the outermost first, to a handler that may look at the names
  declared. -/
  | guarded (guards : List (Guard (Value Code)))
      (handler : Namespace Code → Value Code → Value Code) (v : Value Code)
  /-- Adds the names that a rule refers to to those found before. -/
  | symbols (found : List (Value Code)) (r : Rule (Value Code))
  | report (p : Problem Code)

namespace Validation

/-- What a validation results in. -/
inductive Result (Code : Type) where
  | holds (b : Bool)
  | rule (r : Option (Rule (Value Code)))
  | value (v : Value Code)
  | names (found : List (Value Code))
  | nothing

/-- Carries out a validation. -/
def perform : Validation Code → Build Code (Result Code)
  | validName context within name => return .holds (← Build.requireValidName context within name)
  | declared context within name => return .holds (← Build.requireDeclared context within name)
  | notDeclared context within name =>
    return .holds (← Build.requireNotDeclared context within name)
  | declare name tag within => return .holds (← Build.declare name tag within)
  | normalize context raw => return .rule (← Build.normalize context raw)
  | guarded guards handler v =>
    return .value (← GrammarDoc.guarded pure guards (fun v ↦ return handler (← get).names v) v)
  | symbols found r => return .names (r.addSymbols found)
  | report p => do
    Build.report p
    return .nothing

/-- Whether the names that a validation looks up can be looked up. -/
def CanLookUp : Validation Code → Prop
  | declared _ _ name | notDeclared _ _ name | declare name _ _ => name.canBeKey = true
  | validName _ _ _ | normalize _ _ | guarded _ _ _ | symbols _ _ | report _ => True

/-! ### What a validation finds -/

/-- What a step comes to: its result, the names it declares and the problem it reports, with which
it ends. -/
structure Finding (Code α : Type) where
  result : α
  names : Namespace Code := []
  problem? : Option (Problem Code) := none

end Validation

/-- The first of some guards that does not let a value through. -/
def Guard.stopping? {α : Type} (guards : List (Guard α)) (v : Value Code) : Option (Guard α) :=
  guards.find? fun guard ↦ !guard.shape.admits v

namespace Validation

namespace Finding

variable {α : Type}

/-- The finding of a check, which holds unless there is a problem. -/
def ofProblem (problem? : Option (Problem Code)) : Finding Code Bool :=
  { result := problem?.isNone, problem? }

/-- The finding of a declaration among the names declared before. -/
def ofDeclaration (names : Namespace Code) (name : Value Code) (tag : String)
    (within : Option String) : Finding Code Bool :=
  match names.find? name with
  | none => { result := true, names := [(name, tag)] }
  | some first => .ofProblem (some ⟨.declaredTwice tag name first, attribution tag within⟩)

/-- The finding about what a value stands for. -/
def ofRaw (context : String) (raw : Value Code) : Finding Code (Option (Rule (Value Code))) :=
  match raw.toRule with
  | .ok r => { result := some r }
  | .error cause => { result := none, problem? := some ⟨cause, some context⟩ }

/-- The finding of guards, which goes by the first that stops a value. -/
def ofGuards (guards : List (Guard α)) (v : Value Code) (handled : α) : Finding Code α :=
  match Guard.stopping? guards v with
  | none => { result := handled }
  | some guard => { result := guard.fallback, problem? := guard.shape.problem? v }

/-- The same finding with another result. -/
def map {β : Type} (f : α → β) (finding : Finding Code α) : Finding Code β :=
  { finding with result := f finding.result }

/-- The outcome of a finding under a posture. -/
def outcome (finding : Finding Code α) : Posture → Outcome Code α
  | .collect => .ok finding.result
  | .failFast =>
    match finding.problem? with
    | none => .ok finding.result
    | some p => .error (.problem p)

/-- A journal after a finding. Only problems that are collected are kept. -/
def after (finding : Finding Code α) (posture : Posture) (journal : Journal Code) : Journal Code :=
  { journal with
    names := journal.names ++ finding.names
    problems :=
      match posture with
      | .collect => journal.problems ++ finding.problem?.toList
      | .failFast => journal.problems
    entries := journal.entries ++ finding.problem?.toList.map .reported }

end Finding

/-- What a validation finds when certain names are declared. -/
def finding (names : Namespace Code) : Validation Code → Finding Code (Result Code)
  | validName context within name => .map .holds <| .ofProblem <|
    if name.isValidName then none
    else some ⟨.malformedName context name, attribution context within⟩
  | declared context within name => .map .holds <| .ofProblem <|
    if (names.find? name).isSome then none
    else some ⟨.undeclared context name, attribution context within⟩
  | notDeclared context within name => .map .holds <| .ofProblem <|
    (names.find? name).map fun first ↦
      ⟨.declaredTwice context name first, attribution context within⟩
  | declare name tag within => .map .holds (.ofDeclaration names name tag within)
  | normalize context raw => .map .rule (.ofRaw context raw)
  | guarded guards handler v => .map .value (.ofGuards guards v (handler names v))
  | symbols found r => { result := .names (r.addSymbols found) }
  | report p => { result := .nothing, problem? := some p }

/-- A step comes to a finding if under a posture it has the outcome and leaves the journal of the
finding. -/
def Comes {α : Type} (posture : Posture) (step : Build Code α) (journal : Journal Code)
    (finding : Finding Code α) : Prop :=
  Build.start step posture journal = (finding.outcome posture, finding.after posture journal)

variable {α β : Type} {posture : Posture} {journal : Journal Code}

private theorem comes_pure (a : α) : Comes posture (pure a) journal { result := a } := by
  cases posture <;> simp [Comes, Finding.outcome, Finding.after]

private theorem Comes.map {step : Build Code α} {finding : Finding Code α}
    (h : Comes posture step journal finding) (f : α → β) :
    Comes posture (do return f (← step)) journal (finding.map f) := by
  unfold Comes at h ⊢
  rw [Build.start_bind, h]
  cases posture with
  | collect => rfl
  | failFast => cases found : finding.problem? <;> simp [Finding.outcome, Finding.map, found,
      Finding.after]

private theorem comes_report (p : Problem Code) (a : α) :
    Comes posture (do Build.report p; return a) journal { result := a, problem? := some p } := by
  unfold Comes
  rw [Build.start_bind]
  cases posture with
  | collect => simp [Build.start_report_collect, Finding.outcome, Finding.after]
  | failFast => simp [Build.start_report_failFast, Finding.outcome, Finding.after]

private theorem comes_requireValidName (context : String) (within : Option String)
    (name : Value Code) :
    Comes posture (Build.requireValidName context within name) journal (.ofProblem <|
      if name.isValidName then none
      else some ⟨.malformedName context name, attribution context within⟩) := by
  unfold Build.requireValidName
  split
  · exact comes_pure true
  · exact comes_report _ false

private theorem start_lookup {name : Value Code} (h : name.canBeKey = true) :
    Build.start (Build.lookup name) posture journal =
      (.ok (journal.names.find? name), journal) := by
  rw [Build.lookup, if_pos h]
  rfl

private theorem comes_lookup {name : Value Code} (h : name.canBeKey = true)
    {next : Option String → Build Code α} {finding : Finding Code α}
    (rest : Comes posture (next (journal.names.find? name)) journal finding) :
    Comes posture (Build.lookup name >>= next) journal finding := by
  unfold Comes at rest ⊢
  rw [Build.start_bind, start_lookup h]
  exact rest

private theorem comes_requireDeclared {name : Value Code} (h : name.canBeKey = true)
    (context : String) (within : Option String) :
    Comes posture (Build.requireDeclared context within name) journal (.ofProblem <|
      if (journal.names.find? name).isSome then none
      else some ⟨.undeclared context name, attribution context within⟩) := by
  refine comes_lookup h ?_
  split
  · exact comes_pure true
  · exact comes_report _ false

private theorem comes_requireNotDeclared {name : Value Code} (h : name.canBeKey = true)
    (context : String) (within : Option String) :
    Comes posture (Build.requireNotDeclared context within name) journal (.ofProblem <|
      (journal.names.find? name).map fun first ↦
        ⟨.declaredTwice context name first, attribution context within⟩) := by
  refine comes_lookup h ?_
  cases journal.names.find? name with
  | none => exact comes_pure true
  | some first => exact comes_report _ false

private theorem comes_declare {name : Value Code} (h : name.canBeKey = true) (tag : String)
    (within : Option String) :
    Comes posture (Build.declare name tag within) journal
      (.ofDeclaration journal.names name tag within) := by
  have checked : Comes posture (Build.requireNotDeclared tag within name) journal _ :=
    comes_requireNotDeclared h tag within
  unfold Comes at checked ⊢
  rw [Build.declare, Build.start_bind, checked, Finding.ofDeclaration]
  cases journal.names.find? name with
  | none => cases posture <;> simp [Finding.ofProblem, Finding.outcome, Finding.after,
      Build.start_bind, - bind_pure_comp]
  | some first => cases posture <;> simp [Finding.ofProblem, Finding.outcome, Finding.after]

private theorem comes_normalize (context : String) (raw : Value Code) :
    Comes posture (Build.normalize context raw) journal (.ofRaw context raw) := by
  unfold Build.normalize Finding.ofRaw
  cases raw.toRule with
  | ok r => exact comes_pure (some r)
  | error cause => exact comes_report _ none

/-- Behind guards a value goes to the handler, unless there is a first guard that stops it. -/
theorem guarded_eq (copy : α → Build Code α) (guards : List (Guard α))
    (handler : Value Code → Build Code α) (v : Value Code) :
    GrammarDoc.guarded copy guards handler v =
      match Guard.stopping? guards v with
      | none => handler v
      | some guard => guard.before copy handler v := by
  induction guards with
  | nil => rfl
  | cons guard rest ih =>
    have outermost : GrammarDoc.guarded copy (guard :: rest) handler v =
        guard.before copy (GrammarDoc.guarded copy rest handler) v := rfl
    rw [outermost, Guard.stopping?, List.find?_cons]
    cases admitted : guard.shape.admits v with
    | true => rw [Guard.before, if_pos admitted]; exact ih
    | false =>
      have stopped : ¬guard.shape.admits v = true := by simp [admitted]
      simp only [Guard.before, if_neg stopped, Bool.not_false]

/-- Guards find the problem of the first one that stops a value. -/
theorem comes_guarded (guards : List (Guard α)) (handler : Namespace Code → Value Code → α)
    (v : Value Code) :
    Comes posture
      (GrammarDoc.guarded pure guards (fun v ↦ return handler (← get).names v) v) journal
      (.ofGuards guards v (handler journal.names v)) := by
  rw [guarded_eq, Finding.ofGuards]
  cases stopping : Guard.stopping? guards v with
  | none =>
    unfold Comes
    rw [Build.start_bind, Build.start_get]
    exact comes_pure (handler journal.names v)
  | some guard =>
    have stops : guard.shape.admits v = false := by
      simpa using List.find?_some stopping
    simp only [Guard.before, stops, Bool.false_eq_true, if_false]
    cases guard.shape.problem? v with
    | none => exact comes_pure guard.fallback
    | some p => exact comes_report p guard.fallback

/-- A validation comes to what it finds, under either posture. -/
theorem comes_perform {validation : Validation Code} (h : validation.CanLookUp) :
    Comes posture validation.perform journal (validation.finding journal.names) := by
  cases validation with
  | validName context within name => exact (comes_requireValidName context within name).map _
  | declared context within name => exact (comes_requireDeclared h context within).map _
  | notDeclared context within name => exact (comes_requireNotDeclared h context within).map _
  | declare name tag within => exact (comes_declare h tag within).map _
  | normalize context raw => exact (comes_normalize context raw).map _
  | guarded guards handler v => exact (comes_guarded guards handler v).map _
  | symbols found r => exact comes_pure _
  | report p => exact comes_report p _

end Validation

/-! ### Runs -/

/-- What became of a validation: its outcome, and the journals before and after it. -/
structure Turn (Code : Type) where
  validation : Validation Code
  before : Journal Code
  outcome : Outcome Code (Validation.Result Code)
  after : Journal Code

/-- The turn of a validation from a journal. -/
def Validation.turn (posture : Posture) (validation : Validation Code) (journal : Journal Code) :
    Turn Code :=
  let (outcome, after) := Build.start validation.perform posture journal
  ⟨validation, journal, outcome, after⟩

/-- The turns of some validations that are carried out one after another on one journal, whether or
not one of them fails. -/
def Validation.run (posture : Posture) : List (Validation Code) → Journal Code → List (Turn Code)
  | [], _ => []
  | validation :: rest, journal =>
    let turn := validation.turn posture journal
    turn :: run posture rest turn.after

namespace Turn

/-- Whether a name was declared. -/
def declares (turn : Turn Code) : Bool :=
  match turn.validation, turn.outcome with
  | .declare _ _ _, .ok (.holds b) => b
  | _, _ => false

/-- Whether there was something to complain about: a check or a declaration said no, a value stood
for no rule, a guard that allows for no other shape had its fallback, or a problem was given. -/
def complains (turn : Turn Code) : Bool :=
  match turn.validation, turn.outcome with
  | .validName _ _ _, .ok (.holds b) | .declared _ _ _, .ok (.holds b)
  | .notDeclared _ _ _, .ok (.holds b) | .declare _ _ _, .ok (.holds b) => !b
  | .normalize _ _, .ok (.rule r) => r.isNone
  | .guarded guards _ v, _ => (Guard.stopping? guards v).any fun guard ↦ guard.shape ≠ .present
  | .report _, _ => true
  | _, _ => false

/-- What is so of every turn if problems are collected. -/
structure Regular (turn : Turn Code) : Prop where
  /-- No validation fails. -/
  returns : ∃ result, turn.outcome = .ok result
  /-- Names are only added at the end. -/
  names : turn.before.names <+: turn.after.names
  /-- No name changes its tag. -/
  tags : ∀ name tag, turn.before.names.find? name = some tag →
    turn.after.names.find? name = some tag
  /-- The names change if and only if one is declared. -/
  changes : turn.after.names ≠ turn.before.names ↔ turn.declares = true
  /-- A complaint is one more problem at the end. -/
  complaint : turn.complains = true → ∃ p, turn.after.problems = turn.before.problems ++ [p]
  /-- Without a complaint the problems stay as they are. -/
  silence : turn.complains = false → turn.after.problems = turn.before.problems

/-- How a turn whose problem is raised goes with one whose problem is collected. -/
structure Mirrors (raising collecting : Turn Code) : Prop where
  validation : raising.validation = collecting.validation
  before : raising.before.names = collecting.before.names
  after : raising.after.names = collecting.after.names
  /-- No problem is ever kept. -/
  empty : raising.after.problems = []
  /-- What is raised is what is collected. -/
  raises : ∀ p, raising.outcome = .error (.problem p) ↔
    collecting.after.problems = collecting.before.problems ++ [p]
  /-- If nothing is collected, the outcomes are the same. -/
  returns : collecting.after.problems = collecting.before.problems →
    raising.outcome = collecting.outcome

end Turn

/-! ### One turn -/

namespace Validation

variable {validation : Validation Code} {journal other : Journal Code}

private theorem isSome_problem? (shape : Shape) (v : Value Code) :
    (shape.problem? v).isSome = decide (shape ≠ .present) := by
  cases shape <;> rfl

private theorem declares_eq (after : Journal Code) :
    Turn.declares ⟨validation, journal, .ok (validation.finding journal.names).result, after⟩ =
      !(validation.finding journal.names).names.isEmpty := by
  cases validation with
  | declare name tag within =>
    simp only [finding, Finding.map, Finding.ofDeclaration]
    cases journal.names.find? name <;> rfl
  | normalize context raw =>
    simp only [finding, Finding.map, Finding.ofRaw]
    cases raw.toRule <;> rfl
  | guarded guards handler v =>
    simp only [finding, Finding.map, Finding.ofGuards]
    cases Guard.stopping? guards v <;> rfl
  | validName | declared | notDeclared | symbols | report => rfl

private theorem complains_eq (after : Journal Code) :
    Turn.complains ⟨validation, journal, .ok (validation.finding journal.names).result, after⟩ =
      (validation.finding journal.names).problem?.isSome := by
  have not_isNone (problem? : Option (Problem Code)) : (!problem?.isNone) = problem?.isSome := by
    cases problem? <;> rfl
  cases validation with
  | validName | declared | notDeclared => exact not_isNone _
  | declare name tag within =>
    simp only [finding, Finding.map, Finding.ofDeclaration]
    cases journal.names.find? name <;> rfl
  | normalize context raw =>
    simp only [finding, Finding.map, Finding.ofRaw]
    cases raw.toRule <;> rfl
  | guarded guards handler v =>
    simp only [finding, Finding.map, Finding.ofGuards, Turn.complains]
    cases Guard.stopping? guards v with
    | none => rfl
    | some guard => exact (isSome_problem? guard.shape v).symm
  | symbols | report => rfl

/-- A turn is what the validation finds. -/
theorem turn_eq (h : validation.CanLookUp) (posture : Posture) :
    validation.turn posture journal =
      ⟨validation, journal, (validation.finding journal.names).outcome posture,
        (validation.finding journal.names).after posture journal⟩ := by
  have comes : Comes posture validation.perform journal _ := comes_perform h
  unfold Comes at comes
  rw [turn, comes]

private theorem run_cons (posture : Posture) (rest : List (Validation Code)) :
    run posture (validation :: rest) journal =
      validation.turn posture journal :: run posture rest (validation.turn posture journal).after :=
  rfl

/-- If problems are collected, every turn is regular. -/
theorem regular_turn (h : validation.CanLookUp) : (validation.turn .collect journal).Regular := by
  rw [turn_eq h]
  -- The journal after the turn is that of the finding, while `declares` and `complains` are told
  -- from the outcome alone. The last three parts say that the two go together.
  refine ⟨⟨_, rfl⟩, List.prefix_append _ _, fun name tag found ↦ ?_, ?_, fun complains ↦ ?_,
    fun silent ↦ ?_⟩
  · show Table.find? (journal.names ++ _) name = some tag
    rw [Table.find?_append, found, Option.some_or]
  · show journal.names ++ _ ≠ journal.names ↔ Turn.declares ⟨_, _, .ok _, _⟩ = true
    rw [declares_eq]
    cases (validation.finding journal.names).names <;> simp
  · obtain ⟨p, found⟩ := Option.isSome_iff_exists.1 ((complains_eq _).symm.trans complains)
    exact ⟨p, by simp [Finding.after, found]⟩
  · have found := Option.isSome_eq_false_iff.1 ((complains_eq _).symm.trans silent)
    simp [Finding.after, Option.isNone_iff_eq_none.1 found]

/-- A turn whose problem is raised goes with the one whose problem is collected, if the same names
are declared before. -/
theorem mirrors_turn (h : validation.CanLookUp) (same : other.names = journal.names)
    (empty : other.problems = []) :
    (validation.turn .failFast other).Mirrors (validation.turn .collect journal) := by
  rw [turn_eq h, turn_eq h, same]
  refine ⟨rfl, same, congrArg (· ++ _) same, empty, fun p ↦ ?_, fun silent ↦ ?_⟩
  · cases found : (validation.finding journal.names).problem? with
    | none => simp [Finding.outcome, Finding.after, found]
    | some q => simp [Finding.outcome, Finding.after, found]
  · cases found : (validation.finding journal.names).problem? with
    | none => simp [Finding.outcome, found]
    | some q => simp [Finding.after, found] at silent

end Validation

/-! ### Whole runs -/

namespace Validation

variable {validations : List (Validation Code)} {journal other : Journal Code}

/-- Whatever is carried out, names and problems that are there before stay in front. -/
theorem prefix_of_mem_run (h : ∀ validation ∈ validations, validation.CanLookUp) :
    ∀ turn ∈ run .collect validations journal,
      journal.names <+: turn.before.names ∧ journal.problems <+: turn.before.problems := by
  induction validations generalizing journal with
  | nil => simp [run]
  | cons validation rest ih =>
    rw [List.forall_mem_cons] at h
    rw [run_cons, List.forall_mem_cons]
    refine ⟨⟨List.prefix_rfl, List.prefix_rfl⟩, fun later found ↦ ?_⟩
    obtain ⟨names, problems⟩ := ih h.2 later found
    rw [turn_eq h.1] at names problems
    exact ⟨(List.prefix_append _ _).trans names, (List.prefix_append _ _).trans problems⟩

/-- All turns of a run that collects problems are regular, and what a turn has left stays in front
for all later ones. -/
theorem regular_run (h : ∀ validation ∈ validations, validation.CanLookUp) :
    (∀ turn ∈ run .collect validations journal, turn.Regular) ∧
      (run .collect validations journal).Pairwise fun earlier later ↦
        earlier.after.names <+: later.before.names ∧
          earlier.after.problems <+: later.before.problems := by
  induction validations generalizing journal with
  | nil => simp [run]
  | cons validation rest ih =>
    rw [List.forall_mem_cons] at h
    rw [run_cons, List.forall_mem_cons, List.pairwise_cons]
    obtain ⟨regular, ordered⟩ := ih h.2
    exact ⟨⟨regular_turn h.1, regular⟩, prefix_of_mem_run h.2, ordered⟩

/-- Two runs that start with the same names go along with each other turn by turn. -/
theorem mirrors_run (h : ∀ validation ∈ validations, validation.CanLookUp)
    (same : other.names = journal.names) (empty : other.problems = []) :
    List.Forall₂ Turn.Mirrors (run .failFast validations other)
      (run .collect validations journal) := by
  -- The two journals have only the names in common, so these are all that goes from turn to turn.
  induction validations generalizing journal other with
  | nil => exact .nil
  | cons validation rest ih =>
    rw [List.forall_mem_cons] at h
    rw [run_cons, run_cons]
    have first := mirrors_turn h.1 same empty
    exact .cons first (ih h.2 first.after first.empty)

/-- However validations are mixed on one journal, names and problems are only added at the end, a
name for each declaration that succeeds and a problem for each complaint, and nothing fails. If each
problem is raised instead and the run goes on, nothing is kept of the problems, the same validations
raise the same problems, and names and results are the same. -/
theorem run_consistent (validations : List (Validation Code))
    (h : ∀ validation ∈ validations, validation.CanLookUp) (names : Namespace Code) :
    (∀ turn ∈ run .collect validations { names },
      turn.Regular ∧ names <+: turn.before.names) ∧
    (run .collect validations { names }).Pairwise (fun earlier later ↦
      earlier.after.names <+: later.before.names ∧
        earlier.after.problems <+: later.before.problems) ∧
    List.Forall₂ Turn.Mirrors (run .failFast validations { names })
      (run .collect validations { names }) := by
  have ⟨regular, ordered⟩ : (∀ turn ∈ run .collect validations { names }, turn.Regular) ∧ _ :=
    regular_run h
  exact ⟨fun turn found ↦ ⟨regular turn found, (prefix_of_mem_run h turn found).1⟩, ordered,
    mirrors_run h rfl rfl⟩

/-- Validations of all sorts, with `a` declared. -/
def mixture : List (Validation Unit) :=
  [.declare (.string "b") "rule" (some "rules"), .declare (.string "a") "rule" none,
    .declared "inline" none (.string "b"), .notDeclared "extras" none (.string "c"),
    .validName "word" none (.string "1x"), .normalize "extras" .missing,
    .guarded [⟨.present, .missing⟩, ⟨.array "inline", .missing⟩] (fun _ v ↦ v) (.int 5),
    .guarded [⟨.present, .missing⟩] (fun _ v ↦ v) .missing,
    .symbols [.string "a"] (.symbol (.string "b")), .report ⟨.undefined, none⟩]

/-- A mixture is consistent, with the names and the complaints that one expects. -/
theorem run_consistent_mixture :
    (∀ validation ∈ mixture, validation.CanLookUp) ∧
    (run .collect mixture { names := [(.string "a", "externals")] }).map Turn.declares =
      [true, false, false, false, false, false, false, false, false, false] ∧
    (run .collect mixture { names := [(.string "a", "externals")] }).map Turn.complains =
      [false, true, false, false, true, true, true, false, false, true] ∧
    (∀ turn ∈ run .collect mixture { names := [(.string "a", "externals")] },
      turn.Regular ∧ [(.string "a", "externals")] <+: turn.before.names) ∧
    List.Forall₂ Turn.Mirrors (run .failFast mixture { names := [(.string "a", "externals")] })
      (run .collect mixture { names := [(.string "a", "externals")] }) := by
  have can : ∀ validation ∈ mixture, validation.CanLookUp := by
    simp [mixture, CanLookUp, Value.canBeKey]
  obtain ⟨regular, -, mirrored⟩ := run_consistent mixture can [(.string "a", "externals")]
  exact ⟨can, by decide +kernel, by decide +kernel, regular, mirrored⟩

end Validation

end GrammarDoc
