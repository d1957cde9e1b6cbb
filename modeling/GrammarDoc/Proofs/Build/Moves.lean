import GrammarDoc.Assembly
import GrammarDoc.Proofs.Names

/-!
# Moves of a build

A build only touches its journal by a few moves: it reports a problem, writes that a section is
begun, declares a name, or works on the store. It looks at the names and at the store, but neither
at the problems nor at the lines. That a step is made of such moves is proved here once for every
step of a build; whatever a single move keeps, a whole build then keeps by induction.
-/

namespace GrammarDoc

variable {Code : Type}

/-- What a step of a build does with the journal, other than looking at the names. -/
inductive Move (Code : Type) where
  | report (p : Problem Code)
  | began (part : Section) (grammar : Option (Value Code))
  | declare (name : Value Code) (tag : String)
  | look
  | work (before after : Store Code)

/-- Whether problems of every cause may be reported in a section. -/
def Move.Reports (may : Move Code → Prop) (title : String) : Prop :=
  ∀ cause, may (.report ⟨cause, some title⟩)

/-- Whether every name may be declared under a tag. -/
def Move.Declares (may : Move Code → Prop) (tag : String) : Prop :=
  ∀ name, may (.declare name tag)

/-- Whether a step on the store may be carried out from any store. -/
def Move.Works {α : Type} (may : Move Code → Prop) (step : Exec Code α) : Prop :=
  ∀ store, (step.start store).2 = store ∨ may (.work store (step.start store).2)

/-- Whether a step on the store may be carried out, and reported in a section if it raises a
problem. -/
structure Move.Calls {α : Type} (may : Move Code → Prop) (title : String) (step : Exec Code α) :
    Prop where
  looks : may .look
  works : Move.Works may step
  reports : ∀ store p, (step.start store).1 = .error (.problem p) →
    may (.report (p.attributedTo title))

namespace Build

/-- The steps that are made of moves that may be made. -/
inductive MadeOf (may : Move Code → Prop) : {α : Type} → Build Code α → Prop
  | pure {α : Type} (a : α) : MadeOf may (pure a)
  | bind {α β : Type} {step : Build Code α} {next : α → Build Code β} :
      MadeOf may step → (∀ a, MadeOf may (next a)) → MadeOf may (step >>= next)
  | fault {α : Type} (f : Fault) : MadeOf may (throw (.fault f) : Build Code α)
  | report {p : Problem Code} : may (.report p) → MadeOf may (report p)
  | declare {name : Value Code} {tag : String} : may (.declare name tag) →
      MadeOf may (modify fun journal ↦ { journal with names := journal.names ++ [(name, tag)] })
  | began {part : Section} {grammar : Option (Value Code)} : may (.began part grammar) →
      MadeOf may (log (.began part grammar))
  | lookNames {α : Type} {f : Namespace Code → α} :
      (∀ names others, names.Agrees others → f names = f others) →
      MadeOf may (do return f (← get).names)
  | look {α : Type} (f : Store Code → α) : may .look → MadeOf may (do return f (← get).store)
  | absorb {α : Type} {title : String} {step : Exec Code α} :
      Move.Calls may title step → MadeOf may (absorb title step)
  | perform {α : Type} {step : Exec Code α} : may .look →
      (∀ store p, (step.start store).1 ≠ .error (.problem p)) → Move.Works may step →
      MadeOf may (perform step)

namespace MadeOf

variable {may : Move Code → Prop} {α β : Type}

/-- A step is also made of moves of which more may be made. -/
theorem mono {might : Move Code → Prop} {step : Build Code α} (h : MadeOf may step)
    (more : ∀ move, may move → might move) : MadeOf might step := by
  have works {γ : Type} {step : Exec Code γ} (h : Move.Works may step) : Move.Works might step :=
    fun store ↦ (h store).imp_right (more _)
  induction h with
  | pure a => exact .pure a
  | bind _ _ ih ih' => exact .bind ih ih'
  | fault f => exact .fault f
  | report allowed => exact .report (more _ allowed)
  | declare allowed => exact .declare (more _ allowed)
  | began allowed => exact .began (more _ allowed)
  | lookNames agree => exact .lookNames agree
  | look f allowed => exact .look f (more _ allowed)
  | absorb calls =>
    have reports := fun store p h ↦ more _ (calls.reports store p h)
    exact .absorb ⟨more _ calls.looks, works calls.works, reports⟩
  | perform allowed unraised working => exact .perform (more _ allowed) unraised (works working)

/-- Looking at a value. -/
theorem present (v : Value Code) (hl : may .look) : MadeOf may (present v) :=
  .look (fun store ↦ store.present v) hl

/-- A step that has a result or meets a fault, whatever the store. -/
theorem performFault (outcome : Except Fault α) :
    MadeOf may (Build.perform (Exec.ofFault outcome)) := by
  cases outcome with
  | ok a => exact .pure a
  | error f => exact .fault f

/-- Reading a value. -/
theorem read (v : Value Code) (hl : may .look) : MadeOf may (Build.perform (Exec.read v)) :=
  .perform hl (fun _ _ h ↦ by cases h) fun _ ↦ .inl rfl

/-- Going through some items. -/
theorem filterMap {step : α → Build Code (Option β)} (items : List α)
    (h : ∀ a ∈ items, MadeOf may (step a)) : MadeOf may (filterMap step items) := by
  induction items with
  | nil => exact .pure _
  | cons a rest ih =>
    have rest := ih fun b hb ↦ h b (List.mem_cons_of_mem a hb)
    refine .bind (h a List.mem_cons_self) fun result ↦ ?_
    cases result with
    | none => exact rest
    | some b => exact .bind rest fun _ ↦ .pure _

/-- Going through some items and their positions. -/
theorem filterMapIdx {step : Nat → α → Build Code (Option β)} (items : List α)
    (h : ∀ i a, MadeOf may (step i a)) : MadeOf may (filterMapIdx step items) :=
  filterMap _ fun a _ ↦ h a.2 a.1

/-- Doing something for each item. -/
theorem forM {step : α → Build Code Unit} (items : List α)
    (h : ∀ a, MadeOf may (step a)) : MadeOf may (items.forM step) := by
  induction items with
  | nil => exact .pure _
  | cons a rest ih => exact .bind (h a) fun _ ↦ ih

/-- The results for each item. -/
theorem mapM {step : α → Build Code β} (items : List α)
    (h : ∀ a, MadeOf may (step a)) : MadeOf may (items.mapM step) := by
  induction items with
  | nil =>
    rw [List.mapM_nil]
    exact .pure _
  | cons a rest ih =>
    rw [List.mapM_cons]
    exact .bind (h a) fun _ ↦ .bind ih fun _ ↦ .pure _

/-- Leaving out the result. -/
theorem discard {step : Build Code α} (h : MadeOf may step) : MadeOf may (discard step) :=
  .bind h fun _ ↦ .pure _

/-! ### Checks -/

/-- Reporting in a section. -/
theorem reportIn {within : Option String} {cause : Cause Code}
    (h : may (.report ⟨cause, within⟩)) : MadeOf may (reportIn within cause) := .report h

/-- Looking a name up. -/
theorem lookup (name : Value Code) : MadeOf may (lookup name) := by
  unfold Build.lookup
  split
  · exact lookNames fun _ _ agrees ↦ agrees name
  · exact .fault _

/-- Checking the form of a name. -/
theorem requireValidName {context title : String} {within : Option String} (name : Value Code)
    (ha : attribution context within = some title) (h : Move.Reports may title) :
    MadeOf may (requireValidName context within name) := by
  unfold Build.requireValidName
  split
  · exact .pure _
  · exact .bind (reportIn (ha ▸ h _)) fun _ ↦ .pure _

/-- Checking that a name is declared. -/
theorem requireDeclared {context title : String} {within : Option String} (name : Value Code)
    (ha : attribution context within = some title) (h : Move.Reports may title) :
    MadeOf may (requireDeclared context within name) := by
  refine .bind (lookup name) fun found ↦ ?_
  split
  · exact .pure _
  · exact .bind (reportIn (ha ▸ h _)) fun _ ↦ .pure _

/-- Checking that a name is not declared. -/
theorem requireNotDeclared {context title : String} {within : Option String} (name : Value Code)
    (ha : attribution context within = some title) (h : Move.Reports may title) :
    MadeOf may (requireNotDeclared context within name) := by
  refine .bind (lookup name) fun found ↦ ?_
  cases found with
  | none => exact .pure _
  | some first => exact .bind (reportIn (ha ▸ h _)) fun _ ↦ .pure _

/-- Declaring a name that may be declared. -/
theorem declareName {tag title : String} {within : Option String} {name : Value Code}
    (ha : attribution tag within = some title) (h : Move.Reports may title)
    (hn : may (.declare name tag)) : MadeOf may (Build.declare name tag within) := by
  refine .bind (requireNotDeclared name ha h) fun free ↦ ?_
  split
  · exact .bind (.declare hn) fun _ ↦ .pure _
  · exact .pure _

/-- Making a value a rule. -/
theorem normalize {context : String} (raw : Value Code) (h : Move.Reports may context) :
    MadeOf may (normalize context raw) := by
  unfold Build.normalize
  split
  · exact .pure _
  · exact .bind (.report (h _)) fun _ ↦ .pure _

/-- A handler behind the guards of a section, which report in that section. -/
theorem guarded {guards : List (Guard α)} {handler : Value Code → Build Code α} {title : String}
    (v : Value Code) (hr : Move.Reports may title)
    (hg : ∀ guard ∈ guards, guard.shape ∈ [Shape.present, .array title, .object title])
    (h : MadeOf may (handler v)) : MadeOf may (guarded Pure.pure guards handler v) := by
  induction guards with
  | nil => exact h
  | cons guard rest ih =>
    have inner := ih fun other ho ↦ hg other (List.mem_cons_of_mem guard ho)
    have shape := hg guard List.mem_cons_self
    obtain ⟨shapeOf, fallback⟩ := guard
    change MadeOf may (Guard.before ⟨shapeOf, fallback⟩ Pure.pure
      (GrammarDoc.guarded Pure.pure rest handler) v)
    unfold Guard.before
    split
    · exact inner
    · simp only [List.mem_cons, List.not_mem_nil, or_false] at shape
      obtain rfl | rfl | rfl := shape
      · exact .pure _
      · exact .bind (.report (hr _)) fun _ ↦ .pure _
      · exact .bind (.report (hr _)) fun _ ↦ .pure _

end MadeOf
end Build
end GrammarDoc
