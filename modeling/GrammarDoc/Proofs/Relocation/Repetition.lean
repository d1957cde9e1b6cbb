import GrammarDoc.Proofs.Passage
import GrammarDoc.Proofs.Relocation.Assembly
import GrammarDoc.Proofs.Relocation.Equality
import Mathlib.Logic.Equiv.Basic

/-!
# Builds that are repeated

Each build takes place somewhere else than all others. So it passes a new builder to the functions
of its description, and whatever they make is new. When a build is repeated, what it has come to
comes again, with what is new in its new place: it equals what it was, unless something in it that
equals itself only is new.
-/

namespace GrammarDoc

variable {Code : Type}

/-! ### What comes again -/

/-- A place of which the step is another one. -/
def Place.moved (move : Nat → Nat) : Place → Place
  | step index => step (move index)
  | part whole title => part (whole.moved move) title
  | item whole index => item (whole.moved move) index
  | copy source copying => copy (source.moved move) (copying.moved move)

/-- Places are different after different steps have been put for theirs. -/
theorem Place.moved_injective {move : Nat → Nat} (injective : Function.Injective move) :
    Function.Injective (Place.moved move) := by
  intro p
  induction p with
  | step index =>
    rintro (_ | _ | _ | _) eq <;> simp [moved] at eq
    rw [injective eq]
  | part whole title ih =>
    rintro (_ | _ | _ | _) eq <;> simp [moved] at eq
    rw [ih eq.1, eq.2]
  | item whole index ih =>
    rintro (_ | _ | _ | _) eq <;> simp [moved] at eq
    rw [ih eq.1, eq.2]
  | copy source copying ih ih' =>
    rintro (_ | _ | _ | _) eq <;> simp [moved] at eq
    rw [ih eq.1, ih' eq.2]

/-- The relocation that puts other steps for all steps, if code holds nothing that is made. -/
def Relocation.ofSteps (move : Nat → Nat) (injective : Function.Injective move) :
    Relocation Code where
  place := Place.moved move
  code := id
  injective := Place.moved_injective injective
  place_part _ _ := rfl
  place_item _ _ := rfl
  place_copy _ _ := rfl

variable (ρ : Relocation Code)

/-- A value comes again, moved: it equals what it was, unless something in it that equals itself
only has been moved, or it contains itself. -/
structure Value.Reappears (v w : Value Code) : Prop where
  moved : w = v.moved ρ
  equal : v.Genuine false [] → ρ.Keeps v.identities → v.compare w = some true

/-- A problem comes again: it is of the same kind and in the same section and has the same message,
and the value that it is about comes again. -/
structure Problem.Reappears (p q : Problem Code) : Prop where
  kind : q.kind = p.kind
  message : q.message = p.message
  within : q.within = p.within
  value : p.value.Reappears ρ q.value

/-- Some problems come again, in the same order. -/
abbrev Problem.ReappearAll : List (Problem Code) → List (Problem Code) → Prop :=
  List.Forall₂ (Problem.Reappears ρ)

/-- Some names come again, in the same order and with the same tags. -/
abbrev Namespace.Reappears : Namespace Code → Namespace Code → Prop :=
  List.Forall₂ fun entry again ↦ entry.1.Reappears ρ again.1 ∧ again.2 = entry.2

/-- What is moved comes again. -/
theorem Value.reappears_moved (v : Value Code) : v.Reappears ρ (v.moved ρ) :=
  ⟨rfl, v.compare_moved_self ρ⟩

/-- A problem that is moved comes again. -/
theorem Problem.reappears_moved (p : Problem Code) : p.Reappears ρ (p.moved ρ) :=
  ⟨p.kind_moved ρ, p.message_moved ρ, rfl, p.value_moved ρ ▸ p.value.reappears_moved ρ⟩

/-- Problems that are moved come again. -/
theorem Problem.reappearAll_map_moved (problems : List (Problem Code)) :
    Problem.ReappearAll ρ problems (problems.map (Problem.moved ρ)) :=
  List.forall₂_map_right_iff.2 (List.forall₂_same.2 fun p _ ↦ p.reappears_moved ρ)

/-- Names that are moved come again. -/
theorem Namespace.reappears_map_moved (names : Namespace Code) :
    Namespace.Reappears ρ names (names.map (Prod.map (Value.moved ρ) id)) :=
  List.forall₂_map_right_iff.2
    (List.forall₂_same.2 fun entry _ ↦ ⟨entry.1.reappears_moved ρ, rfl⟩)

/-- What a moved grammar has for a section is moved. -/
@[simp] theorem Grammar.fields_moved (g : Grammar (Value Code)) (part : Section) :
    (Value.movedGrammar ρ g).fields part = (g.fields part).moved ρ := by
  obtain ⟨place, name, rules, extras, externals, inline, conflicts, word, supertypes, precedences,
    again⟩ := g
  cases part <;> simp [Value.movedGrammar, fields, Section.each, Value.moved]

private theorem Entry.problemsIn_map_moved (part : Section) (inside : Bool)
    (lines : List (Entry Code)) :
    problemsIn part inside (lines.map (Entry.moved ρ)) =
      (problemsIn part inside lines).map (Problem.moved ρ) := by
  induction lines generalizing inside with
  | nil => rfl
  | cons line rest ih =>
    cases line with
    | began other grammar => exact ih _
    | reported p =>
      rw [List.map_cons, moved, problemsIn, problemsIn, ih]
      split
      · rfl
      · rfl
    | summary text => exact ih _

/-- What a moved journal reports in a section is moved. -/
@[simp] theorem Journal.problemsIn_moved (journal : Journal Code) (part : Section) :
    (journal.moved ρ).problemsIn part = (journal.problemsIn part).map (Problem.moved ρ) :=
  Entry.problemsIn_map_moved ρ part false journal.entries

/-- The problems of a moved journal are those with the description itself and those in each section,
moved. -/
theorem Journal.problems_moved {journal : Journal Code} {outside : List (Problem Code)}
    (problems : journal.problems = outside ++ Section.all.flatMap journal.problemsIn) :
    (journal.moved ρ).problems = outside.map (Problem.moved ρ) ++
      Section.all.flatMap (journal.moved ρ).problemsIn := by
  rw [moved, problems, List.map_append, List.map_flatMap]
  exact congrArg _ (List.flatMap_congr fun part _ ↦ (journal.problemsIn_moved ρ part).symm)

/-! ### Calls elsewhere -/

/-- Whether code cannot tell where it is run: elsewhere it comes to what it comes to here, moved, if
all that it is run with is moved. -/
def Interpreter.Moves (run₁ run₂ : Interpreter Code) : Prop :=
  ∀ place code bindings store,
    (run₂ (ρ.place place) (ρ.code code) (bindings.map (Prod.map id (Value.moved ρ)))).start
        (store.moved ρ) =
      Prod.map (Outcome.moved ρ (Value.moved ρ)) (Store.moved ρ)
        ((run₁ place code bindings).start store)

private theorem Signature.bind?_moved (s : Signature) (args : List (Value Code)) :
    s.bind? (args.map (Value.moved ρ)) =
      (s.bind? args).map (List.map (Prod.map id (Value.moved ρ))) := by
  unfold bind?
  rw [List.length_map]
  split
  · simp [List.zip_map_right, Value.moved, Value.movedItems_eq_map, Function.comp_def]
  · rfl

/-- Calls of functions whose code cannot tell where it is run cannot tell either. -/
theorem Callable.start_offer_moved {run₁ run₂ : Interpreter Code} (moves : run₁.Moves ρ run₂)
    (place : Place) (f : Callable (Value Code) Code) (args : List (Value Code))
    (store : Store Code) :
    ((Value.movedCallable ρ f).offer run₂ (ρ.place place) (args.map (Value.moved ρ))).start
        (store.moved ρ) =
      Prod.map (Outcome.moved ρ (Value.moved ρ)) (Store.moved ρ)
        ((f.offer run₁ place args).start store) := by
  have accepted : f.signature.accepted (args.map (Value.moved ρ)) =
      (f.signature.accepted args).map (Value.moved ρ) := by
    unfold Signature.accepted
    cases f.signature.arity? with
    | none => rfl
    | some n => exact List.map_take.symm
  unfold offer apply
  rw [Value.movedCallable_signature, accepted, Signature.bind?_moved]
  cases f.signature.bind? (f.signature.accepted args) with
  | none => rfl
  | some bindings =>
    obtain ⟨place', name, signature, body⟩ := f
    cases body with
    | nothing => rfl
    | constant v => rfl
    | code code => exact moves place code bindings store

/-! ### Repeated builds -/

namespace Setting

/-- A build of a description is repeated: it takes place elsewhere, extends the same base and starts
from the same store. Nothing that the builds are given is moved. The functions that the description
gives come to the same again, but for where things are made. -/
structure Repeats (first second : Setting Code) (description : Value Code) (store : Store Code) :
    Prop where
  place : second.place = ρ.place first.place
  base : second.base = first.base
  inherited : first.base.moved ρ = first.base
  given : description.moved ρ = description
  found : store.moved ρ = store
  calls : ∀ earlier f, first.Reaches description store earlier →
    first.GivesFunction description earlier f →
      ∀ place offered later, first.Reaches description store later →
        (second.call (ρ.place place) (Value.movedCallable ρ f) (offered.moved ρ)).start
            (later.moved ρ) =
          Prod.map (Outcome.moved ρ (Value.moved ρ)) (Store.moved ρ)
            ((first.call place f offered).start later)

variable {ρ} {first second : Setting Code} {description : Value Code} {store : Store Code}

/-- A build is repeated if no code can tell where it is run. -/
theorem Repeats.of_moves (place : second.place = ρ.place first.place)
    (base : second.base = first.base) (inherited : first.base.moved ρ = first.base)
    (given : description.moved ρ = description) (found : store.moved ρ = store)
    (moves : first.run.Moves ρ second.run) : first.Repeats ρ second description store where
  place := place
  base := base
  inherited := inherited
  given := given
  found := found
  calls _ f _ _ place' offered later _ := by
    have builder : second.builder = first.builder.moved ρ := by
      simp [builder, place, Value.moved]
    have called := Callable.start_offer_moved ρ moves place' f [first.builder, offered] later
    rwa [List.map_cons, List.map_singleton, ← builder] at called

variable (h : first.Repeats ρ second description store)
  (policy : second.extraReferences = first.extraReferences)

include h policy

private theorem Repeats.relocates : Relocates ρ first second description store where
  place := h.place
  base := h.base.trans h.inherited.symm
  extraReferences := policy
  calls := h.calls

/-- A build that is repeated and collects all problems comes to what it came to, moved. -/
theorem Repeats.collect_eq : second.collect description store =
    Prod.map (Outcome.moved ρ (Value.movedGrammar ρ)) (Journal.moved ρ)
      (first.collect description store) := by
  have run := ((h.relocates policy).follows_assembleAll .collect { store } .start).1
  have start : Journal.moved ρ { store } = { store } := by
    simp [Journal.moved, h.found]
  rwa [start, h.given] at run

/-- A build that is repeated and ends at the first problem comes to what it came to, moved. -/
theorem Repeats.build_eq : second.build description store =
    Prod.map (Outcome.moved ρ (Value.movedGrammar ρ)) (Journal.moved ρ)
      (first.build description store) := by
  have run := ((h.relocates policy).follows_assemble .failFast { store } .start).1
  have start : Journal.moved ρ { store } = { store } := by
    simp [Journal.moved, h.found]
  rwa [start, h.given] at run

/-- What a build that is repeated and collects all problems came to. -/
theorem Repeats.exists_collect {again : Grammar (Value Code)} {after : Journal Code}
    (collected : second.collect description store = (.ok again, after)) :
    ∃ g before, first.collect description store = (.ok g, before) ∧
      again = Value.movedGrammar ρ g ∧ after = before.moved ρ := by
  rw [h.collect_eq policy] at collected
  rcases run : first.collect description store with ⟨failure | g, before⟩
  · rw [run] at collected
    cases collected
  · rw [run] at collected
    cases collected
    exact ⟨g, before, rfl, rfl, rfl⟩

end Setting

/-! ### Functions that only respond -/

/-- How a function responds to the builder and to something else that it is passed: it returns one
of the two, or a field that has the builder for its name, or it raises a problem. -/
inductive Response
  | builder
  | other
  | field
  | problem
  deriving DecidableEq

namespace Response

private def passed (bindings : Bindings Response) (index : Nat) : Value Response :=
  .ofOption (bindings[index]?.map Prod.snd)

/-- Responding. -/
def run : Interpreter Response := fun _ response bindings ↦
  match response with
  | builder => return passed bindings 0
  | other => return passed bindings 1
  | field => return .rule (.field (passed bindings 0) (.string (.string "x")))
  | problem => throw (.problem ⟨.undefined, none⟩)

/-- A function that responds, of a name. -/
def function (response : Response) (name : String) : Value Response :=
  .callable ⟨.step 0, some name, { positional := ["grammar", "original"] }, .code response⟩

/-- A setting in which functions respond, at a step and with a base. -/
def setting (step : Nat) (base : Value Response) : Setting Response where
  run := run
  place := .step step
  base := base

/-- The relocation that exchanges two steps. -/
def exchange : Relocation Response := .ofSteps (Equiv.swap 1 2) (Equiv.injective _)

/-- Responding changes nothing. -/
theorem store_run (place : Place) (response : Response) (bindings : Bindings Response)
    (store : Store Response) : ((run place response bindings).start store).2 = store := by
  cases response <;> rfl

/-- A call of a function that responds. -/
theorem start_call {response : Response} {name : String} {f : Callable (Value Response) Response}
    (responds : function response name = .callable f) (step : Nat) (base : Value Response)
    (place : Place) (offered : Value Response) (store : Store Response) :
    ((setting step base).call place f offered).start store =
      (run place response [("grammar", (setting step base).builder), ("original", offered)]).start
        store := by
  cases responds
  rfl

private theorem passed_moved (ρ : Relocation Response) (bindings : Bindings Response)
    (index : Nat) : passed (bindings.map (Prod.map id (Value.moved ρ))) index =
      (passed bindings index).moved ρ := by
  unfold passed
  rw [List.getElem?_map]
  cases bindings[index]? with
  | none => simp [Value.ofOption, Value.moved]
  | some entry => rfl

/-- Functions that respond cannot tell where they are called. -/
theorem moves_run : run.Moves exchange run := by
  intro place response bindings store
  cases response with
  | builder =>
    refine Prod.ext (congrArg Except.ok ?_) rfl
    exact passed_moved exchange bindings 0
  | other =>
    refine Prod.ext (congrArg Except.ok ?_) rfl
    exact passed_moved exchange bindings 1
  | field =>
    refine Prod.ext (congrArg Except.ok ?_) rfl
    rw [Value.moved, Value.movedRule, ← passed_moved]
    rfl
  | problem => rfl

/-- A build in which functions respond is repeated at another step, if what it is given is made at
none of the two steps. -/
theorem repeats_setting (base description : Value Response)
    (inherited : base.moved exchange = base) (given : description.moved exchange = description) :
    (setting 1 base).Repeats exchange (setting 2 base) description {} :=
  .of_moves rfl rfl inherited given rfl moves_run

end Response

end GrammarDoc
