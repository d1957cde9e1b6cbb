import GrammarDoc.Proofs.Build.Results
import GrammarDoc.Proofs.Postures
import Mathlib.Data.List.Forall2

/-!
# Two steps that do likewise

Two steps do likewise if, from the same names and the same store, they come to results in a
relation and leave the same names and the same store, and the problems that they report are found
in the same sections and have causes in a relation. Whether a step does likewise is put together
from its parts, as the step is.
-/

namespace GrammarDoc

variable {Code : Type} {α β γ δ : Type}

/-- Two outcomes of which either both are results in one relation, or both are failures in
another. -/
inductive Related {ε : Type} (E : ε → ε → Prop) (R : α → β → Prop) :
    Except ε α → Except ε β → Prop
  | ok {a : α} {b : β} : R a b → Related E R (.ok a) (.ok b)
  | error {e f : ε} : E e f → Related E R (.error e) (.error f)

/-- Outcomes that are the same are related, if each result and each failure is related to itself. -/
theorem Related.refl {ε : Type} {E : ε → ε → Prop} {R : α → α → Prop} (failures : ∀ e, E e e)
    (results : ∀ a, R a a) : ∀ outcome : Except ε α, Related E R outcome outcome
  | .ok a => .ok (results a)
  | .error e => .error (failures e)

/-- Outcomes that are related are also related if their results need only be in a weaker
relation. -/
theorem Related.imp {ε : Type} {E : ε → ε → Prop} {R S : α → β → Prop} {outcome₁ : Except ε α}
    {outcome₂ : Except ε β} (h : Related E R outcome₁ outcome₂) (weaker : ∀ a b, R a b → S a b) :
    Related E S outcome₁ outcome₂ := by
  cases h with
  | ok results => exact .ok (weaker _ _ results)
  | error failures => exact .error failures

/-- What is made of results that are related is related if it is for each two of them. -/
theorem Related.bind {ε : Type} {E : ε → ε → Prop} {R : α → β → Prop} {S : γ → δ → Prop}
    {outcome₁ : Except ε α} {outcome₂ : Except ε β} {next₁ : α → Except ε γ}
    {next₂ : β → Except ε δ} (h : Related E R outcome₁ outcome₂)
    (h' : ∀ a b, R a b → Related E S (next₁ a) (next₂ b)) :
    Related E S (outcome₁ >>= next₁) (outcome₂ >>= next₂) := by
  cases h with
  | ok results => exact h' _ _ results
  | error failures => exact .error failures

/-- What is made of results that are related is the same if it is for each two of them. -/
theorem Related.bind_eq {ε : Type} {R : α → β → Prop} {outcome₁ : Except ε α}
    {outcome₂ : Except ε β} {next₁ : α → Except ε γ} {next₂ : β → Except ε γ}
    (h : Related Eq R outcome₁ outcome₂) (h' : ∀ a b, R a b → next₁ a = next₂ b) :
    outcome₁ >>= next₁ = outcome₂ >>= next₂ := by
  cases h with
  | ok results => exact h' _ _ results
  | error same => rw [same]; rfl

variable (L : Cause Code → Cause Code → Prop)

/-- Two problems in the same section, with causes in a relation. -/
structure Problem.Related (p q : Problem Code) : Prop where
  cause : L p.cause q.cause
  within : p.within = q.within

/-- Two failures that are the same fault, or problems in the same section with causes in a
relation. -/
inductive Failure.Related : Failure Code → Failure Code → Prop
  | problem {p q : Problem Code} : p.Related L q → Related (.problem p) (.problem q)
  | fault (f : Fault) : Related (.fault f) (.fault f)

/-- Two journals with the same names and the same store, and with problems of which each two are
related. -/
structure Journal.Related (first second : Journal Code) : Prop where
  names : first.names = second.names
  store : first.store = second.store
  problems : List.Forall₂ (Problem.Related L) first.problems second.problems

namespace Build

/-- Two runs that come to results in a relation, or fail alike, and that leave journals that are
related. -/
structure Alike (R : α → β → Prop) (run₁ : Outcome Code α × Journal Code)
    (run₂ : Outcome Code β × Journal Code) : Prop where
  outcome : Related (Failure.Related L) R run₁.1 run₂.1
  journal : run₁.2.Related L run₂.2

/-- Two steps whose runs from journals that are related are alike. -/
def Likewise (R : α → β → Prop) (step₁ : Build Code α) (step₂ : Build Code β) : Prop :=
  ∀ posture before₁ before₂, before₁.Related L before₂ →
    Alike L R (start step₁ posture before₁) (start step₂ posture before₂)

variable {L} {R : α → β → Prop} {S : γ → δ → Prop} {step₁ : Build Code α} {step₂ : Build Code β}

/-- Runs of two steps, the second of which need only be alike from what the first come to. -/
theorem Alike.bind {next₁ : α → Build Code γ} {next₂ : β → Build Code δ} {posture : Posture}
    {before₁ before₂ : Journal Code}
    (h : Alike L R (start step₁ posture before₁) (start step₂ posture before₂))
    (h' : ∀ a b after₁ after₂, Yields posture step₁ before₁ a after₁ →
      Yields posture step₂ before₂ b after₂ → R a b → after₁.Related L after₂ →
        Alike L S (start (next₁ a) posture after₁) (start (next₂ b) posture after₂)) :
    Alike L S (start (step₁ >>= next₁) posture before₁)
      (start (step₂ >>= next₂) posture before₂) := by
  rw [start_bind, start_bind]
  cases first : start step₁ posture before₁ with
  | mk outcome₁ after₁ =>
    cases second : start step₂ posture before₂ with
    | mk outcome₂ after₂ =>
      rw [first, second] at h
      obtain ⟨outcome, journal⟩ := h
      cases outcome with
      | ok related => exact h' _ _ _ _ first second related journal
      | error failure => exact ⟨.error failure, journal⟩

namespace Likewise

/-- Two steps after each other. -/
theorem bind {next₁ : α → Build Code γ} {next₂ : β → Build Code δ} (h : Likewise L R step₁ step₂)
    (h' : ∀ a b, R a b → Likewise L S (next₁ a) (next₂ b)) :
    Likewise L S (step₁ >>= next₁) (step₂ >>= next₂) :=
  fun posture before₁ before₂ related ↦ (h posture before₁ before₂ related).bind
    fun a b after₁ after₂ _ _ results ↦ h' a b results posture after₁ after₂

/-- Two steps that come to the same, and what is done with that. -/
theorem bind_same {step₁ step₂ : Build Code α} {next₁ : α → Build Code γ} {next₂ : α → Build Code δ}
    (h : Likewise L Eq step₁ step₂) (h' : ∀ a, Likewise L S (next₁ a) (next₂ a)) :
    Likewise L S (step₁ >>= next₁) (step₂ >>= next₂) := by
  refine h.bind ?_
  rintro a _ rfl
  exact h' a

/-- Results that are also in a weaker relation. -/
theorem imp {T : α → β → Prop} (h : Likewise L R step₁ step₂) (weaker : ∀ a b, R a b → T a b) :
    Likewise L T step₁ step₂ := by
  intro posture before₁ before₂ related
  have alike := h posture before₁ before₂ related
  exact ⟨alike.outcome.imp weaker, alike.journal⟩

/-- Finished steps. -/
theorem pure {a : α} {b : β} (h : R a b) : Likewise L R (pure a) (pure b) :=
  fun _ _ _ related ↦ ⟨.ok h, related⟩

/-- What is made of a result does not matter. -/
theorem returned {step₁ step₂ : Build Code α} (h : Likewise L Eq step₁ step₂) (f : α → β) :
    Likewise L Eq (do return f (← step₁)) (do return f (← step₂)) :=
  h.bind_same fun _ ↦ .pure rfl

/-- Faults. -/
theorem fault (f : Fault) : Likewise L R (throw (.fault f)) (throw (.fault f)) :=
  fun _ _ _ related ↦ ⟨.error (.fault f), related⟩

/-- Reports of problems that are related. -/
theorem report {p q : Problem Code} (h : p.Related L q) :
    Likewise L Eq (report p) (report q) := by
  intro posture before₁ before₂ related
  cases posture with
  | failFast => exact ⟨.error (.problem h), related.names, related.store, related.problems⟩
  | collect =>
    exact ⟨.ok rfl, related.names, related.store, List.rel_append related.problems (.cons h .nil)⟩

/-- Reports in a section of causes that are related. -/
theorem reportIn {within : Option String} {cause₁ cause₂ : Cause Code} (h : L cause₁ cause₂) :
    Likewise L Eq (Build.reportIn within cause₁) (Build.reportIn within cause₂) :=
  report ⟨h, rfl⟩

/-- A step on the store, whose failure is a result. -/
theorem attempt (step : Exec Code α) : Likewise L Eq (attempt step) (attempt step) := by
  intro posture before₁ before₂ related
  rw [start_attempt, start_attempt, related.store]
  exact ⟨.ok rfl, related.names, rfl, related.problems⟩

/-- Going through items of which each two do likewise. -/
theorem filterMap {T : α → β → Prop} {items₁ : List α} {items₂ : List β}
    {each₁ : α → Build Code (Option γ)} {each₂ : β → Build Code (Option δ)}
    (h : ∀ a b, T a b → Likewise L (Option.Rel S) (each₁ a) (each₂ b))
    (items : List.Forall₂ T items₁ items₂) :
    Likewise L (List.Forall₂ S) (filterMap each₁ items₁) (filterMap each₂ items₂) := by
  induction items with
  | nil => exact pure .nil
  | cons head _ ih =>
    refine (h _ _ head).bind fun result₁ result₂ related ↦ ?_
    cases related with
    | none => exact ih
    | some related => exact ih.bind fun _ _ rest ↦ pure (.cons related rest)

/-- Going through items of which each two come to the same. -/
theorem filterMap_eq {T : α → β → Prop} {items₁ : List α} {items₂ : List β}
    {each₁ : α → Build Code (Option γ)} {each₂ : β → Build Code (Option γ)}
    (h : ∀ a b, T a b → Likewise L Eq (each₁ a) (each₂ b))
    (items : List.Forall₂ T items₁ items₂) :
    Likewise L Eq (Build.filterMap each₁ items₁) (Build.filterMap each₂ items₂) := by
  induction items with
  | nil => exact pure rfl
  | cons head _ ih =>
    refine (h _ _ head).bind_same fun result ↦ ?_
    cases result with
    | none => exact ih
    | some c => exact ih.returned _

end Likewise

/-- Runs of functions of the description that leave the same store, and come to results in a
relation or fail alike. -/
theorem Alike.absorb {step₁ : Exec Code α} {step₂ : Exec Code β} {title : String}
    {posture : Posture} {before₁ before₂ : Journal Code} (refl : ∀ cause, L cause cause)
    (related : before₁.Related L before₂)
    (stores : (step₁.start before₂.store).2 = (step₂.start before₂.store).2)
    (outcomes : GrammarDoc.Related Eq R (step₁.start before₂.store).1
      (step₂.start before₂.store).1) :
    Alike L (Option.Rel R) (start (absorb title step₁) posture before₁)
      (start (absorb title step₂) posture before₂) := by
  rw [start_absorb, start_absorb, related.store, stores]
  have left : Journal.Related L { before₁ with store := (step₂.start before₂.store).2 }
      { before₂ with store := (step₂.start before₂.store).2 } :=
    ⟨related.names, rfl, related.problems⟩
  revert outcomes
  generalize (step₁.start before₂.store).1 = outcome₁
  generalize (step₂.start before₂.store).1 = outcome₂
  rintro (results | @⟨p | f, _, rfl⟩)
  · exact ⟨.ok (.some results), left⟩
  · have reported : Likewise L Eq (report (p.attributedTo title)) (report (p.attributedTo title)) :=
      .report ⟨refl _, rfl⟩
    exact (reported.bind fun _ _ _ ↦ .pure .none) posture _ _ left
  · exact ⟨.error (.fault f), left⟩

/-- A step that is made of moves does likewise itself. -/
theorem MadeOf.likewise {may : Move Code → Prop} {step : Build Code α} (h : MadeOf may step)
    (refl : ∀ cause, L cause cause) : Likewise L Eq step step := by
  have reported (p : Problem Code) : Likewise L Eq (Build.report p) (Build.report p) :=
    .report ⟨refl _, rfl⟩
  induction h with
  | pure a => exact .pure rfl
  | bind _ _ ih ih' => exact ih.bind_same ih'
  | fault f => exact .fault f
  | report _ => exact reported _
  | @declare name tag _ =>
    exact fun _ _ _ related ↦
      ⟨.ok rfl, congrArg (· ++ [(name, tag)]) related.names, related.store, related.problems⟩
  | began _ => exact fun _ _ _ related ↦ ⟨.ok rfl, related.names, related.store, related.problems⟩
  | @lookNames _ f _ => exact fun _ _ _ related ↦ ⟨.ok (congrArg f related.names), related⟩
  | look f _ => exact fun _ _ _ related ↦ ⟨.ok (congrArg f related.store), related⟩
  | @absorb _ title step _ =>
    refine (Likewise.attempt step).bind_same fun outcome ↦ ?_
    rcases outcome with (p | f) | a
    · exact (reported _).bind fun _ _ _ ↦ .pure rfl
    · exact .fault f
    · exact .pure rfl
  -- The store is the same in both journals, so the step comes to the very same in both.
  | @perform _ step _ unraised _ =>
    intro posture before₁ before₂ related
    rw [start_perform, start_perform, related.store]
    refine ⟨?_, related.names, rfl, related.problems⟩
    refine .refl (fun failure ↦ ?_) (fun _ ↦ rfl) _
    cases failure with
    | problem p => exact .problem ⟨refl _, rfl⟩
    | fault f => exact .fault f

end Build

end GrammarDoc
