import GrammarDoc.Proofs.Build.Results
import GrammarDoc.Proofs.Postures

/-!
# Two runs of a step

A step of a build reads neither the problems nor the lines that are in the journal, and it only
adds to them. So two runs that start with the same names and with stores that show the same come to
the same, and add the same lines.
-/

namespace GrammarDoc

variable {Code : Type} {α β : Type}

/-- The problem that a line is about. -/
def Entry.problem? : Entry Code → Option (Problem Code)
  | .reported p => some p
  | .began _ _ | .summary _ => none

/-- Whether a line does not say that a section is begun. -/
def Entry.IsWithin : Entry Code → Prop
  | .began _ _ => False
  | .reported _ | .summary _ => True

/-- Some lines and the problems that they are about have been added to a journal. -/
structure Journal.Adds (before : Journal Code) (lines : List (Entry Code))
    (after : Journal Code) : Prop where
  problems : after.problems = before.problems ++ lines.filterMap Entry.problem?
  entries : after.entries = before.entries ++ lines

namespace Journal.Adds

variable {before between after : Journal Code} {lines more : List (Entry Code)}

/-- To a journal that has only other names or another store, nothing has been added. -/
theorem nothing (problems : after.problems = before.problems)
    (entries : after.entries = before.entries) : before.Adds [] after := by
  refine ⟨?_, ?_⟩
  · rw [problems, List.filterMap_nil, List.append_nil]
  · rw [entries, List.append_nil]

/-- Lines are added one after another. -/
theorem trans (h : before.Adds lines between) (h' : between.Adds more after) :
    before.Adds (lines ++ more) after := by
  refine ⟨?_, ?_⟩
  · rw [h'.problems, h.problems, List.filterMap_append, List.append_assoc]
  · rw [h'.entries, h.entries, List.append_assoc]

end Journal.Adds

/-- Two journals with the same names and with stores in a relation. -/
structure Journal.Match (R : Store Code → Store Code → Prop) (first second : Journal Code) :
    Prop where
  names : first.names = second.names
  stores : R first.store second.store

namespace Build

/-- Two runs from two journals have the same outcome, have added the same lines within a section,
and have left journals that match if the ones they started with do. -/
structure SameRuns (R : Store Code → Store Code → Prop) (start₁ start₂ : Journal Code)
    (lines : List (Entry Code)) (run₁ run₂ : Outcome Code α × Journal Code) : Prop where
  outcome : run₁.1 = run₂.1
  within : ∀ line ∈ lines, line.IsWithin
  adds₁ : start₁.Adds lines run₁.2
  adds₂ : start₂.Adds lines run₂.2
  matched : run₁.2.Match R run₂.2

/-- Whether a step that collects problems does the same from all journals that match, and what it
comes to has a property. -/
def Uniform (R : Store Code → Store Code → Prop) (step : Build Code α) (Q : α → Prop) : Prop :=
  ∀ start₁ start₂ : Journal Code, start₁.Match R start₂ →
    (∃ lines, SameRuns R start₁ start₂ lines (start step .collect start₁)
      (start step .collect start₂)) ∧
    ∀ a, (start step .collect start₁).1 = .ok a → Q a

namespace Uniform

variable {R : Store Code → Store Code → Prop} {step : Build Code α} {Q P : α → Prop}

private theorem imp (h : Uniform R step Q) (weaker : ∀ a, Q a → P a) : Uniform R step P :=
  fun start₁ start₂ h₀ ↦ ⟨(h start₁ start₂ h₀).1, fun a ok ↦ weaker a ((h start₁ start₂ h₀).2 a ok)⟩

/-- A finished step. -/
theorem pure {a : α} (h : Q a) : Uniform R (pure a) Q := by
  intro start₁ start₂ h₀
  refine ⟨⟨[], rfl, by simp, .nothing rfl rfl, .nothing rfl rfl, h₀⟩, ?_⟩
  rintro _ ⟨⟩
  exact h

/-- A failure. -/
theorem throw (failure : Failure Code) : Uniform R (throw failure : Build Code α) Q := by
  intro start₁ start₂ h₀
  refine ⟨⟨[], rfl, by simp, .nothing rfl rfl, .nothing rfl rfl, h₀⟩, ?_⟩
  intro a ok
  cases ok

/-- Two steps, the second of which may rely on what the first comes to. -/
theorem bind {next : α → Build Code β} {P : β → Prop} (h : Uniform R step Q)
    (h' : ∀ a, Q a → Uniform R (next a) P) : Uniform R (step >>= next) P := by
  intro start₁ start₂ h₀
  obtain ⟨⟨lines, outcome, within, adds₁, adds₂, after⟩, holds⟩ := h start₁ start₂ h₀
  rw [start_bind, start_bind]
  generalize start step .collect start₁ = run₁ at outcome adds₁ after holds
  generalize start step .collect start₂ = run₂ at outcome adds₂ after
  obtain ⟨outcome₁, between₁⟩ := run₁
  obtain ⟨outcome₂, between₂⟩ := run₂
  obtain rfl : outcome₁ = outcome₂ := outcome
  cases outcome₁ with
  | error failure =>
    refine ⟨⟨lines, rfl, within, adds₁, adds₂, after⟩, ?_⟩
    intro b ok
    cases ok
  | ok a =>
    obtain ⟨⟨more, outcome, within', adds₁', adds₂', last⟩, holds'⟩ :=
      h' a (holds a rfl) between₁ between₂ after
    refine ⟨⟨lines ++ more, outcome, ?_, adds₁.trans adds₁', adds₂.trans adds₂', last⟩, holds'⟩
    intro line hl
    exact (List.mem_append.1 hl).elim (within line) (within' line)

private theorem report (p : Problem Code) : Uniform R (report p) fun _ ↦ True := by
  intro start₁ start₂ h₀
  refine ⟨⟨[.reported p], rfl, ?_, ⟨rfl, rfl⟩, ⟨rfl, rfl⟩, ⟨h₀.names, h₀.stores⟩⟩, ?_⟩
  · intro line hl
    rw [List.mem_singleton.1 hl]
    trivial
  · intro _ _
    trivial

/-- Looking at the names. -/
theorem lookNames (f : Namespace Code → α) :
    Uniform R (do return f (← get).names) fun _ ↦ True := by
  intro start₁ start₂ h₀
  refine ⟨⟨[], congrArg (Except.ok ∘ f) h₀.names, by simp, .nothing rfl rfl, .nothing rfl rfl,
    h₀⟩, ?_⟩
  intro _ _
  trivial

private theorem declare (name : Value Code) (tag : String) :
    Uniform R (modify fun journal : Journal Code ↦
      { journal with names := journal.names ++ [(name, tag)] } : Build Code Unit)
      fun _ ↦ True := by
  intro start₁ start₂ h₀
  refine ⟨⟨[], rfl, by simp, .nothing rfl rfl, .nothing rfl rfl, ⟨?_, h₀.stores⟩⟩, ?_⟩
  · exact congrArg (· ++ [(name, tag)]) h₀.names
  · intro _ _
    trivial

/-- A step on the store that comes to the same in stores in the relation, and leaves such. -/
theorem attempt {step : Exec Code α} {Q : Outcome Code α → Prop}
    (h : ∀ store₁ store₂, R store₁ store₂ → (step.start store₁).1 = (step.start store₂).1 ∧
      R (step.start store₁).2 (step.start store₂).2 ∧ Q (step.start store₁).1) :
    Uniform R (attempt step) Q := by
  intro start₁ start₂ h₀
  obtain ⟨outcome, stores, holds⟩ := h start₁.store start₂.store h₀.stores
  refine ⟨⟨[], congrArg Except.ok outcome, by simp, .nothing rfl rfl, .nothing rfl rfl,
    ⟨h₀.names, stores⟩⟩, ?_⟩
  rintro _ ⟨⟩
  exact holds

/-- What a build makes of what a function of the description has come to. -/
theorem answered {title : String} {outcome : Outcome Code α}
    (h : ∀ a, outcome = .ok a → Q a) :
    Uniform R (Build.answered title outcome) fun result ↦ ∀ a ∈ result, Q a := by
  rcases outcome with (p | f) | a
  · refine (report (p.attributedTo title)).bind fun _ _ ↦ pure ?_
    intro a none
    cases none
  · exact throw _
  · refine pure ?_
    intro b some
    rw [← Option.some.inj some]
    exact h a rfl

/-- The results for each item. -/
theorem mapM {step : α → Build Code β} {P : β → Prop} (items : List α)
    (h : ∀ a ∈ items, Uniform R (step a) P) :
    Uniform R (items.mapM step) fun results ↦ ∀ b ∈ results, P b := by
  induction items with
  | nil =>
    rw [List.mapM_nil]
    exact pure (List.forall_mem_nil P)
  | cons a rest ih =>
    rw [List.mapM_cons]
    refine (h a List.mem_cons_self).bind fun b hb ↦ ?_
    refine (ih fun a ha ↦ h a (List.mem_cons_of_mem _ ha)).bind fun results others ↦ pure ?_
    exact List.forall_mem_cons.2 ⟨hb, others⟩

/-- Two runs that have results have the same. -/
theorem of_yields {start₁ start₂ finish₁ finish₂ : Journal Code} {a₁ a₂ : α}
    (h : Uniform R step Q) (h₀ : start₁.Match R start₂)
    (first : Yields .collect step start₁ a₁ finish₁)
    (second : Yields .collect step start₂ a₂ finish₂) :
    a₁ = a₂ ∧ finish₁.Match R finish₂ ∧ ∃ lines, (∀ line ∈ lines, line.IsWithin) ∧
      start₁.Adds lines finish₁ ∧ start₂.Adds lines finish₂ := by
  obtain ⟨lines, outcome, within, adds₁, adds₂, matched⟩ := (h start₁ start₂ h₀).1
  rw [first, second] at outcome matched
  rw [first] at adds₁
  rw [second] at adds₂
  exact ⟨Except.ok.inj outcome, matched, lines, within, adds₁, adds₂⟩

end Uniform

/-- A step that is made of moves does the same from all journals that match, if it does not look at
stores unless they are the same. -/
theorem MadeOf.uniform {may : Move Code → Prop} {R : Store Code → Store Code → Prop}
    {step : Build Code α} (h : MadeOf may step)
    (within : ∀ part grammar, ¬ may (.began part grammar))
    (looks : may .look → ∀ store₁ store₂, R store₁ store₂ ↔ store₁ = store₂) :
    Uniform R step fun _ ↦ True := by
  -- Where the store is looked at, it is the same store, and so is the one that is left.
  have works {γ : Type} {step : Exec Code γ} (allowed : may .look) :
      Uniform R (attempt step) fun _ ↦ True := by
    refine .attempt fun store₁ store₂ same ↦ ?_
    obtain rfl := (looks allowed store₁ store₂).1 same
    exact ⟨rfl, (looks allowed _ _).2 rfl, trivial⟩
  induction h with
  | pure a => exact .pure trivial
  | bind _ _ ih ih' => exact .bind ih fun a _ ↦ ih' a
  | fault f => exact .throw _
  | report _ => exact .report _
  | declare _ => exact .declare _ _
  | began allowed => exact absurd allowed (within _ _)
  | lookNames _ => exact .lookNames _
  | look f allowed =>
    intro start₁ start₂ h₀
    have same := (looks allowed _ _).1 h₀.stores
    exact ⟨⟨[], congrArg (Except.ok ∘ f) same, by simp, .nothing rfl rfl, .nothing rfl rfl, h₀⟩,
      fun _ _ ↦ trivial⟩
  | @absorb _ title step calls =>
    exact (works calls.looks).bind fun outcome _ ↦
      (Uniform.answered fun _ _ ↦ trivial).imp fun _ _ ↦ trivial
  | @perform _ step allowed _ _ =>
    refine (works allowed).bind fun outcome _ ↦ ?_
    cases outcome with
    | error failure => exact .throw failure
    | ok a => exact .pure trivial

/-- What a step reports is about its lines, none of which says that a section is begun. -/
theorem Yields.exists_adds {step : Build Code α} {before after : Journal Code} {a : α}
    (h : Yields .collect step before a after)
    (made : MadeOf (fun move ↦ ∀ part grammar, move ≠ .began part grammar) step) :
    ∃ lines, (∀ line ∈ lines, line.IsWithin) ∧ before.Adds lines after := by
  have uniform : Uniform Eq step fun _ ↦ True :=
    made.uniform (fun part grammar within ↦ within part grammar rfl) fun _ _ _ ↦ Iff.rfl
  obtain ⟨-, -, lines, within, adds, -⟩ := uniform.of_yields ⟨rfl, rfl⟩ h h
  exact ⟨lines, within, adds⟩

end Build

end GrammarDoc
