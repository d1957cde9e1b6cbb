import GrammarDoc.Proofs.Build.Twins

/-!
# Steps among other names

A step of a build sees of the names that are declared only which tag each of them has. So it does
the same among other names with the same tags, and declares the same names there. In particular the
order in which names have been declared does not matter to any later step.
-/

namespace GrammarDoc

variable {Code : Type} {α β : Type}

/-- A journal with other names. -/
def Journal.renamed (journal : Journal Code) (names : Namespace Code) : Journal Code :=
  { journal with names }

/-- Names still have the same tags after the same names are declared. -/
theorem Table.Agrees.declaring {names others : Namespace Code} (agrees : names.Agrees others)
    (declared : Namespace Code) : Table.Agrees (names ++ declared) (others ++ declared) := by
  intro key
  rw [Table.find?_append, Table.find?_append, agrees key]

namespace Build

/-- Two runs have the same outcome and declare the same names, each among other names. -/
structure RunsAmong (names others : Namespace Code) (run run' : Outcome Code α × Journal Code)
    (declared : Namespace Code) : Prop where
  kept : run.2.names = names ++ declared
  same : run' = (run.1, run.2.renamed (others ++ declared))

/-- Whether a step sees of the names only which tag each of them has. -/
def SeesTags (step : Build Code α) : Prop :=
  ∀ (posture : Posture) (journal : Journal Code) (names : Namespace Code),
    journal.names.Agrees names → ∃ declared, RunsAmong journal.names names
      (start step posture journal) (start step posture (journal.renamed names)) declared

namespace SeesTags

variable {step : Build Code α}

/-- A step that declares nothing. -/
theorem quiet
    (kept : ∀ posture journal, (start step posture journal).2.names = journal.names)
    (same : ∀ posture (journal : Journal Code) (names : Namespace Code),
      journal.names.Agrees names → start step posture (journal.renamed names) =
        ((start step posture journal).1, (start step posture journal).2.renamed names)) :
    SeesTags step := by
  intro posture journal names agrees
  refine ⟨[], ?_, ?_⟩
  · rw [kept, List.append_nil]
  · rw [same posture journal names agrees, List.append_nil]

private theorem bind {next : α → Build Code β} (h : SeesTags step) (h' : ∀ a, SeesTags (next a)) :
    SeesTags (step >>= next) := by
  intro posture journal names agrees
  obtain ⟨declared, kept, same⟩ := h posture journal names agrees
  rw [start_bind, start_bind, same]
  generalize start step posture journal = run at kept
  obtain ⟨outcome, between⟩ := run
  cases outcome with
  | error failure => exact ⟨declared, kept, rfl⟩
  | ok a =>
    have agrees : between.names.Agrees (names ++ declared) := by
      rw [show between.names = journal.names ++ declared from kept]
      exact agrees.declaring declared
    obtain ⟨more, kept', same'⟩ := h' a posture between (names ++ declared) agrees
    refine ⟨declared ++ more, ?_, ?_⟩
    · rw [kept', show between.names = journal.names ++ declared from kept, List.append_assoc]
    · rw [← List.append_assoc]
      exact same'

private theorem report (p : Problem Code) : SeesTags (report p) := by
  refine quiet (fun posture journal ↦ ?_) fun posture journal names _ ↦ ?_
  · cases posture with
    | failFast => rfl
    | collect => rfl
  · cases posture with
    | failFast => rfl
    | collect => rfl

private theorem answered (title : String) (outcome : Outcome Code α) :
    SeesTags (answered title outcome) := by
  rcases outcome with (p | f) | a
  · exact (report _).bind fun _ ↦ quiet (fun _ _ ↦ rfl) fun _ _ _ _ ↦ rfl
  · exact quiet (fun _ _ ↦ rfl) fun _ _ _ _ ↦ rfl
  · exact quiet (fun _ _ ↦ rfl) fun _ _ _ _ ↦ rfl

end SeesTags

variable {may : Move Code → Prop} {step : Build Code α}

/-- Whatever moves a step is made of, it sees of the names only which tag each of them has. -/
theorem MadeOf.seesTags (h : MadeOf may step) : SeesTags step := by
  induction h with
  | pure | fault | began | look | perform => exact .quiet (fun _ _ ↦ rfl) fun _ _ _ _ ↦ rfl
  | bind _ _ ih ih' => exact ih.bind ih'
  | report _ => exact .report _
  | @declare name tag _ => exact fun _ _ _ _ ↦ ⟨[(name, tag)], rfl, rfl⟩
  | @lookNames _ f same =>
    refine .quiet (fun _ _ ↦ rfl) fun posture journal names agrees ↦ ?_
    change (Except.ok (f names), journal.renamed names) = (Except.ok (f journal.names), _)
    rw [same _ _ agrees]
    rfl
  | @absorb _ title step _ =>
    have called : SeesTags (attempt step) := .quiet (fun _ _ ↦ rfl) fun _ _ _ _ ↦ rfl
    exact called.bind (SeesTags.answered title)

/-- Two runs of a step that collects problems, from the same store and from names with the same
tags, come to the same store, have declared the same names and have added the same lines. -/
theorem MadeOf.agree_of_yields {before before' after after' : Journal Code} {a a' : α}
    (made : MadeOf (fun move ↦ ∀ part grammar, move ≠ .began part grammar) step)
    (names : before.names.Agrees before'.names) (stores : before.store = before'.store)
    (h : Yields .collect step before a after) (h' : Yields .collect step before' a' after') :
    a = a' ∧ after.store = after'.store ∧
      (∃ declared, after.names = before.names ++ declared ∧
        after'.names = before'.names ++ declared) ∧
      ∃ lines, (∀ line ∈ lines, line.IsWithin) ∧ before.Adds lines after ∧
        before'.Adds lines after' := by
  obtain ⟨declared, kept, same⟩ := made.seesTags .collect before before'.names names
  rw [h] at kept same
  have uniform : Uniform Eq step fun _ ↦ True :=
    made.uniform (fun part grammar within ↦ within part grammar rfl) fun _ _ _ ↦ Iff.rfl
  have start : (before.renamed before'.names).Match Eq before' := ⟨rfl, stores⟩
  obtain ⟨eq, matched, lines, within, adds, adds'⟩ := uniform.of_yields start same h'
  exact ⟨eq, matched.stores, ⟨declared, kept, matched.names.symm⟩, lines, within,
    ⟨adds.problems, adds.entries⟩, adds'⟩

end Build

end GrammarDoc
