import GrammarDoc.Build.Setting
import GrammarDoc.Proofs.Build.Results
import GrammarDoc.Proofs.Relocation.Journals

/-!
# Steps elsewhere

One step does elsewhere what another does if, from a moved journal, it comes to the moved result of
the other and leaves the moved journal. Whether it does is put together from its parts, as the step
is. A condition on the store is carried along, since functions of a description are only known to
do elsewhere what they do here in stores that a build comes to.
-/

namespace GrammarDoc

variable {Code : Type} {α α' β β' γ γ' : Type} (ρ : Relocation Code) (P : Store Code → Prop)

/-- A step on a store does elsewhere what another does, and keeps a condition on the store. -/
def Exec.Follows (f : α → β) (step₁ : Exec Code α) (step₂ : Exec Code β) : Prop :=
  ∀ store, P store →
    step₂.start (store.moved ρ) =
        Prod.map (Outcome.moved ρ f) (Store.moved ρ) (step₁.start store) ∧
      P (step₁.start store).2

namespace Build

/-- From a journal, a step of a build does elsewhere what another does, and leaves a store that
meets a condition. -/
def FollowsFrom (f : α → β) (posture : Posture) (before : Journal Code) (step₁ : Build Code α)
    (step₂ : Build Code β) : Prop :=
  start step₂ posture (before.moved ρ) =
      Prod.map (Outcome.moved ρ f) (Journal.moved ρ) (start step₁ posture before) ∧
    P (start step₁ posture before).2.store

/-- A step of a build does elsewhere what another does, and keeps a condition on the store. -/
def Follows (f : α → β) (step₁ : Build Code α) (step₂ : Build Code β) : Prop :=
  ∀ posture before, P before.store → FollowsFrom ρ P f posture before step₁ step₂

variable {ρ P} {f : α → β} {g : γ → γ'} {step₁ : Build Code α} {step₂ : Build Code β}

/-- Two steps after each other, the second of which starts from what the first has left. -/
theorem FollowsFrom.bind {posture : Posture} {before : Journal Code} {next₁ : α → Build Code γ}
    {next₂ : β → Build Code γ'} (h : FollowsFrom ρ P f posture before step₁ step₂)
    (h' : ∀ a after, Yields posture step₁ before a after → P after.store →
      FollowsFrom ρ P g posture after (next₁ a) (next₂ (f a))) :
    FollowsFrom ρ P g posture before (step₁ >>= next₁) (step₂ >>= next₂) := by
  unfold FollowsFrom at h ⊢
  rw [start_bind, start_bind, h.1]
  cases first : start step₁ posture before with
  | mk outcome after =>
    rw [first] at h
    cases outcome with
    | error failure => exact ⟨rfl, h.2⟩
    | ok a => exact h' a after first h.2

namespace Follows

/-- A finished step. -/
theorem pure {a : α} {b : β} (h : f a = b) : Follows ρ P f (pure a) (pure b) :=
  fun _ _ kept ↦ ⟨h ▸ rfl, kept⟩

/-- Two steps after each other. -/
theorem bind {next₁ : α → Build Code γ} {next₂ : β → Build Code γ'}
    (h : Follows ρ P f step₁ step₂) (h' : ∀ a, Follows ρ P g (next₁ a) (next₂ (f a))) :
    Follows ρ P g (step₁ >>= next₁) (step₂ >>= next₂) :=
  fun posture before kept ↦ (h posture before kept).bind fun a after _ kept ↦
    h' a posture after kept

/-- What is made of a result. -/
theorem map {next₁ : α → γ} {next₂ : β → γ'} (h : Follows ρ P f step₁ step₂)
    (h' : ∀ a, g (next₁ a) = next₂ (f a)) :
    Follows ρ P g (do return next₁ (← step₁)) (do return next₂ (← step₂)) :=
  h.bind fun a ↦ .pure (h' a)

/-- A fault. -/
theorem fault (fault : Fault) : Follows ρ P f (MonadExcept.throw (Failure.fault fault))
    (MonadExcept.throw (Failure.fault fault)) :=
  fun _ _ kept ↦ ⟨rfl, kept⟩

/-- Looking at the journal. -/
theorem look {look₁ : Journal Code → α} {look₂ : Journal Code → β}
    (h : ∀ journal, f (look₁ journal) = look₂ (journal.moved ρ)) :
    Follows ρ P f (do return look₁ (← get)) (do return look₂ (← get)) :=
  fun _ before kept ↦ ⟨Prod.ext (congrArg Except.ok (h before).symm) rfl, kept⟩

/-- Changing the journal, but not the store. -/
theorem modify {change₁ change₂ : Journal Code → Journal Code}
    (h : ∀ journal, change₂ (journal.moved ρ) = (change₁ journal).moved ρ)
    (store : ∀ journal, (change₁ journal).store = journal.store) :
    Follows ρ P id (modify change₁ : Build Code Unit) (modify change₂) := by
  intro posture before kept
  refine ⟨Prod.ext rfl (h before), ?_⟩
  rwa [start_modify, store]

/-- A report. -/
theorem report (p : Problem Code) : Follows ρ P id (report p) (report (p.moved ρ)) := by
  intro posture before kept
  cases posture with
  | collect =>
    rw [FollowsFrom, start_report_collect, start_report_collect]
    refine ⟨Prod.ext rfl ?_, kept⟩
    simp [Journal.moved, Entry.moved]
  | failFast =>
    rw [FollowsFrom, start_report_failFast, start_report_failFast]
    refine ⟨Prod.ext rfl ?_, kept⟩
    simp [Journal.moved, Entry.moved]

/-- A report in a section. -/
theorem reportIn (within : Option String) (cause : Cause Code) :
    Follows ρ P id (Build.reportIn within cause) (Build.reportIn within (cause.moved ρ)) :=
  report ⟨cause, within⟩

/-- A step on the store, whose failure is a result. -/
theorem attempt {step₁ : Exec Code α} {step₂ : Exec Code β} (h : Exec.Follows ρ P f step₁ step₂) :
    Follows ρ P (Outcome.moved ρ f) (attempt step₁) (attempt step₂) := by
  intro posture before kept
  obtain ⟨eq, kept⟩ := h before.store kept
  rw [FollowsFrom, start_attempt, start_attempt]
  change (_, { before.moved ρ with store := (step₂.start (before.store.moved ρ)).2 }) = _ ∧ _
  rw [Journal.moved, eq]
  exact ⟨rfl, kept⟩

/-- A given outcome. -/
theorem ofOutcome (outcome : Outcome Code α) :
    Follows ρ P f (ofOutcome outcome) (ofOutcome (outcome.moved ρ f)) :=
  fun _ _ kept ↦ ⟨rfl, kept⟩

/-- A step on the store. -/
theorem perform {step₁ : Exec Code α} {step₂ : Exec Code β} (h : Exec.Follows ρ P f step₁ step₂) :
    Follows ρ P f (perform step₁) (perform step₂) :=
  (attempt h).bind ofOutcome

/-- A step on the store that has a result or meets a fault. -/
theorem ofFault {outcome₁ : Except Fault α} {outcome₂ : Except Fault β}
    (h : outcome₂ = outcome₁.map f) :
    Follows ρ P f (Build.perform (Exec.ofFault outcome₁))
      (Build.perform (Exec.ofFault outcome₂)) := by
  refine perform fun store kept ↦ ⟨?_, kept⟩
  subst h
  cases outcome₁ with
  | error fault => rfl
  | ok a => rfl

/-- A function of the description that does elsewhere what it does here. -/
theorem absorb {title : String} {step₁ : Exec Code α} {step₂ : Exec Code β}
    (h : Exec.Follows ρ P f step₁ step₂) :
    Follows ρ P (Option.map f) (Build.absorb title step₁) (Build.absorb title step₂) := by
  refine (attempt h).bind fun outcome ↦ ?_
  rcases outcome with (p | fault) | a
  · exact (report (p.attributedTo title)).bind fun _ ↦ pure rfl
  · exact Follows.fault fault
  · exact pure rfl

/-- A value as it is at present. -/
theorem present (v : Value Code) :
    Follows ρ P (Value.moved ρ) (present v) (present (v.moved ρ)) :=
  look fun journal ↦ (journal.store.present_moved ρ v).symm

/-- The outermost layer of a value as it is at present. -/
theorem read (v : Value Code) : Follows ρ P (Value.moved ρ) (Build.perform (Exec.read v))
    (Build.perform (Exec.read (v.moved ρ))) :=
  perform fun store kept ↦ ⟨Prod.ext (congrArg Except.ok (store.read_moved ρ v)) rfl, kept⟩

/-- The elements of a value as it is at present. -/
theorem elements (v : Value Code) :
    Follows ρ P (List.map (Value.moved ρ)) (elements v) (elements (v.moved ρ)) :=
  (present v).bind fun v ↦ ofFault (v.elements_moved ρ)

/-- Going through items of which each is elsewhere what it is here. -/
theorem filterMap {f : α → β} {each₁ : α → Build Code (Option γ)}
    {each₂ : β → Build Code (Option γ')} {items : List α}
    (h : ∀ a ∈ items, Follows ρ P (Option.map g) (each₁ a) (each₂ (f a))) :
    Follows ρ P (List.map g) (filterMap each₁ items) (filterMap each₂ (items.map f)) := by
  induction items with
  | nil => exact pure rfl
  | cons a rest ih =>
    replace ih := ih fun b mem ↦ h b (List.mem_cons_of_mem a mem)
    refine (h a List.mem_cons_self).bind fun result ↦ ?_
    cases result with
    | none => exact ih
    | some c => exact ih.map fun _ ↦ rfl

/-- Going through items with their positions. -/
theorem filterMapIdx {f : α → β} {each₁ : Nat → α → Build Code (Option γ)}
    {each₂ : Nat → β → Build Code (Option γ')}
    (h : ∀ i a, Follows ρ P (Option.map g) (each₁ i a) (each₂ i (f a))) (items : List α) :
    Follows ρ P (List.map g) (filterMapIdx each₁ items) (filterMapIdx each₂ (items.map f)) := by
  unfold Build.filterMapIdx
  rw [List.zipIdx_map]
  exact filterMap fun entry _ ↦ h entry.2 entry.1

/-- A step for each item. -/
theorem forM {f : α → β} {each₁ : α → Build Code PUnit} {each₂ : β → Build Code PUnit}
    (h : ∀ a, Follows ρ P id (each₁ a) (each₂ (f a))) (items : List α) :
    Follows ρ P id (items.forM each₁) ((items.map f).forM each₂) := by
  induction items with
  | nil => exact pure rfl
  | cons a rest ih => exact (h a).bind fun _ ↦ ih

/-- The results of a step for each item. -/
theorem mapM {f : α → β} {each₁ : α → Build Code γ} {each₂ : β → Build Code γ'}
    (h : ∀ a, Follows ρ P g (each₁ a) (each₂ (f a))) (items : List α) :
    Follows ρ P (List.map g) (items.mapM each₁) ((items.map f).mapM each₂) := by
  induction items with
  | nil =>
    rw [List.map_nil, List.mapM_nil, List.mapM_nil]
    exact pure rfl
  | cons a rest ih =>
    rw [List.map_cons, List.mapM_cons, List.mapM_cons]
    exact (h a).bind fun c ↦ ih.map fun _ ↦ rfl

/-- A step of which only that it is done counts. -/
theorem discard (h : Follows ρ P f step₁ step₂) :
    Follows ρ P id (discard step₁) (discard step₂) :=
  h.bind fun _ ↦ .pure rfl

end Follows

end Build

end GrammarDoc
