import GrammarDoc.Build.Lemmas
import GrammarDoc.Proofs.Build.Assembly

/-!
# The two postures

A build that ends at the first problem and one that collects all of them go through the same moves
up to the first report. So they agree if nothing is reported, and else the first build fails with
the first problem of the second, its journal being the beginning of the other.
-/

namespace GrammarDoc

variable {Code : Type} {α β : Type}

/-- A journal that a build has come to from another one: what was in it has stayed, in place. -/
structure Journal.Extends (before after : Journal Code) : Prop where
  names : before.names <+: after.names
  problems : before.problems <+: after.problems
  entries : before.entries <+: after.entries

namespace Journal.Extends

variable {before between after : Journal Code}

/-- A journal extends itself. -/
theorem refl (journal : Journal Code) : journal.Extends journal :=
  ⟨List.prefix_rfl, List.prefix_rfl, List.prefix_rfl⟩

/-- Extending is transitive. -/
theorem trans (h : before.Extends between) (h' : between.Extends after) : before.Extends after :=
  ⟨h.names.trans h'.names, h.problems.trans h'.problems, h.entries.trans h'.entries⟩

end Journal.Extends

/-- A relation of journals that holds between those before and after each move that may be made. -/
structure Move.Keep (may : Move Code → Prop) (R : Journal Code → Journal Code → Prop) : Prop where
  refl : ∀ journal, R journal journal
  trans : ∀ {before between after}, R before between → R between after → R before after
  write : ∀ journal p, may (.report p) →
    R journal { journal with entries := journal.entries ++ [.reported p] }
  report : ∀ journal p, may (.report p) →
    R journal { journal with problems := journal.problems ++ [p] }
  begins : ∀ journal part grammar, may (.began part grammar) →
    R journal { journal with entries := journal.entries ++ [.began part grammar] }
  declare : ∀ journal name tag, may (.declare name tag) →
    R journal { journal with names := journal.names ++ [(name, tag)] }
  work : ∀ journal store, store = journal.store ∨ may (.work journal.store store) →
    R journal { journal with store }

/-- How two runs of a step from the same journal compare, the first collecting all problems and the
second ending at the first problem. -/
inductive Agreement (before : Journal Code) :
    Outcome Code α × Journal Code → Outcome Code α × Journal Code → Prop
  /-- Nothing is reported, and the runs are the same. -/
  | silent {outcome : Outcome Code α} {after : Journal Code} (lines : List (Entry Code)) :
      after.problems = before.problems → after.entries = before.entries ++ lines →
      (∀ p, .reported p ∉ lines) → Agreement before (outcome, after) (outcome, after)
  /-- A problem is reported, with which the second run ends. -/
  | stopped {outcome : Outcome Code α} {after early : Journal Code} (p : Problem Code)
      (rest : List (Problem Code)) (lines later : List (Entry Code)) :
      after.problems = before.problems ++ p :: rest → early.problems = before.problems →
      early.entries = before.entries ++ (lines ++ [.reported p]) →
      after.entries = early.entries ++ later → (∀ q, .reported q ∉ lines) →
      early.names <+: after.names →
      Agreement before (outcome, after) (.error (.problem p), early)

/-- What is done to the store alone does not count. -/
private theorem Agreement.ofWork {before : Journal Code} {store : Store Code}
    {collected built : Outcome Code α × Journal Code}
    (h : Agreement { before with store } collected built) : Agreement before collected built := by
  cases h with
  | silent lines hp he hl => exact .silent lines hp he hl
  | stopped p rest lines later hp hq he hf hl hn =>
    exact .stopped p rest lines later hp hq he hf hl hn

namespace Build

/-- What a build makes of what a function of the description has come to. -/
def answered (title : String) : Outcome Code α → Build Code (Option α)
  | .ok a => return some a
  | .error (.problem p) => do
    report (p.attributedTo title)
    return none
  | .error (.fault f) => throw (.fault f)

/-- What a function of the description did to the store is kept, whatever it has come to. -/
theorem start_absorb (title : String) (step : Exec Code α) (posture : Posture)
    (before : Journal Code) :
    start (absorb title step) posture before =
      start (answered title (step.start before.store).1) posture
        { before with store := (step.start before.store).2 } := by
  unfold absorb
  rw [start_bind, start_attempt]
  rcases (step.start before.store).1 with (p | f) | a
  · rfl
  · rfl
  · rfl

private theorem related_bind {may : Move Code → Prop} {R : Journal Code → Journal Code → Prop}
    (keep : Move.Keep may R) {step : Build Code α} {next : α → Build Code β} {posture : Posture}
    {before : Journal Code} (h : R before (start step posture before).2)
    (h' : ∀ a between, R between (start (next a) posture between).2) :
    R before (start (step >>= next) posture before).2 := by
  rw [start_bind]
  generalize start step posture before = run at h
  obtain ⟨outcome, between⟩ := run
  cases outcome with
  | error failure => exact h
  | ok a => exact keep.trans h (h' a between)

private theorem related_report {may : Move Code → Prop} {R : Journal Code → Journal Code → Prop}
    (keep : Move.Keep may R) {p : Problem Code} (h : may (.report p)) (posture : Posture)
    (before : Journal Code) : R before (start (report p) posture before).2 := by
  have written := keep.write before p h
  cases posture with
  | failFast => exact written
  | collect => exact keep.trans written (keep.report _ p h)

/-- What every move keeps, a whole step keeps, whatever the posture and however the step ends. -/
theorem MadeOf.related {may : Move Code → Prop} {R : Journal Code → Journal Code → Prop}
    {step : Build Code α} (h : MadeOf may step) (keep : Move.Keep may R) (posture : Posture)
    (before : Journal Code) : R before (start step posture before).2 := by
  induction h generalizing before with
  | pure a => exact keep.refl before
  | fault f => exact keep.refl before
  | lookNames _ => exact keep.refl before
  | look f _ => exact keep.refl before
  | @perform _ step _ _ works => exact keep.work before _ (works before.store)
  | began allowed => exact keep.begins before _ _ allowed
  | declare allowed => exact keep.declare before _ _ allowed
  | report allowed => exact related_report keep allowed posture before
  | @absorb _ title step calls =>
    rw [start_absorb]
    refine keep.trans (keep.work before _ (calls.works before.store)) ?_
    rcases outcome : (step.start before.store).1 with (p | f) | a
    · have allowed := calls.reports before.store p outcome
      exact related_bind keep (related_report keep allowed posture _)
        fun _ between ↦ keep.refl between
    · exact keep.refl _
    · exact keep.refl _
  | bind _ _ ih ih' => exact related_bind keep (ih before) fun a between ↦ ih' a between

/-- Nothing in a journal is ever lost, whatever the posture and however a step ends. -/
theorem MadeOf.extends_start {may : Move Code → Prop} {step : Build Code α} (h : MadeOf may step)
    (posture : Posture) (before : Journal Code) :
    before.Extends (start step posture before).2 :=
  h.related {
    refl := .refl
    trans := .trans
    write := fun _ _ _ ↦ ⟨List.prefix_rfl, List.prefix_rfl, List.prefix_append _ _⟩
    report := fun _ _ _ ↦ ⟨List.prefix_rfl, List.prefix_append _ _, List.prefix_rfl⟩
    begins := fun _ _ _ _ ↦ ⟨List.prefix_rfl, List.prefix_rfl, List.prefix_append _ _⟩
    declare := fun _ _ _ _ ↦ ⟨List.prefix_append _ _, List.prefix_rfl, List.prefix_rfl⟩
    work := fun _ _ _ ↦ ⟨List.prefix_rfl, List.prefix_rfl, List.prefix_rfl⟩ } posture before

/-- Without work on it, the store remains. -/
theorem MadeOf.store_start {may : Move Code → Prop} {step : Build Code α} (h : MadeOf may step)
    (still : ∀ before after, ¬ may (.work before after)) (posture : Posture)
    (before : Journal Code) : (start step posture before).2.store = before.store :=
  h.related (R := fun before after ↦ after.store = before.store) {
    refl := fun _ ↦ rfl
    trans := fun first second ↦ second.trans first
    write := fun _ _ _ ↦ rfl
    report := fun _ _ _ ↦ rfl
    begins := fun _ _ _ _ ↦ rfl
    declare := fun _ _ _ _ ↦ rfl
    work := fun _ _ works ↦ works.elim id fun work ↦ absurd work (still _ _) } posture before

/-- Without declarations, the names remain. -/
theorem MadeOf.names_start {may : Move Code → Prop} {step : Build Code α} (h : MadeOf may step)
    (nameless : ∀ name tag, ¬ may (.declare name tag)) (posture : Posture)
    (before : Journal Code) : (start step posture before).2.names = before.names :=
  h.related (R := fun before after ↦ after.names = before.names) {
    refl := fun _ ↦ rfl
    trans := fun first second ↦ second.trans first
    write := fun _ _ _ ↦ rfl
    report := fun _ _ _ ↦ rfl
    begins := fun _ _ _ _ ↦ rfl
    declare := fun _ name tag declares ↦ absurd declares (nameless name tag)
    work := fun _ _ _ ↦ rfl } posture before

private theorem agreement_report (p : Problem Code) (before : Journal Code) :
    Agreement before (start (report p) .collect before) (start (report p) .failFast before) :=
  .stopped p [] [] [] rfl rfl rfl (List.append_nil _).symm (by simp) List.prefix_rfl

private theorem agreement_bind {step : Build Code α} {next : α → Build Code β}
    {before : Journal Code}
    (h : Agreement before (start step .collect before) (start step .failFast before))
    (h' : ∀ a between,
      Agreement between (start (next a) .collect between) (start (next a) .failFast between))
    (hn : ∀ a (between : Journal Code),
      between.Extends (start (next a) .collect between).2) :
    Agreement before (start (step >>= next) .collect before)
      (start (step >>= next) .failFast before) := by
  rw [start_bind, start_bind]
  generalize start step .collect before = collected, start step .failFast before = built at h
  cases h with
  | @silent outcome between lines hp he hl =>
    cases outcome with
    | error failure => exact .silent lines hp he hl
    | ok a =>
      -- The second step starts from one and the same journal under both postures.
      have second := h' a between
      dsimp only
      generalize start (next a) .collect between = collected,
        start (next a) .failFast between = built at second
      cases second with
      | @silent outcome after more hp' he' hl' =>
        refine .silent (lines ++ more) (hp'.trans hp) ?_ ?_
        · rw [he', he, List.append_assoc]
        · simp only [List.mem_append, not_or]
          exact fun p ↦ ⟨hl p, hl' p⟩
      | @stopped outcome after early p rest more later hp' hq he' hf hl' hn' =>
        refine .stopped p rest (lines ++ more) later (hp ▸ hp') (hq.trans hp) ?_ hf ?_ hn'
        · rw [he', he, List.append_assoc, List.append_assoc]
        · simp only [List.mem_append, not_or]
          exact fun p ↦ ⟨hl p, hl' p⟩
  | @stopped outcome between early p rest lines later hp hq he hf hl hm =>
    cases outcome with
    | error failure => exact .stopped p rest lines later hp hq he hf hl hm
    | ok a =>
      -- Whatever the second step adds to the journal comes after the first report.
      have second := hn a between
      dsimp only
      generalize start (next a) .collect between = run at second
      obtain ⟨outcome, after⟩ := run
      obtain ⟨problems, hp'⟩ := second.problems
      obtain ⟨entries, he'⟩ := second.entries
      refine .stopped p (rest ++ problems) lines (later ++ entries) ?_ hq he ?_ hl
        (hm.trans second.names)
      · rw [← hp', hp, List.append_assoc, List.cons_append]
      · rw [← he', hf, List.append_assoc]

private theorem agreement_quiet {outcome : Outcome Code α} {before after : Journal Code}
    (hp : after.problems = before.problems) (he : after.entries = before.entries) :
    Agreement before (outcome, after) (outcome, after) :=
  .silent [] hp (he.trans (List.append_nil _).symm) (by simp)

private theorem agreement_answered (title : String) (outcome : Outcome Code α)
    (before : Journal Code) :
    Agreement before (start (answered title outcome) .collect before)
      (start (answered title outcome) .failFast before) := by
  rcases outcome with (p | f) | a
  · exact agreement_bind (agreement_report _ before) (fun _ _ ↦ agreement_quiet rfl rfl)
      fun _ between ↦ .refl between
  · exact agreement_quiet rfl rfl
  · exact agreement_quiet rfl rfl

/-- The two postures agree on every step of a build. -/
theorem MadeOf.agreement {may : Move Code → Prop} {step : Build Code α} (h : MadeOf may step)
    (before : Journal Code) :
    Agreement before (start step .collect before) (start step .failFast before) := by
  induction h generalizing before with
  | pure a => exact agreement_quiet rfl rfl
  | fault f => exact agreement_quiet rfl rfl
  | lookNames _ => exact agreement_quiet rfl rfl
  | look f _ => exact agreement_quiet rfl rfl
  | perform _ _ _ => exact agreement_quiet rfl rfl
  | @began part grammar _ => exact .silent [.began part grammar] rfl rfl (by simp)
  | declare _ => exact agreement_quiet rfl rfl
  | report _ => exact agreement_report _ before
  | @absorb _ title step _ =>
    rw [start_absorb, start_absorb]
    exact .ofWork (agreement_answered title (step.start before.store).1 _)
  | bind _ hn ih ih' =>
    exact agreement_bind (ih before) ih' fun a between ↦ (hn a).extends_start .collect between

end Build

/-- What a build that ends at the first problem has in common with one that collects them all. -/
structure Concord (collected built : Outcome Code α × Journal Code) : Prop where
  /-- If nothing is reported, the results are the same. -/
  accepted : ∀ a, collected.1 = .ok a → collected.2.problems = [] → built.1 = .ok a
  /-- If something is reported, the second build fails with what is reported first, and without
  having kept it. Its lines end with the one about that problem, and are the first lines of the
  other build. -/
  rejected : ∀ p rest, collected.2.problems = p :: rest →
    built.1 = .error (.problem p) ∧ built.2.problems = [] ∧
      ∃ lines later, collected.2.entries = lines ++ .reported p :: later ∧
        built.2.entries = lines ++ [.reported p] ∧ ∀ q, .reported q ∉ lines
  /-- A fault that comes before any report is the same. -/
  aborted : ∀ f, collected.1 = .error (.fault f) → collected.2.problems = [] →
    built.1 = .error (.fault f)
  /-- In any case the names declared are the first names of the other build. -/
  names : built.2.names <+: collected.2.names

namespace Concord

/-- Runs that agree from a journal without problems and lines are in concord. -/
theorem ofAgreement {before : Journal Code} {collected built : Outcome Code α × Journal Code}
    (h : Agreement before collected built) (hp : before.problems = [])
    (he : before.entries = []) : Concord collected built := by
  cases h with
  | silent lines problems entries unreported =>
    refine ⟨fun a ok _ ↦ ok, fun p rest some ↦ ?_, fun f fault _ ↦ fault, List.prefix_rfl⟩
    rw [problems, hp] at some
    cases some
  | stopped p rest lines later problems kept early entries unreported names =>
    rw [hp, List.nil_append] at problems
    rw [he, List.nil_append] at early
    refine ⟨fun a _ none ↦ ?_, fun q others some ↦ ?_, fun f _ none ↦ ?_, names⟩
    · cases problems.symm.trans none
    · cases problems.symm.trans some
      refine ⟨rfl, kept.trans hp, lines, later, ?_, early, unreported⟩
      rw [entries, early, List.append_assoc, List.singleton_append]
    · cases problems.symm.trans none

/-- A summary comes after the lines about problems. -/
theorem summed {a : α} {after : Journal Code} {built : Outcome Code α × Journal Code}
    (h : Concord (.ok a, after) built) (text : String) (some : after.problems ≠ []) :
    Concord (.ok a, { after with entries := after.entries ++ [.summary text] }) built := by
  refine ⟨fun b _ none ↦ absurd none some, fun p rest first ↦ ?_,
    fun f fault _ ↦ (by cases fault), h.names⟩
  obtain ⟨failed, kept, lines, later, entries, early, unreported⟩ := h.rejected p rest first
  refine ⟨failed, kept, lines, later ++ [.summary text], ?_, early, unreported⟩
  change after.entries ++ [.summary text] = _
  rw [entries, List.append_assoc, List.cons_append]

end Concord

namespace Setting

variable (setting : Setting Code)

/-- An assembly may make every move. -/
theorem permits_all : setting.Permits fun _ ↦ True where
  outside _ := trivial
  reports _ _ := trivial
  looks := trivial
  declares _ _ := trivial
  calls _ _ _ _ := ⟨trivial, fun _ ↦ .inr trivial, fun _ _ _ ↦ trivial⟩
  copies _ _ _ := .inr trivial

/-- A build that collects is an assembly that, if it has a result, is summed up in the end. -/
theorem collect_eq (description : Value Code) (store : Store Code) :
    setting.collect description store =
      match Build.start (setting.assemble description) .collect { store } with
      | (.ok g, after) =>
        (.ok g, if after.problems.isEmpty then after
          else { after with entries := after.entries ++ [.summary (report after.problems)] })
      | (.error failure, after) => (.error failure, after) := by
  unfold collect assembleAll
  rw [Build.start_bind]
  generalize Build.start (setting.assemble description) .collect { store } = run
  obtain ⟨outcome, after⟩ := run
  cases outcome with
  | error failure => rfl
  | ok g =>
    dsimp only
    rw [Build.start_bind, Build.start_get]
    dsimp only
    cases h : after.problems.isEmpty with
    | true => rfl
    | false => rfl

/-- The two postures are in concord on an assembly. -/
theorem concord_assemble (description : Value Code) (store : Store Code) :
    Concord (Build.start (setting.assemble description) .collect { store })
      (Build.start (setting.assemble description) .failFast { store }) :=
  have made := setting.madeOf_assemble description setting.permits_all fun _ _ ↦ trivial
  .ofAgreement (made.agreement { store }) rfl rfl

/-- Summing up changes neither the result nor the problems. -/
theorem outcome_collect (description : Value Code) (store : Store Code) :
    (setting.collect description store).1 =
        (Build.start (setting.assemble description) .collect { store }).1 ∧
      (setting.collect description store).2.problems =
        (Build.start (setting.assemble description) .collect { store }).2.problems := by
  rw [collect_eq]
  rcases Build.start (setting.assemble description) .collect { store } with ⟨failure | g, after⟩
  · exact ⟨rfl, rfl⟩
  · cases problems : after.problems.isEmpty with
    | true => simp [problems]
    | false => simp [problems]

/-- A build that ends at the first problem and one that collects all problems are in concord, for
every description, base and policy and whatever the functions of the description do. -/
theorem concord_collect_build (description : Value Code) (store : Store Code) :
    Concord (setting.collect description store) (setting.build description store) := by
  have concord : Concord (Build.start (setting.assemble description) .collect { store })
      (setting.build description store) := setting.concord_assemble description store
  rw [collect_eq]
  generalize Build.start (setting.assemble description) .collect { store } = run at concord
  obtain ⟨outcome, after⟩ := run
  cases outcome with
  | error failure => exact concord
  | ok g =>
    cases problems : after.problems with
    | nil => simpa [problems] using concord
    | cons p rest => simpa [problems] using concord.summed _ (by simp [problems])

end Setting

end GrammarDoc
