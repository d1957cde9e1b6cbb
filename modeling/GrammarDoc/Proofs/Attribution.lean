import GrammarDoc.Proofs.Collecting
import GrammarDoc.Proofs.Persistence
import GrammarDoc.Proofs.Progress

/-!
# Attribution

A problem is reported in the section that is being gone through. What a section reports itself it
reports under its own title, and so it does with what a function raises that names no section. So
all problems come section by section, after those with the description itself, which are in none.
-/

namespace GrammarDoc

open Build (Yields MadeOf)

variable {Code : Type} {α β : Type} {before : Journal Code}

/-! ### What a step writes -/

/-- Whether a line reports a problem in a section, or in none. -/
def Entry.IsIn (title : Option String) : Entry Code → Prop
  | .reported p => p.within = title
  | .began _ _ | .summary _ => False

/-- Whether a move writes no lines but those with a property. -/
def Move.Writes (P : Entry Code → Prop) : Move Code → Prop
  | .report p => P (.reported p)
  | .began part grammar => P (.began part grammar)
  | .declare _ _ | .look | .work _ _ => True

namespace Build

variable {P : Entry Code → Prop} {step : Build Code α}

/-- However a step ends that collects problems, the lines that it has written have a property. -/
def Writes (P : Entry Code → Prop) (step : Build Code α) (before : Journal Code) : Prop :=
  ∃ lines, (start step .collect before).2.entries = before.entries ++ lines ∧
    ∀ line ∈ lines, P line

/-- What is made of moves writes what its moves write. -/
theorem MadeOf.writes (h : MadeOf (Move.Writes P) step) : Writes P step before := by
  have nothing (journal : Journal Code) : ∃ lines : List (Entry Code),
      journal.entries = journal.entries ++ lines ∧ ∀ line ∈ lines, P line := ⟨[], by simp⟩
  have written {line : Entry Code} (allowed : P line) (journal : Journal Code) :
      ∃ lines, journal.entries ++ [line] = journal.entries ++ lines ∧ ∀ line ∈ lines, P line :=
    ⟨[line], rfl, by simpa⟩
  exact h.related (R := fun before after ↦
      ∃ lines, after.entries = before.entries ++ lines ∧ ∀ line ∈ lines, P line) {
    refl := nothing
    trans := by
      rintro before between after ⟨lines, first, all⟩ ⟨more, second, others⟩
      refine ⟨lines ++ more, ?_, List.forall_mem_append.2 ⟨all, others⟩⟩
      rw [second, first, List.append_assoc]
    write := fun journal _ allowed ↦ written allowed journal
    report := fun journal _ _ ↦ nothing journal
    begins := fun journal _ _ allowed ↦ written allowed journal
    declare := fun journal _ _ _ ↦ nothing journal
    work := fun journal _ _ ↦ nothing journal } .collect before

/-- Of two steps, the second writes from where the first has left off. -/
theorem Writes.bind {next : α → Build Code β} (h : Writes P step before)
    (h' : ∀ a between, Yields .collect step before a between → Writes P (next a) between) :
    Writes P (step >>= next) before := by
  obtain ⟨lines, first, all⟩ := h
  unfold Writes
  rw [start_bind]
  cases run : start step .collect before with
  | mk outcome between =>
    rw [run] at first
    cases outcome with
    | error failure => exact ⟨lines, first, all⟩
    | ok a =>
      obtain ⟨more, second, others⟩ := h' a between run
      refine ⟨lines ++ more, ?_, List.forall_mem_append.2 ⟨all, others⟩⟩
      dsimp only
      rw [second, first, List.append_assoc]

private theorem Yields.writes_bind {next : α → Build Code β} {a : α}
    (h : Yields .collect step before a before) (h' : Writes P (next a) before) :
    Writes P (step >>= next) before := by
  unfold Writes
  rw [start_bind, h]
  exact h'

/-- What is made of a result does not matter. -/
theorem Writes.return (h : Writes P step before) (f : α → β) :
    Writes P (do return f (← step)) before :=
  h.bind fun a _ _ ↦ MadeOf.writes (.pure (f a))

/-- What a function raises is reported in the section, if it does not name another. -/
theorem writes_absorb {title : String} {step : Exec Code α}
    (h : ∀ p, (step.start before.store).1 = .error (.problem p) → p.within = none) :
    Writes (Entry.IsIn (some title)) (absorb title step) before := by
  unfold Writes
  rw [start_absorb]
  rcases raised : (step.start before.store).1 with (p | f) | a
  · refine ⟨[.reported (p.attributedTo title)], rfl, ?_⟩
    rw [List.forall_mem_singleton]
    show p.within.or (some title) = some title
    rw [h p raised, Option.none_or]
  · exact ⟨[], by simp [answered]⟩
  · exact ⟨[], by simp [answered]⟩

/-- Items that are gone through each write from where those before them have left off. -/
theorem writes_filterMap_of_split {step : α → Build Code (Option β)} {items : List α}
    (h : ∀ earlier a later, items = earlier ++ a :: later → ∀ bs between,
      Yields .collect (filterMap step earlier) before bs between → Writes P (step a) between) :
    Writes P (filterMap step items) before := by
  induction items generalizing before with
  | nil => exact MadeOf.writes (.pure _)
  | cons a rest ih =>
    have here := h [] a rest rfl [] before ((yields_filterMap_nil _ _).2 ⟨rfl, rfl⟩)
    refine here.bind fun result between first ↦ ?_
    have more : Writes P (filterMap step rest) between := by
      refine ih fun earlier b later split bs next gone ↦ ?_
      refine h (a :: earlier) b later (split ▸ rfl) (result.toList ++ bs) next ?_
      exact (yields_filterMap_cons _ _ _ _).2 ⟨result, between, first, bs, gone, rfl⟩
    cases result with
    | none => exact more
    | some b => exact more.return _

end Build

open Build (Writes)

/-! ### What a section writes -/

/-- Lines in a section may be written by reports in it. -/
theorem Move.reports_isIn (title : String) :
    Move.Reports (Move.Writes (Entry.IsIn (some title)) : Move Code → Prop) title :=
  fun _ ↦ rfl

private theorem Move.declares_writes (P : Entry Code → Prop) (tag : String) :
    Move.Declares (Move.Writes P) tag :=
  fun _ ↦ trivial

namespace Setting

variable {setting : Setting Code} {entries : Table Code (Value Code)}

/-- If a function raises a problem, it does not attribute it to a section. -/
def Unattributed (setting : Setting Code) (call : Call Code) : Prop :=
  ∀ p, ((setting.call call.place call.function call.offered).start call.store).1 =
    .error (.problem p) → p.within = none

/-- The value of a section is evaluated by writing in that section. -/
theorem writes_evaluate (part : Section) {v offered : Value Code}
    (h : ∀ f, v.callable? = some f → f.takesArgument = true →
      setting.Unattributed ⟨setting.made "call" part.title, f, offered, before.store⟩) :
    Writes (Entry.IsIn (some part.title)) (setting.evaluate part v offered) before := by
  unfold evaluate
  split
  · exact MadeOf.writes (.pure v)
  · next f callable =>
    split
    · next takes => exact (Build.writes_absorb (h f callable takes)).return _
    · exact MadeOf.writes (.pure v)

private theorem writes_externals
    (h : ∀ call, setting.Makes entries .externals before call → setting.Unattributed call) :
    Writes (Entry.IsIn (some "externals")) (setting.externals entries) before := by
  have reports : Move.Reports (Move.Writes (Entry.IsIn (some "externals")) : Move Code → Prop)
      "externals" := Move.reports_isIn _
  refine (madeOf_inheritedExternals setting trivial).writes.bind fun inherited between found ↦ ?_
  split
  · have inherits := Externals.madeOf_inherit inherited.toList reports (Move.declares_writes _ _)
    exact (MadeOf.bind inherits fun _ ↦ .pure inherited).writes
  · next v given =>
    have passing : Yields .collect (setting.passed .externals) before (.list inherited) between :=
      (Build.yields_bind _ _ _).2 ⟨_, _, found, (Build.yields_pure _ _).2 ⟨rfl, rfl⟩⟩
    refine Writes.bind (writes_evaluate .externals fun f callable takes ↦ ?_)
      fun w _ _ ↦ MadeOf.writes (.bind (.present w trivial) fun v ↦
        .bind (Externals.madeOf_validate v reports (Move.declares_writes _ _)) fun _ ↦ .pure _)
    exact h _ (.ofSection (by decide) callable takes (fun eq ↦ by cases eq) passing)

end Setting

namespace Rules

variable {setting : Setting Code} {inherited : Definitions Code}

private theorem writes_define {name : Value Code} {f : Callable (Value Code) Code}
    (h : setting.Unattributed ⟨(setting.made "call" "rules").part name.shown, f,
      .ofOption (inherited.find? name), before.store⟩) :
    Writes (Entry.IsIn (some "rules")) (define setting inherited (name, f)) before := by
  refine (Build.writes_absorb h).bind fun result between _ ↦ MadeOf.writes ?_
  cases result with
  | none => exact .pure none
  | some raw =>
    exact .bind (.present raw trivial) fun v ↦
      .bind (.normalize v (Move.reports_isIn "rules")) fun _ ↦ .pure _

private theorem writes_gather {given : List (Value Code × Value Code)}
    (h : ∀ first earlier name f later second defined third,
      Yields .collect (inherit inherited) before () first →
      Yields .collect (Build.filterMap (declareEntry inherited) given) first
        (earlier ++ (name, f) :: later) second →
      Yields .collect (Build.filterMap (define setting inherited) earlier) second defined third →
      setting.Unattributed ⟨(setting.made "call" "rules").part name.shown, f,
        .ofOption (inherited.find? name), third.store⟩) :
    Writes (Entry.IsIn (some "rules")) (gather setting inherited given) before := by
  have reports :
      Move.Reports (Move.Writes (Entry.IsIn (some "rules")) : Move Code → Prop) "rules" :=
    Move.reports_isIn _
  have declares :
      Move.Declares (Move.Writes (Entry.IsIn (some "rules")) : Move Code → Prop) "rule" :=
    Move.declares_writes _ _
  refine (madeOf_inherit inherited reports declares).writes.bind fun _ first inherits ↦ ?_
  have declaring := MadeOf.filterMap given fun entry _ ↦
    madeOf_declareEntry inherited entry reports declares
  refine declaring.writes.bind fun functions second declared ↦ ?_
  refine Writes.return (Build.writes_filterMap_of_split ?_) _
  rintro earlier ⟨name, f⟩ later rfl defined third called
  exact writes_define (h first earlier name f later second defined third inherits declared called)

private theorem writes_validate {v : Value Code}
    (h : ∀ given, v.object? = some given →
      Writes (Entry.IsIn (some "rules")) (gather setting inherited given) before) :
    Writes (Entry.IsIn (some "rules")) (validate setting inherited v) before := by
  have reports :
      Move.Reports (Move.Writes (Entry.IsIn (some "rules")) : Move Code → Prop) "rules" :=
    Move.reports_isIn _
  cases object : v.object? with
  | none =>
    have stopped : validate setting inherited v = (do
        Build.report ⟨.notAnObject "rules" v, some "rules"⟩
        return []) := by
      change Guard.before ⟨.object "rules", []⟩ pure _ v = _
      rw [Guard.before, Shape.admits, object]
      rfl
    rw [stopped]
    exact MadeOf.writes (.bind (.report (reports _)) fun _ ↦ .pure _)
  | some given =>
    rw [validate_eq object, fromEntries_eq]
    refine (h given object).bind fun definitions between _ ↦ MadeOf.writes ?_
    have resolves : MadeOf (Move.Writes (Entry.IsIn (some "rules")))
        (do resolve definitions; return definitions : Build Code (Definitions Code)) :=
      .bind (madeOf_resolve definitions reports trivial) fun _ ↦ .pure _
    split
    · exact .bind (.reportIn (reports _)) fun _ ↦ resolves
    · exact resolves

end Rules

namespace Setting

variable {setting : Setting Code} {entries : Table Code (Value Code)}

private theorem writes_rules
    (h : ∀ call, setting.Makes entries .rules before call → setting.Unattributed call) :
    Writes (Entry.IsIn (some "rules")) (setting.rules entries) before := by
  refine (madeOf_inheritedRules setting trivial).writes.bind fun inherited start found ↦ ?_
  refine ((Build.yields_present _ _).2 ⟨rfl, rfl⟩).writes_bind (Writes.return ?_ _)
  refine Rules.writes_validate fun given object ↦ Rules.writes_gather ?_
  intro first earlier name f later second defined third inherits declared called
  exact h _ (.ofRule found object inherits declared called)

private theorem writes_part {part : Section} (hp : part ∉ [Section.name, .externals, .rules, .word])
    (h : ∀ call, setting.Makes entries part before call → setting.Unattributed call) :
    Writes (Entry.IsIn (some part.title)) (setting.part entries part (setting.checks part))
      before := by
  refine (madeOf_inherited setting part).writes.bind fun inherited journal found ↦ ?_
  refine (madeOf_offered setting part inherited trivial).writes.bind fun offered next offering ↦ ?_
  have passing : Yields .collect (setting.passed part) before offered next := by
    rw [setting.passed_of_ne_externals (by rintro rfl; simp at hp)]
    exact (Build.yields_bind _ _ _).2 ⟨_, _, found, offering⟩
  split
  · refine MadeOf.writes (.bind (.perform trivial (fun _ _ h ↦ by cases h)
      fun _ ↦ .inr trivial) fun copy ↦ ?_)
    split
    · exact .pure _
    · exact .fault _
  · refine (writes_evaluate part fun f callable takes ↦ ?_).bind fun w _ _ ↦
      MadeOf.writes (.bind (.present w trivial) fun v ↦
        .bind (setting.madeOf_checks part v (Move.reports_isIn _)) fun _ ↦ .pure _)
    refine h _ (.ofSection ?_ callable takes ?_ passing)
    · exact fun mem ↦ hp (by simp at mem ⊢; tauto)
    · exact fun eq ↦ absurd (by simp [eq]) hp

private theorem writes_word
    (h : ∀ call, setting.Makes entries .word before call → setting.Unattributed call) :
    Writes (Entry.IsIn (some "word")) (setting.word entries) before := by
  have reports : Move.Reports (Move.Writes (Entry.IsIn (some "word")) : Move Code → Prop) "word" :=
    Move.reports_isIn _
  refine (madeOf_inherited setting .word).writes.bind fun inherited journal found ↦ ?_
  obtain ⟨rfl, -⟩ := of_yields_inherited found
  split
  · exact MadeOf.writes (.perform trivial (fun _ _ h ↦ by cases h) fun _ ↦ .inr trivial)
  · refine ((yields_refersToDeclared _ _).2 ⟨rfl, rfl⟩).writes_bind ?_
    split
    · exact (Names.madeOf_validateWord _ reports).writes
    · next called =>
      refine Writes.bind (writes_evaluate .word fun f callable takes ↦ ?_) fun w _ _ ↦
        MadeOf.writes (.bind (.present w trivial) fun v ↦ Names.madeOf_validateWord v reports)
      have passing : Yields .collect (setting.passed .word) journal inherited journal :=
        (Build.yields_bind _ _ _).2 ⟨_, _, found, yields_offered_word found journal⟩
      exact h _ (.ofSection (by decide) callable takes (fun _ ↦ Bool.eq_false_iff.2 called) passing)

/-- Each section writes problems in that section and nothing else, if no function that it calls
attributes a problem to a section. -/
theorem writes_goThrough (part : Section)
    (h : ∀ call, setting.Makes entries part before call → setting.Unattributed call) :
    Writes (Entry.IsIn (some part.title)) (setting.goThrough entries part) before := by
  cases part with
  | name => exact (madeOf_name setting entries (Move.reports_isIn _) trivial).writes
  | externals => exact (writes_externals h).return _
  | rules => exact (writes_rules h).return _
  | word => exact writes_word h
  | extras | inline | conflicts | supertypes | precedences =>
    exact (writes_part (by decide) h).return _

end Setting

/-! ### The section that is being gone through -/

namespace Entry

/-- The section that a line says is begun. -/
def begun? : Entry Code → Option Section
  | .began part _ => some part
  | .reported _ | .summary _ => none

/-- The section that is begun last in some lines. -/
def current? (lines : List (Entry Code)) : Option Section := (lines.filterMap begun?).getLast?

/-- Whether some lines report problems in the section only that is being gone through, given which
one that is before the first line. Problems that are reported before any section is begun are in
none. -/
def Attributed : Option Section → List (Entry Code) → Prop
  | _, [] => True
  | _, .began part _ :: rest => Attributed (some part) rest
  | current, .reported p :: rest => p.within = current.map Section.title ∧ Attributed current rest
  | current, .summary _ :: rest => Attributed current rest

variable {current : Option Section} {lines rest : List (Entry Code)}

private theorem attributed_append (current : Option Section)
    (here : ∀ line ∈ lines, IsIn (current.map Section.title) line)
    (more : Attributed current rest) : Attributed current (lines ++ rest) := by
  induction lines with
  | nil => exact more
  | cons line lines ih =>
    rw [List.forall_mem_cons] at here
    cases line with
    | reported p => exact ⟨here.1, ih here.2⟩
    | began part grammar => exact here.1.elim
    | summary text => exact here.1.elim

private theorem Attributed.summed (h : Attributed current lines) (text : String) :
    Attributed current (lines ++ [.summary text]) := by
  induction lines generalizing current with
  | nil => trivial
  | cons line lines ih =>
    cases line with
    | reported p => exact ⟨h.1, ih h.2⟩
    | began part grammar => exact ih h
    | summary other => exact ih h

/-- What is reported after some lines is in the section that has been begun last in them. -/
theorem Attributed.within_eq {p : Problem Code}
    (h : Attributed current (lines ++ .reported p :: rest)) :
    p.within = ((current? lines).or current).map Section.title := by
  induction lines generalizing current with
  | nil => exact h.1
  | cons line lines ih =>
    cases line with
    | reported q => exact ih h.2
    | summary text => exact ih h
    | began part grammar =>
      have begins : (began part grammar :: lines).filterMap begun? =
          part :: lines.filterMap begun? := rfl
      rw [ih h, current?, current?, begins, List.getLast?_cons]
      cases (lines.filterMap begun?).getLast? <;> rfl

/-- What is reported in the course of a section is in that section. -/
theorem Attributed.within_of_mem {part : Section} (h : Attributed current lines) :
    ∀ p ∈ problemsIn part (current = some part) lines, p.within = some part.title := by
  induction lines generalizing current with
  | nil => exact fun p mem ↦ absurd mem List.not_mem_nil
  | cons line lines ih =>
    cases line with
    | summary text => exact ih h
    | began other grammar =>
      have later := ih h
      simpa [problemsIn] using later
    | reported q =>
      have later := ih h.2
      by_cases here : current = some part
      · obtain ⟨within, -⟩ := h
        rw [decide_eq_true here] at later ⊢
        rw [here] at within
        rw [problemsIn, if_pos rfl, List.forall_mem_cons]
        exact ⟨within, later⟩
      · rw [decide_eq_false here] at later ⊢
        exact later

end Entry

/-! ### Problems with the description itself -/

private theorem Build.yields_forM_reportIn (within : Option String) (cause : α → Cause Code)
    (items : List α) :
    Yields .collect (items.forM fun a ↦ Build.reportIn within (cause a)) before ()
      (before.reporting (items.map fun a ↦ ⟨cause a, within⟩)) := by
  induction items generalizing before with
  | nil => exact (Build.yields_pure _ _).2 ⟨rfl, Journal.reporting_nil before⟩
  | cons a rest ih =>
    refine (Build.yields_bind _ _ _).2 ⟨(), _, (Build.yields_reportIn _ _ _).2 ⟨rfl, rfl⟩, ?_⟩
    have more : Yields .collect _ (before.reporting [⟨cause a, within⟩]) () _ := ih
    rwa [Journal.reporting_append] at more

namespace Description

/-- What is wrong with a description itself: that it is no mapping, and keys that are no
sections. -/
def problems (description : Value Code) (store : Store Code) : List (Problem Code) :=
  (if (store.read description).object?.isNone then
      [⟨.notADescription description, none⟩]
    else []) ++
    ((given description store).keys.filter fun key ↦ !isSection key).map fun key ↦
      ⟨.unknownSection key, none⟩

/-- What is wrong with a description itself is in no section. -/
theorem within_of_mem_problems {description : Value Code} {store : Store Code} :
    ∀ p ∈ problems description store, p.within = none := by
  simp only [problems, List.mem_append, List.mem_map]
  rintro p (mem | ⟨key, -, rfl⟩)
  · split at mem
    · rw [List.mem_singleton.1 mem]
    · exact absurd mem List.not_mem_nil
  · rfl

/-- Before it goes through the sections, a build reports what is wrong with the description
itself. -/
theorem yields_opening (description : Value Code) :
    Yields .collect (check description) before ()
      (before.reporting (problems description before.store)) := by
  have read : Yields .collect (Build.perform (Exec.read description)) before
      (before.store.read description) before := (Build.yields_read _ _).2 ⟨rfl, rfl⟩
  refine (Build.yields_bind _ _ _).2 ⟨_, _, read, ?_⟩
  unfold problems given
  cases object : (before.store.read description).object? with
  | some table => exact Build.yields_forM_reportIn none Cause.unknownSection _
  | none => exact (Build.yields_reportIn _ _ _).2 ⟨rfl, rfl⟩

end Description

/-! ### Whole builds -/

namespace Setting

variable {setting : Setting Code} {description : Value Code} {store : Store Code}
  {after : Journal Code}

/-- No function that is called in the course of a build attributes a problem to a section. -/
def RaisesUnattributed (setting : Setting Code) (description : Value Code) (store : Store Code) :
    Prop :=
  ∀ part before, setting.Begins .collect description { store } part before → ∀ call,
    setting.Makes (Description.given description before.store) part before call →
      setting.Unattributed call

/-- However passing through sections ends, what has been written about each is in that section. The
induction is on the sections that are left, those before having been passed through. -/
theorem exists_attributed_passThrough (h : setting.RaisesUnattributed description store)
    {fields : Section → Value Code} {earlier parts : List Section} {start : Journal Code}
    (opened : Yields .collect (Description.check description) { store } () start)
    (split : Section.all = earlier ++ parts)
    (traverses : setting.Traverses description .collect fields earlier start before) :
    ∃ lines,
      (Build.start (setting.passThrough description fields parts) .collect before).2.entries =
        before.entries ++ lines ∧
      ∀ current, Entry.Attributed current lines := by
  induction parts generalizing earlier fields before with
  | nil => exact ⟨[], (List.append_nil _).symm, fun _ ↦ trivial⟩
  | cons part rest ih =>
    have once : part ∉ earlier := fun mem ↦
      not_mem_of_all_eq split (List.mem_append_left rest mem)
    have begins : setting.Begins .collect description { store } part (before.begun fields part) :=
      ⟨fields, start, before, opened, Section.eq_earlier split ▸ traverses, rfl⟩
    obtain ⟨lines, written, here⟩ := writes_goThrough part (h part _ begins)
    rw [before.store_begun] at written
    obtain ⟨grammar, begun⟩ := before.exists_begun fields part
    have announced : (before.begun fields part).entries = before.entries ++ [.began part grammar] :=
      begun ▸ rfl
    rw [start_passThrough_cons]
    cases run : Build.start (setting.goThrough (Description.given description before.store) part)
        .collect (before.begun fields part) with
    | mk outcome between =>
      rw [run, announced] at written
      cases outcome with
      -- A section that fails ends the run; what it has written is attributed all the same.
      | error failure =>
        refine ⟨.began part grammar :: lines, by simpa using written, fun current ↦ ?_⟩
        have attributed : Entry.Attributed (some part) (lines ++ []) :=
          Entry.attributed_append (some part) here trivial
        rwa [List.append_nil] at attributed
      | ok v =>
        obtain ⟨more, rest, later⟩ := ih (split.trans (by simp))
          (traverses.snoc once (fun name ↦ eq_nil_of_all_eq (name ▸ split)) run)
        refine ⟨.began part grammar :: (lines ++ more), ?_, fun current ↦
          Entry.attributed_append (some part) here (later (some part))⟩
        dsimp only
        rw [rest, written]
        simp

/-- However a build ends that collects problems, what it has written is attributed. -/
theorem attributed_collect (h : setting.RaisesUnattributed description store) :
    Entry.Attributed none (setting.collect description store).2.entries := by
  have opened : Yields .collect (Description.check description) { store } ()
      (({ store } : Journal Code).reporting (Description.problems description store)) :=
    Description.yields_opening description
  have begins : setting.Traverses description .collect (fun _ ↦ .missing) [] _
      (({ store } : Journal Code).reporting (Description.problems description store)) := .nil _
  obtain ⟨lines, written, attributed⟩ := exists_attributed_passThrough h opened
    (show Section.all = [] ++ Section.all from rfl) begins
  have outside : ∀ line ∈ (({ store } : Journal Code).reporting
      (Description.problems description store)).entries, Entry.IsIn none line := by
    simp only [Journal.reporting, List.nil_append, List.forall_mem_map]
    exact Description.within_of_mem_problems
  have all := Entry.attributed_append none outside (attributed none)
  rw [← written] at all
  rw [collect_eq, start_assemble opened]
  generalize Build.start (setting.passThrough _ _ Section.all) .collect _ = run at all
  obtain ⟨failure | fields, after⟩ := run
  · exact all
  · dsimp only
    split
    · exact all
    · exact all.summed _

/-- A problem that a build ends with is the first that is reported when problems are collected, and
the lines that both write up to it are the same. -/
theorem exists_of_build_eq_problem {p : Problem Code}
    (h : setting.build description store = (.error (.problem p), after)) :
    ∃ lines later, (setting.collect description store).2.entries = lines ++ .reported p :: later ∧
      after.entries = lines ++ [.reported p] := by
  have concord := setting.concord_collect_build description store
  cases problems : (setting.collect description store).2.problems with
  | nil =>
    cases outcome : (setting.collect description store).1 with
    | ok g =>
      have same := concord.accepted g outcome problems
      rw [h] at same
      cases same
    | error failure =>
      cases failure with
      | problem q => exact absurd outcome (collect_ne_problem setting description store q)
      | fault f =>
        have same := concord.aborted f outcome problems
        rw [h] at same
        cases same
  | cons q rest =>
    obtain ⟨first, -, lines, later, written, early, -⟩ := concord.rejected q rest problems
    rw [h] at first early
    cases first
    exact ⟨lines, later, written, early⟩

/-- Every problem is attributed to the section that is being gone through, if no function that is
called attributes one to a section itself. The problems that a build collects are those with the
description itself, which are in no section, and then those of each section in the order in which
the sections are gone through, which are all in that section. And the problem that a build ends with
that ends at the first is in the section that the last line of a section says is begun, or in none
if there is no such line. -/
theorem attributed_of_raisesUnattributed (setting : Setting Code) (description : Value Code)
    (store : Store Code) (h : setting.RaisesUnattributed description store) :
    (∀ g after, setting.collect description store = (.ok g, after) →
      after.problems = Description.problems description store ++
        Section.all.flatMap after.problemsIn ∧
      (∀ p ∈ Description.problems description store, p.within = none) ∧
      ∀ part, ∀ p ∈ after.problemsIn part, p.within = some part.title) ∧
    ∀ p after, setting.build description store = (.error (.problem p), after) →
      p.within = (Entry.current? after.entries).map Section.title := by
  have attributed := attributed_collect h
  refine ⟨fun g after collected ↦ ?_, fun p after built ↦ ?_⟩
  · obtain ⟨start, finish, course⟩ := exists_course collected
    rw [collected] at attributed
    obtain ⟨-, rfl⟩ := course.begins.unique (Description.yields_opening description)
    exact ⟨course.problems_eq, Description.within_of_mem_problems,
      fun part ↦ attributed.within_of_mem⟩
  · obtain ⟨lines, later, written, early⟩ := exists_of_build_eq_problem built
    rw [written] at attributed
    rw [attributed.within_eq, early, Entry.current?, Entry.current?, List.filterMap_append,
      Option.or_none]
    simp [Entry.begun?]

/-- If all code raises a problem that is in no section, a function for the externals has it reported
there, and a number for the rules is reported in the rules. The build that ends at the first problem
ends with that of the function, when the externals have been begun. -/
theorem attributed_of_raisesUnattributed_malformed :
    let setting : Setting Unit := {
      run := fun _ _ _ ↦ throw (.problem ⟨.undefined, none⟩)
      place := .step 1, base := .grammar (.single (.step 0)) }
    let f : Callable (Value Unit) Unit := ⟨.step 1, some "f", { positional := ["b"] }, .code ()⟩
    let description : Value Unit := Description.malformed f
    setting.RaisesUnattributed description {} ∧
      (∃ g after, setting.collect description {} = (.ok g, after) ∧
        after.problems.map Problem.within = [some "externals", some "rules"] ∧
        after.problems =
          Description.problems description {} ++ Section.all.flatMap after.problemsIn) ∧
      ∃ p after, setting.build description {} = (.error (.problem p), after) ∧
        p.within = some "externals" ∧ Entry.current? after.entries = some .externals := by
  intro setting f description
  have unattributed : setting.RaisesUnattributed description {} := by
    rintro part before - ⟨place, f, offered, store⟩ - p raised
    unfold Setting.call Callable.offer Callable.apply at raised
    split at raised
    · cases raised
    · split at raised
      · cases raised
      · cases raised
      · cases raised
        rfl
  obtain ⟨attributed, early⟩ := attributed_of_raisesUnattributed setting description {} unattributed
  obtain ⟨g, collected, -⟩ := (Build.exists_eq_ok_of_any (by decide +kernel) :
    ∃ g, setting.collect description {} = (.ok g, _) ∧ (fun _ ↦ true) g = true)
  have sections : (setting.collect description {}).2.problems.map Problem.within =
      [some "externals", some "rules"] := by
    decide +kernel
  have current : Entry.current? (setting.build description {}).2.entries = some .externals := by
    decide +kernel
  refine ⟨unattributed, ⟨g, _, collected, sections, (attributed g _ collected).1⟩, ?_⟩
  obtain ⟨p, rest, problems, -⟩ := List.map_eq_cons_iff.1 sections
  have ended := ((setting.concord_collect_build description {}).rejected p rest problems).1
  have built : setting.build description {} =
      (.error (.problem p), (setting.build description {}).2) := Prod.ext ended rfl
  refine ⟨p, _, built, ?_, current⟩
  rw [early p _ built, current]
  rfl

end Setting

end GrammarDoc
