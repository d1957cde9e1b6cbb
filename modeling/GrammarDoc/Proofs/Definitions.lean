import GrammarDoc.Proofs.Build.Reporting
import GrammarDoc.Proofs.Merging
import GrammarDoc.Proofs.Persistence
import GrammarDoc.Proofs.Presence

/-!
# Definitions of rules

When problems are collected, the rules are gone over three times. The names of inherited rules are
declared, then those of all usable entries, and then the functions of these are called, one after
another. What a function comes to takes the place of the inherited rule of its name, or else comes
after all of these. If it comes to no rule, the inherited one stays, and the name stays declared.
Only then are the names looked up that the rules refer to.
-/

namespace GrammarDoc

open Build (Yields GoesOn)

variable {Code : Type} {before after : Journal Code}

namespace Rules

variable {setting : Setting Code} {inherited definitions : Definitions Code} {v : Value Code}
  {entries : List (Value Code × Value Code)}

/-! ### Inherited names -/

/-- Inherited rules stand under keys that can be looked up, of which none equals one before it. -/
structure Keyed (inherited : Definitions Code) : Prop where
  keys : ∀ key ∈ inherited.keys, key.canBeKey = true
  apart : inherited.keys.Pairwise fun key later ↦ later.same key = false

/-- The problem with an inherited name, given the names that are declared. -/
def nameProblem? (names : Namespace Code) (name : Value Code) : Option (Problem Code) :=
  (names.find? name).map fun first ↦ ⟨.declaredTwice "rule" name first, some "rules"⟩

/-- Of names that do not equal one another, those that are free are declared and all others are
reported. -/
theorem yields_forM_declare_apart {names : List (Value Code)}
    (keys : ∀ name ∈ names, name.canBeKey = true)
    (apart : names.Pairwise fun name later ↦ later.same name = false) :
    Yields .collect (names.forM fun name ↦ discard (Build.declare name "rule" (some "rules")))
      before ()
      ((before.declaring "rule" (names.filter fun name ↦ !before.names.has name)).reporting
        (names.filterMap (nameProblem? before.names))) := by
  induction names generalizing before with
  | nil =>
    rw [List.filter_nil, List.filterMap_nil, Journal.declaring_nil, Journal.reporting_nil]
    exact (Build.yields_pure _ _).2 ⟨rfl, rfl⟩
  | cons name rest ih =>
    obtain ⟨others, apart⟩ := List.pairwise_cons.1 apart
    rw [List.forall_mem_cons] at keys
    refine (Build.yields_discard_bind _ _ _).2 ((Build.yields_declare_bind keys.1 _ _ _ _).2 ?_)
    rw [List.filter_cons, List.filterMap_cons, nameProblem?, ← Table.isSome_find?]
    cases found : before.names.find? name with
    | none =>
      -- As later names do not equal this one, its declaration makes no difference to them.
      have same : ∀ later ∈ rest,
          (before.declaring "rule" [name]).names.find? later = before.names.find? later := by
        intro later hl
        apply before.find?_declaring "rule"
        rw [Value.isIn, List.any_cons, others later hl, List.any_nil, Bool.false_or]
      have more := @ih (before.declaring "rule" [name]) keys.2 apart
      rw [Journal.declaring_append] at more
      have free : (rest.filter fun later ↦ !(before.declaring "rule" [name]).names.has later) =
          rest.filter fun later ↦ !before.names.has later := by
        refine List.filter_congr fun later hl ↦ ?_
        rw [← Table.isSome_find?, same later hl, Table.isSome_find?]
      have taken : rest.filterMap (nameProblem? (before.declaring "rule" [name]).names) =
          rest.filterMap (nameProblem? before.names) := by
        refine List.filterMap_congr fun later hl ↦ ?_
        rw [nameProblem?, nameProblem?, same later hl]
      rw [free, taken] at more
      exact more
    | some first =>
      have more := @ih (before.reporting
        [⟨.declaredTwice "rule" name first, attribution "rule" (some "rules")⟩]) keys.2 apart
      rw [Journal.declaring_reporting, Journal.reporting_append] at more
      exact more

variable (inherited) in
/-- The journal after the names of inherited rules are declared. -/
def inheriting (before : Journal Code) : Journal Code :=
  (before.declaring "rule" (inherited.keys.filter fun name ↦ !before.names.has name)).reporting
    (inherited.keys.filterMap (nameProblem? before.names))

private theorem yields_inherit (keyed : Keyed inherited) :
    Yields .collect (inherit inherited) before () (inheriting inherited before) :=
  yields_forM_declare_apart keyed.keys keyed.apart

private theorem find?_inheriting {name : Value Code} (valid : name.isValidName = true)
    (new : inherited.has name = false) :
    (inheriting inherited before).names.find? name = before.names.find? name := by
  apply before.find?_declaring_of_notMem "rule" valid
  intro mem
  rw [(Table.has_validName inherited valid).2 (List.mem_of_mem_filter mem)] at new
  cases new

variable (inherited before) in
private theorem declaration?_inheriting :
    declaration? inherited (inheriting inherited before).names =
      declaration? inherited before.names := by
  funext entry
  rw [declaration?, declaration?]
  cases gives : functionOf? entry with
  | none => rfl
  | some function =>
    cases old : inherited.has entry.1 with
    | true => rfl
    | false =>
      rw [← Table.isSome_find?, find?_inheriting (functionOf?_eq_some.1 gives).1 old,
        Table.isSome_find?]

variable (inherited before) in
private theorem entryProblem?_inheriting :
    entryProblem? inherited (inheriting inherited before).names =
      entryProblem? inherited before.names := by
  funext entry
  rw [entryProblem?, entryProblem?]
  cases valid : entry.1.isValidName with
  | false => rfl
  | true =>
    cases old : inherited.has entry.1 with
    | true => rfl
    | false => rw [find?_inheriting valid old]

variable (inherited) in
/-- The journal after the names of entries are declared too. -/
def declaringAll (before : Journal Code) (entries : List (Value Code × Value Code)) :
    Journal Code :=
  ((inheriting inherited before).declaring "rule"
    (declarations inherited before.names entries)).reporting
      (entries.filterMap (entryProblem? inherited before.names))

/-- The entries of a mapping give functions, declare names and are reported one by one. -/
theorem yields_declareEntries (distinct : Distinct entries) :
    Yields .collect (Build.filterMap (declareEntry inherited) entries) (inheriting inherited before)
      (functionsOf entries) (declaringAll inherited before entries) := by
  have goes : GoesOn (Build.filterMap (declareEntry inherited) entries)
      (inheriting inherited before) :=
    Build.goesOn_filterMap fun entry _ _ ↦ goesOn_declareEntry inherited entry
  apply goes.yields
  intro functions between declared
  obtain ⟨gives, eq⟩ := collects_declareEntries declared distinct
  rw [declarations, declaration?_inheriting, entryProblem?_inheriting] at eq
  exact ⟨gives, eq⟩

/-! ### Calls one after another -/

variable (setting inherited) in
/-- What the function of a rule comes to when it is called in a store: a rule, or why there is none,
and the store that it leaves. It is passed the builder and the inherited rule of its name. -/
def reply (store : Store Code) (function : Value Code × Callable (Value Code) Code) :
    Outcome Code (Rule (Value Code)) × Store Code :=
  let place := (setting.made "call" "rules").part function.1.shown
  let previous := Value.ofOption (inherited.find? function.1)
  match (setting.call place function.2 previous).start store with
  | (.ok raw, later) => (.ofCause (later.present raw).toRule, later)
  | (.error failure, later) => (.error failure, later)

variable (setting inherited) in
/-- What functions come to that are called one after another, and the store that the last leaves. -/
def replies (store : Store Code) : List (Value Code × Callable (Value Code) Code) →
    List (Value Code × Outcome Code (Rule (Value Code))) × Store Code
  | [] => ([], store)
  | function :: rest =>
    let (outcome, later) := reply setting inherited store function
    let (others, last) := replies later rest
    ((function.1, outcome) :: others, last)

/-- The rules that functions have come to. -/
def succeeded (replies : List (Value Code × Outcome Code (Rule (Value Code)))) :
    List (Value Code × Rule (Value Code)) :=
  replies.filterMap fun (name, outcome) ↦ outcome.toOption.map fun r ↦ (name, r)

/-- The problem that is reported if a function has come to no rule. -/
def failure? : Outcome Code (Rule (Value Code)) → Option (Problem Code)
  | .error (.problem p) => some (p.attributedTo "rules")
  | _ => none

/-- The problems with functions that have come to no rules. -/
def failures (replies : List (Value Code × Outcome Code (Rule (Value Code)))) :
    List (Problem Code) := replies.filterMap fun reply ↦ failure? reply.2

private theorem replies_cons (store : Store Code)
    (function : Value Code × Callable (Value Code) Code)
    (rest : List (Value Code × Callable (Value Code) Code)) :
    replies setting inherited store (function :: rest) =
      ((function.1, (reply setting inherited store function).1) ::
        (replies setting inherited (reply setting inherited store function).2 rest).1,
      (replies setting inherited (reply setting inherited store function).2 rest).2) := rfl

private theorem succeeded_cons (name : Value Code) (outcome : Outcome Code (Rule (Value Code)))
    (rest : List (Value Code × Outcome Code (Rule (Value Code)))) :
    succeeded ((name, outcome) :: rest) =
      (outcome.toOption.map fun r ↦ (name, r)).toList ++ succeeded rest := by
  cases outcome with
  | ok r => rfl
  | error failure => rfl

private theorem failures_cons (name : Value Code) (outcome : Outcome Code (Rule (Value Code)))
    (rest : List (Value Code × Outcome Code (Rule (Value Code)))) :
    failures ((name, outcome) :: rest) = (failure? outcome).toList ++ failures rest := by
  rw [failures, List.filterMap_cons]
  dsimp only
  cases failure? outcome with
  | none => rfl
  | some p => rfl

private theorem keys_replies (store : Store Code)
    (functions : List (Value Code × Callable (Value Code) Code)) :
    Table.keys (replies setting inherited store functions).1 = functions.map Prod.fst := by
  induction functions generalizing store with
  | nil => rfl
  | cons function rest ih => exact congrArg (function.1 :: ·) (ih _)

private theorem keys_succeeded_sublist
    (replies : List (Value Code × Outcome Code (Rule (Value Code)))) :
    ((succeeded replies).map Prod.fst).Sublist (Table.keys replies) := by
  induction replies with
  | nil => exact List.Sublist.refl _
  | cons reply rest ih =>
    obtain ⟨name, outcome⟩ := reply
    cases outcome with
    | ok r => exact ih.cons_cons name
    | error failure => exact ih.cons name

/-- A function that is called comes to a rule or is reported, unless it ends the build. -/
theorem yields_define_reply {function : Value Code × Callable (Value Code) Code}
    (answers : ∀ fault,
      (reply setting inherited before.store function).1 ≠ .error (.fault fault)) :
    Yields .collect (define setting inherited function) before
      ((reply setting inherited before.store function).1.toOption.map fun r ↦ (function.1, r))
      ({ before with store := (reply setting inherited before.store function).2 }.reporting
        (failure? (reply setting inherited before.store function).1).toList) := by
  obtain ⟨name, f⟩ := function
  refine (Build.yields_bind _ _ _).2 ?_
  simp only [Build.absorb, Build.yields_bind, Build.yields_attempt]
  unfold reply at answers ⊢
  dsimp only at answers ⊢
  generalize (setting.call ((setting.made "call" "rules").part name.shown) f
    (.ofOption (inherited.find? name))).start before.store = called at answers ⊢
  obtain ⟨outcome, later⟩ := called
  cases outcome with
  | ok raw =>
    refine ⟨some raw, _, ⟨_, _, ⟨rfl, rfl⟩, (Build.yields_pure _ _).2 ⟨rfl, rfl⟩⟩, ?_⟩
    refine (Build.yields_bind _ _ _).2 ⟨_, _, (Build.yields_present _ _).2 ⟨rfl, rfl⟩, ?_⟩
    refine (Build.yields_normalize_bind _ _ _ _).2 ?_
    dsimp only
    cases (later.present raw).toRule with
    | ok r => exact (Build.yields_pure _ _).2 ⟨rfl, Journal.reporting_nil _⟩
    | error cause => exact (Build.yields_pure _ _).2 ⟨rfl, rfl⟩
  | error failure =>
    cases failure with
    | problem p =>
      refine ⟨none, _, ⟨_, _, ⟨rfl, rfl⟩, ?_⟩, (Build.yields_pure _ _).2 ⟨rfl, rfl⟩⟩
      exact (Build.yields_bind _ _ _).2 ⟨(), _, (Build.yields_report _ _).2 ⟨rfl, rfl⟩,
        (Build.yields_pure _ _).2 ⟨rfl, rfl⟩⟩
    | fault f => exact absurd rfl (answers f)

/-- Functions that are called come to rules or are reported one after another, unless one ends the
build. -/
theorem yields_defineAll {functions : List (Value Code × Callable (Value Code) Code)}
    (answers : ∀ reply ∈ (replies setting inherited before.store functions).1,
      ∀ fault, reply.2 ≠ .error (.fault fault)) :
    Yields .collect (Build.filterMap (define setting inherited) functions) before
      (succeeded (replies setting inherited before.store functions).1)
      ({ before with store := (replies setting inherited before.store functions).2 }.reporting
        (failures (replies setting inherited before.store functions).1)) := by
  induction functions generalizing before with
  | nil => exact (Build.yields_pure _ _).2 ⟨rfl, Journal.reporting_nil _⟩
  | cons function rest ih =>
    rw [replies_cons] at answers ⊢
    obtain ⟨here, later⟩ := List.forall_mem_cons.1 answers
    have first := yields_define_reply here
    generalize reply setting inherited before.store function = called at first later ⊢
    obtain ⟨outcome, store⟩ := called
    have more := @ih ({ before with store }.reporting (failure? outcome).toList) later
    refine (Build.yields_filterMap_cons _ _ _ _).2 ⟨_, _, first, _, ?_, succeeded_cons _ _ _⟩
    rw [failures_cons, ← Journal.reporting_append]
    exact more

/-! ### What the names refer to -/

/-- If all names that definitions refer to have been looked up, the definitions are rules and the
names can be looked up. -/
theorem of_yields_resolve (h : Yields .collect (resolve definitions) before () after) :
    ∀ entry ∈ definitions, entry.2.isRule = true ∧
      ∀ name ∈ entry.2.mentions, name.canBeKey = true := by
  unfold resolve at h
  simp only [Build.yields_bind, Build.yields_mapM_present, Build.yields_ofOutcome] at h
  obtain ⟨_, _, ⟨rfl, rfl⟩, names, journal, ⟨symbols, rfl⟩, next⟩ := h
  obtain ⟨bodies, eq, rfl⟩ := (symbols_eq_ok _ names).1 symbols
  have keys := Build.canBeKey_of_yields_forM next
  intro entry he
  have mem : journal.store.present entry.2 ∈ bodies.map Value.rule :=
    eq ▸ List.mem_map_of_mem he
  refine ⟨?_, fun name hn ↦ ?_⟩
  · obtain ⟨body, -, rule⟩ := List.mem_map.1 mem
    rw [← journal.store.isRule_present, ← rule]
    rfl
  · have met : journal.store.present name ∈ Rule.mentionsOfAll bodies := by
      refine Rule.mem_mentionsOfAll.2 ⟨_, mem, ?_⟩
      rw [journal.store.mentions_present]
      exact List.mem_map_of_mem hn
    obtain ⟨other, found, same⟩ := Rule.exists_mem_foldl_addName met
    rw [← journal.store.canBeKey_present]
    rcases same with same | same
    · exact same ▸ keys other found
    · rw [Value.canBeKey_eq_of_compare (by simpa [Value.same] using same)]
      exact keys other found

/-- The names that definitions refer to are looked up just if the definitions are rules and the
names can be looked up. -/
theorem goesOn_resolve_iff :
    GoesOn (resolve definitions) before ↔ ∀ entry ∈ definitions,
      entry.2.isRule = true ∧ ∀ name ∈ entry.2.mentions, name.canBeKey = true := by
  constructor
  · rintro ⟨⟨⟩, after, resolved⟩
    exact of_yields_resolve resolved
  · intro h
    apply goesOn_resolve fun entry he ↦ (h entry he).1
    intro entry he r rule name hn
    have mentions : name ∈ (before.store.present entry.2).mentions := by
      rw [rule]
      exact hn
    rw [before.store.mentions_present] at mentions
    obtain ⟨given, hg, rfl⟩ := List.mem_map.1 mentions
    rw [before.store.canBeKey_present]
    exact (h entry he).2 given hg

/-! ### All definitions -/

/-- The rules of a grammar: inherited ones, in place of which rules of their names are put that are
defined, and after them those that are new. -/
def overridden (inherited : Definitions Code) (defined : List (Value Code × Rule (Value Code))) :
    Definitions Code :=
  (inherited.map fun entry ↦ (entry.1, ((Table.find? defined entry.1).map .rule).getD entry.2)) ++
    (defined.filter fun entry ↦ !inherited.has entry.1).map fun entry ↦ (entry.1, .rule entry.2)

/-- Inherited names come first, and after them those that are new, each in their order. -/
theorem keys_overridden (defined : List (Value Code × Rule (Value Code))) :
    (overridden inherited defined).keys =
      inherited.keys ++ (Table.keys defined).filter fun name ↦ !inherited.has name := by
  rw [overridden, Table.keys, List.map_append, List.map_map, List.map_map, Table.keys, Table.keys,
    List.filter_map]
  rfl

private theorem merged_eq_overridden (keyed : Keyed inherited)
    {defined : List (Value Code × Rule (Value Code))}
    (valid : ∀ entry ∈ defined, entry.1.isValidName = true)
    (nodup : (defined.map Prod.fst).Nodup) :
    merged inherited defined = overridden inherited defined := by
  rw [merged_eq_updated_append valid nodup, updated_eq_map keyed.apart valid nodup]
  rfl

variable (setting inherited) in
private theorem succeeded_names (distinct : Distinct entries) (store : Store Code) :
    (∀ entry ∈ succeeded (replies setting inherited store (functionsOf entries)).1,
      entry.1.isValidName = true) ∧
    ((succeeded (replies setting inherited store (functionsOf entries)).1).map Prod.fst).Nodup := by
  obtain ⟨valid, apart⟩ := functionsOf_names distinct
  have sub := keys_succeeded_sublist (replies setting inherited store (functionsOf entries)).1
  rw [keys_replies] at sub
  constructor
  · intro entry he
    obtain ⟨function, hf, same⟩ := List.mem_map.1 (sub.subset (List.mem_map_of_mem he))
    rw [← same]
    exact valid function hf
  · exact sub.nodup (List.pairwise_map.2 apart)

variable (setting inherited) in
/-- The journal when all rules are gathered. -/
def gathered (before : Journal Code) (entries : List (Value Code × Value Code)) : Journal Code :=
  let (replies, store) := replies setting inherited before.store (functionsOf entries)
  { declaringAll inherited before entries with store }.reporting (failures replies)

/-- All rules are gathered, unless a function ends the build. -/
theorem yields_gather (keyed : Keyed inherited) (distinct : Distinct entries)
    (answers : ∀ reply ∈ (replies setting inherited before.store (functionsOf entries)).1,
      ∀ fault, reply.2 ≠ .error (.fault fault)) :
    Yields .collect (gather setting inherited entries) before
      (overridden inherited
        (succeeded (replies setting inherited before.store (functionsOf entries)).1))
      (gathered setting inherited before entries) := by
  obtain ⟨valid, nodup⟩ := succeeded_names setting inherited distinct before.store
  refine (Build.yields_bind _ _ _).2 ⟨(), _, yields_inherit keyed, ?_⟩
  refine (Build.yields_bind _ _ _).2 ⟨_, _, yields_declareEntries distinct, ?_⟩
  refine (Build.yields_bind _ _ _).2 ⟨_, _, yields_defineAll answers, ?_⟩
  exact (Build.yields_pure _ _).2 ⟨(merged_eq_overridden keyed valid nodup).symm, rfl⟩

private theorem start_emptiness (next : Build Code (Definitions Code)) :
    Build.start (do
        if definitions.isEmpty then
          Build.reportIn (some "rules") (.noRules v)
        next) .collect before =
      Build.start next .collect (before.reporting (emptiness v definitions)) := by
  unfold emptiness
  cases definitions.isEmpty with
  | true => rfl
  | false => rw [if_neg Bool.false_ne_true, if_neg Bool.false_ne_true, Journal.reporting_nil]

/-- Names are looked up in the end, from where all rules are gathered. -/
theorem start_validate (object : v.object? = some entries) {resolving : Journal Code}
    (gathers : Yields .collect (gather setting inherited entries) before definitions resolving) :
    Build.start (validate setting inherited v) .collect before =
      Build.start (do resolve definitions; return definitions) .collect
        (resolving.reporting (emptiness v definitions)) := by
  rw [validate_eq object, fromEntries_eq, Build.start_bind, gathers]
  exact start_emptiness _

/-- What a section does that looks names up in the end: it goes on if that does, and then it has
declared nothing more and has reported names that are missing. -/
theorem of_start_eq_resolve {part : Build Code (Definitions Code)} {resolving : Journal Code}
    (resolves : Build.start part .collect before =
      Build.start (do resolve definitions; return definitions) .collect resolving) :
    (GoesOn part before ↔ ∀ entry ∈ definitions,
      entry.2.isRule = true ∧ ∀ name ∈ entry.2.mentions, name.canBeKey = true) ∧
    ∀ result after, Yields .collect part before result after →
      result = definitions ∧ after.names = resolving.names ∧
        ∃ missing : List (Value Code),
          after.problems = resolving.problems ++ missing.map undeclared := by
  have split (result : Definitions Code) (after : Journal Code) :
      Yields .collect part before result after ↔
        Yields .collect (resolve definitions) resolving () after ∧ result = definitions := by
    rw [Yields, resolves]
    constructor
    · intro yields
      obtain ⟨_, _, resolved, done⟩ := (Build.yields_bind _ _ _).1 yields
      obtain ⟨rfl, rfl⟩ := (Build.yields_pure _ _).1 done
      exact ⟨resolved, rfl⟩
    · rintro ⟨resolved, rfl⟩
      exact (Build.yields_bind _ _ _).2 ⟨_, _, resolved, (Build.yields_pure _ _).2 ⟨rfl, rfl⟩⟩
  constructor
  · refine Iff.trans ?_ (@goesOn_resolve_iff Code resolving definitions)
    constructor
    · rintro ⟨result, after, yields⟩
      exact ⟨(), after, ((split result after).1 yields).1⟩
    · rintro ⟨⟨⟩, after, resolved⟩
      exact ⟨definitions, after, (split definitions after).2 ⟨resolved, rfl⟩⟩
  · intro result after yields
    obtain ⟨resolved, rfl⟩ := (split result after).1 yields
    obtain ⟨bodies, -, rfl⟩ := collects_resolve resolved
    exact ⟨rfl, rfl, missing resolving.names bodies, rfl⟩

/-- The rules section does with inherited rules and with entries what is right. If no function that
is called ends the build, the inherited rules come first in the result, in place of which those
stand that functions of their names have come to, and after them the other rules that functions have
come to, in the order of the entries. Inherited names are declared, and then those of the entries
with a proper name and a callable, unless they are declared already; these keep their tags. Reported
are, in this order, inherited names that were declared already, entries that are not usable or whose
new names were declared already, functions that have come to no rule, and that there are no rules.
Only then are the names looked up that the rules refer to. If all that is inherited are rules, the
section has a result just if all of these names can be looked up. -/
theorem overridden_of_collect (object : v.object? = some entries) (keyed : Keyed inherited)
    (distinct : Distinct entries)
    (answers : ∀ reply ∈ (replies setting inherited before.store (functionsOf entries)).1,
      ∀ fault, reply.2 ≠ .error (.fault fault)) :
    let outcomes := (replies setting inherited before.store (functionsOf entries)).1
    let definitions := overridden inherited (succeeded outcomes)
    ∃ resolving : Journal Code,
      Build.start (validate setting inherited v) .collect before =
        Build.start (do resolve definitions; return definitions) .collect resolving ∧
      definitions.keys = inherited.keys ++
        (Table.keys (succeeded outcomes)).filter (fun name ↦ !inherited.has name) ∧
      resolving.names = before.names ++
        ((inherited.keys.filter fun name ↦ !before.names.has name) ++
          declarations inherited before.names entries).map (fun name ↦ (name, "rule")) ∧
      (∀ name tag, before.names.find? name = some tag → resolving.names.find? name = some tag) ∧
      resolving.problems = before.problems ++
        (inherited.keys.filterMap (nameProblem? before.names) ++
          entries.filterMap (entryProblem? inherited before.names) ++ failures outcomes ++
          emptiness v definitions) ∧
      (GoesOn (validate setting inherited v) before ↔ ∀ entry ∈ definitions,
        entry.2.isRule = true ∧ ∀ name ∈ entry.2.mentions, name.canBeKey = true) ∧
      ∀ result after, Yields .collect (validate setting inherited v) before result after →
        result = definitions ∧ after.names = resolving.names ∧
          ∃ missing : List (Value Code),
            after.problems = resolving.problems ++ missing.map undeclared := by
  intro outcomes definitions
  have resolves := start_validate object (yields_gather keyed distinct answers)
  have names : (gathered setting inherited before entries).names = before.names ++
      ((inherited.keys.filter fun name ↦ !before.names.has name) ++
        declarations inherited before.names entries).map fun name ↦ (name, "rule") := by
    rw [List.map_append, ← List.append_assoc]
    rfl
  refine ⟨_, resolves, keys_overridden _, names, fun name tag found ↦ ?_, ?_,
    of_start_eq_resolve resolves⟩
  · change (gathered setting inherited before entries).names.find? name = _
    rw [names, Table.find?_append, found, Option.some_or]
  · simp only [← List.append_assoc]
    rfl

/-- Of two inherited rules one is overridden, although its name was declared already, and one is
kept, since its new function comes to no rule. Of the new rules one has the name of an external, and
one comes to nothing but may be referred to. -/
theorem overridden_of_collect_mixture :
    let place : Place := .step 0
    let setting : Setting Empty := { run := fun _ code _ ↦ code.elim, place := .step 1 }
    let gives (title : String) (v : Value Empty) : Value Empty × Value Empty :=
      (.string title, .callable (.constant place title v))
    let inherited : Definitions Empty := [(.string "a", .rule .blank), (.string "b", .rule .blank)]
    let entries : List (Value Empty × Value Empty) :=
      [gives "c" (.string "x"), gives "b" (.rule (.symbol (.string "e"))), gives "1" .missing,
        (.string "d", .int 2), gives "a" .missing, gives "n" (.string "y"), gives "e" .missing]
    let before : Journal Empty :=
      { names := [(.string "n", "externals"), (.string "b", "externals")] }
    ∃ (result : Definitions Empty) (after : Journal Empty),
      Yields .collect (validate setting inherited (.mapping ⟨place, entries, false⟩)) before result
        after ∧
      result = overridden inherited (succeeded
        (replies setting inherited before.store (functionsOf entries)).1) ∧
      result.map (fun entry ↦ (entry.1.shown, entry.2.written)) =
        [("a", "BlankRule()"), ("b", "SymbolRule(name='e')"), ("c", "StringRule(value='x')"),
          ("n", "StringRule(value='y')")] ∧
      after.names.map (fun entry ↦ (entry.1.shown, entry.2)) =
        [("n", "externals"), ("b", "externals"), ("a", "rule"), ("c", "rule"), ("e", "rule")] ∧
      after.problems.map (fun p ↦ (p.kind, p.value.shown)) =
        [(.duplicateName, "b"), (.invalidName, "1"), (.structuralShape, "2"),
          (.duplicateName, "n"), (.undefinedSymbol, "None"), (.undefinedSymbol, "None")] := by
  intro place setting gives inherited entries before
  have returns : (Build.start (validate setting inherited (.mapping ⟨place, entries, false⟩))
      .collect before).1.toOption.any (fun result ↦
        let after := (Build.start (validate setting inherited (.mapping ⟨place, entries, false⟩))
          .collect before).2
        decide (result.map (fun entry ↦ (entry.1.shown, entry.2.written)) =
          [("a", "BlankRule()"), ("b", "SymbolRule(name='e')"), ("c", "StringRule(value='x')"),
            ("n", "StringRule(value='y')")]) &&
        decide (after.names.map (fun entry ↦ (entry.1.shown, entry.2)) =
          [("n", "externals"), ("b", "externals"), ("a", "rule"), ("c", "rule"), ("e", "rule")]) &&
        decide (after.problems.map (fun p ↦ (p.kind, p.value.shown)) =
          [(.duplicateName, "b"), (.invalidName, "1"), (.structuralShape, "2"),
            (.duplicateName, "n"), (.undefinedSymbol, "None"), (.undefinedSymbol, "None")])) =
      true := by
    decide +kernel
  obtain ⟨result, yields, shown⟩ := Build.exists_eq_ok_of_any returns
  simp only [Bool.and_eq_true, decide_eq_true_eq] at shown
  have keyed : Keyed inherited := ⟨by decide +kernel, by decide +kernel⟩
  have distinct : Distinct entries := by simp [Distinct, entries, gives]
  have outcomes : (replies setting inherited before.store (functionsOf entries)).1 =
      [(.string "c", .ok (.string (.string "x"))), (.string "b", .ok (.symbol (.string "e"))),
        (.string "a", .error (.problem ⟨.undefined, none⟩)),
        (.string "n", .ok (.string (.string "y"))),
        (.string "e", .error (.problem ⟨.undefined, none⟩))] := rfl
  obtain ⟨_, -, -, -, -, -, -, only⟩ := @overridden_of_collect Empty before setting inherited
    (.mapping ⟨place, entries, false⟩) entries rfl keyed distinct (by simp [outcomes])
  exact ⟨result, _, yields, (only result _ yields).1, shown.1.1, shown.1.2, shown.2⟩

/-- A rule that refers to a list ends the section when this is looked up, so that the section has no
result, although its entry is usable and its function comes to a rule. -/
theorem exists_not_goesOn_validate :
    let setting : Setting Empty := { run := fun _ code _ ↦ code.elim, place := .step 1 }
    let body : Rule (Value Empty) := .symbol (.list ⟨.step 2, [], false⟩)
    let entry : Value Empty × Value Empty :=
      (.string "a", .callable (.constant (.step 0) "a" (.rule body)))
    functionOf? entry = some (.string "a", .constant (.step 0) "a" (.rule body)) ∧
    (replies setting [] {} (functionsOf [entry])).1 = [(.string "a", .ok body)] ∧
    ¬ ∃ result after, Yields .collect (validate setting [] (.mapping ⟨.step 0, [entry], false⟩)) {}
      result after := by
  intro setting body entry
  refine ⟨rfl, rfl, ?_⟩
  rintro ⟨result, after, yields⟩
  have fails : (Build.start (validate setting [] (.mapping ⟨.step 0, [entry], false⟩)) .collect
      {}).1.toOption.isNone = true := by
    decide +kernel
  rw [yields] at fails
  cases fails

end Rules

end GrammarDoc
