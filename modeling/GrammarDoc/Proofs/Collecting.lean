import GrammarDoc.Proofs.Extension
import GrammarDoc.Proofs.Build.Twins

/-!
# Rules when problems are collected

A build that collects problems goes through all entries of the rules, whatever it finds on its way.
What an entry gives does not depend on other entries if their names differ, and what a function
comes to does not depend on other functions if none changes the store. So the rules, the names they
declare and the problems with them are each put together from what the entries give one by one.
-/

namespace GrammarDoc

open Build (Yields)

variable {Code : Type} {α β : Type} {before after : Journal Code}

/-! ### Reports after which a build goes on -/

/-- Lines that report some problems are about these. -/
theorem Entry.filterMap_reported (problems : List (Problem Code)) :
    (problems.map Entry.reported).filterMap Entry.problem? = problems := by
  rw [List.filterMap_map, show (Entry.problem? ∘ Entry.reported : Problem Code → _) = some from rfl,
    List.filterMap_some]

/-- Lines that report problems do not say that a section is begun. -/
theorem Entry.isWithin_reported (problems : List (Problem Code)) :
    ∀ line ∈ problems.map Entry.reported, line.IsWithin := by
  intro line mem
  obtain ⟨_, -, rfl⟩ := List.mem_map.1 mem
  trivial

namespace Journal

/-- The journal after some problems are reported and the build goes on. -/
def reporting (journal : Journal Code) (problems : List (Problem Code)) : Journal Code :=
  { journal with
    problems := journal.problems ++ problems
    entries := journal.entries ++ problems.map .reported }

variable (journal : Journal Code) (problems others : List (Problem Code))

/-- Reporting nothing changes nothing. -/
@[simp] theorem reporting_nil : journal.reporting [] = journal := by simp [reporting]

/-- Reporting some problems and then others. -/
theorem reporting_append :
    (journal.reporting problems).reporting others = journal.reporting (problems ++ others) := by
  simp [reporting]

/-- Names are declared in the same way after some problems are reported. -/
theorem declaring_reporting (tag : String) (names : List (Value Code)) :
    (journal.reporting problems).declaring tag names =
      (journal.declaring tag names).reporting problems := rfl

/-- A key that equals none of the names declared is looked up as before. -/
theorem find?_declaring (tag : String) {names : List (Value Code)} {key : Value Code}
    (h : key.isIn names = false) :
    (journal.declaring tag names).names.find? key = journal.names.find? key := by
  change Table.find? (journal.names ++ _) _ = _
  rw [Table.find?_append, Table.find?_tagged, h, if_neg Bool.false_ne_true, Option.or_none]

/-- A name that is not among those declared is looked up as before. -/
theorem find?_declaring_of_notMem (tag : String) {names : List (Value Code)} {name : Value Code}
    (valid : name.isValidName = true) (h : name ∉ names) :
    (journal.declaring tag names).names.find? name = journal.names.find? name := by
  obtain ⟨s, rfl⟩ := Value.eq_string_of_isValidName valid
  apply journal.find?_declaring tag
  rwa [← Bool.not_eq_true, Value.string_isIn]

/-- Whatever names are declared, reporting problems adds a line for each of them. -/
theorem adds_reporting (tag : String) (names : List (Value Code)) :
    journal.Adds (problems.map .reported) ((journal.declaring tag names).reporting problems) := by
  refine ⟨?_, rfl⟩
  rw [Entry.filterMap_reported]
  rfl

/-- Reporting problems adds a line for each of them. -/
theorem adds_reporting_only :
    journal.Adds (problems.map .reported) (journal.reporting problems) := by
  have adds := journal.adds_reporting problems "" []
  rwa [declaring_nil] at adds

end Journal

/-! ### What each item gives -/

/-- Going through items declares and reports what each of them does, if what an item does depends
on a property of the journal that the items before it keep. -/
theorem Build.of_yields_filterMap (tag : String) (declared : α → Option (Value Code))
    (P : α → Journal Code → Prop) {step : α → Build Code (Option β)} {items : List α}
    {bs : List β} {result : α → Option β} {problem : α → Option (Problem Code)}
    (h : Yields .collect (filterMap step items) before bs after)
    (gives : ∀ a ∈ items, ∀ before b after, P a before →
      Yields .collect (step a) before b after → b = result a ∧
        after = (before.declaring tag (declared a).toList).reporting (problem a).toList)
    (fits : ∀ a ∈ items, P a before)
    (keeps : items.Pairwise fun a other ↦ ∀ journal, P other journal →
      P other ((journal.declaring tag (declared a).toList).reporting (problem a).toList)) :
    bs = items.filterMap result ∧
      after = (before.declaring tag (items.filterMap declared)).reporting
        (items.filterMap problem) := by
  induction items generalizing before bs with
  | nil =>
    obtain ⟨rfl, rfl⟩ := (yields_filterMap_nil step bs).1 h
    simp
  | cons a rest ih =>
    obtain ⟨b, between, first, cs, more, rfl⟩ := (yields_filterMap_cons step a rest bs).1 h
    obtain ⟨kept, later⟩ := List.pairwise_cons.1 keeps
    rw [List.forall_mem_cons] at fits
    obtain ⟨rfl, rfl⟩ := gives a List.mem_cons_self before b between fits.1 first
    obtain ⟨rfl, rfl⟩ := ih more (fun a ha ↦ gives a (List.mem_cons_of_mem _ ha))
      (fun other ho ↦ kept other ho before (fits.2 other ho)) later
    have split {γ : Type} (f : α → Option γ) :
        (a :: rest).filterMap f = (f a).toList ++ rest.filterMap f := by
      rw [List.filterMap_cons]
      cases f a with
      | none => rfl
      | some c => rfl
    refine ⟨(split result).symm, ?_⟩
    rw [split declared, split problem, Journal.declaring_reporting, Journal.declaring_append,
      Journal.reporting_append]

/-- Going through items comes to what each of them gives and reports what is wrong with each, if
none of that depends on more than the names that are declared. -/
theorem Build.of_yields_filterMap_reporting {step : α → Build Code (Option β)} {items : List α}
    {bs : List β} {result : α → Option β} {problems : α → List (Problem Code)}
    (h : Yields .collect (filterMap step items) before bs after)
    (gives : ∀ a journal b later, journal.names = before.names →
      Yields .collect (step a) journal b later →
        b = result a ∧ later = journal.reporting (problems a)) :
    bs = items.filterMap result ∧ after = before.reporting (items.flatMap problems) := by
  induction items generalizing before bs with
  | nil =>
    obtain ⟨rfl, rfl⟩ := (yields_filterMap_nil step bs).1 h
    simp
  | cons a rest ih =>
    obtain ⟨b, between, first, cs, more, rfl⟩ := (yields_filterMap_cons step a rest bs).1 h
    obtain ⟨rfl, rfl⟩ := gives a before b between rfl first
    obtain ⟨rfl, rfl⟩ := ih more gives
    refine ⟨?_, by rw [List.flatMap_cons, Journal.reporting_append]⟩
    rw [List.filterMap_cons]
    cases result a <;> rfl

/-- Of some names that have to be declared, those that are not are reported. -/
theorem Build.of_yields_forM_requireDeclared {context : String} {within : Option String}
    {names : List (Value Code)} {u : Unit}
    (h : Yields .collect
      (names.forM fun name ↦ discard (requireDeclared context within name)) before u after) :
    after = before.reporting ((names.filter fun name ↦ !before.names.has name).map fun name ↦
      ⟨.undeclared context name, attribution context within⟩) := by
  induction names generalizing before with
  | nil =>
    obtain ⟨-, rfl⟩ := (yields_pure _ _).1 h
    simp
  | cons name rest ih =>
    obtain ⟨between, first, more⟩ := (yields_forM_cons _ _ _ _).1 h
    obtain ⟨_, required⟩ := (yields_discard _ _).1 first
    obtain ⟨-, -, required⟩ := (yields_requireDeclared _ _ _ _).1 required
    rw [ih more]
    cases has : before.names.has name with
    | true =>
      rw [has] at required
      obtain rfl := required
      simp [has]
    | false =>
      rw [has] at required
      obtain ⟨-, rfl⟩ := (yields_reportIn _ _ _).1 required
      simp only [List.filter_cons, has, Bool.not_false, if_true, List.map_cons]
      exact before.reporting_append [_] _

/-- Names that have been looked up can be. -/
theorem Build.canBeKey_of_yields_forM {context : String} {within : Option String}
    {names : List (Value Code)} {u : Unit}
    (h : Yields .collect
      (names.forM fun name ↦ discard (requireDeclared context within name)) before u after) :
    ∀ name ∈ names, name.canBeKey = true := by
  induction names generalizing before with
  | nil => exact List.forall_mem_nil _
  | cons name rest ih =>
    obtain ⟨between, first, more⟩ := (yields_forM_cons _ _ _ _).1 h
    obtain ⟨_, required⟩ := (yields_discard _ _).1 first
    obtain ⟨key, -, -⟩ := (yields_requireDeclared _ _ _ _).1 required
    exact List.forall_mem_cons.2 ⟨key, ih more⟩

namespace Rules

variable {setting : Setting Code} {inherited definitions : Definitions Code}

/-- The function that an entry gives. -/
def functionOf? (entry : Value Code × Value Code) :
    Option (Value Code × Callable (Value Code) Code) :=
  if entry.1.isValidName then entry.2.callable?.map fun f ↦ (entry.1, f) else none

/-- An entry gives a function if it has a proper name and a callable. -/
theorem functionOf?_eq_some {entry : Value Code × Value Code}
    {function : Value Code × Callable (Value Code) Code} :
    functionOf? entry = some function ↔
      entry.1.isValidName = true ∧ ∃ f, entry.2.callable? = some f ∧ (entry.1, f) = function := by
  unfold functionOf?
  split <;> simp [*]

/-- The name that an entry declares, given those that are declared. -/
def declaration? (inherited : Definitions Code) (names : Namespace Code)
    (entry : Value Code × Value Code) : Option (Value Code) :=
  if (functionOf? entry).isNone || inherited.has entry.1 || names.has entry.1 then none
  else some entry.1

/-- The problem with an entry, given the names that are declared. -/
def entryProblem? (inherited : Definitions Code) (names : Namespace Code)
    (entry : Value Code × Value Code) : Option (Problem Code) :=
  if entry.1.isValidName then
    match entry.2.callable? with
    | none => some ⟨.notARuleFunction entry.1 entry.2, some "rules"⟩
    | some _ =>
      if inherited.has entry.1 then none
      else (names.find? entry.1).map fun first ↦
        ⟨.declaredTwice "rule" entry.1 first, some "rules"⟩
  else some ⟨.malformedName "rules" entry.1, some "rules"⟩

/-- An entry gives its function, declares its name and is reported, each if it can be. -/
theorem collects_declareEntry {entry : Value Code × Value Code}
    {result : Option (Value Code × Callable (Value Code) Code)}
    (h : Yields .collect (declareEntry inherited entry) before result after) :
    result = functionOf? entry ∧
      after = (before.declaring "rule" (declaration? inherited before.names entry).toList).reporting
        (entryProblem? inherited before.names entry).toList := by
  obtain ⟨name, v⟩ := entry
  obtain ⟨valid, between, required, next⟩ := (Build.yields_bind _ _ _).1 h
  obtain ⟨rfl, checked⟩ := (Build.yields_requireValidName _ _ _ _).1 required
  cases valid : name.isValidName with
  | false =>
    rw [valid] at checked next
    obtain ⟨-, rfl⟩ := (Build.yields_reportIn _ _ _).1 checked
    obtain ⟨rfl, rfl⟩ := (Build.yields_pure _ _).1 next
    simp only [functionOf?, declaration?, entryProblem?, valid]
    exact ⟨rfl, by simp [Journal.reported, Journal.reporting, attribution]⟩
  | true =>
    rw [valid] at checked next
    obtain rfl := checked
    simp only [if_true] at next
    cases callable : v.callable? with
    | none =>
      rw [callable] at next
      obtain ⟨rfl, -, rfl⟩ := (Build.yields_reportIn_return _ _ _ _).1 next
      simp only [functionOf?, declaration?, entryProblem?, valid, callable]
      exact ⟨rfl, by simp [Journal.reported, Journal.reporting]⟩
    | some f =>
      simp only [callable] at next
      cases old : inherited.has name with
      | true =>
        simp only [old, Bool.not_true, Bool.false_eq_true, if_false] at next
        obtain ⟨rfl, rfl⟩ := (Build.yields_pure _ _).1 next
        simp [functionOf?, declaration?, entryProblem?, valid, callable, old]
      | false =>
        simp only [old, Bool.not_false, if_true] at next
        obtain ⟨rfl, free, declared⟩ := (Build.yields_discard_return _ _ _).1 next
        obtain ⟨-, -, declared⟩ := (Build.yields_declare _ _ _ _).1 declared
        -- A name that is not inherited may still be that of an external symbol.
        cases found : between.names.find? name with
        | none =>
          have new : between.names.has name = false := by
            rw [← Table.isSome_find?, found]
            rfl
          rw [found] at declared
          simp [functionOf?, declaration?, entryProblem?, valid, callable, old, new, found,
            declared]
        | some first =>
          have there : between.names.has name = true := by
            rw [← Table.isSome_find?, found]
            rfl
          rw [found] at declared
          obtain ⟨-, rfl⟩ := (Build.yields_reportIn _ _ _).1 declared
          simp [functionOf?, declaration?, entryProblem?, valid, callable, old, there, found,
            Journal.reported, Journal.reporting, attribution]

/-- The functions that some entries give. -/
def functionsOf (entries : List (Value Code × Value Code)) :
    List (Value Code × Callable (Value Code) Code) := entries.filterMap functionOf?

/-- The names that some entries declare, given those that are declared. -/
def declarations (inherited : Definitions Code) (names : Namespace Code)
    (entries : List (Value Code × Value Code)) : List (Value Code) :=
  entries.filterMap (declaration? inherited names)

/-- Whether no name is the key of two entries. -/
def Distinct (entries : List (Value Code × Value Code)) : Prop :=
  entries.Pairwise fun entry other ↦ entry.1.isValidName = true → entry.1 ≠ other.1

/-- No name is the key of two entries in any order. -/
theorem Distinct.perm {entries others : List (Value Code × Value Code)} (h : Distinct entries)
    (perm : entries.Perm others) : Distinct others := by
  refine (perm.pairwise_iff fun {entry other} apart valid eq ↦ ?_).1 h
  exact apart (eq ▸ valid) eq.symm

private theorem find?_declaring {names : Namespace Code} {entry other : Value Code × Value Code}
    (apart : entry.1 ≠ other.1) (valid : other.1.isValidName = true)
    (journal : Journal Code) (problems : List (Problem Code)) :
    ((journal.declaring "rule" (declaration? inherited names entry).toList).reporting
      problems).names.find? other.1 = journal.names.find? other.1 := by
  refine journal.find?_declaring_of_notMem "rule" valid fun mem ↦ apart ?_
  unfold declaration? at mem
  split at mem
  · cases mem
  · exact (List.mem_singleton.1 mem).symm

/-- The entries of a mapping give functions, declare names and are reported one by one. -/
theorem collects_declareEntries {entries : List (Value Code × Value Code)}
    {functions : List (Value Code × Callable (Value Code) Code)}
    (h : Yields .collect (Build.filterMap (declareEntry inherited) entries) before functions after)
    (distinct : Distinct entries) :
    functions = functionsOf entries ∧
      after = (before.declaring "rule" (declarations inherited before.names entries)).reporting
        (entries.filterMap (entryProblem? inherited before.names)) := by
  -- An entry fits a journal in which its name is declared as it was in the beginning.
  refine Build.of_yields_filterMap "rule" (declaration? inherited before.names)
    (fun entry journal ↦ entry.1.isValidName = true →
      journal.names.find? entry.1 = before.names.find? entry.1) h
    (fun entry _ journal result after fits gives ↦ ?_) (fun _ _ _ ↦ rfl) ?_
  · obtain ⟨eq, eq'⟩ := collects_declareEntry gives
    refine ⟨eq, eq'.trans ?_⟩
    cases valid : entry.1.isValidName with
    | false => simp [declaration?, functionOf?, entryProblem?, valid]
    | true =>
      have same := fits valid
      have has : journal.names.has entry.1 = before.names.has entry.1 := by
        rw [← Table.isSome_find?, same, Table.isSome_find?]
      rw [declaration?, declaration?, has, entryProblem?, entryProblem?, same]
  · refine distinct.imp fun {entry other} apart journal fits valid ↦ ?_
    have ne : entry.1 ≠ other.1 := fun eq ↦ apart (eq ▸ valid) eq
    exact (find?_declaring ne valid journal _).trans (fits valid)

variable (setting inherited) in
/-- What the function of a rule comes to in a store: a rule, or why there is none. -/
def answer (store : Store Code) (function : Value Code × Callable (Value Code) Code) :
    Outcome Code (Rule (Value Code)) :=
  let place := (setting.made "call" "rules").part function.1.shown
  let previous := Value.ofOption (inherited.find? function.1)
  match ((setting.call place function.2 previous).start store).1 with
  | .ok raw => (store.present raw).toRule.mapError fun cause ↦ .problem ⟨cause, none⟩
  | .error failure => .error failure

variable (setting inherited) in
/-- The rule that a function defines in a store. -/
def definition? (store : Store Code) (function : Value Code × Callable (Value Code) Code) :
    Option (Value Code × Rule (Value Code)) :=
  (answer setting inherited store function).toOption.map fun r ↦ (function.1, r)

variable (setting inherited) in
/-- The problem with what a function comes to in a store. -/
def answerProblem? (store : Store Code) (function : Value Code × Callable (Value Code) Code) :
    Option (Problem Code) :=
  match answer setting inherited store function with
  | .error (.problem p) => some (p.attributedTo "rules")
  | _ => none

/-- A function that changes nothing defines a rule or is reported. -/
theorem collects_define {function : Value Code × Callable (Value Code) Code}
    {result : Option (Value Code × Rule (Value Code))} (still : setting.Still function.2)
    (h : Yields .collect (define setting inherited function) before result after) :
    result = definition? setting inherited before.store function ∧
      after = before.reporting (answerProblem? setting inherited before.store function).toList := by
  obtain ⟨name, f⟩ := function
  obtain ⟨raw, between, called, next⟩ := (Build.yields_bind _ _ _).1 h
  obtain ⟨outcome, _, attempted, absorbed⟩ := (Build.yields_bind _ _ _).1 called
  obtain ⟨rfl, rfl⟩ := (Build.yields_attempt _ _).1 attempted
  rw [still] at absorbed
  unfold definition? answerProblem? answer
  dsimp only
  split at absorbed
  · next v returned =>
    obtain ⟨rfl, rfl⟩ := (Build.yields_pure _ _).1 absorbed
    obtain ⟨v', _, looked, next⟩ := (Build.yields_bind _ _ _).1 next
    obtain ⟨rfl, rfl⟩ := (Build.yields_present _ _).1 looked
    obtain ⟨r, _, normalized, done⟩ := (Build.yields_bind _ _ _).1 next
    obtain ⟨rfl, rfl⟩ := (Build.yields_pure _ _).1 done
    have normalized := (Build.yields_normalize _ _ _).1 normalized
    rw [returned]
    dsimp only at normalized ⊢
    cases made : (before.store.present v).toRule with
    | ok r =>
      rw [made] at normalized
      obtain ⟨rfl, rfl⟩ := normalized
      simp [Except.mapError, Except.toOption]
    | error cause =>
      rw [made] at normalized
      obtain ⟨rfl, reported⟩ := normalized
      obtain ⟨-, rfl⟩ := (Build.yields_report _ _).1 reported
      exact ⟨rfl, rfl⟩
  · next p raised =>
    obtain ⟨_, _, reported, done⟩ := (Build.yields_bind _ _ _).1 absorbed
    obtain ⟨-, rfl⟩ := (Build.yields_report _ _).1 reported
    obtain ⟨rfl, rfl⟩ := (Build.yields_pure _ _).1 done
    obtain ⟨rfl, rfl⟩ := (Build.yields_pure _ _).1 next
    rw [raised]
    exact ⟨rfl, rfl⟩
  · exact absurd absorbed (Build.yields_throw _ _)

/-- Functions that change nothing define rules or are reported one by one. -/
theorem collects_defineAll {functions : List (Value Code × Callable (Value Code) Code)}
    {defined : List (Value Code × Rule (Value Code))}
    (still : ∀ function ∈ functions, setting.Still function.2)
    (h : Yields .collect (Build.filterMap (define setting inherited) functions) before defined
      after) :
    defined = functions.filterMap (definition? setting inherited before.store) ∧
      after = before.reporting
        (functions.filterMap (answerProblem? setting inherited before.store)) := by
  have gives (function : Value Code × Callable (Value Code) Code) (hf : function ∈ functions)
      (journal : Journal Code) (result : Option (Value Code × Rule (Value Code)))
      (after : Journal Code) (same : journal.store = before.store)
      (given : Yields .collect (define setting inherited function) journal result after) :
      result = definition? setting inherited before.store function ∧
        after = (journal.declaring "rule" (none : Option (Value Code)).toList).reporting
          (answerProblem? setting inherited before.store function).toList := by
    rw [Option.toList_none, Journal.declaring_nil, ← same]
    exact collects_define (still function hf) given
  have collects := Build.of_yields_filterMap "rule" (fun _ ↦ none)
    (fun _ journal ↦ journal.store = before.store) h gives (fun _ _ ↦ rfl)
    (List.pairwise_of_forall fun _ _ _ same ↦ same)
  simpa using collects

/-- The problem with a name that rules refer to, although it is not declared. -/
def undeclared (name : Value Code) : Problem Code := ⟨.undeclared "rules" name, some "rules"⟩

/-- The names that rules refer to although they are not declared. -/
def missing (names : Namespace Code) (bodies : List (Rule (Value Code))) : List (Value Code) :=
  ((Rule.mentionsOfAll bodies).foldl Rule.addName []).filter fun name ↦ !names.has name

/-- All definitions have to be rules, and the names that these refer to are looked up. -/
theorem collects_resolve {u : Unit}
    (h : Yields .collect (resolve definitions) before u after) :
    ∃ bodies : List (Rule (Value Code)),
      definitions.map (fun entry ↦ before.store.present entry.2) = bodies.map .rule ∧
        after = before.reporting ((missing before.names bodies).map undeclared) := by
  unfold resolve at h
  simp only [Build.yields_bind, Build.yields_mapM_present, Build.yields_ofOutcome] at h
  obtain ⟨_, _, ⟨rfl, rfl⟩, names, _, ⟨symbols, rfl⟩, next⟩ := h
  obtain ⟨bodies, eq, rfl⟩ := (symbols_eq_ok _ names).1 symbols
  exact ⟨bodies, eq, Build.of_yields_forM_requireDeclared next⟩

variable (setting inherited) in
/-- The rules that some entries define in a store. -/
def definedBy (store : Store Code) (entries : List (Value Code × Value Code)) :
    List (Value Code × Rule (Value Code)) :=
  (functionsOf entries).filterMap (definition? setting inherited store)

/-- The functions that entries give have proper names, which differ if the keys do. -/
theorem functionsOf_names {entries : List (Value Code × Value Code)}
    (distinct : Distinct entries) :
    (∀ function ∈ functionsOf entries, function.1.isValidName = true) ∧
      (functionsOf entries).Pairwise fun function other ↦ function.1 ≠ other.1 := by
  constructor
  · intro function hf
    obtain ⟨entry, -, gives⟩ := List.mem_filterMap.1 hf
    obtain ⟨valid, f, -, rfl⟩ := functionOf?_eq_some.1 gives
    exact valid
  · refine distinct.filterMap _ fun entry other apart function gives next gives' ↦ ?_
    obtain ⟨valid, f, -, rfl⟩ := functionOf?_eq_some.1 gives
    obtain ⟨-, f', -, rfl⟩ := functionOf?_eq_some.1 gives'
    exact apart valid

/-- A function defines a rule of its own name. -/
theorem fst_of_definition? {store : Store Code}
    {function : Value Code × Callable (Value Code) Code} {defined : Value Code × Rule (Value Code)}
    (defines : definition? setting inherited store function = some defined) :
    defined.1 = function.1 := by
  obtain ⟨r, -, rfl⟩ := Option.map_eq_some_iff.1 defines
  rfl

variable (setting inherited) in
/-- The rules that entries define have proper names, each another. -/
theorem definedBy_names (store : Store Code) {entries : List (Value Code × Value Code)}
    (distinct : Distinct entries) :
    (∀ entry ∈ definedBy setting inherited store entries, entry.1.isValidName = true) ∧
      ((definedBy setting inherited store entries).map Prod.fst).Nodup := by
  obtain ⟨valid, apart⟩ := functionsOf_names distinct
  constructor
  · intro entry he
    obtain ⟨function, hf, defines⟩ := List.mem_filterMap.1 he
    rw [fst_of_definition? defines]
    exact valid function hf
  · refine List.pairwise_map.2 (apart.filterMap _ fun function other ne defined defines next
      defines' ↦ ?_)
    rwa [fst_of_definition? defines, fst_of_definition? defines']

variable (setting inherited) in
/-- The problems with some entries: first with their names and functions, then with what the
functions come to. -/
def problemsWith (names : Namespace Code) (store : Store Code)
    (entries : List (Value Code × Value Code)) : List (Problem Code) :=
  entries.filterMap (entryProblem? inherited names) ++
    (functionsOf entries).filterMap (answerProblem? setting inherited store)

/-- The problem that there are no rules, if there are none. -/
def emptiness (v : Value Code) (definitions : Definitions Code) : List (Problem Code) :=
  if definitions.isEmpty then [⟨.noRules v, some "rules"⟩] else []

/-- That there are no rules is reported, and the build goes on. -/
theorem collects_emptiness {v : Value Code} {next : Build Code α} {a : α}
    (h : Yields .collect (if definitions.isEmpty then
      Build.reportIn (some "rules") (.noRules v) >>= fun _ ↦ next else next) before a after) :
    Yields .collect next (before.reporting (emptiness v definitions)) a after := by
  unfold emptiness
  cases empty : definitions.isEmpty with
  | true =>
    rw [empty] at h
    obtain ⟨_, _, reported, rest⟩ := (Build.yields_bind _ _ _).1 h
    obtain ⟨-, rfl⟩ := (Build.yields_reportIn _ _ _).1 reported
    exact rest
  | false =>
    rw [empty] at h
    rwa [if_neg Bool.false_ne_true, Journal.reporting_nil]

/-- A build of functions that change nothing comes to the rules that the entries define, and has
declared the names and reported the problems that the entries give one by one. -/
theorem collects_fromEntries {v : Value Code} {entries : List (Value Code × Value Code)}
    (h : Yields .collect (fromEntries setting inherited v entries) before definitions after)
    (distinct : Distinct entries)
    (still : ∀ entry ∈ entries, ∀ f, entry.2.callable? = some f → setting.Still f) :
    ∃ (first : Journal Code) (bodies : List (Rule (Value Code))),
      Yields .collect (inherit inherited) before () first ∧
      definitions = merged inherited (definedBy setting inherited first.store entries) ∧
      definitions.map (fun entry ↦ first.store.present entry.2) = bodies.map .rule ∧
      after = (first.declaring "rule" (declarations inherited first.names entries)).reporting
        (problemsWith setting inherited first.names first.store entries ++
          emptiness v definitions ++ (missing (first.declaring "rule"
            (declarations inherited first.names entries)).names bodies).map undeclared) := by
  obtain ⟨_, first, inherits, more⟩ := (Build.yields_bind _ _ _).1 h
  obtain ⟨functions, second, declaring, more⟩ := (Build.yields_bind _ _ _).1 more
  obtain ⟨defined, third, defining, more⟩ := (Build.yields_bind _ _ _).1 more
  obtain ⟨rfl, rfl⟩ := collects_declareEntries declaring distinct
  have still : ∀ function ∈ functionsOf entries, setting.Still function.2 := by
    intro function hf
    obtain ⟨entry, he, gives⟩ := List.mem_filterMap.1 hf
    obtain ⟨-, f, callable, rfl⟩ := functionOf?_eq_some.1 gives
    exact still entry he f callable
  obtain ⟨rfl, rfl⟩ := collects_defineAll still defining
  rw [Journal.reporting_append] at more
  have resolving : Yields .collect (do
      resolve (merged inherited (definedBy setting inherited first.store entries))
      return merged inherited (definedBy setting inherited first.store entries))
      ((first.declaring "rule" (declarations inherited first.names entries)).reporting
        (problemsWith setting inherited first.names first.store entries ++
          emptiness v (merged inherited (definedBy setting inherited first.store entries))))
      definitions after := by
    rw [← Journal.reporting_append]
    exact collects_emptiness more
  obtain ⟨_, _, resolved, done⟩ := (Build.yields_bind _ _ _).1 resolving
  obtain ⟨rfl, rfl⟩ := (Build.yields_pure _ _).1 done
  obtain ⟨bodies, eq, rfl⟩ := collects_resolve resolved
  exact ⟨first, bodies, inherits, rfl, eq, Journal.reporting_append _ _ _⟩

end Rules

end GrammarDoc
