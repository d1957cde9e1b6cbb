import GrammarDoc.Proofs.Collecting
import GrammarDoc.Proofs.Interference
import GrammarDoc.Proofs.Persistence

/-!
# References of rules

Once all rules are gathered, the names are looked up that they refer to. A walk through the rules,
from the first to the last, from the top and from the left, meets each reference; of the names that
are not declared each is reported once, where it is met first. Names are declared before any
function is called, so the name of a rule is not missed if its function fails.
-/

namespace GrammarDoc

open Build (Yields MadeOf)

variable {Code : Type} {before after : Journal Code}

/-! ### Walks -/

namespace Rule

variable {α : Type}

mutual

/-- The nodes of a rule in the order in which a walk meets them. -/
def nodes : Rule α → List (Rule α)
  | group kind members => group kind members :: nodesOfAll members
  | wrap kind content => wrap kind content :: nodes content
  | prec variant value content => prec variant value content :: nodes content
  | field name content => field name content :: nodes content
  | aliased content named value => aliased content named value :: nodes content
  | bare place => [bare place]
  | string value => [string value]
  | pattern value => [pattern value]
  | blank => [blank]
  | symbol name => [symbol name]

/-- The nodes of some rules. -/
def nodesOfAll : List (Rule α) → List (Rule α)
  | [] => []
  | r :: rest => nodes r ++ nodesOfAll rest

end

mutual

/-- A rule refers to the names of the symbols that a walk meets. -/
theorem mentions_eq_filterMap : ∀ r : Rule α, r.mentions = r.nodes.filterMap symbolName?
  | group _ members => mentionsOfAll_eq_filterMap members
  | wrap _ content | prec _ _ content | field _ content | aliased content _ _ =>
    mentions_eq_filterMap content
  | bare _ | string _ | pattern _ | blank | symbol _ => rfl

private theorem mentionsOfAll_eq_filterMap :
    ∀ rules : List (Rule α), mentionsOfAll rules = (nodesOfAll rules).filterMap symbolName?
  | [] => rfl
  | r :: rest => by
    rw [mentionsOfAll, nodesOfAll, List.filterMap_append, mentions_eq_filterMap r,
      mentionsOfAll_eq_filterMap rest]

end

end Rule

/-- The nodes of a value, if it is a rule. -/
def Value.nodes : Value Code → List (Rule (Value Code))
  | .rule r => r.nodes
  | _ => []

/-- The names of the symbols that a walk through a value meets. -/
def Value.namesMet (v : Value Code) : List (Value Code) := v.nodes.filterMap Rule.symbolName?

private theorem Value.mentions_eq_namesMet (v : Value Code) : v.mentions = v.namesMet := by
  cases v with
  | rule r => exact r.mentions_eq_filterMap
  | _ => rfl

namespace Rules

variable {setting : Setting Code} {inherited definitions : Definitions Code}
  {entries : List (Value Code × Value Code)}

/-! ### Names that are missing -/

/-- The names that a walk through some rules meets and that are not declared, each once. -/
def unresolved (names : Namespace Code) (definitions : Definitions Code) : List (Value Code) :=
  (Value.distinct (definitions.flatMap fun entry ↦ entry.2.namesMet)).filter
    fun name ↦ !names.has name

/-- Strings stay what they are, so the names that are missing are those that the rules refer to. -/
theorem missing_eq_unresolved {store : Store Code} {bodies : List (Rule (Value Code))}
    (names : Namespace Code)
    (present : definitions.map (fun entry ↦ store.present entry.2) = bodies.map .rule)
    (named : ∀ entry ∈ definitions, ∀ name ∈ entry.2.namesMet, ∃ s, name = .string s) :
    missing names bodies = unresolved names definitions := by
  have same : Rule.mentionsOfAll bodies = definitions.flatMap fun entry ↦ entry.2.namesMet := by
    rw [mentionsOfAll_of_present present]
    refine List.flatMap_congr fun entry he ↦ ?_
    rw [Value.mentions_eq_namesMet]
    refine (List.map_congr_left fun name hn ↦ ?_).trans (List.map_id _)
    obtain ⟨s, rfl⟩ := named entry he name hn
    exact (store.present_eq_string _ s).2 rfl
  rw [missing, same]
  rfl

/-- If all names are strings, just those are unresolved that are referred to and not declared. -/
theorem nodup_and_mem_unresolved {names : Namespace Code}
    (named : ∀ entry ∈ definitions, ∀ name ∈ entry.2.namesMet, ∃ s, name = .string s) :
    (unresolved names definitions).Nodup ∧ ∀ name, name ∈ unresolved names definitions ↔
      (∃ entry ∈ definitions, name ∈ entry.2.namesMet) ∧ names.has name = false := by
  have strings : ∀ name ∈ definitions.flatMap (fun entry ↦ entry.2.namesMet),
      ∃ s, name = .string s := by
    intro name hn
    obtain ⟨entry, he, hn⟩ := List.mem_flatMap.1 hn
    exact named entry he name hn
  obtain ⟨nodup, mem⟩ := Rule.mem_and_nodup_foldl_addName strings
  refine ⟨nodup.filter _, fun name ↦ ?_⟩
  rw [unresolved, List.mem_filter, Bool.not_eq_true']
  exact and_congr_left fun _ ↦ (mem name).trans List.mem_flatMap

/-! ### Gathering and resolving -/

private theorem of_yields_fromEntries {v : Value Code}
    (h : Yields .collect (fromEntries setting inherited v entries) before definitions after) :
    ∃ (gathered : Journal Code) (bodies : List (Rule (Value Code))),
      Yields .collect (gather setting inherited entries) before definitions gathered ∧
      definitions.map (fun entry ↦ gathered.store.present entry.2) = bodies.map .rule ∧
      after = gathered.reporting
        (emptiness v definitions ++ (missing gathered.names bodies).map undeclared) := by
  rw [fromEntries_eq] at h
  obtain ⟨kept, gathered, gathering, more⟩ := (Build.yields_bind _ _ _).1 h
  obtain ⟨_, _, resolved, done⟩ := (Build.yields_bind _ _ _).1 (collects_emptiness more)
  obtain ⟨rfl, rfl⟩ := (Build.yields_pure _ _).1 done
  obtain ⟨bodies, present, rfl⟩ := collects_resolve resolved
  exact ⟨gathered, bodies, gathering, present, Journal.reporting_append _ _ _⟩

/-- Gathering the rules is made of reports in the rules, of declarations and of calls. -/
theorem madeOf_gather {may : Move Code → Prop} (setting : Setting Code)
    (inherited : Definitions Code) (entries : List (Value Code × Value Code))
    (hr : Move.Reports may "rules") (hd : Move.Declares may "rule") (hl : may .look)
    (hc : ∀ place f previous, Move.Calls may "rules" (setting.call place f previous)) :
    MadeOf may (gather setting inherited entries) := by
  refine .bind (madeOf_inherit inherited hr hd) fun _ ↦ .bind ?_ fun functions ↦ ?_
  · exact .filterMap entries fun entry _ ↦ madeOf_declareEntry inherited entry hr hd
  · exact .bind (.filterMap functions fun entry _ ↦ madeOf_define setting inherited entry hr hl hc)
      fun _ ↦ .pure _

/-- Once the entries have been gone through, the names of those that give functions are declared,
unless they are inherited. -/
theorem mem_keys_of_functionOf? {functions : List (Value Code × Callable (Value Code) Code)}
    (h : Yields .collect (Build.filterMap (declareEntry inherited) entries) before functions after)
    {entry : Value Code × Value Code} (he : entry ∈ entries)
    (usable : (functionOf? entry).isSome = true) (new : inherited.has entry.1 = false) :
    entry.1 ∈ after.names.keys := by
  induction entries generalizing before functions with
  | nil => cases he
  | cons first rest ih =>
    obtain ⟨result, between, declared, others, more, -⟩ :=
      (Build.yields_filterMap_cons _ _ _ _).1 h
    rcases List.mem_cons.1 he with rfl | later
    · obtain ⟨function, gives⟩ := Option.isSome_iff_exists.1 usable
      obtain ⟨rfl, -⟩ := collects_declareEntry declared
      rw [gives] at declared
      have here := (of_yields_declareEntry declared).2 new
      exact (extends_of_yields_declareEntry more).mem_keys here
    · exact ih more later

/-- Once the rules have been gathered, the names of all entries that give functions are declared,
whatever the functions come to. -/
theorem has_of_yields_gather
    (h : Yields .collect (gather setting inherited entries) before definitions after)
    {entry : Value Code × Value Code} (he : entry ∈ entries)
    (usable : (functionOf? entry).isSome = true) : after.names.has entry.1 = true := by
  obtain ⟨function, gives⟩ := Option.isSome_iff_exists.1 usable
  have valid := (functionOf?_eq_some.1 gives).1
  obtain ⟨_, first, inherits, more⟩ := (Build.yields_bind _ _ _).1 h
  obtain ⟨functions, second, declaring, more⟩ := (Build.yields_bind _ _ _).1 more
  obtain ⟨defined, third, defining, done⟩ := (Build.yields_bind _ _ _).1 more
  obtain ⟨rfl, rfl⟩ := (Build.yields_pure _ _).1 done
  rw [Table.has_validName _ valid]
  refine (extends_of_yields_define defining).mem_keys ?_
  cases old : inherited.has entry.1 with
  | false => exact mem_keys_of_functionOf? declaring he usable old
  | true =>
    rw [Table.has_validName _ valid] at old
    obtain ⟨s, eq⟩ := Value.eq_string_of_isValidName valid
    rw [eq] at old ⊢
    have there := Build.mem_of_yields_forM_declare inherits old
    exact (extends_of_yields_declareEntry declaring).mem_keys there

end Rules

/-! ### The rules of a grammar -/

namespace Setting

variable {setting : Setting Code} {description : Value Code} {store : Store Code}

/-- If the rules are a mapping, a build gathers them from those of the base, and then says what it
misses. -/
theorem gathers_of_yields_rules {entries : Table Code (Value Code)} {rules : Entries (Value Code)}
    {given : List (Value Code × Value Code)}
    (h : Yields .collect (setting.rules entries) before rules after)
    (object : (before.store.present (setting.givenRules entries)).object? = some given) :
    ∃ (inherited : Rules.Definitions Code) (gathered : Journal Code)
        (bodies : List (Rule (Value Code))),
      Yields .collect setting.inheritedRules before inherited before ∧
      Yields .collect (Rules.gather setting inherited given) before rules.toList gathered ∧
      rules.toList.map (fun entry ↦ gathered.store.present entry.2) = bodies.map .rule ∧
      after = gathered.reporting
        (Rules.emptiness (before.store.present (setting.givenRules entries)) rules.toList ++
          (Rules.missing gathered.names bodies).map Rules.undeclared) := by
  obtain ⟨inherited, found, checked, -⟩ := yields_rules_iff_validate.1 h
  rw [Rules.validate_eq object] at checked
  obtain ⟨gathered, bodies, gathering, present, eq⟩ := Rules.of_yields_fromEntries checked
  exact ⟨inherited, gathered, bodies, found, gathering, present, eq⟩

/-- References to names that are not declared are reported once each. If the rules are given as a
mapping, or not at all, and the section comes to rules that refer to strings only, then it reports
what it finds while it gathers the rules, that there are none, and after that just the names that a
walk through the rules meets and that are not declared: each once, in the order in which the walk
meets them first. No name of an entry with a function is among them, whatever the function comes to.
If the build returns a grammar in the end, its rules are these and so are the problems with them. -/
theorem unresolved_of_rules {rules : Entries (Value Code)}
    (returns : Yields .collect (setting.rules (Description.given description before.store)) before
      rules after)
    (mapping : (setting.givenRules
      (Description.given description before.store)).object?.isSome = true)
    (named : ∀ entry ∈ rules.toList, ∀ name ∈ entry.2.namesMet, ∃ s, name = .string s) :
    ∃ given inherited gathered raised reported,
      (before.store.present (setting.givenRules
        (Description.given description before.store))).object? = some given ∧
      Yields .collect setting.inheritedRules before inherited before ∧
      Yields .collect (Rules.gather setting inherited given) before rules.toList gathered ∧
      gathered.problems = before.problems ++ raised ∧
      reported = raised ++
        Rules.emptiness (before.store.present (setting.givenRules
          (Description.given description before.store))) rules.toList ++
        (Rules.unresolved after.names rules.toList).map Rules.undeclared ∧
      after.problems = before.problems ++ reported ∧
      (Rules.unresolved after.names rules.toList).Nodup ∧
      (∀ name, name ∈ Rules.unresolved after.names rules.toList ↔
        (∃ entry ∈ rules.toList, name ∈ entry.2.namesMet) ∧ after.names.has name = false) ∧
      (∀ entry ∈ given, (Rules.functionOf? entry).isSome = true →
        entry.1 ∉ Rules.unresolved after.names rules.toList) ∧
      ∀ g finish, setting.collect description store = (.ok g, finish) →
        setting.Begins .collect description { store } .rules before →
        g.rules = rules ∧ finish.problemsIn .rules = reported := by
  obtain ⟨given, object⟩ := Option.isSome_iff_exists.1
    ((Store.isSome_object?_present before.store _).trans mapping)
  obtain ⟨inherited, gathered, bodies, found, gathering, present, rfl⟩ :=
    gathers_of_yields_rules returns object
  have permits := setting.permits_within
  obtain ⟨lines, within, adds⟩ := gathering.exists_adds
    (Rules.madeOf_gather setting inherited given (permits.reports .rules) (permits.declares _)
      permits.looks (permits.calls .rules))
  rw [Rules.missing_eq_unresolved gathered.names present named] at returns ⊢
  obtain ⟨once, mem⟩ := Rules.nodup_and_mem_unresolved named
  refine ⟨given, inherited, gathered, lines.filterMap Entry.problem?, _, object, found, gathering,
    adds.problems, rfl, ?_, once, mem, ?_, ?_⟩
  · rw [List.append_assoc, ← List.append_assoc, ← adds.problems]
    rfl
  · intro entry he usable missing
    have declared := Rules.has_of_yields_gather gathering he usable
    have absent : gathered.names.has entry.1 = false := ((mem _).1 missing).2
    rw [absent] at declared
    cases declared
  · intro g finish collected begins
    obtain ⟨start, last, course⟩ := exists_course collected
    obtain ⟨between, _, rfl, -, visit, -⟩ := course.exists_visit begins
    rw [between.store_begun] at returns
    obtain ⟨others, _, gone, done⟩ := (Build.yields_bind _ _ _).1 visit.gone
    obtain ⟨eq, rfl⟩ := (Build.yields_pure _ _).1 done
    obtain rfl := Value.mapping.inj eq
    obtain ⟨rfl, rfl⟩ := gone.unique returns
    refine ⟨rfl, ?_⟩
    rw [visit.problems _ (List.forall_mem_append.2 ⟨within, Entry.isWithin_reported _⟩)
      (adds.trans (gathered.adds_reporting_only _)), List.filterMap_append,
      Entry.filterMap_reported, List.append_assoc]
    rfl

/-- The rule of a base and two new ones refer to names that are not declared, some of them several
times, and one refers to a rule whose function comes to no rule. The names are reported once each,
and neither the target of an alias, nor the name of a field, nor that of a rule is among them. -/
theorem unresolved_of_rules_nested :
    let made (title : String) : Place := (Place.step 1).part title
    let list (title : String) : Items (Value Empty) := ⟨made title, [], false⟩
    let name (s : String) : Rule (Value Empty) := .symbol (.string s)
    let base : Grammar (Value Empty) :=
      ⟨.step 0, .string "g", ⟨made "rules", [(.string "i", .rule (.wrap .repeated (name "u")))],
        false⟩, list "extras", list "externals", list "inline", list "conflicts", .missing,
        list "supertypes", list "precedences", false⟩
    let setting : Setting Empty :=
      { run := fun _ code _ ↦ code.elim, place := .step 2, base := .grammar base }
    let gives (title : String) (v : Value Empty) : Value Empty × Value Empty :=
      (.string title, .callable (.constant (made title) title v))
    let given : Entries (Value Empty) := ⟨made "given", [
      gives "a" (.rule (.group .seq [
        .prec .left (.int 1) (.aliased (name "y") true (.string "z")),
        .field (.string "f") (.group .choice [name "x", .string (.string "w"), name "b"]),
        name "y"])),
      gives "b" .missing,
      gives "c" (.rule (.group .choice [name "x", name "v", name "a"]))], false⟩
    let description : Value Empty :=
      .mapping ⟨made "description", [(.string "rules", .mapping given)], false⟩
    let entries : Table Empty (Value Empty) := Description.given description {}
    ∃ (rules : Entries (Value Empty)) (after : Journal Empty) (raised : List (Problem Empty)),
      Yields .collect (setting.rules entries) {} rules after ∧
      (setting.givenRules entries).object?.isSome = true ∧
      (∀ entry ∈ rules.toList, ∀ name ∈ entry.2.namesMet, ∃ s, name = .string s) ∧
      (Table.keys rules.toList).map Value.shown = ["i", "a", "c"] ∧
      after.problems =
        raised ++ (Rules.unresolved after.names rules.toList).map Rules.undeclared ∧
      after.problems.map (fun p ↦ (p.kind, p.value.shown)) =
        [(.undefinedSymbol, "None"), (.undeclaredReference, "u"), (.undeclaredReference, "y"),
          (.undeclaredReference, "x"), (.undeclaredReference, "v")] ∧
      (Rules.unresolved after.names rules.toList).map Value.shown = ["u", "y", "x", "v"] := by
  intro made list name base setting gives given description entries
  have computed : (Build.start (setting.rules entries) .collect {}).1.toOption.any (fun rules ↦
      let after := (Build.start (setting.rules entries) .collect {}).2
      decide ((Table.keys rules.toList).map Value.shown = ["i", "a", "c"]) &&
      rules.toList.all (fun entry ↦ entry.2.namesMet.all Value.isString) &&
      decide (after.problems.map (fun p ↦ (p.kind, p.value.shown)) =
        [(.undefinedSymbol, "None"), (.undeclaredReference, "u"), (.undeclaredReference, "y"),
          (.undeclaredReference, "x"), (.undeclaredReference, "v")]) &&
      decide ((Rules.unresolved after.names rules.toList).map Value.shown =
        ["u", "y", "x", "v"])) = true := by
    decide +kernel
  obtain ⟨rules, returns, computed⟩ := Build.exists_eq_ok_of_any computed
  simp only [Bool.and_eq_true, decide_eq_true_eq, List.all_eq_true] at computed
  obtain ⟨⟨⟨keys, strings⟩, shown⟩, unresolved⟩ := computed
  have mapping : (setting.givenRules entries).object?.isSome = true := by
    decide +kernel
  have named : ∀ entry ∈ rules.toList, ∀ name ∈ entry.2.namesMet, ∃ s, name = .string s :=
    fun entry he name hn ↦ Value.exists_of_isString (strings entry he name hn)
  obtain ⟨_, _, _, raised, _, -, -, -, -, rfl, problems, -⟩ :=
    @unresolved_of_rules _ {} _ setting description {} rules returns mapping named
  have some : rules.toList.isEmpty = false := by
    cases empty : rules.toList with
    | nil =>
      rw [empty] at keys
      cases keys
    | cons => rfl
  rw [Rules.emptiness, some, if_neg Bool.false_ne_true, List.append_nil] at problems
  exact ⟨rules, _, raised, returns, mapping, named, keys, problems, shown, unresolved⟩

end Setting

end GrammarDoc
