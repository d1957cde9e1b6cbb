import GrammarDoc.Proofs.Merging
import GrammarDoc.Proofs.Originals
import GrammarDoc.Proofs.References
import Mathlib.Data.Set.List

/-!
# Rebuilding a grammar

A grammar that is written as a document and read again gives references, whose rules are functions
and whose externals are symbols by their names. A description of these and of the other parts of
the grammar, as they are, restates the grammar.
-/

namespace GrammarDoc

open Build (Yields)

variable {Code : Type} {before after : Journal Code}

/-! ### References -/

private theorem Text.eraseDups_eq_self {texts : List String} (nodup : texts.Nodup) :
    texts.eraseDups = texts := by
  induction texts with
  | nil => rfl
  | cons s rest ih =>
    obtain ⟨new, distinct⟩ := List.nodup_cons.1 nodup
    have others : rest.filter (fun t ↦ !t == s) = rest :=
      List.filter_eq_self.2 fun t ht ↦ by simpa using ne_of_mem_of_not_mem ht new
    rw [List.eraseDups_cons, others, ih distinct]

namespace References

/-- References to a settled grammar: a function for each rule that takes nothing and returns the
rule, and a symbol for each external. -/
structure Lists (refs : References (Value Code)) (g : Grammar (Value Code)) : Prop where
  rules : ∃ (place : Value Code → Place) (text : Value Code → String),
    refs.rules.toList = g.rules.toList.map fun entry ↦
      (entry.1, .callable (.constant (place entry.1) (text entry.1) entry.2))
  externals : refs.externals.toList =
    (g.namesOf .externals).map fun name ↦ (name, .symbol name)
  once : refs.rules.again = false ∧ refs.externals.again = false

/-- There are references to a grammar with the parts of a settled one. -/
theorem exists_ofGrammar (place : Place) {g copy : Grammar (Value Code)} {references : Bool}
    {names : Namespace Code} (settled : g.Settled references names)
    (rules : copy.rules.toList = g.rules.toList)
    (externals : copy.externals.toList = g.externals.toList) :
    ∃ refs, ofGrammar place copy = .ok refs ∧ refs.Lists g ∧
      refs.rules.place = place.part "rules" ∧ refs.externals.place = place.part "externals" := by
  obtain ⟨definitions, eqRules⟩ : ∃ definitions : List (String × Value Code),
      definitions.map (fun entry ↦ (.string entry.1, entry.2)) = g.rules.toList := by
    refine (Set.ext_iff.1 (Set.range_list_map _) _).2 fun entry he ↦ ?_
    obtain ⟨s, eq⟩ := Value.eq_string_of_isValidName
      (settled.valid_rules _ (List.mem_map_of_mem he))
    exact ⟨(s, entry.2), Prod.ext eq.symm rfl⟩
  obtain ⟨symbols, eqSymbols⟩ : ∃ symbols : List String,
      symbols.map .string = g.namesOf .externals := by
    refine (Set.ext_iff.1 (Set.range_list_map _) _).2 fun name hn ↦ ?_
    obtain ⟨s, eq⟩ := Value.eq_string_of_isValidName (settled.valid_externals _ hn)
    exact ⟨s, eq.symm⟩
  have distinct : symbols.Nodup := by
    have all := (List.nodup_append.1 settled.nodup_names).1
    rw [← eqSymbols] at all
    exact all.of_map _
  have named : copy.externalNames = symbols.map .string := by
    rw [Grammar.externalNames, externals, eqSymbols]
    rfl
  refine ⟨_, ofGrammar_eq (rules.trans eqRules.symm) named place, ⟨?_, ?_, rfl, rfl⟩, rfl, rfl⟩
  · refine ⟨fun name ↦ (place.part "definition").part name.shown, Value.shown, ?_⟩
    rw [← eqRules, List.map_map]
    rfl
  · simp only [← eqSymbols, ofNames, Text.eraseDups_eq_self distinct, List.map_map]
    exact List.map_congr_left fun _ _ ↦ rfl

private theorem Lists.present_eq {refs : References (Value Code)} {g : Grammar (Value Code)}
    {references : Bool} {names : Namespace Code} (lists : refs.Lists g)
    (settled : g.Settled references names) {store : Store Code}
    (spared : store.Spares [refs.rules.place, refs.externals.place]) :
    store.present (.mapping refs.rules) = .mapping refs.rules ∧
      store.present (.mapping refs.externals) = .mapping refs.externals := by
  obtain ⟨place, ⟨rulesPlace, rules, _⟩, ⟨externalsPlace, externals, _⟩, functions⟩ := refs
  obtain ⟨⟨placed, text, given⟩, listed, rfl, rfl⟩ := lists
  dsimp only at given listed spared ⊢
  constructor
  · rw [store.present_mapping (spared _ (by simp)).2, given, List.map_map]
    congr 2
    exact List.map_congr_left fun entry he ↦ Prod.ext
      (settled.present_eq (settled.rule_mem (List.mem_map_of_mem he))) (store.present_callable _)
  · rw [store.present_mapping (spared _ (by simp)).2, listed, List.map_map]
    congr 2
    refine List.map_congr_left fun name hn ↦ ?_
    exact Prod.ext (settled.present_eq (settled.external_mem hn))
      (store.present_symbol (settled.valid_externals name hn))

end References

/-! ### Descriptions of references -/

/-- The entries of a description that gives references to a grammar as its rules and externals, and
the other parts of the grammar as they are. -/
structure Description.Refers (entries : Table Code (Value Code)) (g : Grammar (Value Code))
    (refs : References (Value Code)) : Prop where
  keys : ∀ key ∈ entries.keys, ∃ part : Section, key = .string part.title
  rules : Description.get entries .rules = .mapping refs.rules
  externals : Description.get entries .externals = .mapping refs.externals
  parts : ∀ part ∉ [Section.externals, .rules], Description.get entries part = g.fields part

private theorem Externals.gives_mapping (place : Place) {members : List (Value Code)}
    (valid : ∀ name ∈ members, name.isValidName = true) :
    let v : Value Code := .mapping ⟨place, members.map fun name ↦ (name, .symbol name), false⟩
    Gives v (members.map Rule.symbol) ∧ names v = members := by
  constructor
  · refine .inr (.inr ⟨_, rfl, ?_⟩)
    rw [List.forall₂_map_left_iff, List.forall₂_map_right_iff, List.forall₂_same]
    intro name hn
    refine ⟨valid name hn, rfl, ?_⟩
    rintro _ ⟨⟩
    rfl
  · change Table.keys (members.map _) = members
    rw [Table.keys, List.map_map]
    exact List.map_id _

private theorem Setting.returns_constants {setting : Setting Code} {store : Store Code}
    {rules : List (Value Code × Value Code)} (place : Value Code → Place)
    (text : Value Code → String) (present : ∀ entry ∈ rules, store.present entry.2 = entry.2) :
    ((rules.map fun entry ↦
        (entry.1, Callable.constant (place entry.1) (text entry.1) entry.2)).mapM
      (Rules.returned setting [])).Returns store rules store := by
  let call (entry : Value Code × Value Code) := Rules.returned setting []
    (entry.1, .constant (place entry.1) (text entry.1) entry.2)
  have each : ∀ entry ∈ rules, (call entry).Returns store (id entry) store := by
    intro entry he
    simp only [call, Rules.returned, Exec.returns_bind, Exec.returns_present, Exec.returns_pure]
    exact ⟨entry.2, store, rfl, _, _, ⟨rfl, rfl⟩, by rw [present entry he]; rfl, rfl⟩
  have all := Exec.returns_mapM each
  rw [List.map_id] at all
  rw [List.mapM_map]
  exact all

namespace Setting

variable {setting : Setting Code} {entries : Table Code (Value Code)} {store : Store Code}
  {g h : Grammar (Value Code)} {refs : References (Value Code)} {references : Bool}
  {names : Namespace Code} (anew : setting.hasBase = false)
  (settled : h.Settled references names) (lists : refs.Lists h)
  (spared : store.Spares [refs.rules.place, refs.externals.place])
  (described : Description.Refers entries g refs)

include anew settled lists spared described

/-- The externals are restated. -/
theorem exists_yields_externals_of_references (here : before.store = store)
    (none : before.names = []) :
    ∃ items, Yields .failFast (setting.externals entries) before items
      (before.declaring "externals" (h.namesOf .externals)) ∧
        items.toList = h.externals.toList := by
  subst here
  have mapping : Value.mapping refs.externals = .mapping ⟨refs.externals.place,
      (h.namesOf .externals).map fun name ↦ (name, .symbol name), false⟩ := by
    rw [← lists.externals, ← lists.once.2]
  obtain ⟨gives, declares⟩ := Externals.gives_mapping refs.externals.place settled.valid_externals
  rw [← mapping] at gives declares
  have validated := settled.yields_validateExternals none gives declares
  refine ⟨⟨setting.made "result" "externals", ((h.namesOf .externals).map .symbol).map .rule,
    false⟩, ?_, ?_⟩
  · unfold Setting.externals inheritedExternals
    simp only [anew, Bool.false_eq_true, if_false, pure_bind, described.externals, evaluate,
      Value.callable?]
    refine (Build.yields_bind _ _ _).2 ⟨_, before, (Build.yields_present _ _).2
      ⟨(lists.present_eq settled spared).2.symm, rfl⟩, ?_⟩
    exact (Build.yields_bind _ _ _).2 ⟨_, _, validated, (Build.yields_pure _ _).2 ⟨rfl, rfl⟩⟩
  · rw [settled.externals, List.map_map]
    rfl

/-- The rules are restated, if they are all as they are at present. -/
theorem exists_yields_rules_of_references
    (present : ∀ entry ∈ h.rules.toList, store.present entry.2 = entry.2)
    (here : before.store = store)
    (current : before.names = (h.namesOf .externals).map fun name ↦ (name, "externals")) :
    ∃ rules, Yields .failFast (setting.rules entries) before rules
      (before.declaring "rule" (h.namesOf .rules)) ∧ rules.toList = h.rules.toList := by
  subst here
  have valid := settled.valid_rules
  obtain ⟨-, distinct, fresh⟩ := List.nodup_append.1 settled.nodup_names
  have externals : before.names.keys = h.namesOf .externals := by
    rw [current, Table.keys, List.map_map]
    exact List.map_id _
  obtain ⟨place, text, given⟩ := lists.rules
  have keys : Table.keys refs.rules.toList = h.namesOf .rules := by
    rw [given, Table.keys, List.map_map]
    rfl
  have new : refs.rules.toList.filterMap (Rules.entryName? []) = h.namesOf .rules := by
    rw [← keys]
    exact List.filterMap_eq_map_iff_forall_eq_some.2 fun _ _ ↦ rfl
  let fs := h.rules.toList.map fun entry ↦
    (entry.1, (Callable.constant (place entry.1) (text entry.1) entry.2 : Callable _ Code))
  have gives : List.Forall₂ Rules.EntryGives refs.rules.toList fs := by
    rw [given, List.forall₂_map_left_iff, List.forall₂_map_right_iff, List.forall₂_same]
    exact fun entry he ↦ ⟨valid entry.1 (List.mem_map_of_mem he), rfl, rfl⟩
  have returned : (fs.mapM (Rules.returned setting [])).Returns before.store h.rules.toList
      before.store :=
    returns_constants place text present
  obtain ⟨defined, same⟩ := settled.exists_definitions
  have results : List.Forall₂ Rules.ResultGives h.rules.toList defined := by
    rw [same, List.forall₂_map_left_iff, List.forall₂_same]
    exact fun entry _ ↦ ⟨rfl, rfl⟩
  have names' : defined.map Prod.fst = h.namesOf .rules := by
    rw [Grammar.namesOf, same, Table.keys, List.map_map]
    rfl
  have merged : Rules.merged [] defined = h.rules.toList := by
    rw [same]
    refine Rules.merged_eq_append (fun entry he ↦ ?_) ?_
    · exact valid _ (names' ▸ List.mem_map_of_mem he)
    · exact names'.symm ▸ distinct
  let declared := before.declaring "rule" (h.namesOf .rules)
  have resolved : Yields .failFast (Rules.resolve (Rules.merged [] defined)) declared ()
      declared := by
    refine settled.yields_resolve ?_ ((congrArg (· ++ _) current).trans settled.declared.symm)
    rw [merged]
    exact List.map_congr_left present
  have validated : Yields .failFast (Rules.validate setting [] (.mapping refs.rules)) before
      (Rules.merged [] defined) declared := by
    refine (Rules.yields_validate _ _ _ _).2 ⟨refs.rules.toList, rfl,
      (Rules.yields_fromEntries _ _ _ _ _).2 ⟨before, fs, _, before.store, defined,
        (Build.yields_pure _ _).2 ⟨rfl, rfl⟩, ⟨gives, ?_, ?_⟩, ⟨returned, results⟩, ⟨rfl, ?_⟩, ?_⟩⟩
    · exact new.symm ▸ distinct
    · rw [new, externals]
      exact fun name hn old ↦ fresh name old name hn rfl
    · rw [merged, List.isEmpty_eq_false_iff]
      exact settled.nonempty
    · rw [new]
      exact resolved
  refine ⟨⟨setting.made "result" "rules", Rules.merged [] defined, false⟩, ?_, merged⟩
  have inherits : Yields .failFast setting.inheritedRules before [] before := by
    rw [inheritedRules, anew]
    exact (Build.yields_pure _ _).2 ⟨rfl, rfl⟩
  refine yields_rules_iff_validate.2 ⟨[], inherits, ?_, rfl⟩
  rwa [givenRules, described.rules, (lists.present_eq settled spared).1]

end Setting

namespace Grammar.Settled

variable {g : Grammar (Value Code)} {references : Bool} {names : Namespace Code}
  (settled : g.Settled references names)

include settled

private theorem restates_fields {part : Section}
    (hp : part ∈ [Section.extras, .inline, .conflicts, .supertypes, .precedences]) :
    g.Restates part (g.fields part) := by
  have same (members : List (Value Code)) :
      List.Forall₂ (fun item name ↦ item = name ∨ item = .symbol name) members members :=
    List.forall₂_same.2 fun _ _ ↦ .inl rfl
  simp only [List.mem_cons, List.not_mem_nil, or_false] at hp
  rcases hp with rfl | rfl | rfl | rfl | rfl
  · rfl
  · exact ⟨_, rfl, same _⟩
  · refine ⟨_, rfl, List.forall₂_same.2 fun group hg ↦ ?_⟩
    obtain ⟨place, members, rfl, -, -⟩ := settled.conflicts group hg
    exact ⟨members, rfl, members, rfl, same members⟩
  · exact ⟨_, rfl, same _⟩
  · rfl

private theorem callable?_fields (part : Section) : (g.fields part).callable? = none := by
  cases part with
  | name =>
    obtain ⟨s, eq⟩ := Value.eq_string_of_isValidName settled.name
    exact congrArg Value.callable? eq
  | word =>
    rcases settled.word with missing | declared
    · exact congrArg Value.callable? missing
    · obtain ⟨s, eq⟩ := Value.eq_string_of_isValidName (settled.valid _ declared)
      exact congrArg Value.callable? eq
  | externals | rules | extras | inline | conflicts | supertypes | precedences => rfl

end Grammar.Settled

namespace Setting

variable {setting : Setting Code} {entries : Table Code (Value Code)} {store : Store Code}
  {g : Grammar (Value Code)} {refs : References (Value Code)} {references : Bool}
  {names : Namespace Code}

/-- A description of the references to a grammar and of its other parts restates the grammar. -/
theorem restates_of_references (anew : setting.hasBase = false)
    (settled : g.Settled references names) (asMade : g.AsMade store)
    (lists : refs.Lists (g.atPresent store))
    (spared : store.Spares [refs.rules.place, refs.externals.place])
    (described : Description.Refers entries g refs) :
    setting.Restates entries store (g.atPresent store) names := by
  have atPresent := settled.atPresent asMade
  have present : ∀ entry ∈ (g.atPresent store).rules.toList, store.present entry.2 = entry.2 := by
    rw [settled.rules_atPresent asMade]
    intro entry he
    obtain ⟨made, -, rfl⟩ := List.mem_map.1 he
    exact store.present_present made.2
  have stands {part : Section} (hp : part ∉ [Section.externals, .rules]) :
      (setting.standing part (Description.get entries part)).Returns store
        ((g.atPresent store).fields part) store := by
    rw [described.parts part hp]
    unfold standing
    rw [settled.callable?_fields part, g.fields_atPresent]
    exact (Exec.returns_present _ _).2 ⟨rfl, rfl⟩
  constructor
  · rintro before rfl
    refine (yields_name entries anew _).2 ⟨?_, atPresent.name, rfl⟩
    rw [described.parts .name (by decide)]
    rfl
  · exact fun before here none ↦
      exists_yields_externals_of_references anew atPresent lists spared described here none
  · exact fun before here current ↦
      exists_yields_rules_of_references anew atPresent lists spared described present here current
  · rintro part hp before rfl -
    refine ⟨_, atPresent.restates_fields hp, fun results checked ↦ ?_⟩
    refine (yields_part entries anew _).2 ⟨_, _, stands ?_, results, checked, rfl⟩
    simp only [List.mem_cons, List.not_mem_nil, or_false] at hp
    rcases hp with rfl | rfl | rfl | rfl | rfl <;> decide
  · rintro before rfl rfl
    refine (yields_word entries anew _).2 ⟨(g.atPresent before.store).word, before.store, ?_, ?_,
      rfl⟩
    · have noFunction : refers before.names.keys (Description.get entries .word) = false := by
        rw [described.parts .word (by decide), refers, settled.callable?_fields .word]
      rw [wordStanding, noFunction, if_neg Bool.false_ne_true]
      exact stands (by decide)
    · rcases atPresent.word with missing | declared
      · exact .inl ⟨missing, missing⟩
      · exact .inr (Names.entryGives_of_declared settled.valid declared (.inl rfl))

end Setting

/-! ### Through a document -/

private theorem Rule.Concrete.replaced {r : Rule (Value Code)} (concrete : r.Concrete)
    (new : Replacement Code) (above : List Place) :
    (Value.replacedRule new above r).Concrete := by
  have all (members : List (Rule (Value Code)))
      (each : ∀ r ∈ members, (Value.replacedRule new above r).Concrete) :
      ∀ r ∈ Value.replacedRules new above members, r.Concrete := by
    induction members with
    | nil => simp [Value.replacedRules]
    | cons r rest ih =>
      rw [Value.replacedRules, List.forall_mem_cons]
      rw [List.forall_mem_cons] at each
      exact ⟨each.1, ih each.2⟩
  induction concrete with
  | string v | pattern v | symbol v | blank =>
    rw [Value.replacedRule]
    constructor
  | group kind _ each =>
    rw [Value.replacedRule]
    exact .group kind (all _ each)
  | wrap kind _ inner =>
    rw [Value.replacedRule]
    exact .wrap kind inner
  | prec variant v _ inner =>
    rw [Value.replacedRule]
    exact .prec variant _ inner
  | field name _ inner =>
    rw [Value.replacedRule]
    exact .field _ inner
  | aliased _ named v inner =>
    rw [Value.replacedRule]
    exact .aliased inner named _

/-- No bare node is in a rule at present if there was none when it was made. -/
theorem Rule.Concrete.present {r : Rule (Value Code)} (concrete : r.Concrete) (store : Store Code) :
    ∃ r', store.present (.rule r) = .rule r' ∧ r'.Concrete := by
  obtain same | ⟨new, eq, -⟩ := store.present_cases
  · exact ⟨r, by rw [same, id], concrete⟩
  · exact ⟨Value.replacedRule new [] r, by rw [eq, Value.replaced], concrete.replaced new []⟩

/-- A settled grammar is regular if no bare node is in its rules and extras. -/
theorem Grammar.Settled.regular {g : Grammar (Value Code)} {references : Bool}
    {names : Namespace Code} (settled : g.Settled references names)
    (rules : ∀ entry ∈ g.rules.toList, ∃ r, entry.2 = .rule r ∧ r.Concrete)
    (extras : ∀ v ∈ g.extras.toList, ∃ r, v = .rule r ∧ r.Concrete) : g.Regular := by
  refine ⟨settled.once.again, rules, extras, ?_, ?_, ?_⟩
  · rw [settled.externals]
    intro v hv
    obtain ⟨name, -, rfl⟩ := List.mem_map.1 hv
    exact ⟨_, rfl, .symbol name⟩
  · intro group hg
    obtain ⟨place, members, rfl, -⟩ := settled.conflicts group hg
    exact ⟨_, rfl⟩
  · intro group hg
    obtain ⟨place, members, rfl, gives⟩ := settled.precedences group hg
    refine ⟨_, rfl, fun v hv ↦ ?_⟩
    obtain ⟨r, hr, rfl⟩ := List.mem_map.1 hv
    obtain ⟨-, ⟨value, rfl⟩ | ⟨name, rfl, -⟩⟩ := gives r hr
    · exact ⟨_, rfl, .string value⟩
    · exact ⟨_, rfl, .symbol name⟩

namespace CleanBuild

/-- A grammar was built without a base and without a problem, its externals are all symbols, and no
bare node stands in its rules and extras. As it is at present, it is written as a document, which is
read as a grammar to which there are references. A build without a base, under the same policy on
extras, is given the rules and externals of the references and the other parts of the grammar
itself. It reports nothing and makes a grammar with the same content, rules and externals in the
same order, which therefore equals the first as that equals itself. -/
theorem rebuilt_from_references (b : CleanBuild Code) (anew : b.setting.hasBase = false)
    (symbols : ∀ v ∈ b.grammar.externals.toList, ∃ name, v = .symbol name)
    (concrete : ∀ r, .rule r ∈ b.grammar.rules.toList.map Prod.snd ++ b.grammar.extras.toList →
      r.Concrete)
    {store : Store Code} (asMade : b.grammar.AsMade store) (written read referred : Place) :
    let h := b.grammar.atPresent store
    ∃ d copy refs, h.toSchema written = .ok d ∧ Grammar.ofSchema read d = .ok copy ∧
      References.ofGrammar referred copy = .ok refs ∧
      ∀ (setting : Setting Code) (description : Value Code) (entries : Table Code (Value Code)),
        setting.hasBase = false → setting.extraReferences = b.setting.extraReferences →
        store.IsNew referred → (store.read description).object? = some entries →
        Description.Refers entries b.grammar refs →
        ∃ g after, setting.collect description store = (.ok g, after) ∧ after.problems = [] ∧
          after.names = b.names ∧ after.store = store ∧ g.content = h.content ∧
          Value.compareGrammars g h = Value.compareGrammars h h := by
  intro h
  have settled := b.settled anew symbols
  have atPresent := settled.atPresent asMade
  have regular : h.Regular := by
    refine atPresent.regular ?_ ?_
    · rw [settled.rules_atPresent asMade]
      intro entry he
      obtain ⟨made, hm, rfl⟩ := List.mem_map.1 he
      obtain ⟨r, eq⟩ := settled.definitions made hm
      have whole := concrete r (List.mem_append_left _ (eq ▸ List.mem_map_of_mem hm))
      exact eq ▸ whole.present store
    · have same : h.extras.toList = b.grammar.extras.toList.map store.present :=
        congrArg Items.toList (store.list_of_untouched settled.once.extras asMade.extras)
      rw [same]
      intro v hv
      obtain ⟨made, hm, rfl⟩ := List.mem_map.1 hv
      obtain ⟨r, rfl, -⟩ := settled.extras made hm
      exact (concrete r (List.mem_append_right _ hm)).present store
  obtain ⟨w, writing, parts⟩ := regular.exists_toSchema written
  obtain ⟨copy, reading, content⟩ := parts.exists_ofSchema written read
  obtain ⟨refs, referring, lists, rulesPlace, externalsPlace⟩ := References.exists_ofGrammar
    referred atPresent (congrArg Grammar.Content.rules content)
    (congrArg Grammar.Content.externals content)
  refine ⟨_, copy, refs, writing, reading, referring, ?_⟩
  intro setting description entries anew policy new given described
  have spared : store.Spares [refs.rules.place, refs.externals.place] := by
    intro place hp
    rw [rulesPlace, externalsPlace] at hp
    rcases List.mem_cons.1 hp with rfl | hp
    · exact new _ (.part _ .whole) _ (List.mem_singleton.2 rfl)
    · rw [List.mem_singleton.1 hp]
      exact new _ (.part _ .whole) _ (List.mem_singleton.2 rfl)
  obtain ⟨g, after, collected, problems, names, same, repeats⟩ :=
    atPresent.exists_collect policy given described.keys
      (Setting.restates_of_references anew settled asMade lists spared described)
  exact ⟨g, after, collected, problems, names, same, repeats.content_eq,
    repeats.compare_eq atPresent.once⟩

/-- A grammar with two rules, an external symbol, a conflict and a word is rebuilt. -/
theorem rebuilt_from_references_cases :
    let run : Interpreter Empty := fun _ code _ ↦ code.elim
    let list (items : List (Value Empty)) : Value Empty := .list ⟨.step 0, items, false⟩
    let mapping (entries : List (String × Value Empty)) : Value Empty :=
      .mapping ⟨.step 0, entries.map fun (key, v) ↦ (.string key, v), false⟩
    let returning (v : Value Empty) : Value Empty := .callable (.constant (.step 0) "rule" v)
    let first := mapping [("name", .string "g"),
      ("externals", mapping [("indent", .symbol (.string "indent"))]),
      ("rules", mapping [("a", returning (.symbol (.string "b"))), ("b", returning (.string "x"))]),
      ("conflicts", list [list [.string "a", .string "indent"]]), ("word", .string "b")]
    ∃ (b : CleanBuild Empty) (d : Value Empty) (copy : Grammar (Value Empty))
      (refs : References (Value Empty)), b.description = first ∧
      b.grammar.toSchema (.step 1) = .ok d ∧ Grammar.ofSchema (.step 2) d = .ok copy ∧
      References.ofGrammar (.step 3) copy = .ok refs ∧
      ∃ g after,
        Setting.collect { run, place := .step 4 } (.mapping ⟨.step 0, [
          (.string "name", b.grammar.name), (.string "rules", .mapping refs.rules),
          (.string "externals", .mapping refs.externals),
          (.string "extras", .list b.grammar.extras), (.string "inline", .list b.grammar.inline),
          (.string "conflicts", .list b.grammar.conflicts), (.string "word", b.grammar.word),
          (.string "supertypes", .list b.grammar.supertypes),
          (.string "precedences", .list b.grammar.precedences)], false⟩) {} = (.ok g, after) ∧
        after.problems = [] ∧ g.content = b.grammar.content ∧
        Value.compareGrammars g b.grammar = some true := by
  intro run list mapping returning first
  let setting : Setting Empty := { run, place := .step 0 }
  have returns : (setting.build first {}).1.toOption.any (fun g ↦
      (g.externals.toList.all fun v ↦ v.symbolName?.isSome) &&
      ((g.rules.toList.map Prod.snd ++ g.extras.toList).all fun v ↦
        v.toRule.toOption.any Rule.isLeaf) && Value.compareGrammars g g == some true) = true := by
    decide +kernel
  obtain ⟨g, built, returns⟩ := Build.exists_eq_ok_of_any returns
  simp only [Bool.and_eq_true, List.all_eq_true, beq_iff_eq] at returns
  obtain ⟨⟨all, leaves⟩, self⟩ := returns
  have symbols : ∀ v ∈ g.externals.toList, ∃ name, v = .symbol name := fun v hv ↦
    Value.exists_eq_symbol (all v hv)
  have concrete : ∀ r, .rule r ∈ g.rules.toList.map Prod.snd ++ g.extras.toList →
      r.Concrete := fun _ hr ↦ Rule.concrete_of_isLeaf (leaves _ hr)
  let b : CleanBuild Empty := ⟨setting, first, {}, g, _, .inl built⟩
  have asMade : b.grammar.AsMade {} := ⟨⟨rfl, fun _ _ _ ↦ rfl, fun _ _ _ _ _ ↦ rfl⟩, rfl⟩
  obtain ⟨d, copy, refs, written, read, referred, rebuilds⟩ :=
    b.rebuilt_from_references rfl symbols concrete asMade (.step 1) (.step 2) (.step 3)
  let entries : Table Empty (Value Empty) := [(.string "name", g.name),
    (.string "rules", .mapping refs.rules), (.string "externals", .mapping refs.externals),
    (.string "extras", .list g.extras), (.string "inline", .list g.inline),
    (.string "conflicts", .list g.conflicts), (.string "word", g.word),
    (.string "supertypes", .list g.supertypes), (.string "precedences", .list g.precedences)]
  have refers : Description.Refers entries g refs := {
    keys := by
      have titles : entries.keys = [Section.name, .rules, .externals, .extras, .inline, .conflicts,
        .word, .supertypes, .precedences].map fun part ↦ .string part.title := rfl
      intro key hk
      obtain ⟨part, -, rfl⟩ := List.mem_map.1 (titles ▸ hk)
      exact ⟨part, rfl⟩
    rules := by simp [Description.get, entries, Section.title]
    externals := by simp [Description.get, entries, Section.title]
    parts := fun part hp ↦ by
      cases part with
      | externals | rules => simp at hp
      | name | extras | inline | conflicts | word | supertypes | precedences =>
        simp [Description.get, entries, Section.title, Grammar.fields, Section.each] }
  obtain ⟨heir, after, collected, problems, -, -, content, equal⟩ :=
    rebuilds { run, place := .step 4 } (.mapping ⟨.step 0, entries, false⟩) entries rfl rfl
      (fun _ _ _ _ ↦ ⟨rfl, rfl⟩) rfl refers
  exact ⟨b, d, copy, refs, rfl, written, read, referred, heir, after, collected, problems, content,
    equal.trans self⟩

/-- A function may return a bare node for a rule. Nothing is reported then, but the grammar cannot
be written as a document. -/
theorem exists_not_written :
    let setting : Setting Empty := { run := fun _ code _ ↦ code.elim, place := .step 0 }
    let bare : Value Empty := .callable (.constant (.step 0) "a" (.rule (.bare (.step 1))))
    let description : Value Empty := .mapping ⟨.step 0, [(.string "name", .string "g"),
      (.string "rules", .mapping ⟨(Place.step 0).part "rules", [(.string "a", bare)], false⟩)],
      false⟩
    ∃ b : CleanBuild Empty, b.setting = setting ∧ b.setting.hasBase = false ∧
      b.description = description ∧
      (∀ v ∈ b.grammar.externals.toList, ∃ name, v = .symbol name) ∧
      b.grammar.toSchema (.step 2) = .error .notImplemented := by
  intro setting bare description
  have returns : (setting.build description {}).1.toOption.any (fun g ↦
      g.externals.toList.isEmpty &&
        Build.failure? (g.toSchema (.step 2)) == some .notImplemented) = true := by
    decide +kernel
  obtain ⟨g, built, returns⟩ := Build.exists_eq_ok_of_any returns
  simp only [Bool.and_eq_true, List.isEmpty_iff, beq_iff_eq] at returns
  obtain ⟨none, unwritten⟩ := returns
  exact ⟨⟨setting, description, {}, g, _, .inl built⟩, rfl, rfl, rfl,
    fun v hv ↦ absurd (none ▸ hv) List.not_mem_nil, Build.eq_error_of_failure? unwritten⟩

end CleanBuild

end GrammarDoc
