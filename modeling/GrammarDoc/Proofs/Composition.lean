import GrammarDoc.Proofs.Addition
import GrammarDoc.Proofs.Likeness

/-!
# Extensions one after another

A grammar may be extended by some rules and the result by others, or by all of these at once. Both
ways inherited rules keep their places and new ones come after them, and each function is passed the
same original. So both come to the same rules in the same order, and the one extension has nothing
to report if the two have not.
-/

namespace GrammarDoc

open Build (Yields)

variable {Code : Type}

namespace Rules

variable {inherited : Definitions Code} {store : Store Code}
  {entries : List (Value Code × Value Code)}

/-! ### Names that are declared once more -/

/-- If nothing is reported while the names of inherited rules are declared, all of them are. -/
theorem collects_inherit {before after : Journal Code}
    (h : Yields .collect (inherit inherited) before () after) :
    ∃ problems, after.problems = before.problems ++ problems ∧
      (problems = [] → after = before.declaring "rule" inherited.keys) := by
  unfold inherit at h
  generalize inherited.keys = names at h ⊢
  induction names generalizing before with
  | nil =>
    obtain ⟨-, rfl⟩ := (Build.yields_pure _ _).1 h
    exact ⟨[], (List.append_nil _).symm, fun _ ↦ (after.declaring_nil "rule").symm⟩
  | cons name rest ih =>
    obtain ⟨between, first, more⟩ := (Build.yields_forM_cons _ _ _ _).1 h
    obtain ⟨_, declared⟩ := (Build.yields_discard _ _).1 first
    obtain ⟨-, -, declared⟩ := (Build.yields_declare _ _ _ _).1 declared
    obtain ⟨problems, eq, all⟩ := ih more
    cases found : before.names.find? name with
    | none =>
      rw [found] at declared
      obtain rfl := declared
      refine ⟨problems, eq, fun none ↦ ?_⟩
      rw [all none, Journal.declaring_append]
      rfl
    | some tag =>
      rw [found] at declared
      obtain ⟨-, rfl⟩ := (Build.yields_reportIn _ _ _).1 declared
      exact ⟨_ :: problems, by rw [eq]; exact List.append_assoc _ [_] _,
        fun none ↦ absurd none (List.cons_ne_nil _ _)⟩

private theorem entryProblem?_eq_none {names : Namespace Code} {entry : Value Code × Value Code} :
    entryProblem? inherited names entry = none ↔
      (∃ function, functionOf? entry = some function) ∧
        (entry.1 ∈ inherited.keys ∨ entry.1 ∉ names.keys) := by
  simp only [functionOf?_eq_some]
  unfold entryProblem?
  cases valid : entry.1.isValidName with
  | false => simp
  | true =>
    cases callable : entry.2.callable? with
    | none => simp
    | some f =>
      have new : names.find? entry.1 = none ↔ entry.1 ∉ names.keys := by
        rw [← Table.has_validName names valid, ← Table.isSome_find?, Option.not_isSome_iff_eq_none]
      rw [← new, ← Table.has_validName inherited valid]
      cases inherited.has entry.1 with
      | true => simp
      | false => simp

private theorem of_declaration?_eq_some {names : Namespace Code} {entry : Value Code × Value Code}
    {name : Value Code} (h : declaration? inherited names entry = some name) :
    entry.1 = name ∧ ∃ function, functionOf? entry = some function := by
  unfold declaration? at h
  split at h
  · cases h
  · next gives =>
    simp only [Bool.or_eq_true, not_or, Option.isNone_iff_eq_none] at gives
    exact ⟨Option.some.inj h, Option.ne_none_iff_exists'.1 gives.1.1⟩

private theorem mem_keys_declaring {journal : Journal Code}
    (sub : ∀ name ∈ inherited.keys, name ∈ journal.names.keys) {entry : Value Code × Value Code}
    (he : entry ∈ entries) {function : Value Code × Callable (Value Code) Code}
    (gives : functionOf? entry = some function) :
    entry.1 ∈
      (journal.declaring "rule" (declarations inherited journal.names entries)).names.keys := by
  obtain ⟨valid, -⟩ := functionOf?_eq_some.1 gives
  rw [Journal.keys_declaring, List.mem_append]
  by_cases old : entry.1 ∈ inherited.keys
  · exact .inl (sub _ old)
  · by_cases there : entry.1 ∈ journal.names.keys
    · exact .inl there
    · refine .inr (List.mem_filterMap.2 ⟨entry, he, ?_⟩)
      rw [← Table.has_validName _ valid, Bool.not_eq_true] at old there
      simp [declaration?, gives, old, there]

/-- The names that some rules refer to at present, each once. -/
def mentioned (store : Store Code) (definitions : Definitions Code) : List (Value Code) :=
  (definitions.flatMap fun entry ↦ entry.2.mentions.map store.present).foldl Rule.addName []

private theorem mentioned_eq_of_like {definitions definitions' : Definitions Code}
    (like : List.Forall₂ Table.Like definitions definitions') :
    mentioned store definitions = mentioned store definitions' := by
  have same : (definitions.flatMap fun entry ↦ entry.2.mentions.map store.present) =
      definitions'.flatMap fun entry ↦ entry.2.mentions.map store.present := by
    induction like with
    | nil => rfl
    | cons first _ ih => rw [List.flatMap_cons, List.flatMap_cons, ih, first.mentions]
  rw [mentioned, mentioned, same]

end Rules

/-! ### Two extensions and one -/

private theorem Grammar.Redeclares.unique {g : Grammar (Value Code)} {store : Store Code}
    {externals rules externals' rules' : Journal Code}
    (h : g.Redeclares store externals rules) (h' : g.Redeclares store externals' rules') :
    externals = externals' ∧ rules = rules' := by
  obtain ⟨-, rfl⟩ := h.atExternals.unique h'.atExternals
  exact ⟨rfl, (h.atRules.unique h'.atRules).2⟩

private theorem Grammar.Redeclares.keys_eq {g : Grammar (Value Code)} {store : Store Code}
    {externals rules : Journal Code} (h : g.Redeclares store externals rules)
    (none : rules.problems = []) :
    rules.names.keys = externals.names.keys ++ Table.keys g.rules.toList := by
  obtain ⟨problems, eq, all⟩ := Rules.collects_inherit h.atRules
  rw [none, eq_comm, List.append_eq_nil_iff] at eq
  rw [all eq.2, Journal.keys_declaring]
  rfl

namespace Setting

variable {setting₁ setting₂ setting₃ : Setting Code} {base g h k : Grammar (Value Code)}
  {store : Store Code} {entries₁ entries₂ : List (Value Code × Value Code)}
  {problems₁ problems₂ problems₃ : List (Problem Code)}

/-- What it takes for an extension by rules to report nothing, after the names that the base tells
have been declared: each entry gives a function and has a name of its own, no function raises a
problem, there is a rule, and all names that the rules refer to are declared. -/
structure Fine (setting : Setting Code) (base g : Grammar (Value Code)) (store : Store Code)
    (entries : List (Value Code × Value Code)) (first : Journal Code) : Prop where
  inherits : first.problems = []
  gives : ∀ entry ∈ entries, (∃ function, Rules.functionOf? entry = some function) ∧
    (entry.1 ∈ Table.keys base.rules.toList ∨ entry.1 ∉ first.names.keys)
  answers : ∀ function ∈ Rules.functionsOf entries,
    Rules.answerProblem? setting base.rules.toList store function = none
  nonempty : g.rules.toList ≠ []
  declared : ∀ name ∈ Rules.mentioned store g.rules.toList, (first.declaring "rule"
    (Rules.declarations base.rules.toList first.names entries)).names.has name = true

/-- An extension by rules reports nothing if and only if it is fine. -/
theorem Enlarges.problems_eq_nil_iff {setting : Setting Code} {base g : Grammar (Value Code)}
    {store : Store Code} {entries : List (Value Code × Value Code)}
    {problems : List (Problem Code)} (h : setting.Enlarges base store entries g problems)
    {externals first : Journal Code} (redeclares : base.Redeclares store externals first) :
    problems = [] ↔ setting.Fine base g store entries first := by
  obtain ⟨_, _, v, bodies, redeclares', present, rfl⟩ := h.problems
  obtain ⟨-, rfl⟩ := redeclares.unique redeclares'
  have empty : Rules.emptiness v g.rules.toList = [] ↔ g.rules.toList ≠ [] := by
    unfold Rules.emptiness
    cases g.rules.toList with
    | nil | cons => simp
  have missing (names : Namespace Code) : Rules.missing names bodies = [] ↔
      ∀ name ∈ Rules.mentioned store g.rules.toList, names.has name = true := by
    rw [Rules.missing, Rules.mentionsOfAll_of_present present, List.filter_eq_nil_iff]
    exact forall₂_congr fun name _ ↦ by simp
  simp only [Rules.problemsWith, List.append_eq_nil_iff, List.map_eq_nil_iff, empty, missing,
    List.filterMap_eq_nil_iff, Rules.entryProblem?_eq_none]
  constructor
  · rintro ⟨inherits, ⟨⟨gives, answers⟩, nonempty⟩, declared⟩
    exact ⟨inherits, gives, answers, nonempty, declared⟩
  · rintro ⟨inherits, gives, answers, nonempty, declared⟩
    exact ⟨inherits, ⟨⟨gives, answers⟩, nonempty⟩, declared⟩

/-! ### Rules -/

/-- The functions of the second extension are passed the rules of the first grammar. -/
theorem Enlarges.find?_eq (first : setting₁.Enlarges base store entries₁ g problems₁)
    (distinct : Rules.Distinct (entries₁ ++ entries₂))
    {function : Value Code × Callable (Value Code) Code}
    (hf : function ∈ Rules.functionsOf entries₂) :
    Table.find? g.rules.toList function.1 = Table.find? base.rules.toList function.1 := by
  obtain ⟨entry, he, gives⟩ := List.mem_filterMap.1 hf
  obtain ⟨valid, f, -, rfl⟩ := Rules.functionOf?_eq_some.1 gives
  rw [first.rules]
  exact Rules.find?_merged_of_not_mem
    (Rules.definedBy_names _ _ _ (List.pairwise_append.1 distinct).1).1 valid
    (Rules.not_mem_definedBy distinct he)

private theorem Enlarges.mem_keys (first : setting₁.Enlarges base store entries₁ g problems₁)
    (distinct : Rules.Distinct entries₁) (name : Value Code) :
    name ∈ Table.keys g.rules.toList ↔ name ∈ Table.keys base.rules.toList ∨
      name ∈ (Rules.definedBy setting₁ base.rules.toList store entries₁).map Prod.fst := by
  rw [first.rules]
  exact Rules.mem_keys_merged (Rules.definedBy_names _ _ _ distinct).1 name

/-- All names that are declared in two extensions are declared in one, if all names that are
inherited are. -/
theorem Enlarges.keys_subset (first : setting₁.Enlarges base store entries₁ g problems₁)
    (distinct : Rules.Distinct entries₁) {externals started started₂ : Journal Code}
    (keys : started.names.keys = externals.names.keys ++ Table.keys base.rules.toList)
    (keys₂ : started₂.names.keys = externals.names.keys ++ Table.keys g.rules.toList) :
    ∀ key ∈ (started₂.declaring "rule"
        (Rules.declarations g.rules.toList started₂.names entries₂)).names.keys,
      key ∈ (started.declaring "rule" (Rules.declarations base.rules.toList started.names
        (entries₁ ++ entries₂))).names.keys := by
  intro key hk
  have sub : ∀ name ∈ Table.keys base.rules.toList, name ∈ started.names.keys := fun name hn ↦
    keys ▸ List.mem_append_right _ hn
  rw [Journal.keys_declaring, keys₂, List.mem_append, List.mem_append] at hk
  rcases hk with (external | rule) | new
  · rw [Journal.keys_declaring, keys]
    exact List.mem_append_left _ (List.mem_append_left _ external)
  · rcases (first.mem_keys distinct key).1 rule with old | defined
    · rw [Journal.keys_declaring]
      exact List.mem_append_left _ (sub key old)
    · obtain ⟨entry, he, rfl, _, gives⟩ := Rules.exists_functionOf?_of_mem_definedBy defined
      exact Rules.mem_keys_declaring sub (List.mem_append_left _ he) gives
  · obtain ⟨entry, he, declares⟩ := List.mem_filterMap.1 new
    obtain ⟨rfl, _, gives⟩ := Rules.of_declaration?_eq_some declares
    exact Rules.mem_keys_declaring sub (List.mem_append_right _ he) gives

section

variable (first : setting₁.Enlarges base store entries₁ g problems₁)
  (second : setting₂.Enlarges g store entries₂ h problems₂)
  (once : setting₃.Enlarges base store (entries₁ ++ entries₂) k problems₃)
  (distinct : Rules.Distinct (entries₁ ++ entries₂))
  (alike₁ : Rules.AnswerAlike setting₁ setting₃ store base.rules.toList entries₁)
  (alike₂ : Rules.AnswerAlike setting₂ setting₃ store base.rules.toList entries₂)

include first second once distinct alike₁ alike₂

/-- Two extensions come to the same rules in the same order as one. -/
theorem like_rules (kept : base.Kept store) :
    List.Forall₂ Table.Like h.rules.toList k.rules.toList ∧
      Table.Apart (Table.keys h.rules.toList) := by
  have genuine : Value.GenuineEntries false [] base.rules.toList := by
    have plain := kept.plain .rules
    change Value.GenuineMapping false [] base.rules at plain
    generalize base.rules = rules at plain ⊢
    obtain ⟨place, entries, again⟩ := rules
    exact plain.2
  have same : List.Forall₂ Table.Like base.rules.toList base.rules.toList :=
    List.forall₂_same.2 fun entry he ↦ ⟨rfl, Value.compare_self _ (genuine.of_mem he).2, rfl⟩
  have apart := List.pairwise_append.1 distinct
  -- No name is given in both, so the functions given second are passed the rules of the base.
  have passed : Rules.definedBy setting₂ g.rules.toList store entries₂ =
      Rules.definedBy setting₂ base.rules.toList store entries₂ :=
    List.filterMap_congr fun function hf ↦ by
      rw [Rules.definition?, Rules.definition?,
        Rules.answer_congr (first.find?_eq distinct hf)]
  have rules : h.rules.toList = Rules.merged (Rules.merged base.rules.toList
      (Rules.definedBy setting₁ base.rules.toList store entries₁))
        (Rules.definedBy setting₂ base.rules.toList store entries₂) := by
    rw [second.rules, passed, first.rules]
  rw [rules, once.rules, Rules.definedBy_append, Rules.merged_append]
  exact ⟨Rules.like_merged (Rules.like_merged same (Rules.like_definedBy alike₁))
      (Rules.like_definedBy alike₂),
    Rules.apart_merged (Rules.apart_merged (Table.apart_of_genuine genuine)
      (Rules.definedBy_names _ _ _ apart.1).1) (Rules.definedBy_names _ _ _ apart.2.1).1⟩

/-- If two extensions report nothing, one reports nothing either. -/
theorem problems_eq_nil (kept : base.Kept store) (none₁ : problems₁ = []) (none₂ : problems₂ = []) :
    problems₃ = [] := by
  obtain ⟨like, -⟩ := like_rules first second once distinct alike₁ alike₂ kept
  obtain ⟨externals, started, _, _, redeclares, -⟩ := first.problems
  obtain ⟨externals₂, started₂, _, _, redeclares₂, -⟩ := second.problems
  -- The externals are inherited as they are, so that all builds declare the same names for them.
  obtain rfl : externals = externals₂ := by
    have atExternals := redeclares₂.atExternals
    rw [first.externals, first.name] at atExternals
    exact (redeclares.atExternals.unique atExternals).2
  have fine₁ := (first.problems_eq_nil_iff redeclares).1 none₁
  have fine₂ := (second.problems_eq_nil_iff redeclares₂).1 none₂
  have keys := redeclares.keys_eq fine₁.inherits
  have keys₂ := redeclares₂.keys_eq fine₂.inherits
  have mem := first.mem_keys (List.pairwise_append.1 distinct).1
  refine (once.problems_eq_nil_iff redeclares).2
    ⟨fine₁.inherits, fun entry he ↦ ?_, fun function hf ↦ ?_, fun none ↦ ?_, fun name hn ↦ ?_⟩
  · rcases List.mem_append.1 he with he | he
    · exact fine₁.gives entry he
    · obtain ⟨gives, old | new⟩ := fine₂.gives entry he
      · exact ⟨gives, .inl (((mem entry.1).1 old).resolve_right
          (Rules.not_mem_definedBy distinct he))⟩
      · refine ⟨gives, .inr fun found ↦ new ?_⟩
        rw [keys, List.mem_append] at found
        rw [keys₂, List.mem_append]
        exact found.imp_right fun old ↦ (mem entry.1).2 (.inl old)
  · rw [Rules.functionsOf, List.filterMap_append, List.mem_append] at hf
    rcases hf with hf | hf
    · exact Rules.answerProblem?_eq_none (alike₁ function hf) (fine₁.answers function hf)
    · have none := fine₂.answers function hf
      rw [Rules.answerProblem?, Rules.answer_congr (first.find?_eq distinct hf)] at none
      exact Rules.answerProblem?_eq_none (alike₂ function hf) none
  · rw [none] at like
    exact fine₂.nonempty (List.eq_nil_of_length_eq_zero like.length_eq)
  · rw [← Rules.mentioned_eq_of_like like] at hn
    exact Table.has_of_subset (first.keys_subset (List.pairwise_append.1 distinct).1 keys keys₂)
      (fine₂.declared name hn)

/-- Two extensions come to the same as one in each section, if a section that is copied has nothing
in it that equals itself only. -/
theorem compare_fields (kept : base.Kept store) {part : Section}
    (copyable : part ∈ Section.afterRules → (base.fields part).Genuine true []) :
    (h.fields part).compare (k.fields part) = some true := by
  by_cases copied : part ∈ Section.afterRules
  · have genuine := copyable copied
    rw [second.copies part copied, first.copies part copied, once.copies part copied]
    exact (Value.compare_copies [_, _] [_] _ _ genuine genuine).trans
      (Value.compare_self _ genuine)
  · cases part with
    | name =>
      change h.name.compare k.name = some true
      rw [second.name, first.name, once.name]
      exact Value.compare_self _ (kept.plain .name)
    | externals =>
      have plain := kept.plain .externals
      change Value.GenuineList false [] base.externals at plain
      have same : base.externals.again = false ∧
          Value.GenuineItems false [] base.externals.toList := by
        generalize base.externals = items at plain ⊢
        obtain ⟨place, items, again⟩ := items
        exact plain
      change (Value.list h.externals).compare (.list k.externals) = some true
      rw [Value.compare, Value.compareLists_eq_true second.again.2.2 once.again.2.2,
        second.externals, first.externals, once.externals, ← Value.compareItems_eq_true]
      exact Value.compareItems_self _ same.2
    | rules =>
      obtain ⟨like, apart⟩ := like_rules first second once distinct alike₁ alike₂ kept
      change (Value.mapping h.rules).compare (.mapping k.rules) = some true
      rw [Value.compare]
      exact Table.compareMappings_of_like second.again.2.1 once.again.2.1 like apart
    | extras | inline | conflicts | word | supertypes | precedences =>
      exact absurd (by decide) copied

end

variable {description₁ description₂ description₃ : Value Code} {after₁ after₂ after₃ : Journal Code}

/-- Extensions compose. To extend a grammar by some rules and the result by others is to extend it
once by all of them: the rules have the same names in the same order, and every section is found
equal, provided that nothing in a section that is copied equals itself only. If the two builds
report nothing, the one reports nothing either. None of the builds changes the store, so they may be
made in any order. The names of the rules have to differ, the collections in the two grammars that
are extended have to be as they were made, and each function has to come to the same in both builds
that call it if it is passed the same original. -/
theorem composed_of_addsRules
    (first : setting₁.AddsRules base description₁ store entries₁ g after₁)
    (second : setting₂.AddsRules g description₂ store entries₂ h after₂)
    (once : setting₃.AddsRules base description₃ store (entries₁ ++ entries₂) k after₃)
    (distinct : Rules.Distinct (entries₁ ++ entries₂)) (kept : base.Kept store)
    (kept' : g.Kept store)
    (alike₁ : Rules.AnswerAlike setting₁ setting₃ store base.rules.toList entries₁)
    (alike₂ : Rules.AnswerAlike setting₂ setting₃ store base.rules.toList entries₂) :
    Table.keys h.rules.toList = Table.keys k.rules.toList ∧
      (∀ part, (part ∈ Section.afterRules → (base.fields part).Genuine true []) →
        (h.fields part).compare (k.fields part) = some true) ∧
      ((∀ part ∈ Section.afterRules, (base.fields part).Genuine true []) →
        Value.compareGrammars h k = some true) ∧
      (after₁.problems = [] → after₂.problems = [] → after₃.problems = []) ∧
      after₁.store = store ∧ after₂.store = store ∧ after₃.store = store := by
  have apart := List.pairwise_append.1 distinct
  obtain ⟨unchanged₁, first⟩ := first.enlarges kept apart.1
  obtain ⟨unchanged₂, second⟩ := second.enlarges kept' apart.2.1
  obtain ⟨unchanged₃, once⟩ := once.enlarges kept distinct
  have fields (part : Section)
      (copyable : part ∈ Section.afterRules → (base.fields part).Genuine true []) :=
    compare_fields first second once distinct alike₁ alike₂ kept copyable
  refine ⟨Table.keys_eq_of_like (like_rules first second once distinct alike₁ alike₂ kept).1,
    fields, fun copyable ↦ ?_, problems_eq_nil first second once distinct alike₁ alike₂ kept,
    unchanged₁, unchanged₂, unchanged₃⟩
  have equal (part : Section) := fields part (copyable part)
  have lists {items others : Items (Value Code)}
      (same : (Value.list items).compare (.list others) = some true) :
      Value.compareLists items others = some true := by rwa [Value.compare] at same
  have mappings := equal .rules
  change (Value.mapping h.rules).compare (.mapping k.rules) = some true at mappings
  rw [Value.compare] at mappings
  exact (Value.compareGrammars_eq_true second.again.1 once.again.1).2 ⟨equal .name, mappings,
    lists (equal .extras), lists (equal .externals), lists (equal .inline),
    lists (equal .conflicts), equal .word, lists (equal .supertypes), lists (equal .precedences)⟩

/-- A rule is overridden by a repetition of the original, and a new one refers to it; then another
rule is overridden, and a new one refers to both new ones. -/
theorem composed_of_addsRules_overrides :
    let run : Interpreter Unit := fun _ _ bindings ↦ match bindings with
      | [_, (_, .rule original)] => pure (.rule (.wrap .repeated original))
      | _ => pure .missing
    let list (title : String) (items : List (Value Unit)) : Items (Value Unit) :=
      ⟨(Place.step 0).part title, items, false⟩
    let symbol (name : String) : Value Unit := .symbol (.string name)
    let base : Grammar (Value Unit) := ⟨.step 0, .string "g", ⟨(Place.step 0).part "rules",
      [(.string "a", .rule .blank), (.string "b", symbol "a")], false⟩,
      list "extras" [.rule (.string (.string " "))], list "externals" [symbol "indent"],
      list "inline" [.string "b"], list "conflicts" [.list (list "group" [.string "a"])],
      .string "a", list "supertypes" [], list "precedences" [], false⟩
    let setting (index : Nat) (base : Grammar (Value Unit)) : Setting Unit :=
      { run, place := .step index, base := .grammar base }
    let repeats : Value Unit :=
      .callable ⟨.step 1, none, { positional := ["grammar", "original"] }, .code ()⟩
    let refers (name : String) : Value Unit := .callable (.constant (.step 1) name (symbol name))
    let entries : List (Value Unit × Value Unit) :=
      [(.string "c", refers "indent"), (.string "a", repeats)]
    let more : List (Value Unit × Value Unit) :=
      [(.string "d", refers "c"), (.string "b", repeats)]
    let giving (index : Nat) (rules : List (Value Unit × Value Unit)) : Value Unit :=
      .mapping ⟨.step index, [(.string "rules",
        .mapping ⟨(Place.step index).part "rules", rules, false⟩)], false⟩
    ∃ (g h k : Grammar (Value Unit)) (after₁ after₂ after₃ : Journal Unit),
      (setting 2 base).collect (giving 2 entries) {} = (.ok g, after₁) ∧
      (setting 3 g).collect (giving 3 more) {} = (.ok h, after₂) ∧
      (setting 4 base).collect (giving 4 (entries ++ more)) {} = (.ok k, after₃) ∧
      (Table.keys h.rules.toList).map Value.shown = ["a", "b", "c", "d"] ∧
      Table.keys h.rules.toList = Table.keys k.rules.toList ∧
      Value.compareGrammars h k = some true ∧ after₃.problems = [] := by
  intro run list symbol base setting repeats refers entries more giving
  have built : ((setting 2 base).collect (giving 2 entries) {}).1.toOption.any (fun g ↦
      decide (∀ part ∈ Section.all, (g.fields part).Genuine false []) &&
      ((setting 2 base).collect (giving 2 entries) {}).2.problems.isEmpty &&
      ((setting 3 g).collect (giving 3 more) {}).2.problems.isEmpty &&
      ((setting 3 g).collect (giving 3 more) {}).1.toOption.any fun h ↦
        decide ((Table.keys h.rules.toList).map Value.shown = ["a", "b", "c", "d"])) = true := by
    decide +kernel
  have built' : ((setting 4 base).collect (giving 4 (entries ++ more)) {}).1.toOption.any
      (fun _ ↦ true) = true := by
    decide +kernel
  obtain ⟨g, collected₁, built⟩ := Build.exists_eq_ok_of_any built
  simp only [Bool.and_eq_true, decide_eq_true_eq, List.isEmpty_iff] at built
  obtain ⟨⟨⟨plain, none₁⟩, none₂⟩, built⟩ := built
  obtain ⟨h, collected₂, keys⟩ := Build.exists_eq_ok_of_any built
  obtain ⟨k, collected₃, -⟩ := Build.exists_eq_ok_of_any built'
  have still (index : Nat) (base : Grammar (Value Unit)) (description : Value Unit) :
      (setting index base).GivesStill description {} := fun f _ place offered store ↦
    store_start_call (fun _ _ bindings _ ↦ by simp only [setting, run]; split <;> rfl) place f
      offered store
  have gives (index : Nat) (rules : List (Value Unit × Value Unit)) :
      Description.GivesRules (giving index rules) {} rules := ⟨_, rfl, rfl⟩
  have spared (places : List Place) : ({} : Store Unit).Spares places := fun _ _ ↦ ⟨rfl, rfl⟩
  have genuine : ∀ part ∈ Section.all, (base.fields part).Genuine false [] := by decide +kernel
  have copyable : ∀ part ∈ Section.afterRules, (base.fields part).Genuine true [] := by
    decide +kernel
  have distinct : Rules.Distinct (entries ++ more) := by
    simp [Rules.Distinct, entries, more]
  have wraps (index : Nat) (base' : Grammar (Value Unit)) (name : Value Unit)
      (original : Rule (Value Unit))
      (found : Table.find? base.rules.toList name = some (.rule original)) :
      Rules.answer (setting index base') base.rules.toList {}
        (name, ⟨.step 1, none, { positional := ["grammar", "original"] }, .code ()⟩) =
          .ok (.wrap .repeated original) := by
    rw [Rules.answer, found]
    rfl
  have alike (index : Nat) (base' : Grammar (Value Unit))
      {rules : List (Value Unit × Value Unit)} (sub : ∀ entry ∈ rules, entry ∈ entries ++ more) :
      Rules.AnswerAlike (setting index base') (setting 4 base) {} base.rules.toList rules := by
    intro function hf
    obtain ⟨entry, he, gives⟩ := List.mem_filterMap.1 hf
    obtain ⟨-, f, callable, rfl⟩ := Rules.functionOf?_eq_some.1 gives
    have he := sub entry he
    simp only [entries, more, List.cons_append, List.nil_append, List.mem_cons, List.not_mem_nil,
      or_false] at he
    -- Two of the functions return constants. The other two wrap the rule of the base that they are
    -- passed.
    rcases he with rfl | rfl | rfl | rfl
    · cases callable
      exact Rules.alikeAnswers_of_eq rfl rfl (by decide +kernel)
    · cases callable
      exact Rules.alikeAnswers_of_eq (wraps _ _ _ .blank (by simp [base]))
        (wraps _ _ _ _ (by simp [base])) (by decide +kernel)
    · cases callable
      exact Rules.alikeAnswers_of_eq rfl rfl (by decide +kernel)
    · cases callable
      exact Rules.alikeAnswers_of_eq
        (wraps _ _ _ (.symbol (.string "a")) (by simp [base, symbol, Value.symbol]))
        (wraps _ _ _ _ (by simp [base, symbol, Value.symbol])) (by decide +kernel)
  obtain ⟨same, -, equal, fine, -⟩ := composed_of_addsRules
    ⟨rfl, gives 2 entries, still 2 base _, collected₁⟩ ⟨rfl, gives 3 more, still 3 g _, collected₂⟩
    ⟨rfl, gives 4 (entries ++ more), still 4 base _, collected₃⟩ distinct
    ⟨fun part ↦ genuine part (mem_all part), spared _⟩
    ⟨fun part ↦ plain part (mem_all part), spared _⟩
    (alike 2 base fun _ ↦ List.mem_append_left _) (alike 3 g fun _ ↦ List.mem_append_right _)
  exact ⟨g, h, k, _, _, _, collected₁, collected₂, collected₃, of_decide_eq_true keys, same,
    equal copyable, fine none₁ none₂⟩

/-- A callable object in the extras of a grammar equals itself only. It is copied once in one
extension and twice in two, so that these come to other grammars than one, although no build reports
anything. -/
theorem exists_not_composed :
    let list (title : String) (items : List (Value Empty)) : Items (Value Empty) :=
      ⟨(Place.step 0).part title, items, false⟩
    let object : Value Empty := .callable ⟨.step 0, none, {}, .nothing⟩
    let base : Grammar (Value Empty) := ⟨.step 0, .string "g", ⟨(Place.step 0).part "rules",
      [(.string "a", .rule (.string (.string "x")))], false⟩,
      list "extras" [.rule (.field object (.string (.string "x")))], list "externals" [],
      list "inline" [], list "conflicts" [], .missing, list "supertypes" [],
      list "precedences" [], false⟩
    let setting (index : Nat) (base : Grammar (Value Empty)) : Setting Empty :=
      { run := fun _ code _ ↦ code.elim, place := .step index, base := .grammar base }
    let entry (name content : String) : Value Empty × Value Empty :=
      (.string name, .callable (.constant (.step 1) name (.string content)))
    let giving (index : Nat) (rules : List (Value Empty × Value Empty)) : Value Empty :=
      .mapping ⟨.step index, [(.string "rules",
        .mapping ⟨(Place.step index).part "rules", rules, false⟩)], false⟩
    ∃ (g h k : Grammar (Value Empty)) (after₁ after₂ after₃ : Journal Empty),
      (setting 2 base).collect (giving 2 [entry "c" "y"]) {} = (.ok g, after₁) ∧
      (setting 3 g).collect (giving 3 [entry "d" "z"]) {} = (.ok h, after₂) ∧
      (setting 4 base).collect (giving 4 [entry "c" "y", entry "d" "z"]) {} = (.ok k, after₃) ∧
      (after₁.problems = [] ∧ after₂.problems = [] ∧ after₃.problems = []) ∧
      Value.compareGrammars h k = some false := by
  intro list object base setting entry giving
  have built : ((setting 2 base).collect (giving 2 [entry "c" "y"]) {}).1.toOption.any (fun g ↦
      let second := (setting 3 g).collect (giving 3 [entry "d" "z"]) {}
      let once := (setting 4 base).collect (giving 4 [entry "c" "y", entry "d" "z"]) {}
      second.1.toOption.any fun h ↦ once.1.toOption.any fun k ↦
        ((setting 2 base).collect (giving 2 [entry "c" "y"]) {}).2.problems.isEmpty &&
          second.2.problems.isEmpty && once.2.problems.isEmpty &&
          Value.compareGrammars h k == some false) = true := by
    decide +kernel
  obtain ⟨g, collected₁, built⟩ := Build.exists_eq_ok_of_any built
  obtain ⟨h, collected₂, built⟩ := Build.exists_eq_ok_of_any built
  obtain ⟨k, collected₃, built⟩ := Build.exists_eq_ok_of_any built
  simp only [Bool.and_eq_true, List.isEmpty_iff, beq_iff_eq] at built
  obtain ⟨⟨⟨none₁, none₂⟩, none₃⟩, unequal⟩ := built
  exact ⟨g, h, k, _, _, _, collected₁, collected₂, collected₃, ⟨none₁, none₂, none₃⟩, unequal⟩

end Setting

end GrammarDoc
