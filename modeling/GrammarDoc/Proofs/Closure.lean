import GrammarDoc.Proofs.BestEffort

/-!
# Closure under references

A build that reports nothing makes a grammar whose rules refer to declared names only, and so do
the sections that are given. Sections that are inherited are copied as they are: they keep all names
that the base declared as rules, but not those that it only declared among its externals.
-/

namespace GrammarDoc

open Build (Yields MadeOf)

variable {Code : Type} {before after : Journal Code}

/-! ### Names that values refer to -/

mutual

private theorem Rule.mentions_replaced (new : Replacement Code) (above : List Place) :
    ∀ r : Rule (Value Code),
      (Value.replacedRule new above r).mentions = r.mentions.map (Value.replaced new above)
  | .bare _ | .string _ | .pattern _ | .blank | .symbol _ => by
    simp [Value.replacedRule, Rule.mentions]
  | .group _ members => by
    rw [Value.replacedRule, Rule.mentions, Rule.mentions, Rule.mentionsOfAll_replaced new above]
  | .wrap _ content | .prec _ _ content | .field _ content | .aliased content _ _ => by
    rw [Value.replacedRule, Rule.mentions, Rule.mentions, Rule.mentions_replaced new above content]

private theorem Rule.mentionsOfAll_replaced (new : Replacement Code) (above : List Place) :
    ∀ rules : List (Rule (Value Code)),
      Rule.mentionsOfAll (Value.replacedRules new above rules) =
        (Rule.mentionsOfAll rules).map (Value.replaced new above)
  | [] => by simp [Value.replacedRules, Rule.mentionsOfAll]
  | r :: rest => by
    rw [Value.replacedRules, Rule.mentionsOfAll, Rule.mentionsOfAll, List.map_append,
      Rule.mentions_replaced new above r, Rule.mentionsOfAll_replaced new above rest]

end

/-- The names that a value refers to are looked at when the value is. -/
theorem Store.mentions_present (store : Store Code) (v : Value Code) :
    (store.present v).mentions = v.mentions.map store.present := by
  obtain same | ⟨new, eq, -⟩ := store.present_cases
  · simp [same]
  · rw [eq]
    cases v with
    | rule r => simp [Value.replaced, Value.mentions, Rule.mentions_replaced]
    | missing | bool | int | double | string | list | tuple | mapping | pattern | callable
    | builder | grammar | references => simp [Value.replaced, Value.mentions]

/-! ### What is declared -/

/-- A build that ends at the first problem declares names one after another. -/
theorem Build.eq_declaring_of_yields_forM {names : List (Value Code)} {tag : String}
    {within : Option String} {u : Unit}
    (h : Yields .failFast (names.forM fun name ↦ discard (declare name tag within)) before u
      after) :
    after = before.declaring tag names := by
  induction names generalizing before with
  | nil =>
    rw [Journal.declaring_nil]
    exact ((yields_pure _ _).1 h).2
  | cons name rest ih =>
    obtain ⟨between, first, more⟩ := (yields_forM_cons _ _ _ _).1 h
    obtain ⟨_, declared⟩ := (yields_discard _ _).1 first
    obtain ⟨-, -, -, rfl⟩ := (yields_declare_failFast _ _ _ _).1 declared
    rw [ih more, Journal.declaring_append, List.singleton_append]

namespace Setting

variable {setting : Setting Code} {description : Value Code} {entries : Table Code (Value Code)}
  {start : Store Code}

/-- The externals declare names as externals: those of the symbols that are inherited, or proper
names. -/
theorem declares_of_yields_externals {items : Items (Value Code)}
    (h : Yields .failFast (setting.externals entries) before items after)
    (found : setting.Finds description start entries before.store) :
    ∃ names : List (Value Code),
      (after.names = before.names ++ names.map fun name ↦ (name, "externals")) ∧
      (Description.get entries .externals = .missing ∧
          names = Section.externals.namesIn items.toList ∨
        Description.get entries .externals ≠ .missing ∧
          ∀ name ∈ names, name.isValidName = true) := by
  rcases (externals_cases h found).2 with
    ⟨missing, -, inherits⟩ | ⟨given, w, between, rules, same, checked, -⟩
  · exact ⟨_, congrArg Journal.names (Build.eq_declaring_of_yields_forM inherits),
      .inl ⟨missing, rfl⟩⟩
  · obtain ⟨gives, -, -, rfl⟩ := (Externals.yields_validate w rules).1 checked
    exact ⟨Externals.names w, by rw [← same]; rfl, .inr ⟨given, Externals.valid_names gives⟩⟩

/-- The rules declare names as rules, among them those of all rules of the base, and what they
declare is the name of a rule in the end. -/
theorem declares_of_yields_rules {rules : Entries (Value Code)}
    (h : Yields .failFast (setting.rules entries) before rules after)
    (found : setting.Finds description start entries before.store) :
    ∃ names : List (Value Code),
      (after.names = before.names ++ names.map fun name ↦ (name, "rule")) ∧
      (∀ name ∈ names, name ∈ Table.keys rules.toList) ∧
      ∀ g, setting.base = .grammar g → g.Untouched before.store →
        ∀ name ∈ g.namesOf .rules, name ∈ names := by
  obtain ⟨-, inherited, inherits, checked⟩ := rules_cases h found
  obtain ⟨given, -, checked⟩ := (Rules.yields_validate _ _ _ _).1 checked
  obtain ⟨declared, functions, returned, store, defined, declares, ⟨gives, -, -⟩,
    ⟨called, results⟩, ⟨eq, -⟩, resolved⟩ := (Rules.yields_fromEntries _ _ _ _ _).1 checked
  obtain rfl := Build.eq_declaring_of_yields_forM declares
  obtain ⟨-, rfl⟩ := (Rules.yields_resolve _ _).1 resolved
  have names : defined.map Prod.fst = Table.keys given :=
    (Rules.names_of_resultGives results).trans
      ((Rules.keys_mapM_returned called).trans (Rules.names_of_entryGives gives))
  have valid : ∀ entry ∈ defined, entry.1.isValidName = true := by
    intro entry he
    have key : entry.1 ∈ functions.map Prod.fst := by
      rw [Rules.names_of_entryGives gives, ← names]
      exact List.mem_map_of_mem he
    obtain ⟨function, hf, name⟩ := List.mem_map.1 key
    obtain ⟨entry', proper, -, same⟩ := exists_of_forall₂ gives hf
    rw [← name, same]
    exact proper
  refine ⟨Table.keys inherited ++ given.filterMap (Rules.entryName? inherited), ?_,
    fun name hn ↦ ?_, fun g base untouched name hn ↦ ?_⟩
  · simp [Journal.declaring]
  · rw [eq, Rules.mem_keys_merged valid, names]
    refine (List.mem_append.1 hn).imp_right fun new ↦ ?_
    obtain ⟨entry, he, named⟩ := List.mem_filterMap.1 new
    unfold Rules.entryName? at named
    split at named
    · cases named
    · cases named
      exact List.mem_map_of_mem he
  · rw [eq_of_inherited_rules base untouched inherits]
    exact List.mem_append_left _ hn

/-- What rules refer to is declared, if it is a string or if all that is declared has the form of a
name. -/
theorem mentions_of_yields_rules {rules : Entries (Value Code)}
    (h : Yields .failFast (setting.rules entries) before rules after)
    (found : setting.Finds description start entries before.store) :
    ∀ entry ∈ rules.toList, ∀ name ∈ entry.2.mentions,
      (∃ s, name = .string s) ∨ (∀ key ∈ after.names.keys, key.isValidName = true) →
        name ∈ after.names.keys := by
  intro entry he name hn form
  obtain ⟨-, inherited, -, checked⟩ := rules_cases h found
  obtain ⟨given, -, checked⟩ := (Rules.yields_validate _ _ _ _).1 checked
  obtain ⟨declared, functions, returned, store, defined, -, -, -, -, resolved⟩ :=
    (Rules.yields_fromEntries _ _ _ _ _).1 checked
  obtain ⟨⟨bodies, present, found⟩, same⟩ := (Rules.yields_resolve _ _).1 resolved
  -- The rule is looked up as it is when all functions have been called.
  have body : store.present entry.2 ∈ bodies.map Value.rule :=
    present ▸ List.mem_map_of_mem he
  have mentioned : store.present name ∈ Rule.mentionsOfAll bodies :=
    Rule.mem_mentionsOfAll.2 ⟨_, body, by
      rw [store.mentions_present]
      exact List.mem_map_of_mem hn⟩
  obtain ⟨other, kept, equal⟩ := Rule.exists_mem_foldl_addName mentioned
  have has : after.names.has other = true := same ▸ (found other kept).2
  rcases form with ⟨s, rfl⟩ | valid
  · rw [(store.present_eq_string _ s).2 rfl, Value.string_same] at equal
    obtain rfl : other = .string s := equal.elim Eq.symm id
    exact (Table.has_string _ s).1 has
  · rw [Table.has_eq_isIn, Value.isIn_iff_mem valid] at has
    obtain ⟨s, rfl⟩ := Value.eq_string_of_isValidName (valid other has)
    rw [Value.same_string, or_self, store.present_eq_string] at equal
    exact equal ▸ has

/-- The names of a section that is given are declared. -/
theorem has_or_inherited {part : Section} {items : Items (Value Code)}
    {validate : Value Code → Build Code (List (Value Code))}
    (h : Yields .failFast (setting.part entries part validate) before items after)
    (found : setting.Finds description start entries before.store)
    (made : ∀ v, MadeOf Move.IsReport (validate v))
    (checks : ∀ {v between results}, Yields .failFast (validate v) between results after →
      ∀ name ∈ part.namesIn results, after.names.has name = true)
    {name : Value Code} (hn : name ∈ part.namesIn items.toList) :
    after.names.has name = true ∨
      setting.hasBase = true ∧ Description.get entries part = .missing := by
  rcases (part_cases made h found).2.2 with ⟨base, missing, -⟩ | ⟨-, w, _, -, checked⟩
  · exact .inr ⟨base, missing⟩
  · exact .inl (checks checked name hn)

private theorem mem_of_inherited {part : Section} {items list : Items (Value Code)}
    {validate : Value Code → Build Code (List (Value Code))} {g : Grammar (Value Code)}
    (h : Yields .failFast (setting.part entries part validate) before items after)
    (found : setting.Finds description start entries before.store)
    (made : ∀ v, MadeOf Move.IsReport (validate v)) (base : setting.base = .grammar g)
    (has : g.list? part = some list) (untouched : g.Untouched before.store)
    (missing : setting.hasBase = true ∧ Description.get entries part = .missing) {s : String}
    (hs : .string s ∈ part.namesIn items.toList) : .string s ∈ part.namesIn list.toList := by
  rcases (part_cases made h found).2.2 with ⟨-, -, v, attributed, copied⟩ | ⟨given, -⟩
  · rw [base, Grammar.attribute?_of_list? has] at attributed
    cases attributed
    rw [before.store.toList_copy copied (untouched.lists _ list has),
      part.namesIn_copy _ _ _ (untouched.groups _ list has)] at hs
    obtain ⟨name, hn, eq⟩ := List.mem_map.1 hs
    rw [before.store.copy_eq_string] at eq
    exact eq ▸ hn
  · exact absurd missing given

private theorem has_of_yields_inline {items : Items (Value Code)}
    (h : Yields .failFast (setting.part entries .inline Names.validateInline) before items after)
    (found : setting.Finds description start entries before.store) {name : Value Code}
    (hn : name ∈ Section.inline.namesIn items.toList) :
    after.names.has name = true ∨
      setting.hasBase = true ∧ Description.get entries .inline = .missing := by
  refine has_or_inherited h found (fun v ↦ Names.madeOf_validateInline v fun _ ↦ ⟨_, rfl⟩)
    (fun {w} {between} {results} checked name hn ↦ ?_) hn
  obtain ⟨gives, rfl⟩ := (Names.yields_validateInline w results).1 checked
  obtain ⟨entry, -, valid, declared⟩ := gives.exists_of_mem hn
  exact (Table.has_validName _ valid).2 declared

private theorem has_of_yields_supertypes {items : Items (Value Code)}
    (h : Yields .failFast (setting.part entries .supertypes Names.validateSupertypes) before items
      after)
    (found : setting.Finds description start entries before.store) {name : Value Code}
    (hn : name ∈ Section.supertypes.namesIn items.toList) :
    after.names.has name = true ∨
      setting.hasBase = true ∧ Description.get entries .supertypes = .missing := by
  refine has_or_inherited h found (fun v ↦ Names.madeOf_validateSupertypes v fun _ ↦ ⟨_, rfl⟩)
    (fun {w} {between} {results} checked name hn ↦ ?_) hn
  obtain ⟨gives, rfl⟩ := (Names.yields_validateSupertypes w results).1 checked
  obtain ⟨entry, -, -, valid, declared⟩ := gives.exists_of_mem hn
  exact (Table.has_validName _ valid).2 declared

private theorem has_of_yields_conflicts {items : Items (Value Code)}
    (h : Yields .failFast (setting.part entries .conflicts fun v ↦ do
      return setting.groups .conflicts (← Names.validateConflicts v)) before items after)
    (found : setting.Finds description start entries before.store) {name : Value Code}
    (hn : name ∈ Section.conflicts.namesIn items.toList) :
    after.names.has name = true ∨
      setting.hasBase = true ∧ Description.get entries .conflicts = .missing := by
  refine has_or_inherited h found
    (fun v ↦ .bind (Names.madeOf_validateConflicts v fun _ ↦ ⟨_, rfl⟩) fun _ ↦ .pure _)
    (fun {w} {between} {results} checked name hn ↦ ?_) hn
  obtain ⟨groups, _, checked, done⟩ := (Build.yields_bind _ _ _).1 checked
  obtain ⟨rfl, rfl⟩ := (Build.yields_pure _ _).1 done
  obtain ⟨gives, rfl⟩ := (Names.yields_validateConflicts w groups).1 checked
  obtain ⟨_, inItems, hn⟩ := List.mem_flatMap.1 hn
  obtain ⟨⟨group, index⟩, hg, rfl⟩ := List.mem_map.1 inItems
  obtain ⟨_, items, -, named, -⟩ := gives.exists_of_mem (List.fst_mem_of_mem_zipIdx hg)
  obtain ⟨entry, -, valid, declared⟩ := exists_of_forall₂ named hn
  exact (Table.has_validName _ valid).2 declared

private theorem has_of_yields_precedences {items : Items (Value Code)}
    (h : Yields .failFast (setting.part entries .precedences fun v ↦ do
      return setting.groups .precedences ((← Precedences.validate v).map (·.map .rule))) before
      items after)
    (found : setting.Finds description start entries before.store) {name : Value Code}
    (hn : name ∈ Section.precedences.namesIn items.toList) :
    after.names.has name = true ∨
      setting.hasBase = true ∧ Description.get entries .precedences = .missing := by
  refine has_or_inherited h found
    (fun v ↦ .bind (Precedences.madeOf_validate v fun _ ↦ ⟨_, rfl⟩) fun _ ↦ .pure _)
    (fun {w} {between} {results} checked name hn ↦ ?_) hn
  obtain ⟨groups, _, checked, done⟩ := (Build.yields_bind _ _ _).1 checked
  obtain ⟨rfl, rfl⟩ := (Build.yields_pure _ _).1 done
  obtain ⟨gives, rfl⟩ := (Precedences.yields_validate w groups).1 checked
  obtain ⟨_, inItems, hn⟩ := List.mem_flatMap.1 hn
  obtain ⟨⟨_, index⟩, hg, rfl⟩ := List.mem_map.1 inItems
  obtain ⟨rules, hr, rfl⟩ := List.mem_map.1 (List.fst_mem_of_mem_zipIdx hg)
  obtain ⟨_, raws, -, given⟩ := gives.exists_of_mem hr
  obtain ⟨_, hv, symbol⟩ := List.mem_filterMap.1 hn
  obtain ⟨r, hr, rfl⟩ := List.mem_map.1 hv
  obtain ⟨raw, -, ⟨text, rfl⟩ | ⟨other, rfl, -, declared⟩⟩ := exists_of_forall₂ given hr
  · cases symbol
  · cases symbol
    exact declared

private theorem has_of_yields_word {word : Value Code}
    (h : Yields .failFast (setting.word entries) before word after)
    (found : setting.Finds description start entries before.store) {name : Value Code}
    (hn : name ∈ word.toOption.toList) :
    after.names.has name = true ∨
      setting.hasBase = true ∧ Description.get entries .word = .missing := by
  rcases (word_cases h found).2.2 with ⟨base, missing, -⟩ | ⟨-, w, _, -, checked⟩
  · exact .inr ⟨base, missing⟩
  · obtain ⟨gives, rfl⟩ := (Names.yields_validateWord w word).1 checked
    obtain rfl := Value.eq_of_toOption_eq_some (Option.mem_toList.1 hn)
    rcases gives with ⟨-, rfl⟩ | ⟨-, valid, declared⟩
    · cases hn
    · exact .inl ((Table.has_validName _ valid).2 declared)

private theorem word_of_inherited {word : Value Code} {g : Grammar (Value Code)}
    (h : Yields .failFast (setting.word entries) before word after)
    (found : setting.Finds description start entries before.store)
    (base : setting.base = .grammar g)
    (missing : setting.hasBase = true ∧ Description.get entries .word = .missing) {s : String}
    (hs : .string s ∈ word.toOption.toList) : .string s ∈ g.word.toOption.toList := by
  rcases (word_cases h found).2.2 with ⟨-, -, v, attributed, rfl⟩ | ⟨given, -⟩
  · rw [base] at attributed
    cases attributed
    have eq := Value.eq_of_toOption_eq_some (Option.mem_toList.1 hs)
    rw [before.store.copy_eq_string] at eq
    rw [eq]
    exact List.mem_singleton.2 rfl
  · exact absurd missing given

end Setting

/-! ### Builds that report nothing -/

/-- A build that reports nothing, whether it would have ended at the first problem or collected
them all. -/
structure CleanBuild (Code : Type) where
  setting : Setting Code
  description : Value Code
  /-- The store that the build starts from. -/
  store : Store Code
  grammar : Grammar (Value Code)
  /-- The journal that the build leaves. -/
  after : Journal Code
  clean : setting.build description store = (.ok grammar, after) ∨
    setting.collect description store = (.ok grammar, after) ∧ after.problems = []

namespace CleanBuild

variable (b base : CleanBuild Code)

/-- The names that are declared in the end. -/
def names : Namespace Code := b.after.names

/-- Whether a section is inherited: nothing is given for it when its turn comes. -/
def Inherits (part : Section) : Prop :=
  b.setting.hasBase = true ∧ ∃ journal,
    b.setting.Begins .failFast b.description { store := b.store } part journal ∧
      Description.get (Description.given b.description journal.store) part = .missing

/-- Whether what is extended is what the other build has made, and is left alone. -/
structure Extends : Prop where
  extended : b.setting.base = .grammar base.grammar
  alone : b.setting.LeavesAlone b.description b.store base.grammar

/-- Either kind of build is an assembly that would have gone on to its end without a problem. -/
theorem exists_yields : ∃ journal, Yields .failFast (b.setting.assemble b.description)
    { store := b.store } b.grammar journal ∧ journal.names = b.names := by
  rcases b.clean with built | ⟨collected, none⟩
  · exact ⟨_, built, rfl⟩
  · obtain ⟨journal, yields, names, problems, -⟩ := Setting.yields_of_collect collected
    have made := b.setting.madeOf_assemble b.description b.setting.permits_all fun _ _ ↦ trivial
    have agreement := made.agreement { store := b.store }
    rw [yields] at agreement
    generalize built : Build.start (b.setting.assemble b.description) .failFast
      { store := b.store } = run at agreement
    cases agreement with
    | silent => exact ⟨journal, built, names.symm⟩
    | stopped p rest _ _ some =>
      rw [← problems, none] at some
      cases some

/-- Either kind of build goes through the sections of an assembly. -/
theorem exists_stages : ∃ journal start finish,
    b.setting.Stages .failFast b.description { store := b.store } b.grammar journal start finish ∧
      journal.names = b.names := by
  obtain ⟨journal, yields, names⟩ := b.exists_yields
  obtain ⟨start, finish, stages⟩ := Setting.exists_stages yields
  exact ⟨journal, start, finish, stages, names⟩

variable {b} in
/-- A section is inherited if nothing is given for it at its stage. -/
theorem inherits_iff {journal : Journal Code} {start finish : Section → Journal Code}
    (stages : b.setting.Stages .failFast b.description { store := b.store } b.grammar journal start
      finish) (part : Section) :
    b.Inherits part ↔ b.setting.hasBase = true ∧
      Description.get (Description.given b.description (start part).store) part = .missing := by
  refine and_congr_right fun _ ↦ ⟨?_, fun missing ↦ ⟨_, stages.begins part, missing⟩⟩
  rintro ⟨other, begins, missing⟩
  rwa [begins.unique (stages.begins part)] at missing

/-- Names are declared as externals first, then as rules, which the grammar has. -/
theorem names_eq : ∃ externals rules : List (Value Code),
    (b.names = (externals.map fun name ↦ (name, "externals")) ++
      rules.map fun name ↦ (name, "rule")) ∧
      ∀ name ∈ rules, name ∈ b.grammar.namesOf .rules := by
  obtain ⟨journal, start, finish, stages, names⟩ := b.exists_stages
  obtain ⟨externals, first, -⟩ :=
    Setting.declares_of_yields_externals stages.externals (stages.finds _)
  obtain ⟨rules, second, sub, -⟩ := Setting.declares_of_yields_rules stages.rules (stages.finds _)
  refine ⟨externals, rules, ?_, sub⟩
  rw [← names, ← stages.defined .rules (by decide), second, stages.declared, first,
    stages.undeclared]
  rfl

/-- A name that is declared is a rule of the grammar, or it was declared as an external. -/
theorem mem_rules_or_externals {name : Value Code} (h : name ∈ b.names.keys) :
    name ∈ b.grammar.namesOf .rules ∨ (name, "externals") ∈ b.names := by
  obtain ⟨externals, rules, eq, sub⟩ := b.names_eq
  rw [eq] at h ⊢
  rw [Table.keys, List.map_append, List.mem_append] at h
  rcases h with external | rule
  · refine .inr (List.mem_append_left _ ?_)
    simpa using external
  · refine .inl (sub name ?_)
    simpa using rule

/-- The names in a section that is given are declared. -/
theorem has_or_inherits {part : Section}
    (hp : part ∈ [Section.inline, .conflicts, .word, .supertypes, .precedences])
    {name : Value Code} (hn : name ∈ b.grammar.namesOf part) :
    b.names.has name = true ∨ b.Inherits part := by
  obtain ⟨journal, start, finish, stages, names⟩ := b.exists_stages
  have finished : (finish part).names = b.names :=
    (stages.defined part (List.mem_cons_of_mem _ (List.mem_cons_of_mem _ hp))).trans names
  rw [← finished, inherits_iff stages]
  simp only [List.mem_cons, List.not_mem_nil, or_false] at hp
  rcases hp with rfl | rfl | rfl | rfl | rfl
  · exact Setting.has_of_yields_inline stages.inline (stages.finds _) hn
  · exact Setting.has_of_yields_conflicts stages.conflicts (stages.finds _) hn
  · exact Setting.has_of_yields_word stages.word (stages.finds _) hn
  · exact Setting.has_of_yields_supertypes stages.supertypes (stages.finds _) hn
  · exact Setting.has_of_yields_precedences stages.precedences (stages.finds _) hn

variable {b base}

/-- The names in a section that is inherited are names in that section of the base. -/
theorem mem_of_inherits (h : b.Extends base) {part : Section}
    (hp : part ∈ [Section.inline, .conflicts, .word, .supertypes, .precedences])
    (inherits : b.Inherits part) {s : String} (hs : .string s ∈ b.grammar.namesOf part) :
    .string s ∈ base.grammar.namesOf part := by
  obtain ⟨journal, start, finish, stages, -⟩ := b.exists_stages
  rw [inherits_iff stages] at inherits
  have untouched (part : Section) := h.alone _ (stages.begins part).reaches
  simp only [List.mem_cons, List.not_mem_nil, or_false] at hp
  rcases hp with rfl | rfl | rfl | rfl | rfl
  · exact Setting.mem_of_inherited stages.inline (stages.finds _)
      (fun v ↦ Names.madeOf_validateInline v fun _ ↦ ⟨_, rfl⟩) h.extended rfl (untouched _)
      inherits hs
  · exact Setting.mem_of_inherited stages.conflicts (stages.finds _)
      (fun v ↦ .bind (Names.madeOf_validateConflicts v fun _ ↦ ⟨_, rfl⟩) fun _ ↦ .pure _) h.extended
      rfl (untouched _) inherits hs
  · exact Setting.word_of_inherited stages.word (stages.finds _) h.extended inherits hs
  · exact Setting.mem_of_inherited stages.supertypes (stages.finds _)
      (fun v ↦ Names.madeOf_validateSupertypes v fun _ ↦ ⟨_, rfl⟩) h.extended rfl (untouched _)
      inherits hs
  · exact Setting.mem_of_inherited stages.precedences (stages.finds _)
      (fun v ↦ .bind (Precedences.madeOf_validate v fun _ ↦ ⟨_, rfl⟩) fun _ ↦ .pure _) h.extended
      rfl (untouched _) inherits hs

/-- All rules of the base are declared again. -/
theorem mem_names_of_mem_rules (h : b.Extends base) {name : Value Code}
    (hn : name ∈ base.grammar.namesOf .rules) : name ∈ b.names.keys := by
  obtain ⟨journal, start, finish, stages, names⟩ := b.exists_stages
  obtain ⟨rules, eq, -, old⟩ := Setting.declares_of_yields_rules stages.rules (stages.finds _)
  rw [← names, ← stages.defined .rules (by decide), eq, Table.keys, List.map_append]
  refine List.mem_append_right _ ?_
  simpa using old _ h.extended (h.alone _ (stages.finds _).reached) name hn

/-- The symbols among the externals of the base are declared again if the externals are
inherited. -/
theorem mem_names_of_mem_externals (h : b.Extends base) (inherits : b.Inherits .externals)
    {s : String} (hs : .string s ∈ base.grammar.namesOf .externals) :
    .string s ∈ b.names.keys := by
  obtain ⟨journal, start, finish, stages, names⟩ := b.exists_stages
  rw [inherits_iff stages] at inherits
  obtain ⟨rules, second, -⟩ := Setting.declares_of_yields_rules stages.rules (stages.finds _)
  obtain ⟨externals, first, ⟨-, rfl⟩ | ⟨given, -⟩⟩ :=
    Setting.declares_of_yields_externals stages.externals (stages.finds _)
  · have same := Setting.names_of_inherited_externals stages.externals (stages.finds _) h.extended
      (h.alone _ (stages.finds _).reached) inherits.2
    rw [same] at first
    rw [← names, ← stages.defined .rules (by decide), second, stages.declared, first, Table.keys,
      List.map_append, List.map_append]
    refine List.mem_append_left _ (List.mem_append_right _ ?_)
    have looked : .string s ∈ (base.grammar.namesOf .externals).map
        (start .externals).store.present :=
      List.mem_map.2 ⟨_, hs, (Store.present_eq_string _ _ s).2 rfl⟩
    simpa using looked
  · exact absurd inherits.2 given

/-- All that is declared has the form of a name if the base is well formed. -/
theorem isValidName_of_mem_names (h : b.Extends base) (wellFormed : base.grammar.WellFormed) :
    ∀ key ∈ b.names.keys, key.isValidName = true := by
  obtain ⟨journal, start, finish, stages, names⟩ := b.exists_stages
  have sound (part : Section) : b.setting.Extends (start part).store := fun _ ↦
    ⟨_, h.extended, wellFormed, h.alone _ (stages.begins part).reaches⟩
  obtain ⟨externals, first, proper⟩ :=
    Setting.declares_of_yields_externals stages.externals (stages.finds _)
  obtain ⟨rules, second, sub, -⟩ := Setting.declares_of_yields_rules stages.rules (stages.finds _)
  intro key hk
  rw [← names, ← stages.defined .rules (by decide), second, stages.declared, first,
    stages.undeclared] at hk
  have split : key ∈ externals ∨ key ∈ rules := by simpa [Table.keys] using hk
  rcases split with external | rule
  · rcases proper with ⟨-, rfl⟩ | ⟨-, valid⟩
    · have inherited :=
        Setting.of_yields_externals stages.externals (stages.finds _) (sound _) key external
      exact inherited.1
    · exact valid key external
  · exact (Setting.of_yields_rules stages.rules (stages.finds _) (sound _) key (sub key rule)).1

variable (b base)

/-- Whether a name in a section of the base may be lost by an extension that inherits that section:
if it is no rule and no symbol among externals that are inherited too. The base has declared it as
an external, unless the base has inherited the section itself. -/
structure Lost (part : Section) (s : String) : Prop where
  used : .string s ∈ base.grammar.namesOf part
  noRule : .string s ∉ base.grammar.namesOf .rules
  noExternal : b.Inherits .externals → .string s ∉ base.grammar.namesOf .externals
  external : (.string s, "externals") ∈ base.names ∨ base.Inherits part

variable {b base}

/-- When a grammar that was built without a problem is extended without a problem, its rules refer
to declared names only, and so do its sections, except for names in sections that are inherited
which are lost together with the externals of the base. -/
theorem closed_of_extends (h : b.Extends base) :
    (∀ entry ∈ b.grammar.rules.toList, ∀ name ∈ entry.2.mentions,
      b.names.has name = true ∨ ¬ base.grammar.WellFormed ∧ ∀ s, name ≠ .string s) ∧
    ∀ part ∈ [Section.inline, .conflicts, .word, .supertypes, .precedences],
      ∀ name ∈ b.grammar.namesOf part,
        b.names.has name = true ∨ b.Inherits part ∧ ∀ s, name = .string s → b.Lost base part s := by
  constructor
  · intro entry he name hn
    obtain ⟨journal, start, finish, stages, names⟩ := b.exists_stages
    have finished : (finish .rules).names = b.names :=
      (stages.defined .rules (by decide)).trans names
    have mentions :=
      Setting.mentions_of_yields_rules stages.rules (stages.finds _) entry he name hn
    rw [finished] at mentions
    -- A string is the same in every namespace. For any other name, all declared names have to be of
    -- the right form, which the base being well-formed grants.
    by_cases string : ∃ s, name = .string s
    · obtain ⟨s, rfl⟩ := string
      exact .inl ((Table.has_string _ s).2 (mentions (.inl ⟨s, rfl⟩)))
    · refine or_iff_not_imp_right.2 fun other ↦ ?_
      have wellFormed : base.grammar.WellFormed := by
        by_contra malformed
        exact other ⟨malformed, fun s eq ↦ string ⟨s, eq⟩⟩
      have valid := isValidName_of_mem_names h wellFormed
      have found := mentions (.inr valid)
      exact (Table.has_validName _ (valid name found)).2 found
  · intro part hp name hn
    refine or_iff_not_imp_left.2 fun undeclared ↦ ?_
    have inherits : b.Inherits part := (b.has_or_inherits hp hn).resolve_left undeclared
    refine ⟨inherits, ?_⟩
    rintro s rfl
    have free : .string s ∉ b.names.keys := fun found ↦ undeclared ((Table.has_string _ s).2 found)
    have used := mem_of_inherits h hp inherits hn
    have noRule : .string s ∉ base.grammar.namesOf .rules := fun rule ↦
      free (mem_names_of_mem_rules h rule)
    refine ⟨used, noRule, fun old external ↦ free (mem_names_of_mem_externals h old external), ?_⟩
    refine (base.has_or_inherits hp used).imp_left fun declared ↦ ?_
    exact (base.mem_rules_or_externals ((Table.has_string _ s).1 declared)).resolve_left noRule

private theorem mem_of_any_same {names : List (Value Code)} {s : String}
    (h : (names.any fun name ↦ name.same (.string s)) = true) : .string s ∈ names := by
  obtain ⟨name, hn, same⟩ := List.any_eq_true.1 h
  exact (Value.same_string name s).1 same ▸ hn

/-- The extension gives other externals, another rule and other conflicts, and inherits the names
that are put in place. The names that it gives are declared. An external of the base is lost, while
it is still among the names that are inherited. -/
theorem closed_of_replaced :
    let setting (index : Nat) (base : Value Empty) : Setting Empty :=
      { run := fun _ code _ ↦ code.elim, place := .step index, base }
    let list (index : Nat) (items : List (Value Empty)) : Value Empty :=
      .list ⟨.step index, items, false⟩
    let mapping (index : Nat) (entries : Table Empty (Value Empty)) : Value Empty :=
      .mapping ⟨.step index, entries, false⟩
    let rule (index : Nat) (name : String) (r : Rule (Value Empty)) : Value Empty × Value Empty :=
      (.string name, .callable (.constant (.step index) name (.rule r)))
    let first : Value Empty := mapping 0 [
      (.string "name", .string "g"),
      (.string "externals", list 0 [.symbol (.string "indent")]),
      (.string "rules", mapping 0 [rule 0 "a" .blank]),
      (.string "inline", list 0 [.string "indent", .string "a"]),
      (.string "conflicts", list 0 [.tuple [.string "a", .string "indent"]]),
      (.string "word", .string "a")]
    let second : Value Empty := mapping 1 [
      (.string "externals", mapping 1 [(.string "newline", .symbol (.string "newline"))]),
      (.string "rules", mapping 1 [rule 1 "b" (.wrap .repeated (.symbol (.string "newline")))]),
      (.string "conflicts", list 1 [.tuple [.string "a", .string "b"]])]
    ∃ base b : CleanBuild Empty, base.setting = setting 0 .missing ∧ base.description = first ∧
      b.setting = setting 1 (.grammar base.grammar) ∧ b.description = second ∧ b.Extends base ∧
      (∃ entry ∈ b.grammar.rules.toList, .string "newline" ∈ entry.2.mentions) ∧
      b.names.has (.string "newline") = true ∧
      .string "b" ∈ b.grammar.namesOf .conflicts ∧ b.names.has (.string "b") = true ∧
      .string "indent" ∈ b.grammar.namesOf .inline ∧ b.names.has (.string "indent") = false ∧
      b.Inherits .inline ∧ b.Lost base .inline "indent" := by
  intro setting list mapping rule first second
  have returns : ((setting 0 .missing).build first {}).1.toOption.any (fun g ↦
      let run := (setting 1 (.grammar g)).build second {}
      run.1.toOption.any fun g' ↦
        !run.2.names.has (.string "indent") &&
        !(g.namesOf .conflicts).any (fun name ↦ name.same (.string "b")) &&
        g'.rules.toList.any (fun entry ↦
          entry.2.mentions.any fun name ↦ name.same (.string "newline")) &&
        (g'.namesOf .conflicts).any (fun name ↦ name.same (.string "b")) &&
        (g'.namesOf .inline).any fun name ↦ name.same (.string "indent")) = true := by
    decide +kernel
  obtain ⟨g, built, returns⟩ := Build.exists_eq_ok_of_any returns
  obtain ⟨g', extended, returns⟩ := Build.exists_eq_ok_of_any returns
  simp only [Bool.and_eq_true, Bool.not_eq_true'] at returns
  obtain ⟨⟨⟨⟨undeclared, fresh⟩, rules⟩, conflict⟩, inline⟩ := returns
  obtain ⟨entry, he, mention⟩ := List.any_eq_true.1 rules
  let base : CleanBuild Empty := ⟨setting 0 .missing, first, {}, g, _, .inl built⟩
  let b : CleanBuild Empty := ⟨setting 1 (.grammar g), second, {}, g', _, .inl extended⟩
  have h : b.Extends base := ⟨rfl, Setting.leavesAlone_of_pure fun _ code ↦ code.elim⟩
  obtain ⟨atRules, atSections⟩ := closed_of_extends h
  have newline := mem_of_any_same mention
  have hb := mem_of_any_same conflict
  have indent := mem_of_any_same inline
  refine ⟨base, b, rfl, rfl, rfl, rfl, h, ⟨entry, he, newline⟩, ?_, hb, ?_, indent, undeclared, ?_⟩
  · exact (atRules entry he _ newline).resolve_right fun other ↦ other.2 _ rfl
  · refine (atSections .conflicts (by decide) _ hb).resolve_right fun other ↦ ?_
    have given : (g.namesOf .conflicts).any (fun name ↦ name.same (.string "b")) = true :=
      List.any_eq_true.2 ⟨_, (other.2 "b" rfl).used, (Value.same_string _ "b").2 rfl⟩
    rw [fresh] at given
    cases given
  · have lost :=
      (atSections .inline (by decide) _ indent).resolve_left (ne_true_of_eq_false undeclared)
    exact ⟨lost.1, lost.2 "indent" rfl⟩

/-- Externals that are given in place of those of the base take with them a name that an inherited
section still has. -/
theorem exists_not_closed :
    let setting (index : Nat) (base : Value Empty) : Setting Empty :=
      { run := fun _ code _ ↦ code.elim, place := .step index, base }
    let rule : Value Empty := .callable (.constant (.step 0) "a" (.string "x"))
    let rules : Value Empty := .mapping ⟨(Place.step 0).part "rules", [(.string "a", rule)], false⟩
    let inline : Value Empty := .list ⟨(Place.step 0).part "inline", [.string "indent"], false⟩
    let externals (index : Nat) (entries : List (Value Empty × Value Empty)) : Value Empty :=
      .mapping ⟨(Place.step index).part "externals", entries, false⟩
    let indent : Value Empty × Value Empty :=
      (.string "indent", .rule (.symbol (.string "indent")))
    let first : Value Empty := .mapping ⟨.step 0, [(.string "name", .string "g"),
      (.string "externals", externals 0 [indent]), (.string "rules", rules),
      (.string "inline", inline)], false⟩
    let second : Value Empty :=
      .mapping ⟨.step 1, [(.string "externals", externals 1 [])], false⟩
    ∃ base b : CleanBuild Empty, base.setting = setting 0 .missing ∧ base.description = first ∧
      b.setting = setting 1 (.grammar base.grammar) ∧ b.description = second ∧ b.Extends base ∧
      .string "indent" ∈ b.grammar.namesOf .inline ∧ b.names.has (.string "indent") = false := by
  intro setting rule rules inline externals indent first second
  have returns : ((setting 0 .missing).build first {}).1.toOption.any (fun g ↦
      let run := (setting 1 (.grammar g)).build second {}
      run.1.toOption.any fun g' ↦ !run.2.names.has (.string "indent") &&
        (g'.namesOf .inline).any fun name ↦ name.same (.string "indent")) = true := by
    decide +kernel
  obtain ⟨g, built, returns⟩ := Build.exists_eq_ok_of_any returns
  obtain ⟨g', extended, returns⟩ := Build.exists_eq_ok_of_any returns
  simp only [Bool.and_eq_true, Bool.not_eq_true'] at returns
  obtain ⟨undeclared, inline⟩ := returns
  let base : CleanBuild Empty := ⟨setting 0 .missing, first, {}, g, _, .inl built⟩
  let b : CleanBuild Empty := ⟨setting 1 (.grammar g), second, {}, g', _, .inl extended⟩
  have h : b.Extends base := ⟨rfl, Setting.leavesAlone_of_pure fun _ code ↦ code.elim⟩
  exact ⟨base, b, rfl, rfl, rfl, rfl, h, mem_of_any_same inline, undeclared⟩

end CleanBuild

end GrammarDoc
