import GrammarDoc.Proofs.Merging
import GrammarDoc.Proofs.Restatement

/-!
# Functions that return what they are passed

What the functions of a description are passed, if a grammar is extended, stands for what that
grammar has. So a description whose functions all return it restates the grammar.
-/

namespace GrammarDoc

open Build (Yields)

variable {Code : Type} {before after : Journal Code}

/-- A place within another: the place itself, and all parts and items of places within it. -/
inductive Place.Within (whole : Place) : Place → Prop
  | whole : Within whole whole
  | part {place : Place} (title : String) : Within whole place → Within whole (place.part title)
  | item {place : Place} (index : Nat) : Within whole place → Within whole (place.item index)

/-- Nothing has been changed yet at the places within a place. -/
def Store.IsNew (store : Store Code) (whole : Place) : Prop :=
  ∀ place, whole.Within place → store.Spares [place]

/-- A list made at a new place has the items that it was made with. -/
theorem Store.IsNew.lists {store : Store Code} {whole place : Place} (new : store.IsNew whole)
    (within : whole.Within place) : store.lists.lookup place = none :=
  (new place within place (List.mem_singleton.2 rfl)).1

namespace Setting

variable (setting : Setting Code)

/-- What is made in a build is made within its place. -/
theorem within_made (role title : String) : setting.place.Within (setting.made role title) :=
  .part title (.part role .whole)

/-- A function of the builder and something else that returns the latter and does nothing else. -/
structure ReturnsSecond (f : Callable (Value Code) Code) : Prop where
  parameters : f.signature.arity? = some 2
  returns : ∀ place v store, (setting.call place f v).Returns store v store

/-- The entries of a description that overrides all but the name of a grammar with functions, each
of which returns what it is passed. -/
structure ReturnsOriginals (entries : Table Code (Value Code)) (store : Store Code)
    (g : Grammar (Value Code)) (names : Namespace Code) : Prop where
  keys : ∀ key ∈ entries.keys, ∃ part : Section, key = .string part.title
  name : Description.get entries .name = .missing
  functions : ∀ part ∉ [Section.name, .rules], ∃ f,
    Description.get entries part = .callable f ∧ setting.ReturnsSecond f
  word : ∀ f, Description.get entries .word = .callable f →
    ∀ s ∈ f.name, .string s ∉ names.keys
  rules : ∃ given, (store.present (Description.get entries .rules)).object? = some given ∧
    (Table.keys given).Perm (g.namesOf .rules) ∧
    ∀ entry ∈ given, ∃ f, entry.2 = .callable f ∧ setting.ReturnsSecond f

variable {setting} {f : Callable (Value Code) Code} {posture : Posture}

private theorem ReturnsSecond.takesArgument (h : setting.ReturnsSecond f) :
    f.takesArgument = true := by
  simp [Callable.takesArgument, h.parameters]

/-- A section whose function returns what it is passed is evaluated to that. -/
theorem ReturnsSecond.yields_evaluate (h : setting.ReturnsSecond f) (part : Section)
    (original : Value Code) :
    Yields posture (setting.evaluate part (.callable f) original) before original before := by
  have called : (setting.call (setting.made "call" part.title) f original).start before.store =
      (.ok original, before.store) := h.returns _ _ _
  unfold evaluate Yields
  simp only [Value.callable?, h.takesArgument, if_true]
  rw [Build.start_bind, Build.start_absorb, called]
  rfl

end Setting

private theorem Externals.gives_symbols {v : Value Code} {members : List (Value Code)}
    (array : v.array? = some (members.map .symbol))
    (valid : ∀ name ∈ members, name.isValidName = true) :
    Gives v (members.map Rule.symbol) ∧ names v = members := by
  constructor
  · refine .inr (.inl ⟨_, array, ?_⟩)
    rw [List.forall₂_map_left_iff, List.forall₂_map_right_iff, List.forall₂_same]
    rintro name hn
    refine ⟨rfl, ?_⟩
    rintro _ ⟨⟩
    exact valid name hn
  · unfold names
    rw [array]
    dsimp only
    rw [List.filterMap_map]
    exact (List.filterMap_congr fun _ _ ↦ rfl).trans List.filterMap_some

/-- What the rule of a name in a grammar is at present. -/
def Grammar.ruleNamed (g : Grammar (Value Code)) (store : Store Code) (name : Value Code) :
    Rule (Value Code) :=
  match store.present (.ofOption (Table.find? g.rules.toList name)) with
  | .rule r => r
  | _ => .blank

private theorem Grammar.Settled.present_ruleNamed {g : Grammar (Value Code)} {references : Bool}
    {names : Namespace Code} (settled : g.Settled references names) (store : Store Code)
    {entry : Value Code × Value Code} (he : entry ∈ g.rules.toList) :
    Table.find? g.rules.toList entry.1 = some entry.2 ∧
      store.present entry.2 = .rule (g.ruleNamed store entry.1) := by
  have found : Table.find? g.rules.toList entry.1 = some entry.2 :=
    Table.find?_of_mem settled.valid_rules (List.nodup_append.1 settled.nodup_names).2.1 he
  obtain ⟨r, eq⟩ := settled.definitions entry he
  obtain ⟨present, looked⟩ := store.exists_present_rule r
  refine ⟨found, ?_⟩
  rw [Grammar.ruleNamed, found, Value.ofOption, eq, looked]

private theorem Grammar.Settled.merged_ruleNamed {g : Grammar (Value Code)} {references : Bool}
    {names : Namespace Code} {store : Store Code} (settled : g.Settled references names)
    (asMade : g.AsMade store) {keys : List (Value Code)} (perm : keys.Perm (g.namesOf .rules)) :
    Rules.merged g.rules.toList (keys.map fun name ↦ (name, g.ruleNamed store name)) =
      (g.atPresent store).rules.toList := by
  have distinct : (g.namesOf .rules).Nodup := (List.nodup_append.1 settled.nodup_names).2.1
  rw [settled.rules_atPresent asMade]
  refine (Rules.merged_eq_of_perm_keys (g.ruleNamed store) perm settled.valid_rules
    distinct).trans (List.map_congr_left fun entry he ↦ ?_)
  rw [(settled.present_ruleNamed store he).2]

private theorem Setting.returns_originals {setting : Setting Code} {g : Grammar (Value Code)}
    {references : Bool} {names : Namespace Code} (settled : g.Settled references names)
    (store : Store Code) {functions : List (Value Code × Callable (Value Code) Code)}
    (each : ∀ function ∈ functions,
      function.1 ∈ g.namesOf .rules ∧ setting.ReturnsSecond function.2) :
    (functions.mapM (Rules.returned setting g.rules.toList)).Returns store
      (functions.map fun function ↦ (function.1, .rule (g.ruleNamed store function.1))) store := by
  refine Exec.returns_mapM fun function hf ↦ ?_
  obtain ⟨known, returns⟩ := each function hf
  obtain ⟨inherited, mem, same⟩ := List.mem_map.1 known
  obtain ⟨found, looked⟩ := settled.present_ruleNamed store mem
  rw [same] at found looked
  simp only [Rules.returned, Exec.returns_bind, Exec.returns_present, Exec.returns_pure]
  exact ⟨inherited.2, store, by rw [found]; exact returns.returns _ _ _, _, _, ⟨rfl, rfl⟩,
    by rw [looked], rfl⟩

namespace Setting

variable {setting : Setting Code} {entries : Table Code (Value Code)} {store : Store Code}
  {g : Grammar (Value Code)} {references : Bool} {names : Namespace Code}
  (extended : setting.base = .grammar g) (settled : g.Settled references names)
  (asMade : g.AsMade store) (new : store.IsNew setting.place)
  (originals : setting.ReturnsOriginals entries store g names)

include extended settled asMade new originals

/-- The externals are restated. -/
theorem ReturnsOriginals.exists_yields_externals (here : before.store = store)
    (none : before.names = []) :
    ∃ items, Yields .failFast (setting.externals entries) before items
      (before.declaring "externals" (g.namesOf .externals)) ∧
        items.toList = g.externals.toList := by
  subst here
  obtain ⟨f, function, returns⟩ := originals.functions .externals (by decide)
  have valid := settled.valid_externals
  have symbols : ((g.namesOf .externals).map .symbol).map before.store.present =
      (g.namesOf .externals).map .symbol := by
    rw [List.map_map]
    exact List.map_congr_left fun name hn ↦ before.store.present_symbol (valid name hn)
  let place := setting.made "offered" "externals"
  let offered : Value Code := .list ⟨place, (g.namesOf .externals).map .symbol, false⟩
  have inherited : Yields .failFast setting.inheritedExternals before
      ⟨place, (g.namesOf .externals).map .symbol, false⟩ before := by
    rw [← symbols, ← settled.externals]
    exact yields_inheritedExternals extended asMade.toUntouched
  have present : before.store.present offered = offered := by
    rw [before.store.present_list (new.lists (setting.within_made _ _)), symbols]
  obtain ⟨gives, declares⟩ := Externals.gives_symbols (v := offered) rfl valid
  have validated := settled.yields_validateExternals none gives declares
  refine ⟨⟨setting.made "result" "externals", ((g.namesOf .externals).map .symbol).map .rule,
    false⟩, ?_, ?_⟩
  · unfold Setting.externals
    refine (Build.yields_bind _ _ _).2 ⟨_, before, inherited, ?_⟩
    rw [function]
    refine (Build.yields_bind _ _ _).2 ⟨offered, before, returns.yields_evaluate _ _, ?_⟩
    refine (Build.yields_bind _ _ _).2 ⟨offered, before,
      (Build.yields_present _ _).2 ⟨present.symm, rfl⟩, ?_⟩
    exact (Build.yields_bind _ _ _).2 ⟨_, _, validated, (Build.yields_pure _ _).2 ⟨rfl, rfl⟩⟩
  · rw [settled.externals, List.map_map]
    rfl

omit new in
/-- The rules are restated. -/
theorem ReturnsOriginals.exists_yields_rules (here : before.store = store)
    (current : before.names = (g.namesOf .externals).map fun name ↦ (name, "externals")) :
    ∃ rules, Yields .failFast (setting.rules entries) before rules
      (before.declaring "rule" (g.namesOf .rules)) ∧
        rules.toList = (g.atPresent store).rules.toList := by
  subst here
  obtain ⟨given, object, perm, functions⟩ := originals.rules
  have valid := settled.valid_rules
  have externals : before.names.keys = g.namesOf .externals := by
    rw [current, Table.keys, List.map_map]
    exact List.map_id _
  let define := g.ruleNamed before.store
  let declared := before.declaring "rule" (g.namesOf .rules)
  have inherits : Yields .failFast (Rules.inherit g.rules.toList) before () declared :=
    Build.yields_forM_declare valid (externals.symm ▸ settled.nodup_names)
  have old : ∀ entry ∈ given, entry.1 ∈ g.namesOf .rules := fun entry he ↦
    perm.mem_iff.1 (List.mem_map_of_mem he)
  -- Every entry has the name of an inherited rule, so none declares another one.
  have noNew : given.filterMap (Rules.entryName? g.rules.toList) = [] :=
    List.filterMap_eq_nil_iff.2 fun entry he ↦
      if_pos ((Table.has_validName _ (valid _ (old entry he))).2 (old entry he))
  have allGive : ∀ entry ∈ given, ∃ function, Rules.EntryGives entry function ∧
      function.1 ∈ g.namesOf .rules ∧ setting.ReturnsSecond function.2 := by
    intro entry he
    obtain ⟨f, callable, returns⟩ := functions entry he
    exact ⟨(entry.1, f), ⟨valid _ (old entry he), by rw [callable]; rfl, rfl⟩, old entry he,
      returns⟩
  obtain ⟨fs, gives⟩ := exists_forall₂_iff.2 allGive
  have named := Rules.names_of_entryGives (gives.imp fun _ _ ↦ And.left)
  have returned : (fs.mapM (Rules.returned setting g.rules.toList)).Returns before.store
      (fs.map fun function ↦ (function.1, .rule (define function.1))) before.store :=
    returns_originals settled _ fun function hf ↦ (exists_of_forall₂ gives hf).choose_spec.2
  let defined := (Table.keys given).map fun name ↦ (name, define name)
  have results : List.Forall₂ Rules.ResultGives
      (fs.map fun function ↦ (function.1, .rule (define function.1))) defined := by
    have same : defined = fs.map fun function ↦ (function.1, define function.1) := by
      change (Table.keys given).map _ = _
      rw [← named, List.map_map]
      rfl
    rw [same, List.forall₂_map_left_iff, List.forall₂_map_right_iff, List.forall₂_same]
    exact fun function _ ↦ ⟨rfl, rfl⟩
  have merged : Rules.merged g.rules.toList defined = (g.atPresent before.store).rules.toList :=
    settled.merged_ruleNamed asMade perm
  have some : (Rules.merged g.rules.toList defined).isEmpty = false := by
    rw [merged, List.isEmpty_eq_false_iff]
    exact (settled.atPresent asMade).nonempty
  have resolved : Yields .failFast (Rules.resolve (Rules.merged g.rules.toList defined)) declared ()
      declared := by
    refine (settled.atPresent asMade).yields_resolve ?_ ?_
    · rw [merged, settled.rules_atPresent asMade, List.map_map, List.map_map]
      exact List.map_congr_left fun entry _ ↦ before.store.present_present entry.2
    · exact (congrArg (· ++ _) current).trans settled.declared.symm
  have validated : Yields .failFast (Rules.validate setting g.rules.toList
      (before.store.present (Description.get entries .rules))) before
      (Rules.merged g.rules.toList defined) declared := by
    refine (Rules.yields_validate _ _ _ _).2 ⟨given, object, (Rules.yields_fromEntries _ _ _ _ _).2
      ⟨declared, fs, _, before.store, defined, inherits, ⟨gives.imp fun _ _ ↦ And.left, ?_, ?_⟩,
        ⟨returned, results⟩, ⟨rfl, some⟩, ?_⟩⟩
    · rw [noNew]
      exact List.nodup_nil
    · rw [noNew]
      exact fun _ none ↦ absurd none List.not_mem_nil
    · rw [noNew, Journal.declaring_nil]
      exact resolved
  refine ⟨⟨setting.made "result" "rules", Rules.merged g.rules.toList defined, false⟩, ?_, merged⟩
  have given : setting.givenRules entries = Description.get entries .rules := by
    unfold givenRules
    split
    · next missing =>
      rw [missing, before.store.present_missing] at object
      cases object
    · rfl
  rw [← given] at validated
  exact yields_rules_iff_validate.2
    ⟨_, yields_inheritedRules extended asMade.toUntouched, validated, rfl⟩

end Setting

private theorem Grammar.Settled.present_symbols {g : Grammar (Value Code)} {references : Bool}
    {names : Namespace Code} (settled : g.Settled references names) {store : Store Code}
    {place : Place} (untouched : store.lists.lookup place = none) {members : List (Value Code)}
    (declared : ∀ name ∈ members, name ∈ names.keys) :
    store.present (.list ⟨place, members.map .symbol, false⟩) =
      .list ⟨place, members.map .symbol, false⟩ := by
  rw [store.present_list untouched, List.map_map]
  congr 2
  exact List.map_congr_left fun name hn ↦
    store.present_symbol (settled.valid name (declared name hn))

private theorem Value.spells_symbols (place : Place) (members : List (Value Code)) :
    (Value.list ⟨place, members.map .symbol, false⟩).Spells members := by
  refine ⟨_, rfl, ?_⟩
  rw [List.forall₂_map_left_iff, List.forall₂_same]
  exact fun _ _ ↦ .inr rfl

namespace Setting

variable {setting : Setting Code} {entries : Table Code (Value Code)} {store : Store Code}
  {g : Grammar (Value Code)} {references : Bool} {names : Namespace Code}

private theorem yields_symbols (place : Place) {v : Value Code} {list : Items (Value Code)}
    (looked : before.store.present v = .list list) :
    Yields .failFast (Setting.symbols place v) before
      (.list ⟨place, list.toList.map .symbol, false⟩) before :=
  (Build.yields_bind _ _ _).2 ⟨list.toList, before,
    (Build.yields_elements _ _).2 ⟨by rw [looked]; rfl, rfl⟩, (Build.yields_pure _ _).2 ⟨rfl, rfl⟩⟩

variable (extended : setting.base = .grammar g) (settled : g.Settled references names)
  (asMade : g.AsMade store) (new : store.IsNew setting.place)

include extended settled asMade new

/-- What the function of the conflicts is passed restates what the base has. -/
theorem exists_yields_offered_conflicts (here : before.store = store) :
    ∃ offered, Yields .failFast (setting.offered .conflicts (.list g.conflicts)) before offered
        before ∧
      (g.atPresent store).Restates .conflicts (store.present offered) := by
  subst here
  have base : setting.hasBase = true := by rw [hasBase, extended]
  have conflicts := settled.conflicts
  let place := setting.made "offered" "conflicts"
  let symbols (pair : Value Code × Nat) : Value Code :=
    .list ⟨place.item pair.2, (pair.1.array?.getD []).map .symbol, false⟩
  let groups := g.conflicts.toList.zipIdx.map symbols
  have each : ∀ pair ∈ g.conflicts.toList.zipIdx,
      Yields .failFast (Setting.symbols (place.item pair.2) pair.1) before (symbols pair) before ∧
      before.store.present (symbols pair) = symbols pair ∧
      ∃ members, pair.1.array? = some members ∧ (symbols pair).Spells members := by
    rintro ⟨group, i⟩ mem
    obtain ⟨made, members, rfl, -, declared⟩ :=
      conflicts group (List.fst_mem_of_mem_zipIdx mem)
    have looked : before.store.present (.list ⟨made, members, false⟩) =
        .list ⟨made, members, false⟩ := by
      rw [before.store.present_list (asMade.groups .conflicts _ rfl _
        (List.fst_mem_of_mem_zipIdx mem)), settled.map_present_eq declared]
    exact ⟨yields_symbols _ looked, settled.present_symbols
      (new.lists (.item i (setting.within_made _ _))) declared, members, rfl,
      Value.spells_symbols _ _⟩
  refine ⟨.list ⟨place, groups, false⟩, ?_, groups, ?_, ?_⟩
  · unfold Setting.offered
    rw [base, if_pos rfl]
    have elements : Yields .failFast (Build.elements (.list g.conflicts)) before
        g.conflicts.toList before := by
      refine (Build.yields_elements _ _).2 ⟨?_, rfl⟩
      rw [before.store.present_eq_list]
      exact congrArg Except.ok (settled.conflicts_atPresent asMade)
    exact (Build.yields_bind _ _ _).2 ⟨_, before, elements, (Build.yields_bind _ _ _).2
      ⟨groups, before, Build.yields_mapM fun pair mem ↦ (each pair mem).1,
      (Build.yields_pure _ _).2 ⟨rfl, rfl⟩⟩⟩
  · rw [before.store.present_list (new.lists (setting.within_made _ _)), List.map_map]
    exact congrArg some (List.map_congr_left fun pair mem ↦ (each pair mem).2.1)
  · rw [settled.conflicts_atPresent asMade, List.forall₂_map_left_iff,
      ← List.zipIdx_map_fst 0 g.conflicts.toList, List.forall₂_map_right_iff,
      List.zipIdx_map_fst, List.forall₂_same]
    exact fun pair mem ↦ (each pair mem).2.2

/-- What the functions of the other sections are passed restates what the base has. -/
theorem exists_yields_offered_restating {part : Section}
    (hp : part ∈ [Section.extras, .inline, .conflicts, .supertypes, .precedences])
    (here : before.store = store) :
    ∃ offered, Yields .failFast (setting.offered part (g.fields part)) before offered before ∧
      (g.atPresent store).Restates part (store.present offered) := by
  have base : setting.hasBase = true := by rw [hasBase, extended]
  have atPresent := settled.atPresent asMade
  simp only [List.mem_cons, List.not_mem_nil, or_false] at hp
  rcases hp with rfl | rfl | rfl | rfl | rfl
  · refine ⟨.list g.extras, ?_, ?_⟩
    · unfold Setting.offered
      rw [base, if_pos rfl]
      exact (Build.yields_pure _ _).2 ⟨rfl, rfl⟩
    · rw [store.present_eq_list]
      rfl
  · have looked : before.store.present (.list g.inline) = .list (g.atPresent store).inline :=
      here ▸ before.store.present_eq_list _
    have same := settled.present_symbols (new.lists (setting.within_made "offered" "inline"))
      atPresent.inline
    refine ⟨_, ?_, same.symm ▸ Value.spells_symbols _ _⟩
    unfold Setting.offered
    rw [base, if_pos rfl]
    exact yields_symbols _ looked
  · exact exists_yields_offered_conflicts extended settled asMade new here
  · have looked : before.store.present (.list g.supertypes) =
        .list (g.atPresent store).supertypes := here ▸ before.store.present_eq_list _
    have same := settled.present_symbols (new.lists (setting.within_made "offered" "supertypes"))
      atPresent.supertypes
    refine ⟨_, ?_, same.symm ▸ Value.spells_symbols _ _⟩
    unfold Setting.offered
    rw [base, if_pos rfl]
    exact yields_symbols _ looked
  · refine ⟨.list g.precedences, ?_, ?_⟩
    · unfold Setting.offered
      rw [base, if_pos rfl]
      exact (Build.yields_pure _ _).2 ⟨rfl, rfl⟩
    · rw [store.present_eq_list]
      rfl

variable (originals : setting.ReturnsOriginals entries store g names)

include originals

/-- The other sections are restated. -/
theorem ReturnsOriginals.exists_yields_part {part : Section}
    (hp : part ∈ [Section.extras, .inline, .conflicts, .supertypes, .precedences])
    (here : before.store = store) :
    ∃ w, (g.atPresent store).Restates part w ∧ ∀ results,
      Yields .failFast (setting.checks part w) before results before →
      Yields .failFast (setting.part entries part (setting.checks part)) before
        ⟨setting.made "result" part.title, results, false⟩ before := by
  have base : setting.hasBase = true := by rw [hasBase, extended]
  have listed : part ∉ [Section.name, .rules] := by
    simp only [List.mem_cons, List.not_mem_nil, or_false] at hp
    rcases hp with rfl | rfl | rfl | rfl | rfl <;> decide
  obtain ⟨f, function, returns⟩ := originals.functions part listed
  obtain ⟨offered, offers, restates⟩ :=
    exists_yields_offered_restating extended settled asMade new hp here
  have inherited : Yields .failFast (setting.inherited part) before (g.fields part) before := by
    unfold Setting.inherited
    rw [base, if_pos rfl]
    exact (yields_ofBase _ _).2 ⟨by rw [extended, g.attribute?_title], rfl⟩
  refine ⟨_, restates, fun results checked ↦ ?_⟩
  unfold Setting.part
  refine (Build.yields_bind _ _ _).2 ⟨_, before, inherited, (Build.yields_bind _ _ _).2
    ⟨_, before, offers, ?_⟩⟩
  rw [function, base]
  exact (Build.yields_bind _ _ _).2 ⟨_, before, returns.yields_evaluate _ _,
    (Build.yields_bind _ _ _).2 ⟨_, before, (Build.yields_present _ _).2 ⟨rfl, rfl⟩,
    (Build.yields_bind _ _ _).2 ⟨results, before, here ▸ checked,
    (Build.yields_pure _ _).2 ⟨rfl, rfl⟩⟩⟩⟩

omit asMade new in
/-- The word is restated: its function is called, since its name is not declared. -/
theorem ReturnsOriginals.yields_word (here : before.store = store)
    (current : before.names = names) :
    Yields .failFast (setting.word entries) before (g.atPresent store).word before := by
  subst here current
  have base : setting.hasBase = true := by rw [hasBase, extended]
  obtain ⟨f, function, returns⟩ := originals.functions .word (by decide)
  have inherited : Yields .failFast (setting.inherited .word) before g.word before := by
    unfold Setting.inherited
    rw [base, if_pos rfl]
    exact (yields_ofBase _ _).2 ⟨by rw [extended]; rfl, rfl⟩
  have undeclared : refers before.names.keys (.callable f) = false := by
    rw [refers, Value.callable?, ← Bool.not_eq_true, Value.isIn_iff_mem settled.valid]
    intro declared
    cases name : f.name with
    | none =>
      rw [name] at declared
      cases settled.valid _ declared
    | some s =>
      rw [name] at declared
      exact originals.word f function s name declared
  have validated : Yields .failFast (Names.validateWord (before.store.present g.word)) before
      (g.atPresent before.store).word before := by
    refine (Names.yields_validateWord _ _).2 ⟨?_, rfl⟩
    rw [settled.word_atPresent]
    rcases settled.word with missing | declared
    · rw [missing, before.store.present_missing]
      exact .inl ⟨rfl, rfl⟩
    · rw [settled.present_eq declared]
      exact .inr (Names.entryGives_of_declared settled.valid declared (.inl rfl))
  unfold Setting.word
  refine (Build.yields_bind _ _ _).2 ⟨_, before, inherited, ?_⟩
  rw [function, base]
  refine (Build.yields_bind _ _ _).2 ⟨false, before,
    (yields_refersToDeclared _ _).2 ⟨undeclared.symm, rfl⟩, ?_⟩
  exact (Build.yields_bind _ _ _).2 ⟨_, before, returns.yields_evaluate _ _,
    (Build.yields_bind _ _ _).2 ⟨_, before, (Build.yields_present _ _).2 ⟨rfl, rfl⟩, validated⟩⟩

/-- Functions that return what they are passed restate what the base has at present. -/
theorem ReturnsOriginals.restates :
    setting.Restates entries store (g.atPresent store) names where
  name before here := by
    have same : (g.atPresent store).name = g.name := store.present_of_isValidName settled.name
    rw [same]
    exact yields_name_of_missing extended originals.name
  externals before here none := by
    rw [settled.namesOf_externals_atPresent asMade, settled.externals_atPresent asMade]
    exact originals.exists_yields_externals extended settled asMade new here none
  rules before here current := by
    rw [settled.namesOf_externals_atPresent asMade] at current
    rw [settled.namesOf_rules_atPresent asMade]
    exact originals.exists_yields_rules extended settled asMade here current
  part part hp before here _ := originals.exists_yields_part extended settled asMade new hp here
  word before here current := originals.yields_word extended settled here current

end Setting

namespace CleanBuild

/-- A grammar is extended that was built without a base and without a problem and whose externals
are all symbols. All but its name is overridden, with functions that return what they are passed, in
whatever order the rules are given. Then the build under the same policy on extras reports nothing
and makes a grammar with the content of the base at present, rules and externals in the same order,
which therefore equals the base as the base equals itself. -/
theorem overridden_by_originals (b : CleanBuild Code) (anew : b.setting.hasBase = false)
    (symbols : ∀ v ∈ b.grammar.externals.toList, ∃ name, v = .symbol name)
    {setting : Setting Code} {description : Value Code} {store : Store Code}
    {entries : Table Code (Value Code)}
    (extended : setting.base = .grammar b.grammar)
    (policy : setting.extraReferences = b.setting.extraReferences)
    (asMade : b.grammar.AsMade store) (new : store.IsNew setting.place)
    (given : (store.read description).object? = some entries)
    (originals : setting.ReturnsOriginals entries store b.grammar b.names) :
    ∃ g after, setting.collect description store = (.ok g, after) ∧ after.problems = [] ∧
      after.names = b.names ∧ after.store = store ∧
      g.content = (b.grammar.atPresent store).content ∧
      Value.compareGrammars g (b.grammar.atPresent store) =
        Value.compareGrammars (b.grammar.atPresent store) (b.grammar.atPresent store) := by
  have settled := b.settled anew symbols
  have atPresent := settled.atPresent asMade
  obtain ⟨g, after, collected, problems, names, same, repeats⟩ :=
    atPresent.exists_collect policy given originals.keys
      (originals.restates extended settled asMade new)
  exact ⟨g, after, collected, problems, names, same, repeats.content_eq,
    repeats.compare_eq atPresent.once⟩

/-- A grammar with something in each section comes back from a description that gives its rules in
another order. -/
theorem overridden_by_originals_cases :
    let run : Interpreter Unit := fun _ _ bindings ↦ pure (.ofOption (bindings[1]?.map (·.2)))
    let setting (index : Nat) (base : Value Unit) : Setting Unit :=
      { run, place := .step index, base }
    let list (items : List (Value Unit)) : Value Unit := .list ⟨.step 0, items, false⟩
    let mapping (entries : List (String × Value Unit)) : Value Unit :=
      .mapping ⟨.step 0, entries.map fun (key, v) ↦ (.string key, v), false⟩
    let returning (v : Value Unit) : Value Unit := .callable (.constant (.step 0) "rule" v)
    let first := mapping [("name", .string "g"),
      ("externals", mapping [("indent", .symbol (.string "indent"))]),
      ("rules", mapping [("a", returning (.symbol (.string "b"))),
        ("b", returning (.symbol (.string "indent")))]),
      ("extras", list [.string "#"]), ("inline", list [.string "b"]),
      ("conflicts", list [list [.string "a", .string "b"]]), ("word", .string "a"),
      ("supertypes", list [.string "a"]),
      ("precedences", list [list [.string "x", .symbol (.string "a")]])]
    let original : Value Unit :=
      .callable ⟨.step 1, none, { positional := ["grammar", "original"] }, .code ()⟩
    let second := mapping [("externals", original),
      ("rules", mapping [("b", original), ("a", original)]), ("extras", original),
      ("inline", original), ("conflicts", original), ("word", original), ("supertypes", original),
      ("precedences", original)]
    ∃ (b : CleanBuild Unit) (g : Grammar (Value Unit)) (after : Journal Unit),
      b.setting = setting 0 .missing ∧ b.description = first ∧
      (setting 1 (.grammar b.grammar)).collect second {} = (.ok g, after) ∧
      after.problems = [] ∧ g.content = b.grammar.content ∧
      Value.compareGrammars g b.grammar = some true := by
  intro run setting list mapping returning first original second
  have returns : ((setting 0 .missing).build first {}).1.toOption.any (fun g ↦
      (g.externals.toList.all fun v ↦ v.symbolName?.isSome) &&
      Value.compareItems [.string "a", .string "b"] (g.namesOf .rules) == some true &&
      Value.compareGrammars g g == some true) = true := by
    decide +kernel
  obtain ⟨g, built, returns⟩ := Build.exists_eq_ok_of_any returns
  simp only [Bool.and_eq_true, List.all_eq_true, beq_iff_eq] at returns
  obtain ⟨⟨all, names⟩, self⟩ := returns
  have symbols : ∀ v ∈ g.externals.toList, ∃ name, v = .symbol name := fun v hv ↦
    Value.exists_eq_symbol (all v hv)
  -- Only equality can be computed here; two strings that are found equal are the same.
  have keys : g.namesOf .rules = [.string "a", .string "b"] := by
    have alike := Value.compareItems_eq_true.1 names
    generalize g.namesOf .rules = keys at alike ⊢
    obtain _ | ⟨first, _ | ⟨second, _ | _⟩⟩ := alike
    rw [(Value.string_same _ _).1 (beq_iff_eq.2 first),
      (Value.string_same _ _).1 (beq_iff_eq.2 second)]
  let b : CleanBuild Unit := ⟨setting 0 .missing, first, {}, g, _, .inl built⟩
  let f : Callable (Value Unit) Unit :=
    ⟨.step 1, none, { positional := ["grammar", "original"] }, .code ()⟩
  have second' : (setting 1 (.grammar g)).ReturnsSecond f := ⟨rfl, fun _ _ _ ↦ rfl⟩
  let given : List (Value Unit × Value Unit) :=
    [(.string "b", original), (.string "a", original)]
  let entries : Table Unit (Value Unit) := [(.string "externals", original),
    (.string "rules", .mapping ⟨.step 0, given, false⟩), (.string "extras", original),
    (.string "inline", original), (.string "conflicts", original), (.string "word", original),
    (.string "supertypes", original), (.string "precedences", original)]
  have originals : (setting 1 (.grammar g)).ReturnsOriginals entries {} g b.names := {
    keys := by
      have titles : entries.keys = [Section.externals, .rules, .extras, .inline, .conflicts, .word,
        .supertypes, .precedences].map fun part ↦ .string part.title := rfl
      intro key hk
      obtain ⟨part, -, rfl⟩ := List.mem_map.1 (titles ▸ hk)
      exact ⟨part, rfl⟩
    name := by simp [Description.get, entries, Section.title]
    functions := fun part hp ↦ by
      refine ⟨f, ?_, second'⟩
      cases part with
      | name | rules => simp at hp
      | externals | extras | inline | conflicts | word | supertypes | precedences =>
        simp [Description.get, entries, Section.title, original, f]
    word := fun f' eq s hs ↦ by
      have same : Description.get entries .word = .callable f := by
        simp [Description.get, entries, Section.title, original, f]
      cases same.symm.trans eq
      cases hs
    rules := by
      have same : Description.get entries .rules = .mapping ⟨.step 0, given, false⟩ := by
        simp [Description.get, entries, Section.title]
      refine ⟨given, by rw [same]; rfl, keys ▸ List.Perm.swap _ _ _, fun entry he ↦
        ⟨f, ?_, second'⟩⟩
      simp only [given, List.mem_cons, List.not_mem_nil, or_false] at he
      rcases he with rfl | rfl <;> rfl }
  have extended : (setting 1 (.grammar g)).base = .grammar b.grammar := rfl
  have asMade : b.grammar.AsMade {} := ⟨⟨rfl, fun _ _ _ ↦ rfl, fun _ _ _ _ _ ↦ rfl⟩, rfl⟩
  have read : (({} : Store Unit).read second).object? = some entries := rfl
  obtain ⟨heir, after, collected, problems, -, -, content, equal⟩ :=
    b.overridden_by_originals rfl symbols extended rfl asMade (fun _ _ _ _ ↦ ⟨rfl, rfl⟩) read
      originals
  exact ⟨b, heir, after, rfl, rfl, collected, problems, content, equal.trans self⟩

end CleanBuild

end GrammarDoc
