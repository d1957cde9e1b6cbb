import GrammarDoc.Proofs.Acceptance
import GrammarDoc.Proofs.Closure
import GrammarDoc.Proofs.Copies

/-!
# Inheritance

What a section comes to that is not given when a grammar is extended. The grammar is one that was
built without a base and without a problem: its names have the right form and are distinct, so that
they can be declared once more, and its sections can be gone through.
-/

namespace GrammarDoc

open Build (Yields MadeOf)

variable {Code : Type} {posture : Posture} {before after : Journal Code}

/-! ### Grammars without a base -/

/-- The names of the symbols that externals stand for are, in order, among those they declare. -/
theorem Externals.sublist_names {v : Value Code} {rules : List (Rule (Value Code))}
    (h : Gives v rules) : (Section.externals.namesIn (rules.map .rule)).Sublist (names v) := by
  rcases h with ⟨rfl, rfl⟩ | ⟨items, array, gives⟩ | ⟨entries, object, gives⟩
  · exact List.nil_sublist _
  · rw [names, array]
    clear array
    induction gives with
    | nil => exact List.nil_sublist _
    | @cons raw r items rules first _ ih =>
      have same : itemName? raw = Value.symbolName? (.rule r) := by
        rw [itemName?, first.1]
        cases r <;> rfl
      change ((Value.rule r :: rules.map Value.rule).filterMap Value.symbolName?).Sublist
        ((raw :: items).filterMap itemName?)
      rw [List.filterMap_cons, List.filterMap_cons, same]
      cases Value.symbolName? (.rule r) with
      | none => exact ih
      | some name => exact ih.cons_cons name
  · rw [names, Value.array?_of_object? object, object]
    clear object
    induction gives with
    | nil => exact List.nil_sublist _
    | @cons entry r entries rules first _ ih =>
      change ((Value.rule r :: rules.map Value.rule).filterMap Value.symbolName?).Sublist
        (entry.1 :: Table.keys entries)
      rw [List.filterMap_cons]
      cases r with
      | symbol name =>
        rw [first.2.2 name rfl]
        exact ih.cons_cons entry.1
      | bare | string | pattern | blank | group | wrap | prec | field | aliased =>
        exact ih.cons entry.1

private theorem Externals.length_names_le {v : Value Code} {rules : List (Rule (Value Code))}
    (h : Gives v rules) : (names v).length ≤ rules.length := by
  rcases h with ⟨rfl, rfl⟩ | ⟨items, array, gives⟩ | ⟨entries, object, gives⟩
  · exact Nat.le_refl _
  · rw [names, array, ← gives.length_eq]
    exact List.length_filterMap_le _ _
  · rw [names, Value.array?_of_object? object, object, ← gives.length_eq]
    exact Nat.le_of_eq (List.length_map _)

namespace Setting

variable {setting : Setting Code} {description : Value Code} {entries : Table Code (Value Code)}
  {start : Store Code}
  (anew : setting.hasBase = false)

include anew

/-- Without a base, the names of the external symbols are, in order, among those declared, which are
new and distinct, and no more than there are externals. -/
theorem sublist_of_yields_externals {items : Items (Value Code)}
    (h : Yields .failFast (setting.externals entries) before items after)
    (found : setting.Finds description start entries before.store) :
    ∃ names : List (Value Code),
      (after.names = before.names ++ names.map fun name ↦ (name, "externals")) ∧
      (Section.externals.namesIn items.toList).Sublist names ∧
      names.length ≤ items.toList.length ∧ names.Nodup ∧
      ∀ name ∈ names, name.isValidName = true ∧ name ∉ before.names.keys := by
  rcases (externals_cases h found).2 with
    ⟨-, inherits, declares⟩ | ⟨-, w, between, rules, same, checked, eq⟩
  · have none : items.toList = [] := by
      rcases inherits with ⟨-, none⟩ | ⟨base, -⟩
      · exact none
      · rw [anew] at base
        cases base
    rw [none] at declares ⊢
    obtain ⟨-, rfl⟩ := (Build.yields_pure _ _).1 declares
    refine ⟨[], (List.append_nil _).symm, List.nil_sublist _, Nat.le_refl _, List.nodup_nil,
      fun _ found ↦ ?_⟩
    cases found
  · obtain ⟨gives, distinct, new, rfl⟩ := (Externals.yields_validate w rules).1 checked
    have length : items.toList.length = rules.length := by rw [eq, List.length_map]
    refine ⟨Externals.names w, by rw [← same]; rfl, eq ▸ Externals.sublist_names gives,
      length ▸ Externals.length_names_le gives, distinct,
      fun name found ↦ ⟨Externals.valid_names gives name found, same ▸ new name found⟩⟩

/-- Without a base, the names of the rules are declared, which are new and distinct. There is a rule
at least. -/
theorem names_of_yields_rules {rules : Entries (Value Code)}
    (h : Yields .failFast (setting.rules entries) before rules after)
    (found : setting.Finds description start entries before.store) :
    (after.names = before.names ++ (Table.keys rules.toList).map fun name ↦ (name, "rule")) ∧
      (Table.keys rules.toList).Nodup ∧
      (∀ name ∈ Table.keys rules.toList, name.isValidName = true ∧ name ∉ before.names.keys) ∧
      rules.toList ≠ [] ∧ ∀ entry ∈ rules.toList, ∃ r, entry.2 = .rule r := by
  obtain ⟨-, inherited, inherits, checked⟩ := rules_cases h found
  obtain rfl : inherited = [] := by
    rcases inherits with ⟨-, none⟩ | ⟨base, -⟩
    · exact none
    · rw [anew] at base
      cases base
  obtain ⟨given, -, checked⟩ := (Rules.yields_validate _ _ _ _).1 checked
  obtain ⟨declared, functions, returned, store, defined, declares, ⟨gives, distinct, new⟩,
    ⟨called, results⟩, ⟨eq, nonempty⟩, resolved⟩ := (Rules.yields_fromEntries _ _ _ _ _).1 checked
  obtain ⟨-, rfl⟩ := (Build.yields_pure _ _).1 declares
  obtain ⟨-, rfl⟩ := (Rules.yields_resolve _ _).1 resolved
  have keys : given.filterMap (Rules.entryName? []) = Table.keys given :=
    List.filterMap_eq_map_iff_forall_eq_some.2 fun _ _ ↦ rfl
  have names : defined.map Prod.fst = Table.keys given :=
    (Rules.names_of_resultGives results).trans
      ((Rules.keys_mapM_returned called).trans (Rules.names_of_entryGives gives))
  have valid : ∀ name ∈ Table.keys given, name.isValidName = true := by
    intro name found
    obtain ⟨entry, he, rfl⟩ := List.mem_map.1 found
    exact (Rules.exists_entryGives_iff.1 ⟨functions, gives⟩ entry he).1
  rw [keys] at distinct new ⊢
  have merged : rules.toList = defined.map fun entry ↦ (entry.1, .rule entry.2) := by
    rw [eq, Rules.merged_eq_append, List.nil_append]
    · exact fun entry he ↦ valid entry.1 (names ▸ List.mem_map_of_mem he)
    · rw [names]
      exact distinct
  have same : Table.keys rules.toList = Table.keys given := by
    rw [← names, merged, Table.keys, List.map_map]
    rfl
  rw [same]
  refine ⟨rfl, distinct, fun name found ↦ ⟨valid name found, new name found⟩, fun none ↦ ?_,
    fun entry he ↦ ?_⟩
  · rw [none] at nonempty
    cases nonempty
  · rw [merged] at he
    obtain ⟨definition, -, rfl⟩ := List.mem_map.1 he
    exact ⟨_, rfl⟩

end Setting

/-- A grammar that was built without a base and without a problem, while some names were declared:
those of its external symbols and of its rules, and all that its rules refer to. -/
structure Grammar.Coherent (g : Grammar (Value Code)) (names : List (Value Code)) : Prop where
  wellFormed : g.WellFormed
  distinct : names.Nodup
  valid : ∀ name ∈ names, name.isValidName = true
  declared : (g.namesOf .externals ++ g.namesOf .rules).Sublist names
  nonempty : g.rules.toList ≠ []
  definitions : ∀ entry ∈ g.rules.toList, ∃ r, entry.2 = .rule r
  mentions : ∀ entry ∈ g.rules.toList, ∀ name ∈ entry.2.mentions, name ∈ names
  precedences : ∀ name ∈ g.namesOf .precedences, name ∈ names

/-- The names that the rules of a grammar refer to, each once, in the order in which a walk through
the rules first meets them. -/
def Grammar.mentions (g : Grammar (Value Code)) : List (Value Code) :=
  (g.rules.toList.flatMap fun entry ↦ entry.2.mentions).foldl Rule.addName []

/-- What a build without a base makes, if it reports nothing. -/
theorem CleanBuild.coherent (b : CleanBuild Code) (anew : b.setting.hasBase = false) :
    b.grammar.Coherent b.names.keys := by
  obtain ⟨journal, start, finish, stages, names⟩ := b.exists_stages
  obtain ⟨yields, -⟩ := b.exists_yields.choose_spec
  obtain ⟨wellFormed, -⟩ := Setting.wellFormed_of_yields_assemble yields fun base ↦ by
    rw [anew] at base
    cases base
  obtain ⟨externals, first, sublist, -, distinct, valid⟩ :=
    Setting.sublist_of_yields_externals anew stages.externals (stages.finds _)
  obtain ⟨second, distinct', valid', nonempty, definitions⟩ :=
    Setting.names_of_yields_rules anew stages.rules (stages.finds _)
  have finished : (finish .rules).names = b.names := (stages.defined .rules (by decide)).trans names
  have keys₁ : (start .rules).names.keys = externals := by
    rw [stages.declared, first, stages.undeclared]
    simp [Table.keys, Function.comp_def]
  have keys : b.names.keys = externals ++ b.grammar.namesOf .rules := by
    rw [← finished, second, ← keys₁]
    simp [Table.keys, Grammar.namesOf, Function.comp_def]
  have valid : ∀ name ∈ b.names.keys, name.isValidName = true := by
    intro name found
    rw [keys] at found
    rcases List.mem_append.1 found with external | rule
    · exact (valid name external).1
    · exact (valid' name rule).1
  refine ⟨wellFormed, ?_, valid, ?_, nonempty, definitions, ?_, ?_⟩
  · rw [keys]
    refine List.nodup_append.2 ⟨distinct, distinct', fun a ha b hb eq ↦ ?_⟩
    exact (valid' b hb).2 (keys₁ ▸ eq ▸ ha)
  · rw [keys]
    exact sublist.append (List.Sublist.refl _)
  · intro entry he name hn
    have mentions :=
      Setting.mentions_of_yields_rules stages.rules (stages.finds _) entry he name hn
    rw [finished] at mentions
    exact mentions (.inr valid)
  · intro name hn
    rcases b.has_or_inherits (by decide) hn with has | ⟨base, -⟩
    · rwa [Table.has_eq_isIn, Value.isIn_iff_mem valid] at has
    · rw [anew] at base
      cases base

/-! ### Steps that inherit -/

namespace Build

/-- Names that are new and distinct are declared one after another. -/
theorem yields_forM_declare {names : List (Value Code)} {tag : String} {within : Option String}
    (valid : ∀ name ∈ names, name.isValidName = true)
    (new : (before.names.keys ++ names).Nodup) :
    Yields posture (names.forM fun name ↦ discard (declare name tag within)) before ()
      (before.declaring tag names) := by
  induction names generalizing before with
  | nil => exact (yields_pure _ _).2 ⟨rfl, (before.declaring_nil tag)⟩
  | cons name rest ih =>
    have here := valid name List.mem_cons_self
    have absent : before.names.has name = false := by
      rw [← Bool.not_eq_true, Table.has_validName _ here]
      exact fun found ↦ (List.nodup_append.1 new).2.2 name found name List.mem_cons_self rfl
    have free : before.names.find? name = none := by
      rw [← Option.isNone_iff_eq_none, ← Option.not_isSome, Table.isSome_find?, absent]
      rfl
    have first : Yields posture (declare name tag within) before true
        (before.declaring tag [name]) :=
      (yields_declare name tag within true).2 ⟨Value.canBeKey_of_isValidName here, by
        rw [absent, free]
        exact ⟨rfl, rfl⟩⟩
    have more := @ih (before.declaring tag [name])
      (fun other ho ↦ valid other (List.mem_cons_of_mem _ ho)) (by
        rw [Journal.keys_declaring, List.append_assoc]
        exact new)
    rw [Journal.declaring_append] at more
    exact (yields_bind _ _ _).2 ⟨(), _, (yields_discard _ _).2 ⟨true, first⟩, more⟩

/-- Names are looked up one after another; each that is not declared is reported. -/
theorem exists_yields_forM_requireDeclared (context : String) (within : Option String)
    (before : Journal Code) {names : List (Value Code)}
    (keys : ∀ name ∈ names, name.canBeKey = true) :
    ∃ after, Yields .collect (names.forM fun name ↦ discard (requireDeclared context within name))
        before () after ∧ after.names = before.names ∧ after.store = before.store ∧
      after.problems = before.problems ++ (names.filter fun name ↦ !before.names.has name).map
        fun name ↦ ⟨.undeclared context name, attribution context within⟩ := by
  induction names generalizing before with
  | nil => exact ⟨before, (yields_pure _ _).2 ⟨rfl, rfl⟩, rfl, rfl, (List.append_nil _).symm⟩
  | cons name rest ih =>
    have here := keys name List.mem_cons_self
    have others := fun other ho ↦ keys other (List.mem_cons_of_mem _ ho)
    let p : Problem Code := ⟨.undeclared context name, attribution context within⟩
    cases has : before.names.has name with
    | true =>
      have first : Yields .collect (requireDeclared context within name) before true before :=
        (yields_requireDeclared _ _ _ _).2 (by simp [has, here])
      obtain ⟨after, more, names, store, problems⟩ := @ih before others
      refine ⟨after, (yields_bind _ _ _).2 ⟨(), _, (yields_discard _ _).2 ⟨true, first⟩, more⟩,
        names, store, ?_⟩
      rw [problems, List.filter_cons_of_neg (by simp [has])]
    | false =>
      have first : Yields .collect (requireDeclared context within name) before false
          (before.reported p) := (yields_requireDeclared _ _ _ _).2 (by simp [has, here, p])
      obtain ⟨after, more, names, store, problems⟩ := @ih (before.reported p) others
      refine ⟨after, (yields_bind _ _ _).2 ⟨(), _, (yields_discard _ _).2 ⟨false, first⟩, more⟩,
        names, store, ?_⟩
      rw [problems, List.filter_cons_of_pos (by simp [has]), List.map_cons]
      exact (List.append_assoc _ [p] _)

/-- Going through a value that has elements yields these. -/
theorem yields_elements (v : Value Code) (items : List (Value Code)) :
    Yields posture (elements v) before items after ↔
      (before.store.present v).elements = .ok items ∧ after = before := by
  unfold elements
  simp only [yields_bind, yields_present, yields_ofFault]
  constructor
  · rintro ⟨_, _, ⟨rfl, rfl⟩, all⟩
    exact all
  · rintro all
    exact ⟨_, _, ⟨rfl, rfl⟩, all⟩

/-- Steps that leave the journal yield one after another what each yields. -/
theorem yields_mapM {α β : Type} {step : α → Build Code β} {f : α → β} {items : List α}
    (h : ∀ a ∈ items, Yields posture (step a) before (f a) before) :
    Yields posture (items.mapM step) before (items.map f) before := by
  induction items with
  | nil => exact (yields_pure _ _).2 ⟨rfl, rfl⟩
  | cons a rest ih =>
    rw [List.forall_mem_cons] at h
    exact (yields_mapM_cons _ _ _ _).2 ⟨f a, before, rest.map f, h.1, ih h.2, rfl⟩

private theorem exists_yields_mapM {α β : Type} {step : α → Build Code β} {items : List α}
    (h : ∀ a ∈ items, ∃ b, Yields posture (step a) before b before) :
    ∃ bs, Yields posture (items.mapM step) before bs before := by
  induction items with
  | nil => exact ⟨[], (yields_pure _ _).2 ⟨rfl, rfl⟩⟩
  | cons a rest ih =>
    obtain ⟨b, first⟩ := h a List.mem_cons_self
    obtain ⟨bs, more⟩ := ih fun other ho ↦ h other (List.mem_cons_of_mem _ ho)
    exact ⟨b :: bs, (yields_mapM_cons _ _ _ _).2 ⟨b, before, bs, first, more, rfl⟩⟩

end Build

namespace Store

variable (store : Store Code)

private theorem isSome_array?_present (v : Value Code) :
    (store.present v).array?.isSome = v.array?.isSome := by
  obtain same | ⟨new, eq, -⟩ := store.present_cases
  · simp [same]
  · rw [eq]
    cases v with
    | missing | bool | int | double | string | list | tuple | mapping | pattern | callable
    | builder | rule | grammar | references => simp [Value.replaced, Value.array?]

private theorem exists_copy_list (copying : Place) (list : Items (Value Code)) :
    ∃ copy, (store.copy copying (.list list)).1 = .list copy := by
  rw [copy_fst]
  obtain same | ⟨new, eq, -⟩ := store.present_cases
  · rw [same, id, Value.copied]
    exact ⟨_, rfl⟩
  · rw [eq, Value.replaced, Value.copied]
    exact ⟨_, rfl⟩

end Store

private theorem Rule.mentionsOfAll_eq_flatMap (rules : List (Rule (Value Code))) :
    mentionsOfAll rules = rules.flatMap fun r ↦ (Value.rule r).mentions := by
  induction rules with
  | nil => rfl
  | cons r rest ih => rw [mentionsOfAll, ih, List.flatMap_cons, Value.mentions]

/-- The names that rules refer to at present are, at present, those that they refer to. -/
theorem Rules.mentionsOfAll_of_present {store : Store Code} {definitions : Definitions Code}
    {bodies : List (Rule (Value Code))}
    (present : definitions.map (fun entry ↦ store.present entry.2) = bodies.map .rule) :
    Rule.mentionsOfAll bodies =
      definitions.flatMap fun entry ↦ entry.2.mentions.map store.present := by
  have same : (bodies.map .rule).flatMap Value.mentions = Rule.mentionsOfAll bodies := by
    rw [Rule.mentionsOfAll_eq_flatMap, List.flatMap_map]
  rw [← same, ← present, List.flatMap_map]
  exact List.flatMap_congr fun entry _ ↦ store.mentions_present entry.2

/-- Values that are rules are the values of some rules. -/
theorem Value.exists_eq_map_rule (vs : List (Value Code)) (h : ∀ v ∈ vs, ∃ r, v = .rule r) :
    ∃ rules : List (Rule (Value Code)), vs = rules.map .rule := by
  induction vs with
  | nil => exact ⟨[], rfl⟩
  | cons v rest ih =>
    obtain ⟨r, rfl⟩ := h v List.mem_cons_self
    obtain ⟨rules, rfl⟩ := ih fun w hw ↦ h w (List.mem_cons_of_mem _ hw)
    exact ⟨r :: rules, rfl⟩

private theorem Value.exists_elements_of_array {v : Value Code} (h : v.array?.isSome = true) :
    ∃ items, v.elements = .ok items := by
  cases v with
  | list | tuple => exact ⟨_, rfl⟩
  | missing | bool | int | double | string | mapping | pattern | callable | builder | rule
  | grammar | references => cases h

namespace Setting

variable {setting : Setting Code} {entries : Table Code (Value Code)}

private theorem exists_yields_symbols (place : Place) {names : Value Code}
    (array : (before.store.present names).array?.isSome = true) :
    ∃ w, Yields posture (symbols place names) before w before := by
  obtain ⟨items, elements⟩ := Value.exists_elements_of_array array
  have gone : Yields posture (Build.elements names) before items before :=
    (Build.yields_elements _ _).2 ⟨elements, rfl⟩
  exact ⟨_, (Build.yields_bind _ _ _).2 ⟨items, before, gone, (Build.yields_pure _ _).2 ⟨rfl, rfl⟩⟩⟩

/-- What the function of a section is passed is yielded, if what the base has is an array where it
is gone through, and so are the conflicts in it. -/
theorem exists_yields_offered {part : Section} {inherited : Value Code}
    (array : setting.hasBase = true → part ∈ [Section.inline, .supertypes] →
      (before.store.present inherited).array?.isSome = true)
    (groups : setting.hasBase = true → part = .conflicts →
      ∃ items, (before.store.present inherited).elements = .ok items ∧
        ∀ group ∈ items, group.array?.isSome = true) :
    ∃ w, Yields posture (setting.offered part inherited) before w before := by
  unfold Setting.offered
  split
  · next base =>
    cases part with
    | inline | supertypes => exact exists_yields_symbols _ (array base (by decide))
    | conflicts =>
      obtain ⟨items, elements, arrays⟩ := groups base rfl
      have each : ∀ pair ∈ items.zipIdx, ∃ w, Yields posture
          (symbols ((setting.made "offered" "conflicts").item pair.2) pair.1) before w before := by
        intro pair mem
        refine exists_yields_symbols _ ?_
        rw [Store.isSome_array?_present]
        exact arrays pair.1 (List.fst_mem_of_mem_zipIdx mem)
      obtain ⟨ws, all⟩ := Build.exists_yields_mapM each
      have looked : Yields posture (Build.elements inherited) before items before :=
        (Build.yields_elements _ _).2 ⟨elements, rfl⟩
      exact ⟨_, (Build.yields_bind _ _ _).2 ⟨items, before, looked, (Build.yields_bind _ _ _).2
        ⟨ws, before, all, (Build.yields_pure _ _).2 ⟨rfl, rfl⟩⟩⟩⟩
    | name | externals | rules | extras | word | precedences =>
      exact ⟨_, (Build.yields_pure _ _).2 ⟨rfl, rfl⟩⟩
  · exact ⟨_, (Build.yields_pure _ _).2 ⟨rfl, rfl⟩⟩

variable {g : Grammar (Value Code)} (extended : setting.base = .grammar g)

include extended

/-- The name of the base is inherited. -/
theorem yields_name_of_missing (missing : Description.get entries .name = .missing) :
    Yields posture (setting.name entries) before g.name before := by
  have base : setting.hasBase = true := by rw [hasBase, extended]
  unfold Setting.name
  rw [missing, base]
  exact (yields_ofBase _ _).2 ⟨by rw [extended]; rfl, rfl⟩

/-- The externals of the base are inherited as they are at present, in a new list. -/
theorem yields_inheritedExternals (untouched : g.Untouched before.store) :
    Yields posture setting.inheritedExternals before
      ⟨setting.made "offered" "externals", g.externals.toList.map before.store.present, false⟩
      before := by
  have base : setting.hasBase = true := by rw [hasBase, extended]
  unfold inheritedExternals
  rw [base, if_pos rfl]
  refine (Build.yields_bind _ _ _).2 ⟨.list g.externals, before, (yields_ofBase _ _).2
    ⟨by rw [extended]; rfl, rfl⟩, (Build.yields_bind _ _ _).2 ⟨_, before, ?_,
    (Build.yields_pure _ _).2 ⟨rfl, rfl⟩⟩⟩
  exact (Build.yields_elements _ _).2
    ⟨before.store.elements_present (untouched.lists .externals _ rfl), rfl⟩

/-- The rules of the base are inherited as they were made. -/
theorem yields_inheritedRules (untouched : g.Untouched before.store) :
    Yields posture setting.inheritedRules before g.rules.toList before := by
  have base : setting.hasBase = true := by rw [hasBase, extended]
  have object : (before.store.read (.mapping g.rules)).object? = some g.rules.toList := by
    simp [Store.read, Store.entries, untouched.rules, Value.object?]
  unfold inheritedRules
  rw [base, if_pos rfl]
  refine (Build.yields_bind _ _ _).2 ⟨.mapping g.rules, before, (yields_ofBase _ _).2
    ⟨by rw [extended]; rfl, rfl⟩, (Build.yields_bind _ _ _).2 ⟨_, before,
    (Build.yields_read _ _).2 ⟨rfl, rfl⟩, ?_⟩⟩
  rw [object]
  exact (Build.yields_pure _ _).2 ⟨rfl, rfl⟩

/-- The externals of the base are inherited, and the names of its symbols are declared. -/
theorem yields_externals_of_missing (missing : Description.get entries .externals = .missing)
    (untouched : g.Untouched before.store)
    (valid : ∀ name ∈ g.namesOf .externals, name.isValidName = true)
    (new : (before.names.keys ++ g.namesOf .externals).Nodup) :
    Yields posture (setting.externals entries) before
      ⟨setting.made "offered" "externals", g.externals.toList.map before.store.present, false⟩
      (before.declaring "externals" (g.namesOf .externals)) := by
  have inherited : Yields posture setting.inheritedExternals before _ before :=
    yields_inheritedExternals extended untouched
  have same : (g.externals.toList.map before.store.present).filterMap Value.symbolName? =
      g.namesOf .externals := by
    refine Eq.trans ?_ ((List.map_congr_left fun name found ↦
      before.store.present_of_isValidName (valid name found)).trans (List.map_id _))
    change _ = (g.externals.toList.filterMap Value.symbolName?).map before.store.present
    rw [List.filterMap_map, List.map_filterMap]
    exact List.filterMap_congr fun v _ ↦ before.store.symbolName?_present v
  have declared : Yields posture ((g.namesOf .externals).forM fun name ↦
      discard (Build.declare name "externals" none)) before ()
      (before.declaring "externals" (g.namesOf .externals)) :=
    Build.yields_forM_declare valid new
  unfold Setting.externals
  rw [missing]
  refine (Build.yields_bind _ _ _).2 ⟨_, before, inherited, (Build.yields_bind _ _ _).2
    ⟨(), _, ?_, (Build.yields_pure _ _).2 ⟨rfl, rfl⟩⟩⟩
  unfold Externals.inherit
  rw [same]
  exact declared

/-- The rules of the base are inherited. Their names are declared, and what they refer to is looked
up again. -/
theorem exists_yields_rules_of_missing {names : List (Value Code)} (coherent : g.Coherent names)
    (missing : Description.get entries .rules = .missing) (untouched : g.Untouched before.store)
    (free : before.store.Spares [setting.made "empty" "rules"])
    (new : (before.names.keys ++ g.namesOf .rules).Nodup) :
    ∃ after, Yields .collect (setting.rules entries) before
        ⟨setting.made "result" "rules", g.rules.toList, false⟩ after ∧
      (after.names.keys = before.names.keys ++ g.namesOf .rules) ∧ after.store = before.store ∧
      after.problems = before.problems ++
        (g.mentions.filter fun name ↦ !name.isIn (before.names.keys ++ g.namesOf .rules)).map
          fun name ↦ ⟨.undeclared "rules" name, some "rules"⟩ := by
  have inherited : Yields .collect setting.inheritedRules before g.rules.toList before :=
    yields_inheritedRules extended untouched
  have declared : Yields .collect (Rules.inherit g.rules.toList) before ()
      (before.declaring "rule" (g.namesOf .rules)) :=
    Build.yields_forM_declare coherent.wellFormed.rules new
  -- The rules are looked at as they are at present, where they refer to the same names.
  have same : ∀ entry ∈ g.rules.toList, (before.store.present entry.2).mentions =
      entry.2.mentions := by
    intro entry he
    rw [before.store.mentions_present]
    refine (List.map_congr_left fun name hn ↦ ?_).trans (List.map_id _)
    have valid := coherent.valid name (coherent.mentions entry he name hn)
    exact before.store.present_of_isValidName valid
  obtain ⟨rules, eq⟩ := Value.exists_eq_map_rule
    (g.rules.toList.map fun entry ↦ before.store.present entry.2) fun v hv ↦ by
      obtain ⟨entry, he, rfl⟩ := List.mem_map.1 hv
      obtain ⟨r, eq⟩ := coherent.definitions entry he
      rw [eq]
      exact before.store.exists_present_rule r
  have mentions : (Rule.mentionsOfAll rules).foldl Rule.addName [] = g.mentions := by
    unfold Grammar.mentions
    rw [Rule.mentionsOfAll_eq_flatMap, ← List.flatMap_map, ← eq, List.flatMap_map]
    rw [List.flatMap_congr same]
  have keys : ∀ name ∈ g.mentions, name.canBeKey = true := by
    intro name hn
    rcases Rule.mem_of_mem_foldl_addName hn with old | mentioned
    · cases old
    · obtain ⟨entry, he, hn⟩ := List.mem_flatMap.1 mentioned
      exact Value.canBeKey_of_isValidName (coherent.valid name (coherent.mentions entry he name hn))
  obtain ⟨after, resolves, sameNames, sameStore, problems⟩ :=
    Build.exists_yields_forM_requireDeclared "rules" none
      (before.declaring "rule" (g.namesOf .rules)) keys
  have resolved : Yields .collect (Rules.resolve g.rules.toList)
      (before.declaring "rule" (g.namesOf .rules)) () after := by
    refine (Build.yields_bind _ _ _).2 ⟨_, _, (Build.yields_mapM_present Prod.snd _).2 ⟨rfl, rfl⟩,
      (Build.yields_bind _ _ _).2 ⟨g.mentions, _, (Build.yields_ofOutcome _ _).2 ⟨?_, rfl⟩,
      resolves⟩⟩
    exact (Rules.symbols_eq_ok _ _).2 ⟨rules, eq, mentions.symm⟩
  have validated : Yields .collect (Rules.validate setting g.rules.toList
      (.mapping ⟨setting.made "empty" "rules", [], false⟩)) before g.rules.toList after := by
    have some : ¬ g.rules.toList.isEmpty = true := by simpa using coherent.nonempty
    change Yields .collect (Rules.fromEntries setting g.rules.toList _ []) before _ after
    refine (Build.yields_bind _ _ _).2 ⟨(), _, declared, (Build.yields_bind _ _ _).2 ⟨[], _,
      (Build.yields_pure _ _).2 ⟨rfl, rfl⟩, (Build.yields_bind _ _ _).2 ⟨[], _,
      (Build.yields_pure _ _).2 ⟨rfl, rfl⟩, ?_⟩⟩⟩
    rw [List.foldl_nil, if_neg some]
    exact (Build.yields_bind _ _ _).2 ⟨(), after, resolved, (Build.yields_pure _ _).2 ⟨rfl, rfl⟩⟩
  have looked := Store.present_empty_mapping free
  refine ⟨after, ?_, ?_, sameStore, ?_⟩
  · refine yields_rules_iff_validate.2 ⟨_, inherited, ?_, rfl⟩
    rwa [givenRules, missing, looked]
  · rw [sameNames, Journal.keys_declaring]
  · rw [problems]
    simp only [Table.has_eq_isIn, Journal.keys_declaring]
    rfl

/-- A section that only uses names declared before is copied from the base. -/
theorem exists_yields_part_of_missing {part : Section} {list : Items (Value Code)}
    {validate : Value Code → Build Code (List (Value Code))}
    (missing : Description.get entries part = .missing)
    (attributed : (Value.grammar g).attribute? part.title = .ok (.list list))
    (groups : part = .conflicts → before.store.lists.lookup list.place = none ∧
      ∀ group ∈ list.toList, group.array?.isSome = true) :
    ∃ copy, (before.store.copy (setting.made "copy" part.title) (.list list)).1 = .list copy ∧
      Yields posture (setting.part entries part validate) before copy { before with
        store := (before.store.copy (setting.made "copy" part.title) (.list list)).2 } := by
  have base : setting.hasBase = true := by rw [hasBase, extended]
  have offered : ∃ w, Yields posture (setting.offered part (.list list)) before w before := by
    refine exists_yields_offered (fun _ _ ↦ before.store.isSome_array?_present _) fun _ here ↦ ?_
    obtain ⟨untouched, arrays⟩ := groups here
    refine ⟨_, before.store.elements_present untouched, fun group mem ↦ ?_⟩
    obtain ⟨made, hm, rfl⟩ := List.mem_map.1 mem
    exact (before.store.isSome_array?_present made).trans (arrays made hm)
  obtain ⟨w, offers⟩ := offered
  obtain ⟨copy, copied⟩ :=
    before.store.exists_copy_list (setting.made "copy" part.title) list
  refine ⟨copy, copied, ?_⟩
  have inherited : Yields posture (setting.inherited part) before (.list list) before := by
    unfold Setting.inherited
    rw [base, if_pos rfl]
    exact (yields_ofBase _ _).2 ⟨by rw [extended, attributed], rfl⟩
  unfold Setting.part
  rw [missing, base]
  refine (Build.yields_bind _ _ _).2 ⟨_, before, inherited, (Build.yields_bind _ _ _).2
    ⟨w, before, offers, (Build.yields_bind _ _ _).2 ⟨.list copy, _,
      (Build.yields_copy _ _ _).2 ⟨copied.symm, rfl⟩, (Build.yields_pure _ _).2 ⟨rfl, rfl⟩⟩⟩⟩

/-- The word is copied from the base. -/
theorem yields_word_of_missing (missing : Description.get entries .word = .missing) :
    Yields posture (setting.word entries) before
      (before.store.copy (setting.made "copy" "word") g.word).1 { before with
        store := (before.store.copy (setting.made "copy" "word") g.word).2 } := by
  have base : setting.hasBase = true := by rw [hasBase, extended]
  have inherited : Yields posture (setting.inherited .word) before g.word before := by
    unfold Setting.inherited
    rw [base, if_pos rfl]
    exact (yields_ofBase _ _).2 ⟨by rw [extended]; rfl, rfl⟩
  unfold Setting.word
  rw [missing, base]
  exact (Build.yields_bind _ _ _).2 ⟨_, before, inherited, (Build.yields_copy _ _ _).2
    ⟨rfl, rfl⟩⟩

end Setting

end GrammarDoc
