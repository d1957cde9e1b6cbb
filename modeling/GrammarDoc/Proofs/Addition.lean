import GrammarDoc.Proofs.Collecting
import GrammarDoc.Proofs.EmptyExtension
import GrammarDoc.Proofs.Interference
import GrammarDoc.Proofs.Persistence
import GrammarDoc.Proofs.Presence
import GrammarDoc.Proofs.Settled

/-!
# Extensions that only add rules

When a grammar is extended by rules alone, all else is inherited: the name and the externals as they
are, and every section after the rules as a copy. The names that the grammar tells are declared
anew. So what there is to report, and in which order the rules stand, is settled by the rules.
-/

namespace GrammarDoc

open Build (Yields MadeOf)

variable {Code : Type} {posture : Posture} {before after : Journal Code}

/-! ### Steps that only look -/

/-- A step that only looks leaves the journal as it is. -/
theorem Build.Yields.unmoved {α : Type} {step : Build Code α} {a : α}
    (h : Yields posture step before a after) (made : MadeOf (· = Move.look) step) :
    after = before := by
  have works {β : Type} {step : Exec Code β} (h : Move.Works (· = Move.look) step)
      (store : Store Code) : (step.start store).2 = store := by
    rcases h store with same | moved
    · exact same
    · cases moved
  induction made generalizing before after with
  | pure => exact ((yields_pure _ _).1 h).2
  | bind _ _ ih ih' =>
    obtain ⟨_, between, first, second⟩ := (yields_bind _ _ _).1 h
    rw [ih' _ second, ih first]
  | fault => exact absurd h (yields_throw _ _)
  | report moved => cases moved
  | declare moved => cases moved
  | began moved => cases moved
  | lookNames | look => exact (Prod.mk.inj h).2.symm
  | @absorb _ title step calls =>
    obtain ⟨outcome, between, attempted, next⟩ := (yields_bind _ _ _).1 h
    obtain ⟨rfl, rfl⟩ := (yields_attempt _ _).1 attempted
    rw [works calls.works] at next
    split at next
    · exact ((yields_pure _ _).1 next).2
    · next p raised => cases calls.reports _ _ raised
    · exact absurd next (yields_throw _ _)
  | perform _ _ working =>
    obtain ⟨store, returned, rfl⟩ := (yields_perform _ _).1 h
    have same := works working before.store
    rw [returned] at same
    dsimp only at same
    rw [same]

/-! ### Grammars that are kept -/

/-- Whether the collections in a grammar are as they were made, and can be compared: nothing in it
stands inside of itself. -/
structure Grammar.Kept (g : Grammar (Value Code)) (store : Store Code) : Prop where
  plain : ∀ part, (g.fields part).Genuine false []
  spared : store.Spares (Value.grammar g).places

namespace Grammar.Kept

variable {g : Grammar (Value Code)} {store : Store Code} (kept : g.Kept store) (part : Section)

include kept

/-- None of the collections in a part of the grammar has been changed. -/
theorem spares : store.Spares (g.fields part).places :=
  fun place found ↦ kept.spared place (places_subset (g.attribute?_title part) place found)

private theorem present_eq : store.present (g.fields part) = g.fields part :=
  Store.present_eq_self (kept.plain part) (kept.spares part)

private theorem copy_eq (copying : Place) :
    store.copy copying (g.fields part) = ((g.fields part).copied copying, store) := by
  have copied := store.copy_fst copying (g.fields part)
  rw [kept.present_eq part] at copied
  exact Prod.ext copied (Store.copy_snd_eq_self copying (kept.plain part) (kept.spares part))

private theorem elements_externals :
    (store.present (.list g.externals)).elements = .ok g.externals.toList :=
  congrArg Value.elements (kept.present_eq .externals)

private theorem object?_rules : (store.read (.mapping g.rules)).object? = some g.rules.toList := by
  have unchanged : g.rules.place ∈ (g.fields .rules).places := by
    change g.rules.place ∈ Value.placesOfMapping g.rules
    rw [Value.placesOfMapping.eq_def]
    exact List.mem_cons_self
  simp [Store.read, Store.entries, (kept.spares .rules _ unchanged).2, Value.object?]

end Grammar.Kept

namespace Setting

variable {setting : Setting Code} {entries : Table Code (Value Code)} {g : Grammar (Value Code)}
  {part : Section} {v : Value Code} (extended : setting.base = .grammar g)

include extended

/-! ### Sections that are not given -/

/-- What a build of an extension has as its base. -/
theorem hasBase_eq_true : setting.hasBase = true := by rw [hasBase, extended]

/-- A section after the rules that is not given comes to a copy. -/
theorem of_goThrough_of_missing (kept : g.Kept before.store)
    (missing : Description.get entries part = .missing) (copied : part ∈ Section.afterRules)
    (gone : Yields posture (setting.goThrough entries part) before v after) :
    v = (g.fields part).copied (setting.made "copy" part.title) ∧ after = before := by
  have inherited {w : Value Code} {between : Journal Code}
      (found : Yields posture (setting.inherited part) before w between) :
      w = g.fields part ∧ between = before := by
    obtain ⟨rfl, attributed⟩ := of_yields_inherited found
    have has := attributed (hasBase_eq_true extended)
    rw [extended, g.attribute?_title] at has
    exact ⟨(Except.ok.inj has).symm, rfl⟩
  have copies {w : Value Code} {between : Journal Code}
      (copied : Yields posture
        (Build.perform (Exec.copy (setting.made "copy" part.title) (g.fields part))) before w
        between) :
      w = (g.fields part).copied (setting.made "copy" part.title) ∧ between = before := by
    obtain ⟨rfl, rfl⟩ := (Build.yields_copy _ _ _).1 copied
    rw [kept.copy_eq part]
    exact ⟨rfl, rfl⟩
  have listed (validate : Value Code → Build Code (List (Value Code)))
      (gone : Yields posture (do return .list (← setting.part entries part validate)) before v
        after) :
      v = (g.fields part).copied (setting.made "copy" part.title) ∧ after = before := by
    obtain ⟨items, _, gone, done⟩ := (Build.yields_bind _ _ _).1 gone
    obtain ⟨rfl, rfl⟩ := (Build.yields_pure _ _).1 done
    obtain ⟨w, _, found, rest⟩ := (Build.yields_bind _ _ _).1 gone
    obtain ⟨rfl, rfl⟩ := inherited found
    obtain ⟨offered, between, offering, last⟩ := (Build.yields_bind _ _ _).1 rest
    rw [offering.unmoved (setting.madeOf_offered part _ rfl), missing,
      hasBase_eq_true extended] at last
    obtain ⟨copy, _, copying, done⟩ := (Build.yields_bind _ _ _).1 last
    obtain ⟨rfl, rfl⟩ := copies copying
    split at done
    · next eq =>
      obtain ⟨rfl, rfl⟩ := (Build.yields_pure _ _).1 done
      exact ⟨eq.symm, rfl⟩
    · exact absurd done (Build.yields_throw _ _)
  -- The word is no list and has no check to go through.
  cases part with
  | word =>
    obtain ⟨w, _, found, rest⟩ := (Build.yields_bind _ _ _).1 gone
    obtain ⟨rfl, rfl⟩ := inherited found
    rw [missing, hasBase_eq_true extended] at rest
    exact copies rest
  | extras | inline | conflicts | supertypes | precedences => exact listed _ gone
  | name | externals | rules => simp [Section.afterRules] at copied

/-- Sections after the rules that are not given come to copies. -/
theorem Traverses.of_missing {fields : Section → Value Code} {parts : List Section}
    {description : Value Code} {store : Store Code}
    (h : setting.Traverses description posture fields parts before after)
    (kept : g.Kept store) (here : before.store = store)
    (missing : ∀ part ∈ parts, part ∈ Section.afterRules ∧
      Description.get (Description.given description store) part = .missing) :
    (∀ part ∈ parts,
        fields part = (g.fields part).copied (setting.made "copy" part.title)) ∧
      after.problems = before.problems ∧ after.store = store := by
  induction h with
  | nil journal => exact ⟨fun _ none ↦ absurd none List.not_mem_nil, rfl, here⟩
  | @cons part rest before between after gone _ ih =>
    rw [List.forall_mem_cons] at missing ⊢
    obtain ⟨grammar, begun⟩ := before.exists_begun fields part
    rw [begun, here] at gone
    have kept' : g.Kept (before.began part grammar).store := here ▸ kept
    obtain ⟨eq, rfl⟩ := of_goThrough_of_missing extended kept' missing.1.2 missing.1.1 gone
    obtain ⟨copies, problems, store⟩ := ih here missing.2
    exact ⟨⟨eq, copies⟩, problems, store⟩

end Setting

/-! ### Builds of such extensions -/

/-- Whether a description gives rules and nothing else: a mapping with some entries. -/
def Description.GivesRules (description : Value Code) (store : Store Code)
    (entries : List (Value Code × Value Code)) : Prop :=
  ∃ rules, given description store = [(.string "rules", .mapping rules)] ∧
    (store.mapping rules).toList = entries

/-- The journals after a build has declared the names that a grammar tells: first those of its
externals and then those of its rules. -/
structure Grammar.Redeclares (g : Grammar (Value Code)) (store : Store Code)
    (externals rules : Journal Code) : Prop where
  atExternals : Yields .collect (Externals.inherit g.externals.toList)
    ((({ store } : Journal Code).began .name none).announced .externals g.name) () externals
  atRules : Yields .collect (Rules.inherit g.rules.toList) (externals.announced .rules g.name) ()
    rules

namespace Setting

/-- A build extends a grammar by rules only, and collects all problems. The functions of the rules
change nothing. -/
structure AddsRules (setting : Setting Code) (base : Grammar (Value Code))
    (description : Value Code) (store : Store Code) (entries : List (Value Code × Value Code))
    (g : Grammar (Value Code)) (after : Journal Code) : Prop where
  extended : setting.base = .grammar base
  given : Description.GivesRules description store entries
  still : setting.GivesStill description store
  collected : setting.collect description store = (.ok g, after)

/-- What a grammar is that extends another by rules only, and the problems with it. -/
structure Enlarges (setting : Setting Code) (base : Grammar (Value Code)) (store : Store Code)
    (entries : List (Value Code × Value Code)) (g : Grammar (Value Code))
    (problems : List (Problem Code)) : Prop where
  again : g.again = false ∧ g.rules.again = false ∧ g.externals.again = false
  name : g.name = base.name
  externals : g.externals.toList = base.externals.toList
  copies : ∀ part ∈ Section.afterRules,
    g.fields part = (base.fields part).copied (setting.made "copy" part.title)
  rules : g.rules.toList = Rules.merged base.rules.toList
    (Rules.definedBy setting base.rules.toList store entries)
  problems : ∃ externals first v bodies, base.Redeclares store externals first ∧
    g.rules.toList.map (fun entry ↦ store.present entry.2) = bodies.map .rule ∧
    problems = first.problems ++
      (Rules.problemsWith setting base.rules.toList first.names store entries ++
        Rules.emptiness v g.rules.toList ++ (Rules.missing (first.declaring "rule"
          (Rules.declarations base.rules.toList first.names entries)).names bodies).map
            Rules.undeclared)

variable {setting : Setting Code} {base g : Grammar (Value Code)} {description : Value Code}
  {store : Store Code} {entries : List (Value Code × Value Code)}

private theorem opens_of_givesRules (gives : Description.GivesRules description store entries)
    (h : Yields .collect (Description.check description) { store } () after) :
    after = { store } := by
  obtain ⟨rules, given, -⟩ := gives
  obtain ⟨_, _, reading, next⟩ := (Build.yields_bind _ _ _).1 h
  obtain ⟨rfl, rfl⟩ := (Build.yields_read _ _).1 reading
  unfold Description.given at given
  split at next
  · next object =>
    have known : Description.isSection (.string "rules" : Value Code) = true :=
      (Value.string_isIn _ _).2 (by simp [Section.all, Section.title])
    rw [object, Option.getD_some] at given
    rw [given, Description.checkKeys, Table.keys, List.map_singleton,
      List.filter_cons_of_neg (by simp [known]), List.filter_nil] at next
    exact ((Build.yields_pure _ _).1 next).2
  · next object =>
    rw [object] at given
    cases given

/-- The externals of the base are inherited if none are given, and their names are declared. -/
theorem inherit_of_yields_externals {items : Items (Value Code)}
    (extended : setting.base = .grammar base) (kept : base.Kept before.store)
    (found : setting.Finds description store entries before.store)
    (missing : Description.get entries .externals = .missing)
    (h : Yields posture (setting.externals entries) before items after) :
    items.toList = base.externals.toList ∧
      Yields posture (Externals.inherit base.externals.toList) before () after ∧
      after.store = before.store := by
  obtain ⟨-, ⟨-, inherits, declared⟩ | ⟨given, -⟩⟩ := externals_cases h found
  · rcases inherits with ⟨none, -⟩ | ⟨-, v, attributed, elements⟩
    · rw [hasBase_eq_true extended] at none
      cases none
    · rw [extended] at attributed
      cases attributed
      rw [kept.elements_externals] at elements
      rw [← Except.ok.inj elements] at declared ⊢
      exact ⟨rfl, declared, declared.still (Externals.madeOf_inherit _
        (Move.reports_isStill _) (Move.declares_isStill _))⟩
  · exact absurd missing given

/-- The rules of the base are merged with those that are given, if the functions change nothing. -/
theorem merged_of_yields_rules {rules : Entries (Value Code)}
    (extended : setting.base = .grammar base) (kept : base.Kept store) (here : before.store = store)
    (gives : Description.GivesRules description store entries)
    (still : setting.GivesStill description store) (distinct : Rules.Distinct entries)
    (h : Yields .collect (setting.rules (Description.given description store)) before rules
      after) :
    ∃ first v bodies, Yields .collect (Rules.inherit base.rules.toList) before () first ∧
      rules.toList = Rules.merged base.rules.toList
        (Rules.definedBy setting base.rules.toList store entries) ∧
      rules.toList.map (fun entry ↦ store.present entry.2) = bodies.map .rule ∧
      after = (first.declaring "rule"
        (Rules.declarations base.rules.toList first.names entries)).reporting
          (Rules.problemsWith setting base.rules.toList first.names store entries ++
            Rules.emptiness v rules.toList ++ (Rules.missing (first.declaring "rule"
              (Rules.declarations base.rules.toList first.names entries)).names bodies).map
                Rules.undeclared) ∧ first.store = store := by
  obtain ⟨given, only, rfl⟩ := gives
  have get : setting.givenRules (Description.given description store) = .mapping given := by
    simp [givenRules, only, Description.get, Section.title]
  have found : setting.Finds description store (Description.given description store) before.store :=
    ⟨here ▸ .start, here ▸ rfl⟩
  obtain ⟨-, inherited, inherits, validated⟩ := rules_cases h found
  have object : before.store.present
      (setting.givenRules (Description.given description store)) =
        .mapping (store.mapping given) := by
    rw [get, here, Store.present_eq_mapping]
  rw [object, Rules.validate_eq rfl] at validated
  obtain rfl : inherited = base.rules.toList := by
    rcases inherits with ⟨none, -⟩ | ⟨-, v, attributed, object⟩
    · rw [hasBase_eq_true extended] at none
      cases none
    · rw [extended] at attributed
      cases attributed
      rw [here, kept.object?_rules] at object
      exact (Option.some.inj object).symm
  obtain ⟨first, bodies, declared, merged, present, rfl⟩ := Rules.collects_fromEntries validated
    distinct fun entry he f callable ↦ still f
      (.inr ⟨_, by rw [get, Store.present_eq_mapping]; rfl, entry, he, callable⟩)
  have stays : first.store = store := here ▸ declared.still
    (Rules.madeOf_inherit _ (Move.reports_isStill _) (Move.declares_isStill _))
  rw [stays] at merged present ⊢
  exact ⟨first, _, bodies, declared, merged, present, rfl, stays⟩

/-- A build that extends a grammar by rules only comes to such an extension, and changes nothing. -/
theorem AddsRules.enlarges (h : setting.AddsRules base description store entries g after)
    (kept : base.Kept store) (distinct : Rules.Distinct entries) :
    after.store = store ∧ setting.Enlarges base store entries g after.problems := by
  obtain ⟨extended, gives, still, collected⟩ := h
  obtain ⟨journal, assembled, -, problems, finished⟩ := yields_of_collect collected
  obtain ⟨start, opens, traverses, -, again⟩ := (yields_assemble_iff_traverses g).1 assembled
  obtain rfl : start = { store } := opens_of_givesRules gives opens
  have missing (part : Section) (other : part ≠ .rules) :
      Description.get (Description.given description store) part = .missing := by
    obtain ⟨rules, given, -⟩ := gives
    cases part <;> simp [given, Description.get, Section.title] at other ⊢
  -- The name and the externals are inherited, the rules are merged, and all else is copied.
  obtain _ | ⟨atName, _ | @⟨_, _, _, j₄, _, inExternals, _ | ⟨inRules, rest⟩⟩⟩ := traverses
  obtain ⟨name, rfl⟩ := atName.unique (yields_name_of_missing extended (missing .name (by decide)))
  obtain ⟨_, _, atExternals, done⟩ := (Build.yields_bind _ _ _).1 inExternals
  obtain ⟨eq, rfl⟩ := (Build.yields_pure _ _).1 done
  cases eq
  obtain ⟨_, _, atRules, done⟩ := (Build.yields_bind _ _ _).1 inRules
  obtain ⟨eq, rfl⟩ := (Build.yields_pure _ _).1 done
  cases eq
  have found : setting.Finds description store (Description.given description store)
      ((({ store } : Journal Code).begun g.fields .name).begun g.fields .externals).store :=
    ⟨.start, rfl⟩
  obtain ⟨externals, declared, stays⟩ :=
    inherit_of_yields_externals extended kept found (missing .externals (by decide)) atExternals
  have stays : (j₄.announced .rules g.name).store = store := stays
  rw [show j₄.store = store from stays] at atRules
  obtain ⟨first, v, bodies, declared', merged, present, rfl, stays'⟩ :=
    merged_of_yields_rules extended kept stays gives still distinct atRules
  obtain ⟨copies, reported, unchanged⟩ := rest.of_missing extended kept stays' fun part hp ↦
    ⟨hp, missing part fun rules ↦ by simp [rules] at hp⟩
  refine ⟨finished.trans unchanged, ⟨again, again_of_yields_rules atRules,
    again_of_yields_externals atExternals⟩, name, externals, copies, merged, j₄, first, v, bodies,
    ?_, present, problems.trans reported⟩
  have named : g.name = base.name := name
  rw [named] at declared'
  exact ⟨named ▸ declared, declared'⟩

end Setting

end GrammarDoc
