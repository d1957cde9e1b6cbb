import GrammarDoc.Proofs.Build.Renaming
import GrammarDoc.Proofs.Closure
import GrammarDoc.Proofs.Collecting
import GrammarDoc.Proofs.Interference
import GrammarDoc.Proofs.Merging
import GrammarDoc.Proofs.Persistence
import GrammarDoc.Proofs.Presence
import GrammarDoc.Proofs.Settled

/-!
# Rules in any order

All names of rules are declared before any function is called, and all functions are called before
any name is looked up. So two descriptions that give the same, but for the order of the rules, come
to grammars that differ in the order of the rules only: each name has the same tag in both, and the
problems with the rules are the same in another order.
-/

namespace GrammarDoc

open Build (Yields)

variable {Code : Type}

/-! ### What entries in another order give -/

namespace Rules

variable {setting : Setting Code} {inherited : Definitions Code} {store : Store Code}
  {entries others : List (Value Code × Value Code)}

/-- Whether two problems are the same, but for the order of the entries of a mapping that they are
about. -/
def SameProblem (p q : Problem Code) : Prop :=
  p = q ∨ ∃ (rules others : Entries (Value Code)), rules.toList.Perm others.toList ∧
    p = ⟨.noRules (.mapping rules), some "rules"⟩ ∧ q = ⟨.noRules (.mapping others), some "rules"⟩

/-- Whether some problems are others in another order. -/
def SameProblems (problems others : List (Problem Code)) : Prop :=
  ∃ between, problems.Perm between ∧ List.Forall₂ SameProblem between others

/-- Problems in another order are the same. -/
theorem SameProblems.of_perm {problems others : List (Problem Code)} (perm : problems.Perm others) :
    SameProblems problems others :=
  ⟨others, perm, List.forall₂_same.2 fun _ _ ↦ .inl rfl⟩

private theorem SameProblems.append {problems others more further : List (Problem Code)}
    (h : SameProblems problems others) (h' : SameProblems more further) :
    SameProblems (problems ++ more) (others ++ further) := by
  obtain ⟨between, perm, same⟩ := h
  obtain ⟨between', perm', same'⟩ := h'
  exact ⟨between ++ between', perm.append perm', List.rel_append same same'⟩

private theorem sameProblems_emptiness {rules₁ rules₂ : Entries (Value Code)}
    {definitions₁ definitions₂ : Definitions Code} (perm : rules₁.toList.Perm rules₂.toList)
    (same : definitions₁.Perm definitions₂) :
    SameProblems (emptiness (.mapping rules₁) definitions₁)
      (emptiness (.mapping rules₂) definitions₂) := by
  unfold emptiness
  rw [same.isEmpty_eq]
  split
  · exact ⟨_, .refl _, .cons (.inr ⟨rules₁, rules₂, perm, rfl, rfl⟩) .nil⟩
  · exact .of_perm (.refl _)

/-- The problems that two builds report in the rules are the same in another order. Last come those
with the names that the rules refer to although they are not declared: each of them once. -/
structure ReportedAlike (definitions : Definitions Code) (names : Namespace Code)
    (problems₁ problems₂ : List (Problem Code)) : Prop where
  same : SameProblems problems₁ problems₂
  missing : ∃ missing₁ missing₂ : List (Value Code),
    missing₁.map undeclared <:+ problems₁ ∧ missing₂.map undeclared <:+ problems₂ ∧
    missing₁.Perm missing₂ ∧ missing₁.Nodup ∧ ∀ name, name ∈ missing₁ ↔
      (∃ entry ∈ definitions, name ∈ entry.2.mentions) ∧ names.has name = false

/-- The rules of a grammar come again in another order, moved: as mappings they are equal, unless
something in them that equals itself only has been moved, or contains itself. No key of a mapping
equals another. -/
structure ReappearReordered (ρ : Relocation Code) (rules again : Entries (Value Code)) : Prop where
  moved : ∃ entries, rules.toList.Perm entries ∧
    again.toList = entries.map (Prod.map (Value.moved ρ) (Value.moved ρ))
  equal : (Value.mapping rules).Genuine false [] → ρ.Keeps (Value.mapping rules).identities →
    (rules.toList.Pairwise fun entry later ↦ entry.1.compare later.1 ≠ some true) →
    (Value.mapping rules).compare (.mapping again) = some true

end Rules

/-- Two journals have the same names, though perhaps in another order, and the same store. -/
structure Journal.Reordered (first second : Journal Code) : Prop where
  names : first.names.Perm second.names
  agrees : first.names.Agrees second.names
  stores : first.store = second.store

private theorem Journal.Reordered.declaring {before₁ before₂ after₁ after₂ : Journal Code}
    (reordered : before₁.Reordered before₂) (stores : after₁.store = after₂.store)
    (declared : ∃ declared, after₁.names = before₁.names ++ declared ∧
      after₂.names = before₂.names ++ declared) : after₁.Reordered after₂ := by
  obtain ⟨declared, names₁, names₂⟩ := declared
  refine ⟨?_, ?_, stores⟩
  · rw [names₁, names₂]
    exact reordered.names.append_right declared
  · rw [names₁, names₂]
    exact reordered.agrees.declaring declared

namespace Rules

variable {setting : Setting Code} {inherited definitions₁ definitions₂ : Definitions Code}
  {entries others : List (Value Code × Value Code)} {rules₁ rules₂ : Entries (Value Code)}
  {before₁ before₂ after₁ after₂ : Journal Code}

/-- The names of inherited rules are declared in the same way among names in another order. -/
theorem reordered_inherit (h₁ : Yields .collect (inherit inherited) before₁ () after₁)
    (h₂ : Yields .collect (inherit inherited) before₂ () after₂)
    (reordered : before₁.Reordered before₂) :
    after₁.Reordered after₂ ∧ ∃ lines, (∀ line ∈ lines, line.IsWithin) ∧
      before₁.Adds lines after₁ ∧ before₂.Adds lines after₂ := by
  have made : Build.MadeOf (fun move ↦ ∀ part grammar, move ≠ .began part grammar)
      (inherit inherited) :=
    madeOf_inherit inherited (fun _ _ _ eq ↦ by cases eq) fun _ _ _ eq ↦ by cases eq
  obtain ⟨-, stores, declared, added⟩ :=
    made.agree_of_yields reordered.agrees reordered.stores h₁ h₂
  exact ⟨reordered.declaring stores declared, added⟩

variable (inherited) in
/-- Entries in another order declare the same names in another order. -/
theorem reordered_declaring (perm : entries.Perm others) (reordered : before₁.Reordered before₂) :
    (before₁.declaring "rule" (declarations inherited before₁.names entries)).Reordered
      (before₂.declaring "rule" (declarations inherited before₂.names others)) := by
  have seen : declaration? inherited before₁.names = declaration? inherited before₂.names := by
    funext entry
    rw [declaration?, declaration?, reordered.agrees.has_eq]
  have declared : (declarations inherited before₁.names entries).Perm
      (declarations inherited before₂.names others) := by
    rw [declarations, declarations, seen]
    exact perm.filterMap _
  refine ⟨reordered.names.append (declared.map _), fun key ↦ ?_, reordered.stores⟩
  have old := reordered.agrees key
  have new := Table.agrees_of_perm declared "rule" key
  change Table.find? (before₁.names ++ _) key = Table.find? (before₂.names ++ _) key
  rw [Table.find?_append, Table.find?_append, old, new]

variable (setting inherited) in
private theorem sameProblems_problemsWith (perm : entries.Perm others)
    (reordered : before₁.Reordered before₂) :
    SameProblems (problemsWith setting inherited before₁.names before₁.store entries)
      (problemsWith setting inherited before₂.names before₂.store others) := by
  have seen : entryProblem? inherited before₁.names = entryProblem? inherited before₂.names := by
    funext entry
    rw [entryProblem?, entryProblem?, reordered.agrees entry.1]
  rw [problemsWith, problemsWith, seen, reordered.stores]
  exact .of_perm ((perm.filterMap _).append ((perm.filterMap _).filterMap _))

/-- If all names that rules refer to are strings, each that is not declared is missing once. -/
theorem missing_of_strings {store : Store Code} {definitions : Definitions Code}
    {bodies : List (Rule (Value Code))} (names : Namespace Code)
    (present : definitions.map (fun entry ↦ store.present entry.2) = bodies.map .rule)
    (named : ∀ entry ∈ definitions, ∀ name ∈ entry.2.mentions, ∃ s, name = .string s) :
    (missing names bodies).Nodup ∧ ∀ name, name ∈ missing names bodies ↔
      (∃ entry ∈ definitions, name ∈ entry.2.mentions) ∧ names.has name = false := by
  -- Strings are the same at any time, so the bodies refer to what the definitions refer to.
  have same : ∀ entry ∈ definitions, (store.present entry.2).mentions = entry.2.mentions := by
    intro entry he
    rw [store.mentions_present]
    refine (List.map_congr_left fun name hn ↦ ?_).trans (List.map_id _)
    obtain ⟨s, rfl⟩ := named entry he name hn
    exact (store.present_eq_string _ s).2 rfl
  have mentioned (name : Value Code) : name ∈ Rule.mentionsOfAll bodies ↔
      ∃ entry ∈ definitions, name ∈ entry.2.mentions := by
    rw [Rule.mem_mentionsOfAll, ← present]
    constructor
    · rintro ⟨body, hb, hn⟩
      obtain ⟨entry, he, rfl⟩ := List.mem_map.1 hb
      exact ⟨entry, he, same entry he ▸ hn⟩
    · rintro ⟨entry, he, hn⟩
      exact ⟨_, List.mem_map_of_mem he, (same entry he).symm ▸ hn⟩
  have strings : ∀ name ∈ Rule.mentionsOfAll bodies, ∃ s, name = .string s := by
    intro name hn
    obtain ⟨entry, he, hn⟩ := (mentioned name).1 hn
    exact named entry he name hn
  obtain ⟨nodup, mem⟩ := Rule.mem_and_nodup_foldl_addName strings
  refine ⟨nodup.filter _, fun name ↦ ?_⟩
  rw [missing, List.mem_filter, mem, mentioned, Bool.not_eq_true']

private theorem missing_perm {store store' : Store Code}
    {bodies₁ bodies₂ : List (Rule (Value Code))}
    {names others : Namespace Code} (agrees : names.Agrees others)
    (same : definitions₁.Perm definitions₂)
    (present₁ : definitions₁.map (fun entry ↦ store.present entry.2) = bodies₁.map .rule)
    (present₂ : definitions₂.map (fun entry ↦ store'.present entry.2) = bodies₂.map .rule)
    (named : ∀ entry ∈ definitions₁, ∀ name ∈ entry.2.mentions, ∃ s, name = .string s) :
    (missing names bodies₁).Perm (missing others bodies₂) := by
  obtain ⟨once₁, mem₁⟩ := missing_of_strings names present₁ named
  obtain ⟨once₂, mem₂⟩ := missing_of_strings others present₂
    fun entry he ↦ named entry (same.mem_iff.2 he)
  refine (List.perm_ext_iff_of_nodup once₁ once₂).2 fun name ↦ ?_
  rw [mem₁, mem₂, agrees.has_eq]
  simp only [same.mem_iff]

/-- Rules in another order come to the same rules, names and problems in another order. -/
theorem reordered_fromEntries
    (h₁ : Yields .collect (fromEntries setting inherited (.mapping rules₁) rules₁.toList) before₁
      definitions₁ after₁)
    (h₂ : Yields .collect (fromEntries setting inherited (.mapping rules₂) rules₂.toList) before₂
      definitions₂ after₂)
    (perm : rules₁.toList.Perm rules₂.toList) (distinct : Distinct rules₁.toList)
    (still : ∀ entry ∈ rules₁.toList, ∀ f, entry.2.callable? = some f → setting.Still f)
    (reordered : before₁.Reordered before₂)
    (named : ∀ entry ∈ definitions₁, ∀ name ∈ entry.2.mentions, ∃ s, name = .string s) :
    definitions₁.Perm definitions₂ ∧ after₁.Reordered after₂ ∧ ∃ lines₁ lines₂,
      ((∀ line ∈ lines₁, line.IsWithin) ∧ before₁.Adds lines₁ after₁) ∧
      ((∀ line ∈ lines₂, line.IsWithin) ∧ before₂.Adds lines₂ after₂) ∧
      ReportedAlike definitions₁ after₁.names (lines₁.filterMap Entry.problem?)
        (lines₂.filterMap Entry.problem?) := by
  obtain ⟨first₁, bodies₁, inherits₁, eq₁, present₁, rfl⟩ := collects_fromEntries h₁ distinct still
  obtain ⟨first₂, bodies₂, inherits₂, eq₂, present₂, rfl⟩ :=
    collects_fromEntries h₂ (distinct.perm perm) fun entry he ↦ still entry (perm.mem_iff.2 he)
  obtain ⟨first, lines, within, adds₁, adds₂⟩ := reordered_inherit inherits₁ inherits₂ reordered
  have last := reordered_declaring inherited perm first
  obtain ⟨valid, nodup⟩ := definedBy_names setting inherited first₁.store distinct
  have same : definitions₁.Perm definitions₂ := by
    rw [eq₁, eq₂, ← first.stores]
    exact merged_perm ((perm.filterMap _).filterMap _) valid nodup
  have problems := (sameProblems_problemsWith setting inherited perm first).append
    (sameProblems_emptiness perm same)
  have absent := missing_perm last.agrees same present₁ present₂ named
  obtain ⟨once, mem⟩ := missing_of_strings _ present₁ named
  have reported (problems : List (Problem Code)) :
      (lines ++ problems.map Entry.reported).filterMap Entry.problem? =
        lines.filterMap Entry.problem? ++ problems := by
    rw [List.filterMap_append, Entry.filterMap_reported]
  have inside (problems : List (Problem Code)) :
      ∀ line ∈ lines ++ problems.map Entry.reported, line.IsWithin :=
    List.forall_mem_append.2 ⟨within, Entry.isWithin_reported problems⟩
  refine ⟨same, ⟨last.names, last.agrees, last.stores⟩, _, _,
    ⟨inside _, adds₁.trans (first₁.adds_reporting _ _ _)⟩,
    ⟨inside _, adds₂.trans (first₂.adds_reporting _ _ _)⟩, ?_, _, _, ?_, ?_, absent, once, mem⟩
  · rw [reported, reported]
    exact .append (.of_perm (.refl _)) (problems.append (.of_perm (absent.map _)))
  · rw [reported, ← List.append_assoc]
    exact List.suffix_append _ _
  · rw [reported, ← List.append_assoc]
    exact List.suffix_append _ _

end Rules

/-! ### Descriptions with rules in another order -/

/-- Two descriptions give the same for all sections, except that the entries of the rules, which are
mappings, come in another order. -/
structure Description.Reorders (description₁ description₂ : Value Code) (store : Store Code) :
    Prop where
  keys : (given description₁ store).keys = (given description₂ store).keys
  same : ∀ part ≠ .rules, get (given description₁ store) part = get (given description₂ store) part
  rules : ∃ rules₁ rules₂, get (given description₁ store) .rules = .mapping rules₁ ∧
    get (given description₂ store) .rules = .mapping rules₂ ∧
    (store.mapping rules₁).toList.Perm (store.mapping rules₂).toList ∧
    Rules.Distinct (store.mapping rules₁).toList

namespace Setting

variable {setting : Setting Code} {entries₁ entries₂ : Table Code (Value Code)}
  {before₁ before₂ after₁ after₂ : Journal Code} {v₁ v₂ : Value Code} {part : Section}

private theorem InheritsRules.unique {store : Store Code}
    {inherited others : Rules.Definitions Code}
    (h : setting.InheritsRules store inherited) (h' : setting.InheritsRules store others) :
    inherited = others := by
  rcases h with ⟨none, rfl⟩ | ⟨base, v, has, eq⟩
  · rcases h' with ⟨-, rfl⟩ | ⟨base, -⟩
    · rfl
    · exact absurd base (Bool.eq_false_iff.1 none)
  · rcases h' with ⟨none, -⟩ | ⟨-, w, has', eq'⟩
    · exact absurd base (Bool.eq_false_iff.1 none)
    · cases has.symm.trans has'
      exact Option.some.inj (eq.symm.trans eq')

/-- A section other than the rules comes to the same among names in another order. -/
theorem reordered_goThrough
    (same : Description.get entries₁ part = Description.get entries₂ part)
    (gone₁ : Yields .collect (setting.goThrough entries₁ part) before₁ v₁ after₁)
    (gone₂ : Yields .collect (setting.goThrough entries₂ part) before₂ v₂ after₂)
    (reordered : before₁.Reordered before₂) :
    v₁ = v₂ ∧ after₁.Reordered after₂ ∧ ∃ lines, (∀ line ∈ lines, line.IsWithin) ∧
      before₁.Adds lines after₁ ∧ before₂.Adds lines after₂ := by
  rw [← goThrough_congr same] at gone₂
  obtain ⟨eq, stores, declared, lines⟩ :=
    (setting.madeOf_goThrough entries₁ part setting.permits_within).agree_of_yields
      reordered.agrees reordered.stores gone₁ gone₂
  exact ⟨eq, reordered.declaring stores declared, lines⟩

/-- The rules come to the same rules in another order. -/
theorem reordered_rules {description₁ description₂ : Value Code} {start₁ start₂ : Store Code}
    {rules₁ rules₂ : Entries (Value Code)}
    (gone₁ : Yields .collect (setting.goThrough entries₁ .rules) before₁ v₁ after₁)
    (gone₂ : Yields .collect (setting.goThrough entries₂ .rules) before₂ v₂ after₂)
    (found₁ : setting.Finds description₁ start₁ entries₁ before₁.store)
    (found₂ : setting.Finds description₂ start₂ entries₂ before₂.store)
    (given₁ : before₁.store.present (setting.givenRules entries₁) = .mapping rules₁)
    (given₂ : before₂.store.present (setting.givenRules entries₂) = .mapping rules₂)
    (perm : rules₁.toList.Perm rules₂.toList) (distinct : Rules.Distinct rules₁.toList)
    (still : ∀ entry ∈ rules₁.toList, ∀ f, entry.2.callable? = some f → setting.Still f)
    (reordered : before₁.Reordered before₂)
    (named : ∀ rules, v₁ = .mapping rules →
      ∀ entry ∈ rules.toList, ∀ name ∈ entry.2.mentions, ∃ s, name = .string s) :
    ∃ result₁ result₂ : Entries (Value Code), v₁ = .mapping result₁ ∧ v₂ = .mapping result₂ ∧
      result₁.toList.Perm result₂.toList ∧ after₁.Reordered after₂ ∧ ∃ lines₁ lines₂,
        ((∀ line ∈ lines₁, line.IsWithin) ∧ before₁.Adds lines₁ after₁) ∧
        ((∀ line ∈ lines₂, line.IsWithin) ∧ before₂.Adds lines₂ after₂) ∧
        Rules.ReportedAlike result₁.toList after₁.names (lines₁.filterMap Entry.problem?)
          (lines₂.filterMap Entry.problem?) := by
  obtain ⟨result₁, _, atRules₁, done₁⟩ := (Build.yields_bind _ _ _).1 gone₁
  obtain ⟨rfl, rfl⟩ := (Build.yields_pure _ _).1 done₁
  obtain ⟨result₂, _, atRules₂, done₂⟩ := (Build.yields_bind _ _ _).1 gone₂
  obtain ⟨rfl, rfl⟩ := (Build.yields_pure _ _).1 done₂
  obtain ⟨-, inherited, inherits₁, checked₁⟩ := rules_cases atRules₁ found₁
  obtain ⟨-, inherited₂, inherits₂, checked₂⟩ := rules_cases atRules₂ found₂
  rw [← reordered.stores] at inherits₂
  obtain rfl := inherits₁.unique inherits₂
  rw [given₁, Rules.validate_eq rfl] at checked₁
  rw [given₂, Rules.validate_eq rfl] at checked₂
  exact ⟨result₁, result₂, rfl, rfl, Rules.reordered_fromEntries checked₁ checked₂ perm distinct
    still reordered (named result₁ rfl)⟩

variable {description₁ description₂ : Value Code} {store later : Store Code}
  {fields₁ fields₂ : Section → Value Code}

private theorem givesStill_of_reorders
    (reorders : Description.Reorders description₁ description₂ store)
    (still : setting.GivesStill description₁ store) : setting.GivesStill description₂ store := by
  obtain ⟨rules₁, rules₂, given₁, given₂, perm, -⟩ := reorders.rules
  rintro f (⟨part, callable⟩ | ⟨definitions, object, entry, he, callable⟩)
  · by_cases rules : part = .rules
    · rw [rules, given₂] at callable
      cases callable
    · rw [← reorders.same part rules] at callable
      exact still f (.inl ⟨part, callable⟩)
  · rw [givenRules, given₂, Store.present_eq_mapping] at object
    obtain rfl := Option.some.inj object
    refine still f (.inr ⟨(store.mapping rules₁).toList, ?_, entry, perm.mem_iff.2 he, callable⟩)
    rw [givenRules, given₁, Store.present_eq_mapping]
    rfl

private theorem present_givenRules {description : Value Code} {rules : Entries (Value Code)}
    (anew : setting.Anew description store) (still : setting.GivesStill description store)
    (given : Description.get (Description.given description store) .rules = .mapping rules)
    (reached : setting.Reaches description store later) :
    later.present (setting.givenRules (Description.given description store)) =
      .mapping (store.mapping rules) := by
  have alike := alike_of_still anew still reached
  have seen := anew.given .rules
  rw [given] at seen
  rw [givenRules, given, ← (Store.present_alike alike seen).1, Store.present_eq_mapping]

/-- Builds of descriptions with rules in different orders go through the sections from the same
journal. -/
theorem Course.start_eq {start₁ start₂ finish₁ finish₂ : Journal Code}
    (reorders : Description.Reorders description₁ description₂ store)
    (course₁ : setting.Course description₁ store fields₁ start₁ finish₁ after₁)
    (course₂ : setting.Course description₂ store fields₂ start₂ finish₂ after₂) :
    start₁ = start₂ := by
  obtain ⟨rules₁, rules₂, given₁, given₂, -⟩ := reorders.rules
  -- A description that gives something is a mapping, and nothing is reported about that.
  have checked {description : Value Code} {rules : Entries (Value Code)} {start : Journal Code}
      (given : Description.get (Description.given description store) .rules = .mapping rules)
      (begins : Yields .collect (Description.check description) { store } () start) :
      Yields .collect (Description.checkKeys (Description.given description store)) { store } ()
        start := by
    obtain ⟨v, _, reading, next⟩ := (Build.yields_bind _ _ _).1 begins
    obtain ⟨rfl, rfl⟩ := (Build.yields_read _ _).1 reading
    unfold Description.given at given ⊢
    split at next
    · next object => rwa [object]
    · next object =>
      rw [object] at given
      cases given
  have keys₁ := checked given₁ course₁.begins
  have keys₂ := checked given₂ course₂.begins
  rw [Description.checkKeys, reorders.keys] at keys₁
  exact (keys₁.unique keys₂).2

/-- Sections are begun in the same way among names in another order. -/
theorem reordered_begun (reordered : before₁.Reordered before₂)
    (part : Section) : (before₁.begun fields₁ part).Reordered (before₂.begun fields₂ part) := by
  obtain ⟨_, begun₁⟩ := before₁.exists_begun fields₁ part
  obtain ⟨_, begun₂⟩ := before₂.exists_begun fields₂ part
  rw [begun₁, begun₂]
  exact ⟨reordered.names, reordered.agrees, reordered.stores⟩

section

/-! ### Builds of such descriptions -/

variable (reorders : Description.Reorders description₁ description₂ store)
  (anew₁ : setting.Anew description₁ store) (anew₂ : setting.Anew description₂ store)
  (still : setting.GivesStill description₁ store)

include reorders anew₁ anew₂ still

/-- The rules of a description come to the same rules in another order, if its functions change
nothing. -/
theorem reordered_rules_of_reorders
    (gone₁ : Yields .collect (setting.goThrough (Description.given description₁ store) .rules)
      before₁ v₁ after₁)
    (gone₂ : Yields .collect (setting.goThrough (Description.given description₂ store) .rules)
      before₂ v₂ after₂)
    (reached₁ : setting.Reaches description₁ store before₁.store)
    (reached₂ : setting.Reaches description₂ store before₂.store)
    (reordered : before₁.Reordered before₂)
    (named : ∀ rules, v₁ = .mapping rules →
      ∀ entry ∈ rules.toList, ∀ name ∈ entry.2.mentions, ∃ s, name = .string s) :
    ∃ result₁ result₂ : Entries (Value Code), v₁ = .mapping result₁ ∧ v₂ = .mapping result₂ ∧
      result₁.toList.Perm result₂.toList ∧ after₁.Reordered after₂ ∧ ∃ lines₁ lines₂,
        ((∀ line ∈ lines₁, line.IsWithin) ∧ before₁.Adds lines₁ after₁) ∧
        ((∀ line ∈ lines₂, line.IsWithin) ∧ before₂.Adds lines₂ after₂) ∧
        Rules.ReportedAlike result₁.toList after₁.names (lines₁.filterMap Entry.problem?)
          (lines₂.filterMap Entry.problem?) := by
  obtain ⟨rules₁, rules₂, given₁, given₂, perm, distinct⟩ := reorders.rules
  have still₂ := givesStill_of_reorders reorders still
  refine reordered_rules gone₁ gone₂ ⟨reached₁, (given_of_reaches anew₁ still reached₁).symm⟩
    ⟨reached₂, (given_of_reaches anew₂ still₂ reached₂).symm⟩
    (present_givenRules anew₁ still given₁ reached₁)
    (present_givenRules anew₂ still₂ given₂ reached₂) perm distinct
    (fun entry he f callable ↦ still f (.inr ⟨_, ?_, entry, he, callable⟩)) reordered named
  rw [givenRules, given₁, Store.present_eq_mapping]
  rfl

/-- Passing through sections comes to the same names and to the same store. -/
theorem Traverses.reordered {parts : List Section}
    (named : ∀ rules, fields₁ .rules = .mapping rules →
      ∀ entry ∈ rules.toList, ∀ name ∈ entry.2.mentions, ∃ s, name = .string s)
    (h₁ : setting.Traverses description₁ .collect fields₁ parts before₁ after₁)
    (h₂ : setting.Traverses description₂ .collect fields₂ parts before₂ after₂)
    (reached₁ : setting.Reaches description₁ store before₁.store)
    (reached₂ : setting.Reaches description₂ store before₂.store)
    (reordered : before₁.Reordered before₂) : after₁.Reordered after₂ := by
  induction h₁ generalizing before₂ with
  | nil journal =>
    cases h₂
    exact reordered
  | @cons part parts before₁ between₁ after₁ gone₁ _ ih =>
    obtain _ | ⟨gone₂, rest₂⟩ := h₂
    have still₂ := givesStill_of_reorders reorders still
    rw [given_of_reaches anew₁ still reached₁] at gone₁
    rw [given_of_reaches anew₂ still₂ reached₂] at gone₂
    have begun : (before₁.begun fields₁ part).Reordered (before₂.begun fields₂ part) :=
      reordered_begun reordered part
    rw [← before₁.store_begun fields₁ part] at reached₁
    rw [← before₂.store_begun fields₂ part] at reached₂
    refine ih rest₂ (reaches_of_yields_goThrough gone₁
        ⟨reached₁, (given_of_reaches anew₁ still reached₁).symm⟩).1
      (reaches_of_yields_goThrough gone₂
        ⟨reached₂, (given_of_reaches anew₂ still₂ reached₂).symm⟩).1 ?_
    by_cases rules : part = .rules
    · subst rules
      obtain ⟨_, _, -, -, -, left, -⟩ := reordered_rules_of_reorders reorders anew₁ anew₂ still
        gone₁ gone₂ reached₁ reached₂ begun named
      exact left
    · exact (reordered_goThrough (reorders.same part rules) gone₁ gone₂ begun).2.1

/-- Whatever section two builds come to, they come to it from names in another order and from the
same store. -/
theorem Course.exists_visits {start finish₁ finish₂ : Journal Code}
    (named : ∀ rules, fields₁ .rules = .mapping rules →
      ∀ entry ∈ rules.toList, ∀ name ∈ entry.2.mentions, ∃ s, name = .string s)
    (course₁ : setting.Course description₁ store fields₁ start finish₁ after₁)
    (course₂ : setting.Course description₂ store fields₂ start finish₂ after₂)
    {earlier later : List Section} {part : Section}
    (split : Section.all = earlier ++ part :: later) :
    ∃ before₁ before₂ between₁ between₂, before₁.Reordered before₂ ∧
      (setting.Reaches description₁ store before₁.store ∧
        Visit setting (Description.given description₁ store) fields₁ part before₁ between₁
          after₁ ∧
        setting.Traverses description₁ .collect fields₁ later between₁ finish₁) ∧
      setting.Reaches description₂ store before₂.store ∧
        Visit setting (Description.given description₂ store) fields₂ part before₂ between₂
          after₂ := by
  obtain ⟨before₁, between₁, first₁, visit₁, last₁⟩ := course₁.visits split
  obtain ⟨before₂, between₂, first₂, visit₂, -⟩ := course₂.visits split
  have reordered := Traverses.reordered reorders anew₁ anew₂ still named first₁ first₂
    course₁.reaches course₂.reaches ⟨.refl _, fun _ ↦ rfl, rfl⟩
  have reached₁ := (first₁.reaches course₁.reaches).1
  have reached₂ := (first₂.reaches course₂.reaches).1
  rw [given_of_reaches anew₁ still reached₁] at visit₁
  rw [given_of_reaches anew₂ (givesStill_of_reorders reorders still) reached₂] at visit₂
  exact ⟨before₁, before₂, between₁, between₂, reordered, ⟨reached₁, visit₁, last₁⟩, reached₂,
    visit₂⟩

end

/-- Rules may come in any order. If two descriptions give the same except that the entries of the
rules come in another order, then builds of them that collect all problems come to the same rules
in another order and to the same in all other sections. They end with the same names, each with the
same tag. In the rules they report the same problems in another order, among them one with each
name that is referred to although it is not declared, and in every other section the same problems
in the same order. The functions that the descriptions give must not change anything, and the names
that the rules refer to must be strings. -/
theorem reordered_of_collect {g₁ g₂ : Grammar (Value Code)}
    (collected₁ : setting.collect description₁ store = (.ok g₁, after₁))
    (collected₂ : setting.collect description₂ store = (.ok g₂, after₂))
    (reorders : Description.Reorders description₁ description₂ store)
    (anew₁ : setting.Anew description₁ store) (anew₂ : setting.Anew description₂ store)
    (still : setting.GivesStill description₁ store)
    (named : ∀ entry ∈ g₁.rules.toList, ∀ name ∈ entry.2.mentions, ∃ s, name = .string s) :
    g₁.rules.toList.Perm g₂.rules.toList ∧
      (∀ part ≠ .rules,
        g₁.fields part = g₂.fields part ∧ after₁.problemsIn part = after₂.problemsIn part) ∧
      (after₁.names.Perm after₂.names ∧ after₁.names.Agrees after₂.names) ∧
      Rules.ReportedAlike g₁.rules.toList after₁.names (after₁.problemsIn .rules)
        (after₂.problemsIn .rules) ∧
      ∃ outside, after₁.problems = outside ++ Section.all.flatMap after₁.problemsIn ∧
        after₂.problems = outside ++ Section.all.flatMap after₂.problemsIn := by
  have named : ∀ rules, g₁.fields .rules = .mapping rules →
      ∀ entry ∈ rules.toList, ∀ name ∈ entry.2.mentions, ∃ s, name = .string s := by
    rintro rules ⟨⟩
    exact named
  obtain ⟨start, finish₁, course₁⟩ := exists_course collected₁
  obtain ⟨start₂, finish₂, course₂⟩ := exists_course collected₂
  obtain rfl := Course.start_eq reorders course₁ course₂
  have last := Traverses.reordered reorders anew₁ anew₂ still named course₁.traverses
    course₂.traverses course₁.reaches course₂.reaches ⟨.refl _, fun _ ↦ rfl, rfl⟩
  obtain ⟨before₁, before₂, between₁, between₂, reordered, ⟨reached₁, visit₁, last₁⟩, reached₂,
    visit₂⟩ := Course.exists_visits reorders anew₁ anew₂ still named course₁ course₂
      (show Section.all = [.name, .externals] ++ .rules :: Section.afterRules from rfl)
  obtain ⟨result₁, result₂, eq₁, eq₂, perm, left, lines₁, lines₂, ⟨within₁, adds₁⟩,
    ⟨within₂, adds₂⟩, alike⟩ := reordered_rules_of_reorders reorders anew₁ anew₂ still visit₁.gone
      visit₂.gone (by rwa [before₁.store_begun]) (by rwa [before₂.store_begun])
      (reordered_begun reordered _) named
  cases eq₁
  cases eq₂
  refine ⟨perm, fun part other ↦ ?_, ?_, ?_, ?_⟩
  · obtain ⟨earlier, later, split⟩ := List.append_of_mem (mem_all part)
    obtain ⟨before₁, before₂, between₁, between₂, reordered, ⟨-, visit₁, -⟩, -, visit₂⟩ :=
      Course.exists_visits reorders anew₁ anew₂ still named course₁ course₂ split
    obtain ⟨eq, -, lines, within, adds₁, adds₂⟩ := reordered_goThrough (reorders.same part other)
      visit₁.gone visit₂.gone (reordered_begun reordered _)
    exact ⟨eq, (visit₁.problems lines within adds₁).trans
      (visit₂.problems lines within adds₂).symm⟩
  · rw [course₁.names, course₂.names]
    exact ⟨last.names, last.agrees⟩
  · have found : setting.Finds description₁ store (Description.given description₁ store)
        (before₁.begun g₁.fields .rules).store := by
      rw [before₁.store_begun]
      exact ⟨reached₁, (given_of_reaches anew₁ still reached₁).symm⟩
    rw [visit₁.problems lines₁ within₁ adds₁, visit₂.problems lines₂ within₂ adds₂, course₁.names,
      last₁.names_eq (reaches_of_yields_goThrough visit₁.gone found).1 fun _ ↦ id]
    exact alike
  · exact ⟨start.problems, course₁.problems_eq, course₂.problems_eq⟩

/-- Rules may come in any order. If two descriptions give the same except that the entries of the
rules come in another order, then builds of them that collect all problems come to the same rules
in another order and to the same in all other sections. They end with the same names, each with the
same tag. In the rules they report the same problems in another order, among them one with each
name that is referred to although it is not declared, and in every other section the same problems
in the same order. The functions that the descriptions give must not change anything, and the names
that the rules refer to must be strings. The builds take place at different places, so what is new
in the one comes again in the other. -/
theorem reordered_of_repeats {ρ : Relocation Code} {first second : Setting Code}
    {g₁ g₂ : Grammar (Value Code)}
    (collected₁ : first.collect description₁ store = (.ok g₁, after₁))
    (collected₂ : second.collect description₂ store = (.ok g₂, after₂))
    (repeats : first.Repeats ρ second description₂ store)
    (policy : second.extraReferences = first.extraReferences)
    (reorders : Description.Reorders description₁ description₂ store)
    (anew₁ : first.Anew description₁ store) (anew₂ : first.Anew description₂ store)
    (still : first.GivesStill description₁ store)
    (named : ∀ entry ∈ g₁.rules.toList, ∀ name ∈ entry.2.mentions, ∃ s, name = .string s) :
    Rules.ReappearReordered ρ g₁.rules g₂.rules ∧
      (∀ part ≠ .rules, (g₁.fields part).Reappears ρ (g₂.fields part) ∧
        Problem.ReappearAll ρ (after₁.problemsIn part) (after₂.problemsIn part)) ∧
      (∃ names, after₁.names.Perm names ∧ after₁.names.Agrees names ∧
        Namespace.Reappears ρ names after₂.names) ∧
      (∃ problems, Rules.ReportedAlike g₁.rules.toList after₁.names (after₁.problemsIn .rules)
        problems ∧ Problem.ReappearAll ρ problems (after₂.problemsIn .rules)) ∧
      ∃ outside again, Problem.ReappearAll ρ outside again ∧
        after₁.problems = outside ++ Section.all.flatMap after₁.problemsIn ∧
        after₂.problems = again ++ Section.all.flatMap after₂.problemsIn := by
  obtain ⟨g, after, collected, rfl, rfl⟩ := repeats.exists_collect policy collected₂
  obtain ⟨perm, others, ⟨permuted, agrees⟩, alike, outside, problems₁, problems₂⟩ :=
    reordered_of_collect collected₁ collected reorders anew₁ anew₂ still named
  have rules : Value.mapping (Value.movedGrammar ρ g).rules = (Value.mapping g.rules).moved ρ :=
    g.fields_moved ρ .rules
  refine ⟨⟨⟨g.rules.toList, perm, ?_⟩, fun genuine kept apart ↦ ?_⟩, fun part other ↦ ?_,
    ⟨after.names, permuted, agrees, Namespace.reappears_map_moved ρ _⟩,
    ⟨after.problemsIn .rules, alike, ?_⟩, outside, _, Problem.reappearAll_map_moved ρ outside,
    problems₁, ?_⟩
  · rw [Value.moved] at rules
    rw [Value.mapping.inj rules, Value.movedMapping_toList]
  · obtain ⟨start, finish, course⟩ := exists_course collected
    have split : Section.all = [.name, .externals] ++ .rules :: Section.afterRules := rfl
    obtain ⟨before, between, -, visit, -⟩ := course.visits split
    rw [rules]
    exact Value.compare_moved_of_perm ρ perm
      (again_of_yields_rules (yields_mapping.1 visit.gone)) genuine kept apart
  · rw [Grammar.fields_moved, Journal.problemsIn_moved, (others part other).1,
      (others part other).2]
    exact ⟨Value.reappears_moved ρ _, Problem.reappearAll_map_moved ρ _⟩
  · rw [Journal.problemsIn_moved]
    exact Problem.reappearAll_map_moved ρ _
  · exact Journal.problems_moved ρ problems₂

/-- A rule may be a field that has the builder for its name. Builds of two descriptions that give
the same rules in another order then come to rules that are not equal, since the builds have
different builders. -/
theorem exists_not_equal_reordered :
    let setting (step : Nat) : Setting Response := Response.setting step .missing
    let a : Value Response × Value Response := (.string "a", Response.function .field "a")
    let b : Value Response × Value Response :=
      (.string "b", .callable ⟨.step 0, some "b", {}, .constant (.string "x")⟩)
    let description (rules : Table Response (Value Response)) : Value Response :=
      .mapping ⟨.step 0, [(.string "name", .string "g"),
        (.string "rules", .mapping ⟨(Place.step 0).part "rules", rules, false⟩)], false⟩
    ∃ g₁ g₂ after₁ after₂, (setting 1).collect (description [a, b]) {} = (.ok g₁, after₁) ∧
      (setting 2).collect (description [b, a]) {} = (.ok g₂, after₂) ∧
      (g₁.fields .rules).compare (g₂.fields .rules) = some false := by
  intro setting a b description
  have differ : ((setting 1).collect (description [a, b]) {}).1.toOption.any (fun g₁ ↦
      ((setting 2).collect (description [b, a]) {}).1.toOption.any fun g₂ ↦
        (g₁.fields .rules).compare (g₂.fields .rules) == some false) = true := by
    decide +kernel
  obtain ⟨g₁, collected₁, differ⟩ := Build.exists_eq_ok_of_any differ
  obtain ⟨g₂, collected₂, differ⟩ := Build.exists_eq_ok_of_any differ
  exact ⟨g₁, g₂, _, _, collected₁, collected₂, beq_iff_eq.1 differ⟩

/-- Of two new rules one refers to the other, and this one to a name that is not declared. Whichever
comes first, both are defined and the name is missing, and two names that are malformed are reported
in the order in which they come. A third rule has the builder in it, which is another one in the
second build. -/
theorem reordered_of_repeats_mutual :
    let made (title : String) : Place := (Place.step 0).part title
    let base : Grammar (Value Response) := { Grammar.single (made "base") with
      inline := ⟨made "inline", [.string "a"], false⟩ }
    let setting (step : Nat) : Setting Response := Response.setting step (.grammar base)
    let refers (name : String) : Value Response := .callable ⟨made name, some name, {},
      .constant (.rule (.symbol (.string name)))⟩
    let one : Entries (Value Response) := ⟨made "one", [(.string "b", refers "c"),
      (.string "1", .int 1), (.string "2", .int 2), (.string "c", refers "d"),
      (.string "e", Response.function .field "e")], false⟩
    let other : Entries (Value Response) := ⟨made "other", [(.string "2", .int 2),
      (.string "c", refers "d"), (.string "e", Response.function .field "e"),
      (.string "b", refers "c"), (.string "1", .int 1)], false⟩
    let description₁ : Value Response :=
      .mapping ⟨made "first", [(.string "rules", .mapping one)], false⟩
    let description₂ : Value Response :=
      .mapping ⟨made "second", [(.string "rules", .mapping other)], false⟩
    ∃ (g₁ g₂ : Grammar (Value Response)) (after₁ after₂ : Journal Response),
      (setting 1).collect description₁ {} = (.ok g₁, after₁) ∧
      (setting 2).collect description₂ {} = (.ok g₂, after₂) ∧
      Rules.ReappearReordered Response.exchange g₁.rules g₂.rules ∧
      (Table.keys g₁.rules.toList).map Value.shown = ["a", "b", "c", "e"] ∧
      (Table.keys g₂.rules.toList).map Value.shown = ["a", "c", "e", "b"] ∧
      (∃ problems, Rules.ReportedAlike g₁.rules.toList after₁.names (after₁.problemsIn .rules)
        problems ∧ Problem.ReappearAll Response.exchange problems (after₂.problemsIn .rules)) ∧
      (after₁.problemsIn .rules).map (fun p ↦ p.value.shown) = ["1", "2", "d"] ∧
      (after₂.problemsIn .rules).map (fun p ↦ p.value.shown) = ["2", "1", "d"] := by
  intro made base setting refers one other description₁ description₂
  have returns₁ : ((setting 1).collect description₁ {}).1.toOption.any (fun g ↦
      decide ((Table.keys g.rules.toList).map Value.shown = ["a", "b", "c", "e"]) &&
      g.rules.toList.all (fun entry ↦ entry.2.mentions.all Value.isString) &&
      decide ((((setting 1).collect description₁ {}).2.problemsIn .rules).map
        (fun p ↦ p.value.shown) = ["1", "2", "d"])) = true := by
    decide +kernel
  have returns₂ : ((setting 2).collect description₂ {}).1.toOption.any (fun g ↦
      decide ((Table.keys g.rules.toList).map Value.shown = ["a", "c", "e", "b"]) &&
      decide ((((setting 2).collect description₂ {}).2.problemsIn .rules).map
        (fun p ↦ p.value.shown) = ["2", "1", "d"])) = true := by
    decide +kernel
  obtain ⟨g₁, collected₁, returns₁⟩ := Build.exists_eq_ok_of_any returns₁
  obtain ⟨g₂, collected₂, returns₂⟩ := Build.exists_eq_ok_of_any returns₂
  have given (table : Table Response (Value Response)) (place : Place) (part : Section) :
      Description.get (Description.given (.mapping ⟨place, table, false⟩) {}) part =
        (table.find? (.string part.title)).getD .missing := rfl
  -- Everything given was made before the two steps at which the builds take place.
  have anew (description : Value Response) (sees : description.InSight (setting 1).Sees) :
      (setting 1).Anew description {} := by
    refine ⟨fun part v attributed ↦ ?_, sees, .empty⟩
    cases (base.attribute?_title part).symm.trans attributed
    intro place found source other
    cases part <;> simp [base, Grammar.single, made, Grammar.fields, Section.each, Value.places,
      Value.placesOfList, Value.placesOfItems, Value.placesOfMapping, Value.placesOfEntries,
      Value.placesOfRule] at found
    all_goals simp [found]
  have anew₁ : (setting 1).Anew description₁ {} := by
    refine anew description₁ fun place found source copied ↦ ?_
    simp [description₁, one, refers, made, Response.function, Value.places, Value.placesOfMapping,
      Value.placesOfEntries] at found
    rcases found with rfl | rfl <;> simp
  have anew₂ : (setting 1).Anew description₂ {} := by
    refine anew description₂ fun place found source copied ↦ ?_
    simp [description₂, other, refers, made, Response.function, Value.places,
      Value.placesOfMapping, Value.placesOfEntries] at found
    rcases found with rfl | rfl <;> simp
  have reorders : Description.Reorders description₁ description₂ {} := by
    refine ⟨rfl, fun part ne ↦ ?_, one, other, ?_, ?_, ?_, ?_⟩
    · cases part <;> simp [description₁, description₂, given, Section.title] at ne ⊢
    · simp [description₁, given, Section.title]
    · simp [description₂, given, Section.title]
    · exact @List.perm_append_comm (Value Response × Value Response)
        [(.string "b", refers "c"), (.string "1", .int 1)]
        [(.string "2", .int 2), (.string "c", refers "d"),
          (.string "e", Response.function .field "e")]
    · change Rules.Distinct one.toList
      simp [Rules.Distinct, one]
  have still : (setting 1).GivesStill description₁ {} := fun f _ place offered store ↦
    store_start_call Response.store_run place f offered store
  simp only [Bool.and_eq_true, decide_eq_true_eq, List.all_eq_true] at returns₁ returns₂
  have named : ∀ entry ∈ g₁.rules.toList, ∀ name ∈ entry.2.mentions, ∃ s, name = .string s :=
    fun entry he name hn ↦ Value.exists_of_isString (returns₁.1.2 entry he name hn)
  obtain ⟨rules, -, -, alike, -⟩ := reordered_of_repeats collected₁ collected₂
    (Response.repeats_setting _ _ rfl rfl) rfl reorders anew₁ anew₂ still named
  exact ⟨g₁, g₂, _, _, collected₁, collected₂, rules, returns₁.1.1, returns₂.1, alike,
    returns₁.2, returns₂.2⟩

end Setting

end GrammarDoc
