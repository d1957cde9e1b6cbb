import GrammarDoc.Proofs.Copies
import GrammarDoc.Proofs.Equality
import GrammarDoc.Proofs.Relocation.Values

/-!
# Values that stay equal

What equals itself only is told from all else by its place. A value equals what it is moved to if
nothing of that kind in it has been moved; where the collections in it are does not matter.
-/

namespace GrammarDoc

variable {Code : Type}

namespace Value

/-- The place of a number that equals itself only. -/
def identitiesOfDouble : Double → List Place
  | .nan place => [place]
  | .number _ => []

mutual

/-- The places of all that equals itself only in a value: callables, builders, references, bare
nodes and what is no number. -/
def identities : Value Code → List Place
  | missing | bool _ | int _ | string _ | pattern _ => []
  | double x => identitiesOfDouble x
  | list items => identitiesOfList items
  | tuple items => identitiesOfItems items
  | mapping entries => identitiesOfMapping entries
  | callable f => [f.place]
  | builder place => [place]
  | rule r => identitiesOfRule r
  | grammar ⟨_, name, rules, extras, externals, inline, conflicts, word, supertypes, precedences,
      _⟩ =>
    identities name ++ identitiesOfMapping rules ++ identitiesOfList extras ++
      identitiesOfList externals ++ identitiesOfList inline ++ identitiesOfList conflicts ++
      identities word ++ identitiesOfList supertypes ++ identitiesOfList precedences
  | references r => [r.place]

/-- The places of all that equals itself only in a list. -/
def identitiesOfList : Items (Value Code) → List Place
  | ⟨_, items, _⟩ => identitiesOfItems items

/-- The places of all that equals itself only in some values. -/
def identitiesOfItems : List (Value Code) → List Place
  | [] => []
  | v :: rest => identities v ++ identitiesOfItems rest

/-- The places of all that equals itself only in a mapping. -/
def identitiesOfMapping : Entries (Value Code) → List Place
  | ⟨_, entries, _⟩ => identitiesOfEntries entries

/-- The places of all that equals itself only in some keys and their values. -/
def identitiesOfEntries : List (Value Code × Value Code) → List Place
  | [] => []
  | (key, v) :: rest => identities key ++ identities v ++ identitiesOfEntries rest

/-- The places of all that equals itself only in a rule. -/
def identitiesOfRule : Rule (Value Code) → List Place
  | .bare place => [place]
  | .blank => []
  | .string v | .pattern v | .symbol v => identities v
  | .group _ members => identitiesOfRules members
  | .wrap _ content => identitiesOfRule content
  | .prec _ v content | .field v content | .aliased content _ v =>
    identities v ++ identitiesOfRule content

/-- The places of all that equals itself only in some rules. -/
def identitiesOfRules : List (Rule (Value Code)) → List Place
  | [] => []
  | r :: rest => identitiesOfRule r ++ identitiesOfRules rest

end

end Value

/-- Whether a relocation leaves some places where they are. -/
def Relocation.Keeps (ρ : Relocation Code) (places : List Place) : Prop :=
  ∀ place ∈ places, ρ.place place = place

/-- Some places and others are left where they are. -/
@[simp] theorem Relocation.keeps_append {ρ : Relocation Code} {some others : List Place} :
    ρ.Keeps (some ++ others) ↔ ρ.Keeps some ∧ ρ.Keeps others :=
  List.forall_mem_append

/-- One place is left where it is. -/
@[simp] theorem Relocation.keeps_singleton {ρ : Relocation Code} {place : Place} :
    ρ.Keeps [place] ↔ ρ.place place = place :=
  List.forall_mem_singleton

namespace Value

variable (ρ : Relocation Code)

private theorem keeps_of_mem {entries : List (Value Code × Value Code)}
    (kept : ρ.Keeps (identitiesOfEntries entries)) {entry : Value Code × Value Code}
    (found : entry ∈ entries) : ρ.Keeps entry.1.identities ∧ ρ.Keeps entry.2.identities := by
  induction entries with
  | nil => cases found
  | cons first rest ih =>
    obtain ⟨key, v⟩ := first
    simp only [identitiesOfEntries, Relocation.keeps_append] at kept
    rcases List.mem_cons.1 found with rfl | later
    · exact kept.1
    · exact ih kept.2 later

private theorem moved_eq_self_of_keeps {x : Double} (kept : ρ.Keeps (identitiesOfDouble x)) :
    x.moved ρ = x := by
  cases x with
  | nan place => exact congrArg Double.nan (Relocation.keeps_singleton.1 kept)
  | number text => rfl

private theorem sameNumber_moved_right {v w : Value Code} (kept : ρ.Keeps w.identities) :
    sameNumber v (w.moved ρ) = sameNumber v w := by
  cases w with
  | double x =>
    rw [identities] at kept
    rw [moved, moved_eq_self_of_keeps ρ kept]
  | missing | bool | int | string | pattern => rw [moved]
  | list | tuple | mapping | callable | builder | rule | grammar | references =>
    simp [moved, sameNumber, integer?]

private theorem compare_moved_right_of_told {v w : Value Code}
    (told : v = missing ∨ (∃ s, v = string s) ∨ (∃ p, v = pattern p) ∨
      (∃ place, v = builder place) ∨ (∃ f, v = callable f) ∨ ∃ r, v = references r)
    (kept : ρ.Keeps w.identities) :
    v.compare (w.moved ρ) = v.compare w := by
  cases w with
  | missing | bool | int | string | pattern => rw [moved]
  | double x =>
    rw [identities] at kept
    rw [moved, moved_eq_self_of_keeps ρ kept]
  | builder | callable | references =>
    simp only [identities, Relocation.keeps_singleton] at kept
    rcases told with rfl | ⟨_, rfl⟩ | ⟨_, rfl⟩ | ⟨_, rfl⟩ | ⟨_, rfl⟩ | ⟨_, rfl⟩ <;>
      simp [moved, compare, kept]
  | list | tuple | mapping | rule | grammar =>
    rcases told with rfl | ⟨_, rfl⟩ | ⟨_, rfl⟩ | ⟨_, rfl⟩ | ⟨_, rfl⟩ | ⟨_, rfl⟩ <;>
      simp [moved, compare]

mutual

/-- What a value is compared with may be moved if nothing in it that equals itself only is. -/
theorem compare_moved_right {strict strict' : Bool} {above above' : List Place} :
    ∀ v w : Value Code, v.Genuine strict above → w.Genuine strict' above' → ρ.Keeps w.identities →
      v.compare (w.moved ρ) = v.compare w
  | bool _, w, _, _, kept | int _, w, _, _, kept | double _, w, _, _, kept => by
    rw [compare, compare, sameNumber_moved_right ρ kept]
  | missing, w, _, _, kept | string _, w, _, _, kept | pattern _, w, _, _, kept
  | builder _, w, _, _, kept | callable _, w, _, _, kept | references _, w, _, _, kept =>
    compare_moved_right_of_told ρ (by simp) kept
  | list items, w, genuine, genuine', kept => by
    cases w with
    | list others =>
      rw [moved, compare, compare, compareLists_moved_right items others genuine genuine' kept]
    | _ => simp [moved, compare]
  | tuple items, w, genuine, genuine', kept => by
    cases w with
    | tuple others =>
      rw [moved, compare, compare, compareItems_moved_right items others genuine genuine' kept]
    | _ => simp [moved, compare]
  | mapping entries, w, genuine, genuine', kept => by
    cases w with
    | mapping others =>
      rw [moved, compare, compare, compareMappings_moved_right entries others genuine genuine' kept]
    | _ => simp [moved, compare]
  | rule r, w, genuine, genuine', kept => by
    cases w with
    | rule s => rw [moved, compare, compare, compareRules_moved_right r s genuine genuine' kept]
    | _ => simp [moved, compare]
  | grammar g, w, genuine, genuine', kept => by
    cases w with
    | grammar h =>
      rw [moved, compare, compare, compareGrammars_moved_right g h genuine genuine' kept]
    | _ => simp [moved, compare]
termination_by structural v => v

private theorem compareLists_moved_right {strict strict' : Bool} {above above' : List Place} :
    ∀ as bs : Items (Value Code), GenuineList strict above as → GenuineList strict' above' bs →
      ρ.Keeps (identitiesOfList bs) → compareLists as (movedList ρ bs) = compareLists as bs
  | ⟨_, as, _⟩, ⟨_, bs, _⟩, ⟨rfl, genuine⟩, ⟨rfl, genuine'⟩, kept => by
    have items := compareItems_moved_right as bs genuine genuine' kept
    rw [movedItems_eq_map] at items
    simp [movedList, compareLists, items]
termination_by structural v => v

private theorem compareItems_moved_right {strict strict' : Bool} {above above' : List Place} :
    ∀ as bs : List (Value Code), GenuineItems strict above as → GenuineItems strict' above' bs →
      ρ.Keeps (identitiesOfItems bs) → compareItems as (movedItems ρ bs) = compareItems as bs
  | [], [], _, _, _ | [], _ :: _, _, _, _ | _ :: _, [], _, _, _ => by
    simp only [movedItems, compareItems]
  | a :: as, b :: bs, ⟨one, more⟩, ⟨one', more'⟩, kept => by
    rw [identitiesOfItems, Relocation.keeps_append] at kept
    rw [movedItems, compareItems, compareItems, compare_moved_right a b one one' kept.1,
      compareItems_moved_right as bs more more' kept.2]
termination_by structural v => v

private theorem compareMappings_moved_right {strict strict' : Bool} {above above' : List Place} :
    ∀ as bs : Entries (Value Code), GenuineMapping strict above as →
      GenuineMapping strict' above' bs → ρ.Keeps (identitiesOfMapping bs) →
      compareMappings as (movedMapping ρ bs) = compareMappings as bs
  | ⟨_, as, _⟩, ⟨_, bs, _⟩, ⟨rfl, genuine⟩, ⟨rfl, genuine'⟩, kept => by
    have entries := compareEntries_moved_right as bs genuine genuine' kept
    rw [movedEntries_eq_map] at entries
    simp [movedMapping, compareMappings, entries]
termination_by structural v => v

private theorem compareEntries_moved_right {strict strict' : Bool} {above above' : List Place} :
    ∀ as bs : List (Value Code × Value Code), GenuineEntries strict above as →
      GenuineEntries strict' above' bs → ρ.Keeps (identitiesOfEntries bs) →
      compareEntries as (movedEntries ρ bs) = compareEntries as bs
  | [], _, _, _, _ => by rw [compareEntries, compareEntries]
  | (key, v) :: rest, bs, ⟨_, one, more⟩, genuine', kept => by
    have keys : (movedEntries ρ bs).find? (fun entry ↦ key.compare entry.1 == some true) =
        (bs.find? fun entry ↦ key.compare entry.1 == some true).map
          (Prod.map (moved ρ) (moved ρ)) := by
      rw [movedEntries_eq_map, List.find?_map, ← List.head?_filter, ← List.head?_filter]
      exact congrArg (fun found ↦ Option.map _ (List.head? found))
        (List.filter_congr fun entry found ↦ by
          simp only [Function.comp_apply, Prod.map, compare_moved_right key entry.1 one.1
            (genuine'.of_mem found).1 (keeps_of_mem ρ kept found).1])
    rw [compareEntries, compareEntries, keys, compareEntries_moved_right rest bs more genuine' kept]
    cases there : bs.find? fun entry ↦ key.compare entry.1 == some true with
    | none => rfl
    | some entry =>
      have found := List.mem_of_find?_eq_some there
      simp only [Option.map_some, Prod.map, compare_moved_right v entry.2 one.2
        (genuine'.of_mem found).2 (keeps_of_mem ρ kept found).2]
termination_by structural v => v

private theorem compareRules_moved_right {strict strict' : Bool} {above above' : List Place} :
    ∀ r s : Rule (Value Code), GenuineRule strict above r → GenuineRule strict' above' s →
      ρ.Keeps (identitiesOfRule s) → compareRules r (movedRule ρ s) = compareRules r s
  | .bare _, s, _, _, kept | .blank, s, _, _, kept => by
    cases s with
    | bare place =>
      simp only [identitiesOfRule, Relocation.keeps_singleton] at kept
      simp [movedRule, compareRules, kept]
    | _ => simp [movedRule, compareRules]
  | .string v, s, genuine, genuine', kept | .pattern v, s, genuine, genuine', kept
  | .symbol v, s, genuine, genuine', kept => by
    cases s with
    | string w | pattern w | symbol w =>
      simp only [movedRule, compareRules, compare_moved_right v w genuine genuine' kept]
    | _ => simp [movedRule, compareRules]
  | .group _ members, s, genuine, genuine', kept => by
    cases s with
    | group _ others =>
      have same := compareMembers_moved_right members others genuine genuine' kept
      simp only [movedRule, compareRules, same]
    | _ => simp [movedRule, compareRules]
  | .wrap _ content, s, genuine, genuine', kept => by
    cases s with
    | wrap _ other =>
      have same := compareRules_moved_right content other genuine genuine' kept
      simp only [movedRule, compareRules, same]
    | _ => simp [movedRule, compareRules]
  | .prec _ v content, s, ⟨one, more⟩, genuine', kept => by
    cases s with
    | prec _ w other =>
      rw [identitiesOfRule, Relocation.keeps_append] at kept
      simp only [movedRule, compareRules, compare_moved_right v w one genuine'.1 kept.1,
        compareRules_moved_right content other more genuine'.2 kept.2]
    | _ => simp [movedRule, compareRules]
  | .field v content, s, ⟨one, more⟩, genuine', kept => by
    cases s with
    | field w other =>
      rw [identitiesOfRule, Relocation.keeps_append] at kept
      simp only [movedRule, compareRules, compare_moved_right v w one genuine'.1 kept.1,
        compareRules_moved_right content other more genuine'.2 kept.2]
    | _ => simp [movedRule, compareRules]
  | .aliased content _ v, s, ⟨one, more⟩, genuine', kept => by
    cases s with
    | aliased other _ w =>
      rw [identitiesOfRule, Relocation.keeps_append] at kept
      simp only [movedRule, compareRules, compare_moved_right v w one genuine'.1 kept.1,
        compareRules_moved_right content other more genuine'.2 kept.2]
    | _ => simp [movedRule, compareRules]
termination_by structural v => v

private theorem compareMembers_moved_right {strict strict' : Bool} {above above' : List Place} :
    ∀ rs ss : List (Rule (Value Code)), GenuineRules strict above rs →
      GenuineRules strict' above' ss → ρ.Keeps (identitiesOfRules ss) →
      compareMembers rs (movedRules ρ ss) = compareMembers rs ss
  | [], [], _, _, _ | [], _ :: _, _, _, _ | _ :: _, [], _, _, _ => by
    simp only [movedRules, compareMembers]
  | r :: rs, s :: ss, ⟨one, more⟩, ⟨one', more'⟩, kept => by
    rw [identitiesOfRules, Relocation.keeps_append] at kept
    rw [movedRules, compareMembers, compareMembers, compareRules_moved_right r s one one' kept.1,
      compareMembers_moved_right rs ss more more' kept.2]
termination_by structural v => v

private theorem compareGrammars_moved_right {strict strict' : Bool} {above above' : List Place} :
    ∀ g h : Grammar (Value Code), GenuineGrammar strict above g → GenuineGrammar strict' above' h →
      ρ.Keeps (grammar h).identities → compareGrammars g (movedGrammar ρ h) = compareGrammars g h
  | ⟨_, name, rules, extras, externals, inline, conflicts, word, supertypes, precedences, _⟩,
    ⟨_, name', rules', extras', externals', inline', conflicts', word', supertypes', precedences',
      _⟩, ⟨rfl, _, g₁, g₂, g₃, g₄, g₅, g₆, g₇, g₈, g₉⟩,
      ⟨rfl, _, h₁, h₂, h₃, h₄, h₅, h₆, h₇, h₈, h₉⟩, kept => by
    simp only [identities, Relocation.keeps_append, and_assoc] at kept
    obtain ⟨k₁, k₂, k₃, k₄, k₅, k₆, k₇, k₈, k₉⟩ := kept
    have name := compare_moved_right name name' g₁ h₁ k₁
    have rules := compareMappings_moved_right rules rules' g₂ h₂ k₂
    have extras := compareLists_moved_right extras extras' g₃ h₃ k₃
    have externals := compareLists_moved_right externals externals' g₄ h₄ k₄
    have inline := compareLists_moved_right inline inline' g₅ h₅ k₅
    have conflicts := compareLists_moved_right conflicts conflicts' g₆ h₆ k₆
    have word := compare_moved_right word word' g₇ h₇ k₇
    have supertypes := compareLists_moved_right supertypes supertypes' g₈ h₈ k₈
    have precedences := compareLists_moved_right precedences precedences' g₉ h₉ k₉
    simp [movedGrammar, compareGrammars, name, rules, extras, externals, inline, conflicts, word,
      supertypes, precedences]
termination_by structural v => v

end

/-- A value equals what it is moved to if nothing in it that equals itself only is moved. -/
theorem compare_moved_self (v : Value Code) (genuine : v.Genuine false [])
    (kept : ρ.Keeps v.identities) : v.compare (v.moved ρ) = some true := by
  rw [compare_moved_right ρ v v genuine genuine kept, compare_self v genuine]

private theorem pairwise_of_genuine {strict : Bool} {above : List Place} :
    ∀ {entries : List (Value Code × Value Code)}, GenuineEntries strict above entries →
      entries.Pairwise fun entry later ↦ later.1.compare entry.1 ≠ some true
  | [], _ => .nil
  | (_, _) :: _, ⟨others, _, more⟩ => .cons others (pairwise_of_genuine more)

private theorem find?_moved_of_perm {entries others : List (Value Code × Value Code)}
    (perm : entries.Perm others) (genuine : GenuineEntries false [] entries)
    (kept : ρ.Keeps (identitiesOfEntries entries))
    (apart : entries.Pairwise fun entry later ↦ entry.1.compare later.1 ≠ some true)
    {entry : Value Code × Value Code} (found : entry ∈ entries) :
    Table.find? (others.map (Prod.map (moved ρ) (moved ρ))) entry.1 = some (entry.2.moved ρ) := by
  have unique : ∀ e ∈ entries, ∀ f ∈ entries, e.1.compare f.1 = some true → e = f :=
    List.Pairwise.forall_of_forall_of_flip (fun _ _ _ ↦ rfl)
      (apart.imp fun differ same ↦ absurd same differ)
      ((pairwise_of_genuine genuine).imp fun differ same ↦ absurd same differ)
  have same {other : Value Code × Value Code} (mem : other ∈ entries) :
      entry.1.compare (other.1.moved ρ) = entry.1.compare other.1 :=
    compare_moved_right ρ entry.1 other.1 (genuine.of_mem found).1 (genuine.of_mem mem).1
      (keeps_of_mem ρ kept mem).1
  unfold Table.find?
  cases there : List.find? (fun other ↦ entry.1.same other.1)
      (others.map (Prod.map (moved ρ) (moved ρ))) with
  | none =>
    have absent := List.find?_eq_none.1 there (entry.map (moved ρ) (moved ρ))
      (List.mem_map_of_mem (perm.mem_iff.1 found))
    simp [Value.same, same found, compare_self _ (genuine.of_mem found).1] at absent
  | some result =>
    obtain ⟨other, mem, rfl⟩ := List.mem_map.1 (List.mem_of_find?_eq_some there)
    replace mem := perm.mem_iff.2 mem
    have equal : entry.1.compare other.1 = some true := by
      simpa [Value.same, same mem] using List.find?_some there
    rw [unique entry found other mem equal]
    rfl

/-- Mappings with the same entries in another order are equal, also if one of them is moved, as long
as nothing in them that equals itself only is moved. -/
theorem compare_moved_of_perm {entries others : Entries (Value Code)}
    (perm : entries.toList.Perm others.toList) (once : others.again = false)
    (genuine : (mapping entries).Genuine false []) (kept : ρ.Keeps (mapping entries).identities)
    (apart : entries.toList.Pairwise fun entry later ↦ entry.1.compare later.1 ≠ some true) :
    (mapping entries).compare ((mapping others).moved ρ) = some true := by
  obtain ⟨place, entries, again⟩ := entries
  obtain ⟨place', others, again'⟩ := others
  obtain ⟨rfl, genuine⟩ := genuine
  obtain rfl : again' = false := once
  have all (some : List (Value Code × Value Code)) (among : some ⊆ entries) :
      compareEntries some (others.map (Prod.map (moved ρ) (moved ρ))) = .some true := by
    induction some with
    | nil => exact compareEntries_nil _
    | cons entry rest ih =>
      rw [List.cons_subset] at among
      exact (compareEntries_cons _ _ _ _).2
        ⟨⟨_, find?_moved_of_perm ρ perm genuine kept apart among.1, compare_moved_self ρ _
          (genuine.of_mem among.1).2 (keeps_of_mem ρ kept among.1).2⟩, ih among.2⟩
  rw [moved, compare, movedMapping, movedEntries_eq_map, compareMappings_eq_true rfl rfl]
  exact ⟨by simpa using perm.length_eq, all entries fun _ found ↦ found⟩

end Value

end GrammarDoc
