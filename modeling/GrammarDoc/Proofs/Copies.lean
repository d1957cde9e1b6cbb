import GrammarDoc.Proofs.Equality
import GrammarDoc.Proofs.Untouched

/-!
# Values that equal their copies

A value equals itself, and a copy of it equals it as well unless something in it equals itself only:
a bare node, a callable object, a builder or references. Nor does it matter how often a value is
copied, or whether what it is compared with is a copy too.
-/

namespace GrammarDoc

/-- Whether nothing is to stand for the collections at some places. -/
def Replacement.Spares {Code : Type} (new : Replacement Code) (places : List Place) : Prop :=
  ∀ place ∈ places, ∀ above, new.list above place = none ∧ new.mapping above place = none

private theorem Replacement.spares_cons {Code : Type} {new : Replacement Code} {place : Place}
    {rest : List Place} :
    new.Spares (place :: rest) ↔
      (∀ above, new.list above place = none ∧ new.mapping above place = none) ∧
        new.Spares rest :=
  List.forall_mem_cons

/-- Some places and others are spared. -/
theorem Replacement.spares_append {Code : Type} {new : Replacement Code}
    {some others : List Place} :
    new.Spares (some ++ others) ↔ new.Spares some ∧ new.Spares others :=
  List.forall_mem_append

namespace Value

variable {Code : Type}

mutual

/-- A value as it can be given: within no collection or grammar does it stand once more, given the
grammars that it stands in, and no mapping has a key twice. If it is to equal its copies, nothing in
it equals itself only. -/
def Genuine (strict : Bool) (above : List Place) : Value Code → Prop
  | missing | bool _ | int _ | double _ | string _ | pattern _ => True
  | list items => GenuineList strict above items
  | tuple items => GenuineItems strict above items
  | mapping entries => GenuineMapping strict above entries
  | callable f => strict = true → f.name ≠ none
  | builder _ => strict = false
  | references ⟨_, rules, externals, functions⟩ =>
    strict = false ∧ GenuineMapping strict above rules ∧ GenuineMapping strict above externals ∧
      GenuineMapping strict above functions
  | rule r => GenuineRule strict above r
  | grammar g => GenuineGrammar strict above g

/-- A list that can be given. -/
def GenuineList (strict : Bool) (above : List Place) : Items (Value Code) → Prop
  | ⟨_, items, again⟩ => again = false ∧ GenuineItems strict above items

/-- Items that can be given. -/
def GenuineItems (strict : Bool) (above : List Place) : List (Value Code) → Prop
  | [] => True
  | v :: rest => Genuine strict above v ∧ GenuineItems strict above rest

/-- A mapping that can be given. -/
def GenuineMapping (strict : Bool) (above : List Place) : Entries (Value Code) → Prop
  | ⟨_, entries, again⟩ => again = false ∧ GenuineEntries strict above entries

/-- Entries that can be given: no key equals one before it. -/
def GenuineEntries (strict : Bool) (above : List Place) :
    List (Value Code × Value Code) → Prop
  | [] => True
  | (key, v) :: rest =>
    (∀ entry ∈ rest, entry.1.compare key ≠ some true) ∧
      (Genuine strict above key ∧ Genuine strict above v) ∧ GenuineEntries strict above rest

/-- A rule with scalars that can be given. -/
def GenuineRule (strict : Bool) (above : List Place) : Rule (Value Code) → Prop
  | .bare _ => strict = false
  | .blank => True
  | .string v | .pattern v | .symbol v => Genuine strict above v
  | .group _ members => GenuineRules strict above members
  | .wrap _ content => GenuineRule strict above content
  | .prec _ v content | .field v content | .aliased content _ v =>
    Genuine strict above v ∧ GenuineRule strict above content

/-- Rules with scalars that can be given. -/
def GenuineRules (strict : Bool) (above : List Place) : List (Rule (Value Code)) → Prop
  | [] => True
  | r :: rest => GenuineRule strict above r ∧ GenuineRules strict above rest

/-- A grammar with parts that can be given. -/
def GenuineGrammar (strict : Bool) (above : List Place) : Grammar (Value Code) → Prop
  | ⟨place, name, rules, extras, externals, inline, conflicts, word, supertypes, precedences,
      again⟩ =>
    again = false ∧ place ∉ above ∧ Genuine strict (place :: above) name ∧
      GenuineMapping strict (place :: above) rules ∧
      GenuineList strict (place :: above) extras ∧
      GenuineList strict (place :: above) externals ∧
      GenuineList strict (place :: above) inline ∧
      GenuineList strict (place :: above) conflicts ∧ Genuine strict (place :: above) word ∧
      GenuineList strict (place :: above) supertypes ∧
      GenuineList strict (place :: above) precedences

end

mutual

/-- Whether a value can be given is found by going through it. -/
def decideGenuine (strict : Bool) (above : List Place) :
    ∀ v : Value Code, Decidable (Genuine strict above v)
  | missing | bool _ | int _ | double _ | string _ | pattern _ => .isTrue (by simp [Genuine])
  | list items =>
    @decidable_of_iff _ (GenuineList strict above items) (by rw [Genuine])
      (decideGenuineList strict above items)
  | tuple items =>
    @decidable_of_iff _ (GenuineItems strict above items) (by rw [Genuine])
      (decideGenuineItems strict above items)
  | mapping entries =>
    @decidable_of_iff _ (GenuineMapping strict above entries) (by rw [Genuine])
      (decideGenuineMapping strict above entries)
  | callable f => decidable_of_iff (strict = true → f.name ≠ none) (by rw [Genuine])
  | builder _ => decidable_of_iff (strict = false) (by rw [Genuine])
  | references ⟨_, rules, externals, functions⟩ =>
    have := decideGenuineMapping strict above rules
    have := decideGenuineMapping strict above externals
    have := decideGenuineMapping strict above functions
    decidable_of_iff (strict = false ∧ GenuineMapping strict above rules ∧
      GenuineMapping strict above externals ∧ GenuineMapping strict above functions)
      (by rw [Genuine])
  | rule r =>
    @decidable_of_iff _ (GenuineRule strict above r) (by rw [Genuine])
      (decideGenuineRule strict above r)
  | grammar g =>
    @decidable_of_iff _ (GenuineGrammar strict above g) (by rw [Genuine])
      (decideGenuineGrammar strict above g)

/-- Whether a list can be given is found by going through it. -/
def decideGenuineList (strict : Bool) (above : List Place) :
    ∀ items : Items (Value Code), Decidable (GenuineList strict above items)
  | ⟨_, items, again⟩ =>
    have := decideGenuineItems strict above items
    decidable_of_iff (again = false ∧ GenuineItems strict above items) (by rw [GenuineList])

/-- Whether items can be given is found by going through them. -/
def decideGenuineItems (strict : Bool) (above : List Place) :
    ∀ items : List (Value Code), Decidable (GenuineItems strict above items)
  | [] => .isTrue (by simp [GenuineItems])
  | v :: rest =>
    have := decideGenuine strict above v
    have := decideGenuineItems strict above rest
    decidable_of_iff (Genuine strict above v ∧ GenuineItems strict above rest)
      (by rw [GenuineItems])

/-- Whether a mapping can be given is found by going through it. -/
def decideGenuineMapping (strict : Bool) (above : List Place) :
    ∀ entries : Entries (Value Code), Decidable (GenuineMapping strict above entries)
  | ⟨_, entries, again⟩ =>
    have := decideGenuineEntries strict above entries
    decidable_of_iff (again = false ∧ GenuineEntries strict above entries)
      (by rw [GenuineMapping])

/-- Whether entries can be given is found by going through them. -/
def decideGenuineEntries (strict : Bool) (above : List Place) :
    ∀ entries : List (Value Code × Value Code), Decidable (GenuineEntries strict above entries)
  | [] => .isTrue (by simp [GenuineEntries])
  | (key, v) :: rest =>
    have := decideGenuine strict above key
    have := decideGenuine strict above v
    have := decideGenuineEntries strict above rest
    decidable_of_iff ((∀ entry ∈ rest, entry.1.compare key ≠ some true) ∧
      (Genuine strict above key ∧ Genuine strict above v) ∧ GenuineEntries strict above rest)
      (by rw [GenuineEntries])

/-- Whether a rule can be given is found by going through it. -/
def decideGenuineRule (strict : Bool) (above : List Place) :
    ∀ r : Rule (Value Code), Decidable (GenuineRule strict above r)
  | .bare _ => decidable_of_iff (strict = false) (by rw [GenuineRule])
  | .blank => .isTrue (by simp [GenuineRule])
  | .string v | .pattern v | .symbol v =>
    @decidable_of_iff _ (Genuine strict above v) (by rw [GenuineRule])
      (decideGenuine strict above v)
  | .group _ members =>
    @decidable_of_iff _ (GenuineRules strict above members) (by rw [GenuineRule])
      (decideGenuineRules strict above members)
  | .wrap _ content =>
    @decidable_of_iff _ (GenuineRule strict above content) (by rw [GenuineRule])
      (decideGenuineRule strict above content)
  | .prec _ v content | .field v content | .aliased content _ v =>
    have := decideGenuine strict above v
    have := decideGenuineRule strict above content
    decidable_of_iff (Genuine strict above v ∧ GenuineRule strict above content)
      (by rw [GenuineRule])

/-- Whether rules can be given is found by going through them. -/
def decideGenuineRules (strict : Bool) (above : List Place) :
    ∀ rules : List (Rule (Value Code)), Decidable (GenuineRules strict above rules)
  | [] => .isTrue (by simp [GenuineRules])
  | r :: rest =>
    have := decideGenuineRule strict above r
    have := decideGenuineRules strict above rest
    decidable_of_iff (GenuineRule strict above r ∧ GenuineRules strict above rest)
      (by rw [GenuineRules])

/-- Whether a grammar can be given is found by going through it. -/
def decideGenuineGrammar (strict : Bool) (above : List Place) :
    ∀ g : Grammar (Value Code), Decidable (GenuineGrammar strict above g)
  | ⟨place, name, rules, extras, externals, inline, conflicts, word, supertypes, precedences,
      again⟩ =>
    have := decideGenuine strict (place :: above) name
    have := decideGenuineMapping strict (place :: above) rules
    have := decideGenuineList strict (place :: above) extras
    have := decideGenuineList strict (place :: above) externals
    have := decideGenuineList strict (place :: above) inline
    have := decideGenuineList strict (place :: above) conflicts
    have := decideGenuine strict (place :: above) word
    have := decideGenuineList strict (place :: above) supertypes
    have := decideGenuineList strict (place :: above) precedences
    decidable_of_iff (again = false ∧ place ∉ above ∧ Genuine strict (place :: above) name ∧
      GenuineMapping strict (place :: above) rules ∧
      GenuineList strict (place :: above) extras ∧
      GenuineList strict (place :: above) externals ∧
      GenuineList strict (place :: above) inline ∧
      GenuineList strict (place :: above) conflicts ∧ Genuine strict (place :: above) word ∧
      GenuineList strict (place :: above) supertypes ∧
      GenuineList strict (place :: above) precedences) (by rw [GenuineGrammar])

end

instance (strict : Bool) (above : List Place) (v : Value Code) :
    Decidable (v.Genuine strict above) :=
  decideGenuine strict above v

/-- The keys and the values of genuine entries are genuine. -/
theorem GenuineEntries.of_mem {strict : Bool} {above : List Place}
    {entries : List (Value Code × Value Code)} (genuine : GenuineEntries strict above entries)
    {entry : Value Code × Value Code} (found : entry ∈ entries) :
    Genuine strict above entry.1 ∧ Genuine strict above entry.2 := by
  induction entries with
  | nil => cases found
  | cons first rest ih =>
    obtain ⟨-, one, more⟩ := genuine
    rcases List.mem_cons.1 found with rfl | later
    · exact one
    · exact ih more later

/-! ### Copies of copies -/

section

variable (copyings : List Place)

/-- A value after it is copied again and again. -/
def copies (v : Value Code) : Value Code := copyings.foldl (fun v copying ↦ v.copied copying) v

/-- A rule after it is copied again and again. -/
def copiesOfRule (r : Rule (Value Code)) : Rule (Value Code) :=
  copyings.foldl (fun r copying ↦ copiedRule copying r) r

/-- The place of what is copied again and again. -/
def placeOfCopies (place : Place) : Place := copyings.foldl Place.copy place

/-- An entry after it is copied again and again. -/
def copiesOfEntry (entry : Value Code × Value Code) : Value Code × Value Code :=
  (copies copyings entry.1, copies copyings entry.2)

/-- A list after it is copied again and again. -/
def copiesOfList (items : Items (Value Code)) : Items (Value Code) :=
  ⟨placeOfCopies copyings items.place, items.toList.map (copies copyings), items.again⟩

/-- A mapping after it is copied again and again. -/
def copiesOfMapping (entries : Entries (Value Code)) : Entries (Value Code) :=
  ⟨placeOfCopies copyings entries.place, entries.toList.map (copiesOfEntry copyings),
    entries.again⟩

/-- A callable object after it is copied again and again; a function is its own copy. -/
def copiesOfCallable (f : Callable (Value Code) Code) : Callable (Value Code) Code :=
  match f.name with
  | some _ => f
  | none => { f with place := placeOfCopies copyings f.place }

/-- A grammar after it is copied again and again. -/
def copiesOfGrammar (g : Grammar (Value Code)) : Grammar (Value Code) where
  place := placeOfCopies copyings g.place
  name := copies copyings g.name
  rules := copiesOfMapping copyings g.rules
  extras := copiesOfList copyings g.extras
  externals := copiesOfList copyings g.externals
  inline := copiesOfList copyings g.inline
  conflicts := copiesOfList copyings g.conflicts
  word := copies copyings g.word
  supertypes := copiesOfList copyings g.supertypes
  precedences := copiesOfList copyings g.precedences
  again := g.again

private theorem copiedEntries_eq_map (copying : Place) (entries : List (Value Code × Value Code)) :
    copiedEntries copying entries =
      entries.map fun entry ↦ (entry.1.copied copying, entry.2.copied copying) := by
  induction entries with
  | nil => rfl
  | cons entry rest ih => rw [copiedEntries, ih, List.map_cons]

private theorem copiedRules_eq_map (copying : Place) (rules : List (Rule (Value Code))) :
    copiedRules copying rules = rules.map (copiedRule copying) := by
  induction rules with
  | nil => rfl
  | cons r rest ih => rw [copiedRules, ih, List.map_cons]

private theorem copiesOfList_nil (items : Items (Value Code)) : copiesOfList [] items = items := by
  obtain ⟨place, items, again⟩ := items
  exact congrArg (Items.mk place · again) (List.map_id _)

private theorem copiesOfMapping_nil (entries : Entries (Value Code)) :
    copiesOfMapping [] entries = entries := by
  obtain ⟨place, entries, again⟩ := entries
  exact congrArg (Entries.mk place · again) (List.map_id _)

private theorem copiesOfList_cons (copying : Place) (items : Items (Value Code)) :
    copiesOfList (copying :: copyings) items =
      copiesOfList copyings (copiedList copying items) := by
  obtain ⟨place, items, again⟩ := items
  rw [copiedList, copiedItems_eq_map, copiesOfList, copiesOfList, List.map_map]
  rfl

private theorem copiesOfMapping_cons (copying : Place) (entries : Entries (Value Code)) :
    copiesOfMapping (copying :: copyings) entries =
      copiesOfMapping copyings (copiedMapping copying entries) := by
  obtain ⟨place, entries, again⟩ := entries
  rw [copiedMapping, copiedEntries_eq_map, copiesOfMapping, copiesOfMapping, List.map_map]
  rfl

private theorem copiesOfCallable_eq_self {f : Callable (Value Code) Code} (named : f.name ≠ none) :
    copiesOfCallable copyings f = f := by
  unfold copiesOfCallable
  cases name : f.name with
  | none => exact absurd name named
  | some _ => rfl

/-- However often a rule is copied, its scalars and the rules under it are. -/
theorem copiesOfRule_eq (r : Rule (Value Code)) :
    copiesOfRule copyings r = match r with
      | .bare place => .bare (placeOfCopies copyings place)
      | .string v => .string (copies copyings v)
      | .pattern v => .pattern (copies copyings v)
      | .blank => .blank
      | .symbol v => .symbol (copies copyings v)
      | .group kind members => .group kind (members.map (copiesOfRule copyings))
      | .wrap kind content => .wrap kind (copiesOfRule copyings content)
      | .prec variant v content =>
        .prec variant (copies copyings v) (copiesOfRule copyings content)
      | .field v content => .field (copies copyings v) (copiesOfRule copyings content)
      | .aliased content named v =>
        .aliased (copiesOfRule copyings content) named (copies copyings v) := by
  induction copyings generalizing r with
  | nil =>
    cases r with
    | group kind members => exact congrArg (Rule.group kind) (List.map_id _).symm
    | bare | string | pattern | blank | symbol | wrap | prec | field | aliased => rfl
  | cons copying rest ih =>
    refine (ih (copiedRule copying r)).trans ?_
    cases r with
    | group kind members =>
      rw [copiedRule, copiedRules_eq_map]
      exact congrArg (Rule.group kind) List.map_map
    | bare | string | pattern | blank | symbol | wrap | prec | field | aliased => rfl

/-- However often a value is copied, its parts are. -/
theorem copies_eq (v : Value Code) :
    copies copyings v = match v with
      | list items => list (copiesOfList copyings items)
      | tuple items => tuple (items.map (copies copyings))
      | mapping entries => mapping (copiesOfMapping copyings entries)
      | callable f => callable (copiesOfCallable copyings f)
      | builder place => builder (placeOfCopies copyings place)
      | rule r => rule (copiesOfRule copyings r)
      | grammar g => grammar (copiesOfGrammar copyings g)
      | references r => references ⟨placeOfCopies copyings r.place,
        copiesOfMapping copyings r.rules, copiesOfMapping copyings r.externals,
        copiesOfMapping copyings r.functions⟩
      | v => v := by
  induction copyings generalizing v with
  | nil =>
    simp only [copiesOfGrammar, copiesOfList_nil, copiesOfMapping_nil]
    -- Nothing is left to copy: both sides come down to the value, part by part.
    cases v with
    | tuple items => exact congrArg tuple (List.map_id _).symm
    | callable f =>
      obtain ⟨place, name, signature, body⟩ := f
      cases name with
      | none => rfl
      | some _ => rfl
    | missing | bool | int | double | string | list | mapping | pattern | builder | rule
    | grammar | references => rfl
  | cons copying rest ih =>
    refine (ih (v.copied copying)).trans ?_
    simp only [copiesOfGrammar, copiesOfList_cons, copiesOfMapping_cons]
    cases v with
    | tuple items =>
      rw [copied, copiedItems_eq_map]
      exact congrArg tuple List.map_map
    | callable f =>
      obtain ⟨place, name, signature, body⟩ := f
      cases name with
      | none => rfl
      | some _ => rfl
    | missing | bool | int | double | string | list | mapping | pattern | builder | rule
    | grammar | references => rfl

end

section

variable (copyings copyings' : List Place)

mutual

/-- However often two values are copied, they are found equal if they were before. -/
theorem compare_copies {above above' : List Place} :
    ∀ v w : Value Code, v.Genuine true above → w.Genuine true above' →
    (v.copies copyings).compare (w.copies copyings') = v.compare w
  | missing, w, _, _ | bool _, w, _, _ | int _, w, _, _ | double _, w, _, _ | string _, w, _, _
  | pattern _, w, _, _ => by
    rw [copies_eq copyings, copies_eq copyings' w]
    cases w with
    | _ => simp [compare, sameNumber, integer?]
  | list as, w, genuine, genuine' => by
    rw [copies_eq copyings, copies_eq copyings' w]
    cases w with
    | list bs =>
      simp only [compare]
      exact compareLists_copies as bs genuine genuine'
    | _ => simp [compare]
  | tuple as, w, genuine, genuine' => by
    rw [copies_eq copyings, copies_eq copyings' w]
    cases w with
    | tuple bs =>
      simp only [compare]
      exact compareItems_copies as bs genuine genuine'
    | _ => simp [compare]
  | mapping as, w, genuine, genuine' => by
    rw [copies_eq copyings, copies_eq copyings' w]
    cases w with
    | mapping bs =>
      simp only [compare]
      exact compareMappings_copies as bs genuine genuine'
    | _ => simp [compare]
  | callable f, w, genuine, genuine' => by
    rw [copies_eq copyings, copies_eq copyings' w]
    cases w with
    | callable f' =>
      simp only [copiesOfCallable_eq_self _ (genuine rfl),
        copiesOfCallable_eq_self _ (genuine' rfl)]
    | _ => simp [compare]
  | builder _, _, genuine, _ => by cases genuine
  | references _, _, genuine, _ => by cases genuine.1
  | rule r, w, genuine, genuine' => by
    rw [copies_eq copyings, copies_eq copyings' w]
    cases w with
    | rule s =>
      simp only [compare]
      exact compareRules_copies r s genuine genuine'
    | _ => simp [compare]
  | grammar g, w, genuine, genuine' => by
    rw [copies_eq copyings, copies_eq copyings' w]
    cases w with
    | grammar h =>
      simp only [compare]
      exact compareGrammars_copies g h genuine genuine'
    | _ => simp [compare]
termination_by structural v => v

/-- However often two lists are copied, they are found equal if they were before. -/
theorem compareLists_copies {above above' : List Place} :
    ∀ as bs : Items (Value Code), GenuineList true above as → GenuineList true above' bs →
    compareLists (copiesOfList copyings as) (copiesOfList copyings' bs) = compareLists as bs
  | ⟨_, as, _⟩, ⟨_, bs, _⟩, ⟨rfl, genuine⟩, ⟨rfl, genuine'⟩ => by
    have items := compareItems_copies as bs genuine genuine'
    simp [copiesOfList, compareLists, items]
termination_by structural v => v

/-- However often items are copied, they are found equal if they were before. -/
theorem compareItems_copies {above above' : List Place} :
    ∀ as bs : List (Value Code), GenuineItems true above as → GenuineItems true above' bs →
    compareItems (as.map (copies copyings)) (bs.map (copies copyings')) = compareItems as bs
  | [], bs, _, _ => by
    cases bs with
    | nil | cons => simp [compareItems]
  | a :: as, bs, ⟨one, more⟩, genuine' => by
    cases bs with
    | nil => simp [compareItems]
    | cons b bs =>
      simp only [List.map_cons, compareItems]
      rw [compare_copies a b one genuine'.1, compareItems_copies as bs more genuine'.2]
termination_by structural v => v

/-- However often two mappings are copied, they are found equal if they were before. -/
theorem compareMappings_copies {above above' : List Place} :
    ∀ as bs : Entries (Value Code), GenuineMapping true above as → GenuineMapping true above' bs →
    compareMappings (copiesOfMapping copyings as) (copiesOfMapping copyings' bs) =
      compareMappings as bs
  | ⟨_, as, _⟩, ⟨_, bs, _⟩, ⟨rfl, genuine⟩, ⟨rfl, genuine'⟩ => by
    have entries := compareEntries_copies as bs genuine genuine'
    simp [copiesOfMapping, compareMappings, entries]
termination_by structural v => v

/-- However often entries are copied, they are found among others if they were before. -/
theorem compareEntries_copies {above above' : List Place} :
    ∀ as bs : List (Value Code × Value Code),
    GenuineEntries true above as → GenuineEntries true above' bs →
    compareEntries (as.map (copiesOfEntry copyings)) (bs.map (copiesOfEntry copyings')) =
      compareEntries as bs
  | [], _, _, _ => by rw [List.map_nil, compareEntries, compareEntries]
  | (key, v) :: as, bs, ⟨_, one, more⟩, genuine' => by
    have keys : (bs.map (copiesOfEntry copyings')).find?
          (fun entry ↦ (key.copies copyings).compare entry.1 == some true) =
        (bs.find? fun entry ↦ key.compare entry.1 == some true).map
          (copiesOfEntry copyings') := by
      rw [List.find?_map, ← List.head?_filter, ← List.head?_filter]
      exact congrArg (fun found ↦ Option.map _ (List.head? found))
        (List.filter_congr fun entry found ↦ by
          simp only [Function.comp_apply, copiesOfEntry,
            compare_copies key entry.1 one.1 (genuine'.of_mem found).1])
    rw [List.map_cons, copiesOfEntry, compareEntries, compareEntries, keys,
      compareEntries_copies as bs more genuine']
    cases there : bs.find? fun entry ↦ key.compare entry.1 == some true with
    | none => rfl
    | some entry =>
      have genuine'' := genuine'.of_mem (List.mem_of_find?_eq_some there)
      simp only [Option.map_some, copiesOfEntry, compare_copies v entry.2 one.2 genuine''.2]
termination_by structural v => v

/-- However often two rules are copied, they are found equal if they were before. -/
theorem compareRules_copies {above above' : List Place} :
    ∀ r s : Rule (Value Code), GenuineRule true above r → GenuineRule true above' s →
    compareRules (copiesOfRule copyings r) (copiesOfRule copyings' s) = compareRules r s
  | .bare _, _, genuine, _ => by cases genuine
  | .blank, s, _, _ => by
    rw [copiesOfRule_eq copyings, copiesOfRule_eq copyings' s]
    cases s with
    | _ => simp [compareRules]
  | .string v, s, genuine, genuine' => by
    rw [copiesOfRule_eq copyings, copiesOfRule_eq copyings' s]
    cases s with
    | string w => simp only [compareRules, compare_copies v w genuine genuine']
    | _ => simp [compareRules]
  | .pattern v, s, genuine, genuine' => by
    rw [copiesOfRule_eq copyings, copiesOfRule_eq copyings' s]
    cases s with
    | pattern w => simp only [compareRules, compare_copies v w genuine genuine']
    | _ => simp [compareRules]
  | .symbol v, s, genuine, genuine' => by
    rw [copiesOfRule_eq copyings, copiesOfRule_eq copyings' s]
    cases s with
    | symbol w => simp only [compareRules, compare_copies v w genuine genuine']
    | _ => simp [compareRules]
  | .group _ as, s, genuine, genuine' => by
    rw [copiesOfRule_eq copyings, copiesOfRule_eq copyings' s]
    cases s with
    | group _ bs => simp only [compareRules, compareMembers_copies as bs genuine genuine']
    | _ => simp [compareRules]
  | .wrap _ r, s, genuine, genuine' => by
    rw [copiesOfRule_eq copyings, copiesOfRule_eq copyings' s]
    cases s with
    | wrap _ s => simp only [compareRules, compareRules_copies r s genuine genuine']
    | _ => simp [compareRules]
  | .prec _ v r, s, genuine, genuine' => by
    rw [copiesOfRule_eq copyings, copiesOfRule_eq copyings' s]
    cases s with
    | prec _ w s =>
      simp only [compareRules, compare_copies v w genuine.1 genuine'.1,
        compareRules_copies r s genuine.2 genuine'.2]
    | _ => simp [compareRules]
  | .field v r, s, genuine, genuine' => by
    rw [copiesOfRule_eq copyings, copiesOfRule_eq copyings' s]
    cases s with
    | field w s =>
      simp only [compareRules, compare_copies v w genuine.1 genuine'.1,
        compareRules_copies r s genuine.2 genuine'.2]
    | _ => simp [compareRules]
  | .aliased r _ v, s, genuine, genuine' => by
    rw [copiesOfRule_eq copyings, copiesOfRule_eq copyings' s]
    cases s with
    | aliased s _ w =>
      simp only [compareRules, compare_copies v w genuine.1 genuine'.1,
        compareRules_copies r s genuine.2 genuine'.2]
    | _ => simp [compareRules]
termination_by structural v => v

/-- However often rules are copied, they are found equal if they were before. -/
theorem compareMembers_copies {above above' : List Place} :
    ∀ rs ss : List (Rule (Value Code)), GenuineRules true above rs → GenuineRules true above' ss →
    compareMembers (rs.map (copiesOfRule copyings)) (ss.map (copiesOfRule copyings')) =
      compareMembers rs ss
  | [], ss, _, _ => by
    cases ss with
    | nil | cons => simp [compareMembers]
  | r :: rs, ss, ⟨one, more⟩, genuine' => by
    cases ss with
    | nil => simp [compareMembers]
    | cons s ss =>
      simp only [List.map_cons, compareMembers]
      rw [compareRules_copies r s one genuine'.1, compareMembers_copies rs ss more genuine'.2]
termination_by structural v => v

/-- However often two grammars are copied, they are found equal if they were before. -/
theorem compareGrammars_copies {above above' : List Place} :
    ∀ g h : Grammar (Value Code), GenuineGrammar true above g → GenuineGrammar true above' h →
    compareGrammars (copiesOfGrammar copyings g) (copiesOfGrammar copyings' h) =
      compareGrammars g h
  | ⟨_, name, rules, extras, externals, inline, conflicts, word, supertypes, precedences, _⟩,
    ⟨_, name', rules', extras', externals', inline', conflicts', word', supertypes', precedences',
      _⟩, ⟨rfl, _, g₁, g₂, g₃, g₄, g₅, g₆, g₇, g₈, g₉⟩,
      ⟨rfl, _, h₁, h₂, h₃, h₄, h₅, h₆, h₇, h₈, h₉⟩ => by
    rw [copiesOfGrammar, copiesOfGrammar, compareGrammars, compareGrammars]
    simp only [Bool.or_self, Bool.false_eq_true, if_false, compare_copies name name' g₁ h₁,
      compareMappings_copies rules rules' g₂ h₂, compareLists_copies extras extras' g₃ h₃,
      compareLists_copies externals externals' g₄ h₄, compareLists_copies inline inline' g₅ h₅,
      compareLists_copies conflicts conflicts' g₆ h₆, compare_copies word word' g₇ h₇,
      compareLists_copies supertypes supertypes' g₈ h₈,
      compareLists_copies precedences precedences' g₉ h₉]
termination_by structural v => v

end

end

mutual

/-- A value that can be given is found equal to itself. -/
theorem compare_self {strict : Bool} {above : List Place} :
    ∀ v : Value Code, v.Genuine strict above → v.compare v = some true
  | missing, _ | builder _, _ | callable _, _ | references _, _ | string _, _ | pattern _, _ => by
    simp [compare]
  | bool b, _ => by simp [compare, sameNumber, integer?]
  | int i, _ => by simp [compare, sameNumber, integer?]
  | double x, _ => by simp [compare, sameNumber]
  | list items, genuine => by
    rw [compare]
    exact compareLists_self items genuine
  | tuple items, genuine => by
    rw [compare]
    exact compareItems_self items genuine
  | mapping entries, genuine => by
    rw [compare]
    exact compareMappings_self entries genuine
  | rule r, genuine => by
    rw [compare]
    exact compareRules_self r genuine
  | grammar g, genuine => by
    rw [compare]
    exact compareGrammars_self g genuine

/-- A list that can be given is found equal to itself. -/
theorem compareLists_self {strict : Bool} {above : List Place} :
    ∀ items : Items (Value Code), GenuineList strict above items →
    compareLists items items = some true
  | ⟨_, items, _⟩, ⟨rfl, genuine⟩ => by simp [compareLists, compareItems_self items genuine]

/-- Items that can be given are found equal to themselves. -/
theorem compareItems_self {strict : Bool} {above : List Place} :
    ∀ items : List (Value Code), GenuineItems strict above items →
    compareItems items items = some true
  | [], _ => by rw [compareItems]
  | v :: rest, ⟨one, more⟩ => by
    rw [compareItems, compare_self v one, compareItems_self rest more]
    rfl

/-- A mapping that can be given is found equal to itself. -/
theorem compareMappings_self {strict : Bool} {above : List Place} :
    ∀ entries : Entries (Value Code), GenuineMapping strict above entries →
    compareMappings entries entries = some true
  | ⟨_, entries, _⟩, ⟨rfl, genuine⟩ => by
    have all := compareEntries_self [] entries genuine fun _ none ↦ absurd none List.not_mem_nil
    simpa [compareMappings] using all

/-- Entries that can be given are found where they stand among others. -/
theorem compareEntries_self {strict : Bool} {above : List Place}
    (earlier : List (Value Code × Value Code)) :
    ∀ entries : List (Value Code × Value Code), GenuineEntries strict above entries →
    (∀ other ∈ earlier, ∀ entry ∈ entries, entry.1.compare other.1 ≠ some true) →
    compareEntries entries (earlier ++ entries) = some true
  | [], _, _ => by rw [compareEntries]
  | (key, v) :: rest, ⟨new, one, more⟩, distinct => by
    have first : earlier.find? (fun entry ↦ key.compare entry.1 == some true) = none :=
      List.find?_eq_none.2 fun other ho ↦ by
        simpa using distinct other ho (key, v) List.mem_cons_self
    have found : (earlier ++ (key, v) :: rest).find?
        (fun entry ↦ key.compare entry.1 == some true) = some (key, v) := by
      rw [List.find?_append, first, Option.none_or]
      exact List.find?_cons_of_pos (by simp [compare_self key one.1])
    have later := compareEntries_self (earlier ++ [(key, v)]) rest more fun other ho entry he ↦ by
      rcases List.mem_append.1 ho with before | this
      · exact distinct other before entry (List.mem_cons_of_mem _ he)
      · rw [List.mem_singleton.1 this]
        exact new entry he
    rw [List.append_assoc, List.singleton_append] at later
    rw [compareEntries, found]
    simp only [compare_self v one.2, later, Verdict.both]

/-- A rule that can be given is found equal to itself. -/
theorem compareRules_self {strict : Bool} {above : List Place} :
    ∀ r : Rule (Value Code), GenuineRule strict above r → compareRules r r = some true
  | .bare _, _ | .blank, _ => by simp [compareRules]
  | .string v, genuine | .pattern v, genuine | .symbol v, genuine => by
    rw [compareRules]
    exact compare_self v genuine
  | .group _ members, genuine => by
    rw [compareRules, if_pos rfl]
    exact compareMembers_self members genuine
  | .wrap _ content, genuine => by
    rw [compareRules, if_pos rfl]
    exact compareRules_self content genuine
  | .prec _ v content, ⟨scalar, genuine⟩ | .field v content, ⟨scalar, genuine⟩
  | .aliased content _ v, ⟨scalar, genuine⟩ => by
    simp [compareRules, compare_self v scalar, compareRules_self content genuine, Verdict.both]

/-- Rules that can be given are found equal to themselves. -/
theorem compareMembers_self {strict : Bool} {above : List Place} :
    ∀ rules : List (Rule (Value Code)), GenuineRules strict above rules →
    compareMembers rules rules = some true
  | [], _ => by rw [compareMembers]
  | r :: rest, ⟨one, more⟩ => by
    rw [compareMembers, compareRules_self r one, compareMembers_self rest more]
    rfl

/-- A grammar that can be given is found equal to itself. -/
theorem compareGrammars_self {strict : Bool} {above : List Place} :
    ∀ g : Grammar (Value Code), GenuineGrammar strict above g → compareGrammars g g = some true
  | ⟨_, name, rules, extras, externals, inline, conflicts, word, supertypes, precedences, _⟩,
    ⟨rfl, _, g₁, g₂, g₃, g₄, g₅, g₆, g₇, g₈, g₉⟩ => by
    simp [compareGrammars, compare_self name g₁, compareMappings_self rules g₂,
      compareLists_self extras g₃, compareLists_self externals g₄, compareLists_self inline g₅,
      compareLists_self conflicts g₆, compare_self word g₇, compareLists_self supertypes g₈,
      compareLists_self precedences g₉, Verdict.both]

end

/-- A mapping made anew of the same entries equals the mapping. -/
theorem compareMappings_anew {strict : Bool} {above : List Place} (place : Place)
    {entries : Entries (Value Code)} (genuine : GenuineMapping strict above entries) :
    compareMappings ⟨place, entries.toList, false⟩ entries = some true := by
  have same := compareMappings_self entries genuine
  obtain ⟨other, entries, again⟩ := entries
  obtain ⟨rfl, -⟩ := genuine
  simpa [compareMappings] using same

/-- A list made anew of the same items equals the list. -/
theorem compareLists_anew {strict : Bool} {above : List Place} (place : Place)
    {items : Items (Value Code)} (genuine : GenuineList strict above items) :
    compareLists ⟨place, items.toList, false⟩ items = some true := by
  have same := compareLists_self items genuine
  obtain ⟨other, items, again⟩ := items
  obtain ⟨rfl, -⟩ := genuine
  simpa [compareLists] using same

/-! ### Values that have not been changed -/

section

variable {new : Replacement Code}

mutual

/-- A value is as it was if none of the collections in it is replaced. -/
theorem replaced_eq_self {strict : Bool} {above : List Place} :
    ∀ v : Value Code, v.Genuine strict above → new.Spares v.places → v.replaced new above = v
  | missing, _, _ | bool _, _, _ | int _, _, _ | double _, _, _ | string _, _, _ | pattern _, _, _
  | callable _, _, _ | builder _, _, _ => by simp [Value.replaced]
  | list items, genuine, spares => by
    rw [Value.replaced, replacedList_eq_self items genuine spares]
  | tuple items, genuine, spares => by
    rw [Value.replaced, replacedItems_eq_self items genuine spares]
  | mapping entries, genuine, spares => by
    rw [Value.replaced, replacedMapping_eq_self entries genuine spares]
  | rule r, genuine, spares => by
    rw [Value.replaced, replacedRule_eq_self r genuine spares]
  | grammar g, genuine, spares => by
    rw [Value.replaced, replacedGrammar_eq_self g genuine spares]
  | references ⟨_, rules, externals, functions⟩, ⟨_, g₁, g₂, g₃⟩, spares => by
    simp only [places, Replacement.spares_append] at spares
    rw [Value.replaced, replacedMapping_eq_self rules g₁ spares.1.1,
      replacedMapping_eq_self externals g₂ spares.1.2,
      replacedMapping_eq_self functions g₃ spares.2]

/-- A list is as it was if none of the collections in it is replaced. -/
theorem replacedList_eq_self {strict : Bool} {above : List Place} :
    ∀ items : Items (Value Code), GenuineList strict above items →
    new.Spares (placesOfList items) → replacedList new above items = items
  | ⟨place, items, _⟩, ⟨rfl, genuine⟩, spares => by
    rw [placesOfList, Replacement.spares_cons] at spares
    rw [replacedList, (spares.1 above).1, replacedItems_eq_self items genuine spares.2]

/-- Items are as they were if none of the collections in them is replaced. -/
theorem replacedItems_eq_self {strict : Bool} {above : List Place} :
    ∀ items : List (Value Code), GenuineItems strict above items →
    new.Spares (placesOfItems items) → replacedItems new above items = items
  | [], _, _ => by rw [replacedItems]
  | v :: rest, ⟨one, more⟩, spares => by
    rw [placesOfItems, Replacement.spares_append] at spares
    rw [replacedItems, replaced_eq_self v one spares.1, replacedItems_eq_self rest more spares.2]

/-- A mapping is as it was if none of the collections in it is replaced. -/
theorem replacedMapping_eq_self {strict : Bool} {above : List Place} :
    ∀ entries : Entries (Value Code), GenuineMapping strict above entries →
    new.Spares (placesOfMapping entries) → replacedMapping new above entries = entries
  | ⟨place, entries, _⟩, ⟨rfl, genuine⟩, spares => by
    rw [placesOfMapping, Replacement.spares_cons] at spares
    rw [replacedMapping, (spares.1 above).2, replacedEntries_eq_self entries genuine spares.2]

/-- Entries are as they were if none of the collections in them is replaced. -/
theorem replacedEntries_eq_self {strict : Bool} {above : List Place} :
    ∀ entries : List (Value Code × Value Code), GenuineEntries strict above entries →
    new.Spares (placesOfEntries entries) → replacedEntries new above entries = entries
  | [], _, _ => by rw [replacedEntries]
  | (key, v) :: rest, ⟨_, one, more⟩, spares => by
    simp only [placesOfEntries, Replacement.spares_append] at spares
    rw [replacedEntries, replaced_eq_self key one.1 spares.1.1,
      replaced_eq_self v one.2 spares.1.2, replacedEntries_eq_self rest more spares.2]

/-- A rule is as it was if none of the collections in it is replaced. -/
theorem replacedRule_eq_self {strict : Bool} {above : List Place} :
    ∀ r : Rule (Value Code), GenuineRule strict above r →
    new.Spares (placesOfRule r) → replacedRule new above r = r
  | .bare _, _, _ | .blank, _, _ => by simp [replacedRule]
  | .string v, genuine, spares | .pattern v, genuine, spares | .symbol v, genuine, spares => by
    rw [replacedRule, replaced_eq_self v genuine spares]
  | .group _ members, genuine, spares => by
    rw [replacedRule, replacedRules_eq_self members genuine spares]
  | .wrap _ content, genuine, spares => by
    rw [replacedRule, replacedRule_eq_self content genuine spares]
  | .prec _ v content, ⟨scalar, genuine⟩, spares | .field v content, ⟨scalar, genuine⟩, spares
  | .aliased content _ v, ⟨scalar, genuine⟩, spares => by
    rw [placesOfRule, Replacement.spares_append] at spares
    rw [replacedRule, replaced_eq_self v scalar spares.1,
      replacedRule_eq_self content genuine spares.2]

/-- Rules are as they were if none of the collections in them is replaced. -/
theorem replacedRules_eq_self {strict : Bool} {above : List Place} :
    ∀ rules : List (Rule (Value Code)), GenuineRules strict above rules →
    new.Spares (placesOfRules rules) → replacedRules new above rules = rules
  | [], _, _ => by rw [replacedRules]
  | r :: rest, ⟨one, more⟩, spares => by
    rw [placesOfRules, Replacement.spares_append] at spares
    rw [replacedRules, replacedRule_eq_self r one spares.1,
      replacedRules_eq_self rest more spares.2]

/-- A grammar is as it was if none of the collections in it is replaced. -/
theorem replacedGrammar_eq_self {strict : Bool} {above : List Place} :
    ∀ g : Grammar (Value Code), GenuineGrammar strict above g →
    new.Spares (grammar g).places → replacedGrammar new above g = g
  | ⟨_, name, rules, extras, externals, inline, conflicts, word, supertypes, precedences, _⟩,
    ⟨rfl, new, g₁, g₂, g₃, g₄, g₅, g₆, g₇, g₈, g₉⟩, spares => by
    simp only [places, Replacement.spares_append] at spares
    obtain ⟨⟨⟨⟨⟨⟨⟨⟨s₁, s₂⟩, s₃⟩, s₄⟩, s₅⟩, s₆⟩, s₇⟩, s₈⟩, s₉⟩ := spares
    rw [replacedGrammar, if_neg new]
    simp only [replaced_eq_self name g₁ s₁, replacedMapping_eq_self rules g₂ s₂,
      replacedList_eq_self extras g₃ s₃, replacedList_eq_self externals g₄ s₄,
      replacedList_eq_self inline g₅ s₅, replacedList_eq_self conflicts g₆ s₆,
      replaced_eq_self word g₇ s₇, replacedList_eq_self supertypes g₈ s₈,
      replacedList_eq_self precedences g₉ s₉]

end

end

end Value

namespace Store

variable {Code : Type} {store : Store Code} {strict : Bool} {v : Value Code}

/-- Whether none of the collections at some places has been changed. -/
def Spares (store : Store Code) (places : List Place) : Prop :=
  ∀ place ∈ places, store.lists.lookup place = none ∧ store.mappings.lookup place = none

/-- A value is as it was made if none of the collections in it has been changed. -/
theorem present_eq_self (genuine : v.Genuine strict []) (spared : store.Spares v.places) :
    store.present v = v := by
  by_cases empty : store.isEmpty
  · exact if_pos empty
  · rw [present, if_neg empty, presentWithin]
    exact Value.replaced_eq_self v genuine fun place found _ ↦
      ⟨Option.map_eq_none_iff.2 (spared place found).1,
        Option.map_eq_none_iff.2 (spared place found).2⟩

/-- An empty mapping is empty if nothing has been changed at its place. -/
theorem present_empty_mapping {place : Place} (spared : store.Spares [place]) :
    store.present (.mapping ⟨place, [], false⟩) = .mapping ⟨place, [], false⟩ := by
  have genuine : (Value.mapping ⟨place, [], false⟩ : Value Code).Genuine false [] :=
    ⟨rfl, trivial⟩
  exact present_eq_self genuine spared

/-- Only copying a value with changed collections in it changes the store. -/
theorem copy_snd_eq_self (copying : Place) (genuine : v.Genuine strict [])
    (spared : store.Spares v.places) : (store.copy copying v).2 = store := by
  have unchanged {β : Type} {changed : List (Place × β)} {entry : Place × β}
      (he : entry ∈ changed) : changed.lookup entry.1 ≠ none := fun none ↦ by
    have other := List.lookup_eq_none_iff.1 none entry he
    simp at other
  have lists (entry : Place × List (Value Code)) (he : entry ∈ store.lists) :
      entry.1 ∉ v.places := fun found ↦ unchanged he (spared _ found).1
  have mappings (entry : Place × List (Value Code × Value Code)) (he : entry ∈ store.mappings) :
      entry.1 ∉ v.places := fun found ↦ unchanged he (spared _ found).2
  unfold copy
  rw [present_eq_self genuine spared]
  dsimp only
  rw [List.filterMap_eq_nil_iff.2 fun entry he ↦ if_neg (lists entry he),
    List.filterMap_eq_nil_iff.2 fun entry he ↦ if_neg (mappings entry he)]
  rfl

end Store

end GrammarDoc
