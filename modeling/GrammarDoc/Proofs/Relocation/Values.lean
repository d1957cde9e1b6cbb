import GrammarDoc.Rule.Combinators
import GrammarDoc.Rule.Symbols
import GrammarDoc.Value.Access
import Mathlib.Logic.Function.Basic

/-!
# Relocation

Two builds make nothing at the same place, so what one of them makes is not what the other makes,
even where nothing else tells them apart. A relocation moves all that is made in one build to where
the other makes it. How a value is written does not depend on where it was made, and whether two
values are equal only depends on whether they were made at the same place. So all that is looked at
in a value is moved along with it.
-/

namespace GrammarDoc

/-- A way of moving places, no two of them to the same one, in which what is made within a place is
moved along with it. The code of a function may hold values that are moved. -/
structure Relocation (Code : Type) where
  place : Place → Place
  code : Code → Code
  injective : Function.Injective place
  place_part (whole : Place) (title : String) : place (whole.part title) = (place whole).part title
  place_item (whole : Place) (index : Nat) : place (whole.item index) = (place whole).item index
  place_copy (source copying : Place) :
    place (source.copy copying) = (place source).copy (place copying)

attribute [simp] Relocation.place_part Relocation.place_item Relocation.place_copy

variable {Code : Type} (ρ : Relocation Code)

/-- Two places are moved to the same one only if they are the same. -/
@[simp] theorem Relocation.place_inj {p q : Place} : ρ.place p = ρ.place q ↔ p = q :=
  ρ.injective.eq_iff

/-- A number is moved if it is none, since that is told from others by its place. -/
def Double.moved : Double → Double
  | nan place => nan (ρ.place place)
  | number text => number text

namespace Double

/-- A moved number equals the integer that it equalled before. -/
@[simp] theorem toInt?_moved (x : Double) : (x.moved ρ).toInt? = x.toInt? := by
  cases x <;> rfl

/-- Moved numbers are equal if they were before. -/
@[simp] theorem eq_moved (x y : Double) : (x.moved ρ).eq (y.moved ρ) = x.eq y := by
  cases x <;> cases y <;> rfl

/-- Moved numbers are the same only if they were before. -/
@[simp] theorem moved_inj {x y : Double} : x.moved ρ = y.moved ρ ↔ x = y := by
  cases x <;> cases y <;> simp [moved]

end Double

namespace Value

mutual

/-- A value with all places in it moved. -/
def moved : Value Code → Value Code
  | missing => missing
  | bool b => bool b
  | int i => int i
  | double x => double (x.moved ρ)
  | string s => string s
  | list items => list (movedList items)
  | tuple items => tuple (movedItems items)
  | mapping entries => mapping (movedMapping entries)
  | pattern p => pattern p
  | callable f => callable (movedCallable f)
  | builder place => builder (ρ.place place)
  | rule r => rule (movedRule r)
  | grammar g => grammar (movedGrammar g)
  | references r => references (movedReferences r)

/-- A list with all places in it moved. -/
def movedList : Items (Value Code) → Items (Value Code)
  | ⟨place, items, again⟩ => ⟨ρ.place place, movedItems items, again⟩

/-- Some values with all places in them moved. -/
def movedItems : List (Value Code) → List (Value Code)
  | [] => []
  | v :: rest => moved v :: movedItems rest

/-- A mapping with all places in it moved. -/
def movedMapping : Entries (Value Code) → Entries (Value Code)
  | ⟨place, entries, again⟩ => ⟨ρ.place place, movedEntries entries, again⟩

/-- Some keys and their values with all places in them moved. -/
def movedEntries : List (Value Code × Value Code) → List (Value Code × Value Code)
  | [] => []
  | (key, v) :: rest => (moved key, moved v) :: movedEntries rest

/-- A callable with all places in it moved. -/
def movedCallable : Callable (Value Code) Code → Callable (Value Code) Code
  | ⟨place, name, signature, body⟩ => ⟨ρ.place place, name, signature, movedBody body⟩

/-- What a callable does, with all places in it moved. -/
def movedBody : Body (Value Code) Code → Body (Value Code) Code
  | .nothing => .nothing
  | .constant v => .constant (moved v)
  | .code code => .code (ρ.code code)

/-- A rule with all places in it moved. -/
def movedRule : Rule (Value Code) → Rule (Value Code)
  | .bare place => .bare (ρ.place place)
  | .string v => .string (moved v)
  | .pattern v => .pattern (moved v)
  | .blank => .blank
  | .symbol v => .symbol (moved v)
  | .group kind members => .group kind (movedRules members)
  | .wrap kind content => .wrap kind (movedRule content)
  | .prec variant v content => .prec variant (moved v) (movedRule content)
  | .field v content => .field (moved v) (movedRule content)
  | .aliased content named v => .aliased (movedRule content) named (moved v)

/-- Some rules with all places in them moved. -/
def movedRules : List (Rule (Value Code)) → List (Rule (Value Code))
  | [] => []
  | r :: rest => movedRule r :: movedRules rest

/-- A grammar with all places in it moved. -/
def movedGrammar : Grammar (Value Code) → Grammar (Value Code)
  | ⟨place, name, rules, extras, externals, inline, conflicts, word, supertypes, precedences,
      again⟩ =>
    ⟨ρ.place place, moved name, movedMapping rules, movedList extras, movedList externals,
      movedList inline, movedList conflicts, moved word, movedList supertypes,
      movedList precedences, again⟩

/-- References with all places in them moved. -/
def movedReferences : References (Value Code) → References (Value Code)
  | ⟨place, rules, externals, functions⟩ =>
    ⟨ρ.place place, movedMapping rules, movedMapping externals, movedMapping functions⟩

end

/-- Values are moved one by one. -/
@[simp] theorem movedItems_eq_map (items : List (Value Code)) :
    movedItems ρ items = items.map (moved ρ) := by
  induction items with
  | nil => rw [movedItems, List.map_nil]
  | cons v rest ih => rw [movedItems, List.map_cons, ih]

/-- Entries are moved one by one. -/
@[simp] theorem movedEntries_eq_map (entries : List (Value Code × Value Code)) :
    movedEntries ρ entries = entries.map (Prod.map (moved ρ) (moved ρ)) := by
  induction entries with
  | nil => rw [movedEntries, List.map_nil]
  | cons entry rest ih => rw [movedEntries, List.map_cons, ih]; rfl

/-- The entries of a mapping are moved. -/
@[simp] theorem movedMapping_toList (entries : Entries (Value Code)) :
    (movedMapping ρ entries).toList = entries.toList.map (Prod.map (moved ρ) (moved ρ)) := by
  obtain ⟨place, entries, again⟩ := entries
  rw [movedMapping, movedEntries_eq_map]

/-- Rules are moved one by one. -/
@[simp] theorem movedRules_eq_map (rules : List (Rule (Value Code))) :
    movedRules ρ rules = rules.map (movedRule ρ) := by
  induction rules with
  | nil => rw [movedRules, List.map_nil]
  | cons r rest ih => rw [movedRules, List.map_cons, ih]

/-- A moved callable is at the place that its own is moved to. -/
@[simp] theorem movedCallable_place (f : Callable (Value Code) Code) :
    (movedCallable ρ f).place = ρ.place f.place := by
  obtain ⟨place, name, signature, body⟩ := f
  rfl

/-- Moved references are at the place that their own is moved to. -/
@[simp] theorem movedReferences_place (r : References (Value Code)) :
    (movedReferences ρ r).place = ρ.place r.place := by
  obtain ⟨place, rules, externals, functions⟩ := r
  rfl

/-! ### What does not depend on places -/

/-- A moved callable is written as before. -/
@[simp] theorem written_movedCallable (f : Callable (Value Code) Code) :
    (movedCallable ρ f).written = f.written := by
  obtain ⟨place, name, signature, body⟩ := f
  rfl

mutual

/-- A moved value is written as before. -/
@[simp] theorem written_moved : ∀ v : Value Code, (v.moved ρ).written = v.written
  | missing | bool _ | int _ | string _ | pattern _ | builder _ | references _ => by
    simp [moved, written]
  | double x => by
    rw [moved, written, written]
    cases x <;> rfl
  | list items => by rw [moved, written, written, writtenList_moved items]
  | tuple items => by rw [moved, written, written, writtenItems_moved items]
  | mapping entries => by rw [moved, written, written, writtenMapping_moved entries]
  | callable f => by rw [moved, written, written, written_movedCallable]
  | rule r => by rw [moved, written, written, writtenRule_moved r]
  | grammar g => by rw [moved, written, written, writtenGrammar_moved g]

private theorem writtenList_moved :
    ∀ items : Items (Value Code), writtenList (movedList ρ items) = writtenList items
  | ⟨_, items, _⟩ => by rw [movedList, writtenList, writtenList, writtenItems_moved items]

private theorem writtenItems_moved :
    ∀ items : List (Value Code), writtenItems (movedItems ρ items) = writtenItems items
  | [] => by rw [movedItems]
  | v :: rest => by
    rw [movedItems, writtenItems, writtenItems, written_moved v, writtenItems_moved rest]

private theorem writtenMapping_moved :
    ∀ entries : Entries (Value Code),
      writtenMapping (movedMapping ρ entries) = writtenMapping entries
  | ⟨_, entries, _⟩ => by
    rw [movedMapping, writtenMapping, writtenMapping, writtenEntries_moved entries]

private theorem writtenEntries_moved :
    ∀ entries : List (Value Code × Value Code),
      writtenEntries (movedEntries ρ entries) = writtenEntries entries
  | [] => by rw [movedEntries]
  | (key, v) :: rest => by
    rw [movedEntries, writtenEntries, writtenEntries, written_moved key, written_moved v,
      writtenEntries_moved rest]

/-- A moved rule is written as before. -/
@[simp] theorem writtenRule_moved :
    ∀ r : Rule (Value Code), writtenRule (movedRule ρ r) = writtenRule r
  | .bare _ | .blank => by simp only [movedRule, writtenRule]
  | .string v | .pattern v | .symbol v => by
    rw [movedRule, writtenRule, writtenRule, written_moved v]
  | .group _ members => by rw [movedRule, writtenRule, writtenRule, writtenRules_moved members]
  | .wrap _ content => by rw [movedRule, writtenRule, writtenRule, writtenRule_moved content]
  | .prec _ v content | .field v content | .aliased content _ v => by
    rw [movedRule, writtenRule, writtenRule, written_moved v, writtenRule_moved content]

private theorem writtenRules_moved :
    ∀ rules : List (Rule (Value Code)), writtenRules (movedRules ρ rules) = writtenRules rules
  | [] => by rw [movedRules]
  | r :: rest => by
    rw [movedRules, writtenRules, writtenRules, writtenRule_moved r, writtenRules_moved rest]

private theorem writtenGrammar_moved :
    ∀ g : Grammar (Value Code), writtenGrammar (movedGrammar ρ g) = writtenGrammar g
  | ⟨_, name, rules, extras, externals, inline, conflicts, word, supertypes, precedences, _⟩ => by
    rw [movedGrammar, writtenGrammar, writtenGrammar, written_moved name,
      writtenMapping_moved rules, writtenList_moved extras, writtenList_moved externals,
      writtenList_moved inline, writtenList_moved conflicts, written_moved word,
      writtenList_moved supertypes, writtenList_moved precedences]

end

/-- A moved value is shown as before. -/
@[simp] theorem shown_moved (v : Value Code) : (v.moved ρ).shown = v.shown := by
  cases v with
  | string s => simp [moved]
  | missing | bool | int | double | list | tuple | mapping | pattern | callable | builder | rule
  | grammar | references =>
    rw [shown, shown, written_moved]
    all_goals simp [moved]

mutual

/-- A moved value may be looked up if it could be before. -/
@[simp] theorem canBeKey_moved : ∀ v : Value Code, (v.moved ρ).canBeKey = v.canBeKey
  | missing | bool _ | int _ | double _ | string _ | pattern _ | callable _ | builder _
  | references _ | list _ | mapping _ | grammar _ => by simp [moved, canBeKey]
  | tuple items => by rw [moved, canBeKey, canBeKey, allCanBeKeys_moved items]
  | rule r => by rw [moved, canBeKey, canBeKey, ruleCanBeKey_moved r]

private theorem allCanBeKeys_moved :
    ∀ items : List (Value Code), allCanBeKeys (movedItems ρ items) = allCanBeKeys items
  | [] => by rw [movedItems]
  | v :: rest => by
    rw [movedItems, allCanBeKeys, allCanBeKeys, canBeKey_moved v, allCanBeKeys_moved rest]

private theorem ruleCanBeKey_moved :
    ∀ r : Rule (Value Code), ruleCanBeKey (movedRule ρ r) = ruleCanBeKey r
  | .bare _ | .blank => by simp only [movedRule, ruleCanBeKey]
  | .string v | .pattern v | .symbol v => by
    rw [movedRule, ruleCanBeKey, ruleCanBeKey, canBeKey_moved v]
  | .group _ members => by
    rw [movedRule, ruleCanBeKey, ruleCanBeKey, allRulesCanBeKeys_moved members]
  | .wrap _ content => by rw [movedRule, ruleCanBeKey, ruleCanBeKey, ruleCanBeKey_moved content]
  | .prec _ v content | .field v content | .aliased content _ v => by
    rw [movedRule, ruleCanBeKey, ruleCanBeKey, canBeKey_moved v, ruleCanBeKey_moved content]

private theorem allRulesCanBeKeys_moved :
    ∀ rules : List (Rule (Value Code)),
      allRulesCanBeKeys (movedRules ρ rules) = allRulesCanBeKeys rules
  | [] => by rw [movedRules]
  | r :: rest => by
    rw [movedRules, allRulesCanBeKeys, allRulesCanBeKeys, ruleCanBeKey_moved r,
      allRulesCanBeKeys_moved rest]

end

/-! ### Equality of moved values -/

private theorem sameNumber_moved (v w : Value Code) :
    sameNumber (v.moved ρ) (w.moved ρ) = sameNumber v w := by
  have integer (v : Value Code) : (v.moved ρ).integer? = v.integer? := by
    cases v <;> simp [moved, integer?]
  cases v with
  | double x => cases w <;> simp [moved, sameNumber, integer?]
  | bool | int => simp only [moved, sameNumber, integer]
  | missing | string | list | tuple | mapping | pattern | callable | builder | rule | grammar
  | references => simp [moved, sameNumber, integer?]

private theorem sameAgain_moved (p q : Place) (differ : Bool) :
    sameAgain (ρ.place p) (ρ.place q) differ = sameAgain p q differ := by
  simp [sameAgain]

mutual

/-- Moved values are found equal if they were before. -/
@[simp] theorem compare_moved :
    ∀ v w : Value Code, (v.moved ρ).compare (w.moved ρ) = v.compare w
  | bool b, w => by
    have same := sameNumber_moved ρ (bool b) w
    rw [moved] at same ⊢
    rw [compare, compare, same]
  | int i, w => by
    have same := sameNumber_moved ρ (int i) w
    rw [moved] at same ⊢
    rw [compare, compare, same]
  | double x, w => by
    have same := sameNumber_moved ρ (double x) w
    rw [moved] at same ⊢
    rw [compare, compare, same]
  | missing, w | string _, w | pattern _, w | builder _, w | callable _, w | references _, w => by
    cases w <;> simp [moved, compare]
  | list items, w => by
    cases w with
    | list others => simp only [moved, compare, compareLists_moved items others]
    | _ => simp [moved, compare]
  | tuple items, w => by
    cases w with
    | tuple others => simp only [moved, compare, compareItems_moved items others]
    | _ => simp [moved, compare]
  | mapping entries, w => by
    cases w with
    | mapping others => simp only [moved, compare, compareMappings_moved entries others]
    | _ => simp [moved, compare]
  | rule r, w => by
    cases w with
    | rule s => simp only [moved, compare, compareRules_moved r s]
    | _ => simp [moved, compare]
  | grammar g, w => by
    cases w with
    | grammar h => simp only [moved, compare, compareGrammars_moved g h]
    | _ => simp [moved, compare]
termination_by structural v => v

private theorem compareLists_moved :
    ∀ as bs : Items (Value Code),
      compareLists (movedList ρ as) (movedList ρ bs) = compareLists as bs
  | ⟨place, as, again⟩, ⟨other, bs, again'⟩ => by
    have items := compareItems_moved as bs
    simp only [movedItems_eq_map] at items
    simp only [movedList, compareLists, sameAgain_moved, movedItems_eq_map, List.length_map, items]
termination_by structural v => v

private theorem compareItems_moved :
    ∀ as bs : List (Value Code),
      compareItems (movedItems ρ as) (movedItems ρ bs) = compareItems as bs
  | [], [] | [], _ :: _ | _ :: _, [] => by simp only [movedItems, compareItems]
  | a :: as, b :: bs => by
    simp only [movedItems, compareItems, compare_moved a b, compareItems_moved as bs]
termination_by structural v => v

private theorem compareMappings_moved :
    ∀ as bs : Entries (Value Code),
      compareMappings (movedMapping ρ as) (movedMapping ρ bs) = compareMappings as bs
  | ⟨place, as, again⟩, ⟨other, bs, again'⟩ => by
    have entries := compareEntries_moved as bs
    simp only [movedEntries_eq_map] at entries
    simp only [movedMapping, compareMappings, sameAgain_moved, movedEntries_eq_map,
      List.length_map, entries]
termination_by structural v => v

private theorem compareEntries_moved :
    ∀ as bs : List (Value Code × Value Code),
      compareEntries (movedEntries ρ as) (movedEntries ρ bs) = compareEntries as bs
  | [], bs => by rw [movedEntries, compareEntries, compareEntries]
  | (key, v) :: rest, bs => by
    have found : (movedEntries ρ bs).find?
          (fun entry ↦ (key.moved ρ).compare entry.1 == some true) =
        (bs.find? fun entry ↦ key.compare entry.1 == some true).map
          (Prod.map (moved ρ) (moved ρ)) := by
      rw [movedEntries_eq_map, List.find?_map]
      congr 2
      funext entry
      simp only [Function.comp, Prod.map, compare_moved key]
    rw [movedEntries, compareEntries, compareEntries, found, compareEntries_moved rest bs]
    cases bs.find? fun entry ↦ key.compare entry.1 == some true with
    | none => rfl
    | some entry => simp only [Option.map_some, Prod.map, compare_moved v]
termination_by structural v => v

private theorem compareRules_moved :
    ∀ r s : Rule (Value Code), compareRules (movedRule ρ r) (movedRule ρ s) = compareRules r s
  | .bare _, s | .blank, s => by cases s <;> simp [movedRule, compareRules]
  | .string v, s | .pattern v, s | .symbol v, s => by
    cases s <;> simp only [movedRule, compareRules, compare_moved v]
  | .group _ members, s => by
    cases s <;> simp only [movedRule, compareRules, compareMembers_moved members]
  | .wrap _ content, s => by
    cases s <;> simp only [movedRule, compareRules, compareRules_moved content]
  | .prec _ v content, s | .field v content, s | .aliased content _ v, s => by
    cases s <;> simp only [movedRule, compareRules, compare_moved v, compareRules_moved content]
termination_by structural v => v

private theorem compareMembers_moved :
    ∀ rs ss : List (Rule (Value Code)),
      compareMembers (movedRules ρ rs) (movedRules ρ ss) = compareMembers rs ss
  | [], [] | [], _ :: _ | _ :: _, [] => by simp only [movedRules, compareMembers]
  | r :: rs, s :: ss => by
    simp only [movedRules, compareMembers, compareRules_moved r s, compareMembers_moved rs ss]
termination_by structural v => v

private theorem compareGrammars_moved :
    ∀ g h : Grammar (Value Code),
      compareGrammars (movedGrammar ρ g) (movedGrammar ρ h) = compareGrammars g h
  | ⟨_, name, rules, extras, externals, inline, conflicts, word, supertypes, precedences, _⟩,
    ⟨_, _, _, _, _, _, _, _, _, _, _⟩ => by
    simp only [movedGrammar, compareGrammars, sameAgain_moved, compare_moved name,
      compareMappings_moved rules, compareLists_moved extras, compareLists_moved externals,
      compareLists_moved inline, compareLists_moved conflicts, compare_moved word,
      compareLists_moved supertypes, compareLists_moved precedences]
termination_by structural v => v

end

end Value

end GrammarDoc
