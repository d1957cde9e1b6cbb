import GrammarDoc.Proofs.Names
import Mathlib.Data.List.Forall2

/-!
# Comparisons that find equality

When a comparison ends and finds two values equal, read off from what they are made of: items one by
one, entries key by key, nodes one by one. Collections that stand inside of themselves are left out,
since their comparison looks at their identity.
-/

namespace GrammarDoc

variable {Code : Type}

/-- Two comparisons both find equality if each of them does. -/
@[simp] theorem Verdict.both_eq_true (first second : Verdict) :
    first.both second = some true ↔ first = some true ∧ second = some true := by
  match first with
  | none | some false => simp [both]
  | some true => simp [both]

namespace Value

/-- Two values that are found equal. -/
def Alike (v w : Value Code) : Prop := v.compare w = some true

/-- Truth values are found equal if they are the same. -/
@[simp] theorem compare_bool (b c : Bool) :
    (bool b : Value Code).compare (bool c) = some true ↔ b = c := by
  cases b <;> cases c <;> simp [compare, sameNumber, integer?]

/-- Strings are found equal if they are the same. -/
@[simp] theorem compare_string (s t : String) :
    (string s : Value Code).compare (string t) = some true ↔ s = t := by
  simp [compare]

/-- Items are found equal if they are so one by one. -/
theorem compareItems_eq_true {vs ws : List (Value Code)} :
    compareItems vs ws = some true ↔ List.Forall₂ Alike vs ws := by
  induction vs generalizing ws with
  | nil => cases ws <;> simp [compareItems]
  | cons v vs ih =>
    cases ws with
    | nil => simp [compareItems]
    | cons w ws => simp [compareItems, ih, Alike]

/-- Rules are found equal if they are so one by one. -/
theorem compareMembers_eq_true {rs ss : List (Rule (Value Code))} :
    compareMembers rs ss = some true ↔
      List.Forall₂ (fun r s ↦ compareRules r s = some true) rs ss := by
  induction rs generalizing ss with
  | nil => cases ss <;> simp [compareMembers]
  | cons r rs ih =>
    cases ss with
    | nil => simp [compareMembers]
    | cons s ss => simp [compareMembers, ih]

/-- Lists that are gone into are found equal if their items are. -/
theorem compareLists_eq_true {as bs : Items (Value Code)} (once : as.again = false)
    (once' : bs.again = false) :
    compareLists as bs = some true ↔ List.Forall₂ Alike as.toList bs.toList := by
  obtain ⟨p, vs, again⟩ := as
  obtain ⟨q, ws, again'⟩ := bs
  subst once once'
  by_cases length : vs.length = ws.length
  · simp [compareLists, length, compareItems_eq_true]
  · simp only [compareLists, length, bne_iff_ne, ne_eq, not_false_eq_true]
    exact iff_of_false (by simp) fun same ↦ length same.length_eq

/-- No entries are among those of any mapping. -/
@[simp] theorem compareEntries_nil (others : List (Value Code × Value Code)) :
    compareEntries [] others = some true := by
  rw [compareEntries]

/-- Entries are among those of another mapping if each key is there, with a value that is found
equal. -/
@[simp] theorem compareEntries_cons (key v : Value Code)
    (rest others : List (Value Code × Value Code)) :
    compareEntries ((key, v) :: rest) others = some true ↔
      (∃ w, Table.find? others key = some w ∧ v.compare w = some true) ∧
        compareEntries rest others = some true := by
  rw [compareEntries, Table.find?]
  simp only [same]
  cases List.find? (fun entry ↦ key.compare entry.1 == some true) others with
  | none => simp
  | some entry => simp

/-- Mappings that are gone into are found equal if they have as many entries, and each entry of the
one is among those of the other. -/
theorem compareMappings_eq_true {as bs : Entries (Value Code)} (once : as.again = false)
    (once' : bs.again = false) :
    compareMappings as bs = some true ↔
      as.toList.length = bs.toList.length ∧ compareEntries as.toList bs.toList = some true := by
  obtain ⟨p, entries, again⟩ := as
  obtain ⟨q, others, again'⟩ := bs
  subst once once'
  by_cases length : entries.length = others.length <;> simp [compareMappings, length]

/-- Documents that are gone into are found equal if they are so part by part. -/
theorem compareGrammars_eq_true {g h : Grammar (Value Code)} (once : g.again = false)
    (once' : h.again = false) :
    compareGrammars g h = some true ↔
      g.name.compare h.name = some true ∧ compareMappings g.rules h.rules = some true ∧
      compareLists g.extras h.extras = some true ∧
      compareLists g.externals h.externals = some true ∧
      compareLists g.inline h.inline = some true ∧
      compareLists g.conflicts h.conflicts = some true ∧ g.word.compare h.word = some true ∧
      compareLists g.supertypes h.supertypes = some true ∧
      compareLists g.precedences h.precedences = some true := by
  obtain ⟨place, name, rules, extras, externals, inline, conflicts, word, supertypes, precedences,
    again⟩ := g
  subst once
  simp [compareGrammars, once']

/-! ### Equal values in a namespace -/

private theorem canBeKey_of_sameNumber {v w : Value Code} (h : sameNumber v w = true) :
    w.canBeKey = true := by
  cases w with
  | list | mapping | grammar => simp [sameNumber, integer?] at h
  | tuple | rule => simp [sameNumber, integer?] at h
  | missing | bool | int | double | string | pattern | callable | builder | references =>
    simp [canBeKey]

mutual

/-- Of two values that are found equal, both may be looked up or neither. -/
theorem canBeKey_eq_of_compare :
    ∀ {v w : Value Code}, v.compare w = some true → v.canBeKey = w.canBeKey
  | bool _, w, h | int _, w, h | double _, w, h => by
    rw [compare, Option.some_inj] at h
    simp [canBeKey_of_sameNumber h, canBeKey]
  | tuple items, w, h => by
    cases w with
    | tuple others =>
      rw [compare] at h
      rw [canBeKey, canBeKey, allCanBeKeys_eq_of_compareItems h]
    | _ => simp [compare] at h
  | rule r, w, h => by
    cases w with
    | rule s =>
      rw [compare] at h
      rw [canBeKey, canBeKey, ruleCanBeKey_eq_of_compareRules h]
    | _ => simp [compare] at h
  | missing, w, h | string _, w, h | pattern _, w, h | callable _, w, h | builder _, w, h
  | references _, w, h | list _, w, h | mapping _, w, h | grammar _, w, h => by
    cases w <;> simp [compare] at h
    all_goals simp [canBeKey]

private theorem allCanBeKeys_eq_of_compareItems :
    ∀ {vs ws : List (Value Code)}, compareItems vs ws = some true →
      allCanBeKeys vs = allCanBeKeys ws
  | [], [], _ => rfl
  | v :: vs, w :: ws, h => by
    rw [compareItems, Verdict.both_eq_true] at h
    rw [allCanBeKeys, allCanBeKeys, canBeKey_eq_of_compare h.1,
      allCanBeKeys_eq_of_compareItems h.2]
  | [], _ :: _, h | _ :: _, [], h => by simp [compareItems] at h

private theorem ruleCanBeKey_eq_of_compareRules :
    ∀ {r s : Rule (Value Code)}, compareRules r s = some true → ruleCanBeKey r = ruleCanBeKey s
  | .bare _, s, h | .blank, s, h => by
    cases s <;> simp [compareRules] at h
    all_goals simp [ruleCanBeKey]
  | .string v, s, h | .pattern v, s, h | .symbol v, s, h => by
    cases s <;> simp only [compareRules, Option.some.injEq, Bool.false_eq_true] at h
    rw [ruleCanBeKey, ruleCanBeKey, canBeKey_eq_of_compare h]
  | .group _ members, s, h => by
    cases s <;> simp only [compareRules, Option.some.injEq, Bool.false_eq_true] at h
    split at h
    · rw [ruleCanBeKey, ruleCanBeKey, allRulesCanBeKeys_eq_of_compareMembers h]
    · simp at h
  | .wrap _ content, s, h => by
    cases s <;> simp only [compareRules, Option.some.injEq, Bool.false_eq_true] at h
    split at h
    · rw [ruleCanBeKey, ruleCanBeKey, ruleCanBeKey_eq_of_compareRules h]
    · simp at h
  | .prec _ v content, s, h => by
    cases s <;> simp only [compareRules, Option.some.injEq, Bool.false_eq_true,
      Verdict.both_eq_true] at h
    rw [ruleCanBeKey, ruleCanBeKey, canBeKey_eq_of_compare h.1,
      ruleCanBeKey_eq_of_compareRules h.2.1]
  | .field v content, s, h => by
    cases s <;> simp only [compareRules, Option.some.injEq, Bool.false_eq_true,
      Verdict.both_eq_true] at h
    rw [ruleCanBeKey, ruleCanBeKey, canBeKey_eq_of_compare h.1,
      ruleCanBeKey_eq_of_compareRules h.2]
  | .aliased content _ v, s, h => by
    cases s <;> simp only [compareRules, Option.some.injEq, Bool.false_eq_true,
      Verdict.both_eq_true] at h
    rw [ruleCanBeKey, ruleCanBeKey, ruleCanBeKey_eq_of_compareRules h.1,
      canBeKey_eq_of_compare h.2.2]

private theorem allRulesCanBeKeys_eq_of_compareMembers :
    ∀ {rs ss : List (Rule (Value Code))}, compareMembers rs ss = some true →
      allRulesCanBeKeys rs = allRulesCanBeKeys ss
  | [], [], _ => rfl
  | r :: rs, s :: ss, h => by
    rw [compareMembers, Verdict.both_eq_true] at h
    rw [allRulesCanBeKeys, allRulesCanBeKeys, ruleCanBeKey_eq_of_compareRules h.1,
      allRulesCanBeKeys_eq_of_compareMembers h.2]
  | [], _ :: _, h | _ :: _, [], h => by simp [compareMembers] at h

end

end Value

namespace Table

variable {β : Type}

/-- A text is found first in a table that starts with it. -/
@[simp] theorem find?_string_cons (t s : String) (b : β) (rest : Table Code β) :
    find? ((.string t, b) :: rest) (.string s) =
      if s = t then some b else find? rest (.string s) := by
  by_cases h : s = t <;> simp [find?, Value.same, Value.compare, h]

/-- Nothing is found in an empty table. -/
@[simp] theorem find?_nil (key : Value Code) : find? ([] : Table Code β) key = none := rfl

/-- What belongs to a text is looked up entry by entry. -/
theorem lookup_cons_string (s t : String) (b : β) (rest : List (String × β)) :
    ((t, b) :: rest).lookup s = if s = t then some b else rest.lookup s := by
  by_cases h : s = t
  · simp [h]
  · simp [List.lookup_cons, h, beq_false_of_ne h]

/-- What belongs to a text in a table with texts as its keys is found by that text. -/
@[simp] theorem find?_map_string (entries : List (String × β)) (s : String) :
    find? (entries.map fun (key, b) ↦ ((.string key : Value Code), b)) (.string s) =
      entries.lookup s := by
  induction entries with
  | nil => rfl
  | cons entry rest ih => simp [lookup_cons_string s entry.1 entry.2 rest, ih]

end Table

end GrammarDoc
