import GrammarDoc.Proofs.Sections
import Mathlib.Data.List.Induction
import Mathlib.Data.List.Nodup

/-!
# Merging rules

Rules that are defined are put in place of inherited ones of the same names, or else after them in
the order of their definition. So the order of the definitions only shows in the order of the new
rules, and rules may be merged in several goes.
-/

namespace GrammarDoc

variable {Code β : Type}

namespace Table

/-- Sets what belongs to a key that a table has. -/
def update : Table Code β → Value Code → β → Table Code β
  | [], _, _ => []
  | entry :: rest, key, b =>
    if key.same entry.1 then (entry.1, b) :: rest else entry :: update rest key b

variable (table others : Table Code β) (key : Value Code) (b : β)

/-- The keys remain. -/
@[simp] theorem keys_update : (table.update key b).keys = table.keys := by
  induction table with
  | nil => rfl
  | cons entry rest ih =>
    rw [update]
    split
    · rfl
    · exact congrArg (entry.1 :: ·) ih

private theorem update_eq_self (h : table.has key = false) : table.update key b = table := by
  induction table with
  | nil => rfl
  | cons entry rest ih =>
    simp only [has, List.any_cons, Bool.or_eq_false_iff] at h
    rw [update, if_neg (by simp [h.1]), ih h.2]

private theorem update_append (h : table.has key = false) :
    update (table ++ others) key b = table ++ others.update key b := by
  induction table with
  | nil => rfl
  | cons entry rest ih =>
    simp only [has, List.any_cons, Bool.or_eq_false_iff] at h
    rw [List.cons_append, update, if_neg (by simp [h.1]), ih h.2, List.cons_append]

/-- A key that the first of two tables has is set there. -/
theorem insert_append (h : table.has key = true) :
    insert (table ++ others) key b = table.update key b ++ others := by
  induction table with
  | nil => cases h
  | cons entry rest ih =>
    rw [List.cons_append, insert, update]
    split
    · rfl
    · next other =>
      rw [ih (by simpa [has, other] using h), List.cons_append]

/-- In a table of which no key equals one before it, a name is set wherever it is a key. -/
theorem update_eq_map {name : Value Code} (valid : name.isValidName = true)
    (apart : table.keys.Pairwise fun key later ↦ later.same key = false) :
    table.update name b =
      table.map fun entry ↦ if name.same entry.1 then (entry.1, b) else entry := by
  obtain ⟨s, rfl⟩ := Value.eq_string_of_isValidName valid
  induction table with
  | nil => rfl
  | cons entry rest ih =>
    obtain ⟨others, apart⟩ := List.pairwise_cons.1 apart
    rw [update, List.map_cons]
    by_cases here : (Value.string s).same entry.1 = true
    · have elsewhere : ∀ other ∈ rest, (Value.string s).same other.1 = false := by
        intro other ho
        rw [Bool.eq_false_iff]
        intro there
        have different : other.1.same entry.1 = false :=
          others other.1 (List.mem_map_of_mem ho)
        rw [(Value.string_same s _).1 there, (Value.string_same s _).1 here,
          (Value.string_same s _).2 rfl] at different
        cases different
      rw [if_pos here, if_pos here, List.cons_inj_right]
      refine ((List.map_congr_left fun other ho ↦ ?_).trans (List.map_id rest)).symm
      rw [elsewhere other ho]
      rfl
    · rw [if_neg here, if_neg here, ih apart]

private theorem update_comm {name other : Value Code} (b c : β) (valid : name.isValidName = true)
    (valid' : other.isValidName = true) (ne : name ≠ other) :
    (table.update name b).update other c = (table.update other c).update name b := by
  obtain ⟨s, rfl⟩ := Value.eq_string_of_isValidName valid
  obtain ⟨t, rfl⟩ := Value.eq_string_of_isValidName valid'
  induction table with
  | nil => rfl
  | cons entry rest ih =>
    by_cases first : entry.1 = .string s
    · have second : entry.1 ≠ .string t := fun eq ↦ ne (first.symm.trans eq)
      simp [update, Value.string_same, first, ne]
    · by_cases second : entry.1 = .string t
      · simp [update, Value.string_same, second, ne.symm]
      · simp [update, Value.string_same, first, second, ih]

end Table

namespace Rules

variable {inherited : Definitions Code} {defined others : List (Value Code × Rule (Value Code))}

/-- Rules may be merged in two goes. -/
theorem merged_append : merged inherited (defined ++ others) =
    merged (merged inherited defined) others :=
  List.foldl_append

/-- Rules in place of which others are put. -/
def updated (inherited : Definitions Code) (defined : List (Value Code × Rule (Value Code))) :
    Definitions Code :=
  defined.foldl (fun table (name, r) ↦ table.update name (.rule r)) inherited

/-- The rules whose names are new. -/
def added (inherited : Definitions Code) (defined : List (Value Code × Rule (Value Code))) :
    Definitions Code :=
  (defined.filter fun entry ↦ !inherited.has entry.1).map fun entry ↦ (entry.1, .rule entry.2)

/-- The names of inherited rules remain in their order. -/
@[simp] theorem keys_updated : (updated inherited defined).keys = inherited.keys := by
  unfold updated
  induction defined generalizing inherited with
  | nil => rfl
  | cons entry rest ih => rw [List.foldl_cons, ih, Table.keys_update]

/-- Inherited rules keep their places, and new ones come after them. -/
theorem merged_eq_updated_append (valid : ∀ entry ∈ defined, entry.1.isValidName = true)
    (nodup : (defined.map Prod.fst).Nodup) :
    merged inherited defined = updated inherited defined ++ added inherited defined := by
  -- The induction is from the end: rules are put in one after another, and the last one meets all
  -- others.
  induction defined using List.reverseRecOn with
  | nil => simp [merged, updated, added]
  | append_singleton rest entry ih =>
    rw [List.map_append, List.nodup_append] at nodup
    obtain ⟨distinct, -, new⟩ := nodup
    have named := valid entry (by simp)
    have before := ih (fun other mem ↦ valid other (List.mem_append_left _ mem)) distinct
    have step : merged inherited (rest ++ [entry]) =
        (merged inherited rest).insert entry.1 (.rule entry.2) := merged_append
    have stepped : updated inherited (rest ++ [entry]) =
        (updated inherited rest).update entry.1 (.rule entry.2) := List.foldl_append
    rw [step, before, stepped, added, added, List.filter_append]
    cases old : inherited.has entry.1 with
    | true =>
      rw [List.filter_cons_of_neg (by simp [old]), List.filter_nil, List.append_nil]
      refine Table.insert_append _ _ _ _ ?_
      rw [Table.has_eq_isIn, keys_updated, ← Table.has_eq_isIn, old]
    | false =>
      have absent : (updated inherited rest).has entry.1 = false := by
        rw [Table.has_eq_isIn, keys_updated, ← Table.has_eq_isIn, old]
      rw [List.filter_cons_of_pos (by simp [old]), List.filter_nil, List.map_append,
        Table.update_eq_self _ _ _ absent, ← List.append_assoc]
      refine Table.insert_eq_append _ _ _ ?_
      rw [← Bool.not_eq_true, Table.has_validName _ named, Table.keys, List.map_append,
        List.mem_append]
      rintro (found | found)
      · rw [← Bool.not_eq_true, Table.has_validName _ named] at absent
        exact absent found
      · rw [List.map_map] at found
        obtain ⟨other, mem, eq⟩ := List.mem_map.1 found
        exact new entry.1 (List.mem_map.2 ⟨other, List.mem_of_mem_filter mem, eq⟩) entry.1
          (by simp) rfl

/-- Each inherited rule is replaced by the one of its name that is defined, if there is one. -/
theorem updated_eq_map (apart : inherited.keys.Pairwise fun key later ↦ later.same key = false)
    (valid : ∀ entry ∈ defined, entry.1.isValidName = true)
    (nodup : (defined.map Prod.fst).Nodup) :
    updated inherited defined = inherited.map fun entry ↦
      (entry.1, ((Table.find? defined entry.1).map .rule).getD entry.2) := by
  induction defined using List.reverseRecOn with
  | nil => exact (List.map_id inherited).symm
  | append_singleton rest last ih =>
    rw [List.map_append, List.nodup_append] at nodup
    obtain ⟨distinct, -, new⟩ := nodup
    have named := valid last (by simp)
    have before := ih (fun other mem ↦ valid other (List.mem_append_left _ mem)) distinct
    have stepped : updated inherited (rest ++ [last]) =
        (updated inherited rest).update last.1 (.rule last.2) := List.foldl_append
    rw [stepped, Table.update_eq_map _ _ named (by rwa [keys_updated]), before, List.map_map]
    refine List.map_congr_left fun entry _ ↦ ?_
    rw [Function.comp_apply, Table.find?_append]
    obtain ⟨name, r⟩ := last
    obtain ⟨s, rfl⟩ := Value.eq_string_of_isValidName named
    by_cases here : entry.1 = .string s
    · have absent : Table.find? rest (.string s) = none := by
        rw [← Option.isNone_iff_eq_none, ← Option.not_isSome, Table.isSome_find?,
          Table.has_eq_isIn, Bool.not_eq_true', ← Bool.not_eq_true, Value.string_isIn]
        exact fun found ↦ new _ found _ (by simp) rfl
      have found : Table.find? [((.string s : Value Code), r)] (.string s) = some r := by
        simp [Table.find?, Value.string_same]
      simp [here, Value.string_same, absent, found]
    · simp [Value.string_same, here, Table.find?, Value.same_string]

/-- The order of definitions does not count for the rules that they are put in place of. -/
theorem updated_eq_of_perm (perm : defined.Perm others)
    (valid : ∀ entry ∈ defined, entry.1.isValidName = true)
    (nodup : (defined.map Prod.fst).Nodup) :
    updated inherited defined = updated inherited others := by
  refine perm.foldl_eq' (fun entry he other ho table ↦ ?_) inherited
  by_cases same : entry.1 = other.1
  · rw [List.inj_on_of_nodup_map nodup he ho same]
  · exact table.update_comm _ _ (valid entry he) (valid other ho) same

/-- If rules are defined in another order, the rules of a grammar are the same, but new ones may
come in another order. -/
theorem merged_perm (perm : defined.Perm others)
    (valid : ∀ entry ∈ defined, entry.1.isValidName = true)
    (nodup : (defined.map Prod.fst).Nodup) :
    (merged inherited defined).Perm (merged inherited others) := by
  rw [merged_eq_updated_append valid nodup,
    merged_eq_updated_append (fun entry he ↦ valid entry (perm.mem_iff.2 he))
      ((perm.map Prod.fst).nodup_iff.1 nodup), updated_eq_of_perm perm valid nodup]
  exact ((perm.filter _).map _).append_left _

/-- If each rule is defined anew in its turn, all are put in place of the old ones. -/
theorem updated_keys (define : Value Code → Rule (Value Code)) (earlier : Definitions Code)
    (valid : ∀ name ∈ inherited.keys, name.isValidName = true)
    (nodup : (earlier.keys ++ inherited.keys).Nodup) :
    updated (earlier ++ inherited) (inherited.keys.map fun name ↦ (name, define name)) =
      earlier ++ inherited.map fun entry ↦ (entry.1, .rule (define entry.1)) := by
  induction inherited generalizing earlier with
  | nil => rfl
  | cons entry rest ih =>
    have named := valid entry.1 List.mem_cons_self
    have absent : earlier.has entry.1 = false := by
      rw [← Bool.not_eq_true, Table.has_validName _ named]
      exact fun found ↦ (List.nodup_append.1 nodup).2.2 _ found _ List.mem_cons_self rfl
    obtain ⟨s, eq⟩ := Value.eq_string_of_isValidName named
    have first : Table.update (earlier ++ entry :: rest) entry.1 (.rule (define entry.1)) =
        earlier ++ [(entry.1, .rule (define entry.1))] ++ rest := by
      rw [Table.update_append _ _ _ _ absent, Table.update, eq,
        if_pos ((Value.string_same s _).2 rfl), List.append_cons]
    have more := ih (earlier ++ [(entry.1, .rule (define entry.1))])
      (fun name hn ↦ valid name (List.mem_cons_of_mem _ hn)) (by
        simpa [Table.keys] using nodup)
    rw [updated, Table.keys, List.map_cons, List.map_cons, List.foldl_cons]
    dsimp only
    rw [first]
    exact more.trans (List.append_cons _ _ _).symm

/-- If all rules are defined anew, each is put in its place, whatever the order of the
definitions. -/
theorem merged_eq_of_perm_keys (define : Value Code → Rule (Value Code)) {names : List (Value Code)}
    (perm : names.Perm inherited.keys) (valid : ∀ name ∈ inherited.keys, name.isValidName = true)
    (nodup : inherited.keys.Nodup) :
    merged inherited (names.map fun name ↦ (name, define name)) =
      inherited.map fun entry ↦ (entry.1, .rule (define entry.1)) := by
  have validNames : ∀ entry ∈ names.map fun name ↦ (name, define name),
      entry.1.isValidName = true := by
    intro entry he
    obtain ⟨name, hn, rfl⟩ := List.mem_map.1 he
    exact valid name (perm.mem_iff.1 hn)
  have distinct : ((names.map fun name ↦ (name, define name)).map Prod.fst).Nodup := by
    rw [List.map_map]
    exact (List.map_id names).symm ▸ perm.nodup_iff.2 nodup
  have nothing : added inherited (names.map fun name ↦ (name, define name)) = [] := by
    rw [added, List.map_eq_nil_iff, List.filter_eq_nil_iff]
    intro entry he
    obtain ⟨name, hn, rfl⟩ := List.mem_map.1 he
    have found := perm.mem_iff.1 hn
    simpa using (Table.has_validName _ (valid name found)).2 found
  rw [merged_eq_updated_append validNames distinct, nothing, List.append_nil,
    updated_eq_of_perm (perm.map _) validNames distinct]
  exact updated_keys define [] valid nodup

end Rules

end GrammarDoc
