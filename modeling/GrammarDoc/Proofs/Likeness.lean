import GrammarDoc.Proofs.Collecting
import GrammarDoc.Proofs.Copies
import GrammarDoc.Proofs.Merging

/-!
# Rules that are alike

Two tables are alike if they have the same keys in the same order and values that are found equal
and refer to the same names. Setting the same key keeps them alike, so that merging rules does, and
tables that are alike are found equal if no key equals one before it. Functions that come to the
same in two builds define rules that are alike.
-/

namespace GrammarDoc

variable {Code : Type}

/-! ### Tables that are alike -/

namespace Table

variable {β : Type}

/-- Whether every key equals itself and none that comes before it. -/
def Apart (keys : List (Value Code)) : Prop :=
  (∀ key ∈ keys, key.same key = true) ∧ keys.Pairwise fun key later ↦ later.same key = false

/-- The keys of entries that can be given are apart. -/
theorem apart_of_genuine {strict : Bool} {above : List Place}
    {entries : List (Value Code × Value Code)}
    (genuine : Value.GenuineEntries strict above entries) : Apart (keys entries) := by
  induction entries with
  | nil => exact ⟨fun _ none ↦ absurd none List.not_mem_nil, .nil⟩
  | cons entry rest ih =>
    obtain ⟨others, ⟨self, -⟩, more⟩ := genuine
    obtain ⟨selves, apart⟩ := ih more
    refine ⟨?_, List.pairwise_cons.2 ⟨fun later hl ↦ ?_, apart⟩⟩
    · rw [keys, List.map_cons, List.forall_mem_cons]
      exact ⟨by simp [Value.same, Value.compare_self _ self], selves⟩
    · obtain ⟨other, ho, rfl⟩ := List.mem_map.1 hl
      simpa [Value.same] using others other ho

/-- The keys after one is set are those from before, and that one if it is new. -/
theorem keys_insert (table : Table Code β) (key : Value Code) (b : β) :
    (table.insert key b).keys = if table.has key then table.keys else table.keys ++ [key] := by
  cases old : table.has key with
  | true =>
    have set := insert_append table [] key b old
    rw [List.append_nil, List.append_nil] at set
    rw [set, keys_update, if_pos rfl]
  | false =>
    rw [insert_eq_append table key b old, if_neg Bool.false_ne_true]
    exact List.map_append

private theorem Apart.insert {table : Table Code β} (apart : Apart table.keys) {key : Value Code}
    (self : key.same key = true) (b : β) : Apart (table.insert key b).keys := by
  rw [keys_insert]
  cases old : table.has key with
  | true => exact apart
  | false =>
    rw [if_neg Bool.false_ne_true]
    obtain ⟨selves, apart⟩ := apart
    refine ⟨fun other ho ↦ ?_, List.pairwise_append.2 ⟨apart, List.pairwise_singleton _ _, ?_⟩⟩
    · rcases List.mem_append.1 ho with before | this
      · exact selves other before
      · rwa [List.mem_singleton.1 this]
    · intro other ho last hl
      rw [has_eq_isIn, Value.isIn, List.any_eq_false] at old
      rw [List.mem_singleton.1 hl]
      simpa using old other ho

/-- What belongs to a name is still found after what belongs to another is set. -/
theorem find?_insert_of_ne (table : Table Code β) {name other : Value Code} (b : β)
    (valid : name.isValidName = true) (valid' : other.isValidName = true) (ne : name ≠ other) :
    (table.insert name b).find? other = table.find? other := by
  obtain ⟨s, rfl⟩ := Value.eq_string_of_isValidName valid
  obtain ⟨t, rfl⟩ := Value.eq_string_of_isValidName valid'
  have apart : t ≠ s := fun eq ↦ ne (eq ▸ rfl)
  induction table with
  | nil => simp [insert, apart]
  | cons entry rest ih =>
    obtain ⟨key, a⟩ := entry
    rw [insert]
    split
    · next same =>
      obtain rfl := (Value.string_same s key).1 same
      simp [apart]
    · rw [find?, find?, List.find?_cons, List.find?_cons]
      split
      · rfl
      · exact ih

/-- What belongs to a name is found after it is set. -/
theorem find?_insert_self (table : Table Code β) {name : Value Code} (b : β)
    (valid : name.isValidName = true) : (table.insert name b).find? name = some b := by
  obtain ⟨s, rfl⟩ := Value.eq_string_of_isValidName valid
  induction table with
  | nil => simp [insert, find?, Value.string_same]
  | cons entry rest ih =>
    rw [insert]
    split
    · next same => simp [find?, same]
    · next other => simpa [find?, other] using ih

/-- A table has what another has if all keys of that are among its keys. -/
theorem has_of_subset {names names' : Table Code β} (sub : ∀ key ∈ names.keys, key ∈ names'.keys)
    {name : Value Code} (h : names.has name = true) : names'.has name = true := by
  rw [has_eq_isIn, Value.isIn, List.any_eq_true] at h ⊢
  obtain ⟨key, hk, same⟩ := h
  exact ⟨key, sub key hk, same⟩

/-- Two entries of the same key, whose values are found equal and refer to the same names. -/
structure Like (entry other : Value Code × Value Code) : Prop where
  key : entry.1 = other.1
  equal : entry.2.compare other.2 = some true
  mentions : entry.2.mentions = other.2.mentions

variable {table others : Table Code (Value Code)}

/-- Tables that are alike have the same keys. -/
theorem keys_eq_of_like (like : List.Forall₂ Like table others) : table.keys = others.keys := by
  induction like with
  | nil => rfl
  | cons first _ ih => exact congrArg₂ List.cons first.key ih

private theorem like_insert (like : List.Forall₂ Like table others)
    {entry other : Value Code × Value Code} (set : Like entry other) :
    List.Forall₂ Like (table.insert entry.1 entry.2) (others.insert other.1 other.2) := by
  induction like with
  | nil => exact .cons set .nil
  | @cons first first' rest rest' here more ih =>
    rw [insert, insert, ← here.key, ← set.key]
    split
    · exact .cons ⟨rfl, set.equal, set.mentions⟩ more
    · rw [← set.key] at ih
      exact .cons here ih

private theorem exists_find?_of_like (like : List.Forall₂ Like table others)
    (apart : Apart table.keys) {entry : Value Code × Value Code} (he : entry ∈ table) :
    ∃ v, others.find? entry.1 = some v ∧ entry.2.compare v = some true := by
  induction like with
  | nil => cases he
  | @cons first first' rest rest' here more ih =>
    obtain ⟨selves, apart⟩ := apart
    rw [keys, List.map_cons, List.pairwise_cons] at apart
    rw [keys, List.map_cons, List.forall_mem_cons] at selves
    rcases List.mem_cons.1 he with rfl | later
    · refine ⟨first'.2, ?_, here.equal⟩
      rw [find?, List.find?_cons_of_pos (by rw [← here.key]; exact selves.1)]
      rfl
    · obtain ⟨v, found, equal⟩ := ih ⟨selves.2, apart.2⟩ later
      refine ⟨v, ?_, equal⟩
      have other := apart.1 entry.1 (List.mem_map_of_mem later)
      rwa [find?, List.find?_cons_of_neg (by rw [← here.key, other]; exact Bool.false_ne_true)]

/-- Mappings with entries that are alike are found equal. -/
theorem compareMappings_of_like {first second : Entries (Value Code)}
    (once : first.again = false) (once' : second.again = false)
    (like : List.Forall₂ Like first.toList second.toList) (apart : Apart (keys first.toList)) :
    Value.compareMappings first second = some true := by
  have all (entries : List (Value Code × Value Code))
      (found : ∀ entry ∈ entries,
        ∃ v, find? second.toList entry.1 = some v ∧ entry.2.compare v = some true) :
      Value.compareEntries entries second.toList = some true := by
    induction entries with
    | nil => exact Value.compareEntries_nil _
    | cons entry rest ih =>
      rw [List.forall_mem_cons] at found
      exact (Value.compareEntries_cons _ _ _ _).2 ⟨found.1, ih found.2⟩
  exact (Value.compareMappings_eq_true once once').2 ⟨like.length_eq,
    all _ fun entry he ↦ exists_find?_of_like like apart he⟩

end Table

namespace Rules

variable {setting other : Setting Code} {inherited others : Definitions Code} {store : Store Code}
  {entries : List (Value Code × Value Code)}

/-! ### Functions that are called in two builds -/

/-- Whether two calls come to the same: to rules that are found equal and refer to the same names,
to a problem each or to a fault each. -/
def AlikeAnswers : Outcome Code (Rule (Value Code)) → Outcome Code (Rule (Value Code)) → Prop
  | .ok r, .ok s => Value.compareRules r s = some true ∧ r.mentions = s.mentions
  | .error (.problem _), .error (.problem _) => True
  | .error (.fault _), .error (.fault _) => True
  | _, _ => False

/-- The same rule is what two calls come to, if it is found equal to itself. -/
theorem alikeAnswers_of_eq {first second : Outcome Code (Rule (Value Code))}
    {r : Rule (Value Code)} (h : first = .ok r) (h' : second = .ok r)
    (self : Value.compareRules r r = some true) : AlikeAnswers first second := by
  rw [h, h']
  exact ⟨self, rfl⟩

/-- Whether the functions that entries give come to the same in two builds, if each is passed the
rule of its name out of some rules. -/
def AnswerAlike (setting other : Setting Code) (store : Store Code) (originals : Definitions Code)
    (entries : List (Value Code × Value Code)) : Prop :=
  ∀ function ∈ functionsOf entries, AlikeAnswers (answer setting originals store function)
    (answer other originals store function)

/-- Functions that come to the same define rules that are alike. -/
theorem like_definedBy (alike : AnswerAlike setting other store inherited entries) :
    List.Forall₂ (fun defined defined' ↦
        Table.Like (defined.1, .rule defined.2) (defined'.1, .rule defined'.2))
      (definedBy setting inherited store entries) (definedBy other inherited store entries) := by
  unfold definedBy
  unfold AnswerAlike at alike
  generalize functionsOf entries = functions at alike ⊢
  induction functions with
  | nil => exact .nil
  | cons function rest ih =>
    rw [List.forall_mem_cons] at alike
    have more := ih alike.2
    have here := alike.1
    rw [List.filterMap_cons, List.filterMap_cons, definition?, definition?]
    cases first : answer setting inherited store function with
    | ok r =>
      cases second : answer other inherited store function with
      | ok s =>
        rw [first, second] at here
        exact .cons ⟨rfl, by rw [Value.compare]; exact here.1, here.2⟩ more
      | error failure =>
        rw [first, second] at here
        exact here.elim
    | error failure =>
      cases second : answer other inherited store function with
      | ok s =>
        rw [first, second] at here
        cases failure <;> exact here.elim
      | error failure' => exact more

/-- If functions that come to the same are fine in one build, they are so in the other. -/
theorem answerProblem?_eq_none {function : Value Code × Callable (Value Code) Code}
    (alike : AlikeAnswers (answer setting inherited store function)
      (answer other inherited store function))
    (none : answerProblem? setting inherited store function = none) :
    answerProblem? other inherited store function = .none := by
  unfold answerProblem? at none ⊢
  cases second : answer other inherited store function with
  | ok s => rfl
  | error failure =>
    cases failure with
    | fault f => rfl
    | problem p =>
      cases first : answer setting inherited store function with
      | ok r =>
        rw [first, second] at alike
        exact alike.elim
      | error failure =>
        rw [first, second] at alike
        cases failure with
        | fault f => exact alike.elim
        | problem p =>
          rw [first] at none
          cases none

/-- Whatever else is inherited, what a function comes to depends on the rule of its own name. -/
theorem answer_congr {function : Value Code × Callable (Value Code) Code}
    (same : inherited.find? function.1 = others.find? function.1) :
    answer setting inherited store function = answer setting others store function := by
  unfold answer
  rw [same]

/-- Merging the same rules into tables that are alike makes such tables. -/
theorem like_merged {table table' : Definitions Code} (like : List.Forall₂ Table.Like table table')
    {defined defined' : List (Value Code × Rule (Value Code))}
    (same : List.Forall₂ (fun defined defined' ↦
      Table.Like (defined.1, .rule defined.2) (defined'.1, .rule defined'.2)) defined defined') :
    List.Forall₂ Table.Like (merged table defined) (merged table' defined') := by
  unfold merged
  induction same generalizing table table' with
  | nil => exact like
  | cons first _ ih => exact ih (Table.like_insert like first)

/-- Keys are apart after rules of proper names are merged. -/
theorem apart_merged {table : Definitions Code} (apart : Table.Apart table.keys)
    {defined : List (Value Code × Rule (Value Code))}
    (valid : ∀ entry ∈ defined, entry.1.isValidName = true) :
    Table.Apart (merged table defined).keys := by
  unfold merged
  induction defined generalizing table with
  | nil => exact apart
  | cons entry rest ih =>
    rw [List.forall_mem_cons] at valid
    obtain ⟨s, eq⟩ := Value.eq_string_of_isValidName valid.1
    have self : entry.1.same entry.1 = true := by
      rw [eq]
      exact (Value.string_same s _).2 rfl
    exact ih (apart.insert self _) valid.2

/-- A rule of another name is inherited after rules are merged. -/
theorem find?_merged_of_not_mem {defined : List (Value Code × Rule (Value Code))}
    (valid : ∀ entry ∈ defined, entry.1.isValidName = true) {name : Value Code}
    (valid' : name.isValidName = true) (absent : name ∉ defined.map Prod.fst) :
    (merged inherited defined).find? name = inherited.find? name := by
  unfold merged
  induction defined generalizing inherited with
  | nil => rfl
  | cons entry rest ih =>
    rw [List.forall_mem_cons] at valid
    rw [List.map_cons, List.mem_cons, not_or] at absent
    rw [List.foldl_cons, ih valid.2 absent.2,
      Table.find?_insert_of_ne _ _ valid.1 valid' (Ne.symm absent.1)]

/-- Rules that are defined have the names of entries that give functions. -/
theorem exists_functionOf?_of_mem_definedBy {name : Value Code}
    (h : name ∈ (definedBy setting inherited store entries).map Prod.fst) :
    ∃ entry ∈ entries, entry.1 = name ∧ ∃ function, functionOf? entry = some function := by
  obtain ⟨defined, hd, rfl⟩ := List.mem_map.1 h
  obtain ⟨function, hf, defines⟩ := List.mem_filterMap.1 hd
  obtain ⟨entry, he, gives⟩ := List.mem_filterMap.1 hf
  obtain ⟨-, f, -, eq⟩ := functionOf?_eq_some.1 gives
  refine ⟨entry, he, ?_, function, gives⟩
  rw [fst_of_definition? defines, ← eq]

/-- Of entries whose names differ, some define rules of other names than the others give. -/
theorem not_mem_definedBy {more : List (Value Code × Value Code)}
    (distinct : Distinct (entries ++ more)) {entry : Value Code × Value Code} (he : entry ∈ more) :
    entry.1 ∉ (definedBy setting inherited store entries).map Prod.fst := by
  intro found
  obtain ⟨other, ho, same, function, gives⟩ := exists_functionOf?_of_mem_definedBy found
  exact (List.pairwise_append.1 distinct).2.2 other ho entry he (functionOf?_eq_some.1 gives).1 same

/-- Entries define rules one after another. -/
theorem definedBy_append (more : List (Value Code × Value Code)) :
    definedBy setting inherited store (entries ++ more) =
      definedBy setting inherited store entries ++ definedBy setting inherited store more := by
  rw [definedBy, functionsOf, List.filterMap_append, List.filterMap_append]
  rfl

end Rules

end GrammarDoc
