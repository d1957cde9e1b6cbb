import GrammarDoc.Expr.Operation
import GrammarDoc.Proofs.Resolution

/-!
# Names that a rule adds

The names that a rule refers to are added to those found before, which stay as they are. A walk
through the rule, from the top and from the left, meets the names one after another, and each of
them is added where it is met first, unless it was found before. So nothing is there twice that was
not before, a second walk adds nothing, and rules that are walked through one after another add what
a sequence of them does, or a choice between them.
-/

namespace GrammarDoc

variable {Code : Type}

/-! ### Names that come first -/

namespace Value

/-- Whether equality tells some values apart as it should: each of them equals itself, and what
equals one that equals another equals that one, too. -/
structure Discernible (values : List (Value Code)) : Prop where
  self : ∀ v ∈ values, v.same v = true
  trans : ∀ u ∈ values, ∀ v ∈ values, ∀ w ∈ values,
    u.same v = true → v.same w = true → u.same w = true

private theorem Discernible.mono {values others : List (Value Code)}
    (discernible : Discernible others) (sub : ∀ v ∈ values, v ∈ others) : Discernible values where
  self v hv := discernible.self v (sub v hv)
  trans u hu v hv w hw := discernible.trans u (sub u hu) v (sub v hv) w (sub w hw)

/-- Strings are always told apart, from each other and from all else. -/
theorem Discernible.of_others {values : List (Value Code)}
    (others : Discernible (values.filter fun v ↦ !v.isString)) : Discernible values := by
  have string_or_other (v : Value Code) (hv : v ∈ values) :
      (∃ s, v = string s) ∨ v ∈ values.filter fun v ↦ !v.isString := by
    cases v with
    | string s => exact .inl ⟨s, rfl⟩
    | missing | bool | int | double | list | tuple | mapping | pattern | callable | builder | rule
    | grammar | references => exact .inr (List.mem_filter.2 ⟨hv, rfl⟩)
  constructor
  · intro v hv
    rcases string_or_other v hv with ⟨s, rfl⟩ | other
    · exact (string_same s _).2 rfl
    · exact others.self v other
  · intro u hu v hv w hw first second
    -- If any of the three is a string, two of them are that string.
    rcases string_or_other u hu with ⟨s, rfl⟩ | hu
    · rwa [(string_same s v).1 first] at second
    rcases string_or_other v hv with ⟨s, rfl⟩ | hv
    · rwa [(string_same s w).1 second]
    rcases string_or_other w hw with ⟨s, rfl⟩ | hw
    · rwa [(same_string v s).1 second] at first
    · exact others.trans u hu v hv w hw first second

/-- Of some names those that come first: they equal none that was found before, and none of those
that they come after. -/
def firsts (found names : List (Value Code)) : List (Value Code) :=
  (names.zipIdx.filter fun (name, i) ↦ !name.isIn (found ++ names.take i)).map (·.1)

private theorem firsts_concat (found names : List (Value Code)) (name : Value Code) :
    firsts found (names ++ [name]) =
      firsts found names ++ if name.isIn (found ++ names) then [] else [name] := by
  have before : (names.zipIdx.filter fun (other, i) ↦
        !other.isIn (found ++ (names ++ [name]).take i)) =
      names.zipIdx.filter fun (other, i) ↦ !other.isIn (found ++ names.take i) := by
    refine List.filter_congr fun (other, i) mem ↦ ?_
    have within : i < names.length := (List.mem_zipIdx' mem).1
    change (!other.isIn _) = !other.isIn _
    rw [List.take_append_of_le_length (Nat.le_of_lt within)]
  rw [firsts, List.zipIdx_append, List.filter_append, List.map_append, before]
  cases same : name.isIn (found ++ names) <;> simp [firsts, same]

/-- Whether no value equals one that it comes after. -/
def Unrepeated (values : List (Value Code)) : Prop :=
  values.Pairwise fun v later ↦ later.same v = false

end Value

/-! ### Names that are added -/

namespace Rule

variable {found names : List (Value Code)} {name : Value Code}

/-- Names are added at the end. -/
theorem prefix_foldl_addName (found names : List (Value Code)) :
    found <+: names.foldl addName found := by
  induction names generalizing found with
  | nil => exact List.prefix_rfl
  | cons name rest ih =>
    refine List.IsPrefix.trans ?_ (ih _)
    unfold addName
    split
    · exact List.prefix_rfl
    · exact List.prefix_append _ _

/-- A name equals one of those that are there after some are added exactly if it equals one that
was there before or one of these. -/
theorem isIn_foldl_addName (discernible : Value.Discernible (found ++ (names ++ [name]))) :
    name.isIn (names.foldl addName found) = name.isIn (found ++ names) := by
  rw [Bool.eq_iff_iff, Value.isIn, Value.isIn, List.any_eq_true, List.any_eq_true]
  constructor
  · rintro ⟨other, there, same⟩
    exact ⟨other, List.mem_append.2 (mem_of_mem_foldl_addName there), same⟩
  · rintro ⟨other, mem, same⟩
    rcases List.mem_append.1 mem with old | new
    · exact ⟨other, mem_foldl_addName old, same⟩
    · obtain ⟨kept, there, rfl | alike⟩ :
          ∃ kept ∈ names.foldl addName found, other = kept ∨ other.same kept = true :=
        exists_mem_foldl_addName new
      · exact ⟨other, there, same⟩
      · -- What equals a name that was not kept equals the one that was kept instead.
        refine ⟨kept, there, discernible.trans name (by simp) other (by simp [new]) kept ?_
          same alike⟩
        rcases mem_of_mem_foldl_addName there with old | new <;> simp [*]

/-- Of names that are added those come to stay that come first. -/
theorem foldl_addName_eq_append (discernible : Value.Discernible (found ++ names)) :
    names.foldl addName found = found ++ Value.firsts found names := by
  -- From the end, since a name is compared with all that come before it.
  induction names using List.reverseRecOn with
  | nil => exact (List.append_nil found).symm
  | append_singleton rest name ih =>
    have before := ih (discernible.mono fun v hv ↦ by
      rw [← List.append_assoc]
      exact List.mem_append_left _ hv)
    rw [List.foldl_append, List.foldl_cons, List.foldl_nil, addName,
      isIn_foldl_addName discernible, before, Value.firsts_concat]
    split
    · rw [List.append_nil]
    · rw [List.append_assoc]

private theorem foldl_addName_eq_self (there : ∀ name ∈ names, name.isIn found = true) :
    names.foldl addName found = found := by
  induction names with
  | nil => rfl
  | cons name rest ih =>
    rw [List.forall_mem_cons] at there
    rw [List.foldl_cons, addName, if_pos there.1, ih there.2]

/-- Names that were added are not added once more. -/
theorem foldl_addName_foldl_addName (selves : ∀ name ∈ names, name.same name = true) :
    names.foldl addName (names.foldl addName found) = names.foldl addName found := by
  refine foldl_addName_eq_self fun name mem ↦ List.any_eq_true.2 ?_
  obtain ⟨other, there, rfl | same⟩ :
      ∃ other ∈ names.foldl addName found, name = other ∨ name.same other = true :=
    exists_mem_foldl_addName mem
  · exact ⟨name, there, selves name mem⟩
  · exact ⟨other, there, same⟩

private theorem unrepeated_addName (unrepeated : Value.Unrepeated found) (name : Value Code) :
    Value.Unrepeated (addName found name) := by
  unfold addName
  split
  · exact unrepeated
  · next new =>
    rw [Bool.not_eq_true, Value.isIn, List.any_eq_false] at new
    refine List.pairwise_append.2 ⟨unrepeated, List.pairwise_singleton _ _, ?_⟩
    intro old ho later hl
    rw [List.mem_singleton.1 hl]
    exact Bool.eq_false_iff.2 (new old ho)

/-- Adding names repeats none. -/
theorem unrepeated_foldl_addName (unrepeated : Value.Unrepeated found)
    (names : List (Value Code)) : Value.Unrepeated (names.foldl addName found) := by
  induction names generalizing found with
  | nil => exact unrepeated
  | cons name rest ih => exact ih (unrepeated_addName unrepeated name)

/-- The names of some rules are added rule by rule. -/
theorem foldl_addSymbols (found : List (Value Code)) (rules : List (Rule (Value Code))) :
    rules.foldl addSymbols found = addSymbolsOfAll found rules := by
  induction rules generalizing found with
  | nil => rw [addSymbolsOfAll, List.foldl_nil]
  | cons r rest ih => rw [addSymbolsOfAll, List.foldl_cons, ih]

/-- The names that a rule adds are those that a walk through it meets. -/
theorem addSymbols_eq_foldl_namesMet (found : List (Value Code)) (r : Rule (Value Code)) :
    r.addSymbols found = (Value.rule r).namesMet.foldl addName found := by
  rw [addSymbols_eq_foldl, mentions_eq_filterMap]
  rfl

end Rule

/-! ### Adding names to a list -/

/-- Names are added to the very list that is given, and nothing else is changed. -/
theorem Operation.start_collectSymbols (run : Interpreter Code) (place : Place)
    (r : Rule (Value Code)) {list : Items (Value Code)} {store : Store Code}
    (present : store.items list = list.toList) :
    ∃ after,
      Exec.start (collectSymbols.apply run place [.rule r, .list list]) store =
        (.ok (.list list), after) ∧
      after.items list = r.addSymbols list.toList ∧ after.mappings = store.mappings ∧
      ∀ other, other.place ≠ list.place → after.items other = store.items other := by
  change ∃ after, Exec.start (collectInto place r (.list list)) store = _ ∧ _
  rw [collectInto]
  by_cases longer : list.toList.length < (r.addSymbols list.toList).length
  · refine ⟨store.setItems list.place (r.addSymbols list.toList), ?_,
      store.items_setItems list _, rfl, fun other apart ↦ store.items_setItems_of_ne apart _⟩
    rw [if_pos longer]
    rfl
  · refine ⟨store, ?_, ?_, rfl, fun _ _ ↦ rfl⟩
    · rw [if_neg longer]
      rfl
    · have front : list.toList <+: r.addSymbols list.toList := by
        rw [Rule.addSymbols_eq_foldl]
        exact Rule.prefix_foldl_addName _ _
      rw [present]
      exact front.eq_of_length_le (Nat.le_of_not_lt longer)

/-! ### The names of a rule -/

/-- A rule adds the names that it refers to after those found before: of the names that a walk
meets, from the top and from the left, each where it is met first, unless it equals one found
before. So it repeats no name, and the second time it adds nothing. Rules that are walked through
one after another add what a sequence of them does, or a choice between them. If the names found are
the items of a list, it is this list that they are added to, and nothing else is changed. All this
holds for any names that are strings; equality has to tell apart only those that are none. -/
theorem Rule.adds_names_met_first (found : List (Value Code)) (r : Rule (Value Code))
    (others : Value.Discernible
      ((found ++ (Value.rule r).namesMet).filter fun name ↦ !name.isString)) :
    r.addSymbols found = found ++ Value.firsts found (Value.rule r).namesMet ∧
    (Value.Unrepeated found → Value.Unrepeated (r.addSymbols found)) ∧
    r.addSymbols (r.addSymbols found) = r.addSymbols found ∧
    (∀ kind rules, rules.foldl addSymbols found = addSymbols found (.group kind rules)) ∧
    ∀ (run : Interpreter Code) (place : Place) (list : Items (Value Code)) (store : Store Code),
      list.toList = found → store.items list = found → ∃ after,
        Exec.start (Operation.collectSymbols.apply run place [.rule r, .list list]) store =
          (.ok (.list list), after) ∧
        after.items list = r.addSymbols found ∧ after.mappings = store.mappings ∧
        ∀ other, other.place ≠ list.place → after.items other = store.items other := by
  have discernible := others.of_others
  refine ⟨?_, fun unrepeated ↦ ?_, ?_, fun kind rules ↦ ?_, ?_⟩
  · rw [addSymbols_eq_foldl_namesMet, foldl_addName_eq_append discernible]
  · rw [addSymbols_eq_foldl_namesMet]
    exact unrepeated_foldl_addName unrepeated _
  · rw [addSymbols_eq_foldl_namesMet, addSymbols_eq_foldl_namesMet]
    exact foldl_addName_foldl_addName fun name mem ↦
      discernible.self name (List.mem_append_right _ mem)
  · rw [foldl_addSymbols, addSymbols]
  · intro run place list store eq present
    subst eq
    exact Operation.start_collectSymbols run place r present

/-- Names are met in nodes of all kinds, some of them several times, one has been found before, and
one is a truth value that equals a number found before. -/
theorem Rule.adds_names_met_first_nested :
    let name (s : String) : Rule (Value Empty) := .symbol (.string s)
    let found : List (Value Empty) := [.string "b", .int 1]
    let r : Rule (Value Empty) := .group .seq [
      .group .choice [.prec .left (.int 0) (name "c"),
        .wrap .repeated (.field (.string "f") (name "a")), name "c"],
      .aliased (name "b") true (.string "z"), .symbol (.bool true), .symbol (.int 2),
      .wrap .token (name "d"), name "a"]
    let added : List (Value Empty) := [.string "c", .string "a", .int 2, .string "d"]
    let list : Items (Value Empty) := ⟨.step 0, found, false⟩
    Value.Discernible ((found ++ (Value.rule r).namesMet).filter fun name ↦ !name.isString) ∧
    r.addSymbols found = found ++ added ∧
    Value.Unrepeated found ∧ Value.Unrepeated (found ++ added) ∧
    r.addSymbols (found ++ added) = found ++ added ∧
    [r, name "e"].foldl addSymbols found = addSymbols found (.group .choice [r, name "e"]) ∧
    ∃ after : Store Empty,
      Exec.start (Operation.collectSymbols.apply (fun _ code _ ↦ code.elim) (.step 1)
        [.rule r, .list list]) {} = (.ok (.list list), after) ∧
      after.items list = found ++ added := by
  intro name found r added list
  have others : Value.Discernible
      ((found ++ (Value.rule r).namesMet).filter fun name ↦ !name.isString) :=
    ⟨by decide +kernel, by decide +kernel⟩
  have unrepeated : Value.Unrepeated found := by
    unfold Value.Unrepeated
    decide +kernel
  obtain ⟨eq, once, again, groups, adds⟩ := adds_names_met_first found r others
  have computed : Value.firsts found (Value.rule r).namesMet = added := by cbv
  rw [computed] at eq
  rw [eq] at once again adds
  obtain ⟨after, gives, items, -, -⟩ :=
    adds (fun _ code _ ↦ code.elim) (.step 1) list {} rfl rfl
  exact ⟨others, eq, unrepeated, once unrepeated, again, groups .choice _, after, gives, items⟩

end GrammarDoc
