import GrammarDoc.Proofs.NameSections
import GrammarDoc.Proofs.Policies
import GrammarDoc.Proofs.PrecedenceGroups

/-!
# Fixed points of the checks

What a section comes to when problems are collected stands all the checks of that section: checked
once more, with the same names declared, it comes to itself. What is dropped from a section does not
come back as a problem; all that is reported again is what was reported of entries that are kept.
-/

namespace GrammarDoc

open Build (Yields GoesOn)

variable {Code : Type} {α β γ : Type} {before after again : Journal Code}

/-! ### Steps that are repeated -/

/-- Whether a problem is of a kind. -/
def Problem.isOf (kind : Kind) (p : Problem Code) : Bool := p.kind = kind

/-- Whether a value is an array of values that stand for some results, one by one. -/
def IsArrayOf (stands : β → Value Code → Prop) (results : List β) (w : Value Code) : Prop :=
  ∃ items, w.array? = some items ∧ List.Forall₂ stands results items

/-- The problems that are reported can be told from the journal. -/
theorem Journal.reporting_inj (journal : Journal Code) {problems others : List (Problem Code)}
    (h : journal.reporting problems = journal.reporting others) : problems = others :=
  List.append_cancel_left (congrArg Journal.problems h)

namespace Build

/-- Whether one step, when it has a result while problems are collected, is repeated by another one
on whatever stands for that result: the same names being declared, it comes to the same, and of the
problems reported before it reports those of a sort. -/
def Recurs (kept : Problem Code → Bool) (stands : α → γ → Prop) (step : Build Code α)
    (repeated : γ → Build Code α) : Prop :=
  ∀ before a after, Yields .collect step before a after →
    ∃ problems, after = before.reporting problems ∧
      ∀ c, stands a c → ∀ again : Journal Code, again.names = before.names →
        Yields .collect (repeated c) again a (again.reporting (problems.filter kept))

/-- Whether a step that may drop what it is for is repeated if it does not; if it does, no problem
is of the sort that is reported again. -/
def RecursOrDrops (kept : Problem Code → Bool) (stands : β → γ → Prop)
    (step : Build Code (Option β)) (repeated : γ → Build Code (Option β)) : Prop :=
  ∀ before result after, Yields .collect step before result after →
    ∃ problems, after = before.reporting problems ∧
      match result with
      | none => problems.filter kept = []
      | some b => ∀ c, stands b c → ∀ again : Journal Code, again.names = before.names →
          Yields .collect (repeated c) again (some b) (again.reporting (problems.filter kept))

variable {kept : Problem Code → Bool}

/-- Going through items is repeated on what is left of them, if it is so item by item. -/
theorem recurs_filterMap {stands : β → γ → Prop} {step : α → Build Code (Option β)}
    {repeated : γ → Build Code (Option β)} (items : List α)
    (each : ∀ a, RecursOrDrops kept stands (step a) repeated) :
    Recurs kept (List.Forall₂ stands) (filterMap step items) (filterMap repeated) := by
  induction items with
  | nil =>
    intro before bs after gone
    obtain ⟨rfl, rfl⟩ := (yields_filterMap_nil step bs).1 gone
    refine ⟨[], (Journal.reporting_nil _).symm, fun others stand again _ ↦ ?_⟩
    cases stand
    exact (yields_filterMap_nil repeated []).2 ⟨rfl, Journal.reporting_nil again⟩
  | cons a rest ih =>
    intro before bs after gone
    obtain ⟨result, between, first, cs, more, rfl⟩ := (yields_filterMap_cons step a rest bs).1 gone
    obtain ⟨here, rfl, settled⟩ := each a before result between first
    obtain ⟨later, rfl, repeats⟩ := ih _ cs after more
    refine ⟨here ++ later, Journal.reporting_append _ _ _, fun others stand again same ↦ ?_⟩
    rw [List.filter_append]
    cases result with
    | none =>
      rw [settled, List.nil_append]
      exact repeats others stand again same
    | some b =>
      obtain _ | ⟨stands, rests⟩ := stand
      refine (yields_filterMap_cons repeated _ _ _).2
        ⟨some b, _, settled _ stands again same, cs, ?_, rfl⟩
      rw [← Journal.reporting_append]
      exact repeats _ rests _ same

/-- Going through items and their positions is repeated on what is left of them, wherever that
stands now. -/
theorem recurs_filterMapIdx {stands : β → γ → Prop} {step : Nat → α → Build Code (Option β)}
    {repeated : Nat → γ → Build Code (Option β)} (items : List α)
    (each : ∀ entry : α × Nat, RecursOrDrops kept (fun b other ↦ stands b other.1)
      (step entry.2 entry.1) fun other : γ × Nat ↦ repeated other.2 other.1) :
    Recurs kept (List.Forall₂ stands) (filterMapIdx step items) (filterMapIdx repeated) := by
  intro before bs after gone
  obtain ⟨problems, reported, repeats⟩ := recurs_filterMap items.zipIdx each before bs after gone
  refine ⟨problems, reported, fun others stand again same ↦ ?_⟩
  refine repeats others.zipIdx ?_ again same
  have firsts : List.Forall₂ stands bs (others.zipIdx.map Prod.fst) := by
    rwa [List.zipIdx_map_fst]
  exact List.forall₂_map_right_iff.1 firsts

/-- Whether a check of a section, when it has a result while problems are collected, is repeated on
whatever stands for that result. What is no array has nothing that is reported again. -/
def Settles (kept : Problem Code → Bool) (stands : α → Value Code → Prop)
    (check : Value Code → Build Code α) : Prop :=
  ∀ v before a after, Yields .collect (check v) before a after →
    ∃ problems, after = before.reporting problems ∧
      (v.array? = none → problems.filter kept = []) ∧
      ∀ w, stands a w → ∀ again : Journal Code, again.names = before.names →
        Yields .collect (check w) again a (again.reporting (problems.filter kept))

/-- A section that is an array, or else comes to a fallback, is settled if going through its items
is repeated, and if the fallback stands all checks. -/
theorem settles_guarded {title : String} {fallback : List β} {stands : β → Value Code → Prop}
    {handler : List (Value Code) → Build Code (List β)}
    (repeats : ∀ items, Recurs kept (List.Forall₂ stands) (handler items) handler)
    (shape : ∀ v, kept ⟨.notAnArray title v, some title⟩ = false)
    (restored : ∀ others, List.Forall₂ stands fallback others →
      ∀ journal, Yields .collect (handler others) journal fallback journal)
    (nothing : ∀ journal, Yields .collect (handler []) journal [] journal) :
    Settles kept (IsArrayOf stands) (guarded pure [⟨.present, fallback⟩, ⟨.array title, []⟩]
      fun v ↦ handler (v.array?.getD [])) := by
  intro v before bs after gone
  cases array : v.array? with
  | some items =>
    rw [guarded_of_array handler array] at gone
    obtain ⟨problems, reported, settled⟩ := repeats items before bs after gone
    refine ⟨problems, reported, nofun, ?_⟩
    rintro w ⟨others, array', stand⟩ again same
    rw [guarded_of_array handler array']
    exact settled others stand again same
  | none =>
    -- What is no array comes to a fallback: that for a missing value, which has to stand the
    -- checks, or the empty one, which nothing is reported about.
    by_cases present : v = .missing
    · subst present
      obtain ⟨rfl, rfl⟩ : bs = fallback ∧ after = before := by
        simpa [guarded, Guard.before, Shape.admits, Shape.problem?] using gone
      refine ⟨[], (Journal.reporting_nil _).symm, fun _ ↦ rfl, ?_⟩
      rintro w ⟨others, array', stand⟩ again -
      rw [guarded_of_array handler array', List.filter_nil, Journal.reporting_nil]
      exact restored others stand again
    · have there := Shape.admits_present present
      have form : (Shape.array title).admits v = false := by simp [Shape.admits, array]
      obtain ⟨rfl, rfl⟩ :
          bs = [] ∧ after = before.reporting [⟨.notAnArray title v, some title⟩] := by
        simpa [guarded, Guard.before, there, form, Shape.problem?, Journal.reported,
          Journal.reporting, and_comm] using gone
      have dropped : [⟨.notAnArray title v, some title⟩].filter kept = [] := by simp [shape v]
      refine ⟨_, rfl, fun _ ↦ dropped, ?_⟩
      rintro w ⟨others, array', stand⟩ again -
      cases stand
      rw [guarded_of_array handler array', dropped, Journal.reporting_nil]
      exact nothing again

/-- Going through no items comes to nothing. -/
theorem yields_nil {step : α → Build Code (Option β)} (journal : Journal Code) :
    Yields .collect (filterMap step []) journal [] journal :=
  (yields_filterMap_nil step []).2 ⟨rfl, rfl⟩

/-- Going through what stands for no results comes to nothing. -/
theorem restored_nil {stands : β → α → Prop} {step : α → Build Code (Option β)} (others : List α)
    (stand : List.Forall₂ stands [] others) (journal : Journal Code) :
    Yields .collect (filterMap step others) journal [] journal := by
  cases stand
  exact yields_nil journal

end Build

open Build (Recurs RecursOrDrops Settles)

/-! ### Sections of names -/

namespace Names

private theorem yields_validName (form use : String) (within within' : Option String)
    {name : Value Code} (valid : name.isValidName = true) (journal : Journal Code) :
    Yields .collect (do
      if ← Build.requireValidName form within name.nameOf then
        discard (Build.requireDeclared use within' name.nameOf)
        return some name.nameOf
      else return none) journal (some name)
      (journal.reporting (if journal.names.has name then [] else
        [⟨.undeclared use name, attribution use within'⟩])) := by
  have key := Value.canBeKey_of_isValidName valid
  obtain ⟨s, rfl⟩ := Value.eq_string_of_isValidName valid
  have itself : (Value.string s : Value Code).nameOf = .string s := rfl
  rw [itself, Build.yields_requireValidName_bind, valid, if_pos rfl, if_pos rfl,
    Journal.reporting_nil, Build.yields_discard_bind, Build.yields_requireDeclared_bind _ _ key]
  exact (Build.yields_pure _ _).2 ⟨rfl, rfl⟩

/-- An entry whose name is kept if it has the form of one is repeated on that name, if names of that
form are kept and only checked for being declared. -/
theorem recursOrDrops_of_account {form use title : String} {entry : Value Code}
    {step : Build Code (Option (Value Code))}
    {repeated : Value Code → Build Code (Option (Value Code))}
    (account : ∀ before result after, Yields .collect step before result after →
      result = validName? entry ∧
        after = before.reporting (nameProblem? form use title before.names entry).toList)
    (repeats : ∀ name : Value Code, name.isValidName = true → ∀ journal,
      Yields .collect (repeated name) journal (some name)
        (journal.reporting (if journal.names.has name then [] else
          [⟨.undeclared use name, some title⟩]))) :
    RecursOrDrops (Problem.isOf .undeclaredReference) (fun name w ↦ w = name) step repeated := by
  intro before result after gone
  obtain ⟨rfl, rfl⟩ := account before result after gone
  refine ⟨_, rfl, ?_⟩
  unfold validName? nameProblem?
  cases valid : entry.nameOf.isValidName with
  | false => simp [valid, Problem.isOf, Problem.kind, Cause.kind]
  | true =>
    rintro _ rfl again same
    have repeated := repeats entry.nameOf valid again
    rw [same] at repeated
    cases declared : before.names.has entry.nameOf <;>
      simpa [valid, declared, Problem.isOf, Problem.kind, Cause.kind] using repeated

/-- The names that are put in place are settled. -/
theorem settles_validateInline :
    Settles (Problem.isOf .undeclaredReference) (IsArrayOf fun name w ↦ w = name)
      (validateInline : Value Code → _) := by
  refine Build.settles_guarded (fun items ↦ Build.recurs_filterMap items fun entry ↦ ?_)
    (fun _ ↦ rfl) Build.restored_nil Build.yields_nil
  refine recursOrDrops_of_account (fun _ _ _ ↦ account_inlineName) fun name valid journal ↦ ?_
  exact yields_validName "inline" "inline" none none valid journal

/-- The supertypes are settled. No name is an alias. -/
theorem settles_validateSupertypes :
    Settles (Problem.isOf .undeclaredReference) (IsArrayOf fun name w ↦ w = name)
      (validateSupertypes : Value Code → _) := by
  refine Build.settles_guarded (fun items ↦ Build.recurs_filterMap items fun entry ↦ ?_)
    (fun _ ↦ rfl) Build.restored_nil Build.yields_nil
  cases aliased : isAlias entry with
  | true =>
    intro before result after gone
    obtain ⟨rfl, rfl⟩ := account_supertype gone
    simp only [aliased, supertypeProblem?, if_true]
    exact ⟨_, rfl, rfl⟩
  | false =>
    have account (before : Journal Code) (result : Option (Value Code)) (after : Journal Code)
        (gone : Yields .collect (supertype entry) before result after) :
        result = validName? entry ∧ after = before.reporting
          (nameProblem? "supertypes" "supertype" "supertypes" before.names entry).toList := by
      obtain ⟨kept, reported⟩ := account_supertype gone
      rw [aliased] at kept
      simp only [supertypeProblem?, aliased] at reported
      exact ⟨kept, reported⟩
    refine recursOrDrops_of_account account fun name valid journal ↦ ?_
    have repeated := yields_validName "supertypes" "supertype" none (some "supertypes") valid
      journal
    obtain ⟨s, rfl⟩ := Value.eq_string_of_isValidName valid
    exact repeated

private theorem declaredName?_eq_some {names : Namespace Code} {entry name : Value Code} :
    declaredName? names entry = some name ↔
      entry.nameOf = name ∧ name.isValidName = true ∧ names.has name = true := by
  unfold declaredName? validName?
  constructor
  · intro h
    obtain ⟨given, declared⟩ := Option.filter_eq_some_iff.1 h
    split at given
    · next valid =>
      cases given
      exact ⟨rfl, valid, declared⟩
    · cases given
  · rintro ⟨rfl, valid, declared⟩
    simp [valid, declared]

private theorem yields_declaredName (form use : String) (within within' : Option String)
    {name : Value Code} {journal : Journal Code} (f : Value Code → α) (other : α)
    (valid : name.isValidName = true) (declared : journal.names.has name = true) :
    Yields .collect (do
      if ← Build.requireValidName form within name.nameOf then
        if ← Build.requireDeclared use within' name.nameOf then return f name.nameOf
        else return other
      else return other) journal (f name) journal := by
  have key := Value.canBeKey_of_isValidName valid
  obtain ⟨s, rfl⟩ := Value.eq_string_of_isValidName valid
  have itself : (Value.string s : Value Code).nameOf = .string s := rfl
  rw [itself, Build.yields_requireValidName_bind, valid, if_pos rfl, if_pos rfl,
    Journal.reporting_nil, Build.yields_requireDeclared_bind _ _ key, declared, if_pos rfl,
    if_pos rfl, Journal.reporting_nil]
  exact (Build.yields_pure _ _).2 ⟨rfl, rfl⟩

/-- An entry of a conflict is repeated on its name, and nothing is reported again. -/
theorem recursOrDrops_conflictName (entry : Value Code) :
    RecursOrDrops (fun _ ↦ false) (fun name w ↦ w = name) (conflictName entry) conflictName := by
  intro before result after gone
  obtain ⟨kept, rfl⟩ := account_conflictName gone
  refine ⟨_, rfl, ?_⟩
  rw [List.filter_false]
  cases result with
  | none => rfl
  | some name =>
    obtain ⟨-, valid, declared⟩ := declaredName?_eq_some.1 kept.symm
    rintro _ rfl again same
    rw [Journal.reporting_nil]
    exact yields_declaredName "conflict" "conflict" _ _ some none valid (same ▸ declared)

/-- A group of the conflicts is repeated on the names that are left of it, if they are enough. -/
theorem recursOrDrops_conflict (group : Value Code) :
    RecursOrDrops (fun _ ↦ false) (IsArrayOf fun name w ↦ w = name) (conflict group) conflict := by
  intro before result after gone
  unfold conflict at gone
  cases array : group.array? with
  | none =>
    rw [array] at gone
    obtain ⟨rfl, -, rfl⟩ := (Build.yields_reportIn_return _ _ _ _).1 gone
    exact ⟨[_], rfl, List.filter_false _⟩
  | some entries =>
    rw [array] at gone
    obtain ⟨left, between, entered, next⟩ := (Build.yields_bind _ _ _).1 gone
    obtain ⟨problems, rfl, repeats⟩ :=
      Build.recurs_filterMap entries recursOrDrops_conflictName before left between entered
    by_cases short : left.length < 2
    · rw [if_pos short] at next
      obtain ⟨rfl, -, rfl⟩ := (Build.yields_reportIn_return _ _ _ _).1 next
      exact ⟨problems ++ [_], Journal.reporting_append _ _ [_], List.filter_false _⟩
    · rw [if_neg short] at next
      obtain ⟨rfl, rfl⟩ := (Build.yields_pure _ _).1 next
      refine ⟨problems, rfl, ?_⟩
      rintro w ⟨others, array', stand⟩ again same
      unfold conflict
      rw [array']
      refine (Build.yields_bind _ _ _).2 ⟨left, _, repeats others stand again same, ?_⟩
      rw [if_neg short]
      exact (Build.yields_pure _ _).2 ⟨rfl, rfl⟩

/-- The conflicts are settled, and nothing is reported again. -/
theorem settles_validateConflicts :
    Settles (fun _ ↦ false) (IsArrayOf (IsArrayOf fun name w ↦ w = name))
      (validateConflicts : Value Code → _) :=
  Build.settles_guarded (fun items ↦ Build.recurs_filterMap items recursOrDrops_conflict)
    (fun _ ↦ rfl) Build.restored_nil Build.yields_nil

/-- The word is settled, and nothing is reported again. -/
theorem settles_validateWord :
    Settles (fun _ ↦ false) (fun word w ↦ w = word) (validateWord : Value Code → _) := by
  intro v before word after gone
  obtain ⟨kept, rfl⟩ := account_word gone
  refine ⟨_, rfl, fun _ ↦ List.filter_false _, ?_⟩
  rintro _ rfl again same
  rw [List.filter_false, Journal.reporting_nil]
  cases given : declaredName? before.names v with
  | none =>
    rw [given] at kept
    obtain rfl := kept
    exact (Build.yields_pure _ _).2 ⟨rfl, rfl⟩
  | some name =>
    rw [given] at kept
    obtain rfl := kept
    obtain ⟨-, valid, declared⟩ := declaredName?_eq_some.1 given
    have repeated := yields_declaredName "word" "word" none none id .missing valid (same ▸ declared)
    obtain ⟨s, rfl⟩ := Value.eq_string_of_isValidName valid
    exact repeated

end Names

/-! ### Sections of rules -/

private theorem Value.kind_of_toRule_error {raw : Value Code} {cause : Cause Code}
    (h : raw.toRule = .error cause) :
    cause.kind = .invalidRule ∨ cause.kind = .undefinedSymbol := by
  unfold toRule at h
  split at h
  · cases h
  · cases h
  · cases h
  · cases h
    exact .inr rfl
  · split at h
    · split at h
      · cases h
      · cases h
        exact .inl rfl
    · cases h
      exact .inl rfl
  · cases h
    exact .inl rfl

namespace Extras

/-- The kind of the problems with the names of an extra under a policy. -/
def kindOf (references : Bool) : Kind := if references then .undeclaredReference else .duplicateName

private theorem goesOn_checkNames_again {references : Bool} {r : Rule (Value Code)} {u : Unit}
    (h : Yields .collect (checkNames references r) before u after) :
    GoesOn (checkNames references r) again := by
  unfold checkNames at h ⊢
  cases references with
  | true =>
    have keys := Build.canBeKey_of_yields_forM h
    exact Build.goesOn_forM fun name mem _ ↦ (Build.goesOn_requireDeclared (keys name mem)).discard
  | false =>
    cases named : r.referencedName?.bind Value.toOption with
    | none => exact Build.goesOn_pure ()
    | some name =>
      simp only [named] at h
      obtain ⟨_, required⟩ := (Build.yields_discard _ _).1 h
      obtain ⟨key, -, -⟩ := (Build.yields_requireNotDeclared _ _ _ _).1 required
      exact (Build.goesOn_requireNotDeclared key).discard

private theorem isOf_of_mem_problems {references : Bool} {names : Namespace Code} {raw : Value Code}
    {r : Rule (Value Code)} (rule : raw.toRule = .ok r) {p : Problem Code}
    (mem : p ∈ problems references names raw) : Problem.isOf (kindOf references) p = true := by
  unfold problems at mem
  rw [rule] at mem
  cases references with
  | true =>
    obtain ⟨name, -, rfl⟩ := List.mem_map.1 mem
    rfl
  | false =>
    simp only [Bool.false_eq_true, if_false] at mem
    split at mem
    · cases mem
    · obtain ⟨first, -, rfl⟩ := Option.map_eq_some_iff.1 (Option.mem_toList.1 mem)
      rfl

/-- An extra is repeated on its rule. -/
theorem recursOrDrops_fromItem (references : Bool) (raw : Value Code) :
    RecursOrDrops (Problem.isOf (kindOf references)) (fun r w ↦ w = .rule r)
      (fromItem references raw) (fromItem references) := by
  intro before result after gone
  obtain ⟨kept, rfl⟩ := of_yields_fromItem gone
  refine ⟨_, rfl, ?_⟩
  unfold rule? at kept
  cases rule : raw.toRule with
  | error cause =>
    rw [rule] at kept
    obtain rfl : result = none := kept
    have other : Problem.isOf (kindOf references) ⟨cause, some "extras"⟩ = false := by
      obtain eq | eq := Value.kind_of_toRule_error rule <;>
        cases references <;> simp [Problem.isOf, Problem.kind, kindOf, eq]
    change List.filter _ _ = []
    simp [problems, rule, other]
  | ok r =>
    rw [rule] at kept
    obtain rfl := kept
    rintro _ rfl again same
    rw [List.filter_eq_self.2 fun p mem ↦ isOf_of_mem_problems rule mem]
    have itself : (Value.rule r).toRule = .ok r := rfl
    have goesOn : GoesOn (fromItem references (.rule r)) again := by
      obtain ⟨normal, between, normalized, rest⟩ := (Build.yields_bind _ _ _).1 gone
      rw [Build.yields_normalize, rule] at normalized
      obtain ⟨rfl, rfl⟩ := normalized
      obtain ⟨_, _, checked, -⟩ := (Build.yields_bind _ _ _).1 rest
      refine GoesOn.ofRule (fun r' rule' ↦ ?_) fun _ ↦ Build.goesOn_pure none
      cases itself.symm.trans rule'
      exact (goesOn_checkNames_again checked).bind fun _ _ _ ↦ Build.goesOn_pure _
    refine goesOn.yields fun result between repeated ↦ ?_
    obtain ⟨rfl, rfl⟩ := of_yields_fromItem repeated
    refine ⟨rfl, ?_⟩
    unfold problems
    rw [rule, itself, same]

/-- The extras are settled under both policies. Any blank character stands both. -/
theorem settles_validate (references : Bool) :
    Settles (Problem.isOf (kindOf references)) (IsArrayOf fun r w ↦ w = .rule r)
      (validate references : Value Code → _) := by
  refine Build.settles_guarded
    (fun items ↦ Build.recurs_filterMap items (recursOrDrops_fromItem references))
    (fun _ ↦ ?_) (fun others stand journal ↦ ?_) Build.yields_nil
  · cases references <;> rfl
  · obtain _ | ⟨rfl, rest⟩ := stand
    cases rest
    cases references <;> rfl

end Extras

namespace Precedences

private theorem admitted?_eq_some {raw : Value Code} {r : Rule (Value Code)} :
    admitted? raw = some r ↔ raw.toRule = .ok r ∧ mayStand r = true := by
  cases rule : raw.toRule with
  | error cause => simp [admitted?, Extras.rule?, rule, Except.toOption]
  | ok r' =>
    rw [admitted?_eq rule, Option.ite_none_right_eq_some]
    constructor
    · rintro ⟨stands, ⟨⟩⟩
      exact ⟨rfl, stands⟩
    · rintro ⟨⟨⟩, stands⟩
      exact ⟨stands, rfl⟩

private theorem filter_entryProblem?_of_dropped {names : Namespace Code} {i j : Nat}
    {raw : Value Code} (dropped : admitted? raw = none) :
    (entryProblem? names i j raw).toList.filter (Problem.isOf .undeclaredReference) = [] := by
  cases rule : raw.toRule with
  | error cause =>
    have other : Problem.isOf .undeclaredReference ⟨cause, some "precedences"⟩ = false := by
      obtain eq | eq := Value.kind_of_toRule_error rule <;> simp [Problem.isOf, Problem.kind, eq]
    simp [entryProblem?, rule, other]
  | ok r =>
    rw [admitted?_eq rule] at dropped
    have other : mayStand r = false := by simpa using dropped
    rw [entryProblem?_of_not_mayStand rule other]
    rfl

private theorem filter_entryProblem?_of_kept {names : Namespace Code} {i j k l : Nat}
    {raw : Value Code}
    {r : Rule (Value Code)} (rule : raw.toRule = .ok r) (stands : mayStand r = true) :
    (entryProblem? names i j raw).toList.filter (Problem.isOf .undeclaredReference) =
      (entryProblem? names k l (.rule r)).toList := by
  have itself : (Value.rule r).toRule = .ok r := rfl
  unfold entryProblem?
  rw [rule, itself]
  cases r with
  | string v => rfl
  | symbol name =>
    cases declared : names.has name <;>
      simp [declared, Problem.isOf, Problem.kind, Cause.kind]
  | bare | pattern | blank | group | wrap | prec | field | aliased => cases stands

private theorem canBeKey_of_yields_fromItem {i j : Nat} {raw name : Value Code}
    {result : Option (Rule (Value Code))} (rule : raw.toRule = .ok (.symbol name))
    (h : Yields .collect (fromItem i j raw) before result after) : name.canBeKey = true := by
  unfold fromItem at h
  rw [Build.yields_normalize_bind, rule] at h
  obtain ⟨_, _, discarded, -⟩ := (Build.yields_bind _ _ _).1 h
  obtain ⟨_, required⟩ := (Build.yields_discard _ _).1 discarded
  exact ((Build.yields_requireDeclared _ _ _ _).1 required).1

/-- An entry of a group is repeated on its rule, wherever that stands. -/
theorem recursOrDrops_fromItem (i j k : Nat) (raw : Value Code) :
    RecursOrDrops (Problem.isOf .undeclaredReference) (fun r other ↦ other.1 = .rule r)
      (fromItem i j raw) fun other : Value Code × Nat ↦ fromItem k other.2 other.1 := by
  intro before result after gone
  obtain ⟨kept, rfl⟩ := account_fromItem gone
  refine ⟨_, rfl, ?_⟩
  cases result with
  | none => exact filter_entryProblem?_of_dropped kept.symm
  | some r =>
    obtain ⟨rule, stands⟩ := admitted?_eq_some.1 kept.symm
    rintro ⟨_, l⟩ rfl again same
    have goesOn : GoesOn (fromItem k l (.rule r)) again := by
      refine goesOn_fromItem fun name symbol ↦ ?_
      cases symbol
      exact canBeKey_of_yields_fromItem rule gone
    refine goesOn.yields fun result between repeated ↦ ?_
    obtain ⟨rfl, rfl⟩ := account_fromItem repeated
    refine ⟨admitted?_eq_some.2 ⟨rfl, stands⟩, ?_⟩
    rw [filter_entryProblem?_of_kept rule stands, same]

/-- A group is repeated on what is left of it, wherever that stands. -/
theorem recursOrDrops_fromGroup (i : Nat) (group : Value Code) :
    RecursOrDrops (Problem.isOf .undeclaredReference)
      (fun rules other ↦ IsArrayOf (fun r w ↦ w = .rule r) rules other.1)
      (fromGroup i group) fun other : Value Code × Nat ↦ fromGroup other.2 other.1 := by
  intro before result after gone
  unfold fromGroup at gone
  cases array : group.array? with
  | none =>
    rw [array] at gone
    obtain ⟨rfl, -, rfl⟩ := (Build.yields_reportIn_return _ _ _ _).1 gone
    exact ⟨[_], rfl, rfl⟩
  | some entries =>
    rw [array] at gone
    obtain ⟨rules, between, entered, done⟩ := (Build.yields_bind _ _ _).1 gone
    obtain ⟨rfl, rfl⟩ := (Build.yields_pure _ _).1 done
    -- The problems are the same for every position of the group that is left.
    have repeats (k : Nat) : Recurs (Problem.isOf .undeclaredReference)
        (List.Forall₂ fun r w ↦ w = .rule r) (Build.filterMapIdx (fromItem i) entries)
        (Build.filterMapIdx (fromItem k)) :=
      Build.recurs_filterMapIdx entries fun entry ↦ recursOrDrops_fromItem i entry.2 k entry.1
    obtain ⟨problems, rfl, -⟩ := repeats 0 before rules after entered
    refine ⟨problems, rfl, ?_⟩
    rintro ⟨w, k⟩ ⟨others, array', stand⟩ again same
    obtain ⟨problems', reported, repeated⟩ := repeats k before rules _ entered
    obtain rfl := before.reporting_inj reported
    change w.array? = some others at array'
    change Yields .collect (fromGroup k w) again (some rules) _
    unfold fromGroup
    rw [array']
    refine (Build.yields_bind _ _ _).2 ⟨rules, _, repeated others stand again same, ?_⟩
    exact (Build.yields_pure _ _).2 ⟨rfl, rfl⟩

/-- The precedences are settled. -/
theorem settles_validate :
    Settles (Problem.isOf .undeclaredReference)
      (IsArrayOf (IsArrayOf fun r w ↦ w = .rule r)) (validate : Value Code → _) :=
  Build.settles_guarded
    (fun items ↦ Build.recurs_filterMapIdx items fun (group, i) ↦ recursOrDrops_fromGroup i group)
    (fun _ ↦ rfl) (fun _ none journal ↦ by cases none; exact Build.yields_nil journal)
    Build.yields_nil

end Precedences

/-! ### All sections -/

/-- Checked once more, with the same names declared, what each of these sections has come to comes
to itself. Names that are not declared are reported again where they are kept, and so are extras of
a declared name; in conflicts and the word nothing is left that is reported. -/
theorem settles_sections :
    (∀ references, Settles
      (Problem.isOf (if references then .undeclaredReference else .duplicateName))
      (IsArrayOf fun r w ↦ w = .rule r) (Extras.validate references : Value Code → _)) ∧
    Settles (Problem.isOf .undeclaredReference) (IsArrayOf fun name w ↦ w = name)
      (Names.validateInline : Value Code → _) ∧
    Settles (fun _ ↦ false) (IsArrayOf (IsArrayOf fun name w ↦ w = name))
      (Names.validateConflicts : Value Code → _) ∧
    Settles (fun _ ↦ false) (fun word w ↦ w = word) (Names.validateWord : Value Code → _) ∧
    Settles (Problem.isOf .undeclaredReference) (IsArrayOf fun name w ↦ w = name)
      (Names.validateSupertypes : Value Code → _) ∧
    Settles (Problem.isOf .undeclaredReference) (IsArrayOf (IsArrayOf fun r w ↦ w = .rule r))
      (Precedences.validate : Value Code → _) :=
  ⟨Extras.settles_validate, Names.settles_validateInline, Names.settles_validateConflicts,
    Names.settles_validateWord, Names.settles_validateSupertypes, Precedences.settles_validate⟩

/-- Precedences of which one group is no array and one has a symbol that is not declared. Checked
again, what they have come to is kept, and only the symbol is reported again. -/
theorem settles_mixed_groups :
    let undeclared : Problem Unit := ⟨.undeclared "precedences" (.string "b"), some "precedences"⟩
    let dropped : Problem Unit := ⟨.precedenceGroupNotAnArray 0 (.int 0), some "precedences"⟩
    Yields .collect
      (Precedences.validate (.tuple [.int 0, .tuple [.rule (.symbol (.string "b")), .string "a"]]))
      {} [[.symbol (.string "b"), .string (.string "a")]]
      (Journal.reporting {} [dropped, undeclared]) ∧
    Yields .collect
      (Precedences.validate (.tuple [.tuple [.rule (.symbol (.string "b")),
        .rule (.string (.string "a"))]]))
      {} [[.symbol (.string "b"), .string (.string "a")]] (Journal.reporting {} [undeclared]) := by
  intro undeclared dropped
  have first : Yields .collect
      (Precedences.validate (.tuple [.int 0, .tuple [.rule (.symbol (.string "b")), .string "a"]]))
      {} [[.symbol (.string "b"), .string (.string "a")]]
      (Journal.reporting {} [dropped, undeclared]) :=
    show Build.start _ _ _ = _ from rfl
  refine ⟨first, ?_⟩
  obtain ⟨problems, reported, -, repeats⟩ := settles_sections.2.2.2.2.2 _ _ _ _ first
  obtain rfl := Journal.reporting_inj _ reported
  exact repeats _ ⟨_, rfl, .cons ⟨_, rfl, .cons rfl (.cons rfl .nil)⟩ .nil⟩ {} rfl

end GrammarDoc
