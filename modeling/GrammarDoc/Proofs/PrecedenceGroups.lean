import GrammarDoc.Proofs.NameSections
import GrammarDoc.Proofs.Policies

/-!
# Accounts of the precedences

What the precedences come to in a build that collects problems. A group that is no array is dropped,
and so is an entry that is neither a literal string nor a symbol; but a group stays where it is even
if nothing is left of it. Messages give positions in the description, and so no drop moves them.
-/

namespace GrammarDoc

open Build (Yields)

variable {Code : Type} {α β : Type} {before after : Journal Code}

/-- Going through items and their positions comes to what each item gives, wherever it stands, and
reports what is wrong with each at its position. -/
theorem Build.of_yields_filterMapIdx_reporting {step : Nat → α → Build Code (Option β)}
    {items : List α} {bs : List β} {result : α → Option β}
    {problems : Nat → α → List (Problem Code)}
    (h : Yields .collect (filterMapIdx step items) before bs after)
    (gives : ∀ i a journal b later, journal.names = before.names →
      Yields .collect (step i a) journal b later →
        b = result a ∧ later = journal.reporting (problems i a)) :
    bs = items.filterMap result ∧
      after = before.reporting (items.zipIdx.flatMap fun (a, i) ↦ problems i a) := by
  have each : ∀ (item : α × Nat) (journal : Journal Code) (b : Option β) (later : Journal Code),
      journal.names = before.names → Yields .collect (step item.2 item.1) journal b later →
        b = (result ∘ Prod.fst) item ∧ later = journal.reporting (problems item.2 item.1) :=
    fun (a, i) journal b later same gone ↦ gives i a journal b later same gone
  obtain ⟨kept, reported⟩ := of_yields_filterMap_reporting h each
  refine ⟨?_, reported⟩
  rw [kept, ← List.filterMap_map, List.zipIdx_map_fst]

namespace Precedences

open Names (entriesOf)

/-! ### Entries -/

/-- Whether a rule may stand in a group: it is a literal string or a symbol. -/
def mayStand : Rule (Value Code) → Bool
  | .string _ | .symbol _ => true
  | _ => false

/-- The rule that an entry stands for, if it may stand in a group. -/
def admitted? (raw : Value Code) : Option (Rule (Value Code)) := (Extras.rule? raw).filter mayStand

/-- An entry leaves its rule, if that may stand in a group. -/
theorem admitted?_eq {raw : Value Code} {r : Rule (Value Code)} (rule : raw.toRule = .ok r) :
    admitted? raw = if mayStand r then some r else none := by
  rw [admitted?, Extras.rule?, rule]
  rfl

/-- The problem with an entry of a group, both given with their positions: that it stands for no
rule, that its rule may not stand there, or that it is a symbol that is not declared. -/
def entryProblem? (names : Namespace Code) (i j : Nat) (raw : Value Code) :
    Option (Problem Code) :=
  match raw.toRule with
  | .error cause => some ⟨cause, some "precedences"⟩
  | .ok (.string _) => none
  | .ok (.symbol name) =>
    if names.has name then none else some ⟨.undeclared "precedences" name, some "precedences"⟩
  | .ok r => some ⟨.notAPrecedenceEntry i j r raw, some "precedences"⟩

/-- A rule that may not stand in a group is reported with the positions of its entry. -/
theorem entryProblem?_of_not_mayStand {names : Namespace Code} {i j : Nat} {raw : Value Code}
    {r : Rule (Value Code)} (rule : raw.toRule = .ok r) (h : mayStand r = false) :
    entryProblem? names i j raw = some ⟨.notAPrecedenceEntry i j r raw, some "precedences"⟩ := by
  unfold entryProblem?
  rw [rule]
  cases r with
  | string | symbol => cases h
  | bare | pattern | blank | group | wrap | prec | field | aliased => rfl

/-- An entry comes to the rule that it stands for, if that may stand in a group. -/
theorem account_fromItem {i j : Nat} {raw : Value Code} {result : Option (Rule (Value Code))}
    (h : Yields .collect (fromItem i j raw) before result after) :
    result = admitted? raw ∧
      after = before.reporting (entryProblem? before.names i j raw).toList := by
  unfold fromItem at h
  rw [Build.yields_normalize_bind] at h
  cases rule : raw.toRule with
  | error cause =>
    rw [rule] at h
    obtain ⟨rfl, rfl⟩ := (Build.yields_pure _ _).1 h
    simp [admitted?, Extras.rule?, entryProblem?, rule, Except.toOption]
  | ok r =>
    rw [rule] at h
    by_cases stands : mayStand r = true
    · cases r with
      | string v =>
        obtain ⟨rfl, rfl⟩ := (Build.yields_pure _ _).1 h
        exact ⟨by simp [admitted?_eq rule, mayStand], by simp [entryProblem?, rule]⟩
      | symbol name =>
        obtain ⟨rfl, _, required⟩ := (Build.yields_discard_return _ _ _).1 h
        obtain ⟨-, -, reported⟩ := (Build.yields_requireDeclared _ _ _ _).1 required
        refine ⟨by simp [admitted?_eq rule, mayStand], ?_⟩
        unfold entryProblem?
        cases declared : before.names.has name with
        | true =>
          rw [declared] at reported
          simpa [rule, declared] using reported
        | false =>
          rw [declared] at reported
          obtain ⟨-, rfl⟩ := (Build.yields_reportIn _ _ _).1 reported
          simp only [rule, declared]
          rfl
      | bare | pattern | blank | group | wrap | prec | field | aliased => cases stands
    · have other : mayStand r = false := (Bool.not_eq_true _).mp stands
      -- All other kinds of rules come to the same refusal.
      have refused : Yields .collect (do
          Build.reportIn (some "precedences") (.notAPrecedenceEntry i j r raw)
          return none) before result after := by
        cases r with
        | string | symbol => cases other
        | bare | pattern | blank | group | wrap | prec | field | aliased => exact h
      obtain ⟨rfl, -, rfl⟩ := (Build.yields_reportIn_return _ _ _ _).1 refused
      rw [entryProblem?_of_not_mayStand rule other]
      exact ⟨by simp [admitted?_eq rule, other], rfl⟩

/-! ### Groups -/

/-- What is left of a group, which is an array. -/
def group? (group : Value Code) : Option (List (Rule (Value Code))) :=
  group.array?.map (List.filterMap admitted?)

/-- The problems with a group, given with its position: that it is no array, or those with its
entries. -/
def groupProblems (names : Namespace Code) (i : Nat) (group : Value Code) : List (Problem Code) :=
  match group.array? with
  | none => [⟨.precedenceGroupNotAnArray i group, some "precedences"⟩]
  | some entries => entries.zipIdx.filterMap fun (raw, j) ↦ entryProblem? names i j raw

/-- A group comes to what is left of it, if it is an array. -/
theorem account_fromGroup {i : Nat} {group : Value Code}
    {result : Option (List (Rule (Value Code)))}
    (h : Yields .collect (fromGroup i group) before result after) :
    result = group? group ∧ after = before.reporting (groupProblems before.names i group) := by
  unfold group? groupProblems
  unfold fromGroup at h
  cases array : group.array? with
  | none =>
    rw [array] at h
    obtain ⟨rfl, -, rfl⟩ := (Build.yields_reportIn_return _ _ _ _).1 h
    exact ⟨rfl, rfl⟩
  | some entries =>
    rw [array] at h
    obtain ⟨left, between, gone, done⟩ := (Build.yields_bind _ _ _).1 h
    obtain ⟨rfl, rfl⟩ := (Build.yields_pure _ _).1 done
    obtain ⟨rfl, rfl⟩ := Build.of_yields_filterMapIdx_reporting gone
      fun j raw journal b later same entered ↦ same ▸ account_fromItem entered
    exact ⟨rfl, by simp only [List.filterMap_eq_flatMap_toList]⟩

/-! ### The section -/

/-- The problems with the groups of the precedences, from the first to the last. -/
def problems (names : Namespace Code) (groups : List (Value Code)) : List (Problem Code) :=
  groups.zipIdx.flatMap fun (group, i) ↦ groupProblems names i group

/-- Precedences come to what is left of their groups, and an objection to their shape or the
problems with their groups are reported. -/
theorem account_validate {v : Value Code} {results : List (List (Rule (Value Code)))}
    (h : Yields .collect (validate v) before results after) :
    results = (entriesOf v).filterMap group? ∧
      after = before.reporting
        (Shape.objections (.array "precedences") v ++ problems before.names (entriesOf v)) := by
  have read (w : Value Code) :
      (w.array?.getD []).zipIdx = (w.array?.map fun groups ↦ groups.zipIdx).getD [] := by
    cases w.array? <;> rfl
  simp only [validate, Build.filterMapIdx, read] at h
  have admits (w : Value Code) : Shape.admits (.array "precedences") w =
      (w.array?.map fun groups ↦ groups.zipIdx).isSome := Option.isSome_map.symm
  rw [Build.yields_guarded_filterMap _ _ v results admits (fun _ ↦ rfl) rfl, ← read] at h
  change Yields .collect (Build.filterMapIdx fromGroup (v.array?.getD [])) _ _ _ at h
  obtain ⟨kept, reported⟩ := Build.of_yields_filterMapIdx_reporting h
    fun i group journal b later same entered ↦ same ▸ account_fromGroup entered
  exact ⟨kept, reported.trans (Journal.reporting_append _ _ _)⟩

/-- Precedences that are an array keep each group that is an array, in order, with the literal
strings and symbols among the rules that its entries stand for. Exactly the groups that are no
array, the entries that stand for no rule or for another one, and the symbols that are not declared
are reported, in order and with their positions in the array. -/
theorem yields_groups (before : Journal Code) {v : Value Code} {groups : List (Value Code)}
    (array : v.array? = some groups)
    (hashable : ∀ group ∈ groups, ∀ raw ∈ entriesOf group, ∀ name,
      raw.toRule = .ok (.symbol name) → name.canBeKey = true) :
    Yields .collect (validate v) before
      ((groups.filterMap Value.array?).map fun entries ↦
        (entries.filterMap Extras.rule?).filter mayStand)
      (before.reporting (problems before.names groups)) := by
  have goesOn : Build.GoesOn (validate v) before := by
    refine goesOn_validate fun _ again group mem entries inside raw given ↦ ?_
    obtain rfl := Option.some.inj (array.symm.trans again)
    refine hashable group mem raw ?_
    rwa [entriesOf, inside, Option.getD_some]
  refine goesOn.yields fun results later gone ↦ ?_
  obtain ⟨rfl, rfl⟩ := account_validate gone
  have entries : entriesOf v = groups := by rw [entriesOf, array, Option.getD_some]
  have admitted : Shape.admits (.array "precedences") v = true := by simp [Shape.admits, array]
  rw [entries, Shape.objections_of_admits admitted, List.nil_append]
  refine ⟨?_, rfl⟩
  have left : (group? : Value Code → _) = fun group ↦ group.array?.map fun entries ↦
      (entries.filterMap Extras.rule?).filter mayStand := by
    funext group
    unfold group?
    congr 1
    funext entries
    rw [List.filter_filterMap]
    rfl
  rw [left, List.map_filterMap]

/-- A group that is no array, before a group with an entry that stands for no rule and one whose
rule may not stand there, and then a group of which nothing is left. -/
def mixed : List (Value Unit) :=
  [.int 0, .tuple [.int 1, .string "a", .rule .blank, .rule (.symbol (.string "b"))],
    .tuple [.rule .blank]]

/-- Positions are those in the description, whatever has been dropped before. -/
theorem yields_mixed_groups :
    (∀ group ∈ mixed, ∀ raw ∈ entriesOf group, ∀ name,
      raw.toRule = .ok (.symbol name) → name.canBeKey = true) ∧
    Yields .collect (validate (.tuple mixed)) {}
      [[.string (.string "a"), .symbol (.string "b")], []]
      (Journal.reporting {}
        [⟨.precedenceGroupNotAnArray 0 (.int 0), some "precedences"⟩,
          ⟨.notARule (.int 1), some "precedences"⟩,
          ⟨.notAPrecedenceEntry 1 2 .blank (.rule .blank), some "precedences"⟩,
          ⟨.undeclared "precedences" (.string "b"), some "precedences"⟩,
          ⟨.notAPrecedenceEntry 2 0 .blank (.rule .blank), some "precedences"⟩]) := by
  have hashable : ∀ group ∈ mixed, ∀ raw ∈ entriesOf group, ∀ name,
      raw.toRule = .ok (.symbol name) → name.canBeKey = true := by
    simp only [mixed, entriesOf, Value.array?, Value.toRule, List.forall_mem_cons]
    simp [show (Value.string "b" : Value Unit).canBeKey = true from rfl]
  exact ⟨hashable, yields_groups {} rfl hashable⟩

/-- What the messages of these problems quote. -/
example : (problems [] mixed).map Problem.message =
    ["precedences[0] must be an array", "invalid rule: 1",
      "precedences[1][2] must be a string or symbol: BlankRule()",
      "invalid precedences: name 'b' not in namespace",
      "precedences[2][0] must be a string or symbol: BlankRule()"] := by
  decide +kernel

end Precedences

end GrammarDoc
