import GrammarDoc.Proofs.Persistence
import GrammarDoc.Proofs.Progress
import GrammarDoc.Proofs.Relocation.Sections

/-!
# Builds elsewhere

A build that takes place elsewhere comes to what the build comes to, moved to there, if the
functions that the description gives do so too. Such functions may make and pass on whatever they
like; they just cannot tell where they are called.
-/

namespace GrammarDoc

open Build (Follows FollowsFrom Yields)

variable {Code : Type} {ρ : Relocation Code} {P : Store Code → Prop}

/-- A moved value is missing only if it was before. -/
@[simp] theorem Value.moved_eq_missing {v : Value Code} : v.moved ρ = .missing ↔ v = .missing := by
  cases v <;> simp [Value.moved]

/-! ### Descriptions -/

namespace Description

/-- What a moved description gives. -/
@[simp] theorem given_moved (v : Value Code) (store : Store Code) :
    given (v.moved ρ) (store.moved ρ) = Table.moved ρ (given v store) := by
  unfold given
  rw [Store.read_moved, Value.object?_moved]
  cases (store.read v).object? <;> rfl

/-- What moved entries give for a section. -/
@[simp] theorem get_moved (entries : Table Code (Value Code)) (part : Section) :
    get (Table.moved ρ entries) part = (get entries part).moved ρ := by
  unfold get
  rw [Table.find?_moved_string]
  cases entries.find? (.string part.title) with
  | none => simp [Value.moved]
  | some v => rfl

private theorem isSection_moved (key : Value Code) : isSection (key.moved ρ) = isSection key := by
  have titles : (Section.all.map fun part ↦ (.string part.title : Value Code)) =
      (Section.all.map fun part ↦ .string part.title).map (Value.moved ρ) := by
    simp [Value.moved]
  unfold isSection
  rw [titles, Value.isIn_moved, ← titles]

private theorem follows_checkKeys (entries : Table Code (Value Code)) :
    Follows ρ P id (checkKeys entries) (checkKeys (Table.moved ρ entries)) := by
  have unknown : ((entries.keys.map (Value.moved ρ)).filter fun key ↦ !isSection key) =
      (entries.keys.filter fun key ↦ !isSection key).map (Value.moved ρ) := by
    simp [List.filter_map, Function.comp_def, isSection_moved]
  unfold checkKeys
  rw [Table.keys_moved, unknown]
  exact .forM (f := Value.moved ρ) (fun key ↦ .reportIn none (.unknownSection key)) _

/-- Checking a moved description by itself. -/
theorem follows_check (v : Value Code) : Follows ρ P id (check v) (check (v.moved ρ)) := by
  refine (Follows.read v).bind fun v ↦ ?_
  rw [Value.object?_moved]
  cases v.object? with
  | none => exact .reportIn none _
  | some entries => exact follows_checkKeys entries

end Description

/-! ### Rules -/

namespace Rules

private theorem follows_inherit (inherited : Definitions Code) :
    Follows ρ P id (inherit inherited) (inherit (Table.moved ρ inherited)) := by
  unfold inherit
  rw [Table.keys_moved]
  exact .forM (f := Value.moved ρ)
    (fun name ↦ (Build.follows_declare name "rule" (some "rules")).discard) _

private theorem follows_declareEntry (inherited : Definitions Code)
    (entry : Value Code × Value Code) :
    Follows ρ P (Option.map (Prod.map (Value.moved ρ) (Value.movedCallable ρ)))
      (declareEntry inherited entry)
      (declareEntry (Table.moved ρ inherited) (entry.map (Value.moved ρ) (Value.moved ρ))) := by
  obtain ⟨name, v⟩ := entry
  refine (Build.follows_requireValidName "rules" none name).bind fun valid ↦ ?_
  rw [id_eq, Value.callable?_moved, Table.has_moved]
  split
  · cases v.callable? with
    | none => exact (Follows.reportIn _ _).bind fun _ ↦ .pure rfl
    | some f =>
      rw [Option.map_some]
      dsimp only
      split
      · exact (Build.follows_declare name "rule" (some "rules")).discard.bind fun _ ↦ .pure rfl
      · exact .pure rfl
  · exact .pure rfl

private theorem symbols_moved (definitions : List (Value Code)) :
    symbols (definitions.map (Value.moved ρ)) =
      (symbols definitions).map (List.map (Value.moved ρ)) := by
  unfold symbols
  change List.foldlM _ (List.map (Value.moved ρ) []) _ = _
  generalize ([] : List (Value Code)) = found
  induction definitions generalizing found with
  | nil => rfl
  | cons v rest ih =>
    rw [List.map_cons, List.foldlM_cons, List.foldlM_cons]
    have fails := v.noMethod_moved ρ "iter_children"
    cases v with
    | rule r =>
      rw [Value.moved]
      dsimp only
      rw [Rule.addSymbols_moved]
      exact ih _
    | missing | bool | int | double | string | list | tuple | mapping | pattern | callable
    | builder | grammar | references =>
      rw [Value.moved] at fails ⊢
      dsimp only
      rw [fails]
      rfl

private theorem follows_resolve (definitions : Definitions Code) :
    Follows ρ P id (resolve definitions) (resolve (Table.moved ρ definitions)) := by
  refine Follows.bind (.mapM (f := Prod.map (Value.moved ρ) (Value.moved ρ))
    (fun entry ↦ Follows.present entry.2) definitions) fun rules ↦ ?_
  rw [symbols_moved]
  refine Follows.bind (f := List.map (Value.moved ρ)) ?_ fun names ↦ ?_
  · cases symbols rules with
    | error fault => exact Follows.ofOutcome (.error (.fault fault))
    | ok names => exact Follows.ofOutcome (.ok names)
  · exact .forM (f := Value.moved ρ)
      (fun name ↦ (Build.follows_requireDeclared "rules" none name).discard) names

private theorem merged_moved (inherited : Definitions Code)
    (defined : List (Value Code × Rule (Value Code))) :
    merged (Table.moved ρ inherited)
        (defined.map (Prod.map (Value.moved ρ) (Value.movedRule ρ))) =
      Table.moved ρ (merged inherited defined) := by
  unfold merged
  induction defined generalizing inherited with
  | nil => rfl
  | cons entry rest ih =>
    obtain ⟨name, r⟩ := entry
    have inserted := Table.insert_moved ρ (Value.moved ρ) inherited name (.rule r)
    rw [Value.moved] at inserted
    rw [List.map_cons, List.foldl_cons, List.foldl_cons, ← ih]
    exact congrArg (List.foldl _ · _) inserted

end Rules

namespace Setting

/-! ### Sections that are given and sections that are inherited -/

section

variable (setting : Setting Code) {entries : Table Code (Value Code)} {part : Section}

private theorem name_of_given
    (given : ¬(Description.get entries .name = .missing ∧ setting.hasBase = true)) :
    setting.name entries = (do
      Names.validateName (← Build.present (Description.get entries .name))) := by
  unfold Setting.name
  split
  · next missing based => exact absurd ⟨missing, based⟩ given
  · rfl

private theorem name_of_inherits
    (inherits : Description.get entries .name = .missing ∧ setting.hasBase = true) :
    setting.name entries = setting.ofBase .name := by
  unfold Setting.name
  rw [inherits.1, inherits.2]

private theorem externals_of_given (given : Description.get entries .externals ≠ .missing) :
    setting.externals entries = (do
      let inherited ← setting.inheritedExternals
      let v ← setting.evaluate .externals (Description.get entries .externals) (.list inherited)
      let rules ← Externals.validate (← Build.present v)
      return { place := setting.made "result" "externals", toList := rules.map .rule }) := by
  unfold Setting.externals
  refine bind_congr fun inherited ↦ ?_
  split
  · next missing => exact absurd missing given
  · rfl

private theorem externals_of_missing (missing : Description.get entries .externals = .missing) :
    setting.externals entries = (do
      let inherited ← setting.inheritedExternals
      Externals.inherit inherited.toList
      return inherited) := by
  unfold Setting.externals
  rw [missing]

variable {validate : Value Code → Build Code (List (Value Code))}

private theorem part_of_given
    (given : ¬(Description.get entries part = .missing ∧ setting.hasBase = true)) :
    setting.part entries part validate = (do
      let offered ← setting.offered part (← setting.inherited part)
      let v ← setting.evaluate part (Description.get entries part) offered
      let items ← validate (← Build.present v)
      return { place := setting.made "result" part.title, toList := items }) := by
  unfold Setting.part
  refine bind_congr fun inherited ↦ bind_congr fun offered ↦ ?_
  split
  · next missing based => exact absurd ⟨missing, based⟩ given
  · rfl

private theorem part_of_inherits
    (inherits : Description.get entries part = .missing ∧ setting.hasBase = true) :
    setting.part entries part validate = (do
      let inherited ← setting.inherited part
      let _ ← setting.offered part inherited
      match ← Build.perform (Exec.copy (setting.made "copy" part.title) inherited) with
      | .list items => return items
      | _ => throw (.fault .wrongType)) := by
  unfold Setting.part
  refine bind_congr fun inherited ↦ bind_congr fun offered ↦ ?_
  split
  · rfl
  · next other => exact absurd inherits.2 (other inherits.1)

private theorem word_of_given
    (given : ¬(Description.get entries .word = .missing ∧ setting.hasBase = true)) :
    setting.word entries = (do
      let inherited ← setting.inherited .word
      let v := Description.get entries .word
      if ← refersToDeclared v then Names.validateWord v.nameOf
      else Names.validateWord (← Build.present (← setting.evaluate .word v inherited))) := by
  unfold Setting.word
  refine bind_congr fun inherited ↦ ?_
  split
  · next missing based => exact absurd ⟨missing, based⟩ given
  · rfl

private theorem word_of_inherits
    (inherits : Description.get entries .word = .missing ∧ setting.hasBase = true) :
    setting.word entries = (do
      Build.perform (Exec.copy (setting.made "copy" "word") (← setting.inherited .word))) := by
  unfold Setting.word
  rw [inherits.1, inherits.2]

end

/-! ### Settings -/

variable (ρ) in
/-- A setting is elsewhere, for the builds of a description from a store: its place and its base are
moved, its policy is the same, and the functions that the description gives, with what they are
passed moved, come to what they come to here, moved, and leave the moved store. -/
structure Relocates (first second : Setting Code) (description : Value Code) (start : Store Code) :
    Prop where
  place : second.place = ρ.place first.place
  base : second.base = first.base.moved ρ
  extraReferences : second.extraReferences = first.extraReferences
  calls : ∀ earlier f, first.Reaches description start earlier →
    first.GivesFunction description earlier f →
      ∀ place offered store, first.Reaches description start store →
        (second.call (ρ.place place) (Value.movedCallable ρ f) (offered.moved ρ)).start
            (store.moved ρ) =
          Prod.map (Outcome.moved ρ (Value.moved ρ)) (Store.moved ρ)
            ((first.call place f offered).start store)

namespace Relocates

variable {first second : Setting Code} {description : Value Code} {start : Store Code}
  (h : Relocates ρ first second description start)

include h

/-- What plays a role for a section is made where it is moved to. -/
theorem made (role title : String) : second.made role title = ρ.place (first.made role title) := by
  simp [Setting.made, h.place]

/-- Both builds extend a grammar, or neither does. -/
theorem hasBase : second.hasBase = first.hasBase := by
  unfold Setting.hasBase
  rw [h.base]
  cases first.base <;> simp [Value.moved]

/-- What the base has for a section is moved. -/
theorem follows_ofBase (part : Section) :
    Follows ρ P (Value.moved ρ) (first.ofBase part) (second.ofBase part) := by
  refine .ofFault ?_
  rw [h.base, Value.attribute?_moved]

/-- A function that the description gives is called elsewhere. -/
theorem follows_call {earlier : Store Code} {f : Callable (Value Code) Code}
    (reached : first.Reaches description start earlier)
    (gives : first.GivesFunction description earlier f) (place : Place) (offered : Value Code) :
    Exec.Follows ρ (first.Reaches description start) (Value.moved ρ) (first.call place f offered)
      (second.call (ρ.place place) (Value.movedCallable ρ f) (offered.moved ρ)) :=
  fun store now ↦ ⟨h.calls earlier f reached gives place offered store now,
    .call place offered reached gives now⟩

variable (entries : Table Code (Value Code))

/-- Both builds inherit a section, or neither does. -/
theorem inherits_iff (part : Section) :
    Description.get (Table.moved ρ entries) part = .missing ∧ second.hasBase = true ↔
      Description.get entries part = .missing ∧ first.hasBase = true := by
  rw [Description.get_moved, Value.moved_eq_missing, h.hasBase]

/-- The name section. -/
theorem follows_name : Follows ρ P (Value.moved ρ) (first.name entries)
    (second.name (Table.moved ρ entries)) := by
  by_cases inherits : Description.get entries .name = .missing ∧ first.hasBase = true
  · rw [name_of_inherits first inherits,
      name_of_inherits second ((h.inherits_iff entries .name).2 inherits)]
    exact h.follows_ofBase .name
  · rw [name_of_given first inherits,
      name_of_given second (mt (h.inherits_iff entries .name).1 inherits), Description.get_moved]
    exact (Follows.present _).bind Names.follows_validateName

/-- The externals that the base has. -/
theorem follows_inheritedExternals :
    Follows ρ P (Value.movedList ρ) first.inheritedExternals second.inheritedExternals := by
  unfold Setting.inheritedExternals
  rw [h.hasBase, h.made]
  split
  · refine (h.follows_ofBase .externals).bind fun v ↦ (Follows.elements v).bind fun items ↦ ?_
    exact .pure (by rw [Value.movedList, Value.movedItems_eq_map])
  · exact .pure (by rw [Value.movedList, Value.movedItems])

variable {entries}

/-- The value of a section. -/
theorem follows_evaluate {earlier : Store Code} {part : Section}
    (found : first.Finds description start entries earlier) (offered : Value Code) :
    Follows ρ (first.Reaches description start) (Value.moved ρ)
      (first.evaluate part (Description.get entries part) offered)
      (second.evaluate part ((Description.get entries part).moved ρ) (offered.moved ρ)) := by
  obtain ⟨reached, rfl⟩ := found
  unfold Setting.evaluate
  rw [Value.callable?_moved]
  cases given : (Description.get (Description.given description earlier) part).callable? with
  | none => exact .pure rfl
  | some f =>
    have takes : (Value.movedCallable ρ f).takesArgument = f.takesArgument := by
      rw [Callable.takesArgument, Callable.takesArgument, Value.movedCallable_signature]
    rw [Option.map_some]
    dsimp only
    rw [takes, h.made]
    split
    · refine (Follows.absorb (h.follows_call reached (.inl ⟨part, given⟩) _ offered)).map
        fun result ↦ ?_
      cases result <;> rfl
    · exact .pure rfl

/-- The externals of the grammar. -/
theorem follows_externals {earlier : Store Code}
    (found : first.Finds description start entries earlier) :
    Follows ρ (first.Reaches description start) (Value.movedList ρ) (first.externals entries)
      (second.externals (Table.moved ρ entries)) := by
  by_cases missing : Description.get entries .externals = .missing
  · rw [externals_of_missing first missing, externals_of_missing second (by simp [missing])]
    refine h.follows_inheritedExternals.bind fun inherited ↦ ?_
    obtain ⟨place, items, again⟩ := inherited
    rw [Value.movedList, Value.movedItems_eq_map]
    exact (Externals.follows_inherit items).bind fun _ ↦ .pure (by simp [Value.movedList])
  · rw [externals_of_given first missing, externals_of_given second (by simp [missing]),
      Description.get_moved, h.made]
    refine h.follows_inheritedExternals.bind fun inherited ↦ ?_
    refine (h.follows_evaluate found (.list inherited)).bind fun v ↦ ?_
    refine (Follows.present v).bind fun v ↦ (Externals.follows_validate v).map fun rules ↦ ?_
    simp [Value.movedList, Value.moved, Function.comp_def]

/-- The rules that the base has. -/
theorem follows_inheritedRules :
    Follows ρ P (Table.moved ρ) first.inheritedRules second.inheritedRules := by
  unfold Setting.inheritedRules
  rw [h.hasBase]
  split
  · refine (h.follows_ofBase .rules).bind fun v ↦ (Follows.read v).bind fun v ↦ ?_
    rw [Value.object?_moved]
    cases v.object? with
    | none => exact .fault _
    | some definitions => exact .pure rfl
  · exact .pure rfl

/-- The function of a rule is called elsewhere. -/
theorem follows_define (inherited : Rules.Definitions Code) {earlier : Store Code}
    {entry : Value Code × Callable (Value Code) Code}
    (reached : first.Reaches description start earlier)
    (gives : first.GivesFunction description earlier entry.2) :
    Follows ρ (first.Reaches description start)
      (Option.map (Prod.map (Value.moved ρ) (Value.movedRule ρ)))
      (Rules.define first inherited entry)
      (Rules.define second (Table.moved ρ inherited)
        (entry.map (Value.moved ρ) (Value.movedCallable ρ))) := by
  obtain ⟨name, f⟩ := entry
  unfold Rules.define
  dsimp only [Prod.map]
  rw [Value.shown_moved, h.made, ← ρ.place_part, Table.find?_moved, Value.ofOption_map_moved]
  refine (Follows.absorb (h.follows_call reached gives _ _)).bind fun result ↦ ?_
  rcases result with _ | raw
  · exact .pure rfl
  · refine (Follows.present raw).bind fun v ↦ (Build.follows_normalize "rules" v).map fun r ↦ ?_
    cases r <;> rfl

/-- Gathering the rules of a grammar, of which some are given by functions. -/
theorem follows_gather {earlier : Store Code} (reached : first.Reaches description start earlier)
    (inherited : Rules.Definitions Code) {given : List (Value Code × Value Code)}
    (gives : ∀ entry ∈ given, ∀ f, entry.2.callable? = some f →
      first.GivesFunction description earlier f) :
    Follows ρ (first.Reaches description start) (Table.moved ρ)
      (Rules.gather first inherited given)
      (Rules.gather second (Table.moved ρ inherited) (Table.moved ρ given)) := by
  refine (Rules.follows_inherit inherited).bind fun _ posture before now ↦ ?_
  have declares := Follows.filterMap (ρ := ρ) (P := first.Reaches description start)
    fun entry (_ : entry ∈ given) ↦ Rules.follows_declareEntry inherited entry
  refine (declares posture before now).bind fun functions second declaring now ↦ ?_
  have called (function : Value Code × Callable (Value Code) Code) (mem : function ∈ functions) :
      first.GivesFunction description earlier function.2 := by
    obtain ⟨entry, he, _, _, -, declared, -⟩ := Build.exists_yields_of_mem_filterMap declaring
      (fun entry _ ↦ Rules.anyMoves_declareEntry _ _) mem
    obtain ⟨-, callable, -⟩ := (Rules.of_yields_declareEntry declared).1
    exact gives entry he _ callable
  have defines := Follows.filterMap fun function mem ↦
    h.follows_define inherited reached (called function mem)
  exact (defines.map fun defined ↦ (Rules.merged_moved inherited defined).symm) posture second now

/-- The rules of a grammar, of which some are given by functions. -/
theorem follows_fromEntries {earlier : Store Code}
    (reached : first.Reaches description start earlier) (v : Value Code)
    (inherited : Rules.Definitions Code) {given : List (Value Code × Value Code)}
    (gives : ∀ entry ∈ given, ∀ f, entry.2.callable? = some f →
      first.GivesFunction description earlier f) :
    Follows ρ (first.Reaches description start) (Table.moved ρ)
      (Rules.fromEntries first inherited v given)
      (Rules.fromEntries second (Table.moved ρ inherited) (v.moved ρ) (Table.moved ρ given)) := by
  rw [Rules.fromEntries_eq, Rules.fromEntries_eq]
  refine (h.follows_gather reached inherited gives).bind fun definitions ↦ ?_
  rw [List.isEmpty_map]
  have resolved : Follows ρ (first.Reaches description start) (Table.moved ρ)
      (do Rules.resolve definitions; return definitions)
      (do Rules.resolve (Table.moved ρ definitions); return Table.moved ρ definitions) :=
    (Rules.follows_resolve definitions).bind fun _ ↦ .pure rfl
  split
  · exact (Follows.reportIn _ (.noRules v)).bind fun _ ↦ resolved
  · exact resolved

/-- The rules section. -/
theorem follows_rules {posture : Posture} {before : Journal Code}
    (found : first.Finds description start entries before.store) :
    FollowsFrom ρ (first.Reaches description start) (Value.movedMapping ρ) posture before
      (first.rules entries) (second.rules (Table.moved ρ entries)) := by
  have given : second.givenRules (Table.moved ρ entries) =
      (first.givenRules entries).moved ρ := by
    unfold Setting.givenRules
    rw [Description.get_moved, h.made]
    cases Description.get entries .rules <;> simp [Value.moved, Value.movedMapping]
  have same (setting : Setting Code) (entries : Table Code (Value Code)) :
      setting.rules entries = (do
        let inherited ← setting.inheritedRules
        let v ← Build.present (setting.givenRules entries)
        return {
          place := setting.made "result" "rules"
          toList := ← Rules.validate setting inherited v }) := rfl
  rw [same, same, given, h.made]
  refine (h.follows_inheritedRules posture before found.reached).bind ?_
  intro inherited between inheriting reached
  obtain ⟨same, -⟩ := of_yields_inheritedRules inheriting
  rw [same] at reached ⊢
  refine (Follows.present _ posture before reached).bind ?_
  intro v between looked reached
  obtain ⟨present, same⟩ := (Build.yields_present _ _).1 looked
  rw [same] at reached ⊢
  have gives : ∀ entry ∈ v.object?.getD [], ∀ f, entry.2.callable? = some f →
      first.GivesFunction description before.store f := by
    intro entry mem f callable
    rw [present, found.given] at mem
    cases object : (before.store.present (first.givenRules
      (Description.given description before.store))).object? with
    | none =>
      rw [object] at mem
      cases mem
    | some definitions =>
      rw [object] at mem
      exact .inr ⟨definitions, object, entry, mem, callable⟩
  have checked : Follows ρ (first.Reaches description start) (Table.moved ρ)
      (Rules.validate first inherited v)
      (Rules.validate second (Table.moved ρ inherited) (v.moved ρ)) := by
    refine Build.follows_guarded rfl ?_
    have object : (v.moved ρ).object?.getD [] = Table.moved ρ (v.object?.getD []) := by
      rw [Value.object?_moved]
      cases v.object? <;> rfl
    rw [object]
    exact h.follows_fromEntries reached v inherited gives
  refine (checked.map fun definitions ↦ ?_) posture before reached
  simp [Value.movedMapping]

/-- What the base has for a section. -/
theorem follows_inherited (part : Section) :
    Follows ρ P (Value.moved ρ) (first.inherited part) (second.inherited part) := by
  unfold Setting.inherited
  rw [h.hasBase]
  split
  · exact h.follows_ofBase part
  · exact .pure rfl

omit h in
private theorem follows_symbols (place : Place) (names : Value Code) :
    Follows ρ P (Value.moved ρ) (symbols place names)
      (symbols (ρ.place place) (names.moved ρ)) := by
  refine (Follows.elements names).map fun items ↦ ?_
  simp [Value.moved, Value.movedList, Value.symbol, Value.movedRule, Function.comp_def]

/-- What the function of a section is passed if no grammar is extended. -/
theorem offeredAnew (part : Section) :
    second.offeredAnew part = (first.offeredAnew part).moved ρ := by
  cases part <;> simp [Setting.offeredAnew, h.made, Value.moved, Value.movedList,
    Extras.blankCharacter, Value.movedRule]

/-- What the function of a section is passed. -/
theorem follows_offered (part : Section) (inherited : Value Code) :
    Follows ρ P (Value.moved ρ) (first.offered part inherited)
      (second.offered part (inherited.moved ρ)) := by
  unfold Setting.offered
  dsimp only
  rw [h.hasBase, h.made, h.offeredAnew]
  split
  · cases part with
    | inline | supertypes => exact follows_symbols _ inherited
    | conflicts =>
      refine (Follows.elements inherited).bind fun groups ↦ ?_
      rw [List.zipIdx_map]
      refine Follows.bind (f := List.map (Value.moved ρ))
        (.mapM (fun entry ↦ ?_) groups.zipIdx) fun groups ↦ .pure ?_
      · obtain ⟨group, i⟩ := entry
        dsimp only [Prod.map]
        rw [id_eq, ← ρ.place_item]
        exact follows_symbols _ group
      · simp [Value.moved, Value.movedList]
    | name | externals | rules | extras | word | precedences => exact .pure rfl
  · exact .pure rfl

/-- A copy of what the base has is made elsewhere. -/
theorem follows_copy {part : Section} {v : Value Code}
    (has : first.base.attribute? part.title = .ok v) :
    Follows ρ (first.Reaches description start) (Value.moved ρ)
      (Build.perform (Exec.copy (first.made "copy" part.title) v))
      (Build.perform (Exec.copy (second.made "copy" part.title) (v.moved ρ))) := by
  refine .perform fun store reached ↦ ⟨?_, .copy part has reached⟩
  rw [h.made]
  change (Except.ok ((store.moved ρ).copy _ _).1, ((store.moved ρ).copy _ _).2) = _
  rw [store.copy_moved ρ]
  rfl

/-- A section that only uses names declared before. -/
theorem follows_part {earlier : Store Code} {part : Section}
    {validate₁ validate₂ : Value Code → Build Code (List (Value Code))}
    (checks : ∀ v, Follows ρ (first.Reaches description start) (List.map (Value.moved ρ))
      (validate₁ v) (validate₂ (v.moved ρ)))
    (found : first.Finds description start entries earlier) :
    Follows ρ (first.Reaches description start) (Value.movedList ρ)
      (first.part entries part validate₁) (second.part (Table.moved ρ entries) part validate₂) := by
  by_cases inherits : Description.get entries part = .missing ∧ first.hasBase = true
  · rw [part_of_inherits first inherits,
      part_of_inherits second ((h.inherits_iff entries part).2 inherits)]
    intro posture before reached
    refine (h.follows_inherited part posture before reached).bind ?_
    intro inherited between inheriting reached
    have has := (of_yields_inherited inheriting).2 inherits.2
    refine ((h.follows_offered part inherited).bind fun _ ↦ (h.follows_copy has).bind fun copy ↦ ?_)
      posture between reached
    cases copy with
    | list items => exact .pure rfl
    | missing | bool | int | double | string | tuple | mapping | pattern | callable | builder
    | rule | grammar | references =>
      rw [Value.moved]
      exact .fault _
  · rw [part_of_given first inherits,
      part_of_given second (mt (h.inherits_iff entries part).1 inherits), Description.get_moved,
      h.made]
    refine (h.follows_inherited part).bind fun inherited ↦ ?_
    refine (h.follows_offered part inherited).bind fun offered ↦ ?_
    refine (h.follows_evaluate found offered).bind fun v ↦ (Follows.present v).bind fun v ↦ ?_
    refine (checks v).map fun items ↦ ?_
    simp [Value.movedList]

/-- Some lists as values, made at the items of what a section results in. -/
theorem groups (part : Section) (groups : List (List (Value Code))) :
    second.groups part (groups.map (List.map (Value.moved ρ))) =
      (first.groups part groups).map (Value.moved ρ) := by
  unfold Setting.groups
  rw [List.zipIdx_map, h.made]
  simp [Value.moved, Value.movedList, Function.comp_def]

/-- The checks of the sections that are lists and only use names declared before. -/
theorem follows_checks (part : Section) (v : Value Code) :
    Follows ρ P (List.map (Value.moved ρ)) (first.checks part v)
      (second.checks part (v.moved ρ)) := by
  cases part with
  | extras =>
    unfold Setting.checks
    rw [h.extraReferences]
    refine (Extras.follows_validate _ v).map fun rules ↦ ?_
    simp [Value.moved, Function.comp_def]
  | inline => exact Names.follows_validateInline v
  | conflicts =>
    exact (Names.follows_validateConflicts v).map fun groups ↦ (h.groups .conflicts groups).symm
  | supertypes => exact Names.follows_validateSupertypes v
  | precedences =>
    refine (Precedences.follows_validate v).map fun groups ↦ ?_
    rw [← h.groups]
    simp [Value.moved, Function.comp_def]
  | name | externals | rules | word => exact .pure rfl

omit h in
private theorem follows_refersToDeclared (v : Value Code) :
    Follows ρ P id (refersToDeclared v) (refersToDeclared (v.moved ρ)) := by
  unfold refersToDeclared
  rw [Value.callable?_moved]
  cases v.callable? with
  | none => exact .pure rfl
  | some f =>
    refine Follows.look fun journal ↦ ?_
    have name : Value.ofOption (f.name.map .string) =
        (Value.ofOption (f.name.map .string)).moved ρ := by
      cases f.name <;> simp [Value.ofOption, Value.moved]
    rw [Value.movedCallable_name, name, Journal.moved, Table.has_moved, ← name]
    rfl

/-- The word of the grammar. -/
theorem follows_word {earlier : Store Code}
    (found : first.Finds description start entries earlier) :
    Follows ρ (first.Reaches description start) (Value.moved ρ) (first.word entries)
      (second.word (Table.moved ρ entries)) := by
  by_cases inherits : Description.get entries .word = .missing ∧ first.hasBase = true
  · rw [word_of_inherits first inherits,
      word_of_inherits second ((h.inherits_iff entries .word).2 inherits)]
    intro posture before reached
    refine (h.follows_inherited .word posture before reached).bind ?_
    intro inherited between inheriting reached
    exact h.follows_copy ((of_yields_inherited inheriting).2 inherits.2) posture between reached
  · rw [word_of_given first inherits,
      word_of_given second (mt (h.inherits_iff entries .word).1 inherits), Description.get_moved]
    refine (h.follows_inherited .word).bind fun inherited ↦ ?_
    refine (follows_refersToDeclared _).bind fun refers ↦ ?_
    rw [id_eq]
    split
    · rw [Value.nameOf_moved]
      exact Names.follows_validateWord _
    · refine (h.follows_evaluate found inherited).bind fun v ↦ ?_
      exact (Follows.present v).bind Names.follows_validateWord

omit h in
private theorem follows_log (entry : Entry Code) :
    Follows ρ P id (Build.log entry) (Build.log (entry.moved ρ)) :=
  .modify (fun journal ↦ by simp [Journal.moved]) fun _ ↦ rfl

omit h in
private theorem follows_announce (part : Section) (name : Value Code) :
    Follows ρ P id (do Build.log (.began part (some (← Build.present name))))
      (do Build.log (.began part (some (← Build.present (name.moved ρ))))) :=
  (Follows.present name).bind fun _ ↦ follows_log _

omit h in
private theorem follows_given {α β : Type} {f : α → β}
    {step₁ : Table Code (Value Code) → Build Code α}
    {step₂ : Table Code (Value Code) → Build Code β}
    (follows : ∀ posture before entries, first.Finds description start entries before.store →
      FollowsFrom ρ (first.Reaches description start) f posture before (step₁ entries)
        (step₂ (Table.moved ρ entries))) :
    Follows ρ (first.Reaches description start) f
      (do step₁ (← Description.entries description))
      (do step₂ (← Description.entries (description.moved ρ))) := by
  intro posture before reached
  have looked : Follows ρ (first.Reaches description start) (Table.moved ρ)
      (Description.entries description) (Description.entries (description.moved ρ)) :=
    .look fun journal ↦ (Description.given_moved description journal.store).symm
  refine (looked posture before reached).bind fun entries after gives reached ↦ ?_
  obtain ⟨rfl, rfl⟩ : Description.given description before.store = entries ∧ before = after := by
    have found := (Description.start_entries description).symm.trans gives
    exact ⟨Except.ok.inj (congrArg Prod.fst found), congrArg Prod.snd found⟩
  exact follows posture before _ ⟨reached, rfl⟩

omit h in
private theorem follows_found {α β : Type} {f : α → β}
    {step₁ : Table Code (Value Code) → Build Code α}
    {step₂ : Table Code (Value Code) → Build Code β}
    (follows : ∀ earlier entries, first.Finds description start entries earlier →
      Follows ρ (first.Reaches description start) f (step₁ entries)
        (step₂ (Table.moved ρ entries))) :
    Follows ρ (first.Reaches description start) f
      (do step₁ (← Description.entries description))
      (do step₂ (← Description.entries (description.moved ρ))) :=
  follows_given fun posture before entries found ↦
    follows before.store entries found posture before found.reached

/-- The assembly of a grammar. -/
theorem follows_assemble :
    Follows ρ (first.Reaches description start) (Value.movedGrammar ρ)
      (first.assemble description) (second.assemble (description.moved ρ)) := by
  unfold Setting.assemble
  refine (Description.follows_check description).bind fun _ ↦ ?_
  refine (follows_log (.began .name none)).bind fun _ ↦ ?_
  refine follows_found fun _ entries _ ↦ (h.follows_name entries).bind fun name ↦ ?_
  refine (follows_announce .externals name).bind fun _ ↦ ?_
  refine follows_found fun _ _ found ↦ (h.follows_externals found).bind fun externals ↦ ?_
  refine (follows_announce .rules name).bind fun _ ↦ ?_
  refine follows_given fun posture _ _ found ↦ (h.follows_rules found).bind
    fun rules after _ reached ↦
      (follows_announce .extras name).bind (fun _ ↦ ?_) posture after reached
  refine follows_found fun _ _ found ↦
    (h.follows_part (h.follows_checks .extras) found).bind fun extras ↦ ?_
  refine (follows_announce .inline name).bind fun _ ↦ ?_
  refine follows_found fun _ _ found ↦
    (h.follows_part (h.follows_checks .inline) found).bind fun inline ↦ ?_
  refine (follows_announce .conflicts name).bind fun _ ↦ ?_
  refine follows_found fun _ _ found ↦
    (h.follows_part (h.follows_checks .conflicts) found).bind fun conflicts ↦ ?_
  refine (follows_announce .word name).bind fun _ ↦ ?_
  refine follows_found fun _ _ found ↦ (h.follows_word found).bind fun word ↦ ?_
  refine (follows_announce .supertypes name).bind fun _ ↦ ?_
  refine follows_found fun _ _ found ↦
    (h.follows_part (h.follows_checks .supertypes) found).bind fun supertypes ↦ ?_
  refine (follows_announce .precedences name).bind fun _ ↦ ?_
  refine follows_found fun _ _ found ↦
    (h.follows_part (h.follows_checks .precedences) found).bind fun precedences ↦ .pure ?_
  simp [Value.movedGrammar, h.place]

/-- The assembly of a grammar with the summary. -/
theorem follows_assembleAll :
    Follows ρ (first.Reaches description start) (Value.movedGrammar ρ)
      (first.assembleAll description) (second.assembleAll (description.moved ρ)) := by
  unfold Setting.assembleAll
  refine h.follows_assemble.bind fun g ↦ ?_
  have looked : Follows ρ (first.Reaches description start) (Journal.moved ρ) get get :=
    fun _ _ reached ↦ ⟨rfl, reached⟩
  refine looked.bind fun journal ↦ ?_
  dsimp only [Journal.moved]
  rw [List.isEmpty_map, report_map_moved]
  split
  · exact (follows_log (.summary _)).bind fun _ ↦ .pure rfl
  · exact .pure rfl

end Relocates

end Setting

end GrammarDoc
