import GrammarDoc.Proofs.Assembly
import GrammarDoc.Proofs.Postures
import GrammarDoc.Proofs.Untouched

/-!
# Extensions

What a section comes to, whatever the base and the posture: what is given for it goes through its
checks, and what is not given is taken from the base. The store only changes by calls of functions
that the description gives and by copies of what the base has; so what holds in all stores that
these lead to holds throughout a build.
-/

namespace GrammarDoc

open Build (Yields MadeOf)

variable {Code : Type} {α β : Type} {posture : Posture} {before after : Journal Code}

/-- The keys of a namespace are still there in one that extends it. -/
theorem Journal.Extends.mem_keys {name : Value Code} (h : before.Extends after)
    (hn : name ∈ before.names.keys) : name ∈ after.names.keys :=
  (h.names.map Prod.fst).subset hn

/-! ### What a step leaves as it is -/

namespace Build

variable {may : Move Code → Prop} {step : Build Code α} {a : α}

/-- Nothing in a journal is lost by a step that has a result. -/
theorem Yields.extends (h : Yields posture step before a after) (made : MadeOf may step) :
    before.Extends after := by
  have extends_start := made.extends_start posture before
  rwa [h] at extends_start

private theorem Yields.store_eq (h : Yields posture step before a after) (made : MadeOf may step)
    (still : ∀ before after, ¬ may (.work before after)) : after.store = before.store := by
  have store_start := made.store_start still posture before
  rwa [h] at store_start

private theorem Yields.names_eq (h : Yields posture step before a after) (made : MadeOf may step)
    (nameless : ∀ name tag, ¬ may (.declare name tag)) : after.names = before.names := by
  have names_start := made.names_start nameless posture before
  rwa [h] at names_start

/-- The step for each item comes before or after those for other items, which lose nothing. -/
theorem exists_yields_of_mem_filterMap {step : α → Build Code (Option β)} {items : List α}
    {bs : List β} (h : Yields posture (filterMap step items) before bs after)
    (made : ∀ a ∈ items, MadeOf may (step a)) {b : β} (hb : b ∈ bs) :
    ∃ a ∈ items, ∃ between next, before.Extends between ∧
      Yields posture (step a) between (some b) next ∧ next.Extends after := by
  induction items generalizing before bs with
  | nil =>
    obtain ⟨rfl, -⟩ := (yields_filterMap_nil step bs).1 h
    cases hb
  | cons a rest ih =>
    obtain ⟨result, next, first, cs, more, rfl⟩ := (yields_filterMap_cons step a rest bs).1 h
    have others : ∀ a ∈ rest, MadeOf may (step a) :=
      fun a ha ↦ made a (List.mem_cons_of_mem _ ha)
    rcases List.mem_append.1 hb with now | later
    · rw [Option.mem_toList] at now
      cases now
      exact ⟨a, List.mem_cons_self, before, next, .refl before, first,
        more.extends (.filterMap rest others)⟩
    · obtain ⟨a', ha', between, next', start, yields, rest⟩ := ih more others later
      exact ⟨a', List.mem_cons_of_mem _ ha', between, next',
        (first.extends (made a List.mem_cons_self)).trans start, yields, rest⟩

private theorem exists_yields_of_mem_forM {step : α → Build Code Unit} {items : List α} {u : Unit}
    (h : Yields posture (items.forM step) before u after) (made : ∀ a, MadeOf may (step a)) {a : α}
    (ha : a ∈ items) :
    ∃ between next, before.Extends between ∧ Yields posture (step a) between () next ∧
      next.Extends after := by
  induction items generalizing before with
  | nil => cases ha
  | cons first rest ih =>
    obtain ⟨next, now, more⟩ := (yields_forM_cons _ _ _ _).1 h
    rcases List.mem_cons.1 ha with rfl | later
    · exact ⟨before, next, .refl before, now, more.extends (.forM rest made)⟩
    · obtain ⟨between, next', start, yields, last⟩ := ih more later
      exact ⟨between, next', (now.extends (made first)).trans start, yields, last⟩

/-- Strings that are declared one after another are declared in the end. -/
theorem mem_of_yields_forM_declare {names : List (Value Code)} {tag : String}
    {within : Option String} {u : Unit} {s : String}
    (h : Yields posture (names.forM fun name ↦ discard (declare name tag within)) before u after)
    (hs : .string s ∈ names) : .string s ∈ after.names.keys := by
  have attributed : ∃ title, attribution tag within = some title := by
    unfold attribution
    split
    · split
      · exact ⟨_, rfl⟩
      · exact ⟨_, rfl⟩
    · exact ⟨_, rfl⟩
  obtain ⟨title, attributed⟩ := attributed
  obtain ⟨_, _, -, yields, rest⟩ := exists_yields_of_mem_forM h (fun _ ↦
    (.discard (.declareName attributed (fun _ ↦ trivial) trivial) : MadeOf (fun _ ↦ True) _)) hs
  obtain ⟨_, declared⟩ := (yields_discard _ _).1 yields
  exact rest.mem_keys (mem_of_yields_declare declared)

private theorem keeps_filterMap {step : α → Build Code (Option β)} {items : List α} {bs : List β}
    (Kept : Journal Code → Prop) (h : Yields posture (filterMap step items) before bs after)
    (keeps : ∀ a ∈ items, ∀ before result after, Yields posture (step a) before result after →
      Kept before → Kept after) (kept : Kept before) : Kept after := by
  induction items generalizing before bs with
  | nil =>
    obtain ⟨-, rfl⟩ := (yields_filterMap_nil step bs).1 h
    exact kept
  | cons a rest ih =>
    obtain ⟨result, next, first, cs, more, -⟩ := (yields_filterMap_cons step a rest bs).1 h
    exact ih more (fun a ha ↦ keeps a (List.mem_cons_of_mem _ ha))
      (keeps a List.mem_cons_self before result next first kept)

/-- What a section comes to is a fallback of one of its guards, which leaves all but the problems
as it is, or what its handler comes to. -/
theorem fallback_or_yields {guards : List (Guard α)} {handler : Value Code → Build Code α}
    {v : Value Code} (h : Yields posture (guarded pure guards handler v) before a after) :
    (a ∈ guards.map Guard.fallback ∧ after.names = before.names ∧ after.store = before.store) ∨
      Yields posture (handler v) before a after := by
  induction guards with
  | nil => exact .inr h
  | cons guard rest ih =>
    change Yields posture (guard.before pure (guarded pure rest handler) v) before a after at h
    unfold Guard.before at h
    split at h
    · rcases ih h with ⟨fallback, same⟩ | handled
      · exact .inl ⟨List.mem_cons_of_mem _ fallback, same⟩
      · exact .inr handled
    · have fallback : a = guard.fallback ∧ after.names = before.names ∧
          after.store = before.store := by
        split at h
        · obtain ⟨_, _, reported, done⟩ := (yields_bind _ _ _).1 h
          obtain ⟨-, rfl⟩ := (yields_report _ _).1 reported
          obtain ⟨rfl, rfl⟩ := (yields_pure _ _).1 done
          exact ⟨rfl, rfl, rfl⟩
        · obtain ⟨rfl, rfl⟩ := (yields_pure _ _).1 h
          exact ⟨rfl, rfl, rfl⟩
      exact .inl ⟨List.mem_cons.2 (.inl fallback.1), fallback.2⟩

/-- A function of the description leaves the store as it does when it is called. -/
theorem store_of_yields_absorb {title : String} {step : Exec Code α} {result : Option α}
    (h : Yields posture (absorb title step) before result after) :
    after.store = (step.start before.store).2 := by
  unfold absorb at h
  obtain ⟨outcome, _, attempted, next⟩ := (yields_bind _ _ _).1 h
  obtain ⟨rfl, rfl⟩ := (yields_attempt _ _).1 attempted
  split at next
  · obtain ⟨-, rfl⟩ := (yields_pure _ _).1 next
    rfl
  · obtain ⟨_, _, reported, done⟩ := (yields_bind _ _ _).1 next
    obtain ⟨-, rfl⟩ := (yields_report _ _).1 reported
    obtain ⟨-, rfl⟩ := (yields_pure _ _).1 done
    rfl
  · exact absurd next (yields_throw _ _)

end Build

/-- Whether a move is a report. -/
def Move.IsReport (move : Move Code) : Prop := ∃ p, move = .report p

/-- Whether a move is a look at the store or a report. -/
def Move.IsIdle (move : Move Code) : Prop := move = .look ∨ move.IsReport

/-- Whether a move is no work on the store. -/
def Move.IsStill (move : Move Code) : Prop := ∀ before after, move ≠ .work before after

/-- Reporting is no work on the store. -/
theorem Move.reports_isStill (title : String) :
    Move.Reports (IsStill : Move Code → Prop) title := by
  intro p before after eq
  cases eq

/-- Declaring is no work on the store. -/
theorem Move.declares_isStill (tag : String) :
    Move.Declares (IsStill : Move Code → Prop) tag := by
  intro name before after eq
  cases eq

/-- A step that does no work on the store leaves it. -/
theorem Build.Yields.still {step : Build Code α} {a : α} (h : Yields posture step before a after)
    (made : MadeOf Move.IsStill step) : after.store = before.store :=
  h.store_eq made fun before after still ↦ still before after rfl

/-- A step that only looks and reports leaves the names and the store. -/
theorem Build.Yields.idle {step : Build Code α} {a : α} (h : Yields posture step before a after)
    (made : MadeOf Move.IsIdle step) :
    after.names = before.names ∧ after.store = before.store := by
  constructor
  · refine h.names_eq made ?_
    rintro name tag (eq | ⟨_, eq⟩)
    · cases eq
    · cases eq
  · refine h.store_eq made ?_
    rintro before after (eq | ⟨_, eq⟩)
    · cases eq
    · cases eq

/-- A step that only reports leaves the names and the store. -/
theorem Build.Yields.same {step : Build Code α} {a : α} (h : Yields posture step before a after)
    (made : MadeOf Move.IsReport step) :
    after.names = before.names ∧ after.store = before.store :=
  h.idle (made.mono fun _ ↦ .inr)

namespace Rules

/-- Going through entries only adds names. -/
theorem extends_of_yields_declareEntry {inherited : Definitions Code}
    {entries : List (Value Code × Value Code)}
    {functions : List (Value Code × Callable (Value Code) Code)}
    (h : Yields posture (Build.filterMap (declareEntry inherited) entries) before functions after) :
    before.Extends after :=
  h.extends (.filterMap entries fun _ _ ↦ anyMoves_declareEntry _ _)

/-- Calling the functions of rules only adds names. -/
theorem extends_of_yields_define {setting : Setting Code} {inherited : Definitions Code}
    {functions : List (Value Code × Callable (Value Code) Code)}
    {defined : List (Value Code × Rule (Value Code))}
    (h : Yields posture (Build.filterMap (define setting inherited) functions) before defined
      after) : before.Extends after :=
  h.extends (.filterMap functions fun _ _ ↦ anyMoves_define _ _ _)

/-- Whatever the posture, only an entry with a proper name and a function gives a function, and its
name is declared unless there is an inherited rule of that name. -/
theorem of_yields_declareEntry {inherited : Definitions Code} {entry : Value Code × Value Code}
    {function : Value Code × Callable (Value Code) Code}
    (h : Yields posture (declareEntry inherited entry) before (some function) after) :
    EntryGives entry function ∧
      (inherited.has entry.1 = false → entry.1 ∈ after.names.keys) := by
  obtain ⟨name, v⟩ := entry
  obtain ⟨valid, between, required, next⟩ := (Build.yields_bind _ _ _).1 h
  obtain ⟨rfl, -⟩ := (Build.yields_requireValidName _ _ _ _).1 required
  split at next
  · next valid =>
    split at next
    · cases Build.eq_of_yields_return next
    · next f callable =>
      cases old : inherited.has name with
      | true =>
        simp only [old, Bool.not_true, Bool.false_eq_true, if_false] at next
        obtain ⟨eq, -⟩ := (Build.yields_pure _ _).1 next
        cases eq
        exact ⟨⟨valid, callable, rfl⟩, fun new ↦ by cases new⟩
      | false =>
        simp only [old, Bool.not_false, if_true] at next
        obtain ⟨eq, free, declared⟩ := (Build.yields_discard_return _ _ _).1 next
        cases eq
        obtain ⟨s, rfl⟩ := Value.eq_string_of_isValidName valid
        exact ⟨⟨valid, callable, rfl⟩, fun _ ↦ Build.mem_of_yields_declare declared⟩
  · cases ((Build.yields_pure _ _).1 next).1

/-- What the function of a rule leaves as the store, and the name of what it defines. -/
theorem of_yields_define {setting : Setting Code} {inherited : Definitions Code}
    {function : Value Code × Callable (Value Code) Code}
    {result : Option (Value Code × Rule (Value Code))}
    (h : Yields posture (define setting inherited function) before result after) :
    (∃ place previous,
      after.store = ((setting.call place function.2 previous).start before.store).2) ∧
      ∀ defined ∈ result, defined.1 = function.1 := by
  obtain ⟨name, f⟩ := function
  obtain ⟨raw, between, called, next⟩ := (Build.yields_bind _ _ _).1 h
  have store := Build.store_of_yields_absorb called
  split at next
  · obtain ⟨rfl, rfl⟩ := (Build.yields_pure _ _).1 next
    exact ⟨⟨_, _, store⟩, fun _ none ↦ by cases none⟩
  · obtain ⟨v, _, looked, next⟩ := (Build.yields_bind _ _ _).1 next
    obtain ⟨rfl, rfl⟩ := (Build.yields_present _ _).1 looked
    obtain ⟨r, _, normalized, done⟩ := (Build.yields_bind _ _ _).1 next
    obtain ⟨rfl, rfl⟩ := (Build.yields_pure _ _).1 done
    have same := normalized.same (.normalize _ fun _ ↦ ⟨_, rfl⟩)
    refine ⟨⟨_, _, same.2.trans store⟩, fun defined hd ↦ ?_⟩
    obtain ⟨r, -, rfl⟩ := Option.map_eq_some_iff.1 hd
    rfl

/-- The rules are gone through three times before their names are looked up: to declare the
inherited names, to declare the names of the entries, and to call the functions. -/
theorem fromEntries_cases {setting : Setting Code} {inherited definitions : Definitions Code}
    {v : Value Code} {entries : List (Value Code × Value Code)}
    (h : Yields posture (fromEntries setting inherited v entries) before definitions after) :
    ∃ first functions second defined third last,
      Yields posture (inherit inherited) before () first ∧
      Yields posture (Build.filterMap (declareEntry inherited) entries) first functions second ∧
      Yields posture (Build.filterMap (define setting inherited) functions) second defined third ∧
      definitions = merged inherited defined ∧
      (last.names = third.names ∧ last.store = third.store) ∧
      Yields posture (resolve definitions) last () after := by
  obtain ⟨_, first, inherits, more⟩ := (Build.yields_bind _ _ _).1 h
  obtain ⟨functions, second, declaring, more⟩ := (Build.yields_bind _ _ _).1 more
  obtain ⟨defined, third, defining, more⟩ := (Build.yields_bind _ _ _).1 more
  have resolving : ∃ last, (last.names = third.names ∧ last.store = third.store) ∧
      Yields posture (do resolve (merged inherited defined); return merged inherited defined) last
        definitions after := by
    dsimp only at more
    split at more
    · obtain ⟨_, _, reported, rest⟩ := (Build.yields_bind _ _ _).1 more
      obtain ⟨-, rfl⟩ := (Build.yields_reportIn _ _ _).1 reported
      exact ⟨third.reported _, ⟨rfl, rfl⟩, rest⟩
    · exact ⟨third, ⟨rfl, rfl⟩, more⟩
  obtain ⟨last, same, resolving⟩ := resolving
  obtain ⟨_, _, resolved, done⟩ := (Build.yields_bind _ _ _).1 resolving
  obtain ⟨rfl, rfl⟩ := (Build.yields_pure _ _).1 done
  exact ⟨first, functions, second, defined, third, last, inherits, declaring, defining, rfl, same,
    resolved⟩

end Rules

/-- What belongs to each section, in the order in which they are assembled. -/
def Section.each {α : Type} (name externals rules extras inline conflicts word supertypes
    precedences : α) : Section → α
  | .name => name
  | .externals => externals
  | .rules => rules
  | .extras => extras
  | .inline => inline
  | .conflicts => conflicts
  | .word => word
  | .supertypes => supertypes
  | .precedences => precedences

/-- Checking a description by itself leaves all but the problems as it is. -/
theorem Description.of_yields_check {description : Value Code} {u : Unit}
    (h : Yields posture (Description.check description) before u after) :
    after.names = before.names ∧ after.store = before.store :=
  h.idle (madeOf_check _ (fun _ ↦ .inr ⟨_, rfl⟩) (.inl rfl))

namespace Setting

variable (setting : Setting Code) (description : Value Code)

/-! ### Stores that a build comes to -/

/-- A function that a description gives in a store: for a section, or for a rule in what is given
for the rules. -/
def GivesFunction (store : Store Code) (f : Callable (Value Code) Code) : Prop :=
  (∃ part, (Description.get (Description.given description store) part).callable? = some f) ∨
    ∃ definitions, (store.present
        (setting.givenRules (Description.given description store))).object? = some definitions ∧
      ∃ entry ∈ definitions, entry.2.callable? = some f

/-- The stores that a build may come to from one that it starts with: by calls of functions that
the description gives in a store that it has come to, whatever they are passed, and by copies of
what the base has. -/
inductive Reaches (start : Store Code) : Store Code → Prop
  | start : Reaches start start
  | call {earlier store : Store Code} {f : Callable (Value Code) Code} (place : Place)
      (offered : Value Code) : Reaches start earlier →
      setting.GivesFunction description earlier f → Reaches start store →
      Reaches start ((setting.call place f offered).start store).2
  | copy {store : Store Code} {v : Value Code} (part : Section) :
      setting.base.attribute? part.title = .ok v → Reaches start store →
      Reaches start (store.copy (setting.made "copy" part.title) v).2

/-- In a store that a build may come to, a description gives some entries. -/
structure Finds (start : Store Code) (entries : Table Code (Value Code)) (store : Store Code) :
    Prop where
  reached : setting.Reaches description start store
  given : entries = Description.given description store

/-- A build of a description from a store leaves a grammar alone: in no store that it may come to
have the rules and names of the grammar been changed. -/
def LeavesAlone (store : Store Code) (g : Grammar (Value Code)) : Prop :=
  ∀ later, setting.Reaches description store later → g.Untouched later

/-- A function is still in a build if it changes nothing, whatever it is passed. -/
def Still (f : Callable (Value Code) Code) : Prop :=
  ∀ place offered store, ((setting.call place f offered).start store).2 = store

variable {setting description} {entries : Table Code (Value Code)} {start : Store Code}

/-- A call keeps of a store what code keeps. -/
theorem kept_of_start_call (kept : Store Code → Prop)
    (keeps : ∀ place code bindings store, kept store →
      kept ((setting.run place code bindings).start store).2)
    (place : Place) (f : Callable (Value Code) Code) (offered : Value Code) {store : Store Code}
    (h : kept store) : kept ((setting.call place f offered).start store).2 := by
  unfold call Callable.offer Callable.apply
  split
  · exact h
  · split
    · exact h
    · exact h
    · exact keeps _ _ _ store h

/-- A call changes nothing if code changes nothing. -/
theorem store_start_call
    (pure : ∀ place code bindings store, ((setting.run place code bindings).start store).2 = store)
    (place : Place) (f : Callable (Value Code) Code) (offered : Value Code) (store : Store Code) :
    ((setting.call place f offered).start store).2 = store :=
  kept_of_start_call (· = store)
    (fun place code bindings _ same ↦ (pure place code bindings _).trans same) place f offered rfl

/-- If code changes nothing and nothing has been changed before, nothing is ever changed. -/
theorem eq_empty_of_reaches {later : Store Code}
    (pure : ∀ place code bindings store, ((setting.run place code bindings).start store).2 = store)
    (reached : setting.Reaches description {} later) : later = {} := by
  induction reached with
  | start => rfl
  | call place offered _ _ _ _ ih => rw [store_start_call pure, ih]
  | copy _ _ _ ih =>
    rw [ih]
    rfl

/-- If code changes nothing and nothing has been changed before, every grammar is left alone. -/
theorem leavesAlone_of_pure {g : Grammar (Value Code)}
    (pure : ∀ place code bindings store,
      ((setting.run place code bindings).start store).2 = store) :
    setting.LeavesAlone description {} g := by
  intro later reached
  rw [eq_empty_of_reaches pure reached]
  exact ⟨rfl, fun _ _ _ ↦ rfl, fun _ _ _ _ _ ↦ rfl⟩

/-- The value of a section, for which a function may be called. -/
theorem reaches_of_yields_evaluate {part : Section} {offered w : Value Code}
    (h : Yields posture (setting.evaluate part (Description.get entries part) offered) before w
      after) (found : setting.Finds description start entries before.store) :
    setting.Reaches description start after.store := by
  obtain ⟨reached, rfl⟩ := found
  unfold evaluate at h
  cases given : (Description.get (Description.given description before.store) part).callable? with
  | none =>
    rw [given] at h
    obtain ⟨-, rfl⟩ := (Build.yields_pure _ _).1 h
    exact reached
  | some f =>
    simp only [given] at h
    split at h
    · obtain ⟨_, between, called, done⟩ := (Build.yields_bind _ _ _).1 h
      obtain ⟨-, rfl⟩ := (Build.yields_pure _ _).1 done
      rw [Build.store_of_yields_absorb called]
      exact .call _ offered reached (.inl ⟨part, given⟩) reached
    · obtain ⟨-, rfl⟩ := (Build.yields_pure _ _).1 h
      exact reached

/-- Evaluating a section declares nothing. -/
theorem names_of_yields_evaluate {part : Section} {v offered w : Value Code}
    (h : Yields posture (setting.evaluate part v offered) before w after) :
    after.names = before.names := by
  have made : MadeOf (fun move ↦ ∀ name tag, move ≠ .declare name tag)
      (setting.evaluate part v offered) :=
    setting.madeOf_evaluate part v offered fun _ _ _ ↦
      ⟨fun _ _ eq ↦ (by cases eq), fun _ ↦ .inr fun _ _ eq ↦ (by cases eq),
        fun _ _ _ _ _ eq ↦ (by cases eq)⟩
  exact h.names_eq made fun name tag other ↦ other name tag rfl

/-- What the base has for a section is an attribute of it. -/
theorem yields_ofBase (part : Section) (v : Value Code) :
    Yields posture (setting.ofBase part) before v after ↔
      setting.base.attribute? part.title = .ok v ∧ after = before :=
  Build.yields_ofFault _ v

/-- What is inherited for a section is an attribute of the base, if a grammar is extended. -/
theorem of_yields_inherited {part : Section} {v : Value Code}
    (h : Yields posture (setting.inherited part) before v after) :
    after = before ∧
      (setting.hasBase = true → setting.base.attribute? part.title = .ok v) := by
  unfold Setting.inherited at h
  split at h
  · obtain ⟨attributed, same⟩ := (yields_ofBase _ _).1 h
    exact ⟨same, fun _ ↦ attributed⟩
  · next none =>
    obtain ⟨-, same⟩ := (Build.yields_pure _ _).1 h
    exact ⟨same, fun base ↦ absurd base none⟩

variable (setting) in
/-- The externals that are inherited: those of the base in a store, or none. -/
def InheritsExternals (store : Store Code) (externals : List (Value Code)) : Prop :=
  setting.hasBase = false ∧ externals = [] ∨
    setting.hasBase = true ∧ ∃ v, setting.base.attribute? "externals" = .ok v ∧
      (store.present v).elements = .ok externals

private theorem of_yields_inheritedExternals {items : Items (Value Code)}
    (h : Yields posture setting.inheritedExternals before items after) :
    after = before ∧ setting.InheritsExternals before.store items.toList := by
  unfold inheritedExternals at h
  split at h
  · next base =>
    obtain ⟨v, _, attributed, more⟩ := (Build.yields_bind _ _ _).1 h
    obtain ⟨has, rfl⟩ := (yields_ofBase _ _).1 attributed
    obtain ⟨elements, _, gone, done⟩ := (Build.yields_bind _ _ _).1 more
    obtain ⟨rfl, rfl⟩ := (Build.yields_pure _ _).1 done
    obtain ⟨_, _, looked, taken⟩ := (Build.yields_bind _ _ _).1 gone
    obtain ⟨rfl, rfl⟩ := (Build.yields_present _ _).1 looked
    obtain ⟨elements, rfl⟩ := (Build.yields_ofFault _ _).1 taken
    exact ⟨rfl, .inr ⟨base, v, has, elements⟩⟩
  · next none =>
    obtain ⟨_, _, empty, done⟩ := (Build.yields_bind _ _ _).1 h
    obtain ⟨rfl, rfl⟩ := (Build.yields_pure _ _).1 empty
    obtain ⟨rfl, rfl⟩ := (Build.yields_pure _ _).1 done
    exact ⟨rfl, .inl ⟨Bool.eq_false_iff.2 none, rfl⟩⟩

variable (setting) in
/-- The rules that are inherited: those of the base in a store, or none. -/
def InheritsRules (store : Store Code) (rules : Rules.Definitions Code) : Prop :=
  setting.hasBase = false ∧ rules = [] ∨
    setting.hasBase = true ∧ ∃ v, setting.base.attribute? "rules" = .ok v ∧
      (store.read v).object? = some rules

/-- What is taken from the base as its rules. -/
theorem of_yields_inheritedRules {rules : Rules.Definitions Code}
    (h : Yields posture setting.inheritedRules before rules after) :
    after = before ∧ setting.InheritsRules before.store rules := by
  unfold inheritedRules at h
  split at h
  · next base =>
    obtain ⟨v, _, attributed, more⟩ := (Build.yields_bind _ _ _).1 h
    obtain ⟨has, rfl⟩ := (yields_ofBase _ _).1 attributed
    obtain ⟨_, _, reading, done⟩ := (Build.yields_bind _ _ _).1 more
    obtain ⟨rfl, rfl⟩ := (Build.yields_read _ _).1 reading
    split at done
    · next definitions object =>
      obtain ⟨rfl, rfl⟩ := (Build.yields_pure _ _).1 done
      exact ⟨rfl, .inr ⟨base, v, has, object⟩⟩
    · exact absurd done (Build.yields_throw _ _)
  · next none =>
    obtain ⟨rfl, rfl⟩ := (Build.yields_pure _ _).1 h
    exact ⟨rfl, .inl ⟨Bool.eq_false_iff.2 none, rfl⟩⟩

/-- The rules are what comes through the checks, after those that are inherited. -/
theorem yields_rules_iff_validate {rules : Entries (Value Code)} :
    Yields posture (setting.rules entries) before rules after ↔
      ∃ inherited, Yields posture setting.inheritedRules before inherited before ∧
        Yields posture
          (Rules.validate setting inherited (before.store.present (setting.givenRules entries)))
          before rules.toList after ∧
        rules = ⟨setting.made "result" "rules", rules.toList, false⟩ := by
  have same : setting.rules entries = (do
      let inherited ← setting.inheritedRules
      let v ← Build.present (setting.givenRules entries)
      let definitions ← Rules.validate setting inherited v
      return ⟨setting.made "result" "rules", definitions, false⟩) := rfl
  simp only [same, Build.yields_bind, Build.yields_present, Build.yields_pure]
  constructor
  · rintro ⟨inherited, between, found, _, _, ⟨rfl, rfl⟩, definitions, _, checked, rfl, rfl⟩
    obtain ⟨rfl, -⟩ := of_yields_inheritedRules found
    exact ⟨inherited, found, checked, rfl⟩
  · rintro ⟨inherited, found, checked, eq⟩
    exact ⟨inherited, before, found, _, before, ⟨rfl, rfl⟩, rules.toList, after, checked, eq, rfl⟩

/-- A section that only uses names declared before is a copy of what the base has, or what comes
through the checks. -/
theorem part_cases {part : Section} {validate : Value Code → Build Code (List (Value Code))}
    (made : ∀ v, MadeOf Move.IsReport (validate v)) {items : Items (Value Code)}
    (h : Yields posture (setting.part entries part validate) before items after)
    (found : setting.Finds description start entries before.store) :
    setting.Reaches description start after.store ∧ after.names = before.names ∧
      ((setting.hasBase = true ∧ Description.get entries part = .missing ∧
          ∃ v, setting.base.attribute? part.title = .ok v ∧
            (before.store.copy (setting.made "copy" part.title) v).1 = .list items) ∨
        ¬ (setting.hasBase = true ∧ Description.get entries part = .missing) ∧
          ∃ w between, between.names = before.names ∧
            Yields posture (validate w) between items.toList after) := by
  obtain ⟨inherited, between, inheriting, rest⟩ := (Build.yields_bind _ _ _).1 h
  obtain ⟨rfl, attributed⟩ := of_yields_inherited inheriting
  obtain ⟨offered, mid, offering, last⟩ := (Build.yields_bind _ _ _).1 rest
  obtain ⟨names, store⟩ := offering.idle (setting.madeOf_offered part inherited (.inl rfl))
  rw [← store] at found
  split at last
  · next missing base =>
    have has := attributed base
    obtain ⟨copy, _, copied, done⟩ := (Build.yields_bind _ _ _).1 last
    obtain ⟨eq, rfl⟩ := (Build.yields_copy _ _ _).1 copied
    split at done
    · obtain ⟨rfl, rfl⟩ := (Build.yields_pure _ _).1 done
      exact ⟨.copy part has found.reached, names,
        .inl ⟨base, missing, inherited, has, store ▸ eq.symm⟩⟩
    · exact absurd done (Build.yields_throw _ _)
  · next v other =>
    obtain ⟨w, next, evaluated, last⟩ := (Build.yields_bind _ _ _).1 last
    obtain ⟨_, _, looked, last⟩ := (Build.yields_bind _ _ _).1 last
    obtain ⟨rfl, rfl⟩ := (Build.yields_present _ _).1 looked
    obtain ⟨results, _, checked, done⟩ := (Build.yields_bind _ _ _).1 last
    obtain ⟨rfl, rfl⟩ := (Build.yields_pure _ _).1 done
    have reached := reaches_of_yields_evaluate evaluated found
    have unnamed := names_of_yields_evaluate evaluated
    obtain ⟨same, still⟩ := checked.same (made _)
    refine ⟨still ▸ reached, same.trans (unnamed.trans names),
      .inr ⟨?_, _, _, unnamed.trans names, checked⟩⟩
    rintro ⟨base, missing⟩
    exact other missing base

/-- The name of a grammar is that of the base, or what comes through the check. -/
theorem name_cases {name : Value Code}
    (h : Yields posture (setting.name entries) before name after) :
    (setting.hasBase = true ∧ setting.base.attribute? "name" = .ok name) ∨
      ∃ w, Yields posture (Names.validateName w) before name after := by
  unfold Setting.name at h
  split at h
  · next _ base => exact .inl ⟨base, ((yields_ofBase _ _).1 h).1⟩
  · obtain ⟨w, _, looked, checked⟩ := (Build.yields_bind _ _ _).1 h
    obtain ⟨-, rfl⟩ := (Build.yields_present _ _).1 looked
    exact .inr ⟨w, checked⟩

/-- The word of a grammar is a copy of that of the base, or what comes through the check. -/
theorem word_cases {word : Value Code}
    (h : Yields posture (setting.word entries) before word after)
    (found : setting.Finds description start entries before.store) :
    setting.Reaches description start after.store ∧ after.names = before.names ∧
      ((setting.hasBase = true ∧ Description.get entries .word = .missing ∧
          ∃ v, setting.base.attribute? "word" = .ok v ∧
            (before.store.copy (setting.made "copy" "word") v).1 = word) ∨
        ¬ (setting.hasBase = true ∧ Description.get entries .word = .missing) ∧
          ∃ w between, between.names = before.names ∧
            Yields posture (Names.validateWord w) between word after) := by
  have made (w : Value Code) : MadeOf Move.IsReport (Names.validateWord w) :=
    Names.madeOf_validateWord w fun _ ↦ ⟨_, rfl⟩
  obtain ⟨inherited, between, inheriting, rest⟩ := (Build.yields_bind _ _ _).1 h
  obtain ⟨rfl, attributed⟩ := of_yields_inherited inheriting
  split at rest
  · next missing base =>
    have has := attributed base
    obtain ⟨rfl, rfl⟩ := (Build.yields_copy _ _ _).1 rest
    exact ⟨.copy .word has found.reached, rfl, .inl ⟨base, missing, inherited, has, rfl⟩⟩
  · next v other =>
    obtain ⟨refers, _, referring, rest⟩ := (Build.yields_bind _ _ _).1 rest
    obtain ⟨names, store⟩ := referring.same (madeOf_refersToDeclared _)
    have given : ¬ (setting.hasBase = true ∧ Description.get entries .word = .missing) :=
      fun inherits ↦ other inherits.2 inherits.1
    rw [← store] at found
    split at rest
    · obtain ⟨same, still⟩ := rest.same (made _)
      exact ⟨still ▸ found.reached, same.trans names, .inr ⟨given, _, _, names, rest⟩⟩
    · obtain ⟨w, next, evaluated, rest⟩ := (Build.yields_bind _ _ _).1 rest
      obtain ⟨_, _, looked, checked⟩ := (Build.yields_bind _ _ _).1 rest
      obtain ⟨rfl, rfl⟩ := (Build.yields_present _ _).1 looked
      obtain ⟨same, still⟩ := checked.same (made _)
      have unnamed := (names_of_yields_evaluate evaluated).trans names
      exact ⟨still ▸ reaches_of_yields_evaluate evaluated found, same.trans unnamed,
        .inr ⟨given, _, _, unnamed, checked⟩⟩

/-- The externals of a grammar are those of the base, whose names are declared again, or what comes
through the checks. -/
theorem externals_cases {items : Items (Value Code)}
    (h : Yields posture (setting.externals entries) before items after)
    (found : setting.Finds description start entries before.store) :
    setting.Reaches description start after.store ∧
      ((Description.get entries .externals = .missing ∧
          setting.InheritsExternals before.store items.toList ∧
          Yields posture (Externals.inherit items.toList) before () after) ∨
        Description.get entries .externals ≠ .missing ∧
          ∃ w between rules, between.names = before.names ∧
            Yields posture (Externals.validate w) between rules after ∧
            items.toList = rules.map .rule) := by
  obtain ⟨inherited, between, inheriting, rest⟩ := (Build.yields_bind _ _ _).1 h
  obtain ⟨rfl, inherits⟩ := of_yields_inheritedExternals inheriting
  split at rest
  · next missing =>
    obtain ⟨_, _, declared, done⟩ := (Build.yields_bind _ _ _).1 rest
    obtain ⟨rfl, rfl⟩ := (Build.yields_pure _ _).1 done
    rw [declared.still (Externals.madeOf_inherit _ (Move.reports_isStill _)
      (Move.declares_isStill _))]
    exact ⟨found.reached, .inl ⟨missing, inherits, declared⟩⟩
  · next v given =>
    obtain ⟨w, next, evaluated, rest⟩ := (Build.yields_bind _ _ _).1 rest
    obtain ⟨_, _, looked, rest⟩ := (Build.yields_bind _ _ _).1 rest
    obtain ⟨rfl, rfl⟩ := (Build.yields_present _ _).1 looked
    obtain ⟨rules, _, checked, done⟩ := (Build.yields_bind _ _ _).1 rest
    obtain ⟨rfl, rfl⟩ := (Build.yields_pure _ _).1 done
    rw [checked.still (Externals.madeOf_validate _ (Move.reports_isStill _)
      (Move.declares_isStill _))]
    exact ⟨reaches_of_yields_evaluate evaluated found,
      .inr ⟨given, _, _, rules, names_of_yields_evaluate evaluated, checked, rfl⟩⟩

/-- The rules section, which calls functions that the description gives. -/
theorem reaches_of_yields_validate {inherited definitions : Rules.Definitions Code}
    {earlier : Store Code} (found : setting.Finds description start entries earlier)
    (h : Yields posture
      (Rules.validate setting inherited (earlier.present (setting.givenRules entries)))
      before definitions after) (reached : setting.Reaches description start before.store) :
    setting.Reaches description start after.store := by
  rcases Build.fallback_or_yields h with ⟨-, -, store⟩ | handled
  · exact store ▸ reached
  · obtain ⟨first, functions, second, defined, third, last, inherits, declaring, defining, -, same,
      resolving⟩ := Rules.fromEntries_cases handled
    have declares (entry : Value Code × Value Code) :
        MadeOf Move.IsStill (Rules.declareEntry inherited entry) :=
      Rules.madeOf_declareEntry inherited entry (Move.reports_isStill _) (Move.declares_isStill _)
    have inheriting : first.store = before.store :=
      inherits.still (Rules.madeOf_inherit inherited (Move.reports_isStill _)
        (Move.declares_isStill _))
    have declared : second.store = first.store :=
      declaring.still (.filterMap _ fun entry _ ↦ declares entry)
    have called : setting.Reaches description start third.store := by
      refine Build.keeps_filterMap (fun journal ↦ setting.Reaches description start journal.store)
        defining (fun function hf between result next yields reached ↦ ?_)
        (declared ▸ inheriting ▸ reached)
      obtain ⟨entry, he, j, j', -, gives, -⟩ :=
        Build.exists_yields_of_mem_filterMap declaring (fun entry _ ↦ declares entry) hf
      obtain ⟨-, callable, -⟩ := (Rules.of_yields_declareEntry gives).1
      obtain ⟨⟨place, previous, store⟩, -⟩ := Rules.of_yields_define yields
      rw [store]
      cases object : (earlier.present (setting.givenRules entries)).object? with
      | none =>
        rw [object] at he
        cases he
      | some definitions =>
        rw [object] at he
        obtain ⟨found, rfl⟩ := found
        exact .call place previous found (.inr ⟨definitions, object, entry, he, callable⟩) reached
    have resolved := (resolving.idle
      (Rules.madeOf_resolve _ (fun _ ↦ .inr ⟨_, rfl⟩) (.inl rfl))).2
    exact (resolved.trans same.2) ▸ called

/-- The rules of a grammar come through the checks, after those of the base. -/
theorem rules_cases {rules : Entries (Value Code)}
    (h : Yields posture (setting.rules entries) before rules after)
    (found : setting.Finds description start entries before.store) :
    setting.Reaches description start after.store ∧
      ∃ inherited, setting.InheritsRules before.store inherited ∧
        Yields posture
          (Rules.validate setting inherited (before.store.present (setting.givenRules entries)))
          before rules.toList after := by
  obtain ⟨inherited, inheriting, checked, -⟩ := yields_rules_iff_validate.1 h
  exact ⟨reaches_of_yields_validate found checked found.reached, inherited,
    (of_yields_inheritedRules inheriting).2, checked⟩

/-- Externals that are inherited have the names that those of the base have. -/
theorem names_of_inherited_externals {items : Items (Value Code)} {g : Grammar (Value Code)}
    (h : Yields posture (setting.externals entries) before items after)
    (found : setting.Finds description start entries before.store)
    (base : setting.base = .grammar g)
    (untouched : g.Untouched before.store)
    (missing : Description.get entries .externals = .missing) :
    Section.externals.namesIn items.toList =
      (g.namesOf .externals).map before.store.present := by
  rcases (externals_cases h found).2 with ⟨-, inherits, -⟩ | ⟨given, -⟩
  · rcases inherits with ⟨none, -⟩ | ⟨-, v, attributed, elements⟩
    · rw [hasBase, base] at none
      cases none
    · rw [base] at attributed
      cases attributed
      rw [before.store.elements_present (untouched.lists .externals _ rfl)] at elements
      rw [← Except.ok.inj elements]
      change (g.externals.toList.map before.store.present).filterMap Value.symbolName? =
        (g.externals.toList.filterMap Value.symbolName?).map before.store.present
      rw [List.filterMap_map, List.map_filterMap]
      exact List.filterMap_congr fun v _ ↦ before.store.symbolName?_present v
  · exact absurd missing given

/-- Rules that are inherited are those of the base. -/
theorem eq_of_inherited_rules {g : Grammar (Value Code)} {inherited : Rules.Definitions Code}
    {store : Store Code} (base : setting.base = .grammar g) (untouched : g.Untouched store)
    (h : setting.InheritsRules store inherited) : inherited = g.rules.toList := by
  rcases h with ⟨none, -⟩ | ⟨-, v, attributed, object⟩
  · rw [hasBase, base] at none
    cases none
  · rw [base] at attributed
    cases attributed
    simpa [Store.read, Store.entries, untouched.rules, Value.object?, eq_comm] using object

end Setting

end GrammarDoc
