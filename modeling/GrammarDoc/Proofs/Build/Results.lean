import GrammarDoc.Build.Guard
import GrammarDoc.Build.Lemmas
import GrammarDoc.Build.Setting
import GrammarDoc.Proofs.Names
import Mathlib.Data.List.Forall2

/-!
# Results of steps

When a step of a build has a result, and which journal it leaves then. Each operation has one law
that says both; where a problem would be reported, a build that ends at the first problem has no
result, so its laws are shorter.
-/

namespace GrammarDoc

variable {Code : Type} {α β γ : Type}

/-! ### Steps on a store -/

namespace Exec

/-- A step on a store has a result and leaves a store. -/
def Returns (step : Exec Code α) (before : Store Code) (a : α) (after : Store Code) : Prop :=
  step.start before = (.ok a, after)

variable {before after : Store Code}

/-- A finished step returns what it was given. -/
@[simp] theorem returns_pure (a b : α) :
    Returns (pure a) before b after ↔ b = a ∧ after = before := by
  simp [Returns, eq_comm]

/-- A step starts, and the next one starts from the store it leaves unless it fails. -/
theorem start_bind (step : Exec Code α) (next : α → Exec Code β) :
    start (step >>= next) before =
      match start step before with
      | (.ok a, between) => start (next a) between
      | (.error failure, between) => (.error failure, between) := by
  simp only [start, bind, ExceptT.bind, ExceptT.mk, ExceptT.run, StateT.bind, StateT.run]
  cases step before with
  | mk outcome between => cases outcome <;> rfl

/-- Two steps return something if the first does and the second does from there. -/
@[simp] theorem returns_bind (step : Exec Code α) (next : α → Exec Code β) (b : β) :
    Returns (step >>= next) before b after ↔
      ∃ a between, Returns step before a between ∧ Returns (next a) between b after := by
  unfold Returns
  rw [start_bind]
  cases start step before with
  | mk outcome between => cases outcome <;> simp

/-- Looking at a value returns it as it is at present. -/
@[simp] theorem returns_present (v w : Value Code) :
    Returns (present v) before w after ↔ w = before.present v ∧ after = before := by
  simp [Returns, eq_comm]

/-- Reading a collection returns it with its present items or entries. -/
@[simp] theorem returns_read (v w : Value Code) :
    Returns (read v) before w after ↔ w = before.read v ∧ after = before := by
  have start_read : start (read v) before = (.ok (before.read v), before) := rfl
  simp [Returns, start_read, eq_comm]

/-- Copying a value returns the copy. -/
@[simp] theorem returns_copy (copying : Place) (v w : Value Code) :
    Returns (copy copying v) before w after ↔
      w = (before.copy copying v).1 ∧ after = (before.copy copying v).2 := by
  have start_copy : start (copy copying v) before =
      (.ok (before.copy copying v).1, (before.copy copying v).2) := rfl
  simp [Returns, start_copy, eq_comm]

/-- Of some steps the first is taken before the others. -/
theorem returns_mapM_cons (step : α → Exec Code β) (a : α) (rest : List α) (bs : List β) :
    Returns ((a :: rest).mapM step) before bs after ↔
      ∃ b between cs, Returns (step a) before b between ∧
        Returns (rest.mapM step) between cs after ∧ bs = b :: cs := by
  simp only [List.mapM_cons, returns_bind, returns_pure]
  constructor
  · rintro ⟨b, between, first, cs, _, more, rfl, rfl⟩
    exact ⟨b, between, cs, first, more, rfl⟩
  · rintro ⟨b, between, cs, first, more, rfl⟩
    exact ⟨b, between, first, cs, after, more, rfl, rfl⟩

/-- Steps that leave the store return one after another what each returns. -/
theorem returns_mapM {items : List α} {step : α → Exec Code β} {f : α → β}
    (h : ∀ a ∈ items, Returns (step a) before (f a) before) :
    Returns (items.mapM step) before (items.map f) before := by
  induction items with
  | nil => exact (returns_pure _ _).2 ⟨rfl, rfl⟩
  | cons a rest ih =>
    rw [List.forall_mem_cons] at h
    exact (returns_mapM_cons _ _ _ _).2 ⟨f a, before, rest.map f, h.1, ih h.2, rfl⟩

/-- Looking at some values returns them as they are at present. -/
theorem returns_mapM_present {items : List α} (value : α → Value Code) (vs : List (Value Code)) :
    Returns (items.mapM fun a ↦ present (value a)) before vs after ↔
      vs = items.map (fun a ↦ before.present (value a)) ∧ after = before := by
  induction items generalizing vs after with
  | nil => exact (returns_pure _ _).trans (by simp)
  | cons a rest ih =>
    rw [returns_mapM_cons]
    constructor
    · rintro ⟨v, _, ws, looked, others, rfl⟩
      obtain ⟨rfl, rfl⟩ := (returns_present _ _).1 looked
      obtain ⟨rfl, rfl⟩ := (ih ws).1 others
      exact ⟨rfl, rfl⟩
    · rintro ⟨rfl, rfl⟩
      exact ⟨_, _, _, (returns_present _ _).2 ⟨rfl, rfl⟩, (ih _).2 ⟨rfl, rfl⟩, rfl⟩

end Exec

/-! ### Steps of a build -/

/-- All values are present but the one that is missing. -/
theorem Shape.admits_present {v : Value Code} (h : v ≠ .missing) :
    Shape.present.admits v = true := by
  cases v with
  | missing => exact absurd rfl h
  | _ => rfl

/-- The journal after a problem is reported and the build goes on. -/
def Journal.reported (journal : Journal Code) (p : Problem Code) : Journal Code :=
  { journal with problems := journal.problems ++ [p], entries := journal.entries ++ [.reported p] }

/-- The journal after some names are declared under a tag. -/
def Journal.declaring (journal : Journal Code) (tag : String) (names : List (Value Code)) :
    Journal Code :=
  { journal with names := journal.names ++ names.map fun name ↦ (name, tag) }

namespace Journal

variable (journal : Journal Code) (tag : String)

/-- Declaring no names changes nothing. -/
@[simp] theorem declaring_nil : journal.declaring tag [] = journal := by simp [declaring]

/-- Declaring some names and then others. -/
theorem declaring_append (names others : List (Value Code)) :
    (journal.declaring tag names).declaring tag others =
      journal.declaring tag (names ++ others) := by
  simp [declaring]

/-- Declared names come after those that were there. -/
@[simp] theorem keys_declaring (names : List (Value Code)) :
    (journal.declaring tag names).names.keys = journal.names.keys ++ names := by
  simp [declaring, Table.keys, Function.comp_def]

end Journal

namespace Build

/-- Under a posture, a step of a build has a result and leaves a journal. -/
def Yields (posture : Posture) (step : Build Code α) (before : Journal Code) (a : α)
    (after : Journal Code) : Prop :=
  start step posture before = (.ok a, after)

variable {posture : Posture} {before after : Journal Code}

/-- A step has at most one result, and leaves one journal. -/
theorem Yields.unique {step : Build Code α} {a b : α} {between : Journal Code}
    (h : Yields posture step before a between) (h' : Yields posture step before b after) :
    a = b ∧ between = after := by
  cases h.symm.trans h'
  exact ⟨rfl, rfl⟩

/-- A finished step yields what it was given. -/
@[simp] theorem yields_pure (a b : α) :
    Yields posture (pure a) before b after ↔ b = a ∧ after = before := by
  simp [Yields, eq_comm]

/-- Two steps yield something if the first does and the second does from there. -/
@[simp] theorem yields_bind (step : Build Code α) (next : α → Build Code β) (b : β) :
    Yields posture (step >>= next) before b after ↔
      ∃ a between, Yields posture step before a between ∧
        Yields posture (next a) between b after := by
  unfold Yields
  rw [start_bind]
  cases start step posture before with
  | mk outcome between => cases outcome <;> simp

/-- Going on with a result. -/
@[simp] theorem yields_map (f : α → β) (step : Build Code α) (b : β) :
    Yields posture (f <$> step) before b after ↔
      ∃ a, Yields posture step before a after ∧ b = f a := by
  rw [map_eq_pure_bind, yields_bind]
  constructor
  · rintro ⟨a, between, first, second⟩
    obtain ⟨rfl, rfl⟩ := (yields_pure _ _).1 second
    exact ⟨a, first, rfl⟩
  · rintro ⟨a, first, rfl⟩
    exact ⟨a, after, first, (yields_pure _ _).2 ⟨rfl, rfl⟩⟩

/-- A result that is given at the end is the result, whatever comes before. -/
theorem eq_of_yields_return {step : Build Code α} {b c : β}
    (h : Yields posture (do let _ ← step; return b) before c after) : c = b := by
  obtain ⟨_, _, -, done⟩ := (yields_bind _ _ _).1 h
  exact ((yields_pure _ _).1 done).1

/-- What is made of a result does not matter to whether there is one. -/
theorem exists_yields_return (step : Build Code α) (f : α → β) :
    (∃ b, Yields posture (do return f (← step)) before b after) ↔
      ∃ a, Yields posture step before a after := by
  simp only [yields_bind, yields_pure]
  constructor
  · rintro ⟨_, a, _, first, rfl, rfl⟩
    exact ⟨a, first⟩
  · rintro ⟨a, first⟩
    exact ⟨f a, a, after, first, rfl, rfl⟩

/-- A failure yields nothing. -/
@[simp] theorem yields_throw (failure : Failure Code) (a : α) :
    ¬ Yields posture (throw failure : Build Code α) before a after := by
  simp [Yields]

/-- Writing a line adds it to the journal. -/
@[simp] theorem yields_log (entry : Entry Code) (u : Unit) :
    Yields posture (log entry) before u after ↔
      after = { before with entries := before.entries ++ [entry] } := by
  simp [Yields, start_log, eq_comm]

/-- Changing the journal leaves it changed. -/
@[simp] theorem yields_modify (f : Journal Code → Journal Code) (u : Unit) :
    Yields posture (modify f) before u after ↔ after = f before := by
  simp [Yields, eq_comm]

/-- Looking at the journal yields it. -/
@[simp] theorem yields_get (journal : Journal Code) :
    Yields posture get before journal after ↔ journal = before ∧ after = before := by
  simp [Yields, eq_comm]

/-- Looking at a value yields it as it is at present. -/
@[simp] theorem yields_present (v w : Value Code) :
    Yields posture (present v) before w after ↔ w = before.store.present v ∧ after = before := by
  simp [Yields, eq_comm]

/-- Only a build that collects goes on after a report. -/
@[simp] theorem yields_report (p : Problem Code) (u : Unit) :
    Yields posture (report p) before u after ↔
      posture = .collect ∧ after = before.reported p := by
  cases posture with
  | failFast => simp [Yields, start_report_failFast]
  | collect => simp [Yields, start_report_collect, Journal.reported, eq_comm]

/-- Reporting in a section is a report. -/
@[simp] theorem yields_reportIn (within : Option String) (cause : Cause Code) (u : Unit) :
    Yields posture (reportIn within cause) before u after ↔
      posture = .collect ∧ after = before.reported ⟨cause, within⟩ :=
  yields_report _ u

/-- Only a build that collects has a result after a report. -/
theorem yields_reportIn_return (within : Option String) (cause : Cause Code) (a b : α) :
    Yields posture (do reportIn within cause; return a) before b after ↔
      b = a ∧ posture = .collect ∧ after = before.reported ⟨cause, within⟩ := by
  simp only [yields_bind, yields_reportIn, yields_pure]
  constructor
  · rintro ⟨_, _, ⟨collects, rfl⟩, rfl, rfl⟩
    exact ⟨rfl, collects, rfl⟩
  · rintro ⟨rfl, collects, rfl⟩
    exact ⟨(), _, ⟨collects, rfl⟩, rfl, rfl⟩

/-- What a step on the store comes to is a result, also if it fails. -/
@[simp] theorem yields_attempt (step : Exec Code α) (outcome : Outcome Code α) :
    Yields posture (attempt step) before outcome after ↔
      outcome = (step.start before.store).1 ∧
        after = { before with store := (step.start before.store).2 } := by
  simp [Yields, eq_comm]

/-- A step on the store yields what it returns. -/
@[simp] theorem yields_perform (step : Exec Code α) (a : α) :
    Yields posture (perform step) before a after ↔
      ∃ store, step.Returns before.store a store ∧ after = { before with store } := by
  simp only [Yields, Exec.Returns, start_perform]
  cases step.start before.store with
  | mk outcome store => simp [eq_comm]

/-- Reading a collection yields it with its present items or entries. -/
theorem yields_read (v w : Value Code) :
    Yields posture (perform (Exec.read v)) before w after ↔
      w = before.store.read v ∧ after = before := by
  rw [yields_perform]
  simp only [Exec.returns_read]
  constructor
  · rintro ⟨_, ⟨rfl, rfl⟩, rfl⟩
    exact ⟨rfl, rfl⟩
  · rintro ⟨rfl, rfl⟩
    exact ⟨_, ⟨rfl, rfl⟩, rfl⟩

/-- Copying a value yields the copy. -/
theorem yields_copy (copying : Place) (v w : Value Code) :
    Yields posture (perform (Exec.copy copying v)) before w after ↔
      w = (before.store.copy copying v).1 ∧
        after = { before with store := (before.store.copy copying v).2 } := by
  rw [yields_perform]
  simp only [Exec.returns_copy]
  constructor
  · rintro ⟨_, ⟨rfl, rfl⟩, rfl⟩
    exact ⟨rfl, rfl⟩
  · rintro ⟨rfl, rfl⟩
    exact ⟨_, ⟨rfl, rfl⟩, rfl⟩

/-- A given outcome yields its result. -/
theorem yields_ofOutcome (outcome : Except Fault α) (a : α) :
    Yields posture (ofOutcome (Outcome.ofFault outcome)) before a after ↔
      outcome = .ok a ∧ after = before := by
  cases outcome with
  | ok b => simp [Yields, Outcome.ofFault, eq_comm (a := after)]
  | error f => simp [Yields, Outcome.ofFault]

/-- A given outcome of a step on the store yields its result. -/
theorem yields_ofFault (outcome : Except Fault α) (a : α) :
    Yields posture (perform (Exec.ofFault outcome)) before a after ↔
      outcome = .ok a ∧ after = before := by
  change Yields posture (ofOutcome (Outcome.ofFault outcome)) before a after ↔ _
  exact yields_ofOutcome outcome a

/-- A build that ends at the first problem has the result of a function only if it returns. -/
theorem yields_absorb_failFast (title : String) (step : Exec Code α) (result : Option α) :
    Yields .failFast (absorb title step) before result after ↔
      ∃ a store, step.Returns before.store a store ∧ result = some a ∧
        after = { before with store } := by
  simp only [absorb, yields_bind, yields_attempt, Exec.Returns]
  rcases step.start before.store with ⟨(p | f) | a, store⟩
  · simp
  · simp
  · simp

/-- Leaving out the result of a step. -/
@[simp] theorem yields_discard (step : Build Code α) (u : Unit) :
    Yields posture (discard step) before u after ↔ ∃ a, Yields posture step before a after := by
  change Yields posture ((fun _ ↦ ()) <$> step) before u after ↔ _
  simp

/-- Leaving out the result of a step for another one. -/
theorem yields_discard_return (step : Build Code α) (b c : β) :
    Yields posture (do discard step; return b) before c after ↔
      c = b ∧ ∃ a, Yields posture step before a after := by
  simp only [yields_bind, yields_discard, yields_pure]
  constructor
  · rintro ⟨_, _, first, rfl, rfl⟩
    exact ⟨rfl, first⟩
  · rintro ⟨rfl, first⟩
    exact ⟨(), after, first, rfl, rfl⟩

/-! ### Checks -/

/-- Whether a name has the form of one is a result; if it has not, this is reported. -/
theorem yields_requireValidName (context : String) (within : Option String) (name : Value Code)
    (valid : Bool) :
    Yields posture (requireValidName context within name) before valid after ↔
      valid = name.isValidName ∧
        if name.isValidName then after = before
        else Yields posture (reportIn (attribution context within) (.malformedName context name))
          before () after := by
  unfold requireValidName
  cases name.isValidName with
  | true => simp
  | false => simp [and_comm]

/-- A build that ends at the first problem goes on only with a name that has the form of one. -/
@[simp] theorem yields_requireValidName_failFast (context : String) (within : Option String)
    (name : Value Code) (valid : Bool) :
    Yields .failFast (requireValidName context within name) before valid after ↔
      name.isValidName = true ∧ valid = true ∧ after = before := by
  rw [yields_requireValidName]
  cases name.isValidName with
  | true => simp
  | false => simp

/-- Looking a name up yields its tag, if the name can be looked up at all. -/
theorem yields_lookup (name : Value Code) (found : Option String) :
    Yields posture (lookup name) before found after ↔
      name.canBeKey = true ∧ found = before.names.find? name ∧ after = before := by
  unfold lookup
  cases name.canBeKey with
  | true => simp [and_comm]
  | false => simp

/-- Whether a name is declared is a result; if it is not, this is reported. -/
theorem yields_requireDeclared (context : String) (within : Option String) (name : Value Code)
    (declared : Bool) :
    Yields posture (requireDeclared context within name) before declared after ↔
      name.canBeKey = true ∧ declared = before.names.has name ∧
        if before.names.has name then after = before
        else Yields posture (reportIn (attribution context within) (.undeclared context name))
          before () after := by
  simp only [requireDeclared, yields_bind, yields_lookup, ← Table.isSome_find?]
  cases before.names.find? name with
  | none => simp [and_comm]
  | some tag => simp

/-- A build that ends at the first problem goes on only with a declared name. -/
@[simp] theorem yields_requireDeclared_failFast (context : String) (within : Option String)
    (name : Value Code) (declared : Bool) :
    Yields .failFast (requireDeclared context within name) before declared after ↔
      name.canBeKey = true ∧ before.names.has name = true ∧ declared = true ∧ after = before := by
  rw [yields_requireDeclared]
  cases before.names.has name with
  | true => simp
  | false => simp

/-- Whether a name is free is a result; if it is not, this is reported. -/
theorem yields_requireNotDeclared (context : String) (within : Option String) (name : Value Code)
    (free : Bool) :
    Yields posture (requireNotDeclared context within name) before free after ↔
      name.canBeKey = true ∧ free = !before.names.has name ∧
        match before.names.find? name with
        | none => after = before
        | some first => Yields posture
            (reportIn (attribution context within) (.declaredTwice context name first))
            before () after := by
  simp only [requireNotDeclared, yields_bind, yields_lookup, ← Table.isSome_find?]
  cases before.names.find? name with
  | none => simp
  | some first => simp [and_comm]

/-- A build that ends at the first problem goes on only with a free name. -/
@[simp] theorem yields_requireNotDeclared_failFast (context : String) (within : Option String)
    (name : Value Code) (free : Bool) :
    Yields .failFast (requireNotDeclared context within name) before free after ↔
      name.canBeKey = true ∧ before.names.has name = false ∧ free = true ∧ after = before := by
  rw [yields_requireNotDeclared, ← Table.isSome_find?]
  cases before.names.find? name with
  | none => simp
  | some first => simp

/-- A name that is free is declared; if it is not, this is reported. -/
theorem yields_declare (name : Value Code) (tag : String) (within : Option String) (free : Bool) :
    Yields posture (declare name tag within) before free after ↔
      name.canBeKey = true ∧ free = !before.names.has name ∧
        match before.names.find? name with
        | none => after = before.declaring tag [name]
        | some first =>
          Yields posture (reportIn (attribution tag within) (.declaredTwice tag name first)) before
            () after := by
  simp only [declare, yields_bind, yields_requireNotDeclared, ← Table.isSome_find?]
  cases before.names.find? name with
  | none => simp [Journal.declaring, and_assoc, and_comm]
  | some first => simp [and_assoc, and_comm]

/-- A build that ends at the first problem declares only what is free. -/
@[simp] theorem yields_declare_failFast (name : Value Code) (tag : String) (within : Option String)
    (free : Bool) :
    Yields .failFast (declare name tag within) before free after ↔
      name.canBeKey = true ∧ before.names.has name = false ∧ free = true ∧
        after = before.declaring tag [name] := by
  rw [yields_declare, ← Table.isSome_find?]
  cases before.names.find? name with
  | none => simp
  | some first => simp

/-- After a string is declared the namespace has it, whether or not it had it before. -/
theorem mem_of_yields_declare {s : String} {tag : String} {within : Option String} {free : Bool}
    (h : Yields posture (declare (.string s) tag within) before free after) :
    .string s ∈ after.names.keys := by
  obtain ⟨-, -, found⟩ := (yields_declare (.string s) tag within free).1 h
  split at found
  · rw [found]
    simp [Journal.declaring, Table.keys]
  · next first there =>
    obtain ⟨-, rfl⟩ := (yields_reportIn _ _ _).1 found
    refine (Table.has_string before.names s).1 ?_
    rw [← Table.isSome_find?, there]
    rfl

/-- A value that stands for a rule is made that rule; if it stands for none, this is reported. -/
theorem yields_normalize (context : String) (raw : Value Code)
    (result : Option (Rule (Value Code))) :
    Yields posture (normalize context raw) before result after ↔
      match raw.toRule with
      | .ok r => result = some r ∧ after = before
      | .error cause => result = none ∧
          Yields posture (report (Problem.attributedTo ⟨cause, none⟩ context)) before () after := by
  unfold normalize
  cases raw.toRule with
  | ok r => simp
  | error cause => simp [and_comm]

/-- A build that ends at the first problem goes on only with what stands for a rule. -/
@[simp] theorem yields_normalize_failFast (context : String) (raw : Value Code)
    (result : Option (Rule (Value Code))) :
    Yields .failFast (normalize context raw) before result after ↔
      ∃ r, raw.toRule = .ok r ∧ result = some r ∧ after = before := by
  rw [yields_normalize]
  cases raw.toRule with
  | ok r => simp
  | error cause => simp

/-! ### Guards -/

/-- What guards let through is left to the handler. -/
theorem guarded_of_admits {copy : α → Build Code α} {guards : List (Guard α)}
    (handler : Value Code → Build Code α) {v : Value Code}
    (h : ∀ guard ∈ guards, guard.shape.admits v = true) :
    guarded copy guards handler v = handler v := by
  induction guards with
  | nil => rfl
  | cons guard rest ih =>
    rw [List.forall_mem_cons] at h
    change guard.before copy (guarded copy rest handler) v = handler v
    rw [Guard.before, if_pos h.1, ih h.2]

/-- An array is let through to a section of items. -/
theorem guarded_of_array {title : String} {fallback other : α} {v : Value Code}
    (handler : List (Value Code) → Build Code α) {items : List (Value Code)}
    (array : v.array? = some items) :
    guarded pure [⟨.present, fallback⟩, ⟨.array title, other⟩]
      (fun v ↦ handler (v.array?.getD [])) v = handler items := by
  have present : Shape.present.admits v = true :=
    Shape.admits_present (by rintro rfl; cases array)
  have admitted : (Shape.array title).admits v = true := by rw [Shape.admits, array]; rfl
  rw [guarded_of_admits _ (by simp [present, admitted]), array, Option.getD_some]

/-- A mapping is let through to a section of entries. -/
theorem guarded_of_object {title : String} {fallback other : α} {v : Value Code}
    (handler : List (Value Code × Value Code) → Build Code α)
    {entries : List (Value Code × Value Code)} (object : v.object? = some entries) :
    guarded pure [⟨.present, fallback⟩, ⟨.object title, other⟩]
      (fun v ↦ handler (v.object?.getD [])) v = handler entries := by
  have present : Shape.present.admits v = true :=
    Shape.admits_present (by rintro rfl; cases object)
  have admitted : (Shape.object title).admits v = true := by rw [Shape.admits, object]; rfl
  rw [guarded_of_admits _ (by simp [present, admitted]), object, Option.getD_some]

/-- A section that may be missing, and is an array of items otherwise. -/
theorem yields_guarded_array (title : String) (fallback : α) (other : α)
    (handler : List (Value Code) → Build Code α) (v : Value Code) (a : α) :
    Yields .failFast
        (guarded pure [⟨.present, fallback⟩, ⟨.array title, other⟩]
          (fun v ↦ handler (v.array?.getD [])) v) before a after ↔
      v = .missing ∧ a = fallback ∧ after = before ∨
        ∃ items, v.array? = some items ∧ Yields .failFast (handler items) before a after := by
  cases v with
  | missing => simp [guarded, Guard.before, Shape.admits, Shape.problem?, Value.array?]
  | list items => simp [guarded, Guard.before, Shape.admits, Value.array?]
  | tuple items => simp [guarded, Guard.before, Shape.admits, Value.array?]
  | bool | int | double | string | mapping | pattern | callable | builder | rule | grammar
  | references => simp [guarded, Guard.before, Shape.admits, Shape.problem?, Value.array?]

/-- A section that may be missing, and is a mapping otherwise. -/
theorem yields_guarded_object (title : String) (fallback : α) (other : α)
    (handler : List (Value Code × Value Code) → Build Code α) (v : Value Code) (a : α) :
    Yields .failFast
        (guarded pure [⟨.present, fallback⟩, ⟨.object title, other⟩]
          (fun v ↦ handler (v.object?.getD [])) v) before a after ↔
      v = .missing ∧ a = fallback ∧ after = before ∨
        ∃ entries, v.object? = some entries ∧
          Yields .failFast (handler entries) before a after := by
  cases v with
  | missing => simp [guarded, Guard.before, Shape.admits, Shape.problem?, Value.object?]
  | mapping entries => simp [guarded, Guard.before, Shape.admits, Value.object?]
  | bool | int | double | string | list | tuple | pattern | callable | builder | rule | grammar
  | references => simp [guarded, Guard.before, Shape.admits, Shape.problem?, Value.object?]

/-! ### Going through items -/

/-- Going through no items yields nothing. -/
@[simp] theorem yields_filterMap_nil (step : α → Build Code (Option β)) (bs : List β) :
    Yields posture (filterMap step []) before bs after ↔ bs = [] ∧ after = before :=
  yields_pure _ _

/-- Going through the first item and then through the rest. -/
theorem yields_filterMap_cons (step : α → Build Code (Option β)) (a : α) (rest : List α)
    (bs : List β) :
    Yields posture (filterMap step (a :: rest)) before bs after ↔
      ∃ result between, Yields posture (step a) before result between ∧
        ∃ cs, Yields posture (filterMap step rest) between cs after ∧
          bs = result.toList ++ cs := by
  rw [filterMap, yields_bind]
  refine exists_congr fun result ↦ exists_congr fun between ↦ and_congr_right fun _ ↦ ?_
  cases result with
  | none => simp
  | some b => simp

/-- Going through items of which each gives a result and does nothing else. -/
theorem yields_filterMap_pure {step : α → Build Code (Option β)} {items : List α}
    {Gives : α → β → Prop} (bs : List β)
    (h : ∀ a ∈ items, ∀ result between, Yields posture (step a) before result between ↔
      ∃ b, result = some b ∧ Gives a b ∧ between = before) :
    Yields posture (filterMap step items) before bs after ↔
      List.Forall₂ Gives items bs ∧ after = before := by
  induction items generalizing bs with
  | nil => simp
  | cons a rest ih =>
    have ih bs := ih bs fun other ho ↦ h other (List.mem_cons_of_mem a ho)
    simp only [yields_filterMap_cons, h a List.mem_cons_self, List.forall₂_cons_left_iff]
    constructor
    · rintro ⟨_, _, ⟨b, rfl, gives, rfl⟩, cs, more, rfl⟩
      obtain ⟨all, rfl⟩ := (ih cs).1 more
      exact ⟨⟨b, cs, gives, all, rfl⟩, rfl⟩
    · rintro ⟨⟨b, cs, gives, all, rfl⟩, rfl⟩
      exact ⟨some b, after, ⟨b, rfl, gives, rfl⟩, cs, (ih cs).2 ⟨all, rfl⟩, rfl⟩

/-- Going through items and their positions, where the positions do not count. -/
theorem yields_filterMapIdx_pure {step : Nat → α → Build Code (Option β)} {items : List α}
    {Gives : α → β → Prop} (bs : List β)
    (h : ∀ i a result between, Yields posture (step i a) before result between ↔
      ∃ b, result = some b ∧ Gives a b ∧ between = before) :
    Yields posture (filterMapIdx step items) before bs after ↔
      List.Forall₂ Gives items bs ∧ after = before := by
  have all := @yields_filterMap_pure _ _ _ _ before after _ _ _ bs
    fun (p : α × Nat) (_ : p ∈ items.zipIdx) result between ↦ h p.2 p.1 result between
  rw [← List.forall₂_map_left_iff, List.zipIdx_map_fst] at all
  exact all

/-- Going through items for each of which a step on the store is carried out. -/
theorem yields_filterMap_perform {step : α → Build Code (Option β)} {call : α → Exec Code γ}
    {items : List α} {Gives : γ → β → Prop} (bs : List β)
    (h : ∀ a ∈ items, ∀ before result between, Yields posture (step a) before result between ↔
      ∃ c store b, (call a).Returns before.store c store ∧ result = some b ∧ Gives c b ∧
        between = { before with store }) :
    Yields posture (filterMap step items) before bs after ↔
      ∃ cs store, (items.mapM call).Returns before.store cs store ∧
        List.Forall₂ Gives cs bs ∧ after = { before with store } := by
  induction items generalizing before bs with
  | nil => simp [and_assoc]
  | cons a rest ih =>
    -- The store runs through the calls as the journal does through the items, and of the journal
    -- nothing else moves.
    have ih (between : Journal Code) (cs : List β) :
        Yields posture (filterMap step rest) between cs after ↔ _ :=
      ih cs fun other ho ↦ h other (List.mem_cons_of_mem a ho)
    simp only [yields_filterMap_cons, h a List.mem_cons_self, List.mapM_cons]
    constructor
    · rintro ⟨_, _, ⟨c, store, b, called, rfl, gives, rfl⟩, bs, more, rfl⟩
      obtain ⟨cs, final, all, given, rfl⟩ := (ih _ bs).1 more
      refine ⟨c :: cs, final, ?_, .cons gives given, rfl⟩
      rw [Exec.returns_bind]
      refine ⟨c, store, called, ?_⟩
      rw [Exec.returns_bind]
      exact ⟨cs, final, all, (Exec.returns_pure _ _).2 ⟨rfl, rfl⟩⟩
    · rintro ⟨_, final, all, given, rfl⟩
      rw [Exec.returns_bind] at all
      obtain ⟨c, store, called, all⟩ := all
      rw [Exec.returns_bind] at all
      obtain ⟨cs, _, all, done⟩ := all
      obtain ⟨rfl, rfl⟩ := (Exec.returns_pure _ _).1 done
      cases given with
      | cons gives given =>
        exact ⟨_, _, ⟨c, store, _, called, rfl, gives, rfl⟩, _,
          (ih _ _).2 ⟨cs, final, all, given, rfl⟩, rfl⟩

/-- Going through items of which each may declare a name. -/
theorem yields_filterMap_declare {step : α → Build Code (Option β)} {items : List α}
    {Gives : α → β → Prop} {declares : α → Option (Value Code)} {tag : String} (bs : List β)
    (h : ∀ a ∈ items, ∀ before result between, Yields posture (step a) before result between ↔
      ∃ b, result = some b ∧ Gives a b ∧ (∀ name ∈ declares a, name ∉ before.names.keys) ∧
        between = before.declaring tag (declares a).toList) :
    Yields posture (filterMap step items) before bs after ↔
      List.Forall₂ Gives items bs ∧ (items.filterMap declares).Nodup ∧
        (∀ name ∈ items.filterMap declares, name ∉ before.names.keys) ∧
        after = before.declaring tag (items.filterMap declares) := by
  induction items generalizing before bs with
  | nil => simp
  | cons a rest ih =>
    have ih (between : Journal Code) (cs : List β) :
        Yields posture (filterMap step rest) between cs after ↔ _ :=
      ih cs fun other ho ↦ h other (List.mem_cons_of_mem a ho)
    simp only [yields_filterMap_cons, h a List.mem_cons_self, List.forall₂_cons_left_iff]
    have names : (a :: rest).filterMap declares =
        (declares a).toList ++ rest.filterMap declares := by
      cases ha : declares a with
      | none => simp [ha]
      | some name => simp [ha]
    -- What the first item declares is there when the rest begins. So that the rest finds its names
    -- free says both that they were free before and that the first item has not taken them.
    rw [names, List.nodup_append, ← Journal.declaring_append]
    constructor
    · rintro ⟨_, _, ⟨b, rfl, gives, free, rfl⟩, cs, more, rfl⟩
      obtain ⟨all, nodup, fresh, rfl⟩ := (ih _ cs).1 more
      rw [Journal.keys_declaring] at fresh
      refine ⟨⟨b, cs, gives, all, rfl⟩, ⟨?_, nodup, ?_⟩, ?_, rfl⟩
      · cases declares a with
        | none => exact List.nodup_nil
        | some name => simp
      · rintro name first other later rfl
        exact fresh name later (List.mem_append_right _ first)
      · intro name mem
        rcases List.mem_append.1 mem with first | later
        · exact free name (Option.mem_toList.1 first)
        · exact fun old ↦ fresh name later (List.mem_append_left _ old)
    · rintro ⟨⟨b, cs, gives, all, rfl⟩, ⟨-, nodup, disjoint⟩, free, rfl⟩
      refine ⟨some b, _, ⟨b, rfl, gives, fun name first ↦ ?_, rfl⟩, cs,
        (ih _ cs).2 ⟨all, nodup, fun name later ↦ ?_, rfl⟩, rfl⟩
      · exact free name (List.mem_append_left _ (Option.mem_toList.2 first))
      · rw [Journal.keys_declaring]
        intro old
        rcases List.mem_append.1 old with old | first
        · exact free name (List.mem_append_right _ later) old
        · exact disjoint name first name later rfl

/-- Of some items the first is checked before the others. -/
theorem yields_forM_cons (step : α → Build Code Unit) (a : α) (rest : List α) (u : Unit) :
    Yields posture ((a :: rest).forM step) before u after ↔
      ∃ between, Yields posture (step a) before () between ∧
        Yields posture (rest.forM step) between u after :=
  (yields_bind (step a) (fun _ ↦ rest.forM step) u).trans
    ⟨fun ⟨_, between, first, more⟩ ↦ ⟨between, first, more⟩,
      fun ⟨between, first, more⟩ ↦ ⟨(), between, first, more⟩⟩

/-- Checking items one after another. -/
theorem yields_forM {step : α → Build Code Unit} {items : List α} {Holds : α → Prop} (u : Unit)
    (h : ∀ a ∈ items, ∀ u between, Yields posture (step a) before u between ↔
      Holds a ∧ between = before) :
    Yields posture (items.forM step) before u after ↔
      (∀ a ∈ items, Holds a) ∧ after = before := by
  induction items with
  | nil => exact (yields_pure _ _).trans (by simp)
  | cons a rest ih =>
    have ih := ih fun other ho ↦ h other (List.mem_cons_of_mem a ho)
    simp only [yields_forM_cons, h a List.mem_cons_self, List.forall_mem_cons]
    constructor
    · rintro ⟨_, ⟨holds, rfl⟩, more⟩
      obtain ⟨all, rfl⟩ := ih.1 more
      exact ⟨⟨holds, all⟩, rfl⟩
    · rintro ⟨⟨holds, all⟩, rfl⟩
      exact ⟨after, ⟨holds, rfl⟩, ih.2 ⟨all, rfl⟩⟩

/-- Of some steps the first is taken before the others. -/
theorem yields_mapM_cons (step : α → Build Code β) (a : α) (rest : List α) (bs : List β) :
    Yields posture ((a :: rest).mapM step) before bs after ↔
      ∃ b between cs, Yields posture (step a) before b between ∧
        Yields posture (rest.mapM step) between cs after ∧ bs = b :: cs := by
  simp only [List.mapM_cons, yields_bind, yields_pure]
  constructor
  · rintro ⟨b, between, first, cs, _, more, rfl, rfl⟩
    exact ⟨b, between, cs, first, more, rfl⟩
  · rintro ⟨b, between, cs, first, more, rfl⟩
    exact ⟨b, between, first, cs, after, more, rfl, rfl⟩

/-- Looking at some values yields them as they are at present. -/
theorem yields_mapM_present {items : List α} (value : α → Value Code) (vs : List (Value Code)) :
    Yields posture (items.mapM fun a ↦ present (value a)) before vs after ↔
      vs = items.map (fun a ↦ before.store.present (value a)) ∧ after = before := by
  induction items generalizing vs after with
  | nil => simp
  | cons a rest ih =>
    rw [yields_mapM_cons]
    constructor
    · rintro ⟨v, _, ws, looked, others, rfl⟩
      obtain ⟨rfl, rfl⟩ := (yields_present _ _).1 looked
      obtain ⟨rfl, rfl⟩ := (ih ws).1 others
      exact ⟨rfl, rfl⟩
    · rintro ⟨rfl, rfl⟩
      exact ⟨_, _, _, (yields_present _ _).2 ⟨rfl, rfl⟩, (ih _).2 ⟨rfl, rfl⟩, rfl⟩

/-- What holds of the result of a run holds of something that the run ends with. -/
theorem exists_eq_ok_of_any {run : Outcome Code α × Journal Code} {p : α → Bool}
    (h : run.1.toOption.any p = true) : ∃ a, run = (.ok a, run.2) ∧ p a = true := by
  obtain ⟨outcome, after⟩ := run
  cases outcome with
  | error failure => cases h
  | ok a => exact ⟨a, rfl, h⟩

/-- Why there is no result, if there is none. -/
def failure? {ε : Type} : Except ε α → Option ε
  | .error failure => some failure
  | .ok _ => none

/-- What is the failure of an outcome is what it fails with. -/
theorem eq_error_of_failure? {ε : Type} {outcome : Except ε α} {failure : ε}
    (h : failure? outcome = some failure) : outcome = .error failure := by
  cases outcome with
  | error other => exact congrArg Except.error (Option.some.inj h)
  | ok a => cases h

/-- The fault that a failure is, if it is no problem. -/
def fault? : Failure Code → Option Fault
  | .fault f => some f
  | .problem _ => none

/-- What has a fault is this fault. -/
theorem eq_fault_of_fault? {failure : Failure Code} {f : Fault} (h : fault? failure = some f) :
    failure = .fault f := by
  cases failure with
  | fault other => exact congrArg Failure.fault (Option.some.inj h)
  | problem p => cases h

/-! ### Steps without a report -/

/-- A build that ends at the first problem does not end with one in a step. -/
def Unreported (step : Build Code α) (before : Journal Code) : Prop :=
  ∀ p, (start step .failFast before).1 ≠ .error (.problem p)

/-- A step that yields something reports nothing. -/
theorem Yields.unreported {step : Build Code α} {a : α}
    (h : Yields .failFast step before a after) : Unreported step before := by
  intro p
  rw [h]
  exact fun eq ↦ by cases eq

/-- Two steps report nothing if the first does not, and the second does not from there. -/
theorem Unreported.bind {step : Build Code α} {next : α → Build Code β}
    (h : Unreported step before)
    (h' : ∀ a between, Yields .failFast step before a between → Unreported (next a) between) :
    Unreported (step >>= next) before := by
  intro p
  have h := h p
  rw [start_bind]
  cases run : start step .failFast before with
  | mk outcome between =>
    rw [run] at h
    cases outcome with
    | error failure => exact fun eq ↦ h (by cases eq; rfl)
    | ok a => exact h' a between run p

/-- A step that yields something is followed by one that reports nothing. -/
theorem Yields.unreported_bind {step : Build Code α} {next : α → Build Code β} {a : α}
    (h : Yields .failFast step before a after) (h' : Unreported (next a) after) :
    Unreported (step >>= next) before := by
  refine h.unreported.bind fun b between other ↦ ?_
  cases h.symm.trans other
  exact h'

/-- A finished step reports nothing. -/
theorem unreported_pure (a : α) : Unreported (pure a : Build Code α) before :=
  fun _ eq ↦ by cases eq

/-- Leaving out the result of a step reports nothing. -/
theorem Unreported.discard {step : Build Code α} (h : Unreported step before) :
    Unreported (discard step) before := by
  change Unreported (step >>= fun _ ↦ pure ()) before
  exact h.bind fun _ _ _ ↦ unreported_pure ()

private theorem unreported_fault (f : Fault) :
    Unreported (throw (.fault f) : Build Code α) before :=
  fun _ eq ↦ by cases eq

/-- A name that is not declared, or cannot be looked up, is not reported as declared. -/
theorem unreported_requireNotDeclared (context : String) (within : Option String)
    (name : Value Code) (h : before.names.has name = false) :
    Unreported (requireNotDeclared context within name) before := by
  cases key : name.canBeKey with
  | true =>
    have yields := (yields_requireNotDeclared_failFast context within name true).2
      ⟨key, h, rfl, rfl⟩
    exact yields.unreported
  | false =>
    unfold requireNotDeclared lookup
    rw [key]
    exact Unreported.bind (unreported_fault _) fun _ _ yields ↦ absurd yields (yields_throw _ _)

/-- Going through items reports nothing if no item does, and none changes the journal. -/
theorem unreported_filterMap {step : α → Build Code (Option β)} {items : List α}
    (h : ∀ a ∈ items, Unreported (step a) before)
    (h' : ∀ a ∈ items, ∀ result between, Yields .failFast (step a) before result between →
      between = before) :
    Unreported (filterMap step items) before := by
  induction items with
  | nil => exact unreported_pure _
  | cons a rest ih =>
    refine (h a List.mem_cons_self).bind fun result between yields ↦ ?_
    rw [h' a List.mem_cons_self result between yields]
    have rest := ih (fun b hb ↦ h b (List.mem_cons_of_mem a hb))
      fun b hb ↦ h' b (List.mem_cons_of_mem a hb)
    cases result with
    | none => exact rest
    | some b => exact rest.bind fun _ _ _ ↦ unreported_pure _

end Build
end GrammarDoc
