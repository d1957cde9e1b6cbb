import GrammarDoc.Proofs.Equality
import GrammarDoc.Proofs.Relocation.Repetition
import GrammarDoc.Proofs.Visibility

/-!
# Sections do not interfere

After the rules no section declares a name, and none looks at what has been reported. What sections
do to the store is to copy what the base has, and no later section sees such a copy. So what a
section comes to depends on what is given for it, for the externals and for the rules, but on
nothing else in a description.
-/

namespace GrammarDoc

open Build (Yields MadeOf Uniform)

variable {Code : Type}

/-- The sections up to the rules, which declare names. -/
def Section.upToRules : List Section := [name, externals, rules]

/-- The sections after the rules, which only use names. -/
def Section.afterRules : List Section :=
  [extras, inline, conflicts, word, supertypes, precedences]

namespace Setting

variable (setting : Setting Code)

/-! ### What a build starts from -/

/-- Whether a place is not one where the build makes copies of what the base has. -/
def Sees (place : Place) : Prop :=
  ∀ source, ∀ part : Section, place ≠ .copy source (setting.made "copy" part.title)

/-- A function is pure in a build if it changes nothing, whatever it is passed, and if copies that
the build makes do not matter to it, nor come from it, unless they are passed to it. -/
structure Pure (f : Callable (Value Code) Code) : Prop where
  still : ∀ place offered store, ((setting.call place f offered).start store).2 = store
  same : ∀ place offered store other, offered.InSight setting.Sees →
    store.Alike setting.Sees other →
    ((setting.call place f offered).start store).1 = ((setting.call place f offered).start other).1
  sees : ∀ place offered store v, offered.InSight setting.Sees → store.Alike setting.Sees store →
    ((setting.call place f offered).start store).1 = .ok v → v.InSight setting.Sees

/-- When a build starts, there are none of the copies that it is going to make. -/
structure Anew (description : Value Code) (store : Store Code) : Prop where
  base : ∀ part : Section, ∀ v, setting.base.attribute? part.title = .ok v →
    v.InSight setting.Sees
  description : description.InSight setting.Sees
  store : store.Alike setting.Sees store

/-- Whether all functions that a description gives change nothing. -/
def GivesStill (description : Value Code) (store : Store Code) : Prop :=
  ∀ f, setting.GivesFunction description store f → setting.Still f

/-- Whether all functions that a description gives are pure. -/
def GivesPure (description : Value Code) (store : Store Code) : Prop :=
  ∀ f, setting.GivesFunction description store f → setting.Pure f

variable {setting}

/-! ### Steps that see the same -/

variable (setting) in
/-- Whether a step comes to the same in all stores that show the same. -/
abbrev Steady {α : Type} (step : Build Code α) (Q : α → Prop) : Prop :=
  Uniform (Store.Alike setting.Sees) step Q

variable {entries : Table Code (Value Code)}

/-- A place that is part of another is in sight. -/
theorem sees_part (place : Place) (title : String) : setting.Sees (place.part title) := by
  intro source part eq
  cases eq

private theorem sees_made (role title : String) : setting.Sees
    (setting.made role title) := sees_part _ _

private theorem sees_item (place : Place) (index : Nat) : setting.Sees (place.item index) := by
  intro source part eq
  cases eq

/-- A list at a place in sight is in sight if its items are. -/
theorem inSight_list {place : Place} {items : List (Value Code)} (sees : setting.Sees place)
    (items_sees : ∀ v ∈ items, v.InSight setting.Sees) :
    (Value.list ⟨place, items, false⟩).InSight setting.Sees := by
  rw [Value.InSight, Value.places, Value.placesOfList, List.forall_mem_cons,
    Value.forall_placesOfItems]
  exact ⟨sees, items_sees⟩

/-- Looking at a value. -/
theorem steady_present {v : Value Code} (sees : v.InSight setting.Sees) :
    setting.Steady (Build.present v) (Value.InSight setting.Sees) := by
  intro start₁ start₂ h₀
  obtain ⟨same, seen⟩ := Store.present_alike h₀.stores sees
  refine ⟨⟨[], congrArg Except.ok same, by simp, .nothing rfl rfl, .nothing rfl rfl, h₀⟩, ?_⟩
  intro w looked
  cases looked
  exact seen

private theorem steady_ofFault {α : Type} {Q : α → Prop} {outcome : Except Fault α}
    (h : ∀ a, outcome = .ok a → Q a) :
    setting.Steady (Build.perform (Exec.ofFault outcome)) Q := by
  cases outcome with
  | ok a => exact .pure (h a rfl)
  | error f => exact .throw _

private theorem steady_elements {v : Value Code} (sees : v.InSight setting.Sees) :
    setting.Steady (Build.elements v) fun items ↦ ∀ item ∈ items, item.InSight setting.Sees :=
  (steady_present sees).bind fun _ sees ↦ steady_ofFault fun _ eq ↦ sees.elements eq

private theorem steady_symbols {place : Place} {names : Value Code} (made : setting.Sees place)
    (sees : names.InSight setting.Sees) :
    setting.Steady (symbols place names) (Value.InSight setting.Sees) := by
  refine (steady_elements sees).bind fun items sees ↦ .pure (inSight_list made ?_)
  intro v hv
  obtain ⟨name, hn, rfl⟩ := List.mem_map.1 hv
  exact sees name hn

private theorem steady_inherited (part : Section)
    (base : ∀ v, setting.base.attribute? part.title = .ok v → v.InSight setting.Sees) :
    setting.Steady (setting.inherited part) (Value.InSight setting.Sees) := by
  unfold inherited
  split
  · exact steady_ofFault base
  · exact .pure (List.forall_mem_nil _)

private theorem steady_offered (part : Section) {inherited : Value Code}
    (sees : inherited.InSight setting.Sees) :
    setting.Steady (setting.offered part inherited) (Value.InSight setting.Sees) := by
  have made : setting.Sees (setting.made "offered" part.title) := sees_made _ _
  unfold offered
  split
  · cases part with
    | inline => exact steady_symbols made sees
    | supertypes => exact steady_symbols made sees
    | conflicts =>
      refine (steady_elements sees).bind fun groups sees ↦ ?_
      refine (Uniform.mapM _ fun group hg ↦ ?_).bind fun lists sees ↦
        .pure (inSight_list made sees)
      exact steady_symbols (sees_item _ _) (sees group.1 (List.fst_mem_of_mem_zipIdx hg))
    | name | externals | rules | extras | word | precedences => exact .pure sees
  · refine .pure ?_
    cases part with
    | word => exact List.forall_mem_nil _
    | extras =>
      refine inSight_list made (List.forall_mem_singleton.2 fun place found ↦ ?_)
      simp [Extras.blankCharacter, Value.places, Value.placesOfRule] at found
    | name | externals | rules | inline | conflicts | supertypes | precedences =>
      exact inSight_list made (List.forall_mem_nil _)

private theorem steady_evaluate (part : Section) {v offered : Value Code}
    (sees : v.InSight setting.Sees)
    (sees' : offered.InSight setting.Sees) (pure : ∀ f, v.callable? = some f → setting.Pure f) :
    setting.Steady (setting.evaluate part v offered) (Value.InSight setting.Sees) := by
  unfold evaluate
  cases callable : v.callable? with
  | none => exact .pure sees
  | some f =>
    have pure := pure f callable
    dsimp only
    by_cases takes : f.takesArgument = true
    · rw [if_pos takes]
      have called : setting.Steady
          (Build.attempt (setting.call (setting.made "call" part.title) f offered))
          fun outcome ↦ ∀ w, outcome = .ok w → w.InSight setting.Sees := by
        refine .attempt fun store other alike ↦ ⟨pure.same _ _ _ _ sees' alike, ?_, ?_⟩
        · rw [pure.still, pure.still]
          exact alike
        · exact fun w ↦ pure.sees _ _ _ _ sees' (alike.trans alike.symm)
      refine (called.bind fun outcome sees ↦ Uniform.answered sees).bind fun result sees ↦
        .pure ?_
      cases result with
      | none => exact sees'
      | some w => exact sees w rfl
    · rw [if_neg takes]
      exact .pure sees

private theorem steady_copy (part : Section) {v : Value Code} (sees : v.InSight setting.Sees) :
    setting.Steady (Build.perform (Exec.copy (setting.made "copy" part.title) v))
      fun _ ↦ True := by
  have copied : setting.Steady (Build.attempt (Exec.copy (setting.made "copy" part.title) v))
      fun _ ↦ True := by
    have hidden (source : Place) : ¬ setting.Sees (.copy source (setting.made "copy" part.title)) :=
      fun sees ↦ sees source part rfl
    refine .attempt fun store other alike ↦ ⟨?_, ?_, trivial⟩
    · change Except.ok (store.copy _ v).1 = Except.ok (other.copy _ v).1
      rw [Store.copy_fst, Store.copy_fst, (Store.present_alike alike sees).1]
    · exact ((alike.copied v hidden).symm.copied v hidden).symm
  refine copied.bind fun outcome _ ↦ ?_
  cases outcome with
  | ok w => exact .pure trivial
  | error failure => exact .throw failure

private theorem steady_of_reports {α : Type} {step : Build Code α}
    (made : MadeOf Move.IsReport step) : setting.Steady step fun _ ↦ True := by
  refine made.uniform ?_ ?_
  · rintro part grammar ⟨p, eq⟩
    cases eq
  · rintro ⟨p, eq⟩
    cases eq

private theorem steady_part (part : Section)
    (base : ∀ v, setting.base.attribute? part.title = .ok v → v.InSight setting.Sees)
    (given : (Description.get entries part).InSight setting.Sees)
    (pure : ∀ f, (Description.get entries part).callable? = some f → setting.Pure f) :
    setting.Steady (setting.part entries part (setting.checks part)) fun _ ↦ True := by
  refine (steady_inherited part base).bind fun inherited sees ↦ ?_
  refine (steady_offered part sees).bind fun offered sees' ↦ ?_
  split
  · refine (steady_copy part sees).bind fun copy _ ↦ ?_
    split
    · exact .pure trivial
    · exact .throw _
  · refine (steady_evaluate part given sees' pure).bind fun v sees ↦ ?_
    refine (steady_present sees).bind fun v _ ↦ ?_
    have checked : setting.Steady (setting.checks part v) fun _ ↦ True :=
      steady_of_reports (setting.madeOf_checks part v fun _ ↦ ⟨_, rfl⟩)
    exact checked.bind fun _ _ ↦ .pure trivial

private theorem steady_word
    (base : ∀ v, setting.base.attribute? "word" = .ok v → v.InSight setting.Sees)
    (given : (Description.get entries .word).InSight setting.Sees)
    (pure : ∀ f, (Description.get entries .word).callable? = some f → setting.Pure f) :
    setting.Steady (setting.word entries) fun _ ↦ True := by
  have checked (v : Value Code) : setting.Steady (Names.validateWord v) fun _ ↦ True :=
    steady_of_reports (Names.madeOf_validateWord v fun _ ↦ ⟨_, rfl⟩)
  refine (steady_inherited .word base).bind fun inherited sees ↦ ?_
  split
  · exact steady_copy .word sees
  · have refers : setting.Steady (refersToDeclared (Description.get entries .word))
        fun _ ↦ True := by
      unfold refersToDeclared
      split
      · exact .pure trivial
      · exact .lookNames fun names ↦ names.has _
    refine refers.bind fun refers _ ↦ ?_
    split
    · exact checked _
    · refine (steady_evaluate .word given sees pure).bind fun v sees ↦ ?_
      exact (steady_present sees).bind fun v _ ↦ checked v

/-- A section that is gone through after the rules. -/
theorem steady_goThrough {part : Section} (hp : part ∈ Section.afterRules)
    (base : ∀ v, setting.base.attribute? part.title = .ok v → v.InSight setting.Sees)
    (given : (Description.get entries part).InSight setting.Sees)
    (pure : ∀ f, (Description.get entries part).callable? = some f → setting.Pure f) :
    setting.Steady (setting.goThrough entries part) fun _ ↦ True := by
  cases part with
  | word => exact steady_word base given pure
  | extras | inline | conflicts | supertypes | precedences =>
    exact (steady_part _ base given pure).bind fun _ _ ↦ .pure trivial
  | name | externals | rules => simp [Section.afterRules] at hp

/-! ### Runs from the same start -/

variable {description : Value Code} {store later : Store Code}

/-- When a build starts, none of the copies that it is going to make stands in what is given. -/
theorem Anew.given (anew : setting.Anew description store) (part : Section) :
    (Description.get (Description.given description store) part).InSight setting.Sees := by
  have sees := (Store.read_alike anew.store anew.description).2
  rw [Description.get, Table.find?, Description.given]
  cases h : store.read description with
  | mapping entries =>
    rw [h, Value.InSight, Value.places, Value.placesOfMapping, List.forall_mem_cons,
      Value.forall_placesOfEntries] at sees
    cases found : List.find? (fun entry ↦ (Value.string part.title).same entry.1)
      ((Value.mapping entries).object?.getD []) with
    | none => exact List.forall_mem_nil _
    | some entry => exact (sees.2 entry (List.mem_of_find?_eq_some found)).2
  | missing | bool | int | double | string | list | tuple | pattern | callable | builder | rule
  | grammar | references => exact List.forall_mem_nil _

/-- A description gives the same in stores that show the same. -/
theorem Anew.given_eq (anew : setting.Anew description store)
    (alike : store.Alike setting.Sees later) :
    Description.given description later = Description.given description store := by
  rw [Description.given, Description.given, (Store.read_alike alike anew.description).1]

/-- All stores that a build of functions that change nothing may come to show what the first one
does. -/
theorem alike_of_still (anew : setting.Anew description store)
    (still : setting.GivesStill description store)
    (reached : setting.Reaches description store later) : store.Alike setting.Sees later := by
  induction reached with
  | start => exact anew.store
  | @call earlier later f place offered _ gives _ ih ih' =>
    have given : setting.GivesFunction description store f := by
      rw [GivesFunction, anew.given_eq ih] at gives
      rcases gives with part | ⟨definitions, object, entry⟩
      · exact .inl part
      · have sees : (setting.givenRules (Description.given description store)).InSight
            setting.Sees := by
          unfold givenRules
          split
          · rw [Value.InSight, Value.places, Value.placesOfMapping, List.forall_mem_cons]
            exact ⟨sees_made _ _, List.forall_mem_nil _⟩
          · exact anew.given .rules
        rw [← (Store.present_alike ih sees).1] at object
        exact .inr ⟨definitions, object, entry⟩
    rw [still f given]
    exact ih'
  | @copy later v part _ _ ih =>
    have hidden (source : Place) : ¬ setting.Sees (.copy source (setting.made "copy" part.title)) :=
      fun sees ↦ sees source part rfl
    exact (ih.symm.copied v hidden).symm

/-- What a description of functions that change nothing gives is the same throughout a build. -/
theorem given_of_reaches (anew : setting.Anew description store)
    (still : setting.GivesStill description store)
    (reached : setting.Reaches description store later) :
    Description.given description later = Description.given description store :=
  anew.given_eq (alike_of_still anew still reached)

/-- What is done for a section depends on what a description gives for it only. -/
theorem goThrough_congr {entries₁ entries₂ : Table Code (Value Code)} {part : Section}
    (h : Description.get entries₁ part = Description.get entries₂ part) :
    setting.goThrough entries₁ part = setting.goThrough entries₂ part := by
  cases part with
  | name => simp only [goThrough, Setting.name, h]
  | externals => simp only [goThrough, Setting.externals, h]
  | rules => simp only [goThrough, Setting.rules, h]
  | word => simp only [goThrough, Setting.word, h]
  | extras | inline | conflicts | supertypes | precedences =>
    simp only [goThrough, Setting.part, h]

/-! ### Two builds -/

variable {description₁ description₂ : Value Code} {fields₁ fields₂ : Section → Value Code}
  {start₁ start₂ finish₁ finish₂ after₁ after₂ : Journal Code}

/-- Builds of two descriptions that give the same for the externals and the rules have the same
names and the same store as soon as they have gone through the rules. -/
theorem agree_upTo_rules
    (anew₁ : setting.Anew description₁ store) (anew₂ : setting.Anew description₂ store)
    (still₁ : setting.GivesStill description₁ store)
    (still₂ : setting.GivesStill description₂ store)
    (course₁ : setting.Course description₁ store fields₁ start₁ finish₁ after₁)
    (course₂ : setting.Course description₂ store fields₂ start₂ finish₂ after₂)
    (externals : Description.get (Description.given description₁ store) .externals =
      Description.get (Description.given description₂ store) .externals)
    (rules : Description.get (Description.given description₁ store) .rules =
      Description.get (Description.given description₂ store) .rules) :
    ∃ middle₁ middle₂ : Journal Code, middle₁.Match Eq middle₂ ∧
      setting.Traverses description₁ .collect fields₁ Section.upToRules start₁ middle₁ ∧
      setting.Traverses description₂ .collect fields₂ Section.upToRules start₂ middle₂ ∧
      setting.Traverses description₁ .collect fields₁ Section.afterRules middle₁ finish₁ ∧
      setting.Traverses description₂ .collect fields₂ Section.afterRules middle₂ finish₂ ∧
      (fields₁ .externals = fields₂ .externals ∧
        after₁.problemsIn .externals = after₂.problemsIn .externals) ∧
      (fields₁ .rules = fields₂ .rules ∧
        after₁.problemsIn .rules = after₂.problemsIn .rules) := by
  obtain _ | ⟨atName₁, _ | ⟨atExternals₁, _ | ⟨atRules₁, rest₁⟩⟩⟩ := course₁.traverses
  obtain _ | ⟨atName₂, _ | ⟨atExternals₂, _ | ⟨atRules₂, rest₂⟩⟩⟩ := course₂.traverses
  obtain ⟨names₁, stores₁⟩ := idle_of_yields_name atName₁
  obtain ⟨names₂, stores₂⟩ := idle_of_yields_name atName₂
  have named : Journal.Match Eq _ _ :=
    ⟨names₁.trans (course₁.undeclared.trans (names₂.trans course₂.undeclared).symm),
      stores₁.trans (course₁.unchanged.trans (stores₂.trans course₂.unchanged).symm)⟩
  have first₁ := Traverses.cons atName₁ (.nil _)
  have first₂ := Traverses.cons atName₂ (.nil _)
  have visit₁ := course₁.visit rfl first₁ atExternals₁ (.cons atRules₁ rest₁)
  have visit₂ := course₂.visit rfl first₂ atExternals₂ (.cons atRules₂ rest₂)
  rw [given_of_reaches anew₁ still₁ (first₁.reaches course₁.reaches).1] at visit₁
  rw [given_of_reaches anew₂ still₂ (first₂.reaches course₂.reaches).1] at visit₂
  obtain ⟨declared, sameExternals⟩ :=
    visit₁.agree visit₂ (goThrough_congr externals) (setting.uniform_goThrough _ _) named
  have second₁ := Traverses.cons atName₁ (.cons atExternals₁ (.nil _))
  have second₂ := Traverses.cons atName₂ (.cons atExternals₂ (.nil _))
  have visit₁ := course₁.visit rfl second₁ atRules₁ rest₁
  have visit₂ := course₂.visit rfl second₂ atRules₂ rest₂
  rw [given_of_reaches anew₁ still₁ (second₁.reaches course₁.reaches).1] at visit₁
  rw [given_of_reaches anew₂ still₂ (second₂.reaches course₂.reaches).1] at visit₂
  obtain ⟨defined, sameRules⟩ :=
    visit₁.agree visit₂ (goThrough_congr rules) (setting.uniform_goThrough _ _) declared
  exact ⟨_, _, defined, .cons atName₁ (.cons atExternals₁ (.cons atRules₁ (.nil _))),
    .cons atName₂ (.cons atExternals₂ (.cons atRules₂ (.nil _))), rest₁, rest₂, sameExternals,
    sameRules⟩

/-- Passing through sections after the rules declares nothing. -/
theorem Traverses.names_eq {fields : Section → Value Code} {parts : List Section}
    {before after : Journal Code}
    (h : setting.Traverses description .collect fields parts before after)
    (reached : setting.Reaches description store before.store)
    (hp : ∀ part ∈ parts, part ∈ Section.afterRules) : after.names = before.names := by
  have undeclared : ∀ part ∈ Section.afterRules, part ∉ [Section.externals, .rules] := by decide
  exact (h.reaches reached).2 fun part found ↦ undeclared part (hp part found)

/-- Sections after the rules do not interfere. If two descriptions give the same for the externals
and for the rules, then builds of them that collect all problems end with the same names, and they
come to the same externals and rules and report the same problems there. For every later section
for which the descriptions give the same, they come to the same and report the same problems,
whatever else the descriptions give and in whatever order. The functions that the descriptions
give must be pure. -/
theorem agree_of_collect {g₁ g₂ : Grammar (Value Code)}
    (collected₁ : setting.collect description₁ store = (.ok g₁, after₁))
    (collected₂ : setting.collect description₂ store = (.ok g₂, after₂))
    (anew₁ : setting.Anew description₁ store) (anew₂ : setting.Anew description₂ store)
    (pure₁ : setting.GivesPure description₁ store) (pure₂ : setting.GivesPure description₂ store)
    (externals : Description.get (Description.given description₁ store) .externals =
      Description.get (Description.given description₂ store) .externals)
    (rules : Description.get (Description.given description₁ store) .rules =
      Description.get (Description.given description₂ store) .rules) :
    after₁.names = after₂.names ∧
      (∀ part ∈ [Section.externals, .rules],
        g₁.fields part = g₂.fields part ∧ after₁.problemsIn part = after₂.problemsIn part) ∧
      ∀ part ∈ Section.afterRules,
        Description.get (Description.given description₁ store) part =
            Description.get (Description.given description₂ store) part →
          g₁.fields part = g₂.fields part ∧
            after₁.problemsIn part = after₂.problemsIn part := by
  obtain ⟨start₁, finish₁, course₁⟩ := exists_course collected₁
  obtain ⟨start₂, finish₂, course₂⟩ := exists_course collected₂
  have still₁ : setting.GivesStill description₁ store := fun f gives ↦ (pure₁ f gives).still
  have still₂ : setting.GivesStill description₂ store := fun f gives ↦ (pure₂ f gives).still
  obtain ⟨middle₁, middle₂, defined, upTo₁, upTo₂, rest₁, rest₂, sameExternals, sameRules⟩ :=
    agree_upTo_rules anew₁ anew₂ still₁ still₂ course₁ course₂ externals rules
  have reached₁ := (upTo₁.reaches course₁.reaches).1
  have reached₂ := (upTo₂.reaches course₂.reaches).1
  refine ⟨?_, ?_, ?_⟩
  · rw [course₁.names, course₂.names, rest₁.names_eq reached₁ fun _ ↦ id,
      rest₂.names_eq reached₂ fun _ ↦ id]
    exact defined.names
  · exact List.forall_mem_cons.2 ⟨sameExternals, List.forall_mem_singleton.2 sameRules⟩
  · intro part hp given
    obtain ⟨earlier, later, split⟩ := List.append_of_mem hp
    have before : ∀ part ∈ earlier, part ∈ Section.afterRules := by
      intro part found
      rw [split]
      exact List.mem_append_left _ found
    have all : Section.all = (Section.upToRules ++ earlier) ++ part :: later := by
      rw [List.append_assoc, ← split]
      rfl
    rw [split] at rest₁ rest₂
    obtain ⟨before₁, earlier₁, _ | ⟨gone₁, later₁⟩⟩ := traverses_append.1 rest₁
    obtain ⟨before₂, earlier₂, _ | ⟨gone₂, later₂⟩⟩ := traverses_append.1 rest₂
    -- The two stores may differ by now, but only by copies.
    have alike₁ := alike_of_still anew₁ still₁ (earlier₁.reaches reached₁).1
    have alike₂ := alike_of_still anew₂ still₂ (earlier₂.reaches reached₂).1
    have matched : before₁.Match (Store.Alike setting.Sees) before₂ := by
      refine ⟨?_, alike₁.symm.trans alike₂⟩
      rw [earlier₁.names_eq reached₁ before, earlier₂.names_eq reached₂ before]
      exact defined.names
    have steady := steady_goThrough hp (anew₁.base part) (anew₁.given part)
      fun f callable ↦ pure₁ f (.inl ⟨part, callable⟩)
    have visit₁ := course₁.visit all (traverses_append.2 ⟨_, upTo₁, earlier₁⟩) gone₁ later₁
    have visit₂ := course₂.visit all (traverses_append.2 ⟨_, upTo₂, earlier₂⟩) gone₂ later₂
    rw [anew₁.given_eq alike₁] at visit₁
    rw [anew₂.given_eq alike₂] at visit₂
    exact (visit₁.agree visit₂ (goThrough_congr given) steady matched).2

/-- Sections after the rules do not interfere. If two descriptions give the same for the externals
and for the rules, then builds of them that collect all problems end with the same names, and they
come to the same externals and rules and report the same problems there. For every later section
for which the descriptions give the same, they come to the same and report the same problems,
whatever else the descriptions give and in whatever order. The functions that the descriptions
give must be pure. The builds take place at different places, so what is new in the one comes again
in the other. -/
theorem agree_of_repeats {ρ : Relocation Code} {first second : Setting Code}
    {g₁ g₂ : Grammar (Value Code)} {after₁ after₂ : Journal Code}
    (collected₁ : first.collect description₁ store = (.ok g₁, after₁))
    (collected₂ : second.collect description₂ store = (.ok g₂, after₂))
    (repeats : first.Repeats ρ second description₂ store)
    (policy : second.extraReferences = first.extraReferences)
    (anew₁ : first.Anew description₁ store) (anew₂ : first.Anew description₂ store)
    (pure₁ : first.GivesPure description₁ store) (pure₂ : first.GivesPure description₂ store)
    (externals : Description.get (Description.given description₁ store) .externals =
      Description.get (Description.given description₂ store) .externals)
    (rules : Description.get (Description.given description₁ store) .rules =
      Description.get (Description.given description₂ store) .rules) :
    Namespace.Reappears ρ after₁.names after₂.names ∧
      (∀ part ∈ [Section.externals, .rules], (g₁.fields part).Reappears ρ (g₂.fields part) ∧
        Problem.ReappearAll ρ (after₁.problemsIn part) (after₂.problemsIn part)) ∧
      ∀ part ∈ Section.afterRules,
        Description.get (Description.given description₁ store) part =
            Description.get (Description.given description₂ store) part →
          (g₁.fields part).Reappears ρ (g₂.fields part) ∧
            Problem.ReappearAll ρ (after₁.problemsIn part) (after₂.problemsIn part) := by
  obtain ⟨g, after, collected, rfl, rfl⟩ := repeats.exists_collect policy collected₂
  obtain ⟨names, declaring, later⟩ :=
    agree_of_collect collected₁ collected anew₁ anew₂ pure₁ pure₂ externals rules
  have again {part : Section} (same : g₁.fields part = g.fields part ∧
      after₁.problemsIn part = after.problemsIn part) :
      (g₁.fields part).Reappears ρ ((Value.movedGrammar ρ g).fields part) ∧
        Problem.ReappearAll ρ (after₁.problemsIn part) ((after.moved ρ).problemsIn part) := by
    rw [Grammar.fields_moved, Journal.problemsIn_moved, same.1, same.2]
    exact ⟨Value.reappears_moved ρ _, Problem.reappearAll_map_moved ρ _⟩
  exact ⟨names ▸ Namespace.reappears_map_moved ρ after.names,
    fun part hp ↦ again (declaring part hp), fun part hp given ↦ again (later part hp given)⟩

/-- A rule may be a field that has the builder for its name. Two builds of one and the same
description, of pure functions, then come to rules that are not equal, since the builds have
different builders. -/
theorem exists_not_equal_rules :
    let setting (step : Nat) : Setting Response := Response.setting step .missing
    let description : Value Response := .mapping ⟨.step 0, [(.string "name", .string "g"),
      (.string "rules", .mapping ⟨(Place.step 0).part "rules",
        [(.string "a", Response.function .field "a")], false⟩)], false⟩
    ∃ g₁ g₂ after₁ after₂, (setting 1).collect description {} = (.ok g₁, after₁) ∧
      (setting 2).collect description {} = (.ok g₂, after₂) ∧
      (g₁.fields .rules).compare (g₂.fields .rules) = some false := by
  intro setting description
  have differ : ((setting 1).collect description {}).1.toOption.any (fun g₁ ↦
      ((setting 2).collect description {}).1.toOption.any fun g₂ ↦
        (g₁.fields .rules).compare (g₂.fields .rules) == some false) = true := by
    decide +kernel
  obtain ⟨g₁, collected₁, differ⟩ := Build.exists_eq_ok_of_any differ
  obtain ⟨g₂, collected₂, differ⟩ := Build.exists_eq_ok_of_any differ
  exact ⟨g₁, g₂, _, _, collected₁, collected₂, beq_iff_eq.1 differ⟩

private theorem pure_of_responds {step : Nat} {base : Value Response} {response : Response}
    {name : String} {f : Callable (Value Response) Response}
    (responds : Response.function response name = .callable f) :
    (Response.setting step base).Pure f := by
  refine ⟨fun place offered store ↦ ?_, fun place offered store other _ _ ↦ ?_,
    fun place offered store v sees _ ok ↦ ?_⟩
  · rw [Response.start_call responds, Response.store_run]
  · rw [Response.start_call responds, Response.start_call responds]
    cases response <;> rfl
  · rw [Response.start_call responds] at ok
    have builder : (Response.setting step base).builder.InSight (Response.setting step base).Sees :=
      List.forall_mem_nil _
    cases response with
    | builder =>
      cases ok
      exact builder
    | other =>
      cases ok
      exact sees
    | field =>
      cases ok
      exact List.forall_mem_nil _
    | problem => cases ok

/-- The supertypes are the same, and so is what is reported there, although one description gives
inline names, which are wrong, and the other inherits them and gives a word that is wrong. In both
builds the supertypes are what their function is passed. A rule has the builder in it, which is
another one in the second build. -/
theorem agree_of_repeats_supertypes :
    let made (title : String) : Place := (Place.step 0).part title
    let list (title : String) (items : List (Value Response)) : Items (Value Response) :=
      ⟨made title, items, false⟩
    let base : Grammar (Value Response) := { Grammar.single (made "base") with
      inline := list "inline" [.string "a"]
      supertypes := list "supertypes" [.string "a", .string "b"] }
    let setting (step : Nat) : Setting Response := Response.setting step (.grammar base)
    let rules : Value Response :=
      .mapping ⟨made "rules", [(.string "c", Response.function .field "c")], false⟩
    let types : Value Response := Response.function .other "types"
    let description₁ : Value Response := .mapping ⟨made "first", [(.string "name", .string "h"),
      (.string "rules", rules), (.string "inline", .int 5), (.string "supertypes", types)], false⟩
    let description₂ : Value Response := .mapping ⟨made "second", [(.string "supertypes", types),
      (.string "word", .string "d"), (.string "rules", rules)], false⟩
    ∃ (g₁ g₂ : Grammar (Value Response)) (after₁ after₂ : Journal Response),
      (setting 1).collect description₁ {} = (.ok g₁, after₁) ∧
      (setting 2).collect description₂ {} = (.ok g₂, after₂) ∧
      g₁.inline.toList.length ≠ g₂.inline.toList.length ∧
      (g₁.fields .rules).Reappears Response.exchange (g₂.fields .rules) ∧
      (g₁.fields .supertypes).Reappears Response.exchange (g₂.fields .supertypes) ∧
      Problem.ReappearAll Response.exchange (after₁.problemsIn .supertypes)
        (after₂.problemsIn .supertypes) ∧
      after₂.problemsIn .supertypes ≠ [] ∧ after₁.problemsIn .word ≠ after₂.problemsIn .word := by
  intro made list base setting rules types description₁ description₂
  have returns₁ : ((setting 1).collect description₁ {}).1.toOption.any (fun g ↦
      g.inline.toList.isEmpty &&
        (((setting 1).collect description₁ {}).2.problemsIn .word).isEmpty) = true := by
    decide +kernel
  have returns₂ : ((setting 2).collect description₂ {}).1.toOption.any (fun g ↦
      g.inline.toList.length == 1 &&
        !(((setting 2).collect description₂ {}).2.problemsIn .word).isEmpty &&
        !(((setting 2).collect description₂ {}).2.problemsIn .supertypes).isEmpty) = true := by
    decide +kernel
  obtain ⟨g₁, collected₁, returns₁⟩ := Build.exists_eq_ok_of_any returns₁
  obtain ⟨g₂, collected₂, returns₂⟩ := Build.exists_eq_ok_of_any returns₂
  have starts (description : Value Response)
      (sees : ∀ place ∈ description.places, (setting 1).Sees place)
      (given : Description.get (Description.given description {}) .rules = rules)
      (plain : ∀ part f,
        (Description.get (Description.given description {}) part).callable? = some f →
          Response.function .other "types" = .callable f) :
      (setting 1).Anew description {} ∧ (setting 1).GivesPure description {} := by
    refine ⟨⟨fun part v attributed ↦ ?_, sees, .empty⟩, ?_⟩
    · cases (base.attribute?_title part).symm.trans attributed
      intro place found source other
      cases part <;> simp [base, Grammar.single, list, made, Grammar.fields, Section.each,
        Value.places, Value.placesOfList, Value.placesOfItems, Value.placesOfMapping,
        Value.placesOfEntries, Value.placesOfRule] at found
      all_goals simp [found]
    · rintro f (⟨part, callable⟩ | ⟨definitions, object, entry, he, callable⟩)
      · exact pure_of_responds (plain part f callable)
      · have same : (setting 1).givenRules (Description.given description {}) = rules := by
          rw [givenRules, given]
        rw [same] at object
        cases object
        obtain rfl := List.mem_singleton.1 he
        cases callable
        exact pure_of_responds (rfl : Response.function .field "c" = _)
  have given (table : Table Response (Value Response)) (place : Place) (part : Section) :
      Description.get (Description.given (.mapping ⟨place, table, false⟩) {}) part =
        (table.find? (.string part.title)).getD .missing := rfl
  have plain₁ (part : Section) (f : Callable (Value Response) Response)
      (callable : (Description.get (Description.given description₁ {}) part).callable? = some f) :
      Response.function .other "types" = .callable f := by
    cases part <;> simp [description₁, given, Section.title, Value.callable?, rules, types,
      Response.function] at callable ⊢
    exact callable
  have plain₂ (part : Section) (f : Callable (Value Response) Response)
      (callable : (Description.get (Description.given description₂ {}) part).callable? = some f) :
      Response.function .other "types" = .callable f := by
    cases part <;> simp [description₂, given, Section.title, Value.callable?, rules, types,
      Response.function] at callable ⊢
    exact callable
  have sees₁ : ∀ place ∈ description₁.places, (setting 1).Sees place := by
    intro place found
    simp [description₁, rules, types, Response.function, Value.places, Value.placesOfMapping,
      Value.placesOfEntries] at found
    rcases found with rfl | rfl
    · exact sees_part _ _
    · exact sees_part _ _
  have sees₂ : ∀ place ∈ description₂.places, (setting 1).Sees place := by
    intro place found
    simp [description₂, rules, types, Response.function, Value.places, Value.placesOfMapping,
      Value.placesOfEntries] at found
    rcases found with rfl | rfl
    · exact sees_part _ _
    · exact sees_part _ _
  obtain ⟨anew₁, pure₁⟩ := starts description₁ sees₁ (by simp [description₁, given, Section.title])
    plain₁
  obtain ⟨anew₂, pure₂⟩ := starts description₂ sees₂ (by simp [description₂, given, Section.title])
    plain₂
  obtain ⟨-, declaring, later⟩ := agree_of_repeats collected₁ collected₂
    (Response.repeats_setting _ _ rfl rfl) rfl anew₁ anew₂ pure₁ pure₂
    (by simp [description₁, description₂, given, Section.title])
    (by simp [description₁, description₂, given, Section.title])
  obtain ⟨same, reported⟩ := later .supertypes (by decide)
    (by simp [description₁, description₂, given, Section.title])
  simp only [Bool.and_eq_true, List.isEmpty_iff, beq_iff_eq, Bool.not_eq_true',
    List.isEmpty_eq_false_iff] at returns₁ returns₂
  refine ⟨g₁, g₂, _, _, collected₁, collected₂, ?_, (declaring .rules (by decide)).1, same,
    reported, returns₂.2, ?_⟩
  · rw [returns₁.1, returns₂.1.1]
    decide
  · rw [returns₁.2]
    exact returns₂.1.2.symm

end Setting

end GrammarDoc
