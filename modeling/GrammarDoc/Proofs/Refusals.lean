import GrammarDoc.Proofs.Addition
import GrammarDoc.Proofs.Likeness
import GrammarDoc.Proofs.Originals
import GrammarDoc.Proofs.Policies
import GrammarDoc.Proofs.Styles

/-!
# Functions that refuse

If the function of a section raises a problem, that is reported, and the section keeps what the
function was passed. The main statement is that this costs one problem and nothing else: the build
goes on as if the function had returned what it was passed, which without a base comes to the same
as if nothing had been given for the section.
-/

namespace GrammarDoc

open Build (Yields MadeOf Uniform)

variable {Code : Type} {part : Section}

/-! ### Descriptions that differ in one section -/

private theorem Section.ne_of_all_eq {earlier later : List Section}
    (split : all = earlier ++ part :: later) :
    (∀ other ∈ earlier, other ≠ part) ∧ ∀ other ∈ later, other ≠ part :=
  List.forall_mem_append.1 fun _ mem ↦ ne_of_mem_of_not_mem mem (Setting.not_mem_of_all_eq split)

private theorem Section.title_ne {part other : Section} (ne : other ≠ part) :
    (Value.string part.title : Value Code).same (.string other.title) = false := by
  rw [← Bool.not_eq_true, Value.string_same, Value.string.injEq]
  revert ne
  cases part <;> cases other <;> simp [Section.title]

private theorem Section.isValidName_title (part : Section) :
    (Value.string part.title : Value Code).isValidName = true := by
  change Text.isIdentifier part.title = true
  cases part <;> decide

namespace Description

/-- In some stores, two descriptions give the same for all sections but one, and the same is wrong
with them. -/
structure SameBut (stores : Store Code → Prop) (part : Section) (description other : Value Code) :
    Prop where
  opening : ∀ store, stores store → problems description store = problems other store
  others : ∀ store, stores store → ∀ another ≠ part,
    get (given description store) another = get (given other store) another

/-- Entries without those of a section. -/
def without (entries : Table Code (Value Code)) (part : Section) : Table Code (Value Code) :=
  entries.filter fun entry ↦ !(Value.string part.title).same entry.1

variable (entries : Table Code (Value Code))

private theorem get_without_self (part : Section) : get (without entries part) part = .missing := by
  have none : (without entries part).find? (.string part.title) = none := by
    rw [Table.find?, Option.map_eq_none_iff, List.find?_eq_none]
    intro entry he
    simpa using (List.mem_filter.1 he).2
  rw [get, none]
  rfl

private theorem get_without_of_ne {other : Section} (ne : other ≠ part) :
    get (without entries part) other = get entries other := by
  have same (entry : Value Code × Value Code) : (!(Value.string part.title).same entry.1 &&
      (Value.string other.title).same entry.1) = (Value.string other.title).same entry.1 := by
    cases found : (Value.string other.title : Value Code).same entry.1 with
    | false => rw [Bool.and_false]
    | true =>
      rw [(Value.string_same _ _).1 found, Section.title_ne ne]
      rfl
  rw [get, get, Table.find?, Table.find?, without, List.find?_filter]
  simp only [Bool.decide_and, Bool.decide_eq_true, same]

private theorem isSection_title (part : Section) :
    isSection (.string part.title : Value Code) = true :=
  (Value.string_isIn _ _).2 (List.mem_map_of_mem (Setting.mem_all part))

private theorem filter_keys_without (part : Section) :
    (without entries part).keys.filter (fun key ↦ !isSection key) =
      entries.keys.filter fun key ↦ !isSection key := by
  have same (entry : Value Code × Value Code) : (!isSection entry.1 &&
      !(Value.string part.title).same entry.1) = !isSection entry.1 := by
    cases found : (Value.string part.title : Value Code).same entry.1 with
    | false => rw [Bool.not_false, Bool.and_true]
    | true =>
      rw [(Value.string_same _ _).1 found, isSection_title]
      rfl
  rw [Table.keys, Table.keys, List.filter_map, List.filter_map, without, List.filter_filter]
  simp only [Function.comp_def, same]

private theorem filter_keys_insert (part : Section) (v : Value Code) :
    (entries.insert (.string part.title) v).keys.filter (fun key ↦ !isSection key) =
      entries.keys.filter fun key ↦ !isSection key := by
  rw [Table.keys_insert]
  split
  · rfl
  · rw [List.filter_append, List.filter_cons_of_neg (by simp [isSection_title])]
    exact List.append_nil _

variable {description other : Value Code} {stores : Store Code → Prop}

/-- Descriptions are the same but for a section if their entries are. -/
theorem sameBut_of_object
    (both : ∀ store, stores store → ∃ entries others : Table Code (Value Code),
      (store.read description).object? = some entries ∧
      (store.read other).object? = some others ∧
      others.keys.filter (fun key ↦ !isSection key) =
        entries.keys.filter (fun key ↦ !isSection key) ∧
      ∀ another ≠ part, get others another = get entries another) :
    SameBut stores part description other := by
  refine ⟨fun store hs ↦ ?_, fun store hs another ne ↦ ?_⟩
  · obtain ⟨entries, others, first, second, keys, -⟩ := both store hs
    unfold problems given
    rw [first, second, Option.getD_some, Option.getD_some, keys]
    rfl
  · obtain ⟨entries, others, first, second, -, same⟩ := both store hs
    unfold given
    rw [first, second]
    exact (same another ne).symm

/-- A section may be left out of a description. -/
theorem sameBut_without (both : ∀ store, stores store → ∃ entries,
      (store.read description).object? = some entries ∧
        (store.read other).object? = some (without entries part)) :
    SameBut stores part description other ∧
      ∀ store, stores store → get (given other store) part = .missing := by
  refine ⟨sameBut_of_object fun store hs ↦ ?_, fun store hs ↦ ?_⟩
  · obtain ⟨entries, first, second⟩ := both store hs
    exact ⟨entries, _, first, second, filter_keys_without entries part, fun another ne ↦
      get_without_of_ne entries ne⟩
  · obtain ⟨entries, -, second⟩ := both store hs
    rw [given, second]
    exact get_without_self entries part

/-- A section may be set in a description. -/
theorem sameBut_insert {v : Value Code}
    (both : ∀ store, stores store → ∃ entries : Table Code (Value Code),
      (store.read description).object? = some entries ∧
        (store.read other).object? = some (entries.insert (.string part.title) v)) :
    SameBut stores part description other ∧
      ∀ store, stores store → get (given other store) part = v := by
  have valid (part : Section) : (Value.string part.title : Value Code).isValidName = true :=
    part.isValidName_title
  refine ⟨sameBut_of_object fun store hs ↦ ?_, fun store hs ↦ ?_⟩
  · obtain ⟨entries, first, second⟩ := both store hs
    refine ⟨entries, _, first, second, filter_keys_insert entries part v, fun another ne ↦ ?_⟩
    rw [get, get, Table.find?_insert_of_ne _ _ (valid part) (valid another) fun eq ↦ ?_]
    have apart : (Value.string part.title : Value Code).same (.string another.title) = false :=
      Section.title_ne ne
    rw [← eq, (Value.string_same _ _).2 rfl] at apart
    cases apart
  · obtain ⟨entries, -, second⟩ := both store hs
    rw [given, second, get, Option.getD_some, Table.find?_insert_self _ _ (valid part)]
    rfl

end Description

/-! ### One problem more -/

/-- Of two journals with the same names and the same store, the first is ahead by a problem that it
reports first in a section. Otherwise they have the same lines. -/
structure Journal.IsAhead (part : Section) (p : Problem Code) (first second : Journal Code) :
    Prop where
  matched : first.Match Eq second
  lines : ∃ earlier grammar later, Entry.problemsIn part false earlier = [] ∧
    first.entries = earlier ++ .began part grammar :: .reported p :: later ∧
    second.entries = earlier ++ .began part grammar :: later

namespace Journal.IsAhead

variable {p : Problem Code} {first second first' second' : Journal Code}

private theorem adds {lines : List (Entry Code)} (h : first.IsAhead part p second)
    (adds₁ : first.Adds lines first') (adds₂ : second.Adds lines second')
    (matched : first'.Match Eq second') : first'.IsAhead part p second' := by
  obtain ⟨earlier, grammar, later, none, eq₁, eq₂⟩ := h.lines
  refine ⟨matched, earlier, grammar, later ++ lines, none, ?_, ?_⟩
  · rw [adds₁.entries, eq₁, List.append_assoc, List.cons_append, List.cons_append]
  · rw [adds₂.entries, eq₂, List.append_assoc, List.cons_append]

private theorem begun (h : first.IsAhead part p second) (fields : Section → Value Code)
    (other : Section) :
    (first.begun fields other).IsAhead part p (second.begun fields other) := by
  have began (grammar : Option (Value Code)) :
      (first.began other grammar).IsAhead part p (second.began other grammar) :=
    h.adds (first.adds_began other grammar) (second.adds_began other grammar)
      ⟨h.matched.names, h.matched.stores⟩
  have announced : (first.announced other (fields .name)).IsAhead part p
      (second.announced other (fields .name)) := by
    unfold announced
    rw [h.matched.stores]
    exact began _
  cases other with
  | name => exact began none
  | externals | rules | extras | inline | conflicts | word | supertypes | precedences =>
    exact announced

/-- What can be done from the journal that is ahead can be done from the other one, and comes to the
same. -/
theorem exists_yields {α : Type} {step : Build Code α} {Q : α → Prop} {a : α}
    (h : first.IsAhead part p second) (uniform : Uniform Eq step Q)
    (yields : Yields .collect step first a first') :
    ∃ second', Yields .collect step second a second' ∧ first'.IsAhead part p second' := by
  obtain ⟨lines, outcome, -, adds₁, adds₂, matched⟩ := (uniform first second h.matched).1
  rw [yields] at outcome adds₁ matched
  exact ⟨(Build.start step .collect second).2, Prod.ext outcome.symm rfl,
    h.adds adds₁ adds₂ matched⟩

/-- The problem is the first in its section, and all others are reported in both journals. -/
theorem problemsIn (h : first.IsAhead part p second) :
    first.problemsIn part = p :: second.problemsIn part ∧
      ∀ other ≠ part, first.problemsIn other = second.problemsIn other := by
  obtain ⟨earlier, grammar, later, none, eq₁, eq₂⟩ := h.lines
  unfold Journal.problemsIn
  rw [eq₁, eq₂]
  constructor
  · rw [Entry.problemsIn_append_began, Entry.problemsIn_append_began, none, decide_eq_true rfl]
    rfl
  · intro other ne
    rw [Entry.problemsIn_append_began, Entry.problemsIn_append_began,
      decide_eq_false (Ne.symm ne)]
    rfl

end Journal.IsAhead

namespace Setting

variable {setting : Setting Code} {entries entries₁ entries₂ : Table Code (Value Code)}
  {fields : Section → Value Code} {before after before₁ before₂ after₁ : Journal Code}
  {description : Value Code} {store : Store Code} {p : Problem Code}

/-- Sections are also passed through if another description gives the same for them whenever one of
them is begun. -/
theorem Traverses.of_same {parts : List Section} {other : Value Code}
    (same : ∀ later, setting.Reaches description store later → ∀ part ∈ parts,
      Description.get (Description.given description later) part =
        Description.get (Description.given other later) part)
    (reached : setting.Reaches description store before.store)
    (h : setting.Traverses description .collect fields parts before after) :
    setting.Traverses other .collect fields parts before after := by
  induction h with
  | nil journal => exact .nil journal
  | @cons part rest before between after gone _ ih =>
    have here := same _ reached part List.mem_cons_self
    have found : setting.Finds description store (Description.given description before.store)
        (before.begun fields part).store := by
      rw [before.store_begun]
      exact ⟨reached, rfl⟩
    have next := (reaches_of_yields_goThrough gone found).1
    rw [goThrough_congr here] at gone
    exact .cons gone
      (ih (fun later reached part mem ↦ same later reached part (List.mem_cons_of_mem _ mem)) next)

/-- A journal stays ahead when sections are passed through. -/
theorem Traverses.exists_of_isAhead {parts : List Section}
    (h : setting.Traverses description .collect fields parts before₁ after₁)
    (ahead : before₁.IsAhead part p before₂) :
    ∃ after₂, setting.Traverses description .collect fields parts before₂ after₂ ∧
      after₁.IsAhead part p after₂ := by
  induction h generalizing before₂ with
  | nil journal => exact ⟨before₂, .nil before₂, ahead⟩
  | @cons other rest before₁ between₁ after₁ gone _ ih =>
    obtain ⟨between₂, gone₂, further⟩ :=
      (ahead.begun fields other).exists_yields (setting.uniform_goThrough _ other) gone
    obtain ⟨after₂, passed, last⟩ := ih further
    rw [ahead.matched.stores] at gone₂
    exact ⟨after₂, .cons gone₂ passed, last⟩

/-- Reporting a problem when a section is begun puts the journal ahead. -/
theorem isAhead_reported (begins : setting.Begins .collect description { store } part before)
    (p : Problem Code) : (before.reported p).IsAhead part p before := by
  obtain ⟨fields, start, journal, opened, traverses, rfl⟩ := begins
  obtain ⟨-, rfl⟩ := opened.unique (Description.yields_opening description)
  have outside : ∀ line ∈ (({ store } : Journal Code).reporting
      (Description.problems description store)).entries, line.IsWithin := by
    rw [Journal.reporting, List.nil_append]
    exact Entry.isWithin_reported _
  have once : part ∉ part.earlier := fun mem ↦
    not_mem_of_all_eq part.all_eq (List.mem_append_left part.later mem)
  obtain ⟨lines, adds, others, -⟩ := traverses.exists_adds
  have none : Entry.problemsIn part false journal.entries = [] := by
    have nothing := (others part once).2 []
    rw [List.append_nil] at nothing
    rw [adds.entries, Entry.problemsIn_append outside, nothing]
    rfl
  obtain ⟨grammar, begun⟩ := journal.exists_begun fields part
  rw [begun]
  exact ⟨⟨rfl, rfl⟩, journal.entries, grammar, [], none, List.append_assoc _ _ _, rfl⟩

end Setting

/-- Of two builds that leave the same names and the same store, the first has reported a problem
more. Both have reported some problems with the description itself, and then those of one section
after another; the further problem comes first in a section. -/
structure Journal.OneMore (outside : List (Problem Code)) (part : Section) (p : Problem Code)
    (first second : Journal Code) : Prop where
  names : first.names = second.names
  store : first.store = second.store
  here : first.problemsIn part = p :: second.problemsIn part
  others : ∀ other ≠ part, first.problemsIn other = second.problemsIn other
  problems : ∀ earlier later, Section.all = earlier ++ part :: later →
    first.problems = (outside ++ earlier.flatMap second.problemsIn) ++
      p :: (second.problemsIn part ++ later.flatMap second.problemsIn) ∧
    second.problems = (outside ++ earlier.flatMap second.problemsIn) ++
      (second.problemsIn part ++ later.flatMap second.problemsIn)

namespace Setting

variable {setting : Setting Code} {fields : Section → Value Code}
  {before after start finish : Journal Code} {description other : Value Code} {store : Store Code}
  {p : Problem Code}

/-- A build that goes its course ahead of another one has reported a problem more. -/
theorem Course.oneMore {g h : Grammar (Value Code)} {finish' after' : Journal Code}
    (course : setting.Course description store g.fields start finish after)
    (course' : setting.Course other store h.fields start finish' after')
    (collected : setting.collect description store = (.ok g, after))
    (collected' : setting.collect other store = (.ok h, after'))
    (ahead : finish.IsAhead part p finish') :
    after.OneMore (Description.problems description store) part p after' := by
  obtain ⟨-, rfl⟩ := course.begins.unique (Description.yields_opening description)
  obtain ⟨here, others⟩ := ahead.problemsIn
  rw [← course.problemsIn, ← course'.problemsIn] at here
  have others : ∀ another ≠ part, after.problemsIn another = after'.problemsIn another :=
    fun another ne ↦ by rw [course.problemsIn, course'.problemsIn, others another ne]
  refine ⟨?_, ?_, here, others, fun earlier later split ↦ ?_⟩
  · rw [course.names, course'.names, ahead.matched.names]
  · rw [course.store_eq collected, course'.store_eq collected', ahead.matched.stores]
  · have apart := Section.ne_of_all_eq split
    have before : earlier.flatMap after.problemsIn = earlier.flatMap after'.problemsIn :=
      List.flatMap_congr fun another mem ↦ others another (apart.1 another mem)
    have behind : later.flatMap after.problemsIn = later.flatMap after'.problemsIn :=
      List.flatMap_congr fun another mem ↦ others another (apart.2 another mem)
    rw [course.problems_eq, course'.problems_eq, split, List.flatMap_append, List.flatMap_append,
      List.flatMap_cons, List.flatMap_cons, before, behind, here]
    simp [Journal.reporting]

/-- If going through one section puts a build ahead of a build of another description, which gives
the same for all other sections, that build returns as well and differs in nothing else. -/
theorem Course.exists_oneMore {g : Grammar (Value Code)} {w : Value Code}
    (course : setting.Course description store g.fields start finish after)
    (collected : setting.collect description store = (.ok g, after)) (named : part ≠ .name)
    (same : Description.SameBut (setting.Reaches description store) part description other)
    (ahead : ∀ journal between, setting.Begins .collect description { store } part journal →
      Yields .collect (setting.goThrough (Description.given description journal.store) part) journal
        (g.fields part) between →
      ∃ between', Yields .collect (setting.goThrough (Description.given other journal.store) part)
        journal w between' ∧ between.IsAhead part p between') :
    ∃ h after', setting.collect other store = (.ok h, after') ∧
      h.fields = Function.update g.fields part w ∧
      after.OneMore (Description.problems description store) part p after' := by
  obtain ⟨journal, begins⟩ := course.exists_begins part
  obtain ⟨before, between, rfl, first, visit, last⟩ := course.exists_visit begins
  have gone := visit.gone
  rw [← before.store_begun g.fields part] at gone
  obtain ⟨between', gone', ahead⟩ := ahead _ _ begins gone
  rw [before.store_begun] at gone'
  have apart := Section.ne_of_all_eq part.all_eq
  have kept {another : Section} (ne : another ≠ part) :
      g.fields another = Function.update g.fields part w another :=
    (Function.update_of_ne ne w g.fields).symm
  have updated {parts : List Section} (apart : ∀ another ∈ parts, another ≠ part) :
      ∀ another ∈ .name :: parts, g.fields another = Function.update g.fields part w another :=
    List.forall_mem_cons.2 ⟨kept (Ne.symm named), fun another mem ↦ kept (apart another mem)⟩
  -- Up to the section both builds are the same, and after it one stays ahead.
  have first' := (first.of_same (fun later reached another mem ↦
    same.others later reached another (apart.1 another mem)) course.reaches).congr (updated apart.1)
  have reached : setting.Reaches description store between.store :=
    (reaches_of_yields_goThrough gone ⟨begins.reaches, rfl⟩).1
  have last := last.of_same (fun later reached another mem ↦
    same.others later reached another (apart.2 another mem)) reached
  rw [← Function.update_self part w g.fields,
    before.begun_congr fun _ ↦ kept (Ne.symm named)] at gone'
  obtain ⟨finish', last', ahead⟩ := last.exists_of_isAhead ahead
  have all : setting.Traverses other .collect (Function.update g.fields part w) Section.all start
      finish' :=
    part.all_eq ▸ traverses_append.2 ⟨before, first', .cons gone' (last'.congr (updated apart.2))⟩
  obtain ⟨-, rfl⟩ := course.begins.unique (Description.yields_opening description)
  rw [same.opening store .start] at all
  obtain ⟨h, after', collected', fields, course'⟩ :=
    exists_course_of_traverses (Description.yields_opening other) all
  rw [← same.opening store .start, ← fields] at course'
  exact ⟨h, after', collected', fields, course.oneMore course' collected collected' ahead⟩

end Setting

/-! ### The section of a function -/

namespace Setting

variable (setting : Setting Code)

/-- What a section comes to if nothing is given for it and no grammar is extended. Externals are
then in the list that a function would be passed, not in one that results from checking. -/
def unset (role : String) (part : Section) : Value Code :=
  match part with
  | .externals => .list { place := setting.made role "externals", toList := [] }
  | .word => .missing
  | .extras => .list {
      place := setting.made "result" "extras"
      toList := [.rule Extras.blankCharacter] }
  | part => .list { place := setting.made "result" part.title, toList := [] }

/-- The name of a function is not declared when the word is begun, so that it would be called. -/
def CallsFor (description : Value Code) (store : Store Code) (part : Section)
    (f : Callable (Value Code) Code) : Prop :=
  part = .word → ∀ before, setting.Begins .collect description { store } .word before →
    refers before.names.keys (.callable f) = false

/-- A description gives a section as a function that may take the builder and that refuses: whenever
it is called for the section, it raises a problem and changes nothing. -/
structure Refuses (description : Value Code) (store : Store Code) (part : Section)
    (f : Callable (Value Code) Code) (p : Problem Code) : Prop where
  gives : ∀ later, setting.Reaches description store later →
    Description.get (Description.given description later) part = .callable f
  takes : f.takesArgument = true
  called : setting.CallsFor description store part f
  raises : ∀ before call, setting.Begins .collect description { store } part before →
    setting.Makes (Description.given description before.store) part before call →
    (setting.call call.place f call.offered).start call.store = (.error (.problem p), call.store)

variable {setting} {entries : Table Code (Value Code)} {f : Callable (Value Code) Code}
  {posture : Posture} {before after : Journal Code} {description : Value Code}
  {store later : Store Code} {p : Problem Code}

/-- The word is read like any other section, unless what is given refers to a declared name. -/
theorem yields_reading (hp : part ∉ [Section.name, .rules])
    (undeclared : part = .word →
      refers before.names.keys (Description.get entries .word) = false) (v : Value Code) :
    Yields .collect (setting.reading entries part) before v after ↔
      Yields .collect (setting.subject entries part) before v after := by
  cases part with
  | name | rules => simp at hp
  | externals | extras | inline | conflicts | supertypes | precedences => exact Iff.rfl
  | word =>
    have undeclared := undeclared rfl
    constructor
    · intro h
      obtain ⟨inherited, _, found, rest⟩ := (Build.yields_bind _ _ _).1 h
      obtain ⟨rfl, -⟩ := of_yields_inherited found
      obtain ⟨_, _, referring, read⟩ := (Build.yields_bind _ _ _).1 rest
      obtain ⟨rfl, rfl⟩ := (yields_refersToDeclared _ _).1 referring
      rw [undeclared] at read
      exact (Build.yields_bind _ _ _).2 ⟨_, _, (Build.yields_bind _ _ _).2
        ⟨_, _, found, yields_offered_word found _⟩, read⟩
    · intro h
      obtain ⟨offered, _, passing, read⟩ := (Build.yields_bind _ _ _).1 h
      obtain ⟨inherited, _, found, offering⟩ := (Build.yields_bind _ _ _).1 passing
      obtain ⟨rfl, -⟩ := of_yields_inherited found
      obtain ⟨rfl, rfl⟩ := offering.unique (yields_offered_word found _)
      exact (Build.yields_bind _ _ _).2 ⟨_, _, found, (Build.yields_bind _ _ _).2
        ⟨false, _, (yields_refersToDeclared _ _).2 ⟨undeclared.symm, rfl⟩, read⟩⟩

/-- A section that is given by a function is what the function comes to, as it is then, after it has
been checked. -/
theorem yields_goThrough_of_function (hp : part ∉ [Section.name, .rules])
    (gives : Description.get entries part = .callable f)
    (undeclared : part = .word → refers before.names.keys (.callable f) = false) (v : Value Code) :
    Yields .collect (setting.goThrough entries part) before v after ↔
      ∃ offered w between, Yields .collect (setting.passed part) before offered before ∧
        Yields .collect (setting.evaluate part (.callable f) offered) before w between ∧
        Yields .collect (setting.check part (between.store.present w)) between v after := by
  have given : Description.get entries part ≠ .missing := fun missing ↦ by
    rw [gives] at missing
    cases missing
  have undeclared : part = .word →
      refers before.names.keys (Description.get entries .word) = false := by
    rintro rfl
    rw [gives]
    exact undeclared rfl
  have looks : MadeOf (· = Move.look) (setting.passed part) := madeOf_passed part rfl
  have evaluates (between : Journal Code) (offered w : Value Code) :
      Yields .collect (do Build.present (← setting.evaluate part (Description.get entries part)
        offered)) before w between ↔ ∃ u, Yields .collect
          (setting.evaluate part (.callable f) offered) before u between ∧
            w = between.store.present u := by
    rw [gives, Build.yields_bind]
    simp only [Build.yields_present]
    constructor
    · rintro ⟨u, _, evaluated, rfl, rfl⟩
      exact ⟨u, evaluated, rfl⟩
    · rintro ⟨u, evaluated, rfl⟩
      exact ⟨u, between, evaluated, rfl, rfl⟩
  -- What is passed only looks at the journal, so it is evaluated where the section starts.
  rw [goThrough_eq given hp, Build.yields_bind]
  constructor
  · rintro ⟨w, between, read, checked⟩
    obtain ⟨offered, _, passing, looked⟩ :=
      (Build.yields_bind _ _ _).1 ((yields_reading hp undeclared w).1 read)
    obtain rfl := passing.unmoved looks
    obtain ⟨u, evaluated, rfl⟩ := (evaluates _ _ _).1 looked
    exact ⟨offered, u, between, passing, evaluated, checked⟩
  · rintro ⟨offered, u, between, passing, evaluated, checked⟩
    refine ⟨_, between, (yields_reading hp undeclared _).2 ?_, checked⟩
    exact (Build.yields_bind _ _ _).2 ⟨offered, before, passing,
      (evaluates _ _ _).2 ⟨u, evaluated, rfl⟩⟩

private theorem yields_evaluate_of_raises {offered : Value Code} (takes : f.takesArgument = true)
    (raises : (setting.call (setting.made "call" part.title) f offered).start before.store =
      (.error (.problem p), before.store)) :
    Yields .collect (setting.evaluate part (.callable f) offered) before offered
      (before.reported (p.attributedTo part.title)) := by
  unfold evaluate Yields
  simp only [Value.callable?, takes, if_true]
  rw [Build.start_bind, Build.start_absorb, raises]
  rfl

private theorem madeOf_check {may : Move Code → Prop} (part : Section) (v : Value Code)
    (h : setting.Permits may) : MadeOf may (setting.check part v) := by
  cases part with
  | name | rules => exact .pure v
  | externals =>
    exact .bind (Externals.madeOf_validate v (h.reports .externals) (h.declares _)) fun _ ↦ .pure _
  | word => exact Names.madeOf_validateWord v (h.reports .word)
  | extras | inline | conflicts | supertypes | precedences =>
    exact .bind (setting.madeOf_checks _ v (h.reports _)) fun _ ↦ .pure _

private theorem uniform_check (part : Section) (v : Value Code) :
    Uniform Eq (setting.check part v) fun _ ↦ True :=
  (madeOf_check part v setting.permits_within).uniform
    (fun part grammar within ↦ within part grammar rfl) fun _ _ _ ↦ Iff.rfl

/-- A function that refuses is passed something, and what it is passed is checked after the problem
has been reported. -/
theorem Refuses.exists_of_yields {v : Value Code} (hp : part ∉ [Section.name, .rules])
    (h : setting.Refuses description store part f p)
    (begins : setting.Begins .collect description { store } part before)
    (gone : Yields .collect (setting.goThrough (Description.given description before.store) part)
      before v after) :
    ∃ offered, Yields .collect (setting.passed part) before offered before ∧
      Yields .collect (setting.check part (before.store.present offered))
        (before.reported (p.attributedTo part.title)) v after := by
  have undeclared : part = .word → refers before.names.keys (.callable f) = false := by
    rintro rfl
    exact h.called rfl before begins
  have gives := h.gives _ begins.reaches
  obtain ⟨offered, w, between, passing, evaluated, checked⟩ :=
    (yields_goThrough_of_function hp gives undeclared v).1 gone
  have makes : setting.Makes (Description.given description before.store) part before
      ⟨setting.made "call" part.title, f, offered, before.store⟩ := by
    refine .ofSection hp (by rw [gives]; rfl) h.takes ?_ passing
    rintro rfl
    rw [gives]
    exact undeclared rfl
  obtain ⟨rfl, rfl⟩ :=
    evaluated.unique (yields_evaluate_of_raises h.takes (h.raises before _ begins makes))
  exact ⟨_, passing, checked⟩

/-! ### The section of a function that returns what it is passed -/

/-- A section is the same for a function that refuses as for one that returns what it is passed, but
for the problem, which is reported first. -/
theorem Refuses.exists_of_returnsSecond {other v : Value Code} {h : Callable (Value Code) Code}
    (hp : part ∉ [Section.name, .rules]) (refuses : setting.Refuses description store part f p)
    (gives : Description.get (Description.given other before.store) part = .callable h)
    (returns : setting.ReturnsSecond h) (called : setting.CallsFor description store part h)
    (begins : setting.Begins .collect description { store } part before)
    (gone : Yields .collect (setting.goThrough (Description.given description before.store) part)
      before v after) :
    ∃ after', Yields .collect (setting.goThrough (Description.given other before.store) part) before
      v after' ∧ after.IsAhead part (p.attributedTo part.title) after' := by
  obtain ⟨offered, passing, checked⟩ := refuses.exists_of_yields hp begins gone
  obtain ⟨after', checked', ahead⟩ :=
    (isAhead_reported begins _).exists_yields (uniform_check part _) checked
  have undeclared : part = .word → refers before.names.keys (.callable h) = false := by
    rintro rfl
    exact called rfl before begins
  exact ⟨after', (yields_goThrough_of_function hp gives undeclared v).2
    ⟨offered, offered, before, passing, returns.yields_evaluate part offered, checked'⟩, ahead⟩

/-! ### A section that is not given -/

private theorem yields_passed (base : setting.hasBase = false)
    (hp : part ∉ [Section.name, .rules]) :
    Yields posture (setting.passed part) before (setting.offeredAnew part) before := by
  cases part with
  | name | rules => simp at hp
  | externals =>
    unfold passed inheritedExternals
    rw [base]
    exact rfl
  | extras | inline | conflicts | word | supertypes | precedences =>
    unfold passed inherited offered
    simp only [base]
    exact rfl

private theorem yields_check_offeredAnew (hp : part ∉ [Section.name, .rules]) :
    Yields posture (setting.check part (setting.offeredAnew part)) before
      (setting.unset "result" part) before := by
  cases part with
  | name | rules => simp at hp
  | externals | inline | conflicts | word | supertypes | precedences => exact rfl
  | extras =>
    unfold check checks
    cases setting.extraReferences
    · exact rfl
    · exact rfl

/-- Without a base, nothing is reported of a section that is not given. -/
theorem yields_goThrough_of_missing (hp : part ∉ [Section.name, .rules])
    (base : setting.hasBase = false) (missing : Description.get entries part = .missing) :
    Yields posture (setting.goThrough entries part) before (setting.unset "offered" part)
      before := by
  have looked : Yields posture (Build.present (.missing : Value Code)) before .missing before :=
    (Build.yields_present _ _).2 ⟨before.store.present_missing.symm, rfl⟩
  have fallback {part : Section} {validate : Value Code → Build Code (List (Value Code))}
      (missing : Description.get entries part = .missing) (items : List (Value Code))
      (validated : Yields posture (validate .missing) before items before) :
      Yields posture (do return Value.list (← setting.part entries part validate)) before
        (.list ⟨setting.made "result" part.title, items, false⟩) before := by
    rw [part_eq entries base, missing]
    exact (Build.yields_bind _ _ _).2 ⟨_, _, (Build.yields_bind _ _ _).2 ⟨.missing, before, rfl,
      (Build.yields_bind _ _ _).2 ⟨.missing, before, looked, (Build.yields_bind _ _ _).2
        ⟨items, before, validated, rfl⟩⟩⟩, rfl⟩
  cases part with
  | name | rules => simp at hp
  | externals =>
    change Yields posture (do return Value.list (← setting.externals entries)) before _ before
    unfold externals inheritedExternals
    rw [base, missing]
    exact rfl
  | word =>
    change Yields posture (setting.word entries) before _ before
    unfold word inherited
    rw [base, missing]
    exact (Build.yields_bind _ _ _).2 ⟨.missing, before, rfl, (Build.yields_bind _ _ _).2
      ⟨false, before, rfl, (Build.yields_bind _ _ _).2 ⟨.missing, before, rfl,
        (Build.yields_bind _ _ _).2 ⟨.missing, before, looked, rfl⟩⟩⟩⟩
  | extras => exact fallback missing [.rule Extras.blankCharacter] rfl
  | inline | conflicts | supertypes | precedences => exact fallback missing [] rfl

/-- In a store in which nothing has been changed yet within the place of the build, what a function
is passed without a base is as it is made. -/
theorem present_offeredAnew (new : store.IsNew setting.place)
    (hp : part ∉ [Section.name, .rules]) :
    store.present (setting.offeredAnew part) = setting.offeredAnew part := by
  have list (items : List (Value Code)) :
      store.present (.list ⟨setting.made "offered" part.title, items, false⟩) =
        .list ⟨setting.made "offered" part.title, items.map store.present, false⟩ :=
    store.present_list (new.lists (setting.within_made _ _)) items
  cases part with
  | name | rules => simp at hp
  | word => exact store.present_missing
  | externals | inline | conflicts | supertypes | precedences => exact list []
  | extras =>
    have blank : store.present (.rule Extras.blankCharacter) = .rule Extras.blankCharacter := by
      unfold Store.present
      split
      · rfl
      · rw [Store.presentWithin]
        rfl
    exact (list [.rule Extras.blankCharacter]).trans (by rw [List.map_singleton, blank]; rfl)

private theorem eq_of_still (base : setting.hasBase = false)
    (still : setting.GivesStill description store)
    (reached : setting.Reaches description store later) : later = store := by
  induction reached with
  | start => rfl
  | call place offered _ gives _ same ih =>
    rw [same] at gives
    rw [still _ gives, ih]
  | copy part attributed _ _ =>
    have none : setting.base = .missing := by
      unfold hasBase at base
      split at base
      · assumption
      · cases base
    rw [none] at attributed
    cases attributed

/-- Without a base and with functions that change nothing, a function that refuses has the problem
reported and nothing else, and the section comes to what it would be if it were not given. -/
theorem Refuses.of_yields_anew {v : Value Code} (hp : part ∉ [Section.name, .rules])
    (h : setting.Refuses description store part f p) (base : setting.hasBase = false)
    (still : setting.GivesStill description store) (new : store.IsNew setting.place)
    (begins : setting.Begins .collect description { store } part before)
    (gone : Yields .collect (setting.goThrough (Description.given description before.store) part)
      before v after) :
    v = setting.unset "result" part ∧ after = before.reported (p.attributedTo part.title) := by
  obtain ⟨offered, passing, checked⟩ := h.exists_of_yields hp begins gone
  obtain ⟨rfl, -⟩ := passing.unique (yields_passed base hp)
  rw [eq_of_still base still begins.reaches, present_offeredAnew new hp] at checked
  exact checked.unique (yields_check_offeredAnew hp)

/-! ### Whole builds -/

variable {other : Value Code} {g h : Grammar (Value Code)}

/-- A grammar that differs from another in what it has for a section that is not given is the same,
but for where an empty list of externals is made. -/
theorem eq_of_unset
    (fields : h.fields = Function.update g.fields part (setting.unset "offered" part))
    (here : g.fields part = setting.unset "result" part) (place : h.place = g.place)
    (again : h.again = g.again) :
    h = { g with externals := { g.externals with place := h.externals.place } } ∧
      (part ≠ .externals → h = g) := by
  by_cases externals : part = .externals
  · subst externals
    refine ⟨Grammar.eq_of_fields (funext fun another ↦ ?_) place again, absurd rfl⟩
    have mine := congrFun fields .externals
    rw [Function.update_self] at mine
    obtain eq : g.externals = _ := Value.list.inj here
    obtain eq' : h.externals = _ := Value.list.inj mine
    rw [eq, eq', fields]
    by_cases ne : another = .externals
    · rw [ne, Function.update_self]
      rfl
    · rw [Function.update_of_ne ne]
      cases another with
      | externals => exact absurd rfl ne
      | name | rules | extras | inline | conflicts | word | supertypes | precedences => rfl
  · have same : setting.unset "offered" part = setting.unset "result" part := by
      cases part with
      | externals => exact absurd rfl externals
      | name | rules | extras | inline | conflicts | word | supertypes | precedences => rfl
    rw [same, ← here, Function.update_eq_self] at fields
    obtain rfl := Grammar.eq_of_fields fields place again
    exact ⟨rfl, fun _ ↦ rfl⟩

end Setting

/-- A function that refuses costs its own problem and nothing else. If the function of a section
raises a problem and the build returns nevertheless, then so does the build in which the section is
given by a function that returns what it is passed. It comes to the same grammar, and it reports the
same but for the problem, which is attributed to the section unless it names another, and which
comes first in the section, after all that is reported before. Without a base, and with functions
that change nothing, the same holds of the build in which nothing is given for the section, only
that an empty list of externals is then another one; and of the section nothing else is reported. -/
theorem Setting.oneMore_of_refuses (setting : Setting Code) (description : Value Code)
    (store : Store Code) {part : Section} (hp : part ∉ [Section.name, .rules])
    {f : Callable (Value Code) Code} {p : Problem Code}
    (refuses : setting.Refuses description store part f p) {g : Grammar (Value Code)}
    {after : Journal Code} (collected : setting.collect description store = (.ok g, after)) :
    (∀ other h, Description.SameBut (setting.Reaches description store) part description other →
      (∀ later, setting.Reaches description store later →
        Description.get (Description.given other later) part = .callable h) →
      setting.ReturnsSecond h → setting.CallsFor description store part h →
      ∃ after', setting.collect other store = (.ok g, after') ∧
        after.OneMore (Description.problems description store) part (p.attributedTo part.title)
          after') ∧
    (setting.hasBase = false → setting.GivesStill description store →
      store.IsNew setting.place → ∀ other,
      Description.SameBut (setting.Reaches description store) part description other →
      (∀ later, setting.Reaches description store later →
        Description.get (Description.given other later) part = .missing) →
      ∃ g' after', setting.collect other store = (.ok g', after') ∧
        g' = { g with externals := { g.externals with place := g'.externals.place } } ∧
        (part ≠ .externals → g' = g) ∧
        after.OneMore (Description.problems description store) part (p.attributedTo part.title)
          after' ∧
        after'.problemsIn part = []) := by
  obtain ⟨start, finish, course⟩ := exists_course collected
  have named : part ≠ .name := fun eq ↦ hp (by simp [eq])
  obtain ⟨place, again⟩ := made_of_collect collected
  constructor
  · intro other h same gives returns called
    obtain ⟨g', after', collected', fields, more⟩ := course.exists_oneMore collected named same
      fun journal between begins gone ↦
        refuses.exists_of_returnsSecond hp (gives _ begins.reaches) returns called begins gone
    rw [Function.update_eq_self] at fields
    obtain ⟨place', again'⟩ := made_of_collect collected'
    obtain rfl := Grammar.eq_of_fields fields (place'.trans place.symm) (again'.trans again.symm)
    exact ⟨after', collected', more⟩
  · intro base still new other same missing
    obtain ⟨journal, begins⟩ := course.exists_begins part
    obtain ⟨before, between, rfl, -, visit, -⟩ := course.exists_visit begins
    have gone := visit.gone
    rw [← before.store_begun g.fields part] at gone
    obtain ⟨here, rfl⟩ := refuses.of_yields_anew hp base still new begins gone
    have only : after.problemsIn part = [p.attributedTo part.title] :=
      visit.problems [.reported (p.attributedTo part.title)] (by simp [Entry.IsWithin]) ⟨rfl, rfl⟩
    obtain ⟨g', after', collected', fields, more⟩ := course.exists_oneMore collected named same
      fun journal between begins gone ↦ by
        obtain ⟨-, rfl⟩ := refuses.of_yields_anew hp base still new begins gone
        exact ⟨journal, yields_goThrough_of_missing hp base (missing _ begins.reaches),
          isAhead_reported begins _⟩
    obtain ⟨place', again'⟩ := made_of_collect collected'
    obtain ⟨eq, others⟩ :=
      eq_of_unset fields here (place'.trans place.symm) (again'.trans again.symm)
    refine ⟨g', after', collected', eq, others, more, ?_⟩
    have first := more.here
    rw [only] at first
    exact (List.cons.inj first).2.symm

/-- Of two builds at different places, the first has reported a problem more. Both have reported
some problems with the description itself, and then those of one section after another; the further
problem comes first in a section, and all others come again. -/
structure Journal.OneMoreAgain (ρ : Relocation Code) (outside : List (Problem Code))
    (part : Section) (p : Problem Code) (first second : Journal Code) : Prop where
  names : Namespace.Reappears ρ first.names second.names
  here : ∃ others, first.problemsIn part = p :: others ∧
    Problem.ReappearAll ρ others (second.problemsIn part)
  others : ∀ other ≠ part, Problem.ReappearAll ρ (first.problemsIn other) (second.problemsIn other)
  problems : first.problems = outside ++ Section.all.flatMap first.problemsIn ∧
    ∃ again, Problem.ReappearAll ρ outside again ∧
      second.problems = again ++ Section.all.flatMap second.problemsIn

private theorem Journal.OneMore.again (ρ : Relocation Code) {outside : List (Problem Code)}
    {part : Section} {p : Problem Code} {first second : Journal Code}
    (h : first.OneMore outside part p second) :
    first.OneMoreAgain ρ outside part p (second.moved ρ) := by
  obtain ⟨earlier, later, split⟩ := List.append_of_mem (Setting.mem_all part)
  obtain ⟨problems₁, problems₂⟩ := h.problems earlier later split
  have apart := Section.ne_of_all_eq split
  refine ⟨h.names ▸ Namespace.reappears_map_moved ρ _, ⟨_, h.here, ?_⟩, fun other ne ↦ ?_, ?_,
    _, Problem.reappearAll_map_moved ρ outside, ?_⟩
  · rw [Journal.problemsIn_moved]
    exact Problem.reappearAll_map_moved ρ _
  · rw [h.others other ne, Journal.problemsIn_moved]
    exact Problem.reappearAll_map_moved ρ _
  · have before : earlier.flatMap first.problemsIn = earlier.flatMap second.problemsIn :=
      List.flatMap_congr fun other mem ↦ h.others other (apart.1 other mem)
    have behind : later.flatMap first.problemsIn = later.flatMap second.problemsIn :=
      List.flatMap_congr fun other mem ↦ h.others other (apart.2 other mem)
    rw [problems₁, split, List.flatMap_append, List.flatMap_cons, before, behind, h.here]
    simp
  · refine Journal.problems_moved ρ ?_
    rw [problems₂, split, List.flatMap_append, List.flatMap_cons]
    simp

private theorem Value.compare_externals_place (g h : Grammar (Value Code)) (place : Place)
    (once : g.externals.again = false) (once' : h.externals.again = false) :
    (grammar { g with externals := { g.externals with place } }).compare (grammar h) =
      (grammar g).compare (grammar h) := by
  obtain ⟨_, name, rules, extras, ⟨_, externals, again⟩, inline, conflicts, word, supertypes,
    precedences, _⟩ := g
  obtain rfl : again = false := once
  simp [compare, compareGrammars, compareLists, once']

/-- A grammar comes again, but for where its list of externals was made. -/
structure Grammar.ReappearsAnew (ρ : Relocation Code) (g again : Grammar (Value Code)) : Prop where
  moved : ∃ place, again =
    Value.movedGrammar ρ { g with externals := { g.externals with place } }
  equal : (Value.grammar g).Genuine false [] → ρ.Keeps (Value.grammar g).identities →
    (Value.grammar g).compare (.grammar again) = some true

private theorem Grammar.reappearsAnew (ρ : Relocation Code) (g : Grammar (Value Code))
    (place : Place) :
    g.ReappearsAnew ρ
      (Value.movedGrammar ρ { g with externals := { g.externals with place } }) := by
  refine ⟨⟨place, rfl⟩, fun genuine kept ↦ ?_⟩
  have again := (Value.grammar { g with externals := { g.externals with place } }).reappears_moved ρ
  rw [Value.moved] at again
  obtain ⟨_, name, rules, extras, ⟨_, externals, _⟩, inline, conflicts, word, supertypes,
    precedences, _⟩ := g
  have once := genuine.2.2.2.2.2.1.1
  rw [← Value.compare_externals_place _ _ place once once]
  exact again.equal genuine kept

/-- A function that refuses costs its own problem and nothing else. If the function of a section
raises a problem and the build returns nevertheless, then so does the build in which the section is
given by a function that returns what it is passed. It comes to the same grammar, and it reports the
same but for the problem, which is attributed to the section unless it names another, and which
comes first in the section, after all that is reported before. Without a base, and with functions
that change nothing, the same holds of the build in which nothing is given for the section, and of
the section nothing else is reported. The other build takes place elsewhere, so what is new in the
one comes again in the other. -/
theorem Setting.oneMore_of_repeats {ρ : Relocation Code} (first second : Setting Code)
    (description : Value Code) (store : Store Code)
    (policy : second.extraReferences = first.extraReferences) {part : Section}
    (hp : part ∉ [Section.name, .rules]) {f : Callable (Value Code) Code} {p : Problem Code}
    (refuses : first.Refuses description store part f p) {g : Grammar (Value Code)}
    {after : Journal Code} (collected : first.collect description store = (.ok g, after)) :
    (∀ other h, Description.SameBut (first.Reaches description store) part description other →
      (∀ later, first.Reaches description store later →
        Description.get (Description.given other later) part = .callable h) →
      first.ReturnsSecond h → first.CallsFor description store part h →
      first.Repeats ρ second other store →
      ∃ g' after', second.collect other store = (.ok g', after') ∧
        (Value.grammar g).Reappears ρ (.grammar g') ∧
        after.OneMoreAgain ρ (Description.problems description store) part
          (p.attributedTo part.title) after') ∧
    (first.hasBase = false → first.GivesStill description store → store.IsNew first.place →
      ∀ other, Description.SameBut (first.Reaches description store) part description other →
      (∀ later, first.Reaches description store later →
        Description.get (Description.given other later) part = .missing) →
      first.Repeats ρ second other store →
      ∃ g' after', second.collect other store = (.ok g', after') ∧
        g.ReappearsAnew ρ g' ∧
        (part ≠ .externals → (Value.grammar g).Reappears ρ (.grammar g')) ∧
        after.OneMoreAgain ρ (Description.problems description store) part
          (p.attributedTo part.title) after' ∧
        after'.problemsIn part = []) := by
  obtain ⟨returned, omitted⟩ := oneMore_of_refuses first description store hp refuses collected
  have again (g : Grammar (Value Code)) :
      (Value.grammar g).Reappears ρ (.grammar (Value.movedGrammar ρ g)) := by
    have again := (Value.grammar g).reappears_moved ρ
    rwa [Value.moved] at again
  constructor
  · intro other h same gives returns called repeats
    obtain ⟨after', collected', more⟩ := returned other h same gives returns called
    refine ⟨Value.movedGrammar ρ g, after'.moved ρ, ?_, again g, more.again ρ⟩
    rw [repeats.collect_eq policy, collected']
    rfl
  · intro base still new other same missing repeats
    obtain ⟨g', after', collected', eq, others, more, nothing⟩ :=
      omitted base still new other same missing
    refine ⟨Value.movedGrammar ρ g', after'.moved ρ, ?_, ?_, fun ne ↦ ?_, more.again ρ, ?_⟩
    · rw [repeats.collect_eq policy, collected']
      rfl
    · have anew := g.reappearsAnew ρ g'.externals.place
      rwa [← eq] at anew
    · rw [others ne]
      exact again g
    · rw [Journal.problemsIn_moved, nothing, List.map_nil]

namespace Setting

/-- A rule may be a field that has the builder for its name. The grammar of a build in which the
function of the extras refuses then does not equal the grammar of a build without extras, since the
builds have different builders. -/
theorem exists_not_equal_omitted :
    let setting (step : Nat) : Setting Response := Response.setting step .missing
    let description (extras : Table Response (Value Response)) : Value Response :=
      .mapping ⟨.step 0, (.string "name", .string "g") ::
        (.string "rules", .mapping ⟨(Place.step 0).part "rules",
          [(.string "a", Response.function .field "a")], false⟩) :: extras, false⟩
    let refusing := description [(.string "extras", Response.function .problem "f")]
    ∃ g g' after after', (setting 1).collect refusing {} = (.ok g, after) ∧
      after.problems.map Problem.kind = [.undefinedSymbol] ∧
      (setting 2).collect (description []) {} = (.ok g', after') ∧ after'.problems = [] ∧
      (Value.grammar g).compare (.grammar g') = some false := by
  intro setting description refusing
  have differ : ((setting 1).collect refusing {}).1.toOption.any (fun g ↦
      ((setting 2).collect (description []) {}).1.toOption.any fun g' ↦
        (Value.grammar g).compare (.grammar g') == some false) = true := by
    decide +kernel
  obtain ⟨g, collected, differ⟩ := Build.exists_eq_ok_of_any differ
  obtain ⟨g', collected', differ⟩ := Build.exists_eq_ok_of_any differ
  exact ⟨g, g', _, _, collected, by decide +kernel, collected',
    List.isEmpty_iff.1 (by decide +kernel), beq_iff_eq.1 differ⟩

/-- Without a base, a function for the externals that refuses comes to the same as no externals: the
name and a rule are malformed in both builds, and between these two problems the one of the function
is reported. With a base of which a conflict refers to a name that is not declared, a function for
the conflicts that refuses comes to the same as one that returns the conflict: the problem of the
function is reported first, and then those with the conflict. In all builds a rule has the builder
in it. -/
theorem oneMore_of_repeats_malformed :
    let list (items : List (Value Response)) : Items (Value Response) := ⟨.step 0, items, false⟩
    let mapping (entries : Table Response (Value Response)) : Value Response :=
      .mapping ⟨.step 0, entries, false⟩
    let base : Grammar (Value Response) := { Grammar.single (.step 0) with
      conflicts := list [.list (list [.string "a", .string "d"])] }
    let anew (step : Nat) : Setting Response := Response.setting step .missing
    let extending (step : Nat) : Setting Response := Response.setting step (.grammar base)
    let rules : Value Response := mapping [(.string "b", Response.function .field "b"),
      (.string "c", Response.function .builder "c")]
    let externals : Table Response (Value Response) := [(.string "name", .int 5),
      (.string "externals", Response.function .problem "f"), (.string "rules", rules)]
    let conflicts : Table Response (Value Response) := [(.string "rules", rules),
      (.string "conflicts", Response.function .problem "f")]
    let omitting := mapping (Description.without externals .externals)
    let returning := mapping (conflicts.insert (.string "conflicts")
      (Response.function .other "h"))
    (∃ g g' after after', (anew 1).collect (mapping externals) {} = (.ok g, after) ∧
      (anew 2).collect omitting {} = (.ok g', after') ∧
      g.ReappearsAnew Response.exchange g' ∧
      after.OneMoreAgain Response.exchange [] .externals ⟨.undefined, some "externals"⟩ after' ∧
      after.problems.map Problem.within = [some "name", some "externals", some "rules"]) ∧
    ∃ g g' after after', (extending 1).collect (mapping conflicts) {} = (.ok g, after) ∧
      (extending 2).collect returning {} = (.ok g', after') ∧
      (Value.grammar g).Reappears Response.exchange (.grammar g') ∧
      after.OneMoreAgain Response.exchange [] .conflicts ⟨.undefined, some "conflicts"⟩ after' ∧
      after.problems.map Problem.kind =
        [.invalidRule, .undefinedSymbol, .undeclaredReference, .structuralShape] := by
  intro list mapping base anew extending rules externals conflicts omitting returning
  have refused {f : Callable (Value Response) Response}
      (responds : Response.function .problem "f" = .callable f) :
      f.takesArgument = true ∧ ∀ step base place offered store,
        ((Response.setting step base).call place f offered).start store =
          (.error (.problem ⟨.undefined, none⟩), store) := by
    refine ⟨?_, fun step base place offered store ↦ ?_⟩
    · cases responds
      rfl
    · rw [Response.start_call responds]
      rfl
  constructor
  · have returns : ((anew 1).collect (mapping externals) {}).1.toOption.any (fun _ ↦ true) =
        true := by
      decide +kernel
    obtain ⟨g, collected, -⟩ := Build.exists_eq_ok_of_any returns
    have problems : Description.problems (mapping externals) {} = [] :=
      List.isEmpty_iff.1 (by decide +kernel)
    have gives : Description.get (Description.given (mapping externals) {}) .externals =
        Response.function .problem "f" := by
      have entries : Description.given (mapping externals) {} = externals := rfl
      simp [entries, externals, Description.get, Section.title]
    have unchanged {later : Store Response}
        (reached : (anew 1).Reaches (mapping externals) {} later) : later = {} :=
      eq_empty_of_reaches Response.store_run reached
    have refuses : (anew 1).Refuses (mapping externals) {} .externals _ ⟨.undefined, none⟩ :=
      ⟨fun _ reached ↦ unchanged reached ▸ gives, (refused rfl).1, fun eq ↦ (by cases eq),
        fun _ _ _ _ ↦ (refused rfl).2 _ _ _ _ _⟩
    have still : (anew 1).GivesStill (mapping externals) {} := fun f _ place offered store ↦
      store_start_call Response.store_run place f offered store
    have both (later : Store Response) (reached : (anew 1).Reaches (mapping externals) {} later) :
        ∃ entries, (later.read (mapping externals)).object? = some entries ∧
          (later.read omitting).object? = some (Description.without entries .externals) :=
      unchanged reached ▸ ⟨externals, rfl, rfl⟩
    obtain ⟨same, missing⟩ := Description.sameBut_without both
    have given : omitting.moved Response.exchange = omitting := by
      have entries : Description.without externals .externals =
          [(.string "name", .int 5), (.string "rules", rules)] := by
        have other (title : String) (ne : "externals" ≠ title) :
            (Value.string "externals" : Value Response).same (.string title) = false :=
          Bool.eq_false_iff.2 fun same ↦ ne (Value.string.inj ((Value.string_same _ _).1 same)).symm
        simp [Description.without, externals, Section.title, Value.string_same,
          other "name" (by decide), other "rules" (by decide)]
      simp only [omitting, entries]
      rfl
    obtain ⟨-, omitted⟩ := oneMore_of_repeats (anew 1) (anew 2) _ {} rfl (by decide) refuses
      collected
    obtain ⟨g', after', collected', again, -, more, -⟩ :=
      omitted rfl still (fun _ _ _ _ ↦ ⟨rfl, rfl⟩) omitting same missing
        (Response.repeats_setting _ _ rfl given)
    rw [problems] at more
    exact ⟨g, g', _, after', collected, collected', again, more, by decide +kernel⟩
  · have returns : ((extending 1).collect (mapping conflicts) {}).1.toOption.any (fun _ ↦ true) =
        true := by
      decide +kernel
    obtain ⟨g, collected, -⟩ := Build.exists_eq_ok_of_any returns
    have problems : Description.problems (mapping conflicts) {} = [] :=
      List.isEmpty_iff.1 (by decide +kernel)
    have gives : Description.get (Description.given (mapping conflicts) {}) .conflicts =
        Response.function .problem "f" := by
      have entries : Description.given (mapping conflicts) {} = conflicts := rfl
      simp [entries, conflicts, Description.get, Section.title]
    have unchanged {later : Store Response}
        (reached : (extending 1).Reaches (mapping conflicts) {} later) : later = {} :=
      eq_empty_of_reaches Response.store_run reached
    have refuses : (extending 1).Refuses (mapping conflicts) {} .conflicts _ ⟨.undefined, none⟩ :=
      ⟨fun _ reached ↦ unchanged reached ▸ gives, (refused rfl).1, fun eq ↦ (by cases eq),
        fun _ _ _ _ ↦ (refused rfl).2 _ _ _ _ _⟩
    have both (later : Store Response)
        (reached : (extending 1).Reaches (mapping conflicts) {} later) :
        ∃ entries : Table Response (Value Response),
          (later.read (mapping conflicts)).object? = some entries ∧ (later.read returning).object? =
            some (entries.insert (.string Section.conflicts.title)
              (Response.function .other "h")) :=
      unchanged reached ▸ ⟨conflicts, rfl, rfl⟩
    obtain ⟨same, gives'⟩ := Description.sameBut_insert both
    have given : returning.moved Response.exchange = returning := by
      have entries : conflicts.insert (.string "conflicts") (Response.function .other "h") =
          [(.string "rules", rules), (.string "conflicts", Response.function .other "h")] := by
        simp [conflicts, Table.insert, Value.string_same]
      simp only [returning, entries]
      rfl
    obtain ⟨returned, -⟩ := oneMore_of_repeats (extending 1) (extending 2) _ {} rfl (by decide)
      refuses collected
    obtain ⟨g', after', collected', again, more⟩ :=
      returned returning _ same gives' ⟨rfl, fun _ _ _ ↦ rfl⟩ (fun eq ↦ (by cases eq))
        (Response.repeats_setting _ _ rfl given)
    rw [problems] at more
    exact ⟨g, g', _, after', collected, collected', again, more, by decide +kernel⟩

end Setting

end GrammarDoc
