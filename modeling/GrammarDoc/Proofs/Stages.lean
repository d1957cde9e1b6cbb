import GrammarDoc.Proofs.Passage

/-!
# Stages of an assembly

The journals with which the sections of an assembly begin and end. Each section is as it is given
when its turn comes, and works on what those before it have left.
-/

namespace GrammarDoc

open Build (Yields MadeOf)

variable {Code : Type} {posture : Posture} {before after : Journal Code}

/-- The sections that are gone through before a section. -/
def Section.earlier (part : Section) : List Section := Section.all.takeWhile (· ≠ part)

/-- The sections that are gone through after a section. -/
def Section.later (part : Section) : List Section := (Section.all.dropWhile (· ≠ part)).tail

/-- A section is gone through between those before it and those after it. -/
theorem Section.all_eq (part : Section) : Section.all = part.earlier ++ part :: part.later := by
  cases part with
  | name | externals | rules | extras | inline | conflicts | word | supertypes | precedences => rfl

/-- What is gone through before a section is told by any split of the sections. -/
theorem Section.eq_earlier {earlier later : List Section} {part : Section}
    (split : Section.all = earlier ++ part :: later) : earlier = part.earlier := by
  have nodup : (earlier ++ part :: later).Nodup := split ▸ by decide
  have apart : ∀ other ∈ earlier, decide (other ≠ part) = true := fun other mem ↦
    decide_eq_true ((List.nodup_append.1 nodup).2.2 other mem part List.mem_cons_self)
  rw [Section.earlier, split, List.takeWhile_append_of_pos apart]
  simp

namespace Setting

variable (setting : Setting Code)

/-- In the course of a build, a section is begun with a journal. -/
def Begins (posture : Posture) (description : Value Code) (before : Journal Code)
    (part : Section) (journal : Journal Code) : Prop :=
  ∃ fields start between, Yields posture (Description.check description) before () start ∧
    setting.Traverses description posture fields part.earlier start between ∧
    journal = between.begun fields part

variable {setting} {description : Value Code} {part : Section} {journal other : Journal Code}

/-- A section is begun with one journal only. -/
theorem Begins.unique (h : setting.Begins posture description before part journal)
    (h' : setting.Begins posture description before part other) : journal = other := by
  obtain ⟨fields, start, between, checked, first, rfl⟩ := h
  obtain ⟨fields', start', between', checked', first', rfl⟩ := h'
  obtain ⟨-, rfl⟩ := checked.unique checked'
  have name (other : Section) (head : other ∈ part.earlier.head?) : other = .name := by
    cases part with
    | name => cases head
    | externals | rules | extras | inline | conflicts | word | supertypes | precedences =>
      exact (Option.some.inj head).symm
  obtain ⟨rfl, agree⟩ := first.unique first' fun other head apart ↦ absurd (name other head) apart
  refine between.begun_congr fun apart ↦ agree .name ?_
  cases part with
  | name => exact absurd rfl apart
  | externals | rules | extras | inline | conflicts | word | supertypes | precedences => decide

/-- A section is begun with a store that the build may come to. -/
theorem Begins.reaches (h : setting.Begins posture description before part journal) :
    setting.Reaches description before.store journal.store := by
  obtain ⟨fields, start, between, checked, first, rfl⟩ := h
  rw [between.store_begun]
  refine (first.reaches ?_).1
  rw [(Description.of_yields_check checked).2]
  exact .start

/-- The journals from which the sections of an assembly start and with which they finish. Only the
externals and the rules declare names. -/
structure Stages (setting : Setting Code) (posture : Posture) (description : Value Code)
    (before : Journal Code) (g : Grammar (Value Code)) (after : Journal Code)
    (start finish : Section → Journal Code) : Prop where
  begins : ∀ part, setting.Begins posture description before part (start part)
  undeclared : (start .externals).names = before.names
  declared : (start .rules).names = (finish .externals).names
  defined : ∀ part ∈
    [Section.rules, .extras, .inline, .conflicts, .word, .supertypes, .precedences],
    (finish part).names = after.names
  name : Yields posture (setting.name (Description.given description (start .name).store))
    (start .name) g.name (finish .name)
  externals : Yields posture
    (setting.externals (Description.given description (start .externals).store))
    (start .externals) g.externals (finish .externals)
  rules : Yields posture (setting.rules (Description.given description (start .rules).store))
    (start .rules) g.rules (finish .rules)
  extras : Yields posture
    (setting.part (Description.given description (start .extras).store) .extras fun v ↦ do
      return (← Extras.validate setting.extraReferences v).map .rule)
    (start .extras) g.extras (finish .extras)
  inline : Yields posture
    (setting.part (Description.given description (start .inline).store) .inline
      Names.validateInline)
    (start .inline) g.inline (finish .inline)
  conflicts : Yields posture
    (setting.part (Description.given description (start .conflicts).store) .conflicts fun v ↦ do
      return setting.groups .conflicts (← Names.validateConflicts v))
    (start .conflicts) g.conflicts (finish .conflicts)
  word : Yields posture (setting.word (Description.given description (start .word).store))
    (start .word) g.word (finish .word)
  supertypes : Yields posture
    (setting.part (Description.given description (start .supertypes).store) .supertypes
      Names.validateSupertypes)
    (start .supertypes) g.supertypes (finish .supertypes)
  precedences : Yields posture
    (setting.part (Description.given description (start .precedences).store) .precedences fun v ↦ do
      return setting.groups .precedences ((← Precedences.validate v).map (·.map .rule)))
    (start .precedences) g.precedences (finish .precedences)

/-- Each section finds what is given for it as it is when the section starts. -/
theorem Stages.finds {description : Value Code} {g : Grammar (Value Code)}
    {start finish : Section → Journal Code}
    (stages : setting.Stages posture description before g after start finish) (part : Section) :
    setting.Finds description before.store (Description.given description (start part).store)
      (start part).store :=
  ⟨(stages.begins part).reaches, rfl⟩

/-- An assembly goes through its sections. -/
theorem exists_stages {description : Value Code} {g : Grammar (Value Code)}
    (h : Yields posture (setting.assemble description) before g after) :
    ∃ start finish, setting.Stages posture description before g after start finish := by
  obtain ⟨opened, checked, traverses, -⟩ := (yields_assemble_iff_traverses g).1 h
  -- Each section is gone through once, after those before it and before those after it.
  have turn (part : Section) : ∃ between finish,
      setting.Traverses description posture g.fields part.earlier opened between ∧
      Yields posture (setting.goThrough (Description.given description between.store) part)
        (between.begun g.fields part) (g.fields part) finish ∧
      setting.Traverses description posture g.fields part.later finish after := by
    rw [part.all_eq] at traverses
    obtain ⟨between, first, _ | ⟨gone, last⟩⟩ := traverses_append.1 traverses
    exact ⟨between, _, first, gone, last⟩
  choose between finish first gone last using turn
  have opens : setting.Reaches description before.store opened.store := by
    rw [(Description.of_yields_check checked).2]
    exact .start
  have reached (part : Section) := ((first part).reaches opens).1
  have idle {parts : List Section} {start finish : Journal Code}
      (traverses : setting.Traverses description posture g.fields parts start finish)
      (reached : setting.Reaches description before.store start.store)
      (others : ∀ part ∈ parts, part ∉ [Section.externals, .rules]) :
      finish.names = start.names := (traverses.reaches reached).2 others
  have begun (part : Section) : Description.given description (between part).store =
      Description.given description ((between part).begun g.fields part).store := by
    rw [(between part).store_begun]
  simp only [begun] at gone
  refine ⟨fun part ↦ (between part).begun g.fields part, finish, ?_⟩
  exact {
    begins := fun part ↦ ⟨g.fields, opened, _, checked, first part, rfl⟩
    undeclared := (idle (first .externals) opens (by decide)).trans
      (Description.of_yields_check checked).1
    declared := by
      obtain ⟨start, before, _ | ⟨at', ⟨⟩⟩⟩ := traverses_append.1
        (show setting.Traverses description posture g.fields
          (Section.externals.earlier ++ [.externals]) opened (between .rules) from first .rules)
      obtain ⟨rfl, -⟩ := before.unique (first .externals) fun _ _ _ ↦ rfl
      rw [begun] at at'
      rw [(at'.unique (gone .externals)).2]
      rfl
    defined := fun part hp ↦ by
      have others : ∀ other ∈ part.later, other ∉ [Section.externals, .rules] := by
        revert part
        decide
      refine (idle (last part) ?_ others).symm
      exact (reaches_of_yields_goThrough (gone part) ⟨by simpa using reached part, rfl⟩).1
    name := gone .name
    externals := yields_list.1 (gone .externals)
    rules := yields_mapping.1 (gone .rules)
    extras := yields_list.1 (gone .extras)
    inline := yields_list.1 (gone .inline)
    conflicts := yields_list.1 (gone .conflicts)
    word := gone .word
    supertypes := yields_list.1 (gone .supertypes)
    precedences := yields_list.1 (gone .precedences) }

end Setting

end GrammarDoc
