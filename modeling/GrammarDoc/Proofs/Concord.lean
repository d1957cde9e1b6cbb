import GrammarDoc.Proofs.Relocation.Repetition

/-!
# Builds under both postures

A description is built twice: once all problems are collected, and once the build ends at the first
of them. Whatever the first build comes to, the second one comes to the corresponding, but for what
is new in it: for the builder that functions are passed, and for whatever they make.
-/

namespace GrammarDoc

variable {Code : Type}

/-- What a build that ends at the first problem has in common with a build elsewhere that collects
them all. -/
structure ConcordAgain (ρ : Relocation Code)
    (collected built : Outcome Code (Grammar (Value Code)) × Journal Code) : Prop where
  /-- If nothing is reported, the grammar comes again. -/
  accepted : ∀ g, collected.1 = .ok g → collected.2.problems = [] →
    ∃ again, built.1 = .ok again ∧ (Value.grammar g).Reappears ρ (.grammar again)
  /-- If something is reported, the second build fails with what is reported first, and without
  having kept it. Its lines are the first lines of the other build, up to the one about that
  problem. -/
  rejected : ∀ p rest, collected.2.problems = p :: rest →
    ∃ again, built.1 = .error (.problem again) ∧ p.Reappears ρ again ∧ built.2.problems = [] ∧
      ∃ lines later, collected.2.entries = lines ++ .reported p :: later ∧
        (∀ q, .reported q ∉ lines) ∧
        built.2.entries.map Entry.text = (lines ++ [.reported p]).map Entry.text
  /-- A fault that comes before any report is the same. -/
  aborted : ∀ f, collected.1 = .error (.fault f) → collected.2.problems = [] →
    built.1 = .error (.fault f)
  /-- In any case the names declared are the first names of the other build. -/
  names : ∃ earlier later, collected.2.names = earlier ++ later ∧
    Namespace.Reappears ρ earlier built.2.names

private theorem Concord.moved (ρ : Relocation Code)
    {collected built : Outcome Code (Grammar (Value Code)) × Journal Code}
    (h : Concord collected built) :
    ConcordAgain ρ collected
      (Prod.map (Outcome.moved ρ (Value.movedGrammar ρ)) (Journal.moved ρ) built) where
  accepted g ok none := by
    refine ⟨Value.movedGrammar ρ g, ?_, ?_⟩
    · rw [Prod.map_fst, h.accepted g ok none, Outcome.moved]
    · have again := (Value.grammar g).reappears_moved ρ
      rwa [Value.moved] at again
  rejected p rest some := by
    obtain ⟨failed, kept, lines, later, entries, early, unreported⟩ := h.rejected p rest some
    refine ⟨p.moved ρ, ?_, p.reappears_moved ρ, ?_, lines, later, entries, unreported, ?_⟩
    · rw [Prod.map_fst, failed]
      rfl
    · rw [Prod.map_snd, Journal.moved, kept]
      rfl
    · rw [Prod.map_snd, Journal.moved, early, List.map_map]
      exact List.map_congr_left fun line _ ↦ line.text_moved ρ
  aborted f fault none := by
    rw [Prod.map_fst, h.aborted f fault none]
    rfl
  names := by
    obtain ⟨later, names⟩ := h.names
    exact ⟨built.2.names, later, names.symm, Namespace.reappears_map_moved ρ built.2.names⟩

namespace Setting

/-- A build that ends at the first problem is in concord with one elsewhere that collects all
problems, for every description, base and policy, if the functions of the description come to the
same again, but for where things are made. -/
theorem concord_of_repeats {ρ : Relocation Code} {first second : Setting Code}
    {description : Value Code} {store : Store Code}
    (repeats : first.Repeats ρ second description store)
    (policy : second.extraReferences = first.extraReferences) :
    ConcordAgain ρ (first.collect description store) (second.build description store) := by
  rw [repeats.build_eq policy]
  exact (concord_collect_build first description store).moved ρ

/-- A rule may be a field that has the builder for its name. The grammar of a build that collects
all problems, of which there are none, then does not equal the grammar of a build that ends at the
first problem, since that has another builder. -/
theorem exists_not_equal_built :
    let setting (step : Nat) : Setting Response := Response.setting step .missing
    let description : Value Response := .mapping ⟨.step 0, [(.string "name", .string "g"),
      (.string "rules", .mapping ⟨(Place.step 0).part "rules",
        [(.string "a", Response.function .field "a")], false⟩)], false⟩
    ∃ g g' after after', (setting 1).collect description {} = (.ok g, after) ∧
      after.problems = [] ∧ (setting 2).build description {} = (.ok g', after') ∧
      (Value.grammar g).compare (.grammar g') = some false := by
  intro setting description
  have differ : ((setting 1).collect description {}).1.toOption.any (fun g ↦
      ((setting 2).build description {}).1.toOption.any fun g' ↦
        (Value.grammar g).compare (.grammar g') == some false) = true := by
    decide +kernel
  obtain ⟨g, collected, differ⟩ := Build.exists_eq_ok_of_any differ
  obtain ⟨g', built, differ⟩ := Build.exists_eq_ok_of_any differ
  exact ⟨g, g', _, _, collected, List.isEmpty_iff.1 (by decide +kernel), built,
    beq_iff_eq.1 differ⟩

/-- With a field as a rule, the same grammar is built again but for the builder. If another rule is
the builder itself, that is reported first, and it is what the second build fails with. -/
theorem concord_of_repeats_builder :
    let setting (step : Nat) : Setting Response := Response.setting step .missing
    let description (rules : Table Response (Value Response)) : Value Response :=
      .mapping ⟨.step 0, [(.string "name", .string "g"),
        (.string "rules", .mapping ⟨(Place.step 0).part "rules", rules, false⟩)], false⟩
    let accepted := description [(.string "a", Response.function .field "a")]
    let rejected := description [(.string "a", Response.function .field "a"),
      (.string "b", Response.function .builder "b"), (.string "c", Response.function .problem "c")]
    (∃ g g' after after', (setting 1).collect accepted {} = (.ok g, after) ∧
      (setting 2).build accepted {} = (.ok g', after') ∧
      (Value.grammar g).Reappears Response.exchange (.grammar g')) ∧
    ∃ p q, ((setting 1).collect rejected {}).2.problems.head? = some p ∧
      ((setting 2).build rejected {}).1 = .error (.problem q) ∧ p.kind = .invalidRule ∧
      p.Reappears Response.exchange q := by
  intro setting description accepted rejected
  constructor
  · have returns : ((setting 1).collect accepted {}).1.toOption.any (fun _ ↦ true) = true := by
      decide +kernel
    obtain ⟨g, collected, -⟩ := Build.exists_eq_ok_of_any returns
    have concord := concord_of_repeats
      (Response.repeats_setting .missing accepted rfl rfl) rfl
    obtain ⟨g', built, reappears⟩ := concord.accepted g (congrArg Prod.fst collected)
      (List.isEmpty_iff.1 (by decide +kernel))
    exact ⟨g, g', _, _, collected, Prod.ext built rfl, reappears⟩
  · have reported : (((setting 1).collect rejected {}).2.problems.head?.map Problem.kind) =
        some .invalidRule := by
      decide +kernel
    have concord := concord_of_repeats
      (Response.repeats_setting .missing rejected rfl rfl) rfl
    cases problems : ((setting 1).collect rejected {}).2.problems with
    | nil => simp [problems] at reported
    | cons p rest =>
      rw [problems] at reported
      obtain ⟨q, failed, reappears, -⟩ := concord.rejected p rest problems
      exact ⟨p, q, rfl, failed, Option.some.inj reported, reappears⟩

end Setting

end GrammarDoc
