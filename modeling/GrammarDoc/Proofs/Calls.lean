import GrammarDoc.Proofs.Persistence

/-!
# What functions are passed

A function of a description is offered the builder and what the base has. It is passed as many of
these as its signature accepts: both if that cannot be told or it takes any number, and otherwise
one for each of its parameters at most. So a signature that is known is never passed too much, and
too little only if more than two of its parameters need an argument. The function of a section is
called exactly if it is passed the builder.
-/

namespace GrammarDoc

variable {Code : Type}

namespace Signature

variable (s : Signature)

/-- How many of two arguments on offer are passed on. -/
def share : Nat :=
  if s.rest.isSome || !s.inspectable then 2 else min 2 s.positional.length

/-- A signature that is known and takes no further arguments is passed one for each parameter. -/
theorem share_of_known {s : Signature} (known : s.inspectable = true) (rest : s.rest = none) :
    s.share = min 2 s.positional.length := by
  simp [share, known, rest]

/-- All arguments on offer are passed on if any number is accepted, and otherwise the share of a
signature is limited by the number that is. -/
theorem share_cases :
    s.arity? = none ∧ s.share = 2 ∨
      s.arity? = some s.positional.length ∧ s.share = min 2 s.positional.length := by
  by_cases counted : s.inspectable = true ∧ s.rest = none
  · right
    refine ⟨?_, share_of_known counted.1 counted.2⟩
    simp [arity?, counted]
  · left
    have any : (s.rest.isSome || !s.inspectable) = true := by
      cases rest : s.rest with
      | some name => rfl
      | none => simpa [rest] using counted
    refine ⟨?_, if_pos any⟩
    cases rest : s.rest with
    | some name => simp [arity?, rest]
    | none => simpa [arity?, rest] using any

/-- No more arguments are passed on than are on offer. -/
theorem share_le : s.share ≤ 2 := by
  rcases s.share_cases with ⟨-, all⟩ | ⟨-, some⟩ <;> omega

/-- Of two arguments on offer, the share of a signature is accepted. -/
theorem accepted_pair {α : Type} (a b : α) : s.accepted [a, b] = [a, b].take s.share := by
  rcases s.share_cases with ⟨any, all⟩ | ⟨counted, some⟩
  · rw [accepted, any, all]
    rfl
  · rw [accepted, counted, some, List.take_eq_take_iff]
    change min s.positional.length 2 = min (min 2 s.positional.length) 2
    omega

/-- A known signature is never passed more than it has parameters for. -/
theorem rest_or_share_le (known : s.inspectable = true) :
    s.rest.isSome = true ∨ s.share ≤ s.positional.length := by
  cases rest : s.rest with
  | some name => exact .inl rfl
  | none =>
    rw [share_of_known known rest]
    exact .inr (Nat.min_le_right _ _)

/-- The share of a known signature can be bound unless more than two parameters need an argument. -/
theorem admits_share (known : s.inspectable = true) : s.admits s.share = true ↔ s.required ≤ 2 := by
  have room : (s.rest.isSome || decide (s.share ≤ s.positional.length)) = true := by
    simpa using s.rest_or_share_le known
  have fewer : s.required ≤ s.positional.length := Nat.sub_le _ _
  rw [admits, room, Bool.and_true, decide_eq_true_iff]
  cases rest : s.rest with
  | some name => simp [share, rest]
  | none =>
    rw [share_of_known known rest]
    omega

variable {s} {v : Value Code} {args : List (Value Code)} {bindings : Bindings Code}

/-- Arguments cannot be bound if their number is not admitted. -/
theorem bind?_eq_none_iff : s.bind? args = none ↔ s.admits args.length = false := by
  unfold bind?
  split
  · next admitted => simp [admitted]
  · next refused => simpa using refused

/-- Whether a value has gone to the first of the parameters, or has become the first of all further
arguments if there is no parameter before these. -/
def Hands (s : Signature) (v : Value Code) (bindings : Bindings Code) : Prop :=
  match s.positional with
  | name :: _ => bindings.head? = some (name, v)
  | [] => ∃ name others, s.rest = some name ∧ (name, .tuple (v :: others)) ∈ bindings

/-- The first of the arguments that are bound goes to the first parameter. -/
theorem hands_of_bind? (bound : s.bind? (v :: args) = some bindings) : s.Hands v bindings := by
  unfold bind? at bound
  split at bound
  · next admitted =>
    cases bound
    unfold Hands
    cases parameters : s.positional with
    | cons name others => rfl
    | nil =>
      cases rest : s.rest with
      | none => simp [admits, parameters, rest] at admitted
      | some name => exact ⟨name, args, rfl, by simp⟩
  · cases bound

end Signature

/-- A callable is taken to accept an argument if its share of two is not empty. -/
theorem Callable.takesArgument_iff (f : Callable (Value Code) Code) :
    f.takesArgument = true ↔ 1 ≤ f.signature.share := by
  rcases f.signature.share_cases with ⟨any, all⟩ | ⟨counted, some⟩
  · simp [takesArgument, any, all]
  · rw [takesArgument, counted, some, decide_eq_true_iff]
    omega

namespace Setting

variable (setting : Setting Code) (f : Callable (Value Code) Code) (inherited : Value Code)

/-- What a function is passed out of the builder and what the base has. -/
def passes : List (Value Code) := [setting.builder, inherited].take f.signature.share

/-- As many arguments are passed as the share of the function is. -/
theorem length_passes : (setting.passes f inherited).length = f.signature.share := by
  have few := f.signature.share_le
  simp [passes, few]

/-- If anything is passed, the first is the builder. -/
theorem exists_passes_eq_cons (some : 1 ≤ f.signature.share) :
    ∃ others, setting.passes f inherited = setting.builder :: others := by
  obtain ⟨more, eq⟩ := Nat.exists_eq_add_of_le' some
  exact ⟨[inherited].take more, by rw [passes, eq]; rfl⟩

/-- A function of a description is called with its share of the builder and what the base has: with
both if it takes any number of arguments or its signature is not known, and otherwise with one for
each of its parameters at most. If its signature is known, these are never too many to be bound, and
they cannot be bound exactly if more than two of the parameters need an argument. A function is
taken for one of a section exactly if its share is not empty. So what is given for a section is
called if and only if it is passed the builder, which then goes to the first of its parameters, and
it stands for itself if it takes nothing. -/
theorem call_passes_share :
    (∀ place, setting.call place f inherited =
      f.apply setting.run place (setting.passes f inherited)) ∧
    (f.signature.inspectable = true →
      (f.signature.rest.isSome = true ∨
        (setting.passes f inherited).length ≤ f.signature.positional.length) ∧
      (f.signature.bind? (setting.passes f inherited) = none ↔
        2 < f.signature.positional.length - f.signature.optional) ∧
      (2 < f.signature.positional.length - f.signature.optional →
        ∀ place, setting.call place f inherited = throw (.fault .wrongType))) ∧
    (f.takesArgument = true ↔ 1 ≤ f.signature.share) ∧
    ∀ part,
      if 1 ≤ f.signature.share then
        (∀ bindings, f.signature.bind? (setting.passes f inherited) = some bindings →
          f.signature.Hands setting.builder bindings) ∧
        setting.evaluate part (.callable f) inherited = do
          let step := f.apply setting.run (setting.made "call" part.title)
            (setting.passes f inherited)
          return (← Build.absorb part.title step).getD inherited
      else setting.evaluate part (.callable f) inherited = return .callable f := by
  have called (place : Place) : setting.call place f inherited =
      f.apply setting.run place (setting.passes f inherited) := by
    rw [call, Callable.offer, Signature.accepted_pair]
    rfl
  have unbound (known : f.signature.inspectable = true) :
      f.signature.bind? (setting.passes f inherited) = none ↔
        2 < f.signature.positional.length - f.signature.optional := by
    rw [Signature.bind?_eq_none_iff, length_passes, ← Bool.not_eq_true,
      f.signature.admits_share known, Nat.not_le]
    rfl
  refine ⟨called, fun known ↦ ⟨?_, unbound known, fun more place ↦ ?_⟩, f.takesArgument_iff,
    fun part ↦ ?_⟩
  · rw [length_passes]
    exact f.signature.rest_or_share_le known
  · rw [called, Callable.apply, (unbound known).2 more]
  · split
    · next some =>
      constructor
      · intro bindings bound
        obtain ⟨others, eq⟩ := exists_passes_eq_cons setting f inherited some
        exact Signature.hands_of_bind? (eq ▸ bound)
      · have takes := f.takesArgument_iff.2 some
        simp only [evaluate, Value.callable?, takes, if_true, called]
    · next none =>
      refine evaluate_idle fun g same ↦ ?_
      cases same
      rwa [← Bool.not_eq_true, f.takesArgument_iff]

end Setting

end GrammarDoc
