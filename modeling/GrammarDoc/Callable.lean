import GrammarDoc.Place

/-!
# Callables

Functions and callable objects. What a callable does when it is called is either known here (it does
nothing, or it returns a certain value) or given as code that the library never looks into. Its
signature decides how many arguments it is passed and what it binds them to. Models
`_positional_arity` and `is_builder_function`.
-/

namespace GrammarDoc

/-- The parameters of a callable. -/
structure Signature where
  /-- Parameters that positional arguments go to. -/
  positional : List String := []
  /-- How many of them, from the last one on, may be left out. -/
  optional : Nat := 0
  /-- Whether they may not be given by name. -/
  positionalOnly : Bool := false
  /-- The parameter that takes all further positional arguments, if there is one. -/
  rest : Option String := none
  /-- Parameters that may be given by name only; all may be left out. -/
  named : List String := []
  /-- The parameter that takes all further named arguments, if there is one. -/
  namedRest : Option String := none
  /-- Whether the parameters can be inspected. -/
  inspectable : Bool := true

namespace Signature

/-- How many positional arguments are accepted at most; none if any number is, or if this cannot be
found out. Models `_positional_arity`. -/
def arity? (s : Signature) : Option Nat :=
  if s.inspectable && s.rest.isNone then some s.positional.length else none

/-- How many positional arguments are accepted at least. -/
def required (s : Signature) : Nat := s.positional.length - s.optional

/-- The arguments that are passed on out of those on offer: as many as are accepted. Models the
arguments of `call_with_builder`. -/
def accepted {α : Type} (s : Signature) (args : List α) : List α :=
  match s.arity? with
  | none => args
  | some n => args.take n

/-- Whether a number of positional arguments can be bound. -/
def admits (s : Signature) (n : Nat) : Bool :=
  s.required ≤ n && (s.rest.isSome || n ≤ s.positional.length)

end Signature

/-- What a callable does when it is called. -/
inductive Body (α Code : Type) where
  | nothing
  | constant (value : α)
  | code (code : Code)

/-- A function, or a callable object, which has no name. -/
structure Callable (α Code : Type) where
  /-- Where the callable was made, which is what tells it from all others. -/
  place : Place
  name : Option String
  signature : Signature
  body : Body α Code

namespace Callable

variable {α Code : Type}

/-- A named function that takes and does nothing. -/
def doNothing (place : Place) (name : String) : Callable α Code :=
  ⟨place, some name, {}, .nothing⟩

/-- A named function that takes nothing and returns a value. -/
def constant (place : Place) (name : String) (value : α) : Callable α Code :=
  ⟨place, some name, {}, .constant value⟩

/-- Whether a callable accepts a positional argument, or may accept one. Models
`is_builder_function`. -/
def takesArgument (f : Callable α Code) : Bool :=
  match f.signature.arity? with
  | none => true
  | some n => 0 < n

end Callable

end GrammarDoc
