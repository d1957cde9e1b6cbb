import GrammarDoc.Exec

/-!
# Calls

Calling a function of a description. The library binds the arguments; what the code of a function
then does is left to an interpreter, which may be any function at all. Models the call in
`call_with_builder`.
-/

namespace GrammarDoc

/-- The parameters of a call with their values. -/
abbrev Bindings (Code : Type) := List (String × Value Code)

/-- What the code of functions does when it is called, as a step at a place, under given
bindings. -/
abbrev Interpreter (Code : Type) := Place → Code → Bindings Code → Exec Code (Value Code)

variable {Code : Type}

/-- Binds positional arguments, if as many can be bound: parameters left out get `missing`, and
arguments left over go to the parameter for the rest as a tuple. -/
def Signature.bind? (s : Signature) (args : List (Value Code)) : Option (Bindings Code) :=
  if s.admits args.length then
    let given := s.positional.zip args
    let omitted := (s.positional.drop args.length ++ s.named).map fun name ↦ (name, Value.missing)
    let rest := s.rest.toList.map fun name ↦ (name, Value.tuple (args.drop s.positional.length))
    some (given ++ omitted ++ rest)
  else none

namespace Callable

/-- Calls a callable, as a step at a place, with exactly the given arguments. -/
def apply (run : Interpreter Code) (place : Place) (f : Callable (Value Code) Code)
    (args : List (Value Code)) : Exec Code (Value Code) :=
  match f.signature.bind? args with
  | none => throw (.fault .wrongType)
  | some bindings =>
    match f.body with
    | .nothing => return .missing
    | .constant v => return v
    | .code code => run place code bindings

/-- Calls a callable with as many of the arguments on offer as it accepts. Models
`call_with_builder`. -/
def offer (run : Interpreter Code) (place : Place) (f : Callable (Value Code) Code)
    (args : List (Value Code)) : Exec Code (Value Code) :=
  f.apply run place (f.signature.accepted args)

end Callable

end GrammarDoc
