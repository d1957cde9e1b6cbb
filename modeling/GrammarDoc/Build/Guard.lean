import GrammarDoc.Build.Journal

/-!
# Guards

A guard stands before the handler of a section and lets only values of a certain shape through. For
all others it has a fallback, and unless the value may be missing it reports a problem. Models
`require_array`, `require_object` and `allow_missing`.
-/

namespace GrammarDoc

variable {Code α : Type}

/-- The shapes that guards look for. -/
inductive Shape where
  /-- Lists and tuples; the context is part of the message. -/
  | array (context : String)
  /-- Mappings; the context is part of the message. -/
  | object (context : String)
  /-- All that is not missing. -/
  | present
  deriving DecidableEq

/-- Whether a value has a shape. -/
def Shape.admits : Shape → Value Code → Bool
  | array _, v => v.array?.isSome
  | object _, v => v.object?.isSome
  | present, .missing => false
  | present, _ => true

/-- The problem with a value that has not the shape, if that is a problem. -/
def Shape.problem? : Shape → Value Code → Option (Problem Code)
  | array context, v => some ⟨.notAnArray context v, some context⟩
  | object context, v => some ⟨.notAnObject context v, some context⟩
  | present, _ => none

/-- A shape and the fallback for values that have not got it. -/
structure Guard (α : Type) where
  shape : Shape
  fallback : α

/-- The handler behind a guard, which hands out a copy of its fallback. Models the decorators
`require_array`, `require_object` and `allow_missing`. -/
def Guard.before (guard : Guard α) (copy : α → Build Code α) (handler : Value Code → Build Code α)
    (v : Value Code) : Build Code α := do
  if guard.shape.admits v then handler v
  else
    match guard.shape.problem? v with
    | some p => Build.report p
    | none => pure ()
    copy guard.fallback

/-- The handler behind several guards, the outermost first. What has no place of its own, such as
the rules that a section results in, is its own copy. -/
def guarded (copy : α → Build Code α) (guards : List (Guard α))
    (handler : Value Code → Build Code α) : Value Code → Build Code α :=
  guards.foldr (fun guard ↦ guard.before copy) handler

/-- A copy, made at a place, of the outermost layer of a value as it is at present. -/
def Build.copied (place : Place) (v : Value Code) : Build Code (Value Code) := do
  return (← Build.present v).outerCopied place

end GrammarDoc
