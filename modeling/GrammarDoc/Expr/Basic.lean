import GrammarDoc.Expr.Operation

/-!
# Expressions

The expressions that descriptions of grammars are written in, and the closures that functions
written in them have as their code.
-/

namespace GrammarDoc

/-- An expression. -/
inductive Expr where
  | missing
  | bool (b : Bool)
  | int (i : Int)
  /-- A double-precision number, by its text. -/
  | double (text : String)
  | string (s : String)
  | pattern (p : Pattern)
  | list (items : List Expr)
  | tuple (items : List Expr)
  | mapping (entries : List (Expr × Expr))
  /-- A function or, if it has no name, a callable object. -/
  | function (name : Option String) (signature : Signature) (body : Expr)
  | var (name : String)
  | attr (of : Expr) (name : String)
  | item (of key : Expr)
  | add (a b : Expr)
  /-- A call without arguments. -/
  | invoke (of : Expr)
  /-- Raises a problem of a kind or, if no kind is given, refuses. -/
  | raise (kind : Option Kind) (message : Expr) (within : Option String) (value : Expr)
  /-- A call of a library function. -/
  | call (operation : Operation) (args : List Expr)

namespace Expr

instance : Inhabited Expr := ⟨missing⟩

mutual

/-- The number of nodes of an expression. -/
def size : Expr → Nat
  | missing | bool _ | int _ | double _ | string _ | pattern _ | var _ => 1
  | list items | tuple items | call _ items => sizeOfAll items + 1
  | mapping entries => sizeOfEntries entries + 1
  | function _ _ body => body.size + 1
  | attr of _ | invoke of => of.size + 1
  | item of key => of.size + key.size + 1
  | add a b => a.size + b.size + 1
  | raise _ message _ value => message.size + value.size + 1

/-- The number of nodes of some expressions. -/
def sizeOfAll : List Expr → Nat
  | [] => 0
  | e :: rest => e.size + sizeOfAll rest

/-- The number of nodes of some entries. -/
def sizeOfEntries : List (Expr × Expr) → Nat
  | [] => 0
  | (key, v) :: rest => key.size + v.size + sizeOfEntries rest

end

end Expr

/-- The code of a function written in the expression language: its body, and the values of the
variables where it was written. A function written outside of all others has none of its own: it
uses the variables of the session as they are when it is called. -/
inductive Closure where
  | mk (body : Expr) (scope : Option (List (String × Value Closure)))

/-- The values of variables. -/
abbrev Scope := List (String × Value Closure)

end GrammarDoc
