/-!
# Addresses

Texts are shown without addresses. An address is the mark ` at 0x` with hexadecimal digits after
it, up to the bracket that closes the text of a nameless thing; the bracket is kept.
-/

namespace GrammarDoc.Text

/-- Hexadecimal digits, their letters in either case. -/
def isHexDigit (c : Char) : Bool :=
  c.isDigit || ('a' ≤ c && c ≤ 'f') || ('A' ≤ c && c ≤ 'F')

/-- How many characters the address takes that a text begins with. -/
def addressLength? : List Char → Option Nat
  | ' ' :: 'a' :: 't' :: ' ' :: '0' :: 'x' :: rest =>
    let digits := rest.takeWhile isHexDigit
    match rest.drop digits.length with
    | '>' :: _ => if digits.isEmpty then none else some (digits.length + 6)
    | _ => none
  | _ => none

/-- The characters of a text that are in no address, once some more of one are skipped. -/
def dropAddresses : Nat → List Char → List Char
  | _, [] => []
  | skipped + 1, _ :: rest => dropAddresses skipped rest
  | 0, c :: rest =>
    match addressLength? (c :: rest) with
    | some length => dropAddresses (length - 1) rest
    | none => c :: dropAddresses 0 rest

/-- A text without its addresses. -/
def withoutAddresses (s : String) : String := String.ofList (dropAddresses 0 s.toList)

end GrammarDoc.Text
