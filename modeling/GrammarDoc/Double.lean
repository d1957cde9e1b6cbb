import GrammarDoc.Place

/-!
# Double-precision numbers

A precedence may be a double-precision number. It is never computed with: it is read from its
shortest text, compared and written again. So the text stands for the number. A text that is not
a number at all keeps the place where it was written, since such a value equals only itself.
-/

namespace GrammarDoc

/-- A double-precision number, known by the shortest decimal text that reads back as it. -/
inductive Double where
  /-- The value that is no number, written at one place. -/
  | nan (place : Place)
  /-- Any other value, infinities and the negative zero included. -/
  | number (text : String)
  deriving DecidableEq

namespace Double

/-- The text of the number. -/
def text : Double → String
  | nan _ => "nan"
  | number text => text

/-- The two zeros equal each other. -/
def isZero : Double → Bool
  | nan _ => false
  | number text => text == "0.0" || text == "-0.0"

/-- Equality of numbers: no text but those of the two zeros differs from one that it equals. -/
def eq (x y : Double) : Bool :=
  match x, y with
  | number s, number t => s == t || (x.isZero && y.isZero)
  | _, _ => false

/-- Rounds to 53 binary digits, a half to the even neighbour. -/
def roundSignificand (n : Nat) : Nat :=
  let unit := Nat.pow 2 (n.log2 + 1 - 53)
  let below := n / unit
  let rest := n % unit
  if 2 * rest < unit || (2 * rest == unit && below % 2 == 0) then below * unit
  else (below + 1) * unit

/-- The value of decimal digits. -/
def digitsValue (digits : List Char) : Nat :=
  digits.foldl (fun n c ↦ 10 * n + (c.toNat - '0'.toNat)) 0

/-- The value of decimal digits behind an optional sign. -/
def signedValue : List Char → Int
  | '-' :: digits => -(digitsValue digits : Int)
  | '+' :: digits => digitsValue digits
  | digits => digitsValue digits

/-- The whole number that decimal digits stand for after moving the point, if it is whole. -/
def shifted? (digits : Nat) (exponent : Int) : Option Nat :=
  if 0 ≤ exponent then some (digits * Nat.pow 10 exponent.toNat)
  else
    let unit := Nat.pow 10 (-exponent).toNat
    if digits % unit == 0 then some (digits / unit) else none

/-- The whole number that an unsigned text stands for, if it is whole. -/
def magnitude? (cs : List Char) : Option Nat :=
  let mantissa := cs.takeWhile (· != 'e')
  let exponent := signedValue (cs.dropWhile (· != 'e')).tail
  let whole := mantissa.takeWhile (· != '.')
  let fraction := (mantissa.dropWhile (· != '.')).tail
  if whole.all Char.isDigit && fraction.all Char.isDigit then
    (shifted? (digitsValue (whole ++ fraction)) (exponent - fraction.length)).map roundSignificand
  else none

/-- The integer that the number equals, if it equals one. The shortest text of an integer may
name a neighbour of it, so the digits are rounded to the nearest double-precision number. -/
def toInt? : Double → Option Int
  | nan _ => none
  | number text =>
    match text.toList with
    | '-' :: cs => (magnitude? cs).map fun n ↦ -(n : Int)
    | cs => (magnitude? cs).map fun n ↦ (n : Int)

end Double

end GrammarDoc
