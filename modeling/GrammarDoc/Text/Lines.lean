/-!
# Lines

Splitting a text into lines, each with the mark that ends it, and indenting it. A line feed, a
carriage return, the two together, and eight rarer separators end a line; a line that holds
nothing but blanks is not indented.
-/

namespace GrammarDoc.Text

/-- The characters that end a line by themselves. -/
def isLineEnd (c : Char) : Bool :=
  c ∈ ['\n', '\x0b', '\x0c', '\r', '\x1c', '\x1d', '\x1e', '\x85', '\u2028', '\u2029']

/-- Blanks are the line ends and the characters that only leave space. -/
def isBlank (c : Char) : Bool :=
  isLineEnd c || c ∈ ['\t', '\x1f', ' ', '\xa0', '\u1680', '\u202f', '\u205f', '\u3000'] ||
    (0x2000 ≤ c.toNat && c.toNat ≤ 0x200a)

/-- Puts a character in front of the first line. -/
def consLine (c : Char) : List (List Char) → List (List Char)
  | [] => [[c]]
  | line :: rest => (c :: line) :: rest

/-- The lines of a text, each with the mark that ends it; a carriage return and the line feed
after it end one line together. -/
def lines : List Char → List (List Char)
  | [] => []
  | '\r' :: '\n' :: rest => ['\r', '\n'] :: lines rest
  | c :: rest => if isLineEnd c then [c] :: lines rest else consLine c (lines rest)

/-- A line with the margin in front, or the line itself if it is blank. -/
def indentLine (margin line : List Char) : List Char :=
  if line.all isBlank then line else margin ++ line

/-- A text with the margin in front of each line that is not blank. -/
def indent (margin s : String) : String :=
  String.ofList ((lines s.toList).flatMap (indentLine margin.toList))

end GrammarDoc.Text
