/-!
Blank characters, and the words that they separate.
-/

namespace LineScript

/-- The code points with the Unicode property `White_Space`, as closed ranges in ascending order. -/
def blankRanges : List (Nat × Nat) :=
  [(0x09, 0x0D), (0x20, 0x20), (0x85, 0x85), (0xA0, 0xA0), (0x1680, 0x1680), (0x2000, 0x200A),
    (0x2028, 0x2029), (0x202F, 0x202F), (0x205F, 0x205F), (0x3000, 0x3000)]

/-- A blank character separates words. -/
def isBlank (c : Char) : Bool :=
  blankRanges.any fun range => range.1 ≤ c.toNat && c.toNat ≤ range.2

/-- The blank characters of ASCII that separate the parts of a settings line. The vertical tab is
not among them. -/
def isAsciiBlank (c : Char) : Bool :=
  c = ' ' || c = '\t' || c = '\n' || c = '\x0c' || c = '\r'

/-- Adds a piece in front, unless it is empty. -/
def consPiece (piece : List Char) (rest : List (List Char)) : List (List Char) :=
  if piece = [] then rest else piece :: rest

/-- Cuts a text into the piece it begins with, which is empty if it begins with a separator, and
the pieces after that. -/
def cutPiece (isSeparator : Char → Bool) : List Char → List Char × List (List Char)
  | [] => ([], [])
  | c :: cs =>
    let (piece, rest) := cutPiece isSeparator cs
    if isSeparator c then ([], consPiece piece rest) else (c :: piece, rest)

/-- The maximal runs of characters that are not separators. -/
def pieces (isSeparator : Char → Bool) (cs : List Char) : List (List Char) :=
  consPiece (cutPiece isSeparator cs).1 (cutPiece isSeparator cs).2

/-- The words of a line, which blanks separate. -/
def words (line : String) : List String :=
  (pieces isBlank line.toList).map String.ofList

/-- Removes the blanks at both ends. -/
def trimBlanks (cs : List Char) : List Char :=
  ((cs.dropWhile isBlank).reverse.dropWhile isBlank).reverse

/-- Cuts a text at the first character that satisfies `p`, which belongs to neither part. -/
def cutAt? (p : Char → Bool) : List Char → Option (List Char × List Char)
  | [] => none
  | c :: cs => if p c then some ([], cs) else (cutAt? p cs).map fun parts => (c :: parts.1, parts.2)

end LineScript
