/-!
Texts as lists of lines. A line ends at a line feed, together with a carriage return right before
it, and the last line need not be ended.
-/

namespace LineScript

/-- Splits a text into its lines. The ends are dropped, and nothing follows the last of them. -/
def linesOf : List Char → List (List Char)
  | [] => []
  | '\n' :: cs => [] :: linesOf cs
  | '\r' :: '\n' :: cs => [] :: linesOf cs
  | c :: cs =>
    match linesOf cs with
    | [] => [[c]]
    | line :: rest => (c :: line) :: rest

/-- The lines of a text. -/
def splitLines (text : String) : List String :=
  (linesOf text.toList).map String.ofList

/-- The text that has the given lines, each ended by a line feed. -/
def joinLines (lines : List String) : String :=
  String.join (lines.map (· ++ "\n"))

/-- Bytes are compared as the core library does, also where another library brings an instance of
its own. -/
instance decEqBytes : DecidableEq ByteArray :=
  ByteArray.instDecidableEq

/-- Cuts bytes after each line feed. -/
def bytePieces : List UInt8 → List (List UInt8)
  | [] => []
  | b :: bs =>
    if b = 10 then [b] :: bytePieces bs
    else
      match bytePieces bs with
      | [] => [[b]]
      | piece :: rest => (b :: piece) :: rest

/-- The lines of a byte stream, up to the first one that is not valid UTF-8. -/
def readableLines : List (List UInt8) → List String
  | [] => []
  | piece :: rest =>
    match String.fromUTF8? ⟨piece.toArray⟩ with
    | none => []
    | some text => splitLines text ++ readableLines rest

/-- The lines that can be read from a byte stream. -/
def inputLines (bytes : ByteArray) : List String :=
  readableLines (bytePieces bytes.data.toList)

end LineScript
