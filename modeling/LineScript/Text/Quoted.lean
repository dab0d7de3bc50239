import LineScript.Text.Blank

/-!
Quoted text inside a line.
-/

namespace LineScript

/-- The character that opens and closes a quoted text. -/
def quoteMark : Char := '"'

/-- The text between the first two quotation marks, if there are two. -/
def quotedIn? (cs : List Char) : Option (List Char) :=
  (cutAt? (· = quoteMark) cs).bind fun opened =>
    (cutAt? (· = quoteMark) opened.2).map (·.1)

/-- The text between the first two quotation marks of a line, if there are two. -/
def quoted? (line : String) : Option String :=
  (quotedIn? line.toList).map String.ofList

end LineScript
