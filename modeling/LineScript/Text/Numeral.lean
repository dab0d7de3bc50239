import LineScript.Integer

/-!
Decimal numerals. A numeral has at least one digit, and nothing but digits after its sign.
-/

namespace LineScript

/-- The value of a run of digits, read after digits with the value `n`. -/
def digitsAfter (n : Nat) : List Char → Option Nat
  | [] => some n
  | c :: cs => if c.isDigit then digitsAfter (10 * n + (c.toNat - '0'.toNat)) cs else none

/-- The value of a numeral without a sign. -/
def unsigned? (cs : List Char) : Option Nat :=
  if cs = [] then none else digitsAfter 0 cs

/-- The value of a numeral that may have a plus sign. -/
def natural? : List Char → Option Nat
  | '+' :: cs => unsigned? cs
  | cs => unsigned? cs

/-- The value of a numeral that may have a sign. -/
def signed? : List Char → Option Int
  | '-' :: cs => (unsigned? cs).map fun n => -(n : Int)
  | cs => (natural? cs).map Int.ofNat

/-- Reads an integer of 64 bits. -/
def readInt? (text : String) : Option Int64 :=
  (signed? text.toList).bind checked

/-- The greatest count that limits and counters can hold. -/
def maxCount : Nat := UInt32.size - 1

/-- Reads a count. -/
def readCount? (text : String) : Option Nat :=
  (natural? text.toList).filter (· ≤ maxCount)

end LineScript
