/-!
Integers of 64 bits whose operations fail, rather than wrap, when the result does not fit.
-/

namespace LineScript

/-- The integer of 64 bits with the given value, if there is one. -/
def checked (z : Int) : Option Int64 :=
  if Int64.minValue.toInt ≤ z ∧ z ≤ Int64.maxValue.toInt then some (Int64.ofInt z) else none

/-- The sum, if it fits. -/
def add? (x y : Int64) : Option Int64 := checked (x.toInt + y.toInt)

/-- The difference, if it fits. -/
def sub? (x y : Int64) : Option Int64 := checked (x.toInt - y.toInt)

/-- The product, if it fits. -/
def mul? (x y : Int64) : Option Int64 := checked (x.toInt * y.toInt)

/-- The quotient rounded toward zero, if it fits. -/
def div? (x y : Int64) : Option Int64 := checked (x.toInt.tdiv y.toInt)

/-- The power in double precision, rounded to the nearest integer with halves away from zero, if
it fits. A negative exponent gives a fraction that is rounded like any other result. -/
def power? (x y : Int64) : Option Int64 :=
  let p := (x.toFloat.pow y.toFloat).round
  if p.isFinite && -9223372036854775808.0 ≤ p && p < 9223372036854775808.0 then some p.toInt64
  else none

end LineScript
