import LineScript.Block
import LineScript.Integer

/-!
The statements of a script, one to a line.
-/

namespace LineScript

/-- The comparison in an `IF` header. -/
inductive Comparison where
  | eq
  | ne
  | lt
  | gt
  | le
  | ge
deriving Repr, DecidableEq

namespace Comparison

/-- The spelling of a comparison. -/
def symbol : Comparison → String
  | eq => "=="
  | ne => "!="
  | lt => "<"
  | gt => ">"
  | le => "<="
  | ge => ">="

/-- Reads a comparison. -/
def read? : String → Option Comparison
  | "==" => some eq
  | "!=" => some ne
  | "<" => some lt
  | ">" => some gt
  | "<=" => some le
  | ">=" => some ge
  | _ => none

/-- Whether two values compare so. Texts are compared by code points. -/
def test {α : Type} [DecidableEq α] [LT α] [DecidableLT α] (op : Comparison) (x y : α) : Bool :=
  match op with
  | eq => x = y
  | ne => x ≠ y
  | lt => x < y
  | gt => y < x
  | le => ¬ y < x
  | ge => ¬ x < y

end Comparison

/-- The right side of a comparison. -/
inductive Operand where
  | int (value : Int64)
  | text (value : String)
deriving Repr, DecidableEq

/-- What an `IF` header asks. -/
structure Condition where
  name : String
  op : Comparison
  operand : Operand
deriving Repr, DecidableEq

/-- Where a loop ends. -/
inductive Bound where
  /-- The last value that may be reached. -/
  | upTo (last : Int64)
  /-- The loop does not end by itself. -/
  | unbounded
deriving Repr, DecidableEq

/-- What a `FOR` header asks. -/
structure LoopHeader where
  var : String
  first : Int64
  bound : Bound
  step : Int64
deriving Repr, DecidableEq

/-- The operators that change a variable. -/
inductive Update where
  | set
  | increment
  | decrement
  | add
  | subtract
  | multiply
  | divide
  | raise
deriving Repr, DecidableEq

namespace Update

/-- The spelling of an operator. -/
def symbol : Update → String
  | set => "="
  | increment => "++"
  | decrement => "--"
  | add => "+="
  | subtract => "-="
  | multiply => "*="
  | divide => "/="
  | raise => "**="

/-- Reads an operator. -/
def read? : String → Option Update
  | "=" => some set
  | "++" => some increment
  | "--" => some decrement
  | "+=" => some add
  | "-=" => some subtract
  | "*=" => some multiply
  | "/=" => some divide
  | "**=" => some raise
  | _ => none

/-- The operators that take no operand. -/
def isUnary : Update → Bool
  | increment | decrement => true
  | _ => false

end Update

/-- A line of a script. -/
inductive Statement where
  | declareInt (name : String) (value : Int64)
  | declareString (name value : String)
  | declareMutable (name : String) (value : Option Int64)
  /-- An operator and its operand, to be made sense of when the kind of the variable is known. -/
  | assign (name : String) (args : List String)
  | assignString (name value : String)
  | printVar (name : String) (newline : Bool)
  | printText (text : String) (newline : Bool)
  | ifHeader (condition : Condition)
  | forHeader (header : LoopHeader)
  | macroHeader (name : String)
  | call (name : String)
  | label (name : String)
  | goto (name : String)
  /-- A comment, or a line without words. -/
  | comment
  | endBlock (kind : BlockKind)
deriving Repr, DecidableEq

/-- The kind of block that a statement opens. -/
def Statement.opens? : Statement → Option BlockKind
  | ifHeader _ => some .ifBlock
  | forHeader _ => some .forBlock
  | macroHeader _ => some .macroBlock
  | _ => none

end LineScript
