import LineScript.Fault
import LineScript.Statement

/-!
The canonical line of a statement.
-/

namespace LineScript

/-- A text between quotation marks. -/
def quote (text : String) : String :=
  "\"" ++ text ++ "\""

/-- The word that ends the printed line, if it is to be ended. -/
def newlineMark (newline : Bool) : String :=
  if newline then " endl" else ""

/-- The spelling of an operand. -/
def Operand.render : Operand → String
  | int value => toString value
  | text value => quote value

/-- The spelling of a bound. -/
def Bound.render : Bound → String
  | upTo last => toString last
  | unbounded => "NaN"

/-- The spelling of a loop header. A step of one is left out. -/
def LoopHeader.render (header : LoopHeader) : String :=
  "FOR " ++ header.var ++ " FROM " ++ toString header.first ++ " TO " ++ header.bound.render ++
    (if header.step = 1 then "" else " INCREMENT " ++ toString header.step)

/-- The canonical line of a statement. -/
def Statement.render : Statement → String
  | declareInt name value => "INT " ++ name ++ " = " ++ toString value
  | declareString name value => "STRING " ++ name ++ " = " ++ quote value
  | declareMutable name none => "MUTABLE INT " ++ name
  | declareMutable name (some value) => "MUTABLE INT " ++ name ++ " = " ++ toString value
  | assign name args => args.foldl (fun line arg => line ++ " " ++ arg) name
  | assignString name value => name ++ " = " ++ quote value
  | printVar name newline => "PRINTVAR " ++ name ++ newlineMark newline
  | printText text newline => "PRINTSTR " ++ quote text ++ newlineMark newline
  | ifHeader c => "IF " ++ c.name ++ " " ++ c.op.symbol ++ " " ++ c.operand.render
  | forHeader header => header.render
  | macroHeader name => "MACRO " ++ name
  | call name => "CALL " ++ name
  | label name => "LABEL " ++ name
  | goto name => "GOTO " ++ name
  | comment => "//"
  | endBlock kind => kind.terminator

end LineScript
