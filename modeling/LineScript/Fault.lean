import LineScript.Block

/-!
What can go wrong while a script runs, and how it is reported.
-/

namespace LineScript

/-- Failures of reading and writing. -/
inductive IoFault where
  | notFound
  | notText
  | sinkFull
  | flushFailed
deriving Repr, DecidableEq

/-- The wording of a failure to read or write. -/
def IoFault.message : IoFault → String
  | .notFound => "No such file or directory (os error 2)"
  | .notText => "stream did not contain valid UTF-8"
  | .sinkFull => "sink full"
  | .flushFailed => "flush failed"

/-- The keywords that are followed by one name and nothing else. -/
inductive NameKeyword where
  | call
  | goto
  | label
  | macroHeader
deriving Repr, DecidableEq

/-- The spelling of a keyword. -/
def NameKeyword.text : NameKeyword → String
  | .call => "CALL"
  | .goto => "GOTO"
  | .label => "LABEL"
  | .macroHeader => "MACRO"

/-- Lines that are no statement, and statements that make no sense where they stand. -/
inductive SyntaxFault where
  | intForm
  | mutableForm
  | stringForm
  | ifForm
  | forForm
  | printVarForm
  | nameForm (keyword : NameKeyword)
  | missingEquals
  | notInteger (word : String)
  | unquotedString
  | unquotedPrint
  | unquotedOperand
  | unquotedAssignment
  | stepNotPositive
  | unknownOperator
  | invalidName
  | nameTaken
  | notVariable (name : String)
  | missingOperator (name : String)
  | operandCount (operator : String)
  | stringTarget (name : String)
  | missingBody (kind : BlockKind)
deriving Repr, DecidableEq

/-- The wording of a syntax fault. -/
def SyntaxFault.message : SyntaxFault → String
  | .intForm => "INT expects: INT name = value"
  | .mutableForm => "MUTABLE INT expects: MUTABLE INT name [= value]"
  | .stringForm => "STRING expects: STRING name = \"value\""
  | .ifForm => "IF expects: IF name <op> value"
  | .forForm => "FOR expects: FOR var FROM a TO b [INCREMENT c]"
  | .printVarForm => "PRINTVAR expects a name"
  | .nameForm keyword => keyword.text ++ " expects exactly one name"
  | .missingEquals => "Expected '=' sign!"
  | .notInteger word => "Expected integer, found '" ++ word ++ "'"
  | .unquotedString => "STRING expects a quoted value"
  | .unquotedPrint => "PRINTSTR expects a quoted string"
  | .unquotedOperand => "IF operand must be an integer or a quoted string"
  | .unquotedAssignment => "string assignment expects a quoted string"
  | .stepNotPositive => "INCREMENT must be a positive integer"
  | .unknownOperator => "Unknown operator!"
  | .invalidName => "Expected valid variable name!"
  | .nameTaken => "Expected new variable name!"
  | .notVariable name => name ++ " is not a variable"
  | .missingOperator name => "Expected an operator after " ++ name
  | .operandCount operator => "Wrong number of operands for " ++ operator
  | .stringTarget name => "String " ++ name ++ " expects: " ++ name ++ " = \"value\""
  | .missingBody kind => kind.keyword ++ " header without a body"

/-- Integer operations without a result. -/
inductive ArithmeticFault where
  | divisionByZero
  | overflow
  | loopOverflow (var : String)
deriving Repr, DecidableEq

/-- The wording of an arithmetic fault. -/
def ArithmeticFault.message : ArithmeticFault → String
  | .divisionByZero => "division by zero"
  | .overflow => "integer overflow"
  | .loopOverflow var => var ++ " overflowed"

/-- The kinds of thing that are looked up by name. -/
inductive NameKind where
  | variableName
  | macroName
  | labelName
deriving Repr, DecidableEq

/-- The word for a kind of name. -/
def NameKind.text : NameKind → String
  | .variableName => "Variable"
  | .macroName => "Macro"
  | .labelName => "Label"

/-- What was repeated too often. -/
inductive Repetition where
  | jumps (label : String)
  | calls (name : String)
deriving Repr, DecidableEq

/-- The words for what was repeated. -/
def Repetition.text : Repetition → String
  | .jumps label => "label " ++ label
  | .calls name => "call depth of macro " ++ name

/-- The faults that end a run. -/
inductive Fault where
  | malformed (cause : SyntaxFault)
  | unknownToken (word : String)
  | missing (kind : NameKind) (name : String)
  | tooMany (what : Repetition) (limit : Nat)
  | arithmetic (cause : ArithmeticFault)
  | output (cause : IoFault)
  | terminated
deriving Repr, DecidableEq

namespace Fault

/-- The wording of a fault. -/
def message : Fault → String
  | malformed cause => "Syntax Error: " ++ cause.message
  | unknownToken word => "Syntax Error: Unknown token: " ++ word
  | missing kind name => kind.text ++ " " ++ name ++ " not found"
  | tooMany what limit => "Stack overflow: " ++ what.text ++ " exceeded " ++ toString limit
  | arithmetic cause => "Arithmetic Error: " ++ cause.message
  | output cause => "output error: " ++ cause.message
  | terminated => "terminated"

/-- An unknown leading word and a requested stop are critical. -/
def isCritical : Fault → Bool
  | unknownToken _ | terminated => true
  | _ => false

/-- Whether the run was asked to stop. -/
def isTermination : Fault → Bool
  | terminated => true
  | _ => false

end Fault

end LineScript
