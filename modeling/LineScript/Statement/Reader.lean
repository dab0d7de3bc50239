import LineScript.Fault
import LineScript.Statement
import LineScript.Text.Blank
import LineScript.Text.Numeral
import LineScript.Text.Quoted

/-!
Reading a line as a statement. A line that begins with a keyword is a statement of that keyword or
a fault; any other line changes a variable. Only the second kind depends on which names are
strings, so that is a parameter.
-/

namespace LineScript

/-- What a line may begin with. -/
inductive Keyword where
  | int
  | printVar
  | name (keyword : NameKeyword)
  | mutableInt
  | comment
  | string
  | printText
  | ifHeader
  | forHeader
  | endBlock (kind : BlockKind)
deriving Repr, DecidableEq

namespace Keyword

/-- The spelling of a keyword. Two words of one keyword are separated by exactly one space. -/
def letters : Keyword → List Char
  | int => "INT".toList
  | printVar => "PRINTVAR".toList
  | name .call => "CALL".toList
  | name .goto => "GOTO".toList
  | name .label => "LABEL".toList
  | name .macroHeader => "MACRO".toList
  | mutableInt => "MUTABLE INT".toList
  | comment => "//".toList
  | string => "STRING".toList
  | printText => "PRINTSTR".toList
  | ifHeader => "IF".toList
  | forHeader => "FOR".toList
  | endBlock .ifBlock => "END IF".toList
  | endBlock .forBlock => "END FOR".toList
  | endBlock .macroBlock => "END MACRO".toList

/-- All keywords. None of their spellings begins with another one, so their order does not
matter. -/
def all : List Keyword :=
  [int, printVar, name .call, mutableInt, comment, name .goto, name .label, string, printText,
    ifHeader, forHeader, name .macroHeader, endBlock .ifBlock, endBlock .forBlock,
    endBlock .macroBlock]

/-- Whether a line begins with a keyword: in the first column, and with a blank or the end of the
line after it. The mark of a comment needs nothing after it. -/
def opens (keyword : Keyword) (line : List Char) : Bool :=
  keyword.letters.isPrefixOf line &&
    (keyword = comment || (line.drop keyword.letters.length).head?.all isBlank)

end Keyword

/-- The keyword that a line begins with. -/
def leadingKeyword? (line : String) : Option Keyword :=
  let letters := line.toList
  Keyword.all.find? (·.opens letters)

/-- The last of at least two words asks for the end of the line. -/
def endsLine : List String → Bool
  | [] => false
  | _ :: more => more.getLast? = some "endl"

/-- Reads a word as an integer. -/
def readInteger (word : String) : Except SyntaxFault Int64 :=
  match readInt? word with
  | some n => .ok n
  | none => .error (.notInteger word)

/-- Reads the words after `INT`. -/
def readIntDeclaration : List String → Except SyntaxFault Statement
  | [name, sign, value] =>
    if sign = "=" then (readInteger value).map (.declareInt name) else .error .missingEquals
  | _ => .error .intForm

/-- Reads the words after `MUTABLE INT`. -/
def readMutableDeclaration : List String → Except SyntaxFault Statement
  | [name] => .ok (.declareMutable name none)
  | [name, sign, value] =>
    if sign = "=" then (readInteger value).map fun n => .declareMutable name (some n)
    else .error .missingEquals
  | _ => .error .mutableForm

/-- Reads the words after `STRING`. The value is taken from the whole line. -/
def readStringDeclaration (line : String) : List String → Except SyntaxFault Statement
  | name :: sign :: _ :: _ =>
    if sign = "=" then
      match quoted? line with
      | some value => .ok (.declareString name value)
      | none => .error .unquotedString
    else .error .missingEquals
  | _ => .error .stringForm

/-- Reads the words after a keyword that is followed by one name. -/
def readName (keyword : NameKeyword) : List String → Except SyntaxFault Statement
  | [name] =>
    .ok <|
      match keyword with
      | .call => .call name
      | .goto => .goto name
      | .label => .label name
      | .macroHeader => .macroHeader name
  | _ => .error (.nameForm keyword)

/-- Reads the words after `PRINTVAR`. -/
def readPrintVar : List String → Except SyntaxFault Statement
  | [] => .error .printVarForm
  | name :: more => .ok (.printVar name (endsLine (name :: more)))

/-- Reads the words after `PRINTSTR`. The text is taken from the whole line. -/
def readPrintText (line : String) (args : List String) : Except SyntaxFault Statement :=
  match quoted? line with
  | some text => .ok (.printText text (endsLine args))
  | none => .error .unquotedPrint

/-- Reads the right side of a comparison. A word that is not an integer stands for the quoted
text of the line. -/
def readOperand (line word : String) : Except SyntaxFault Operand :=
  match readInt? word with
  | some n => .ok (.int n)
  | none =>
    match quoted? line with
    | some text => .ok (.text text)
    | none => .error .unquotedOperand

/-- Reads the words after `IF`. -/
def readIfHeader (line : String) : List String → Except SyntaxFault Statement
  | name :: symbol :: operand :: _ =>
    match Comparison.read? symbol with
    | some op => (readOperand line operand).map fun value => .ifHeader ⟨name, op, value⟩
    | none => .error .unknownOperator
  | _ => .error .ifForm

/-- Reads the word that says where a loop ends. -/
def readBound (word : String) : Except SyntaxFault Bound :=
  if word = "NaN" then .ok .unbounded else (readInteger word).map .upTo

/-- Reads the words after the bound of a loop, which give its step. -/
def readStep : List String → Except SyntaxFault Int64
  | [] => .ok 1
  | [keyword, word] =>
    if keyword = "INCREMENT" then
      match readInteger word with
      | .ok step => if step ≤ 0 then .error .stepNotPositive else .ok step
      | .error fault => .error fault
    else .error .forForm
  | _ => .error .forForm

/-- Reads the words after `FOR`. The number of words is checked before any of them. -/
def readForHeader : List String → Except SyntaxFault Statement
  | var :: fromWord :: first :: toWord :: last :: more =>
    if (more.length = 0 ∨ more.length = 2) ∧ fromWord = "FROM" ∧ toWord = "TO" then do
      let first ← readInteger first
      let bound ← readBound last
      let step ← readStep more
      return .forHeader ⟨var, first, bound, step⟩
    else .error .forForm
  | _ => .error .forForm

/-- Reads the words after a keyword. -/
def readAfter (line : String) (args : List String) : Keyword → Except SyntaxFault Statement
  | .int => readIntDeclaration args
  | .printVar => readPrintVar args
  | .name keyword => readName keyword args
  | .mutableInt => readMutableDeclaration (args.drop 1)
  | .comment => .ok .comment
  | .string => readStringDeclaration line args
  | .printText => readPrintText line args
  | .ifHeader => readIfHeader line args
  | .forHeader => readForHeader args
  | .endBlock kind => .ok (.endBlock kind)

/-- Reads a line that begins with the name of a string. -/
def readStringAssignment (line name : String) (args : List String) : Except SyntaxFault Statement :=
  if args.head? = some "=" then
    match quoted? line with
    | some value => .ok (.assignString name value)
    | none => .error .unquotedAssignment
  else .error .missingEquals

/-- Reads a line. `isString` says which names are strings. -/
def Statement.read (isString : String → Bool) (line : String) : Except SyntaxFault Statement :=
  match words line with
  | [] => .ok .comment
  | first :: args =>
    match leadingKeyword? line with
    | some keyword => readAfter line args keyword
    | none =>
      if isString first then readStringAssignment line first args
      else if Keyword.comment.letters.isPrefixOf first.toList then .ok .comment
      else .ok (.assign first args)

end LineScript
