/-!
The options on the command line. Single letters follow a hyphen, several in one word if need be;
a letter that takes an operand takes the rest of its word, or the next word.
-/

namespace LineScript

/-- Which settings file is read. -/
inductive SettingsSource where
  /-- The first one in the usual places. -/
  | search
  /-- None. -/
  | skip
  /-- The one with this path. -/
  | file (path : String)
deriving Repr, DecidableEq

/-- What the command line asks for. -/
structure Options where
  source : SettingsSource := .search
  /-- A statement to run first. -/
  command : Option String := none
  logFile : Option String := none
  quiet : Bool := false
  debug : Bool := false
  /-- A script to run instead of the console. -/
  script : Option String := none
deriving Repr, DecidableEq

/-- What can be wrong with a command line. -/
inductive OptionFault where
  | missingStatement
  | missingLogFile
  | unknownOption (letter : Char)
  | tooMany (count : Nat)
deriving Repr, DecidableEq

/-- The wording of a faulty command line. -/
def OptionFault.message : OptionFault → String
  | missingStatement => "-c requires a statement argument"
  | missingLogFile => "-l requires a file argument"
  | unknownOption letter => "unknown option: -" ++ String.ofList [letter]
  | tooMany count => "too many arguments (" ++ toString count ++ ")"

namespace Options

/-- The options that take an operand. -/
inductive Operand where
  | settings
  | command
  | logFile
deriving Repr, DecidableEq

/-- Gives an option its operand. -/
def supply (o : Options) (value : String) : Operand → Options
  | .settings => { o with source := .file value }
  | .command => { o with command := some value }
  | .logFile => { o with logFile := some value }

/-- An option for which no operand is left. Only the settings file can do without. -/
def supplyNothing (o : Options) : Operand → Except OptionFault Options
  | .settings => .ok { o with source := .skip }
  | .command => .error .missingStatement
  | .logFile => .error .missingLogFile

/-- Whether a word may be the operand of an option before it. The path of a settings file may not
begin with a hyphen. -/
def accepts (operand : Operand) (word : String) : Bool :=
  operand ≠ .settings || word.toList.head? ≠ some '-'

/-- Reads the letters of a word. The second part of the result is the option that still wants its
operand. -/
def readLetters (o : Options) : List Char → Except OptionFault (Options × Option Operand)
  | [] => .ok (o, none)
  | 'd' :: rest => readLetters { o with debug := true } rest
  | 'q' :: rest => readLetters { o with quiet := true } rest
  | 'f' :: rest => .ok (takeRest .settings rest)
  | 'c' :: rest => .ok (takeRest .command rest)
  | 'l' :: rest => .ok (takeRest .logFile rest)
  | letter :: _ => .error (.unknownOption letter)
where
  /-- Gives an option the rest of the word, if there is any. -/
  takeRest (operand : Operand) (rest : List Char) : Options × Option Operand :=
    if rest = [] then (o, some operand) else (o.supply (String.ofList rest) operand, none)

/-- Whether a word holds option letters. A single hyphen does not. -/
def isOptionWord (word : String) : Bool :=
  word.toList.head? = some '-' && word ≠ "-"

/-- Reads words in order. The second part of the result is the words that are not options. -/
def readWords (o : Options) : List String → Except OptionFault (Options × List String)
  | [] => .ok (o, [])
  | word :: rest =>
    if word = "--" then .ok (o, rest)
    else if !isOptionWord word then
      (readWords o rest).map fun (o, others) => (o, word :: others)
    else
      match readLetters o (word.toList.drop 1) with
      | .error fault => .error fault
      | .ok (o, none) => readWords o rest
      | .ok (o, some operand) =>
        match rest with
        | [] => (o.supplyNothing operand).map fun o => (o, [])
        | next :: after =>
          if accepts operand next then readWords (o.supply next operand) after
          else
            match o.supplyNothing operand with
            | .ok o => readWords o (next :: after)
            | .error fault => .error fault

/-- Reads a command line. -/
def parse (words : List String) : Except OptionFault Options :=
  match readWords {} words with
  | .error fault => .error fault
  | .ok (o, []) => .ok o
  | .ok (o, [script]) => .ok { o with script := some script }
  | .ok (_, others) => .error (.tooMany others.length)

end Options

end LineScript
