import LineScript.Label
import LineScript.Text.Blank
import LineScript.Text.Lines

/-!
Settings, and the lines of a settings file that change them. A line that begins with the word
`set` changes one setting or is faulty; all other lines are skipped.
-/

namespace LineScript

/-- What can be set. -/
structure Settings where
  /-- Whether the trace is on from the start. -/
  debug : Bool := false
  /-- Whether the console shows its prompt. -/
  echo : Bool := true
  jumpLimit : Nat := defaultJumpLimit
  /-- The file to which records are appended. -/
  logFile : Option String := none
  /-- Which records are kept. -/
  logLevel : Option String := none
deriving Repr, DecidableEq

/-- What can be wrong with a line that sets something. -/
inductive SettingFault where
  | missingValue (args : String)
  | emptyName
  | notSwitch (name value : String)
  | notLimit (value : String)
  | unknownName (name : String)
deriving Repr, DecidableEq

/-- The wording of a faulty setting. -/
def SettingFault.message : SettingFault → String
  | missingValue args => "set: missing value for '" ++ args ++ "'"
  | emptyName => "set: option name cannot be empty"
  | notSwitch name value => "set: " ++ name ++ " expects on or off, got '" ++ value ++ "'"
  | notLimit value => "set: jump_limit must be a positive integer, got '" ++ value ++ "'"
  | unknownName name => "set: unknown option '" ++ name ++ "'"

/-- A faulty line, counted from one. -/
structure LineFault where
  line : Nat
  fault : SettingFault
deriving Repr, DecidableEq

/-- The wording of a faulty line. -/
def LineFault.message (f : LineFault) : String :=
  "line " ++ toString f.line ++ ": " ++ f.fault.message

/-- Reads a switch, in letters of either case. -/
def readSwitch? (value : String) : Option Bool :=
  match String.ofList (value.toList.map Char.toLower) with
  | "on" | "1" | "true" | "yes" => some true
  | "off" | "0" | "false" | "no" => some false
  | _ => none

/-- Reads a limit, which is a positive count. -/
def readLimit? (value : String) : Option Nat :=
  (readCount? value).filter (0 < ·)

/-- Splits what follows `set` into a name and a value: at the first sign of equality wherever it
stands, else at the first blank. -/
def splitSetting (args : List Char) : Except SettingFault (String × String) :=
  match cutAt? (· = '=') args with
  | some (name, value) => .ok (String.ofList (trimBlanks name), String.ofList (trimBlanks value))
  | none =>
    match cutAt? isAsciiBlank args with
    | some (name, value) => .ok (String.ofList name, String.ofList (trimBlanks value))
    | none => .error (.missingValue (String.ofList args))

/-- What follows `set` on a line that begins with that word. Blanks before it do not matter, and a
line that begins with one of the marks `;` and `#` is a comment. -/
def settingArgs? (line : String) : Option (List Char) :=
  let text := trimBlanks line.toList
  if text = [] ∨ text.head? = some ';' ∨ text.head? = some '#' then none
  else
    let (word, args) := (cutAt? isAsciiBlank text).getD (text, [])
    if word = "set".toList then some (trimBlanks args) else none

namespace Settings

/-- Reads the value of a switch. -/
def switch (name value : String) : Except SettingFault Bool :=
  match readSwitch? value with
  | some on => .ok on
  | none => .error (.notSwitch name value)

/-- Gives one setting a value. -/
def assign (s : Settings) (name value : String) : Except SettingFault Settings :=
  match name with
  | "" => .error .emptyName
  | "debug" => (switch name value).map fun on => { s with debug := on }
  | "echo" => (switch name value).map fun on => { s with echo := on }
  | "jump_limit" =>
    match readLimit? value with
    | some limit => .ok { s with jumpLimit := limit }
    | none => .error (.notLimit value)
  | "log_file" => .ok { s with logFile := some value }
  | "log_level" => .ok { s with logLevel := some value }
  | _ => .error (.unknownName name)

/-- Applies a line. -/
def applyLine (s : Settings) (line : String) : Except SettingFault Settings :=
  match settingArgs? line with
  | none => .ok s
  | some args => do
    let (name, value) ← splitSetting args
    s.assign name value

/-- Applies lines in order, the first of which has the given number. A faulty line changes
nothing. -/
def applyLines (s : Settings) (number : Nat) : List String → Settings × List LineFault
  | [] => (s, [])
  | line :: rest =>
    match s.applyLine line with
    | .ok changed => changed.applyLines (number + 1) rest
    | .error fault =>
      let (final, faults) := s.applyLines (number + 1) rest
      (final, ⟨number, fault⟩ :: faults)

/-- Reads the text of a settings file. -/
def load (text : String) : Settings × List LineFault :=
  ({} : Settings).applyLines 1 (splitLines text)

end Settings

end LineScript
