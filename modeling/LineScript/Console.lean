import LineScript.Console.Command
import LineScript.FileTree
import LineScript.Machine.Control
import LineScript.Settings

/-!
The console: commands are read from a list of input lines, one after the other, and programs can be
typed in between them.
-/

namespace LineScript

/-- The console between two commands. -/
structure Console where
  machine : Machine := {}
  files : FileTree := {}
  /-- The input lines that have not been read. -/
  input : List String := []
  /-- Whether the prompt is shown. -/
  echo : Bool := true
  /-- Whether somebody is typing, so that there are prompts at all. -/
  interactive : Bool := false
  /-- The program that was typed in last. -/
  lastBuffer : List String := []
  /-- The number of commands so far. -/
  commands : Nat := 0
  /-- What was written to the error stream. -/
  errors : String := ""
deriving DecidableEq

/-- An action on a console that may fail, and keeps what was done before it failed. There is no
result at all if a program does not end within its budget of ticks. -/
abbrev Dialogue := ExceptT ConsoleFault (StateT Console Option)

/-- What follows a command. -/
inductive Flow where
  | next
  | exit
deriving Repr, DecidableEq

namespace Console

/-- The console with the given settings. -/
def ofSettings (s : Settings) : Console where
  machine := { debug := s.debug, jumpLimit := s.jumpLimit }
  echo := s.echo

/-- An action with its fault as a result. -/
def attempt {α : Type} (action : Dialogue α) : Dialogue (Except ConsoleFault α) :=
  ExceptT.lift action.run

/-- Takes over a result. -/
def settle {α : Type} : Except ConsoleFault α → Dialogue α
  | .ok value => pure value
  | .error fault => throw fault

/-- An action of the machine that fails only by reading or writing. -/
def transfer (action : Transfer Unit) : Dialogue Unit := do
  let c ← get
  match action c.machine with
  | .ok _ m => set { c with machine := m }
  | .error cause m =>
    set { c with machine := m }
    throw (.terminal cause)

/-- Shows a text at once. -/
def showText (text : String) : Dialogue Unit := do
  transfer (Machine.put text)
  transfer Machine.flush

/-- Shows a line at once. -/
def showLine (text : String) : Dialogue Unit := do
  showText text
  showText "\n"

/-- The text of a report. Whoever is typing sees it in colour. -/
def reportText (interactive : Bool) (fault : ConsoleFault) : String :=
  if interactive then "\n\x1b[38;5;9m" ++ fault.message ++ "\x1b[39m\n" else fault.message ++ "\n"

/-- Reports a fault on the error stream. -/
def report (fault : ConsoleFault) : Dialogue Unit :=
  modify fun c => { c with errors := c.errors ++ reportText c.interactive fault }

/-- Asks for a command. -/
def prompt : Dialogue Unit := do
  let c ← get
  if c.interactive then
    if 0 < c.commands then showText "\n"
    if c.echo then showText "Simpler++Console> "

/-- What asks for a line of a program. -/
def linePrompt (indented : Bool) : String :=
  if indented then "    >>> " else ">>> "

/-- Whether a typed line closes the program: it has at most one character. -/
def closesBuffer (line : String) : Bool :=
  line.length ≤ 1

/-- Whether the lines after this one are asked for with indentation. -/
def indentsAfter (indented : Bool) (line : String) : Bool :=
  let starts (word : String) : Bool := word.toList.isPrefixOf line.toList
  if starts "IF" || starts "FOR" || starts "MACRO" then true
  else if starts "END" then false
  else indented

/-- Asks for a line of a program. -/
def promptLine (indented : Bool) : Dialogue Unit := do
  if (← get).interactive then showText (linePrompt indented)

/-- Reads a program from the given input lines, up to the line that closes it. There is none if
the input ends before. -/
def readBuffer (indented : Bool) : List String → Dialogue (Option (List String))
  | [] => do
    promptLine indented
    return none
  | line :: rest => do
    promptLine indented
    modify fun c => { c with input := rest }
    if closesBuffer line then return some []
    return (← readBuffer (indentsAfter indented line) rest).map (line :: ·)

/-- Runs a program and flushes what it printed. The fault of the program counts before that of
the flush. -/
def runLines (budget : Nat) (lines : List String) : Dialogue Unit := do
  let c ← get
  match ← liftM (c.machine.run budget lines) with
  | .ok _ m =>
    match Machine.flush m with
    | .ok _ m => set { c with machine := m }
    | .error cause m =>
      set { c with machine := m }
      throw (.script (.output cause))
  | .error fault m =>
    match Machine.flush m with
    | .ok _ m | .error _ m => set { c with machine := m }
    throw (.script fault)

/-- Runs the program in a file. -/
def runFile (budget : Nat) (path : String) : Dialogue Unit := do
  match (← get).files.readLines path with
  | .ok lines => runLines budget lines
  | .error cause => throw (.file path cause)

/-- Writes the last typed program to a file. -/
def save (path : String) : Dialogue Unit := do
  let c ← get
  match c.files.writeLines path c.lastBuffer with
  | .ok files => set { c with files := files }
  | .error cause => throw (.file path cause)

/-- Reads a program from the input and runs it. The console is left if the input ends within the
program. -/
def interpret (budget : Nat) : Dialogue Flow := do
  match ← readBuffer false (← get).input with
  | none => return .exit
  | some buffer =>
    modify fun c => { c with lastBuffer := buffer }
    runLines budget buffer
    return .next

/-- Carries out a command. -/
def perform (budget : Nat) : Command → Dialogue Flow
  | .nothing => return .next
  | .interpret => interpret budget
  | .run path => do
    runFile budget path
    return .next
  | .save path => do
    save path
    return .next
  | .echo on => do
    modify fun c => { c with echo := on }
    return .next
  | .debug => do
    modify fun c => { c with machine.debug := !c.machine.debug }
    return .next
  | .help => do
    helpLines.forM showLine
    return .next
  | .version => do
    showLine versionLine
    return .next
  | .exit => return .exit

/-- Reads a command line and carries it out. The machine is cleared afterwards in any case. -/
def exec (budget : Nat) (line : String) : Dialogue Flow := do
  modify fun c => { c with commands := c.commands + 1 }
  let outcome ← attempt (do perform budget (← settle (Command.read line)))
  modify fun c => { c with machine := c.machine.cleared }
  settle outcome

/-- Takes the next input line. -/
def nextInput? : Dialogue (Option String) := do
  let c ← get
  match c.input with
  | [] => return none
  | line :: rest =>
    set { c with input := rest }
    return some line

/-- Reads and executes at most the given number of commands. -/
def runCommands (budget : Nat) : (count : Nat) → Dialogue Unit
  | 0 => return
  | count + 1 => do
    prompt
    match ← nextInput? with
    | none => return
    | some line =>
      match ← attempt (exec budget line) with
      | .ok .exit => return
      | .ok .next => runCommands budget count
      | .error fault =>
        report fault
        if fault.isTermination then throw fault
        runCommands budget count

/-- Reads and executes commands until one of them leaves the console, or the input ends. Each
command takes an input line, so there are no more commands than lines; one more round sees that
the input has ended. -/
def run (budget : Nat) : Dialogue Unit := do
  runCommands budget ((← get).input.length + 1)

end Console

end LineScript
