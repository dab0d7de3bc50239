import LineScript.Console
import LineScript.Journal
import LineScript.Options

/-!
The program as a whole: options, settings, and then a script or the console.
-/

namespace LineScript

/-- How the program is called. -/
structure Invocation where
  arguments : List String := []
  /-- The files within reach. -/
  files : FileTree := {}
  /-- The folder of the user. -/
  home : String := ""
  /-- The folder of the user's settings. -/
  settingsHome : String := ""
  /-- The lines that can be read. -/
  input : List String := []
  /-- Whether somebody is typing them. -/
  interactive : Bool := false
deriving DecidableEq

/-- What the program leaves behind. -/
structure Outcome where
  code : Nat
  output : ByteArray
  errors : String
  files : FileTree
deriving DecidableEq

/-- How the program is used. -/
def usageLine : String :=
  "Usage: simpler [-dq] [-f[<file>]] [-l<logfile>] [-c<line>] [<script>]"

/-- A message of the program itself. -/
def notice (text : String) : String :=
  "simpler: " ++ text ++ "\n"

/-- What is shown for a faulty command line. -/
def OptionFault.notice (fault : OptionFault) : String :=
  LineScript.notice fault.message ++ usageLine ++ "\n"

/-- The places where a settings file may be, in order. -/
def settingsPaths (home settingsHome : String) : List String :=
  [home ++ "/.simplerrc", settingsHome ++ "/simpler/simplerrc", ".simplerrc"]

/-- The first settings file that is there. -/
def findSettings? (files : FileTree) (home settingsHome : String) : Option String :=
  (settingsPaths home settingsHome).find? files.reaches

/-- Reads a settings file. -/
def loadSettings (files : FileTree) (path : String) :
    Except IoFault (Settings × List LineFault) :=
  (files.readText path).map Settings.load

namespace Invocation

/-- The path of the settings file to read. -/
def settingsPath? (i : Invocation) (o : Options) : Option String :=
  match o.source with
  | .skip => none
  | .file path => some path
  | .search => findSettings? i.files i.home i.settingsHome

/-- The settings from the file, and the warnings about it. A file that cannot be read leaves all
settings as they are. -/
def settings (i : Invocation) (o : Options) : Settings × String :=
  match i.settingsPath? o with
  | none => ({}, "")
  | some path =>
    match loadSettings i.files path with
    | .error cause => ({}, notice ("warning: " ++ path ++ ": " ++ cause.message))
    | .ok (s, faults) =>
      (s, String.join (faults.map fun fault => notice (path ++ ": " ++ fault.message)))

end Invocation

/-- The settings with the options in their place. -/
def Options.override (o : Options) (s : Settings) : Settings :=
  { s with
    debug := o.debug || s.debug
    echo := !o.quiet && s.echo
    logFile := o.logFile <|> s.logFile }

namespace Console

/-- Runs the statement that is to be run first. Only a termination keeps the program from going
on. -/
def runFirst (budget : Nat) : Option String → Dialogue Unit
  | none => return
  | some line => do
    match ← attempt (runLines budget [line]) with
    | .ok _ => return
    | .error fault =>
      report fault
      if fault.isTermination then throw fault

/-- Runs a script. Its fault is reported here; the console reports its own. -/
def runScript (budget : Nat) (path : String) : Dialogue Unit := do
  match ← attempt (runFile budget path) with
  | .ok _ => return
  | .error fault =>
    report fault
    throw fault

/-- What the options ask for. -/
def serve (budget : Nat) (o : Options) : Dialogue Unit := do
  runFirst budget o.command
  match o.script with
  | some path => runScript budget path
  | none => run budget

end Console

namespace Invocation

/-- The console with which the program starts, with all warnings so far, or the message with which
it ends before that. -/
def start (i : Invocation) (o : Options) : Except String Console :=
  let (fromFile, warnings) := i.settings o
  let s := o.override fromFile
  match openJournal i.files s.logFile with
  | .error fault => .error (warnings ++ notice fault.message)
  | .ok files =>
    .ok
      { Console.ofSettings s with
        files := files, input := i.input, interactive := i.interactive, errors := warnings }

/-- Runs the program. The exit code is 1 if it failed and 0 otherwise. -/
def run (budget : Nat) (i : Invocation) : Option Outcome :=
  match Options.parse i.arguments with
  | .error fault => some ⟨1, .empty, fault.notice, i.files⟩
  | .ok o =>
    match i.start o with
    | .error message => some ⟨1, .empty, message, i.files⟩
    | .ok console => do
      let (result, c) ← (Console.serve budget o).run console
      let code := match result with
        | .ok _ => 0
        | .error _ => 1
      return ⟨code, c.machine.sink.bytes, c.errors, c.files⟩

end Invocation

end LineScript
