import LineScript.Application

/-!
The command line: brings in the files and lines that the program asks for, and shows what it
prints.
-/

namespace LineScript

/-- More ticks than any program takes. -/
def tickBudget : Nat := 1 <<< 62

/-- Brings a file in, if it can be read. -/
def mountFile (files : FileTree) (path : String) : IO FileTree := do
  try
    return files.mount path (← IO.FS.readBinFile path)
  catch _ =>
    return files

/-- Brings a file in that is to be written, if it can be. -/
def mountTarget (files : FileTree) (path : String) : IO FileTree := do
  try
    let _ ← IO.FS.Handle.mk path .append
    mountFile files path
  catch _ =>
    return files

/-- Carries out an action, and shows what it wrote. -/
def carryOut {α : Type} (action : Dialogue α) (c : Console) :
    IO (Except ConsoleFault α × Console) := do
  match action.run c with
  | none => throw (.userError "the program does not end")
  | some (result, c) =>
    let output ← IO.getStdout
    output.write c.machine.sink.bytes
    output.flush
    let errors ← IO.getStderr
    errors.putStr c.errors
    return (result, { c with errors := "", machine.sink.bytes := .empty })

/-- Reads bytes up to the end of a line. -/
partial def readBytes (input : IO.FS.Stream) (bytes : ByteArray) : IO ByteArray := do
  let next ← input.read 1
  if next.isEmpty || next.data = #[10] then return bytes ++ next
  readBytes input (bytes ++ next)

/-- Reads a line of input. Input that is no text ends there. -/
def readInput : IO (Option String) := do
  return (inputLines (← readBytes (← IO.getStdin) .empty)).head?

/-- Reads a typed program, with the line that closes it. -/
partial def readProgram (c : Console) (indented : Bool) (typed : List String) :
    IO (Console × List String) := do
  let (_, c) ← carryOut (Console.promptLine indented) c
  match ← readInput with
  | none => return (c, typed.reverse)
  | some line =>
    if Console.closesBuffer line then return (c, (line :: typed).reverse)
    readProgram c (Console.indentsAfter indented line) (line :: typed)

/-- Executes a command with the lines and files that it needs. The prompts for a typed program have
been shown by then. -/
def executeLine (c : Console) (line : String) : IO (Except ConsoleFault Flow × Console) := do
  match Command.read line with
  | .ok .interpret =>
    let (c, typed) ← readProgram c false []
    let (result, after) ←
      carryOut (Console.exec tickBudget line) { c with input := typed, interactive := false }
    return (result, { after with interactive := c.interactive })
  | .ok (.run path) =>
    carryOut (Console.exec tickBudget line) { c with files := ← mountFile c.files path }
  | .ok (.save path) =>
    let (result, c) ←
      carryOut (Console.exec tickBudget line) { c with files := ← mountTarget c.files path }
    match result, c.files.bytes? path with
    | .ok _, some bytes => IO.FS.writeBinFile path bytes
    | _, _ => pure ()
    return (result, c)
  | _ => carryOut (Console.exec tickBudget line) c

/-- Executes commands until one of them leaves the console, or the input ends. -/
partial def converse (c : Console) : IO UInt32 := do
  let (asked, c) ← carryOut Console.prompt c
  match asked with
  | .error _ => return 1
  | .ok _ =>
    match ← readInput with
    | none => return 0
    | some line =>
      let (result, c) ← executeLine c line
      match result with
      | .ok .exit => return 0
      | .ok .next => converse c
      | .error fault =>
        let (_, c) ← carryOut (Console.report fault) c
        if fault.isTermination then return 1
        converse c

/-- Does what the options ask for. -/
def serveOptions (o : Options) (c : Console) : IO UInt32 := do
  let (first, c) ← carryOut (Console.runFirst tickBudget o.command) c
  match first, o.script with
  | .error _, _ => return 1
  | .ok _, none => converse c
  | .ok _, some path =>
    let files ← mountFile c.files path
    let (result, _) ← carryOut (Console.runScript tickBudget path) { c with files := files }
    match result with
    | .ok _ => return 0
    | .error _ => return 1

/-- The paths of the settings files that may be read. -/
def wantedSettings (i : Invocation) : SettingsSource → List String
  | .skip => []
  | .file path => [path]
  | .search => settingsPaths i.home i.settingsHome

/-- Starts with the options. -/
def startOptions (i : Invocation) (o : Options) : IO UInt32 := do
  let files ← (wantedSettings i o.source).foldlM mountFile i.files
  let i := { i with files := files }
  let files ←
    match (o.override (i.settings o).1).logFile with
    | none => pure i.files
    | some path => mountTarget i.files path
  match { i with files := files }.start o with
  | .ok c => serveOptions o c
  | .error message =>
    let errors ← IO.getStderr
    errors.putStr message
    return 1

end LineScript

open LineScript in
def main (arguments : List String) : IO UInt32 := do
  match Options.parse arguments with
  | .error fault =>
    let errors ← IO.getStderr
    errors.putStr fault.notice
    return 1
  | .ok o =>
    let home := (← IO.getEnv "HOME").getD ""
    let settingsHome := (← IO.getEnv "XDG_CONFIG_HOME").getD (home ++ "/.config")
    let input ← IO.getStdin
    let output ← IO.getStdout
    let interactive := (← input.isTty) && (← output.isTty)
    startOptions { home := home, settingsHome := settingsHome, interactive := interactive } o
