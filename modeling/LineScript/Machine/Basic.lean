import LineScript.Label
import LineScript.Macro
import LineScript.Sink
import LineScript.Variables

/-!
The state in which statements are executed.
-/

namespace LineScript

/-- All that a running script can read and change. -/
structure Machine where
  vars : Variables := {}
  macros : MacroTable := {}
  labels : LabelTable := {}
  /-- The block whose header is being executed. -/
  pending : Option Block := none
  /-- The index of the program line being executed, or the label it jumped to. -/
  ip : Nat := 0
  /-- Whether the program line being executed has jumped. -/
  jumped : Bool := false
  /-- The number of macro calls in progress. -/
  depth : Nat := 0
  /-- Whether the index of each line is printed before the line is executed. -/
  debug : Bool := false
  jumpLimit : Nat := defaultJumpLimit
  /-- Whether the next statement has to fail. -/
  interrupted : Bool := false
  sink : Sink := {}
deriving DecidableEq

/-- An action on a machine that may fail, and keeps what was done before it failed. -/
abbrev Exec := EStateM Fault Machine

/-- An action that fails only by reading or writing. -/
abbrev Transfer := EStateM IoFault Machine

namespace Machine

/-- Forgets variables, macros and labels, and goes back to the first line. -/
def clearMemory (m : Machine) : Machine :=
  { m with
    vars := {}, macros := {}, labels := {}, ip := 0, depth := 0, jumped := false }

/-- Forgets the pending block. -/
def clearPending (m : Machine) : Machine :=
  { m with pending := none }

/-- The machine as a run finds it and leaves it. -/
def cleared (m : Machine) : Machine :=
  m.clearMemory.clearPending

/-- Writes a text to the sink. -/
def put (text : String) : Transfer Unit := do
  let data := text.toUTF8
  let sink := (← get).sink
  modify fun m =>
    { m with sink := sink.store data, interrupted := m.interrupted || sink.rings data }
  if !sink.holds data then throw .sinkFull

/-- Flushes the sink. -/
def flush : Transfer Unit := do
  if (← get).sink.refusesFlush then throw .flushFailed
  modify fun m => { m with sink := { m.sink with flushed := m.sink.bytes.size } }

/-- A failure to print is a fault of the script. -/
def printing {α : Type} (action : Transfer α) : Exec α :=
  action.adaptExcept .output

/-- Prints a text, and ends the line if asked to. -/
def emit (text : String) (newline : Bool) : Exec Unit := do
  printing (put text)
  if newline then printing (put "\n")

/-- Takes over a result. -/
def check {α : Type} : Except Fault α → Exec α
  | .ok value => pure value
  | .error fault => throw fault

/-- Takes over a result whose fault is one of syntax. -/
def wellFormed {α : Type} : Except SyntaxFault α → Exec α
  | .ok value => pure value
  | .error cause => throw (.malformed cause)

/-- Fails if the run has been asked to stop, or has jumped to some label too often. Every
statement passes here before it does anything. -/
def guard : Exec Unit := do
  let m ← get
  if m.interrupted then throw .terminated
  check (m.labels.check m.jumpLimit)

/-- Changes the variables. -/
def setVariables (vars : Variables) : Exec Unit :=
  modify fun m => { m with vars := vars }

end Machine

end LineScript
