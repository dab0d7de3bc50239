import LineScript.Machine.Assign
import LineScript.Statement.Reader

/-!
Control: which line is executed next. The work that remains is a stack of frames, and one tick
executes at most one statement of the topmost frame. Ticks are total, so a run is their iteration
and only the number of ticks is unbounded.
-/

namespace LineScript

/-- Work that remains to be done. -/
inductive Frame where
  /-- The program line at `index` is being executed, and takes `span` lines. -/
  | line (index span : Nat)
  /-- The rest of the body of a block. -/
  | body (scope : Scope) (rest : List String)
  /-- The rest of the body of a macro, whose first line has the given index in the body. -/
  | call (index : Nat) (rest : List String)
  /-- A loop about to begin the pass with the given value, unless that is past the bound. -/
  | loop (scope : Scope) (header : LoopHeader) (body : List String) (value : Int64)
  /-- A loop whose pass with the given value is being executed. -/
  | pass (scope : Scope) (header : LoopHeader) (body : List String) (value : Int64)
deriving Repr, DecidableEq

/-- The greatest number of macro calls in progress. -/
def maxDepth : Nat := 256

namespace Machine

/-- Takes the body of the pending block, which has to be of the given kind. -/
def takeBody (kind : BlockKind) : Exec (List String) := do
  let pending := (← get).pending
  modify clearPending
  match pending with
  | some block =>
    if block.kind = kind then return block.body else throw (.malformed (.missingBody kind))
  | none => throw (.malformed (.missingBody kind))

/-- Whether the condition of an `IF` header holds. -/
def evaluate (scope : Scope) (c : Condition) : Exec Bool := do
  let vars := (← get).vars
  match c.operand with
  | .int operand => return c.op.test (← check (vars.readInt scope c.name)) operand
  | .text operand => return c.op.test (← check (vars.readString scope c.name)) operand

/-- Begins to execute a macro. -/
def enter (name : String) : Exec (List Frame) := do
  let m ← get
  match m.macros.body? name with
  | none => throw (.missing .macroName name)
  | some body =>
    if maxDepth ≤ m.depth then throw (.tooMany (.calls name) maxDepth)
    set { m with depth := m.depth + 1 }
    return [.call 0 body]

/-- Moves to a label when the current program line is done. -/
def jumpTo (name : String) : Exec Unit := do
  let m ← get
  let (index, labels) ← check (m.labels.jump name)
  set { m with labels := labels, ip := index, jumped := true }

/-- Executes a statement, and gives the work that it leaves to be done. -/
def execute (scope : Scope) (statement : Statement) : Exec (List Frame) := do
  guard
  let m ← get
  match statement with
  | .declareInt name value =>
    setVariables (← wellFormed (m.vars.declareInt scope name value))
    return []
  | .declareString name value =>
    setVariables (← wellFormed (m.vars.declareString scope name value))
    return []
  | .declareMutable name value =>
    setVariables (← wellFormed (m.vars.declareMutable name value))
    return []
  | .assign name args =>
    assign scope name args
    return []
  | .assignString name value =>
    assignString scope name value
    return []
  | .printVar name newline =>
    emit (← check (m.vars.readPrintable scope name)).render newline
    return []
  | .printText text newline =>
    emit text newline
    return []
  | .ifHeader condition =>
    let body ← takeBody .ifBlock
    if ← evaluate scope condition then return [.body scope body] else return []
  | .forHeader header =>
    let body ← takeBody .forBlock
    return [.loop scope header body header.first]
  | .call name => enter name
  | .label name =>
    set { m with labels := m.labels.declare name m.ip }
    return []
  | .goto name =>
    jumpTo name
    return []
  | .macroHeader _ | .comment | .endBlock _ => return []

/-- Begins to execute a line, given the lines after it. A macro is only defined, and that passes
no guard; the body of any other block is made pending first. The result is the work left to be
done, and the number of lines that the statement takes. -/
def start (scope : Scope) (line : String) (rest : List String) : Exec (List Frame × Nat) := do
  let m ← get
  let statement ← wellFormed (Statement.read (m.vars.isString scope) line)
  match statement with
  | .macroHeader name =>
    let body := BlockKind.macroBlock.body rest
    set { m with macros := m.macros.define name body }
    return ([], blockSpan body)
  | .ifHeader _ =>
    let body := BlockKind.ifBlock.body rest
    set { m with pending := some ⟨.ifBlock, body⟩ }
    return (← execute scope statement, blockSpan body)
  | .forHeader _ =>
    let body := BlockKind.forBlock.body rest
    set { m with pending := some ⟨.forBlock, body⟩ }
    return (← execute scope statement, blockSpan body)
  | _ => return (← execute scope statement, 1)

/-- Prints a line of the trace, if it is on. -/
def trace (text : String) : Exec Unit := do
  if (← get).debug then printing (put text)

end Machine

namespace Frame

/-- One step of the work in a frame. The result takes the place of the frame. -/
def tick : Frame → Exec (List Frame)
  | line index span => do
    modify fun m => { m with ip := (if m.jumped then m.ip else index) + span }
    return []
  | body _ [] => return []
  | body scope (text :: rest) => do
    let (frames, span) ← Machine.start scope text rest
    return frames ++ [body scope (rest.drop (span - 1))]
  | call _ [] => do
    modify fun m => { m with depth := m.depth - 1 }
    return []
  | call index (text :: rest) => do
    Machine.trace ("Line " ++ toString index ++ "\n")
    let (frames, span) ← Machine.start .inMacro text rest
    return frames ++ [call (index + span) (rest.drop (span - 1))]
  | loop scope header lines value => do
    Machine.guard
    let startPass : Exec (List Frame) := do
      modify fun m =>
        { m with vars.ints := m.vars.ints.insert header.var value }
      return [body scope lines, pass scope header lines value]
    match header.bound with
    | .upTo last => if last < value then return [] else startPass
    | .unbounded => startPass
  | pass scope header lines value =>
    match add? value header.step, header.bound with
    | some next, _ => return [loop scope header lines next]
    | none, .upTo _ => return []
    | none, .unbounded => throw (.arithmetic (.loopOverflow header.var))

/-- Whether a frame is a macro call in progress. -/
def isCall : Frame → Bool
  | call .. => true
  | _ => false

end Frame

namespace Machine

/-- Begins the program line at the instruction pointer. At the end of the program the sink is
flushed and the machine cleared, and there is no more work. -/
def nextLine (program : List String) : Exec (Option (List Frame)) := do
  let m ← get
  match program.drop m.ip with
  | [] =>
    printing flush
    modify cleared
    return none
  | line :: rest =>
    trace ("\nLine " ++ toString m.ip ++ "\n")
    modify fun m => { m with jumped := false }
    let (frames, span) ← start .global line rest
    return some (frames ++ [.line m.ip span])

/-- One step of a program: a tick of the topmost frame, or the next program line. -/
def tick (program : List String) : List Frame → Exec (Option (List Frame))
  | [] => nextLine program
  | frame :: stack => do
    return some ((← frame.tick) ++ stack)

/-- Leaves all macro calls in progress. -/
def unwind (stack : List Frame) (m : Machine) : Machine :=
  { m with depth := m.depth - stack.countP Frame.isCall }

/-- Continues a program until it ends, for at most `budget` ticks. -/
def resume (program : List String) : (budget : Nat) → List Frame → Machine →
    Option (EStateM.Result Fault Machine Unit)
  | 0, _, _ => none
  | budget + 1, stack, m =>
    match tick program stack m with
    | .ok (some stack) m => resume program budget stack m
    | .ok none m => some (.ok () m)
    | .error fault m => some (.error fault (m.unwind stack))

/-- Runs a program from a cleared machine. There is no result if the budget of ticks does not
suffice. After a fault the machine stays as it was when the fault arose. -/
def run (budget : Nat) (program : List String) (m : Machine) :
    Option (EStateM.Result Fault Machine Unit) :=
  resume program budget [] m.cleared

/-- Works off a stack of frames, for at most `budget` ticks. -/
def complete : (budget : Nat) → List Frame → Machine → Option (EStateM.Result Fault Machine Unit)
  | _, [], m => some (.ok () m)
  | 0, _ :: _, _ => none
  | budget + 1, frame :: stack, m =>
    match frame.tick m with
    | .ok frames m => complete budget (frames ++ stack) m
    | .error fault m => some (.error fault (m.unwind (frame :: stack)))

end Machine

end LineScript
