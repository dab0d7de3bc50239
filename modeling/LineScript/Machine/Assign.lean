import LineScript.Machine.Basic
import LineScript.Statement

/-!
Changing a variable.
-/

namespace LineScript

/-- The value of a variable after an operator was applied to it. -/
def Update.apply (op : Update) (current operand : Int64) : Except ArithmeticFault Int64 :=
  let result : Except ArithmeticFault (Option Int64) :=
    match op with
    | set => .ok (some operand)
    | increment => .ok (add? current 1)
    | decrement => .ok (sub? current 1)
    | add => .ok (add? current operand)
    | subtract => .ok (sub? current operand)
    | multiply => .ok (mul? current operand)
    | divide => if operand = 0 then .error .divisionByZero else .ok (div? current operand)
    | raise => .ok (power? current operand)
  match result with
  | .ok (some value) => .ok value
  | .ok none => .error .overflow
  | .error fault => .error fault

namespace Machine

/-- Reads an operand: an integer, or the name of an integer variable. -/
def readOperand (scope : Scope) (word : String) : Exec Int64 := do
  match readInt? word with
  | some n => return n
  | none => check ((← get).vars.readInt scope word)

/-- Reads the operand of a binary operator. -/
def readOperand? (scope : Scope) : Option String → Exec (Option Int64)
  | some word => some <$> readOperand scope word
  | none => return none

/-- Reads an operator and the word for its operand. -/
def readUpdate (name : String) : List String → Except SyntaxFault (Update × Option String)
  | [] => .error (.missingOperator name)
  | symbol :: operands =>
    match Update.read? symbol with
    | none => .error .unknownOperator
    | some op =>
      match op.isUnary, operands with
      | true, [] => .ok (op, none)
      | false, [word] => .ok (op, some word)
      | _, _ => .error (.operandCount symbol)

/-- Applies an operator to an entry of a table of integers. -/
def updateEntry (t : Table Int64) (name : String) (op : Update) (operand : Int64) :
    Except Fault (Table Int64) := do
  let current ← Variables.found name (t.get? name)
  let value ← (op.apply current operand).mapError .arithmetic
  return t.insert name value

/-- Changes a variable of the given table. Integers are changed by every operator but the plain
sign of equality, which is reserved for mutable integers, and those are changed by no other. -/
def updateSlot (scope : Scope) (name : String) (op : Update) (operand : Option String) :
    Slot → Exec Unit
  | .int => do
    if op = .set then throw (.malformed .unknownOperator)
    let operand ← readOperand? scope operand
    let vars := (← get).vars
    let ints ← check (updateEntry vars.ints name op (operand.getD 0))
    setVariables { vars with ints := ints }
  | .localInt => do
    if op = .set then throw (.malformed .unknownOperator)
    let operand ← readOperand? scope operand
    let vars := (← get).vars
    let ints ← check (updateEntry vars.localInts name op (operand.getD 0))
    setVariables { vars with localInts := ints }
  | .mutableInt => do
    if op ≠ .set then throw (.malformed .unknownOperator)
    let operand ← readOperand? scope operand
    let vars := (← get).vars
    setVariables { vars with mutables := vars.mutables.insert name operand }
  | .string | .localString => throw (.malformed (.stringTarget name))

/-- Changes the variable that a name stands for. -/
def assign (scope : Scope) (name : String) (args : List String) : Exec Unit := do
  let m ← get
  match m.vars.target? scope name with
  | none =>
    if m.macros.contains name || m.labels.contains name then
      throw (.malformed (.notVariable name))
    else throw (.unknownToken name)
  | some slot =>
    let (op, operand) ← wellFormed (readUpdate name args)
    updateSlot scope name op operand slot

/-- Gives a string a new text. -/
def assignString (scope : Scope) (name value : String) : Exec Unit := do
  let vars := (← get).vars
  if scope = .inMacro ∧ vars.localStrings.contains name then
    let strings ← check (Variables.found name (vars.localStrings.replace? name value))
    setVariables { vars with localStrings := strings }
  else
    let strings ← check (Variables.found name (vars.strings.replace? name value))
    setVariables { vars with strings := strings }

end Machine

end LineScript
