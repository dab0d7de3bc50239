import LineScript.Proofs.Elementary

/-! Plain statements as functions. What a plain statement that passes the guard does is a function of
the variables and of the reserved names: it fails, or gives other variables and some texts to print.
Executing it takes over these variables and prints these texts. -/

namespace LineScript

/-- Whether a table takes an operator. -/
def Slot.takes (op : Update) : Slot → Bool
  | .int | .localInt => op ≠ .set
  | .mutableInt => op = .set
  | .string | .localString => false

namespace Variables

/-- The value of an operand: an integer, or the value of an integer variable. -/
def operand (vars : Variables) (scope : Scope) (word : String) : Except Fault Int64 :=
  match readInt? word with
  | some n => .ok n
  | none => vars.readInt scope word

/-- The value of the operand of a reassignment, if it has one. -/
def operand? (vars : Variables) (scope : Scope) : Option String → Except Fault (Option Int64)
  | none => .ok none
  | some word => (vars.operand scope word).map some

/-- The variables after an operator was applied to a name in the given table. -/
def stored (vars : Variables) (name : String) (op : Update) (operand : Option Int64) :
    Slot → Except Fault Variables
  | .int =>
    (Machine.updateEntry vars.ints name op (operand.getD 0)).map fun t => { vars with ints := t }
  | .localInt =>
    (Machine.updateEntry vars.localInts name op (operand.getD 0)).map fun t =>
      { vars with localInts := t }
  | .mutableInt => .ok { vars with mutables := vars.mutables.insert name operand }
  | .string | .localString => .error (.malformed (.stringTarget name))

/-- The variables after a reassignment of a name in the given table. -/
def updated (vars : Variables) (scope : Scope) (name : String) (op : Update)
    (word : Option String) : Slot → Except Fault Variables
  | .string | .localString => .error (.malformed (.stringTarget name))
  | slot =>
    if slot.takes op then (vars.operand? scope word).bind fun n => vars.stored name op n slot
    else .error (.malformed .unknownOperator)

/-- The variables after a reassignment. The reserved names are no variables. -/
def assigned (vars : Variables) (scope : Scope) (reserved : String → Bool) (name : String)
    (args : List String) : Except Fault Variables :=
  match vars.target? scope name with
  | none => .error (if reserved name then .malformed (.notVariable name) else .unknownToken name)
  | some slot =>
    match Machine.readUpdate name args with
    | .error cause => .error (.malformed cause)
    | .ok (op, word) => vars.updated scope name op word slot

/-- The variables after a string was given a new text. -/
def stringAssigned (vars : Variables) (scope : Scope) (name value : String) :
    Except Fault Variables :=
  if scope = .inMacro ∧ vars.localStrings.contains name then
    (found name (vars.localStrings.replace? name value)).map fun t =>
      { vars with localStrings := t }
  else (found name (vars.strings.replace? name value)).map fun t => { vars with strings := t }

end Variables

/-- A text, and the end of the line if it is asked for. -/
def lineTexts (text : String) (newline : Bool) : List String :=
  text :: if newline then ["\n"] else []

/-- The variables after a statement, and the texts that it prints. -/
def Statement.effect (scope : Scope) (vars : Variables) (reserved : String → Bool) :
    Statement → Except Fault (Variables × List String)
  | declareInt name value =>
    ((vars.declareInt scope name value).mapError .malformed).map (·, [])
  | declareString name value =>
    ((vars.declareString scope name value).mapError .malformed).map (·, [])
  | declareMutable name value =>
    ((vars.declareMutable name value).mapError .malformed).map (·, [])
  | assign name args => (vars.assigned scope reserved name args).map (·, [])
  | assignString name value => (vars.stringAssigned scope name value).map (·, [])
  | printVar name newline =>
    (vars.readPrintable scope name).map fun value => (vars, lineTexts value.render newline)
  | printText text newline => .ok (vars, lineTexts text newline)
  | _ => .ok (vars, [])

namespace Machine

/-- Takes over the variables that a result gives. -/
def adopt (result : Except Fault Variables) : Exec Unit := do
  setVariables (← check result)

/-- Prints texts one after the other. -/
def putAll : List String → Exec Unit
  | [] => pure ()
  | text :: texts => do
    printing (put text)
    putAll texts

/-- Takes over the variables that an effect gives, and prints its texts. -/
def perform (effect : Except Fault (Variables × List String)) : Exec (List Frame) := do
  let (vars, texts) ← check effect
  setVariables vars
  putAll texts
  return []

section Adopt

variable {α β : Type}

theorem check_bind_eq_map (result : Except Fault α) (f : α → β) :
    (check result >>= fun value => pure (f value)) = check (result.map f) := by
  cases result with
  | ok value => rfl
  | error fault => rfl

theorem readOperand?_eq (scope : Scope) (word : Option String) (m : Machine) :
    readOperand? scope word m = check (m.vars.operand? scope word) m := by
  cases word with
  | none => rfl
  | some word =>
    have hword : readOperand scope word m = check (m.vars.operand scope word) m := by
      rw [readOperand, Variables.operand]
      cases readInt? word with
      | some n => rfl
      | none => rfl
    rw [Variables.operand?, ← check_bind_eq_map]
    change (readOperand scope word >>= fun n => pure (some n)) m = _
    simp only [bind, EStateM.bind, hword]

theorem check_bind_setVariables (result : Except Fault α) (f : α → Variables) :
    (check result >>= fun value => setVariables (f value)) = adopt (result.map f) := by
  cases result with
  | ok value => rfl
  | error fault => rfl

/-- Reading an operand and storing what becomes of it, unless the operator is refused. -/
theorem update_eq (refused : Prop) [Decidable refused] (scope : Scope) (word : Option String)
    (store : Variables → Option Int64 → Except Fault Variables) (m : Machine) :
    (if refused then
        throw (.malformed .unknownOperator) >>= fun _ : Unit =>
          readOperand? scope word >>= fun n => get >>= fun m => adopt (store m.vars n)
      else readOperand? scope word >>= fun n => get >>= fun m => adopt (store m.vars n)) m =
      adopt (if refused then .error (.malformed .unknownOperator)
        else (m.vars.operand? scope word).bind (store m.vars)) m := by
  split
  · rfl
  · have hread := readOperand?_eq scope word m
    cases ho : m.vars.operand? scope word with
    | ok n =>
      rw [ho] at hread
      exact bind_of_ok hread
    | error fault =>
      rw [ho] at hread
      exact bind_of_error hread

theorem updateSlot_eq (scope : Scope) (name : String) (op : Update) (word : Option String)
    (slot : Slot) (m : Machine) :
    updateSlot scope name op word slot m = adopt (m.vars.updated scope name op word slot) m := by
  have h (refused : Prop) [Decidable refused] :=
    update_eq refused scope word (fun vars n => vars.stored name op n slot) m
  cases slot with
  | int =>
    have hint := h (op = .set)
    simp only [Variables.stored, ← check_bind_setVariables] at hint
    rw [updateSlot, hint]
    by_cases hset : op = .set <;> simp [Variables.updated, Variables.stored, Slot.takes, hset]
  | localInt =>
    have hint := h (op = .set)
    simp only [Variables.stored, ← check_bind_setVariables] at hint
    rw [updateSlot, hint]
    by_cases hset : op = .set <;> simp [Variables.updated, Variables.stored, Slot.takes, hset]
  | mutableInt =>
    have hmutable := h (op ≠ .set)
    rw [updateSlot]
    refine hmutable.trans ?_
    by_cases hset : op = .set <;> simp [Variables.updated, Slot.takes, hset]
  | string => rfl
  | localString => rfl

theorem assign_eq (scope : Scope) (name : String) (args : List String) (m : Machine) :
    assign scope name args m = adopt (m.vars.assigned scope m.isReserved name args) m := by
  rw [assign, get_bind, Variables.assigned]
  cases m.vars.target? scope name with
  | none =>
    change (if m.isReserved name then throw (.malformed (.notVariable name))
      else throw (.unknownToken name) : Exec Unit) m = _
    cases m.isReserved name <;> rfl
  | some slot =>
    cases readUpdate name args with
    | error cause => rfl
    | ok update => exact updateSlot_eq scope name update.1 update.2 slot m

theorem assignString_eq (scope : Scope) (name value : String) (m : Machine) :
    assignString scope name value m = adopt (m.vars.stringAssigned scope name value) m := by
  rw [assignString, get_bind, Variables.stringAssigned]
  split
  · rw [check_bind_setVariables]
  · rw [check_bind_setVariables]

theorem emit_eq (text : String) (newline : Bool) :
    emit text newline = putAll (lineTexts text newline) := by
  cases newline with
  | false => rfl
  | true => simp only [emit, lineTexts, putAll, if_true, bind_pure_unit]

end Adopt

/-- A plain statement that passes the guard does what its effect says. -/
theorem execute_eq_perform {m : Machine} (hf : m.Free) (scope : Scope) {statement : Statement}
    (hs : statement.isPlain = true) :
    execute scope statement m = perform (statement.effect scope m.vars m.isReserved) m := by
  rw [execute, bind_of_ok (guard_of_free hf), get_bind]
  have hadopt {action : Exec Unit} {result : Except Fault Variables}
      (h : action m = adopt result m) :
      (action >>= fun _ => pure []) m = perform (result.map (·, [])) m := by
    cases result with
    | ok vars => exact bind_of_ok h
    | error fault => exact bind_of_error h
  have hdeclare (result : Except SyntaxFault Variables) :
      (wellFormed result >>= fun vars => setVariables vars >>= fun _ => pure []) m =
        perform ((result.mapError .malformed).map (·, [])) m := by
    cases result <;> rfl
  have hshow (text : String) (newline : Bool) :
      (emit text newline >>= fun _ => pure []) m =
        perform (.ok (m.vars, lineTexts text newline)) m := by
    rw [emit_eq]
    rfl
  cases statement with
  | declareInt name value => exact hdeclare _
  | declareString name value => exact hdeclare _
  | declareMutable name value => exact hdeclare _
  | assign name args => exact hadopt (assign_eq scope name args m)
  | assignString name value => exact hadopt (assignString_eq scope name value m)
  | printVar name newline =>
    rw [Statement.effect]
    cases hr : m.vars.readPrintable scope name with
    | error fault =>
      dsimp only
      rw [hr]
      rfl
    | ok value =>
      dsimp only
      rw [hr]
      exact hshow value.render newline
  | printText text newline => exact hshow text newline
  | macroHeader name => rfl
  | comment => rfl
  | endBlock kind => rfl
  | ifHeader condition => cases hs
  | forHeader header => cases hs
  | call name => cases hs
  | label name => cases hs
  | goto name => cases hs

end Machine

end LineScript
