import LineScript.Proofs.History

/-! What plain statements are made of. They look at the variables and at the names of macros and
labels, set variables and print, and nothing else. Two machines that agree in this are therefore
still related after a plain statement. -/

namespace LineScript

namespace Machine

/-- Whether a name is a macro or a label. -/
def isReserved (m : Machine) (name : String) : Bool :=
  m.macros.contains name || m.labels.contains name

/-- The actions of plain statements. -/
inductive Elementary : {α : Type} → Exec α → Prop where
  | pure {α : Type} (value : α) : Elementary (pure value)
  | throw {α : Type} (fault : Fault) : Elementary (throw fault : Exec α)
  | look {β : Type} {next : Machine → Exec β} (hn : ∀ m, Elementary (next m))
      (hsame : ∀ m w : Machine, w.vars = m.vars → w.isReserved = m.isReserved → next w = next m) :
      Elementary (get >>= next)
  | set (vars : Variables) : Elementary (setVariables vars)
  | put (text : String) : Elementary (printing (put text))
  | bind {α β : Type} {action : Exec α} {next : α → Exec β} (ha : Elementary action)
      (hn : ∀ value, Elementary (next value)) : Elementary (action >>= next)

section Elementary

variable {α β : Type}

theorem elementary_check (result : Except Fault α) : Elementary (check result) := by
  cases result with
  | ok value => exact .pure value
  | error fault => exact .throw fault

theorem elementary_wellFormed (result : Except SyntaxFault α) : Elementary (wellFormed result) := by
  cases result with
  | ok value => exact .pure value
  | error cause => exact .throw (.malformed cause)

theorem elementary_emit (text : String) (newline : Bool) : Elementary (emit text newline) := by
  refine .bind (.put text) fun _ => ?_
  split
  · exact .put "\n"
  · exact .pure ()

theorem elementary_readOperand (scope : Scope) (word : String) :
    Elementary (readOperand scope word) := by
  unfold readOperand
  split
  · exact .pure _
  · refine .look (fun m => elementary_check _) fun m w hv _ => ?_
    rw [hv]

theorem elementary_readOperand? (scope : Scope) (word : Option String) :
    Elementary (readOperand? scope word) := by
  cases word with
  | none => exact .pure none
  | some word => exact .bind (elementary_readOperand scope word) fun _ => .pure _

theorem elementary_refuseOperator {refused : Prop} [Decidable refused] {next : Unit → Exec β}
    (hn : ∀ value, Elementary (next value)) :
    Elementary (if refused then throw (.malformed .unknownOperator) >>= next else next ()) := by
  split
  · exact .bind (.throw _) hn
  · exact hn ()

theorem elementary_updateSlot (scope : Scope) (name : String) (op : Update)
    (operand : Option String) (slot : Slot) :
    Elementary (updateSlot scope name op operand slot) := by
  have hread := elementary_readOperand? scope operand
  cases slot with
  | int =>
    rw [updateSlot]
    refine elementary_refuseOperator fun _ => .bind hread fun _ => .look (fun m => ?_) ?_
    · exact .bind (elementary_check _) fun _ => .set _
    · intro m w hv _
      simp only [hv]
  | localInt =>
    rw [updateSlot]
    refine elementary_refuseOperator fun _ => .bind hread fun _ => .look (fun m => ?_) ?_
    · exact .bind (elementary_check _) fun _ => .set _
    · intro m w hv _
      simp only [hv]
  | mutableInt =>
    rw [updateSlot]
    refine elementary_refuseOperator fun _ => .bind hread fun _ => .look (fun m => .set _) ?_
    intro m w hv _
    simp only [hv]
  | string => exact .throw _
  | localString => exact .throw _

theorem elementary_assign (scope : Scope) (name : String) (args : List String) :
    Elementary (assign scope name args) := by
  refine .look (fun m => ?_) fun m w hv hr => ?_
  · dsimp only
    split
    · split
      · exact .throw _
      · exact .throw _
    · exact .bind (elementary_wellFormed _) fun _ => elementary_updateSlot _ _ _ _ _
  · have hname : (w.macros.contains name || w.labels.contains name) =
        (m.macros.contains name || m.labels.contains name) := congrFun hr name
    simp only [hv, hname]

theorem elementary_assignString (scope : Scope) (name value : String) :
    Elementary (assignString scope name value) := by
  refine .look (fun m => ?_) fun m w hv _ => ?_
  · dsimp only
    split
    · exact .bind (elementary_check _) fun _ => .set _
    · exact .bind (elementary_check _) fun _ => .set _
  · simp only [hv]

theorem elementary_evaluate (scope : Scope) (condition : Condition) :
    Elementary (evaluate scope condition) := by
  refine .look (fun m => ?_) fun m w hv _ => ?_
  · dsimp only
    split
    · exact .bind (elementary_check _) fun _ => .pure _
    · exact .bind (elementary_check _) fun _ => .pure _
  · simp only [hv]

theorem elementary_declare (declare : Variables → Except SyntaxFault Variables) :
    Elementary (get >>= fun m : Machine => wellFormed (declare m.vars) >>= fun vars =>
      setVariables vars >>= fun _ => pure ([] : List Frame)) := by
  refine .look (fun m => ?_) fun m w hv _ => ?_
  · exact .bind (elementary_wellFormed _) fun _ => .bind (.set _) fun _ => .pure []
  · simp only [hv]

/-- A plain statement that passes the guard is elementary. -/
theorem elementary_execute (scope : Scope) {statement : Statement}
    (hs : statement.isPlain = true) :
    ∃ action, Elementary action ∧ ∀ m : Machine, m.Free → execute scope statement m = action m := by
  refine ⟨_, ?_, fun m hf => by rw [execute, bind_of_ok (guard_of_free hf)]⟩
  cases statement with
  | declareInt name value => exact elementary_declare (·.declareInt scope name value)
  | declareString name value => exact elementary_declare (·.declareString scope name value)
  | declareMutable name value => exact elementary_declare (·.declareMutable name value)
  | assign name args =>
    refine .look (fun m => ?_) fun _ _ _ _ => rfl
    exact .bind (elementary_assign scope name args) fun _ => .pure []
  | assignString name value =>
    refine .look (fun m => ?_) fun _ _ _ _ => rfl
    exact .bind (elementary_assignString scope name value) fun _ => .pure []
  | printVar name newline =>
    refine .look (fun m => ?_) fun m w hv _ => ?_
    · exact .bind (elementary_check _) fun _ =>
        .bind (elementary_emit _ newline) fun _ => .pure []
    · simp only [hv]
  | printText text newline =>
    refine .look (fun m => ?_) fun _ _ _ _ => rfl
    exact .bind (elementary_emit text newline) fun _ => .pure []
  | macroHeader name => exact .look (fun m => .pure []) fun _ _ _ _ => rfl
  | comment => exact .look (fun m => .pure []) fun _ _ _ _ => rfl
  | endBlock kind => exact .look (fun m => .pure []) fun _ _ _ _ => rfl
  | ifHeader condition => cases hs
  | forHeader header => cases hs
  | call name => cases hs
  | label name => cases hs
  | goto name => cases hs

/-- A relation between machines that agree in what elementary actions look at, and that setting
variables and printing keep. -/
structure Agreement (R : Machine → Machine → Prop) : Prop where
  vars : ∀ {m w}, R m w → w.vars = m.vars
  isReserved : ∀ {m w}, R m w → w.isReserved = m.isReserved
  set : ∀ {m w}, R m w → ∀ vars, R { m with vars := vars } { w with vars := vars }
  put : ∀ {m w}, R m w → ∀ text, EndAlike R (printing (put text) m) (printing (put text) w)

theorem Elementary.endAlike {R : Machine → Machine → Prop} (hR : Agreement R) {action : Exec α}
    (ha : Elementary action) {m w : Machine} (h : R m w) : EndAlike R (action m) (action w) := by
  induction ha generalizing m w with
  | pure value => exact .ok value h
  | throw fault => exact .error fault h
  | look hn hsame ih =>
    rename_i next
    have hnext : next w = next m := hsame m w (hR.vars h) (hR.isReserved h)
    rw [get_bind, get_bind, hnext]
    exact ih m h
  | set vars => exact .ok () (hR.set h vars)
  | put text => exact hR.put h text
  | bind ha hn iha ihn => exact .bind (iha h) fun value _ _ h₁ => ihn value h₁

end Elementary

end Machine

end LineScript
