import LineScript.Machine.Control
import LineScript.Proofs.Reading

/-! What a line can do to the machine. All that later proofs use of the execution of statements is
said here once: `Started` lists the ways in which a line can begin, and `Ticked` the ways in which
a frame can take a step. -/

namespace LineScript

/-- The faults with which the guard stops a run. -/
def Fault.isGuard : Fault → Bool
  | .terminated | .tooMany (.jumps _) _ => true
  | _ => false

/-- Whether a statement does nothing to the control. -/
def Statement.isPlain : Statement → Bool
  | .ifHeader _ | .forHeader _ | .call _ | .label _ | .goto _ => false
  | _ => true

namespace Machine

/-- Two machines that differ at most in the variables and in what was printed. -/
def SameControl (m m' : Machine) : Prop :=
  ∃ vars interrupted sink, m' = { m with vars := vars, interrupted := interrupted, sink := sink }

theorem SameControl.refl (m : Machine) : SameControl m m :=
  ⟨_, _, _, rfl⟩

theorem SameControl.trans {m m₁ m₂ : Machine} (h₁ : SameControl m m₁) (h₂ : SameControl m₁ m₂) :
    SameControl m m₂ := by
  obtain ⟨_, _, _, rfl⟩ := h₁
  obtain ⟨_, _, _, rfl⟩ := h₂
  exact ⟨_, _, _, rfl⟩

/-- An action that does not touch the control, and none of whose faults is one of the guard. -/
def Plain {α : Type} (action : Exec α) : Prop :=
  ∀ m, (∀ value m', action m = .ok value m' → SameControl m m') ∧
    ∀ fault m', action m = .error fault m' → SameControl m m' ∧ fault.isGuard = false

theorem bind_of_ok {ε α β : Type} {action : EStateM ε Machine α} {next : α → EStateM ε Machine β}
    {m m' : Machine} {value : α} (h : action m = .ok value m') :
    (action >>= next) m = next value m' := by
  simp only [bind, EStateM.bind, h]

theorem bind_of_error {ε α β : Type} {action : EStateM ε Machine α}
    {next : α → EStateM ε Machine β} {m m' : Machine} {fault : ε}
    (h : action m = .error fault m') : (action >>= next) m = .error fault m' := by
  simp only [bind, EStateM.bind, h]

theorem get_bind {ε β : Type} (next : Machine → EStateM ε Machine β) (m : Machine) :
    (get >>= next) m = next m m :=
  rfl

theorem modify_bind {ε β : Type} (change : Machine → Machine)
    (next : Unit → EStateM ε Machine β) (m : Machine) :
    (modify change >>= next) m = next () (change m) :=
  rfl

section Plain

variable {α β : Type}

theorem plain_pure (value : α) : Plain (pure value : Exec α) := by
  intro m
  refine ⟨fun _ m' h => ?_, fun _ m' h => ?_⟩
  · cases h
    exact SameControl.refl m
  · cases h

theorem plain_throw {fault : Fault} (hf : fault.isGuard = false) :
    Plain (throw fault : Exec α) := by
  intro m
  refine ⟨fun _ m' h => ?_, fun _ m' h => ?_⟩
  · cases h
  · cases h
    exact ⟨SameControl.refl m, hf⟩

theorem plain_bind {action : Exec α} {next : α → Exec β} (ha : Plain action)
    (hn : ∀ value, Plain (next value)) : Plain (action >>= next) := by
  intro m
  obtain ⟨hok, herror⟩ := ha m
  cases hr : action m with
  | ok value m₁ =>
    have hs := hok value m₁ hr
    rw [bind_of_ok hr]
    exact ⟨fun v m' h => hs.trans ((hn value m₁).1 v m' h),
      fun f m' h => ⟨hs.trans ((hn value m₁).2 f m' h).1, ((hn value m₁).2 f m' h).2⟩⟩
  | error fault m₁ =>
    rw [bind_of_error hr]
    refine ⟨fun _ m' h => ?_, fun _ m' h => ?_⟩
    · cases h
    · cases h
      exact herror _ _ hr

/-- An action may look at the machine before it decides what to do. -/
theorem plain_get {next : Machine → Exec β} (hn : ∀ m, Plain (next m)) :
    Plain (get >>= next) := by
  intro m
  exact hn m m

theorem plain_check {result : Except Fault α}
    (hr : ∀ fault, result = .error fault → fault.isGuard = false) : Plain (check result) := by
  cases result with
  | ok value => exact plain_pure value
  | error fault => exact plain_throw (hr fault rfl)

theorem plain_wellFormed (result : Except SyntaxFault α) : Plain (wellFormed result) := by
  cases result with
  | ok value => exact plain_pure value
  | error cause => exact plain_throw rfl

theorem plain_setVariables (vars : Variables) : Plain (setVariables vars) := by
  intro m
  refine ⟨fun _ m' h => ?_, fun _ m' h => ?_⟩
  · cases h
    exact ⟨_, _, _, rfl⟩
  · cases h

/-- The machine after a text was printed, or as much of it as the sink could hold. -/
def printed (text : String) (m : Machine) : Machine :=
  { m with
    sink := m.sink.store text.toUTF8
    interrupted := m.interrupted || m.sink.rings text.toUTF8 }

theorem put_eq (text : String) (m : Machine) :
    put text m =
      if m.sink.holds text.toUTF8 then .ok () (m.printed text)
      else .error .sinkFull (m.printed text) := by
  simp only [put, get_bind, modify_bind]
  cases m.sink.holds text.toUTF8 <;> rfl

theorem printing_put (text : String) (m : Machine) :
    printing (put text) m =
      if m.sink.holds text.toUTF8 then .ok () (m.printed text)
      else .error (.output .sinkFull) (m.printed text) := by
  rw [printing, EStateM.adaptExcept, put_eq]
  cases m.sink.holds text.toUTF8 <;> rfl

theorem plain_put (text : String) : Plain (printing (put text)) := by
  intro m
  have hs : SameControl m (m.printed text) := ⟨_, _, _, rfl⟩
  rw [printing_put]
  split
  · refine ⟨fun _ m' h => ?_, fun _ m' h => ?_⟩
    · cases h
      exact hs
    · cases h
  · refine ⟨fun _ m' h => ?_, fun _ m' h => ?_⟩
    · cases h
    · cases h
      exact ⟨hs, rfl⟩

theorem plain_emit (text : String) (newline : Bool) : Plain (emit text newline) := by
  refine plain_bind (plain_put text) fun _ => ?_
  split
  · exact plain_put "\n"
  · exact plain_pure ()

theorem found_not_guard {name : String} {entry : Option α} {fault : Fault}
    (h : Variables.found name entry = .error fault) : fault.isGuard = false := by
  cases entry <;> cases h
  rfl

theorem plain_readOperand (scope : Scope) (word : String) : Plain (readOperand scope word) := by
  unfold readOperand
  split
  · exact plain_pure _
  · exact plain_get fun m => plain_check fun _ h => found_not_guard h

theorem plain_readOperand? (scope : Scope) (word : Option String) :
    Plain (readOperand? scope word) := by
  cases word with
  | none => exact plain_pure none
  | some word =>
    have he : readOperand? scope (some word) = readOperand scope word >>= fun n => pure (some n) :=
      rfl
    rw [he]
    exact plain_bind (plain_readOperand scope word) fun _ => plain_pure _

theorem updateEntry_not_guard {t : Table Int64} {name : String} {op : Update} {operand : Int64}
    {fault : Fault} (h : updateEntry t name op operand = .error fault) :
    fault.isGuard = false := by
  unfold updateEntry at h
  cases hf : Variables.found name (t.get? name) with
  | error cause =>
    rw [hf] at h
    cases h
    exact found_not_guard hf
  | ok current =>
    rw [hf] at h
    cases ha : op.apply current operand with
    | error cause =>
      simp only [bind, Except.bind, Except.mapError, ha] at h
      cases h
      rfl
    | ok value =>
      simp only [bind, Except.bind, Except.mapError, ha] at h
      cases h

theorem plain_refuseOperator {refused : Prop} [Decidable refused] {next : Unit → Exec β}
    (hn : ∀ value, Plain (next value)) :
    Plain (if refused then throw (.malformed .unknownOperator) >>= next else next ()) := by
  split
  · exact plain_bind (plain_throw rfl) hn
  · exact hn ()

theorem plain_updateSlot (scope : Scope) (name : String) (op : Update) (operand : Option String)
    (slot : Slot) : Plain (updateSlot scope name op operand slot) := by
  have hread := plain_readOperand? scope operand
  cases slot with
  | int =>
    rw [updateSlot]
    refine plain_refuseOperator fun _ => plain_bind hread fun _ => plain_get fun _ => ?_
    exact plain_bind (plain_check fun _ h => updateEntry_not_guard h) fun _ => plain_setVariables _
  | localInt =>
    rw [updateSlot]
    refine plain_refuseOperator fun _ => plain_bind hread fun _ => plain_get fun _ => ?_
    exact plain_bind (plain_check fun _ h => updateEntry_not_guard h) fun _ => plain_setVariables _
  | mutableInt =>
    rw [updateSlot]
    refine plain_refuseOperator fun _ => plain_bind hread fun _ => plain_get fun _ => ?_
    exact plain_setVariables _
  | string => exact plain_throw rfl
  | localString => exact plain_throw rfl

theorem plain_assign (scope : Scope) (name : String) (args : List String) :
    Plain (assign scope name args) := by
  refine plain_get fun m => ?_
  dsimp only
  split
  · split
    · exact plain_throw rfl
    · exact plain_throw rfl
  · exact plain_bind (plain_wellFormed _) fun _ => plain_updateSlot _ _ _ _ _

theorem plain_assignString (scope : Scope) (name value : String) :
    Plain (assignString scope name value) := by
  refine plain_get fun m => ?_
  dsimp only
  split
  · exact plain_bind (plain_check fun _ h => found_not_guard h) fun _ => plain_setVariables _
  · exact plain_bind (plain_check fun _ h => found_not_guard h) fun _ => plain_setVariables _

/-- A plain action that leaves no work to be done. -/
def LeavesNothing (action : Exec (List Frame)) : Prop :=
  Plain action ∧ ∀ m frames m', action m = .ok frames m' → frames = []

theorem leavesNothing_pure : LeavesNothing (pure []) := by
  refine ⟨plain_pure [], fun m frames m' h => ?_⟩
  cases h
  rfl

theorem leavesNothing_get {next : Machine → Exec (List Frame)}
    (hn : ∀ m, LeavesNothing (next m)) : LeavesNothing (get >>= next) :=
  ⟨plain_get fun m => (hn m).1, fun m frames m' h => (hn m).2 m frames m' h⟩

theorem leavesNothing_bind {action : Exec α} {next : α → Exec (List Frame)} (ha : Plain action)
    (hn : ∀ value, LeavesNothing (next value)) : LeavesNothing (action >>= next) := by
  refine ⟨plain_bind ha fun value => (hn value).1, fun m frames m' h => ?_⟩
  cases hr : action m with
  | ok value m₁ =>
    rw [bind_of_ok hr] at h
    exact (hn value).2 m₁ frames m' h
  | error fault m₁ =>
    rw [bind_of_error hr] at h
    cases h

end Plain

/-- The guard has nothing against the next statement. -/
def Free (m : Machine) : Prop :=
  m.interrupted = false ∧ m.labels.check m.jumpLimit = .ok ()

/-- The guard stops the machine with the given fault. -/
def Stopped (m : Machine) (fault : Fault) : Prop :=
  m.interrupted = true ∧ fault = .terminated ∨
    m.interrupted = false ∧ m.labels.check m.jumpLimit = .error fault

theorem free_or_stopped (m : Machine) : Free m ∨ ∃ fault, Stopped m fault := by
  cases hi : m.interrupted with
  | true => exact Or.inr ⟨.terminated, Or.inl ⟨hi, rfl⟩⟩
  | false =>
    cases hc : m.labels.check m.jumpLimit with
    | ok value => exact Or.inl ⟨hi, hc⟩
    | error fault => exact Or.inr ⟨fault, Or.inr ⟨hi, hc⟩⟩

theorem Free.not_stopped {m : Machine} {fault : Fault} (h : Free m) : ¬ Stopped m fault := by
  rintro (⟨hi, _⟩ | ⟨_, hc⟩)
  · rw [h.1] at hi
    cases hi
  · rw [h.2] at hc
    cases hc

theorem Stopped.isGuard {m : Machine} {fault : Fault} (h : Stopped m fault) :
    fault.isGuard = true := by
  rcases h with ⟨_, rfl⟩ | ⟨_, hc⟩
  · rfl
  · unfold LabelTable.check at hc
    split at hc <;> cases hc
    rfl

theorem guard_eq (m : Machine) :
    guard m =
      if m.interrupted then .error .terminated m else check (m.labels.check m.jumpLimit) m := by
  rw [guard, get_bind]
  cases m.interrupted <;> rfl

theorem guard_of_free {m : Machine} (h : Free m) : guard m = .ok () m := by
  obtain ⟨hi, hc⟩ := h
  rw [guard_eq, hi, hc]
  rfl

theorem guard_of_stopped {m : Machine} {fault : Fault} (h : Stopped m fault) :
    guard m = .error fault m := by
  rcases h with ⟨hi, rfl⟩ | ⟨hi, hc⟩
  · rw [guard_eq, hi, if_pos rfl]
  · rw [guard_eq, hi, hc]
    rfl

/-- A statement that the guard stops does nothing at all. -/
theorem execute_of_stopped {m : Machine} {fault : Fault} (h : Stopped m fault) (scope : Scope)
    (statement : Statement) : execute scope statement m = .error fault m := by
  rw [execute]
  exact bind_of_error (guard_of_stopped h)

/-- A plain statement that passes the guard touches the control neither when it succeeds nor when
it fails. -/
theorem execute_plain {m : Machine} (h : Free m) (scope : Scope) {statement : Statement}
    (hs : statement.isPlain = true) :
    ∃ action, LeavesNothing action ∧ execute scope statement m = action m := by
  have hg := guard_of_free h
  refine ⟨_, ?_, by rw [execute, bind_of_ok hg]⟩
  refine leavesNothing_get fun m => ?_
  cases statement with
  | declareInt name value =>
    exact leavesNothing_bind (plain_wellFormed _) fun _ =>
      leavesNothing_bind (plain_setVariables _) fun _ => leavesNothing_pure
  | declareString name value =>
    exact leavesNothing_bind (plain_wellFormed _) fun _ =>
      leavesNothing_bind (plain_setVariables _) fun _ => leavesNothing_pure
  | declareMutable name value =>
    exact leavesNothing_bind (plain_wellFormed _) fun _ =>
      leavesNothing_bind (plain_setVariables _) fun _ => leavesNothing_pure
  | assign name args =>
    exact leavesNothing_bind (plain_assign scope name args) fun _ => leavesNothing_pure
  | assignString name value =>
    exact leavesNothing_bind (plain_assignString scope name value) fun _ => leavesNothing_pure
  | printVar name newline =>
    exact leavesNothing_bind (plain_check fun _ h => found_not_guard h) fun _ =>
      leavesNothing_bind (plain_emit _ newline) fun _ => leavesNothing_pure
  | printText text newline =>
    exact leavesNothing_bind (plain_emit text newline) fun _ => leavesNothing_pure
  | macroHeader name => exact leavesNothing_pure
  | comment => exact leavesNothing_pure
  | endBlock kind => exact leavesNothing_pure
  | ifHeader condition => cases hs
  | forHeader header => cases hs
  | call name => cases hs
  | label name => cases hs
  | goto name => cases hs

theorem takeBody_of_pending {m : Machine} {kind : BlockKind} {body : List String}
    (h : m.pending = some ⟨kind, body⟩) : takeBody kind m = .ok body m.clearPending := by
  simp only [takeBody, get_bind, h, if_true, modify_bind]
  rfl

/-- A condition is evaluated without a trace. -/
theorem evaluate_state (scope : Scope) (c : Condition) (m : Machine) :
    (∃ holds, evaluate scope c m = .ok holds m) ∨
      ∃ fault, fault.isGuard = false ∧ evaluate scope c m = .error fault m := by
  rw [evaluate, get_bind]
  cases c.operand with
  | int operand =>
    cases hr : m.vars.readInt scope c.name with
    | ok value => exact Or.inl ⟨_, rfl⟩
    | error fault => exact Or.inr ⟨fault, found_not_guard hr, rfl⟩
  | text operand =>
    cases hr : m.vars.readString scope c.name with
    | ok value => exact Or.inl ⟨_, rfl⟩
    | error fault => exact Or.inr ⟨fault, found_not_guard hr, rfl⟩

theorem execute_ifHeader_eq {m : Machine} (h : Free m) (scope : Scope) (condition : Condition)
    {body : List String} (hp : m.pending = some ⟨.ifBlock, body⟩) :
    execute scope (.ifHeader condition) m = (evaluate scope condition >>= fun holds =>
      if holds then pure [.body scope body] else pure []) m.clearPending := by
  rw [execute, bind_of_ok (guard_of_free h), get_bind]
  exact bind_of_ok (takeBody_of_pending hp)

theorem execute_ifHeader {m : Machine} (h : Free m) (scope : Scope) (condition : Condition)
    {body : List String} (hp : m.pending = some ⟨.ifBlock, body⟩) :
    execute scope (.ifHeader condition) m = .ok [] m.clearPending ∨
      execute scope (.ifHeader condition) m = .ok [.body scope body] m.clearPending ∨
      ∃ fault, fault.isGuard = false ∧
        execute scope (.ifHeader condition) m = .error fault m.clearPending := by
  rw [execute_ifHeader_eq h scope condition hp]
  rcases evaluate_state scope condition m.clearPending with ⟨holds, hv⟩ | ⟨fault, hf, hv⟩
  · rw [bind_of_ok hv]
    cases holds with
    | false => exact Or.inl rfl
    | true => exact Or.inr (Or.inl rfl)
  · rw [bind_of_error hv]
    exact Or.inr (Or.inr ⟨fault, hf, rfl⟩)

theorem execute_forHeader {m : Machine} (h : Free m) (scope : Scope) (header : LoopHeader)
    {body : List String} (hp : m.pending = some ⟨.forBlock, body⟩) :
    execute scope (.forHeader header) m =
      .ok [.loop scope header body header.first] m.clearPending := by
  rw [execute, bind_of_ok (guard_of_free h), get_bind]
  exact bind_of_ok (takeBody_of_pending hp)

theorem execute_call_eq {m : Machine} (h : Free m) (scope : Scope) (name : String) :
    execute scope (.call name) m = enter name m := by
  rw [execute, bind_of_ok (guard_of_free h), get_bind]

theorem execute_call {m : Machine} (h : Free m) (scope : Scope) (name : String) :
    (∃ body, m.macros.body? name = some body ∧ m.depth < maxDepth ∧
      execute scope (.call name) m = .ok [.call 0 body] { m with depth := m.depth + 1 }) ∨
    ∃ fault, fault.isGuard = false ∧ execute scope (.call name) m = .error fault m := by
  rw [execute_call_eq h, enter, get_bind]
  cases hb : m.macros.body? name with
  | none => exact Or.inr ⟨_, rfl, rfl⟩
  | some body =>
    by_cases hd : maxDepth ≤ m.depth
    · refine Or.inr ⟨.tooMany (.calls name) maxDepth, rfl, ?_⟩
      simp only [hd, if_true]
      rfl
    · refine Or.inl ⟨body, rfl, by omega, ?_⟩
      simp only [hd, if_false]
      rfl

theorem execute_label {m : Machine} (h : Free m) (scope : Scope) (name : String) :
    execute scope (.label name) m = .ok [] { m with labels := m.labels.declare name m.ip } := by
  rw [execute, bind_of_ok (guard_of_free h), get_bind]
  rfl

theorem execute_comment {m : Machine} (h : Free m) (scope : Scope) :
    execute scope .comment m = .ok [] m := by
  rw [execute, bind_of_ok (guard_of_free h), get_bind]
  rfl

theorem execute_goto {m : Machine} (h : Free m) (scope : Scope) (name : String) :
    (∃ index labels, m.labels.jump name = .ok (index, labels) ∧
      execute scope (.goto name) m =
        .ok [] { m with labels := labels, ip := index, jumped := true }) ∨
    ∃ fault, fault.isGuard = false ∧ execute scope (.goto name) m = .error fault m := by
  have he : execute scope (.goto name) m = (jumpTo name >>= fun _ => pure []) m := by
    rw [execute, bind_of_ok (guard_of_free h), get_bind]
  cases hj : m.labels.jump name with
  | ok target =>
    have ht : jumpTo name m =
        .ok () { m with labels := target.2, ip := target.1, jumped := true } := by
      rw [jumpTo, get_bind, hj]
      rfl
    rw [he, bind_of_ok ht]
    exact Or.inl ⟨target.1, target.2, rfl, rfl⟩
  | error fault =>
    have ht : jumpTo name m = .error fault m := by
      rw [jumpTo, get_bind, hj]
      rfl
    have hf : fault.isGuard = false := by
      unfold LabelTable.jump at hj
      split at hj <;> cases hj
      rfl
    rw [he, bind_of_error ht]
    exact Or.inr ⟨fault, hf, rfl⟩

/-- The ways in which a line can begin, given the lines after it: the work that it leaves, the
number of lines that it takes, and the machine after it. -/
inductive Started (scope : Scope) (line : String) (rest : List String) (m : Machine) :
    List Frame → Nat → Machine → Prop where
  | defined {name : String}
      (hr : Statement.read (m.vars.isString scope) line = .ok (.macroHeader name)) :
      Started scope line rest m [] (blockSpan (BlockKind.macroBlock.body rest))
        { m with macros := m.macros.define name (BlockKind.macroBlock.body rest) }
  | plain {statement : Statement} {m' : Machine}
      (hr : Statement.read (m.vars.isString scope) line = .ok statement)
      (hs : statement.isPlain = true) (hf : Free m) (hsame : SameControl m m')
      (ho : statement.opens? = none) : Started scope line rest m [] 1 m'
  | skipped {condition : Condition}
      (hr : Statement.read (m.vars.isString scope) line = .ok (.ifHeader condition))
      (hf : Free m) :
      Started scope line rest m [] (blockSpan (BlockKind.ifBlock.body rest)) m.clearPending
  | entered {condition : Condition}
      (hr : Statement.read (m.vars.isString scope) line = .ok (.ifHeader condition))
      (hf : Free m) :
      Started scope line rest m [.body scope (BlockKind.ifBlock.body rest)]
        (blockSpan (BlockKind.ifBlock.body rest)) m.clearPending
  | looped {header : LoopHeader}
      (hr : Statement.read (m.vars.isString scope) line = .ok (.forHeader header))
      (hf : Free m) :
      Started scope line rest m
        [.loop scope header (BlockKind.forBlock.body rest) header.first]
        (blockSpan (BlockKind.forBlock.body rest)) m.clearPending
  | called {name : String} {body : List String}
      (hr : Statement.read (m.vars.isString scope) line = .ok (.call name)) (hf : Free m)
      (hb : m.macros.body? name = some body) (hd : m.depth < maxDepth) :
      Started scope line rest m [.call 0 body] 1 { m with depth := m.depth + 1 }
  | labelled {name : String}
      (hr : Statement.read (m.vars.isString scope) line = .ok (.label name)) (hf : Free m) :
      Started scope line rest m [] 1 { m with labels := m.labels.declare name m.ip }
  | jumped {name : String} {index : Nat} {labels : LabelTable}
      (hr : Statement.read (m.vars.isString scope) line = .ok (.goto name)) (hf : Free m)
      (hj : m.labels.jump name = .ok (index, labels)) :
      Started scope line rest m [] 1 { m with labels := labels, ip := index, jumped := true }

/-- The ways in which a line can fail: the guard stops it before it did more than make a block
pending, it cannot be read, or it passes the guard and fails for a reason of its own. -/
def Failed (m : Machine) (fault : Fault) (m' : Machine) : Prop :=
  (Stopped m fault ∧ ∃ pending, m' = { m with pending := pending }) ∨
    fault.isGuard = false ∧
      (m' = m ∨ Free m ∧ ∃ vars pending interrupted sink,
        m' = { m with
          vars := vars, pending := pending, interrupted := interrupted, sink := sink })

theorem start_of_opens?_eq_none {scope : Scope} {line : String} {m : Machine}
    {statement : Statement} (rest : List String)
    (hr : Statement.read (m.vars.isString scope) line = .ok statement)
    (ho : statement.opens? = none) :
    start scope line rest m = (execute scope statement >>= fun frames => pure (frames, 1)) m := by
  rw [start, get_bind, hr]
  cases statement <;> first | rfl | cases ho

theorem start_of_ifHeader {scope : Scope} {line : String} {m : Machine} {condition : Condition}
    (rest : List String)
    (hr : Statement.read (m.vars.isString scope) line = .ok (.ifHeader condition)) :
    start scope line rest m = (execute scope (.ifHeader condition) >>= fun frames =>
      pure (frames, blockSpan (BlockKind.ifBlock.body rest)))
        { m with pending := some ⟨.ifBlock, BlockKind.ifBlock.body rest⟩ } := by
  rw [start, get_bind, hr]
  rfl

theorem start_of_forHeader {scope : Scope} {line : String} {m : Machine} {header : LoopHeader}
    (rest : List String)
    (hr : Statement.read (m.vars.isString scope) line = .ok (.forHeader header)) :
    start scope line rest m = (execute scope (.forHeader header) >>= fun frames =>
      pure (frames, blockSpan (BlockKind.forBlock.body rest)))
        { m with pending := some ⟨.forBlock, BlockKind.forBlock.body rest⟩ } := by
  rw [start, get_bind, hr]
  rfl

theorem start_of_macroHeader {scope : Scope} {line name : String} {m : Machine}
    (rest : List String)
    (hr : Statement.read (m.vars.isString scope) line = .ok (.macroHeader name)) :
    start scope line rest m = .ok ([], blockSpan (BlockKind.macroBlock.body rest))
      { m with macros := m.macros.define name (BlockKind.macroBlock.body rest) } := by
  rw [start, get_bind, hr]
  rfl

theorem start_of_unreadable {scope : Scope} {line : String} {m : Machine} {cause : SyntaxFault}
    (rest : List String) (hr : Statement.read (m.vars.isString scope) line = .error cause) :
    start scope line rest m = .error (.malformed cause) m := by
  rw [start, get_bind, hr]
  rfl

/-- Where the guard stops the machine, only macros are defined. -/
theorem start_of_stopped {scope : Scope} {line : String} {m : Machine} {statement : Statement}
    {fault : Fault} (rest : List String) (h : Stopped m fault)
    (hr : Statement.read (m.vars.isString scope) line = .ok statement)
    (hm : statement.opens? ≠ some .macroBlock) :
    ∃ pending, start scope line rest m = .error fault { m with pending := pending } := by
  have hother (ho : statement.opens? = none) :
      ∃ pending, start scope line rest m = .error fault { m with pending := pending } := by
    rw [start_of_opens?_eq_none rest hr ho]
    exact ⟨m.pending, bind_of_error (execute_of_stopped h scope statement)⟩
  cases statement with
  | macroHeader name => exact absurd rfl hm
  | ifHeader condition =>
    rw [start_of_ifHeader rest hr]
    exact ⟨_, bind_of_error (execute_of_stopped (m := { m with
      pending := some ⟨.ifBlock, BlockKind.ifBlock.body rest⟩ }) h scope _)⟩
  | forHeader header =>
    rw [start_of_forHeader rest hr]
    exact ⟨_, bind_of_error (execute_of_stopped (m := { m with
      pending := some ⟨.forBlock, BlockKind.forBlock.body rest⟩ }) h scope _)⟩
  | _ => exact hother rfl

/-- A line begins in one of the ways of `Started`, or fails in one of the ways of `Failed`. -/
def Begun (scope : Scope) (line : String) (rest : List String) (m : Machine) :
    EStateM.Result Fault Machine (List Frame × Nat) → Prop
  | .ok (frames, span) m' => Started scope line rest m frames span m'
  | .error fault m' => Failed m fault m'

theorem begun_of_plain {scope : Scope} {line : String} {m : Machine} {statement : Statement}
    (rest : List String) (hf : Free m)
    (hr : Statement.read (m.vars.isString scope) line = .ok statement)
    (hs : statement.isPlain = true) (ho : statement.opens? = none) :
    Begun scope line rest m (start scope line rest m) := by
  obtain ⟨action, ⟨hplain, hnil⟩, he⟩ := execute_plain hf scope hs
  rw [start_of_opens?_eq_none rest hr ho]
  cases ha : action m with
  | ok frames m' =>
    obtain rfl := hnil m frames m' ha
    rw [bind_of_ok (he.trans ha)]
    exact .plain hr hs hf ((hplain m).1 _ _ ha) ho
  | error fault m' =>
    obtain ⟨⟨vars, interrupted, sink, rfl⟩, hg⟩ := (hplain m).2 _ _ ha
    rw [bind_of_error (he.trans ha)]
    exact Or.inr ⟨hg, Or.inr ⟨hf, vars, m.pending, interrupted, sink, rfl⟩⟩

theorem begun_of_ifHeader {scope : Scope} {line : String} {m : Machine} {condition : Condition}
    (rest : List String) (hf : Free m)
    (hr : Statement.read (m.vars.isString scope) line = .ok (.ifHeader condition)) :
    Begun scope line rest m (start scope line rest m) := by
  rw [start_of_ifHeader rest hr]
  rcases execute_ifHeader (m := { m with
      pending := some ⟨.ifBlock, BlockKind.ifBlock.body rest⟩ }) hf scope condition rfl with
    he | he | ⟨fault, hg, he⟩
  · rw [bind_of_ok he]
    exact .skipped hr hf
  · rw [bind_of_ok he]
    exact .entered hr hf
  · rw [bind_of_error he]
    exact Or.inr ⟨hg, Or.inr ⟨hf, _, _, _, _, rfl⟩⟩

theorem begun_of_call {scope : Scope} {line name : String} {m : Machine} (rest : List String)
    (hf : Free m) (hr : Statement.read (m.vars.isString scope) line = .ok (.call name)) :
    Begun scope line rest m (start scope line rest m) := by
  rw [start_of_opens?_eq_none rest hr rfl]
  rcases execute_call hf scope name with ⟨body, hb, hd, he⟩ | ⟨fault, hg, he⟩
  · rw [bind_of_ok he]
    exact .called hr hf hb hd
  · rw [bind_of_error he]
    exact Or.inr ⟨hg, Or.inr ⟨hf, _, _, _, _, rfl⟩⟩

theorem begun_of_goto {scope : Scope} {line name : String} {m : Machine} (rest : List String)
    (hf : Free m) (hr : Statement.read (m.vars.isString scope) line = .ok (.goto name)) :
    Begun scope line rest m (start scope line rest m) := by
  rw [start_of_opens?_eq_none rest hr rfl]
  rcases execute_goto hf scope name with ⟨index, labels, hj, he⟩ | ⟨fault, hg, he⟩
  · rw [bind_of_ok he]
    exact .jumped hr hf hj
  · rw [bind_of_error he]
    exact Or.inr ⟨hg, Or.inr ⟨hf, _, _, _, _, rfl⟩⟩

/-- What a line does, said in one place. -/
theorem start_begun (scope : Scope) (line : String) (rest : List String) (m : Machine) :
    Begun scope line rest m (start scope line rest m) := by
  cases hr : Statement.read (m.vars.isString scope) line with
  | error cause =>
    have he : start scope line rest m = .error (.malformed cause) m := by
      rw [start, get_bind, hr]
      rfl
    rw [he]
    exact Or.inr ⟨rfl, Or.inl rfl⟩
  | ok statement =>
    by_cases hm : statement.opens? = some .macroBlock
    · cases statement <;> cases hm
      rw [start_of_macroHeader rest hr]
      exact .defined hr
    rcases free_or_stopped m with hf | ⟨fault, hstop⟩
    · cases statement with
      | macroHeader name => exact absurd rfl hm
      | ifHeader condition => exact begun_of_ifHeader rest hf hr
      | forHeader header =>
        have he := execute_forHeader (m := { m with
          pending := some ⟨.forBlock, BlockKind.forBlock.body rest⟩ }) hf scope header rfl
        rw [start_of_forHeader rest hr, bind_of_ok he]
        exact .looped hr hf
      | call name => exact begun_of_call rest hf hr
      | label name =>
        rw [start_of_opens?_eq_none rest hr rfl, bind_of_ok (execute_label hf scope name)]
        exact .labelled hr hf
      | goto name => exact begun_of_goto rest hf hr
      | _ => exact begun_of_plain rest hf hr rfl rfl
    · obtain ⟨pending, he⟩ := start_of_stopped rest hstop hr hm
      rw [he]
      exact Or.inl ⟨hstop, pending, rfl⟩

theorem started_of_start {scope : Scope} {line : String} {rest : List String} {m m' : Machine}
    {frames : List Frame} {span : Nat} (h : start scope line rest m = .ok (frames, span) m') :
    Started scope line rest m frames span m' := by
  have hb := start_begun scope line rest m
  rw [h] at hb
  exact hb

end Machine

end LineScript
