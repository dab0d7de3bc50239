import LineScript.Proofs.Ticks

/-! How actions print. Only the trace setting and the sink concern printing. All that a run does with
them is to write texts, to write the trace and to flush, and `Prints` says so once for every action
of a run. Two machines that print to different sinks are then compared by these few ways to print,
and not by the statements. -/

namespace LineScript

namespace Sink

/-- A sink that took up more bytes, and is the same in all but these and the last flush. -/
def Grows (sink sink' : Sink) : Prop :=
  ∃ data flushed, sink' = { sink with bytes := sink.bytes ++ data, flushed := flushed }

theorem Grows.refl (sink : Sink) : sink.Grows sink := by
  refine ⟨.empty, sink.flushed, ?_⟩
  rw [ByteArray.append_empty]

theorem Grows.trans {sink sink₁ sink₂ : Sink} (h₁ : sink.Grows sink₁) (h₂ : sink₁.Grows sink₂) :
    sink.Grows sink₂ := by
  obtain ⟨data₁, flushed₁, rfl⟩ := h₁
  obtain ⟨data₂, flushed₂, rfl⟩ := h₂
  refine ⟨data₁ ++ data₂, flushed₂, ?_⟩
  rw [← ByteArray.append_assoc]

theorem Grows.size_le {sink sink' : Sink} (h : sink.Grows sink') :
    sink.bytes.size ≤ sink'.bytes.size := by
  obtain ⟨data, flushed, rfl⟩ := h
  rw [ByteArray.size_append]
  exact Nat.le_add_right _ _

theorem Grows.capacity_eq {sink sink' : Sink} (h : sink.Grows sink') :
    sink'.capacity = sink.capacity := by
  obtain ⟨data, flushed, rfl⟩ := h
  rfl

/-- What a sink held at first stays at its beginning. -/
theorem Grows.extract_eq {sink sink' : Sink} (h : sink.Grows sink') {size : Nat}
    (hs : size ≤ sink.bytes.size) : sink'.bytes.extract 0 size = sink.bytes.extract 0 size := by
  obtain ⟨data, flushed, rfl⟩ := h
  have hdata : data.extract (0 - sink.bytes.size) (size - sink.bytes.size) = .empty := by
    rw [Nat.sub_eq_zero_of_le hs]
    apply ByteArray.extract_eq_empty_iff.mpr
    omega
  rw [ByteArray.extract_append, hdata, ByteArray.append_empty]

theorem fitting_of_unlimited {sink : Sink} (hu : sink.capacity = none) (data : ByteArray) :
    sink.fitting data = data := by
  simp only [fitting, hu]

theorem holds_of_fitting_eq {sink : Sink} {data : ByteArray} (h : sink.fitting data = data) :
    sink.holds data = true := by
  simp only [holds, h, decide_true]

end Sink

namespace Machine

section Results

variable {ε α β : Type}

/-- The machine that a result leaves behind. -/
def endState : EStateM.Result ε Machine α → Machine
  | .ok _ m => m
  | .error _ m => m

/-- The same result with a change to the machine that it leaves behind. -/
def mapEndState (change : Machine → Machine) :
    EStateM.Result ε Machine α → EStateM.Result ε Machine α
  | .ok value m => .ok value (change m)
  | .error fault m => .error fault (change m)

@[simp] theorem endState_mapEndState (change : Machine → Machine)
    (result : EStateM.Result ε Machine α) :
    endState (mapEndState change result) = change (endState result) := by
  cases result <;> rfl

theorem endState_bind_pure (action : EStateM ε Machine α) (next : α → β) (m : Machine) :
    endState ((action >>= fun value => pure (next value)) m) = endState (action m) := by
  cases hr : action m with
  | ok value m' => rw [bind_of_ok hr]; rfl
  | error fault m' => rw [bind_of_error hr]; rfl

/-- If each of two actions carries a change of the machine along, so do both in turn. -/
theorem bind_mapEndState {change : Machine → Machine} {action : EStateM ε Machine α}
    {next : α → EStateM ε Machine β} {m : Machine}
    (ha : action (change m) = mapEndState change (action m))
    (hn : ∀ value m', next value (change m') = mapEndState change (next value m')) :
    (action >>= next) (change m) = mapEndState change ((action >>= next) m) := by
  cases hr : action m with
  | ok value m' =>
    rw [hr] at ha
    rw [bind_of_ok hr, bind_of_ok ha]
    exact hn value m'
  | error fault m' =>
    rw [hr] at ha
    rw [bind_of_error hr, bind_of_error ha]
    rfl

end Results

/-- The machine with another sink. -/
def withSink (sink : Sink) (m : Machine) : Machine :=
  { m with sink := sink }

/-- The machine with another trace setting and another sink. -/
def withDisplay (debug : Bool) (sink : Sink) (m : Machine) : Machine :=
  { m with debug := debug, sink := sink }

/-- An action that neither looks at what concerns printing nor changes it. -/
def Quiet {α : Type} (action : Exec α) : Prop :=
  ∀ m debug sink, action (m.withDisplay debug sink) =
    mapEndState (withDisplay debug sink) (action m)

section Quiet

variable {α β : Type}

theorem Quiet.display_eq {action : Exec α} (h : Quiet action) (m : Machine) :
    (endState (action m)).debug = m.debug ∧ (endState (action m)).sink = m.sink := by
  have hself : action m = mapEndState (withDisplay m.debug m.sink) (action m) := h m m.debug m.sink
  rw [hself, endState_mapEndState]
  exact ⟨rfl, rfl⟩

/-- With another sink a quiet action has the same result and leaves that sink as it was. -/
theorem Quiet.withSink_eq {action : Exec α} (h : Quiet action) (m : Machine) (sink : Sink) :
    action (m.withSink sink) = mapEndState (withSink sink) (action m) := by
  have hsink : action (m.withSink sink) = mapEndState (withDisplay m.debug sink) (action m) :=
    h m m.debug sink
  have hdebug := (h.display_eq m).1
  rw [hsink]
  cases hr : action m with
  | ok value m' =>
    rw [hr] at hdebug
    exact congrArg (EStateM.Result.ok value ∘ fun debug => m'.withDisplay debug sink) hdebug.symm
  | error fault m' =>
    rw [hr] at hdebug
    exact congrArg (EStateM.Result.error fault ∘ fun debug => m'.withDisplay debug sink) hdebug.symm

theorem quiet_pure (value : α) : Quiet (pure value : Exec α) :=
  fun _ _ _ => rfl

theorem quiet_throw (fault : Fault) : Quiet (throw fault : Exec α) :=
  fun _ _ _ => rfl

theorem quiet_bind {action : Exec α} {next : α → Exec β} (ha : Quiet action)
    (hn : ∀ value, Quiet (next value)) : Quiet (action >>= next) := by
  intro m debug sink
  exact bind_mapEndState (ha m debug sink) fun value m' => hn value m' debug sink

/-- A quiet action may look at the machine, as long as it does the same whatever the display is. -/
theorem quiet_get {next : Machine → Exec β} (hn : ∀ m, Quiet (next m))
    (hd : ∀ m debug sink, next (m.withDisplay debug sink) = next m) : Quiet (get >>= next) := by
  intro m debug sink
  rw [get_bind, get_bind, hd]
  exact hn m m debug sink

theorem quiet_modify {change : Machine → Machine}
    (hc : ∀ m debug sink, change (m.withDisplay debug sink) = (change m).withDisplay debug sink) :
    Quiet (modify change) := by
  intro m debug sink
  exact congrArg (EStateM.Result.ok ()) (hc m debug sink)

theorem quiet_check (result : Except Fault α) : Quiet (check result) := by
  cases result with
  | ok value => exact quiet_pure value
  | error fault => exact quiet_throw fault

theorem quiet_wellFormed (result : Except SyntaxFault α) : Quiet (wellFormed result) := by
  cases result with
  | ok value => exact quiet_pure value
  | error cause => exact quiet_throw (.malformed cause)

theorem quiet_setVariables (vars : Variables) : Quiet (setVariables vars) :=
  quiet_modify fun _ _ _ => rfl

/-- The guard looks at the interrupt and at the labels, and at nothing else. -/
theorem quiet_guard : Quiet guard := by
  intro m debug sink
  rcases free_or_stopped m with hf | ⟨fault, hs⟩
  · have hf' : Free (m.withDisplay debug sink) := hf
    rw [guard_of_free hf, guard_of_free hf']
    rfl
  · have hs' : Stopped (m.withDisplay debug sink) fault := hs
    rw [guard_of_stopped hs, guard_of_stopped hs']
    rfl

theorem quiet_readOperand (scope : Scope) (word : String) : Quiet (readOperand scope word) := by
  unfold readOperand
  split
  · exact quiet_pure _
  · exact quiet_get (fun m => quiet_check _) fun _ _ _ => rfl

theorem quiet_readOperand? (scope : Scope) (word : Option String) :
    Quiet (readOperand? scope word) := by
  cases word with
  | none => exact quiet_pure none
  | some word =>
    have he : readOperand? scope (some word) = readOperand scope word >>= fun n => pure (some n) :=
      rfl
    rw [he]
    exact quiet_bind (quiet_readOperand scope word) fun _ => quiet_pure _

theorem quiet_refuseOperator {refused : Prop} [Decidable refused] {next : Unit → Exec β}
    (hn : ∀ value, Quiet (next value)) :
    Quiet (if refused then throw (.malformed .unknownOperator) >>= next else next ()) := by
  split
  · exact quiet_bind (quiet_throw _) hn
  · exact hn ()

theorem quiet_updateSlot (scope : Scope) (name : String) (op : Update) (operand : Option String)
    (slot : Slot) : Quiet (updateSlot scope name op operand slot) := by
  have hread := quiet_readOperand? scope operand
  cases slot with
  | int =>
    rw [updateSlot]
    refine quiet_refuseOperator fun _ => quiet_bind hread fun _ => ?_
    refine quiet_get (fun m => ?_) fun _ _ _ => rfl
    exact quiet_bind (quiet_check _) fun _ => quiet_setVariables _
  | localInt =>
    rw [updateSlot]
    refine quiet_refuseOperator fun _ => quiet_bind hread fun _ => ?_
    refine quiet_get (fun m => ?_) fun _ _ _ => rfl
    exact quiet_bind (quiet_check _) fun _ => quiet_setVariables _
  | mutableInt =>
    rw [updateSlot]
    refine quiet_refuseOperator fun _ => quiet_bind hread fun _ => ?_
    exact quiet_get (fun m => quiet_setVariables _) fun _ _ _ => rfl
  | string => exact quiet_throw _
  | localString => exact quiet_throw _

theorem quiet_assign (scope : Scope) (name : String) (args : List String) :
    Quiet (assign scope name args) := by
  refine quiet_get (fun m => ?_) fun _ _ _ => rfl
  dsimp only
  split
  · split
    · exact quiet_throw _
    · exact quiet_throw _
  · exact quiet_bind (quiet_wellFormed _) fun _ => quiet_updateSlot _ _ _ _ _

theorem quiet_assignString (scope : Scope) (name value : String) :
    Quiet (assignString scope name value) := by
  refine quiet_get (fun m => ?_) fun _ _ _ => rfl
  dsimp only
  split
  · exact quiet_bind (quiet_check _) fun _ => quiet_setVariables _
  · exact quiet_bind (quiet_check _) fun _ => quiet_setVariables _

/-- A declaration changes the variables by what it finds in them. -/
theorem quiet_declare (declare : Variables → Except SyntaxFault Variables) :
    Quiet (get >>= fun m => wellFormed (declare m.vars) >>= fun vars =>
      setVariables vars >>= fun _ => pure ([] : List Frame)) := by
  refine quiet_get (fun m => ?_) fun _ _ _ => rfl
  exact quiet_bind (quiet_wellFormed _) fun _ =>
    quiet_bind (quiet_setVariables _) fun _ => quiet_pure []

theorem quiet_takeBody (kind : BlockKind) : Quiet (takeBody kind) := by
  refine quiet_get (fun m => ?_) fun _ _ _ => rfl
  refine quiet_bind (quiet_modify fun _ _ _ => rfl) fun _ => ?_
  split
  · split
    · exact quiet_pure _
    · exact quiet_throw _
  · exact quiet_throw _

theorem quiet_evaluate (scope : Scope) (condition : Condition) :
    Quiet (evaluate scope condition) := by
  refine quiet_get (fun m => ?_) fun _ _ _ => rfl
  dsimp only
  split
  · exact quiet_bind (quiet_check _) fun _ => quiet_pure _
  · exact quiet_bind (quiet_check _) fun _ => quiet_pure _

theorem quiet_enter (name : String) : Quiet (enter name) := by
  intro m debug sink
  have hmacros : (m.withDisplay debug sink).macros = m.macros := rfl
  have hdepth : (m.withDisplay debug sink).depth = m.depth := rfl
  rw [enter, get_bind, get_bind, hmacros, hdepth]
  cases m.macros.body? name with
  | none => rfl
  | some body =>
    by_cases hd : maxDepth ≤ m.depth
    · simp only [hd, if_true]
      rfl
    · simp only [hd, if_false]
      rfl

theorem quiet_jumpTo (name : String) : Quiet (jumpTo name) := by
  intro m debug sink
  have hlabels : (m.withDisplay debug sink).labels = m.labels := rfl
  rw [jumpTo, get_bind, get_bind, hlabels]
  cases m.labels.jump name with
  | ok target => rfl
  | error fault => rfl

/-- The statements that move the control do not print. -/
theorem quiet_execute (scope : Scope) {statement : Statement} (hs : statement.isPlain = false) :
    Quiet (execute scope statement) := by
  unfold execute
  refine quiet_bind quiet_guard fun _ => ?_
  cases statement with
  | ifHeader condition =>
    refine quiet_get (fun m => ?_) fun _ _ _ => rfl
    refine quiet_bind (quiet_takeBody _) fun body => ?_
    refine quiet_bind (quiet_evaluate scope condition) fun holds => ?_
    split
    · exact quiet_pure _
    · exact quiet_pure _
  | forHeader header =>
    refine quiet_get (fun m => ?_) fun _ _ _ => rfl
    exact quiet_bind (quiet_takeBody _) fun body => quiet_pure _
  | call name => exact quiet_get (fun m => quiet_enter name) fun _ _ _ => rfl
  | goto name =>
    refine quiet_get (fun m => ?_) fun _ _ _ => rfl
    exact quiet_bind (quiet_jumpTo name) fun _ => quiet_pure []
  | label name => exact fun _ _ _ => rfl
  | _ => cases hs

end Quiet

/-- The ways in which an action may print: it writes a text or a line of the trace, or flushes, one
after another and with quiet actions in between. -/
inductive Prints : {α : Type} → Exec α → Prop where
  | quiet {α : Type} {action : Exec α} (h : Quiet action) : Prints action
  | put (text : String) : Prints (printing (put text))
  | trace (text : String) : Prints (trace text)
  | flush : Prints (printing flush)
  | bind {α β : Type} {action : Exec α} {next : α → Exec β} (ha : Prints action)
      (hn : ∀ value, Prints (next value)) : Prints (action >>= next)

section Prints

variable {α β : Type}

theorem prints_pure (value : α) : Prints (pure value : Exec α) :=
  .quiet (quiet_pure value)

/-- What an action prints may depend on the machine, but not on the display. -/
theorem prints_get {next : Machine → Exec β} (hn : ∀ m, Prints (next m))
    (hd : ∀ m debug sink, next (m.withDisplay debug sink) = next m) : Prints (get >>= next) := by
  -- Looking at the machine without its display is quiet, and it is enough to go on.
  let look : Exec Machine := get >>= fun m => pure (m.withDisplay false {})
  have hlook : Quiet look := fun _ _ _ => rfl
  have he : get >>= next = look >>= next := by
    funext m
    exact congrFun (hd m false {}).symm m
  rw [he]
  exact .bind (.quiet hlook) hn

theorem prints_emit (text : String) (newline : Bool) : Prints (emit text newline) := by
  refine .bind (.put text) fun _ => ?_
  split
  · exact .put "\n"
  · exact prints_pure ()

/-- Only two statements print. -/
theorem prints_execute (scope : Scope) (statement : Statement) :
    Prints (execute scope statement) := by
  by_cases hplain : statement.isPlain = false
  · exact .quiet (quiet_execute scope hplain)
  unfold execute
  refine .bind (.quiet quiet_guard) fun _ => ?_
  cases statement with
  | printVar name newline =>
    refine prints_get (fun m => ?_) fun _ _ _ => rfl
    exact .bind (.quiet (quiet_check _)) fun _ =>
      .bind (prints_emit _ newline) fun _ => prints_pure []
  | printText text newline =>
    refine prints_get (fun m => ?_) fun _ _ _ => rfl
    exact .bind (prints_emit text newline) fun _ => prints_pure []
  | declareInt name value => exact .quiet (quiet_declare (·.declareInt scope name value))
  | declareString name value => exact .quiet (quiet_declare (·.declareString scope name value))
  | declareMutable name value => exact .quiet (quiet_declare (·.declareMutable name value))
  | assign name args =>
    refine .quiet (quiet_get (fun m => ?_) fun _ _ _ => rfl)
    exact quiet_bind (quiet_assign scope name args) fun _ => quiet_pure []
  | assignString name value =>
    refine .quiet (quiet_get (fun m => ?_) fun _ _ _ => rfl)
    exact quiet_bind (quiet_assignString scope name value) fun _ => quiet_pure []
  | macroHeader name => exact .quiet fun _ _ _ => rfl
  | comment => exact .quiet fun _ _ _ => rfl
  | endBlock kind => exact .quiet fun _ _ _ => rfl
  | _ => exact absurd rfl hplain

/-- Reads a line as the machine understands it. -/
def readLine (scope : Scope) (line : String) : Exec Statement := do
  wellFormed (Statement.read ((← get).vars.isString scope) line)

/-- Begins a statement that was read, given the lines after it. -/
def beginRead (scope : Scope) (rest : List String) : Statement → Exec (List Frame × Nat)
  | .macroHeader name => do
    let body := BlockKind.macroBlock.body rest
    modify fun m => { m with macros := m.macros.define name body }
    return ([], blockSpan body)
  | .ifHeader condition => do
    let body := BlockKind.ifBlock.body rest
    modify fun m => { m with pending := some ⟨.ifBlock, body⟩ }
    return (← execute scope (.ifHeader condition), blockSpan body)
  | .forHeader header => do
    let body := BlockKind.forBlock.body rest
    modify fun m => { m with pending := some ⟨.forBlock, body⟩ }
    return (← execute scope (.forHeader header), blockSpan body)
  | statement => do
    return (← execute scope statement, 1)

/-- To begin a line is to read it, and then to begin what was read. -/
theorem start_eq (scope : Scope) (line : String) (rest : List String) :
    start scope line rest = readLine scope line >>= beginRead scope rest := by
  funext m
  cases hr : Statement.read (m.vars.isString scope) line with
  | error cause =>
    have he : readLine scope line m = .error (.malformed cause) m := by
      rw [readLine, get_bind, hr]
      rfl
    rw [start, get_bind, hr, bind_of_error he]
    rfl
  | ok statement =>
    have he : readLine scope line m = .ok statement m := by
      rw [readLine, get_bind, hr]
      rfl
    rw [start, get_bind, hr, bind_of_ok he]
    cases statement <;> rfl

theorem prints_beginRead (scope : Scope) (rest : List String) (statement : Statement) :
    Prints (beginRead scope rest statement) := by
  have hexecute (span : Nat) :
      Prints (execute scope statement >>= fun frames => pure (frames, span)) :=
    .bind (prints_execute scope statement) fun _ => prints_pure _
  have hmodify {change : Machine → Machine}
      (hc : ∀ m debug sink,
        change (m.withDisplay debug sink) = (change m).withDisplay debug sink) :
      Prints (modify change) := .quiet (quiet_modify hc)
  cases statement with
  | macroHeader name => exact .bind (hmodify fun _ _ _ => rfl) fun _ => prints_pure _
  | ifHeader condition => exact .bind (hmodify fun _ _ _ => rfl) fun _ => hexecute _
  | forHeader header => exact .bind (hmodify fun _ _ _ => rfl) fun _ => hexecute _
  | _ => exact hexecute 1

theorem prints_start (scope : Scope) (line : String) (rest : List String) :
    Prints (start scope line rest) := by
  have hread : Quiet (readLine scope line) :=
    quiet_get (fun m => quiet_wellFormed _) fun _ _ _ => rfl
  rw [start_eq]
  exact .bind (.quiet hread) (prints_beginRead scope rest)

theorem trace_eq (text : String) (m : Machine) :
    trace text m = if m.debug then printing (put text) m else .ok () m := by
  have he : trace text m = (if m.debug then printing (put text) else pure ()) m := rfl
  rw [he]
  split <;> rfl

theorem grows_put (text : String) (m : Machine) :
    m.sink.Grows (endState (printing (put text) m)).sink := by
  rw [printing_put]
  split <;> exact ⟨_, _, rfl⟩

/-- Printing only ever adds to the sink. -/
theorem Prints.grows {action : Exec α} (h : Prints action) (m : Machine) :
    m.sink.Grows (endState (action m)).sink := by
  induction h generalizing m with
  | quiet hq =>
    rw [(hq.display_eq m).2]
    exact Sink.Grows.refl m.sink
  | put text => exact grows_put text m
  | trace text =>
    rw [trace_eq]
    split
    · exact grows_put text m
    · exact Sink.Grows.refl m.sink
  | flush =>
    rw [printing_flush]
    split
    · exact Sink.Grows.refl m.sink
    · refine ⟨.empty, m.sink.bytes.size, ?_⟩
      rw [ByteArray.append_empty]
      rfl
  | bind ha hn iha ihn =>
    rename_i action next
    have hfirst := iha m
    cases hr : action m with
    | ok value m₁ =>
      rw [hr] at hfirst
      rw [bind_of_ok hr]
      exact hfirst.trans (ihn value m₁)
    | error fault m₁ =>
      rw [hr] at hfirst
      rw [bind_of_error hr]
      exact hfirst

end Prints

end Machine

open Machine in
theorem Frame.prints_tick (frame : Frame) : Prints frame.tick := by
  cases frame with
  | line index span => exact .quiet fun _ _ _ => rfl
  | body scope lines =>
    cases lines with
    | nil => exact prints_pure []
    | cons text rest => exact .bind (prints_start scope text rest) fun _ => prints_pure _
  | call index lines =>
    cases lines with
    | nil => exact .quiet fun _ _ _ => rfl
    | cons text rest =>
      exact .bind (.trace _) fun _ => .bind (prints_start .inMacro text rest) fun _ =>
        prints_pure _
  | loop scope header lines value =>
    have hpass : Quiet (modify (fun m : Machine =>
        { m with vars.ints := m.vars.ints.insert header.var value }) >>= fun _ =>
          pure [body scope lines, pass scope header lines value]) :=
      quiet_bind (quiet_modify fun _ _ _ => rfl) fun _ => quiet_pure _
    refine .quiet (quiet_bind quiet_guard fun _ => ?_)
    dsimp only
    split
    · split
      · exact quiet_pure []
      · exact hpass
    · exact hpass
  | pass scope header lines value =>
    rw [tick]
    split
    · exact prints_pure _
    · exact prints_pure _
    · exact .quiet (quiet_throw _)

namespace Machine

theorem prints_nextLine (program : List String) : Prints (nextLine program) := by
  refine prints_get (fun m => ?_) fun _ _ _ => rfl
  dsimp only
  split
  · have hclear : Quiet (modify cleared) := quiet_modify fun _ _ _ => rfl
    exact .bind .flush fun _ => .bind (.quiet hclear) fun _ => prints_pure none
  · have hreset : Quiet (modify fun m : Machine => { m with jumped := false }) :=
      quiet_modify fun _ _ _ => rfl
    exact .bind (.trace _) fun _ => .bind (.quiet hreset) fun _ =>
      .bind (prints_start .global _ _) fun _ => prints_pure _

/-- Every tick of a run prints in the ways of `Prints`. -/
theorem prints_tick (program : List String) (stack : List Frame) : Prints (tick program stack) := by
  cases stack with
  | nil => exact prints_nextLine program
  | cons frame stack => exact .bind frame.prints_tick fun _ => prints_pure _

end Machine

end LineScript
