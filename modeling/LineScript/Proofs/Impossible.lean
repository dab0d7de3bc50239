import LineScript.Proofs.Arithmetic
import LineScript.Proofs.Failures
import LineScript.Proofs.Forms
import LineScript.Proofs.Pending

/-! Faults that cannot arise. Three places of the machine rely on another one. A header finds its own
body pending, because the line that is begun has just put it there. A reassignment is not one of a
string, because the reader would have seen the string. And what is reassigned is there, because it was
looked for in the table that is then written to. -/

namespace LineScript

/-- The faults of syntax that stand for what cannot happen. -/
def SyntaxFault.isInternal : SyntaxFault → Bool
  | missingBody _ | stringTarget _ => true
  | _ => false

/-- The faults that stand for what cannot happen. -/
def Fault.isInternal : Fault → Bool
  | malformed cause => cause.isInternal
  | _ => false

theorem SyntaxFault.isInternal_of_isOfLine {cause : SyntaxFault} (h : cause.isOfLine = true) :
    cause.isInternal = false := by
  cases cause <;> first | rfl | cases h

theorem Fault.isInternal_of_isGuard {fault : Fault} (h : fault.isGuard = true) :
    fault.isInternal = false := by
  cases fault <;> first | rfl | cases h

namespace Statement

variable {isString : String → Bool} {line name : String}

/-- A line is read as an assignment of integers only if its first word is not seen as a string. -/
theorem isString_of_read_assign {args : List String}
    (h : read isString line = .ok (assign name args)) : isString name = false := by
  unfold read at h
  split at h
  · cases h
  · split at h
    · have hk := keyword?_of_readAfter h
      cases hk
    · split at h
      · unfold readStringAssignment at h
        split at h
        · split at h <;> cases h
        · cases h
      · split at h <;> cases h
        exact Bool.eq_false_of_not_eq_true ‹_›

theorem isString_of_read_assignString {value : String}
    (h : read isString line = .ok (assignString name value)) : isString name = true := by
  unfold read at h
  split at h
  · cases h
  · split at h
    · have hk := keyword?_of_readAfter h
      cases hk
    · split at h
      · rename_i hs
        unfold readStringAssignment at h
        split at h
        · split at h <;> cases h
          exact hs
        · cases h
      · split at h <;> cases h

end Statement

namespace Variables

variable {vars : Variables} {scope : Scope} {name : String} {slot : Slot}

/-- What the reader does not see as a string is no string to the machine. -/
theorem holdsStrings_of_isString (hs : vars.isString scope name = false)
    (ht : vars.target? scope name = some slot) : slot.holdsStrings = false := by
  by_contra hstrings
  obtain ⟨hseen, _⟩ := stringTarget_of_target? ht (Bool.eq_true_of_not_eq_false hstrings)
  rw [hs] at hseen
  cases hseen

/-- A string that the reader sees is in the table to which an assignment of it goes. -/
theorem binds_stringTarget (hs : vars.isString scope name = true) :
    vars.binds name (vars.stringTarget scope name) = true := by
  unfold stringTarget
  split
  · rename_i hlocal
    exact hlocal.2
  · rename_i hlocal
    simp only [isString, Bool.or_eq_true, Bool.and_eq_true, decide_eq_true_eq] at hs
    exact hs.resolve_right hlocal

theorem exists_stringAssigned (hs : vars.isString scope name = true) (value : String) :
    ∃ vars', vars.stringAssigned scope name value = .ok vars' := by
  have hbinds := binds_stringTarget hs
  unfold stringTarget at hbinds
  unfold stringAssigned
  split
  · rename_i hlocal
    rw [Table.replace?, if_pos hlocal.2]
    exact ⟨_, rfl⟩
  · rename_i hlocal
    rw [if_neg hlocal] at hbinds
    have hcontains : vars.strings.contains name = true := hbinds
    rw [Table.replace?, if_pos hcontains]
    exact ⟨_, rfl⟩

/-- The faults of a reassignment. A variable is missing only if it is the operand. -/
inductive AssignFault (vars : Variables) (scope : Scope) (name : String) (args : List String) :
    Fault → Prop where
  | unknown : AssignFault vars scope name args (.unknownToken name)
  | malformed {cause : SyntaxFault} (h : cause.isInternal = false) :
      AssignFault vars scope name args (.malformed cause)
  | arithmetic (cause : ArithmeticFault) : AssignFault vars scope name args (.arithmetic cause)
  | operand {symbol word : String} (h : args = [symbol, word]) (hw : readInt? word = none)
      (hi : vars.int? scope word = none) :
      AssignFault vars scope name args (.missing .variableName word)

variable {args : List String} {fault : Fault}

theorem AssignFault.isInternal (h : vars.AssignFault scope name args fault) :
    fault.isInternal = false := by
  cases h with
  | malformed h => exact h
  | _ => rfl

theorem isInternal_of_readUpdate {cause : SyntaxFault}
    (h : Machine.readUpdate name args = .error cause) : cause.isInternal = false := by
  unfold Machine.readUpdate at h
  split at h
  · cases h
    rfl
  · split at h
    · cases h
      rfl
    · split at h <;> cases h
      rfl

/-- The word for an operand is the second of two. -/
theorem args_of_readUpdate {op : Update} {word : String}
    (h : Machine.readUpdate name args = .ok (op, some word)) : ∃ symbol, args = [symbol, word] := by
  unfold Machine.readUpdate at h
  split at h
  · cases h
  · split at h
    · cases h
    · split at h <;> cases h
      exact ⟨_, rfl⟩

theorem missing_of_operand {word : String} (h : vars.operand scope word = .error fault) :
    fault = .missing .variableName word ∧ readInt? word = none ∧ vars.int? scope word = none := by
  unfold operand at h
  split at h
  · cases h
  · rename_i hword
    unfold readInt found at h
    split at h
    · cases h
    · cases h
      exact ⟨rfl, hword, ‹_›⟩

/-- Storing the result fails by arithmetic alone: the entry to be changed is the one found. -/
theorem arithmetic_of_stored (ht : vars.target? scope name = some slot)
    (hslot : slot.holdsStrings = false) {op : Update} {n : Option Int64}
    (h : vars.stored name op n slot = .error fault) : ∃ cause, fault = .arithmetic cause := by
  have hints (hslot : slot = .int ∨ slot = .localInt) : ∃ cause, fault = .arithmetic cause := by
    -- The target was chosen because it has the name, so that there is a value to start from.
    obtain ⟨x, hx⟩ := exists_value?_of_target? ht hslot
    rw [stored_eq hslot hx] at h
    have herror := eq_error_of_map h
    cases hr : op.apply x (n.getD 0) with
    | ok value =>
      rw [hr] at herror
      cases herror
    | error cause =>
      rw [hr] at herror
      cases herror
      exact ⟨cause, rfl⟩
  cases slot with
  | int => exact hints (Or.inl rfl)
  | localInt => exact hints (Or.inr rfl)
  | mutableInt => cases h
  | string => cases hslot
  | localString => cases hslot

theorem assignFault_of_assigned {reserved : String → Bool} (hs : vars.isString scope name = false)
    (h : vars.assigned scope reserved name args = .error fault) :
    vars.AssignFault scope name args fault := by
  unfold assigned at h
  split at h
  · cases h
    split
    · exact .malformed rfl
    · exact .unknown
  · rename_i slot ht
    -- The reader saw no string here, so the branch for strings is out of reach.
    have hslot := holdsStrings_of_isString hs ht
    split at h
    · cases h
      exact .malformed (isInternal_of_readUpdate ‹_›)
    · rename_i op word hupdate
      have hcases : vars.updated scope name op word slot =
          if slot.takes op then (vars.operand? scope word).bind fun n => vars.stored name op n slot
          else .error (.malformed .unknownOperator) := by
        cases slot <;> first | rfl | cases hslot
      rw [hcases] at h
      split at h
      · cases ho : vars.operand? scope word with
        | ok n =>
          rw [ho] at h
          obtain ⟨cause, rfl⟩ := arithmetic_of_stored ht hslot h
          exact .arithmetic cause
        | error other =>
          rw [ho] at h
          cases h
          cases word with
          | none => cases ho
          | some word =>
            obtain ⟨symbol, rfl⟩ := args_of_readUpdate hupdate
            obtain ⟨rfl, hword, hint⟩ := missing_of_operand (eq_error_of_map ho)
            exact .operand rfl hword hint
      · cases h
        exact .malformed rfl

theorem isInternal_of_declare {α : Type} {t : Table α} {value : α} {cause : SyntaxFault}
    (h : t.declare name value = .error cause) : cause.isInternal = false := by
  unfold Table.declare at h
  split at h
  · cases h
    rfl
  · split at h <;> cases h
    rfl

end Variables

/-- No effect of a statement is an internal fault, as long as no string is taken for an integer. -/
theorem Statement.isInternal_of_effect {statement : Statement} {scope : Scope} {vars : Variables}
    {reserved : String → Bool} {fault : Fault}
    (hs : ∀ name args, statement = .assign name args → vars.isString scope name = false)
    (h : statement.effect scope vars reserved = .error fault) : fault.isInternal = false := by
  have hdeclare {result : Except SyntaxFault Variables}
      (hd : (result.mapError Fault.malformed).map (·, ([] : List String)) = .error fault)
      (hcause : ∀ cause, result = .error cause → cause.isInternal = false) :
      fault.isInternal = false := by
    have herror := eq_error_of_map hd
    cases result with
    | ok value => cases herror
    | error cause =>
      cases herror
      exact hcause cause rfl
  have hfound {α : Type} {name : String} {entry : Option α}
      (he : Variables.found name entry = .error fault) : fault.isInternal = false := by
    cases entry <;> cases he
    rfl
  cases statement with
  | declareInt name value =>
    apply hdeclare h
    intro cause hc
    cases scope <;> exact Variables.isInternal_of_declare (eq_error_of_map hc)
  | declareString name value =>
    apply hdeclare h
    intro cause hc
    cases scope <;> exact Variables.isInternal_of_declare (eq_error_of_map hc)
  | declareMutable name value =>
    apply hdeclare h
    intro cause hc
    exact Variables.isInternal_of_declare (eq_error_of_map hc)
  | assign name args =>
    exact (Variables.assignFault_of_assigned (hs name args rfl) (eq_error_of_map h)).isInternal
  | assignString name value =>
    have herror := eq_error_of_map h
    unfold Variables.stringAssigned at herror
    split at herror <;> exact hfound (eq_error_of_map herror)
  | printVar name newline => exact hfound (eq_error_of_map h)
  | _ => cases h

namespace Machine

variable {scope : Scope} {line : String} {rest : List String} {m m' : Machine} {fault : Fault}
  {statement : Statement}

/-- The machine in which a statement is executed: the body of a block that it opens is pending. -/
def withBody (m : Machine) (statement : Statement) (rest : List String) : Machine :=
  { m with pending := (statement.opens?.map fun kind => ⟨kind, kind.body rest⟩).or m.pending }

/-- A line that is no header of a macro is begun by executing its statement. -/
theorem start_eq_execute (hr : Statement.read (m.vars.isString scope) line = .ok statement)
    (hm : statement.opens? ≠ some .macroBlock) (rest : List String) :
    ∃ span, start scope line rest m =
      (execute scope statement >>= fun frames => pure (frames, span))
        (m.withBody statement rest) := by
  cases ho : statement.opens? with
  | none =>
    refine ⟨1, ?_⟩
    rw [start_of_opens?_eq_none rest hr ho, withBody, ho]
    rfl
  | some kind =>
    have hk : kind ≠ .macroBlock := by
      rintro rfl
      exact hm ho
    refine ⟨blockSpan (kind.body rest), ?_⟩
    rw [start_of_opens? rest hr ho hk, withBody, ho]
    rfl

theorem takeBody_withBody {kind : BlockKind} (ho : statement.opens? = some kind) (m : Machine)
    (rest : List String) :
    takeBody kind (m.withBody statement rest) =
      .ok (kind.body rest) (m.withBody statement rest).clearPending := by
  apply takeBody_of_pending
  rw [withBody, ho]
  rfl

theorem assignFault_of_execute {name : String} {args : List String}
    (hs : m.vars.isString scope name = false)
    (h : execute scope (.assign name args) m = .error fault m') :
    fault.isGuard = true ∨ m.vars.AssignFault scope name args fault := by
  rcases free_or_stopped m with hf | ⟨cause, hstop⟩
  · right
    rw [execute_assign hf] at h
    have hassign := assign_eq scope name args m
    cases ha : m.vars.assigned scope m.isReserved name args with
    | ok vars =>
      rw [ha] at hassign
      rw [bind_of_ok (hassign.trans rfl)] at h
      cases h
    | error other =>
      rw [ha] at hassign
      rw [bind_of_error (hassign.trans rfl)] at h
      cases h
      exact Variables.assignFault_of_assigned hs ha
  · left
    rw [execute_of_stopped hstop] at h
    cases h
    exact hstop.isGuard

theorem isGuard_of_execute_assignString {name value : String}
    (hs : m.vars.isString scope name = true)
    (h : execute scope (.assignString name value) m = .error fault m') : fault.isGuard = true := by
  rcases free_or_stopped m with hf | ⟨cause, hstop⟩
  · obtain ⟨vars, hassigned⟩ := Variables.exists_stringAssigned hs value
    have hassign := assignString_eq scope name value m
    rw [hassigned] at hassign
    rw [execute_assignString hf, bind_of_ok (hassign.trans rfl)] at h
    cases h
  · rw [execute_of_stopped hstop] at h
    cases h
    exact hstop.isGuard

theorem isInternal_of_plain (hf : m.Free) (hp : statement.isPlain = true)
    (hs : ∀ name args, statement = .assign name args → m.vars.isString scope name = false)
    (h : execute scope statement m = .error fault m') : fault.isInternal = false := by
  rcases effect_of_plain_error hf hp h with ⟨he, _⟩ | ⟨vars, texts, _, hput⟩
  · exact Statement.isInternal_of_effect hs he
  · obtain ⟨_, ⟨cause, rfl⟩, _⟩ := putAll_error hput
    rfl

theorem isInternal_of_evaluate {condition : Condition}
    (h : evaluate scope condition m = .error fault m') : fault.isInternal = false := by
  have hfound {α : Type} {name : String} {entry : Option α} {next : α → Exec Bool}
      (hnext : ∀ value, ∃ holds, next value m = .ok holds m)
      (he : (check (Variables.found name entry) >>= next) m = .error fault m') :
      fault.isInternal = false := by
    cases entry with
    | none =>
      cases he
      rfl
    | some value =>
      obtain ⟨holds, hvalue⟩ := hnext value
      have hok : (check (Variables.found name (some value)) >>= next) m = .ok holds m := hvalue
      rw [hok] at he
      cases he
  rw [evaluate, get_bind] at h
  cases ho : condition.operand with
  | int operand =>
    rw [ho] at h
    exact hfound (fun value => ⟨_, rfl⟩) h
  | text operand =>
    rw [ho] at h
    exact hfound (fun value => ⟨_, rfl⟩) h

/-- A statement that is executed with its own body pending, and that takes no string for an integer,
does not fail by an internal fault. -/
theorem isInternal_of_execute
    (hb : ∀ kind, statement.opens? = some kind → ∃ body, m.pending = some ⟨kind, body⟩)
    (hs : ∀ name args, statement = .assign name args → m.vars.isString scope name = false)
    (h : execute scope statement m = .error fault m') : fault.isInternal = false := by
  rcases free_or_stopped m with hf | ⟨cause, hstop⟩
  · cases statement with
    | ifHeader condition =>
      obtain ⟨body, hpending⟩ := hb .ifBlock rfl
      rw [execute_ifHeader_eq hf scope condition hpending] at h
      cases he : evaluate scope condition m.clearPending with
      | ok holds m₁ =>
        rw [bind_of_ok he] at h
        cases holds <;> cases h
      | error other m₁ =>
        rw [bind_of_error he] at h
        cases h
        exact isInternal_of_evaluate he
    | forHeader header =>
      obtain ⟨body, hpending⟩ := hb .forBlock rfl
      rw [execute_forHeader hf scope header hpending] at h
      cases h
    | call name =>
      rw [execute_call_eq hf, enter, get_bind] at h
      cases hbody : m.macros.body? name with
      | none =>
        rw [hbody] at h
        cases h
        rfl
      | some body =>
        rw [hbody] at h
        by_cases hdepth : maxDepth ≤ m.depth
        · simp only [hdepth, if_true] at h
          cases h
          rfl
        · simp only [hdepth, if_false] at h
          cases h
    | label name =>
      rw [execute_label hf] at h
      cases h
    | goto name =>
      rw [execute, bind_of_ok (guard_of_free hf), get_bind] at h
      dsimp only at h
      cases hl : m.labels.get? name with
      | some label =>
        have hjump : m.labels.jump name =
            .ok (label.index, ⟨m.labels.table.insert name label.jumped⟩) := by
          rw [LabelTable.jump, hl]
        simp only [jumpTo, get_bind, hjump, bind_assoc] at h
        cases h
      | none =>
        have hjump : m.labels.jump name = .error (.missing .labelName name) := by
          rw [LabelTable.jump, hl]
        simp only [jumpTo, get_bind, hjump, bind_assoc] at h
        cases h
        rfl
    | _ => exact isInternal_of_plain hf rfl hs h
  · rw [execute_of_stopped hstop] at h
    cases h
    exact Fault.isInternal_of_isGuard hstop.isGuard

end Machine

namespace Moment

open Machine

/-- The next tick executes a statement, in the given scope and machine: the one that is read from the
line in front, with the body of the block pending that it opens. Headers of macros are not executed. -/
def Executes (program : List String) (c : Moment) (scope : Scope) (statement : Statement)
    (m : Machine) : Prop :=
  ∃ line rest, c.ahead? program = some (scope, line :: rest) ∧
    Statement.read ((c.ready program).vars.isString scope) line = .ok statement ∧
    statement.opens? ≠ some .macroBlock ∧ m = (c.ready program).withBody statement rest

variable {program : List String} {c : Moment} {scope : Scope} {statement : Statement}
  {m m' : Machine} {fault : Fault}

/-- The tick ends as the statement does, unless the trace cannot be printed. -/
theorem Executes.tick_eq (h : c.Executes program scope statement m) :
    (∃ below, tick program c.stack c.machine =
      (execute scope statement >>= fun frames => pure (some (frames ++ below))) m) ∨
    ∃ text, tick program c.stack c.machine =
      .error (.output .sinkFull) (c.machine.traced text) := by
  obtain ⟨line, rest, ha, hr, hm, rfl⟩ := h
  rcases tick_of_ahead ha with ⟨below, ht⟩ | htrace
  · left
    obtain ⟨span, hs⟩ := start_eq_execute hr hm rest
    refine ⟨below span, ?_⟩
    rw [ht]
    simp only [bind, EStateM.bind, hs]
    cases execute scope statement ((c.ready program).withBody statement rest) <;> rfl
  · exact Or.inr htrace

theorem Executes.isString_assign {name : String} {args : List String}
    (h : c.Executes program scope (.assign name args) m) : m.vars.isString scope name = false := by
  obtain ⟨line, rest, _, hr, _, rfl⟩ := h
  exact Statement.isString_of_read_assign hr

theorem Executes.isString_assignString {name value : String}
    (h : c.Executes program scope (.assignString name value) m) :
    m.vars.isString scope name = true := by
  obtain ⟨line, rest, _, hr, _, rfl⟩ := h
  exact Statement.isString_of_read_assignString hr

theorem Executes.takeBody_eq {kind : BlockKind} (h : c.Executes program scope statement m)
    (ho : statement.opens? = some kind) : ∃ body, takeBody kind m = .ok body m.clearPending := by
  obtain ⟨line, rest, _, _, _, rfl⟩ := h
  exact ⟨_, takeBody_withBody ho _ rest⟩

theorem Executes.isInternal (h : c.Executes program scope statement m)
    (he : execute scope statement m = .error fault m') : fault.isInternal = false := by
  refine isInternal_of_execute ?_ ?_ he
  · -- Whatever was pending before, the line itself has put the body there.
    intro kind ho
    obtain ⟨line, rest, _, _, _, rfl⟩ := h
    refine ⟨kind.body rest, ?_⟩
    rw [withBody, ho]
    rfl
  · rintro name args rfl
    exact h.isString_assign

theorem isInternal_of_start_error {line : String} {rest : List String}
    (ha : c.ahead? program = some (scope, line :: rest))
    (h : start scope line rest (c.ready program) = .error fault m') : fault.isInternal = false := by
  cases hr : Statement.read ((c.ready program).vars.isString scope) line with
  | error cause =>
    rw [start_of_unreadable rest hr] at h
    cases h
    exact SyntaxFault.isInternal_of_isOfLine (Statement.isOfLine_of_read hr)
  | ok statement =>
    by_cases hm : statement.opens? = some .macroBlock
    · cases statement <;> cases hm
      rw [start_of_macroHeader rest hr] at h
      cases h
    · obtain ⟨span, hs⟩ := start_eq_execute hr hm rest
      rw [hs] at h
      cases he : execute scope statement ((c.ready program).withBody statement rest) with
      | ok frames m₁ =>
        rw [bind_of_ok he] at h
        cases h
      | error cause m₁ =>
        rw [bind_of_error he] at h
        cases h
        exact Executes.isInternal ⟨line, rest, ha, hr, hm, rfl⟩ he

/-- Without a line in front, a tick fails by the guard, by the end of the integers or by the sink. -/
theorem Lineless.isInternal (hl : c.Lineless program)
    (h : tick program c.stack c.machine = .error fault m') : fault.isInternal = false := by
  obtain ⟨stack, m⟩ := c
  cases stack with
  | nil =>
    cases hd : program.drop m.ip with
    | cons line rest =>
      have hahead : ahead? program ⟨[], m⟩ = some (.global, line :: rest) :=
        congrArg (fun lines => some (Scope.global, lines)) hd
      exact absurd hahead (hl .global line rest)
    | nil =>
      rw [tick_of_ended hd] at h
      split at h <;> cases h
      rfl
  | cons frame stack =>
    cases ht : frame.tick m with
    | ok frames m₁ =>
      rw [tick_cons_of_ok program stack ht] at h
      cases h
    | error cause m₁ =>
      rw [tick_cons_of_error program stack ht] at h
      cases h
      cases frame with
      | line index span => cases ht
      | body scope lines =>
        cases lines with
        | nil => cases ht
        | cons line rest => exact absurd rfl (hl scope line rest)
      | call index lines =>
        cases lines with
        | nil => cases ht
        | cons line rest => exact absurd rfl (hl .inMacro line rest)
      | loop scope header lines value =>
        -- A loop that passes the guard begins a pass or ends, and does not fail.
        rw [Frame.tick] at ht
        rcases free_or_stopped m with hf | ⟨other, hstop⟩
        · rw [bind_of_ok (guard_of_free hf)] at ht
          cases hb : header.bound with
          | unbounded =>
            rw [hb] at ht
            cases ht
          | upTo last =>
            rw [hb] at ht
            dsimp only at ht
            split at ht <;> cases ht
        · rw [bind_of_error (guard_of_stopped hstop)] at ht
          cases ht
          exact Fault.isInternal_of_isGuard hstop.isGuard
      | pass scope header lines value =>
        rw [Frame.tick] at ht
        cases hnext : add? value header.step with
        | some next =>
          rw [hnext] at ht
          cases ht
        | none =>
          rw [hnext] at ht
          cases hb : header.bound with
          | upTo last =>
            rw [hb] at ht
            cases ht
          | unbounded =>
            rw [hb] at ht
            cases ht
            rfl

theorem isInternal_of_tick (h : tick program c.stack c.machine = .error fault m') :
    fault.isInternal = false := by
  by_cases hl : c.Lineless program
  · exact hl.isInternal h
  · simp only [Lineless, not_forall, not_not] at hl
    obtain ⟨scope, line, rest, ha⟩ := hl
    rcases tick_of_ahead ha with ⟨below, ht⟩ | ⟨text, ht⟩
    · rw [ht] at h
      cases hs : start scope line rest (c.ready program) with
      | ok begun m₁ =>
        rw [bind_of_ok hs] at h
        cases h
      | error cause m₁ =>
        rw [bind_of_error hs] at h
        cases h
        exact isInternal_of_start_error ha hs
    · rw [ht] at h
      cases h
      rfl

end Moment

open Machine

/-- Whatever statement is executed, at any depth and in either scope, a header finds its own body; a
reassignment is not one of a string and finds its entry, so that a variable is missing only if it is
the operand; and an assignment of a string finds its entry, so that only the guard can stop it. No run
ends with one of the faults that stand for the contrary. -/
theorem internal_faults_do_not_arise (program : List String) :
    (∀ c scope statement m, Moment.Executes program c scope statement m →
      ((∃ below, tick program c.stack c.machine =
          (execute scope statement >>= fun frames => pure (some (frames ++ below))) m) ∨
        ∃ text, tick program c.stack c.machine =
          .error (.output .sinkFull) (c.machine.traced text)) ∧
      (∀ kind, statement.opens? = some kind → ∃ body, takeBody kind m = .ok body m.clearPending) ∧
      (∀ name args, statement = .assign name args →
        (∀ slot, m.vars.target? scope name = some slot →
          slot.holdsStrings = false ∧ m.vars.binds name slot = true) ∧
        ∀ kind word m', execute scope statement m = .error (.missing kind word) m' →
          ∃ symbol, args = [symbol, word] ∧ readInt? word = none ∧
            m.vars.int? scope word = none) ∧
      ∀ name value, statement = .assignString name value →
        m.vars.binds name (m.vars.stringTarget scope name) = true ∧
        ∀ fault m', execute scope statement m = .error fault m' → fault.isGuard = true) ∧
    ∀ m budget fault m', run budget program m = some (.error fault m') →
      (∀ kind, fault ≠ .malformed (.missingBody kind)) ∧
      ∀ name, fault ≠ .malformed (.stringTarget name) := by
  constructor
  · intro c scope statement m h
    refine ⟨h.tick_eq, fun kind => h.takeBody_eq, ?_, ?_⟩
    · rintro name args rfl
      have hs := h.isString_assign
      refine ⟨fun slot ht => ?_, fun kind word m' he => ?_⟩
      · exact ⟨Variables.holdsStrings_of_isString hs ht, Variables.binds_of_target? ht⟩
      · rcases assignFault_of_execute hs he with hguard | hfault
        · cases hguard
        · cases hfault with
          | operand hargs hword hint => exact ⟨_, hargs, hword, hint⟩
    · rintro name value rfl
      have hs := h.isString_assignString
      exact ⟨Variables.binds_stringTarget hs, fun fault m' => isGuard_of_execute_assignString hs⟩
  · intro m budget fault m' hrun
    obtain ⟨n, c, m₁, _, ht, _⟩ := Moment.exists_failing_tick (c := .first m) hrun
    have hinternal := Moment.isInternal_of_tick ht
    constructor
    · rintro kind rfl
      cases hinternal
    · rintro name rfl
      cases hinternal

/-- In a macro a string is given a new text, and in a loop of the macro a condition finds its body. The
reassignment in there finds the local integer `x`, so that it is the operand `y` that is missing. -/
theorem only_the_operand_is_missing_in_a_nested_body :
    let program := ["STRING s = \"a\"", "MACRO m", "s = \"b\"", "INT x = 1", "FOR i FROM 1 TO 2",
      "IF x < 5", "x += y", "END IF", "END FOR", "END MACRO", "CALL m"]
    (∃ c m, Moment.after? program 5 (.first {}) = some c ∧
      c.Executes program .inMacro (.assignString "s" "b") m ∧
      m.vars.stringTarget .inMacro "s" = .string ∧ m.vars.binds "s" .string = true) ∧
    (∃ c m body, Moment.after? program 9 (.first {}) = some c ∧
      c.Executes program .inMacro (.ifHeader ⟨"x", .lt, .int 5⟩) m ∧
      takeBody .ifBlock m = .ok body m.clearPending) ∧
    ∃ c m m', Moment.after? program 10 (.first {}) = some c ∧
      c.Executes program .inMacro (.assign "x" ["+=", "y"]) m ∧
      m.vars.target? .inMacro "x" = some .localInt ∧ m.vars.binds "x" .localInt = true ∧
      execute .inMacro (.assign "x" ["+=", "y"]) m = .error (.missing .variableName "y") m ∧
      m.vars.int? .inMacro "y" = none ∧
      run 20 program {} = some (.error (.missing .variableName "y") m') := by
  intro program
  obtain ⟨hexecuted, _⟩ := internal_faults_do_not_arise program
  refine ⟨?_, ?_, ?_⟩
  · obtain ⟨c, m, hafter, hexecutes, htarget⟩ : ∃ c m,
        Moment.after? program 5 (.first {}) = some c ∧
        c.Executes program .inMacro (.assignString "s" "b") m ∧
        m.vars.stringTarget .inMacro "s" = .string :=
      ⟨_, _, rfl, ⟨_, _, rfl, rfl, by decide, rfl⟩, rfl⟩
    obtain ⟨_, _, _, hstring⟩ := hexecuted c _ _ m hexecutes
    obtain ⟨hbinds, _⟩ := hstring "s" "b" rfl
    rw [htarget] at hbinds
    exact ⟨c, m, hafter, hexecutes, htarget, hbinds⟩
  · obtain ⟨c, m, hafter, hexecutes⟩ : ∃ c m,
        Moment.after? program 9 (.first {}) = some c ∧
        c.Executes program .inMacro (.ifHeader ⟨"x", .lt, .int 5⟩) m :=
      ⟨_, _, rfl, _, _, rfl, rfl, by decide, rfl⟩
    obtain ⟨_, hheader, _⟩ := hexecuted c _ _ m hexecutes
    obtain ⟨body, hbody⟩ := hheader .ifBlock rfl
    exact ⟨c, m, body, hafter, hexecutes, hbody⟩
  · obtain ⟨c, m, m', hafter, hexecutes, htarget, hfault, hrun⟩ : ∃ c m m',
        Moment.after? program 10 (.first {}) = some c ∧
        c.Executes program .inMacro (.assign "x" ["+=", "y"]) m ∧
        m.vars.target? .inMacro "x" = some .localInt ∧
        execute .inMacro (.assign "x" ["+=", "y"]) m = .error (.missing .variableName "y") m ∧
        run 20 program {} = some (.error (.missing .variableName "y") m') :=
      ⟨_, _, _, rfl, ⟨_, _, rfl, rfl, by decide, rfl⟩, rfl, rfl, rfl⟩
    obtain ⟨_, _, hassign, _⟩ := hexecuted c _ _ m hexecutes
    obtain ⟨hslot, hmissing⟩ := hassign "x" ["+=", "y"] rfl
    obtain ⟨_, _, _, hint⟩ := hmissing _ _ _ hfault
    exact ⟨c, m, m', hafter, hexecutes, htarget, (hslot _ htarget).2, hfault, hint, hrun⟩

end LineScript
