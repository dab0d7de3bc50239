import LineScript.Proofs.Moments
import LineScript.Proofs.Printing

/-! The line in front of a tick. A tick begins that line, once the trace was printed. If there is no
such line, it begins a pass of a loop or only moves on. Ticks that fail are covered as well, so what is
said here concerns every machine that a run can show. -/

namespace LineScript

/-- Whether a statement is one of control: it opens a block, calls, jumps or declares a label. -/
def Statement.isControl (statement : Statement) : Bool :=
  !statement.isPlain || statement.opens?.isSome

theorem Statement.plain_of_not_isControl {statement : Statement}
    (h : statement.isControl = false) : statement.isPlain = true ∧ statement.opens? = none := by
  cases statement <;> first | exact ⟨rfl, rfl⟩ | cases h

namespace Machine

/-- Two machines that differ at most in the control: neither the variables nor what was printed has
changed. -/
def SameData (m m' : Machine) : Prop :=
  ∃ macros labels pending ip jumped depth,
    m' = { m with
      macros := macros, labels := labels, pending := pending, ip := ip, jumped := jumped,
      depth := depth }

theorem SameData.refl (m : Machine) : SameData m m :=
  ⟨m.macros, m.labels, m.pending, m.ip, m.jumped, m.depth, rfl⟩

theorem SameData.vars_eq {m m' : Machine} (h : SameData m m') : m'.vars = m.vars := by
  obtain ⟨macros, labels, pending, ip, jumped, depth, rfl⟩ := h
  rfl

/-- A line of control does nothing to the variables and prints nothing, whether it fails or not. -/
theorem sameData_start {scope : Scope} {line : String} {m : Machine} {statement : Statement}
    (rest : List String) (hr : Statement.read (m.vars.isString scope) line = .ok statement)
    (hs : statement.isControl = true) : SameData m (endState (start scope line rest m)) := by
  have hplain (ho : statement.opens? = none)
      (he : SameData m (endState (execute scope statement m))) :
      SameData m (endState (start scope line rest m)) := by
    rw [start_of_opens?_eq_none rest hr ho, endState_bind_pure _ (fun frames => (frames, 1)) m]
    exact he
  rcases free_or_stopped m with hf | ⟨fault, hstop⟩
  · cases statement with
    | macroHeader name =>
      rw [start_of_macroHeader rest hr]
      exact ⟨_, _, _, _, _, _, rfl⟩
    | ifHeader condition =>
      rw [start_of_ifHeader rest hr, endState_bind_pure _ (fun frames => (frames, blockSpan _))]
      rcases execute_ifHeader (m := { m with
          pending := some ⟨.ifBlock, BlockKind.ifBlock.body rest⟩ }) hf scope condition rfl with
        he | he | ⟨fault, _, he⟩ <;> rw [he] <;> exact ⟨_, _, _, _, _, _, rfl⟩
    | forHeader header =>
      have he := execute_forHeader (m := { m with
        pending := some ⟨.forBlock, BlockKind.forBlock.body rest⟩ }) hf scope header rfl
      rw [start_of_forHeader rest hr, bind_of_ok he]
      exact ⟨_, _, _, _, _, _, rfl⟩
    | call name =>
      apply hplain rfl
      rcases execute_call hf scope name with ⟨body, _, _, he⟩ | ⟨fault, _, he⟩ <;> rw [he] <;>
        exact ⟨_, _, _, _, _, _, rfl⟩
    | label name =>
      apply hplain rfl
      rw [execute_label hf scope name]
      exact ⟨_, _, _, _, _, _, rfl⟩
    | goto name =>
      apply hplain rfl
      rcases execute_goto hf scope name with ⟨index, labels, _, he⟩ | ⟨fault, _, he⟩ <;> rw [he] <;>
        exact ⟨_, _, _, _, _, _, rfl⟩
    | _ => cases hs
  · by_cases hm : statement.opens? = some .macroBlock
    · cases statement <;> cases hm
      rw [start_of_macroHeader rest hr]
      exact ⟨_, _, _, _, _, _, rfl⟩
    · obtain ⟨pending, he⟩ := start_of_stopped rest hstop hr hm
      rw [he]
      exact ⟨_, _, _, _, _, _, rfl⟩

/-- The machine after a global integer was set, whether there was one or not. -/
def setInt (var : String) (value : Int64) (m : Machine) : Machine :=
  { m with vars.ints := m.vars.ints.insert var value }

/-- At most the place and the depth have changed. -/
def MovesOn (m m' : Machine) : Prop :=
  ∃ ip depth, m' = { m with ip := ip, depth := depth }

theorem MovesOn.refl (m : Machine) : MovesOn m m :=
  ⟨m.ip, m.depth, rfl⟩

end Machine

namespace Frame

open Machine

/-- A frame that begins a pass of a loop with the given variable. -/
def BeginsPass (m : Machine) (var : String) : Frame → Prop
  | loop _ header _ value =>
    header.var = var ∧ m.Free ∧ ∀ last, header.bound = .upTo last → ¬ last < value
  | _ => False

/-- A frame that has no line in front of it. -/
def Lineless (frame : Frame) : Prop :=
  ∀ scope line rest, frame.list? ≠ some (scope, line :: rest)

variable {frame : Frame} {m : Machine} {var : String}

/-- The variable of a pass is set before the pass. -/
theorem BeginsPass.tick_eq (h : frame.BeginsPass m var) :
    ∃ value frames, frame.tick m = .ok frames (m.setInt var value) := by
  cases frame with
  | loop scope header lines value =>
    obtain ⟨rfl, hf, hb⟩ := h
    refine ⟨value, [body scope lines, pass scope header lines value], ?_⟩
    rw [tick, bind_of_ok (guard_of_free hf)]
    cases hbound : header.bound with
    | upTo last => simp only [hb last hbound, if_false]; rfl
    | unbounded => rfl
  | _ => cases h

/-- A frame with no line in front and no pass to begin only moves on. -/
theorem Lineless.movesOn (h : frame.Lineless) (hp : ∀ var, ¬ frame.BeginsPass m var) :
    m.MovesOn (endState (frame.tick m)) := by
  cases frame with
  | line index span => exact ⟨_, _, rfl⟩
  | body scope lines =>
    cases lines with
    | nil => exact .refl m
    | cons line rest => exact absurd rfl (h scope line rest)
  | call index lines =>
    cases lines with
    | nil => exact ⟨_, _, rfl⟩
    | cons line rest => exact absurd rfl (h .inMacro line rest)
  | loop scope header lines value =>
    rw [tick]
    rcases free_or_stopped m with hf | ⟨fault, hstop⟩
    · -- The guard lets the loop go on, so that it must be past its bound.
      rw [bind_of_ok (guard_of_free hf)]
      cases hb : header.bound with
      | unbounded =>
        refine absurd ⟨rfl, hf, fun last he => ?_⟩ (hp header.var)
        rw [hb] at he
        cases he
      | upTo last =>
        by_cases hl : last < value
        · simp only [hl, if_true]
          exact .refl m
        · refine absurd ⟨rfl, hf, fun other he => ?_⟩ (hp header.var)
          rw [hb] at he
          cases he
          exact hl
    · rw [bind_of_error (guard_of_stopped hstop)]
      exact .refl m
  | pass scope header lines value =>
    rw [tick]
    cases add? value header.step with
    | some next => exact .refl m
    | none => cases header.bound <;> exact .refl m

end Frame

namespace Moment

open Machine

/-- The lines in front of the next tick, and the scope in which they are executed. -/
def ahead? (program : List String) (c : Moment) : Option (Scope × List String) :=
  match c.stack with
  | [] => some (.global, program.drop c.machine.ip)
  | frame :: _ => frame.list?

/-- The line of the trace that belongs to the next tick: one for every program line, and one for
every line of a macro. -/
def record? (program : List String) (c : Moment) : Option String :=
  match c.stack with
  | [] =>
    if c.machine.ip < program.length then some ("\nLine " ++ toString c.machine.ip ++ "\n")
    else none
  | .call index (_ :: _) :: _ => some ("Line " ++ toString index ++ "\n")
  | _ => none

/-- The machine in which the line in front begins. -/
def ready (program : List String) (c : Moment) : Machine :=
  let m := (c.record? program).elim c.machine fun text => c.machine.traced text
  if c.stack = [] then { m with jumped := false } else m

/-- The next tick begins a pass of a loop with the given variable. -/
def BeginsPass (c : Moment) (var : String) : Prop :=
  ∃ frame stack, c.stack = frame :: stack ∧ frame.BeginsPass c.machine var

variable {program : List String} {c : Moment}

theorem readied_ready (program : List String) (c : Moment) :
    Readied c.machine (c.ready program) := by
  have htraced : Readied c.machine
      ((c.record? program).elim c.machine fun text => c.machine.traced text) := by
    cases c.record? program with
    | none => exact Readied.refl c.machine
    | some text => exact traced_readied text c.machine
  unfold ready
  dsimp only
  split
  · obtain ⟨jumped, interrupted, sink, he, hi, hd⟩ := htraced
    rw [he]
    exact ⟨false, interrupted, sink, rfl, hi, hd⟩
  · exact htraced

theorem endState_tick_cons (frame : Frame) (stack : List Frame) (m : Machine) :
    endState (tick program (frame :: stack) m) = endState (frame.tick m) := by
  rw [tick]
  exact endState_bind_pure _ _ m

theorem ready_nil {m : Machine} {line : String} {rest : List String}
    (hd : program.drop m.ip = line :: rest) : ready program ⟨[], m⟩ = m.lineReady := by
  have hip := lt_length_of_drop hd
  simp only [ready, record?, hip, if_true, Option.elim_some, lineReady]

/-- There is no line in front of the next tick. -/
def Lineless (program : List String) (c : Moment) : Prop :=
  ∀ scope line rest, c.ahead? program ≠ some (scope, line :: rest)

/-- The machine after the next tick, whether it fails or not. -/
inductive Ticked (program : List String) (c : Moment) : Machine → Prop where
  | begins {scope : Scope} {line : String} {rest : List String}
      (h : c.ahead? program = some (scope, line :: rest)) :
      Ticked program c (endState (start scope line rest (c.ready program)))
  | untraced {scope : Scope} {line : String} {rest : List String} {text : String}
      (ha : c.ahead? program = some (scope, line :: rest))
      (h : trace text c.machine = .error (.output .sinkFull) (c.machine.traced text)) :
      Ticked program c (c.machine.traced text)
  | passes {var : String} {value : Int64} (hl : c.Lineless program) (h : c.BeginsPass var) :
      Ticked program c (c.machine.setInt var value)
  | moves {m : Machine} (hl : c.Lineless program) (h : c.machine.MovesOn m)
      (hp : ∀ var, ¬ c.BeginsPass var) : Ticked program c m
  | ends (hl : c.Lineless program)
      (h : tick program c.stack c.machine = .ok none c.machine.flushed.cleared) :
      Ticked program c c.machine.flushed.cleared

theorem ticked_nil (program : List String) (m : Machine) :
    Ticked program ⟨[], m⟩ (endState (tick program [] m)) := by
  cases hd : program.drop m.ip with
  | nil =>
    have hl : Lineless program ⟨[], m⟩ := by
      intro scope line rest h
      rw [ahead?, hd] at h
      cases h
    have ht := tick_of_ended hd
    rw [ht]
    split
    · refine .moves hl (.refl m) ?_
      rintro var ⟨frame, stack, hstack, _⟩
      cases hstack
    · rename_i hflush
      rw [if_neg hflush] at ht
      exact .ends hl ht
  | cons line rest =>
    have hahead : ahead? program ⟨[], m⟩ = some (.global, line :: rest) :=
      congrArg (fun lines => some (Scope.global, lines)) hd
    rw [tick_of_drop hd]
    rcases trace_cases ("\nLine " ++ toString m.ip ++ "\n") m with ht | ht
    · rw [bind_of_ok ht, modify_bind, endState_bind_pure]
      have hbegins := Ticked.begins hahead
      rw [ready_nil hd] at hbegins
      exact hbegins
    · rw [bind_of_error ht]
      exact .untraced hahead ht

theorem ticked_cons (program : List String) (frame : Frame) (stack : List Frame) (m : Machine) :
    Ticked program ⟨frame :: stack, m⟩ (endState (frame.tick m)) := by
  have hlineless (h : frame.Lineless) :
      Ticked program ⟨frame :: stack, m⟩ (endState (frame.tick m)) := by
    by_cases hp : ∃ var, frame.BeginsPass m var
    · obtain ⟨var, hp⟩ := hp
      obtain ⟨value, frames, ht⟩ := hp.tick_eq
      rw [ht]
      exact .passes h ⟨frame, stack, rfl, hp⟩
    · refine .moves h (h.movesOn fun var hv => hp ⟨var, hv⟩) ?_
      rintro var ⟨_, _, hstack, hv⟩
      cases hstack
      exact hp ⟨var, hv⟩
  cases frame with
  | body scope lines =>
    cases lines with
    | nil => exact hlineless (by simp [Frame.Lineless, Frame.list?])
    | cons line rest =>
      rw [Frame.tick_body_cons, endState_bind_pure]
      exact .begins (c := ⟨.body scope (line :: rest) :: stack, m⟩) rfl
  | call index lines =>
    cases lines with
    | nil => exact hlineless (by simp [Frame.Lineless, Frame.list?])
    | cons line rest =>
      rw [Frame.tick_call_cons]
      rcases trace_cases ("Line " ++ toString index ++ "\n") m with ht | ht
      · rw [bind_of_ok ht, endState_bind_pure]
        exact .begins (c := ⟨.call index (line :: rest) :: stack, m⟩) rfl
      · rw [bind_of_error ht]
        exact .untraced (c := ⟨.call index (line :: rest) :: stack, m⟩) rfl ht
  | line index span => exact hlineless (by simp [Frame.Lineless, Frame.list?])
  | loop scope header lines value => exact hlineless (by simp [Frame.Lineless, Frame.list?])
  | pass scope header lines value => exact hlineless (by simp [Frame.Lineless, Frame.list?])

/-- A tick with a line in front of it ends as the beginning of that line does, unless the trace cannot
be printed. -/
theorem tick_of_ahead {scope : Scope} {line : String} {rest : List String}
    (h : c.ahead? program = some (scope, line :: rest)) :
    (∃ below : Nat → List Frame, tick program c.stack c.machine =
      (start scope line rest >>= fun begun => pure (some (begun.1 ++ below begun.2)))
        (c.ready program)) ∨
    ∃ text, tick program c.stack c.machine =
      .error (.output .sinkFull) (c.machine.traced text) := by
  obtain ⟨stack, m⟩ := c
  have hframe {frame : Frame} {stack : List Frame} {m₁ : Machine}
      (ht : frame.tick m =
        (start scope line rest >>= fun begun => pure (begun.1 ++ [frame.behind begun.2])) m₁) :
      tick program (frame :: stack) m = (start scope line rest >>= fun begun =>
        pure (some (begun.1 ++ frame.behind begun.2 :: stack))) m₁ := by
    cases hs : start scope line rest m₁ with
    | ok begun m' =>
      rw [bind_of_ok hs] at ht ⊢
      rw [tick_cons_of_ok program stack ht, List.append_assoc]
      rfl
    | error fault m' =>
      rw [bind_of_error hs] at ht ⊢
      exact tick_cons_of_error program stack ht
  cases stack with
  | nil =>
    have hd : program.drop m.ip = line :: rest := congrArg Prod.snd (Option.some.inj h)
    obtain rfl : Scope.global = scope := congrArg Prod.fst (Option.some.inj h)
    dsimp only
    rw [tick_of_drop hd, ready_nil hd]
    rcases trace_cases ("\nLine " ++ toString m.ip ++ "\n") m with ht | ht
    · rw [bind_of_ok ht, modify_bind]
      exact Or.inl ⟨fun span => [.line m.ip span], rfl⟩
    · rw [bind_of_error ht]
      exact Or.inr ⟨_, rfl⟩
  | cons frame stack =>
    -- What remains of the frame behind the line lies on the rest of the stack.
    cases frame with
    | body other lines =>
      cases h
      refine Or.inl ⟨fun span => (Frame.body scope (line :: rest)).behind span :: stack, ?_⟩
      apply hframe
      rw [Frame.tick_body_cons]
      rfl
    | call index lines =>
      cases h
      rcases trace_cases ("Line " ++ toString index ++ "\n") m with ht | ht
      · refine Or.inl ⟨fun span => (Frame.call index (line :: rest)).behind span :: stack, ?_⟩
        apply hframe
        rw [Frame.tick_call_cons, bind_of_ok ht]
        rfl
      · refine Or.inr ⟨"Line " ++ toString index ++ "\n", tick_cons_of_error program stack ?_⟩
        rw [Frame.tick_call_cons, bind_of_error ht]
    | line index span => cases h
    | loop other header lines value => cases h
    | pass other header lines value => cases h

/-- What the next tick does to the machine, said in one place. -/
theorem ticked (program : List String) (c : Moment) :
    Ticked program c (endState (tick program c.stack c.machine)) := by
  obtain ⟨stack, m⟩ := c
  cases stack with
  | nil => exact ticked_nil program m
  | cons frame stack =>
    rw [endState_tick_cons]
    exact ticked_cons program frame stack m

end Moment

end LineScript
