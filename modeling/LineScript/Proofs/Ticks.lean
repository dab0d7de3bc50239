import LineScript.Proofs.Outcome

/-! What one tick does, by the frame that takes it. -/

namespace LineScript

namespace Machine

/-- The machine after a line of the trace was printed, if the trace is on. -/
def traced (text : String) (m : Machine) : Machine :=
  if m.debug then m.printed text else m

@[simp] theorem traced_vars (text : String) (m : Machine) : (m.traced text).vars = m.vars := by
  unfold traced
  split <;> rfl

@[simp] theorem traced_macros (text : String) (m : Machine) : (m.traced text).macros = m.macros := by
  unfold traced
  split <;> rfl

@[simp] theorem traced_labels (text : String) (m : Machine) : (m.traced text).labels = m.labels := by
  unfold traced
  split <;> rfl

@[simp] theorem traced_pending (text : String) (m : Machine) :
    (m.traced text).pending = m.pending := by
  unfold traced
  split <;> rfl

@[simp] theorem traced_ip (text : String) (m : Machine) : (m.traced text).ip = m.ip := by
  unfold traced
  split <;> rfl

@[simp] theorem traced_jumped (text : String) (m : Machine) : (m.traced text).jumped = m.jumped := by
  unfold traced
  split <;> rfl

@[simp] theorem traced_depth (text : String) (m : Machine) : (m.traced text).depth = m.depth := by
  unfold traced
  split <;> rfl

@[simp] theorem traced_debug (text : String) (m : Machine) : (m.traced text).debug = m.debug := by
  unfold traced
  split <;> rfl

@[simp] theorem traced_jumpLimit (text : String) (m : Machine) : (m.traced text).jumpLimit = m.jumpLimit := by
  unfold traced
  split <;> rfl

/-- The machine when a line is about to begin: at most the trace was printed, and the flag for
jumps was reset. -/
def Readied (m m' : Machine) : Prop :=
  ∃ jumped interrupted sink,
    m' = { m with jumped := jumped, interrupted := interrupted, sink := sink } ∧
    (m.interrupted = true → interrupted = true) ∧
    (m.debug = false → interrupted = m.interrupted ∧ sink = m.sink)

theorem Readied.refl (m : Machine) : Readied m m :=
  ⟨_, _, _, rfl, id, fun _ => ⟨rfl, rfl⟩⟩

theorem traced_readied (text : String) (m : Machine) : Readied m (m.traced text) := by
  unfold traced
  cases hd : m.debug with
  | false => exact Readied.refl m
  | true =>
    refine ⟨_, _, _, rfl, fun hi => ?_, fun h => ?_⟩
    · rw [hi, Bool.true_or]
    · rw [hd] at h
      cases h

theorem traced_reset_readied (text : String) (m : Machine) :
    Readied m { m.traced text with jumped := false } := by
  obtain ⟨jumped, interrupted, sink, he, hi, hd⟩ := traced_readied text m
  rw [he]
  exact ⟨false, interrupted, sink, rfl, hi, hd⟩

theorem trace_cases (text : String) (m : Machine) :
    trace text m = .ok () (m.traced text) ∨
      trace text m = .error (.output .sinkFull) (m.traced text) := by
  have he : trace text m = (if m.debug then printing (put text) else pure ()) m := rfl
  rw [he, traced]
  cases m.debug with
  | false => exact Or.inl rfl
  | true =>
    simp only [if_true, printing_put]
    split
    · exact Or.inl rfl
    · exact Or.inr rfl

theorem traced_of_debug {m : Machine} (hd : m.debug = false) (text : String) :
    m.traced text = m := by
  rw [traced, hd]
  rfl

theorem trace_of_debug {m : Machine} (hd : m.debug = false) (text : String) :
    trace text m = .ok () m := by
  have he : trace text m = (if m.debug then printing (put text) else pure ()) m := rfl
  rw [he, hd]
  rfl

/-- How a tick fails: the line that it was to begin fails, once the trace was printed, or printing
itself failed. -/
def TickFailed (m : Machine) (fault : Fault) (m' : Machine) : Prop :=
  ∃ m₁, Readied m m₁ ∧ Failed m₁ fault m'

theorem tickFailed_of_not_guard {m m' : Machine} {fault : Fault} (hg : fault.isGuard = false)
    (hr : Readied m m') : TickFailed m fault m' :=
  ⟨m', hr, Or.inr ⟨hg, Or.inl rfl⟩⟩

end Machine

namespace Frame

/-- The ways in which a frame can take a step: what takes its place, and the machine after it. -/
inductive Ticked (m : Machine) : Frame → List Frame → Machine → Prop where
  | line {index span : Nat} :
      Ticked m (line index span) [] { m with ip := (if m.jumped then m.ip else index) + span }
  | bodyEnd {scope : Scope} : Ticked m (body scope []) [] m
  | bodyLine {scope : Scope} {text : String} {rest : List String} {frames : List Frame}
      {span : Nat} {m' : Machine} (h : Machine.Started scope text rest m frames span m') :
      Ticked m (body scope (text :: rest)) (frames ++ [body scope (rest.drop (span - 1))]) m'
  | callEnd {index : Nat} : Ticked m (call index []) [] { m with depth := m.depth - 1 }
  | callLine {index : Nat} {text : String} {rest : List String} {frames : List Frame} {span : Nat}
      {m' : Machine}
      (h : Machine.Started .inMacro text rest (m.traced ("Line " ++ toString index ++ "\n"))
        frames span m') :
      Ticked m (call index (text :: rest))
        (frames ++ [call (index + span) (rest.drop (span - 1))]) m'
  | loopEnd {scope : Scope} {header : LoopHeader} {lines : List String} {value last : Int64}
      (hf : m.Free) (hb : header.bound = .upTo last) (hl : last < value) :
      Ticked m (loop scope header lines value) [] m
  | loopPass {scope : Scope} {header : LoopHeader} {lines : List String} {value : Int64}
      (hf : m.Free) (hb : ∀ last, header.bound = .upTo last → ¬ last < value) :
      Ticked m (loop scope header lines value)
        [body scope lines, pass scope header lines value]
        { m with vars.ints := m.vars.ints.insert header.var value }
  | passNext {scope : Scope} {header : LoopHeader} {lines : List String} {value next : Int64}
      (ha : add? value header.step = some next) :
      Ticked m (pass scope header lines value) [loop scope header lines next] m
  | passEnd {scope : Scope} {header : LoopHeader} {lines : List String} {value last : Int64}
      (ha : add? value header.step = none) (hb : header.bound = .upTo last) :
      Ticked m (pass scope header lines value) [] m

open Machine

/-- A tick succeeds in one of the ways of `Ticked`, or fails in one of the ways of
`TickFailed`. -/
def Stepped (m : Machine) (frame : Frame) : EStateM.Result Fault Machine (List Frame) → Prop
  | .ok frames m' => Ticked m frame frames m'
  | .error fault m' => TickFailed m fault m'

theorem tick_body_cons (scope : Scope) (text : String) (rest : List String) :
    (body scope (text :: rest)).tick = (start scope text rest >>= fun begun =>
      pure (begun.1 ++ [body scope (rest.drop (begun.2 - 1))])) :=
  rfl

theorem tick_call_cons (index : Nat) (text : String) (rest : List String) :
    (call index (text :: rest)).tick =
      (trace ("Line " ++ toString index ++ "\n") >>= fun _ =>
        start .inMacro text rest >>= fun begun =>
          pure (begun.1 ++ [call (index + begun.2) (rest.drop (begun.2 - 1))])) :=
  rfl

theorem stepped_body (scope : Scope) (text : String) (rest : List String) (m : Machine) :
    Stepped m (body scope (text :: rest)) ((body scope (text :: rest)).tick m) := by
  have hb := start_begun scope text rest m
  rw [tick_body_cons]
  cases hs : start scope text rest m with
  | ok result m' =>
    rw [hs] at hb
    rw [bind_of_ok hs]
    exact .bodyLine hb
  | error fault m' =>
    rw [hs] at hb
    rw [bind_of_error hs]
    exact ⟨m, Readied.refl m, hb⟩

theorem stepped_call (index : Nat) (text : String) (rest : List String) (m : Machine) :
    Stepped m (call index (text :: rest)) ((call index (text :: rest)).tick m) := by
  have hready := traced_readied ("Line " ++ toString index ++ "\n") m
  rw [tick_call_cons]
  rcases trace_cases ("Line " ++ toString index ++ "\n") m with ht | ht
  · have hb := start_begun .inMacro text rest (m.traced ("Line " ++ toString index ++ "\n"))
    rw [bind_of_ok ht]
    cases hs : start .inMacro text rest (m.traced ("Line " ++ toString index ++ "\n")) with
    | ok result m' =>
      rw [hs] at hb
      rw [bind_of_ok hs]
      exact .callLine hb
    | error fault m' =>
      rw [hs] at hb
      rw [bind_of_error hs]
      exact ⟨_, hready, hb⟩
  · rw [bind_of_error ht]
    exact tickFailed_of_not_guard rfl hready

theorem stepped_loop (scope : Scope) (header : LoopHeader) (lines : List String) (value : Int64)
    (m : Machine) :
    Stepped m (loop scope header lines value) ((loop scope header lines value).tick m) := by
  rw [tick]
  rcases free_or_stopped m with hf | ⟨fault, hstop⟩
  · rw [bind_of_ok (guard_of_free hf)]
    cases hb : header.bound with
    | upTo last =>
      by_cases hl : last < value
      · simp only [hl, if_true]
        exact .loopEnd hf hb hl
      · simp only [hl, if_false]
        refine .loopPass hf fun other ho => ?_
        rw [hb] at ho
        cases ho
        exact hl
    | unbounded =>
      refine .loopPass hf fun other ho => ?_
      rw [hb] at ho
      cases ho
  · rw [bind_of_error (guard_of_stopped hstop)]
    exact ⟨m, Readied.refl m, Or.inl ⟨hstop, _, rfl⟩⟩

theorem stepped_pass (scope : Scope) (header : LoopHeader) (lines : List String) (value : Int64)
    (m : Machine) :
    Stepped m (pass scope header lines value) ((pass scope header lines value).tick m) := by
  rw [tick]
  cases ha : add? value header.step with
  | some next => exact .passNext ha
  | none =>
    cases hb : header.bound with
    | upTo last => exact .passEnd ha hb
    | unbounded => exact tickFailed_of_not_guard rfl (Readied.refl m)

/-- What a tick of a frame does, said in one place. -/
theorem tick_stepped (frame : Frame) (m : Machine) : Stepped m frame (frame.tick m) := by
  cases frame with
  | line index span => exact .line
  | body scope rest =>
    cases rest with
    | nil => exact .bodyEnd
    | cons text rest => exact stepped_body scope text rest m
  | call index rest =>
    cases rest with
    | nil => exact .callEnd
    | cons text rest => exact stepped_call index text rest m
  | loop scope header lines value => exact stepped_loop scope header lines value m
  | pass scope header lines value => exact stepped_pass scope header lines value m

theorem ticked_of_tick {frame : Frame} {m m' : Machine} {frames : List Frame}
    (h : frame.tick m = .ok frames m') : Ticked m frame frames m' := by
  have hs := tick_stepped frame m
  rw [h] at hs
  exact hs

theorem tickFailed_of_tick {frame : Frame} {m m' : Machine} {fault : Fault}
    (h : frame.tick m = .error fault m') : TickFailed m fault m' := by
  have hs := tick_stepped frame m
  rw [h] at hs
  exact hs

/-- The lines that a frame executes one after the other, and the scope in which it does so. -/
def list? : Frame → Option (Scope × List String)
  | body scope rest => some (scope, rest)
  | call _ rest => some (.inMacro, rest)
  | _ => none

/-- A frame of lines behind the given number of them. -/
def behind (span : Nat) : Frame → Frame
  | body scope (_ :: rest) => body scope (rest.drop (span - 1))
  | call index (_ :: rest) => call (index + span) (rest.drop (span - 1))
  | frame => frame

theorem list?_behind {frame : Frame} {scope : Scope} {text : String} {rest : List String}
    (h : frame.list? = some (scope, text :: rest)) (span : Nat) :
    (frame.behind span).list? = some (scope, rest.drop (span - 1)) := by
  cases frame <;> cases h <;> rfl

theorem isCall_behind (frame : Frame) (span : Nat) : (frame.behind span).isCall = frame.isCall := by
  unfold behind
  split <;> rfl

theorem tick_of_list_nil {frame : Frame} {scope : Scope} (h : frame.list? = some (scope, []))
    (m : Machine) : frame.tick m = .ok [] (m.unwind [frame]) := by
  cases frame <;> cases h <;> rfl

/-- With the trace off, bodies and macros begin their lines in the same way. -/
theorem tick_of_list? {frame : Frame} {m : Machine} {scope : Scope} {text : String}
    {rest : List String} (hd : m.debug = false) (h : frame.list? = some (scope, text :: rest)) :
    frame.tick m = (start scope text rest >>= fun begun =>
      pure (begun.1 ++ [frame.behind begun.2])) m := by
  cases frame <;> cases h
  · rw [tick_body_cons]
    rfl
  · rw [tick_call_cons, bind_of_ok (trace_of_debug hd _)]
    rfl

end Frame

namespace Machine

theorem tick_cons_of_ok {frame : Frame} {m m' : Machine} {frames : List Frame}
    (program : List String) (stack : List Frame) (h : frame.tick m = .ok frames m') :
    tick program (frame :: stack) m = .ok (some (frames ++ stack)) m' := by
  rw [tick]
  exact bind_of_ok h

theorem tick_cons_of_error {frame : Frame} {m m' : Machine} {fault : Fault}
    (program : List String) (stack : List Frame) (h : frame.tick m = .error fault m') :
    tick program (frame :: stack) m = .error fault m' := by
  rw [tick]
  exact bind_of_error h

/-- The machine in which a program line begins. -/
def lineReady (m : Machine) : Machine :=
  { m.traced ("\nLine " ++ toString m.ip ++ "\n") with jumped := false }

@[simp] theorem lineReady_vars (m : Machine) : m.lineReady.vars = m.vars :=
  traced_vars _ m

@[simp] theorem lineReady_macros (m : Machine) : m.lineReady.macros = m.macros :=
  traced_macros _ m

@[simp] theorem lineReady_labels (m : Machine) : m.lineReady.labels = m.labels :=
  traced_labels _ m

@[simp] theorem lineReady_pending (m : Machine) : m.lineReady.pending = m.pending :=
  traced_pending _ m

@[simp] theorem lineReady_ip (m : Machine) : m.lineReady.ip = m.ip :=
  traced_ip _ m

@[simp] theorem lineReady_depth (m : Machine) : m.lineReady.depth = m.depth :=
  traced_depth _ m

@[simp] theorem lineReady_debug (m : Machine) : m.lineReady.debug = m.debug :=
  traced_debug _ m

@[simp] theorem lineReady_jumpLimit (m : Machine) : m.lineReady.jumpLimit = m.jumpLimit :=
  traced_jumpLimit _ m

@[simp] theorem lineReady_jumped (m : Machine) : m.lineReady.jumped = false :=
  rfl

theorem lineReady_of_debug {m : Machine} (hd : m.debug = false) :
    m.lineReady = { m with jumped := false } := by
  rw [lineReady, traced_of_debug hd]

/-- The machine after its sink was flushed. -/
def flushed (m : Machine) : Machine :=
  { m with sink := { m.sink with flushed := m.sink.bytes.size } }

theorem flush_eq (m : Machine) :
    flush m = if m.sink.refusesFlush then .error .flushFailed m else .ok () m.flushed := by
  rw [flush, get_bind]
  cases m.sink.refusesFlush <;> rfl

theorem printing_flush (m : Machine) :
    printing flush m =
      if m.sink.refusesFlush then .error (.output .flushFailed) m else .ok () m.flushed := by
  rw [printing, EStateM.adaptExcept, flush_eq]
  cases m.sink.refusesFlush <;> rfl

/-- The ways in which a tick of a program with an empty stack can end. -/
inductive LineTicked (program : List String) (m : Machine) :
    EStateM.Result Fault Machine (Option (List Frame)) → Prop where
  | ended (hd : program.drop m.ip = []) : LineTicked program m (.ok none m.flushed.cleared)
  | begun {line : String} {rest : List String} {frames : List Frame} {span : Nat} {m' : Machine}
      (hd : program.drop m.ip = line :: rest)
      (h : Started .global line rest m.lineReady frames span m') :
      LineTicked program m (.ok (some (frames ++ [.line m.ip span])) m')
  | failed {fault : Fault} {m' : Machine} (h : TickFailed m fault m') :
      LineTicked program m (.error fault m')

/-- Behind the last line the sink is flushed, and that is the end. -/
theorem tick_of_ended {program : List String} {m : Machine} (hd : program.drop m.ip = []) :
    tick program [] m =
      if m.sink.refusesFlush then .error (.output .flushFailed) m
      else .ok none m.flushed.cleared := by
  have he : tick program [] m =
      (printing flush >>= fun _ => modify cleared >>= fun _ => pure none) m := by
    rw [tick, nextLine, get_bind, hd]
  have hf := printing_flush m
  rw [he]
  cases hr : m.sink.refusesFlush with
  | true =>
    rw [hr, if_pos rfl] at hf
    rw [bind_of_error hf, if_pos rfl]
  | false =>
    rw [hr, if_neg Bool.false_ne_true] at hf
    rw [bind_of_ok hf, if_neg Bool.false_ne_true]
    rfl

theorem nextLine_ended {program : List String} {m : Machine} (hd : program.drop m.ip = []) :
    LineTicked program m (tick program [] m) := by
  rw [tick_of_ended hd]
  split
  · exact .failed (tickFailed_of_not_guard rfl (Readied.refl m))
  · exact .ended hd

/-- A program line is traced, and then begun by a machine that has not jumped. -/
theorem tick_of_drop {program rest : List String} {line : String} {m : Machine}
    (hd : program.drop m.ip = line :: rest) :
    tick program [] m =
      (trace ("\nLine " ++ toString m.ip ++ "\n") >>= fun _ =>
        modify (fun m => { m with jumped := false }) >>= fun _ =>
          start .global line rest >>= fun result =>
            pure (some (result.1 ++ [.line m.ip result.2]))) m := by
  rw [tick, nextLine, get_bind, hd]

theorem nextLine_begun {program rest : List String} {line : String} {m : Machine}
    (hd : program.drop m.ip = line :: rest) : LineTicked program m (tick program [] m) := by
  rw [tick_of_drop hd]
  rcases trace_cases ("\nLine " ++ toString m.ip ++ "\n") m with ht | ht
  · have hb := start_begun .global line rest m.lineReady
    rw [bind_of_ok ht, modify_bind]
    change LineTicked program m ((start .global line rest >>= fun result =>
      pure (some (result.1 ++ [.line m.ip result.2]))) m.lineReady)
    cases hs : start .global line rest m.lineReady with
    | ok result m' =>
      rw [hs] at hb
      rw [bind_of_ok hs]
      exact .begun hd hb
    | error fault m' =>
      rw [hs] at hb
      rw [bind_of_error hs]
      exact .failed ⟨_, traced_reset_readied _ m, hb⟩
  · rw [bind_of_error ht]
    exact .failed (tickFailed_of_not_guard rfl (traced_readied _ m))

theorem nextLine_ticked (program : List String) (m : Machine) :
    LineTicked program m (tick program [] m) := by
  cases hd : program.drop m.ip with
  | nil => exact nextLine_ended hd
  | cons line rest => exact nextLine_begun hd

end Machine

end LineScript
