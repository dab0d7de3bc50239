import LineScript.Proofs.JumpGuard
import LineScript.Proofs.Progress

/-! Runs that were asked to stop. From then on the guard lets no statement through, and only the
definitions of macros do not pass it, so what remains of a run can be told from its lines. -/

namespace LineScript

/-- The first line, behind the given number of lines, that does not define a macro. The body of a
definition is passed over with it. -/
def firstOther? : (skip : Nat) → List String → Option String
  | _, [] => none
  | skip + 1, _ :: rest => firstOther? skip rest
  | 0, line :: rest =>
    if Statement.opened? line = some .macroBlock then
      firstOther? ((BlockKind.macroBlock.body rest).length + 1) rest
    else some line

theorem firstOther?_drop (skip : Nat) (lines : List String) :
    firstOther? skip lines = firstOther? 0 (lines.drop skip) := by
  induction lines generalizing skip with
  | nil => simp [firstOther?]
  | cons line rest ih =>
    cases skip with
    | zero => rfl
    | succ skip => exact ih skip

theorem firstOther?_of_header {line : String} (h : Statement.opened? line = some .macroBlock)
    (rest : List String) :
    firstOther? 0 (line :: rest) =
      firstOther? 0 (rest.drop (blockSpan (BlockKind.macroBlock.body rest) - 1)) := by
  rw [firstOther?, if_pos h, firstOther?_drop]
  rfl

/-- The fault with which a line that defines no macro ends an interrupted run. -/
def stopFault (isString : String → Bool) (line : String) : Fault :=
  match Statement.read isString line with
  | .ok _ => .terminated
  | .error cause => .malformed cause

namespace Frame

/-- Whether a frame is a pass of a loop in progress. -/
def isPass : Frame → Bool
  | pass .. => true
  | _ => false

/-- The fault with which a frame ends an interrupted run, unless it comes to its own end. A loop
begins no other pass, and only the end of the integers is noticed before that. -/
def stop? (vars : Variables) : Frame → Option Fault
  | line _ _ => none
  | body scope lines => (firstOther? 0 lines).map (stopFault (vars.isString scope))
  | call _ lines => (firstOther? 0 lines).map (stopFault (vars.isString .inMacro))
  | loop .. => some .terminated
  | pass _ header _ value =>
    match add? value header.step, header.bound with
    | some _, _ => some .terminated
    | none, .upTo _ => none
    | none, .unbounded => some (.arithmetic (.loopOverflow header.var))

theorem stop?_of_list? {frame : Frame} {scope : Scope} {lines : List String}
    (h : frame.list? = some (scope, lines)) (vars : Variables) :
    frame.stop? vars = (firstOther? 0 lines).map (stopFault (vars.isString scope)) := by
  cases frame <;> cases h <;> rfl

end Frame

namespace Machine

/-- The run has been asked to stop, and the trace is off. -/
structure Halted (m : Machine) : Prop where
  interrupted : m.interrupted = true
  debug : m.debug = false

variable {m m' : Machine} {scope : Scope} {line : String}

theorem Halted.stopped (h : m.Halted) : m.Stopped .terminated :=
  Or.inl ⟨h.interrupted, rfl⟩

theorem start_of_header (h : Statement.opened? line = some .macroBlock) (scope : Scope)
    (rest : List String) (m : Machine) :
    ∃ macros, start scope line rest m =
      .ok ([], blockSpan (BlockKind.macroBlock.body rest)) { m with macros := macros } := by
  unfold Statement.opened? at h
  cases hr : Statement.read (fun _ => false) line with
  | error cause =>
    rw [hr] at h
    contradiction
  | ok statement =>
    rw [hr] at h
    have hread := Statement.read_eq_of_opens? h hr (m.vars.isString scope)
    cases statement <;> cases h
    exact ⟨_, start_of_macroHeader rest hread⟩

/-- A line that defines no macro does not pass the guard, if it can be read at all. -/
theorem start_of_other (hm : m.Halted) (h : Statement.opened? line ≠ some .macroBlock)
    (scope : Scope) (rest : List String) :
    ∃ pending, start scope line rest m =
      .error (stopFault (m.vars.isString scope) line) { m with pending := pending } := by
  unfold stopFault
  cases hr : Statement.read (m.vars.isString scope) line with
  | error cause => exact ⟨m.pending, start_of_unreadable rest hr⟩
  | ok statement =>
    rw [Statement.opened?_eq_opens? hr] at h
    exact start_of_stopped rest hm.stopped hr h

end Machine

namespace Frame

open Machine

variable {frame : Frame} {m m' : Machine} {scope : Scope} {line : String} {lines : List String}

/-- A frame of lines goes on behind a line that leaves nothing to be done. -/
theorem tick_of_list_cons {rest : List String} {span : Nat} (hd : m.debug = false)
    (h : frame.list? = some (scope, line :: rest))
    (hs : start scope line rest m = .ok ([], span) m') :
    frame.tick m = .ok [frame.behind span] m' := by
  rw [tick_of_list? hd h, bind_of_ok hs]
  rfl

theorem tick_of_list_fault {rest : List String} {fault : Fault} (hd : m.debug = false)
    (h : frame.list? = some (scope, line :: rest))
    (hs : start scope line rest m = .error fault m') : frame.tick m = .error fault m' := by
  rw [tick_of_list? hd h, bind_of_error hs]

/-- Ticks each of which leaves one frame in the place of another. -/
inductive Leads : Frame → Machine → Frame → Machine → Prop where
  | refl (frame : Frame) (m : Machine) : Leads frame m frame m
  | tick {frame next last : Frame} {m m₁ m' : Machine} (h : frame.tick m = .ok [next] m₁)
      (hl : Leads next m₁ last m') : Leads frame m last m'

theorem Leads.complete {last : Frame} (h : Leads frame m last m') {budget : Nat}
    {result : EStateM.Result Fault Machine Unit}
    (hr : Machine.complete budget [last] m' = some result) :
    ∃ budget, Machine.complete budget [frame] m = some result := by
  induction h with
  | refl frame m => exact ⟨budget, hr⟩
  | tick h _ ih =>
    obtain ⟨budget', hr'⟩ := ih hr
    refine ⟨budget' + 1, ?_⟩
    rw [Machine.complete, h]
    exact hr'

theorem Leads.after? {last : Frame} (h : Leads frame m last m') (program : List String)
    (stack : List Frame) :
    ∃ n, Moment.after? program n ⟨frame :: stack, m⟩ = some ⟨last :: stack, m'⟩ := by
  induction h with
  | refl frame m => exact ⟨0, rfl⟩
  | tick h _ ih =>
    obtain ⟨n, hn⟩ := ih
    refine ⟨n + 1, ?_⟩
    rw [Moment.after?, Moment.next?, tick_cons_of_ok program stack h]
    exact hn

/-- Once the run is interrupted, a frame of lines passes over the definitions of macros that stand
in front. -/
theorem leads_of_list? (hm : m.Halted) (h : frame.list? = some (scope, lines)) :
    ∃ last macros, Leads frame m last { m with macros := macros } ∧ last.isCall = frame.isCall ∧
      ((firstOther? 0 lines = none ∧ last.list? = some (scope, [])) ∨
        ∃ line rest, firstOther? 0 lines = some line ∧ last.list? = some (scope, line :: rest) ∧
          Statement.opened? line ≠ some .macroBlock) := by
  generalize hn : lines.length = n
  induction n using Nat.strong_induction_on generalizing frame m lines with
  | _ n ih =>
    cases lines with
    | nil => exact ⟨frame, m.macros, .refl frame m, rfl, Or.inl ⟨rfl, h⟩⟩
    | cons line rest =>
      by_cases hheader : Statement.opened? line = some .macroBlock
      · obtain ⟨macros, hs⟩ := start_of_header hheader scope rest m
        have htick := tick_of_list_cons hm.debug h hs
        have hlist := list?_behind h (blockSpan (BlockKind.macroBlock.body rest))
        have hshort : (rest.drop (blockSpan (BlockKind.macroBlock.body rest) - 1)).length < n := by
          rw [List.length_drop, ← hn, List.length_cons]
          omega
        have hm' : Halted { m with macros := macros } := ⟨hm.interrupted, hm.debug⟩
        obtain ⟨last, macros', hleads, hlast, hends⟩ := ih _ hshort hm' hlist rfl
        rw [← firstOther?_of_header hheader rest] at hends
        exact ⟨last, macros', .tick htick hleads, hlast.trans (isCall_behind frame _), hends⟩
      · refine ⟨frame, m.macros, .refl frame m, rfl, Or.inr ⟨line, rest, ?_, h, hheader⟩⟩
        rw [firstOther?, if_neg hheader]

end Frame

namespace Machine

/-- How a list of lines ends once the run is interrupted. Its first line that defines no macro ends
it; until then only macros were defined, and `m` is the machine otherwise. -/
def StopsIn (m : Machine) (scope : Scope) (lines : List String) :
    EStateM.Result Fault Machine Unit → Prop
  | .ok () m' => firstOther? 0 lines = none ∧ ∃ macros, m' = { m with macros := macros }
  | .error fault m' =>
    ∃ line, firstOther? 0 lines = some line ∧ fault = stopFault (m.vars.isString scope) line ∧
      ∃ macros pending, m' = { m with macros := macros, pending := pending }

variable {m m' : Machine}

theorem unwind_singleton {frame last : Frame} (h : last.isCall = frame.isCall) (m : Machine) :
    m.unwind [last] = m.unwind [frame] := by
  simp only [unwind, List.countP_singleton, h]

theorem complete_of_halted (hm : m.Halted) {frame : Frame} {scope : Scope} {lines : List String}
    (h : frame.list? = some (scope, lines)) :
    ∃ budget result, complete budget [frame] m = some result ∧
      StopsIn (m.unwind [frame]) scope lines result := by
  obtain ⟨last, macros, hleads, hcall, hends⟩ := Frame.leads_of_list? hm h
  rcases hends with ⟨hnone, hlist⟩ | ⟨line, rest, hsome, hlist, hother⟩
  · have hlast : complete 1 [last] { m with macros := macros } =
        some (.ok () (unwind [last] { m with macros := macros })) := by
      rw [complete, Frame.tick_of_list_nil hlist]
      rfl
    obtain ⟨budget, hr⟩ := hleads.complete hlast
    rw [unwind_singleton hcall] at hr
    exact ⟨budget, _, hr, hnone, macros, rfl⟩
  · have hm' : Halted { m with macros := macros } := ⟨hm.interrupted, hm.debug⟩
    obtain ⟨pending, hs⟩ := start_of_other hm' hother scope rest
    have hlast : complete 1 [last] { m with macros := macros } =
        some (.error (stopFault (m.vars.isString scope) line)
          (unwind [last] { m with macros := macros, pending := pending })) := by
      rw [complete, Frame.tick_of_list_fault hm'.debug hlist hs]
    obtain ⟨budget, hr⟩ := hleads.complete hlast
    rw [unwind_singleton hcall] at hr
    exact ⟨budget, _, hr, line, hsome, rfl, macros, pending, rfl⟩

/-- How the lines of a program from the instruction pointer on end once the run is interrupted. If
all of them define macros, the end of the program is reached and only the flush can fail. -/
def StopsProgram (m : Machine) (program : List String) : EStateM.Result Fault Machine Unit → Prop
  | .ok () m' => firstOther? 0 (program.drop m.ip) = none ∧ m' = m.flushed.cleared
  | .error fault m' =>
    (firstOther? 0 (program.drop m.ip) = none ∧ m.sink.refusesFlush = true ∧
        fault = .output .flushFailed ∧
        ∃ macros ip jumped, m' = { m with macros := macros, ip := ip, jumped := jumped }) ∨
      ∃ line, firstOther? 0 (program.drop m.ip) = some line ∧
        fault = stopFault (m.vars.isString .global) line ∧
        ∃ macros pending ip rest, program.drop ip = line :: rest ∧
          m' = { m with macros := macros, pending := pending, ip := ip, jumped := false }

/-- A program line that defines a macro leads behind its block. -/
theorem after?_of_header {program rest : List String} {line : String} (hd : m.debug = false)
    (hp : program.drop m.ip = line :: rest) (hh : Statement.opened? line = some .macroBlock) :
    ∃ macros, Moment.after? program 2 ⟨[], m⟩ =
      some ⟨[], { m with
        macros := macros
        ip := m.ip + blockSpan (BlockKind.macroBlock.body rest)
        jumped := false }⟩ := by
  obtain ⟨macros, hs⟩ := start_of_header hh .global rest { m with jumped := false }
  have ht := Moment.tick_nil_of_debug hd hp
  rw [hs] at ht
  refine ⟨macros, ?_⟩
  rw [Moment.after?, Moment.next?, ht]
  rfl

/-- It makes no difference to the end of a program whether the definition in front is done. -/
theorem StopsProgram.of_header {program : List String} {macros : MacroTable} {ip : Nat}
    {result : EStateM.Result Fault Machine Unit}
    (hfirst : firstOther? 0 (program.drop ip) = firstOther? 0 (program.drop m.ip))
    (h : StopsProgram { m with macros := macros, ip := ip, jumped := false } program result) :
    m.StopsProgram program result := by
  cases result with
  | ok value m' =>
    obtain ⟨hnone, he⟩ := h
    exact ⟨hfirst ▸ hnone, he⟩
  | error fault m' =>
    rcases h with ⟨hnone, hf, he, macros', ip', jumped, rfl⟩ |
      ⟨line, hsome, he, macros', pending, ip', rest, hip, rfl⟩
    · exact Or.inl ⟨hfirst ▸ hnone, hf, he, macros', ip', jumped, rfl⟩
    · exact Or.inr ⟨line, hfirst ▸ hsome, he, macros', pending, ip', rest, hip, rfl⟩

theorem stopsProgram_of_ended {program : List String} (hp : program.drop m.ip = []) :
    ∃ budget result, resume program budget [] m = some result ∧ StopsProgram m program result := by
  have ht := tick_of_ended hp
  have hfirst : firstOther? 0 (program.drop m.ip) = none := by
    rw [hp]
    rfl
  cases hf : m.sink.refusesFlush with
  | true =>
    rw [hf, if_pos rfl] at ht
    exact ⟨1, _, Moment.resume_of_failed ht,
      Or.inl ⟨hfirst, hf, rfl, m.macros, m.ip, m.jumped, rfl⟩⟩
  | false =>
    rw [hf, if_neg Bool.false_ne_true] at ht
    exact ⟨1, .ok () m.flushed.cleared, by rw [resume, ht], hfirst, rfl⟩

theorem resume_of_halted (hm : m.Halted) (program : List String) :
    ∃ budget result, resume program budget [] m = some result ∧ StopsProgram m program result := by
  -- The induction is on the number of lines from the instruction pointer on.
  generalize hn : (program.drop m.ip).length = n
  induction n using Nat.strong_induction_on generalizing m with
  | _ n ih =>
    cases hp : program.drop m.ip with
    | nil => exact stopsProgram_of_ended hp
    | cons line rest =>
      by_cases hheader : Statement.opened? line = some .macroBlock
      · obtain ⟨macros, hafter⟩ := after?_of_header hm.debug hp hheader
        generalize hspan : blockSpan (BlockKind.macroBlock.body rest) = span at hafter
        have hdrop : program.drop (m.ip + span) = rest.drop (span - 1) := by
          rw [← List.drop_drop, hp, ← hspan]
          rfl
        have hshort : (program.drop (m.ip + span)).length < n := by
          rw [hdrop, List.length_drop, ← hn, hp, List.length_cons]
          omega
        have hm' : Halted { m with macros := macros, ip := m.ip + span, jumped := false } :=
          ⟨hm.interrupted, hm.debug⟩
        obtain ⟨budget, result, hr, hstops⟩ := ih _ hshort hm' rfl
        refine ⟨2 + budget, result, Moment.resume_of_after? hafter hr, hstops.of_header ?_⟩
        rw [hdrop, hp, firstOther?_of_header hheader, hspan]
      · have hm' : Halted { m with jumped := false } := ⟨hm.interrupted, hm.debug⟩
        obtain ⟨pending, hs⟩ := start_of_other hm' hheader .global rest
        have ht := Moment.tick_nil_of_debug hm.debug hp
        rw [hs] at ht
        refine ⟨1, _, Moment.resume_of_failed ht, Or.inr ⟨line, ?_, rfl, ?_⟩⟩
        · rw [hp, firstOther?, if_neg hheader]
        · exact ⟨m.macros, pending, m.ip, rest, hp, rfl⟩

end Machine

namespace Moment

open Machine

variable {program : List String} {m : Machine}

/-- A frame that does not come to its own end ends the run. -/
theorem exists_failing_of_stop? (hm : m.Halted) {frame : Frame} {fault : Fault}
    (h : frame.stop? m.vars = some fault) (program : List String) (stack : List Frame) :
    ∃ budget m', resume program budget (frame :: stack) m = some (.error fault m') := by
  have hguard (scope : Scope) (header : LoopHeader) (lines : List String) (value : Int64) :
      (Frame.loop scope header lines value).tick m = .error .terminated m := by
    rw [Frame.tick]
    exact bind_of_error (guard_of_stopped hm.stopped)
  cases hlist : frame.list? with
  | some entry =>
    obtain ⟨scope, lines⟩ := entry
    rw [Frame.stop?_of_list? hlist] at h
    obtain ⟨line, hline, rfl⟩ := Option.map_eq_some_iff.mp h
    obtain ⟨last, macros, hleads, _, hends⟩ := Frame.leads_of_list? hm hlist
    rcases hends with ⟨hnone, _⟩ | ⟨other, rest, hsome, hlast, hother⟩
    · rw [hnone] at hline
      contradiction
    · obtain rfl : other = line := Option.some.inj (hsome.symm.trans hline)
      have hm' : Halted { m with macros := macros } := ⟨hm.interrupted, hm.debug⟩
      obtain ⟨pending, hs⟩ := start_of_other hm' hother scope rest
      have htick := Frame.tick_of_list_fault hm'.debug hlast hs
      obtain ⟨n, hn⟩ := hleads.after? program stack
      have hfailed := resume_of_failed (tick_cons_of_error program stack htick)
      exact ⟨n + 1, _, resume_of_after? hn hfailed⟩
  | none =>
    cases frame with
    | line index span => cases h
    | body scope lines => cases hlist
    | call index lines => cases hlist
    | loop scope header lines value =>
      cases h
      have htick := tick_cons_of_error program stack (hguard scope header lines value)
      exact ⟨1, _, resume_of_failed htick⟩
    | pass scope header lines value =>
      cases ha : add? value header.step with
      | some next =>
        have htick : (Frame.pass scope header lines value).tick m =
            .ok [.loop scope header lines next] m := by
          rw [Frame.tick, ha]
          rfl
        rw [Frame.stop?, ha] at h
        cases h
        have hafter := after?_one_of_tick htick program stack
        have hfailed := tick_cons_of_error program stack (hguard scope header lines next)
        exact ⟨1 + 1, _, resume_of_after? hafter (resume_of_failed hfailed)⟩
      | none =>
        cases hb : header.bound with
        | upTo last =>
          rw [Frame.stop?, ha, hb] at h
          contradiction
        | unbounded =>
          have htick : (Frame.pass scope header lines value).tick m =
              .error (.arithmetic (.loopOverflow header.var)) m := by
            rw [Frame.tick, ha, hb]
            rfl
          rw [Frame.stop?, ha, hb] at h
          cases h
          exact ⟨1, _, resume_of_failed (tick_cons_of_error program stack htick)⟩

/-- A frame that comes to its own end leads to the one below it. -/
theorem exists_after?_of_stop? (hm : m.Halted) {frame : Frame} (h : frame.stop? m.vars = none)
    (program : List String) (stack : List Frame) :
    ∃ n m', after? program n ⟨frame :: stack, m⟩ = some ⟨stack, m'⟩ ∧ m'.Halted ∧
      m'.vars = m.vars := by
  cases hlist : frame.list? with
  | some entry =>
    obtain ⟨scope, lines⟩ := entry
    rw [Frame.stop?_of_list? hlist, Option.map_eq_none_iff] at h
    obtain ⟨last, macros, hleads, _, hends⟩ := Frame.leads_of_list? hm hlist
    rcases hends with ⟨_, hlast⟩ | ⟨other, rest, hsome, _⟩
    · obtain ⟨n, hn⟩ := hleads.after? program stack
      refine ⟨n + 1, unwind [last] { m with macros := macros }, ?_,
        ⟨hm.interrupted, hm.debug⟩, rfl⟩
      rw [after?_add, hn]
      exact after?_one_of_tick (Frame.tick_of_list_nil hlast _) program stack
    · rw [h] at hsome
      contradiction
  | none =>
    cases frame with
    | line index span =>
      have htick : (Frame.line index span).tick m = .ok [] (m.lineEnded index span) := rfl
      exact ⟨1, _, after?_one_of_tick htick program stack, ⟨hm.interrupted, hm.debug⟩, rfl⟩
    | body scope lines => cases hlist
    | call index lines => cases hlist
    | loop scope header lines value => cases h
    | pass scope header lines value =>
      cases ha : add? value header.step with
      | some next =>
        rw [Frame.stop?, ha] at h
        contradiction
      | none =>
        cases hb : header.bound with
        | unbounded =>
          rw [Frame.stop?, ha, hb] at h
          contradiction
        | upTo last =>
          have htick : (Frame.pass scope header lines value).tick m = .ok [] m := by
            rw [Frame.tick, ha, hb]
            rfl
          exact ⟨1, m, after?_one_of_tick htick program stack, hm, rfl⟩

/-- How a run ends once it is interrupted, given the work in progress: with the first fault that its
frames have in store, or with the program lines behind them. -/
def StopsWith (program : List String) (c : Moment) (result : EStateM.Result Fault Machine Unit) :
    Prop :=
  match c.stack.findSome? (Frame.stop? c.machine.vars) with
  | some fault => ∃ m', result = .error fault m'
  | none => ∃ n m', after? program n c = some ⟨[], m'⟩ ∧ m'.StopsProgram program result

theorem ends_of_halted (hm : m.Halted) (program : List String) (stack : List Frame) :
    ∃ budget result, resume program budget stack m = some result ∧
      StopsWith program ⟨stack, m⟩ result := by
  induction stack generalizing m with
  | nil =>
    obtain ⟨budget, result, hr, hstops⟩ := resume_of_halted hm program
    exact ⟨budget, result, hr, 0, m, rfl, hstops⟩
  | cons frame stack ih =>
    cases hstop : frame.stop? m.vars with
    | some fault =>
      obtain ⟨budget, m', hr⟩ := exists_failing_of_stop? hm hstop program stack
      refine ⟨budget, _, hr, ?_⟩
      simp only [StopsWith, List.findSome?_cons, hstop]
      exact ⟨m', rfl⟩
    | none =>
      obtain ⟨n, m', hn, hm', hvars⟩ := exists_after?_of_stop? hm hstop program stack
      obtain ⟨budget, result, hr, hstops⟩ := ih hm'
      refine ⟨n + budget, result, resume_of_after? hn hr, ?_⟩
      simp only [StopsWith, List.findSome?_cons, hstop, hvars] at hstops ⊢
      cases hfind : stack.findSome? (Frame.stop? m.vars) with
      | some fault =>
        rw [hfind] at hstops
        exact hstops
      | none =>
        rw [hfind] at hstops
        obtain ⟨k, m₁, hk, hprogram⟩ := hstops
        refine ⟨n + k, m₁, ?_, hprogram⟩
        rw [after?_add, hn]
        exact hk

/-- A tick that calls no macro, begins no pass of a loop and does not jump. The instruction pointer
moves only when a program line is done. -/
structure Winds (c c' : Moment) : Prop where
  calls : c'.stack.countP Frame.isCall ≤ c.stack.countP Frame.isCall
  passes : c'.stack.countP Frame.isPass ≤ c.stack.countP Frame.isPass
  jumped : c'.machine.jumped = true → c.machine.jumped = true
  ip : c'.machine.ip = c.machine.ip ∨ ∃ index span stack,
    c.stack = .line index span :: stack ∧ c'.machine = c.machine.lineEnded index span

end Moment

namespace Machine

variable {m m' : Machine} {scope : Scope} {line : String} {rest : List String}
  {frames : List Frame} {span : Nat}

theorem Started.of_halted (hi : m.interrupted = true)
    (h : Started scope line rest m frames span m') :
    frames = [] ∧ ∃ macros, m' = { m with macros := macros } := by
  have hfree : ¬ Free m := by
    rintro ⟨hf, _⟩
    rw [hi] at hf
    contradiction
  cases h with
  | defined hr => exact ⟨rfl, _, rfl⟩
  | plain hr hs hf => exact absurd hf hfree
  | skipped hr hf => exact absurd hf hfree
  | entered hr hf => exact absurd hf hfree
  | looped hr hf => exact absurd hf hfree
  | called hr hf => exact absurd hf hfree
  | labelled hr hf => exact absurd hf hfree
  | jumped hr hf => exact absurd hf hfree

end Machine

theorem Moment.winds_of_steps {program : List String} {c c' : Moment} (hc : c.machine.Halted)
    (hs : Steps program c c') : Winds c c' := by
  cases hs with
  | line hd h =>
    rename_i line rest frames span m m'
    rw [Machine.lineReady_of_debug hc.debug] at h
    have hready : Machine.Halted { m with jumped := false } := ⟨hc.interrupted, hc.debug⟩
    obtain ⟨rfl, macros, rfl⟩ := h.of_halted hready.interrupted
    refine ⟨le_rfl, le_rfl, ?_, Or.inl rfl⟩
    intro hj
    cases hj
  | frame ht =>
    rename_i frame stack frames m m'
    have hpop (p : Frame → Bool) : stack.countP p ≤ (frame :: stack).countP p :=
      (List.sublist_cons_self frame stack).countP_le
    cases ht with
    | line => exact ⟨hpop _, hpop _, id, Or.inr ⟨_, _, _, rfl, rfl⟩⟩
    | bodyEnd => exact ⟨hpop _, hpop _, id, Or.inl rfl⟩
    | bodyLine h =>
      obtain ⟨rfl, macros, rfl⟩ := h.of_halted hc.interrupted
      exact ⟨le_rfl, le_rfl, id, Or.inl rfl⟩
    | callEnd => exact ⟨hpop _, hpop _, id, Or.inl rfl⟩
    | callLine h =>
      rw [Machine.traced_of_debug hc.debug] at h
      obtain ⟨rfl, macros, rfl⟩ := h.of_halted hc.interrupted
      exact ⟨le_rfl, le_rfl, id, Or.inl rfl⟩
    | loopEnd hf => exact absurd hc.stopped hf.not_stopped
    | loopPass hf => exact absurd hc.stopped hf.not_stopped
    | passNext => exact ⟨le_rfl, (hpop _), id, Or.inl rfl⟩
    | passEnd => exact ⟨hpop _, hpop _, id, Or.inl rfl⟩

/-- Once a run is interrupted and the trace is off, it only passes over the definitions of macros.
The lines of every body, of every macro and of the program from the instruction pointer on end at
the first line that defines no macro, with the fault of reading it if there is one and because of
the interruption otherwise. Whatever work is in progress, nothing is printed, no variable, label or
count of jumps changes, no macro is called, no pass of a loop begun and no jump made. -/
theorem interrupted_run_only_defines_macros {m : Machine} (hi : m.interrupted = true)
    (hd : m.debug = false) :
    (∀ (frame : Frame) (scope : Scope) (lines : List String),
      frame.list? = some (scope, lines) →
        ∃ budget result, Machine.complete budget [frame] m = some result ∧
          Machine.StopsIn (m.unwind [frame]) scope lines result) ∧
    (∀ program : List String, ∃ budget result,
      Machine.resume program budget [] m = some result ∧ m.StopsProgram program result) ∧
    ∀ (program : List String) (stack : List Frame),
      (∀ m', Moment.Shows program ⟨stack, m⟩ m' →
        m'.sink = m.sink ∧ m'.vars = m.vars ∧ m'.labels = m.labels) ∧
      (∀ n c c', Moment.after? program n ⟨stack, m⟩ = some c → c.next? program = some c' →
        Moment.Winds c c') ∧
      ∃ budget result, Machine.resume program budget stack m = some result ∧
        Moment.StopsWith program ⟨stack, m⟩ result := by
  have hm : m.Halted := ⟨hi, hd⟩
  refine ⟨fun frame scope lines hlist => Machine.complete_of_halted hm hlist,
    Machine.resume_of_halted hm, fun program stack => ⟨?_, ?_, ?_⟩⟩
  · intro m' hshows
    have hidles := Moment.idles_of_shows (c := ⟨stack, m⟩) hm.stopped hshows
    exact ⟨(hidles.sink hd).2, hidles.vars, hidles.labels⟩
  · intro n c c' hn hnext
    have hidles := Moment.always_idles (c := ⟨stack, m⟩) hm.stopped n c hn
    have hc : c.machine.Halted := ⟨hidles.interrupted hi, hidles.debug.trans hd⟩
    exact Moment.winds_of_steps hc (Moment.steps_of_next? hnext)
  · exact Moment.ends_of_halted hm program stack

/-- A macro that is interrupted at the definition of another one ends at the line behind it, which
cannot be read, and a loop does not go on after the last line of a pass. -/
theorem interrupted_macro_and_loop_end :
    let m : Machine := { interrupted := true, depth := 1 }
    let lines := ["MACRO a", "PRINTVAR x", "END MACRO", "INT y", "PRINTSTR \"b\""]
    let loop : Frame := .pass .global ⟨"i", 1, .unbounded, 1⟩ ["PRINTVAR i"] 5
    m.interrupted = true ∧ m.debug = false ∧
    (∃ budget m', Machine.complete budget [.call 2 lines] m =
      some (.error (.malformed .intForm) m') ∧ m'.depth = 0 ∧ m'.sink = m.sink) ∧
    ∃ budget m', Machine.resume [] budget [.body .global (lines.take 3), loop, .line 0 3] m =
      some (.error .terminated m') := by
  intro m lines loop
  obtain ⟨hlist, _, hstack⟩ := interrupted_run_only_defines_macros (m := m) rfl rfl
  refine ⟨rfl, rfl, ?_, ?_⟩
  · obtain ⟨budget, result, hr, hstops⟩ := hlist (.call 2 lines) .inMacro lines rfl
    have hfirst : firstOther? 0 lines = some "INT y" := by decide +kernel
    cases result with
    | ok value m' =>
      rw [hstops.1] at hfirst
      contradiction
    | error fault m' =>
      obtain ⟨line, hline, hfault, macros, pending, rfl⟩ := hstops
      obtain rfl : line = "INT y" := Option.some.inj (hline.symm.trans hfirst)
      obtain rfl : fault = .malformed .intForm := hfault
      exact ⟨budget, _, hr, rfl, rfl⟩
  · obtain ⟨_, _, budget, result, hr, hstops⟩ :=
      hstack [] [.body .global (lines.take 3), loop, .line 0 3]
    have hfirst : [Frame.body .global (lines.take 3), loop, .line 0 3].findSome?
        (Frame.stop? m.vars) = some .terminated := by decide +kernel
    simp only [Moment.StopsWith, hfirst] at hstops
    obtain ⟨m', rfl⟩ := hstops
    exact ⟨budget, m', hr⟩

end LineScript
