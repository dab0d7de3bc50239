import LineScript.Proofs.Ahead
import LineScript.Proofs.Effects
import LineScript.Proofs.History

/-! The trace only adds text. The writes of a run are listed from the lines in front of its ticks,
and the sink holds them one after the other. With the trace off the same run makes the same writes,
but for the lines of the trace. -/

namespace LineScript

/-- A write to the sink: a line of the trace, or a text that a statement prints. -/
inductive Record where
  | traced (text : String)
  | printed (text : String)
deriving Repr, DecidableEq

namespace Record

/-- What is written. -/
def text : Record → String
  | traced text | printed text => text

def isTraced : Record → Bool
  | traced _ => true
  | printed _ => false

/-- The bytes of writes one after the other. -/
def bytes : List Record → ByteArray
  | [] => .empty
  | record :: records => record.text.toUTF8 ++ bytes records

theorem bytes_singleton (record : Record) : bytes [record] = record.text.toUTF8 :=
  ByteArray.append_empty

theorem bytes_append (records records' : List Record) :
    bytes (records ++ records') = bytes records ++ bytes records' := by
  induction records with
  | nil => exact ByteArray.empty_append.symm
  | cons record records ih => rw [List.cons_append, bytes, ih, bytes, ByteArray.append_assoc]

end Record

namespace Sink

/-- The sink after writes, if it takes everything. -/
def write (records : List Record) (sink : Sink) : Sink :=
  { sink with bytes := sink.bytes ++ Record.bytes records }

@[simp] theorem write_nil (sink : Sink) : sink.write [] = sink := by
  rw [write, Record.bytes, ByteArray.append_empty]

theorem write_append (records records' : List Record) (sink : Sink) :
    sink.write (records ++ records') = (sink.write records).write records' := by
  rw [write, Record.bytes_append, ← ByteArray.append_assoc]
  rfl

theorem InMemory.write {sink : Sink} (h : sink.InMemory) (records : List Record) :
    (sink.write records).InMemory :=
  h.with_bytes _ _

theorem InMemory.of_grows {sink sink' : Sink} (h : sink.InMemory) (hg : sink.Grows sink') :
    sink'.InMemory := by
  obtain ⟨data, flushed, rfl⟩ := hg
  exact h.with_bytes _ _

end Sink

namespace Machine

instance (m : Machine) : Decidable m.Free :=
  inferInstanceAs (Decidable (_ ∧ _))

/-- The texts that a line prints. What the guard stops prints nothing. -/
def texts (scope : Scope) (line : String) (m : Machine) : List String :=
  match Statement.read (m.vars.isString scope) line with
  | .error _ => []
  | .ok statement =>
    match statement.effect scope m.vars m.isReserved with
    | .error _ => []
    | .ok (_, texts) => if m.Free then texts else []

section Texts

variable {m : Machine} {scope : Scope} {line : String} {statement : Statement}

theorem putAll_inMemory (texts : List String) (hm : m.sink.InMemory) :
    putAll texts m = .ok () (m.withSink (m.sink.write (texts.map .printed))) := by
  induction texts generalizing m with
  | nil =>
    rw [List.map_nil, Sink.write_nil]
    rfl
  | cons text texts ih =>
    have hput : printing (put text) m = .ok () (m.withSink (m.sink.write [.printed text])) := by
      rw [printing_put_inMemory text hm, Sink.write, Record.bytes_singleton]
      rfl
    have hlater := ih (m := m.withSink (m.sink.write [.printed text])) (hm.write _)
    have hwrite := Sink.write_append [.printed text] (texts.map .printed) m.sink
    rw [putAll, bind_of_ok hput, hlater]
    exact congrArg (fun sink => EStateM.Result.ok () (m.withSink sink)) hwrite.symm

/-- Lines of control print nothing. -/
theorem texts_of_isControl (hr : Statement.read (m.vars.isString scope) line = .ok statement)
    (hs : statement.isControl = true) : m.texts scope line = [] := by
  have heffect : statement.effect scope m.vars m.isReserved = .ok (m.vars, []) := by
    cases statement <;> first | rfl | cases hs
  rw [texts, hr]
  dsimp only
  rw [heffect]
  exact ite_self []

theorem execute_sink_of_isPlain (hm : m.sink.InMemory)
    (hr : Statement.read (m.vars.isString scope) line = .ok statement)
    (hs : statement.isPlain = true) :
    (endState (execute scope statement m)).sink =
      m.sink.write ((m.texts scope line).map .printed) := by
  rw [texts, hr]
  dsimp only
  rcases free_or_stopped m with hf | ⟨fault, hstop⟩
  · rw [execute_eq_perform hf scope hs]
    cases he : statement.effect scope m.vars m.isReserved with
    | error fault => exact (Sink.write_nil m.sink).symm
    | ok result =>
      obtain ⟨vars, texts⟩ := result
      have hput := putAll_inMemory (m := { m with vars := vars }) texts hm
      have hperform : perform (.ok (vars, texts)) m =
          .ok [] ({ m with vars := vars }.withSink (m.sink.write (texts.map .printed))) :=
        bind_of_ok hput
      rw [hperform]
      dsimp only
      rw [if_pos hf]
      rfl
  · rw [execute_of_stopped hstop]
    cases statement.effect scope m.vars m.isReserved with
    | error fault => exact (Sink.write_nil m.sink).symm
    | ok result =>
      dsimp only
      rw [if_neg fun hf => hf.not_stopped hstop]
      exact (Sink.write_nil m.sink).symm

/-- To a sink that takes everything a line adds exactly its texts, whether it fails or not. -/
theorem start_sink (scope : Scope) (line : String) (rest : List String) (hm : m.sink.InMemory) :
    (endState (start scope line rest m)).sink =
      m.sink.write ((m.texts scope line).map .printed) := by
  cases hr : Statement.read (m.vars.isString scope) line with
  | error cause =>
    rw [start_of_unreadable rest hr, texts, hr]
    exact (Sink.write_nil m.sink).symm
  | ok statement =>
    cases hs : statement.isControl with
    | true =>
      obtain ⟨_, _, _, _, _, _, hsame⟩ := sameData_start rest hr hs
      rw [hsame, texts_of_isControl hr hs]
      exact (Sink.write_nil m.sink).symm
    | false =>
      obtain ⟨hplain, ho⟩ := Statement.plain_of_not_isControl hs
      rw [start_of_opens?_eq_none rest hr ho, endState_bind_pure _ (fun frames => (frames, 1)) m]
      exact execute_sink_of_isPlain hm hr hplain

theorem traced_inMemory (text : String) (hm : m.sink.InMemory) :
    m.traced text = m.withSink (m.sink.write (if m.debug then [.traced text] else [])) := by
  rw [traced]
  split
  · have hput := printing_put text m
    rw [printing_put_inMemory text hm,
      if_pos (Sink.holds_of_fitting_eq (Sink.fitting_of_unlimited hm.unlimited _))] at hput
    injection hput with _ hprinted
    rw [← hprinted, Sink.write, Record.bytes_singleton]
    rfl
  · rw [Sink.write_nil]
    rfl

end Texts

end Machine

namespace Moment

open Machine

/-- The texts that the line in front of the next tick prints. -/
def texts (program : List String) (c : Moment) : List String :=
  match c.ahead? program with
  | some (scope, line :: _) => c.machine.texts scope line
  | _ => []

/-- The lines of the trace that the next tick writes. -/
def traces (program : List String) (c : Moment) : List Record :=
  if c.machine.debug then (c.record? program).toList.map .traced else []

/-- The writes of the next tick. The line of the trace comes first. -/
def writes (program : List String) (c : Moment) : List Record :=
  c.traces program ++ (c.texts program).map .printed

/-- The writes of the given number of ticks, or of all until the run ends. -/
def transcript (program : List String) : Nat → Moment → List Record
  | 0, _ => []
  | n + 1, c => c.writes program ++ (c.next? program).elim [] (transcript program n)

variable {program : List String} {c : Moment}

theorem writes_of_lineless (h : c.Lineless program) : c.writes program = [] := by
  have htexts : c.texts program = [] := by
    rw [texts]
    split
    · rename_i scope line rest hahead
      exact absurd hahead (h scope line rest)
    · rfl
  have hrecord : c.record? program = none := by
    rw [record?]
    split
    · rename_i hstack
      -- Behind the last line of the program there is nothing to trace.
      rw [if_neg]
      intro hlt
      apply h .global program[c.machine.ip] (program.drop (c.machine.ip + 1))
      rw [ahead?, hstack]
      exact congrArg (fun lines => some (Scope.global, lines)) (List.drop_eq_getElem_cons hlt)
    · rename_i index line rest stack hstack
      refine absurd ?_ (h .inMacro line rest)
      rw [ahead?, hstack]
      rfl
    · rfl
  rw [writes, traces, htexts, hrecord]
  exact congrArg (· ++ []) (ite_self [])

/-- When a line begins, its line of the trace has been written. -/
theorem ready_inMemory (program : List String) (hm : c.machine.sink.InMemory) :
    ∃ jumped, c.ready program =
      { c.machine with
        jumped := jumped, sink := c.machine.sink.write (c.traces program) } := by
  have htraced : (c.record? program).elim c.machine (fun text => c.machine.traced text) =
      c.machine.withSink (c.machine.sink.write (c.traces program)) := by
    rw [traces]
    cases c.record? program with
    | none =>
      rw [Option.toList_none, List.map_nil, ite_self, Sink.write_nil]
      rfl
    | some text => exact traced_inMemory text hm
  rw [ready]
  dsimp only
  rw [htraced]
  split
  · exact ⟨false, rfl⟩
  · exact ⟨c.machine.jumped, rfl⟩

/-- To a sink that takes everything a tick adds exactly its writes. -/
theorem tick_bytes (program : List String) (hm : c.machine.sink.InMemory) :
    (endState (tick program c.stack c.machine)).sink.bytes =
      c.machine.sink.bytes ++ Record.bytes (c.writes program) := by
  have hticked := ticked program c
  have hlineless (hl : c.Lineless program) : c.machine.sink.bytes =
      c.machine.sink.bytes ++ Record.bytes (c.writes program) := by
    rw [writes_of_lineless hl]
    exact ByteArray.append_empty.symm
  generalize endState (tick program c.stack c.machine) = m at hticked
  cases hticked with
  | begins hahead =>
    rename_i scope line rest
    obtain ⟨jumped, hready⟩ := ready_inMemory program hm
    have htexts : (c.ready program).texts scope line = c.texts program := by
      rw [hready, texts, hahead]
      rfl
    have hsink : (c.ready program).sink = c.machine.sink.write (c.traces program) := by
      rw [hready]
    have hmemory : (c.ready program).sink.InMemory := by
      rw [hsink]
      exact hm.write _
    rw [start_sink scope line rest hmemory, htexts, hsink, ← Sink.write_append]
    rfl
  | untraced hahead htrace =>
    -- A sink that takes everything takes the trace.
    rename_i scope line rest text
    rw [trace_eq, printing_put_inMemory text hm] at htrace
    split at htrace <;> cases htrace
  | passes hl hpass => exact hlineless hl
  | moves hl hmoves hp =>
    obtain ⟨ip, depth, rfl⟩ := hmoves
    exact hlineless hl
  | ends hl hends => exact hlineless hl

theorem inMemory_of_tick (program : List String) (hm : c.machine.sink.InMemory) :
    (endState (tick program c.stack c.machine)).sink.InMemory :=
  hm.of_grows ((prints_tick program c.stack).grows c.machine)

/-- The sink holds the transcript of the ticks made so far. -/
theorem after?_bytes {n : Nat} {c' : Moment} (hm : c.machine.sink.InMemory)
    (h : after? program n c = some c') :
    c'.machine.sink.bytes = c.machine.sink.bytes ++ Record.bytes (c.transcript program n) := by
  induction n generalizing c with
  | zero =>
    cases h
    exact ByteArray.append_empty.symm
  | succ n ih =>
    rw [after?] at h
    obtain ⟨c₁, hnext, hlater⟩ := Option.bind_eq_some_iff.mp h
    have hbytes := tick_bytes program hm
    have hmemory := inMemory_of_tick program hm
    rw [tick_of_next? hnext] at hbytes hmemory
    rw [ih hmemory hlater, transcript, hnext, Option.elim_some, Record.bytes_append,
      ← ByteArray.append_assoc]
    exact congrArg (· ++ _) hbytes

/-- When a run ends, the sink holds the whole transcript. -/
theorem resume_bytes {budget : Nat} {result : EStateM.Result Fault Machine Unit}
    (hm : c.machine.sink.InMemory)
    (h : resume program budget c.stack c.machine = some result) :
    (endState result).sink.bytes =
      c.machine.sink.bytes ++ Record.bytes (c.transcript program budget) := by
  induction budget generalizing c with
  | zero => cases h
  | succ budget ih =>
    have hbytes := tick_bytes program hm
    have hmemory := inMemory_of_tick program hm
    rw [resume] at h
    rw [transcript, next?]
    cases ht : tick program c.stack c.machine with
    | error fault m =>
      rw [ht] at h hbytes
      cases h
      rw [Option.elim_none, List.append_nil]
      exact hbytes
    | ok next m =>
      rw [ht] at h hbytes hmemory
      cases next with
      | none =>
        cases h
        rw [Option.elim_none, List.append_nil]
        exact hbytes
      | some stack =>
        rw [ih (c := ⟨stack, m⟩) hmemory h, Option.elim_some, Record.bytes_append,
          ← ByteArray.append_assoc]
        exact congrArg (· ++ _) hbytes

end Moment

namespace Machine

/-- Two machines that are the same, but that the first one prints the trace and may have printed
more. -/
structure Traces (m m' : Machine) : Prop where
  same : m = m'.withDisplay true m.sink
  off : m'.debug = false
  inMemory : m.sink.InMemory
  inMemory' : m'.sink.InMemory

section Traces

variable {α : Type} {m m' : Machine}

theorem Traces.with_sinks (h : Traces m m') {sink sink' : Sink} (hs : sink.InMemory)
    (hs' : sink'.InMemory) : Traces (m.withSink sink) (m'.withSink sink') := by
  refine ⟨?_, h.off, hs, hs'⟩
  rw [h.same]
  rfl

theorem traces_quiet {action : Exec α} (ha : Quiet action) (h : Traces m m') :
    EndAlike Traces (action m) (action m') := by
  have hresult : action m = mapEndState (withDisplay true m.sink) (action m') := by
    rw [← ha m' true m.sink, ← h.same]
  obtain ⟨hdebug, hsink⟩ := ha.display_eq m'
  have hend (m₁ : Machine) (hd : m₁.debug = m'.debug) (hs : m₁.sink = m'.sink) :
      Traces (m₁.withDisplay true m.sink) m₁ :=
    ⟨rfl, hd.trans h.off, h.inMemory, hs ▸ h.inMemory'⟩
  rw [hresult]
  cases hr : action m' with
  | ok value m₁ =>
    rw [hr] at hdebug hsink
    exact .ok value (hend m₁ hdebug hsink)
  | error fault m₁ =>
    rw [hr] at hdebug hsink
    exact .error fault (hend m₁ hdebug hsink)

/-- Whatever prints does the same on both machines, as far as it can be seen without the sinks. -/
theorem Prints.traces {action : Exec α} (ha : Prints action) (h : Traces m m') :
    EndAlike Traces (action m) (action m') := by
  induction ha generalizing m m' with
  | quiet hq => exact traces_quiet hq h
  | put text =>
    rw [printing_put_inMemory text h.inMemory, printing_put_inMemory text h.inMemory']
    exact .ok () (h.with_sinks (h.inMemory.with_bytes _ _) (h.inMemory'.with_bytes _ _))
  | trace text =>
    -- Only here the two go different ways: the trace is written by the first machine alone.
    have hon : m.debug = true := by
      rw [h.same]
      rfl
    rw [trace_eq, trace_eq, hon, h.off, if_pos rfl, if_neg Bool.false_ne_true,
      printing_put_inMemory text h.inMemory]
    exact .ok () (h.with_sinks (h.inMemory.with_bytes _ _) h.inMemory')
  | flush =>
    rw [printing_flush, printing_flush, h.inMemory.flushes, h.inMemory'.flushes]
    exact .ok () (h.with_sinks (h.inMemory.with_bytes _ _) (h.inMemory'.with_bytes _ _))
  | bind ha hn iha ihn => exact .bind (iha h) fun value _ _ h₁ => ihn value h₁

theorem Traces.unwind (h : Traces m m') (stack : List Frame) :
    Traces (m.unwind stack) (m'.unwind stack) := by
  refine ⟨?_, h.off, h.inMemory, h.inMemory'⟩
  rw [h.same]
  rfl

/-- The two machines have results for the same budgets, and these end alike. -/
theorem resume_traces (program : List String) (budget : Nat) (stack : List Frame)
    (h : Traces m m') :
    Option.Rel (EndAlike Traces) (resume program budget stack m)
      (resume program budget stack m') := by
  apply resume_alike
  · intro stack m₁ m₁' h₁
    exact (prints_tick program stack).traces h₁
  · intro stack m₁ m₁' h₁
    exact h₁.unwind stack
  · exact h

theorem EndAlike.traces_eq {result result' : EStateM.Result Fault Machine α}
    (h : EndAlike Traces result result') :
    result = mapEndState (withDisplay true (endState result).sink) result' := by
  cases h with
  | ok value h => exact congrArg (EStateM.Result.ok value) h.same
  | error fault h => exact congrArg (EStateM.Result.error fault) h.same

theorem traces_of_inMemory {m : Machine} (hm : m.sink.InMemory) :
    Traces { m with debug := true }.cleared { m with debug := false }.cleared :=
  ⟨rfl, rfl, hm, hm⟩

end Traces

end Machine

namespace Moment

open Machine

variable {program : List String} {m m' : Machine}

/-- Without the lines of the trace the two machines write the same in the next tick. -/
theorem writes_untraced (stack : List Frame) (h : Traces m m') :
    (writes program ⟨stack, m⟩).filter (!·.isTraced) = writes program ⟨stack, m'⟩ := by
  have htraces : (traces program ⟨stack, m⟩).filter (!·.isTraced) = [] := by
    apply List.filter_eq_nil_iff.mpr
    intro record hrecord
    rw [traces] at hrecord
    split at hrecord
    · obtain ⟨text, _, rfl⟩ := List.mem_map.mp hrecord
      simp [Record.isTraced]
    · cases hrecord
  have hnone : traces program ⟨stack, m'⟩ = [] := by
    rw [traces, h.off]
    rfl
  have htexts : texts program ⟨stack, m⟩ = texts program ⟨stack, m'⟩ := by
    rw [h.same]
    rfl
  rw [writes, writes, List.filter_append, htraces, hnone, htexts]
  apply congrArg ([] ++ ·)
  apply List.filter_eq_self.mpr
  intro record hrecord
  obtain ⟨text, _, rfl⟩ := List.mem_map.mp hrecord
  rfl

/-- Without the lines of the trace the two machines write the same in any number of ticks. -/
theorem transcript_untraced (n : Nat) (stack : List Frame) (h : Traces m m') :
    (transcript program n ⟨stack, m⟩).filter (!·.isTraced) = transcript program n ⟨stack, m'⟩ := by
  induction n generalizing stack m m' with
  | zero => rfl
  | succ n ih =>
    have hticks := (prints_tick program stack).traces h
    rw [transcript, transcript, List.filter_append, writes_untraced stack h, next?, next?]
    dsimp only
    generalize tick program stack m = result at hticks
    generalize tick program stack m' = result' at hticks
    cases hticks with
    | error fault h₁ => rfl
    | ok next h₁ =>
      cases next with
      | none => rfl
      | some stack₁ => exact congrArg (_ ++ ·) (ih stack₁ h₁)

/-- The two machines reach the same moments. -/
theorem after?_traces {n : Nat} {stack : List Frame} (h : Traces m m') {c' : Moment}
    (hafter : after? program n ⟨stack, m'⟩ = some c') :
    ∃ m₁, after? program n ⟨stack, m⟩ = some ⟨c'.stack, m₁⟩ ∧ Traces m₁ c'.machine := by
  induction n generalizing stack m m' with
  | zero =>
    cases hafter
    exact ⟨m, rfl, h⟩
  | succ n ih =>
    have hticks := (prints_tick program stack).traces h
    rw [after?, next?] at hafter ⊢
    dsimp only at hafter ⊢
    generalize tick program stack m = result at hticks
    generalize tick program stack m' = result' at hticks hafter
    cases hticks with
    | error fault h₁ => cases hafter
    | ok next h₁ =>
      cases next with
      | none => cases hafter
      | some stack₁ => exact ih h₁ hafter

end Moment

open Machine

/-- A run with the trace on and one with the trace off go on alike and end alike, and leave the same
machine but for the sink. The sink of the first holds its writes one after the other, and that of the
second holds those that are left when the lines of the trace are deleted. -/
theorem trace_only_adds_text (program : List String) (m : Machine) (hm : m.sink.InMemory) :
    let on : Machine := { m with debug := true }
    let off : Machine := { m with debug := false }
    let written (n : Nat) : List Record := (Moment.first on).transcript program n
    (∀ budget, run budget program on = none ↔ run budget program off = none) ∧
    (∀ budget result, run budget program off = some result → ∃ sink : Sink,
      run budget program on = some (mapEndState (withDisplay true sink) result) ∧
      sink.bytes = m.sink.bytes ++ Record.bytes (written budget) ∧
      (endState result).sink.bytes =
        m.sink.bytes ++ Record.bytes ((written budget).filter (!·.isTraced))) ∧
    ∀ n c, Moment.after? program n (.first off) = some c → ∃ sink : Sink,
      Moment.after? program n (.first on) = some ⟨c.stack, c.machine.withDisplay true sink⟩ ∧
      sink.bytes = m.sink.bytes ++ Record.bytes (written n) ∧
      c.machine.sink.bytes =
        m.sink.bytes ++ Record.bytes ((written n).filter (!·.isTraced)) := by
  intro on off written
  have htraces : Traces on.cleared off.cleared := traces_of_inMemory hm
  have halike (budget : Nat) : Option.Rel (EndAlike Traces)
      (run budget program on) (run budget program off) :=
    resume_traces program budget [] htraces
  have hwritten (n : Nat) :
      (written n).filter (!·.isTraced) = (Moment.first off).transcript program n :=
    Moment.transcript_untraced n [] htraces
  refine ⟨fun budget => ?_, fun budget result hoff => ?_, fun n c hoff => ?_⟩
  · have hbudget := halike budget
    generalize run budget program on = traced at hbudget
    generalize run budget program off = untraced at hbudget
    cases hbudget <;> simp
  · have hbudget := halike budget
    rw [hoff] at hbudget
    obtain ⟨traced, hon, hends⟩ : ∃ traced, run budget program on = some traced ∧
        EndAlike Traces traced result := by
      cases hrun : run budget program on with
      | none =>
        rw [hrun] at hbudget
        cases hbudget
      | some traced =>
        rw [hrun] at hbudget
        cases hbudget with
        | some hends => exact ⟨traced, rfl, hends⟩
    refine ⟨(endState traced).sink, ?_, ?_, ?_⟩
    · rw [hon, ← hends.traces_eq]
    · exact Moment.resume_bytes (c := .first on) hm hon
    · rw [hwritten]
      exact Moment.resume_bytes (c := .first off) hm hoff
  · obtain ⟨m₁, hon, h⟩ := Moment.after?_traces htraces hoff
    refine ⟨m₁.sink, ?_, ?_, ?_⟩
    · rw [← h.same]
      exact hon
    · exact Moment.after?_bytes (c := .first on) hm hon
    · rw [hwritten]
      exact Moment.after?_bytes (c := .first off) hm hoff

/-- A macro prints what could be a line of the trace, and then the run fails. Only the lines that the
trace wrote are deleted. -/
theorem printed_lookalike_is_no_trace :
    let program := ["MACRO m", "PRINTSTR \"Line 0\" endl", "END MACRO", "CALL m", "CALL z"]
    ∃ left sink, (Sink.InMemory {}) ∧
      run 20 program { debug := true } =
        some (.error (.missing .macroName "z") (left.withDisplay true sink)) ∧
      sink.bytes = "\nLine 0\n\nLine 3\nLine 0\nLine 0\n\nLine 4\n".toUTF8 ∧
      run 20 program {} = some (.error (.missing .macroName "z") left) ∧
      left.sink.bytes = "Line 0\n".toUTF8 := by
  intro program
  have hmemory : Sink.InMemory {} := ⟨rfl, rfl, rfl⟩
  obtain ⟨left, hoff⟩ : ∃ left, run 20 program {} =
      some (.error (.missing .macroName "z") left) := ⟨_, rfl⟩
  obtain ⟨sink, hon, hsink, hleft⟩ := (trace_only_adds_text program {} hmemory).2.1 20 _ hoff
  refine ⟨left, sink, hmemory, hon, ?_, hoff, ?_⟩
  · rw [hsink]
    decide +kernel
  · refine hleft.trans ?_
    decide +kernel

end LineScript
