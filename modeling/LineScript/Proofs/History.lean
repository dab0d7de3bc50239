import LineScript.Proofs.Printing

/-! Runs do not depend on what came before them. A run begins by forgetting everything but the
settings and the sink, and what a sink already holds makes no difference to what is added. -/

namespace LineScript

/-- A sink that takes everything, can be flushed and raises no alarm. -/
structure Sink.InMemory (sink : Sink) : Prop where
  unlimited : sink.capacity = none
  silent : sink.alarm = none
  flushes : sink.refusesFlush = false

theorem Sink.InMemory.with_bytes {sink : Sink} (h : sink.InMemory) (bytes : ByteArray)
    (flushed : Nat) : Sink.InMemory { sink with bytes := bytes, flushed := flushed } :=
  ⟨h.unlimited, h.silent, h.flushes⟩

namespace Machine

/-- Two results that end alike and leave related machines behind. -/
inductive EndAlike {α : Type} (R : Machine → Machine → Prop) :
    EStateM.Result Fault Machine α → EStateM.Result Fault Machine α → Prop where
  | ok {m m' : Machine} (value : α) (h : R m m') : EndAlike R (.ok value m) (.ok value m')
  | error {m m' : Machine} (fault : Fault) (h : R m m') :
      EndAlike R (.error fault m) (.error fault m')

section EndAlike

variable {α β : Type} {R : Machine → Machine → Prop} {m m' : Machine}

theorem EndAlike.bind {action action' : Exec α} {next next' : α → Exec β}
    (ha : EndAlike R (action m) (action' m'))
    (hn : ∀ value m₁ m₁', R m₁ m₁' → EndAlike R (next value m₁) (next' value m₁')) :
    EndAlike R ((action >>= next) m) ((action' >>= next') m') := by
  generalize hr : action m = result at ha
  generalize hr' : action' m' = result' at ha
  cases ha with
  | ok value h =>
    rw [bind_of_ok hr, bind_of_ok hr']
    exact hn value _ _ h
  | error fault h =>
    rw [bind_of_error hr, bind_of_error hr']
    exact .error fault h

/-- If the ticks of two runs go alike, so do the runs. -/
theorem resume_alike {program : List String}
    (htick : ∀ stack m m', R m m' → EndAlike R (tick program stack m) (tick program stack m'))
    (hunwind : ∀ stack m m', R m m' → R (m.unwind stack) (m'.unwind stack))
    (budget : Nat) (stack : List Frame) (h : R m m') :
    Option.Rel (EndAlike R) (resume program budget stack m) (resume program budget stack m') := by
  induction budget generalizing stack m m' with
  | zero => exact .none
  | succ budget ih =>
    have hticks := htick stack m m' h
    rw [resume, resume]
    generalize tick program stack m = result at hticks
    generalize tick program stack m' = result' at hticks
    cases hticks with
    | error fault h₁ => exact .some (.error fault (hunwind stack _ _ h₁))
    | ok next h₁ =>
      cases next with
      | none => exact .some (.ok () h₁)
      | some stack₁ => exact ih stack₁ h₁

end EndAlike

/-- Two machines that are the same, but for what the first one had printed earlier. -/
structure Beside (earlier : ByteArray) (m m' : Machine) : Prop where
  same : m = m'.withSink m.sink
  bytes : m.sink.bytes = earlier ++ m'.sink.bytes
  inMemory : m.sink.InMemory
  inMemory' : m'.sink.InMemory

section Beside

variable {α : Type} {earlier : ByteArray} {m m' : Machine}

theorem beside_quiet {action : Exec α} (ha : Quiet action) (h : Beside earlier m m') :
    EndAlike (Beside earlier) (action m) (action m') := by
  have hresult : action m = mapEndState (withSink m.sink) (action m') := by
    rw [← ha.withSink_eq m' m.sink, ← h.same]
  -- A quiet action keeps both sinks, so they stay beside each other.
  have hsink := (ha.display_eq m').2
  have hend (m₁ : Machine) (hm₁ : m₁.sink = m'.sink) :
      Beside earlier (m₁.withSink m.sink) m₁ := by
    refine ⟨rfl, ?_, h.inMemory, hm₁ ▸ h.inMemory'⟩
    rw [hm₁]
    exact h.bytes
  rw [hresult]
  cases hr : action m' with
  | ok value m₁ =>
    rw [hr] at hsink
    exact .ok value (hend m₁ hsink)
  | error fault m₁ =>
    rw [hr] at hsink
    exact .error fault (hend m₁ hsink)

/-- To a sink that takes everything a text is simply added. -/
theorem put_inMemory (text : String) (hm : m.sink.InMemory) :
    put text m = .ok () (m.withSink { m.sink with bytes := m.sink.bytes ++ text.toUTF8 }) := by
  have hall := Sink.fitting_of_unlimited hm.unlimited text.toUTF8
  have hquiet : m.sink.rings text.toUTF8 = false := by
    simp only [Sink.rings, hm.silent, Option.any_none, Bool.and_false]
  rw [put_eq, if_pos (Sink.holds_of_fitting_eq hall)]
  simp only [printed, hquiet, Bool.or_false, Sink.store, hall, withSink]

theorem printing_put_inMemory (text : String) (hm : m.sink.InMemory) :
    printing (put text) m =
      .ok () (m.withSink { m.sink with bytes := m.sink.bytes ++ text.toUTF8 }) := by
  rw [printing, EStateM.adaptExcept, put_inMemory text hm]

theorem beside_put (text : String) (h : Beside earlier m m') :
    EndAlike (Beside earlier) (printing (put text) m) (printing (put text) m') := by
  rw [printing_put_inMemory text h.inMemory, printing_put_inMemory text h.inMemory']
  refine .ok () ⟨?_, ?_, h.inMemory.with_bytes _ _, h.inMemory'.with_bytes _ _⟩
  · rw [h.same]
    rfl
  · change m.sink.bytes ++ text.toUTF8 = earlier ++ (m'.sink.bytes ++ text.toUTF8)
    rw [h.bytes, ByteArray.append_assoc]

/-- Whatever prints adds the same to both sinks. -/
theorem Prints.beside {action : Exec α} (ha : Prints action) (h : Beside earlier m m') :
    EndAlike (Beside earlier) (action m) (action m') := by
  induction ha generalizing m m' with
  | quiet hq => exact beside_quiet hq h
  | put text => exact beside_put text h
  | trace text =>
    have hdebug : m.debug = m'.debug := by
      rw [h.same]
      rfl
    rw [trace_eq, trace_eq, hdebug]
    split
    · exact beside_put text h
    · exact .ok () h
  | flush =>
    rw [printing_flush, printing_flush, h.inMemory.flushes, h.inMemory'.flushes]
    refine .ok () ⟨?_, h.bytes, h.inMemory.with_bytes _ _, h.inMemory'.with_bytes _ _⟩
    rw [h.same]
    rfl
  | bind ha hn iha ihn => exact .bind (iha h) fun value _ _ h₁ => ihn value h₁

/-- Two machines that are beside each other run a program to the same end, and stay so. -/
theorem run_beside (program : List String) (budget : Nat)
    (h : Beside earlier m.cleared m'.cleared) :
    Option.Rel (EndAlike (Beside earlier)) (run budget program m) (run budget program m') := by
  apply resume_alike
  · intro stack m₁ m₁' hb
    exact (prints_tick program stack).beside hb
  · intro stack m₁ m₁' hb
    refine ⟨?_, hb.bytes, hb.inMemory, hb.inMemory'⟩
    rw [hb.same]
    rfl
  · exact h

/-- A machine that was used before, and a new one with the same settings. -/
theorem beside_new (hm : m.sink.InMemory) :
    Beside m.sink.bytes m.cleared
      (cleared { debug := m.debug, jumpLimit := m.jumpLimit, interrupted := m.interrupted }) := by
  refine ⟨rfl, ?_, hm, ⟨rfl, rfl, rfl⟩⟩
  exact ByteArray.append_empty.symm

/-- A run that succeeds leaves nothing behind but the settings and the sink. -/
theorem cleared_of_resume {program : List String} {budget : Nat} {stack : List Frame}
    (h : resume program budget stack m = some (.ok () m')) : m' = m'.cleared := by
  induction budget generalizing stack m with
  | zero => cases h
  | succ budget ih =>
    rw [resume] at h
    cases ht : tick program stack m with
    | error fault m₁ =>
      rw [ht] at h
      cases h
    | ok next m₁ =>
      rw [ht] at h
      cases next with
      | some stack₁ => exact ih h
      | none =>
        cases h
        cases stack with
        | nil =>
          have hticked := nextLine_ticked program m
          rw [ht] at hticked
          cases hticked
          rfl
        | cons frame stack =>
          -- Only the end of the program ends a run, and it is not reached above a frame.
          cases hf : frame.tick m with
          | ok frames m₂ =>
            rw [tick_cons_of_ok program stack hf] at ht
            cases ht
          | error fault m₂ =>
            rw [tick_cons_of_error program stack hf] at ht
            cases ht

end Beside

end Machine

/-- Whatever an earlier use left behind, a run has the same result and adds the same to the sink as
on a new machine with the same settings, and if it succeeds, it leaves everything empty. -/
theorem runs_do_not_depend_on_history (program : List String) (m : Machine)
    (hm : m.sink.InMemory) :
    let new : Machine :=
      { debug := m.debug, jumpLimit := m.jumpLimit, interrupted := m.interrupted }
    (∀ budget, Machine.run budget program m = none ↔ Machine.run budget program new = none) ∧
    (∀ budget result, Machine.run budget program new = some result → ∃ sink : Sink,
      sink.bytes = m.sink.bytes ++ (Machine.endState result).sink.bytes ∧
      Machine.run budget program m = some (Machine.mapEndState (Machine.withSink sink) result)) ∧
    ∀ budget m', Machine.run budget program m = some (.ok () m') →
      m'.vars = {} ∧ m'.macros = {} ∧ m'.labels = {} ∧ m'.pending = none ∧ m'.ip = 0 := by
  intro new
  have halike (budget : Nat) : Option.Rel (Machine.EndAlike (Machine.Beside m.sink.bytes))
      (Machine.run budget program m) (Machine.run budget program new) := by
    apply Machine.resume_alike
    · intro stack m₁ m₁' h
      exact (Machine.prints_tick program stack).beside h
    · intro stack m₁ m₁' h
      refine ⟨?_, h.bytes, h.inMemory, h.inMemory'⟩
      rw [h.same]
      rfl
    · exact Machine.beside_new hm
  refine ⟨fun budget => ?_, fun budget result hnew => ?_, fun budget m' hrun => ?_⟩
  · have hbudget := halike budget
    generalize Machine.run budget program m = used at hbudget
    generalize Machine.run budget program new = unused at hbudget
    cases hbudget <;> simp
  · have hbudget := halike budget
    rw [hnew] at hbudget
    generalize Machine.run budget program m = used at hbudget
    cases hbudget with
    | some hends =>
      cases hends with
      | ok value h => exact ⟨_, h.bytes, congrArg (some ∘ EStateM.Result.ok value) h.same⟩
      | error fault h => exact ⟨_, h.bytes, congrArg (some ∘ EStateM.Result.error fault) h.same⟩
  · rw [Machine.cleared_of_resume hrun]
    exact ⟨rfl, rfl, rfl, rfl, rfl⟩

/-- The first run fails inside a macro and leaves a variable, a macro and an unfinished line behind.
The second one declares the variable anew. -/
theorem variable_of_a_failed_run_is_forgotten :
    let failing := ["MACRO m", "PRINTSTR \"a\"", "IF n > 1", "CALL z", "END IF", "END MACRO",
      "INT n = 7", "CALL m"]
    let program := ["INT n = 2", "PRINTVAR n"]
    ∃ used m', Machine.run 30 failing {} = some (.error (.missing .macroName "z") used) ∧
      used.vars.ints.get? "n" = some 7 ∧ used.macros.contains "m" = true ∧ used.ip = 7 ∧
      used.sink.InMemory ∧ Machine.run 30 program used = some (.ok () m') ∧
      m'.sink.bytes = "a2".toUTF8 := by
  intro failing program
  obtain ⟨used, hfails, hsettings, hn, hmacro, hip, hmemory, hbytes⟩ : ∃ used,
      Machine.run 30 failing {} = some (.error (.missing .macroName "z") used) ∧
      (used.debug = false ∧ used.jumpLimit = defaultJumpLimit ∧ used.interrupted = false) ∧
      used.vars.ints.get? "n" = some 7 ∧ used.macros.contains "m" = true ∧ used.ip = 7 ∧
      used.sink.InMemory ∧ used.sink.bytes = "a".toUTF8 :=
    ⟨_, rfl, ⟨rfl, rfl, rfl⟩, by decide +kernel, by decide +kernel, rfl, ⟨rfl, rfl, rfl⟩,
      by decide +kernel⟩
  obtain ⟨m₁, hnew, hadded⟩ : ∃ m₁, Machine.run 30 program {} = some (.ok () m₁) ∧
      m₁.sink.bytes = "2".toUTF8 := ⟨_, rfl, by decide +kernel⟩
  have hhistory := (runs_do_not_depend_on_history program used hmemory).2.1
  rw [hsettings.1, hsettings.2.1, hsettings.2.2] at hhistory
  obtain ⟨sink, hsink, hrun⟩ := hhistory 30 _ hnew
  refine ⟨used, m₁.withSink sink, hfails, hn, hmacro, hip, hmemory, hrun, ?_⟩
  calc
    (m₁.withSink sink).sink.bytes = used.sink.bytes ++ m₁.sink.bytes := hsink
    _ = "a".toUTF8 ++ "2".toUTF8 := by rw [hbytes, hadded]
    _ = "a2".toUTF8 := by decide +kernel

end LineScript
