import LineScript.Proofs.Ahead
import LineScript.Proofs.History
import LineScript.Proofs.JumpGuard

/-! The pending block. There is one place for the block about to be executed, whatever the nesting. A
header fills it and, once the guard lets it pass, empties it before anything of the body is executed.
So no block is pending between two statements, and only a header that the guard stops leaves its block
behind. -/

namespace LineScript

namespace Machine

variable {scope : Scope} {line : String} {rest : List String} {m m' : Machine} {frames : List Frame}
  {span : Nat} {block : Block} {fault : Fault}

/-- A line is the header of a block that is executed at once, given the lines after it. -/
def Heads (scope : Scope) (line : String) (rest : List String) (m : Machine) (block : Block) : Prop :=
  ∃ statement, Statement.read (m.vars.isString scope) line = .ok statement ∧
    statement.opens? = some block.kind ∧ block.kind ≠ .macroBlock ∧
    block.body = block.kind.body rest

/-- The header of a block is executed with the body of the block pending. -/
theorem start_of_opens? {kind : BlockKind} {statement : Statement} (rest : List String)
    (hr : Statement.read (m.vars.isString scope) line = .ok statement)
    (ho : statement.opens? = some kind) (hk : kind ≠ .macroBlock) :
    start scope line rest m = (execute scope statement >>= fun frames =>
      pure (frames, blockSpan (kind.body rest)))
        { m with pending := some ⟨kind, kind.body rest⟩ } := by
  cases statement with
  | ifHeader condition =>
    cases ho
    exact start_of_ifHeader rest hr
  | forHeader header =>
    cases ho
    exact start_of_forHeader rest hr
  | macroHeader name =>
    cases ho
    exact absurd rfl hk
  | _ => cases ho

/-- A statement that opens no block leaves the pending block alone. -/
theorem execute_pending (scope : Scope) {statement : Statement} (ho : statement.opens? = none)
    (m : Machine) : (endState (execute scope statement m)).pending = m.pending := by
  rcases free_or_stopped m with hf | ⟨fault, hstop⟩
  · cases hs : statement.isPlain with
    | true =>
      obtain ⟨action, ⟨hplain, _⟩, he⟩ := execute_plain hf scope hs
      rw [he]
      cases hr : action m with
      | ok frames m' =>
        obtain ⟨_, _, _, rfl⟩ := (hplain m).1 frames m' hr
        rfl
      | error fault m' =>
        obtain ⟨⟨_, _, _, rfl⟩, _⟩ := (hplain m).2 fault m' hr
        rfl
    | false =>
      cases statement with
      | call name =>
        rcases execute_call hf scope name with ⟨_, _, _, he⟩ | ⟨_, _, he⟩ <;> rw [he] <;> rfl
      | label name =>
        rw [execute_label hf scope name]
        rfl
      | goto name =>
        rcases execute_goto hf scope name with ⟨_, _, _, he⟩ | ⟨_, _, he⟩ <;> rw [he] <;> rfl
      | ifHeader condition => cases ho
      | forHeader header => cases ho
      | _ => cases hs
  · rw [execute_of_stopped hstop]
    rfl

/-- The header of a block takes the pending block when the guard lets it pass, also if it fails
then. -/
theorem execute_header_pending (hf : Free m) (scope : Scope) {statement : Statement}
    (ho : statement.opens? = some block.kind) (hk : block.kind ≠ .macroBlock) :
    (endState (execute scope statement { m with pending := some block })).pending = none := by
  obtain ⟨kind, body⟩ := block
  cases statement with
  | ifHeader condition =>
    cases ho
    rcases execute_ifHeader (m := { m with pending := some ⟨.ifBlock, body⟩ }) hf scope condition
      rfl with he | he | ⟨_, _, he⟩ <;> rw [he] <;> rfl
  | forHeader header =>
    cases ho
    have he := execute_forHeader (m := { m with pending := some ⟨.forBlock, body⟩ }) hf scope
      header rfl
    rw [he]
    rfl
  | macroHeader name =>
    cases ho
    exact absurd rfl hk
  | _ => cases ho

/-- A line that is no such header does nothing to the pending block. -/
theorem start_pending_of_not_heads (h : ∀ block, ¬ Heads scope line rest m block) :
    (endState (start scope line rest m)).pending = m.pending := by
  cases hr : Statement.read (m.vars.isString scope) line with
  | error cause =>
    rw [start_of_unreadable rest hr]
    rfl
  | ok statement =>
    cases ho : statement.opens? with
    | none =>
      rw [start_of_opens?_eq_none rest hr ho, endState_bind_pure _ (fun frames => (frames, 1)) m]
      exact execute_pending scope ho m
    | some kind =>
      by_cases hk : kind = .macroBlock
      · subst hk
        cases statement <;> cases ho
        rw [start_of_macroHeader rest hr]
        rfl
      · exact absurd ⟨statement, hr, ho, hk, rfl⟩ (h ⟨kind, kind.body rest⟩)

/-- Where the guard lets a header pass, the header leaves nothing pending. -/
theorem Heads.pending_of_free (h : Heads scope line rest m block) (hf : Free m) :
    (endState (start scope line rest m)).pending = none := by
  obtain ⟨statement, hr, ho, hk, hbody⟩ := h
  rw [start_of_opens? rest hr ho hk, ← hbody,
    endState_bind_pure _ (fun frames => (frames, blockSpan block.body))]
  exact execute_header_pending hf scope ho hk

/-- Where the guard stops a header, the header has done nothing but fill the place. -/
theorem Heads.start_of_stopped (h : Heads scope line rest m block) (hs : Stopped m fault) :
    start scope line rest m = .error fault { m with pending := some block } := by
  obtain ⟨statement, hr, ho, hk, hbody⟩ := h
  rw [start_of_opens? rest hr ho hk, ← hbody]
  exact bind_of_error (execute_of_stopped (m := { m with pending := some block }) hs scope _)

/-- If a line leaves a block pending, it is the header of that block, and the guard has stopped it. -/
theorem start_pending_iff (hm : m.pending = none) :
    (endState (start scope line rest m)).pending = some block ↔
      Heads scope line rest m block ∧ ∃ fault, Stopped m fault := by
  constructor
  · intro h
    by_cases hheads : ∃ other, Heads scope line rest m other
    · obtain ⟨other, hother⟩ := hheads
      rcases free_or_stopped m with hf | ⟨fault, hstop⟩
      · rw [hother.pending_of_free hf] at h
        cases h
      · rw [hother.start_of_stopped hstop] at h
        cases h
        exact ⟨hother, fault, hstop⟩
    · rw [start_pending_of_not_heads fun other hother => hheads ⟨other, hother⟩, hm] at h
      cases h
  · rintro ⟨hheads, fault, hstop⟩
    rw [hheads.start_of_stopped hstop]
    rfl

theorem pending_of_start_error (hm : m.pending = none)
    (h : start scope line rest m = .error fault m') :
    m'.pending = some block ↔ Heads scope line rest m block ∧ Stopped m fault := by
  have hiff : (endState (start scope line rest m)).pending = some block ↔ _ := start_pending_iff hm
  rw [h] at hiff
  refine hiff.trans ⟨?_, fun ⟨hheads, hstop⟩ => ⟨hheads, fault, hstop⟩⟩
  rintro ⟨hheads, other, hstop⟩
  -- The line fails with the fault of the guard, and not with another one.
  have hstart := hheads.start_of_stopped hstop
  rw [h] at hstart
  cases hstart
  exact ⟨hheads, hstop⟩

theorem Started.pending_eq (h : Started scope line rest m frames span m') (hm : m.pending = none) :
    m'.pending = none := by
  cases h with
  | plain hr hs hf hsame =>
    obtain ⟨vars, interrupted, sink, rfl⟩ := hsame
    exact hm
  | skipped hr hf => rfl
  | entered hr hf => rfl
  | looped hr hf => rfl
  | _ => exact hm

end Machine

theorem Frame.Ticked.pending_eq {frame : Frame} {frames : List Frame} {m m' : Machine}
    (h : frame.Ticked m frames m') (hm : m.pending = none) : m'.pending = none := by
  cases h with
  | bodyLine hs => exact hs.pending_eq hm
  | callLine hs => exact hs.pending_eq ((Machine.traced_pending _ m).trans hm)
  | _ => exact hm

/-- Work that is done to its end leaves nothing pending. -/
theorem Machine.pending_of_complete {budget : Nat} {stack : List Frame} {m m' : Machine}
    (hm : m.pending = none) (h : complete budget stack m = some (.ok () m')) :
    m'.pending = none := by
  induction budget generalizing stack m with
  | zero =>
    cases stack with
    | nil =>
      cases h
      exact hm
    | cons frame stack => cases h
  | succ budget ih =>
    cases stack with
    | nil =>
      cases h
      exact hm
    | cons frame stack =>
      rw [complete] at h
      cases ht : frame.tick m with
      | error fault m₁ =>
        rw [ht] at h
        cases h
      | ok frames m₁ =>
        rw [ht] at h
        exact ih ((Frame.ticked_of_tick ht).pending_eq hm) h

namespace Moment

open Machine

variable {program : List String} {c c' : Moment} {block : Block} {fault : Fault}

/-- The next tick comes to the header of a block, and the guard stops it there. -/
def StopsAtHeader (program : List String) (c : Moment) (fault : Fault) (block : Block) : Prop :=
  ∃ scope line rest, c.ahead? program = some (scope, line :: rest) ∧
    Heads scope line rest (c.ready program) block ∧ (c.ready program).Stopped fault

theorem pending_of_steps (hs : Steps program c c') (hc : c.machine.pending = none) :
    c'.machine.pending = none := by
  cases hs with
  | frame ht => exact ht.pending_eq hc
  | line hd h => exact h.pending_eq ((lineReady_pending _).trans hc)

theorem always_pending (program : List String) (m : Machine) :
    Always program (fun c => c.machine.pending = none) (first m) :=
  always_of_steps (fun _ _ => pending_of_steps) rfl

theorem ready_pending (program : List String) (c : Moment) :
    (c.ready program).pending = c.machine.pending := by
  obtain ⟨jumped, interrupted, sink, he, _⟩ := readied_ready program c
  rw [he]

/-- A tick that begins no line does nothing to the pending block, unless it ends the run. -/
theorem Lineless.pending_tick (hl : c.Lineless program) (hc : c.machine.pending = none) :
    (endState (tick program c.stack c.machine)).pending = none := by
  have hticked := ticked program c
  generalize endState (tick program c.stack c.machine) = m at hticked
  cases hticked with
  | begins ha => exact absurd ha (hl _ _ _)
  | untraced ha ht => exact absurd ha (hl _ _ _)
  | passes _ hb => exact hc
  | moves _ hm hp =>
    obtain ⟨ip, depth, rfl⟩ := hm
    exact hc
  | ends _ ht => rfl

/-- A tick that fails leaves a block pending if and only if the guard stops it at the header of the
block. -/
theorem pending_of_tick_error {m' : Machine} (hc : c.machine.pending = none)
    (h : tick program c.stack c.machine = .error fault m') :
    m'.pending = some block ↔ c.StopsAtHeader program fault block := by
  by_cases hl : c.Lineless program
  · have hnone := hl.pending_tick hc
    rw [h] at hnone
    have hempty : m'.pending = none := hnone
    rw [hempty]
    refine ⟨fun hb => (nomatch hb), ?_⟩
    rintro ⟨scope, line, rest, ha, _⟩
    exact absurd ha (hl scope line rest)
  · simp only [Lineless, not_forall, not_not] at hl
    obtain ⟨scope, line, rest, ha⟩ := hl
    have hready := (ready_pending program c).trans hc
    -- There is only one line in front.
    have hiff : c.StopsAtHeader program fault block ↔
        Heads scope line rest (c.ready program) block ∧ (c.ready program).Stopped fault := by
      refine ⟨?_, fun hstop => ⟨scope, line, rest, ha, hstop⟩⟩
      rintro ⟨scope', line', rest', ha', hstop⟩
      rw [ha] at ha'
      cases ha'
      exact hstop
    rw [hiff]
    rcases tick_of_ahead ha with ⟨below, ht⟩ | ⟨text, ht⟩
    · rw [h] at ht
      cases hs : start scope line rest (c.ready program) with
      | ok begun m₁ =>
        rw [bind_of_ok hs] at ht
        cases ht
      | error cause m₁ =>
        rw [bind_of_error hs] at ht
        cases ht
        exact pending_of_start_error hready hs
    · -- The trace could not be printed, which is not a matter of the guard.
      rw [h] at ht
      cases ht
      rw [traced_pending, hc]
      refine ⟨fun hb => (nomatch hb), fun ⟨_, hstop⟩ => ?_⟩
      have hguard := hstop.isGuard
      cases hguard

end Moment

open Machine

/-- No block is pending before a line begins, at any level, nor after it has begun, nor when all its
work is done. After a failed run a block is pending if and only if the guard has stopped the run at the
header of that block, be it for an interrupt or for too many jumps. -/
theorem only_a_stopped_header_leaves_its_block (program : List String) (m : Machine) :
    (∀ n c, Moment.after? program n (.first m) = some c →
      c.machine.pending = none ∧ (c.ready program).pending = none ∧
      ∀ scope line rest frames span m', c.ahead? program = some (scope, line :: rest) →
        start scope line rest (c.ready program) = .ok (frames, span) m' →
        m'.pending = none ∧
        ∀ budget m'', complete budget frames m' = some (.ok () m'') → m''.pending = none) ∧
    (∀ budget m', run budget program m = some (.ok () m') → m'.pending = none) ∧
    ∀ budget fault m', run budget program m = some (.error fault m') →
      (∀ block, m'.pending = some block ↔
        ∃ n c m₁, Moment.after? program n (.first m) = some c ∧
          tick program c.stack c.machine = .error fault m₁ ∧ m' = m₁.unwind c.stack ∧
          c.StopsAtHeader program fault block) ∧
      (m'.pending ≠ none →
        fault = .terminated ∨ ∃ name, fault = .tooMany (.jumps name) m.jumpLimit) := by
  refine ⟨?_, ?_, ?_⟩
  · intro n c hn
    have hc : c.machine.pending = none := Moment.always_pending program m n c hn
    have hready := (Moment.ready_pending program c).trans hc
    refine ⟨hc, hready, fun scope line rest frames span m' ha hs => ?_⟩
    have hm' := (started_of_start hs).pending_eq hready
    exact ⟨hm', fun budget m'' hcomplete => pending_of_complete hm' hcomplete⟩
  · intro budget m' hrun
    rw [cleared_of_resume hrun]
    rfl
  · intro budget fault m' hrun
    obtain ⟨n, c, m₁, hn, ht, rfl⟩ := Moment.exists_failing_tick (c := .first m) hrun
    have hc : c.machine.pending = none := Moment.always_pending program m n c hn
    refine ⟨fun block => ⟨fun hb => ?_, ?_⟩, fun hb => ?_⟩
    · exact ⟨n, c, m₁, hn, ht, rfl, (Moment.pending_of_tick_error hc ht).mp hb⟩
    · rintro ⟨n', c', m₁', hn', ht', he, hstop⟩
      have hc' : c'.machine.pending = none := Moment.always_pending program m n' c' hn'
      rw [he]
      exact (Moment.pending_of_tick_error hc' ht').mpr hstop
    · obtain ⟨block, hblock⟩ := Option.ne_none_iff_exists'.mp hb
      obtain ⟨scope, line, rest, _, _, hstop⟩ := (Moment.pending_of_tick_error hc ht).mp hblock
      have hsettings := Moment.settings_of_after? m hn
      obtain ⟨jumped, interrupted, sink, hready, _⟩ := Moment.readied_ready program c
      rcases hstop with ⟨_, rfl⟩ | ⟨_, hcheck⟩
      · exact Or.inl rfl
      · rw [hready] at hcheck
        rw [LabelTable.check_eq] at hcheck
        split at hcheck <;> cases hcheck
        rw [← hsettings.1]
        exact Or.inr ⟨_, rfl⟩

/-- The flag is raised by a text printed in the first pass of a loop inside a macro, and stops the run
at the header of a block in that loop. -/
theorem interrupted_loop_leaves_the_block_inside_it :
    let program := ["MACRO m", "FOR i FROM 1 TO 2", "PRINTSTR \"a\"", "IF i == 1", "PRINTSTR \"b\"",
      "END IF", "END FOR", "END MACRO", "CALL m"]
    let m : Machine := { sink := { alarm := some 1 } }
    ∃ m', run 20 program m = some (.error .terminated m') ∧
      m'.pending = some ⟨.ifBlock, ["PRINTSTR \"b\""]⟩ ∧
      ∃ n c, Moment.after? program n (.first m) = some c ∧ c.machine.pending = none ∧
        c.StopsAtHeader program .terminated ⟨.ifBlock, ["PRINTSTR \"b\""]⟩ := by
  intro program m
  obtain ⟨m', hrun, hpending⟩ : ∃ m', run 20 program m = some (.error .terminated m') ∧
      m'.pending = some ⟨.ifBlock, ["PRINTSTR \"b\""]⟩ := ⟨_, rfl, by decide +kernel⟩
  obtain ⟨hbetween, _, hfailed⟩ := only_a_stopped_header_leaves_its_block program m
  obtain ⟨n, c, _, hn, _, _, hstop⟩ := ((hfailed 20 .terminated m' hrun).1 _).mp hpending
  exact ⟨m', hrun, hpending, n, c, hn, (hbetween n c hn).1, hstop⟩

end LineScript
