import LineScript.Proofs.JumpGuard

/-! Where control goes. A program line may jump several times, from any depth of bodies and calls,
before it is done. The last of these jumps decides which line comes next, and it is also where the
machine stands if the line fails. -/

namespace LineScript

/-- The number of lines that a line takes, given the lines after it. -/
def spanOf (line : String) (rest : List String) : Nat :=
  match Statement.opened? line with
  | some kind => blockSpan (kind.body rest)
  | none => 1

/-- The number of lines that the program line at an index takes. -/
def lineSpan (program : List String) (index : Nat) : Nat :=
  match program.drop index with
  | [] => 0
  | line :: rest => spanOf line rest

namespace LabelTable

variable {labels labels' : LabelTable} {name : String} {index bound : Nat}

/-- All labels stand before an index. -/
def Below (labels : LabelTable) (bound : Nat) : Prop :=
  ∀ name label, labels.get? name = some label → label.index < bound

theorem below_insert (h : labels.Below bound) (name : String) {label : Label}
    (hlabel : label.index < bound) : Below ⟨labels.table.insert name label⟩ bound := by
  intro other found hfound
  by_cases hname : other = name
  · have hself : (labels.table.insert name label).get? other = some label := by
      rw [hname, Table.get?_insert_self]
    obtain rfl : label = found := Option.some.inj (hself.symm.trans hfound)
    exact hlabel
  · have hother := Table.get?_insert_of_ne labels.table hname label
    exact h other found (hother.symm.trans hfound)

theorem below_jump (h : labels.Below bound) (hj : labels.jump name = .ok (index, labels')) :
    index < bound ∧ labels'.Below bound := by
  obtain ⟨label, hl, rfl, rfl⟩ := exists_of_jump hj
  have hlabel := h name label hl
  exact ⟨hlabel, below_insert h name hlabel⟩

end LabelTable

namespace Machine

variable {scope : Scope} {line : String} {rest : List String} {m m' : Machine}
  {frames : List Frame} {span : Nat}

/-- Where a line jumps to: the index that its label has at present. -/
def target? (scope : Scope) (m : Machine) (line : String) : Option Nat :=
  match Statement.read (m.vars.isString scope) line with
  | .ok (.goto name) => (m.labels.get? name).map Label.index
  | _ => none

theorem target?_traced (scope : Scope) (text : String) (m : Machine) :
    target? scope (m.traced text) = target? scope m := by
  funext line
  simp only [target?, traced_vars, traced_labels]

theorem target?_lineReady (scope : Scope) (m : Machine) :
    target? scope m.lineReady = target? scope m := by
  funext line
  simp only [target?, lineReady_vars, lineReady_labels]

/-- The machine has gone to the target, or stayed where it was if there is none. -/
structure Follows (target : Option Nat) (m m' : Machine) : Prop where
  ip : m'.ip = target.getD m.ip
  jumped : m'.jumped = (target.isSome || m.jumped)

theorem Started.follows (h : Started scope line rest m frames span m') :
    Follows (m.target? scope line) m m' := by
  have hstays {statement : Statement} {m' : Machine}
      (hr : Statement.read (m.vars.isString scope) line = .ok statement)
      (hg : ∀ name, statement ≠ .goto name) (hip : m'.ip = m.ip) (hj : m'.jumped = m.jumped) :
      Follows (m.target? scope line) m m' := by
    have hnone : m.target? scope line = none := by
      rw [target?, hr]
      cases statement with
      | goto name => exact absurd rfl (hg name)
      | _ => rfl
    rw [hnone]
    exact ⟨hip, hj⟩
  cases h with
  | defined hr => exact hstays hr (by simp) rfl rfl
  | plain hr hs hf hsame =>
    obtain ⟨vars, interrupted, sink, rfl⟩ := hsame
    refine hstays hr (fun name he => ?_) rfl rfl
    rw [he] at hs
    cases hs
  | skipped hr hf => exact hstays hr (by simp) rfl rfl
  | entered hr hf => exact hstays hr (by simp) rfl rfl
  | looped hr hf => exact hstays hr (by simp) rfl rfl
  | called hr hf hb hd => exact hstays hr (by simp) rfl rfl
  | labelled hr hf => exact hstays hr (by simp) rfl rfl
  | jumped hr hf hj =>
    -- The jump is counted, but the label stays where it is.
    obtain ⟨label, hl, rfl, rfl⟩ := LabelTable.exists_of_jump hj
    have htarget : m.target? scope line = some label.index := by
      simp only [target?, hr, hl, Option.map_some]
    rw [htarget]
    exact ⟨rfl, rfl⟩

theorem Started.span_eq (h : Started scope line rest m frames span m') :
    span = spanOf line rest := by
  have hspan {statement : Statement}
      (hr : Statement.read (m.vars.isString scope) line = .ok statement) :
      spanOf line rest =
        match statement.opens? with
        | some kind => blockSpan (kind.body rest)
        | none => 1 := by
    rw [spanOf, Statement.opened?_eq_opens? hr]
  cases h with
  | defined hr => exact (hspan hr).symm
  | plain hr hs hf hsame ho => rw [hspan hr, ho]
  | skipped hr hf => exact (hspan hr).symm
  | entered hr hf => exact (hspan hr).symm
  | looped hr hf => exact (hspan hr).symm
  | called hr hf hb hd => exact (hspan hr).symm
  | labelled hr hf => exact (hspan hr).symm
  | jumped hr hf hj => exact (hspan hr).symm

/-- Labels are put where the machine stands, and it moves only to labels. -/
theorem LabelMove.below {declaring : Prop} {bound : Nat} (h : LabelMove declaring m m')
    (hip : m.ip < bound) (hlabels : m.labels.Below bound) :
    m'.ip < bound ∧ m'.labels.Below bound := by
  cases h with
  | stays hl hi hj =>
    rw [hl, hi]
    exact ⟨hip, hlabels⟩
  | declared hd hw name hl hi hj =>
    rw [hl, hi]
    exact ⟨hip, LabelTable.below_insert hlabels name hip⟩
  | jumped hw hjump hl hi hj =>
    rw [hl, hi]
    exact LabelTable.below_jump hlabels hjump

theorem TickFailed.ip_eq {fault : Fault} (h : TickFailed m fault m') : m'.ip = m.ip := by
  obtain ⟨_, _, _, _, _, rfl⟩ := h.exists_eq
  rfl

theorem fault_of_tick_ended {program : List String} {fault : Fault}
    (hend : program.length ≤ m.ip) (h : tick program [] m = .error fault m') :
    fault = .output .flushFailed ∧ m' = m := by
  rw [tick_of_ended (List.drop_eq_nil_of_le hend)] at h
  split at h
  · cases h
    exact ⟨rfl, rfl⟩
  · cases h

end Machine

namespace Frame

/-- Where the next line of a frame jumps to. -/
def target? (m : Machine) : Frame → Option Nat
  | body scope (text :: _) => m.target? scope text
  | call _ (text :: _) => m.target? .inMacro text
  | _ => none

variable {frame : Frame} {m m' : Machine} {frames : List Frame}

theorem Ticked.follows (h : frame.Ticked m frames m') (hn : frame.isNested = true) :
    m.Follows (frame.target? m) m' := by
  cases h with
  | line => cases hn
  | bodyLine hs => exact hs.follows
  | callLine hs =>
    -- The trace comes first, and changes nothing that the jump depends on.
    have hf := hs.follows
    rw [Machine.target?_traced] at hf
    exact ⟨hf.ip.trans (by rw [Machine.traced_ip]; rfl),
      hf.jumped.trans (by rw [Machine.traced_jumped]; rfl)⟩
  | _ => exact ⟨rfl, rfl⟩

end Frame

namespace Moment

variable {program : List String} {c c' : Moment}

/-- Where the next tick jumps to, if it executes a jump. -/
def target? (program : List String) (c : Moment) : Option Nat :=
  match c.stack with
  | [] => (program[c.machine.ip]?).bind (c.machine.target? .global)
  | frame :: _ => frame.target? c.machine

/-- The moment after some ticks of the program line that begins now, and the indices that these
ticks jumped to. There is none once the line is done. -/
def within? (program : List String) : Nat → Moment → Option (List Nat × Moment)
  | 0, c => some ([], c)
  | n + 1, c => do
    let (targets, now) ← within? program n c
    let later ← now.next? program
    if later.stack = [] then none else some (targets ++ (now.target? program).toList, later)

/-- The program line at which a machine stands is executed to its end, with jumps to the given
indices on the way. -/
def LineDone (program : List String) (m : Machine) (targets : List Nat) (m' : Machine) : Prop :=
  ∃ n before c, within? program n ⟨[], m⟩ = some (before, c) ∧
    c.next? program = some ⟨[], m'⟩ ∧ targets = before ++ (c.target? program).toList

/-- The program line at which a machine stands fails, after jumps to the given indices. -/
def LineFails (program : List String) (m : Machine) (targets : List Nat) (fault : Fault)
    (m' : Machine) : Prop :=
  ∃ n c m₁, within? program n ⟨[], m⟩ = some (targets, c) ∧
    Machine.tick program c.stack c.machine = .error fault m₁ ∧ m' = m₁.unwind c.stack

theorem within?_succ {n : Nat} {targets : List Nat}
    (h : within? program (n + 1) c = some (targets, c')) :
    ∃ before now, within? program n c = some (before, now) ∧ now.next? program = some c' ∧
      c'.stack ≠ [] ∧ targets = before ++ (now.target? program).toList := by
  rw [within?] at h
  obtain ⟨⟨before, now⟩, hw, h⟩ := Option.bind_eq_some_iff.mp h
  obtain ⟨later, hnext, h⟩ := Option.bind_eq_some_iff.mp h
  by_cases hstack : later.stack = []
  · rw [if_pos hstack] at h
    cases h
  · rw [if_neg hstack] at h
    cases h
    exact ⟨before, now, hw, hnext, hstack, rfl⟩

/-- What is known in the middle of the program line at which a machine stood: the frames are those
above the line, and the place is where the last jump led. -/
structure InLine (program : List String) (m : Machine) (targets : List Nat) (c : Moment) :
    Prop where
  inside : m.ip < program.length
  stack : Frame.AboveLine m.ip (lineSpan program m.ip) c.stack
  ip : c.machine.ip = targets.getLast?.getD m.ip
  jumped : c.machine.jumped = targets.getLast?.isSome

theorem getLast?_toList (target : Option Nat) : target.toList.getLast? = target := by
  cases target with
  | none => rfl
  | some index => rfl

theorem getLast?_append_toList (targets : List Nat) (target : Option Nat) :
    (targets ++ target.toList).getLast? = target.or targets.getLast? := by
  rw [List.getLast?_append, getLast?_toList]

variable {m m' : Machine} {targets : List Nat}

theorem inLine_of_begun (h : next? program ⟨[], m⟩ = some c) :
    InLine program m (target? program ⟨[], m⟩).toList c := by
  have hs := steps_of_next? h
  cases hs with
  | line hd hstarted =>
    rename_i line rest frames span m'
    have htarget : target? program ⟨[], m⟩ = m.lineReady.target? .global line := by
      have hline : program[m.ip]? = some line := by
        rw [← List.head?_drop, hd, List.head?_cons]
      rw [Machine.target?_lineReady]
      simp only [target?, hline, Option.bind_some]
    have hlast : (target? program ⟨[], m⟩).toList.getLast? = m.lineReady.target? .global line := by
      rw [getLast?_toList, htarget]
    have hfollows := hstarted.follows
    refine ⟨lt_length_of_drop hd, ⟨frames, ?_, hstarted.isNested⟩, ?_, ?_⟩
    · rw [hstarted.span_eq, lineSpan, hd]
    · rw [hlast, hfollows.ip, Machine.lineReady_ip]
    · rw [hlast, hfollows.jumped, Machine.lineReady_jumped, Bool.or_false]

theorem InLine.next (hc : InLine program m targets c) (h : c.next? program = some c')
    (hstack : c'.stack ≠ []) : InLine program m (targets ++ (c.target? program).toList) c' := by
  rcases steps_of_aboveLine hc.stack (steps_of_next? h) with
    ⟨_, rfl⟩ | ⟨frame, stack, frames, htop, hn, ht, habove⟩
  · exact absurd rfl hstack
  · -- A frame above the line takes the tick, and it goes where that frame jumps to, or stays.
    have htarget : c.target? program = frame.target? c.machine := by
      simp only [target?, htop]
    have hfollows := ht.follows hn
    refine ⟨hc.inside, habove, ?_, ?_⟩
    · rw [getLast?_append_toList, htarget, Option.getD_or, hfollows.ip, hc.ip]
    · rw [getLast?_append_toList, htarget, Option.isSome_or, hfollows.jumped, hc.jumped]

theorem InLine.done (hc : InLine program m targets c) (h : c.next? program = some ⟨[], m'⟩) :
    c.target? program = none ∧
      m'.ip = targets.getLast?.getD m.ip + lineSpan program m.ip := by
  rcases steps_of_aboveLine hc.stack (steps_of_next? h) with
    ⟨htop, hend⟩ | ⟨frame, stack, frames, _, _, _, above, habove, _⟩
  · -- The last tick is the one of the line itself. It jumps nowhere, and counts the span from where
    -- the last jump led.
    cases hend
    refine ⟨by simp only [target?, htop, Frame.target?], ?_⟩
    simp only [Machine.lineEnded, hc.jumped, hc.ip]
    cases targets.getLast? with
    | none => rfl
    | some index => rfl
  · exact absurd habove.symm (by simp)

theorem inLine_of_within? {n : Nat} (h : within? program n ⟨[], m⟩ = some (targets, c)) :
    (c = ⟨[], m⟩ ∧ targets = []) ∨ InLine program m targets c := by
  induction n generalizing targets c with
  | zero =>
    cases h
    exact Or.inl ⟨rfl, rfl⟩
  | succ n ih =>
    obtain ⟨before, now, hw, hnext, hstack, rfl⟩ := within?_succ h
    rcases ih hw with ⟨rfl, rfl⟩ | hnow
    · exact Or.inr (inLine_of_begun hnext)
    · exact Or.inr (hnow.next hnext hstack)

/-- Every moment belongs to the program line that was begun last. -/
theorem exists_within? {n : Nat} (h : after? program n ⟨[], m⟩ = some c) :
    ∃ i m₁ k targets, after? program i ⟨[], m⟩ = some ⟨[], m₁⟩ ∧
      within? program k ⟨[], m₁⟩ = some (targets, c) := by
  induction n generalizing c with
  | zero =>
    cases h
    exact ⟨0, m, 0, [], rfl, rfl⟩
  | succ n ih =>
    rw [after?_succ] at h
    obtain ⟨now, hn, hnext⟩ := Option.bind_eq_some_iff.mp h
    -- With an empty stack a line begins here, and otherwise the tick belongs to the line before.
    by_cases hstack : c.stack = []
    · refine ⟨n + 1, c.machine, 0, [], ?_, ?_⟩
      · rw [after?_succ, hn, ← hstack]
        exact hnext
      · rw [within?, ← hstack]
    · obtain ⟨i, m₁, k, targets, hi, hk⟩ := ih hn
      refine ⟨i, m₁, k + 1, targets ++ (now.target? program).toList, hi, ?_⟩
      rw [within?, hk]
      simp only [Option.bind_eq_bind, Option.bind_some, hnext, if_neg hstack]

/-- All labels stand in the program, and so does the machine while a line is being executed. -/
structure Inside (program : List String) (c : Moment) : Prop where
  labels : c.machine.labels.Below program.length
  stack : c.stack = [] ∨
    c.machine.ip < program.length ∧ ∃ index span, Frame.AboveLine index span c.stack

theorem inside_of_steps (hs : Steps program c c') (hc : Inside program c) : Inside program c' := by
  rcases hc.stack with hempty | ⟨hip, index, span, habove⟩
  · cases hs with
    | frame ht => cases hempty
    | line hd h =>
      rename_i line rest frames span m m'
      have hip : m.lineReady.ip < program.length := by
        rw [Machine.lineReady_ip]
        exact lt_length_of_drop hd
      have hlabels : m.lineReady.labels.Below program.length := by
        rw [Machine.lineReady_labels]
        exact hc.labels
      obtain ⟨hip', hlabels'⟩ := h.labelMove.below hip hlabels
      exact ⟨hlabels', Or.inr ⟨hip', m.ip, span, frames, rfl, h.isNested⟩⟩
  · rcases steps_of_aboveLine habove hs with
      ⟨_, rfl⟩ | ⟨frame, stack, frames, _, hn, ht, habove'⟩
    · -- The end of a line may lead behind the program, but then no label is declared there.
      exact ⟨hc.labels, Or.inl rfl⟩
    · obtain ⟨hip', hlabels'⟩ := (ht.labelMove hn).below hip hc.labels
      exact ⟨hlabels', Or.inr ⟨hip', index, span, habove'⟩⟩

theorem below_of_shows (h : Shows program (first m) m') : m'.labels.Below program.length := by
  have halways : Always program (Inside program) (first m) := by
    apply always_of_steps (fun _ _ => inside_of_steps)
    exact ⟨fun _ _ hl => (nomatch hl), Or.inl rfl⟩
  rcases h with ⟨n, c, hn, rfl⟩ | ⟨budget, fault, hr⟩
  · exact (halways n c hn).labels
  · obtain ⟨n, c, m₁, hn, hfailed, rfl⟩ := exists_failing_moment hr
    have hlabels : (m₁.unwind c.stack).labels = c.machine.labels := hfailed.labels_eq.1
    rw [hlabels]
    exact (halways n c hn).labels

end Moment

/-- After a program line control goes on behind the place to which the line jumped last, or behind
the line itself if it did not jump. Either way it skips as many lines as the line takes, and no label
stands outside the program. -/
theorem next_line_is_behind_the_last_jump (program : List String) :
    (∀ m targets m', Moment.LineDone program m targets m' →
      m'.ip = targets.getLast?.getD m.ip + lineSpan program m.ip) ∧
    ∀ m m', Moment.Shows program (.first m) m' →
      ∀ name label, m'.labels.get? name = some label → label.index < program.length := by
  refine ⟨fun m targets m' hdone => ?_, fun m m' hshows => Moment.below_of_shows hshows⟩
  obtain ⟨n, before, c, hw, hnext, rfl⟩ := hdone
  rcases Moment.inLine_of_within? hw with ⟨rfl, rfl⟩ | hc
  · -- The first tick of a line never ends it.
    obtain ⟨above, habove, _⟩ := (Moment.inLine_of_begun hnext).stack
    exact absurd habove.symm (by simp)
  · obtain ⟨htarget, hip⟩ := hc.done hnext
    rw [htarget, Option.toList_none, List.append_nil]
    exact hip

/-- The block jumps to line 4 and then, from a macro, to line 5. It takes four lines, so its own last
line is next. -/
theorem block_with_two_jumps_goes_on_at_its_end :
    let program := ["INT x = 1", "MACRO hop", "GOTO b", "END MACRO", "LABEL a", "LABEL b",
      "IF x == 1", "GOTO a", "CALL hop", "END IF"]
    ∃ m m', Moment.after? program 8 (.first {}) = some ⟨[], m⟩ ∧ m.ip = 6 ∧
      Moment.LineDone program m [4, 5] m' ∧ m'.ip = 9 ∧
      m.labels.get? "b" = some ⟨5, 0⟩ ∧ 5 < program.length := by
  intro program
  obtain ⟨m, c, m', hn, hip, hlabel, hw, htarget, hnext⟩ : ∃ m c m',
      Moment.after? program 8 (.first {}) = some ⟨[], m⟩ ∧ m.ip = 6 ∧
      m.labels.get? "b" = some ⟨5, 0⟩ ∧ Moment.within? program 6 ⟨[], m⟩ = some ([4, 5], c) ∧
      c.target? program = none ∧ c.next? program = some ⟨[], m'⟩ :=
    ⟨_, _, _, rfl, rfl, rfl, rfl, rfl, rfl⟩
  obtain ⟨hcourse, hlabels⟩ := next_line_is_behind_the_last_jump program
  have hdone : Moment.LineDone program m [4, 5] m' := ⟨6, [4, 5], c, hw, hnext, by rw [htarget]; rfl⟩
  have hspan : lineSpan program 6 = 4 := by decide +kernel
  refine ⟨m, m', hn, hip, hdone, ?_, hlabel, ?_⟩
  · rw [hcourse m [4, 5] m' hdone, hip, hspan]
    rfl
  · exact hlabels {} m (Or.inl ⟨8, _, hn, rfl⟩) "b" ⟨5, 0⟩ hlabel

/-- A run that fails stands where the failing program line jumped last, and at the line itself if it
did not jump. Only the flush at the end fails outside of a line. -/
theorem failed_run_stands_at_the_last_jump (program : List String) (m : Machine) {budget : Nat}
    {fault : Fault} {m' : Machine}
    (h : Machine.run budget program m = some (.error fault m')) :
    (∃ n, Moment.after? program n (.first m) = some ⟨[], m'⟩ ∧ program.length ≤ m'.ip ∧
      fault = .output .flushFailed) ∨
    ∃ n m₁ targets, Moment.after? program n (.first m) = some ⟨[], m₁⟩ ∧
      m₁.ip < program.length ∧ Moment.LineFails program m₁ targets fault m' ∧
      m'.ip = targets.getLast?.getD m₁.ip ∧
      (m'.ip = m₁.ip ↔ ∀ index, targets.getLast? = some index → index = m₁.ip) := by
  obtain ⟨n, c, m₂, hn, htick, rfl⟩ := Moment.exists_failing_tick (c := .first m) h
  obtain ⟨i, m₁, k, targets, hi, hw⟩ := Moment.exists_within? hn
  have hip : (m₂.unwind c.stack).ip = c.machine.ip := (Moment.tickFailed_of_tick htick).ip_eq
  have hfails : Moment.LineFails program m₁ targets fault (m₂.unwind c.stack) :=
    ⟨k, c, m₂, hw, htick, rfl⟩
  have hinLine := Moment.inLine_of_within? hw
  have hlast : (m₂.unwind c.stack).ip = targets.getLast?.getD m₁.ip := by
    rcases hinLine with ⟨rfl, rfl⟩ | hc
    · exact hip
    · exact hip.trans hc.ip
  by_cases hinside : m₁.ip < program.length
  · refine Or.inr ⟨i, m₁, targets, hi, hinside, hfails, hlast, ?_⟩
    rw [hlast]
    cases targets.getLast? with
    | none => simp
    | some index => simp
  · -- Behind the last line no line can have begun.
    rcases hinLine with ⟨rfl, rfl⟩ | hc
    · obtain ⟨hfault, rfl⟩ := Machine.fault_of_tick_ended (not_lt.mp hinside) htick
      exact Or.inl ⟨i, hi, not_lt.mp hinside, hfault⟩
    · exact absurd hc.inside hinside

theorem fault_in_a_macro_is_reported_at_its_program_line :
    let program := ["MACRO m", "PRINTVAR y", "END MACRO", "INT x = 1", "IF x == 1", "CALL m",
      "END IF"]
    ∃ m', Machine.run 20 program {} = some (.error (.missing .variableName "y") m') ∧ m'.ip = 4 ∧
      ∃ n m₁ targets, Moment.after? program n (.first {}) = some ⟨[], m₁⟩ ∧ m₁.ip < 7 ∧
        Moment.LineFails program m₁ targets (.missing .variableName "y") m' ∧
        m'.ip = targets.getLast?.getD m₁.ip := by
  intro program
  obtain ⟨m', hrun, hip⟩ : ∃ m', Machine.run 20 program {} =
      some (.error (.missing .variableName "y") m') ∧ m'.ip = 4 := ⟨_, rfl, rfl⟩
  refine ⟨m', hrun, hip, ?_⟩
  rcases failed_run_stands_at_the_last_jump program {} hrun with
    ⟨n, _, _, hfault⟩ | ⟨n, m₁, targets, hn, hinside, hfails, hlast, _⟩
  · cases hfault
  · exact ⟨n, m₁, targets, hn, hinside, hfails, hlast⟩

/-- The block at line 2 jumps to line 1 before it fails, and line 1 is what the machine reports. -/
theorem failing_line_is_lost_after_a_jump :
    let program := ["INT x = 1", "LABEL a", "IF x == 1", "GOTO a", "PRINTVAR y", "END IF"]
    ∃ m₁ m', Moment.after? program 4 (.first {}) = some ⟨[], m₁⟩ ∧ m₁.ip = 2 ∧
      Moment.LineFails program m₁ [1] (.missing .variableName "y") m' ∧
      Machine.run 20 program {} = some (.error (.missing .variableName "y") m') ∧ m'.ip = 1 := by
  intro program
  obtain ⟨m₁, c, m₂, hn, hip, hw, htick, hrun, hlost⟩ : ∃ m₁ c m₂,
      Moment.after? program 4 (.first {}) = some ⟨[], m₁⟩ ∧ m₁.ip = 2 ∧
      Moment.within? program 2 ⟨[], m₁⟩ = some ([1], c) ∧
      Machine.tick program c.stack c.machine = .error (.missing .variableName "y") m₂ ∧
      Machine.run 20 program {} =
        some (.error (.missing .variableName "y") (m₂.unwind c.stack)) ∧ m₂.ip = 1 :=
    ⟨_, _, _, rfl, rfl, rfl, rfl, rfl, rfl⟩
  exact ⟨m₁, m₂.unwind c.stack, hn, hip, ⟨2, c, m₂, hw, htick, rfl⟩, hrun, hlost⟩

end LineScript
