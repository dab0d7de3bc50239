import LineScript.Proofs.Labels

/-! The guard against endless jumps, over whole runs. Once a count is above the limit no statement
takes effect any more, and it is the only such count, so the fault always names the same label. -/

namespace LineScript

namespace Machine

variable {m m₁ m' : Machine} {fault : Fault}

theorem LabelMove.guarded {declaring : Prop} (h : LabelMove declaring m m')
    (hg : m.labels.Guarded m.jumpLimit) : m'.labels.Guarded m.jumpLimit := by
  cases h with
  | stays hl hi hj =>
    rw [hl]
    exact hg
  | declared hd hw name hl hi hj =>
    rw [hl]
    exact LabelTable.guarded_declare hw name m.ip
  | jumped hw hjump hl hi hj =>
    rw [hl]
    exact LabelTable.guarded_jump hw hjump

/-- Nothing but macros, the place in the program and the trace has changed. -/
structure Idles (m m' : Machine) : Prop where
  vars : m'.vars = m.vars
  labels : m'.labels = m.labels
  jumpLimit : m'.jumpLimit = m.jumpLimit
  debug : m'.debug = m.debug
  interrupted : m.interrupted = true → m'.interrupted = true
  sink : m.debug = false → m'.interrupted = m.interrupted ∧ m'.sink = m.sink

theorem Idles.refl (m : Machine) : Idles m m :=
  ⟨rfl, rfl, rfl, rfl, id, fun _ => ⟨rfl, rfl⟩⟩

theorem Idles.trans (h₁ : Idles m m₁) (h₂ : Idles m₁ m') : Idles m m' where
  vars := h₂.vars.trans h₁.vars
  labels := h₂.labels.trans h₁.labels
  jumpLimit := h₂.jumpLimit.trans h₁.jumpLimit
  debug := h₂.debug.trans h₁.debug
  interrupted hi := h₂.interrupted (h₁.interrupted hi)
  sink hd := by
    have hsink₁ := h₁.sink hd
    have hsink₂ := h₂.sink (h₁.debug.trans hd)
    exact ⟨hsink₂.1.trans hsink₁.1, hsink₂.2.trans hsink₁.2⟩

theorem Readied.idles (h : Readied m m') : Idles m m' := by
  obtain ⟨jumped, interrupted, sink, rfl, hi, hd⟩ := h
  exact ⟨rfl, rfl, rfl, rfl, hi, hd⟩

/-- A machine that is stopped stays so while it idles. -/
theorem Idles.stopped (h : Idles m m') (hs : Stopped m fault) : ∃ fault', Stopped m' fault' := by
  rcases hs with ⟨hi, _⟩ | ⟨_, hc⟩
  · exact ⟨.terminated, Or.inl ⟨h.interrupted hi, rfl⟩⟩
  · cases hi' : m'.interrupted with
    | true => exact ⟨.terminated, Or.inl ⟨hi', rfl⟩⟩
    | false =>
      refine ⟨fault, Or.inr ⟨hi', ?_⟩⟩
      rw [h.labels, h.jumpLimit]
      exact hc

theorem Started.idles {scope : Scope} {line : String} {rest : List String}
    {frames : List Frame} {span : Nat} (hs : Stopped m fault)
    (h : Started scope line rest m frames span m') : Idles m m' := by
  cases h with
  | defined hr => exact ⟨rfl, rfl, rfl, rfl, id, fun _ => ⟨rfl, rfl⟩⟩
  | plain hr hp hf hsame => exact absurd hs hf.not_stopped
  | skipped hr hf => exact absurd hs hf.not_stopped
  | entered hr hf => exact absurd hs hf.not_stopped
  | looped hr hf => exact absurd hs hf.not_stopped
  | called hr hf hb hd => exact absurd hs hf.not_stopped
  | labelled hr hf => exact absurd hs hf.not_stopped
  | jumped hr hf hj => exact absurd hs hf.not_stopped

theorem Failed.idles (hs : Stopped m fault) {cause : Fault} (h : Failed m cause m') :
    Idles m m' := by
  rcases h with ⟨_, pending, rfl⟩ | ⟨_, rfl | ⟨hf, _⟩⟩
  · exact ⟨rfl, rfl, rfl, rfl, id, fun _ => ⟨rfl, rfl⟩⟩
  · exact Idles.refl m'
  · exact absurd hs hf.not_stopped

theorem TickFailed.idles (hs : Stopped m fault) {cause : Fault} (h : TickFailed m cause m') :
    Idles m m' := by
  obtain ⟨m₁, hready, hfailed⟩ := h
  obtain ⟨fault₁, hs₁⟩ := hready.idles.stopped hs
  exact hready.idles.trans (hfailed.idles hs₁)

/-- What a tick that fails can have changed. -/
theorem TickFailed.exists_eq (h : TickFailed m fault m') :
    ∃ vars pending jumped interrupted sink,
      m' = { m with
        vars := vars, pending := pending, jumped := jumped, interrupted := interrupted
        sink := sink } := by
  obtain ⟨m₁, ⟨jumped, interrupted, sink, rfl, _⟩, hfailed⟩ := h
  rcases hfailed with ⟨_, pending, rfl⟩ | ⟨_, rfl | ⟨_, vars, pending, interrupted', sink', rfl⟩⟩
  · exact ⟨_, _, _, _, _, rfl⟩
  · exact ⟨_, _, _, _, _, rfl⟩
  · exact ⟨_, _, _, _, _, rfl⟩

/-- No failure touches the labels. -/
theorem TickFailed.labels_eq (h : TickFailed m fault m') :
    m'.labels = m.labels ∧ m'.jumpLimit = m.jumpLimit := by
  obtain ⟨_, _, _, _, _, rfl⟩ := h.exists_eq
  exact ⟨rfl, rfl⟩

/-- Only the guard complains about jumps, and it names a label that it finds. -/
theorem TickFailed.check_eq {name : String} {limit : Nat}
    (h : TickFailed m (.tooMany (.jumps name) limit) m') :
    m.labels.check m.jumpLimit = .error (.tooMany (.jumps name) limit) := by
  obtain ⟨m₁, hready, hfailed⟩ := h
  rcases hfailed with ⟨hs, _⟩ | ⟨hg, _⟩
  · rcases hs with ⟨_, he⟩ | ⟨_, hc⟩
    · cases he
    · rw [hready.idles.labels, hready.idles.jumpLimit] at hc
      exact hc
  · cases hg

end Machine

theorem Frame.Ticked.idles {frame : Frame} {m m' : Machine} {frames : List Frame} {fault : Fault}
    (hs : m.Stopped fault) (h : frame.Ticked m frames m') : m.Idles m' := by
  cases h with
  | line => exact ⟨rfl, rfl, rfl, rfl, id, fun _ => ⟨rfl, rfl⟩⟩
  | bodyEnd => exact .refl m
  | bodyLine h => exact h.idles hs
  | callEnd => exact ⟨rfl, rfl, rfl, rfl, id, fun _ => ⟨rfl, rfl⟩⟩
  | callLine h =>
    rename_i index _ _ _ _
    have hready := (Machine.traced_readied ("Line " ++ toString index ++ "\n") m).idles
    obtain ⟨fault₁, hs₁⟩ := hready.stopped hs
    exact hready.trans (h.idles hs₁)
  | loopEnd hf hb hl => exact .refl m
  | loopPass hf hb => exact absurd hs hf.not_stopped
  | passNext ha => exact .refl m
  | passEnd ha hb => exact .refl m

namespace Moment

variable {program : List String} {c c' : Moment}

theorem settings_of_steps (hs : Steps program c c') :
    c'.machine.jumpLimit = c.machine.jumpLimit ∧ c'.machine.debug = c.machine.debug := by
  cases hs with
  | frame ht => exact ht.settings_eq
  | line hd h =>
    have hsame := h.settings_eq
    rw [Machine.lineReady_jumpLimit, Machine.lineReady_debug] at hsame
    exact hsame

theorem guarded_of_steps (hs : Steps program c c')
    (hg : c.machine.labels.Guarded c.machine.jumpLimit) :
    c'.machine.labels.Guarded c'.machine.jumpLimit := by
  have hlimit := (settings_of_steps hs).1
  rw [hlimit]
  cases hs with
  | frame ht =>
    rename_i frame stack frames m m'
    by_cases hn : frame.isNested = true
    · exact (ht.labelMove hn).guarded hg
    · cases ht <;> first | exact hg | exact absurd rfl hn
  | line hd h =>
    rename_i line rest frames span m m'
    have hready : m.lineReady.labels.Guarded m.lineReady.jumpLimit := by
      rw [Machine.lineReady_labels, Machine.lineReady_jumpLimit]
      exact hg
    have hguarded := h.labelMove.guarded hready
    rw [Machine.lineReady_jumpLimit] at hguarded
    exact hguarded

theorem idles_of_steps {fault : Fault} (hstop : c.machine.Stopped fault)
    (hs : Steps program c c') : c.machine.Idles c'.machine := by
  cases hs with
  | frame ht => exact ht.idles hstop
  | line hd h =>
    rename_i line rest frames span m m'
    have hready := (Machine.traced_reset_readied ("\nLine " ++ toString m.ip ++ "\n") m).idles
    obtain ⟨fault₁, hstop₁⟩ := hready.stopped hstop
    exact hready.trans (h.idles hstop₁)

theorem always_idles {fault : Fault} (hstop : c.machine.Stopped fault) :
    Always program (fun c' => c.machine.Idles c'.machine) c := by
  refine always_of_steps (fun c₁ c₂ hs h => ?_) (Machine.Idles.refl _)
  obtain ⟨fault₁, hstop₁⟩ := h.stopped hstop
  exact h.trans (idles_of_steps hstop₁ hs)

theorem tickFailed_of_tick {stack : List Frame} {m m' : Machine} {fault : Fault}
    (h : Machine.tick program stack m = .error fault m') : m.TickFailed fault m' := by
  cases stack with
  | nil =>
    have ht := Machine.nextLine_ticked program m
    rw [h] at ht
    cases ht with
    | failed hfailed => exact hfailed
  | cons frame stack =>
    cases hr : frame.tick m with
    | ok frames m₁ =>
      rw [Machine.tick_cons_of_ok program stack hr] at h
      cases h
    | error cause m₁ =>
      rw [Machine.tick_cons_of_error program stack hr] at h
      cases h
      exact Frame.tickFailed_of_tick hr

/-- A run that fails does so with a tick of one of its moments. -/
theorem exists_failing_tick {budget : Nat} {fault : Fault} {m' : Machine}
    (h : Machine.resume program budget c.stack c.machine = some (.error fault m')) :
    ∃ n c' m₁, after? program n c = some c' ∧
      Machine.tick program c'.stack c'.machine = .error fault m₁ ∧ m' = m₁.unwind c'.stack := by
  induction budget generalizing c with
  | zero => cases h
  | succ budget ih =>
    rw [Machine.resume] at h
    cases ht : Machine.tick program c.stack c.machine with
    | error cause m₁ =>
      rw [ht] at h
      cases h
      exact ⟨0, c, m₁, rfl, ht, rfl⟩
    | ok result m₁ =>
      rw [ht] at h
      cases result with
      | none => cases h
      | some stack =>
        obtain ⟨n, c', m₂, hn, hfailed, he⟩ := ih (c := ⟨stack, m₁⟩) h
        refine ⟨n + 1, c', m₂, ?_, hfailed, he⟩
        rw [after?, next?, ht]
        exact hn

theorem exists_failing_moment {budget : Nat} {fault : Fault} {m' : Machine}
    (h : Machine.resume program budget c.stack c.machine = some (.error fault m')) :
    ∃ n c' m₁, after? program n c = some c' ∧ c'.machine.TickFailed fault m₁ ∧
      m' = m₁.unwind c'.stack := by
  obtain ⟨n, c', m₁, hn, ht, he⟩ := exists_failing_tick h
  exact ⟨n, c', m₁, hn, tickFailed_of_tick ht, he⟩

/-- The machines that a run shows from a moment on: those of its later moments, and the one that it
leaves behind when it fails. -/
def Shows (program : List String) (c : Moment) (m' : Machine) : Prop :=
  (∃ n c', after? program n c = some c' ∧ c'.machine = m') ∨
    ∃ budget fault, Machine.resume program budget c.stack c.machine = some (.error fault m')

theorem settings_of_after? (m : Machine) {n : Nat} (h : after? program n (first m) = some c) :
    c.machine.jumpLimit = m.jumpLimit ∧ c.machine.debug = m.debug := by
  have hstep (c c' : Moment) (hs : Steps program c c')
      (hc : c.machine.jumpLimit = m.jumpLimit ∧ c.machine.debug = m.debug) :
      c'.machine.jumpLimit = m.jumpLimit ∧ c'.machine.debug = m.debug :=
    ⟨(settings_of_steps hs).1.trans hc.1, (settings_of_steps hs).2.trans hc.2⟩
  exact after?_induction hstep ⟨rfl, rfl⟩ h

theorem always_guarded (m : Machine) :
    Always program (fun c => c.machine.labels.Guarded m.jumpLimit) (first m) := by
  intro n c h
  have hfirst : (first m).machine.labels.Guarded (first m).machine.jumpLimit :=
    ⟨fun entry he => (nomatch he), Nat.zero_le 1⟩
  have hguarded : c.machine.labels.Guarded c.machine.jumpLimit :=
    always_of_steps (fun _ _ => guarded_of_steps) hfirst n c h
  rw [(settings_of_after? m h).1] at hguarded
  exact hguarded

theorem guarded_of_shows {m m' : Machine} (h : Shows program (first m) m') :
    m'.labels.Guarded m.jumpLimit := by
  rcases h with ⟨n, c, hn, rfl⟩ | ⟨budget, fault, hr⟩
  · exact always_guarded m n c hn
  · obtain ⟨n, c, m₁, hn, hfailed, rfl⟩ := exists_failing_moment hr
    have hlabels : (m₁.unwind c.stack).labels = c.machine.labels := hfailed.labels_eq.1
    rw [hlabels]
    exact always_guarded m n c hn

theorem idles_of_shows {fault : Fault} (hstop : c.machine.Stopped fault) {m' : Machine}
    (h : Shows program c m') : c.machine.Idles m' := by
  rcases h with ⟨n, c', hn, rfl⟩ | ⟨budget, cause, hr⟩
  · exact always_idles hstop n c' hn
  · obtain ⟨n, c', m₁, hn, hfailed, rfl⟩ := exists_failing_moment hr
    have hidles := always_idles hstop n c' hn
    obtain ⟨fault₁, hstop₁⟩ := hidles.stopped hstop
    have hlast : m₁.Idles (m₁.unwind c'.stack) :=
      ⟨rfl, rfl, rfl, rfl, id, fun _ => ⟨rfl, rfl⟩⟩
    exact hidles.trans ((hfailed.idles hstop₁).trans hlast)

end Moment

theorem Machine.stopped_of_over {m : Machine} {name : String} {label : Label}
    (hl : m.labels.get? name = some label) (ho : m.jumpLimit < label.jumps) :
    ∃ fault, m.Stopped fault := by
  rcases m.free_or_stopped with hf | hstop
  · have hle := hf.within (name, label) (Table.mem_of_find? hl)
    dsimp only at hle
    omega
  · exact hstop

/-- At most one count goes above the limit, by one, and from then on no statement takes effect.
Whatever order the labels are searched in, the fault therefore names the same one. -/
theorem jump_guard_trips_on_one_label (program : List String) (m : Machine) :
    (∀ m', Moment.Shows program (.first m) m' →
      (∀ name label, m'.labels.get? name = some label → label.jumps ≤ m.jumpLimit + 1) ∧
      (∀ name name' label label', m'.labels.get? name = some label →
        m'.labels.get? name' = some label' → m.jumpLimit < label.jumps →
        m.jumpLimit < label'.jumps → name = name') ∧
      ∀ entries : List (String × Label), entries.Perm m'.labels.table.entries →
        LabelTable.check ⟨⟨entries⟩⟩ m.jumpLimit = m'.labels.check m.jumpLimit) ∧
    (∀ n c name label, Moment.after? program n (.first m) = some c →
      c.machine.labels.get? name = some label → m.jumpLimit < label.jumps →
      (∀ m', Moment.Shows program c m' → m'.vars = c.machine.vars ∧
        m'.labels = c.machine.labels ∧ (m.debug = false → m'.sink = c.machine.sink)) ∧
      ∀ k c', Moment.after? program k c = some c' → ∀ scope statement, ∃ fault,
        Machine.execute scope statement c'.machine = .error fault c'.machine) ∧
    ∀ budget name limit m',
      Machine.run budget program m = some (.error (.tooMany (.jumps name) limit) m') →
      limit = m.jumpLimit ∧
      ∀ entries : List (String × Label), entries.Perm m'.labels.table.entries →
        LabelTable.check ⟨⟨entries⟩⟩ m.jumpLimit =
          .error (.tooMany (.jumps name) m.jumpLimit) := by
  refine ⟨fun m' hshows => ?_, fun n c name label hn hl ho => ?_,
    fun budget name limit m' hrun => ?_⟩
  · have hguarded := Moment.guarded_of_shows hshows
    refine ⟨fun name label hl => ?_, fun name name' label label' hl hl' ho ho' => ?_,
      fun entries hp => hguarded.check_perm hp⟩
    · exact hguarded.bounded (name, label) (Table.mem_of_find? hl)
    · exact hguarded.eq_of_over hl hl' ho ho'
  · have hsettings := Moment.settings_of_after? m hn
    rw [← hsettings.1] at ho
    obtain ⟨fault, hstop⟩ := Machine.stopped_of_over hl ho
    refine ⟨fun m' hshows => ?_, fun k c' hk scope statement => ?_⟩
    · have hidles := Moment.idles_of_shows hstop hshows
      exact ⟨hidles.vars, hidles.labels, fun hd => (hidles.sink (hsettings.2.trans hd)).2⟩
    · obtain ⟨fault', hstop'⟩ := (Moment.always_idles hstop k c' hk).stopped hstop
      exact ⟨fault', Machine.execute_of_stopped hstop' scope statement⟩
  · obtain ⟨n, c, m₁, hn, hfailed, rfl⟩ := Moment.exists_failing_moment (c := .first m) hrun
    -- The machine left behind has the labels that the guard has searched.
    have hlabels : (m₁.unwind c.stack).labels = c.machine.labels := hfailed.labels_eq.1
    have hcheck := hfailed.check_eq
    rw [(Moment.settings_of_after? m hn).1] at hcheck
    have hlimit : limit = m.jumpLimit := by
      rw [LabelTable.check_eq] at hcheck
      split at hcheck <;> cases hcheck
      rfl
    refine ⟨hlimit, fun entries hp => ?_⟩
    rw [hlabels] at hp
    rw [(Moment.always_guarded m n c hn).check_perm hp, hcheck, hlimit]

theorem jump_guard_trips_on_the_second_jump :
    ∃ c m', Moment.after? ["LABEL a", "GOTO a"] 5 (.first { jumpLimit := 1 }) = some c ∧
      c.machine.labels.get? "a" = some ⟨0, 2⟩ ∧
      (∀ m', Moment.Shows ["LABEL a", "GOTO a"] c m' → m'.labels = c.machine.labels) ∧
      Machine.run 20 ["LABEL a", "GOTO a"] { jumpLimit := 1 } =
        some (.error (.tooMany (.jumps "a") 1) m') ∧
      ∀ entries : List (String × Label), entries.Perm m'.labels.table.entries →
        LabelTable.check ⟨⟨entries⟩⟩ 1 = .error (.tooMany (.jumps "a") 1) := by
  have hlabel : (Moment.after? ["LABEL a", "GOTO a"] 5 (.first { jumpLimit := 1 })).map
      (fun c => c.machine.labels.get? "a") = some (some ⟨0, 2⟩) := by decide +kernel
  obtain ⟨c, hc, hl⟩ := Option.map_eq_some_iff.mp hlabel
  obtain ⟨m', hrun⟩ : ∃ m', Machine.run 20 ["LABEL a", "GOTO a"] { jumpLimit := 1 } =
      some (.error (.tooMany (.jumps "a") 1) m') := ⟨_, rfl⟩
  obtain ⟨_, hover, hfault⟩ :=
    jump_guard_trips_on_one_label ["LABEL a", "GOTO a"] { jumpLimit := 1 }
  have hidle := (hover 5 c "a" ⟨0, 2⟩ hc hl (by decide)).1
  exact ⟨c, m', hc, hl, fun m' hshows => (hidle m' hshows).2.1, hrun, (hfault 20 "a" 1 m' hrun).2⟩

end LineScript
