import LineScript.Proofs.Impossible

/-! The depth of calls. It is the number of calls on the stack, however they are nested in blocks and
however they end, so that nothing is left of it behind a line or a run. -/

namespace LineScript

namespace Machine

variable {scope : Scope} {line : String} {rest : List String} {m m' : Machine}
  {frames : List Frame} {span : Nat} {fault : Fault}

/-- A line goes deeper by the call that it begins, if it begins one. -/
theorem Started.depth_eq (h : Started scope line rest m frames span m') :
    m'.depth = m.depth + frames.countP Frame.isCall := by
  cases h with
  | plain hr hs hf hsame =>
    obtain ⟨vars, interrupted, sink, rfl⟩ := hsame
    rfl
  | _ => rfl

theorem Started.depth_le (h : Started scope line rest m frames span m')
    (hm : m.depth ≤ maxDepth) : m'.depth ≤ maxDepth := by
  cases h with
  | plain hr hs hf hsame =>
    obtain ⟨vars, interrupted, sink, rfl⟩ := hsame
    exact hm
  | called hr hf hb hd => exact hd
  | _ => exact hm

theorem Failed.depth_eq (h : Failed m fault m') : m'.depth = m.depth := by
  rcases h with ⟨_, pending, rfl⟩ | ⟨_, rfl | ⟨_, vars, pending, interrupted, sink, rfl⟩⟩ <;> rfl

theorem TickFailed.depth_eq (h : TickFailed m fault m') : m'.depth = m.depth := by
  obtain ⟨_, _, _, _, _, rfl⟩ := h.exists_eq
  rfl

end Machine

namespace Frame

variable {frame : Frame} {frames : List Frame} {m m' : Machine}

/-- A tick adds the call that it begins to the depth, and takes away the call that it ends. -/
theorem Ticked.depth_eq (h : frame.Ticked m frames m') (hd : [frame].countP isCall ≤ m.depth) :
    m'.depth + [frame].countP isCall = m.depth + frames.countP isCall := by
  cases h with
  | bodyLine hs =>
    rw [hs.depth_eq, List.countP_append]
    rfl
  | callLine hs =>
    rw [hs.depth_eq, Machine.traced_depth, List.countP_append, Nat.add_assoc]
    rfl
  | callEnd => exact Nat.sub_add_cancel hd
  | _ => rfl

theorem Ticked.depth_le (h : frame.Ticked m frames m') (hm : m.depth ≤ maxDepth) :
    m'.depth ≤ maxDepth := by
  cases h with
  | bodyLine hs => exact hs.depth_le hm
  | callLine hs =>
    apply hs.depth_le
    rw [Machine.traced_depth]
    exact hm
  | callEnd => exact (Nat.sub_le _ _).trans hm
  | _ => exact hm

end Frame

namespace Machine

/-- The calls in progress are those on the stack and a number of others. -/
def CallsAbove (others : Nat) (stack : List Frame) (m : Machine) : Prop :=
  m.depth = others + stack.countP Frame.isCall

variable {others : Nat} {frame : Frame} {frames stack : List Frame} {m m' : Machine} {fault : Fault}

theorem CallsAbove.ticked (h : CallsAbove others (frame :: stack) m)
    (ht : frame.Ticked m frames m') : CallsAbove others (frames ++ stack) m' := by
  unfold CallsAbove at h ⊢
  -- The frame that ticks is counted on its own, so that it can be taken out of the depth.
  have hcount : (frame :: stack).countP Frame.isCall =
      [frame].countP Frame.isCall + stack.countP Frame.isCall := by
    rw [← List.countP_append]
    rfl
  have hdepth := ht.depth_eq (by omega)
  rw [List.countP_append]
  omega

/-- A fault leaves the calls on the stack, and no others. -/
theorem CallsAbove.unwind (h : CallsAbove others stack m) (hf : TickFailed m fault m') :
    (m'.unwind stack).depth = others := by
  change m'.depth - stack.countP Frame.isCall = others
  rw [hf.depth_eq, h]
  exact Nat.add_sub_cancel others _

theorem CallsAbove.complete {budget : Nat} {result : EStateM.Result Fault Machine Unit}
    (h : CallsAbove others stack m) (hc : complete budget stack m = some result) :
    (endState result).depth = others := by
  -- The others stay the same from tick to tick, while the stack and the depth change together.
  induction budget generalizing stack m with
  | zero =>
    cases stack with
    | nil =>
      rw [Machine.complete] at hc
      cases hc
      exact h
    | cons frame stack => cases hc
  | succ budget ih =>
    cases stack with
    | nil =>
      rw [Machine.complete] at hc
      cases hc
      exact h
    | cons frame stack =>
      rw [Machine.complete] at hc
      cases ht : frame.tick m with
      | ok frames m₁ =>
        rw [ht] at hc
        exact ih (h.ticked (Frame.ticked_of_tick ht)) hc
      | error fault m₁ =>
        rw [ht] at hc
        cases hc
        exact h.unwind (Frame.tickFailed_of_tick ht)

/-- A line restores the depth that it found, whether the calls in it end well or not. -/
theorem depth_of_step {budget : Nat} {scope : Scope} {lines : List String} {index : Nat}
    {result : EStateM.Result Fault Machine Nat}
    (h : step budget scope lines index m = some result) : (endState result).depth = m.depth := by
  unfold step at h
  cases hd : lines.drop index with
  | nil =>
    rw [hd] at h
    cases h
  | cons line rest =>
    rw [hd] at h
    dsimp only at h
    have hbegun := start_begun scope line rest m
    cases hs : start scope line rest m with
    | error fault m₁ =>
      rw [hs] at h hbegun
      cases h
      exact hbegun.depth_eq
    | ok begun m₁ =>
      rw [hs] at h hbegun
      obtain ⟨frames, span⟩ := begun
      have hcalls : CallsAbove m.depth frames m₁ := hbegun.depth_eq
      dsimp only at h
      cases hc : Machine.complete budget frames m₁ with
      | none =>
        rw [hc] at h
        cases h
      | some done =>
        have hdepth := hcalls.complete hc
        rw [hc] at h
        cases done <;> cases h <;> exact hdepth

theorem execute_call_of_body {scope : Scope} {name : String} {body : List String} (hf : m.Free)
    (hb : m.macros.body? name = some body) :
    execute scope (.call name) m =
      if maxDepth ≤ m.depth then .error (.tooMany (.calls name) maxDepth) m
      else .ok [.call 0 body] { m with depth := m.depth + 1 } := by
  rw [execute_call_eq hf, enter, get_bind, hb]
  dsimp only
  split <;> rfl

end Machine

namespace Moment

open Machine

variable {program : List String} {c c' : Moment}

theorem callsAbove_of_steps (hs : Steps program c c') (h : CallsAbove 0 c.stack c.machine) :
    CallsAbove 0 c'.stack c'.machine := by
  cases hs with
  | frame ht => exact h.ticked ht
  | line hd hs =>
    unfold CallsAbove at h ⊢
    rw [hs.depth_eq, lineReady_depth, h, List.countP_append]
    rfl

theorem depth_le_of_steps (hs : Steps program c c') (h : c.machine.depth ≤ maxDepth) :
    c'.machine.depth ≤ maxDepth := by
  cases hs with
  | frame ht => exact ht.depth_le h
  | line hd hs =>
    apply hs.depth_le
    rw [lineReady_depth]
    exact h

theorem callsAbove_of_after? {m : Machine} {n : Nat} (h : after? program n (first m) = some c) :
    CallsAbove 0 c.stack c.machine := by
  have hfirst : CallsAbove 0 (first m).stack (first m).machine := rfl
  exact always_of_steps (fun _ _ => callsAbove_of_steps) hfirst n c h

theorem depth_le_of_after? {m : Machine} {n : Nat} (h : after? program n (first m) = some c) :
    c.machine.depth ≤ maxDepth := by
  have hfirst : (first m).machine.depth ≤ maxDepth := Nat.zero_le _
  exact always_of_steps (fun _ _ => depth_le_of_steps) hfirst n c h

theorem run_of_failed {m m' : Machine} {n : Nat} {fault : Fault}
    (hn : after? program n (first m) = some c)
    (h : tick program c.stack c.machine = .error fault m') :
    run (n + 1) program m = some (.error fault (m'.unwind c.stack)) :=
  resume_of_after? hn (resume_of_failed h)

/-- A run leaves no call behind. -/
theorem depth_of_run {m : Machine} {budget : Nat} {result : EStateM.Result Fault Machine Unit}
    (h : run budget program m = some result) : (endState result).depth = 0 := by
  cases result with
  | ok value m' =>
    change m'.depth = 0
    rw [cleared_of_resume h]
    rfl
  | error fault m' =>
    obtain ⟨n, c, m₁, hn, hfailed, rfl⟩ := exists_failing_moment (c := first m) h
    exact (callsAbove_of_after? hn).unwind hfailed

theorem Executes.depth_eq {scope : Scope} {statement : Statement} {m : Machine}
    (h : c.Executes program scope statement m) : m.depth = c.machine.depth := by
  obtain ⟨line, rest, _, _, _, rfl⟩ := h
  obtain ⟨jumped, interrupted, sink, hready, _⟩ := readied_ready program c
  change (c.ready program).depth = c.machine.depth
  rw [hready]

end Moment

open Machine

/-- At every moment of a run the depth is the number of calls on the stack, and there are at most
`maxDepth` of them. So it is zero whenever a program line begins and when the run has ended, also by a
fault, and every line of a program, a body or a macro restores the depth that it found. A call that
passes the guard and finds its macro fails just if `maxDepth` calls are in progress, and begins the
macro otherwise. -/
theorem depth_is_the_number_of_calls (program : List String) (m : Machine) :
    (∀ n c, Moment.after? program n (.first m) = some c →
      c.machine.depth = c.stack.countP Frame.isCall ∧ c.machine.depth ≤ maxDepth ∧
      (c.stack = [] → c.machine.depth = 0) ∧
      ∀ scope name body m₁, c.Executes program scope (.call name) m₁ → m₁.Free →
        m₁.macros.body? name = some body →
        ((∃ below, tick program c.stack c.machine =
            (execute scope (.call name) >>= fun frames => pure (some (frames ++ below))) m₁) ∨
          ∃ text, tick program c.stack c.machine =
            .error (.output .sinkFull) (c.machine.traced text)) ∧
        (execute scope (.call name) m₁ = .error (.tooMany (.calls name) maxDepth) m₁ ↔
          c.stack.countP Frame.isCall = maxDepth) ∧
        (c.stack.countP Frame.isCall ≠ maxDepth → execute scope (.call name) m₁ =
          .ok [.call 0 body] { m₁ with depth := m₁.depth + 1 })) ∧
    (∀ budget result, run budget program m = some result → (endState result).depth = 0) ∧
    ∀ scope lines index m₁,
      (index < lines.length → ∃ budget result, step budget scope lines index m₁ = some result) ∧
      ∀ budget result, step budget scope lines index m₁ = some result →
        (endState result).depth = m₁.depth := by
  refine ⟨fun n c hn => ?_, fun budget result => Moment.depth_of_run, fun scope lines index m₁ =>
    ⟨fun hi => step_completes scope hi m₁, fun budget result => depth_of_step⟩⟩
  have hcalls : c.machine.depth = c.stack.countP Frame.isCall :=
    (Moment.callsAbove_of_after? hn).trans (Nat.zero_add _)
  have hmax := Moment.depth_le_of_after? hn
  refine ⟨hcalls, hmax, ?_, ?_⟩
  · intro hstack
    rw [hcalls, hstack]
    rfl
  · intro scope name body m₁ hexecutes hfree hbody
    have hcall : execute scope (.call name) m₁ =
        if maxDepth ≤ m₁.depth then .error (.tooMany (.calls name) maxDepth) m₁
        else .ok [.call 0 body] { m₁ with depth := m₁.depth + 1 } :=
      execute_call_of_body hfree hbody
    have hdepth : m₁.depth = c.stack.countP Frame.isCall := hexecutes.depth_eq.trans hcalls
    refine ⟨hexecutes.tick_eq, ⟨fun hfails => ?_, fun hfull => ?_⟩, fun hroom => ?_⟩
    · by_contra hroom
      rw [hcall, if_neg (by omega)] at hfails
      cases hfails
    · rw [hcall, if_pos (by omega)]
    · rw [hcall, if_neg (by omega)]

/-- A macro that calls itself is called `maxDepth` times, and the next call fails. The fault leaves all
of them. -/
theorem endless_recursion_fails_at_the_greatest_depth :
    let program := ["MACRO r", "CALL r", "END MACRO", "CALL r"]
    let full : Machine := { macros := ({} : MacroTable).define "r" ["CALL r"], ip := 3, depth := 256 }
    let stack := Frame.call 0 ["CALL r"] :: List.replicate 255 (.call 1 []) ++ [.line 3 1]
    Moment.after? program 258 (.first {}) = some ⟨stack, full⟩ ∧
      full.depth = stack.countP Frame.isCall ∧
      Moment.Executes program ⟨stack, full⟩ .inMacro (.call "r") full ∧ full.Free ∧
      full.macros.body? "r" = some ["CALL r"] ∧
      execute .inMacro (.call "r") full = .error (.tooMany (.calls "r") maxDepth) full ∧
      ∃ m', run 259 program {} = some (.error (.tooMany (.calls "r") maxDepth) m') ∧
        m'.depth = 0 := by
  intro program full stack
  obtain ⟨hmoments, hruns, _⟩ := depth_is_the_number_of_calls program {}
  have hafter : Moment.after? program 258 (.first {}) = some ⟨stack, full⟩ := by decide +kernel
  have hexecutes : Moment.Executes program ⟨stack, full⟩ .inMacro (.call "r") full :=
    ⟨"CALL r", [], rfl, rfl, by decide, rfl⟩
  have hfree : full.Free := ⟨rfl, rfl⟩
  obtain ⟨hdepth, _, _, hcalls⟩ := hmoments 258 ⟨stack, full⟩ hafter
  obtain ⟨_, hfails, _⟩ := hcalls .inMacro "r" ["CALL r"] full hexecutes hfree rfl
  have hexecute := hfails.mpr hdepth.symm
  have htick : tick program stack full = .error (.tooMany (.calls "r") maxDepth) full := rfl
  -- The end state gets a name, because its depth would be computed frame by frame otherwise.
  obtain ⟨m', hrun⟩ : ∃ m', run 259 program {} =
      some (.error (.tooMany (.calls "r") maxDepth) m') := ⟨_, Moment.run_of_failed hafter htick⟩
  exact ⟨hafter, hdepth, hexecutes, hfree, rfl, hexecute, m', hrun, hruns 259 _ hrun⟩

end LineScript
