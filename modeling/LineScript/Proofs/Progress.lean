import LineScript.Proofs.Completion

/-! Runs from one program line to the next. A program line that is begun ends the run or leads to
another line, so only the program lines matter for whether a run ends. Without jumps they are taken
in ascending order. -/

namespace LineScript

namespace Moment

variable {program : List String} {A : Moment → Prop} {P : Machine → Prop}

/-- Work that completes ends the run or uncovers the stack below it. Whatever its ticks preserve,
given what always holds, is then still true. -/
theorem reaches_of_completes {frames : List Frame} {m : Machine} {depth : Nat}
    (hc : Machine.Completes frames m depth) (hn : ∀ frame ∈ frames, frame.isNested = true)
    (stack : List Frame) (hA : Always program A ⟨frames ++ stack, m⟩)
    (hP : ∀ frame stack frames m m', A ⟨frame :: stack, m⟩ → frame.isNested = true →
      frame.Ticked m frames m' → P m → P m') (hm : P m) :
    (∃ n, after? program n ⟨frames ++ stack, m⟩ = none) ∨
      ∃ n m', after? program n ⟨frames ++ stack, m⟩ = some ⟨stack, m'⟩ ∧ m'.depth = depth ∧
        P m' := by
  induction hc with
  | done m => exact Or.inr ⟨0, m, rfl, rfl, hm⟩
  | fails h =>
    refine Or.inl ⟨1, ?_⟩
    simp only [after?, next?, List.cons_append, Machine.tick_cons_of_error program _ h,
      Option.bind_none]
  | ticks h hc ih =>
    rename_i frame frames above m m' depth
    have hnext : next? program ⟨frame :: above ++ stack, m⟩ =
        some ⟨frames ++ above ++ stack, m'⟩ := by
      simp only [next?, List.cons_append, Machine.tick_cons_of_ok program _ h, List.append_assoc]
    have hafter (n : Nat) : after? program (n + 1) ⟨frame :: above ++ stack, m⟩ =
        after? program n ⟨frames ++ above ++ stack, m'⟩ := by
      rw [after?, hnext, Option.bind_some]
    have ht := Frame.ticked_of_tick h
    have hn' : ∀ other ∈ frames ++ above, other.isNested = true :=
      List.forall_mem_append.mpr
        ⟨ht.isNested, fun other ho => hn other (List.mem_cons_of_mem _ ho)⟩
    have hm' := hP frame _ _ m m' hA.now (hn frame List.mem_cons_self) ht hm
    have hA' : Always program A ⟨frames ++ above ++ stack, m'⟩ :=
      hA.later (n := 1) (by rw [hafter, after?])
    rcases ih hn' hA' hm' with ⟨n, hend⟩ | ⟨n, m₁, hreach, hdepth, hm₁⟩
    · exact Or.inl ⟨n + 1, (hafter n).trans hend⟩
    · exact Or.inr ⟨n + 1, m₁, (hafter n).trans hreach, hdepth, hm₁⟩

theorem after?_one_of_ended {m : Machine} (h : program.length ≤ m.ip) :
    after? program 1 ⟨[], m⟩ = none := by
  have ht := Machine.nextLine_ticked program m
  rw [after?, next?]
  dsimp only
  cases hr : Machine.tick program [] m with
  | error fault m' => rfl
  | ok result m' =>
    rw [hr] at ht
    cases ht with
    | ended hd => rfl
    | begun hd hs =>
      rw [List.drop_eq_nil_of_le h] at hd
      cases hd

/-- A program line ends the run or leads to the next one. Whatever its ticks preserve, given what
always holds, is true when it is done. -/
theorem reaches_next_line {m : Machine} (hA : Always program A ⟨[], m⟩)
    (hstart : ∀ line rest frames span m', program.drop m.ip = line :: rest →
      Machine.Started .global line rest m.lineReady frames span m' → P m')
    (hP : ∀ frame stack frames m m', A ⟨frame :: stack, m⟩ → frame.isNested = true →
      frame.Ticked m frames m' → P m → P m') :
    (∃ n, after? program n ⟨[], m⟩ = none) ∨
      ∃ n span m', 0 < span ∧ after? program (n + 1) ⟨[], m⟩ = some ⟨[], m'.lineEnded m.ip span⟩ ∧
        m'.depth = m.depth ∧ P m' := by
  have ht := Machine.nextLine_ticked program m
  cases hr : Machine.tick program [] m with
  | error fault m' =>
    refine Or.inl ⟨1, ?_⟩
    simp only [after?, next?, hr, Option.bind_none]
  | ok result m' =>
    rw [hr] at ht
    cases ht with
    | ended hd =>
      refine Or.inl ⟨1, ?_⟩
      simp only [after?, next?, hr, Option.bind_none]
    | begun hd hs =>
      rename_i line rest frames span
      have hafter (n : Nat) : after? program (n + 1) ⟨[], m⟩ =
          after? program n ⟨frames ++ [.line m.ip span], m'⟩ := by
        rw [after?, next?, hr]
        rfl
      have hA' : Always program A ⟨frames ++ [.line m.ip span], m'⟩ :=
        hA.later (n := 1) (by rw [hafter, after?])
      rcases reaches_of_completes hs.completes hs.isNested _ hA' hP
          (hstart line rest frames span m' hd hs) with ⟨n, hend⟩ | ⟨n, m₁, hreach, hdepth, hm₁⟩
      · exact Or.inl ⟨n + 1, (hafter n).trans hend⟩
      · refine Or.inr ⟨n + 1, span, m₁, hs.span_pos, ?_, ?_, hm₁⟩
        · rw [hafter, after?_add, hreach]
          rfl
        · rw [hdepth, Machine.lineReady_depth]

/-- A run ends if every program line lowers a rank. What a line does to the machine it began with
is a relation that its ticks preserve. -/
theorem ends_of_descent {α : Type} [LT α] [WellFoundedLT α] (rank : Machine → α)
    {I : Machine → Prop} {S : Machine → Machine → Prop}
    (hstart : ∀ m line rest frames span m', I m → program.drop m.ip = line :: rest →
      Machine.Started .global line rest m.lineReady frames span m' → S m m')
    (htick : ∀ m frame stack frames m₁ m₂, I m → A ⟨frame :: stack, m₁⟩ →
      frame.isNested = true → frame.Ticked m₁ frames m₂ → S m m₁ → S m m₂)
    (hend : ∀ m m' span, I m → S m m' → 0 < span → m.ip < program.length →
      I (m'.lineEnded m.ip span) ∧ rank (m'.lineEnded m.ip span) < rank m)
    {m : Machine} (hI : I m) (hA : Always program A ⟨[], m⟩) :
    ∃ n, after? program n ⟨[], m⟩ = none := by
  generalize hr : rank m = r
  induction r using WellFoundedLT.induction generalizing m with
  | _ r ih =>
    by_cases hip : program.length ≤ m.ip
    · exact ⟨1, after?_one_of_ended hip⟩
    rcases reaches_next_line hA (fun line rest frames span m' => hstart m line rest frames span m' hI)
      (fun frame stack frames m₁ m₂ => htick m frame stack frames m₁ m₂ hI) with
      hended | ⟨n, span, m', hspan, hreach, _, hline⟩
    · exact hended
    · obtain ⟨hI', hlt⟩ := hend m m' span hI hline hspan (not_le.mp hip)
      obtain ⟨n', hended⟩ := ih _ (hr ▸ hlt) hI' (hA.later hreach) rfl
      refine ⟨n + 1 + n', ?_⟩
      rw [after?_add, hreach]
      exact hended

/-- Work that is worked off by itself is worked off in the same way above a program line. -/
theorem after?_of_complete (program : List String) {budget : Nat} {frames : List Frame}
    {m m' : Machine} (h : Machine.complete budget frames m = some (.ok () m')) (stack : List Frame) :
    ∃ n, after? program n ⟨frames ++ stack, m⟩ = some ⟨stack, m'⟩ := by
  induction budget generalizing frames m with
  | zero =>
    cases frames with
    | nil =>
      rw [Machine.complete] at h
      cases h
      exact ⟨0, rfl⟩
    | cons frame frames => cases h
  | succ budget ih =>
    cases frames with
    | nil =>
      rw [Machine.complete] at h
      cases h
      exact ⟨0, rfl⟩
    | cons frame frames =>
      rw [Machine.complete] at h
      cases ht : frame.tick m with
      | error fault m₁ =>
        rw [ht] at h
        cases h
      | ok more m₁ =>
        rw [ht] at h
        obtain ⟨n, hn⟩ := ih h
        refine ⟨n + 1, ?_⟩
        rw [after?, next?, List.cons_append, Machine.tick_cons_of_ok program _ ht,
          ← List.append_assoc]
        exact hn

theorem resume_of_complete {budget : Nat} {frames : List Frame} {m m' : Machine} {fault : Fault}
    (h : Machine.complete budget frames m = some (.error fault m')) (index span : Nat) :
    Machine.resume program budget (frames ++ [.line index span]) m = some (.error fault m') := by
  induction budget generalizing frames m with
  | zero =>
    cases frames with
    | nil => cases h
    | cons frame frames => cases h
  | succ budget ih =>
    cases frames with
    | nil =>
      rw [Machine.complete] at h
      cases h
    | cons frame frames =>
      rw [Machine.complete] at h
      rw [List.cons_append, Machine.resume]
      cases ht : frame.tick m with
      | error cause m₁ =>
        have hcalls : (frame :: (frames ++ [.line index span])).countP Frame.isCall =
            (frame :: frames).countP Frame.isCall := by
          rw [← List.cons_append, List.countP_append]
          rfl
        rw [ht] at h
        rw [Machine.tick_cons_of_error program _ ht]
        dsimp only at h ⊢
        rw [Machine.unwind, hcalls]
        exact h
      | ok more m₁ =>
        rw [ht] at h
        rw [Machine.tick_cons_of_ok program _ ht, ← List.append_assoc]
        exact ih h

theorem tick_of_start {line : String} {rest : List String} {m : Machine}
    (ht : Machine.trace ("\nLine " ++ toString m.ip ++ "\n") m =
      .ok () (m.traced ("\nLine " ++ toString m.ip ++ "\n")))
    (hd : program.drop m.ip = line :: rest) :
    Machine.tick program [] m =
      match Machine.start .global line rest m.lineReady with
      | .ok (frames, span) m' => .ok (some (frames ++ [.line m.ip span])) m'
      | .error fault m' => .error fault m' := by
  rw [Machine.tick_of_drop hd, Machine.bind_of_ok ht, Machine.modify_bind]
  change (Machine.start .global line rest >>= fun result =>
    pure (some (result.1 ++ [.line m.ip result.2]))) m.lineReady = _
  cases hs : Machine.start .global line rest m.lineReady with
  | ok result m' => exact Machine.bind_of_ok hs
  | error fault m' => exact Machine.bind_of_error hs

/-- With the trace off, the tick of a program line is that of beginning it. -/
theorem tick_nil_of_debug {line : String} {rest : List String} {m : Machine}
    (hd : m.debug = false) (hp : program.drop m.ip = line :: rest) :
    Machine.tick program [] m =
      match Machine.start .global line rest { m with jumped := false } with
      | .ok (frames, span) m' => .ok (some (frames ++ [.line m.ip span])) m'
      | .error fault m' => .error fault m' := by
  have ht : Machine.trace ("\nLine " ++ toString m.ip ++ "\n") m =
      .ok () (m.traced ("\nLine " ++ toString m.ip ++ "\n")) := by
    rw [Machine.trace_of_debug hd, Machine.traced_of_debug hd]
  rw [tick_of_start ht hp, Machine.lineReady_of_debug hd]

/-- A run executes a program line as `step` does, and goes on where the line leads or ends with its
fault. -/
theorem run_follows_step {m : Machine} {budget : Nat}
    {result : EStateM.Result Fault Machine Nat}
    (ht : Machine.trace ("\nLine " ++ toString m.ip ++ "\n") m =
      .ok () (m.traced ("\nLine " ++ toString m.ip ++ "\n")))
    (h : Machine.step budget .global program m.ip m.lineReady = some result) :
    ∃ n, match result with
      | .ok span m' => after? program n ⟨[], m⟩ = some ⟨[], m'.lineEnded m.ip span⟩
      | .error fault m' => Machine.resume program n [] m = some (.error fault m') := by
  unfold Machine.step at h
  cases hd : program.drop m.ip with
  | nil =>
    rw [hd] at h
    cases h
  | cons line rest =>
    have htick := tick_of_start ht hd
    rw [hd] at h
    dsimp only at h
    cases hs : Machine.start .global line rest m.lineReady with
    | error fault m' =>
      rw [hs] at h htick
      cases h
      refine ⟨1, ?_⟩
      dsimp only
      rw [Machine.resume, htick]
      rfl
    | ok begun m' =>
      obtain ⟨frames, span⟩ := begun
      rw [hs] at h htick
      dsimp only at h htick
      cases hc : Machine.complete budget frames m' with
      | none =>
        rw [hc] at h
        cases h
      | some outcome =>
        rw [hc] at h
        cases outcome with
        | ok value m₁ =>
          cases h
          obtain ⟨n, hn⟩ := after?_of_complete program hc [.line m.ip span]
          refine ⟨n + 1 + 1, ?_⟩
          dsimp only
          rw [after?, next?, htick]
          dsimp only [Option.bind_some]
          rw [after?_add, hn]
          rfl
        | error fault m₁ =>
          cases h
          refine ⟨budget + 1, ?_⟩
          dsimp only
          rw [Machine.resume, htick]
          exact resume_of_complete hc m.ip span

end Moment

namespace Machine

theorem Started.still {scope : Scope} {line : String} {rest : List String} {m m' : Machine}
    {frames : List Frame} {span : Nat} (h : Started scope line rest m frames span m')
    (hj : Statement.jumps line = false) : m'.ip = m.ip ∧ m'.jumped = m.jumped := by
  cases h with
  | jumped hr hf hjump =>
    rw [Statement.jumps_of_read hr] at hj
    cases hj
  | plain hr hs hf hsame =>
    obtain ⟨vars, interrupted, sink, rfl⟩ := hsame
    exact ⟨rfl, rfl⟩
  | _ => exact ⟨rfl, rfl⟩

end Machine

theorem Frame.Ticked.still {frame : Frame} {m m' : Machine} {frames : List Frame}
    (h : frame.Ticked m frames m') (hn : frame.isNested = true)
    (hj : ∀ line ∈ frame.lines, Statement.jumps line = false) :
    m'.ip = m.ip ∧ m'.jumped = m.jumped := by
  cases h with
  | line => cases hn
  | bodyLine hs => exact hs.still (hj _ List.mem_cons_self)
  | callLine hs =>
    have hstill := hs.still (hj _ List.mem_cons_self)
    rw [Machine.traced_ip, Machine.traced_jumped] at hstill
    exact hstill
  | _ => exact ⟨rfl, rfl⟩

/-- Frames of bodies, loops and calls above the program line in which they stand. -/
def Frame.AboveLine (index span : Nat) (stack : List Frame) : Prop :=
  ∃ above, stack = above ++ [.line index span] ∧ ∀ frame ∈ above, frame.isNested = true

namespace Moment

/-- Every program line after this moment comes after the given one. -/
def Beyond (index : Nat) (c : Moment) : Prop :=
  (c.stack = [] ∧ index < c.machine.ip) ∨
    ∃ above line span, c.stack = above ++ [.line line span] ∧
      (∀ frame ∈ above, frame.isNested = true) ∧ c.machine.jumped = false ∧ index ≤ line ∧ 0 < span

variable {program : List String}

/-- A tick in the middle of a program line is either its last one or one of a frame above it. -/
theorem steps_of_aboveLine {c c' : Moment} {index span : Nat}
    (hc : Frame.AboveLine index span c.stack) (hs : Steps program c c') :
    (c.stack = [.line index span] ∧ c' = ⟨[], c.machine.lineEnded index span⟩) ∨
      ∃ frame stack frames, c.stack = frame :: stack ∧ frame.isNested = true ∧
        frame.Ticked c.machine frames c'.machine ∧ Frame.AboveLine index span c'.stack := by
  obtain ⟨above, hstack, hn⟩ := hc
  cases hs with
  | line hd h => exact absurd hstack.symm (by simp)
  | frame ht =>
    rename_i frame stack frames m m'
    cases above with
    | nil =>
      cases hstack
      cases ht
      exact Or.inl ⟨rfl, rfl⟩
    | cons top above =>
      cases hstack
      refine Or.inr ⟨frame, above ++ [.line index span], frames, rfl, hn frame List.mem_cons_self,
        ht, frames ++ above, (List.append_assoc _ _ _).symm, ?_⟩
      exact List.forall_mem_append.mpr
        ⟨ht.isNested, fun other ho => hn other (List.mem_cons_of_mem _ ho)⟩

theorem beyond_of_begun (hprogram : ∀ line ∈ program, Statement.jumps line = false)
    {line : String} {rest : List String} {frames : List Frame} {span index : Nat} {m m' : Machine}
    (hd : program.drop m.ip = line :: rest)
    (h : Machine.Started .global line rest m.lineReady frames span m') (hi : index ≤ m.ip) :
    Beyond index ⟨frames ++ [.line m.ip span], m'⟩ := by
  have hmem : line ∈ program := List.mem_of_mem_drop (hd ▸ List.mem_cons_self)
  have hstill := h.still (hprogram line hmem)
  exact Or.inr ⟨frames, m.ip, span, rfl, h.isNested, hstill.2, hi, h.span_pos⟩

/-- Without jumps a run never comes back to an earlier line. -/
theorem beyond_of_steps (hprogram : ∀ line ∈ program, Statement.jumps line = false) {index : Nat}
    {c c' : Moment} (hs : Steps program c c')
    (ho : Only (fun line => Statement.jumps line = false) c) (hc : Beyond index c) :
    Beyond index c' := by
  rcases hc with ⟨hstack, hi⟩ | ⟨above, line, span, hstack, hn, hj, hi, hspan⟩
  · cases hs with
    | frame ht => cases hstack
    | line hd h => exact beyond_of_begun hprogram hd h hi.le
  · rcases steps_of_aboveLine ⟨above, hstack, hn⟩ hs with
      ⟨_, rfl⟩ | ⟨frame, stack, frames, htop, hnested, ht, above', hstack', hn'⟩
    · refine Or.inl ⟨rfl, ?_⟩
      simp only [Machine.lineEnded, hj, Bool.false_eq_true, if_false]
      omega
    · have hmem : frame ∈ c.stack := htop ▸ List.mem_cons_self
      have hstill := ht.still hnested (ho.1 frame hmem)
      exact Or.inr ⟨above', line, span, hstack', hn', hstill.2.trans hj, hi, hspan⟩

theorem always_only_of_forall {Q : String → Prop} (hprogram : ∀ line ∈ program, Q line)
    (m : Machine) : Always program (Only Q) (first m) :=
  always_of_steps
    (fun _ _ hs hc => only_of_steps (fun _ _ _ => Machine.opensOnto_of_program hprogram) hs hc)
    (only_first Q m)

/-- Without jumps the program lines are taken in ascending order. -/
theorem ip_lt_ip_of_no_jumps (hprogram : ∀ line ∈ program, Statement.jumps line = false)
    {m m₁ m₂ : Machine} {i j : Nat} (hij : i < j)
    (hi : after? program i (first m) = some ⟨[], m₁⟩)
    (hj : after? program j (first m) = some ⟨[], m₂⟩) : m₁.ip < m₂.ip := by
  have honly := (always_only_of_forall hprogram m).later hi
  obtain ⟨k, rfl⟩ := Nat.exists_eq_add_of_le (Nat.succ_le_of_lt hij)
  have hk : after? program (k + 1) ⟨[], m₁⟩ = some ⟨[], m₂⟩ := by
    rw [Nat.succ_add, ← Nat.add_succ, after?_add, hi] at hj
    exact hj
  rw [after?] at hk
  obtain ⟨c, hnext, hlater⟩ := Option.bind_eq_some_iff.mp hk
  have hc : Beyond m₁.ip c := by
    cases steps_of_next? hnext with
    | line hd h => exact beyond_of_begun hprogram hd h le_rfl
  have honlyc : Only (fun line => Statement.jumps line = false) c :=
    honly 1 c (by rw [after?, hnext]; rfl)
  have hstep (c c' : Moment) (hs : Steps program c c')
      (hc : Only (fun line => Statement.jumps line = false) c ∧ Beyond m₁.ip c) :
      Only (fun line => Statement.jumps line = false) c' ∧ Beyond m₁.ip c' :=
    ⟨only_of_steps (fun _ _ _ => Machine.opensOnto_of_program hprogram) hs hc.1,
      beyond_of_steps hprogram hs hc.1 hc.2⟩
  rcases (after?_induction hstep ⟨honlyc, hc⟩ hlater).2 with ⟨_, hlt⟩ | ⟨above, _, _, hstack, _⟩
  · exact hlt
  · exact absurd hstack.symm (by simp)

theorem ends_of_no_jumps (hprogram : ∀ line ∈ program, Statement.jumps line = false)
    {m : Machine} (hA : Always program (Only fun line => Statement.jumps line = false) ⟨[], m⟩) :
    ∃ n, after? program n ⟨[], m⟩ = none := by
  -- The rank is the number of program lines that are still ahead.
  apply ends_of_descent (I := fun _ => True) (fun m => program.length - m.ip)
    (S := fun m m' => m'.ip = m.ip ∧ m'.jumped = false) ?_ ?_ ?_ trivial hA
  · intro m line rest frames span m' _ hd h
    have hmem : line ∈ program := List.mem_of_mem_drop (hd ▸ List.mem_cons_self)
    have hstill := h.still (hprogram line hmem)
    exact ⟨hstill.1.trans (Machine.lineReady_ip m), hstill.2⟩
  · intro m frame stack frames m₁ m₂ _ ho hn ht h
    have hstill := ht.still hn (ho.1 frame List.mem_cons_self)
    exact ⟨hstill.1.trans h.1, hstill.2.trans h.2⟩
  · intro m m' span _ h hspan hip
    have hnext : (m'.lineEnded m.ip span).ip = m.ip + span := by
      simp only [Machine.lineEnded, h.2, Bool.false_eq_true, if_false]
    refine ⟨trivial, ?_⟩
    omega

end Moment

/-- Every line that is begun completes, whatever the machine and whatever the macros do to each
other. Hence a program without jumps ends, and executes none of its lines twice. -/
theorem lines_complete_and_straight_programs_end :
    (∀ (scope : Scope) (lines : List String) (index : Nat) (m : Machine), index < lines.length →
      ∃ budget result, Machine.step budget scope lines index m = some result) ∧
    ∀ (program : List String) (m : Machine), (∀ line ∈ program, Statement.jumps line = false) →
      (∃ budget result, Machine.run budget program m = some result) ∧
      ∀ i j m₁ m₂, i < j →
        Moment.after? program i (.first m) = some ⟨[], m₁⟩ →
        Moment.after? program j (.first m) = some ⟨[], m₂⟩ → m₁.ip < m₂.ip := by
  refine ⟨fun scope lines index m hi => Machine.step_completes scope hi m,
    fun program m hprogram => ⟨?_, ?_⟩⟩
  · exact (Moment.run_ends_iff m).mpr
      (Moment.ends_of_no_jumps hprogram (Moment.always_only_of_forall hprogram m))
  · intro i j m₁ m₂ hij hi hj
    exact Moment.ip_lt_ip_of_no_jumps hprogram hij hi hj

theorem recursive_call_completes_and_its_program_ends :
    let program :=
      ["MACRO m", "CALL m", "END MACRO", "CALL m", "FOR i FROM 1 TO NaN", "CALL m", "END FOR"]
    (3 < program.length ∧ ∃ budget result,
      Machine.step budget .global program 3 { macros := .define {} "m" ["CALL m"] } =
        some result) ∧
    (∀ line ∈ program, Statement.jumps line = false) ∧
    ∃ budget result, Machine.run budget program {} = some result := by
  intro program
  have hlength : 3 < program.length := by decide
  have hjumps : ∀ line ∈ program, Statement.jumps line = false := by decide +kernel
  obtain ⟨hstep, hrun⟩ := lines_complete_and_straight_programs_end
  exact ⟨⟨hlength, hstep .global program 3 _ hlength⟩, hjumps, (hrun program {} hjumps).1⟩

end LineScript
