import LineScript.Proofs.Course

/-! Bodies one after the other. A block ends at the first terminator behind its header, so lines
that come later make no difference to it. If no block is left open at the end of some lines, these
lines and whatever follows them are executed one after the other. -/

namespace LineScript

/-- Where a body is left when it is stepped over: one line at a time, and the headers of blocks with
all lines of their blocks. A block without a terminator leads one line too far. -/
def landing : List String → Nat
  | [] => 0
  | line :: rest => spanOf line rest + landing (rest.drop (spanOf line rest - 1))
termination_by lines => lines.length
decreasing_by
  rw [List.length_drop, List.length_cons]
  omega

theorem spanOf_pos (line : String) (rest : List String) : 0 < spanOf line rest := by
  unfold spanOf
  split
  · exact Nat.succ_pos _
  · exact Nat.one_pos

/-- Where stepping lands exactly on the end, it does so behind the first line as well. -/
theorem landing_cons {line : String} {rest : List String}
    (h : landing (line :: rest) = (line :: rest).length) :
    spanOf line rest ≤ rest.length + 1 ∧
      landing (rest.drop (spanOf line rest - 1)) =
        (rest.drop (spanOf line rest - 1)).length := by
  have hpos := spanOf_pos line rest
  rw [landing, List.length_cons] at h
  rw [List.length_drop]
  omega

/-- A body that ends before the lines do is the same with more lines behind them. -/
theorem BlockKind.body_append (kind : BlockKind) {rest : List String}
    (h : (kind.body rest).length < rest.length) (more : List String) :
    kind.body (rest ++ more) = kind.body rest := by
  unfold body at h ⊢
  rw [List.takeWhile_append, if_neg h.ne]

/-- A body is cut off in front of its terminator. -/
theorem BlockKind.body_of_terminated (kind : BlockKind) {body : List String}
    (h : kind.terminator ∉ body) (rest : List String) :
    kind.body (body ++ kind.terminator :: rest) = body := by
  have hlines : ∀ line ∈ body, decide (line ≠ kind.terminator) = true := by
    intro line hline
    rw [decide_eq_true_eq]
    rintro rfl
    exact h hline
  unfold BlockKind.body
  rw [List.takeWhile_append_of_pos hlines]
  simp

namespace Machine

/-- A stack is worked off to a result, in however many ticks. -/
def Yields (stack : List Frame) (m : Machine) (result : EStateM.Result Fault Machine Unit) : Prop :=
  ∃ budget, complete budget stack m = some result

section Yields

variable {frame : Frame} {frames stack top below : List Frame} {m m' : Machine} {fault : Fault}
  {result result' : EStateM.Result Fault Machine Unit}

theorem Yields.unique (h : Yields stack m result) (h' : Yields stack m result') :
    result = result' := by
  obtain ⟨budget, hb⟩ := h
  obtain ⟨budget', hb'⟩ := h'
  exact complete_unique hb hb'

/-- A stack with one result has no other. -/
theorem Yields.iff_eq (h : Yields stack m result) : Yields stack m result' ↔ result' = result := by
  constructor
  · intro h'
    exact h'.unique h
  · intro he
    rw [he]
    exact h

/-- A tick that succeeds makes no difference to the result. -/
theorem yields_of_tick (h : frame.tick m = .ok frames m') :
    Yields (frame :: stack) m result ↔ Yields (frames ++ stack) m' result := by
  constructor
  · intro h'
    obtain ⟨budget, hb⟩ := h'
    cases budget with
    | zero => cases hb
    | succ budget =>
      rw [complete, h] at hb
      exact ⟨budget, hb⟩
  · intro h'
    obtain ⟨budget, hb⟩ := h'
    refine ⟨budget + 1, ?_⟩
    rw [complete, h]
    exact hb

theorem yields_of_failed (h : frame.tick m = .error fault m') :
    Yields (frame :: stack) m (.error fault (m'.unwind (frame :: stack))) :=
  ⟨1, by rw [complete, h]⟩

/-- Frames that are no calls are left without a trace. -/
theorem unwind_append (hb : ∀ frame ∈ below, frame.isCall = false) (m : Machine) :
    m.unwind (top ++ below) = m.unwind top := by
  have hcount : below.countP Frame.isCall = 0 := by
    apply List.countP_eq_zero.mpr
    intro frame hframe
    rw [hb frame hframe]
    exact Bool.false_ne_true
  unfold unwind
  rw [List.countP_append, hcount, Nat.add_zero]

/-- Work that ends well uncovers what is below it. -/
theorem Yields.append (h : Yields top m (.ok () m')) :
    Yields (top ++ below) m result ↔ Yields below m' result := by
  obtain ⟨budget, hb⟩ := h
  -- The induction is on the ticks that the work takes.
  induction budget generalizing top m with
  | zero =>
    cases top with
    | nil =>
      rw [complete] at hb
      cases hb
      exact Iff.rfl
    | cons frame top => cases hb
  | succ budget ih =>
    cases top with
    | nil =>
      rw [complete] at hb
      cases hb
      exact Iff.rfl
    | cons frame top =>
      rw [complete] at hb
      cases ht : frame.tick m with
      | error fault m₁ =>
        rw [ht] at hb
        cases hb
      | ok frames m₁ =>
        rw [ht] at hb
        rw [List.cons_append, yields_of_tick ht, ← List.append_assoc]
        exact ih hb

/-- Work that fails keeps what is below it from being done. -/
theorem Yields.append_error (h : Yields top m (.error fault m'))
    (hbelow : ∀ frame ∈ below, frame.isCall = false) :
    Yields (top ++ below) m result ↔ result = .error fault m' := by
  have hfails : Yields (top ++ below) m (.error fault m') := by
    obtain ⟨budget, hb⟩ := h
    induction budget generalizing top m with
    | zero => cases top <;> cases hb
    | succ budget ih =>
      cases top with
      | nil => cases hb
      | cons frame top =>
        rw [complete] at hb
        cases ht : frame.tick m with
        | error cause m₁ =>
          rw [ht] at hb
          cases hb
          rw [← unwind_append hbelow]
          exact yields_of_failed ht
        | ok frames m₁ =>
          rw [ht] at hb
          rw [List.cons_append, yields_of_tick ht, ← List.append_assoc]
          exact ih hb
  exact hfails.iff_eq

/-- Two stacks do the same below the same work if they do so after every good end of it. -/
theorem Yields.append_congr {below' : List Frame} (h : Yields top m result')
    (hbelow : ∀ frame ∈ below, frame.isCall = false)
    (hbelow' : ∀ frame ∈ below', frame.isCall = false)
    (hsame : ∀ m₁, Yields below m₁ result ↔ Yields below' m₁ result) :
    Yields (top ++ below) m result ↔ Yields (top ++ below') m result := by
  cases result' with
  | ok value m₁ => rw [h.append, h.append, hsame]
  | error fault m₁ => rw [h.append_error hbelow, h.append_error hbelow']

end Yields

section Bodies

variable {scope : Scope} {line : String} {rest : List String} {m m' : Machine} {frames : List Frame}
  {span : Nat} {fault : Fault} {result : EStateM.Result Fault Machine Unit}

theorem body_ends (scope : Scope) (lines : List String) (m : Machine) :
    ∃ budget, (complete budget [.body scope lines] m).isSome := by
  obtain ⟨budget, result, h, _⟩ := (body_completes scope lines rfl : Completes _ m _).exists_result
  exact ⟨budget, Option.isSome_of_eq_some h⟩

/-- Executes lines as the body of a block, with as many ticks as it takes. -/
def execBody (scope : Scope) (lines : List String) : Exec Unit := fun m =>
  (complete (Nat.find (body_ends scope lines m)) [.body scope lines] m).get
    (Nat.find_spec (body_ends scope lines m))

theorem execBody_yields (scope : Scope) (lines : List String) (m : Machine) :
    Yields [.body scope lines] m (execBody scope lines m) :=
  ⟨_, (Option.some_get _).symm⟩

theorem execBody_eq_iff :
    execBody scope rest m = result ↔ Yields [.body scope rest] m result := by
  rw [(execBody_yields scope rest m).iff_eq]
  exact eq_comm

/-- Of the lines after it, a line looks only at the body of the block that it opens. -/
theorem start_congr {rest' : List String} (scope : Scope) (m : Machine)
    (h : ∀ kind, Statement.opened? line = some kind → kind.body rest = kind.body rest') :
    start scope line rest m = start scope line rest' m := by
  cases hr : Statement.read (m.vars.isString scope) line with
  | error cause => rw [start_of_unreadable rest hr, start_of_unreadable rest' hr]
  | ok statement =>
    have hbody (kind : BlockKind) (ho : statement.opens? = some kind) :
        kind.body rest = kind.body rest' :=
      h kind (Statement.opened?_of_read hr ho)
    cases statement with
    | macroHeader name =>
      rw [start_of_macroHeader rest hr, start_of_macroHeader rest' hr, hbody _ rfl]
    | ifHeader condition =>
      rw [start_of_ifHeader rest hr, start_of_ifHeader rest' hr, hbody _ rfl]
    | forHeader header =>
      rw [start_of_forHeader rest hr, start_of_forHeader rest' hr, hbody _ rfl]
    | _ => rw [start_of_opens?_eq_none rest hr rfl, start_of_opens?_eq_none rest' hr rfl]

/-- A line whose block ends among the lines after it begins in the same way with more lines. -/
theorem start_append (scope : Scope) (m : Machine) (h : spanOf line rest ≤ rest.length + 1)
    (more : List String) : start scope line (rest ++ more) m = start scope line rest m := by
  apply start_congr
  intro kind hk
  apply kind.body_append
  have hspan : spanOf line rest = (kind.body rest).length + 2 := by
    rw [spanOf, hk]
    rfl
  omega

theorem tick_body_of_start (h : start scope line rest m = .ok (frames, span) m') :
    (Frame.body scope (line :: rest)).tick m =
      .ok (frames ++ [.body scope (rest.drop (span - 1))]) m' := by
  rw [Frame.tick_body_cons]
  exact bind_of_ok h

theorem tick_body_of_failed (h : start scope line rest m = .error fault m') :
    (Frame.body scope (line :: rest)).tick m = .error fault m' := by
  rw [Frame.tick_body_cons]
  exact bind_of_error h

/-- Lines that leave no block open are worked off before the lines behind them. -/
theorem yields_body_append (scope : Scope) {first : List String}
    (h : landing first = first.length) (second : List String) (m : Machine) :
    Yields [.body scope (first ++ second)] m result ↔
      Yields [.body scope first, .body scope second] m result := by
  -- The induction is on the lines that are left, and goes from a header to the line behind its
  -- block.
  generalize hn : first.length = n
  induction n using Nat.strong_induction_on generalizing first m with
  | _ n ih =>
    cases first with
    | nil =>
      have hend : (Frame.body scope []).tick m = .ok [] m := rfl
      exact (yields_of_tick hend).symm
    | cons line rest =>
      obtain ⟨hspan, hlater⟩ := landing_cons h
      have hstart := start_append scope m hspan second
      cases hs : start scope line rest m with
      | error fault m' =>
        -- The line fails with and without the other lines, and no call has to be left.
        rw [hs] at hstart
        rw [List.cons_append, (yields_of_failed (tick_body_of_failed hstart)).iff_eq,
          (yields_of_failed (tick_body_of_failed hs)).iff_eq]
        exact Iff.rfl
      | ok begun m' =>
        obtain ⟨frames, span⟩ := begun
        have hbegun := started_of_start hs
        have hse := hbegun.span_eq
        have hdrop : (rest ++ second).drop (span - 1) = rest.drop (span - 1) ++ second :=
          List.drop_append_of_le_length (by omega)
        have hshorter : (rest.drop (span - 1)).length < n := by
          rw [← hn, List.length_drop, List.length_cons]
          omega
        obtain ⟨budget, done, hdone, _⟩ := hbegun.completes.exists_result
        rw [hs] at hstart
        rw [← hse] at hlater
        rw [List.cons_append, yields_of_tick (tick_body_of_start hstart),
          yields_of_tick (tick_body_of_start hs), List.append_nil, List.append_assoc, hdrop]
        apply Yields.append_congr ⟨budget, hdone⟩
        · simp [Frame.isCall]
        · simp [Frame.isCall]
        · intro m₁
          exact ih _ hshorter hlater m₁ rfl

theorem yields_pair {first second : List String} :
    Yields [.body scope first, .body scope second] m
      ((execBody scope first >>= fun _ => execBody scope second) m) := by
  have hfirst := execBody_yields scope first m
  cases hr : execBody scope first m with
  | ok value m' =>
    rw [hr] at hfirst
    rw [bind_of_ok hr]
    exact hfirst.append.mpr (execBody_yields scope second m')
  | error fault m' =>
    rw [hr] at hfirst
    rw [bind_of_error hr]
    apply (hfirst.append_error _).mpr rfl
    simp [Frame.isCall]

theorem execBody_append (scope : Scope) {first : List String}
    (h : landing first = first.length) (second : List String) :
    execBody scope (first ++ second) = execBody scope first >>= fun _ => execBody scope second := by
  funext m
  rw [execBody_eq_iff, yields_body_append scope h]
  exact yields_pair

/-- What the first line of a body leaves to be done comes before the lines behind it. -/
theorem execBody_of_start (h : start scope line rest m = .ok (frames, span) m') :
    execBody scope (line :: rest) m = result ↔
      Yields (frames ++ [.body scope (rest.drop (span - 1))]) m' result := by
  rw [execBody_eq_iff, yields_of_tick (tick_body_of_start h), List.append_nil]

/-- The header of a conditional block whose condition can be evaluated. -/
theorem start_of_evaluated {condition : Condition} {holds : Bool} (rest : List String)
    (hr : Statement.read (m.vars.isString scope) line = .ok (.ifHeader condition))
    (hf : m.Free) (hp : m.pending = none) (he : evaluate scope condition m = .ok holds m) :
    start scope line rest m =
      .ok (if holds then [.body scope (BlockKind.ifBlock.body rest)] else [],
        blockSpan (BlockKind.ifBlock.body rest)) m := by
  let m₁ : Machine := { m with pending := some ⟨.ifBlock, BlockKind.ifBlock.body rest⟩ }
  have hcleared : m₁.clearPending = m := by
    unfold clearPending
    rw [← hp]
  have hexecute : execute scope (.ifHeader condition) m₁ =
      .ok (if holds then [.body scope (BlockKind.ifBlock.body rest)] else []) m := by
    rw [execute_ifHeader_eq (m := m₁) hf scope condition rfl, hcleared, bind_of_ok he]
    cases holds <;> rfl
  rw [start_of_ifHeader rest hr, bind_of_ok hexecute]
  rfl

end Bodies

end Machine

open Machine

/-- Lines that are stepped over exactly to their end are executed before whatever follows them, and
so is a conditional block: its body comes before the lines behind its terminator if the condition
holds, and is left out if it does not. -/
theorem bodies_compose_in_sequence (scope : Scope) :
    (∀ first second : List String, landing first = first.length →
      execBody scope (first ++ second) =
        execBody scope first >>= fun _ => execBody scope second) ∧
    ∀ (header : String) (condition : Condition) (body rest : List String) (m : Machine),
      m.pending = none → m.Free →
      Statement.read (m.vars.isString scope) header = .ok (.ifHeader condition) →
      "END IF" ∉ body →
      (evaluate scope condition m = .ok true m →
        execBody scope ([header] ++ body ++ ["END IF"] ++ rest) m =
          (execBody scope body >>= fun _ => execBody scope rest) m) ∧
      (evaluate scope condition m = .ok false m →
        execBody scope ([header] ++ body ++ ["END IF"] ++ rest) m = execBody scope rest m) := by
  refine ⟨fun first second h => execBody_append scope h second, ?_⟩
  intro header condition body rest m hp hf hr hbody
  have hlines : [header] ++ body ++ ["END IF"] ++ rest = header :: (body ++ "END IF" :: rest) := by
    simp
  -- The block ends at the terminator behind its body, wherever else there are terminators.
  have hcut : BlockKind.ifBlock.body (body ++ "END IF" :: rest) = body :=
    BlockKind.body_of_terminated .ifBlock hbody rest
  have hrest : (body ++ "END IF" :: rest).drop (blockSpan body - 1) = rest := by
    simp [blockSpan]
  rw [hlines]
  constructor
  · intro he
    have hstart := start_of_evaluated (body ++ "END IF" :: rest) hr hf hp he
    rw [hcut] at hstart
    rw [execBody_of_start hstart, hrest]
    exact yields_pair
  · intro he
    have hstart := start_of_evaluated (body ++ "END IF" :: rest) hr hf hp he
    rw [hcut] at hstart
    rw [execBody_of_start hstart, hrest]
    exact execBody_yields scope rest m

/-- Behind a loop with a block in it come lines with a block that is left open. The same lines can
be the body of a block, whose terminator then closes both. -/
theorem open_block_comes_after_a_loop :
    let m : Machine := { vars := { ints := ⟨[("x", 2)]⟩ } }
    let first := ["FOR i FROM 1 TO 2", "IF i == 2", "PRINTVAR i", "END IF", "END FOR"]
    let second := ["PRINTSTR \"b\"", "IF x > 2", "PRINTSTR \"n\""]
    landing first = first.length ∧ landing (first ++ second) ≠ (first ++ second).length ∧
      (∃ m', execBody .global (first ++ second) m = .ok () m' ∧ m'.sink.bytes = "2b".toUTF8) ∧
      ∃ m', execBody .global (["IF x > 1"] ++ second ++ ["END IF"] ++ ["PRINTSTR \"c\""]) m =
        .ok () m' ∧ m'.sink.bytes = "bc".toUTF8 := by
  intro m first second
  have hlanding : landing first = first.length := by decide +kernel
  obtain ⟨hsequence, hblock⟩ := bodies_compose_in_sequence .global
  have hexec (lines : List String) (m₁ m₂ : Machine)
      (h : complete 40 [.body .global lines] m₁ = some (.ok () m₂)) :
      execBody .global lines m₁ = .ok () m₂ := execBody_eq_iff.mpr ⟨40, h⟩
  refine ⟨hlanding, by decide +kernel, ?_, ?_⟩
  · obtain ⟨m₁, m₂, hfirst, hsecond, hbytes⟩ : ∃ m₁ m₂,
        complete 40 [.body .global first] m = some (.ok () m₁) ∧
        complete 40 [.body .global second] m₁ = some (.ok () m₂) ∧
        m₂.sink.bytes = "2b".toUTF8 := ⟨_, _, rfl, rfl, by decide +kernel⟩
    refine ⟨m₂, ?_, hbytes⟩
    rw [hsequence first second hlanding, bind_of_ok (hexec _ _ _ hfirst)]
    exact hexec _ _ _ hsecond
  · obtain ⟨m₁, m₂, hbody, hrest, hbytes⟩ : ∃ m₁ m₂,
        complete 40 [.body .global second] m = some (.ok () m₁) ∧
        complete 40 [.body .global ["PRINTSTR \"c\""]] m₁ = some (.ok () m₂) ∧
        m₂.sink.bytes = "bc".toUTF8 := ⟨_, _, rfl, rfl, by decide +kernel⟩
    have hholds := (hblock "IF x > 1" ⟨"x", .gt, .int 1⟩ second ["PRINTSTR \"c\""] m rfl
      ⟨rfl, by decide +kernel⟩ (by decide +kernel) (by decide +kernel)).1 rfl
    refine ⟨m₂, ?_, hbytes⟩
    rw [hholds, bind_of_ok (hexec _ _ _ hbody)]
    exact hexec _ _ _ hrest

end LineScript
