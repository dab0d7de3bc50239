import LineScript.Proofs.Declarations
import LineScript.Proofs.JumpGuard

/-! The names that come into the tables in the course of a run. They stay there until the run ends. A
name comes in when it is declared, which succeeds only once, or as the variable of a loop, and then it
is a global integer. While a macro is being called, declarations leave the global tables alone. -/

namespace LineScript

namespace Machine

variable {scope : Scope} {line : String} {rest : List String} {m m' m'' : Machine}

/-- Nothing that was there is missing: every name has the entries that it had, also as a macro and as
a label, and every mutable integer that had a value has one. -/
structure Extends (m m' : Machine) : Prop where
  binds : ∀ name slot, m.vars.binds name slot = true → m'.vars.binds name slot = true
  holds : ∀ name, m.vars.holds name = true → m'.vars.holds name = true
  macros : ∀ name, m.macros.contains name = true → m'.macros.contains name = true
  labels : ∀ name, m.labels.contains name = true → m'.labels.contains name = true

theorem Extends.refl (m : Machine) : m.Extends m :=
  ⟨fun _ _ => id, fun _ => id, fun _ => id, fun _ => id⟩

theorem Extends.trans (h : m.Extends m') (h' : m'.Extends m'') : m.Extends m'' where
  binds name slot := h'.binds name slot ∘ h.binds name slot
  holds name := h'.holds name ∘ h.holds name
  macros name := h'.macros name ∘ h.macros name
  labels name := h'.labels name ∘ h.labels name

/-- Only the variables, the macros and the labels matter. -/
theorem extends_of_eq (hv : m'.vars = m.vars) (hm : m'.macros = m.macros)
    (hl : m'.labels = m.labels) : m.Extends m' where
  binds _ _ := hv ▸ id
  holds _ := hv ▸ id
  macros _ := hm ▸ id
  labels _ := hl ▸ id

theorem Started.macros_labels {frames : List Frame} {span : Nat}
    (h : Started scope line rest m frames span m') (name : String) :
    (m.macros.contains name = true → m'.macros.contains name = true) ∧
      (m.labels.contains name = true → m'.labels.contains name = true) := by
  have hinsert {α : Type} {t : Table α} {other : String} {value : α}
      (ht : t.contains name = true) : (t.insert other value).contains name = true := by
    rw [Table.contains_insert, ht, Bool.or_true]
  cases h with
  | defined hr => exact ⟨hinsert, id⟩
  | plain hr hs hf hsame =>
    obtain ⟨vars, interrupted, sink, rfl⟩ := hsame
    exact ⟨id, id⟩
  | labelled hr hf => exact ⟨id, hinsert⟩
  | jumped hr hf hj =>
    obtain ⟨label, _, _, rfl⟩ := LabelTable.exists_of_jump hj
    exact ⟨id, hinsert⟩
  | _ => exact ⟨id, id⟩

theorem Failed.macros_labels {fault : Fault} (h : Failed m fault m') :
    m'.macros = m.macros ∧ m'.labels = m.labels := by
  rcases h with ⟨_, pending, rfl⟩ | ⟨_, rfl | ⟨_, vars, pending, interrupted, sink, rfl⟩⟩ <;>
    exact ⟨rfl, rfl⟩

theorem extends_start (scope : Scope) (line : String) (rest : List String) (m : Machine) :
    m.Extends (endState (start scope line rest m)) := by
  have htables (name : String) :
      (m.macros.contains name = true →
        (endState (start scope line rest m)).macros.contains name = true) ∧
      (m.labels.contains name = true →
        (endState (start scope line rest m)).labels.contains name = true) := by
    have hb := start_begun scope line rest m
    cases hs : start scope line rest m with
    | ok begun m' =>
      rw [hs] at hb
      exact Started.macros_labels hb name
    | error fault m' =>
      rw [hs] at hb
      obtain ⟨hm, hl⟩ := Failed.macros_labels hb
      exact ⟨fun h => hm ▸ h, fun h => hl ▸ h⟩
  exact
    { binds := fun name slot hb => (binds_start scope line rest m name slot).mpr (Or.inl hb)
      holds := fun _ => holds_start
      macros := fun name => (htables name).1
      labels := fun name => (htables name).2 }

theorem binds_setInt (name : String) (slot : Slot) (var : String) (value : Int64) (m : Machine) :
    (m.setInt var value).vars.binds name slot = true ↔
      m.vars.binds name slot = true ∨ slot = .int ∧ name = var := by
  cases slot with
  | int =>
    change (m.vars.ints.insert var value).contains name = true ↔ _
    rw [Table.contains_insert, Bool.or_eq_true, decide_eq_true_eq, or_comm, eq_self, true_and]
    rfl
  | _ => exact ⟨Or.inl, fun h => h.resolve_right fun hint => by cases hint.1⟩

end Machine

namespace Frame

open Machine

/-- The scope in which a frame executes lines. -/
def scope : Frame → Scope
  | line _ _ => .global
  | body scope _ | loop scope _ _ _ | pass scope _ _ _ => scope
  | call _ _ => .inMacro

/-- What lies on top of a macro is executed as part of it. -/
def Above (above below : Frame) : Prop :=
  below.scope = .inMacro → above.scope = .inMacro

theorem scope_of_isCall {frame : Frame} (h : frame.isCall = true) : frame.scope = .inMacro := by
  cases frame <;> first | rfl | cases h

theorem scope_of_list? {frame : Frame} {scope : Scope} {lines : List String}
    (h : frame.list? = some (scope, lines)) : frame.scope = scope := by
  cases frame <;> cases h <;> rfl

end Frame

/-- A line begins at most one frame, in its own scope or in that of a macro. -/
theorem Machine.Started.scope_eq {scope : Scope} {line : String} {rest : List String}
    {m m' : Machine} {frames : List Frame} {span : Nat}
    (h : Started scope line rest m frames span m') :
    frames = [] ∨ ∃ frame, frames = [frame] ∧ (scope = .inMacro → frame.scope = .inMacro) := by
  cases h with
  | entered hr hf => exact Or.inr ⟨_, rfl, id⟩
  | looped hr hf => exact Or.inr ⟨_, rfl, id⟩
  | called hr hf hb hd => exact Or.inr ⟨_, rfl, fun _ => rfl⟩
  | _ => exact Or.inl rfl

theorem Frame.Ticked.above {frame : Frame} {frames : List Frame} {m m' : Machine}
    (h : frame.Ticked m frames m') :
    frames.Pairwise Frame.Above ∧ ∀ other ∈ frames, other.Above frame := by
  -- What is left of the frame lies below the frame that its line has begun.
  have hline {scope : Scope} {text : String} {rest : List String} {m : Machine}
      {begun : List Frame} {span : Nat} {left : Frame}
      (hs : Machine.Started scope text rest m begun span m') (hf : frame.scope = scope)
      (hl : left.scope = scope) :
      (begun ++ [left]).Pairwise Frame.Above ∧ ∀ other ∈ begun ++ [left], other.Above frame := by
    rcases hs.scope_eq with rfl | ⟨top, rfl, ht⟩
    · simp [Frame.Above, hf, hl]
    · simpa [Frame.Above, hf, hl] using ht
  cases h with
  | bodyLine hs => exact hline hs rfl rfl
  | callLine hs => exact hline hs rfl rfl
  | _ => simp [Frame.Above, Frame.scope]

namespace Moment

open Machine

variable {program : List String} {c c' : Moment} {name : String} {slot : Slot}

theorem above_of_steps (hs : Steps program c c') (hc : c.stack.Pairwise Frame.Above) :
    c'.stack.Pairwise Frame.Above := by
  cases hs with
  | frame ht =>
    obtain ⟨hframes, hframe⟩ := ht.above
    obtain ⟨hbelow, hstack⟩ := List.pairwise_cons.mp hc
    refine List.pairwise_append.mpr ⟨hframes, hstack, fun top htop below hb hscope => ?_⟩
    exact hframe top htop (hbelow below hb hscope)
  | line hd h =>
    rcases h.scope_eq with rfl | ⟨top, rfl, _⟩
    · exact List.pairwise_singleton _ _
    · simp [Frame.Above, Frame.scope]

/-- While a macro is being called, the line in front is executed as part of a macro. -/
theorem scope_of_ahead? {m : Machine} {n : Nat} (h : after? program n (first m) = some c)
    {frame : Frame} (hframe : frame ∈ c.stack) (hcall : frame.isCall = true) {scope : Scope}
    {lines : List String} (ha : c.ahead? program = some (scope, lines)) : scope = .inMacro := by
  have habove : c.stack.Pairwise Frame.Above :=
    always_of_steps (fun _ _ => above_of_steps) .nil n c h
  rw [ahead?] at ha
  cases hstack : c.stack with
  | nil =>
    rw [hstack] at hframe
    cases hframe
  | cons top stack =>
    rw [hstack] at hframe habove ha
    rw [← Frame.scope_of_list? ha]
    -- The topmost frame is the call itself, or it lies above the call.
    rcases List.mem_cons.mp hframe with rfl | hbelow
    · exact Frame.scope_of_isCall hcall
    · exact List.rel_of_pairwise_cons habove hbelow (Frame.scope_of_isCall hcall)

/-- The next tick declares a name, and succeeds. -/
def Declares (program : List String) (c : Moment) (slot : Slot) (name : String) : Prop :=
  ∃ scope line rest statement c', c.ahead? program = some (scope, line :: rest) ∧
    Statement.read ((c.ready program).vars.isString scope) line = .ok statement ∧
    statement.declared? scope = some (slot, name) ∧ c.next? program = some c'

/-- The next tick brings a name into a table: it declares the name, or it begins a pass of a loop with
that variable. -/
def Introduces (program : List String) (c : Moment) (slot : Slot) (name : String) : Prop :=
  c.Declares program slot name ∨ slot = .int ∧ c.BeginsPass name

theorem ready_vars (program : List String) (c : Moment) :
    (c.ready program).vars = c.machine.vars := by
  obtain ⟨jumped, interrupted, sink, he, _⟩ := readied_ready program c
  rw [he]

theorem BeginsPass.unique {other : String} (h : c.BeginsPass name) (h' : c.BeginsPass other) :
    name = other := by
  obtain ⟨frame, stack, hstack, hframe⟩ := h
  obtain ⟨frame', stack', hstack', hframe'⟩ := h'
  rw [hstack] at hstack'
  cases hstack'
  cases frame with
  | loop scope header lines value => exact hframe.1.symm.trans hframe'.1
  | _ => cases hframe

/-- A pass begins where there is no line in front. -/
theorem BeginsPass.ahead?_eq (h : c.BeginsPass name) : c.ahead? program = none := by
  obtain ⟨frame, stack, hstack, hframe⟩ := h
  rw [ahead?, hstack]
  cases frame with
  | loop scope header lines value => rfl
  | _ => cases hframe

/-- If a run goes on after a line was in front, that line has begun without a fault. -/
theorem start_of_next? {scope : Scope} {line : String} {rest : List String}
    (ha : c.ahead? program = some (scope, line :: rest)) (h : c.next? program = some c') :
    ∃ begun m', start scope line rest (c.ready program) = .ok begun m' := by
  have htick := tick_of_next? h
  rcases tick_of_ahead ha with ⟨below, ht⟩ | ⟨text, ht⟩
  · rw [ht] at htick
    cases hs : start scope line rest (c.ready program) with
    | ok begun m' => exact ⟨begun, m', rfl⟩
    | error fault m' =>
      rw [bind_of_error hs] at htick
      cases htick
  · rw [ht] at htick
    cases htick

/-- A line in front declares a name if it does so on its own, and the trace can be printed. -/
theorem binds_tick_of_ahead {scope : Scope} {line : String} {rest : List String}
    (ha : c.ahead? program = some (scope, line :: rest)) (name : String) (slot : Slot) :
    (endState (tick program c.stack c.machine)).vars.binds name slot = true ↔
      c.machine.vars.binds name slot = true ∨ c.Declares program slot name := by
  rcases tick_of_ahead ha with ⟨below, ht⟩ | ⟨text, ht⟩
  · have hdeclares : c.Declares program slot name ↔
        Machine.Declares scope line rest (c.ready program) slot name := by
      constructor
      · rintro ⟨scope', line', rest', statement, c', ha', hr, hd, hnext⟩
        rw [ha] at ha'
        cases ha'
        obtain ⟨begun, m', hs⟩ := start_of_next? ha hnext
        exact ⟨statement, begun, m', hr, hd, hs⟩
      · rintro ⟨statement, begun, m', hr, hd, hs⟩
        refine ⟨scope, line, rest, statement, ⟨begun.1 ++ below begun.2, m'⟩, ha, hr, hd, ?_⟩
        rw [next?, ht, bind_of_ok hs]
        rfl
    rw [ht, endState_bind_pure, binds_start, ready_vars, hdeclares]
  · rw [ht]
    change (c.machine.traced text).vars.binds name slot = true ↔ _
    rw [traced_vars]
    refine ⟨Or.inl, fun h => h.resolve_right ?_⟩
    rintro ⟨_, _, _, _, c', _, _, _, hnext⟩
    rw [next?, ht] at hnext
    cases hnext

/-- A tick that does not end the run brings in what it introduces, and takes nothing away. -/
theorem binds_tick (hend : ∀ m', tick program c.stack c.machine ≠ .ok none m') (name : String)
    (slot : Slot) :
    (endState (tick program c.stack c.machine)).vars.binds name slot = true ↔
      c.machine.vars.binds name slot = true ∨ c.Introduces program slot name := by
  have hline {scope : Scope} {line : String} {rest : List String}
      (ha : c.ahead? program = some (scope, line :: rest)) :
      (endState (tick program c.stack c.machine)).vars.binds name slot = true ↔
        c.machine.vars.binds name slot = true ∨ c.Introduces program slot name := by
    rw [binds_tick_of_ahead ha]
    refine or_congr_right ⟨Or.inl, fun h => h.resolve_right ?_⟩
    rintro ⟨_, hb⟩
    rw [hb.ahead?_eq] at ha
    cases ha
  have hlineless (hl : c.Lineless program) : ¬ c.Declares program slot name := by
    rintro ⟨scope, line, rest, _, _, ha, _⟩
    exact hl scope line rest ha
  have hticked := ticked program c
  generalize hm : endState (tick program c.stack c.machine) = m at hticked hline ⊢
  cases hticked with
  | begins ha => exact hline ha
  | untraced ha ht => exact hline ha
  | passes hl hb =>
    rename_i var value
    rw [binds_setInt]
    refine or_congr_right ⟨?_, ?_⟩
    · rintro ⟨hslot, rfl⟩
      exact Or.inr ⟨hslot, hb⟩
    · rintro (hd | ⟨hslot, hb'⟩)
      · exact absurd hd (hlineless hl)
      · exact ⟨hslot, hb'.unique hb⟩
  | moves hl hmoves hp =>
    obtain ⟨ip, depth, rfl⟩ := hmoves
    refine ⟨Or.inl, fun h => h.resolve_right ?_⟩
    rintro (hd | ⟨_, hb⟩)
    · exact hlineless hl hd
    · exact hp name hb
  | ends hl ht => exact absurd ht (hend _)

theorem tick_ne_none (h : c.next? program = some c') (m' : Machine) :
    tick program c.stack c.machine ≠ .ok none m' := by
  rw [tick_of_next? h]
  simp

/-- What has come into a table by some moment is what was introduced before. -/
theorem binds_iff_introduced {m : Machine} {n : Nat} (h : after? program n (first m) = some c)
    (name : String) (slot : Slot) :
    c.machine.vars.binds name slot = true ↔
      ∃ k < n, ∃ c', after? program k (first m) = some c' ∧ c'.Introduces program slot name := by
  -- The name was there before the last tick, or the last tick has introduced it.
  induction n generalizing c with
  | zero =>
    cases h
    have hempty : (first m).machine.vars.binds name slot = false := by
      cases slot <;> rfl
    rw [hempty]
    constructor
    · intro hb
      cases hb
    · rintro ⟨k, hk, _⟩
      omega
  | succ n ih =>
    rw [after?_succ] at h
    obtain ⟨c₁, hn, hnext⟩ := Option.bind_eq_some_iff.mp h
    have hbinds := binds_tick (tick_ne_none hnext) name slot
    rw [tick_of_next? hnext, ih hn] at hbinds
    refine hbinds.trans ⟨?_, ?_⟩
    · rintro (⟨k, hk, c', hc', hi⟩ | hi)
      · exact ⟨k, by omega, c', hc', hi⟩
      · exact ⟨n, by omega, c₁, hn, hi⟩
    · rintro ⟨k, hk, c', hc', hi⟩
      rcases Nat.lt_succ_iff_lt_or_eq.mp hk with hlt | rfl
      · exact Or.inl ⟨k, hlt, c', hc', hi⟩
      · rw [hn] at hc'
        cases hc'
        exact Or.inr hi

/-- The machine that a failed run leaves behind has all that was introduced. -/
theorem binds_iff_of_failed {m m' : Machine} {budget : Nat} {fault : Fault}
    (h : run budget program m = some (.error fault m')) (name : String) (slot : Slot) :
    m'.vars.binds name slot = true ↔
      ∃ k c', after? program k (first m) = some c' ∧ c'.Introduces program slot name := by
  obtain ⟨n, c, m₁, hn, htick, rfl⟩ := exists_failing_tick (c := first m) h
  have hend (m' : Machine) : tick program c.stack c.machine ≠ .ok none m' := by
    rw [htick]
    simp
  have hbinds := binds_tick hend name slot
  rw [htick, binds_iff_introduced hn] at hbinds
  refine hbinds.trans ⟨?_, ?_⟩
  · rintro (⟨k, _, c', hc', hi⟩ | hi)
    · exact ⟨k, c', hc', hi⟩
    · exact ⟨n, c, hn, hi⟩
  · rintro ⟨k, c', hc', hi⟩
    -- The run is over after the tick that fails.
    have hover : after? program (n + 1) (first m) = none := by
      rw [after?_succ, hn, Option.bind_some, next?, htick]
    have hk : k ≤ n := by
      by_contra hlt
      rw [after?_of_le (by omega) hover] at hc'
      cases hc'
    rcases Nat.lt_or_eq_of_le hk with hlt | rfl
    · exact Or.inl ⟨k, hlt, c', hc', hi⟩
    · rw [hn] at hc'
      cases hc'
      exact Or.inr hi

/-- What is declared is valid, and is in the table only afterwards. -/
theorem Declares.fresh (h : c.Declares program slot name) :
    isValidName name = true ∧ c.machine.vars.binds name slot = false := by
  obtain ⟨scope, line, rest, statement, c', ha, hr, hd, hnext⟩ := h
  obtain ⟨begun, m', hs⟩ := start_of_next? ha hnext
  have hfresh := Machine.Declares.fresh ⟨statement, begun, m', hr, hd, hs⟩
  rw [ready_vars] at hfresh
  exact hfresh

theorem extends_tick (hend : ∀ m', tick program c.stack c.machine ≠ .ok none m') :
    c.machine.Extends (endState (tick program c.stack c.machine)) := by
  have hticked := ticked program c
  generalize endState (tick program c.stack c.machine) = m at hticked
  cases hticked with
  | begins ha =>
    rename_i scope line rest
    have hready : c.machine.Extends (c.ready program) := by
      obtain ⟨jumped, interrupted, sink, he, _⟩ := readied_ready program c
      rw [he]
      exact extends_of_eq rfl rfl rfl
    exact hready.trans (extends_start scope line rest (c.ready program))
  | untraced ha ht =>
    exact extends_of_eq (traced_vars _ _) (traced_macros _ _) (traced_labels _ _)
  | passes hl hb =>
    rename_i var value
    exact
      { binds := fun name slot h => (binds_setInt name slot var value c.machine).mpr (Or.inl h)
        holds := fun _ => id
        macros := fun _ => id
        labels := fun _ => id }
  | moves hl hm hp =>
    obtain ⟨ip, depth, rfl⟩ := hm
    exact extends_of_eq rfl rfl rfl
  | ends hl ht => exact absurd ht (hend _)

theorem extends_of_after? {n : Nat} (h : after? program n c = some c') :
    c.machine.Extends c'.machine := by
  induction n generalizing c with
  | zero =>
    cases h
    exact .refl _
  | succ n ih =>
    rw [after?] at h
    obtain ⟨c₁, hnext, hrest⟩ := Option.bind_eq_some_iff.mp h
    have htick := extends_tick (tick_ne_none hnext)
    rw [tick_of_next? hnext] at htick
    exact htick.trans (ih hrest)

/-- No machine that a run shows later misses anything, also not the one left behind by a fault. -/
theorem extends_of_shows {m' : Machine} (h : Shows program c m') : c.machine.Extends m' := by
  rcases h with ⟨n, c', hn, rfl⟩ | ⟨budget, fault, hresume⟩
  · exact extends_of_after? hn
  · obtain ⟨n, c', m₁, hn, htick, rfl⟩ := exists_failing_tick hresume
    have hlast : c'.machine.Extends m₁ := by
      have hend (m' : Machine) : tick program c'.stack c'.machine ≠ .ok none m' := by
        rw [htick]
        simp
      have hextends := extends_tick hend
      rw [htick] at hextends
      exact hextends
    exact ((extends_of_after? hn).trans hlast).trans (extends_of_eq rfl rfl rfl)

/-- The name is declared by the tick with the given number. -/
def DeclaredAt (program : List String) (m : Machine) (slot : Slot) (name : String) (k : Nat) :
    Prop :=
  ∃ c, after? program k (first m) = some c ∧ c.Declares program slot name

/-- A second declaration would find the name in the table. -/
theorem DeclaredAt.unique {m : Machine} {k k' : Nat} (h : DeclaredAt program m slot name k)
    (h' : DeclaredAt program m slot name k') : k = k' := by
  -- Of two declarations the later one would not be fresh.
  have hlate {k k' : Nat} (h : DeclaredAt program m slot name k)
      (h' : DeclaredAt program m slot name k') : ¬ k < k' := by
    intro hlt
    obtain ⟨c, hc, hd⟩ := h
    obtain ⟨c', hc', hd'⟩ := h'
    have hbound := (binds_iff_introduced hc' name slot).mpr ⟨k, hlt, c, hc, Or.inl hd⟩
    rw [hd'.fresh.2] at hbound
    cases hbound
  exact Nat.le_antisymm (not_lt.mp (hlate h' h)) (not_lt.mp (hlate h h'))

/-- Inside a macro a declaration leaves the global integers and strings alone. -/
theorem globals_tick {line : String} {rest : List String} {statement : Statement}
    (ha : c.ahead? program = some (.inMacro, line :: rest))
    (hr : Statement.read (c.machine.vars.isString .inMacro) line = .ok statement)
    (hd : statement.declared? .inMacro ≠ none) :
    (endState (tick program c.stack c.machine)).vars.ints = c.machine.vars.ints ∧
      (endState (tick program c.stack c.machine)).vars.strings = c.machine.vars.strings := by
  rcases tick_of_ahead ha with ⟨below, ht⟩ | ⟨text, ht⟩
  · rw [← ready_vars program c] at hr ⊢
    rw [ht, endState_bind_pure]
    exact globals_start hr hd
  · rw [ht]
    change (c.machine.traced text).vars.ints = _ ∧ (c.machine.traced text).vars.strings = _
    rw [traced_vars]
    exact ⟨rfl, rfl⟩

end Moment

open Machine

/-- Names stay in the tables as long as a run lasts, and mutable integers keep having a value. A name
in a table other than that of the global integers was declared exactly once. While a macro is being
called, declarations add nothing to the global integers and strings. -/
theorem names_are_declared_once_and_kept (program : List String) (m : Machine) :
    (∀ n c, Moment.after? program n (.first m) = some c →
      ∀ m', Moment.Shows program c m' → c.machine.Extends m') ∧
    (∀ name slot, slot ≠ .int →
      (∀ n c, Moment.after? program n (.first m) = some c →
        (c.machine.vars.binds name slot = true ↔
          ∃! k, k < n ∧ Moment.DeclaredAt program m slot name k)) ∧
      ∀ budget fault m', run budget program m = some (.error fault m') →
        (m'.vars.binds name slot = true ↔ ∃! k, Moment.DeclaredAt program m slot name k)) ∧
    ∀ n c, Moment.after? program n (.first m) = some c →
      (∃ frame ∈ c.stack, frame.isCall = true) →
      ∀ scope line rest statement, c.ahead? program = some (scope, line :: rest) →
        Statement.read (c.machine.vars.isString scope) line = .ok statement →
        (∃ name value, statement = .declareInt name value) ∨
          (∃ name value, statement = .declareString name value) →
        scope = .inMacro ∧
        (endState (tick program c.stack c.machine)).vars.ints = c.machine.vars.ints ∧
        (endState (tick program c.stack c.machine)).vars.strings = c.machine.vars.strings := by
  refine ⟨fun n c _ m' hshows => Moment.extends_of_shows hshows, fun name slot hslot => ?_, ?_⟩
  · have hdeclares {c : Moment} (hi : c.Introduces program slot name) :
        c.Declares program slot name := hi.resolve_right fun hint => hslot hint.1
    refine ⟨fun n c hn => ?_, fun budget fault m' hrun => ?_⟩
    · rw [Moment.binds_iff_introduced hn]
      constructor
      · rintro ⟨k, hk, c', hc', hi⟩
        exact ⟨k, ⟨hk, c', hc', hdeclares hi⟩, fun k' h => h.2.unique ⟨c', hc', hdeclares hi⟩⟩
      · rintro ⟨k, ⟨hk, c', hc', hd⟩, _⟩
        exact ⟨k, hk, c', hc', Or.inl hd⟩
    · rw [Moment.binds_iff_of_failed hrun]
      constructor
      · rintro ⟨k, c', hc', hi⟩
        exact ⟨k, ⟨c', hc', hdeclares hi⟩, fun k' h => h.unique ⟨c', hc', hdeclares hi⟩⟩
      · rintro ⟨k, ⟨c', hc', hd⟩, _⟩
        exact ⟨k, c', hc', Or.inl hd⟩
  · rintro n c hn ⟨frame, hframe, hcall⟩ scope line rest statement ha hr hs
    obtain rfl := Moment.scope_of_ahead? hn hframe hcall ha
    have hd : statement.declared? .inMacro ≠ none := by
      rcases hs with ⟨name, value, rfl⟩ | ⟨name, value, rfl⟩ <;> exact Option.some_ne_none _
    exact ⟨rfl, Moment.globals_tick ha hr hd⟩

/-- The second call of a macro cannot declare its integer again. What was there in the middle of the
first call is there in the end. -/
theorem second_call_finds_the_name_taken :
    let program := ["MACRO m", "INT a = 1", "STRING s = \"x\"", "END MACRO", "MUTABLE INT b = 2",
      "CALL m", "CALL m"]
    ∃ c m', Moment.after? program 5 (.first {}) = some c ∧ c.machine.vars.holds "b" = true ∧
      (endState (tick program c.stack c.machine)).vars.ints = c.machine.vars.ints ∧
      run 20 program {} = some (.error (.malformed .nameTaken) m') ∧ c.machine.Extends m' ∧
      (∃! k, Moment.DeclaredAt program {} .localInt "a" k) ∧
      ∃! k, Moment.DeclaredAt program {} .localString "s" k := by
  intro program
  obtain ⟨c, hc, hstack, hvars, m', hrest, hrun, ha, hs⟩ :
      ∃ c, Moment.after? program 5 (.first {}) = some c ∧
      c.stack = [.call 0 ["INT a = 1", "STRING s = \"x\""], .line 5 1] ∧
      c.machine.vars = { mutables := ⟨[("b", some 2)]⟩ } ∧
      ∃ m', resume program 15 c.stack c.machine = some (.error (.malformed .nameTaken) m') ∧
      run 20 program {} = some (.error (.malformed .nameTaken) m') ∧
      m'.vars.binds "a" .localInt = true ∧ m'.vars.binds "s" .localString = true :=
    ⟨_, rfl, by decide +kernel, by decide +kernel, _, rfl, rfl, by decide +kernel,
      by decide +kernel⟩
  obtain ⟨hkept, honce, hcalls⟩ := names_are_declared_once_and_kept program {}
  have hread : Statement.read (c.machine.vars.isString .inMacro) "INT a = 1" =
      .ok (.declareInt "a" 1) := by
    rw [hvars]
    decide +kernel
  obtain ⟨_, hints, _⟩ := hcalls 5 c hc ⟨.call 0 ["INT a = 1", "STRING s = \"x\""],
    by rw [hstack]; exact List.mem_cons_self, rfl⟩ .inMacro "INT a = 1" ["STRING s = \"x\""] _
    (by rw [Moment.ahead?, hstack]; rfl) hread (Or.inl ⟨"a", 1, rfl⟩)
  have hextends := hkept 5 c hc m' (Or.inr ⟨15, _, hrest⟩)
  exact ⟨c, m', hc, by rw [hvars]; decide +kernel, hints, hrun, hextends,
    ((honce "a" .localInt (by decide)).2 20 _ m' hrun).mp ha,
    ((honce "s" .localString (by decide)).2 20 _ m' hrun).mp hs⟩

end LineScript
