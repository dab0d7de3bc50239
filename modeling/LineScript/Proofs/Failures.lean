import LineScript.Proofs.Bindings

/-! What a failure leaves behind. A statement that does all its work at once has its whole effect or
none: if it fails, at most a part of its text has been printed. A run that fails therefore leaves the
tables as they were when something was last completed. -/

namespace LineScript

/-- Whether a statement does all its work at once. The others leave work to be done: a block that is
entered, a loop, or a macro that is called. -/
def Statement.isImmediate : Statement → Bool
  | .ifHeader _ | .forHeader _ | .call _ => false
  | _ => true

/-- What prints has an effect on the sink alone. -/
theorem Statement.vars_eq_of_texts {statement : Statement} {scope : Scope}
    {vars vars' : Variables} {reserved : String → Bool} {texts : List String}
    (h : statement.effect scope vars reserved = .ok (vars', texts)) (ht : texts ≠ []) :
    vars' = vars := by
  have hdeclare {result : Except SyntaxFault Variables}
      (hd : (result.mapError Fault.malformed).map (·, ([] : List String)) = .ok (vars', texts)) :
      vars' = vars := absurd (declared_of_effect hd).2 ht
  have hassign {result : Except Fault Variables}
      (ha : result.map (·, ([] : List String)) = .ok (vars', texts)) : vars' = vars := by
    obtain ⟨changed, _, he⟩ := exists_of_map_eq_ok ha
    exact absurd (congrArg Prod.snd he).symm ht
  cases statement with
  | declareInt name value => exact hdeclare h
  | declareString name value => exact hdeclare h
  | declareMutable name value => exact hdeclare h
  | assign name args => exact hassign h
  | assignString name value => exact hassign h
  | printVar name newline =>
    obtain ⟨value, _, he⟩ := exists_of_map_eq_ok h
    exact (congrArg Prod.fst he).symm
  | _ => exact (congrArg Prod.fst (Except.ok.inj h)).symm

namespace Machine

variable {scope : Scope} {line : String} {rest : List String} {m m' : Machine} {fault : Fault}

/-- At most something more was printed, which may have raised the alarm. -/
def OnlyPrinted (m m' : Machine) : Prop :=
  ∃ interrupted sink, m' = { m with interrupted := interrupted, sink := sink } ∧ m.sink.Grows sink

theorem OnlyPrinted.refl (m : Machine) : m.OnlyPrinted m :=
  ⟨m.interrupted, m.sink, rfl, .refl m.sink⟩

theorem OnlyPrinted.trans {m₁ : Machine} (h : m.OnlyPrinted m₁) (h' : m₁.OnlyPrinted m') :
    m.OnlyPrinted m' := by
  obtain ⟨interrupted, sink, rfl, hgrows⟩ := h
  obtain ⟨interrupted', sink', rfl, hgrows'⟩ := h'
  exact ⟨interrupted', sink', rfl, hgrows.trans hgrows'⟩

theorem onlyPrinted_printed (text : String) (m : Machine) : m.OnlyPrinted (m.printed text) :=
  ⟨_, _, rfl, _, _, rfl⟩

/-- A failure without a trace, unless it is one of printing. -/
def Undone (m : Machine) (fault : Fault) (m' : Machine) : Prop :=
  m' = m ∨ (∃ cause, fault = .output cause) ∧ m.OnlyPrinted m'

theorem putAll_error {texts : List String} (h : putAll texts m = .error fault m') :
    texts ≠ [] ∧ (∃ cause, fault = .output cause) ∧ m.OnlyPrinted m' := by
  induction texts generalizing m with
  | nil => cases h
  | cons text texts ih =>
    refine ⟨List.cons_ne_nil text texts, ?_⟩
    have hput := printing_put text m
    split at hput
    · -- The text was printed, so that the failure is one of the texts after it.
      rw [putAll, bind_of_ok hput] at h
      obtain ⟨_, hfault, hlater⟩ := ih h
      exact ⟨hfault, (onlyPrinted_printed text m).trans hlater⟩
    · rw [putAll, bind_of_error hput] at h
      cases h
      exact ⟨⟨.sinkFull, rfl⟩, onlyPrinted_printed text m⟩

/-- A plain statement fails before it has an effect, or while it prints the texts of its effect. -/
theorem effect_of_plain_error (hf : m.Free) {statement : Statement} (hs : statement.isPlain = true)
    (h : execute scope statement m = .error fault m') :
    (statement.effect scope m.vars m.isReserved = .error fault ∧ m' = m) ∨
      ∃ vars texts, statement.effect scope m.vars m.isReserved = .ok (vars, texts) ∧
        putAll texts { m with vars := vars } = .error fault m' := by
  rw [execute_eq_perform hf scope hs] at h
  cases he : statement.effect scope m.vars m.isReserved with
  | error cause =>
    rw [he] at h
    cases h
    exact Or.inl ⟨rfl, rfl⟩
  | ok result =>
    obtain ⟨vars, texts⟩ := result
    have hperform : perform (.ok (vars, texts)) m =
        (putAll texts >>= fun _ => pure ([] : List Frame)) { m with vars := vars } := rfl
    rw [he, hperform] at h
    cases hp : putAll texts { m with vars := vars } with
    | ok value m₁ =>
      rw [bind_of_ok hp] at h
      cases h
    | error cause m₁ =>
      rw [bind_of_error hp] at h
      cases h
      exact Or.inr ⟨vars, texts, rfl, hp⟩

theorem undone_of_plain (hf : m.Free) {statement : Statement} (hs : statement.isPlain = true)
    (h : execute scope statement m = .error fault m') : m.Undone fault m' := by
  rcases effect_of_plain_error hf hs h with ⟨_, rfl⟩ | ⟨vars, texts, he, hp⟩
  · exact Or.inl rfl
  · obtain ⟨htexts, hfault, hprinted⟩ := putAll_error hp
    obtain rfl := Statement.vars_eq_of_texts he htexts
    exact Or.inr ⟨hfault, hprinted⟩

/-- A statement that does all its work at once has its whole effect or none. -/
theorem undone_of_execute {statement : Statement} (hs : statement.isImmediate = true)
    (h : execute scope statement m = .error fault m') : m.Undone fault m' := by
  rcases free_or_stopped m with hf | ⟨cause, hstop⟩
  · cases statement with
    | ifHeader condition => cases hs
    | forHeader header => cases hs
    | call name => cases hs
    | label name =>
      rw [execute_label hf] at h
      cases h
    | goto name =>
      rcases execute_goto hf scope name with ⟨index, labels, _, he⟩ | ⟨cause, _, he⟩
      · rw [he] at h
        cases h
      · rw [he] at h
        cases h
        exact Or.inl rfl
    | _ => exact undone_of_plain hf rfl h
  · rw [execute_of_stopped hstop] at h
    cases h
    exact Or.inl rfl

/-- The variables, the macros and the labels with their counts are the same. -/
structure SameTables (m m' : Machine) : Prop where
  vars : m'.vars = m.vars
  macros : m'.macros = m.macros
  labels : m'.labels = m.labels

theorem SameTables.refl (m : Machine) : m.SameTables m :=
  ⟨rfl, rfl, rfl⟩

theorem SameTables.trans {m₁ : Machine} (h : m.SameTables m₁) (h' : m₁.SameTables m') :
    m.SameTables m' :=
  ⟨h'.vars.trans h.vars, h'.macros.trans h.macros, h'.labels.trans h.labels⟩

theorem Readied.sameTables (h : Readied m m') : m.SameTables m' := by
  obtain ⟨jumped, interrupted, sink, rfl, _⟩ := h
  exact ⟨rfl, rfl, rfl⟩

/-- A line that fails changes no table, be it a header, a call or any other line. -/
theorem sameTables_of_start_error (h : start scope line rest m = .error fault m') :
    m.SameTables m' := by
  have hbegun := start_begun scope line rest m
  rw [h] at hbegun
  obtain ⟨hmacros, hlabels⟩ := Failed.macros_labels hbegun
  refine ⟨?_, hmacros, hlabels⟩
  cases start_sets scope line rest m with
  | effect hr he hs =>
    rename_i statement vars texts
    have hvars := vars_of_effect hs
    rw [h] at hvars hs
    -- It was the printing that failed, and what prints changes no variable.
    cases hp : putAll texts { m with vars := vars } with
    | ok value m₁ =>
      rw [bind_of_ok hp] at hs
      cases hs
    | error cause m₁ =>
      have hsame := Statement.vars_eq_of_texts he (putAll_error hp).1
      exact hvars.trans hsame
  | nothing hs _ =>
    have hvars := hs.vars_eq
    rw [h] at hvars
    exact hvars

end Machine

namespace Moment

open Machine

variable {program : List String} {c c' : Moment} {fault : Fault} {m m' : Machine}

/-- The next tick completes something: a statement that does all its work at once, the definition of a
macro being one of them, or the setting of the variable of a loop. -/
inductive Completes (program : List String) (c : Moment) : Prop where
  | statement {scope : Scope} {line : String} {rest : List String} {statement : Statement}
      {c' : Moment} (ha : c.ahead? program = some (scope, line :: rest))
      (hr : Statement.read ((c.ready program).vars.isString scope) line = .ok statement)
      (hs : statement.isImmediate = true) (hn : c.next? program = some c') : Completes program c
  | pass {var : String} (h : c.BeginsPass var) : Completes program c

/-- A line in front of a tick that completes nothing changes no table. -/
theorem sameTables_tick_of_ahead {scope : Scope} {line : String} {rest : List String}
    (ha : c.ahead? program = some (scope, line :: rest)) (hc : ¬ c.Completes program) :
    c.machine.SameTables (endState (tick program c.stack c.machine)) := by
  rcases tick_of_ahead ha with ⟨below, ht⟩ | ⟨text, ht⟩
  · have hready := (readied_ready program c).sameTables
    rw [ht, endState_bind_pure]
    apply hready.trans
    cases hs : start scope line rest (c.ready program) with
    | error cause m₁ => exact sameTables_of_start_error hs
    | ok begun m₁ =>
      obtain ⟨frames, span⟩ := begun
      have hnext : c.next? program = some ⟨frames ++ below span, m₁⟩ := by
        rw [next?, ht, bind_of_ok hs]
        rfl
      have hcompletes {statement : Statement}
          (hr : Statement.read ((c.ready program).vars.isString scope) line = .ok statement)
          (hi : statement.isImmediate = true) : (c.ready program).SameTables m₁ :=
        absurd (.statement ha hr hi hnext) hc
      -- Only headers and calls begin without completing a statement.
      cases started_of_start hs with
      | defined hr => exact hcompletes hr rfl
      | plain hr hp hf hsame ho =>
        apply hcompletes hr
        rename_i statement
        cases statement <;> first | rfl | cases hp
      | labelled hr hf => exact hcompletes hr rfl
      | jumped hr hf hj => exact hcompletes hr rfl
      | _ => exact ⟨rfl, rfl, rfl⟩
  · rw [ht]
    exact (traced_readied text c.machine).sameTables

/-- A tick that completes nothing, and does not end the run, changes no table. -/
theorem sameTables_tick (hend : ∀ m', tick program c.stack c.machine ≠ .ok none m')
    (hc : ¬ c.Completes program) :
    c.machine.SameTables (endState (tick program c.stack c.machine)) := by
  by_cases hl : c.Lineless program
  · have hticked := ticked program c
    generalize endState (tick program c.stack c.machine) = m at hticked
    cases hticked with
    | begins ha => exact absurd ha (hl _ _ _)
    | untraced ha ht => exact absurd ha (hl _ _ _)
    | passes _ hb => exact absurd (.pass hb) hc
    | moves _ hm hp =>
      obtain ⟨ip, depth, rfl⟩ := hm
      exact ⟨rfl, rfl, rfl⟩
    | ends _ ht => exact absurd ht (hend _)
  · simp only [Lineless, not_forall, not_not] at hl
    obtain ⟨scope, line, rest, ha⟩ := hl
    exact sameTables_tick_of_ahead ha hc

/-- A tick that fails completes nothing. -/
theorem not_completes_of_tick_error (h : tick program c.stack c.machine = .error fault m') :
    ¬ c.Completes program := by
  intro hc
  cases hc with
  | statement ha hr hs hn =>
    have htick := tick_of_next? hn
    rw [h] at htick
    cases htick
  | pass hb =>
    obtain ⟨frame, stack, hstack, hframe⟩ := hb
    obtain ⟨value, frames, htick⟩ := hframe.tick_eq
    rw [hstack, tick_cons_of_ok program stack htick] at h
    cases h

theorem sameTables_of_tick_error (h : tick program c.stack c.machine = .error fault m') :
    c.machine.SameTables m' := by
  have hend (m₁ : Machine) : tick program c.stack c.machine ≠ .ok none m₁ := by
    rw [h]
    simp
  have htables := sameTables_tick hend (not_completes_of_tick_error h)
  rw [h] at htables
  exact htables

theorem sameTables_of_next? (h : c.next? program = some c') (hc : ¬ c.Completes program) :
    c.machine.SameTables c'.machine := by
  have htables := sameTables_tick (tick_ne_none h) hc
  rw [tick_of_next? h] at htables
  exact htables

/-- No tick with one of the numbers from `start` up to, but without, `stop` completes anything. -/
def NoneCompletes (program : List String) (c : Moment) (start stop : Nat) : Prop :=
  ∀ k, start ≤ k → k < stop → ∀ c', after? program k c = some c' → ¬ c'.Completes program

/-- The tick with the number `k` is the last one before `stop` that completes something. -/
structure LastCompletion (program : List String) (c : Moment) (k stop : Nat) : Prop where
  before : k < stop
  completes : ∃ c', after? program k c = some c' ∧ c'.Completes program
  last : NoneCompletes program c (k + 1) stop

theorem none_or_last_completion (program : List String) (c : Moment) (stop : Nat) :
    NoneCompletes program c 0 stop ∨ ∃ k, LastCompletion program c k stop := by
  induction stop with
  | zero =>
    left
    intro k _ hk
    omega
  | succ stop ih =>
    by_cases hc : ∃ c', after? program stop c = some c' ∧ c'.Completes program
    · right
      refine ⟨stop, Nat.lt_succ_self stop, hc, ?_⟩
      intro k hk hlt
      omega
    · have hextend {start : Nat} (h : NoneCompletes program c start stop) :
          NoneCompletes program c start (stop + 1) := by
        intro k hk hlt c' hc'
        rcases Nat.lt_succ_iff_lt_or_eq.mp hlt with hlt | rfl
        · exact h k hk hlt c' hc'
        · exact fun hcompletes => hc ⟨c', hc', hcompletes⟩
      rcases ih with hnone | ⟨k, hlast⟩
      · exact Or.inl (hextend hnone)
      · exact Or.inr ⟨k, Nat.lt_succ_of_lt hlast.before, hlast.completes, hextend hlast.last⟩

/-- As long as nothing is completed, the tables stay as they are. -/
theorem sameTables_of_noneCompletes {i d : Nat} (h : NoneCompletes program c i (i + d))
    {c₁ c₂ : Moment} (h₁ : after? program i c = some c₁)
    (h₂ : after? program (i + d) c = some c₂) : c₁.machine.SameTables c₂.machine := by
  induction d generalizing c₂ with
  | zero =>
    rw [Nat.add_zero, h₁] at h₂
    cases h₂
    exact .refl _
  | succ d ih =>
    rw [← Nat.add_assoc, after?_succ] at h₂
    obtain ⟨c', hc', hnext⟩ := Option.bind_eq_some_iff.mp h₂
    have hearlier := ih (fun k hk hlt => h k hk (by omega)) hc'
    have hlast := sameTables_of_next? hnext (h (i + d) (by omega) (by omega) c' hc')
    exact hearlier.trans hlast

/-- A run has been at every moment before one that it reaches. -/
theorem exists_after?_of_le {i j : Nat} (hij : i ≤ j) (h : after? program j c = some c') :
    ∃ c₁, after? program i c = some c₁ := by
  apply Option.ne_none_iff_exists'.mp
  intro hnone
  rw [after?_of_le hij hnone] at h
  cases h

end Moment

open Machine

/-- A statement that does all its work at once, and fails, leaves the machine as it was, and if it has
printed then it is the printing that failed. After a failed run the tables are those that were there
ever since something was last completed, and they are empty if nothing was. -/
theorem failures_leave_what_was_completed :
    (∀ m scope statement fault m', statement.isImmediate = true →
      execute scope statement m = .error fault m' →
      m.OnlyPrinted m' ∧ ((∀ cause, fault ≠ .output cause) → m' = m)) ∧
    ∀ program m budget fault m', run budget program m = some (.error fault m') →
      ∃ n c m₁, Moment.after? program n (.first m) = some c ∧
        tick program c.stack c.machine = .error fault m₁ ∧ m' = m₁.unwind c.stack ∧
        (Moment.NoneCompletes program (.first m) 0 n ∧
            m'.vars = {} ∧ m'.macros = {} ∧ m'.labels = {} ∨
          ∃ k, Moment.LastCompletion program (.first m) k n ∧
            ∀ j, k < j → j ≤ n → ∃ c', Moment.after? program j (.first m) = some c' ∧
              c'.machine.SameTables m') := by
  constructor
  · intro m scope statement fault m' hs h
    rcases undone_of_execute hs h with rfl | ⟨⟨cause, rfl⟩, hprinted⟩
    · exact ⟨.refl m', fun _ => rfl⟩
    · exact ⟨hprinted, fun hother => absurd rfl (hother cause)⟩
  · intro program m budget fault m' hrun
    obtain ⟨n, c, m₁, hn, htick, he⟩ := Moment.exists_failing_tick (c := .first m) hrun
    refine ⟨n, c, m₁, hn, htick, he, ?_⟩
    have hfailed : c.machine.SameTables m' := by
      rw [he]
      have htables := Moment.sameTables_of_tick_error htick
      exact ⟨htables.vars, htables.macros, htables.labels⟩
    rcases Moment.none_or_last_completion program (.first m) n with hnone | ⟨k, hlast⟩
    · left
      rw [← Nat.zero_add n] at hnone hn
      have hsame := (Moment.sameTables_of_noneCompletes hnone rfl hn).trans hfailed
      rw [Nat.zero_add] at hnone
      exact ⟨hnone, hsame.vars, hsame.macros, hsame.labels⟩
    · right
      refine ⟨k, hlast, fun j hk hj => ?_⟩
      obtain ⟨c', hc'⟩ := Moment.exists_after?_of_le hj hn
      refine ⟨c', hc', ?_⟩
      obtain ⟨d, rfl⟩ := Nat.exists_eq_add_of_le hj
      have hnone : Moment.NoneCompletes program (.first m) j (j + d) :=
        fun i hi => hlast.last i (by omega)
      exact (Moment.sameTables_of_noneCompletes hnone hc' hn).trans hfailed

/-- A text of three letters is cut off by a sink that can hold two. A jump that fails in a loop inside
a macro leaves the sum that the line before it has stored. -/
theorem failing_jump_leaves_the_sum_before_it :
    let program := ["INT x = 1", "MACRO m", "FOR i FROM 1 TO 2", "x += i", "GOTO nowhere", "END FOR",
      "END MACRO", "CALL m"]
    let m : Machine := { sink := { capacity := some 2 } }
    (∃ m', execute .global (.printText "abc" true) m = .error (.output .sinkFull) m' ∧
      m'.sink.bytes = "ab".toUTF8 ∧ m.OnlyPrinted m') ∧
    ∃ m' n k, run 20 program m = some (.error (.missing .labelName "nowhere") m') ∧
      m'.vars = { ints := ⟨[("x", 2), ("i", 1)]⟩ } ∧
      Moment.LastCompletion program (.first m) k n ∧
      ∀ j, k < j → j ≤ n → ∃ c, Moment.after? program j (.first m) = some c ∧
        c.machine.SameTables m' := by
  intro program m
  obtain ⟨hstatements, hruns⟩ := failures_leave_what_was_completed
  constructor
  · obtain ⟨m', hexecute, hbytes⟩ : ∃ m', execute .global (.printText "abc" true) m =
        .error (.output .sinkFull) m' ∧ m'.sink.bytes = "ab".toUTF8 := ⟨_, rfl, by decide +kernel⟩
    exact ⟨m', hexecute, hbytes, (hstatements m .global _ _ m' rfl hexecute).1⟩
  · obtain ⟨m', hrun, hvars⟩ : ∃ m',
        run 20 program m = some (.error (.missing .labelName "nowhere") m') ∧
        m'.vars = { ints := ⟨[("x", 2), ("i", 1)]⟩ } := ⟨_, rfl, by decide +kernel⟩
    obtain ⟨n, c, m₁, _, _, _, htables⟩ := hruns program m 20 _ m' hrun
    rcases htables with ⟨_, hempty, _⟩ | ⟨k, hlast, hsince⟩
    · rw [hvars] at hempty
      exact absurd hempty (by decide +kernel)
    · exact ⟨m', n, k, hrun, hvars, hlast, hsince⟩

end LineScript
