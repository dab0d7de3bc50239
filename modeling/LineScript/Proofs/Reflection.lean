import LineScript.Proofs.Elementary
import LineScript.Proofs.Essence
import LineScript.Proofs.Labels

/-! Idle lines are inert. A run without jumps is followed by one that works off the lines that are
not idle: an idle line takes a tick of the first run and none of the second, every other tick is one
of both. Two programs with the same other lines are followed by the same run. -/

namespace LineScript

theorem LabelTable.check_of_within_zero {labels : LabelTable} (h : labels.Within 0) (limit : Nat) :
    labels.check limit = .ok () := by
  have hnone : labels.table.entries.find? (isOver limit) = none := by
    apply List.find?_eq_none.mpr
    intro entry hentry
    have hzero := h entry hentry
    simp only [isOver, decide_eq_true_eq]
    omega
  rw [check_eq, hnone]

theorem LabelTable.within_declare {labels : LabelTable} (h : labels.Within 0) (name : String)
    (index : Nat) : (labels.declare name index).Within 0 := by
  intro entry hentry
  rcases Table.mem_put hentry with rfl | hold
  · exact le_rfl
  · exact h entry hold

namespace Machine

/-- A machine that nothing stops, that has not jumped and prints no trace. -/
structure Calm (m : Machine) : Prop where
  interrupted : m.interrupted = false
  debug : m.debug = false
  jumped : m.jumped = false
  labels : m.labels.Within 0
  inMemory : m.sink.InMemory

theorem Calm.free {m : Machine} (h : m.Calm) : m.Free :=
  ⟨h.interrupted, LabelTable.check_of_within_zero h.labels m.jumpLimit⟩

/-- The second machine is the first one, but for the idle lines in its macros and for places in the
program. -/
structure Reflects (m w : Machine) : Prop where
  vars : w.vars = m.vars
  sink : w.sink = m.sink
  depth : w.depth = m.depth
  jumpLimit : w.jumpLimit = m.jumpLimit
  macros : ∀ name, w.macros.body? name = (m.macros.body? name).map essence
  labels : ∀ name, w.labels.contains name = m.labels.contains name
  calm : m.Calm
  calm' : w.Calm

section Reflects

variable {m w : Machine}

theorem Reflects.isReserved_eq (h : m.Reflects w) : w.isReserved = m.isReserved := by
  ext name
  have hmacro : w.macros.contains name = m.macros.contains name := by
    show (w.macros.body? name).isSome = (m.macros.body? name).isSome
    rw [h.macros, Option.isSome_map]
  rw [isReserved, isReserved, hmacro, h.labels]

theorem Reflects.setVariables (h : m.Reflects w) (vars : Variables) :
    Reflects { m with vars := vars } { w with vars := vars } :=
  { h with vars := rfl, calm := { h.calm with }, calm' := { h.calm' with } }

theorem Reflects.setSink (h : m.Reflects w) {sink : Sink} (hs : sink.InMemory) :
    Reflects (m.withSink sink) (w.withSink sink) :=
  { h with
    sink := rfl, calm := { h.calm with inMemory := hs }, calm' := { h.calm' with inMemory := hs } }

theorem Reflects.setDepth (h : m.Reflects w) {depth depth' : Nat} (hd : depth' = depth) :
    Reflects { m with depth := depth } { w with depth := depth' } :=
  { h with depth := hd, calm := { h.calm with }, calm' := { h.calm' with } }

theorem Reflects.setPending (h : m.Reflects w) (pending pending' : Option Block) :
    Reflects { m with pending := pending } { w with pending := pending' } :=
  { h with calm := { h.calm with }, calm' := { h.calm' with } }

theorem Reflects.moveTo (h : m.Reflects w) (ip : Nat) :
    Reflects { m with ip := ip, jumped := false } w :=
  { h with calm := { h.calm with jumped := rfl } }

theorem Reflects.define (h : m.Reflects w) (name : String) {body body' : List String}
    (hb : body' = essence body) :
    Reflects { m with macros := m.macros.define name body }
      { w with macros := w.macros.define name body' } := by
  refine { h with macros := ?_, calm := { h.calm with }, calm' := { h.calm' with } }
  intro other
  rw [MacroTable.body?_define, MacroTable.body?_define]
  split
  · rw [hb]
    rfl
  · exact h.macros other

theorem Reflects.declare (h : m.Reflects w) (name : String) (index index' : Nat) :
    Reflects { m with labels := m.labels.declare name index }
      { w with labels := w.labels.declare name index' } := by
  refine { h with
    labels := ?_
    calm := { h.calm with labels := LabelTable.within_declare h.calm.labels name index }
    calm' := { h.calm' with labels := LabelTable.within_declare h.calm'.labels name index' } }
  intro other
  have hcontains (labels : LabelTable) (index : Nat) :
      (labels.declare name index).contains other =
        (decide (other = name) || labels.contains other) := Table.contains_insert _ _ _ _
  rw [hcontains, hcontains, h.labels]

/-- Elementary actions see no difference. -/
theorem agreement_reflects : Agreement Reflects where
  vars h := h.vars
  isReserved h := h.isReserved_eq
  set h vars := h.setVariables vars
  put {m w} h text := by
    rw [printing_put_inMemory text h.calm.inMemory, printing_put_inMemory text h.calm'.inMemory,
      h.sink]
    exact .ok () (h.setSink (h.calm.inMemory.with_bytes _ _))

end Reflects

/-- Two results that end alike in reflecting machines, and with related values. -/
inductive Matched {α β : Type} (V : α → β → Prop) :
    EStateM.Result Fault Machine α → EStateM.Result Fault Machine β → Prop where
  | ok {a : α} {b : β} {m w : Machine} (hv : V a b) (h : m.Reflects w) :
      Matched V (.ok a m) (.ok b w)
  | error {m w : Machine} (fault : Fault) (h : m.Reflects w) :
      Matched V (.error fault m) (.error fault w)

section Matched

variable {α β γ δ : Type} {V : α → β → Prop} {W : γ → δ → Prop} {m w : Machine}

theorem Matched.bind {action : Exec α} {action' : Exec β} {next : α → Exec γ}
    {next' : β → Exec δ} (ha : Matched V (action m) (action' w))
    (hn : ∀ a b m₁ w₁, V a b → m₁.Reflects w₁ → Matched W (next a m₁) (next' b w₁)) :
    Matched W ((action >>= next) m) ((action' >>= next') w) := by
  generalize hr : action m = result at ha
  generalize hr' : action' w = result' at ha
  cases ha with
  | ok hv h =>
    rw [bind_of_ok hr, bind_of_ok hr']
    exact hn _ _ _ _ hv h
  | error fault h =>
    rw [bind_of_error hr, bind_of_error hr']
    exact .error fault h

theorem Elementary.matched {action : Exec α} (ha : Elementary action) (h : m.Reflects w) :
    Matched Eq (action m) (action w) := by
  have halike := ha.endAlike agreement_reflects h
  generalize action m = result at halike
  generalize action w = result' at halike
  cases halike with
  | ok value h => exact .ok rfl h
  | error fault h => exact .error fault h

end Matched

end Machine

/-- The second frame is the first one without its idle lines. -/
inductive Frame.Reflects : Frame → Frame → Prop where
  | lines {frame frame' : Frame} {scope : Scope} {lines : List String}
      (hl : frame.list? = some (scope, lines)) (hl' : frame'.list? = some (scope, essence lines))
      (hc : frame'.isCall = frame.isCall) : Reflects frame frame'
  | loop (scope : Scope) (header : LoopHeader) (lines : List String) (value : Int64) :
      Reflects (.loop scope header lines value) (.loop scope header (essence lines) value)
  | pass (scope : Scope) (header : LoopHeader) (lines : List String) (value : Int64) :
      Reflects (.pass scope header lines value) (.pass scope header (essence lines) value)

namespace Machine

/-- What two lines leave to be done, given the lines after the first one. -/
def BegunAlike (rest : List String) (begun begun' : List Frame × Nat) : Prop :=
  List.Forall₂ Frame.Reflects begun.1 begun'.1 ∧
    essence (rest.drop (begun.2 - 1)) = (essence rest).drop (begun'.2 - 1)

variable {m w : Machine} {scope : Scope} {line : String} {rest : List String}

theorem reflects_body (scope : Scope) (kind : BlockKind) (rest : List String) :
    Frame.Reflects (.body scope (kind.body rest)) (.body scope (kind.body (essence rest))) :=
  .lines rfl (by rw [← essence_body]; rfl) rfl

theorem matched_execute_of_plain (h : m.Reflects w) (scope : Scope) {statement : Statement}
    (hs : statement.isPlain = true) :
    Matched (List.Forall₂ Frame.Reflects) (execute scope statement m)
      (execute scope statement w) := by
  obtain ⟨action, ha, he⟩ := elementary_execute scope hs
  obtain ⟨plain, ⟨_, hnil⟩, hplain⟩ := execute_plain h.calm.free scope hs
  have hmatched := ha.matched h
  rw [← he m h.calm.free, ← he w h.calm'.free] at hmatched
  cases hr : execute scope statement m with
  | error fault m' =>
    rw [hr] at hmatched
    generalize execute scope statement w = result at hmatched
    cases hmatched with
    | error _ h' => exact .error fault h'
  | ok frames m' =>
    obtain rfl : frames = [] := hnil m frames m' (hplain.symm.trans hr)
    rw [hr] at hmatched
    generalize execute scope statement w = result at hmatched
    cases hmatched with
    | ok hv h' =>
      subst hv
      exact .ok .nil h'

theorem matched_execute_ifHeader (h : m.Reflects w) (scope : Scope) (condition : Condition)
    (rest : List String)
    (hp : m.pending = some ⟨.ifBlock, BlockKind.ifBlock.body rest⟩)
    (hp' : w.pending = some ⟨.ifBlock, BlockKind.ifBlock.body (essence rest)⟩) :
    Matched (List.Forall₂ Frame.Reflects) (execute scope (.ifHeader condition) m)
      (execute scope (.ifHeader condition) w) := by
  rw [execute_ifHeader_eq h.calm.free scope condition hp,
    execute_ifHeader_eq h.calm'.free scope condition hp']
  have hcleared : m.clearPending.Reflects w.clearPending := h.setPending none none
  apply ((elementary_evaluate scope condition).matched hcleared).bind
  rintro holds _ m₁ w₁ rfl h₁
  cases holds with
  | false => exact .ok .nil h₁
  | true => exact .ok (.cons (reflects_body scope .ifBlock rest) .nil) h₁

theorem matched_execute_forHeader (h : m.Reflects w) (scope : Scope) (header : LoopHeader)
    (rest : List String)
    (hp : m.pending = some ⟨.forBlock, BlockKind.forBlock.body rest⟩)
    (hp' : w.pending = some ⟨.forBlock, BlockKind.forBlock.body (essence rest)⟩) :
    Matched (List.Forall₂ Frame.Reflects) (execute scope (.forHeader header) m)
      (execute scope (.forHeader header) w) := by
  rw [execute_forHeader h.calm.free scope header hp,
    execute_forHeader h.calm'.free scope header hp', ← essence_body]
  exact .ok (.cons (.loop scope header _ header.first) .nil) (h.setPending none none)

theorem matched_enter (h : m.Reflects w) (name : String) :
    Matched (List.Forall₂ Frame.Reflects) (enter name m) (enter name w) := by
  rw [enter, get_bind, get_bind, h.macros, h.depth]
  cases m.macros.body? name with
  | none => exact .error _ h
  | some body =>
    by_cases hd : maxDepth ≤ m.depth
    · simp only [Option.map_some, hd, if_true]
      exact .error _ h
    · simp only [Option.map_some, hd, if_false]
      exact .ok (.cons (.lines rfl rfl rfl) .nil) (h.setDepth rfl)

/-- A line that does not jump begins in the same way without the idle lines after it. -/
theorem matched_start (h : m.Reflects w) (hj : Statement.jumps line = false) (scope : Scope)
    (rest : List String) :
    Matched (BegunAlike rest) (start scope line rest m) (start scope line (essence rest) w) := by
  have hvars : w.vars.isString scope = m.vars.isString scope := by rw [h.vars]
  -- All but the headers of blocks take one line.
  have hone (statement : Statement) (ho : statement.opens? = none)
      (hr : Statement.read (m.vars.isString scope) line = .ok statement)
      (hm : Matched (List.Forall₂ Frame.Reflects) (execute scope statement m)
        (execute scope statement w)) :
      Matched (BegunAlike rest) (start scope line rest m) (start scope line (essence rest) w) := by
    rw [start_of_opens?_eq_none rest hr ho, start_of_opens?_eq_none _ (hvars ▸ hr) ho]
    apply hm.bind
    intro frames frames' m₁ w₁ hframes h₁
    exact .ok ⟨hframes, rfl⟩ h₁
  cases hr : Statement.read (m.vars.isString scope) line with
  | error cause =>
    rw [start_of_unreadable rest hr, start_of_unreadable _ (hvars ▸ hr)]
    exact .error _ h
  | ok statement =>
    cases statement with
    | macroHeader name =>
      rw [start_of_macroHeader rest hr, start_of_macroHeader _ (hvars ▸ hr)]
      exact .ok ⟨.nil, essence_drop_block .macroBlock rest⟩
        (h.define name (essence_body .macroBlock rest).symm)
    | ifHeader condition =>
      rw [start_of_ifHeader rest hr, start_of_ifHeader _ (hvars ▸ hr)]
      apply (matched_execute_ifHeader (h.setPending _ _) scope condition rest rfl rfl).bind
      intro frames frames' m₁ w₁ hframes h₁
      exact .ok ⟨hframes, essence_drop_block .ifBlock rest⟩ h₁
    | forHeader header =>
      rw [start_of_forHeader rest hr, start_of_forHeader _ (hvars ▸ hr)]
      apply (matched_execute_forHeader (h.setPending _ _) scope header rest rfl rfl).bind
      intro frames frames' m₁ w₁ hframes h₁
      exact .ok ⟨hframes, essence_drop_block .forBlock rest⟩ h₁
    | call name =>
      apply hone (.call name) rfl hr
      rw [execute_call_eq h.calm.free, execute_call_eq h.calm'.free]
      exact matched_enter h name
    | label name =>
      apply hone (.label name) rfl hr
      rw [execute_label h.calm.free, execute_label h.calm'.free]
      exact .ok .nil (h.declare name m.ip w.ip)
    | goto name =>
      rw [Statement.jumps_of_read hr] at hj
      contradiction
    | _ => exact hone _ rfl hr (matched_execute_of_plain h scope rfl)

theorem start_of_isIdle (hm : m.Free) (hi : isIdle line = true) (scope : Scope)
    (rest : List String) : start scope line rest m = .ok ([], 1) m := by
  rw [start_of_opens?_eq_none rest (read_of_isIdle hi _) rfl, bind_of_ok (execute_comment hm scope)]
  rfl

/-- The end of a run makes reflecting machines equal. -/
theorem Reflects.flushed_cleared (h : m.Reflects w) : m.flushed.cleared = w.flushed.cleared := by
  simp only [flushed, cleared, clearMemory, clearPending, h.sink, h.jumpLimit, h.calm.debug,
    h.calm'.debug, h.calm.interrupted, h.calm'.interrupted]

end Machine

open Machine

variable {m w : Machine} {program : List String}

/-- A frame that begins with an idle line goes on to the next line, while its reflection stands
still. Any other tick is one of both. -/
theorem Frame.matched_tick {frame frame' : Frame} (hf : frame.Reflects frame') (h : m.Reflects w)
    (hj : ∀ line ∈ frame.lines, Statement.jumps line = false) :
    (∃ next, frame.tick m = .ok [next] m ∧ next.Reflects frame') ∨
      Matched (List.Forall₂ Frame.Reflects) (frame.tick m) (frame'.tick w) := by
  cases hf with
  | lines hl hl' hc =>
    rename_i scope lines
    cases lines with
    | nil =>
      rw [tick_of_list_nil hl, tick_of_list_nil hl']
      refine Or.inr (.ok .nil (h.setDepth ?_))
      rw [h.depth, List.countP_singleton, List.countP_singleton, hc]
    | cons line rest =>
      have hlines : frame.lines = line :: rest := by
        cases frame <;> cases hl <;> rfl
      cases hi : isIdle line with
      | true =>
        refine Or.inl ⟨frame.behind 1, ?_, ?_⟩
        · rw [tick_of_list? h.calm.debug hl, bind_of_ok (start_of_isIdle h.calm.free hi scope rest)]
          rfl
        · rw [essence_cons_of_isIdle hi] at hl'
          exact .lines (list?_behind hl 1) hl' (hc.trans (isCall_behind frame 1).symm)
      | false =>
        rw [essence_cons_of_not_isIdle hi] at hl'
        rw [tick_of_list? h.calm.debug hl, tick_of_list? h.calm'.debug hl']
        have hline : Statement.jumps line = false := hj line (hlines ▸ List.mem_cons_self)
        apply Or.inr ((matched_start h hline scope rest).bind _)
        intro begun begun' m₁ w₁ hbegun h₁
        have hlist := list?_behind hl begun.2
        have hlist' := list?_behind hl' begun'.2
        rw [← hbegun.2] at hlist'
        have hcalls : (frame'.behind begun'.2).isCall = (frame.behind begun.2).isCall := by
          rw [isCall_behind, isCall_behind, hc]
        exact .ok (List.rel_append hbegun.1 (.cons (.lines hlist hlist' hcalls) .nil)) h₁
  | loop scope header lines value =>
    rw [tick, tick, bind_of_ok (guard_of_free h.calm.free), bind_of_ok (guard_of_free h.calm'.free)]
    have hpass : Matched (List.Forall₂ Frame.Reflects)
        (.ok [body scope lines, pass scope header lines value]
          { m with vars.ints := m.vars.ints.insert header.var value })
        (.ok [body scope (essence lines), pass scope header (essence lines) value]
          { w with vars.ints := w.vars.ints.insert header.var value }) := by
      rw [h.vars]
      exact .ok (.cons (.lines rfl rfl rfl) (.cons (.pass scope header lines value) .nil))
        (h.setVariables _)
    cases header.bound with
    | upTo last =>
      by_cases hl : last < value
      · simp only [hl, if_true]
        exact Or.inr (.ok .nil h)
      · simp only [hl, if_false]
        exact Or.inr hpass
    | unbounded => exact Or.inr hpass
  | pass scope header lines value =>
    rw [tick, tick]
    cases add? value header.step with
    | some next => exact Or.inr (.ok (.cons (.loop scope header lines next) .nil) h)
    | none =>
      cases header.bound with
      | upTo last => exact Or.inr (.ok .nil h)
      | unbounded => exact Or.inr (.error _ h)

namespace Moment

/-- The work that remains of the lines that are not idle: what is left of the frames above the
program line, and then of the program. -/
inductive Reflects (program : List String) : Moment → List Frame → Machine → Prop where
  | between {m w : Machine} (h : m.Reflects w) :
      Reflects program ⟨[], m⟩ [.body .global (essence (program.drop m.ip))] w
  | within {above above' : List Frame} {index span : Nat} {m w : Machine}
      (hs : List.Forall₂ Frame.Reflects above above') (h : m.Reflects w) :
      Reflects program ⟨above ++ [.line index span], m⟩
        (above' ++ [.body .global (essence (program.drop (index + span)))]) w

/-- How a tick of a run is followed: not at all, by a tick, or by the same end. -/
inductive Followed (program : List String) (stack' : List Frame) (w : Machine) :
    EStateM.Result Fault Machine (Option (List Frame)) → Prop where
  | stays {stack : List Frame} {m : Machine} (h : Reflects program ⟨stack, m⟩ stack' w) :
      Followed program stack' w (.ok (some stack) m)
  | ticks {stack : List Frame} {m : Machine} {frame : Frame} {frames rest : List Frame}
      {w₁ : Machine} (he : stack' = frame :: rest) (ht : frame.tick w = .ok frames w₁)
      (h : Reflects program ⟨stack, m⟩ (frames ++ rest) w₁) :
      Followed program stack' w (.ok (some stack) m)
  | ends (he : stack' = [.body .global []]) :
      Followed program stack' w (.ok none w.flushed.cleared)
  | fails {fault : Fault} {m : Machine} {frame : Frame} {rest : List Frame} {w₁ : Machine}
      (he : stack' = frame :: rest) (ht : frame.tick w = .error fault w₁) (h : m.Reflects w₁) :
      Followed program stack' w (.error fault m)

theorem reflects_line {above above' : List Frame} {index span : Nat} {lines : List String}
    (hd : program.drop (index + span) = lines) (hs : List.Forall₂ Frame.Reflects above above')
    (h : m.Reflects w) :
    Reflects program ⟨above ++ [.line index span], m⟩
      (above' ++ [.body .global (essence lines)]) w := by
  rw [← hd]
  exact .within hs h

theorem followed_between (hprogram : ∀ line ∈ program, Statement.jumps line = false)
    (h : m.Reflects w) :
    Followed program [.body .global (essence (program.drop m.ip))] w (tick program [] m) := by
  cases hp : program.drop m.ip with
  | nil =>
    have ht := tick_of_ended hp
    rw [h.calm.inMemory.flushes, if_neg Bool.false_ne_true, h.flushed_cleared] at ht
    rw [ht]
    exact .ends rfl
  | cons line rest =>
    have hready : Machine.Reflects { m with jumped := false } w := h.moveTo m.ip
    have hline : Statement.jumps line = false :=
      hprogram line (List.mem_of_mem_drop (hp ▸ List.mem_cons_self))
    have hbehind {span : Nat} (hspan : 0 < span) :
        program.drop (m.ip + span) = rest.drop (span - 1) := by
      rw [← List.drop_drop, hp, ← Nat.succ_pred_eq_of_pos hspan]
      rfl
    rw [tick_nil_of_debug h.calm.debug hp]
    cases hi : isIdle line with
    | true =>
      rw [start_of_isIdle hready.calm.free hi, essence_cons_of_isIdle hi]
      exact .stays (reflects_line (hbehind Nat.one_pos) .nil hready)
    | false =>
      have hmatched := matched_start hready hline .global rest
      have htick : (Frame.body .global (line :: essence rest)).tick w = _ :=
        Frame.tick_of_list? h.calm'.debug rfl
      rw [essence_cons_of_not_isIdle hi]
      cases hs : start .global line rest { m with jumped := false } with
      | error fault m₁ =>
        rw [hs] at hmatched
        generalize hs' : start .global line (essence rest) w = result at hmatched
        cases hmatched with
        | error _ h₁ => exact .fails rfl (htick.trans (bind_of_error hs')) h₁
      | ok begun m₁ =>
        have hspan := (started_of_start hs).span_pos
        rw [hs] at hmatched
        generalize hs' : start .global line (essence rest) w = result at hmatched
        cases hmatched with
        | ok hbegun h₁ =>
          rename_i begun' w₁
          refine .ticks rfl (htick.trans (bind_of_ok hs')) ?_
          have hwithin := reflects_line (hbehind hspan) hbegun.1 h₁
          rw [hbegun.2] at hwithin
          rw [List.append_nil]
          exact hwithin

/-- What one tick does, both to the run and to the one that follows it. -/
theorem followed_tick (hprogram : ∀ line ∈ program, Statement.jumps line = false) {c : Moment}
    {stack' : List Frame} (h : c.Reflects program stack' w)
    (ho : Only (fun line => Statement.jumps line = false) c) :
    Followed program stack' w (tick program c.stack c.machine) := by
  cases h with
  | between h => exact followed_between hprogram h
  | within hs h =>
    rename_i above above' index span m
    cases hs with
    | nil =>
      have hended : m.lineEnded index span = { m with ip := index + span, jumped := false } := by
        simp only [lineEnded, h.calm.jumped, Bool.false_eq_true, if_false]
      have htick : (Frame.line index span).tick m = .ok [] (m.lineEnded index span) := rfl
      rw [hended] at htick
      show Followed program _ w (tick program [.line index span] m)
      rw [tick_cons_of_ok program [] htick]
      exact .stays (.between (h.moveTo (index + span)))
    | cons hf hs =>
      rename_i frame frame' above above'
      have hj := ho.1 frame List.mem_cons_self
      show Followed program
        (frame' :: (above' ++ [.body .global (essence (program.drop (index + span)))])) w
        (tick program (frame :: (above ++ [.line index span])) m)
      rcases Frame.matched_tick hf h hj with ⟨next, ht, hnext⟩ | hmatched
      · rw [tick_cons_of_ok program _ ht]
        exact .stays (.within (.cons hnext hs) h)
      · generalize ht : frame.tick m = result at hmatched
        generalize ht' : frame'.tick w = result' at hmatched
        cases hmatched with
        | error fault h₁ =>
          rw [tick_cons_of_error program _ ht]
          exact .fails rfl ht' h₁
        | ok hframes h₁ =>
          rw [tick_cons_of_ok program _ ht]
          refine .ticks rfl ht' ?_
          rw [← List.append_assoc, ← List.append_assoc]
          exact .within (List.rel_append hframes hs) h₁

end Moment

namespace Machine

/-- Two runs have the same result: both succeed and leave the same machine behind, or both fail with
the same fault, after the same output and with the same variables. -/
def SameEnd : EStateM.Result Fault Machine Unit → EStateM.Result Fault Machine Unit → Prop
  | .ok () m, .ok () m' => m = m'
  | .error fault m, .error fault' m' => fault = fault' ∧ m.sink = m'.sink ∧ m.vars = m'.vars
  | _, _ => False

/-- The result of a run, once all its work is done. -/
def concluded : EStateM.Result Fault Machine Unit → EStateM.Result Fault Machine Unit
  | .ok () w => .ok () w.flushed.cleared
  | .error fault w => .error fault w

theorem SameEnd.of_common {result result' common : EStateM.Result Fault Machine Unit}
    (h : SameEnd result common) (h' : SameEnd result' common) : SameEnd result result' := by
  cases result <;> cases result' <;> cases common <;>
    first
      | exact False.elim h
      | exact False.elim h'
      | exact Eq.trans h (Eq.symm h')
      | exact ⟨h.1.trans h'.1.symm, h.2.1.trans h'.2.1.symm, h.2.2.trans h'.2.2.symm⟩

/-- The lines that are not idle decide how a run ends. -/
theorem complete_of_resume (hprogram : ∀ line ∈ program, Statement.jumps line = false)
    {budget : Nat} {c : Moment} {stack' : List Frame} {w : Machine}
    {result : EStateM.Result Fault Machine Unit}
    (hr : resume program budget c.stack c.machine = some result)
    (h : c.Reflects program stack' w)
    (ho : Moment.Only (fun line => Statement.jumps line = false) c) :
    ∃ budget' result', complete budget' stack' w = some result' ∧
      SameEnd result (concluded result') := by
  induction budget generalizing c stack' w with
  | zero => cases hr
  | succ budget ih =>
    have hfollowed := Moment.followed_tick hprogram h ho
    rw [resume] at hr
    cases ht : tick program c.stack c.machine with
    | error fault m₁ =>
      rw [ht] at hr hfollowed
      cases hr
      cases hfollowed with
      | fails he hframe h₁ =>
        rename_i frame rest w₁
        refine ⟨1, .error fault (w₁.unwind (frame :: rest)), ?_, rfl, h₁.sink.symm, h₁.vars.symm⟩
        rw [he, complete, hframe]
    | ok next m₁ =>
      rw [ht] at hr hfollowed
      cases next with
      | none =>
        cases hr
        cases hfollowed with
        | ends he => exact ⟨1, .ok () w, by rw [he]; rfl, rfl⟩
      | some stack =>
        have hsteps : Moment.Steps program c ⟨stack, m₁⟩ := by
          apply Moment.steps_of_next?
          rw [Moment.next?, ht]
        have ho₁ := Moment.only_of_steps
          (fun _ _ _ => Machine.opensOnto_of_program hprogram) hsteps ho
        cases hfollowed with
        | stays h₁ => exact ih hr h₁ ho₁
        | ticks he hframe h₁ =>
          obtain ⟨budget', result', hc, hend⟩ := ih hr h₁ ho₁
          refine ⟨budget' + 1, result', ?_, hend⟩
          rw [he, complete, hframe]
          exact hc

/-- Every run of a program without jumps ends as its lines that are not idle do. -/
theorem complete_essence_of_run (hprogram : ∀ line ∈ program, Statement.jumps line = false)
    {m : Machine} (hd : m.debug = false) (hi : m.interrupted = false) (hs : m.sink.InMemory)
    {budget : Nat} {result : EStateM.Result Fault Machine Unit}
    (hr : run budget program m = some result) :
    ∃ budget' result', complete budget' [.body .global (essence program)] m.cleared = some result' ∧
      SameEnd result (concluded result') := by
  have hcalm : m.cleared.Calm := by
    refine ⟨hi, hd, rfl, ?_, hs⟩
    intro entry hentry
    cases hentry
  have hself : m.cleared.Reflects m.cleared :=
    ⟨rfl, rfl, rfl, rfl, fun _ => rfl, fun _ => rfl, hcalm, hcalm⟩
  exact complete_of_resume hprogram (c := .first m) hr (.between hself) (Moment.only_first _ m)

end Machine

/-- Blank lines and comments are inert. A program without jumps, and the same program with such
lines put in anywhere, both end, and however they end, their results are the same: the fault if
there is one, the output and, after a fault, all variables. -/
theorem idle_lines_are_inert {program padded : List String} (hpadded : Padded program padded)
    (hjumps : ∀ line ∈ program, Statement.jumps line = false) {m : Machine}
    (hd : m.debug = false) (hi : m.interrupted = false) (hs : m.sink.InMemory) :
    (∃ budget result, Machine.run budget program m = some result) ∧
    (∃ budget result, Machine.run budget padded m = some result) ∧
    ∀ budget budget' result result', Machine.run budget program m = some result →
      Machine.run budget' padded m = some result' → Machine.SameEnd result result' := by
  have hjumps' : ∀ line ∈ padded, Statement.jumps line = false :=
    hpadded.forall_mem hjumps fun _ => jumps_of_isIdle
  have hends {lines : List String} (hlines : ∀ line ∈ lines, Statement.jumps line = false) :
      ∃ budget result, Machine.run budget lines m = some result :=
    (Moment.run_ends_iff m).mpr
      (Moment.ends_of_no_jumps hlines (Moment.always_only_of_forall hlines m))
  refine ⟨hends hjumps, hends hjumps', ?_⟩
  intro budget budget' result result' hr hr'
  obtain ⟨n, common, hc, hend⟩ := Machine.complete_essence_of_run hjumps hd hi hs hr
  obtain ⟨n', common', hc', hend'⟩ := Machine.complete_essence_of_run hjumps' hd hi hs hr'
  rw [hpadded.essence_eq] at hc'
  obtain rfl : common = common' := Machine.complete_unique hc hc'
  exact hend.of_common hend'

/-- Blank lines and comments in the body of a macro, of a loop and of a block without a terminator,
and a run that fails in the last of them. -/
theorem padded_blocks_fail_alike :
    let program := ["MACRO m", "PRINTSTR \"a\"", "END MACRO", "INT n = 7", "FOR i FROM 1 TO 2",
      "CALL m", "END FOR", "IF n == 7", "PRINTSTR \" //\"", "x ++"]
    let padded := ["", "MACRO m", "// END MACRO", "PRINTSTR \"a\"", "\t", "END MACRO", "INT n = 7",
      "FOR i FROM 1 TO 2", "//GOTO a", "CALL m", "END FOR", "IF n == 7", "  ", "PRINTSTR \" //\"",
      "// END IF", "x ++", ""]
    Padded program padded ∧ (∀ line ∈ program, Statement.jumps line = false) ∧
    ∃ budget m₁ m₂, Machine.run 60 program {} = some (.error (.unknownToken "x") m₁) ∧
      Machine.run budget padded {} = some (.error (.unknownToken "x") m₂) ∧
      m₂.sink.bytes = "aa //".toUTF8 ∧ m₂.vars = m₁.vars := by
  intro program padded
  have hpadded : Padded program padded := by
    repeat
      first
        | exact .nil
        | apply Padded.keep
        | apply Padded.insert (by decide)
  have hjumps : ∀ line ∈ program, Statement.jumps line = false := by decide +kernel
  obtain ⟨m₁, hrun, hbytes⟩ : ∃ m₁,
      Machine.run 60 program {} = some (.error (.unknownToken "x") m₁) ∧
        m₁.sink.bytes = "aa //".toUTF8 := ⟨_, rfl, by decide +kernel⟩
  obtain ⟨_, ⟨budget, result, hrun'⟩, hsame⟩ :=
    idle_lines_are_inert hpadded hjumps (m := {}) rfl rfl ⟨rfl, rfl, rfl⟩
  have hend := hsame 60 budget _ _ hrun hrun'
  cases result with
  | ok value m₂ => exact False.elim hend
  | error fault m₂ =>
    obtain ⟨rfl, hsink, hvars⟩ := hend
    exact ⟨hpadded, hjumps, budget, m₁, m₂, hrun, hrun', hsink ▸ hbytes, hvars.symm⟩

end LineScript
