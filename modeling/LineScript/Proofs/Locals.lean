import LineScript.Proofs.Completion
import LineScript.Proofs.Effects

/-! Local variables outside of macros. Code in the global scope does not look at them and does not
change them, as long as it calls no macro. -/

namespace LineScript

namespace Variables

/-- The variables with other local ones. -/
def withLocals (ints : Table Int64) (strings : Table String) (vars : Variables) : Variables :=
  { vars with localInts := ints, localStrings := strings }

variable (vars : Variables) (ints : Table Int64) (strings : Table String)

/-- Outside of macros the tables are searched in this order. -/
theorem target?_global (name : String) :
    vars.target? .global name =
      if vars.ints.contains name then some .int
      else if vars.strings.contains name then some .string
      else if vars.mutables.contains name then some .mutableInt
      else none := by
  simp only [target?, reduceCtorEq, false_and, if_false]

theorem target?_withLocals (name : String) :
    (vars.withLocals ints strings).target? .global name = vars.target? .global name := by
  rw [target?_global, target?_global]
  rfl

theorem target?_global_ne {vars : Variables} {name : String} {slot : Slot}
    (h : vars.target? .global name = some slot) : slot ≠ .localInt ∧ slot ≠ .localString := by
  rw [target?_global] at h
  split at h
  · cases h
    decide
  · split at h
    · cases h
      decide
    · split at h
      · cases h
        decide
      · cases h

theorem operand?_withLocals (word : Option String) :
    (vars.withLocals ints strings).operand? .global word = vars.operand? .global word := by
  cases word with
  | none => rfl
  | some word =>
    rw [operand?, operand?, operand, operand]
    cases readInt? word with
    | some n => rfl
    | none => rfl

/-- In the tables that are not local, a reassignment leaves the local variables alone. -/
theorem updated_withLocals (name : String) (op : Update) (word : Option String) {slot : Slot}
    (hs : slot ≠ .localInt ∧ slot ≠ .localString) :
    (vars.withLocals ints strings).updated .global name op word slot =
      (vars.updated .global name op word slot).map (withLocals ints strings) := by
  have hoperand := operand?_withLocals vars ints strings word
  cases slot with
  | localInt => exact absurd rfl hs.1
  | localString => exact absurd rfl hs.2
  | string => rfl
  | int =>
    simp only [updated, hoperand]
    split
    · cases vars.operand? .global word with
      | error fault => rfl
      | ok n =>
        change (Machine.updateEntry vars.ints name op (n.getD 0)).map _ =
          ((Machine.updateEntry vars.ints name op (n.getD 0)).map _).map _
        cases Machine.updateEntry vars.ints name op (n.getD 0) <;> rfl
    · rfl
  | mutableInt =>
    simp only [updated, hoperand]
    split
    · cases vars.operand? .global word <;> rfl
    · rfl

theorem assigned_withLocals (reserved : String → Bool) (name : String) (args : List String) :
    (vars.withLocals ints strings).assigned .global reserved name args =
      (vars.assigned .global reserved name args).map (withLocals ints strings) := by
  rw [assigned, assigned, target?_withLocals]
  cases ht : vars.target? .global name with
  | none => rfl
  | some slot =>
    cases Machine.readUpdate name args with
    | error cause => rfl
    | ok update =>
      exact updated_withLocals vars ints strings name update.1 update.2 (target?_global_ne ht)

theorem stringAssigned_withLocals (name value : String) :
    (vars.withLocals ints strings).stringAssigned .global name value =
      (vars.stringAssigned .global name value).map (withLocals ints strings) := by
  have hglobal (found : Prop) : ¬ (Scope.global = .inMacro ∧ found) := by
    rintro ⟨h, _⟩
    cases h
  rw [stringAssigned, stringAssigned, if_neg (hglobal _), if_neg (hglobal _)]
  change (Variables.found name (vars.strings.replace? name value)).map _ =
    ((Variables.found name (vars.strings.replace? name value)).map _).map _
  cases vars.strings.replace? name value <;> rfl

end Variables

/-- What a statement in the global scope does is the same whatever the local variables are. -/
theorem Statement.effect_withLocals (vars : Variables) (ints : Table Int64)
    (strings : Table String) (reserved : String → Bool) (statement : Statement) :
    statement.effect .global (vars.withLocals ints strings) reserved =
      (statement.effect .global vars reserved).map fun result =>
        (result.1.withLocals ints strings, result.2) := by
  cases statement with
  | declareInt name value =>
    change (((vars.ints.declare name value).map _).mapError _).map _ =
      ((((vars.ints.declare name value).map _).mapError _).map _).map _
    cases vars.ints.declare name value <;> rfl
  | declareString name value =>
    change (((vars.strings.declare name value).map _).mapError _).map _ =
      ((((vars.strings.declare name value).map _).mapError _).map _).map _
    cases vars.strings.declare name value <;> rfl
  | declareMutable name value =>
    change (((vars.mutables.declare name value).map _).mapError _).map _ =
      ((((vars.mutables.declare name value).map _).mapError _).map _).map _
    cases vars.mutables.declare name value <;> rfl
  | assign name args =>
    rw [effect, effect, Variables.assigned_withLocals]
    cases vars.assigned .global reserved name args <;> rfl
  | assignString name value =>
    rw [effect, effect, Variables.stringAssigned_withLocals]
    cases vars.stringAssigned .global name value <;> rfl
  | printVar name newline =>
    change (vars.readPrintable .global name).map _ = ((vars.readPrintable .global name).map _).map _
    cases vars.readPrintable .global name <;> rfl
  | _ => rfl

namespace Machine

/-- The machine with other local variables. -/
def withLocals (ints : Table Int64) (strings : Table String) (m : Machine) : Machine :=
  { m with vars := m.vars.withLocals ints strings }

/-- An action that neither looks at the local variables nor changes them. -/
def Isolated {α : Type} (action : Exec α) : Prop :=
  ∀ m ints strings, action (m.withLocals ints strings) =
    mapEndState (withLocals ints strings) (action m)

section Isolated

variable {α β : Type}

theorem isolated_pure (value : α) : Isolated (pure value : Exec α) :=
  fun _ _ _ => rfl

theorem isolated_bind {action : Exec α} {next : α → Exec β} (ha : Isolated action)
    (hn : ∀ value, Isolated (next value)) : Isolated (action >>= next) := by
  intro m ints strings
  exact bind_mapEndState (ha m ints strings) fun value m' => hn value m' ints strings

theorem isolated_guard : Isolated guard := by
  intro m ints strings
  rcases free_or_stopped m with hf | ⟨fault, hs⟩
  · have hf' : Free (m.withLocals ints strings) := hf
    rw [guard_of_free hf, guard_of_free hf']
    rfl
  · have hs' : Stopped (m.withLocals ints strings) fault := hs
    rw [guard_of_stopped hs, guard_of_stopped hs']
    rfl

theorem isolated_put (text : String) : Isolated (printing (put text)) := by
  intro m ints strings
  have hsink : (m.withLocals ints strings).sink = m.sink := rfl
  rw [printing_put, printing_put, hsink]
  split <;> rfl

theorem isolated_putAll (texts : List String) : Isolated (putAll texts) := by
  induction texts with
  | nil => exact isolated_pure ()
  | cons text texts ih => exact isolated_bind (isolated_put text) fun _ => ih

theorem isolated_takeBody (kind : BlockKind) : Isolated (takeBody kind) := by
  intro m ints strings
  have hpending : (m.withLocals ints strings).pending = m.pending := rfl
  rw [takeBody, get_bind, get_bind, hpending, modify_bind, modify_bind]
  cases m.pending with
  | none => rfl
  | some block =>
    dsimp only
    split <;> rfl

/-- A condition in the global scope is about variables that are not local. -/
theorem isolated_evaluate (condition : Condition) : Isolated (evaluate .global condition) := by
  intro m ints strings
  have hint : (m.withLocals ints strings).vars.readInt .global condition.name =
      m.vars.readInt .global condition.name := rfl
  have hstring : (m.withLocals ints strings).vars.readString .global condition.name =
      m.vars.readString .global condition.name := rfl
  rw [evaluate, get_bind, get_bind]
  cases condition.operand with
  | int operand =>
    dsimp only
    rw [hint]
    cases m.vars.readInt .global condition.name <;> rfl
  | text operand =>
    dsimp only
    rw [hstring]
    cases m.vars.readString .global condition.name <;> rfl

/-- A plain statement in the global scope is isolated, because its effect is. -/
theorem isolated_execute_of_isPlain {statement : Statement} (hs : statement.isPlain = true) :
    Isolated (execute .global statement) := by
  intro m ints strings
  rcases free_or_stopped m with hf | ⟨fault, hstop⟩
  · have hf' : Free (m.withLocals ints strings) := hf
    have heffect := statement.effect_withLocals m.vars ints strings m.isReserved
    rw [execute_eq_perform hf .global hs, execute_eq_perform hf' .global hs]
    change perform (statement.effect .global (m.vars.withLocals ints strings) m.isReserved) _ = _
    rw [heffect]
    cases statement.effect .global m.vars m.isReserved with
    | error fault => rfl
    | ok result =>
      have hprint : Isolated (putAll result.2 >>= fun _ => pure ([] : List Frame)) :=
        isolated_bind (isolated_putAll result.2) fun _ => isolated_pure []
      exact hprint { m with vars := result.1 } ints strings
  · have hstop' : Stopped (m.withLocals ints strings) fault := hstop
    rw [execute_of_stopped hstop, execute_of_stopped hstop']
    rfl

/-- Every statement in the global scope is isolated, but for calls. -/
theorem isolated_execute {statement : Statement} (hs : ∀ name, statement ≠ .call name) :
    Isolated (execute .global statement) := by
  cases hplain : statement.isPlain with
  | true => exact isolated_execute_of_isPlain hplain
  | false =>
    unfold execute
    apply isolated_bind isolated_guard
    intro _
    cases statement with
    | ifHeader condition =>
      have hbranch : Isolated (takeBody .ifBlock >>= fun body =>
          evaluate .global condition >>= fun holds =>
            if holds then pure [Frame.body .global body] else pure []) := by
        apply isolated_bind (isolated_takeBody _)
        intro body
        apply isolated_bind (isolated_evaluate condition)
        intro holds
        split <;> exact isolated_pure _
      exact hbranch
    | forHeader header =>
      have hloop : Isolated (takeBody .forBlock >>= fun body =>
          pure [Frame.loop .global header body header.first]) :=
        isolated_bind (isolated_takeBody _) fun body => isolated_pure _
      exact hloop
    | call name => exact absurd rfl (hs name)
    | label name => exact fun _ _ _ => rfl
    | goto name =>
      intro m ints strings
      change (jumpTo name >>= fun _ => pure []) (m.withLocals ints strings) =
        mapEndState _ ((jumpTo name >>= fun _ => pure []) m)
      apply bind_mapEndState
      · have hlabels : (m.withLocals ints strings).labels = m.labels := rfl
        rw [jumpTo, get_bind, get_bind, hlabels]
        cases m.labels.jump name <;> rfl
      · exact fun _ _ => rfl
    | _ => cases hplain

theorem isolated_start {line : String} (rest : List String) (hl : Statement.calls line = false) :
    Isolated (start .global line rest) := by
  intro m ints strings
  have hstrings : (m.withLocals ints strings).vars.isString .global = m.vars.isString .global := rfl
  cases hr : Statement.read (m.vars.isString .global) line with
  | error cause =>
    have hr' := hr
    rw [← hstrings] at hr'
    rw [start_of_unreadable rest hr, start_of_unreadable rest hr']
    rfl
  | ok statement =>
    have hr' := hr
    rw [← hstrings] at hr'
    have hexecute (span : Nat) : Isolated (execute .global statement >>= fun frames =>
        pure (frames, span)) := by
      apply isolated_bind
      · apply isolated_execute
        rintro name rfl
        rw [Statement.calls_of_read hr] at hl
        cases hl
      · exact fun _ => isolated_pure _
    cases statement with
    | macroHeader name =>
      rw [start_of_macroHeader rest hr, start_of_macroHeader rest hr']
      rfl
    | ifHeader condition =>
      rw [start_of_ifHeader rest hr, start_of_ifHeader rest hr']
      exact hexecute _ { m with pending := some ⟨.ifBlock, _⟩ } ints strings
    | forHeader header =>
      rw [start_of_forHeader rest hr, start_of_forHeader rest hr']
      exact hexecute _ { m with pending := some ⟨.forBlock, _⟩ } ints strings
    | _ =>
      rw [start_of_opens?_eq_none rest hr rfl, start_of_opens?_eq_none rest hr' rfl]
      exact hexecute 1 m ints strings

end Isolated

end Machine

namespace Frame

open Machine

/-- A frame outside of all macros that calls none. -/
def CallFree : Frame → Prop
  | line _ _ => True
  | call _ _ => False
  | body scope lines => scope = .global ∧ ∀ text ∈ lines, Statement.calls text = false
  | loop scope _ lines _ => scope = .global ∧ ∀ text ∈ lines, Statement.calls text = false
  | pass scope _ lines _ => scope = .global ∧ ∀ text ∈ lines, Statement.calls text = false

variable {frame : Frame} {frames : List Frame} {m m' : Machine}

theorem CallFree.isolated_tick (h : frame.CallFree) : Isolated frame.tick := by
  cases frame with
  | line index span => exact fun _ _ _ => rfl
  | call index lines => cases h
  | body scope lines =>
    obtain ⟨rfl, hlines⟩ := h
    cases lines with
    | nil => exact isolated_pure []
    | cons text rest =>
      have hstart := isolated_start rest (hlines text List.mem_cons_self)
      exact isolated_bind hstart fun _ => isolated_pure _
  | loop scope header lines value =>
    -- The variable of a loop is never a local one.
    have hpass : Isolated (modify (fun m : Machine =>
        { m with vars.ints := m.vars.ints.insert header.var value }) >>= fun _ =>
          pure [body scope lines, pass scope header lines value]) := fun _ _ _ => rfl
    apply isolated_bind isolated_guard
    intro _
    dsimp only
    split
    · split
      · exact isolated_pure []
      · exact hpass
    · exact hpass
  | pass scope header lines value =>
    rw [tick]
    split
    · exact isolated_pure _
    · exact isolated_pure _
    · exact fun _ _ _ => rfl

end Frame

theorem Machine.Started.callFree {line : String} {rest : List String} {m m' : Machine}
    {frames : List Frame} {span : Nat} (h : Started .global line rest m frames span m')
    (hlines : ∀ text ∈ line :: rest, Statement.calls text = false) :
    ∀ frame ∈ frames, frame.CallFree := by
  have hbody (kind : BlockKind) (text : String) (ht : text ∈ kind.body rest) :
      Statement.calls text = false :=
    hlines text (List.mem_cons_of_mem _ ((List.takeWhile_sublist _).subset ht))
  cases h with
  | entered hr hf => exact List.forall_mem_singleton.mpr ⟨rfl, hbody .ifBlock⟩
  | looped hr hf => exact List.forall_mem_singleton.mpr ⟨rfl, hbody .forBlock⟩
  | called hr hf hb hd =>
    have hcalls := hlines line List.mem_cons_self
    rw [Statement.calls_of_read hr] at hcalls
    cases hcalls
  | _ => exact fun frame hframe => absurd hframe List.not_mem_nil

theorem Frame.Ticked.callFree {frame : Frame} {frames : List Frame} {m m' : Machine}
    (h : frame.Ticked m frames m') (hc : frame.CallFree) : ∀ other ∈ frames, other.CallFree := by
  cases h with
  | bodyLine hs =>
    rename_i scope text rest begun span
    obtain ⟨rfl, hlines⟩ := hc
    have hrest : ∀ other ∈ rest.drop (span - 1), Statement.calls other = false := by
      intro other ho
      exact hlines other (List.mem_cons_of_mem _ (List.mem_of_mem_drop ho))
    exact List.forall_mem_append.mpr
      ⟨hs.callFree hlines, List.forall_mem_singleton.mpr ⟨rfl, hrest⟩⟩
  | callEnd => cases hc
  | callLine hs => cases hc
  | loopPass hf hb =>
    intro other ho
    simp only [List.mem_cons, List.not_mem_nil, or_false] at ho
    rcases ho with rfl | rfl <;> exact hc
  | passNext ha => exact List.forall_mem_singleton.mpr hc
  | _ => exact fun other ho => absurd ho List.not_mem_nil

namespace Machine

/-- Work outside of macros goes the same way whatever the local variables are. -/
theorem complete_withLocals (budget : Nat) {stack : List Frame}
    (hs : ∀ frame ∈ stack, frame.CallFree) (m : Machine) (ints : Table Int64)
    (strings : Table String) :
    complete budget stack (m.withLocals ints strings) =
      (complete budget stack m).map (mapEndState (withLocals ints strings)) := by
  induction budget generalizing stack m with
  | zero =>
    cases stack with
    | nil => simp only [complete, Option.map_some, mapEndState]
    | cons frame stack => simp only [complete, Option.map_none]
  | succ budget ih =>
    cases stack with
    | nil => simp only [complete, Option.map_some, mapEndState]
    | cons frame stack =>
      have hframe := hs frame List.mem_cons_self
      have htick := hframe.isolated_tick m ints strings
      rw [complete, complete, htick]
      cases ht : frame.tick m with
      | error fault m' => rfl
      | ok frames m' =>
        apply ih
        have hframes := (Frame.ticked_of_tick ht).callFree hframe
        exact List.forall_mem_append.mpr
          ⟨hframes, fun other ho => hs other (List.mem_cons_of_mem _ ho)⟩

/-- Work outside of macros leaves the local variables as they were. -/
theorem locals_of_complete {budget : Nat} {stack : List Frame} {m : Machine}
    {result : EStateM.Result Fault Machine Unit} (hs : ∀ frame ∈ stack, frame.CallFree)
    (h : complete budget stack m = some result) :
    (endState result).vars.localInts = m.vars.localInts ∧
      (endState result).vars.localStrings = m.vars.localStrings := by
  have hsame : complete budget stack m =
      (complete budget stack m).map
        (mapEndState (withLocals m.vars.localInts m.vars.localStrings)) :=
    complete_withLocals budget hs m m.vars.localInts m.vars.localStrings
  rw [h] at hsame
  have hresult : result = mapEndState (withLocals m.vars.localInts m.vars.localStrings) result :=
    Option.some.inj hsame
  rw [hresult, endState_mapEndState]
  exact ⟨rfl, rfl⟩

/-- A body in the global scope that calls no macro is worked off. With other local variables it has
the same result and leaves the same machine behind, but for these local variables, and it changes the
local variables in neither case. -/
theorem global_body_ignores_locals (lines : List String)
    (hl : ∀ line ∈ lines, Statement.calls line = false) (m : Machine) (ints : Table Int64)
    (strings : Table String) :
    (∃ budget result, complete budget [.body .global lines] m = some result) ∧
    (∀ budget, complete budget [.body .global lines] (m.withLocals ints strings) =
      (complete budget [.body .global lines] m).map (mapEndState (withLocals ints strings))) ∧
    ∀ budget result, complete budget [.body .global lines] m = some result →
      (endState result).vars.localInts = m.vars.localInts ∧
        (endState result).vars.localStrings = m.vars.localStrings := by
  have hframes : ∀ frame ∈ [Frame.body .global lines], frame.CallFree :=
    List.forall_mem_singleton.mpr ⟨rfl, hl⟩
  refine ⟨?_, ?_, ?_⟩
  · have hcall (body : List String) (m₁ : Machine) (hd : m.depth < maxDepth)
        (hm₁ : m₁.depth = m.depth + 1) : Completes [.call 0 body] m₁ m.depth :=
      call_completes hd 0 body hm₁
    obtain ⟨budget, result, h, _⟩ := (body_completes_of_call hcall .global lines rfl).exists_result
    exact ⟨budget, result, h⟩
  · intro budget
    exact complete_withLocals budget hframes m ints strings
  · intro budget result h
    exact locals_of_complete hframes h

/-- A body that reads, changes and declares names that are local variables as well. -/
theorem global_body_among_local_namesakes :
    let lines := ["IF s == \"x\"", "PRINTVAR n", "END IF", "FOR i FROM 1 TO 2", "n += i", "END FOR",
      "s = \"y\"", "INT k = 4", "PRINTVAR s"]
    let m : Machine := { vars := { ints := ⟨[("n", 1)]⟩, strings := ⟨[("s", "x")]⟩ } }
    let ints : Table Int64 := ⟨[("n", 50), ("i", 7), ("k", 9)]⟩
    let strings : Table String := ⟨[("s", "z")]⟩
    ("n += i" ∈ lines ∧ ∀ line ∈ lines, Statement.calls line = false) ∧
      ∃ m', complete 40 [.body .global lines] m = some (.ok () m') ∧
        m'.vars.ints.entries = [("n", 4), ("i", 2), ("k", 4)] ∧
        m'.vars.strings.entries = [("s", "y")] ∧ m'.sink.bytes = "1y".toUTF8 ∧
        complete 40 [.body .global lines] (m.withLocals ints strings) =
          some (.ok () (m'.withLocals ints strings)) := by
  intro lines m ints strings
  have hcalls : ∀ line ∈ lines, Statement.calls line = false := by decide +kernel
  obtain ⟨m', hends, hints, hstrings, hbytes⟩ : ∃ m',
      complete 40 [.body .global lines] m = some (.ok () m') ∧
      m'.vars.ints.entries = [("n", 4), ("i", 2), ("k", 4)] ∧
      m'.vars.strings.entries = [("s", "y")] ∧ m'.sink.bytes = "1y".toUTF8 :=
    ⟨_, rfl, by decide +kernel, by decide +kernel, by decide +kernel⟩
  refine ⟨⟨by decide, hcalls⟩, m', hends, hints, hstrings, hbytes, ?_⟩
  have hother := (global_body_ignores_locals lines hcalls m ints strings).2.1 40
  rw [hends] at hother
  exact hother

end Machine

end LineScript
