import LineScript.Proofs.Dialogue
import LineScript.Proofs.Moments

/-! The input of the console is used up in turns. A turn consists of a command and, if the command
reads a program, of the lines of the program and the line that closes it. So every line is used once,
and what the console leaves over is the end of the input. -/

namespace LineScript

/-- The input lines that belong to one command. -/
structure Turn where
  command : String
  /-- The program that the command reads. -/
  buffer : List String
  /-- The line that closes the program. -/
  closing? : Option String
  isOpen : ∀ line ∈ buffer, Console.closesBuffer line = false
  closes : ∀ line ∈ closing?, Console.closesBuffer line = true
  alone : Command.read command ≠ .ok .interpret → buffer = [] ∧ closing? = none

/-- All lines of a turn, in the order of the input. -/
def Turn.lines (turn : Turn) : List String :=
  turn.command :: (turn.buffer ++ turn.closing?.toList)

namespace Console

section Budget

variable {α β : Type}

/-- A result that is there stays the same with every larger budget. -/
def Lasting (action : Nat → Dialogue α) : Prop :=
  ∀ budget budget' c ending, budget ≤ budget' → action budget c = some ending →
    action budget' c = some ending

theorem lasting_const (action : Dialogue α) : Lasting fun _ => action :=
  fun _ _ _ _ _ h => h

theorem lasting_bind {action : Nat → Dialogue α} {next : Nat → α → Dialogue β}
    (ha : Lasting action) (hn : ∀ value, Lasting fun budget => next budget value) :
    Lasting fun budget => action budget >>= next budget := by
  intro budget budget' c ending hle h
  dsimp only at h ⊢
  cases he : action budget c with
  | none =>
    rw [bind_of_none he] at h
    cases h
  | some first =>
    obtain ⟨outcome, c₁⟩ := first
    have hfirst := ha budget budget' c _ hle he
    cases outcome with
    | ok value =>
      rw [bind_of_done he] at h
      rw [bind_of_done hfirst]
      exact hn value budget budget' c₁ ending hle h
    | error fault =>
      rw [bind_of_fault he] at h
      rw [bind_of_fault hfirst]
      exact h

theorem lasting_runLines (lines : List String) : Lasting fun budget => runLines budget lines := by
  intro budget budget' c ending hle h
  dsimp only at h ⊢
  rw [runLines_eq] at h ⊢
  obtain ⟨result, hresult, he⟩ := Option.map_eq_some_iff.mp h
  have hlarger : c.machine.run budget' lines = some result := Moment.resume_of_le hle hresult
  rw [hlarger, Option.map_some, he]

theorem lasting_perform (command : Command) : Lasting fun budget => perform budget command := by
  cases command with
  | interpret =>
    apply lasting_bind (lasting_const _)
    intro c
    apply lasting_bind (lasting_const _)
    intro buffer?
    cases buffer? with
    | none => exact lasting_const _
    | some buffer =>
      apply lasting_bind (lasting_const _)
      intro _
      exact lasting_bind (lasting_runLines buffer) fun _ => lasting_const _
  | run path =>
    refine lasting_bind ?_ fun _ => lasting_const _
    apply lasting_bind (lasting_const _)
    intro c
    cases c.files.readLines path with
    | ok lines => exact lasting_runLines lines
    | error cause => exact lasting_const _
  | _ => exact lasting_const _

theorem lasting_exec (line : String) : Lasting fun budget => exec budget line := by
  intro budget budget' c ending hle h
  dsimp only at h ⊢
  rw [exec_eq] at h ⊢
  obtain ⟨first, hfirst, he⟩ := Option.map_eq_some_iff.mp h
  have hlasting := lasting_bind (lasting_const (settle (Command.read line))) lasting_perform
  have hlarger : (settle (Command.read line) >>= perform budget') c.counted = some first :=
    hlasting budget budget' c.counted first hle hfirst
  rw [hlarger, Option.map_some, he]

/-- An action that always has a result. -/
def Total (action : Dialogue α) : Prop :=
  ∀ c, (action c).isSome

theorem total_pure (value : α) : Total (pure value) :=
  fun _ => rfl

theorem total_bind {action : Dialogue α} {next : α → Dialogue β} (ha : Total action)
    (hn : ∀ value, Total (next value)) : Total (action >>= next) := by
  intro c
  obtain ⟨⟨outcome, c₁⟩, h⟩ := Option.isSome_iff_exists.mp (ha c)
  cases outcome with
  | ok value =>
    rw [bind_of_done h]
    exact hn value c₁
  | error fault =>
    rw [bind_of_fault h]
    rfl

theorem total_showText (text : String) : Total (showText text) := by
  have htransfer (action : Transfer Unit) : Total (transfer action) := by
    intro c
    rw [transfer_eq]
    split <;> rfl
  exact total_bind (htransfer _) fun _ => htransfer _

theorem total_showLine (text : String) : Total (showLine text) :=
  total_bind (total_showText text) fun _ => total_showText "\n"

theorem total_forM (lines : List String) : Total (lines.forM showLine) := by
  induction lines with
  | nil => exact total_pure _
  | cons line lines ih => exact total_bind (total_showLine line) fun _ => ih

theorem total_save (path : String) : Total (save path) := by
  intro c
  rw [save_eq]
  split <;> rfl

end Budget

section Commands

variable {c c' : Console} {budget : Nat} {line : String} {outcome : Except ConsoleFault Flow}

/-- The input, the last program and the way to ask have not changed. -/
def SameInput (c c' : Console) : Prop :=
  c'.input = c.input ∧ c'.lastBuffer = c.lastBuffer ∧ c'.interactive = c.interactive

theorem sameInput_of_deeds (h : Relation.ReflTransGen Deed c c') : SameInput c c' := by
  induction h with
  | refl => exact ⟨rfl, rfl, rfl⟩
  | tail _ hdeed ih => cases hdeed <;> exact ih

/-- Only one command has to do with the input. -/
theorem sameInput_of_exec (hr : Command.read line ≠ .ok .interpret)
    (h : exec budget line c = some (outcome, c')) : SameInput c c' := by
  cases hread : Command.read line with
  | error fault =>
    rw [exec_of_unreadable hread] at h
    cases h
    exact ⟨rfl, rfl, rfl⟩
  | ok command =>
    rw [hread] at hr
    rw [exec_of_read hread] at h
    obtain ⟨⟨result, c₁⟩, hperform, he⟩ := Option.map_eq_some_iff.mp h
    cases he
    by_cases hd : command = .debug
    · subst hd
      cases hperform
      exact ⟨rfl, rfl, rfl⟩
    · have hdeeds := deeds_perform budget (fun hc => hr (congrArg _ hc)) hd _ _ _ hperform
      have hsame : SameInput c.counted c₁ := sameInput_of_deeds hdeeds
      exact hsame

/-- The console is left by the command for it, or by one that reads a program. -/
theorem read_of_exit (h : exec budget line c = some (.ok .exit, c')) :
    Command.read line = .ok .exit ∨ Command.read line = .ok .interpret := by
  have hnext {α : Type} {action : Dialogue α} {c c' : Console}
      (h : (action >>= fun _ => pure Flow.next) c = some (.ok .exit, c')) : False := by
    rcases bind_cases h with ⟨fault, hfault, _⟩ | ⟨value, c₁, _, hlater⟩
    · cases hfault
    · cases hlater
  cases hread : Command.read line with
  | error fault =>
    rw [exec_of_unreadable hread] at h
    cases h
  | ok command =>
    rw [exec_of_read hread] at h
    obtain ⟨⟨result, c₁⟩, hperform, he⟩ := Option.map_eq_some_iff.mp h
    cases he
    cases command with
    | interpret => exact Or.inr rfl
    | exit => exact Or.inl rfl
    | nothing => cases hperform
    | _ => exact (hnext hperform).elim

/-- Either some line closes the program, and the first such line does, or none does. -/
theorem closed_or_open (input : List String) :
    (∃ buffer closing rest, input = buffer ++ closing :: rest ∧
      (∀ line ∈ buffer, closesBuffer line = false) ∧ closesBuffer closing = true) ∨
    ∀ line ∈ input, closesBuffer line = false := by
  cases hf : input.find? closesBuffer with
  | none =>
    right
    intro line hline
    simpa using List.find?_eq_none.mp hf line hline
  | some closing =>
    left
    obtain ⟨hclosing, buffer, rest, hinput, hbuffer⟩ := List.find?_eq_some_iff_append.mp hf
    refine ⟨buffer, closing, rest, hinput, fun line hline => ?_, hclosing⟩
    simpa using hbuffer line hline

theorem exec_interpret_closed (hi : c.interactive = false)
    (hr : Command.read line = .ok .interpret) {buffer rest : List String} {closing : String}
    (hinput : c.input = buffer ++ closing :: rest)
    (hb : ∀ text ∈ buffer, closesBuffer text = false) (hc : closesBuffer closing = true)
    (budget : Nat) :
    exec budget line c = (c.machine.run budget buffer).map fun result =>
      ((ended result).1.map fun _ => .next,
        { c with
          input := rest
          lastBuffer := buffer
          commands := c.commands + 1
          machine := (ended result).2.cleared }) := by
  have hinterpret := interpret_closed (c := c.counted) (Or.inl hi) hb hc hinput budget
  have hasked : c.counted.asked (linePrompts false buffer) = c.counted := by
    simp [asked, counted, hi]
  rw [hasked] at hinterpret
  rw [exec_of_read hr, perform, hinterpret, Option.map_map]
  rfl

theorem exec_interpret_open (hi : c.interactive = false)
    (hr : Command.read line = .ok .interpret)
    (hb : ∀ text ∈ c.input, closesBuffer text = false) (budget : Nat) :
    exec budget line c = some (.ok .exit,
      { c with
        input := []
        commands := c.commands + 1
        machine := c.machine.cleared }) := by
  have hinterpret := interpret_open (c := c.counted) (Or.inl hi) hb budget
  have hasked : c.counted.asked (linePrompts false c.counted.input) = c.counted := by
    simp [asked, counted, hi]
  rw [hasked] at hinterpret
  rw [exec_of_read hr, perform, hinterpret]
  rfl

/-- The program that a command line runs: the one in front of the first line that closes it, or the one
in a file. -/
def program? (c : Console) (line : String) : Option (List String) :=
  match Command.read line with
  | .ok .interpret =>
    if c.input.any closesBuffer then some (c.input.takeWhile (!closesBuffer ·)) else none
  | .ok (.run path) => (c.files.readLines path).toOption
  | _ => none

theorem program?_interpret (hr : Command.read line = .ok .interpret) {buffer rest : List String}
    {closing : String} (hinput : c.input = buffer ++ closing :: rest)
    (hb : ∀ text ∈ buffer, closesBuffer text = false) (hc : closesBuffer closing = true) :
    c.program? line = some buffer := by
  have hany : (buffer ++ closing :: rest).any closesBuffer = true := by simp [hc]
  have htake : (buffer ++ closing :: rest).takeWhile (!closesBuffer ·) = buffer := by
    rw [List.takeWhile_append_of_pos fun text ht => by simp [hb text ht]]
    simp [hc]
  rw [program?, hr]
  dsimp only
  rw [hinput, hany, if_pos rfl, htake]

/-- A command has a result as soon as the program that it runs has one. -/
theorem exec_isSome_iff (budget : Nat) (line : String) (hi : c.interactive = false) :
    (exec budget line c).isSome ↔
      ∀ lines, c.program? line = some lines → (c.machine.run budget lines).isSome := by
  have htrivial (h : (exec budget line c).isSome) (hp : c.program? line = none) :
      (exec budget line c).isSome ↔
        ∀ lines, c.program? line = some lines → (c.machine.run budget lines).isSome := by
    refine ⟨fun _ lines hl => ?_, fun _ => h⟩
    rw [hp] at hl
    cases hl
  cases hread : Command.read line with
  | error fault =>
    apply htrivial
    · rw [exec_of_unreadable hread]
      rfl
    · rw [program?, hread]
  | ok command =>
    have htotal (ht : Total (perform budget command)) : (exec budget line c).isSome := by
      rw [exec_of_read hread, Option.isSome_map]
      exact ht c.counted
    cases command with
    | interpret =>
      rcases closed_or_open c.input with ⟨buffer, closing, rest, hinput, hb, hc⟩ | hopen
      · rw [exec_interpret_closed hi hread hinput hb hc, Option.isSome_map,
          program?_interpret hread hinput hb hc]
        simp
      · apply htrivial
        · rw [exec_interpret_open hi hread hopen]
          rfl
        · have hany : c.input.any closesBuffer = false := by simpa using hopen
          rw [program?, hread]
          dsimp only
          rw [hany, if_neg Bool.false_ne_true]
    | run path =>
      have hprogram : c.program? line = (c.files.readLines path).toOption := by
        rw [program?, hread]
      cases hf : c.files.readLines path with
      | error cause =>
        rw [hf] at hprogram
        apply htrivial _ hprogram
        rw [exec_run_missing hread hf]
        rfl
      | ok lines =>
        rw [hf] at hprogram
        rw [exec_run hread hf, Option.isSome_map, hprogram]
        simp [Except.toOption]
    | save path =>
      refine htrivial (htotal ?_) (by rw [program?, hread])
      exact total_bind (total_save path) fun _ => total_pure _
    | help =>
      refine htrivial (htotal ?_) (by rw [program?, hread])
      exact total_bind (total_forM helpLines) fun _ => total_pure _
    | version =>
      refine htrivial (htotal ?_) (by rw [program?, hread])
      exact total_bind (total_showLine versionLine) fun _ => total_pure _
    | _ => exact htrivial (htotal fun _ => rfl) (by rw [program?, hread])

end Commands

section Loop

variable {c c₁ c₂ c' : Console} {budget : Nat} {outcome : Except ConsoleFault Flow}
  {result : Except ConsoleFault Unit} {turn : Turn} {turns : List Turn}

/-- The console after the outcome of a command was looked at: a fault has been reported. -/
def reported (outcome : Except ConsoleFault Flow) (c : Console) : Console :=
  match outcome with
  | .ok _ => c
  | .error fault => { c with errors := c.errors ++ reportText c.interactive fault }

/-- How the loop ends after the outcome of a command, unless it goes on. -/
def verdict : Except ConsoleFault Flow → Option (Except ConsoleFault Unit)
  | .ok .next => none
  | .ok .exit => some (.ok ())
  | .error fault => if fault.isTermination then some (.error fault) else none

theorem prompt_of_not_interactive (hi : c.interactive = false) :
    prompt c = some (.ok (), c) := by
  unfold prompt
  rw [get_bind, hi]
  rfl

theorem runCommands_nil (hp : prompt c = some (.ok (), c₁)) (h : c₁.input = []) (count : Nat) :
    runCommands budget (count + 1) c = some (.ok (), c₁) := by
  have hnone : nextInput? c₁ = some (.ok none, c₁) := by
    unfold nextInput?
    rw [get_bind, h]
    rfl
  rw [runCommands, bind_of_done hp, bind_of_done hnone]
  rfl

/-- One round of the loop. -/
theorem runCommands_cons (hp : prompt c = some (.ok (), c₁)) {line : String} {rest : List String}
    (h : c₁.input = line :: rest) (count : Nat) :
    runCommands budget (count + 1) c =
      (exec budget line { c₁ with input := rest }).bind fun ending =>
        match verdict ending.1 with
        | some result => some (result, ending.2.reported ending.1)
        | none => runCommands budget count (ending.2.reported ending.1) := by
  have hline : nextInput? c₁ = some (.ok (some line), { c₁ with input := rest }) := by
    unfold nextInput?
    rw [get_bind, h]
    rfl
  rw [runCommands, bind_of_done hp, bind_of_done hline]
  dsimp only
  cases he : exec budget line { c₁ with input := rest } with
  | none =>
    apply bind_of_none
    rw [attempt_eq, he]
    rfl
  | some ending =>
    obtain ⟨outcome, c₂⟩ := ending
    rw [attempt_bind he]
    cases outcome with
    | ok flow => cases flow <;> rfl
    | error fault =>
      dsimp only
      unfold report
      rw [modify_bind]
      dsimp only [Option.bind_some, verdict]
      cases fault.isTermination <;> rfl

/-- A turn of the loop: its lines are taken from the input, and its command is executed. -/
structure Takes (budget : Nat) (c : Console) (turn : Turn) (outcome : Except ConsoleFault Flow)
    (c' : Console) : Prop where
  input : c.input = turn.lines ++ c'.input
  executes : ∃ c₁, exec budget turn.command { c with input := c.input.tail } = some (outcome, c₁) ∧
    c' = c₁.reported outcome
  /-- The program of the turn becomes the last one, if there is one. -/
  lastBuffer : c'.lastBuffer = if turn.closing?.isSome then turn.buffer else c.lastBuffer
  /-- The console is left at the end of the input, or by the command for it. -/
  exits : outcome = .ok .exit → c'.input = [] ∨ Command.read turn.command = .ok .exit
  interactive : c'.interactive = c.interactive

/-- Whatever command comes next, it takes its turn. -/
theorem takes_of_exec (hi : c.interactive = false) {line : String} {rest : List String}
    (hinput : c.input = line :: rest)
    (h : exec budget line { c with input := rest } = some (outcome, c₁)) :
    ∃ turn, Takes budget c turn outcome (c₁.reported outcome) := by
  have hreported (outcome : Except ConsoleFault Flow) (c₁ : Console) :
      SameInput c₁ (c₁.reported outcome) := by
    cases outcome <;> exact ⟨rfl, rfl, rfl⟩
  obtain ⟨hsame, hlast, hasks⟩ := hreported outcome c₁
  have hexec : exec budget line { c with input := c.input.tail } = some (outcome, c₁) := by
    rw [hinput]
    exact h
  by_cases hr : Command.read line = .ok .interpret
  · rcases closed_or_open rest with ⟨buffer, closing, left, rfl, hb, hc⟩ | hopen
    · rw [exec_interpret_closed (c := { c with input := buffer ++ closing :: left }) hi hr rfl hb
        hc] at h
      obtain ⟨result, hrun, he⟩ := Option.map_eq_some_iff.mp h
      cases he
      refine ⟨⟨line, buffer, some closing, hb, ?_, fun hne => absurd hr hne⟩, ?_, ⟨_, hexec, rfl⟩,
        hlast, fun hexit => ?_, hasks⟩
      · rintro other ⟨⟩
        exact hc
      · rw [hinput, hsame]
        simp [Turn.lines]
      · cases he : (ended result).1 <;> rw [he] at hexit <;> cases hexit
    · rw [exec_interpret_open (c := { c with input := rest }) hi hr hopen] at h
      cases h
      refine ⟨⟨line, rest, none, hopen, ?_, fun hne => absurd hr hne⟩, ?_, ⟨_, hexec, rfl⟩,
        hlast, fun _ => Or.inl hsame, hasks⟩
      · rintro other ⟨⟩
      · rw [hinput, hsame]
        simp [Turn.lines]
  · obtain ⟨hsame', hlast', hasks'⟩ := sameInput_of_exec hr h
    refine ⟨⟨line, [], none, ?_, ?_, fun _ => ⟨rfl, rfl⟩⟩, ?_, ⟨_, hexec, rfl⟩,
      hlast.trans hlast', fun hexit => ?_, hasks.trans hasks'⟩
    · rintro other ⟨⟩
    · rintro other ⟨⟩
    · rw [hinput, hsame, hsame']
      rfl
    · rw [hexit] at h
      exact Or.inr ((read_of_exit h).resolve_right hr)

/-- Every turn has at least one line. -/
theorem Takes.length_lt (h : Takes budget c turn outcome c') :
    c'.input.length < c.input.length := by
  have hlength := congrArg List.length h.input
  simp only [Turn.lines, List.length_append, List.length_cons] at hlength
  omega

theorem Takes.exec_eq (h : Takes budget c turn outcome c') {line : String} {rest : List String}
    (hinput : c.input = line :: rest) :
    ∃ c₁, exec budget line { c with input := rest } = some (outcome, c₁) ∧
      c' = c₁.reported outcome := by
  have hlines := h.input
  rw [hinput, Turn.lines, List.cons_append] at hlines
  have hline : line = turn.command := (List.cons.inj hlines).1
  have hexecutes := h.executes
  rw [hinput, ← hline] at hexecutes
  exact hexecutes

theorem Takes.exists_input (h : Takes budget c turn outcome c') :
    ∃ line rest, c.input = line :: rest :=
  ⟨_, _, h.input⟩

/-- The loop takes turns until a verdict ends it or the input has ended. -/
inductive Session (budget : Nat) :
    Console → List Turn → Except ConsoleFault Unit → Console → Prop where
  | ended {c : Console} (h : c.input = []) : Session budget c [] (.ok ()) c
  | stopped {c c' : Console} {turn : Turn} {outcome : Except ConsoleFault Flow}
      {result : Except ConsoleFault Unit} (h : Takes budget c turn outcome c')
      (hv : verdict outcome = some result) : Session budget c [turn] result c'
  | goesOn {c c₁ c' : Console} {turn : Turn} {turns : List Turn}
      {outcome : Except ConsoleFault Flow} {result : Except ConsoleFault Unit}
      (h : Takes budget c turn outcome c₁) (hv : verdict outcome = none)
      (hs : Session budget c₁ turns result c') : Session budget c (turn :: turns) result c'

theorem session_of_runCommands (hi : c.interactive = false) {count : Nat}
    (hcount : c.input.length < count) (h : runCommands budget count c = some (result, c')) :
    ∃ turns, Session budget c turns result c' := by
  induction count generalizing c with
  | zero => omega
  | succ count ih =>
    cases hinput : c.input with
    | nil =>
      rw [runCommands_nil (prompt_of_not_interactive hi) hinput] at h
      cases h
      exact ⟨[], .ended hinput⟩
    | cons line rest =>
      rw [runCommands_cons (prompt_of_not_interactive hi) hinput] at h
      obtain ⟨⟨outcome, c₁⟩, hexec, hverdict⟩ := Option.bind_eq_some_iff.mp h
      obtain ⟨turn, htakes⟩ := takes_of_exec hi hinput hexec
      dsimp only at hverdict
      cases hv : verdict outcome with
      | some stop =>
        rw [hv] at hverdict
        cases hverdict
        exact ⟨[turn], .stopped htakes hv⟩
      | none =>
        rw [hv] at hverdict
        have hshorter := htakes.length_lt
        obtain ⟨turns, hsession⟩ := ih (htakes.interactive.trans hi) (by omega) hverdict
        exact ⟨turn :: turns, .goesOn htakes hv hsession⟩

theorem Session.input_eq (h : Session budget c turns result c') :
    c.input = turns.flatMap Turn.lines ++ c'.input := by
  induction h with
  | ended hinput => rfl
  | stopped htakes hv => simpa using htakes.input
  | goesOn htakes hv hs ih => rw [htakes.input, ih, List.flatMap_cons, List.append_assoc]

/-- Lines are left over only behind a command that leaves the console, and after a termination. -/
theorem Session.of_leftover (h : Session budget c turns result c') (hl : c'.input ≠ []) :
    ∃ earlier last, turns = earlier ++ [last] ∧
      (Command.read last.command = .ok .exit ∧ result = .ok () ∨
        ∃ fault, result = .error fault ∧ fault.isTermination = true) := by
  induction h with
  | ended hinput => exact absurd hinput hl
  | stopped htakes hv =>
    rename_i c c' turn outcome result
    refine ⟨[], turn, rfl, ?_⟩
    cases outcome with
    | ok flow =>
      cases flow with
      | next => cases hv
      | exit =>
        cases hv
        exact Or.inl ⟨(htakes.exits rfl).resolve_left hl, rfl⟩
    | error fault =>
      rw [verdict] at hv
      split at hv
      · rename_i hfault
        cases hv
        exact Or.inr ⟨fault, rfl, hfault⟩
      · cases hv
  | goesOn htakes hv hs ih =>
    rename_i turn _ _ _
    obtain ⟨earlier, last, rfl, hend⟩ := ih hl
    exact ⟨turn :: earlier, last, rfl, hend⟩

/-- The loop comes to a console, in front of a command. -/
inductive Arrives : Console → Console → Prop where
  | here (c : Console) : Arrives c c
  | later {budget : Nat} {c c₁ c₂ : Console} {turn : Turn} {outcome : Except ConsoleFault Flow}
      (h : Takes budget c turn outcome c₁) (hv : verdict outcome = none) (ha : Arrives c₁ c₂) :
      Arrives c c₂

/-- Every program that the loop comes to run has a result. -/
def Terminating (c : Console) : Prop :=
  ∀ c₁, Arrives c c₁ → ∀ line rest, c₁.input = line :: rest →
    ∀ lines, program? { c₁ with input := rest } line = some lines →
      ∃ budget, (c₁.machine.run budget lines).isSome

/-- What a turn does depends on the budget only insofar as it has to suffice. -/
theorem Takes.unique {budget' : Nat} {turn' : Turn} {outcome' : Except ConsoleFault Flow}
    (h : Takes budget c turn outcome c₁) (h' : Takes budget' c turn' outcome' c₂) :
    outcome = outcome' ∧ c₁ = c₂ := by
  obtain ⟨line, rest, hinput⟩ := h.exists_input
  obtain ⟨d, he, rfl⟩ := h.exec_eq hinput
  obtain ⟨d', he', rfl⟩ := h'.exec_eq hinput
  have hlast := lasting_exec line
  have hmax := hlast _ (max budget budget') _ _ (le_max_left _ _) he
  have hmax' := hlast _ (max budget budget') _ _ (le_max_right _ _) he'
  dsimp only at hmax hmax'
  rw [hmax] at hmax'
  cases hmax'
  exact ⟨rfl, rfl⟩

theorem Session.terminating (hi : c.interactive = false) (h : Session budget c turns result c') :
    Terminating c := by
  intro c₁ ha
  -- The console is one of those at which the session takes a turn.
  have hturn : c₁.input = [] ∨ c₁.interactive = false ∧
      ∃ turn outcome c₂, Takes budget c₁ turn outcome c₂ := by
    induction ha generalizing turns with
    | here c =>
      cases h with
      | ended hinput => exact Or.inl hinput
      | stopped htakes hv => exact Or.inr ⟨hi, _, _, _, htakes⟩
      | goesOn htakes hv hs => exact Or.inr ⟨hi, _, _, _, htakes⟩
    | later htakes hv ha ih =>
      cases h with
      | ended hinput =>
        have hlines := htakes.input
        rw [hinput] at hlines
        cases hlines
      | stopped htakes' hv' =>
        rw [(htakes.unique htakes').1, hv'] at hv
        cases hv
      | goesOn htakes' hv' hs =>
        -- Both go on from the same console, as the budget makes no difference.
        rw [← (htakes.unique htakes').2] at hs
        exact ih (htakes.interactive.trans hi) hs
  intro line rest hinput lines hprogram
  rcases hturn with hnone | ⟨hasks, turn, outcome, c₂, htakes⟩
  · rw [hnone] at hinput
    cases hinput
  · obtain ⟨d, he, _⟩ := htakes.exec_eq hinput
    have hiff := exec_isSome_iff budget line (c := { c₁ with input := rest }) hasks
    rw [he] at hiff
    exact ⟨budget, hiff.mp rfl lines hprogram⟩

/-- With a budget that suffices for all its programs the loop has a result. -/
theorem exists_runCommands (hi : c.interactive = false) (ht : Terminating c) {count : Nat}
    (hcount : c.input.length < count) :
    ∃ needed, ∀ budget, needed ≤ budget → (runCommands budget count c).isSome := by
  induction count generalizing c with
  | zero => omega
  | succ count ih =>
    cases hinput : c.input with
    | nil =>
      refine ⟨0, fun budget _ => ?_⟩
      rw [runCommands_nil (prompt_of_not_interactive hi) hinput]
      rfl
    | cons line rest =>
      have hiff (needed : Nat) := exec_isSome_iff needed line (c := { c with input := rest }) hi
      have hcommand : ∃ needed, (exec needed line { c with input := rest }).isSome := by
        cases hp : program? { c with input := rest } line with
        | none =>
          refine ⟨0, (hiff 0).mpr fun lines hlines => ?_⟩
          rw [hp] at hlines
          cases hlines
        | some program =>
          obtain ⟨needed, hsome⟩ := ht c (.here c) line rest hinput program hp
          refine ⟨needed, (hiff needed).mpr fun lines hlines => ?_⟩
          rw [hp] at hlines
          cases hlines
          exact hsome
      obtain ⟨needed, hsome⟩ := hcommand
      obtain ⟨⟨outcome, c₁⟩, hexec⟩ := Option.isSome_iff_exists.mp hsome
      have hlast (budget : Nat) (hle : needed ≤ budget) :
          exec budget line { c with input := rest } = some (outcome, c₁) :=
        lasting_exec line needed budget _ _ hle hexec
      obtain ⟨turn, htakes⟩ := takes_of_exec hi hinput hexec
      -- Behind the command the loop ends, or it needs what the rest of the input needs.
      cases hv : verdict outcome with
      | some stop =>
        refine ⟨needed, fun budget hle => ?_⟩
        rw [runCommands_cons (prompt_of_not_interactive hi) hinput, hlast budget hle,
          Option.bind_some]
        dsimp only
        rw [hv]
        rfl
      | none =>
        have hshorter := htakes.length_lt
        have hlater : Terminating (c₁.reported outcome) := fun c₂ ha => ht c₂ (.later htakes hv ha)
        obtain ⟨more, hmore⟩ := ih (htakes.interactive.trans hi) hlater (by omega)
        refine ⟨max needed more, fun budget hle => ?_⟩
        rw [runCommands_cons (prompt_of_not_interactive hi) hinput, hlast budget (by omega),
          Option.bind_some]
        dsimp only
        rw [hv]
        exact hmore budget (by omega)

end Loop

end Console

open Console

/-- A command that reads a program takes the lines up to the first one that closes it, and runs the
lines before that one. If no line closes the program, it takes all lines, runs nothing and leaves the
console. No other command takes any lines. So the loop uses up the input in turns, from its beginning,
and leaves lines over only behind a command that leaves the console, or after a termination. It has a
result if and only if all programs that it runs have one. -/
theorem input_is_used_up_in_turns (c : Console) (hi : c.interactive = false) :
    (∀ budget line, Command.read line = .ok .interpret →
      (∀ buffer closing rest, c.input = buffer ++ closing :: rest →
        (∀ text ∈ buffer, closesBuffer text = false) → closesBuffer closing = true →
        exec budget line c = (c.machine.run budget buffer).map fun result =>
          ((ended result).1.map fun _ => .next,
            { c with
              input := rest
              lastBuffer := buffer
              commands := c.commands + 1
              machine := (ended result).2.cleared })) ∧
      ((∀ text ∈ c.input, closesBuffer text = false) →
        exec budget line c = some (.ok .exit,
          { c with
            input := []
            commands := c.commands + 1
            machine := c.machine.cleared }))) ∧
    (∀ budget line outcome c', Command.read line ≠ .ok .interpret →
      exec budget line c = some (outcome, c') →
      c'.input = c.input ∧ c'.lastBuffer = c.lastBuffer) ∧
    (∀ budget result c', run budget c = some (result, c') →
      ∃ turns, Session budget c turns result c' ∧
        c.input = turns.flatMap Turn.lines ++ c'.input ∧
        (c'.input ≠ [] → ∃ earlier last, turns = earlier ++ [last] ∧
          (Command.read last.command = .ok .exit ∧ result = .ok () ∨
            ∃ fault, result = .error fault ∧ fault.isTermination = true))) ∧
    ((∃ budget, (run budget c).isSome) ↔ Terminating c) := by
  have hsession {budget : Nat} {result : Except ConsoleFault Unit} {c' : Console}
      (h : run budget c = some (result, c')) : ∃ turns, Session budget c turns result c' :=
    session_of_runCommands hi (Nat.lt_succ_self _) h
  refine ⟨fun budget line hr => ⟨?_, ?_⟩, ?_, ?_, ?_, fun ht => ?_⟩
  · intro buffer closing rest hinput hb hc
    exact exec_interpret_closed hi hr hinput hb hc budget
  · intro hb
    exact exec_interpret_open hi hr hb budget
  · intro budget line outcome c' hr h
    obtain ⟨hinput, hlast, _⟩ := sameInput_of_exec hr h
    exact ⟨hinput, hlast⟩
  · intro budget result c' h
    obtain ⟨turns, hturns⟩ := hsession h
    exact ⟨turns, hturns, hturns.input_eq, hturns.of_leftover⟩
  · rintro ⟨budget, hsome⟩
    obtain ⟨⟨result, c'⟩, h⟩ := Option.isSome_iff_exists.mp hsome
    obtain ⟨turns, hturns⟩ := hsession h
    exact hturns.terminating hi
  · obtain ⟨needed, hneeded⟩ := exists_runCommands hi ht (Nat.lt_succ_self c.input.length)
    exact ⟨needed, hneeded needed le_rfl⟩

/-- A line of one character closes the program, also if the character has two bytes. The next command
is not known, the one after it leaves the console, and one line is left over. -/
theorem one_letter_closes_the_program :
    let c : Console := { input := ["interpret", "PRINTSTR \"ab\"", "é", "é", "exit", "left"] }
    ∃ c', run 10 c = some (.ok (), c') ∧ c'.input = ["left"] ∧
      c'.lastBuffer = ["PRINTSTR \"ab\""] ∧ c'.machine.sink.bytes = "ab".toUTF8 ∧
      c'.errors = "Command \"é\" not found.\n" ∧ Terminating c ∧
      ∃ turns, Session 10 c turns (.ok ()) c' ∧ c.input = turns.flatMap Turn.lines ++ ["left"] ∧
        ∃ earlier last, turns = earlier ++ [last] ∧ Command.read last.command = .ok .exit := by
  intro c
  have hends : (run 10 c).map (fun ending => (ending.1, ending.2.input, ending.2.lastBuffer,
      ending.2.machine.sink.bytes, ending.2.errors)) = some (.ok (), ["left"],
        ["PRINTSTR \"ab\""], "ab".toUTF8, "Command \"é\" not found.\n") := by
    decide +kernel
  obtain ⟨⟨result, c'⟩, hrun, he⟩ := Option.map_eq_some_iff.mp hends
  simp only [Prod.mk.injEq] at he
  obtain ⟨rfl, hinput, hbuffer, hbytes, herrors⟩ := he
  obtain ⟨_, _, hloop, hterminates⟩ := input_is_used_up_in_turns c rfl
  obtain ⟨turns, hsession, hused, hleft⟩ := hloop 10 _ c' hrun
  obtain ⟨earlier, last, hturns, hexit | ⟨fault, hfault, _⟩⟩ := hleft (by rw [hinput]; simp)
  · rw [hinput] at hused
    exact ⟨c', hrun, hinput, hbuffer, hbytes, herrors, hterminates.mp ⟨10, by rw [hrun]; rfl⟩, turns,
      hsession, hused, earlier, last, hturns, hexit.1⟩
  · cases hfault

end LineScript
