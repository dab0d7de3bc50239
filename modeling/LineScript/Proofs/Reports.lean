import LineScript.Proofs.Truncation
import LineScript.Proofs.Turns

/-! What the command loop writes to the error stream. It reports the fault of every command, in
order, and goes on, unless the fault is a termination. So a fault that the loop returns has been
reported, with one exception: a prompt that cannot be shown ends the loop without a word. -/

namespace LineScript

/-- A sink that takes everything and can be flushed. -/
def Sink.Willing (sink : Sink) : Prop :=
  sink.capacity = none ∧ sink.refusesFlush = false

theorem Sink.Willing.of_grows {sink sink' : Sink} (h : sink.Willing) (hg : sink.Grows sink') :
    sink'.Willing := by
  obtain ⟨data, flushed, rfl⟩ := hg
  exact h

namespace Console

section Onward

variable {α : Type} {c c₁ c₂ c' : Console} {budget : Nat} {line : String}

/-- What holds of everything that a command does: it writes nothing to the error stream, takes its
input from the front and prints to the same sink. -/
structure Onward (c c' : Console) : Prop where
  errors : c'.errors = c.errors
  interactive : c'.interactive = c.interactive
  input : c'.input <:+ c.input
  sink : c.machine.sink.Grows c'.machine.sink

theorem Onward.refl (c : Console) : Onward c c :=
  ⟨rfl, rfl, List.suffix_rfl, Sink.Grows.refl _⟩

theorem Onward.trans (h : Onward c c₁) (h' : Onward c₁ c₂) : Onward c c₂ :=
  ⟨h'.errors.trans h.errors, h'.interactive.trans h.interactive, h'.input.trans h.input,
    h.sink.trans h'.sink⟩

theorem grows_flushed (m : Machine) : m.sink.Grows m.flushed.sink := by
  refine ⟨.empty, m.sink.bytes.size, ?_⟩
  rw [ByteArray.append_empty]
  rfl

/-- At the end of a program the sink is flushed or left as it is. -/
theorem grows_ended (result : EStateM.Result Fault Machine Unit) :
    (Machine.endState result).sink.Grows (ended result).2.sink := by
  cases result with
  | ok value m =>
    dsimp only [ended]
    split
    · exact Sink.Grows.refl m.sink
    · exact grows_flushed m
  | error fault m =>
    dsimp only [ended]
    split
    · exact Sink.Grows.refl m.sink
    · exact grows_flushed m

theorem onward_of_deed (h : Deed c c') : Onward c c' := by
  cases h with
  | printed text => exact ⟨rfl, rfl, List.suffix_rfl, _, _, rfl⟩
  | flushed => exact ⟨rfl, rfl, List.suffix_rfl, grows_flushed c.machine⟩
  | ran hrun =>
    have hgrows : c.machine.cleared.sink.Grows _ := Machine.grows_of_resume hrun
    exact ⟨rfl, rfl, List.suffix_rfl, hgrows.trans (grows_ended _)⟩
  | saved hwrite => exact ⟨rfl, rfl, List.suffix_rfl, Sink.Grows.refl _⟩
  | echo on => exact ⟨rfl, rfl, List.suffix_rfl, Sink.Grows.refl _⟩

theorem onward_of_deeds {action : Dialogue α} (hd : Deeds action) {outcome : Except ConsoleFault α}
    (h : action c = some (outcome, c')) : Onward c c' := by
  have hdeeds := hd c outcome c' h
  clear h
  induction hdeeds with
  | refl => exact Onward.refl c
  | tail _ hdeed ih => exact ih.trans (onward_of_deed hdeed)

theorem deeds_promptLine (indented : Bool) : Deeds (promptLine indented) := by
  intro c outcome c' h
  unfold promptLine at h
  rw [get_bind] at h
  cases hi : c.interactive with
  | true =>
    rw [hi, if_pos rfl] at h
    exact deeds_showText _ c outcome c' h
  | false =>
    rw [hi, if_neg Bool.false_ne_true] at h
    exact deeds_pure _ c outcome c' h

/-- The lines of a program are taken one by one, each after a prompt that may fail. -/
theorem onward_readBuffer {indented : Bool} {lines : List String}
    {outcome : Except ConsoleFault (Option (List String))} (hl : c.input = lines)
    (h : readBuffer indented lines c = some (outcome, c')) : Onward c c' := by
  induction lines generalizing indented c outcome with
  | nil =>
    unfold readBuffer at h
    exact onward_of_deeds (deeds_bind (deeds_promptLine indented) fun _ => deeds_pure _) h
  | cons line rest ih =>
    rw [readBuffer] at h
    rcases bind_cases h with ⟨fault, _, hprompt⟩ | ⟨_, c₁, hprompt, hlater⟩
    · exact onward_of_deeds (deeds_promptLine indented) hprompt
    · have hasked := onward_of_deeds (deeds_promptLine indented) hprompt
      have htaken : Onward c { c₁ with input := rest } :=
        ⟨hasked.errors, hasked.interactive, hl ▸ List.suffix_cons line rest, hasked.sink⟩
      rw [modify_bind] at hlater
      cases hclose : closesBuffer line with
      | true =>
        rw [hclose, if_pos rfl] at hlater
        cases hlater
        exact htaken
      | false =>
        rw [hclose, if_neg Bool.false_ne_true] at hlater
        rcases bind_cases hlater with ⟨fault, _, hrest⟩ | ⟨buffer?, c₂, hrest, hend⟩
        · exact htaken.trans (ih rfl hrest)
        · cases hend
          exact htaken.trans (ih rfl hrest)

theorem onward_interpret {outcome : Except ConsoleFault Flow}
    (h : interpret budget c = some (outcome, c')) : Onward c c' := by
  unfold interpret at h
  rw [get_bind] at h
  rcases bind_cases h with ⟨fault, _, hread⟩ | ⟨buffer?, c₁, hread, hlater⟩
  · exact onward_readBuffer rfl hread
  · have hbuffer := onward_readBuffer rfl hread
    cases buffer? with
    | none =>
      cases hlater
      exact hbuffer
    | some buffer =>
      dsimp only at hlater
      rw [modify_bind] at hlater
      have hrun := onward_of_deeds
        (deeds_bind (deeds_runLines budget buffer) fun _ => deeds_pure Flow.next) hlater
      exact hbuffer.trans ⟨hrun.errors, hrun.interactive, hrun.input, hrun.sink⟩

/-- Whatever a command does, reports are not its business. -/
theorem onward_exec {outcome : Except ConsoleFault Flow}
    (h : exec budget line c = some (outcome, c')) : Onward c c' := by
  cases hr : Command.read line with
  | error fault =>
    rw [exec_of_unreadable hr] at h
    cases h
    exact ⟨rfl, rfl, List.suffix_rfl, Sink.Grows.refl _⟩
  | ok command =>
    rw [exec_of_read hr] at h
    obtain ⟨⟨result, c₁⟩, hperform, he⟩ := Option.map_eq_some_iff.mp h
    cases he
    have hdone : Onward c.counted c₁ := by
      by_cases hi : command = .interpret
      · subst hi
        exact onward_interpret hperform
      by_cases hd : command = .debug
      · subst hd
        cases hperform
        exact ⟨rfl, rfl, List.suffix_rfl, Sink.Grows.refl _⟩
      · exact onward_of_deeds (deeds_perform budget hi hd) hperform
    exact ⟨hdone.errors, hdone.interactive, hdone.input, hdone.sink⟩

end Onward

section Prompts

variable {c c' : Console} {fault : ConsoleFault}

/-- Shows a text, or does nothing. -/
def showIf (shows : Bool) (text : String) : Dialogue Unit :=
  if shows then showText text else pure ()

theorem prompt_eq (c : Console) :
    prompt c = (showIf (c.interactive && 0 < c.commands) "\n" >>= fun _ =>
      showIf (c.interactive && c.echo) "Simpler++Console> ") c := by
  unfold prompt showIf
  rw [get_bind]
  cases c.interactive with
  | true => by_cases h : 0 < c.commands <;> simp [h]
  | false => rfl

theorem deeds_showIf (shows : Bool) (text : String) : Deeds (showIf shows text) := by
  cases shows with
  | true => exact deeds_showText text
  | false => exact deeds_pure ()

/-- A text can be shown on a willing sink, and otherwise the fault is one of the terminal. -/
theorem showText_fault {text : String} (h : showText text c = some (.error fault, c')) :
    (∃ cause, fault = .terminal cause) ∧ ¬ c.machine.sink.Willing := by
  unfold showText at h
  rcases bind_cases h with ⟨_, hfault, hput⟩ | ⟨_, c₁, hput, hflush⟩
  · cases hfault
    rw [transfer_eq, Machine.put_eq] at hput
    cases hholds : c.machine.sink.holds text.toUTF8 with
    | true =>
      rw [hholds] at hput
      cases hput
    | false =>
      rw [hholds] at hput
      cases hput
      refine ⟨⟨_, rfl⟩, fun hw => ?_⟩
      rw [Sink.holds_of_fitting_eq (Sink.fitting_of_unlimited hw.1 _)] at hholds
      cases hholds
  · have hsink := (onward_of_deeds (deeds_put text) hput).sink
    rw [transfer_eq, Machine.flush_eq] at hflush
    cases hrefuses : c₁.machine.sink.refusesFlush with
    | true =>
      rw [hrefuses] at hflush
      cases hflush
      refine ⟨⟨_, rfl⟩, fun hw => ?_⟩
      rw [(hw.of_grows hsink).2] at hrefuses
      cases hrefuses
    | false =>
      rw [hrefuses] at hflush
      cases hflush

theorem showIf_fault {shows : Bool} {text : String}
    (h : showIf shows text c = some (.error fault, c')) :
    shows = true ∧ (∃ cause, fault = .terminal cause) ∧ ¬ c.machine.sink.Willing := by
  cases shows with
  | true => exact ⟨rfl, showText_fault h⟩
  | false => cases h

theorem onward_prompt {outcome : Except ConsoleFault Unit} (h : prompt c = some (outcome, c')) :
    Onward c c' := by
  rw [prompt_eq] at h
  exact onward_of_deeds (deeds_bind (deeds_showIf _ _) fun _ => deeds_showIf _ _) h

/-- A prompt fails only if somebody is typing and the sink is not willing. -/
theorem prompt_fault (h : prompt c = some (.error fault, c')) :
    c.interactive = true ∧ (∃ cause, fault = .terminal cause) ∧ ¬ c.machine.sink.Willing := by
  rw [prompt_eq] at h
  rcases bind_cases h with ⟨_, hfault, hfirst⟩ | ⟨_, c₁, hfirst, hsecond⟩
  · cases hfault
    obtain ⟨hshows, hcause, hsink⟩ := showIf_fault hfirst
    rw [Bool.and_eq_true] at hshows
    exact ⟨hshows.1, hcause, hsink⟩
  · obtain ⟨hshows, hcause, hsink⟩ := showIf_fault hsecond
    have hgrows := (onward_of_deeds (deeds_showIf _ _) hfirst).sink
    rw [Bool.and_eq_true] at hshows
    exact ⟨hshows.1, hcause, fun hw => hsink (hw.of_grows hgrows)⟩

end Prompts

section Rounds

variable {budget : Nat} {c c₁ c₂ c' : Console} {outcome : Except ConsoleFault Flow}
  {outcomes : List (Except ConsoleFault Flow)} {result : Except ConsoleFault Unit}
  {fault : ConsoleFault}

/-- The rounds of the command loop with the outcomes of their commands. In a round a command is
asked for and executed, and its fault is reported. The loop goes on with the next input line,
whether there was a fault or not, unless the outcome ends it. -/
inductive Conversation (budget : Nat) : Console → List (Except ConsoleFault Flow) →
    Except ConsoleFault Unit → Console → Prop where
  | unasked {c c' : Console} {fault : ConsoleFault} (hp : prompt c = some (.error fault, c')) :
      Conversation budget c [] (.error fault) c'
  | ended {c c₁ : Console} (hp : prompt c = some (.ok (), c₁)) (hi : c₁.input = []) :
      Conversation budget c [] (.ok ()) c₁
  | stopped {c c₁ c₂ : Console} {line : String} {rest : List String}
      {outcome : Except ConsoleFault Flow} {result : Except ConsoleFault Unit}
      (hp : prompt c = some (.ok (), c₁)) (hi : c₁.input = line :: rest)
      (he : exec budget line { c₁ with input := rest } = some (outcome, c₂))
      (hv : verdict outcome = some result) :
      Conversation budget c [outcome] result (c₂.reported outcome)
  | goesOn {c c₁ c₂ c' : Console} {line : String} {rest : List String}
      {outcome : Except ConsoleFault Flow} {outcomes : List (Except ConsoleFault Flow)}
      {result : Except ConsoleFault Unit} (hp : prompt c = some (.ok (), c₁))
      (hi : c₁.input = line :: rest)
      (he : exec budget line { c₁ with input := rest } = some (outcome, c₂))
      (hv : verdict outcome = none)
      (h : Conversation budget (c₂.reported outcome) outcomes result c') :
      Conversation budget c (outcome :: outcomes) result c'

/-- The reports on some outcomes, in order. -/
def reports (interactive : Bool) : List (Except ConsoleFault Flow) → String
  | [] => ""
  | .ok _ :: outcomes => reports interactive outcomes
  | .error fault :: outcomes => reportText interactive fault ++ reports interactive outcomes

theorem reported_errors (outcome : Except ConsoleFault Flow)
    (outcomes : List (Except ConsoleFault Flow)) (c : Console) :
    (c.reported outcome).errors ++ reports c.interactive outcomes =
      c.errors ++ reports c.interactive (outcome :: outcomes) := by
  cases outcome with
  | ok flow => rfl
  | error fault => exact String.append_assoc

/-- A command leaves less input and the same way to ask and to print. -/
theorem round_onward {line : String} {rest : List String} (hp : prompt c = some (.ok (), c₁))
    (hi : c₁.input = line :: rest)
    (he : exec budget line { c₁ with input := rest } = some (outcome, c₂)) :
    Onward c c₂ ∧ c₂.input.length < c.input.length := by
  have hasked := onward_prompt hp
  have hdone := onward_exec he
  have htaken : Onward c { c₁ with input := rest } :=
    ⟨hasked.errors, hasked.interactive,
      (List.suffix_cons line rest).trans (hi ▸ hasked.input), hasked.sink⟩
  refine ⟨htaken.trans hdone, ?_⟩
  -- The prompt takes no input, but the line of the command is taken before it is executed.
  have hfront := hasked.input.length_le
  have hrest := hdone.input.length_le
  rw [hi, List.length_cons] at hfront
  exact Nat.lt_of_le_of_lt hrest hfront

/-- A report changes nothing but the error stream. -/
theorem reported_keeps (outcome : Except ConsoleFault Flow) (c : Console) :
    (c.reported outcome).interactive = c.interactive ∧ (c.reported outcome).input = c.input ∧
      (c.reported outcome).machine = c.machine := by
  cases outcome <;> exact ⟨rfl, rfl, rfl⟩

theorem conversation_of_runCommands {count : Nat} (hcount : c.input.length < count)
    (h : runCommands budget count c = some (result, c')) :
    ∃ outcomes, Conversation budget c outcomes result c' := by
  -- The induction is on the rounds that may follow. Every command takes at least its own line.
  induction count generalizing c with
  | zero => omega
  | succ count ih =>
    cases hp : prompt c with
    | none =>
      rw [runCommands, bind_of_none hp] at h
      cases h
    | some ending =>
      obtain ⟨asked, c₁⟩ := ending
      cases asked with
      | error fault =>
        rw [runCommands, bind_of_fault hp] at h
        cases h
        exact ⟨[], .unasked hp⟩
      | ok value =>
        cases hi : c₁.input with
        | nil =>
          rw [runCommands_nil hp hi] at h
          cases h
          exact ⟨[], .ended hp hi⟩
        | cons line rest =>
          rw [runCommands_cons hp hi] at h
          obtain ⟨⟨outcome, c₂⟩, he, hlater⟩ := Option.bind_eq_some_iff.mp h
          dsimp only at hlater
          cases hv : verdict outcome with
          | some stop =>
            rw [hv] at hlater
            cases hlater
            exact ⟨[outcome], .stopped hp hi he hv⟩
          | none =>
            rw [hv] at hlater
            have hshorter := (round_onward hp hi he).2
            have hsame := (reported_keeps outcome c₂).2.1
            obtain ⟨outcomes, hrest⟩ := ih (by rw [hsame]; omega) hlater
            exact ⟨outcome :: outcomes, .goesOn hp hi he hv hrest⟩

theorem runCommands_of_conversation (h : Conversation budget c outcomes result c') {count : Nat}
    (hcount : c.input.length < count) : runCommands budget count c = some (result, c') := by
  induction h generalizing count with
  | unasked hp =>
    obtain ⟨count, rfl⟩ : ∃ k, count = k + 1 := Nat.exists_eq_succ_of_ne_zero (by omega)
    rw [runCommands, bind_of_fault hp]
  | ended hp hi =>
    obtain ⟨count, rfl⟩ : ∃ k, count = k + 1 := Nat.exists_eq_succ_of_ne_zero (by omega)
    exact runCommands_nil hp hi count
  | stopped hp hi he hv =>
    obtain ⟨count, rfl⟩ : ∃ k, count = k + 1 := Nat.exists_eq_succ_of_ne_zero (by omega)
    rw [runCommands_cons hp hi, he, Option.bind_some, hv]
  | @goesOn c c₁ c₂ c' line rest outcome outcomes result hp hi he hv _ ih =>
    obtain ⟨count, rfl⟩ : ∃ k, count = k + 1 := Nat.exists_eq_succ_of_ne_zero (by omega)
    have hshorter := (round_onward hp hi he).2
    have hsame := (reported_keeps outcome c₂).2.1
    rw [runCommands_cons hp hi, he, Option.bind_some, hv]
    exact ih (by rw [hsame]; omega)

/-- The loop is the conversation with the console, as far as the programs end. -/
theorem run_iff_conversation :
    run budget c = some (result, c') ↔ ∃ outcomes, Conversation budget c outcomes result c' := by
  have hrun : run budget c = runCommands budget (c.input.length + 1) c := by
    unfold run
    rw [get_bind]
  rw [hrun]
  constructor
  · exact conversation_of_runCommands (Nat.lt_succ_self _)
  · rintro ⟨outcomes, h⟩
    exact runCommands_of_conversation h (Nat.lt_succ_self _)

/-- The error stream has the reports on the commands, in order, and nothing else. -/
theorem Conversation.errors_eq (h : Conversation budget c outcomes result c') :
    c'.errors = c.errors ++ reports c.interactive outcomes := by
  -- Neither a prompt nor a command writes to the error stream, so a round adds its report only.
  induction h with
  | unasked hp =>
    rw [(onward_prompt hp).errors]
    exact String.append_empty.symm
  | ended hp _ =>
    rw [(onward_prompt hp).errors]
    exact String.append_empty.symm
  | @stopped c c₁ c₂ line rest outcome result hp hi he _ =>
    have hround := (round_onward hp hi he).1
    calc (c₂.reported outcome).errors
        = (c₂.reported outcome).errors ++ reports c₂.interactive [] := String.append_empty.symm
      _ = c₂.errors ++ reports c₂.interactive [outcome] := reported_errors outcome [] c₂
      _ = _ := by rw [hround.errors, hround.interactive]
  | @goesOn c c₁ c₂ c' line rest outcome outcomes result hp hi he _ _ ih =>
    have hround := (round_onward hp hi he).1
    calc c'.errors
        = (c₂.reported outcome).errors ++ reports (c₂.reported outcome).interactive outcomes := ih
      _ = (c₂.reported outcome).errors ++ reports c₂.interactive outcomes := by
        rw [(reported_keeps outcome c₂).1]
      _ = c₂.errors ++ reports c₂.interactive (outcome :: outcomes) :=
        reported_errors outcome outcomes c₂
      _ = _ := by rw [hround.errors, hround.interactive]

theorem verdict_eq_error (h : verdict outcome = some (.error fault)) :
    outcome = .error fault ∧ fault.isTermination = true := by
  cases outcome with
  | ok flow => cases flow <;> cases h
  | error cause =>
    dsimp only [verdict] at h
    split at h
    · rename_i htermination
      cases h
      exact ⟨rfl, htermination⟩
    · cases h

/-- A loop that fails was terminated by its last command, or it could not ask for the next one. -/
theorem Conversation.cause (h : Conversation budget c outcomes (.error fault) c') :
    (∃ earlier, outcomes = earlier ++ [.error fault] ∧ fault.isTermination = true) ∨
    c.interactive = true ∧ ¬ c.machine.sink.Willing ∧ (∃ cause, fault = .terminal cause) ∧
      ∃ c₁, prompt c₁ = some (.error fault, c') := by
  -- What makes the prompt of a later round fail was there before the first one.
  generalize hr : Except.error fault = result at h
  induction h with
  | unasked hp =>
    cases hr
    obtain ⟨hi, hcause, hsink⟩ := prompt_fault hp
    exact Or.inr ⟨hi, hsink, hcause, _, hp⟩
  | ended _ _ => cases hr
  | stopped _ _ _ hv =>
    rw [← hr] at hv
    obtain ⟨rfl, htermination⟩ := verdict_eq_error hv
    exact Or.inl ⟨[], rfl, htermination⟩
  | @goesOn c c₁ c₂ c' line rest outcome outcomes result hp hi he hv _ ih =>
    have hround := (round_onward hp hi he).1
    obtain ⟨hasks, _, hmachine⟩ := reported_keeps outcome c₂
    rcases ih hr with ⟨earlier, rfl, htermination⟩ | ⟨hi', hsink, hlast⟩
    · exact Or.inl ⟨outcome :: earlier, rfl, htermination⟩
    · refine Or.inr ⟨?_, fun hw => hsink ?_, hlast⟩
      · rw [← hround.interactive, ← hasks]
        exact hi'
      · rw [hmachine]
        exact hw.of_grows hround.sink

theorem reports_append (interactive : Bool) (outcomes outcomes' : List (Except ConsoleFault Flow)) :
    reports interactive (outcomes ++ outcomes') =
      reports interactive outcomes ++ reports interactive outcomes' := by
  induction outcomes with
  | nil => exact String.empty_append.symm
  | cons outcome outcomes ih =>
    cases outcome with
    | ok flow => exact ih
    | error fault =>
      rw [List.cons_append, reports, reports, ih, String.append_assoc]

end Rounds

end Console

open Console

/-- The command loop reports the fault of each command and goes on with the next line, until a
command leaves the console or is terminated, the input ends or a prompt fails. So a fault that it
returns is a termination with its report at the end of the error stream, or it comes from the prompt
of a console at which somebody is typing, and whose sink is limited or refuses to be flushed. -/
theorem loop_fails_by_termination_or_prompt (budget : Nat) (c c' : Console)
    (result : Except ConsoleFault Unit) :
    (run budget c = some (result, c') ↔ ∃ outcomes, Conversation budget c outcomes result c') ∧
    ∀ outcomes, Conversation budget c outcomes result c' →
      c'.errors = c.errors ++ reports c.interactive outcomes ∧
      ∀ fault, result = .error fault →
        (fault.isTermination = true ∧ ∃ earlier, outcomes = earlier ++ [.error fault] ∧
          c'.errors = c.errors ++ reports c.interactive earlier ++ reportText c.interactive fault) ∨
        (fault.isTermination = false ∧ c.interactive = true ∧ ¬ c.machine.sink.Willing ∧
          ∃ c₁, prompt c₁ = some (.error fault, c')) := by
  refine ⟨run_iff_conversation, ?_⟩
  intro outcomes h
  refine ⟨h.errors_eq, ?_⟩
  intro fault hr
  rw [hr] at h
  rcases h.cause with ⟨earlier, hlast, htermination⟩ | ⟨hi, hsink, ⟨cause, hcause⟩, hprompt⟩
  · refine Or.inl ⟨htermination, earlier, hlast, ?_⟩
    rw [h.errors_eq, hlast, reports_append, String.append_assoc]
    congr 2
    exact String.append_empty
  · refine Or.inr ⟨?_, hi, hsink, hprompt⟩
    rw [hcause]
    rfl

/-- The first prompt raises the alarm of the sink. Nevertheless a command that does not exist is
reported and the next one is read. It runs a program, which is terminated, so that a line of the
input is left. -/
theorem termination_is_reported_behind_an_unknown_command :
    let c : Console :=
      { interactive := true
        input := ["oops", "interpret", "PRINTSTR \"a\"", "", "left"]
        machine := { sink := { alarm := some 1 } } }
    let shown := "Simpler++Console> \nSimpler++Console> >>> >>> ".toUTF8
    let c' : Console :=
      { c with
        input := ["left"]
        lastBuffer := ["PRINTSTR \"a\""]
        commands := 2
        errors := reportText true (.unknownCommand "oops") ++ reportText true (.script .terminated)
        machine :=
          { interrupted := true
            sink := { bytes := shown, alarm := some 1, flushed := shown.size } } }
    run 9 c = some (.error (.script .terminated), c') ∧
      ∃ outcomes earlier, Conversation 9 c outcomes (.error (.script .terminated)) c' ∧
        outcomes = earlier ++ [.error (.script .terminated)] ∧
        c'.errors = c.errors ++ reports true earlier ++ reportText true (.script .terminated) := by
  intro c shown c'
  have hrun : run 9 c = some (.error (.script .terminated), c') := by decide +kernel
  obtain ⟨hloop, hfaults⟩ :=
    loop_fails_by_termination_or_prompt 9 c c' (.error (.script .terminated))
  obtain ⟨outcomes, h⟩ := hloop.mp hrun
  refine ⟨hrun, outcomes, ?_⟩
  rcases (hfaults outcomes h).2 _ rfl with ⟨_, earlier, hlast, hreported⟩ | ⟨hother, _⟩
  · exact ⟨earlier, h, hlast, hreported⟩
  · cases hother

/-- A sink that refuses to be flushed does so at the first prompt. The loop fails with a fault that
is no termination, and the error stream stays empty. -/
theorem failing_prompt_is_not_reported :
    let c : Console := { interactive := true, machine := { sink := { refusesFlush := true } } }
    ∃ c', run 0 c = some (.error (.terminal .flushFailed), c') ∧
      (ConsoleFault.terminal .flushFailed).isTermination = false ∧ c'.errors = "" :=
  ⟨_, rfl, rfl, rfl⟩

end LineScript
