import LineScript.Console
import LineScript.Proofs.History
import Mathlib.Logic.Relation

/-! What the actions of the console do, one equation for each of them. The lines of a program are read
up to the one that closes it. Every other command consists of a few deeds, none of which has to do with
the input. -/

namespace LineScript

namespace Console

section Sequence

variable {α β : Type} {c c' : Console}

theorem bind_of_done {action : Dialogue α} {value : α} (h : action c = some (.ok value, c'))
    (next : α → Dialogue β) : (action >>= next) c = next value c' := by
  simp only [bind, ExceptT.bind, ExceptT.mk, StateT.bind]
  rw [h]
  rfl

theorem bind_of_fault {action : Dialogue α} {fault : ConsoleFault}
    (h : action c = some (.error fault, c')) (next : α → Dialogue β) :
    (action >>= next) c = some (.error fault, c') := by
  simp only [bind, ExceptT.bind, ExceptT.mk, StateT.bind]
  rw [h]
  rfl

theorem bind_of_none {action : Dialogue α} (h : action c = none) (next : α → Dialogue β) :
    (action >>= next) c = none := by
  simp only [bind, ExceptT.bind, ExceptT.mk, StateT.bind]
  rw [h]
  rfl

/-- An action that is followed by another one fails, or the other one has the last word. -/
theorem bind_cases {action : Dialogue α} {next : α → Dialogue β} {outcome : Except ConsoleFault β}
    (h : (action >>= next) c = some (outcome, c')) :
    (∃ fault, outcome = .error fault ∧ action c = some (.error fault, c')) ∨
    ∃ value c₁, action c = some (.ok value, c₁) ∧ next value c₁ = some (outcome, c') := by
  cases he : action c with
  | none =>
    rw [bind_of_none he] at h
    cases h
  | some ending =>
    obtain ⟨result, c₁⟩ := ending
    cases result with
    | ok value =>
      rw [bind_of_done he] at h
      exact Or.inr ⟨value, c₁, rfl, h⟩
    | error fault =>
      rw [bind_of_fault he] at h
      cases h
      exact Or.inl ⟨fault, rfl, rfl⟩

theorem get_bind (next : Console → Dialogue β) (c : Console) :
    ((get : Dialogue Console) >>= next) c = next c c :=
  rfl

theorem modify_bind (f : Console → Console) (next : PUnit → Dialogue β) (c : Console) :
    ((modify f : Dialogue PUnit) >>= next) c = next ⟨⟩ (f c) :=
  rfl

theorem attempt_eq (action : Dialogue α) (c : Console) :
    attempt action c = (action c).map fun ending => (.ok ending.1, ending.2) := by
  unfold attempt
  simp only [ExceptT.lift, ExceptT.mk, Functor.map, StateT.map, ExceptT.run]
  cases action c <;> rfl

theorem attempt_bind {action : Dialogue α} {outcome : Except ConsoleFault α}
    (h : action c = some (outcome, c')) (next : Except ConsoleFault α → Dialogue β) :
    (attempt action >>= next) c = next outcome c' := by
  apply bind_of_done
  rw [attempt_eq, h]
  rfl

theorem transfer_eq (action : Transfer Unit) (c : Console) :
    transfer action c =
      match action c.machine with
      | .ok _ m => some (.ok (), { c with machine := m })
      | .error cause m => some (.error (.terminal cause), { c with machine := m }) := by
  unfold transfer
  rw [get_bind]
  cases action c.machine <;> rfl

end Sequence

/-- How the end of a program looks from the console, and the machine after the last flush. -/
def ended : EStateM.Result Fault Machine Unit → Except ConsoleFault Unit × Machine
  | .ok _ m =>
    if m.sink.refusesFlush then (.error (.script (.output .flushFailed)), m)
    else (.ok (), m.flushed)
  | .error fault m => (.error (.script fault), if m.sink.refusesFlush then m else m.flushed)

theorem runLines_eq (budget : Nat) (lines : List String) (c : Console) :
    runLines budget lines c = (c.machine.run budget lines).map fun result =>
      ((ended result).1, { c with machine := (ended result).2 }) := by
  unfold runLines
  rw [get_bind]
  cases hr : c.machine.run budget lines with
  | none => rfl
  | some result =>
    have hlift (next : EStateM.Result Fault Machine Unit → Dialogue Unit) :
        (liftM (some result) >>= next) c = next result c := rfl
    rw [hlift]
    cases result with
    | ok value m =>
      dsimp only [Option.map_some, ended]
      rw [Machine.flush_eq]
      split <;> rfl
    | error fault m =>
      dsimp only [Option.map_some, ended]
      rw [Machine.flush_eq]
      split <;> rfl

/-- A command that runs a program goes on to the next one, unless the program fails. -/
theorem runLines_next (budget : Nat) (lines : List String) (c : Console) :
    (runLines budget lines >>= fun _ => pure Flow.next) c =
      (c.machine.run budget lines).map fun result =>
        ((ended result).1.map fun _ => .next, { c with machine := (ended result).2 }) := by
  have hrun := runLines_eq budget lines c
  cases hm : c.machine.run budget lines with
  | none =>
    rw [hm] at hrun
    exact bind_of_none hrun _
  | some result =>
    rw [hm, Option.map_some] at hrun
    rw [Option.map_some]
    cases hr : (ended result).1 with
    | ok value =>
      rw [hr] at hrun
      exact bind_of_done hrun _
    | error fault =>
      rw [hr] at hrun
      exact bind_of_fault hrun _

theorem runFile_eq (budget : Nat) (path : String) (c : Console) :
    runFile budget path c =
      match c.files.readLines path with
      | .ok lines => runLines budget lines c
      | .error cause => some (.error (.file path cause), c) := by
  unfold runFile
  rw [get_bind]
  cases c.files.readLines path <;> rfl

theorem save_eq (path : String) (c : Console) :
    save path c =
      match c.files.writeLines path c.lastBuffer with
      | .ok files => some (.ok (), { c with files := files })
      | .error cause => some (.error (.file path cause), c) := by
  unfold save
  rw [get_bind]
  cases c.files.writeLines path c.lastBuffer <;> rfl

/-- The console in which a command is carried out: the command has been counted. -/
def counted (c : Console) : Console :=
  { c with commands := c.commands + 1 }

/-- The console after a command: the machine has been cleared. -/
def settled (c : Console) : Console :=
  { c with machine := c.machine.cleared }

theorem exec_eq (budget : Nat) (line : String) (c : Console) :
    exec budget line c = ((settle (Command.read line) >>= perform budget) c.counted).map
      fun ending => (ending.1, ending.2.settled) := by
  have ha := attempt_eq (settle (Command.read line) >>= perform budget) c.counted
  unfold exec
  rw [modify_bind]
  cases he : (settle (Command.read line) >>= perform budget) c.counted with
  | none =>
    rw [he] at ha
    exact bind_of_none ha _
  | some ending =>
    rw [he] at ha
    rw [← counted, bind_of_done ha, modify_bind]
    obtain ⟨outcome, c'⟩ := ending
    cases outcome <;> rfl

theorem exec_of_read {line : String} {command : Command} (hr : Command.read line = .ok command)
    (budget : Nat) (c : Console) :
    exec budget line c =
      (perform budget command c.counted).map fun ending => (ending.1, ending.2.settled) := by
  rw [exec_eq, hr]
  rfl

theorem exec_of_unreadable {line : String} {fault : ConsoleFault}
    (hr : Command.read line = .error fault) (budget : Nat) (c : Console) :
    exec budget line c = some (.error fault, c.counted.settled) := by
  rw [exec_eq, hr]
  rfl

/-- The program of a file is run in the console that has counted the command. -/
theorem exec_run {line path : String} {lines : List String} {c : Console}
    (hr : Command.read line = .ok (.run path)) (hf : c.files.readLines path = .ok lines)
    (budget : Nat) :
    exec budget line c = (c.machine.run budget lines).map fun result =>
      ((ended result).1.map fun _ => .next,
        { c with commands := c.commands + 1, machine := (ended result).2.cleared }) := by
  have hfile : runFile budget path c.counted = runLines budget lines c.counted := by
    have hcounted : c.counted.files.readLines path = .ok lines := hf
    rw [runFile_eq, hcounted]
  have hperform : perform budget (.run path) c.counted =
      (runLines budget lines >>= fun _ => pure Flow.next) c.counted := by
    simp only [perform, bind, ExceptT.bind, ExceptT.mk, StateT.bind, hfile]
  rw [exec_of_read hr, hperform, runLines_next, Option.map_map]
  rfl

theorem exec_run_missing {line path : String} {cause : IoFault} {c : Console}
    (hr : Command.read line = .ok (.run path)) (hf : c.files.readLines path = .error cause)
    (budget : Nat) : exec budget line c = some (.error (.file path cause), c.counted.settled) := by
  have hfile : runFile budget path c.counted = some (.error (.file path cause), c.counted) := by
    have hcounted : c.counted.files.readLines path = .error cause := hf
    rw [runFile_eq, hcounted]
  rw [exec_of_read hr, perform, bind_of_fault hfile]
  rfl

section Prompts

variable {c : Console}

/-- The console after a text was shown. -/
def shown (text : String) (c : Console) : Console :=
  { c with
    machine := (c.machine.withSink
      { c.machine.sink with bytes := c.machine.sink.bytes ++ text.toUTF8 }).flushed }

/-- The console after a text was shown to somebody who is typing. -/
def asked (text : String) (c : Console) : Console :=
  if c.interactive then c.shown text else c

/-- Asking for lines cannot fail: nobody is asked, or the sink takes everything. -/
def CanAsk (c : Console) : Prop :=
  c.interactive = false ∨ c.machine.sink.InMemory

/-- All that asks for the lines of a program and for the line that closes it. -/
def linePrompts (indented : Bool) : List String → String
  | [] => linePrompt indented
  | line :: rest => linePrompt indented ++ linePrompts (indentsAfter indented line) rest

theorem showText_inMemory (text : String) (h : c.machine.sink.InMemory) :
    showText text c = some (.ok (), c.shown text) := by
  have hput : transfer (Machine.put text) c = some (.ok (), { c with
      machine := c.machine.withSink
        { c.machine.sink with bytes := c.machine.sink.bytes ++ text.toUTF8 } }) := by
    rw [transfer_eq, Machine.put_inMemory text h]
  have hflushes : (c.machine.withSink
      { c.machine.sink with bytes := c.machine.sink.bytes ++ text.toUTF8 }).sink.refusesFlush =
      false := h.flushes
  unfold showText
  rw [bind_of_done hput, transfer_eq, Machine.flush_eq, hflushes]
  rfl

theorem shown_shown (text text' : String) (c : Console) :
    (c.shown text).shown text' = c.shown (text ++ text') := by
  simp only [shown, Machine.withSink, Machine.flushed, String.toUTF8_eq_toByteArray,
    String.toByteArray_append, ByteArray.append_assoc]

theorem asked_asked (text text' : String) (c : Console) :
    (c.asked text).asked text' = c.asked (text ++ text') := by
  cases hi : c.interactive with
  | true =>
    have hs : (c.shown text).interactive = true := hi
    simp only [asked, hi, hs, if_true, shown_shown]
  | false => simp [asked, hi]

theorem CanAsk.asked (h : c.CanAsk) (text : String) : (c.asked text).CanAsk := by
  unfold Console.asked
  split
  · rename_i hi
    have hm := h.resolve_left (by simp [hi])
    exact Or.inr ⟨hm.unlimited, hm.silent, hm.flushes⟩
  · exact h

theorem promptLine_eq (h : c.CanAsk) (indented : Bool) :
    promptLine indented c = some (.ok (), c.asked (linePrompt indented)) := by
  unfold promptLine
  rw [get_bind]
  cases hi : c.interactive with
  | true =>
    have hm := h.resolve_left (by simp [hi])
    rw [if_pos rfl, showText_inMemory _ hm, asked, hi]
    rfl
  | false =>
    rw [asked, hi]
    rfl

/-- One line of a program, and then the rest of it. -/
theorem readBuffer_cons (h : c.CanAsk) (indented : Bool) (line : String) (rest : List String) :
    readBuffer indented (line :: rest) c =
      if closesBuffer line then
        some (.ok (some []), { c.asked (linePrompt indented) with input := rest })
      else
        ((readBuffer (indentsAfter indented line) rest >>= fun buffer? =>
          pure (buffer?.map (line :: ·))) { c.asked (linePrompt indented) with input := rest }) := by
  rw [readBuffer, bind_of_done (promptLine_eq h indented), modify_bind]
  cases closesBuffer line <;> rfl

/-- The program ends in front of the first line that closes it. -/
theorem readBuffer_closed (h : c.CanAsk) (indented : Bool) {buffer : List String}
    (hb : ∀ line ∈ buffer, closesBuffer line = false) {closing : String}
    (hc : closesBuffer closing = true) (rest : List String) :
    readBuffer indented (buffer ++ closing :: rest) c =
      some (.ok (some buffer), { c.asked (linePrompts indented buffer) with input := rest }) := by
  induction buffer generalizing c indented with
  | nil =>
    rw [List.nil_append, readBuffer_cons h, if_pos hc]
    rfl
  | cons line buffer ih =>
    have hline := hb line List.mem_cons_self
    have hstep : CanAsk { c.asked (linePrompt indented) with input := buffer ++ closing :: rest } :=
      h.asked _
    have hread := ih hstep (indentsAfter indented line) fun text ht =>
      hb text (List.mem_cons_of_mem _ ht)
    rw [List.cons_append, readBuffer_cons h, hline, if_neg Bool.false_ne_true, bind_of_done hread]
    rw [linePrompts, ← asked_asked]
    -- What is asked for does not depend on the input.
    simp only [asked, shown]
    split <;> rfl

/-- Without such a line everything is read, and there is no program. -/
theorem readBuffer_open (h : c.CanAsk) (indented : Bool)
    (hb : ∀ line ∈ c.input, closesBuffer line = false) :
    readBuffer indented c.input c =
      some (.ok none, { c.asked (linePrompts indented c.input) with input := [] }) := by
  generalize hl : c.input = lines at hb
  induction lines generalizing c indented with
  | nil =>
    rw [readBuffer, bind_of_done (promptLine_eq h indented)]
    have hempty : (c.asked (linePrompt indented)).input = [] := by
      unfold asked
      split <;> exact hl
    rw [linePrompts, ← hempty]
    rfl
  | cons line lines ih =>
    have hline := hb line List.mem_cons_self
    have hstep : CanAsk { c.asked (linePrompt indented) with input := lines } := h.asked _
    have hread := ih hstep (indentsAfter indented line) rfl fun text ht =>
      hb text (List.mem_cons_of_mem _ ht)
    rw [readBuffer_cons h, hline, if_neg Bool.false_ne_true, bind_of_done hread]
    rw [linePrompts, ← asked_asked]
    simp only [asked, shown]
    split <;> rfl

/-- The program is the one in front of the first line that closes it, and it is run in the console
that has forgotten those lines. -/
theorem interpret_closed (h : c.CanAsk) {buffer : List String}
    (hb : ∀ line ∈ buffer, closesBuffer line = false) {closing : String}
    (hc : closesBuffer closing = true) {rest : List String}
    (hi : c.input = buffer ++ closing :: rest) (budget : Nat) :
    interpret budget c = ((c.asked (linePrompts false buffer)).machine.run budget buffer).map
      fun result => ((ended result).1.map fun _ => .next,
        { c with input := rest, lastBuffer := buffer, machine := (ended result).2 }) := by
  have hread := readBuffer_closed h false hb hc rest
  -- Asking has changed the machine only, and the program replaces it.
  have hmachine (m : Machine) :
      { c.asked (linePrompts false buffer) with
        input := rest, lastBuffer := buffer, machine := m } =
      { c with input := rest, lastBuffer := buffer, machine := m } := by
    unfold asked
    split <;> rfl
  unfold interpret
  rw [get_bind, hi, bind_of_done hread]
  dsimp only
  rw [modify_bind, runLines_next]
  simp only [hmachine]

theorem interpret_open (h : c.CanAsk) (hb : ∀ line ∈ c.input, closesBuffer line = false)
    (budget : Nat) :
    interpret budget c =
      some (.ok .exit, { c.asked (linePrompts false c.input) with input := [] }) := by
  unfold interpret
  rw [get_bind, bind_of_done (readBuffer_open h false hb)]
  rfl

end Prompts

section Deeds

variable {c c' : Console}

/-- What commands can do, apart from reading a program and switching the trace: print, flush, run a
program, write the last program to a file, and show or hide the prompt. -/
inductive Deed : Console → Console → Prop where
  | printed (c : Console) (text : String) : Deed c { c with machine := c.machine.printed text }
  | flushed (c : Console) : Deed c { c with machine := c.machine.flushed }
  | ran {c : Console} {budget : Nat} {lines : List String}
      {result : EStateM.Result Fault Machine Unit} (h : c.machine.run budget lines = some result) :
      Deed c { c with machine := (ended result).2 }
  | saved {c : Console} {path : String} {files : FileTree}
      (h : c.files.writeLines path c.lastBuffer = .ok files) : Deed c { c with files := files }
  | echo (c : Console) (on : Bool) : Deed c { c with echo := on }

/-- An action that consists of deeds, whether it fails or not. -/
def Deeds {α : Type} (action : Dialogue α) : Prop :=
  ∀ c outcome c', action c = some (outcome, c') → Relation.ReflTransGen Deed c c'

theorem deeds_pure {α : Type} (value : α) : Deeds (pure value) := by
  intro c outcome c' h
  cases h
  exact .refl

theorem deeds_bind {α β : Type} {action : Dialogue α} {next : α → Dialogue β}
    (ha : Deeds action) (hn : ∀ value, Deeds (next value)) : Deeds (action >>= next) := by
  intro c outcome c' h
  rcases bind_cases h with ⟨fault, _, he⟩ | ⟨value, c₁, he, hlater⟩
  · exact ha c _ c' he
  · exact (ha c _ c₁ he).trans (hn value c₁ outcome c' hlater)

theorem deeds_put (text : String) : Deeds (transfer (Machine.put text)) := by
  intro c outcome c' h
  rw [transfer_eq, Machine.put_eq] at h
  cases hs : c.machine.sink.holds text.toUTF8 with
  | true =>
    rw [hs] at h
    cases h
    exact .single (.printed c text)
  | false =>
    rw [hs] at h
    cases h
    exact .single (.printed c text)

theorem deeds_flush : Deeds (transfer Machine.flush) := by
  intro c outcome c' h
  rw [transfer_eq, Machine.flush_eq] at h
  cases hf : c.machine.sink.refusesFlush with
  | true =>
    rw [hf] at h
    cases h
    exact .refl
  | false =>
    rw [hf] at h
    cases h
    exact .single (.flushed c)

theorem deeds_showText (text : String) : Deeds (showText text) :=
  deeds_bind (deeds_put text) fun _ => deeds_flush

theorem deeds_showLine (text : String) : Deeds (showLine text) :=
  deeds_bind (deeds_showText text) fun _ => deeds_showText "\n"

theorem deeds_forM (lines : List String) : Deeds (lines.forM showLine) := by
  induction lines with
  | nil => exact deeds_pure _
  | cons line lines ih => exact deeds_bind (deeds_showLine line) fun _ => ih

theorem deeds_runLines (budget : Nat) (lines : List String) : Deeds (runLines budget lines) := by
  intro c outcome c' h
  rw [runLines_eq] at h
  obtain ⟨result, hresult, he⟩ := Option.map_eq_some_iff.mp h
  cases he
  exact .single (.ran hresult)

theorem deeds_runFile (budget : Nat) (path : String) : Deeds (runFile budget path) := by
  intro c outcome c' h
  rw [runFile_eq] at h
  split at h
  · exact deeds_runLines budget _ c outcome c' h
  · cases h
    exact .refl

theorem deeds_save (path : String) : Deeds (save path) := by
  intro c outcome c' h
  rw [save_eq] at h
  split at h
  · rename_i files hw
    cases h
    exact .single (.saved hw)
  · cases h
    exact .refl

/-- Every command but two consists of deeds. -/
theorem deeds_perform (budget : Nat) {command : Command} (hi : command ≠ .interpret)
    (hd : command ≠ .debug) : Deeds (perform budget command) := by
  cases command with
  | nothing => exact deeds_pure _
  | interpret => exact absurd rfl hi
  | run path => exact deeds_bind (deeds_runFile budget path) fun _ => deeds_pure _
  | save path => exact deeds_bind (deeds_save path) fun _ => deeds_pure _
  | echo on =>
    intro c outcome c' h
    cases h
    exact .single (.echo c on)
  | debug => exact absurd rfl hd
  | help => exact deeds_bind (deeds_forM helpLines) fun _ => deeds_pure _
  | version => exact deeds_bind (deeds_showLine versionLine) fun _ => deeds_pure _
  | exit => exact deeds_pure _

end Deeds

end Console

end LineScript
