import LineScript.Proofs.Declarations
import LineScript.Proofs.Dialogue
import LineScript.Proofs.LineFiles
import LineScript.Proofs.Tracing

/-! A program that was typed in can be saved and run again from the file. The console keeps the
program, commands in between leave it and the settings alone, and a program does the same whatever was
done before it. -/

namespace LineScript

namespace Machine

/-- The settings and the interrupt are the same, and the sink still takes everything. -/
structure Steady (m m' : Machine) : Prop where
  debug : m'.debug = m.debug
  jumpLimit : m'.jumpLimit = m.jumpLimit
  interrupted : m'.interrupted = m.interrupted
  inMemory : m'.sink.InMemory

variable {m m' m'' : Machine} {program : List String}

theorem Steady.refl (hm : m.sink.InMemory) : m.Steady m :=
  ⟨rfl, rfl, rfl, hm⟩

theorem Steady.trans (h : m.Steady m') (h' : m'.Steady m'') : m.Steady m'' :=
  ⟨h'.debug.trans h.debug, h'.jumpLimit.trans h.jumpLimit, h'.interrupted.trans h.interrupted,
    h'.inMemory⟩

theorem steady_start (scope : Scope) (line : String) (rest : List String)
    (hm : m.sink.InMemory) : m.Steady (endState (start scope line rest m)) := by
  cases start_sets scope line rest m with
  | effect hr he h =>
    rename_i statement vars texts
    have hput := putAll_inMemory (m := { m with vars := vars }) texts hm
    rw [h, bind_of_ok hput]
    exact ⟨rfl, rfl, rfl, hm.write _⟩
  | nothing h _ =>
    obtain ⟨macros, labels, pending, ip, jumped, depth, he⟩ := h
    rw [he]
    exact ⟨rfl, rfl, rfl, hm⟩

theorem steady_tick (program : List String) (stack : List Frame) (hm : m.sink.InMemory) :
    m.Steady (endState (tick program stack m)) := by
  have hticked := Moment.ticked program ⟨stack, m⟩
  dsimp only at hticked
  generalize endState (tick program stack m) = m' at hticked
  cases hticked with
  | begins ha =>
    rename_i scope line rest
    obtain ⟨jumped, hready⟩ := Moment.ready_inMemory (c := ⟨stack, m⟩) program hm
    have hbefore : m.Steady (Moment.ready program ⟨stack, m⟩) := by
      rw [hready]
      exact ⟨rfl, rfl, rfl, hm.write _⟩
    exact hbefore.trans (steady_start scope line rest hbefore.inMemory)
  | untraced ha ht =>
    rename_i scope line rest text
    rw [traced_inMemory text hm]
    exact ⟨rfl, rfl, rfl, hm.write _⟩
  | passes hl hb => exact ⟨rfl, rfl, rfl, hm⟩
  | moves hl hmoves hp =>
    obtain ⟨ip, depth, rfl⟩ := hmoves
    exact ⟨rfl, rfl, rfl, hm⟩
  | ends hl ht => exact ⟨rfl, rfl, rfl, hm.with_bytes _ _⟩

theorem steady_resume {budget : Nat} {stack : List Frame}
    {result : EStateM.Result Fault Machine Unit} (hm : m.sink.InMemory)
    (h : resume program budget stack m = some result) : m.Steady (endState result) := by
  induction budget generalizing stack m with
  | zero => cases h
  | succ budget ih =>
    have htick := steady_tick program stack hm
    rw [resume] at h
    cases ht : tick program stack m with
    | error fault m₁ =>
      rw [ht] at h htick
      cases h
      exact ⟨htick.debug, htick.jumpLimit, htick.interrupted, htick.inMemory⟩
    | ok next m₁ =>
      rw [ht] at h htick
      cases next with
      | none =>
        cases h
        exact htick
      | some stack₁ => exact htick.trans (ih htick.inMemory h)

/-- A program leaves the settings as they are, also behind the last flush. -/
theorem steady_ended {budget : Nat} {result : EStateM.Result Fault Machine Unit}
    (hm : m.sink.InMemory) (h : m.run budget program = some result) :
    m.Steady (Console.ended result).2 := by
  have hcleared : m.Steady m.cleared := ⟨rfl, rfl, rfl, hm⟩
  have hend := hcleared.trans (steady_resume hcleared.inMemory h)
  have hflushed (m' : Machine) (h' : m.Steady m') : m.Steady m'.flushed :=
    ⟨h'.debug, h'.jumpLimit, h'.interrupted, h'.inMemory.with_bytes _ _⟩
  cases result with
  | ok value m' =>
    have hflushes : m'.sink.refusesFlush = false := hend.inMemory.flushes
    rw [Console.ended, hflushes]
    exact hflushed m' hend
  | error fault m' =>
    have hflushes : m'.sink.refusesFlush = false := hend.inMemory.flushes
    rw [Console.ended, hflushes]
    exact hflushed m' hend

/-- Machines with the same settings run a program to the same end, and it prints the same on both. -/
theorem run_alike {budget : Nat} {result : EStateM.Result Fault Machine Unit}
    (hm : m.sink.InMemory) (hs : m.Steady m') (h : m.run budget program = some result) :
    ∃ result' output, m'.run budget program = some result' ∧
      (Console.ended result').1 = (Console.ended result).1 ∧
      (Console.ended result).2.sink.bytes = m.sink.bytes ++ output ∧
      (Console.ended result').2.sink.bytes = m'.sink.bytes ++ output := by
  let new : Machine :=
    { debug := m.debug, jumpLimit := m.jumpLimit, interrupted := m.interrupted }
  -- Both machines are compared with one that was never used.
  have hend {w : Machine} {r r' : EStateM.Result Fault Machine Unit}
      (he : EndAlike (Beside w.sink.bytes) r r') :
      (Console.ended r).1 = (Console.ended r').1 ∧
        (Console.ended r).2.sink.bytes = w.sink.bytes ++ (Console.ended r').2.sink.bytes := by
    cases he with
    | ok value hb =>
      rw [Console.ended, Console.ended, hb.inMemory.flushes, hb.inMemory'.flushes]
      exact ⟨rfl, hb.bytes⟩
    | error fault hb =>
      rw [Console.ended, Console.ended, hb.inMemory.flushes, hb.inMemory'.flushes]
      exact ⟨rfl, hb.bytes⟩
  have hnew : Beside m'.sink.bytes m'.cleared new.cleared := by
    have hbeside := beside_new hs.inMemory
    rw [hs.debug, hs.jumpLimit, hs.interrupted] at hbeside
    exact hbeside
  have hfirst := run_beside program budget (beside_new hm)
  have hsecond := run_beside program budget hnew
  rw [h] at hfirst
  generalize m'.run budget program = again at hsecond
  generalize new.run budget program = fresh at hfirst hsecond
  cases hfirst with
  | some hends =>
    rename_i unused
    cases hsecond with
    | some hends' =>
      rename_i result'
      obtain ⟨hresult, hbytes⟩ := hend hends
      obtain ⟨hresult', hbytes'⟩ := hend hends'
      exact ⟨result', _, rfl, hresult'.trans hresult.symm, hbytes, hbytes'⟩

end Machine

namespace Console

variable {c c₁ c₂ c' : Console}

/-- The last program can be read from everywhere from where it could be read before, and it would run
as it did. -/
structure Keeps (c c' : Console) : Prop where
  lastBuffer : c'.lastBuffer = c.lastBuffer
  steady : c.machine.Steady c'.machine
  files : ∀ path, c.files.readLines path = .ok c.lastBuffer →
    c'.files.readLines path = .ok c.lastBuffer

theorem Keeps.refl (hm : c.machine.sink.InMemory) : c.Keeps c :=
  ⟨rfl, .refl hm, fun _ => id⟩

theorem Keeps.trans (h : c.Keeps c₁) (h' : c₁.Keeps c₂) : c.Keeps c₂ where
  lastBuffer := h'.lastBuffer.trans h.lastBuffer
  steady := h.steady.trans h'.steady
  files path hread := by
    have hagain := h'.files path
    rw [h.lastBuffer] at hagain
    exact hagain (h.files path hread)

/-- The lines of the last program survive in a file. -/
def Saveable (c : Console) : Prop :=
  ∀ line ∈ c.lastBuffer, Storable line.toList

theorem Keeps.saveable (h : c.Keeps c') (hs : c.Saveable) : c'.Saveable := by
  rw [Saveable, h.lastBuffer]
  exact hs

theorem keeps_of_deed (hm : c.machine.sink.InMemory) (hs : c.Saveable) (h : Deed c c') :
    c.Keeps c' := by
  cases h with
  | printed text =>
    have hprinted : c.machine.printed text = c.machine.withSink
        { c.machine.sink with bytes := c.machine.sink.bytes ++ text.toUTF8 } := by
      have hput := Machine.put_inMemory text hm
      rw [Machine.put_eq,
        if_pos (Sink.holds_of_fitting_eq (Sink.fitting_of_unlimited hm.unlimited _))] at hput
      injection hput
    rw [hprinted]
    exact ⟨rfl, ⟨rfl, rfl, rfl, hm.with_bytes _ _⟩, fun _ => id⟩
  | flushed => exact ⟨rfl, ⟨rfl, rfl, rfl, hm.with_bytes _ _⟩, fun _ => id⟩
  | ran hrun => exact ⟨rfl, Machine.steady_ended hm hrun, fun _ => id⟩
  | saved hwrite =>
    exact ⟨rfl, .refl hm, fun path => (FileTree.readLines_of_writeLines hs hwrite).2 path⟩
  | echo on => exact ⟨rfl, .refl hm, fun _ => id⟩

theorem keeps_of_deeds (hm : c.machine.sink.InMemory) (hs : c.Saveable)
    (h : Relation.ReflTransGen Deed c c') : c.Keeps c' := by
  induction h with
  | refl => exact .refl hm
  | tail _ hdeed ih =>
    exact ih.trans (keeps_of_deed ih.steady.inMemory (ih.saveable hs) hdeed)

theorem keeps_settled (hm : c.machine.sink.InMemory) : c.Keeps c.settled :=
  ⟨rfl, ⟨rfl, rfl, rfl, hm⟩, fun _ => id⟩

/-- Only the commands that read a program and that switch the trace make a difference. -/
theorem keeps_of_exec {budget : Nat} {line : String} {outcome : Except ConsoleFault Flow}
    (hm : c.machine.sink.InMemory) (hs : c.Saveable) (hi : Command.read line ≠ .ok .interpret)
    (hd : Command.read line ≠ .ok .debug) (h : exec budget line c = some (outcome, c')) :
    c.Keeps c' := by
  have hcounted : c.Keeps c.counted := ⟨rfl, .refl hm, fun _ => id⟩
  cases hr : Command.read line with
  | error fault =>
    rw [exec_of_unreadable hr] at h
    cases h
    exact hcounted.trans (keeps_settled hm)
  | ok command =>
    rw [hr] at hi hd
    rw [exec_of_read hr] at h
    obtain ⟨⟨result, c₁⟩, hperform, he⟩ := Option.map_eq_some_iff.mp h
    cases he
    have hdeeds := deeds_perform budget (fun hc => hi (congrArg _ hc))
      (fun hc => hd (congrArg _ hc)) _ _ _ hperform
    have hperformed := keeps_of_deeds (c := c.counted) hm hs hdeeds
    exact (hcounted.trans hperformed).trans (keeps_settled hperformed.steady.inMemory)

/-- What may happen between two commands that matter: other commands, whatever comes of them, prompts,
input that is taken and faults that are reported. -/
inductive Interlude (c : Console) : Console → Prop where
  | nothing : Interlude c c
  | command {c₁ c₂ : Console} {budget : Nat} {line : String}
      {outcome : Except ConsoleFault Flow} (h : Interlude c c₁)
      (hi : Command.read line ≠ .ok .interpret) (hd : Command.read line ≠ .ok .debug)
      (he : exec budget line c₁ = some (outcome, c₂)) : Interlude c c₂
  | turn {c₁ : Console} (h : Interlude c c₁) (text : String) (input : List String)
      (errors : String) : Interlude c { c₁.asked text with input := input, errors := errors }

theorem Interlude.keeps (h : Interlude c c') (hm : c.machine.sink.InMemory) (hs : c.Saveable) :
    c.Keeps c' := by
  induction h with
  | nothing => exact .refl hm
  | command _ hi hd he ih =>
    exact ih.trans (keeps_of_exec ih.steady.inMemory (ih.saveable hs) hi hd he)
  | turn _ text input errors ih =>
    refine ih.trans ?_
    unfold asked
    split
    · exact ⟨rfl, ⟨rfl, rfl, rfl, ih.steady.inMemory.with_bytes _ _⟩, fun _ => id⟩
    · exact ⟨rfl, .refl ih.steady.inMemory, fun _ => id⟩

/-- After the last program was saved, it can be read from the file. -/
theorem readLines_of_save {budget : Nat} {line path : String} {flow : Flow} (hs : c.Saveable)
    (hr : Command.read line = .ok (.save path))
    (h : exec budget line c = some (.ok flow, c')) :
    c'.files.readLines path = .ok c.lastBuffer := by
  have hsave := save_eq path c.counted
  rw [exec_of_read hr, perform] at h
  cases hw : c.counted.files.writeLines path c.counted.lastBuffer with
  | error cause =>
    rw [hw] at hsave
    rw [bind_of_fault hsave] at h
    cases h
  | ok files =>
    rw [hw] at hsave
    rw [bind_of_done hsave] at h
    cases h
    exact (FileTree.readLines_of_writeLines hs hw).1

/-- What asks for a program in a console, if somebody is asked at all. -/
def askedFor (c : Console) (buffer : List String) : ByteArray :=
  if c.interactive then (linePrompts false buffer).toUTF8 else .empty

theorem bytes_asked (c : Console) (buffer : List String) :
    (c.asked (linePrompts false buffer)).machine.sink.bytes =
      c.machine.sink.bytes ++ c.askedFor buffer := by
  unfold asked askedFor
  split
  · rfl
  · exact ByteArray.append_empty.symm

end Console

open Console

/-- A program that was typed in, none of whose lines contains a line feed or ends in a carriage return,
can be saved later on and run from the file. The file then has the lines of the program, the command
ends as the first one did, and it prints the same, apart from what has asked for the lines. -/
theorem saved_program_runs_again (c c₁ c₂ c₃ c₄ : Console) (budget budget' : Nat)
    (typed save again path closing : String) (buffer rest : List String)
    (outcome : Except ConsoleFault Flow) (hm : c.machine.sink.InMemory)
    (ht : Command.read typed = .ok .interpret) (hinput : c.input = buffer ++ closing :: rest)
    (hb : ∀ line ∈ buffer, closesBuffer line = false) (hc : closesBuffer closing = true)
    (hstorable : ∀ line ∈ buffer, Storable line.toList)
    (hfirst : exec budget typed c = some (outcome, c₁)) (hbefore : Interlude c₁ c₂)
    (hs : Command.read save = .ok (.save path))
    (hsaved : exec budget' save c₂ = some (.ok .next, c₃)) (hafter : Interlude c₃ c₄)
    (ha : Command.read again = .ok (.run path)) :
    c₄.files.readLines path = .ok buffer ∧
      ∃ output c₅, exec budget again c₄ = some (outcome, c₅) ∧
        c₁.machine.sink.bytes = c.machine.sink.bytes ++ c.askedFor buffer ++ output ∧
        c₅.machine.sink.bytes = c₄.machine.sink.bytes ++ output := by
  have hinterpret := interpret_closed (c := c.counted) (Or.inr hm) hb hc hinput budget
  rw [exec_of_read ht, perform, hinterpret, Option.map_map] at hfirst
  obtain ⟨result, hrun, he⟩ := Option.map_eq_some_iff.mp hfirst
  obtain ⟨rfl, rfl⟩ := Prod.mk.inj he
  -- The settings are those with which the program ran for the first time.
  have hasked : c.machine.Steady (c.counted.asked (linePrompts false buffer)).machine := by
    unfold asked
    split
    · exact ⟨rfl, rfl, rfl, hm.with_bytes _ _⟩
    · exact .refl hm
  have hran := Machine.steady_ended hasked.inMemory hrun
  have hkeeps₂ := hbefore.keeps hran.inMemory hstorable
  have hsaveable := hkeeps₂.saveable hstorable
  have hkeeps₃ := keeps_of_exec hkeeps₂.steady.inMemory hsaveable (by simp [hs]) (by simp [hs])
    hsaved
  have hread := readLines_of_save hsaveable hs hsaved
  have hkeeps₄ := hafter.keeps hkeeps₃.steady.inMemory (hkeeps₃.saveable hsaveable)
  -- No command in between writes anything but this program to a file.
  have hfile : c₄.files.readLines path = .ok buffer := by
    have hlater := hkeeps₄.files path
    rw [hkeeps₃.lastBuffer, hkeeps₂.lastBuffer] at hlater
    rw [hkeeps₂.lastBuffer] at hread
    exact hlater hread
  have hsteady : (c.counted.asked (linePrompts false buffer)).machine.Steady c₄.machine :=
    hran.trans (((keeps_settled hran.inMemory).trans hkeeps₂).trans
      (hkeeps₃.trans hkeeps₄)).steady
  obtain ⟨result', output, hrun', hsame, hbytes, hbytes'⟩ :=
    Machine.run_alike hasked.inMemory hsteady hrun
  refine ⟨hfile, output,
    { c₄ with commands := c₄.commands + 1, machine := (ended result').2.cleared }, ?_, ?_, hbytes'⟩
  · rw [exec_run ha hfile, hrun', Option.map_some, hsame]
  · exact hbytes.trans (congrArg (· ++ output) (bytes_asked c.counted buffer))

/-- A program that prints a letter and fails, typed in by somebody. It fails again when it is run from
the file, and prints the letter again. -/
theorem failing_program_fails_again :
    let c : Console := { interactive := true, input := ["PRINTSTR \"a\"", "GOTO x", ""] }
    let after (line : String) (c : Console) : Console := ((exec 10 line c).map Prod.snd).getD c
    let c₁ := after "interpret" c
    let c₃ := after "save f" (after "hello" c₁)
    c₁.machine.sink.bytes = ">>> >>> >>> a".toUTF8 ∧
      c₃.files.readLines "f" = .ok ["PRINTSTR \"a\"", "GOTO x"] ∧
      ∃ output c₅, exec 10 "run f" c₃ = some (.error (.script (.missing .labelName "x")), c₅) ∧
        c₁.machine.sink.bytes =
          c.machine.sink.bytes ++ c.askedFor ["PRINTSTR \"a\"", "GOTO x"] ++ output ∧
        c₅.machine.sink.bytes = c₃.machine.sink.bytes ++ output := by
  intro c after c₁ c₃
  have hfirst : exec 10 "interpret" c =
      some (.error (.script (.missing .labelName "x")), c₁) := by decide +kernel
  have hunknown : exec 10 "hello" c₁ =
      some (.error (.unknownCommand "hello"), after "hello" c₁) := by decide +kernel
  have hsaved : exec 10 "save f" (after "hello" c₁) = some (.ok .next, c₃) := by decide +kernel
  have hlines : ∀ line ∈ ["PRINTSTR \"a\"", "GOTO x"],
      closesBuffer line = false ∧ Storable line.toList := by
    simp only [Storable]
    decide +kernel
  obtain ⟨hfile, output, c₅, hagain, hbytes, hbytes'⟩ :=
    saved_program_runs_again c c₁ (after "hello" c₁) c₃ c₃ 10 10 "interpret" "save f" "run f" "f"
      "" ["PRINTSTR \"a\"", "GOTO x"] [] _ ⟨rfl, rfl, rfl⟩ (by decide +kernel) rfl
      (fun line hline => (hlines line hline).1) (by decide +kernel)
      (fun line hline => (hlines line hline).2) hfirst
      (.command .nothing (by decide +kernel) (by decide +kernel) hunknown) (by decide +kernel)
      hsaved .nothing (by decide +kernel)
  exact ⟨by decide +kernel, hfile, output, c₅, hagain, hbytes, hbytes'⟩

/-- What asks for the lines is printed only by the command that reads them. A line with a line feed in
it becomes two lines in the file, and the program then fails. -/
theorem prompts_and_line_feeds_are_not_repeated :
    let after (line : String) (c : Console) : Console := ((exec 10 line c).map Prod.snd).getD c
    let ends (line : String) (c : Console) : Option (Except ConsoleFault Flow × ByteArray) :=
      (exec 10 line c).map fun ending => (ending.1, ending.2.machine.sink.bytes)
    let c : Console := { interactive := true, input := ["PRINTSTR \"a\"", ""] }
    let d : Console := { input := ["PRINTSTR \"a\nb\"", ""] }
    (ends "interpret" c = some (.ok .next, ">>> >>> a".toUTF8) ∧
      ends "save f" (after "interpret" c) = some (.ok .next, ">>> >>> a".toUTF8) ∧
      ends "run f" (after "save f" (after "interpret" c)) =
        some (.ok .next, ">>> >>> aa".toUTF8)) ∧
    (ends "interpret" d = some (.ok .next, "a\nb".toUTF8) ∧
      ends "save f" (after "interpret" d) = some (.ok .next, "a\nb".toUTF8) ∧
      (after "save f" (after "interpret" d)).files.readLines "f" =
        .ok ["PRINTSTR \"a", "b\""] ∧
      ends "run f" (after "save f" (after "interpret" d)) =
        some (.error (.script (.malformed .unquotedPrint)), "a\nb".toUTF8)) := by
  decide +kernel

end LineScript
