import LineScript.Proofs.OptionSpelling
import Mathlib.Data.List.Forall2
import Mathlib.Data.List.Perm.Basic

/-! The options as words, in any order. Each word gives one of the options its value, and no two of
them are about the same one. -/

namespace LineScript

namespace Options

/-- One option that is given. -/
inductive Choice where
  | debug
  | quiet
  /-- No settings file is read. -/
  | skip
  /-- The settings file with this path is read. -/
  | file (path : String)
  | command (line : String)
  | logFile (path : String)
deriving Repr, DecidableEq

/-- The word by which an option is given. -/
def Choice.word : Choice → String
  | .debug => "-d"
  | .quiet => "-q"
  | .skip => "-f"
  | .file path => "-f" ++ path
  | .command line => "-c" ++ line
  | .logFile path => "-l" ++ path

/-- An operand that can be written in the word of its option. -/
def Choice.Spellable : Choice → Prop
  | .file operand | .command operand | .logFile operand => operand ≠ ""
  | .debug | .quiet | .skip => True

/-- The options when one more is given. -/
def choose (o : Options) : Choice → Options
  | .debug => { o with debug := true }
  | .quiet => { o with quiet := true }
  | .skip => { o with source := .skip }
  | .file path => { o with source := .file path }
  | .command line => { o with command := some line }
  | .logFile path => { o with logFile := some path }

/-- What has to be given to get these options. -/
def choices (o : Options) : List Choice :=
  (if o.debug then [.debug] else []) ++ (if o.quiet then [.quiet] else []) ++
    (match o.source with
      | .search => []
      | .skip => [.skip]
      | .file path => [.file path]) ++
    (o.command.map Choice.command).toList ++ (o.logFile.map Choice.logFile).toList

/-- The words that give these options. -/
def optionWords (o : Options) : List String :=
  o.choices.map Choice.word

theorem Choice.goesOn_word (choice : Choice) (rest : List String) :
    GoesOn (choice.word :: rest) := by
  rintro _ ⟨⟩
  cases choice <;> simp [Choice.word]

/-- One word, before others that begin with a hyphen. -/
theorem readWords_choice {choice : Choice} (h : choice.Spellable) {rest : List String}
    (hrest : GoesOn rest) (o : Options) :
    readWords o (choice.word :: rest) = readWords (o.choose choice) rest := by
  cases choice with
  | debug => rfl
  | quiet => rfl
  | skip =>
    have hletter : readWords o ("-f" :: rest) = readBehind rest (readLetters o ['f']) :=
      readWords_of_toList rfl (by decide) o rest
    exact hletter.trans (readBehind_skip hrest o)
  | file path => exact readWords_supply .settings (by simp [Choice.word, Operand.letter]) h o rest
  | command line =>
    exact readWords_supply .command (by simp [Choice.word, Operand.letter]) h o rest
  | logFile path =>
    exact readWords_supply .logFile (by simp [Choice.word, Operand.letter]) h o rest

/-- All words. -/
theorem readWords_choices {choices : List Choice} (h : ∀ choice ∈ choices, choice.Spellable)
    {tail : List String} (htail : GoesOn tail) (o : Options) :
    readWords o (choices.map Choice.word ++ tail) = readWords (choices.foldl choose o) tail := by
  induction choices generalizing o with
  | nil => rfl
  | cons choice choices ih =>
    obtain ⟨hfirst, hothers⟩ := List.forall_mem_cons.mp h
    have hrest : GoesOn (choices.map Choice.word ++ tail) := by
      cases choices with
      | nil => exact htail
      | cons next choices => exact next.goesOn_word _
    rw [List.map_cons, List.cons_append, readWords_choice hfirst hrest, ih hothers]
    rfl

/-- Whether the options are as a choice makes them. -/
def Has (o : Options) : Choice → Prop
  | .debug => o.debug = true
  | .quiet => o.quiet = true
  | .skip => o.source = .skip
  | .file path => o.source = .file path
  | .command line => o.command = some line
  | .logFile path => o.logFile = some path

theorem has_of_mem {o : Options} {choice : Choice} (h : choice ∈ o.choices) : o.Has choice := by
  have hoperand {operand? : Option String} {kind : String → Choice}
      (h : choice ∈ (operand?.map kind).toList) :
      ∃ operand, operand? = some operand ∧ kind operand = choice :=
    Option.map_eq_some_iff.mp (Option.mem_toList.mp h)
  simp only [choices, List.mem_append] at h
  rcases h with (((hdebug | hquiet) | hsource) | hcommand) | hlog
  · split at hdebug
    · cases List.mem_singleton.mp hdebug
      assumption
    · cases hdebug
  · split at hquiet
    · cases List.mem_singleton.mp hquiet
      assumption
    · cases hquiet
  · split at hsource
    · cases hsource
    · cases List.mem_singleton.mp hsource
      assumption
    · cases List.mem_singleton.mp hsource
      assumption
  · obtain ⟨line, hline, rfl⟩ := hoperand hcommand
    exact hline
  · obtain ⟨path, hpath, rfl⟩ := hoperand hlog
    exact hpath

/-- Options that can be given together can be given in either order, as no option has two values. -/
theorem choose_comm {o : Options} {choice other : Choice} (h : o.Has choice) (h' : o.Has other)
    (start : Options) :
    (start.choose choice).choose other = (start.choose other).choose choice := by
  cases choice with
  | debug => cases other <;> rfl
  | quiet => cases other <;> rfl
  | skip =>
    cases other with
    | file path => cases h.symm.trans h'
    | _ => rfl
  | file path =>
    cases other with
    | skip => cases h.symm.trans h'
    | file path' =>
      cases h.symm.trans h'
      rfl
    | _ => rfl
  | command line =>
    cases other with
    | command line' =>
      cases h.symm.trans h'
      rfl
    | _ => rfl
  | logFile path =>
    cases other with
    | logFile path' =>
      cases h.symm.trans h'
      rfl
    | _ => rfl

theorem foldl_choose (o : Options) : o.choices.foldl choose {} = { o with script := none } := by
  obtain ⟨source, command, logFile, quiet, debug, script⟩ := o
  cases debug <;> cases quiet <;> cases source <;> cases command <;> cases logFile <;> rfl

/-- Options whose operands can be written in words of their own. -/
structure Spellable (o : Options) : Prop where
  source : o.source ≠ .file ""
  command : o.command ≠ some ""
  logFile : o.logFile ≠ some ""

theorem Spellable.of_mem {o : Options} (h : o.Spellable) {choice : Choice}
    (hmem : choice ∈ o.choices) : choice.Spellable := by
  have hhas := has_of_mem hmem
  cases choice with
  | debug => trivial
  | quiet => trivial
  | skip => trivial
  | file path =>
    rintro rfl
    exact h.source hhas
  | command line =>
    rintro rfl
    exact h.command hhas
  | logFile path =>
    rintro rfl
    exact h.logFile hhas

/-- The words of options in another order are those of the same choices in that order. -/
theorem exists_choices_of_perm {o : Options} {words : List String}
    (h : words.Perm o.optionWords) :
    ∃ choices : List Choice, choices.Perm o.choices ∧ words = choices.map Choice.word := by
  have hwords : List.Forall₂ (fun word (choice : Choice) => word = choice.word) o.optionWords
      o.choices := by
    rw [optionWords, List.forall₂_map_left_iff, List.forall₂_same]
    exact fun _ _ => rfl
  obtain ⟨choices, hchoices, hperm⟩ := List.perm_comp_forall₂ h hwords
  refine ⟨choices, hperm, ?_⟩
  rw [← List.forall₂_eq_eq_eq, List.forall₂_map_right_iff]
  exact hchoices

/-- Options can be given by their words in any order. Two hyphens and the script follow them; the
hyphens may be missing if there is no script. -/
theorem options_are_given_in_any_order {o : Options} (h : o.Spellable) {words tail : List String}
    (hwords : words.Perm o.optionWords)
    (htail : tail = "--" :: o.script.toList ∨ o.script = none ∧ tail = []) :
    parse (words ++ tail) = .ok o := by
  obtain ⟨choices, hperm, rfl⟩ := exists_choices_of_perm hwords
  have hspellable : ∀ choice ∈ choices, choice.Spellable :=
    fun choice hmem => h.of_mem (hperm.mem_iff.mp hmem)
  have hfold : choices.foldl choose {} = { o with script := none } := by
    rw [← foldl_choose]
    apply hperm.foldl_eq'
    intro choice hmem other hmem' start
    have hhas : o.Has choice := has_of_mem (hperm.mem_iff.mp hmem)
    have hhas' : o.Has other := has_of_mem (hperm.mem_iff.mp hmem')
    exact choose_comm hhas hhas' start
  have hgoes : GoesOn tail := by
    rcases htail with rfl | ⟨_, rfl⟩
    · rintro _ ⟨⟩
      rfl
    · rintro _ ⟨⟩
  have hread : readWords {} (choices.map Choice.word ++ tail) =
      .ok ({ o with script := none }, o.script.toList) := by
    rw [readWords_choices hspellable hgoes, hfold]
    rcases htail with rfl | ⟨hscript, rfl⟩
    · rfl
    · rw [hscript]
      rfl
  rw [parse, hread]
  obtain ⟨source, command, logFile, quiet, debug, script⟩ := o
  cases script <;> rfl

/-- All operands look like options. The letter `f` comes first and has no operand, although a word
follows, and the script is the empty word. -/
theorem options_like_operands_are_given_last_first :
    let o : Options :=
      { source := .skip, command := some "-d", logFile := some "--", quiet := true
        script := some "" }
    o.Spellable ∧ ["-f", "-l--", "-c-d", "-q"].Perm o.optionWords ∧
      parse ["-f", "-l--", "-c-d", "-q", "--", ""] = .ok o := by
  intro o
  have hspellable : o.Spellable := ⟨by decide, by decide, by decide⟩
  have hperm : ["-f", "-l--", "-c-d", "-q"].Perm o.optionWords := by decide
  exact ⟨hspellable, hperm, options_are_given_in_any_order hspellable hperm (Or.inl rfl)⟩

end Options

end LineScript
