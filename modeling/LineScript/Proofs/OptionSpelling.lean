import LineScript.Options
import Mathlib.Data.List.Basic

/-! The words of a command line and their spellings. Letters can stand in one word or in several,
and an operand in the word of its option or in the next one. -/

namespace LineScript

namespace Options

variable {o : Options} {word : String}

/-- How a word of a command line is read. -/
inductive Role where
  /-- As option letters. -/
  | letters
  /-- As the operand of an option before it. -/
  | operand
  /-- As a word that is no option. -/
  | other
  /-- As the end of the options. -/
  | separator
  /-- Not at all, as a letter before it is unknown. -/
  | unread
deriving Repr, DecidableEq

/-- The roles of the words of a command line. -/
def roles : List String → List Role
  | [] => []
  | word :: rest =>
    if word = "--" then .separator :: rest.map fun _ => .other
    else if !isOptionWord word then .other :: roles rest
    else
      .letters ::
        match readLetters {} (word.toList.drop 1) with
        | .error _ => rest.map fun _ => .unread
        | .ok (_, none) => roles rest
        | .ok (_, some operand) =>
          match rest with
          | [] => []
          | next :: after =>
            if accepts operand next then .operand :: roles after else roles (next :: after)

/-! Letters. -/

/-- Letters that do the same to all options: they are faulty, or they change the options, and the
last of them may still want its operand. -/
def ReadAlike (letters : List Char) : Prop :=
  (∃ fault, ∀ o : Options, readLetters o letters = .error fault) ∨
    ∃ (change : Options → Options) (wanted : Option Operand),
      ∀ o, readLetters o letters = .ok (change o, wanted)

theorem readAlike_of_operand {letter : Char} {rest : List Char} {operand : Operand}
    (hread : ∀ o, readLetters o (letter :: rest) = .ok (readLetters.takeRest o operand rest)) :
    ReadAlike (letter :: rest) := by
  unfold readLetters.takeRest at hread
  by_cases hrest : rest = []
  · exact Or.inr ⟨id, some operand, fun o => by rw [hread, if_pos hrest, id]⟩
  · exact Or.inr ⟨fun o => o.supply (String.ofList rest) operand, none,
      fun o => by rw [hread, if_neg hrest]⟩

theorem ReadAlike.cons {letter : Char} {rest : List Char} (h : ReadAlike rest)
    {set : Options → Options}
    (hread : ∀ o, readLetters o (letter :: rest) = readLetters (set o) rest) :
    ReadAlike (letter :: rest) := by
  rcases h with ⟨fault, hfault⟩ | ⟨change, wanted, hchange⟩
  · exact Or.inl ⟨fault, fun o => (hread o).trans (hfault (set o))⟩
  · exact Or.inr ⟨fun o => change (set o), wanted, fun o => (hread o).trans (hchange (set o))⟩

/-- All letters do, whatever they are. -/
theorem readAlike (letters : List Char) : ReadAlike letters := by
  induction letters with
  | nil => exact Or.inr ⟨id, none, fun _ => rfl⟩
  | cons letter rest ih =>
    by_cases hd : letter = 'd'
    · subst hd
      exact ih.cons fun _ => rfl
    by_cases hq : letter = 'q'
    · subst hq
      exact ih.cons fun _ => rfl
    by_cases hf : letter = 'f'
    · subst hf
      exact readAlike_of_operand fun _ => rfl
    by_cases hc : letter = 'c'
    · subst hc
      exact readAlike_of_operand fun _ => rfl
    by_cases hl : letter = 'l'
    · subst hl
      exact readAlike_of_operand fun _ => rfl
    · exact Or.inl ⟨.unknownOption letter, fun o => readLetters.eq_7 o letter rest hd hq hf hc hl⟩

/-- The letter of an option that takes an operand. -/
def Operand.letter : Operand → Char
  | .settings => 'f'
  | .command => 'c'
  | .logFile => 'l'

theorem Operand.letter_ne_hyphen (operand : Operand) : operand.letter ≠ '-' := by
  cases operand <;> decide

theorem readLetters_letter (o : Options) (operand : Operand) (letters : List Char) :
    readLetters o (operand.letter :: letters) = .ok (readLetters.takeRest o operand letters) := by
  cases operand <;> rfl

/-- What is read behind the letters of a word. -/
def readBehind (rest : List String) :
    Except OptionFault (Options × Option Operand) → Except OptionFault (Options × List String)
  | .error fault => .error fault
  | .ok (o, none) => readWords o rest
  | .ok (o, some operand) =>
    match rest with
    | [] => (o.supplyNothing operand).map fun o => (o, [])
    | next :: after =>
      if accepts operand next then readWords (o.supply next operand) after
      else
        match o.supplyNothing operand with
        | .ok o => readWords o (next :: after)
        | .error fault => .error fault

theorem readWords_eq_readBehind (hw : isOptionWord word = true) (hne : word ≠ "--")
    (o : Options) (rest : List String) :
    readWords o (word :: rest) = readBehind rest (readLetters o (word.toList.drop 1)) := by
  rw [readWords, if_neg hne, hw]
  cases readLetters o (word.toList.drop 1) with
  | error fault => rfl
  | ok reading =>
    obtain ⟨o, _ | operand⟩ := reading
    · rfl
    · cases rest <;> rfl

/-- A word of letters. -/
theorem readWords_of_toList {letter : Char} {letters : List Char}
    (h : word.toList = '-' :: letter :: letters) (hl : letter ≠ '-') (o : Options)
    (rest : List String) :
    readWords o (word :: rest) = readBehind rest (readLetters o (letter :: letters)) := by
  have hne : word ≠ "--" := by
    intro hword
    rw [hword] at h
    cases h
    exact hl rfl
  have hw : isOptionWord word = true := by
    have hhyphen : word ≠ "-" := by
      intro hword
      rw [hword] at h
      cases h
    simp [isOptionWord, h, hhyphen]
  rw [readWords_eq_readBehind hw hne, h]
  rfl

/-! Other spellings. -/

/-- A word of options, and two words that can stand for it. -/
inductive Respelled : String → String → String → Prop where
  | debug {letters : String} (hne : letters ≠ "") (hh : letters.toList.head? ≠ some '-') :
      Respelled ("-d" ++ letters) "-d" ("-" ++ letters)
  | quiet {letters : String} (hne : letters ≠ "") (hh : letters.toList.head? ≠ some '-') :
      Respelled ("-q" ++ letters) "-q" ("-" ++ letters)
  | command {line : String} (hne : line ≠ "") : Respelled ("-c" ++ line) "-c" line
  | logFile {path : String} (hne : path ≠ "") : Respelled ("-l" ++ path) "-l" path
  | settings {path : String} (hne : path ≠ "") (hh : path.toList.head? ≠ some '-') :
      Respelled ("-f" ++ path) "-f" path

theorem readWords_split_flag {flag : Char} (hflag : flag ≠ '-') {change : Options → Options}
    (hread : ∀ o letters, readLetters o (flag :: letters) = readLetters (change o) letters)
    {whole first letters : String} (hwhole : whole.toList = '-' :: flag :: letters.toList)
    (hfirst : first.toList = ['-', flag]) (hne : letters ≠ "")
    (hh : letters.toList.head? ≠ some '-') (o : Options) (rest : List String) :
    readWords o (whole :: rest) = readWords o (first :: ("-" ++ letters) :: rest) := by
  obtain ⟨letter, more, hletters⟩ : ∃ letter more, letters.toList = letter :: more :=
    List.exists_cons_of_ne_nil fun hnil => hne (String.toList_inj.mp hnil)
  have hletter : letter ≠ '-' := by
    rintro rfl
    rw [hletters] at hh
    exact hh rfl
  have hsecond : ("-" ++ letters).toList = '-' :: letter :: more := by
    rw [String.toList_append, hletters]
    rfl
  calc readWords o (whole :: rest)
      = readBehind rest (readLetters (change o) (letter :: more)) := by
        rw [readWords_of_toList hwhole hflag, hread, hletters]
    _ = readWords (change o) (("-" ++ letters) :: rest) := by
        rw [readWords_of_toList hsecond hletter]
    _ = readWords o (first :: ("-" ++ letters) :: rest) := by
        rw [readWords_of_toList hfirst hflag, hread]
        rfl

/-- An operand in the word of its option. -/
theorem readWords_supply (operand : Operand) {value : String}
    (hword : word.toList = '-' :: operand.letter :: value.toList) (hne : value ≠ "") (o : Options)
    (rest : List String) :
    readWords o (word :: rest) = readWords (o.supply value operand) rest := by
  have hvalue : value.toList ≠ [] := fun hnil => hne (String.toList_inj.mp hnil)
  rw [readWords_of_toList hword operand.letter_ne_hyphen, readLetters_letter,
    readLetters.takeRest, if_neg hvalue, String.ofList_toList]
  rfl

theorem readWords_split_operand (operand : Operand) {whole first value : String}
    (hwhole : whole.toList = '-' :: operand.letter :: value.toList)
    (hfirst : first.toList = ['-', operand.letter]) (hne : value ≠ "")
    (haccepts : accepts operand value = true) (o : Options) (rest : List String) :
    readWords o (whole :: rest) = readWords o (first :: value :: rest) := by
  rw [readWords_supply operand hwhole hne, readWords_of_toList hfirst operand.letter_ne_hyphen,
    readLetters_letter, readLetters.takeRest, if_pos rfl, readBehind, if_pos haccepts]

/-- The two words are read as the one, wherever the reader begins with it. -/
theorem Respelled.readWords_eq {first second : String} (h : Respelled word first second)
    (o : Options) (rest : List String) :
    readWords o (word :: rest) = readWords o (first :: second :: rest) := by
  cases h with
  | debug hne hh =>
    have hflag : 'd' ≠ '-' := by decide
    exact readWords_split_flag hflag (fun _ _ => rfl) (by simp) rfl hne hh o rest
  | quiet hne hh =>
    have hflag : 'q' ≠ '-' := by decide
    exact readWords_split_flag hflag (fun _ _ => rfl) (by simp) rfl hne hh o rest
  | command hne =>
    exact readWords_split_operand .command (by simp [Operand.letter]) rfl hne rfl o rest
  | logFile hne =>
    exact readWords_split_operand .logFile (by simp [Operand.letter]) rfl hne rfl o rest
  | settings hne hh =>
    have haccepts : accepts .settings second = true := by simpa [accepts] using hh
    exact readWords_split_operand .settings (by simp [Operand.letter]) rfl hne haccepts o rest

theorem accepts_eq_false_iff {operand : Operand} :
    accepts operand word = false ↔ operand = .settings ∧ word.toList.head? = some '-' := by
  simp [accepts]

/-! The words in front of a word of letters. -/

/-- A command line that goes on with a hyphen, or not at all. -/
def GoesOn (tail : List String) : Prop :=
  ∀ word ∈ tail.head?, word.toList.head? = some '-'

/-- A word that begins with a hyphen is not taken for the path of a settings file. -/
theorem readBehind_skip {rest : List String} (h : GoesOn rest) (o : Options) :
    readBehind rest (.ok (o, some .settings)) = readWords { o with source := .skip } rest := by
  cases rest with
  | nil => rfl
  | cons next after =>
    have hrefused : accepts .settings next = false := accepts_eq_false_iff.mpr ⟨rfl, h next rfl⟩
    rw [readBehind, hrefused]
    rfl

/-- Words that are read apart from what follows them: they change the options with which that is
read, and what comes of it is finished in a way that depends on these words only. -/
def ReadsApart (before : List String) : Prop :=
  ∃ (change : Options → Options)
    (finish : Except OptionFault (Options × List String) →
      Except OptionFault (Options × List String)),
    ∀ o tail, GoesOn tail → readWords o (before ++ tail) = finish (readWords (change o) tail)

variable {front : String} {before : List String}

theorem readsApart_nil : ReadsApart [] :=
  ⟨id, id, fun _ _ _ => rfl⟩

theorem readsApart_other (hw : isOptionWord front = false) (h : ReadsApart before) :
    ReadsApart (front :: before) := by
  obtain ⟨change, finish, hread⟩ := h
  refine ⟨change, fun result => (finish result).map fun read => (read.1, front :: read.2),
    fun o tail htail => ?_⟩
  have hne : front ≠ "--" := by
    rintro rfl
    exact absurd hw (by decide)
  rw [List.cons_append, readWords, if_neg hne, hw, hread o tail htail]
  rfl

/-- Behind a letter that is unknown, nothing is read. -/
theorem readsApart_fault {fault : OptionFault} (hw : isOptionWord front = true)
    (hne : front ≠ "--") (hread : ∀ o, readLetters o (front.toList.drop 1) = .error fault)
    (before : List String) : ReadsApart (front :: before) := by
  refine ⟨id, fun _ => .error fault, fun o tail _ => ?_⟩
  rw [List.cons_append, readWords_eq_readBehind hw hne, hread]
  rfl

/-- Letters, and whatever is read behind them. -/
theorem readsApart_of_readBehind {words : List String} (change : Options → Options)
    (hw : isOptionWord front = true) (hne : front ≠ "--") (h : ReadsApart before)
    (hread : ∀ o tail, GoesOn tail →
      readBehind (words ++ tail) (readLetters o (front.toList.drop 1)) =
        readWords (change o) (before ++ tail)) : ReadsApart (front :: words) := by
  obtain ⟨change', finish, happart⟩ := h
  refine ⟨fun o => change' (change o), finish, fun o tail htail => ?_⟩
  rw [List.cons_append, readWords_eq_readBehind hw hne, hread o tail htail,
    happart (change o) tail htail]

/-- The ways from the first word to one behind it that is read as letters, or not at all: the first
word is no option, is faulty, wants nothing, takes the next word, or does without. -/
theorem roles_succ_cases {rest : List String} {j : Nat} {role : Role}
    (hrole : role = .letters ∨ role = .unread)
    (h : (roles (front :: rest))[j + 1]? = some role) :
    isOptionWord front = false ∧ (roles rest)[j]? = some role ∨
      isOptionWord front = true ∧ front ≠ "--" ∧
        ((∃ fault, ∀ o, readLetters o (front.toList.drop 1) = .error fault) ∨
          ∃ change : Options → Options,
            (∀ o, readLetters o (front.toList.drop 1) = .ok (change o, none)) ∧
                (roles rest)[j]? = some role ∨
              (∃ operand next after k,
                (∀ o, readLetters o (front.toList.drop 1) = .ok (change o, some operand)) ∧
                  rest = next :: after ∧ j = k + 1 ∧ accepts operand next = true ∧
                  (roles after)[k]? = some role) ∨
              (∀ o, readLetters o (front.toList.drop 1) = .ok (change o, some .settings)) ∧
                GoesOn rest ∧ (roles rest)[j]? = some role) := by
  rw [roles] at h
  by_cases hseparator : front = "--"
  · rw [if_pos hseparator, List.getElem?_cons_succ, List.getElem?_map] at h
    obtain ⟨_, _, rfl⟩ := Option.map_eq_some_iff.mp h
    rcases hrole with hrole | hrole <;> cases hrole
  rw [if_neg hseparator] at h
  cases hoption : isOptionWord front with
  | false =>
    rw [hoption, if_pos (by decide), List.getElem?_cons_succ] at h
    exact Or.inl ⟨rfl, h⟩
  | true =>
    rw [hoption, if_neg (by decide), List.getElem?_cons_succ] at h
    refine Or.inr ⟨rfl, hseparator, ?_⟩
    rcases readAlike (front.toList.drop 1) with hfault | ⟨change, _ | operand, hread⟩
    · exact Or.inl hfault
    · rw [hread] at h
      exact Or.inr ⟨change, Or.inl ⟨hread, h⟩⟩
    · rw [hread] at h
      refine Or.inr ⟨change, Or.inr ?_⟩
      cases rest with
      | nil => cases h
      | cons next after =>
        dsimp only at h
        cases haccepts : accepts operand next with
        | true =>
          rw [haccepts, if_pos rfl] at h
          cases j with
          | zero =>
            cases h
            rcases hrole with hrole | hrole <;> cases hrole
          | succ k => exact Or.inl ⟨operand, next, after, k, hread, rfl, rfl, haccepts, h⟩
        | false =>
          rw [haccepts, if_neg Bool.false_ne_true] at h
          obtain ⟨rfl, hhyphen⟩ := accepts_eq_false_iff.mp haccepts
          refine Or.inr ⟨hread, ?_, h⟩
          rintro word ⟨⟩
          exact hhyphen

theorem GoesOn.take_append {words tail : List String} (hw : GoesOn words) (ht : GoesOn tail)
    (n : Nat) : GoesOn (words.take n ++ tail) := by
  cases n with
  | zero => exact ht
  | succ n =>
    cases words with
    | nil => exact ht
    | cons word words => exact hw

/-- The words in front of one that is read as letters, or not at all, are read apart from it. -/
theorem readsApart_take {words : List String} {i : Nat} {role : Role}
    (hrole : role = .letters ∨ role = .unread) (h : (roles words)[i]? = some role) :
    ReadsApart (words.take i) := by
  -- An operand is read together with its option, so the induction is on the number of words.
  induction hn : words.length using Nat.strongRecOn generalizing words i with
  | ind n ih =>
    cases words with
    | nil => cases h
    | cons front rest =>
      cases i with
      | zero => exact readsApart_nil
      | succ j =>
        rw [List.length_cons] at hn
        have hrest (hlater : (roles rest)[j]? = some role) : ReadsApart (rest.take j) :=
          ih rest.length (by omega) hlater rfl
        rw [List.take_succ_cons]
        rcases roles_succ_cases hrole h with ⟨hother, hlater⟩ | ⟨hw, hne, ⟨fault, hfault⟩ |
          ⟨change, ⟨hread, hlater⟩ | ⟨operand, next, after, k, hread, rfl, rfl, haccepts, hlater⟩ |
          ⟨hread, hgoes, hlater⟩⟩⟩
        · exact readsApart_other hother (hrest hlater)
        · exact readsApart_fault hw hne hfault (rest.take j)
        · apply readsApart_of_readBehind change hw hne (hrest hlater)
          intro o tail _
          rw [hread]
          rfl
        · rw [List.length_cons] at hn
          rw [List.take_succ_cons]
          have hafter : ReadsApart (after.take k) := ih after.length (by omega) hlater rfl
          apply readsApart_of_readBehind (fun o => (change o).supply next operand) hw hne hafter
          intro o tail _
          rw [hread, List.cons_append, readBehind, if_pos haccepts]
        · apply readsApart_of_readBehind (fun o => { change o with source := .skip }) hw hne
            (hrest hlater)
          intro o tail htail
          rw [hread, readBehind_skip (hgoes.take_append htail j)]

theorem Respelled.hyphens {first second : String} (h : Respelled word first second) :
    word.toList.head? = some '-' ∧ first.toList.head? = some '-' := by
  cases h <;> simp

/-- Wherever a word is read as letters, another spelling of it makes no difference to the options,
nor to what is wrong with the command line. The same is true where a letter before it is unknown, so
that it is not read. -/
theorem spelling_of_options_does_not_matter {words : List String} {i : Nat}
    {first second : String}
    (hrole : (roles words)[i]? = some .letters ∨ (roles words)[i]? = some .unread)
    (hword : words[i]? = some word) (h : Respelled word first second) :
    parse (words.take i ++ first :: second :: words.drop (i + 1)) = parse words := by
  have hapart : ReadsApart (words.take i) := by
    rcases hrole with hletters | hunread
    · exact readsApart_take (Or.inl rfl) hletters
    · exact readsApart_take (Or.inr rfl) hunread
  obtain ⟨change, finish, hread⟩ := hapart
  obtain ⟨hhyphen, hfirst⟩ := h.hyphens
  have hgoes {next : String} (hnext : next.toList.head? = some '-') (after : List String) :
      GoesOn (next :: after) := by
    rintro _ ⟨⟩
    exact hnext
  have hwords : words = words.take i ++ word :: words.drop (i + 1) := by
    obtain ⟨hi, hget⟩ := List.getElem?_eq_some_iff.mp hword
    rw [← hget, ← List.drop_eq_getElem_cons hi, List.take_append_drop]
  have hsame : readWords {} (words.take i ++ first :: second :: words.drop (i + 1)) =
      readWords {} words := by
    calc readWords {} (words.take i ++ first :: second :: words.drop (i + 1))
        = finish (readWords (change {}) (word :: words.drop (i + 1))) := by
          rw [hread _ _ (hgoes hfirst _), ← h.readWords_eq]
      _ = readWords {} (words.take i ++ word :: words.drop (i + 1)) :=
          (hread _ _ (hgoes hhyphen _)).symm
      _ = readWords {} words := by rw [← hwords]
  rw [parse, hsame, parse]

/-- The letter `c` takes the word behind its own, which would end the options otherwise, and the
letter `f` before it takes none. -/
theorem letters_are_split_before_an_operand :
    let words := ["-f", "-dc", "--", "a", "-l--"]
    roles words = [.letters, .letters, .operand, .other, .letters] ∧
      Respelled "-dc" "-d" "-c" ∧
      parse ["-f", "-d", "-c", "--", "a", "-l--"] = parse words ∧
      parse words = .ok
        { source := .skip, command := some "--", logFile := some "--", debug := true
          script := some "a" } := by
  intro words
  have hroles : roles words = [.letters, .letters, .operand, .other, .letters] := by
    decide +kernel
  have hspelled : Respelled "-dc" "-d" "-c" := by
    have hc : "c".toList.head? ≠ some '-' := by decide
    exact Respelled.debug (by decide) hc
  have hrole : (roles words)[1]? = some .letters := by
    rw [hroles]
    rfl
  exact ⟨hroles, hspelled, spelling_of_options_does_not_matter (Or.inl hrole) rfl hspelled,
    by decide +kernel⟩

end Options

end LineScript
