import LineScript.Proofs.Outcome
import LineScript.Proofs.Rendering

/-! The lines that are statements. Declarations of integers, headers of loops and the statements that
only have a name are read from the words of their forms and from nothing else; a keyword at the
beginning of a line decides which statement it can be; and what a statement takes from its line is a
word or a quoted text. -/

namespace LineScript

/-- At least one digit, and nothing else. -/
def IsDigits (cs : List Char) : Prop :=
  cs ≠ [] ∧ ∀ c ∈ cs, c.isDigit = true

/-- The spellings of an integer: its digits, any number of zeros before them, and perhaps a sign. -/
inductive Numeral : List Char → Int → Prop where
  | plain {digits : List Char} (h : IsDigits digits) : Numeral digits (Nat.ofDigitChars 10 digits 0)
  | plus {digits : List Char} (h : IsDigits digits) :
      Numeral ('+' :: digits) (Nat.ofDigitChars 10 digits 0)
  | minus {digits : List Char} (h : IsDigits digits) :
      Numeral ('-' :: digits) (-(Nat.ofDigitChars 10 digits 0 : Int))

/-- A word that spells an integer of 64 bits. -/
def Spells (word : String) (value : Int64) : Prop :=
  Numeral word.toList value.toInt

theorem isDigit_of_digitsAfter {cs : List Char} {n k : Nat} (h : digitsAfter n cs = some k) :
    ∀ c ∈ cs, c.isDigit = true := by
  induction cs generalizing n with
  | nil => exact fun c hc => absurd hc List.not_mem_nil
  | cons c cs ih =>
    rw [digitsAfter] at h
    split at h
    · exact List.forall_mem_cons.mpr ⟨‹_›, ih h⟩
    · cases h

theorem unsigned?_eq_some_iff {cs : List Char} {n : Nat} :
    unsigned? cs = some n ↔ IsDigits cs ∧ Nat.ofDigitChars 10 cs 0 = n := by
  unfold unsigned?
  split
  · rename_i hnil
    constructor
    · intro h
      cases h
    · intro h
      exact absurd hnil h.1.1
  · rename_i hne
    constructor
    · intro h
      have hdigits := isDigit_of_digitsAfter h
      rw [digitsAfter_eq hdigits] at h
      exact ⟨⟨hne, hdigits⟩, Option.some.inj h⟩
    · rintro ⟨hdigits, rfl⟩
      exact digitsAfter_eq hdigits.2 0

theorem signed?_minus (cs : List Char) :
    signed? ('-' :: cs) = (unsigned? cs).map fun n => -Int.ofNat n := by
  rw [signed?]
  cases unsigned? cs <;> rfl

theorem signed?_eq_some_iff {cs : List Char} {z : Int} : signed? cs = some z ↔ Numeral cs z := by
  constructor
  · intro h
    unfold signed? at h
    split at h
    · rw [← signed?, signed?_minus] at h
      obtain ⟨n, hn, rfl⟩ := Option.map_eq_some_iff.mp h
      obtain ⟨hdigits, rfl⟩ := unsigned?_eq_some_iff.mp hn
      exact .minus hdigits
    · obtain ⟨n, hn, rfl⟩ := Option.map_eq_some_iff.mp h
      unfold natural? at hn
      split at hn
      · obtain ⟨hdigits, rfl⟩ := unsigned?_eq_some_iff.mp hn
        exact .plus hdigits
      · obtain ⟨hdigits, rfl⟩ := unsigned?_eq_some_iff.mp hn
        exact .plain hdigits
  · intro h
    cases h with
    | minus h =>
      rw [signed?_minus, unsigned?_eq_some_iff.mpr ⟨h, rfl⟩]
      rfl
    | plus h =>
      have hnatural := unsigned?_eq_some_iff.mpr ⟨h, rfl⟩
      exact congrArg (Option.map Int.ofNat) hnatural
    | plain h =>
      -- A digit is no sign.
      obtain ⟨c, digits, rfl⟩ := List.exists_cons_of_ne_nil h.1
      have hc : c.isDigit = true := h.2 c List.mem_cons_self
      have hminus : c ≠ '-' := by
        rintro rfl
        contradiction
      have hplus : c ≠ '+' := by
        rintro rfl
        contradiction
      have hnatural := unsigned?_eq_some_iff.mpr ⟨h, rfl⟩
      simp [signed?, natural?, hminus, hplus, hnatural]

theorem checked_eq_some_iff {z : Int} {value : Int64} :
    checked z = some value ↔ z = value.toInt := by
  unfold checked
  constructor
  · intro h
    split at h
    · rename_i hrange
      cases h
      rw [Int64.toInt_minValue, Int64.toInt_maxValue] at hrange
      exact (Int64.toInt_ofInt_of_le hrange.1 (by omega)).symm
    · cases h
  · rintro rfl
    rw [if_pos ⟨Int64.le_toInt value, Int64.toInt_le value⟩, Int64.ofInt_toInt]

theorem readInt?_eq_some_iff {word : String} {value : Int64} :
    readInt? word = some value ↔ Spells word value := by
  rw [readInt?, Option.bind_eq_some_iff, Spells, ← signed?_eq_some_iff]
  constructor
  · rintro ⟨z, hz, hvalue⟩
    rw [hz, checked_eq_some_iff.mp hvalue]
  · intro h
    exact ⟨_, h, checked_eq_some_iff.mpr rfl⟩

namespace Keyword

/-- A line begins with a keyword in its first column, and the keyword ends at a blank or at the end of
the line. -/
def Begins (keyword : Keyword) (line : List Char) : Prop :=
  ∃ rest, line = keyword.letters ++ rest ∧ ∀ c, rest.head? = some c → isBlank c = true

/-- The words of a keyword. -/
def spelling (keyword : Keyword) : List String :=
  (pieces isBlank keyword.letters).map String.ofList

/-- The keywords after which every word of the line has its place. -/
def fixesForm : Keyword → Bool
  | int | mutableInt | name _ | forHeader => true
  | _ => false

variable {keyword : Keyword}

theorem spelling_ne_nil (keyword : Keyword) : keyword.spelling ≠ [] := by
  have hall : ∀ keyword ∈ all, keyword.spelling ≠ [] := by decide +kernel
  exact hall keyword keyword.mem_all

theorem opens_of_begins {line : List Char} (h : keyword.Begins line) : keyword.opens line = true := by
  obtain ⟨rest, rfl, hrest⟩ := h
  have hend : rest.head?.all isBlank = true := by
    cases hhead : rest.head? with
    | none => rfl
    | some c => exact hrest c hhead
  simp [opens, hend]

theorem begins_of_opens {line : List Char} (hc : keyword ≠ comment)
    (h : keyword.opens line = true) : keyword.Begins line := by
  obtain ⟨rest, rfl⟩ := letters_isPrefix_of_opens h
  refine ⟨rest, rfl, fun c hhead => ?_⟩
  simpa [opens, hc, hhead] using h

/-- The words of a line begin with those of its keyword. -/
theorem exists_words_of_begins {line : String} (h : keyword.Begins line.toList) :
    ∃ args, words line = keyword.spelling ++ args := by
  obtain ⟨rest, hline, hrest⟩ := h
  cases rest with
  | nil => exact ⟨[], by rw [words, hline, spelling, List.append_nil, List.append_nil]⟩
  | cons c rest =>
    -- The blank behind the keyword ends its last word.
    refine ⟨(pieces isBlank rest).map String.ofList, ?_⟩
    rw [words, hline, pieces_append_separator (hrest c rfl), List.map_append, spelling]

end Keyword

namespace Statement

variable {isString : String → Bool} {line : String} {keyword : Keyword} {statement : Statement}

/-- The rest of the line alone decides what follows a keyword. -/
theorem read_of_begins (h : keyword.Begins line.toList) (isString : String → Bool) :
    read isString line = readAfter line (words line).tail keyword := by
  obtain ⟨args, hwords⟩ := Keyword.exists_words_of_begins h
  obtain ⟨first, more, hspelling⟩ := List.exists_cons_of_ne_nil keyword.spelling_ne_nil
  rw [hspelling] at hwords
  simp only [read, hwords, leadingKeyword?_of_opens (Keyword.opens_of_begins h), List.cons_append,
    List.tail_cons]

/-- A statement with a keyword is read from a line that begins with it. -/
theorem begins_of_read (h : read isString line = .ok statement)
    (hs : statement.keyword? = some keyword) (hc : keyword ≠ .comment) :
    keyword.Begins line.toList := by
  cases hk : leadingKeyword? line with
  | none =>
    rcases keyword?_of_leadingKeyword?_eq_none hk h with hn | rfl
    · rw [hn] at hs
      cases hs
    · cases hs
      exact absurd rfl hc
  | some found =>
    unfold read at h
    rw [hk] at h
    split at h
    · cases h
      cases hs
      exact absurd rfl hc
    · have hfound := keyword?_of_readAfter h
      obtain rfl : keyword = found := Option.some.inj (hs.symm.trans hfound)
      exact Keyword.begins_of_opens hc (opens_of_leadingKeyword? hk)

end Statement

/-- The spellings of where a loop ends. -/
def Bound.SpelledBy (word : String) : Bound → Prop
  | upTo last => Spells word last
  | unbounded => word = "NaN"

/-- The words for the step of a loop, which is one if there are none. -/
def SpellStep (more : List String) (step : Int64) : Prop :=
  (more = [] ∧ step = 1) ∨ ∃ word, more = ["INCREMENT", word] ∧ Spells word step ∧ 0 < step

namespace Statement

/-- The names in a statement. -/
def names : Statement → List String
  | declareInt name _ | declareString name _ | declareMutable name _ => [name]
  | assign name _ | assignString name _ | printVar name _ => [name]
  | macroHeader name | call name | label name | goto name => [name]
  | ifHeader condition => [condition.name]
  | forHeader header => [header.var]
  | printText _ _ | comment | endBlock _ => []

/-- The texts in a statement. -/
def texts : Statement → List String
  | declareString _ value | assignString _ value => [value]
  | printText text _ => [text]
  | ifHeader ⟨_, _, .text value⟩ => [value]
  | _ => []

end Statement

/-- The form of a statement whose words all have their places. -/
def Statement.Form (line : List String) : Statement → Prop
  | declareInt name value => ∃ word, line = ["INT", name, "=", word] ∧ Spells word value
  | declareMutable name none => line = ["MUTABLE", "INT", name]
  | declareMutable name (some value) =>
    ∃ word, line = ["MUTABLE", "INT", name, "=", word] ∧ Spells word value
  | call name => line = ["CALL", name]
  | goto name => line = ["GOTO", name]
  | label name => line = ["LABEL", name]
  | macroHeader name => line = ["MACRO", name]
  | forHeader header =>
    ∃ first last more, line = "FOR" :: header.var :: "FROM" :: first :: "TO" :: last :: more ∧
      Spells first header.first ∧ header.bound.SpelledBy last ∧ SpellStep more header.step
  | _ => False

theorem readInteger_eq_ok_iff {word : String} {value : Int64} :
    readInteger word = .ok value ↔ Spells word value := by
  rw [← readInt?_eq_some_iff, readInteger]
  cases readInt? word <;> simp

theorem readIntDeclaration_eq_ok_iff {args : List String} {name : String} {value : Int64} :
    readIntDeclaration args = .ok (.declareInt name value) ↔
      ∃ word, args = [name, "=", word] ∧ Spells word value := by
  constructor
  · intro h
    unfold readIntDeclaration at h
    split at h
    · split at h
      · rename_i word hsign
        obtain ⟨n, hn, he⟩ := exists_of_map_eq_ok h
        cases he
        exact ⟨word, by rw [hsign], readInteger_eq_ok_iff.mp hn⟩
      · cases h
    · cases h
  · rintro ⟨word, rfl, hword⟩
    rw [readIntDeclaration, if_pos rfl, readInteger_eq_ok_iff.mpr hword]
    rfl

theorem readMutableDeclaration_eq_ok_iff {args : List String} {name : String}
    {value : Option Int64} :
    readMutableDeclaration args = .ok (.declareMutable name value) ↔
      (value = none ∧ args = [name]) ∨
        ∃ word n, value = some n ∧ args = [name, "=", word] ∧ Spells word n := by
  constructor
  · intro h
    unfold readMutableDeclaration at h
    split at h
    · cases h
      exact Or.inl ⟨rfl, rfl⟩
    · split at h
      · rename_i word hsign
        obtain ⟨n, hn, he⟩ := exists_of_map_eq_ok h
        cases he
        exact Or.inr ⟨word, n, rfl, by rw [hsign], readInteger_eq_ok_iff.mp hn⟩
      · cases h
    · cases h
  · rintro (⟨rfl, rfl⟩ | ⟨word, n, rfl, rfl, hword⟩)
    · rfl
    · rw [readMutableDeclaration, if_pos rfl, readInteger_eq_ok_iff.mpr hword]
      rfl

theorem readName_eq_ok_iff {keyword : NameKeyword} {args : List String} {statement : Statement}
    (hs : statement.keyword? = some (.name keyword)) :
    readName keyword args = .ok statement ↔ args = statement.names := by
  constructor
  · intro h
    unfold readName at h
    split at h
    · cases keyword <;> cases h <;> rfl
    · cases h
  · rintro rfl
    cases statement <;> cases hs <;> rfl

theorem readBound_eq_ok_iff {word : String} {bound : Bound} :
    readBound word = .ok bound ↔ bound.SpelledBy word := by
  unfold readBound
  split
  · rename_i hword
    cases bound with
    | unbounded => exact ⟨fun _ => hword, fun _ => rfl⟩
    | upTo last =>
      -- The word for no bound is no number.
      constructor
      · intro h
        cases h
      · intro h
        have hread := readInt?_eq_some_iff.mpr h
        rw [hword, show readInt? "NaN" = none from rfl] at hread
        cases hread
  · rename_i hword
    cases bound with
    | unbounded =>
      refine ⟨fun h => ?_, fun h => absurd h hword⟩
      obtain ⟨_, _, he⟩ := exists_of_map_eq_ok h
      cases he
    | upTo last =>
      constructor
      · intro h
        obtain ⟨n, hn, he⟩ := exists_of_map_eq_ok h
        cases he
        exact readInteger_eq_ok_iff.mp hn
      · intro h
        rw [readInteger_eq_ok_iff.mpr h]
        rfl

theorem readStep_eq_ok_iff {more : List String} {step : Int64} :
    readStep more = .ok step ↔ SpellStep more step := by
  constructor
  · intro h
    have hpos := readStep_pos h
    unfold readStep at h
    split at h
    · cases h
      exact Or.inl ⟨rfl, rfl⟩
    · split at h
      · rename_i word hkeyword
        split at h
        · rename_i hread
          split at h <;> cases h
          exact Or.inr ⟨word, by rw [hkeyword], readInteger_eq_ok_iff.mp hread, hpos⟩
        · cases h
      · cases h
    · cases h
  · rintro (⟨rfl, rfl⟩ | ⟨word, rfl, hword, hpos⟩)
    · rfl
    · have hnot : ¬ step ≤ 0 := Int64.not_le.mpr hpos
      simp only [readStep, if_pos, readInteger_eq_ok_iff.mpr hword, if_neg hnot]

theorem SpellStep.length {more : List String} {step : Int64} (h : SpellStep more step) :
    more.length = 0 ∨ more.length = 2 := by
  rcases h with ⟨rfl, _⟩ | ⟨word, rfl, _⟩
  · exact Or.inl rfl
  · exact Or.inr rfl

theorem readForHeader_eq_ok_iff {args : List String} {header : LoopHeader} :
    readForHeader args = .ok (.forHeader header) ↔
      ∃ first last more, args = header.var :: "FROM" :: first :: "TO" :: last :: more ∧
        Spells first header.first ∧ header.bound.SpelledBy last ∧ SpellStep more header.step := by
  constructor
  · intro h
    unfold readForHeader at h
    split at h
    · rename_i var fromWord first toWord last more
      split at h
      · rename_i hwords
        obtain ⟨_, rfl, rfl⟩ := hwords
        simp only [bind, Except.bind, pure, Except.pure] at h
        split at h
        · cases h
        · rename_i hfirst
          split at h
          · cases h
          · rename_i hbound
            split at h
            · cases h
            · rename_i hstep
              cases h
              exact ⟨first, last, more, rfl, readInteger_eq_ok_iff.mp hfirst,
                readBound_eq_ok_iff.mp hbound, readStep_eq_ok_iff.mp hstep⟩
      · cases h
    · cases h
  · rintro ⟨first, last, more, rfl, hfirst, hbound, hstep⟩
    simp only [readForHeader, hstep.length, and_self, if_pos, readInteger_eq_ok_iff.mpr hfirst,
      readBound_eq_ok_iff.mpr hbound, readStep_eq_ok_iff.mpr hstep]
    rfl

/-! What a statement takes from its line. -/

theorem cutPiece_forall (isSeparator : Char → Bool) (cs : List Char) :
    (∀ c ∈ (cutPiece isSeparator cs).1, isSeparator c = false) ∧
      ∀ piece ∈ (cutPiece isSeparator cs).2,
        piece ≠ [] ∧ ∀ c ∈ piece, isSeparator c = false := by
  induction cs with
  | nil => exact ⟨fun c hc => absurd hc List.not_mem_nil, fun c hc => absurd hc List.not_mem_nil⟩
  | cons b cs ih =>
    obtain ⟨hpiece, hrest⟩ := ih
    simp only [cutPiece]
    split
    · refine ⟨fun c hc => absurd hc List.not_mem_nil, ?_⟩
      unfold consPiece
      split
      · exact hrest
      · exact List.forall_mem_cons.mpr ⟨⟨‹_›, hpiece⟩, hrest⟩
    · rename_i hb
      exact ⟨List.forall_mem_cons.mpr ⟨Bool.eq_false_of_not_eq_true hb, hpiece⟩, hrest⟩

theorem isWord_of_mem_words {line word : String} (h : word ∈ words line) : IsWord word := by
  obtain ⟨piece, hpiece, rfl⟩ := List.mem_map.mp h
  obtain ⟨hfirst, hrest⟩ := cutPiece_forall isBlank line.toList
  obtain ⟨hne, hletters⟩ : piece ≠ [] ∧ ∀ c ∈ piece, isBlank c = false := by
    unfold pieces consPiece at hpiece
    split at hpiece
    · exact hrest piece hpiece
    · rcases List.mem_cons.mp hpiece with rfl | hmem
      · exact ⟨‹_›, hfirst⟩
      · exact hrest piece hmem
  constructor
  · intro he
    apply hne
    rw [← String.toList_ofList (l := piece), he]
    rfl
  · rw [String.toList_ofList]
    apply List.any_eq_false.mpr
    intro c hc
    rw [hletters c hc]
    exact Bool.false_ne_true

theorem forall_of_cutAt? {p : Char → Bool} {cs front back : List Char}
    (h : cutAt? p cs = some (front, back)) : ∀ c ∈ front, p c = false := by
  induction cs generalizing front with
  | nil => cases h
  | cons b cs ih =>
    rw [cutAt?] at h
    split at h
    · cases h
      exact fun c hc => absurd hc List.not_mem_nil
    · rename_i hb
      obtain ⟨⟨init, rest⟩, hparts, he⟩ := Option.map_eq_some_iff.mp h
      cases he
      exact List.forall_mem_cons.mpr ⟨Bool.eq_false_of_not_eq_true hb, ih hparts⟩

theorem quoteFree_of_quoted? {line text : String} (h : quoted? line = some text) :
    QuoteFree text := by
  obtain ⟨letters, hletters, rfl⟩ := Option.map_eq_some_iff.mp h
  obtain ⟨opened, _, hopened⟩ := Option.bind_eq_some_iff.mp hletters
  obtain ⟨⟨front, back⟩, hcut, rfl⟩ := Option.map_eq_some_iff.mp hopened
  unfold QuoteFree
  rw [String.toList_ofList]
  apply List.any_eq_false.mpr
  intro c hc
  rw [forall_of_cutAt? hcut c hc]
  exact Bool.false_ne_true

theorem mem_of_readPrintVar {args : List String} {name : String} {newline : Bool}
    (h : readPrintVar args = .ok (.printVar name newline)) : name ∈ args := by
  unfold readPrintVar at h
  split at h <;> cases h
  exact List.mem_cons_self

theorem mem_of_readStringDeclaration {line : String} {args : List String} {name value : String}
    (h : readStringDeclaration line args = .ok (.declareString name value)) :
    name ∈ args ∧ quoted? line = some value := by
  unfold readStringDeclaration at h
  split at h
  · split at h
    · split at h <;> cases h
      exact ⟨List.mem_cons_self, ‹_›⟩
    · cases h
  · cases h

theorem quoted?_of_readPrintText {line : String} {args : List String} {text : String}
    {newline : Bool} (h : readPrintText line args = .ok (.printText text newline)) :
    quoted? line = some text := by
  unfold readPrintText at h
  split at h <;> cases h
  exact ‹_›

theorem quoted?_of_readOperand {line word text : String}
    (h : readOperand line word = .ok (.text text)) : quoted? line = some text := by
  unfold readOperand at h
  split at h
  · cases h
  · split at h <;> cases h
    exact ‹_›

theorem mem_of_readIfHeader {line : String} {args : List String} {condition : Condition}
    (h : readIfHeader line args = .ok (.ifHeader condition)) :
    condition.name ∈ args ∧
      ∀ text, condition.operand = .text text → quoted? line = some text := by
  unfold readIfHeader at h
  split at h
  · split at h
    · obtain ⟨operand, hoperand, he⟩ := exists_of_map_eq_ok h
      cases he
      refine ⟨List.mem_cons_self, ?_⟩
      rintro text rfl
      exact quoted?_of_readOperand hoperand
    · cases h
  · cases h

namespace Statement

variable {isString : String → Bool} {line : String} {keyword : Keyword} {statement : Statement}

theorem mem_of_readName {word : NameKeyword} {args : List String}
    (hs : statement.keyword? = some (.name word)) (h : readName word args = .ok statement) :
    (∀ name ∈ statement.names, name ∈ args) ∧
      ∀ text ∈ statement.texts, quoted? line = some text := by
  have htexts : statement.texts = [] := by
    cases statement <;> cases hs <;> rfl
  rw [(readName_eq_ok_iff hs).mp h, htexts]
  exact ⟨fun name hname => hname, fun text htext => absurd htext List.not_mem_nil⟩

/-- What follows a keyword is taken from the words and the quoted text after it. -/
theorem mem_of_readAfter {args : List String} (h : readAfter line args keyword = .ok statement) :
    (∀ name ∈ statement.names, name ∈ args) ∧
      ∀ text ∈ statement.texts, quoted? line = some text := by
  have hs := keyword?_of_readAfter h
  cases statement with
  | declareInt name value =>
    cases hs
    obtain ⟨word, rfl, _⟩ := readIntDeclaration_eq_ok_iff.mp h
    simp [names, texts]
  | declareString name value =>
    cases hs
    simpa [names, texts] using mem_of_readStringDeclaration h
  | declareMutable name value =>
    cases hs
    have hname : name ∈ args.drop 1 := by
      rcases readMutableDeclaration_eq_ok_iff.mp h with ⟨_, hargs⟩ | ⟨_, _, _, hargs, _⟩ <;>
        rw [hargs] <;> exact List.mem_cons_self
    simpa [names, texts] using List.mem_of_mem_drop hname
  | assign name args => cases hs
  | assignString name value => cases hs
  | printVar name newline =>
    cases hs
    simpa [names, texts] using mem_of_readPrintVar h
  | printText text newline =>
    cases hs
    simpa [names, texts] using quoted?_of_readPrintText h
  | ifHeader condition =>
    cases hs
    obtain ⟨hname, htext⟩ := mem_of_readIfHeader h
    obtain ⟨name, op, operand⟩ := condition
    cases operand with
    | int value => simpa [names, texts] using hname
    | text value => simpa [names, texts] using ⟨hname, htext value rfl⟩
  | forHeader header =>
    cases hs
    obtain ⟨first, last, more, rfl, _⟩ := readForHeader_eq_ok_iff.mp h
    simp [names, texts]
  | macroHeader name =>
    cases hs
    exact mem_of_readName rfl h
  | call name =>
    cases hs
    exact mem_of_readName rfl h
  | label name =>
    cases hs
    exact mem_of_readName rfl h
  | goto name =>
    cases hs
    exact mem_of_readName rfl h
  | comment => simp [names, texts]
  | endBlock kind => simp [names, texts]

theorem mem_of_read (h : read isString line = .ok statement) :
    (∀ name ∈ statement.names, name ∈ words line) ∧
      ∀ text ∈ statement.texts, quoted? line = some text := by
  unfold read at h
  split at h
  · cases h
    simp [names, texts]
  · rename_i first args hwords
    rw [hwords]
    split at h
    · obtain ⟨hnames, htexts⟩ := mem_of_readAfter h
      exact ⟨fun name hname => List.mem_cons_of_mem first (hnames name hname), htexts⟩
    · split at h
      · unfold readStringAssignment at h
        split at h
        · split at h <;> cases h
          simp_all [names, texts]
        · cases h
      · split at h <;> cases h <;> simp [names, texts]

/-- After a keyword that fixes the form, a line is a statement if its words have that form. -/
theorem read_eq_ok_iff_form (hb : keyword.Begins line.toList)
    (hs : statement.keyword? = some keyword) (hf : keyword.fixesForm = true) :
    read isString line = .ok statement ↔ statement.Form (words line) := by
  rw [read_of_begins hb]
  obtain ⟨args, hwords⟩ := Keyword.exists_words_of_begins hb
  rw [hwords]
  have hname {word : NameKeyword} (hn : statement.keyword? = some (.name word)) (text : String) :
      readName word args = .ok statement ↔ text :: args = text :: statement.names := by
    rw [readName_eq_ok_iff hn, List.cons.injEq]
    exact (and_iff_right rfl).symm
  cases statement with
  | declareInt name value =>
    cases hs
    change readIntDeclaration args = _ ↔
      ∃ word, "INT" :: args = ["INT", name, "=", word] ∧ Spells word value
    simp only [readIntDeclaration_eq_ok_iff, List.cons.injEq, true_and]
  | declareMutable name value =>
    cases hs
    change readMutableDeclaration args = _ ↔ Form ("MUTABLE" :: "INT" :: args) _
    rw [readMutableDeclaration_eq_ok_iff]
    cases value <;> simp [Form]
  | forHeader header =>
    cases hs
    change readForHeader args = _ ↔ Form ("FOR" :: args) _
    simp only [readForHeader_eq_ok_iff, Form, List.cons.injEq, true_and]
  | macroHeader name =>
    cases hs
    exact hname rfl "MACRO"
  | call name =>
    cases hs
    exact hname rfl "CALL"
  | label name =>
    cases hs
    exact hname rfl "LABEL"
  | goto name =>
    cases hs
    exact hname rfl "GOTO"
  | assign name args => cases hs
  | assignString name value => cases hs
  | _ =>
    cases hs
    cases hf

end Statement

/-- The faults of syntax that are found in the line alone, before it is executed. -/
def SyntaxFault.isOfLine : SyntaxFault → Bool
  | intForm | mutableForm | stringForm | ifForm | forForm | printVarForm | nameForm _ => true
  | missingEquals | notInteger _ | stepNotPositive | unknownOperator => true
  | unquotedString | unquotedPrint | unquotedOperand | unquotedAssignment => true
  | _ => false

theorem eq_error_of_map {ε α β : Type} {f : α → β} {result : Except ε α} {fault : ε}
    (h : result.map f = .error fault) : result = .error fault := by
  cases result with
  | error other => exact congrArg Except.error (Except.error.inj h)
  | ok value => cases h

theorem isOfLine_of_readInteger {word : String} {cause : SyntaxFault}
    (h : readInteger word = .error cause) : cause.isOfLine = true := by
  unfold readInteger at h
  split at h <;> cases h
  rfl

theorem isOfLine_of_readOperand {line word : String} {cause : SyntaxFault}
    (h : readOperand line word = .error cause) : cause.isOfLine = true := by
  unfold readOperand at h
  split at h
  · cases h
  · split at h <;> cases h
    rfl

theorem isOfLine_of_readBound {word : String} {cause : SyntaxFault}
    (h : readBound word = .error cause) : cause.isOfLine = true := by
  unfold readBound at h
  split at h
  · cases h
  · exact isOfLine_of_readInteger (eq_error_of_map h)

theorem isOfLine_of_readStep {more : List String} {cause : SyntaxFault}
    (h : readStep more = .error cause) : cause.isOfLine = true := by
  unfold readStep at h
  split at h
  · cases h
  · split at h
    · split at h
      · split at h <;> cases h
        rfl
      · cases h
        exact isOfLine_of_readInteger ‹_›
    · cases h
      rfl
  · cases h
    rfl

theorem isOfLine_of_readForHeader {args : List String} {cause : SyntaxFault}
    (h : readForHeader args = .error cause) : cause.isOfLine = true := by
  unfold readForHeader at h
  split at h
  · split at h
    · simp only [bind, Except.bind, pure, Except.pure] at h
      split at h
      · cases h
        exact isOfLine_of_readInteger ‹_›
      · split at h
        · cases h
          exact isOfLine_of_readBound ‹_›
        · split at h <;> cases h
          exact isOfLine_of_readStep ‹_›
    · cases h
      rfl
  · cases h
    rfl

theorem isOfLine_of_readAfter {line : String} {args : List String} {keyword : Keyword}
    {cause : SyntaxFault} (h : readAfter line args keyword = .error cause) :
    cause.isOfLine = true := by
  unfold readAfter at h
  split at h
  · unfold readIntDeclaration at h
    split at h
    · split at h
      · exact isOfLine_of_readInteger (eq_error_of_map h)
      · cases h
        rfl
    · cases h
      rfl
  · unfold readPrintVar at h
    split at h <;> cases h
    rfl
  · unfold readName at h
    split at h <;> cases h
    rfl
  · unfold readMutableDeclaration at h
    split at h
    · cases h
    · split at h
      · exact isOfLine_of_readInteger (eq_error_of_map h)
      · cases h
        rfl
    · cases h
      rfl
  · cases h
  · unfold readStringDeclaration at h
    split at h
    · split at h
      · split at h <;> cases h
        rfl
      · cases h
        rfl
    · cases h
      rfl
  · unfold readPrintText at h
    split at h <;> cases h
    rfl
  · unfold readIfHeader at h
    split at h
    · split at h
      · exact isOfLine_of_readOperand (eq_error_of_map h)
      · cases h
        rfl
    · cases h
      rfl
  · exact isOfLine_of_readForHeader h
  · cases h

namespace Statement

theorem isOfLine_of_read {isString : String → Bool} {line : String} {cause : SyntaxFault}
    (h : read isString line = .error cause) : cause.isOfLine = true := by
  unfold read at h
  split at h
  · cases h
  · split at h
    · exact isOfLine_of_readAfter h
    · split at h
      · unfold readStringAssignment at h
        split at h
        · split at h <;> cases h
          rfl
        · cases h
          rfl
      · split at h <;> cases h

/-- A keyword that fixes the form is read from lines that begin with it and have the words of the form,
and from no others. Any keyword at the beginning of a line makes it a statement of that keyword or a
fault, whatever names are strings. All faults are those of syntax that a line can have by itself. The
names of a statement are words, and its texts have no quotation marks. -/
theorem lines_are_read_by_their_forms (isString : String → Bool) (line : String) :
    (∀ statement keyword, statement.keyword? = some keyword → keyword.fixesForm = true →
      (read isString line = .ok statement ↔
        keyword.Begins line.toList ∧ statement.Form (words line))) ∧
    (∀ keyword : Keyword, keyword.Begins line.toList →
      ((∃ statement, read isString line = .ok statement ∧ statement.keyword? = some keyword ∧
          (∀ name args, statement ≠ assign name args) ∧
          ∀ name value, statement ≠ assignString name value) ∨
        ∃ cause, read isString line = .error cause) ∧
      ∀ other, read other line = read isString line) ∧
    (∀ cause, read isString line = .error cause →
      cause.isOfLine = true ∧
      ∀ (m : Machine) scope rest, m.vars.isString scope = isString →
        Machine.start scope line rest m = .error (.malformed cause) m) ∧
    ∀ statement, read isString line = .ok statement →
      (∀ name ∈ statement.names, IsWord name) ∧ ∀ text ∈ statement.texts, QuoteFree text := by
  refine ⟨?_, ?_, ?_, ?_⟩
  · intro statement keyword hs hf
    constructor
    · intro h
      have hc : keyword ≠ .comment := by
        rintro rfl
        cases hf
      have hb := begins_of_read h hs hc
      exact ⟨hb, (read_eq_ok_iff_form hb hs hf).mp h⟩
    · rintro ⟨hb, hform⟩
      exact (read_eq_ok_iff_form hb hs hf).mpr hform
  · intro keyword hb
    refine ⟨?_, fun other => (read_of_begins hb other).trans (read_of_begins hb isString).symm⟩
    cases h : read isString line with
    | error cause => exact Or.inr ⟨cause, rfl⟩
    | ok statement =>
      rw [read_of_begins hb] at h
      have hs := keyword?_of_readAfter h
      refine Or.inl ⟨statement, rfl, hs, ?_, ?_⟩
      · rintro name args rfl
        cases hs
      · rintro name value rfl
        cases hs
  · intro cause h
    refine ⟨isOfLine_of_read h, ?_⟩
    rintro m scope rest rfl
    exact Machine.start_of_unreadable rest h
  · intro statement h
    obtain ⟨hnames, htexts⟩ := mem_of_read h
    exact ⟨fun name hname => isWord_of_mem_words (hnames name hname),
      fun text htext => quoteFree_of_quoted? (htexts text htext)⟩

/-- Signs, zeros and any blanks may stand in the header of a loop, but nothing may stand before a
keyword: the second line changes a variable with the name `INT`. -/
theorem loop_is_read_and_indented_declaration_is_not :
    read (fun _ => true) "FOR\t i FROM +01 TO NaN  INCREMENT 002" =
        .ok (forHeader ⟨"i", 1, .unbounded, 2⟩) ∧
      read (fun _ => false) " INT x = 1" = .ok (assign "INT" ["x", "=", "1"]) ∧
      read (fun _ => false) " INT x = 1" ≠ .ok (declareInt "x" 1) := by
  have hbegins : Keyword.forHeader.Begins "FOR\t i FROM +01 TO NaN  INCREMENT 002".toList :=
    Keyword.begins_of_opens (by decide) (by decide +kernel)
  have hwords : words "FOR\t i FROM +01 TO NaN  INCREMENT 002" =
      ["FOR", "i", "FROM", "+01", "TO", "NaN", "INCREMENT", "002"] := by decide +kernel
  have hform : (forHeader ⟨"i", 1, .unbounded, 2⟩).Form
      (words "FOR\t i FROM +01 TO NaN  INCREMENT 002") := by
    rw [hwords]
    refine ⟨"+01", "NaN", ["INCREMENT", "002"], rfl, ?_, rfl, Or.inr ⟨"002", rfl, ?_, by decide⟩⟩
    · exact readInt?_eq_some_iff.mp rfl
    · exact readInt?_eq_some_iff.mp rfl
  obtain ⟨hloop, _⟩ :=
    lines_are_read_by_their_forms (fun _ => true) "FOR\t i FROM +01 TO NaN  INCREMENT 002"
  obtain ⟨hindented, _⟩ := lines_are_read_by_their_forms (fun _ => false) " INT x = 1"
  refine ⟨(hloop _ .forHeader rfl rfl).mpr ⟨hbegins, hform⟩, by decide +kernel, ?_⟩
  intro hread
  obtain ⟨hint, _⟩ := (hindented _ .int rfl rfl).mp hread
  have hopens := Keyword.opens_of_begins hint
  revert hopens
  decide +kernel

end Statement

end LineScript
