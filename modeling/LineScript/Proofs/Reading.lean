import LineScript.Statement.Reader
import Mathlib.Tactic

/-! What the reading of a line says about its statement: a statement that has a keyword is read
alike whatever names are strings, and the step of a loop is positive. -/

namespace LineScript

namespace Statement

/-- The keyword that a statement is written with. -/
def keyword? : Statement → Option Keyword
  | declareInt _ _ => some .int
  | declareString _ _ => some .string
  | declareMutable _ _ => some .mutableInt
  | assign _ _ | assignString _ _ => none
  | printVar _ _ => some .printVar
  | printText _ _ => some .printText
  | ifHeader _ => some .ifHeader
  | forHeader _ => some .forHeader
  | macroHeader _ => some (.name .macroHeader)
  | call _ => some (.name .call)
  | label _ => some (.name .label)
  | goto _ => some (.name .goto)
  | comment => some .comment
  | endBlock kind => some (.endBlock kind)

/-- Whether a line jumps to a label. -/
def jumps (line : String) : Bool :=
  match read (fun _ => false) line with
  | .ok (goto _) => true
  | _ => false

/-- Whether a line declares a label. -/
def declares (line : String) : Bool :=
  match read (fun _ => false) line with
  | .ok (label _) => true
  | _ => false

/-- Whether a line calls a macro. -/
def calls (line : String) : Bool :=
  match read (fun _ => false) line with
  | .ok (call _) => true
  | _ => false

/-- The kind of block that a line opens. -/
def opened? (line : String) : Option BlockKind :=
  match read (fun _ => false) line with
  | .ok statement => statement.opens?
  | .error _ => none

/-- Without a keyword, a line changes a variable or is a comment. -/
theorem keyword?_of_leadingKeyword?_eq_none {isString : String → Bool} {line : String}
    {statement : Statement} (hk : leadingKeyword? line = none)
    (h : read isString line = .ok statement) :
    statement.keyword? = none ∨ statement = comment := by
  unfold read at h
  split at h
  · cases h
    exact Or.inr rfl
  · rw [hk] at h
    dsimp only at h
    split at h
    · unfold readStringAssignment at h
      split at h
      · split at h <;> cases h
        exact Or.inl rfl
      · cases h
    · split at h <;> cases h
      · exact Or.inr rfl
      · exact Or.inl rfl

/-- Which names are strings matters only to lines without a keyword. -/
theorem read_eq_of_keyword? {isString : String → Bool} {line : String} {statement : Statement}
    {keyword : Keyword} (hs : statement.keyword? = some keyword) (hc : keyword ≠ .comment)
    (h : read isString line = .ok statement) (other : String → Bool) :
    read other line = .ok statement := by
  cases hk : leadingKeyword? line with
  | none =>
    rcases keyword?_of_leadingKeyword?_eq_none hk h with hn | rfl
    · rw [hn] at hs
      contradiction
    · exact absurd (Option.some.inj hs).symm hc
  | some keyword =>
    have hread : read other line = read isString line := by
      simp only [read, hk]
    rw [hread, h]

theorem jumps_of_read {isString : String → Bool} {line name : String}
    (h : read isString line = .ok (goto name)) : jumps line = true := by
  have hr := read_eq_of_keyword? rfl (by decide) h fun _ => false
  simp only [jumps, hr]

theorem declares_of_read {isString : String → Bool} {line name : String}
    (h : read isString line = .ok (label name)) : declares line = true := by
  have hr := read_eq_of_keyword? rfl (by decide) h fun _ => false
  simp only [declares, hr]

theorem calls_of_read {isString : String → Bool} {line name : String}
    (h : read isString line = .ok (call name)) : calls line = true := by
  have hr := read_eq_of_keyword? rfl (by decide) h fun _ => false
  simp only [calls, hr]

/-- Headers of blocks have keywords. -/
theorem read_eq_of_opens? {isString : String → Bool} {line : String} {statement : Statement}
    {kind : BlockKind} (hk : statement.opens? = some kind)
    (h : read isString line = .ok statement) (other : String → Bool) :
    read other line = .ok statement := by
  cases statement with
  | ifHeader condition => exact read_eq_of_keyword? rfl (by decide) h other
  | forHeader header => exact read_eq_of_keyword? rfl (by decide) h other
  | macroHeader name => exact read_eq_of_keyword? rfl (by decide) h other
  | _ => cases hk

theorem opened?_of_read {isString : String → Bool} {line : String} {statement : Statement}
    {kind : BlockKind} (h : read isString line = .ok statement)
    (hk : statement.opens? = some kind) : opened? line = some kind := by
  have hr := read_eq_of_opens? hk h fun _ => false
  simp only [opened?, hr, hk]

/-- A line that can be read opens what its statement opens. -/
theorem opened?_eq_opens? {isString : String → Bool} {line : String} {statement : Statement}
    (h : read isString line = .ok statement) : opened? line = statement.opens? := by
  cases hk : statement.opens? with
  | some kind => exact opened?_of_read h hk
  | none =>
    cases hr : read (fun _ => false) line with
    | error cause => simp only [opened?, hr]
    | ok other =>
      simp only [opened?, hr]
      by_contra hopens
      obtain ⟨kind, hkind⟩ := Option.ne_none_iff_exists'.mp hopens
      have hsame := read_eq_of_opens? hkind hr isString
      obtain rfl : statement = other := Except.ok.inj (h.symm.trans hsame)
      exact hopens hk

end Statement

theorem exists_of_map_eq_ok {ε α β : Type} {f : α → β} {result : Except ε α} {value : β}
    (h : result.map f = .ok value) : ∃ a, result = .ok a ∧ f a = value := by
  cases result with
  | error fault => cases h
  | ok a => exact ⟨a, rfl, Except.ok.inj h⟩

theorem readStep_pos {args : List String} {step : Int64} (h : readStep args = .ok step) :
    0 < step := by
  unfold readStep at h
  split at h
  · cases h
    decide
  · split at h
    · split at h
      · split at h
        · cases h
        · cases h
          exact Int64.not_le.mp ‹_›
      · cases h
    · cases h
  · cases h

theorem readForHeader_pos {args : List String} {statement : Statement}
    (h : readForHeader args = .ok statement) :
    ∃ header : LoopHeader, statement = .forHeader header ∧ 0 < header.step := by
  unfold readForHeader at h
  split at h
  · split at h
    · rename_i more _
      simp only [bind, Except.bind, pure, Except.pure] at h
      split at h
      · cases h
      · split at h
        · cases h
        · split at h
          · cases h
          · cases h
            exact ⟨_, rfl, readStep_pos ‹_›⟩
    · cases h
  · cases h

/-- The words after a keyword are read as a statement of that keyword. -/
theorem keyword?_of_readAfter {line : String} {args : List String} {keyword : Keyword}
    {statement : Statement} (h : readAfter line args keyword = .ok statement) :
    statement.keyword? = some keyword := by
  unfold readAfter at h
  split at h
  · unfold readIntDeclaration at h
    split at h
    · split at h
      · obtain ⟨_, _, rfl⟩ := exists_of_map_eq_ok h
        rfl
      · cases h
    · cases h
  · unfold readPrintVar at h
    split at h <;> cases h
    rfl
  · rename_i keyword
    unfold readName at h
    split at h <;> cases h
    cases keyword <;> rfl
  · unfold readMutableDeclaration at h
    split at h
    · cases h
      rfl
    · split at h
      · obtain ⟨_, _, rfl⟩ := exists_of_map_eq_ok h
        rfl
      · cases h
    · cases h
  · cases h
    rfl
  · unfold readStringDeclaration at h
    split at h
    · split at h
      · split at h <;> cases h
        rfl
      · cases h
    · cases h
  · unfold readPrintText at h
    split at h <;> cases h
    rfl
  · unfold readIfHeader at h
    split at h
    · split at h
      · obtain ⟨_, _, rfl⟩ := exists_of_map_eq_ok h
        rfl
      · cases h
    · cases h
  · obtain ⟨_, rfl, _⟩ := readForHeader_pos h
    rfl
  · cases h
    rfl

/-- A loop that could be read makes progress. -/
theorem read_forHeader_pos {isString : String → Bool} {line : String} {header : LoopHeader}
    (h : Statement.read isString line = .ok (.forHeader header)) : 0 < header.step := by
  cases hk : leadingKeyword? line with
  | none =>
    rcases Statement.keyword?_of_leadingKeyword?_eq_none hk h with hn | hn <;> cases hn
  | some keyword =>
    unfold Statement.read at h
    rw [hk] at h
    split at h
    · cases h
    · have hkeyword := keyword?_of_readAfter h
      obtain rfl : Keyword.forHeader = keyword := Option.some.inj hkeyword
      obtain ⟨_, he, hpos⟩ := readForHeader_pos h
      cases he
      exact hpos

end LineScript
