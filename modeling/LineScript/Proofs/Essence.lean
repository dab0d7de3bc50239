import LineScript.Proofs.Rendering

/-! Lines that do nothing, and what is left of a list of lines without them. The blocks of the
remaining lines are the remaining lines of the blocks, since no terminator is such a line. -/

namespace LineScript

/-- A line that does nothing: it is blank, or a comment that begins in the first column. -/
def isIdle (line : String) : Bool :=
  line.toList.all isBlank || Keyword.comment.letters.isPrefixOf line.toList

/-- The lines that are not idle. -/
def essence (lines : List String) : List String :=
  lines.filter fun line => !isIdle line

/-- The second list is the first one with idle lines put in at any places. -/
inductive Padded : List String → List String → Prop where
  | nil : Padded [] []
  | keep (line : String) {lines padded : List String} (h : Padded lines padded) :
      Padded (line :: lines) (line :: padded)
  | insert {line : String} (hi : isIdle line = true) {lines padded : List String}
      (h : Padded lines padded) : Padded lines (line :: padded)

section Essence

variable {line : String} {lines padded : List String}

theorem essence_cons_of_isIdle (h : isIdle line = true) (rest : List String) :
    essence (line :: rest) = essence rest := by
  simp [essence, h]

theorem essence_cons_of_not_isIdle (h : isIdle line = false) (rest : List String) :
    essence (line :: rest) = line :: essence rest := by
  simp [essence, h]

theorem Padded.essence_eq (h : Padded lines padded) : essence padded = essence lines := by
  induction h with
  | nil => rfl
  | keep line h ih => simp only [essence, List.filter_cons] at ih ⊢; rw [ih]
  | insert hi h ih => rw [essence_cons_of_isIdle hi, ih]

/-- What holds of all lines and of idle ones holds of all lines after padding. -/
theorem Padded.forall_mem {Q : String → Prop} (h : Padded lines padded)
    (hQ : ∀ line ∈ lines, Q line) (hidle : ∀ line, isIdle line = true → Q line) :
    ∀ line ∈ padded, Q line := by
  induction h with
  | nil => exact hQ
  | keep line h ih =>
    intro other hother
    rcases List.mem_cons.mp hother with rfl | hrest
    · exact hQ other List.mem_cons_self
    · exact ih (fun text ht => hQ text (List.mem_cons_of_mem line ht)) other hrest
  | insert hi h ih =>
    intro other hother
    rcases List.mem_cons.mp hother with rfl | hrest
    · exact hidle other hi
    · exact ih hQ other hrest

/-- An idle line is read as a comment, whatever names are strings. -/
theorem read_of_isIdle (h : isIdle line = true) (isString : String → Bool) :
    Statement.read isString line = .ok .comment := by
  rcases Bool.or_eq_true_iff.mp h with hblank | hremark
  · have hwords : words line = [] := by
      rw [words, pieces_eq_nil_of_forall (List.all_eq_true.mp hblank)]
      rfl
    simp only [Statement.read, hwords]
  · have hkeyword : leadingKeyword? line = some .comment := by
      apply leadingKeyword?_of_opens
      rw [Keyword.comment_opens_iff]
      exact List.isPrefixOf_iff_prefix.mp hremark
    unfold Statement.read
    split
    · rfl
    · rw [hkeyword]
      rfl

theorem jumps_of_isIdle (h : isIdle line = true) : Statement.jumps line = false := by
  rw [Statement.jumps, read_of_isIdle h]

theorem isIdle_terminator (kind : BlockKind) : isIdle kind.terminator = false := by
  cases kind <;> decide

/-- The body of a block ends at the same terminator without its idle lines. -/
theorem essence_body (kind : BlockKind) (rest : List String) :
    essence (kind.body rest) = kind.body (essence rest) := by
  induction rest with
  | nil => rfl
  | cons line rest ih =>
    by_cases hend : line = kind.terminator
    · have hbusy : isIdle line = false := hend ▸ isIdle_terminator kind
      rw [essence_cons_of_not_isIdle hbusy]
      simp [BlockKind.body, hend, essence]
    · have hbody (lines : List String) : kind.body (line :: lines) = line :: kind.body lines := by
        simp [BlockKind.body, hend]
      cases hidle : isIdle line with
      | true => rw [hbody, essence_cons_of_isIdle hidle, essence_cons_of_isIdle hidle, ih]
      | false =>
        rw [hbody, essence_cons_of_not_isIdle hidle, essence_cons_of_not_isIdle hidle, hbody, ih]

/-- So do the lines behind the block. -/
theorem essence_drop_block (kind : BlockKind) (rest : List String) :
    essence (rest.drop (blockSpan (kind.body rest) - 1)) =
      (essence rest).drop (blockSpan (kind.body (essence rest)) - 1) := by
  show essence (rest.drop ((kind.body rest).length + 1)) =
    (essence rest).drop ((kind.body (essence rest)).length + 1)
  induction rest with
  | nil => rfl
  | cons line rest ih =>
    by_cases hend : line = kind.terminator
    · have hbusy : isIdle line = false := hend ▸ isIdle_terminator kind
      rw [essence_cons_of_not_isIdle hbusy]
      simp [BlockKind.body, hend]
    · have hbody (lines : List String) : kind.body (line :: lines) = line :: kind.body lines := by
        simp [BlockKind.body, hend]
      cases hidle : isIdle line with
      | true =>
        rw [hbody, essence_cons_of_isIdle hidle, List.length_cons, List.drop_succ_cons, ih]
      | false =>
        rw [hbody, essence_cons_of_not_isIdle hidle, hbody, List.length_cons, List.length_cons,
          List.drop_succ_cons, List.drop_succ_cons, ih]

end Essence

end LineScript
