import LineScript.Proofs.Reading
import LineScript.Proofs.Words

/-! Reading a rendered statement gives the statement back. -/

namespace LineScript

namespace Keyword

theorem mem_all (keyword : Keyword) : keyword ∈ all := by
  cases keyword with
  | name word => cases word <;> decide
  | endBlock kind => cases kind <;> decide
  | _ => decide

theorem letters_isPrefix_of_opens {keyword : Keyword} {line : List Char}
    (h : keyword.opens line = true) : keyword.letters <+: line := by
  unfold opens at h
  rw [Bool.and_eq_true] at h
  exact List.isPrefixOf_iff_prefix.mp h.1

/-- No two keywords open one line. -/
theorem eq_of_opens {first second : Keyword} {line : List Char} (h₁ : first.opens line = true)
    (h₂ : second.opens line = true) : first = second := by
  have hseparate : ∀ a ∈ all, ∀ b ∈ all, a.letters <+: b.letters → a = b := by decide
  have hone := List.prefix_or_prefix_of_prefix (letters_isPrefix_of_opens h₁)
    (letters_isPrefix_of_opens h₂)
  rcases hone with h | h
  · exact hseparate first (mem_all first) second (mem_all second) h
  · exact (hseparate second (mem_all second) first (mem_all first) h).symm

end Keyword

theorem opens_of_leadingKeyword? {line : String} {keyword : Keyword}
    (h : leadingKeyword? line = some keyword) : keyword.opens line.toList = true := by
  unfold leadingKeyword? at h
  have hopens := List.find?_some h
  exact hopens

theorem leadingKeyword?_eq_none_iff {line : String} :
    leadingKeyword? line = none ↔ ∀ keyword : Keyword, keyword.opens line.toList = false := by
  simp only [leadingKeyword?, List.find?_eq_none, Bool.not_eq_true]
  exact ⟨fun h keyword => h keyword keyword.mem_all, fun h keyword _ => h keyword⟩

theorem leadingKeyword?_of_opens {line : String} {keyword : Keyword}
    (h : keyword.opens line.toList = true) : leadingKeyword? line = some keyword := by
  cases hfind : leadingKeyword? line with
  | none =>
    rw [leadingKeyword?_eq_none_iff.mp hfind keyword] at h
    contradiction
  | some found => rw [Keyword.eq_of_opens (opens_of_leadingKeyword? hfind) h]

/-- A keyword that is followed by a space opens the line. -/
theorem leadingKeyword?_append {keyword : Keyword} {front : String}
    (h : front.toList = keyword.letters ++ [' ']) (back : String) :
    leadingKeyword? (front ++ back) = some keyword := by
  have hspace : isBlank ' ' = true := by decide
  apply leadingKeyword?_of_opens
  rw [String.toList_append, h, List.append_assoc]
  simp [Keyword.opens, hspace]

theorem Keyword.comment_opens_iff {line : List Char} :
    comment.opens line = true ↔ comment.letters <+: line := by
  unfold opens
  rw [Bool.and_eq_true, List.isPrefixOf_iff_prefix]
  exact and_iff_left rfl

theorem leadingKeyword?_of_comment (text : String) :
    leadingKeyword? ("//" ++ text) = some .comment := by
  apply leadingKeyword?_of_opens
  rw [Keyword.comment_opens_iff, String.toList_append]
  exact List.prefix_append _ _

/-- A line without a keyword is no comment. -/
theorem not_isPrefix_of_leadingKeyword?_eq_none {line : String} (h : leadingKeyword? line = none) :
    ¬ Keyword.comment.letters <+: line.toList := by
  rw [← Keyword.comment_opens_iff, Bool.not_eq_true]
  exact leadingKeyword?_eq_none_iff.mp h .comment

theorem readInteger_toString (n : Int64) : readInteger (toString n) = .ok n := by
  rw [readInteger, readInt?_toString]

theorem Bound.isWord_render (bound : Bound) : IsWord bound.render := by
  cases bound with
  | upTo last => exact isWord_toString last
  | unbounded => decide

theorem readBound_render (bound : Bound) : readBound bound.render = .ok bound := by
  cases bound with
  | unbounded => rfl
  | upTo last =>
    have hne : toString last ≠ "NaN" := by
      intro he
      have hread := readInt?_toString last
      rw [he, show readInt? "NaN" = none from rfl] at hread
      contradiction
    rw [Bound.render, readBound, if_neg hne, readInteger_toString]
    rfl

theorem readStep_toString {step : Int64} (h : 0 < step) :
    readStep ["INCREMENT", toString step] = .ok step := by
  have hpos : ¬ step ≤ 0 := Int64.not_le.mpr h
  simp only [readStep, if_pos, readInteger_toString, if_neg hpos]

/-- The spelling of a loop header with its step, also if that is one. -/
def LoopHeader.renderInFull (header : LoopHeader) : String :=
  "FOR " ++ header.var ++ " FROM " ++ toString header.first ++ " TO " ++ header.bound.render ++
    " INCREMENT " ++ toString header.step

theorem readForHeader_words (header : LoopHeader) {more : List String}
    (hlength : more.length = 0 ∨ more.length = 2) (hstep : readStep more = .ok header.step) :
    readForHeader (header.var :: "FROM" :: toString header.first :: "TO" ::
      header.bound.render :: more) = .ok (.forHeader header) := by
  simp only [readForHeader, hlength, and_self, if_pos, readInteger_toString, readBound_render,
    hstep]
  rfl

namespace Statement

/-- What the fields of a statement must be to stand in its line. Names are words, and texts have no
quotation marks; nor has a name that stands before a text. A line that changes a variable must not
begin like another line. -/
def Writable (isString : String → Bool) : Statement → Prop
  | declareInt name _ | declareMutable name _ | printVar name _ => IsWord name
  | macroHeader name | call name | label name | goto name => IsWord name
  | declareString name value => IsWord name ∧ QuoteFree name ∧ QuoteFree value
  | assign name args =>
    IsWord name ∧ (∀ arg ∈ args, IsWord arg) ∧
      leadingKeyword? (assign name args).render = none ∧ isString name = false
  | assignString name value =>
    IsWord name ∧ QuoteFree name ∧ QuoteFree value ∧
      leadingKeyword? (assignString name value).render = none ∧ isString name = true
  | printText text _ => QuoteFree text
  | ifHeader ⟨name, _, .int _⟩ => IsWord name
  | ifHeader ⟨name, _, .text value⟩ => IsWord name ∧ QuoteFree name ∧ QuoteFree value
  | forHeader header => IsWord header.var ∧ 0 < header.step
  | comment | endBlock _ => True

/-- The canonical lines of a statement. The step of a loop may be written out, and a comment may
say anything. -/
inductive Canonical : Statement → String → Prop where
  | rendered (statement : Statement) : Canonical statement statement.render
  | inFull (header : LoopHeader) : Canonical (forHeader header) header.renderInFull
  | remark (text : String) : Canonical comment ("//" ++ text)

variable (isString : String → Bool)

/-- A line that begins with a keyword is read by its other words. -/
theorem read_append (keyword : Keyword) (more : List String) {front first : String}
    (hfront : front.toList = keyword.letters ++ [' ']) (hwords : words front = first :: more)
    (back : String) :
    read isString (front ++ back) = readAfter (front ++ back) (more ++ words back) keyword := by
  have hlast : front.toList.getLast? = some ' ' := by
    rw [hfront, List.getLast?_concat]
  simp only [read, words_append_of_getLast? hlast, hwords, List.cons_append,
    leadingKeyword?_append hfront]

theorem read_comment (text : String) : read isString ("//" ++ text) = .ok comment := by
  unfold read
  split
  · rfl
  · rw [leadingKeyword?_of_comment]
    rfl

theorem words_declaration {name : String} (h : IsWord name) (value : String) :
    words (name ++ (" = " ++ value)) = name :: "=" :: words value := by
  rw [words_append_gap (by decide), words_of_isWord h]
  rfl

theorem read_declareInt {name : String} (h : IsWord name) (value : Int64) :
    read isString (declareInt name value).render = .ok (declareInt name value) := by
  have hwords := words_declaration h (toString value)
  rw [words_of_isWord (isWord_toString value)] at hwords
  show read isString ("INT " ++ name ++ " = " ++ toString value) = _
  simp only [String.append_assoc]
  rw [read_append isString .int [] rfl rfl, hwords]
  simp [readAfter, readIntDeclaration, readInteger_toString, Except.map]

theorem read_declareMutable {name : String} (h : IsWord name) (value : Option Int64) :
    read isString (declareMutable name value).render = .ok (declareMutable name value) := by
  cases value with
  | none =>
    show read isString ("MUTABLE INT " ++ name) = _
    rw [read_append isString .mutableInt ["INT"] rfl rfl, words_of_isWord h]
    rfl
  | some value =>
    have hwords := words_declaration h (toString value)
    rw [words_of_isWord (isWord_toString value)] at hwords
    show read isString ("MUTABLE INT " ++ name ++ " = " ++ toString value) = _
    simp only [String.append_assoc]
    rw [read_append isString .mutableInt ["INT"] rfl rfl, hwords]
    simp [readAfter, readMutableDeclaration, readInteger_toString, Except.map]

theorem read_declareString {name value : String} (h : IsWord name) (hn : QuoteFree name)
    (hv : QuoteFree value) :
    read isString (declareString name value).render = .ok (declareString name value) := by
  obtain ⟨word, more, hquote, _⟩ := exists_words_quote value
  have hwords := words_declaration h (quote value)
  rw [hquote] at hwords
  have hfront : QuoteFree ("STRING " ++ name ++ " = ") :=
    ((by decide : QuoteFree "STRING ").append hn).append (by decide)
  have htext := quoted?_append_quote hfront hv ""
  simp only [String.append_empty, String.append_assoc] at htext
  show read isString ("STRING " ++ name ++ " = " ++ quote value) = _
  simp only [String.append_assoc]
  rw [read_append isString .string [] rfl rfl, hwords]
  simp [readAfter, readStringDeclaration, htext]

theorem words_assign {args : List String} (h : ∀ arg ∈ args, IsWord arg) (line : String) :
    words (args.foldl (fun line arg => line ++ " " ++ arg) line) = words line ++ args := by
  induction args generalizing line with
  | nil => simp
  | cons arg args ih =>
    have harg : words (line ++ " " ++ arg) = words line ++ [arg] := by
      rw [String.append_assoc, words_append_gap (by decide),
        words_of_isWord (h arg List.mem_cons_self)]
      rfl
    rw [List.foldl_cons, ih fun other hother => h other (List.mem_cons_of_mem arg hother), harg,
      List.append_assoc, List.singleton_append]

theorem toList_isPrefix_assign (args : List String) (line : String) :
    line.toList <+: (args.foldl (fun line arg => line ++ " " ++ arg) line).toList := by
  induction args generalizing line with
  | nil => exact List.prefix_rfl
  | cons arg args ih =>
    refine List.IsPrefix.trans ?_ (ih (line ++ " " ++ arg))
    rw [String.append_assoc, String.toList_append]
    exact List.prefix_append _ _

variable {isString} in
theorem read_assign {name : String} {args : List String} (h : IsWord name)
    (hargs : ∀ arg ∈ args, IsWord arg)
    (hk : leadingKeyword? (assign name args).render = none) (hs : isString name = false) :
    read isString (assign name args).render = .ok (assign name args) := by
  have hwords : words (assign name args).render = name :: args := by
    show words (args.foldl (fun line arg => line ++ " " ++ arg) name) = _
    rw [words_assign hargs, words_of_isWord h]
    rfl
  have hremark : Keyword.comment.letters.isPrefixOf name.toList = false := by
    rw [Bool.eq_false_iff]
    intro hprefix
    apply not_isPrefix_of_leadingKeyword?_eq_none hk
    exact (List.isPrefixOf_iff_prefix.mp hprefix).trans (toList_isPrefix_assign args name)
  simp [read, hwords, hk, hs, hremark]

variable {isString} in
theorem read_assignString {name value : String} (h : IsWord name) (hn : QuoteFree name)
    (hv : QuoteFree value) (hk : leadingKeyword? (assignString name value).render = none)
    (hs : isString name = true) :
    read isString (assignString name value).render = .ok (assignString name value) := by
  have hwords := words_declaration h (quote value)
  have htext := quoted?_append_quote (hn.append (by decide : QuoteFree " = ")) hv ""
  rw [String.append_empty, String.append_assoc] at htext
  change leadingKeyword? (name ++ " = " ++ quote value) = none at hk
  show read isString (name ++ " = " ++ quote value) = _
  rw [String.append_assoc] at hk ⊢
  simp [read, hwords, hk, hs, readStringAssignment, htext]

theorem words_append_newlineMark (line : String) (newline : Bool) :
    words (line ++ newlineMark newline) = words line ++ words (newlineMark newline) := by
  cases newline with
  | true => exact words_append_of_head? rfl line
  | false =>
    show words (line ++ "") = words line ++ []
    rw [String.append_empty, List.append_nil]

theorem endsLine_newlineMark {first : String} (newline : Bool) :
    endsLine (first :: words (newlineMark newline)) = newline := by
  cases newline <;> rfl

theorem read_printVar {name : String} (h : IsWord name) (newline : Bool) :
    read isString (printVar name newline).render = .ok (printVar name newline) := by
  have hwords : words (name ++ newlineMark newline) = name :: words (newlineMark newline) := by
    rw [words_append_newlineMark, words_of_isWord h]
    rfl
  show read isString ("PRINTVAR " ++ name ++ newlineMark newline) = _
  rw [String.append_assoc, read_append isString .printVar [] rfl rfl, hwords]
  simp only [readAfter, List.nil_append, readPrintVar, endsLine_newlineMark]

/-- The last word of a quoted text is not taken for the word that ends the line. -/
theorem endsLine_words_quote (text : String) (newline : Bool) :
    endsLine (words (quote text) ++ words (newlineMark newline)) = newline := by
  cases newline with
  | true =>
    obtain ⟨word, more, hquote, _⟩ := exists_words_quote text
    show endsLine (words (quote text) ++ ["endl"]) = true
    rw [hquote, List.cons_append, endsLine, List.getLast?_concat]
    rfl
  | false =>
    obtain ⟨init, last, hquote, hlast⟩ := exists_words_quote_concat text
    show endsLine (words (quote text) ++ []) = false
    rw [hquote, List.append_nil]
    cases init with
    | nil => rfl
    | cons first init =>
      rw [List.cons_append, endsLine, List.getLast?_concat]
      apply decide_eq_false
      rintro ⟨rfl⟩
      contradiction

theorem read_printText {text : String} (h : QuoteFree text) (newline : Bool) :
    read isString (printText text newline).render = .ok (printText text newline) := by
  have htext := quoted?_append_quote (by decide : QuoteFree "PRINTSTR ") h (newlineMark newline)
  show read isString ("PRINTSTR " ++ quote text ++ newlineMark newline) = _
  rw [String.append_assoc, read_append isString .printText [] rfl rfl, words_append_newlineMark]
  simp only [readAfter, List.nil_append, readPrintText, htext, endsLine_words_quote]

theorem words_condition {name : String} (h : IsWord name) (op : Comparison) (operand : String) :
    words (name ++ (" " ++ (op.symbol ++ (" " ++ operand)))) =
      name :: op.symbol :: words operand := by
  have hsymbol : IsWord op.symbol := by cases op <;> decide
  rw [words_append_gap (by decide), words_append_gap (by decide), words_of_isWord h,
    words_of_isWord hsymbol]
  rfl

variable {isString} in
theorem read_ifHeader {condition : Condition} (h : (ifHeader condition).Writable isString) :
    read isString (ifHeader condition).render = .ok (ifHeader condition) := by
  obtain ⟨name, op, operand⟩ := condition
  have hsymbol : Comparison.read? op.symbol = some op := by cases op <;> rfl
  show read isString ("IF " ++ name ++ " " ++ op.symbol ++ " " ++ operand.render) = _
  simp only [String.append_assoc]
  cases operand with
  | int value =>
    rw [read_append isString .ifHeader [] rfl rfl, words_condition h, Operand.render,
      words_of_isWord (isWord_toString value)]
    simp [readAfter, readIfHeader, hsymbol, readOperand, readInt?_toString, Except.map]
  | text value =>
    obtain ⟨hname, hn, hv⟩ := h
    obtain ⟨word, more, hquote, hmark⟩ := exists_words_quote value
    have hfront : QuoteFree ("IF " ++ name ++ " " ++ op.symbol ++ " ") := by
      have hop : QuoteFree op.symbol := by cases op <;> decide
      exact (((((by decide : QuoteFree "IF ").append hn).append (by decide)).append hop).append
        (by decide))
    have htext := quoted?_append_quote hfront hv ""
    simp only [String.append_empty, String.append_assoc] at htext
    rw [read_append isString .ifHeader [] rfl rfl, words_condition hname, Operand.render, hquote]
    simp [readAfter, readIfHeader, hsymbol, readOperand, readInt?_of_head? hmark, htext, Except.map]

theorem words_loop {var : String} (h : IsWord var) (first : Int64) (more : String) :
    words (var ++ (" FROM " ++ (toString first ++ (" TO " ++ more)))) =
      var :: "FROM" :: toString first :: "TO" :: words more := by
  rw [words_append_gap (by decide), words_append_gap (by decide), words_of_isWord h,
    words_of_isWord (isWord_toString first)]
  rfl

theorem read_forHeader {header : LoopHeader} (h : IsWord header.var) (hpos : 0 < header.step) :
    read isString header.render = .ok (forHeader header) ∧
      read isString header.renderInFull = .ok (forHeader header) := by
  have hfull : read isString header.renderInFull = .ok (forHeader header) := by
    show read isString ("FOR " ++ header.var ++ " FROM " ++ toString header.first ++ " TO " ++
      header.bound.render ++ " INCREMENT " ++ toString header.step) = _
    simp only [String.append_assoc]
    rw [read_append isString .forHeader [] rfl rfl, words_loop h, words_append_gap (by decide),
      words_of_isWord header.bound.isWord_render, words_of_isWord (isWord_toString header.step)]
    exact readForHeader_words header (Or.inr rfl) (readStep_toString hpos)
  refine ⟨?_, hfull⟩
  show read isString ("FOR " ++ header.var ++ " FROM " ++ toString header.first ++ " TO " ++
    header.bound.render ++
      if header.step = 1 then "" else " INCREMENT " ++ toString header.step) = _
  by_cases hone : header.step = 1
  · have hstep : readStep [] = .ok header.step := by
      rw [hone]
      rfl
    rw [if_pos hone]
    simp only [String.append_empty, String.append_assoc]
    rw [read_append isString .forHeader [] rfl rfl, words_loop h,
      words_of_isWord header.bound.isWord_render]
    exact readForHeader_words header (Or.inl rfl) hstep
  · -- The step is written out, as in the full spelling.
    rw [if_neg hone, ← String.append_assoc]
    exact hfull

theorem read_name {name : String} (h : IsWord name) :
    read isString (macroHeader name).render = .ok (macroHeader name) ∧
      read isString (call name).render = .ok (call name) ∧
      read isString (label name).render = .ok (label name) ∧
      read isString (goto name).render = .ok (goto name) := by
  refine ⟨?_, ?_, ?_, ?_⟩
  · show read isString ("MACRO " ++ name) = _
    rw [read_append isString (.name .macroHeader) [] rfl rfl, words_of_isWord h]
    rfl
  · show read isString ("CALL " ++ name) = _
    rw [read_append isString (.name .call) [] rfl rfl, words_of_isWord h]
    rfl
  · show read isString ("LABEL " ++ name) = _
    rw [read_append isString (.name .label) [] rfl rfl, words_of_isWord h]
    rfl
  · show read isString ("GOTO " ++ name) = _
    rw [read_append isString (.name .goto) [] rfl rfl, words_of_isWord h]
    rfl

theorem read_endBlock (kind : BlockKind) :
    read isString (endBlock kind).render = .ok (endBlock kind) := by
  cases kind <;> rfl

/-- Reading a canonical line of a statement gives the statement back. -/
theorem canonical_line_reads_as_its_statement {isString : String → Bool} {statement : Statement}
    {line : String} (hw : statement.Writable isString) (hc : statement.Canonical line) :
    read isString line = .ok statement := by
  cases hc with
  | inFull header => exact (read_forHeader isString hw.1 hw.2).2
  | remark text => exact read_comment isString text
  | rendered =>
    cases statement with
    | declareInt name value => exact read_declareInt isString hw value
    | declareString name value => exact read_declareString isString hw.1 hw.2.1 hw.2.2
    | declareMutable name value => exact read_declareMutable isString hw value
    | assign name args => exact read_assign hw.1 hw.2.1 hw.2.2.1 hw.2.2.2
    | assignString name value =>
      exact read_assignString hw.1 hw.2.1 hw.2.2.1 hw.2.2.2.1 hw.2.2.2.2
    | printVar name newline => exact read_printVar isString hw newline
    | printText text newline => exact read_printText isString hw newline
    | ifHeader condition => exact read_ifHeader hw
    | forHeader header => exact (read_forHeader isString hw.1 hw.2).1
    | macroHeader name => exact (read_name isString hw).1
    | call name => exact (read_name isString hw).2.1
    | label name => exact (read_name isString hw).2.2.1
    | goto name => exact (read_name isString hw).2.2.2
    | comment => exact read_comment isString ""
    | endBlock kind => exact read_endBlock isString kind

/-- A text that looks like statements, a comment and the end of a line is still only a text, and a
negative bound and a step of one are read back. -/
theorem misleading_lines_are_read_back :
    ((printText " // INT x = 1\tendl endl" false).Writable (fun _ => true) ∧
      read (fun _ => true) "PRINTSTR \" // INT x = 1\tendl endl\"" =
        .ok (printText " // INT x = 1\tendl endl" false)) ∧
    (forHeader ⟨"TO", -7, .upTo (-1), 1⟩).Writable (fun _ => true) ∧
      read (fun _ => true) "FOR TO FROM -7 TO -1 INCREMENT 1" =
        .ok (forHeader ⟨"TO", -7, .upTo (-1), 1⟩) := by
  have htext : (printText " // INT x = 1\tendl endl" false).Writable (fun _ => true) := by
    show QuoteFree " // INT x = 1\tendl endl"
    decide
  have hloop : (forHeader ⟨"TO", -7, .upTo (-1), 1⟩).Writable (fun _ => true) := by
    show IsWord "TO" ∧ (0 : Int64) < 1
    decide
  exact ⟨⟨htext, canonical_line_reads_as_its_statement htext (.rendered _)⟩,
    hloop, canonical_line_reads_as_its_statement hloop (.inFull _)⟩

end Statement

end LineScript
