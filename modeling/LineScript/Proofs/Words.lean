import LineScript.Statement.Printer
import LineScript.Text.Blank
import LineScript.Text.Numeral
import LineScript.Text.Quoted
import Mathlib.Tactic

/-! The words of a text that was put together from parts, the quoted text in it, and the value of
a printed number. -/

namespace LineScript

theorem consPiece_append (piece : List Char) (rest more : List (List Char)) :
    consPiece piece (rest ++ more) = consPiece piece rest ++ more := by
  unfold consPiece
  split <;> simp

section Pieces

variable {isSeparator : Char → Bool}

/-- A separator ends the piece before it. -/
theorem cutPiece_append_separator {c : Char} (hc : isSeparator c = true) (cs ds : List Char) :
    cutPiece isSeparator (cs ++ c :: ds) =
      ((cutPiece isSeparator cs).1, (cutPiece isSeparator cs).2 ++ pieces isSeparator ds) := by
  induction cs with
  | nil => simp [cutPiece, hc, pieces]
  | cons b cs ih =>
    by_cases hb : isSeparator b = true
    · simp [cutPiece, ih, hb, consPiece_append]
    · simp [cutPiece, ih, hb]

theorem pieces_append_separator {c : Char} (hc : isSeparator c = true) (cs ds : List Char) :
    pieces isSeparator (cs ++ c :: ds) = pieces isSeparator cs ++ pieces isSeparator ds := by
  simp only [pieces, cutPiece_append_separator hc, consPiece_append]

theorem cutPiece_append_of_forall {cs : List Char} (h : ∀ c ∈ cs, isSeparator c = false)
    (ds : List Char) :
    cutPiece isSeparator (cs ++ ds) =
      (cs ++ (cutPiece isSeparator ds).1, (cutPiece isSeparator ds).2) := by
  induction cs with
  | nil => simp
  | cons b cs ih =>
    have hb : isSeparator b = false := h b List.mem_cons_self
    have hcs := ih fun c hc => h c (List.mem_cons_of_mem b hc)
    simp [cutPiece, hb, hcs]

theorem pieces_of_forall {cs : List Char} (h : ∀ c ∈ cs, isSeparator c = false) (hne : cs ≠ []) :
    pieces isSeparator cs = [cs] := by
  have hcut := cutPiece_append_of_forall h []
  rw [List.append_nil] at hcut
  simp [pieces, hcut, cutPiece, consPiece, hne]

theorem pieces_eq_nil_of_forall {cs : List Char} (h : ∀ c ∈ cs, isSeparator c = true) :
    pieces isSeparator cs = [] := by
  have hcut : cutPiece isSeparator cs = ([], []) := by
    induction cs with
    | nil => rfl
    | cons b cs ih =>
      have hb : isSeparator b = true := h b List.mem_cons_self
      have hcs := ih fun c hc => h c (List.mem_cons_of_mem b hc)
      simp [cutPiece, hb, hcs, consPiece]
  simp [pieces, hcut, consPiece]

/-- The last piece ends where the text does. -/
theorem exists_pieces_concat {d : Char} (hd : isSeparator d = false) (cs : List Char) :
    ∃ init last, pieces isSeparator (cs ++ [d]) = init ++ [last ++ [d]] := by
  -- The part of the text that is in the first piece is not cut yet, so the induction says where
  -- the last letter is: in that piece, or in the last one after it.
  have hcut : (∃ last, cutPiece isSeparator (cs ++ [d]) = (last ++ [d], [])) ∨
      ∃ first init last, cutPiece isSeparator (cs ++ [d]) = (first, init ++ [last ++ [d]]) := by
    induction cs with
    | nil => exact Or.inl ⟨[], by simp [cutPiece, hd]⟩
    | cons b cs ih =>
      by_cases hb : isSeparator b = true
      · rcases ih with ⟨last, h⟩ | ⟨first, init, last, h⟩
        · exact Or.inr ⟨[], [], last, by simp [cutPiece, h, hb, consPiece]⟩
        · refine Or.inr ⟨[], consPiece first init, last, ?_⟩
          simp [cutPiece, h, hb, consPiece_append]
      · rcases ih with ⟨last, h⟩ | ⟨first, init, last, h⟩
        · exact Or.inl ⟨b :: last, by simp [cutPiece, h, hb]⟩
        · exact Or.inr ⟨b :: first, init, last, by simp [cutPiece, h, hb]⟩
  rcases hcut with ⟨last, h⟩ | ⟨first, init, last, h⟩
  · exact ⟨[], last, by simp [pieces, h, consPiece]⟩
  · exact ⟨consPiece first init, last, by simp [pieces, h, consPiece_append]⟩

end Pieces

/-- A text without blanks, which is one word of a line. -/
def IsWord (text : String) : Prop :=
  text ≠ "" ∧ text.toList.any isBlank = false

instance (text : String) : Decidable (IsWord text) :=
  inferInstanceAs (Decidable (_ ∧ _))

theorem words_of_isWord {word : String} (h : IsWord word) : words word = [word] := by
  have hletters : ∀ c ∈ word.toList, isBlank c = false := by
    intro c hc
    simpa using List.any_eq_false.mp h.2 c hc
  have hne : word.toList ≠ [] := by
    intro he
    exact h.1 (String.toList_inj.mp he)
  simp only [words, pieces_of_forall hletters hne, List.map_cons, List.map_nil,
    String.ofList_toList]

/-- The words of a text that ends in a space, and those of what follows it. -/
theorem words_append_of_getLast? {front : String} (h : front.toList.getLast? = some ' ')
    (back : String) : words (front ++ back) = words front ++ words back := by
  obtain ⟨init, hinit⟩ := List.getLast?_eq_some_iff.mp h
  have hspace : isBlank ' ' = true := by decide
  have hfront : pieces isBlank front.toList = pieces isBlank init := by
    rw [hinit, pieces_append_separator hspace init [], show pieces isBlank [] = [] from rfl,
      List.append_nil]
  have hall : pieces isBlank (front ++ back).toList =
      pieces isBlank init ++ pieces isBlank back.toList := by
    rw [String.toList_append, hinit, List.append_assoc, List.singleton_append,
      pieces_append_separator hspace]
  simp only [words, hall, hfront, List.map_append]

theorem words_append_of_head? {back : String} (h : back.toList.head? = some ' ')
    (front : String) : words (front ++ back) = words front ++ words back := by
  obtain ⟨rest, hrest⟩ := List.head?_eq_some_iff.mp h
  have hspace : isBlank ' ' = true := by decide
  have hback : pieces isBlank back.toList = pieces isBlank rest := by
    rw [hrest]
    exact pieces_append_separator hspace [] rest
  have hall : pieces isBlank (front ++ back).toList =
      pieces isBlank front.toList ++ pieces isBlank rest := by
    rw [String.toList_append, hrest, pieces_append_separator hspace]
  simp only [words, hall, hback, List.map_append]

/-- What stands between two parts of a line has a space at both ends. -/
def IsGap (text : String) : Prop :=
  text.toList.head? = some ' ' ∧ text.toList.getLast? = some ' '

instance (text : String) : Decidable (IsGap text) :=
  inferInstanceAs (Decidable (_ ∧ _))

theorem words_append_gap {gap : String} (h : IsGap gap) (front back : String) :
    words (front ++ (gap ++ back)) = words front ++ (words gap ++ words back) := by
  have hhead : (gap ++ back).toList.head? = some ' ' := by
    rw [String.toList_append, List.head?_append, h.1, Option.some_or]
  rw [words_append_of_head? hhead, words_append_of_getLast? h.2]

/-- A text without quotation marks can be quoted. -/
def QuoteFree (text : String) : Prop :=
  text.toList.any (· = quoteMark) = false

instance (text : String) : Decidable (QuoteFree text) :=
  inferInstanceAs (Decidable (_ = _))

theorem toList_quote (text : String) :
    (quote text).toList = quoteMark :: (text.toList ++ [quoteMark]) := by
  simp [quote, quoteMark, String.toList_append]

theorem cutAt?_append {p : Char → Bool} {cs : List Char} (h : ∀ c ∈ cs, p c = false) {d : Char}
    (hd : p d = true) (ds : List Char) : cutAt? p (cs ++ d :: ds) = some (cs, ds) := by
  induction cs with
  | nil => simp [cutAt?, hd]
  | cons b cs ih =>
    have hb : p b = false := h b List.mem_cons_self
    simp [cutAt?, hb, ih fun c hc => h c (List.mem_cons_of_mem b hc)]

theorem QuoteFree.ne_quoteMark {text : String} (h : QuoteFree text) :
    ∀ c ∈ text.toList, decide (c = quoteMark) = false := by
  intro c hc
  simpa using List.any_eq_false.mp h c hc

theorem QuoteFree.append {front back : String} (hf : QuoteFree front) (hb : QuoteFree back) :
    QuoteFree (front ++ back) := by
  unfold QuoteFree at hf hb ⊢
  rw [String.toList_append, List.any_append, hf, hb, Bool.or_false]

/-- The first quoted text of a line is found, whatever follows it. -/
theorem quoted?_append_quote {front text : String} (hf : QuoteFree front) (ht : QuoteFree text)
    (back : String) : quoted? (front ++ (quote text ++ back)) = some text := by
  have hline : (front ++ (quote text ++ back)).toList =
      front.toList ++ quoteMark :: (text.toList ++ quoteMark :: back.toList) := by
    simp [String.toList_append, toList_quote]
  have hopen := cutAt?_append hf.ne_quoteMark (decide_eq_true rfl)
    (text.toList ++ quoteMark :: back.toList)
  have hclose := cutAt?_append ht.ne_quoteMark (decide_eq_true rfl) back.toList
  simp only [quoted?, quotedIn?, hline, hopen, Option.bind_some, hclose, Option.map_some,
    String.ofList_toList]

/-- The first word of a quoted text begins with its mark. -/
theorem exists_words_quote (text : String) :
    ∃ word more, words (quote text) = word :: more ∧ word.toList.head? = some quoteMark := by
  have hmark : ∀ c ∈ [quoteMark], isBlank c = false := List.forall_mem_singleton.mpr rfl
  have hcut := cutPiece_append_of_forall hmark (text.toList ++ [quoteMark])
  refine ⟨String.ofList (quoteMark :: (cutPiece isBlank (text.toList ++ [quoteMark])).1),
    (cutPiece isBlank (text.toList ++ [quoteMark])).2.map String.ofList, ?_, ?_⟩
  · rw [words, toList_quote, pieces, ← List.singleton_append, hcut]
    rfl
  · rw [String.toList_ofList, List.head?_cons]

/-- The last word of a quoted text ends with its mark. -/
theorem exists_words_quote_concat (text : String) :
    ∃ init word, words (quote text) = init ++ [word] ∧ word.toList.getLast? = some quoteMark := by
  obtain ⟨init, last, h⟩ :=
    exists_pieces_concat (show isBlank quoteMark = false by decide) (quoteMark :: text.toList)
  refine ⟨init.map String.ofList, String.ofList (last ++ [quoteMark]), ?_, ?_⟩
  · rw [words, toList_quote, ← List.cons_append, h, List.map_append]
    rfl
  · rw [String.toList_ofList, List.getLast?_concat]

/-! Numerals. -/

theorem digitsAfter_eq {cs : List Char} (h : ∀ c ∈ cs, c.isDigit = true) (n : Nat) :
    digitsAfter n cs = some (Nat.ofDigitChars 10 cs n) := by
  induction cs generalizing n with
  | nil => rfl
  | cons c cs ih =>
    have hc : c.isDigit = true := h c List.mem_cons_self
    have hcs := ih fun d hd => h d (List.mem_cons_of_mem c hd)
    rw [digitsAfter, if_pos hc, hcs, Nat.ofDigitChars_cons]

theorem isDigit_of_mem_repr {n : Nat} : ∀ c ∈ n.repr.toList, c.isDigit = true := by
  intro c hc
  rw [Nat.repr_eq_ofList_toDigits, String.toList_ofList] at hc
  exact Nat.isDigit_of_mem_toDigits (by omega) (by omega) hc

theorem toList_natRepr_ne_nil (n : Nat) : n.repr.toList ≠ [] := by
  rw [Nat.repr_eq_ofList_toDigits, String.toList_ofList]
  exact Nat.toDigits_ne_nil

theorem unsigned?_repr (n : Nat) : unsigned? n.repr.toList = some n := by
  rw [unsigned?, if_neg (toList_natRepr_ne_nil n), digitsAfter_eq isDigit_of_mem_repr,
    Nat.repr_eq_ofList_toDigits, String.toList_ofList, Nat.ofDigitChars_ten_toDigits]

theorem toList_repr (z : Int) :
    z.repr.toList = if 0 ≤ z then z.toNat.repr.toList else '-' :: (-z).toNat.repr.toList := by
  rw [Int.repr_eq_if]
  split
  · rfl
  · rw [String.toList_append]
    rfl

/-- A number is read back from its numeral. -/
theorem signed?_repr (z : Int) : signed? z.repr.toList = some z := by
  rw [toList_repr]
  by_cases hz : 0 ≤ z
  · -- A numeral without a sign begins with a digit, so it is not taken for a signed one.
    obtain ⟨c, cs, hcs⟩ := List.exists_cons_of_ne_nil (toList_natRepr_ne_nil z.toNat)
    have hc : c.isDigit = true := isDigit_of_mem_repr c (by rw [hcs]; exact List.mem_cons_self)
    have hminus : c ≠ '-' := by
      rintro rfl
      contradiction
    have hplus : c ≠ '+' := by
      rintro rfl
      contradiction
    have hvalue := unsigned?_repr z.toNat
    rw [if_pos hz]
    rw [hcs] at hvalue ⊢
    simp [signed?, natural?, hminus, hplus, hvalue, hz]
  · rw [if_neg hz, signed?, unsigned?_repr]
    show some (-((-z).toNat : Int)) = some z
    congr 1
    omega

theorem readInt?_toString (n : Int64) : readInt? (toString n) = some n := by
  have hmin := Int64.le_toInt n
  have hmax := Int64.toInt_le n
  show (signed? n.toInt.repr.toList).bind checked = some n
  rw [signed?_repr, Option.bind_some, checked, if_pos ⟨hmin, hmax⟩, Int64.ofInt_toInt]

theorem isBlank_eq_false_of_isDigit {c : Char} (h : c.isDigit = true) : isBlank c = false := by
  rw [Char.isDigit_iff_toNat] at h
  simp only [Char.reduceToNat] at h
  simp [isBlank, blankRanges]
  omega

theorem isWord_toString (n : Int64) : IsWord (toString n) := by
  show IsWord n.toInt.repr
  have hletters : n.toInt.repr.toList ≠ [] ∧ n.toInt.repr.toList.any isBlank = false := by
    have hdigits (k : Nat) : k.repr.toList.any isBlank = false := by
      apply List.any_eq_false.mpr
      intro c hc
      rw [isBlank_eq_false_of_isDigit (isDigit_of_mem_repr c hc)]
      exact Bool.false_ne_true
    rw [toList_repr]
    split
    · exact ⟨toList_natRepr_ne_nil _, hdigits _⟩
    · refine ⟨List.cons_ne_nil _ _, ?_⟩
      rw [List.any_cons, hdigits, Bool.or_false]
      rfl
  refine ⟨?_, hletters.2⟩
  intro he
  exact hletters.1 (by rw [he]; rfl)

theorem readInt?_of_head? {word : String} (h : word.toList.head? = some quoteMark) :
    readInt? word = none := by
  obtain ⟨cs, hcs⟩ := List.head?_eq_some_iff.mp h
  rw [readInt?, hcs]
  rfl

end LineScript
