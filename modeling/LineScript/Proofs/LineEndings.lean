import LineScript.Proofs.LineFiles

/-! Texts as lines with their endings. A text that ends in a line feed can be put in front of any
other one, and a line can be replaced by another one without a change to the lines around it. -/

namespace LineScript

/-- The lines of a text, each with the characters that end it. Only the last line may have none. -/
def endedLines : List Char → List (List Char × List Char)
  | [] => []
  | '\n' :: cs => ([], ['\n']) :: endedLines cs
  | '\r' :: '\n' :: cs => ([], ['\r', '\n']) :: endedLines cs
  | c :: cs =>
    match endedLines cs with
    | [] => [([c], [])]
    | (line, ending) :: rest => (c :: line, ending) :: rest

theorem map_fst_endedLines (cs : List Char) : (endedLines cs).map (·.1) = linesOf cs := by
  fun_induction endedLines cs with
  | case1 => rfl
  | case2 cs ih => rw [List.map_cons, ih, linesOf]
  | case3 cs ih => rw [List.map_cons, ih, linesOf]
  | case4 c cs hfeed hreturn hnone ih =>
    rw [linesOf.eq_4 c cs hfeed hreturn, ← ih, hnone]
    rfl
  | case5 c cs hfeed hreturn line ending rest hsome ih =>
    rw [linesOf.eq_4 c cs hfeed hreturn, ← ih, hsome]
    rfl

theorem flatMap_endedLines (cs : List Char) :
    ((endedLines cs).flatMap fun line => line.1 ++ line.2) = cs := by
  fun_induction endedLines cs with
  | case1 => rfl
  | case2 cs ih => rw [List.flatMap_cons, ih]; rfl
  | case3 cs ih => rw [List.flatMap_cons, ih]; rfl
  | case4 c cs hfeed hreturn hnone ih =>
    rw [hnone] at ih
    rw [← ih]
    rfl
  | case5 c cs hfeed hreturn line ending rest hsome ih =>
    rw [hsome] at ih
    rw [← ih]
    rfl

/-- A line and the characters that end it. The carriage return in front of a line feed belongs to
the ending. -/
def Ends (line ending : List Char) : Prop :=
  '\n' ∉ line ∧ (ending = ['\r', '\n'] ∨ ending = ['\n'] ∧ line.getLast? ≠ some '\r')

theorem Storable.ends {line line' ending : List Char} (hs : Storable line) (h : Ends line' ending) :
    Ends line ending :=
  ⟨hs.1, h.2.imp_right fun hfeed => ⟨hfeed.1, hs.2⟩⟩

theorem Ends.cons {c : Char} {line ending : List Char} (h : Ends line ending) (hc : c ≠ '\n')
    (hr : c = '\r' → (line ++ ending).head? ≠ some '\n') : Ends (c :: line) ending := by
  refine ⟨List.not_mem_cons_of_ne_of_not_mem (Ne.symm hc) h.1, ?_⟩
  rcases h.2 with rfl | ⟨rfl, hlast⟩
  · exact Or.inl rfl
  · refine Or.inr ⟨rfl, ?_⟩
    cases line with
    | nil =>
      intro hreturn
      exact hr (Option.some.inj hreturn) rfl
    | cons d ds =>
      rw [List.getLast?_cons_cons]
      exact hlast

theorem linesOf_ended {line ending : List Char} (h : Ends line ending) (rest : List Char) :
    linesOf (line ++ ending ++ rest) = line :: linesOf rest := by
  obtain ⟨hline, rfl | ⟨rfl, hlast⟩⟩ := h
  · have hfeed : linesOf ('\r' :: '\n' :: rest) = [] :: linesOf rest := rfl
    have hreturn : ('\r' :: '\n' :: rest).head? ≠ some '\n' := by
      rw [List.head?_cons]
      decide
    rw [List.append_assoc]
    exact (linesOf_append_of_cons hline (fun _ => hreturn) hfeed).trans (by rw [List.append_nil])
  · rw [List.append_assoc]
    exact linesOf_append ⟨hline, hlast⟩ rest

/-- A text that has no line feed is one line. -/
theorem linesOf_unended {line : List Char} (hne : line ≠ []) (h : '\n' ∉ line) :
    linesOf line = [line] := by
  induction line with
  | nil => exact absurd rfl hne
  | cons c cs ih =>
    have hc : c ≠ '\n' := by
      rintro rfl
      exact h List.mem_cons_self
    have hcs : '\n' ∉ cs := fun hmem => h (List.mem_cons_of_mem _ hmem)
    rw [linesOf_cons hc fun _ hhead => hcs (List.mem_of_head? hhead)]
    cases cs with
    | nil => rfl
    | cons d ds => rw [ih (List.cons_ne_nil d ds) hcs]

/-- Lines with their endings, and a text behind them. -/
theorem linesOf_flatMap_append {lines : List (List Char × List Char)}
    (h : ∀ line ∈ lines, Ends line.1 line.2) (rest : List Char) :
    linesOf ((lines.flatMap fun line => line.1 ++ line.2) ++ rest) =
      lines.map (·.1) ++ linesOf rest := by
  induction lines with
  | nil => rfl
  | cons line lines ih =>
    have hlater := ih fun other hother => h other (List.mem_cons_of_mem _ hother)
    rw [List.flatMap_cons, List.append_assoc, linesOf_ended (h line List.mem_cons_self), hlater]
    rfl

/-- Only the last line of a text may go without an ending, and then it is not empty. -/
theorem exists_endedLines (cs : List Char) :
    ∃ ended last, endedLines cs = ended ++ last ∧ (∀ line ∈ ended, Ends line.1 line.2) ∧
      (last = [] ∨ ∃ line, last = [(line, [])] ∧ line ≠ [] ∧ '\n' ∉ line) := by
  fun_induction endedLines cs with
  | case1 => exact ⟨[], [], rfl, by simp, Or.inl rfl⟩
  | case2 cs ih =>
    obtain ⟨ended, last, hcs, hended, hlast⟩ := ih
    have hfirst : Ends [] ['\n'] := ⟨List.not_mem_nil, Or.inr ⟨rfl, by simp⟩⟩
    exact ⟨([], ['\n']) :: ended, last, by rw [hcs]; rfl,
      List.forall_mem_cons.mpr ⟨hfirst, hended⟩, hlast⟩
  | case3 cs ih =>
    obtain ⟨ended, last, hcs, hended, hlast⟩ := ih
    have hfirst : Ends [] ['\r', '\n'] := ⟨List.not_mem_nil, Or.inl rfl⟩
    exact ⟨([], ['\r', '\n']) :: ended, last, by rw [hcs]; rfl,
      List.forall_mem_cons.mpr ⟨hfirst, hended⟩, hlast⟩
  | case4 c cs hfeed hreturn hnone ih =>
    have hc : '\n' ∉ [c] := fun hmem => hfeed (List.mem_singleton.mp hmem).symm
    exact ⟨[], [([c], [])], rfl, by simp, Or.inr ⟨[c], rfl, List.cons_ne_nil c [], hc⟩⟩
  | case5 c cs hfeed hreturn line ending rest hsome ih =>
    obtain ⟨ended, last, hcs, hended, hlast⟩ := ih
    -- What follows the character begins with a line and the ending of that line.
    have htext : (line ++ ending) ++ (rest.flatMap fun line => line.1 ++ line.2) = cs := by
      rw [← flatMap_endedLines cs, hsome, List.flatMap_cons]
    rw [hsome] at hcs
    cases ended with
    | nil =>
      -- The character belongs to the last line.
      obtain rfl | ⟨line', rfl, hne, hline⟩ := hlast
      · cases hcs
      · cases hcs
        exact ⟨[], [(c :: line, [])], rfl, by simp,
          Or.inr ⟨c :: line, rfl, List.cons_ne_nil c line, List.not_mem_cons_of_ne_of_not_mem
            (Ne.symm hfeed) hline⟩⟩
    | cons first ended =>
      obtain ⟨rfl, rfl⟩ := List.cons.inj hcs
      obtain ⟨hfirst, hothers⟩ := List.forall_mem_cons.mp hended
      have hends : Ends (c :: line) ending := by
        apply hfirst.cons hfeed
        rintro rfl hhead
        obtain ⟨tail, htail⟩ := List.head?_eq_some_iff.mp hhead
        rw [htail] at htext
        exact hreturn _ rfl htext.symm
      exact ⟨(c :: line, ending) :: ended, last, rfl,
        List.forall_mem_cons.mpr ⟨hends, hothers⟩, hlast⟩

/-- A text of whole lines: nothing stands behind the last line feed. -/
def WholeLines (text : List Char) : Prop :=
  text = [] ∨ text.getLast? = some '\n'

instance (text : List Char) : Decidable (WholeLines text) :=
  inferInstanceAs (Decidable (_ ∨ _))

theorem eq_nil_of_endedLines {cs : List Char} (h : endedLines cs = []) : cs = [] := by
  rw [← flatMap_endedLines cs, h]
  rfl

/-- A text is one of whole lines just if each of its lines has an ending. -/
theorem wholeLines_iff (text : List Char) :
    WholeLines text ↔ ∀ line ∈ endedLines text, line.2 ≠ [] := by
  fun_induction endedLines text with
  | case1 => simp [WholeLines]
  | case2 cs ih =>
    have hcs : WholeLines ('\n' :: cs) ↔ WholeLines cs := by
      cases cs <;> simp [WholeLines]
    simpa [hcs] using ih
  | case3 cs ih =>
    have hcs : WholeLines ('\r' :: '\n' :: cs) ↔ WholeLines cs := by
      cases cs <;> simp [WholeLines]
    simpa [hcs] using ih
  | case4 c cs hfeed hreturn hnone ih =>
    simpa [eq_nil_of_endedLines hnone, WholeLines] using hfeed
  | case5 c cs hfeed hreturn line ending rest hsome ih =>
    have hcs : WholeLines (c :: cs) ↔ WholeLines cs := by
      cases cs with
      | nil => cases hsome
      | cons d ds => simp [WholeLines]
    rw [hsome] at ih
    simpa [hcs] using ih

theorem linesOf_append_of_wholeLines {before : List Char} (h : WholeLines before)
    (text : List Char) : linesOf (before ++ text) = linesOf before ++ linesOf text := by
  obtain ⟨ended, last, hbefore, hended, hlast⟩ := exists_endedLines before
  have hnone : last = [] := by
    rcases hlast with hnone | ⟨line, rfl, _, _⟩
    · exact hnone
    · have hline : (line, []) ∈ endedLines before := by
        rw [hbefore]
        exact List.mem_append_right _ List.mem_cons_self
      exact absurd rfl ((wholeLines_iff before).mp h _ hline)
  rw [hnone, List.append_nil] at hbefore
  have hlines := map_fst_endedLines before
  rw [hbefore] at hlines
  rw [← hlines, ← linesOf_flatMap_append hended, ← hbefore, flatMap_endedLines]

theorem splitLines_append {before : String} (h : WholeLines before.toList) (text : String) :
    splitLines (before ++ text) = splitLines before ++ splitLines text := by
  rw [splitLines, String.toList_append, linesOf_append_of_wholeLines h, List.map_append]
  rfl

/-- If lines are replaced by others that can stand in their places, the text has the other lines. Only
an empty line at the end of the text gets lost. -/
theorem linesOf_replaced {replace : List Char → List Char}
    (h : ∀ line, replace line = line ∨ Storable (replace line)) (text : List Char) :
    ∃ lost, (lost = [] ∨ lost = [[]]) ∧
      linesOf ((endedLines text).flatMap fun line => replace line.1 ++ line.2) ++ lost =
        (linesOf text).map replace := by
  obtain ⟨ended, last, htext, hended, hlast⟩ := exists_endedLines text
  have hreplaced : ∀ line ∈ ended.map (fun line => (replace line.1, line.2)),
      Ends line.1 line.2 := by
    intro line hline
    obtain ⟨old, hold, rfl⟩ := List.mem_map.mp hline
    rcases h old.1 with hsame | hstorable
    · dsimp only
      rw [hsame]
      exact hended old hold
    · exact hstorable.ends (hended old hold)
  have hlines (rest : List Char) :
      linesOf ((ended.flatMap fun line => replace line.1 ++ line.2) ++ rest) =
        (ended.map (·.1)).map replace ++ linesOf rest := by
    rw [List.map_map]
    have hended := linesOf_flatMap_append hreplaced rest
    rw [List.flatMap_map, List.map_map] at hended
    exact hended
  rw [← map_fst_endedLines text, htext, List.flatMap_append, List.map_append, List.map_append,
    hlines]
  rcases hlast with rfl | ⟨line, rfl, _, hline⟩
  · exact ⟨[], Or.inl rfl, List.append_nil _⟩
  · rw [List.flatMap_singleton, List.append_nil]
    by_cases hempty : replace line = []
    · refine ⟨[[]], Or.inr rfl, ?_⟩
      rw [hempty, linesOf, List.append_nil, List.map_singleton, List.map_singleton, hempty]
    · have hunbroken : '\n' ∉ replace line := by
        rcases h line with hsame | hstorable
        · rw [hsame]
          exact hline
        · exact hstorable.1
      refine ⟨[], Or.inl rfl, ?_⟩
      rw [linesOf_unended hempty hunbroken, List.append_nil]
      rfl

/-- What stands behind a line in a text: nothing, or the ending of the line and what follows it. -/
def FollowsLine (text : List Char) : Prop :=
  text = [] ∨ ['\n'] <+: text ∨ ['\r', '\n'] <+: text

instance (text : List Char) : Decidable (FollowsLine text) :=
  inferInstanceAs (Decidable (_ ∨ _ ∨ _))

/-- The lines around one line of a text do not depend on that line. -/
theorem exists_linesOf_between {before after : List Char} (hb : WholeLines before)
    (ha : FollowsLine after) :
    ∃ later, ∀ line, line ≠ [] → Storable line →
      linesOf (before ++ (line ++ after)) = linesOf before ++ line :: later := by
  have hended {ending : List Char} (h : ending = ['\r', '\n'] ∨ ending = ['\n'])
      (rest : List Char) (line : List Char) (hline : Storable line) :
      linesOf (before ++ (line ++ (ending ++ rest))) = linesOf before ++ line :: linesOf rest := by
    have hends : Ends line ending := ⟨hline.1, h.imp_right fun hfeed => ⟨hfeed, hline.2⟩⟩
    rw [linesOf_append_of_wholeLines hb, ← List.append_assoc, linesOf_ended hends]
  rcases ha with rfl | ⟨rest, rfl⟩ | ⟨rest, rfl⟩
  · refine ⟨[], fun line hne hline => ?_⟩
    rw [List.append_nil, linesOf_append_of_wholeLines hb, linesOf_unended hne hline.1]
  · exact ⟨linesOf rest, fun line _ hline => hended (Or.inr rfl) rest line hline⟩
  · exact ⟨linesOf rest, fun line _ hline => hended (Or.inl rfl) rest line hline⟩

end LineScript
