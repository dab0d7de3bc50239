import LineScript.Proofs.LineEndings
import Mathlib.Data.List.Infix

/-! Lines that are written and read back, and texts that are read and written back. Lines come back
just if each of them can be stored, and a text comes back just if all of its lines end in a line feed
alone. -/

namespace LineScript

theorem toList_joinLines (lines : List String) :
    (joinLines lines).toList = lines.flatMap fun line => line.toList ++ ['\n'] := by
  simp [joinLines, List.flatMap_map]

/-- No line of a text contains a line feed. -/
theorem not_mem_of_mem_linesOf {text line : List Char} (h : line ∈ linesOf text) : '\n' ∉ line := by
  obtain ⟨ended, last, htext, hended, hlast⟩ := exists_endedLines text
  rw [← map_fst_endedLines, htext] at h
  obtain ⟨found, hfound, rfl⟩ := List.mem_map.mp h
  rcases List.mem_append.mp hfound with hmem | hmem
  · exact (hended found hmem).1
  · rcases hlast with rfl | ⟨line, rfl, _, hline⟩
    · cases hmem
    · obtain rfl := List.mem_singleton.mp hmem
      exact hline

theorem not_mem_of_mem_splitLines {text line : String} (h : line ∈ splitLines text) :
    '\n' ∉ line.toList := by
  obtain ⟨found, hfound, rfl⟩ := List.mem_map.mp h
  rw [String.toList_ofList]
  exact not_mem_of_mem_linesOf hfound

/-- Lines that come back can be stored: a line feed would cut one of them in two, and a carriage
return at the end of one would be taken for a part of its ending. -/
theorem storable_of_splitLines_joinLines {lines : List String}
    (h : splitLines (joinLines lines) = lines) : ∀ line ∈ lines, Storable line.toList := by
  induction lines with
  | nil => simp
  | cons line lines ih =>
    have hfeed : '\n' ∉ line.toList := by
      have hmem : line ∈ splitLines (joinLines (line :: lines)) := by
        rw [h]
        exact List.mem_cons_self
      exact not_mem_of_mem_splitLines hmem
    have hreturn : line.toList.getLast? ≠ some '\r' := by
      intro hlast
      obtain ⟨front, hfront⟩ := List.getLast?_eq_some_iff.mp hlast
      have hends : Ends front ['\r', '\n'] := by
        refine ⟨fun hmem => hfeed ?_, Or.inl rfl⟩
        rw [hfront]
        exact List.mem_append_left _ hmem
      -- The line comes back without its last character.
      have hshort : splitLines (joinLines (line :: lines)) =
          String.ofList front :: splitLines (joinLines lines) := by
        have hcut : line.toList ++ '\n' :: (joinLines lines).toList =
            front ++ ['\r', '\n'] ++ (joinLines lines).toList := by
          rw [hfront, List.append_assoc, List.append_assoc]
          rfl
        rw [splitLines, toList_joinLines_cons, hcut, linesOf_ended hends, List.map_cons]
        rfl
      rw [hshort] at h
      have hsame : front = line.toList := by
        rw [← (List.cons.inj h).1, String.toList_ofList]
      have hlength := congrArg List.length (hsame.trans hfront)
      rw [List.length_append, List.length_singleton] at hlength
      omega
    have hline : Storable line.toList := ⟨hfeed, hreturn⟩
    rw [splitLines, toList_joinLines_cons, linesOf_append hline, List.map_cons,
      String.ofList_toList] at h
    exact List.forall_mem_cons.mpr ⟨hline, ih (List.cons.inj h).2⟩

section Endings

variable (text : List Char)

/-- A carriage return stands in front of a line feed just where both end a line. -/
theorem return_feed_infix_iff :
    ['\r', '\n'] <:+: text ↔ ∃ line ∈ endedLines text, line.2 = ['\r', '\n'] := by
  fun_induction endedLines text with
  | case1 => simp
  | case2 cs ih => simp [List.infix_cons_iff, ih]
  | case3 cs ih => simp [List.infix_cons_iff]
  | case4 c cs hfeed hreturn hnone ih =>
    simp [eq_nil_of_endedLines hnone, List.infix_cons_iff]
  | case5 c cs hfeed hreturn line ending rest hsome ih =>
    -- The pair cannot begin at the first character, which goes on with the line behind it.
    have hseam : ¬ ['\r', '\n'] <+: c :: cs := by
      rintro ⟨tail, htail⟩
      obtain ⟨hc, hcs⟩ := List.cons.inj htail
      exact hreturn tail hc.symm hcs.symm
    rw [hsome] at ih
    simp [List.infix_cons_iff, hseam, ih]

/-- If every line of a text is ended by a line feed alone, that gives the text itself just if its
lines were ended so before. -/
theorem flatMap_feed_eq_iff :
    ((endedLines text).flatMap fun line => line.1 ++ ['\n']) = text ↔
      ∀ line ∈ endedLines text, line.2 = ['\n'] := by
  fun_induction endedLines text with
  | case1 => simp
  | case2 cs ih => simpa using ih
  | case3 cs ih => simp
  | case4 c cs hfeed hreturn hnone ih =>
    simp [eq_nil_of_endedLines hnone]
  | case5 c cs hfeed hreturn line ending rest hsome ih =>
    rw [hsome] at ih
    simpa using ih

theorem ending_cases {line : List Char × List Char} (h : line ∈ endedLines text) :
    line.2 = [] ∨ line.2 = ['\n'] ∨ line.2 = ['\r', '\n'] := by
  obtain ⟨ended, last, htext, hended, hlast⟩ := exists_endedLines text
  rw [htext] at h
  rcases List.mem_append.mp h with hmem | hmem
  · rcases (hended line hmem).2 with hboth | ⟨hfeed, _⟩
    · exact Or.inr (Or.inr hboth)
    · exact Or.inr (Or.inl hfeed)
  · rcases hlast with rfl | ⟨line, rfl, _, _⟩
    · cases hmem
    · obtain rfl := List.mem_singleton.mp hmem
      exact Or.inl rfl

end Endings

theorem joinLines_splitLines_iff (text : String) :
    joinLines (splitLines text) = text ↔
      ∀ line ∈ endedLines text.toList, line.2 = ['\n'] := by
  have hjoined : (joinLines (splitLines text)).toList =
      (endedLines text.toList).flatMap fun line => line.1 ++ ['\n'] := by
    rw [toList_joinLines, splitLines, ← map_fst_endedLines, List.flatMap_map, List.flatMap_map]
    simp only [String.toList_ofList]
  rw [← String.toList_inj, hjoined, flatMap_feed_eq_iff]

/-- Lines that are written come back just if none of them contains a line feed or ends in a carriage
return. A text has lines without line feeds, and comes back just if it is empty or ends in a line feed,
and no carriage return stands in front of a line feed. -/
theorem lines_and_texts_are_given_back :
    (∀ lines : List String, splitLines (joinLines lines) = lines ↔
      ∀ line ∈ lines, '\n' ∉ line.toList ∧ line.toList.getLast? ≠ some '\r') ∧
    ∀ text : String, (∀ line ∈ splitLines text, '\n' ∉ line.toList) ∧
      (joinLines (splitLines text) = text ↔
        (text = "" ∨ text.toList.getLast? = some '\n') ∧ ¬ ['\r', '\n'] <:+: text.toList) := by
  refine ⟨fun lines => ⟨storable_of_splitLines_joinLines, splitLines_joinLines⟩, fun text => ?_⟩
  refine ⟨fun line => not_mem_of_mem_splitLines, ?_⟩
  have hwhole : (text = "" ∨ text.toList.getLast? = some '\n') ↔ WholeLines text.toList := by
    rw [WholeLines, String.toList_eq_nil_iff]
  rw [joinLines_splitLines_iff, hwhole, wholeLines_iff, return_feed_infix_iff]
  constructor
  · intro h
    refine ⟨fun line hline => ?_, ?_⟩
    · rw [h line hline]
      exact List.cons_ne_nil _ _
    · rintro ⟨line, hline, hboth⟩
      rw [h line hline] at hboth
      cases hboth
  · rintro ⟨hended, hnone⟩ line hline
    rcases ending_cases _ hline with hempty | hfeed | hboth
    · exact absurd hempty (hended line hline)
    · exact hfeed
    · exact absurd ⟨line, hline, hboth⟩ hnone

/-- Of a carriage return only the place matters. It comes back inside a line and in front of one, and
not at the end of one. -/
theorem returns_come_back_unless_they_end_a_line :
    splitLines (joinLines ["a\rb", "", "\r\rc"]) = ["a\rb", "", "\r\rc"] ∧
      splitLines (joinLines ["", "a\r"]) ≠ ["", "a\r"] ∧
      joinLines (splitLines "\ra\n\n") = "\ra\n\n" ∧
      '\n' ∉ "a".toList ∧ "a" ∈ splitLines "\na\r\n" ∧
      joinLines (splitLines "\na\r\n") ≠ "\na\r\n" := by
  obtain ⟨hlines, htexts⟩ := lines_and_texts_are_given_back
  have hmem : "a" ∈ splitLines "\na\r\n" := by decide +kernel
  refine ⟨(hlines _).mpr (by decide +kernel), fun h => ?_, (htexts _).2.mpr (by decide +kernel),
    (htexts _).1 "a" hmem, hmem, fun h => ?_⟩
  · have hreturn := ((hlines _).mp h "a\r" (by decide)).2
    exact hreturn (by decide)
  · have hpair := ((htexts _).2.mp h).2
    exact hpair (by decide +kernel)

end LineScript
