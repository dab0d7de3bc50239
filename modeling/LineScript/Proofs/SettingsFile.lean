import LineScript.Settings
import LineScript.Proofs.LineEndings
import Mathlib.Data.List.TakeWhile

/-! A settings file is read line by line. What a line sets, and what is wrong with it, depends on that
line only, so the settings are a fold over the lines that are in order, and the faults are those of the
other lines. -/

namespace LineScript

namespace Settings

variable {s s' : Settings} {line : String}

/-! One line. -/

/-- Whether a value can be set, and what is wrong with it if not, does not depend on the settings. -/
theorem assign_error {name value : String} {fault : SettingFault}
    (h : s.assign name value = .error fault) (s' : Settings) :
    s'.assign name value = .error fault := by
  have hmap {α β : Type} {f g : α → β} {result : Except SettingFault α}
      (h : result.map f = .error fault) : result.map g = .error fault := by
    cases result with
    | ok a => cases h
    | error cause => exact h
  unfold assign at h ⊢
  split at h
  · exact h
  · exact hmap h
  · exact hmap h
  · cases hlimit : readLimit? value with
    | none =>
      rw [hlimit] at h
      exact h
    | some limit =>
      rw [hlimit] at h
      cases h
  · cases h
  · cases h
  · exact h

/-- A line sets nothing, has no name and value, or assigns a value. Which of these it does depends on
the line alone. -/
theorem applyLine_cases (line : String) :
    (∀ s : Settings, s.applyLine line = .ok s) ∨
      (∃ fault, ∀ s : Settings, s.applyLine line = .error fault) ∨
      ∃ name value, ∀ s : Settings, s.applyLine line = s.assign name value := by
  unfold applyLine
  cases settingArgs? line with
  | none => exact Or.inl fun s => rfl
  | some args =>
    dsimp only
    cases splitSetting args with
    | error fault => exact Or.inr (Or.inl ⟨fault, fun s => rfl⟩)
    | ok setting => exact Or.inr (Or.inr ⟨setting.1, setting.2, fun s => rfl⟩)

theorem applyLine_error {fault : SettingFault} (h : s.applyLine line = .error fault)
    (s' : Settings) : s'.applyLine line = .error fault := by
  rcases applyLine_cases line with hidle | ⟨cause, hfault⟩ | ⟨name, value, hassign⟩
  · rw [hidle] at h
    cases h
  · rw [hfault] at h ⊢
    exact h
  · rw [hassign] at h ⊢
    exact assign_error h s'

/-- What is wrong with a line, whatever the settings are. -/
def settingFault? (line : String) : Option SettingFault :=
  match ({} : Settings).applyLine line with
  | .ok _ => none
  | .error fault => some fault

/-- The settings after a line. A faulty line leaves them as they are. -/
def after (s : Settings) (line : String) : Settings :=
  match s.applyLine line with
  | .ok changed => changed
  | .error _ => s

theorem settingFault?_eq_some_iff {fault : SettingFault} :
    settingFault? line = some fault ↔ ∀ s : Settings, s.applyLine line = .error fault := by
  unfold settingFault?
  constructor
  · intro h s
    cases happly : ({} : Settings).applyLine line with
    | ok changed =>
      rw [happly] at h
      cases h
    | error cause =>
      rw [happly] at h
      cases h
      exact applyLine_error happly s
  · intro h
    rw [h {}]

theorem applyLine_eq (s : Settings) (line : String) :
    s.applyLine line =
      match settingFault? line with
      | none => .ok (s.after line)
      | some fault => .error fault := by
  cases hfault : settingFault? line with
  | some fault => exact settingFault?_eq_some_iff.mp hfault s
  | none =>
    unfold after
    cases happly : s.applyLine line with
    | ok changed => rfl
    | error fault =>
      have hall : ∀ s : Settings, s.applyLine line = .error fault := applyLine_error happly
      rw [settingFault?_eq_some_iff.mpr hall] at hfault
      cases hfault

theorem after_of_fault {fault : SettingFault} (h : settingFault? line = some fault) :
    s.after line = s := by
  unfold after
  rw [settingFault?_eq_some_iff.mp h]

/-- A line that does not begin with `set` changes nothing and is never faulty. -/
theorem applyLine_of_settingArgs? (h : settingArgs? line = none) (s : Settings) :
    s.applyLine line = .ok s := by
  unfold applyLine
  rw [h]

theorem after_of_settingArgs? (h : settingArgs? line = none) : s.after line = s := by
  unfold after
  rw [applyLine_of_settingArgs? h]

theorem settingFault?_of_settingArgs? (h : settingArgs? line = none) :
    settingFault? line = none := by
  unfold settingFault?
  rw [applyLine_of_settingArgs? h]

theorem readLimit?_pos {value : String} {limit : Nat} (h : readLimit? value = some limit) :
    1 ≤ limit := by
  have hpos := (Option.filter_eq_some_iff.mp h).2
  exact of_decide_eq_true hpos

/-- Only one of the settings has to be positive, and no value that is not can be given to it. -/
theorem jumpLimit_pos_of_assign {name value : String} (h : s.assign name value = .ok s')
    (hs : 1 ≤ s.jumpLimit) : 1 ≤ s'.jumpLimit := by
  have hmap {change : Bool → Settings} {result : Except SettingFault Bool}
      (h : result.map change = .ok s') (hchange : ∀ on, (change on).jumpLimit = s.jumpLimit) :
      1 ≤ s'.jumpLimit := by
    cases result with
    | error fault => cases h
    | ok on =>
      cases h
      rw [hchange]
      exact hs
  unfold assign at h
  split at h
  · cases h
  · exact hmap h fun _ => rfl
  · exact hmap h fun _ => rfl
  · cases hlimit : readLimit? value with
    | none =>
      rw [hlimit] at h
      cases h
    | some limit =>
      rw [hlimit] at h
      cases h
      exact readLimit?_pos hlimit
  · cases h
    exact hs
  · cases h
    exact hs
  · cases h

theorem jumpLimit_pos_after (hs : 1 ≤ s.jumpLimit) : 1 ≤ (s.after line).jumpLimit := by
  unfold after
  cases happly : s.applyLine line with
  | error fault => exact hs
  | ok changed =>
    rcases applyLine_cases line with hidle | ⟨fault, hfault⟩ | ⟨name, value, hassign⟩
    · rw [hidle] at happly
      cases happly
      exact hs
    · rw [hfault] at happly
      cases happly
    · rw [hassign] at happly
      exact jumpLimit_pos_of_assign happly hs

/-! All lines. -/

/-- The fault of a numbered line. -/
def numberedFault? (line : String × Nat) : Option LineFault :=
  (settingFault? line.1).map fun fault => ⟨line.2, fault⟩

/-- The settings are a fold over the lines, and the faults are those of the lines one by one. -/
theorem applyLines_eq (s : Settings) (number : Nat) (lines : List String) :
    s.applyLines number lines =
      (lines.foldl after s, (lines.zipIdx number).filterMap numberedFault?) := by
  induction lines generalizing s number with
  | nil => rfl
  | cons line lines ih =>
    rw [applyLines, applyLine_eq, List.foldl_cons, List.zipIdx_cons]
    cases hfault : settingFault? line with
    | none =>
      have hnone : numberedFault? (line, number) = none := by
        rw [numberedFault?, hfault]
        rfl
      rw [List.filterMap_cons_none hnone]
      exact ih (s.after line) (number + 1)
    | some fault =>
      have hsome : numberedFault? (line, number) = some ⟨number, fault⟩ := by
        rw [numberedFault?, hfault]
        rfl
      rw [List.filterMap_cons_some hsome, after_of_fault hfault]
      dsimp only
      rw [ih s (number + 1)]

theorem jumpLimit_pos_foldl (lines : List String) (hs : 1 ≤ s.jumpLimit) :
    1 ≤ (lines.foldl after s).jumpLimit := by
  induction lines generalizing s with
  | nil => exact hs
  | cons line lines ih => exact ih (jumpLimit_pos_after hs)

theorem foldl_after_filter (s : Settings) (lines : List String) :
    (lines.filter fun line => (settingArgs? line).isSome).foldl after s = lines.foldl after s := by
  rw [List.foldl_filter]
  congr 1
  funext s line
  cases hargs : settingArgs? line with
  | none => exact (after_of_settingArgs? hargs).symm
  | some args => rfl

theorem pairwise_line_lt (number : Nat) (lines : List String) :
    (((lines.zipIdx number).filterMap numberedFault?).map (·.line)).Pairwise (· < ·) := by
  rw [List.pairwise_map, List.pairwise_filterMap]
  have hnumbers : (lines.zipIdx number).Pairwise fun line line' => line.2 < line'.2 := by
    rw [← List.pairwise_map, List.zipIdx_map_snd]
    exact List.pairwise_lt_range'
  apply hnumbers.imp
  intro line line' hlt fault hfault fault' hfault'
  obtain ⟨_, _, rfl⟩ := Option.map_eq_some_iff.mp hfault
  obtain ⟨_, _, rfl⟩ := Option.map_eq_some_iff.mp hfault'
  exact hlt

/-- The numbers count on from the lines before. -/
theorem filterMap_zipIdx_add (lines : List String) (n number : Nat) :
    (lines.zipIdx (n + number)).filterMap numberedFault? =
      ((lines.zipIdx number).filterMap numberedFault?).map
        fun fault => { fault with line := fault.line + n } := by
  rw [← List.map_snd_add_zipIdx_eq_zipIdx, List.filterMap_map, List.map_filterMap]
  congr 1
  funext line
  simp only [Function.comp_apply, numberedFault?, Option.map_map]
  rfl

theorem mem_faults_iff {text : String} {number : Nat} {fault : SettingFault} :
    ⟨number, fault⟩ ∈ (load text).2 ↔
      1 ≤ number ∧ ∃ line, (splitLines text)[number - 1]? = some line ∧
        settingFault? line = some fault := by
  rw [load, applyLines_eq, List.mem_filterMap]
  constructor
  · rintro ⟨⟨line, number'⟩, hmem, hfault⟩
    obtain ⟨cause, hcause, heq⟩ := Option.map_eq_some_iff.mp hfault
    cases heq
    obtain ⟨hle, hline⟩ := List.mk_mem_zipIdx_iff_le_and_getElem?_sub.mp hmem
    exact ⟨hle, line, hline, hcause⟩
  · rintro ⟨hle, line, hline, hfault⟩
    refine ⟨(line, number), List.mk_mem_zipIdx_iff_le_and_getElem?_sub.mpr ⟨hle, hline⟩, ?_⟩
    rw [numberedFault?, hfault]
    rfl

/-- A text behind whole lines changes their settings further, and its lines are counted from the last
of them. -/
theorem load_append {before : String} (h : WholeLines before.toList) (text : String) :
    load (before ++ text) =
      ((splitLines text).foldl after (load before).1,
        (load before).2 ++ (load text).2.map
          fun fault => { fault with line := fault.line + (splitLines before).length }) := by
  rw [load, load, load, applyLines_eq, applyLines_eq, applyLines_eq, splitLines_append h,
    List.foldl_append, List.zipIdx_append, List.filterMap_append, Nat.add_comm 1,
    filterMap_zipIdx_add]

/-! Lines that set nothing. -/

/-- The text of a settings file in which spaces stand for the lines that set nothing: those that do
not begin with `set`, and those that are faulty. How many spaces there are depends on the line. -/
def blanked (width : List Char → Nat) (text : String) : String :=
  String.ofList ((endedLines text.toList).mapIdx fun i line =>
    (if settingArgs? (String.ofList line.1) = none ∨ i + 1 ∈ (load text).2.map (·.line)
      then List.replicate (width line.1) ' ' else line.1) ++ line.2).flatten

/-- Whether a line sets something. -/
def isEffective (line : List Char) : Bool :=
  (settingArgs? (String.ofList line)).isSome && (settingFault? (String.ofList line)).isNone

/-- A line, or as many spaces as wanted if it sets nothing. -/
def blankedLine (width : List Char → Nat) (line : List Char) : List Char :=
  if isEffective line then line else List.replicate (width line) ' '

theorem storable_replicate (n : Nat) : Storable (List.replicate n ' ') := by
  constructor
  · intro hmem
    have hspace := (List.mem_replicate.mp hmem).2
    contradiction
  · intro hlast
    have hspace := (List.mem_replicate.mp (List.mem_of_getLast? hlast)).2
    contradiction

theorem settingArgs?_replicate (n : Nat) :
    settingArgs? (String.ofList (List.replicate n ' ')) = none := by
  have hspaces : ∀ c ∈ List.replicate n ' ', isBlank c = true := by
    intro c hc
    rw [(List.mem_replicate.mp hc).2]
    rfl
  have htrim : trimBlanks (List.replicate n ' ') = [] := by
    rw [trimBlanks, List.dropWhile_eq_nil_iff.mpr hspaces]
    rfl
  rw [settingArgs?, String.toList_ofList, htrim, if_pos (Or.inl rfl)]

/-- Of a line that sets nothing, nothing is missed. -/
theorem after_blankedLine (width : List Char → Nat) (s : Settings) (line : List Char) :
    s.after (String.ofList (blankedLine width line)) = s.after (String.ofList line) := by
  unfold blankedLine
  split
  · rfl
  · rename_i hidle
    rw [after_of_settingArgs? (settingArgs?_replicate _)]
    cases hargs : settingArgs? (String.ofList line) with
    | none => exact (after_of_settingArgs? hargs).symm
    | some args =>
      cases hfault : settingFault? (String.ofList line) with
      | some fault => exact (after_of_fault hfault).symm
      | none =>
        rw [isEffective, hargs, hfault] at hidle
        exact absurd rfl hidle

theorem settingFault?_blankedLine (width : List Char → Nat) (line : List Char) :
    settingFault? (String.ofList (blankedLine width line)) = none := by
  unfold blankedLine
  split
  · rename_i heffective
    rw [isEffective, Bool.and_eq_true] at heffective
    exact Option.isNone_iff_eq_none.mp heffective.2
  · exact settingFault?_of_settingArgs? (settingArgs?_replicate _)

theorem number_mem_iff {text line : String} {i : Nat} (h : (splitLines text)[i]? = some line) :
    i + 1 ∈ (load text).2.map (·.line) ↔ settingFault? line ≠ none := by
  rw [List.mem_map, Option.ne_none_iff_exists']
  constructor
  · rintro ⟨⟨number, fault⟩, hmem, rfl⟩
    obtain ⟨_, found, hfound, hfault⟩ := mem_faults_iff.mp hmem
    rw [Nat.add_sub_cancel, h] at hfound
    cases hfound
    exact ⟨fault, hfault⟩
  · rintro ⟨fault, hfault⟩
    exact ⟨⟨i + 1, fault⟩, mem_faults_iff.mpr ⟨Nat.le_add_left 1 i, line, h, hfault⟩, rfl⟩

/-- The lines that are replaced are those that set nothing, which does not depend on their numbers. -/
theorem toList_blanked (width : List Char → Nat) (text : String) :
    (blanked width text).toList =
      (endedLines text.toList).flatMap fun line => blankedLine width line.1 ++ line.2 := by
  rw [blanked, String.toList_ofList, List.flatMap_def]
  apply congrArg List.flatten
  apply List.ext_getElem?
  intro i
  rw [List.getElem?_mapIdx, List.getElem?_map]
  cases hline : (endedLines text.toList)[i]? with
  | none => rfl
  | some line =>
    have hnumbered : (splitLines text)[i]? = some (String.ofList line.1) := by
      rw [splitLines, ← map_fst_endedLines, List.getElem?_map, List.getElem?_map, hline]
      rfl
    have hidle : (settingArgs? (String.ofList line.1) = none ∨
        i + 1 ∈ (load text).2.map (·.line)) ↔ ¬isEffective line.1 = true := by
      rw [number_mem_iff hnumbered, isEffective]
      cases settingArgs? (String.ofList line.1) <;>
        cases settingFault? (String.ofList line.1) <;> simp
    have hreplaced : (if settingArgs? (String.ofList line.1) = none ∨
        i + 1 ∈ (load text).2.map (·.line) then List.replicate (width line.1) ' ' else line.1) =
        blankedLine width line.1 := by
      rw [blankedLine, if_congr hidle rfl rfl, ite_not]
    rw [Option.map_some, Option.map_some, hreplaced]

theorem load_blanked (width : List Char → Nat) (text : String) :
    load (blanked width text) = ((load text).1, []) := by
  have hlines : ∀ line, blankedLine width line = line ∨ Storable (blankedLine width line) := by
    intro line
    unfold blankedLine
    split
    · exact Or.inl rfl
    · exact Or.inr (storable_replicate _)
  obtain ⟨lost, hlost, hreplaced⟩ := linesOf_replaced hlines text.toList
  rw [← toList_blanked] at hreplaced
  have hfold : (splitLines (blanked width text)).foldl after {} =
      (splitLines text).foldl after {} := by
    -- The empty line that may be lost at the end would not have set anything either.
    have hempty (s : Settings) : (lost.map String.ofList).foldl after s = s := by
      rcases hlost with rfl | rfl <;> rfl
    calc (splitLines (blanked width text)).foldl after {}
        = (splitLines (blanked width text) ++ lost.map String.ofList).foldl after {} := by
          rw [List.foldl_append, hempty]
      _ = ((linesOf text.toList).map (blankedLine width)).foldl
            (fun s line => s.after (String.ofList line)) {} := by
          rw [splitLines, ← List.map_append, hreplaced, List.foldl_map]
      _ = (linesOf text.toList).foldl (fun s line => s.after (String.ofList line)) {} := by
          rw [List.foldl_map]
          simp only [after_blankedLine]
      _ = (splitLines text).foldl after {} := by
          rw [splitLines, List.foldl_map]
  have hfaultless : ∀ line ∈ splitLines (blanked width text), settingFault? line = none := by
    intro line hline
    obtain ⟨cs, hcs, rfl⟩ := List.mem_map.mp hline
    have hmem : cs ∈ (linesOf text.toList).map (blankedLine width) := by
      rw [← hreplaced]
      exact List.mem_append_left lost hcs
    obtain ⟨old, _, rfl⟩ := List.mem_map.mp hmem
    exact settingFault?_blankedLine width old
  have hnone : ((splitLines (blanked width text)).zipIdx 1).filterMap numberedFault? = [] := by
    rw [List.filterMap_eq_nil_iff]
    rintro ⟨line, number⟩ hline
    rw [numberedFault?, hfaultless line (List.fst_mem_of_mem_zipIdx hline)]
    rfl
  rw [load, load, applyLines_eq, applyLines_eq, hfold, hnone]

/-- A settings file is the fold of its lines that are in order. Its faults are those of the other
lines, by number, and both they and the lines that do not begin with `set` can be blanked. A file whose
lines are whole can be continued: what follows changes its settings further. -/
theorem settings_file_is_a_fold (text : String) :
    ((load text).2.map (·.line)).Pairwise (· < ·) ∧
      (∀ fault ∈ (load text).2, 1 ≤ fault.line ∧ fault.line ≤ (splitLines text).length) ∧
      (∀ number fault, ⟨number, fault⟩ ∈ (load text).2 ↔
        1 ≤ number ∧ ∃ line, (splitLines text)[number - 1]? = some line ∧
          ∀ s : Settings, s.applyLine line = .error fault) ∧
      (∀ width, load (blanked width text) = ((load text).1, [])) ∧
      1 ≤ (load text).1.jumpLimit ∧
      ∀ before : String, WholeLines before.toList →
        load (before ++ text) =
          (((splitLines text).filter fun line => (settingArgs? line).isSome).foldl after
              (load before).1,
            (load before).2 ++ (load text).2.map
              fun fault => { fault with line := fault.line + (splitLines before).length }) := by
  have hfaults (number : Nat) (fault : SettingFault) : ⟨number, fault⟩ ∈ (load text).2 ↔
      1 ≤ number ∧ ∃ line, (splitLines text)[number - 1]? = some line ∧
        ∀ s : Settings, s.applyLine line = .error fault := by
    simp only [mem_faults_iff, settingFault?_eq_some_iff]
  refine ⟨?_, ?_, hfaults, fun width => load_blanked width text, ?_, ?_⟩
  · rw [load, applyLines_eq]
    exact pairwise_line_lt 1 (splitLines text)
  · intro fault hfault
    obtain ⟨hpos, line, hline, _⟩ := (hfaults fault.line fault.fault).mp hfault
    have hlt : fault.line - 1 < (splitLines text).length :=
      (List.getElem?_eq_some_iff.mp hline).1
    omega
  · rw [load, applyLines_eq]
    exact jumpLimit_pos_foldl (splitLines text) (by decide)
  · intro before hbefore
    rw [load_append hbefore, foldl_after_filter]

/-- The first half ends its lines in both ways and has two faults. The second half begins with a
comment, has a blank that is not one of ASCII, and ends in a carriage return without a line feed. -/
theorem second_half_continues_the_first :
    let before := "set jump_limit=0\r\nset log_level a=b\nset echo=off\n"
    let text := "# set debug on\r\nset debug=maybe\n\u3000set\tjump_limit  7\r"
    let fault : LineFault := ⟨2, .notSwitch "debug" "maybe"⟩
    WholeLines before.toList ∧
      load (before ++ text) =
        ({ echo := false, jumpLimit := 7 },
          [⟨1, .notLimit "0"⟩, ⟨2, .unknownName "log_level a"⟩,
            { fault with line := fault.line + 3 }]) ∧
      fault ∈ (load text).2 ∧ 1 ≤ fault.line ∧ fault.line ≤ (splitLines text).length := by
  intro before text fault
  have hbefore : WholeLines before.toList := by decide
  have hfault : fault ∈ (load text).2 := by decide +kernel
  obtain ⟨_, hbounds, _, _, _, happend⟩ := settings_file_is_a_fold text
  refine ⟨hbefore, (happend before hbefore).trans ?_, hfault, hbounds fault hfault⟩
  decide +kernel

end Settings

end LineScript
