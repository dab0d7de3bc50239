import LineScript.Proofs.Forms
import LineScript.Proofs.SettingsFile

/-! The two forms of a line that sets something: the name and the value are separated by a blank, or by
a sign of equality. They mean the same unless there is a sign of equality in the value. -/

namespace LineScript

/-! Blanks around a text. -/

/-- A text without blanks at its ends. -/
def Trimmed (cs : List Char) : Prop :=
  (∀ c ∈ cs.head?, isBlank c = false) ∧ ∀ c ∈ cs.getLast?, isBlank c = false

instance (cs : List Char) : Decidable (Trimmed cs) :=
  decidable_of_iff
    (cs.head?.all (!isBlank ·) = true ∧ cs.getLast?.all (!isBlank ·) = true)
    (by simp [Trimmed, Option.all_eq_true])

theorem trimmed_of_forall {cs : List Char} (h : ∀ c ∈ cs, isBlank c = false) : Trimmed cs :=
  ⟨fun c hc => h c (List.mem_of_head? hc), fun c hc => h c (List.mem_of_getLast? hc)⟩

theorem Trimmed.between {front back : List Char} (hf : Trimmed front) (hb : Trimmed back)
    (hfront : front ≠ []) (hback : back ≠ []) (middle : List Char) :
    Trimmed (front ++ (middle ++ back)) := by
  constructor
  · intro c hc
    rw [List.head?_append_of_ne_nil _ hfront] at hc
    exact hf.1 c hc
  · intro c hc
    rw [← List.append_assoc, List.getLast?_append_of_ne_nil _ hback] at hc
    exact hb.2 c hc

theorem dropWhile_of_head? {cs : List Char} (h : ∀ c ∈ cs.head?, isBlank c = false) :
    cs.dropWhile isBlank = cs := by
  cases cs with
  | nil => rfl
  | cons c cs =>
    have hc : ¬isBlank c = true := by
      rw [h c rfl]
      exact Bool.false_ne_true
    exact List.dropWhile_cons_of_neg hc

/-- Behind a text that has no blanks at its ends, only blanks at the very end are removed. -/
theorem trimBlanks_append {cs : List Char} (hne : cs ≠ []) (h : Trimmed cs) (more : List Char) :
    trimBlanks (cs ++ more) = cs ++ (more.reverse.dropWhile isBlank).reverse := by
  have hfront : (cs ++ more).dropWhile isBlank = cs ++ more := by
    apply dropWhile_of_head?
    intro c hc
    rw [List.head?_append_of_ne_nil _ hne] at hc
    exact h.1 c hc
  have hback : cs.reverse.dropWhile isBlank = cs.reverse := by
    apply dropWhile_of_head?
    intro c hc
    rw [List.head?_reverse] at hc
    exact h.2 c hc
  have hends : (more.reverse ++ cs.reverse).dropWhile isBlank =
      more.reverse.dropWhile isBlank ++ cs.reverse := by
    rw [List.dropWhile_append, hback]
    split
    · rename_i hempty
      rw [List.isEmpty_iff.mp hempty]
      rfl
    · rfl
  rw [trimBlanks, hfront, List.reverse_append, hends, List.reverse_append, List.reverse_reverse]

theorem Trimmed.trimBlanks_eq {cs : List Char} (h : Trimmed cs) : trimBlanks cs = cs := by
  cases hcs : cs with
  | nil => rfl
  | cons c rest =>
    have hne : cs ≠ [] := by
      rw [hcs]
      exact List.cons_ne_nil c rest
    have happend := trimBlanks_append hne h []
    rw [List.append_nil, List.reverse_nil, List.dropWhile_nil, List.reverse_nil, List.append_nil,
      hcs] at happend
    exact happend

theorem cutAt?_eq_none {p : Char → Bool} {cs : List Char} (h : ∀ c ∈ cs, p c = false) :
    cutAt? p cs = none := by
  induction cs with
  | nil => rfl
  | cons c cs ih =>
    obtain ⟨hc, hcs⟩ := List.forall_mem_cons.mp h
    simp [cutAt?, hc, ih hcs]

/-! The forms. -/

/-- The names of the settings. -/
def settingNames : List String :=
  ["debug", "echo", "jump_limit", "log_file", "log_level"]

/-- The form with a blank between the name and the value. -/
def blankForm (name value : String) : String :=
  "set " ++ name ++ " " ++ value

/-- The form with a sign of equality between the name and the value. -/
def equalsForm (name value : String) : String :=
  "set " ++ name ++ "=" ++ value

/-- A value as it is written on a line, with nothing around it that would be removed. -/
structure IsValue (value : String) : Prop where
  nonempty : value ≠ ""
  unbroken : '\n' ∉ value.toList
  trimmed : Trimmed value.toList

namespace Settings

variable {name value : String}

theorem toList_blankForm (name value : String) :
    (blankForm name value).toList =
      's' :: 'e' :: 't' :: ' ' :: (name.toList ++ ' ' :: value.toList) := by
  simp [blankForm, String.toList_append]

theorem toList_equalsForm (name value : String) :
    (equalsForm name value).toList =
      's' :: 'e' :: 't' :: ' ' :: (name.toList ++ '=' :: value.toList) := by
  simp [equalsForm, String.toList_append]

theorem settingArgs?_of_set {line : String} {args : List Char}
    (hline : line.toList = 's' :: 'e' :: 't' :: ' ' :: args) (hne : args ≠ []) (h : Trimmed args) :
    settingArgs? line = some args := by
  have hletters : ∀ c ∈ ['s', 'e', 't'], isBlank c = false ∧ isAsciiBlank c = false := by
    intro c hc
    simp only [List.mem_cons, List.not_mem_nil, or_false] at hc
    rcases hc with rfl | rfl | rfl <;> decide
  have hword : Trimmed ['s', 'e', 't'] := trimmed_of_forall fun c hc => (hletters c hc).1
  have htext : Trimmed line.toList := by
    rw [hline]
    exact hword.between h (List.cons_ne_nil _ _) hne [' ']
  have hcut : cutAt? isAsciiBlank line.toList = some (['s', 'e', 't'], args) := by
    rw [hline]
    exact cutAt?_append (fun c hc => (hletters c hc).2) rfl args
  have hno : ¬(line.toList = [] ∨ line.toList.head? = some ';' ∨ line.toList.head? = some '#') := by
    rw [hline, List.head?_cons]
    simp
  unfold settingArgs?
  dsimp only
  rw [htext.trimBlanks_eq, if_neg hno, hcut, Option.getD_some]
  dsimp only
  rw [h.trimBlanks_eq]
  rfl

theorem mem_settingNames : name ∈ settingNames ↔
    name = "debug" ∨ name = "echo" ∨ name = "jump_limit" ∨ name = "log_file" ∨
      name = "log_level" := by
  simp [settingNames]

theorem facts_of_mem_settingNames (h : name ∈ settingNames) :
    name.toList ≠ [] ∧ ∀ c ∈ name.toList, isBlank c = false ∧ isAsciiBlank c = false ∧ c ≠ '=' := by
  have hall : (settingNames.all fun name => !name.toList.isEmpty &&
      name.toList.all fun c => !isBlank c && !isAsciiBlank c && c != '=') = true := by
    decide +kernel
  have hname := List.all_eq_true.mp hall name h
  simpa [and_assoc] using hname

theorem splitSetting_equals (hn : name ∈ settingNames) (hv : Trimmed value.toList) :
    splitSetting (name.toList ++ '=' :: value.toList) = .ok (name, value) := by
  obtain ⟨_, hletters⟩ := facts_of_mem_settingNames hn
  have hname : Trimmed name.toList := trimmed_of_forall fun c hc => (hletters c hc).1
  have hcut : cutAt? (· = '=') (name.toList ++ '=' :: value.toList) =
      some (name.toList, value.toList) :=
    cutAt?_append (fun c hc => decide_eq_false (hletters c hc).2.2) (decide_eq_true rfl) _
  rw [splitSetting, hcut]
  dsimp only
  rw [hname.trimBlanks_eq, hv.trimBlanks_eq, String.ofList_toList, String.ofList_toList]

/-- There is no sign of equality in a name, nor in the blank behind it. -/
theorem ne_equals_of_mem {rest : List Char} (hn : name ∈ settingNames) (hrest : '=' ∉ rest) :
    ∀ c ∈ name.toList ++ ' ' :: rest, decide (c = '=') = false := by
  obtain ⟨_, hletters⟩ := facts_of_mem_settingNames hn
  intro c hc
  apply decide_eq_false
  rcases List.mem_append.mp hc with hname | hlater
  · exact (hletters c hname).2.2
  · rintro rfl
    rcases List.mem_cons.mp hlater with hspace | hmem
    · contradiction
    · exact hrest hmem

theorem splitSetting_blank (hn : name ∈ settingNames) (hv : Trimmed value.toList)
    (h : '=' ∉ value.toList) :
    splitSetting (name.toList ++ ' ' :: value.toList) = .ok (name, value) := by
  obtain ⟨_, hletters⟩ := facts_of_mem_settingNames hn
  have hnone : cutAt? (· = '=') (name.toList ++ ' ' :: value.toList) = none :=
    cutAt?_eq_none (ne_equals_of_mem hn h)
  have hcut : cutAt? isAsciiBlank (name.toList ++ ' ' :: value.toList) =
      some (name.toList, value.toList) :=
    cutAt?_append (fun c hc => (hletters c hc).2.1) rfl _
  rw [splitSetting, hnone]
  dsimp only
  rw [hcut]
  dsimp only
  rw [hv.trimBlanks_eq, String.ofList_toList, String.ofList_toList]

/-- The sign of equality comes first, so a part of the value is taken for a part of the name. -/
theorem splitSetting_of_mem {front back : List Char} (hn : name ∈ settingNames)
    (hfront : '=' ∉ front) :
    splitSetting (name.toList ++ ' ' :: (front ++ '=' :: back)) =
      .ok (String.ofList (trimBlanks (name.toList ++ ' ' :: front)),
        String.ofList (trimBlanks back)) := by
  have hcut := cutAt?_append (ne_equals_of_mem hn hfront) (decide_eq_true rfl) back
  rw [List.append_assoc, List.cons_append] at hcut
  rw [splitSetting, hcut]

theorem applyLine_of_args {line : String} {args : List Char}
    (ha : settingArgs? line = some args) (hs : splitSetting args = .ok (name, value))
    (s : Settings) : s.applyLine line = s.assign name value := by
  rw [applyLine, ha]
  dsimp only
  rw [hs]
  rfl

/-- The arguments of either form. -/
theorem args_of_forms (hn : name ∈ settingNames) (hv : IsValue value) (separator : Char) :
    name.toList ++ separator :: value.toList ≠ [] ∧
      Trimmed (name.toList ++ separator :: value.toList) := by
  obtain ⟨hne, hletters⟩ := facts_of_mem_settingNames hn
  have hname : Trimmed name.toList := trimmed_of_forall fun c hc => (hletters c hc).1
  have hvalue : value.toList ≠ [] := fun he => hv.nonempty (String.toList_inj.mp he)
  exact ⟨List.append_ne_nil_of_left_ne_nil hne _,
    hname.between hv.trimmed hne hvalue [separator]⟩

theorem applyLine_equalsForm (hn : name ∈ settingNames) (hv : IsValue value) (s : Settings) :
    s.applyLine (equalsForm name value) = s.assign name value := by
  obtain ⟨hne, htrimmed⟩ := args_of_forms hn hv '='
  have hargs := settingArgs?_of_set (toList_equalsForm name value) hne htrimmed
  exact applyLine_of_args hargs (splitSetting_equals hn hv.trimmed) s

theorem settingArgs?_blankForm (hn : name ∈ settingNames) (hv : IsValue value) :
    settingArgs? (blankForm name value) = some (name.toList ++ ' ' :: value.toList) := by
  obtain ⟨hne, htrimmed⟩ := args_of_forms hn hv ' '
  exact settingArgs?_of_set (toList_blankForm name value) hne htrimmed

theorem applyLine_blankForm (hn : name ∈ settingNames) (hv : IsValue value)
    (h : '=' ∉ value.toList) (s : Settings) :
    s.applyLine (blankForm name value) = s.assign name value :=
  applyLine_of_args (settingArgs?_blankForm hn hv) (splitSetting_blank hn hv.trimmed h) s

/-! A sign of equality in the value. -/

theorem assign_of_not_mem (hne : name ≠ "") (h : name ∉ settingNames) (s : Settings)
    (value : String) : s.assign name value = .error (.unknownName name) := by
  unfold assign
  split
  case h_1 => exact absurd rfl hne
  case h_7 => rfl
  all_goals exact absurd (by decide) h

/-- A name that can be set is not unknown. -/
theorem assign_ne_unknownName (h : name ∈ settingNames) (s : Settings) (value other : String) :
    s.assign name value ≠ .error (.unknownName other) := by
  have hswitch (name : String) (change : Bool → Settings) :
      (switch name value).map change ≠ .error (.unknownName other) := by
    unfold switch
    cases readSwitch? value <;> exact fun heq => by cases heq
  rcases mem_settingNames.mp h with rfl | rfl | rfl | rfl | rfl
  · exact hswitch "debug" fun on => { s with debug := on }
  · exact hswitch "echo" fun on => { s with echo := on }
  · unfold assign
    cases readLimit? value <;> exact fun heq => by cases heq
  · exact fun heq => by cases heq
  · exact fun heq => by cases heq

theorem readSwitch?_eq_none (h : '=' ∈ value.toList) : readSwitch? value = none := by
  have hlower : '=' ∈ (String.ofList (value.toList.map Char.toLower)).toList := by
    rw [String.toList_ofList]
    exact List.mem_map.mpr ⟨'=', h, rfl⟩
  unfold readSwitch?
  generalize String.ofList (value.toList.map Char.toLower) = word at hlower
  split
  case h_9 => rfl
  all_goals exact absurd hlower (by decide +kernel)

theorem readLimit?_eq_none (h : '=' ∈ value.toList) : readLimit? value = none := by
  have hdigits {cs : List Char} (hmem : '=' ∈ cs) : unsigned? cs = none := by
    cases hvalue : unsigned? cs with
    | none => rfl
    | some n => exact absurd ((unsigned?_eq_some_iff.mp hvalue).1.2 '=' hmem) (by decide)
  have hnatural : natural? value.toList = none := by
    generalize value.toList = cs at h
    unfold natural?
    split
    · exact hdigits (List.mem_of_ne_of_mem (by decide) h)
    · exact hdigits h
  rw [readLimit?, readCount?, hnatural]
  rfl

/-- A value with a sign of equality in it has its own effect, or its own fault. -/
theorem assign_ne_of_mem (hn : name ∈ settingNames) (h : '=' ∈ value.toList) {other : String}
    (hne : other ≠ value) (s : Settings) : s.assign name other ≠ s.assign name value := by
  have hswitch (name : String) (change : Bool → Settings) :
      (switch name other).map change ≠ (switch name value).map change := by
    unfold switch
    rw [readSwitch?_eq_none h]
    cases readSwitch? other with
    | some on => exact fun heq => by cases heq
    | none =>
      intro heq
      cases heq
      exact hne rfl
  rcases mem_settingNames.mp hn with rfl | rfl | rfl | rfl | rfl
  · exact hswitch "debug" fun on => { s with debug := on }
  · exact hswitch "echo" fun on => { s with echo := on }
  · unfold assign
    rw [readLimit?_eq_none h]
    cases readLimit? other with
    | some limit => exact fun heq => by cases heq
    | none =>
      intro heq
      cases heq
      exact hne rfl
  · intro heq
    cases heq
    exact hne rfl
  · intro heq
    cases heq
    exact hne rfl

theorem length_trimBlanks_le (cs : List Char) : (trimBlanks cs).length ≤ cs.length := by
  rw [trimBlanks, List.length_reverse]
  have hback := (List.dropWhile_suffix isBlank (l := (cs.dropWhile isBlank).reverse)).length_le
  have hfront := (List.dropWhile_suffix isBlank (l := cs)).length_le
  rw [List.length_reverse] at hback
  exact hback.trans hfront

theorem applyLine_blankForm_ne (hn : name ∈ settingNames) (hv : IsValue value)
    (h : '=' ∈ value.toList) (s : Settings) :
    s.applyLine (blankForm name value) ≠ s.assign name value := by
  obtain ⟨hne, hletters⟩ := facts_of_mem_settingNames hn
  have hname : Trimmed name.toList := trimmed_of_forall fun c hc => (hletters c hc).1
  obtain ⟨front, back, hvalue, hfront⟩ := List.eq_append_cons_of_mem h
  have hargs := settingArgs?_blankForm hn hv
  rw [hvalue] at hargs
  rw [applyLine_of_args hargs (splitSetting_of_mem hn hfront)]
  cases front with
  | nil =>
    -- The value begins with the sign, and loses it.
    have htrim : trimBlanks (name.toList ++ [' ']) = name.toList := by
      rw [trimBlanks_append hne hname]
      exact List.append_nil _
    have hother : String.ofList (trimBlanks back) ≠ value := by
      intro heq
      have hlength := length_trimBlanks_le back
      rw [← String.toList_ofList (l := trimBlanks back), heq, hvalue] at hlength
      simp at hlength
    rw [htrim, String.ofList_toList]
    exact assign_ne_of_mem hn h hother s
  | cons first front =>
    -- The name gets a part of the value, and with it a blank.
    have hfirst : isBlank first = false := by
      apply hv.trimmed.1
      rw [hvalue]
      rfl
    have hlonger : Trimmed (name.toList ++ ([' '] ++ [first])) :=
      hname.between (trimmed_of_forall (List.forall_mem_singleton.mpr hfirst)) hne
        (List.cons_ne_nil _ _) [' ']
    have htrim : ∃ more, trimBlanks (name.toList ++ ' ' :: first :: front) =
        name.toList ++ ' ' :: first :: more := by
      have happend := trimBlanks_append (List.append_ne_nil_of_left_ne_nil hne _) hlonger front
      simp only [List.append_assoc, List.cons_append, List.nil_append] at happend
      exact ⟨_, happend⟩
    obtain ⟨more, hmore⟩ := htrim
    rw [hmore]
    generalize hunknown : String.ofList (name.toList ++ ' ' :: first :: more) = unknown
    have hspace : ' ' ∈ unknown.toList := by
      rw [← hunknown, String.toList_ofList]
      exact List.mem_append_right _ List.mem_cons_self
    have hnot : unknown ∉ settingNames := by
      intro hmem
      have hblank := ((facts_of_mem_settingNames hmem).2 ' ' hspace).1
      contradiction
    have hunnamed : unknown ≠ "" := by
      rintro rfl
      exact absurd hspace (by decide)
    rw [assign_of_not_mem hunnamed hnot]
    exact (assign_ne_unknownName hn s value unknown).symm

/-! The forms in a file. -/

theorem storable_of_form {line : String} {separator : Char} (hn : name ∈ settingNames)
    (hv : IsValue value) (hs : separator ≠ '\n')
    (hline : line.toList = 's' :: 'e' :: 't' :: ' ' :: (name.toList ++ separator :: value.toList)) :
    line.toList ≠ [] ∧ Storable line.toList := by
  obtain ⟨_, hletters⟩ := facts_of_mem_settingNames hn
  have hname : '\n' ∉ name.toList := by
    intro hmem
    have hblank := (hletters '\n' hmem).1
    contradiction
  have hvalue : value.toList ≠ [] := fun he => hv.nonempty (String.toList_inj.mp he)
  rw [hline]
  refine ⟨List.cons_ne_nil _ _, ?_, ?_⟩
  · simp [hname, hs.symm, hv.unbroken]
  · intro hlast
    have hend : ('s' :: 'e' :: 't' :: ' ' :: (name.toList ++ separator :: value.toList)).getLast? =
        value.toList.getLast? := by
      rw [← List.getLast?_append_of_ne_nil
        ('s' :: 'e' :: 't' :: ' ' :: (name.toList ++ [separator])) hvalue]
      simp
    rw [hend] at hlast
    have hblank := hv.trimmed.2 '\r' hlast
    contradiction

/-- Lines that mean the same can stand for each other. -/
theorem applyLines_replace {line line' : String}
    (h : ∀ s : Settings, s.applyLine line = s.applyLine line') (s : Settings) (number : Nat)
    (before later : List String) :
    s.applyLines number (before ++ line :: later) =
      s.applyLines number (before ++ line' :: later) := by
  induction before generalizing s number with
  | nil => rw [List.nil_append, List.nil_append, applyLines, applyLines, h]
  | cons other before ih =>
    rw [List.cons_append, List.cons_append, applyLines, applyLines]
    simp only [ih]

/-- What is read from a file of one line, by what that line leads to. -/
def ofSingleLine : Except SettingFault Settings → Settings × List LineFault
  | .ok changed => (changed, [])
  | .error fault => ({}, [⟨1, fault⟩])

theorem load_of_line {line : String} (hl : line.toList ≠ [] ∧ Storable line.toList) :
    load line = ofSingleLine (({} : Settings).applyLine line) := by
  rw [load, splitLines, linesOf_unended hl.1 hl.2.1, List.map_singleton, String.ofList_toList,
    applyLines]
  cases ({} : Settings).applyLine line <;> rfl

/-- A file of one line shows what the line means. -/
theorem ofSingleLine_injective {result result' : Except SettingFault Settings}
    (h : ofSingleLine result = ofSingleLine result') : result = result' := by
  cases result <;> cases result' <;> cases h <;> rfl

/-- Both forms mean the same in every file, just if there is no sign of equality in the value. With one,
the form with a blank is read as a line that sets another value, or an unknown name. -/
theorem forms_agree_iff_no_equals_sign (hn : name ∈ settingNames) (hv : IsValue value) :
    (∀ before after : String, WholeLines before.toList → FollowsLine after.toList →
      load (before ++ (blankForm name value ++ after)) =
        load (before ++ (equalsForm name value ++ after))) ↔ '=' ∉ value.toList := by
  have hblank := storable_of_form hn hv (by decide) (toList_blankForm name value)
  have hequals := storable_of_form hn hv (by decide) (toList_equalsForm name value)
  constructor
  · intro hall hmem
    have hsame := hall "" "" (Or.inl rfl) (Or.inl rfl)
    rw [String.append_empty, String.append_empty, String.empty_append, String.empty_append] at hsame
    rw [load_of_line hblank, load_of_line hequals] at hsame
    apply applyLine_blankForm_ne hn hv hmem {}
    rw [ofSingleLine_injective hsame, applyLine_equalsForm hn hv]
  · intro hno before after hb ha
    have hmeaning (s : Settings) :
        s.applyLine (blankForm name value) = s.applyLine (equalsForm name value) := by
      rw [applyLine_blankForm hn hv hno, applyLine_equalsForm hn hv]
    obtain ⟨later, hlater⟩ := exists_linesOf_between hb ha
    have hload {line : String} (hl : line.toList ≠ [] ∧ Storable line.toList) :
        load (before ++ (line ++ after)) = ({} : Settings).applyLines 1
          (splitLines before ++ line :: later.map String.ofList) := by
      rw [load, splitLines, String.toList_append, String.toList_append, hlater _ hl.1 hl.2,
        List.map_append, List.map_cons, String.ofList_toList]
      rfl
    rw [hload hblank, hload hequals]
    exact applyLines_replace hmeaning {} 1 _ _

/-- A path with a space, a carriage return and a blank outside of ASCII in it, between two lines of
which the last one is faulty. -/
theorem path_with_blanks_is_set_in_both_forms :
    let value := "my log\rfile\u3000.txt"
    let before := "set debug on\r\n"
    let after := "\r\nset"
    "log_file" ∈ settingNames ∧ IsValue value ∧ '=' ∉ value.toList ∧
      WholeLines before.toList ∧ FollowsLine after.toList ∧
      load (before ++ (equalsForm "log_file" value ++ after)) =
        ({ debug := true, logFile := some value }, [⟨3, .missingValue ""⟩]) ∧
      load (before ++ (blankForm "log_file" value ++ after)) =
        load (before ++ (equalsForm "log_file" value ++ after)) := by
  intro value before after
  have hn : "log_file" ∈ settingNames := by decide
  have hv : IsValue value := ⟨by decide, by decide +kernel, by decide +kernel⟩
  have hno : '=' ∉ value.toList := by decide +kernel
  have hb : WholeLines before.toList := by decide
  have ha : FollowsLine after.toList := by decide
  have hboth := (forms_agree_iff_no_equals_sign hn hv).mpr hno before after hb ha
  exact ⟨hn, hv, hno, hb, ha, by decide +kernel, hboth⟩

/-- The filter of the records may be a directive with a sign of equality in it, which can only be set
in one of the forms. -/
theorem directive_is_not_set_behind_a_blank :
    "log_level" ∈ settingNames ∧ IsValue "simpler=debug" ∧
      load (blankForm "log_level" "simpler=debug") =
        ({}, [⟨1, .unknownName "log_level simpler"⟩]) ∧
      load (equalsForm "log_level" "simpler=debug") =
        ({ logLevel := some "simpler=debug" }, []) := by
  refine ⟨by decide, ⟨by decide, ?_, ?_⟩, ?_, ?_⟩ <;> decide +kernel

end Settings

end LineScript
