import LineScript.Proofs.Completion
import LineScript.Proofs.Printing

/-! Lines that begin with the name of a variable. The reader asks whether the name is a string, and the
machine asks for the target of the name. The two answers go together unless an integer and a string
that can both be seen have the same name: then the line is read as an assignment to the string,
although the target is the integer. -/

namespace LineScript

/-- Whether a table holds strings. -/
def Slot.holdsStrings : Slot → Bool
  | .string | .localString => true
  | _ => false

namespace Variables

/-- What a table holds under a name. -/
def value? (vars : Variables) (name : String) : Slot → Option Value
  | .int => (vars.ints.get? name).map .int
  | .string => (vars.strings.get? name).map .text
  | .mutableInt => (vars.mutables.get? name).map .ofMutable
  | .localInt => (vars.localInts.get? name).map .int
  | .localString => (vars.localStrings.get? name).map .text

/-- All tables hold the same, but for one name in one of them. -/
def AgreeOff (slot : Slot) (name : String) (vars vars' : Variables) : Prop :=
  ∀ slot' name', slot' ≠ slot ∨ name' ≠ name → vars'.value? name' slot' = vars.value? name' slot'

/-- The table to which an assignment of a string goes. -/
def stringTarget (vars : Variables) (scope : Scope) (name : String) : Slot :=
  if scope = .inMacro ∧ vars.localStrings.contains name then .localString else .string

/-- A string hides the variable that is the target of its name. -/
def Hides (vars : Variables) (scope : Scope) (name : String) (slot : Slot) : Prop :=
  vars.isString scope name = true ∧ slot.holdsStrings = false

variable {vars vars₁ vars₂ : Variables} {scope : Scope} {name : String} {slot : Slot}

theorem AgreeOff.refl (slot : Slot) (name : String) (vars : Variables) :
    AgreeOff slot name vars vars := by
  intro slot' name' _
  rfl

theorem AgreeOff.trans (h₁ : AgreeOff slot name vars vars₁) (h₂ : AgreeOff slot name vars₁ vars₂) :
    AgreeOff slot name vars vars₂ := by
  intro slot' name' h
  exact (h₂ slot' name' h).trans (h₁ slot' name' h)

/-- Whichever table an entry is written to, no other entry is touched. -/
theorem agreeOff_insert (vars : Variables) (name : String) :
    (∀ value, AgreeOff .int name vars { vars with ints := vars.ints.insert name value }) ∧
    (∀ value, AgreeOff .string name vars { vars with strings := vars.strings.insert name value }) ∧
    (∀ value, AgreeOff .mutableInt name vars
      { vars with mutables := vars.mutables.insert name value }) ∧
    (∀ value, AgreeOff .localInt name vars
      { vars with localInts := vars.localInts.insert name value }) ∧
    ∀ value, AgreeOff .localString name vars
      { vars with localStrings := vars.localStrings.insert name value } := by
  -- Of the five tables only the one written to needs an argument, and only under the name itself.
  have hother {α : Type} {f : α → Value} (t : Table α) (value : α) {name' : String}
      (hne : name' ≠ name) : ((t.insert name value).get? name').map f = (t.get? name').map f := by
    rw [Table.get?_insert_of_ne t hne]
  refine ⟨?_, ?_, ?_, ?_, ?_⟩ <;> intro value slot' name' h <;> cases slot' <;>
    first
      | rfl
      | exact hother _ value (h.resolve_left fun hne => hne rfl)

/-- If the target is a table of strings, the reader sees a string and assigns to that very table. -/
theorem stringTarget_of_target? (ht : vars.target? scope name = some slot)
    (hs : slot.holdsStrings = true) :
    vars.isString scope name = true ∧ vars.stringTarget scope name = slot := by
  unfold target? at ht
  split_ifs at ht with h₁ h₂ h₃ h₄ h₅ <;> obtain rfl := Option.some.inj ht
  · cases hs
  · refine ⟨?_, if_pos h₂⟩
    simp only [isString, h₂.1, h₂.2, decide_true, Bool.and_true, Bool.or_true]
  · cases hs
  · refine ⟨?_, if_neg h₂⟩
    simp only [isString, h₄, Bool.true_or]
  · cases hs

end Variables

namespace Machine

open Variables

/-- An action that writes at most one variable. -/
def WritesAt {α : Type} (slot : Slot) (name : String) (action : Exec α) : Prop :=
  ∀ m : Machine, m.vars.AgreeOff slot name (endState (action m)).vars

section WritesAt

variable {α β : Type} {slot : Slot} {name : String}

theorem writesAt_pure (value : α) : WritesAt slot name (pure value : Exec α) :=
  fun m => .refl slot name m.vars

theorem writesAt_throw (fault : Fault) : WritesAt slot name (throw fault : Exec α) :=
  fun m => .refl slot name m.vars

theorem writesAt_bind {action : Exec α} {next : α → Exec β} (ha : WritesAt slot name action)
    (hn : ∀ value, WritesAt slot name (next value)) : WritesAt slot name (action >>= next) := by
  intro m
  have hm := ha m
  cases hr : action m with
  | ok value m' =>
    rw [hr] at hm
    rw [bind_of_ok hr]
    exact hm.trans (hn value m')
  | error fault m' =>
    rw [hr] at hm
    rw [bind_of_error hr]
    exact hm

theorem writesAt_check (result : Except Fault α) : WritesAt slot name (check result) := by
  cases result with
  | ok value => exact writesAt_pure value
  | error fault => exact writesAt_throw fault

theorem writesAt_wellFormed (result : Except SyntaxFault α) :
    WritesAt slot name (wellFormed result) := by
  cases result with
  | ok value => exact writesAt_pure value
  | error cause => exact writesAt_throw (.malformed cause)

theorem writesAt_readOperand? (scope : Scope) (word : Option String) :
    WritesAt slot name (readOperand? scope word) := by
  cases word with
  | none => exact writesAt_pure none
  | some word =>
    have hword : WritesAt slot name (readOperand scope word) := by
      unfold readOperand
      split
      · exact writesAt_pure _
      · intro m
        exact writesAt_check (m.vars.readInt scope word) m
    exact writesAt_bind hword fun _ => writesAt_pure _

theorem writesAt_refuseOperator {refused : Prop} [Decidable refused] {next : Unit → Exec β}
    (hn : ∀ value, WritesAt slot name (next value)) :
    WritesAt slot name
      (if refused then throw (.malformed .unknownOperator) >>= next else next ()) := by
  split
  · exact writesAt_bind (writesAt_throw _) hn
  · exact hn ()

theorem exists_insert_of_updateEntry {t t' : Table Int64} {op : Update} {operand : Int64}
    (h : updateEntry t name op operand = .ok t') : ∃ value, t' = t.insert name value := by
  unfold updateEntry at h
  cases hf : found name (t.get? name) with
  | error fault =>
    rw [hf] at h
    cases h
  | ok current =>
    rw [hf] at h
    cases ha : op.apply current operand with
    | error cause =>
      simp only [bind, Except.bind, Except.mapError, ha] at h
      cases h
    | ok value =>
      simp only [bind, Except.bind, Except.mapError, ha] at h
      cases h
      exact ⟨value, rfl⟩

/-- Changes an integer of the table that `select` finds and `store` puts back. -/
def updateInts (select : Variables → Table Int64) (store : Variables → Table Int64 → Variables)
    (scope : Scope) (name : String) (op : Update) (operand : Option String) : Exec Unit := do
  if op = .set then throw (.malformed .unknownOperator)
  let operand ← readOperand? scope operand
  let vars := (← get).vars
  let ints ← check (updateEntry (select vars) name op (operand.getD 0))
  setVariables (store vars ints)

theorem updateSlot_int (scope : Scope) (name : String) (op : Update) (operand : Option String) :
    updateSlot scope name op operand .int =
      updateInts (·.ints) (fun vars ints => { vars with ints := ints }) scope name op operand :=
  rfl

theorem updateSlot_localInt (scope : Scope) (name : String) (op : Update)
    (operand : Option String) :
    updateSlot scope name op operand .localInt =
      updateInts (·.localInts) (fun vars ints => { vars with localInts := ints }) scope name op
        operand :=
  rfl

theorem writesAt_updateInts {select : Variables → Table Int64}
    {store : Variables → Table Int64 → Variables} (scope : Scope) (op : Update)
    (operand : Option String)
    (hstore : ∀ vars value, AgreeOff slot name vars (store vars ((select vars).insert name value))) :
    WritesAt slot name (updateInts select store scope name op operand) := by
  unfold updateInts
  apply writesAt_refuseOperator
  intro _
  apply writesAt_bind (writesAt_readOperand? scope operand)
  intro operand m
  rw [get_bind]
  cases hu : updateEntry (select m.vars) name op (operand.getD 0) with
  | error fault => exact .refl _ _ _
  | ok ints =>
    obtain ⟨value, rfl⟩ := exists_insert_of_updateEntry hu
    exact hstore m.vars value

theorem writesAt_updateSlot (scope : Scope) (name : String) (op : Update)
    (operand : Option String) (slot : Slot) :
    WritesAt slot name (updateSlot scope name op operand slot) := by
  cases slot with
  | int =>
    rw [updateSlot_int]
    apply writesAt_updateInts
    intro vars value
    exact (agreeOff_insert vars name).1 value
  | localInt =>
    rw [updateSlot_localInt]
    apply writesAt_updateInts
    intro vars value
    exact (agreeOff_insert vars name).2.2.2.1 value
  | mutableInt =>
    rw [updateSlot]
    apply writesAt_refuseOperator
    intro _
    apply writesAt_bind (writesAt_readOperand? scope operand)
    intro operand m
    exact (agreeOff_insert m.vars name).2.2.1 operand
  | string => exact writesAt_throw _
  | localString => exact writesAt_throw _

end WritesAt

variable {m : Machine} {scope : Scope} {name : String} {slot : Slot}

theorem assign_of_target? (ht : m.vars.target? scope name = some slot) (args : List String) :
    assign scope name args m =
      (wellFormed (readUpdate name args) >>= fun update =>
        updateSlot scope name update.1 update.2 slot) m := by
  rw [assign, get_bind, ht]

theorem assign_agreeOff (ht : m.vars.target? scope name = some slot) (args : List String) :
    m.vars.AgreeOff slot name (endState (assign scope name args m)).vars := by
  rw [assign_of_target? ht]
  apply writesAt_bind (writesAt_wellFormed _)
  intro update
  exact writesAt_updateSlot scope name update.1 update.2 slot

theorem assignString_agreeOff (scope : Scope) (name value : String) (m : Machine) :
    m.vars.AgreeOff (m.vars.stringTarget scope name) name
      (endState (assignString scope name value m)).vars := by
  have hreplace {t t' : Table String} (h : found name (t.replace? name value) = .ok t') :
      t' = t.insert name value := by
    unfold Table.replace? at h
    split at h <;> cases h
    rfl
  rw [assignString, get_bind, stringTarget]
  by_cases hlocal : scope = .inMacro ∧ m.vars.localStrings.contains name = true
  · rw [if_pos hlocal, if_pos hlocal]
    cases hf : found name (m.vars.localStrings.replace? name value) with
    | error fault => exact .refl _ _ _
    | ok strings =>
      obtain rfl := hreplace hf
      exact (agreeOff_insert m.vars name).2.2.2.2 value
  · rw [if_neg hlocal, if_neg hlocal]
    cases hf : found name (m.vars.strings.replace? name value) with
    | error fault => exact .refl _ _ _
    | ok strings =>
      obtain rfl := hreplace hf
      exact (agreeOff_insert m.vars name).2.1 value

theorem add?_one {value : Int64} (hmax : value ≠ Int64.maxValue) :
    ∃ next, add? value 1 = some next ∧ next.toInt = value.toInt + 1 := by
  have hle : value.toInt ≤ Int64.maxValue.toInt :=
    Int64.le_iff_toInt_le.mp (Int64.le_maxValue value)
  have hne : value.toInt ≠ Int64.maxValue.toInt := by
    intro he
    exact hmax (Int64.toInt_inj.mp he)
  have hge : Int64.minValue.toInt ≤ value.toInt :=
    Int64.le_iff_toInt_le.mp (Int64.minValue_le value)
  have hone : (1 : Int64).toInt = 1 := rfl
  have hsum : add? value 1 = some (Int64.ofInt (value.toInt + 1)) := by
    unfold add? checked
    rw [hone, if_pos (by omega)]
  exact ⟨_, hsum, (add?_toInt hsum).trans (by rw [hone])⟩

theorem updateInts_increment {select : Variables → Table Int64}
    {store : Variables → Table Int64 → Variables} (scope : Scope) {value next : Int64}
    (hv : (select m.vars).get? name = some value) (hn : add? value 1 = some next) :
    updateInts select store scope name .increment none m =
      .ok () { m with vars := store m.vars ((select m.vars).insert name next) } := by
  have hupdate : updateEntry (select m.vars) name .increment 0 =
      .ok ((select m.vars).insert name next) := by
    simp only [updateEntry, hv, found, Update.apply, hn, bind, Except.bind, Except.mapError, pure,
      Except.pure]
  have he : updateInts select store scope name .increment none m =
      (check (updateEntry (select m.vars) name .increment 0) >>= fun ints =>
        setVariables (store m.vars ints)) m := rfl
  rw [he, hupdate]
  rfl

/-- The operator `++` adds one to an integer that is not the greatest one. -/
theorem assign_increment (ht : m.vars.target? scope name = some slot)
    (hslot : slot = .int ∨ slot = .localInt) {value : Int64}
    (hv : m.vars.value? name slot = some (.int value)) (hmax : value ≠ Int64.maxValue) :
    ∃ m' next, assign scope name ["++"] m = .ok () m' ∧
      m'.vars.value? name slot = some (.int next) ∧ next.toInt = value.toInt + 1 := by
  obtain ⟨next, hnext, hsucc⟩ := add?_one hmax
  have hget {t : Table Int64} (h : (t.get? name).map Value.int = some (.int value)) :
      t.get? name = some value := by
    obtain ⟨found, hf, he⟩ := Option.map_eq_some_iff.mp h
    cases he
    exact hf
  have he : assign scope name ["++"] m = updateSlot scope name .increment none slot m :=
    assign_of_target? ht ["++"]
  rw [he]
  rcases hslot with rfl | rfl
  · rw [updateSlot_int, updateInts_increment scope (hget hv) hnext]
    refine ⟨_, next, rfl, ?_, hsucc⟩
    simp only [value?, Table.get?_insert_self, Option.map_some]
  · rw [updateSlot_localInt, updateInts_increment scope (hget hv) hnext]
    refine ⟨_, next, rfl, ?_, hsucc⟩
    simp only [value?, Table.get?_insert_self, Option.map_some]

section Lines

variable {line : String} {args : List String}

theorem read_of_no_keyword (hk : leadingKeyword? line = none) (hw : words line = name :: args)
    (isString : String → Bool) :
    Statement.read isString line =
      if isString name then readStringAssignment line name args
      else if Keyword.comment.letters.isPrefixOf name.toList then .ok .comment
      else .ok (.assign name args) := by
  simp only [Statement.read, hw, hk]

/-- What a statement that opens no block writes is what it writes if the guard lets it pass. -/
theorem start_agreeOff {statement : Statement} (rest : List String)
    (hr : Statement.read (m.vars.isString scope) line = .ok statement)
    (ho : statement.opens? = none)
    (hx : m.Free → m.vars.AgreeOff slot name (endState (execute scope statement m)).vars) :
    m.vars.AgreeOff slot name (endState (start scope line rest m)).vars := by
  rw [start_of_opens?_eq_none rest hr ho, endState_bind_pure]
  rcases free_or_stopped m with hf | ⟨fault, hstop⟩
  · exact hx hf
  · rw [execute_of_stopped hstop]
    exact .refl _ _ _

theorem execute_assign (hf : m.Free) (scope : Scope) (name : String) (args : List String) :
    execute scope (.assign name args) m = (assign scope name args >>= fun _ => pure []) m := by
  rw [execute, bind_of_ok (guard_of_free hf), get_bind]

theorem execute_assignString (hf : m.Free) (scope : Scope) (name value : String) :
    execute scope (.assignString name value) m =
      (assignString scope name value >>= fun _ => pure []) m := by
  rw [execute, bind_of_ok (guard_of_free hf), get_bind]

/-- A line that begins with the name of a string writes at most this string. -/
theorem start_agreeOff_of_isString (rest : List String) (hk : leadingKeyword? line = none)
    (hw : words line = name :: args) (hs : m.vars.isString scope name = true) :
    m.vars.AgreeOff (m.vars.stringTarget scope name) name
      (endState (start scope line rest m)).vars := by
  have hread := read_of_no_keyword hk hw (m.vars.isString scope)
  rw [if_pos hs] at hread
  cases hr : readStringAssignment line name args with
  | error cause =>
    rw [hr] at hread
    rw [start_of_unreadable rest hread]
    exact .refl _ _ _
  | ok statement =>
    rw [hr] at hread
    unfold readStringAssignment at hr
    split at hr
    · split at hr <;> cases hr
      apply start_agreeOff rest hread rfl
      intro hf
      rw [execute_assignString hf, endState_bind_pure]
      exact assignString_agreeOff scope name _ m
    · cases hr

/-- A line that begins with a name that is no string writes at most the target of the name. -/
theorem start_agreeOff_of_not_isString (rest : List String) (hk : leadingKeyword? line = none)
    (hw : words line = name :: args) (ht : m.vars.target? scope name = some slot)
    (hs : m.vars.isString scope name = false) :
    m.vars.AgreeOff slot name (endState (start scope line rest m)).vars := by
  have hread := read_of_no_keyword hk hw (m.vars.isString scope)
  rw [if_neg (by rw [hs]; exact Bool.false_ne_true)] at hread
  by_cases hcomment : Keyword.comment.letters.isPrefixOf name.toList = true
  · rw [if_pos hcomment] at hread
    apply start_agreeOff rest hread rfl
    intro hf
    rw [execute_comment hf]
    exact .refl _ _ _
  · rw [if_neg hcomment] at hread
    apply start_agreeOff rest hread rfl
    intro hf
    rw [execute_assign hf, endState_bind_pure]
    exact assign_agreeOff ht args

/-- The line `name ++` succeeds on an integer that is not the greatest one, and adds one to it unless
the name makes the line a comment. -/
theorem start_increment (rest : List String) (hk : leadingKeyword? line = none)
    (hw : words line = [name, "++"]) (ht : m.vars.target? scope name = some slot)
    (hs : m.vars.isString scope name = false) (hslot : slot = .int ∨ slot = .localInt)
    (hf : m.Free) {value : Int64} (hv : m.vars.value? name slot = some (.int value))
    (hmax : value ≠ Int64.maxValue) :
    ∃ m', start scope line rest m = .ok ([], 1) m' ∧
      (Keyword.comment.letters.isPrefixOf name.toList = false →
        ∃ next, m'.vars.value? name slot = some (.int next) ∧ next.toInt = value.toInt + 1) := by
  have hread := read_of_no_keyword hk hw (m.vars.isString scope)
  rw [if_neg (by rw [hs]; exact Bool.false_ne_true)] at hread
  cases hcomment : Keyword.comment.letters.isPrefixOf name.toList with
  | true =>
    rw [if_pos hcomment] at hread
    refine ⟨m, ?_, fun h => nomatch h⟩
    rw [start_of_opens?_eq_none rest hread rfl, bind_of_ok (execute_comment hf scope)]
    rfl
  | false =>
    rw [if_neg (by rw [hcomment]; exact Bool.false_ne_true)] at hread
    obtain ⟨m', next, hassign, hentry, hsucc⟩ := assign_increment ht hslot hv hmax
    refine ⟨m', ?_, fun _ => ⟨next, hentry, hsucc⟩⟩
    have hx : execute scope (.assign name ["++"]) m = .ok [] m' := by
      rw [execute_assign hf, bind_of_ok hassign]
      rfl
    rw [start_of_opens?_eq_none rest hread rfl, bind_of_ok hx]
    rfl

end Lines

end Machine

/-- A line that begins with a name and with no keyword writes at most the target of the name, and
`++` adds one to an integer, unless a string hides the target. A hidden integer is out of reach: `++`
always fails, and other lines write at most the string. -/
theorem reassignment_goes_to_the_target_unless_hidden (m : Machine) (scope : Scope)
    {line name : String} {args : List String} (rest : List String) {slot : Slot}
    (hk : leadingKeyword? line = none) (hw : words line = name :: args)
    (ht : m.vars.target? scope name = some slot) :
    (¬ m.vars.Hides scope name slot →
      m.vars.AgreeOff slot name (Machine.endState (Machine.start scope line rest m)).vars ∧
      ∀ value, slot = .int ∨ slot = .localInt → args = ["++"] → m.Free →
        m.vars.value? name slot = some (.int value) → value ≠ Int64.maxValue →
        ∃ m', Machine.start scope line rest m = .ok ([], 1) m' ∧
          (Keyword.comment.letters.isPrefixOf name.toList = false →
            ∃ next, m'.vars.value? name slot = some (.int next) ∧
              next.toInt = value.toInt + 1)) ∧
    (m.vars.Hides scope name slot →
      m.vars.AgreeOff (m.vars.stringTarget scope name) name
        (Machine.endState (Machine.start scope line rest m)).vars ∧
      (args = ["++"] →
        Machine.start scope line rest m = .error (.malformed .missingEquals) m)) := by
  refine ⟨fun hfree => ?_, fun hhides => ⟨?_, fun hargs => ?_⟩⟩
  · cases hs : m.vars.isString scope name with
    | false =>
      refine ⟨Machine.start_agreeOff_of_not_isString rest hk hw ht hs, ?_⟩
      intro value hslot hargs hf hv hmax
      rw [hargs] at hw
      exact Machine.start_increment rest hk hw ht hs hslot hf hv hmax
    | true =>
      -- A string that hides nothing is itself the target.
      have hstrings : slot.holdsStrings = true := by
        by_contra hints
        exact hfree ⟨hs, Bool.eq_false_of_not_eq_true hints⟩
      obtain ⟨_, hsame⟩ := Variables.stringTarget_of_target? ht hstrings
      refine ⟨?_, ?_⟩
      · rw [← hsame]
        exact Machine.start_agreeOff_of_isString rest hk hw hs
      · rintro value (rfl | rfl)
        · cases hstrings
        · cases hstrings
  · exact Machine.start_agreeOff_of_isString rest hk hw hhides.1
  · have hread := Machine.read_of_no_keyword hk hw (m.vars.isString scope)
    rw [if_pos hhides.1, hargs] at hread
    exact Machine.start_of_unreadable rest hread

/-- Outside of macros the local string `x` is not seen, so the integer `x` is incremented, and its
namesakes stay as they are. -/
theorem integer_among_namesakes_is_incremented :
    let program := ["MACRO m", "STRING x = \"a\"", "END MACRO", "CALL m", "INT x = 7",
      "MUTABLE INT x = 1", "x ++"]
    ∃ m m' next, Moment.after? program 10 (.first {}) = some ⟨[], m⟩ ∧
      m.vars.target? .global "x" = some .int ∧ ¬ m.vars.Hides .global "x" .int ∧
      Machine.start .global "x ++" [] m = .ok ([], 1) m' ∧
      m'.vars.value? "x" .int = some (.int next) ∧ next.toInt = 8 ∧
      m'.vars.value? "x" .localString = some (.text "a") ∧
      m'.vars.value? "x" .mutableInt = some (.int 1) := by
  intro program
  obtain ⟨m, hm, hf, htarget, hseen, hentry, hstring, hmutable⟩ : ∃ m,
      Moment.after? program 10 (.first {}) = some ⟨[], m⟩ ∧ m.Free ∧
      m.vars.target? .global "x" = some .int ∧ m.vars.isString .global "x" = false ∧
      m.vars.value? "x" .int = some (.int 7) ∧
      m.vars.value? "x" .localString = some (.text "a") ∧
      m.vars.value? "x" .mutableInt = some (.int 1) :=
    ⟨_, rfl, ⟨rfl, rfl⟩, rfl, rfl, rfl, rfl, rfl⟩
  have hhides : ¬ m.vars.Hides .global "x" .int := by
    intro h
    rw [Variables.Hides, hseen] at h
    exact Bool.false_ne_true h.1
  have hk : leadingKeyword? "x ++" = none := by decide +kernel
  have hw : words "x ++" = ["x", "++"] := by decide +kernel
  obtain ⟨hagree, hincrement⟩ :=
    (reassignment_goes_to_the_target_unless_hidden m .global [] hk hw htarget).1 hhides
  obtain ⟨m', hstart, hadds⟩ := hincrement 7 (Or.inl rfl) rfl hf hentry (by decide)
  obtain ⟨next, hnext, hsucc⟩ := hadds (by decide +kernel)
  rw [hstart] at hagree
  refine ⟨m, m', next, hm, htarget, hhides, hstart, hnext, hsucc, ?_, ?_⟩
  · exact (hagree .localString "x" (Or.inl (by decide))).trans hstring
  · exact (hagree .mutableInt "x" (Or.inl (by decide))).trans hmutable

/-- The target of `x` is an integer that could be incremented, but `x ++` fails, and `x = "b"` writes
the string `x`. -/
theorem namesake_string_takes_the_place_of_an_integer :
    let program := ["INT x = 1", "STRING x = \"a\"", "x ++"]
    ∃ m m₁ m₂, Moment.after? program 4 (.first {}) = some ⟨[], m⟩ ∧ m.Free ∧
      m.vars.target? .global "x" = some .int ∧ m.vars.value? "x" .int = some (.int 1) ∧
      leadingKeyword? "x ++" = none ∧ words "x ++" = ["x", "++"] ∧
      Machine.run 20 program {} = some (.error (.malformed .missingEquals) m₁) ∧
      leadingKeyword? "x = \"b\"" = none ∧ words "x = \"b\"" = ["x", "=", "\"b\""] ∧
      Machine.start .global "x = \"b\"" [] m = .ok ([], 1) m₂ ∧
      m.vars.value? "x" .string = some (.text "a") ∧
      m₂.vars.value? "x" .string = some (.text "b") := by
  have hk : leadingKeyword? "x ++" = none := by decide +kernel
  have hw : words "x ++" = ["x", "++"] := by decide +kernel
  have hk' : leadingKeyword? "x = \"b\"" = none := by decide +kernel
  have hw' : words "x = \"b\"" = ["x", "=", "\"b\""] := by decide +kernel
  exact ⟨_, _, _, rfl, ⟨rfl, rfl⟩, rfl, rfl, hk, hw, rfl, hk', hw', rfl, rfl, rfl⟩

end LineScript
