import LineScript.Proofs.Ahead
import LineScript.Proofs.Effects

/-! The names that statements give an entry. A declaration adds one name to one table, and refuses a
name that has an entry there. Whatever else a statement does to the variables, it adds no name and
removes none, and it takes no value away from a mutable integer. -/

namespace LineScript

namespace Table

variable {α : Type} {t t' : Table α} {name : String} {value : α}

/-- The same names have entries. -/
def SameNames (t t' : Table α) : Prop :=
  ∀ name, t'.contains name = t.contains name

/-- To a name that is there another value can be given. -/
theorem sameNames_insert (h : t.contains name = true) (value : α) :
    SameNames t (t.insert name value) := by
  intro other
  rw [contains_insert]
  by_cases hn : other = name
  · subst hn
    rw [h, Bool.or_true]
  · simp only [hn, decide_false, Bool.false_or]

theorem sameNames_of_replace? (h : t.replace? name value = some t') : SameNames t t' := by
  unfold replace? at h
  split at h
  · rename_i hcontains
    cases h
    exact sameNames_insert hcontains value
  · cases h

theorem sameNames_of_updateEntry {t t' : Table Int64} {op : Update} {operand : Int64}
    (h : Machine.updateEntry t name op operand = .ok t') : SameNames t t' := by
  unfold Machine.updateEntry at h
  cases hget : t.get? name with
  | none =>
    rw [hget] at h
    cases h
  | some current =>
    have hcontains : t.contains name = true := by
      rw [contains, hget]
      rfl
    rw [hget] at h
    simp only [Variables.found, bind, Except.bind, Except.mapError] at h
    split at h
    · cases h
    · cases h
      exact sameNames_insert hcontains _

/-- What is declared is valid and new. -/
theorem eq_insert_of_declare (h : t.declare name value = .ok t') :
    isValidName name = true ∧ t.contains name = false ∧ t' = t.insert name value := by
  unfold declare at h
  split at h
  · cases h
  · rename_i hvalid
    split at h
    · cases h
    · rename_i hnew
      cases h
      exact ⟨by simpa using hvalid, by simpa using hnew, rfl⟩

end Table

namespace Statement

/-- The table and the name that a statement declares. -/
def declared? (scope : Scope) : Statement → Option (Slot × String)
  | declareInt name _ => some (Variables.intSlot scope, name)
  | declareString name _ => some (Variables.stringSlot scope, name)
  | declareMutable name _ => some (.mutableInt, name)
  | _ => none

theorem declared?_of_isControl {statement : Statement} (h : statement.isControl = true)
    (scope : Scope) : statement.declared? scope = none := by
  cases statement <;> first | rfl | cases h

end Statement

namespace Variables

/-- Whether a table has an entry under a name. -/
def binds (vars : Variables) (name : String) : Slot → Bool
  | .int => vars.ints.contains name
  | .string => vars.strings.contains name
  | .mutableInt => vars.mutables.contains name
  | .localInt => vars.localInts.contains name
  | .localString => vars.localStrings.contains name

/-- Whether a mutable integer has a value. -/
def holds (vars : Variables) (name : String) : Bool :=
  (vars.mutables.get? name).join.isSome

/-- In every table the same names have entries. -/
def SameNames (vars vars' : Variables) : Prop :=
  ∀ name slot, vars'.binds name slot = vars.binds name slot

/-- A valid name that one table did not have is added to it. -/
structure Adds (slot : Slot) (name : String) (vars vars' : Variables) : Prop where
  valid : isValidName name = true
  fresh : vars.binds name slot = false
  binds : ∀ other table, vars'.binds other table = true ↔
    vars.binds other table = true ∨ table = slot ∧ other = name

theorem SameNames.refl (vars : Variables) : SameNames vars vars :=
  fun _ _ => rfl

variable {vars vars' : Variables} {scope : Scope} {name : String}

/-- It is enough to look at the table that was written to. -/
theorem sameNames_with (vars : Variables) :
    (∀ t, vars.ints.SameNames t → SameNames vars { vars with ints := t }) ∧
    (∀ t, vars.strings.SameNames t → SameNames vars { vars with strings := t }) ∧
    (∀ t, vars.mutables.SameNames t → SameNames vars { vars with mutables := t }) ∧
    (∀ t, vars.localInts.SameNames t → SameNames vars { vars with localInts := t }) ∧
    ∀ t, vars.localStrings.SameNames t → SameNames vars { vars with localStrings := t } := by
  refine ⟨?_, ?_, ?_, ?_, ?_⟩ <;> intro t h name slot <;> cases slot <;>
    first
      | rfl
      | exact h name

theorem adds_with (vars : Variables) (name : String) :
    (∀ value t, vars.ints.declare name value = .ok t →
      Adds .int name vars { vars with ints := t }) ∧
    (∀ value t, vars.strings.declare name value = .ok t →
      Adds .string name vars { vars with strings := t }) ∧
    (∀ value t, vars.mutables.declare name value = .ok t →
      Adds .mutableInt name vars { vars with mutables := t }) ∧
    (∀ value t, vars.localInts.declare name value = .ok t →
      Adds .localInt name vars { vars with localInts := t }) ∧
    ∀ value t, vars.localStrings.declare name value = .ok t →
      Adds .localString name vars { vars with localStrings := t } := by
  refine ⟨?_, ?_, ?_, ?_, ?_⟩ <;> intro value t h <;>
    obtain ⟨hvalid, hnew, rfl⟩ := Table.eq_insert_of_declare h <;>
    refine ⟨hvalid, hnew, fun other table => ?_⟩ <;> cases table <;>
    simp [binds, Table.contains_insert, or_comm]

theorem adds_of_declareInt {value : Int64} (h : vars.declareInt scope name value = .ok vars') :
    Adds (intSlot scope) name vars vars' := by
  obtain ⟨hints, -, -, hlocals, -⟩ := adds_with vars name
  cases scope with
  | global =>
    obtain ⟨t, hd, rfl⟩ := exists_of_map_eq_ok h
    exact hints value t hd
  | inMacro =>
    obtain ⟨t, hd, rfl⟩ := exists_of_map_eq_ok h
    exact hlocals value t hd

theorem adds_of_declareString {value : String}
    (h : vars.declareString scope name value = .ok vars') :
    Adds (stringSlot scope) name vars vars' := by
  obtain ⟨-, hstrings, -, -, hlocals⟩ := adds_with vars name
  cases scope with
  | global =>
    obtain ⟨t, hd, rfl⟩ := exists_of_map_eq_ok h
    exact hstrings value t hd
  | inMacro =>
    obtain ⟨t, hd, rfl⟩ := exists_of_map_eq_ok h
    exact hlocals value t hd

theorem adds_of_declareMutable {value : Option Int64}
    (h : vars.declareMutable name value = .ok vars') : Adds .mutableInt name vars vars' := by
  obtain ⟨-, -, hmutables, -, -⟩ := adds_with vars name
  obtain ⟨t, hd, rfl⟩ := exists_of_map_eq_ok h
  exact hmutables value t hd

theorem binds_of_target? {slot : Slot} (h : vars.target? scope name = some slot) :
    vars.binds name slot = true := by
  unfold target? at h
  split_ifs at h with h₁ h₂ h₃ h₄ h₅ <;> obtain rfl := Option.some.inj h
  · exact h₁.2
  · exact h₂.2
  · exact h₃
  · exact h₄
  · exact h₅

/-- A reassignment that succeeds stores the value of its operand in the table that it goes to. -/
theorem stored_of_updated {op : Update} {word : Option String} {slot : Slot}
    (h : vars.updated scope name op word slot = .ok vars') :
    slot.takes op = true ∧
      ∃ n, vars.operand? scope word = .ok n ∧ vars.stored name op n slot = .ok vars' := by
  unfold updated at h
  split at h
  · cases h
  · cases h
  · split at h
    · rename_i htakes
      cases ho : vars.operand? scope word with
      | error fault =>
        rw [ho] at h
        cases h
      | ok n =>
        rw [ho] at h
        exact ⟨htakes, n, rfl, h⟩
    · cases h

theorem exists_of_assigned {reserved : String → Bool} {args : List String}
    (h : vars.assigned scope reserved name args = .ok vars') :
    ∃ slot op word n, vars.target? scope name = some slot ∧
      Machine.readUpdate name args = .ok (op, word) ∧ slot.takes op = true ∧
      vars.operand? scope word = .ok n ∧ vars.stored name op n slot = .ok vars' := by
  unfold assigned at h
  split at h
  · cases h
  · rename_i slot ht
    split at h
    · cases h
    · rename_i op word hupdate
      obtain ⟨htakes, n, ho, hs⟩ := stored_of_updated h
      exact ⟨slot, op, word, n, ht, hupdate, htakes, ho, hs⟩

/-- Mutable integers are written without looking, so the entry has to be there before. -/
theorem sameNames_of_assigned {reserved : String → Bool} {args : List String}
    (h : vars.assigned scope reserved name args = .ok vars') : SameNames vars vars' := by
  obtain ⟨slot, op, word, n, ht, _, _, _, hs⟩ := exists_of_assigned h
  obtain ⟨hints, -, hmutables, hlocals, -⟩ := sameNames_with vars
  cases slot with
  | int =>
    obtain ⟨t, hu, rfl⟩ := exists_of_map_eq_ok hs
    exact hints t (Table.sameNames_of_updateEntry hu)
  | localInt =>
    obtain ⟨t, hu, rfl⟩ := exists_of_map_eq_ok hs
    exact hlocals t (Table.sameNames_of_updateEntry hu)
  | mutableInt =>
    cases hs
    exact hmutables _ (Table.sameNames_insert (binds_of_target? ht) n)
  | string => cases hs
  | localString => cases hs

/-- A reassignment of a mutable integer has an operand, and an operand has a value. -/
theorem holds_of_assigned {reserved : String → Bool} {args : List String}
    (h : vars.assigned scope reserved name args = .ok vars') {other : String}
    (hv : vars.holds other = true) : vars'.holds other = true := by
  obtain ⟨slot, op, word, n, _, hupdate, htakes, ho, hs⟩ := exists_of_assigned h
  cases slot with
  | int =>
    obtain ⟨t, _, rfl⟩ := exists_of_map_eq_ok hs
    exact hv
  | localInt =>
    obtain ⟨t, _, rfl⟩ := exists_of_map_eq_ok hs
    exact hv
  | mutableInt =>
    cases hs
    have hset : op = .set := by simpa [Slot.takes] using htakes
    -- Only an operator without an operand could store that there is no value.
    have hword : word.isSome = true := by
      subst hset
      unfold Machine.readUpdate at hupdate
      split at hupdate
      · cases hupdate
      · split at hupdate
        · cases hupdate
        · split at hupdate <;> cases hupdate
          · rename_i hunary
            cases hunary
          · rfl
    obtain ⟨text, rfl⟩ := Option.isSome_iff_exists.mp hword
    obtain ⟨value, _, rfl⟩ := exists_of_map_eq_ok ho
    by_cases hname : other = name
    · subst hname
      simp only [holds, Table.get?_insert_self, Option.join_some, Option.isSome_some]
    · simp only [holds, Table.get?_insert_of_ne _ hname]
      exact hv
  | string => cases hs
  | localString => cases hs

theorem found_eq_ok {α : Type} {entry : Option α} {value : α} (h : found name entry = .ok value) :
    entry = some value := by
  cases entry with
  | none => cases h
  | some found =>
    cases h
    rfl

theorem sameNames_of_stringAssigned {value : String}
    (h : vars.stringAssigned scope name value = .ok vars') :
    SameNames vars vars' ∧ vars'.mutables = vars.mutables := by
  obtain ⟨-, hstrings, -, -, hlocals⟩ := sameNames_with vars
  unfold stringAssigned at h
  split at h
  · obtain ⟨t, hr, rfl⟩ := exists_of_map_eq_ok h
    exact ⟨hlocals t (Table.sameNames_of_replace? (found_eq_ok hr)), rfl⟩
  · obtain ⟨t, hr, rfl⟩ := exists_of_map_eq_ok h
    exact ⟨hstrings t (Table.sameNames_of_replace? (found_eq_ok hr)), rfl⟩

/-- A declaration keeps the mutable integers, or adds one under a name that had no value. -/
theorem holds_of_declareMutable {value : Option Int64}
    (h : vars.declareMutable name value = .ok vars') {other : String}
    (hv : vars.holds other = true) : vars'.holds other = true := by
  obtain ⟨t, hd, rfl⟩ := exists_of_map_eq_ok h
  obtain ⟨_, hnew, rfl⟩ := Table.eq_insert_of_declare hd
  have hname : other ≠ name := by
    rintro rfl
    rw [Table.contains, Option.isSome_eq_false_iff, Option.isNone_iff_eq_none] at hnew
    rw [holds, hnew] at hv
    cases hv
  simp only [holds, Table.get?_insert_of_ne _ hname]
  exact hv

end Variables

namespace Statement

variable {statement : Statement} {scope : Scope} {vars vars' : Variables} {reserved : String → Bool}
  {texts : List String}

theorem declared_of_effect {result : Except SyntaxFault Variables}
    (h : (result.mapError Fault.malformed).map (·, ([] : List String)) = .ok (vars', texts)) :
    result = .ok vars' ∧ texts = [] := by
  cases result with
  | error cause => cases h
  | ok vars =>
    cases h
    exact ⟨rfl, rfl⟩

/-- A declaration adds its name and prints nothing. -/
theorem adds_of_effect {slot : Slot} {name : String}
    (h : statement.effect scope vars reserved = .ok (vars', texts))
    (hd : statement.declared? scope = some (slot, name)) :
    vars.Adds slot name vars' ∧ texts = [] := by
  cases statement with
  | declareInt other value =>
    cases hd
    obtain ⟨hdeclare, ht⟩ := declared_of_effect h
    exact ⟨Variables.adds_of_declareInt hdeclare, ht⟩
  | declareString other value =>
    cases hd
    obtain ⟨hdeclare, ht⟩ := declared_of_effect h
    exact ⟨Variables.adds_of_declareString hdeclare, ht⟩
  | declareMutable other value =>
    cases hd
    obtain ⟨hdeclare, ht⟩ := declared_of_effect h
    exact ⟨Variables.adds_of_declareMutable hdeclare, ht⟩
  | _ => cases hd

theorem sameNames_of_effect (h : statement.effect scope vars reserved = .ok (vars', texts))
    (hd : statement.declared? scope = none) : vars.SameNames vars' := by
  cases statement with
  | declareInt name value => cases hd
  | declareString name value => cases hd
  | declareMutable name value => cases hd
  | assign name args =>
    obtain ⟨changed, hassigned, he⟩ := exists_of_map_eq_ok h
    cases he
    exact Variables.sameNames_of_assigned hassigned
  | assignString name value =>
    obtain ⟨changed, hassigned, he⟩ := exists_of_map_eq_ok h
    cases he
    exact (Variables.sameNames_of_stringAssigned hassigned).1
  | printVar name newline =>
    obtain ⟨value, _, he⟩ := exists_of_map_eq_ok h
    cases he
    exact .refl vars
  | _ =>
    cases h
    exact .refl vars

theorem binds_of_effect (h : statement.effect scope vars reserved = .ok (vars', texts))
    (name : String) (slot : Slot) :
    vars'.binds name slot = true ↔
      vars.binds name slot = true ∨ statement.declared? scope = some (slot, name) := by
  cases hd : statement.declared? scope with
  | none =>
    rw [sameNames_of_effect h hd name slot]
    simp
  | some declared =>
    obtain ⟨table, other⟩ := declared
    rw [(adds_of_effect h hd).1.binds, Option.some.injEq, Prod.mk.injEq, eq_comm (a := slot),
      eq_comm (a := name)]

theorem holds_of_effect (h : statement.effect scope vars reserved = .ok (vars', texts))
    {name : String} (hv : vars.holds name = true) : vars'.holds name = true := by
  cases statement with
  | declareInt other value =>
    obtain ⟨hdeclare, _⟩ := declared_of_effect h
    cases scope <;> obtain ⟨t, _, rfl⟩ := exists_of_map_eq_ok hdeclare <;> exact hv
  | declareString other value =>
    obtain ⟨hdeclare, _⟩ := declared_of_effect h
    cases scope <;> obtain ⟨t, _, rfl⟩ := exists_of_map_eq_ok hdeclare <;> exact hv
  | declareMutable other value =>
    obtain ⟨hdeclare, _⟩ := declared_of_effect h
    exact Variables.holds_of_declareMutable hdeclare hv
  | assign other args =>
    obtain ⟨changed, hassigned, he⟩ := exists_of_map_eq_ok h
    cases he
    exact Variables.holds_of_assigned hassigned hv
  | assignString other value =>
    obtain ⟨changed, hassigned, he⟩ := exists_of_map_eq_ok h
    cases he
    rw [Variables.holds, (Variables.sameNames_of_stringAssigned hassigned).2]
    exact hv
  | printVar other newline =>
    obtain ⟨value, _, he⟩ := exists_of_map_eq_ok h
    cases he
    exact hv
  | _ =>
    cases h
    exact hv

end Statement

namespace Machine

variable {scope : Scope} {line : String} {rest : List String} {m : Machine}

theorem putAll_vars (texts : List String) (m : Machine) :
    (endState (putAll texts m)).vars = m.vars := by
  induction texts generalizing m with
  | nil => rfl
  | cons text texts ih =>
    have hput := printing_put text m
    split at hput
    · rw [putAll, bind_of_ok hput]
      exact ih (m.printed text)
    · rw [putAll, bind_of_error hput]
      rfl

/-- What a line does to the variables and to the sink: it has an effect, which it takes over before it
prints, or both stay as they are, and then it is no declaration that succeeds. -/
inductive Sets (scope : Scope) (line : String) (rest : List String) (m : Machine) : Prop where
  | effect {statement : Statement} {vars : Variables} {texts : List String}
      (hr : Statement.read (m.vars.isString scope) line = .ok statement)
      (he : statement.effect scope m.vars m.isReserved = .ok (vars, texts))
      (h : start scope line rest m =
        (putAll texts >>= fun _ => pure ([], 1)) { m with vars := vars }) : Sets scope line rest m
  | nothing (h : SameData m (endState (start scope line rest m)))
      (hd : ∀ statement, Statement.read (m.vars.isString scope) line = .ok statement →
        statement.declared? scope ≠ none → ∃ fault, start scope line rest m = .error fault m) :
      Sets scope line rest m

theorem start_sets (scope : Scope) (line : String) (rest : List String) (m : Machine) :
    Sets scope line rest m := by
  cases hr : Statement.read (m.vars.isString scope) line with
  | error cause =>
    refine .nothing ?_ fun statement hs _ => ?_
    · rw [start_of_unreadable rest hr]
      exact .refl m
    · rw [hr] at hs
      cases hs
  | ok statement =>
    cases hs : statement.isControl with
    | true =>
      refine .nothing (sameData_start rest hr hs) fun other ho hd => ?_
      rw [hr] at ho
      cases ho
      exact absurd (Statement.declared?_of_isControl hs scope) hd
    | false =>
      obtain ⟨hplain, ho⟩ := Statement.plain_of_not_isControl hs
      have hstart := start_of_opens?_eq_none rest hr ho
      -- What the guard stops, and what has a fault as its effect, leaves the machine as it was.
      have hfails {fault : Fault} (he : execute scope statement m = .error fault m) :
          Sets scope line rest m := by
        rw [bind_of_error he] at hstart
        refine .nothing ?_ fun _ _ _ => ⟨fault, hstart⟩
        rw [hstart]
        exact .refl m
      rcases free_or_stopped m with hf | ⟨fault, hstop⟩
      · have hexecute := execute_eq_perform hf scope hplain
        cases he : statement.effect scope m.vars m.isReserved with
        | error fault =>
          rw [he] at hexecute
          exact hfails hexecute
        | ok result =>
          obtain ⟨vars, texts⟩ := result
          rw [he] at hexecute
          refine .effect hr he ?_
          have hperform : perform (.ok (vars, texts)) m =
              (putAll texts >>= fun _ => pure ([] : List Frame)) { m with vars := vars } := rfl
          rw [hstart]
          cases hp : putAll texts { m with vars := vars } with
          | ok value m' =>
            rw [hperform, bind_of_ok hp] at hexecute
            rw [bind_of_ok hexecute, bind_of_ok hp]
          | error fault m' =>
            rw [hperform, bind_of_error hp] at hexecute
            rw [bind_of_error hexecute, bind_of_error hp]
      · exact hfails (execute_of_stopped hstop scope statement)

/-- Printing does nothing to the variables, whether it fails or not. -/
theorem vars_of_effect {vars : Variables} {texts : List String}
    (h : start scope line rest m =
      (putAll texts >>= fun _ => pure ([], 1)) { m with vars := vars }) :
    (endState (start scope line rest m)).vars = vars := by
  rw [h, endState_bind_pure (putAll texts) (fun _ => (([] : List Frame), 1))]
  exact putAll_vars texts _

/-- A line declares a name: it is read as a declaration of that name, and it begins without a fault. -/
def Declares (scope : Scope) (line : String) (rest : List String) (m : Machine) (slot : Slot)
    (name : String) : Prop :=
  ∃ statement begun m', Statement.read (m.vars.isString scope) line = .ok statement ∧
    statement.declared? scope = some (slot, name) ∧ start scope line rest m = .ok begun m'

/-- Whatever a line does, it adds the name that it declares, and neither adds nor removes another
one. -/
theorem binds_start (scope : Scope) (line : String) (rest : List String) (m : Machine)
    (name : String) (slot : Slot) :
    (endState (start scope line rest m)).vars.binds name slot = true ↔
      m.vars.binds name slot = true ∨ Declares scope line rest m slot name := by
  cases start_sets scope line rest m with
  | effect hr he h =>
    rename_i statement vars texts
    have hdeclares : Declares scope line rest m slot name ↔
        statement.declared? scope = some (slot, name) := by
      constructor
      · rintro ⟨other, _, _, ho, hd, _⟩
        rw [hr] at ho
        cases ho
        exact hd
      · intro hd
        obtain rfl := (Statement.adds_of_effect he hd).2
        exact ⟨statement, _, _, hr, hd, h⟩
    rw [vars_of_effect h, Statement.binds_of_effect he, hdeclares]
  | nothing h hd =>
    rw [h.vars_eq]
    refine ⟨Or.inl, fun hb => hb.resolve_right ?_⟩
    rintro ⟨statement, begun, m', hr, hs, hok⟩
    obtain ⟨fault, herror⟩ := hd statement hr (by simp [hs])
    rw [hok] at herror
    cases herror

/-- What a line declares is valid, and was not there before. -/
theorem Declares.fresh {slot : Slot} {name : String} (h : Declares scope line rest m slot name) :
    isValidName name = true ∧ m.vars.binds name slot = false := by
  obtain ⟨statement, begun, m', hr, hs, hok⟩ := h
  cases start_sets scope line rest m with
  | effect hr' he h =>
    rw [hr] at hr'
    cases hr'
    have hadds := (Statement.adds_of_effect he hs).1
    exact ⟨hadds.valid, hadds.fresh⟩
  | nothing h hd =>
    obtain ⟨fault, herror⟩ := hd statement hr (by simp [hs])
    rw [hok] at herror
    cases herror

theorem holds_start {name : String} (hv : m.vars.holds name = true) :
    (endState (start scope line rest m)).vars.holds name = true := by
  cases start_sets scope line rest m with
  | effect hr he h =>
    rw [vars_of_effect h]
    exact Statement.holds_of_effect he hv
  | nothing h hd =>
    rw [h.vars_eq]
    exact hv

/-- Inside macros a declaration leaves the global integers and strings alone. -/
theorem globals_start {statement : Statement}
    (hr : Statement.read (m.vars.isString .inMacro) line = .ok statement)
    (hd : statement.declared? .inMacro ≠ none) :
    (endState (start .inMacro line rest m)).vars.ints = m.vars.ints ∧
      (endState (start .inMacro line rest m)).vars.strings = m.vars.strings := by
  cases start_sets .inMacro line rest m with
  | effect hr' he h =>
    rw [hr] at hr'
    cases hr'
    rw [vars_of_effect h]
    cases statement with
    | declareInt name value =>
      obtain ⟨t, _, rfl⟩ := exists_of_map_eq_ok (Statement.declared_of_effect he).1
      exact ⟨rfl, rfl⟩
    | declareString name value =>
      obtain ⟨t, _, rfl⟩ := exists_of_map_eq_ok (Statement.declared_of_effect he).1
      exact ⟨rfl, rfl⟩
    | declareMutable name value =>
      obtain ⟨t, _, rfl⟩ := exists_of_map_eq_ok (Statement.declared_of_effect he).1
      exact ⟨rfl, rfl⟩
    | _ => exact absurd rfl hd
  | nothing h _ =>
    rw [h.vars_eq]
    exact ⟨rfl, rfl⟩

end Machine

end LineScript
