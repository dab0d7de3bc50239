import LineScript.Proofs.Labels
import LineScript.Proofs.Passes

/-! What the counts of a table of labels say. A table is determined by the declarations and jumps that
were made: it has the last index of each name and the jumps to it since then. A count does not go
beyond the greatest one, and so the greatest limit is never exceeded. -/

namespace LineScript

namespace Table

variable {α : Type}

/-- The names of a list of entries. -/
def names (entries : List (String × α)) : List String :=
  entries.map Prod.fst

theorem names_put (name : String) (value : α) (entries : List (String × α)) :
    names (put name value entries) =
      if name ∈ names entries then names entries else names entries ++ [name] := by
  induction entries with
  | nil => rfl
  | cons entry rest ih =>
    obtain ⟨other, old⟩ := entry
    by_cases h : other = name
    · subst h
      simp [put, names]
    · have hname : (name ∈ names ((other, old) :: rest)) ↔ name ∈ names rest := by
        simp [names, Ne.symm h]
      rw [put, if_neg h]
      change other :: names (put name value rest) = _
      rw [ih]
      simp only [hname]
      split <;> rfl

theorem nodup_names_put {entries : List (String × α)} (h : (names entries).Nodup) (name : String)
    (value : α) : (names (put name value entries)).Nodup := by
  rw [names_put]
  split
  · exact h
  · rename_i hname
    simpa [List.nodup_append] using ⟨h, fun other ho he => hname (he ▸ ho)⟩

/-- An entry is found under its name, if no other has the same name. -/
theorem find?_of_mem {entries : List (String × α)} (h : (names entries).Nodup) {name : String}
    {value : α} (hmem : (name, value) ∈ entries) : find? name entries = some value := by
  induction entries with
  | nil => cases hmem
  | cons entry rest ih =>
    obtain ⟨other, old⟩ := entry
    obtain ⟨hother, hrest⟩ := List.nodup_cons.mp h
    rcases List.mem_cons.mp hmem with he | hlater
    · cases he
      rw [find?, if_pos rfl]
    · have hne : other ≠ name := by
        rintro rfl
        exact hother (List.mem_map.mpr ⟨(other, value), hlater, rfl⟩)
      rw [find?, if_neg hne]
      exact ih hrest hlater

end Table

/-- A use of a table of labels. -/
inductive LabelUse where
  | declare (name : String) (index : Nat)
  | jump (name : String)
deriving Repr, DecidableEq

/-- The index that a use declares for a name. -/
def LabelUse.index? (name : String) : LabelUse → Option Nat
  | declare other index => if other = name then some index else none
  | jump _ => none

/-- The index at which a name was declared last. -/
def lastIndex? (name : String) (uses : List LabelUse) : Option Nat :=
  uses.reverse.findSome? (·.index? name)

/-- How often a name was jumped to since it was declared last. -/
def jumpsSince (name : String) (uses : List LabelUse) : Nat :=
  (uses.reverse.takeWhile fun use => (use.index? name).isNone).count (.jump name)

section Uses

variable {name : String} {use : LabelUse}

theorem lastIndex?_concat (uses : List LabelUse) :
    lastIndex? name (uses ++ [use]) = (use.index? name).or (lastIndex? name uses) := by
  rw [lastIndex?, List.reverse_concat, List.findSome?_cons]
  cases use.index? name <;> rfl

theorem jumpsSince_concat (uses : List LabelUse) :
    jumpsSince name (uses ++ [use]) =
      if (use.index? name).isSome then 0
      else jumpsSince name uses + if use = .jump name then 1 else 0 := by
  rw [jumpsSince, List.reverse_concat, List.takeWhile_cons]
  cases use.index? name with
  | some index => rfl
  | none =>
    simp only [Option.isNone_none, if_true, Option.isSome_none, Bool.false_eq_true, if_false,
      List.count_cons, beq_iff_eq]
    rfl

end Uses

namespace LabelTable

/-- The table after one use. A jump to a name that is no label leaves it as it is. -/
def used (labels : LabelTable) : LabelUse → LabelTable
  | .declare name index => labels.declare name index
  | .jump name =>
    match labels.jump name with
    | .ok target => target.2
    | .error _ => labels

/-- The table after some uses, of which the first one finds it empty. -/
def after (uses : List LabelUse) : LabelTable :=
  uses.foldl used {}

theorem after_concat (uses : List LabelUse) (use : LabelUse) :
    after (uses ++ [use]) = (after uses).used use := by
  rw [after, List.foldl_append]
  rfl

theorem jump_of_get? {labels : LabelTable} {name : String} {label : Label}
    (h : labels.get? name = some label) :
    labels.jump name = .ok (label.index, labels.used (.jump name)) := by
  simp only [used, jump, h]

theorem jump_of_get?_none {labels : LabelTable} {name : String} (h : labels.get? name = none) :
    labels.jump name = .error (.missing .labelName name) ∧ labels.used (.jump name) = labels := by
  simp only [used, jump, h, and_self]

/-- What a use does to the label with some name. -/
theorem get?_used (labels : LabelTable) (use : LabelUse) (name : String) :
    (labels.used use).get? name =
      match use.index? name with
      | some index => some ⟨index, 0⟩
      | none =>
        if use = .jump name then (labels.get? name).map Label.jumped else labels.get? name := by
  cases use with
  | declare other index =>
    by_cases h : other = name
    · subst h
      simp only [used, LabelUse.index?, if_true]
      exact Table.get?_insert_self _ _ _
    · simp only [used, LabelUse.index?, h, if_false, reduceCtorEq]
      exact Table.get?_insert_of_ne _ (Ne.symm h) _
  | jump other =>
    simp only [LabelUse.index?, LabelUse.jump.injEq]
    cases hl : labels.get? other with
    | none =>
      rw [(jump_of_get?_none hl).2]
      split
      · rename_i h
        subst h
        rw [hl]
        rfl
      · rfl
    | some label =>
      have hused : labels.used (.jump other) = ⟨labels.table.insert other label.jumped⟩ := by
        simp only [used, jump, hl]
      rw [hused]
      split
      · rename_i h
        subst h
        rw [hl]
        exact Table.get?_insert_self _ _ _
      · rename_i h
        exact Table.get?_insert_of_ne _ (Ne.symm h) _

/-- A label has the last index of its name, and the jumps since then as far as they can be counted. -/
theorem get?_after (uses : List LabelUse) (name : String) :
    (after uses).get? name =
      (lastIndex? name uses).map fun index => ⟨index, min (jumpsSince name uses) maxCount⟩ := by
  -- The induction is on the uses from the last one back, since a later use decides on its own.
  induction uses using List.reverseRecOn with
  | nil => rfl
  | append_singleton uses use ih =>
    rw [after_concat, get?_used, lastIndex?_concat, jumpsSince_concat, ih]
    cases hi : use.index? name with
    | some index => simp
    | none =>
      by_cases hu : use = .jump name
      · -- Counting on from a count that has been cut off gives the same as cutting it off afterwards.
        have hcount (k : Nat) : min (min k maxCount + 1) maxCount = min (k + 1) maxCount := by
          omega
        cases lastIndex? name uses with
        | none => simp
        | some index => simp [hu, Label.jumped, hcount]
      · simp [hu]

theorem nodup_after (uses : List LabelUse) : (Table.names (after uses).table.entries).Nodup := by
  induction uses using List.reverseRecOn with
  | nil => exact List.nodup_nil
  | append_singleton uses use ih =>
    rw [after_concat]
    cases use with
    | declare name index => exact Table.nodup_names_put ih name _
    | jump name =>
      cases hl : (after uses).get? name with
      | none =>
        rw [(jump_of_get?_none hl).2]
        exact ih
      | some label =>
        simp only [used, jump, hl]
        exact Table.nodup_names_put ih name _

/-- A check that fails has found a label with a count above the limit. -/
theorem exists_over_of_check {labels : LabelTable} {limit : Nat} {fault : Fault}
    (h : labels.check limit = .error fault) :
    ∃ entry ∈ labels.table.entries, limit < entry.2.jumps ∧
      fault = .tooMany (.jumps entry.1) limit := by
  rw [check_eq] at h
  cases hf : labels.table.entries.find? (isOver limit) with
  | some entry =>
    rw [hf] at h
    cases h
    have hover := List.find?_some hf
    rw [isOver, decide_eq_true_eq] at hover
    exact ⟨entry, List.mem_of_find?_eq_some hf, hover, rfl⟩
  | none =>
    rw [hf] at h
    cases h

/-- A label was jumped to more often than a limit since it was declared last. -/
def Exceeds (uses : List LabelUse) (limit : Nat) (name : String) : Prop :=
  lastIndex? name uses ≠ none ∧ limit < jumpsSince name uses

theorem exceeds_iff {uses : List LabelUse} {limit : Nat} {name : String} :
    (∃ label, (after uses).get? name = some label ∧ limit < label.jumps) ↔
      limit < maxCount ∧ Exceeds uses limit name := by
  rw [get?_after, Exceeds]
  cases lastIndex? name uses with
  | none => simp
  | some index => simp [and_comm]

theorem check_after {uses : List LabelUse} {limit : Nat} {fault : Fault}
    (h : (after uses).check limit = .error fault) :
    limit < maxCount ∧ ∃ name, fault = .tooMany (.jumps name) limit ∧ Exceeds uses limit name := by
  obtain ⟨⟨name, label⟩, hentry, hover, hfault⟩ := exists_over_of_check h
  -- The entry that was found is the one under its name, because no name occurs twice.
  have hlabel : (after uses).get? name = some label :=
    Table.find?_of_mem (nodup_after uses) hentry
  obtain ⟨hlimit, hexceeds⟩ := exceeds_iff.mp ⟨label, hlabel, hover⟩
  exact ⟨hlimit, name, hfault, hexceeds⟩

theorem check_after_of_exceeds {uses : List LabelUse} {limit : Nat} {name : String}
    (hlimit : limit < maxCount) (h : Exceeds uses limit name) :
    ∃ fault, (after uses).check limit = .error fault := by
  obtain ⟨label, hlabel, hover⟩ := exceeds_iff.mpr ⟨hlimit, h⟩
  cases hc : (after uses).check limit with
  | error fault => exact ⟨fault, rfl⟩
  | ok value =>
    have hwithin := within_of_check hc (name, label) (Table.mem_of_find? hlabel)
    exact absurd hover (not_lt.mpr hwithin)

/-- The greatest limit is never exceeded. -/
theorem check_after_maxCount (uses : List LabelUse) : (after uses).check maxCount = .ok () := by
  cases hc : (after uses).check maxCount with
  | ok value => rfl
  | error fault => exact absurd (check_after hc).1 (lt_irrefl _)

end LabelTable

theorem Machine.jumpTo_of_get?_none {m : Machine} {name : String}
    (h : m.labels.get? name = none) :
    jumpTo name m = .error (.missing .labelName name) m := by
  rw [jumpTo, get_bind, (LabelTable.jump_of_get?_none h).1]
  rfl

/-- For every limit below the greatest count, the check fails just if some label was jumped to more
often than that since it was declared last, and it names such a label. A count cannot exceed the
greatest one, so that with this limit the check does not fail at all. A jump leads to the last index of
its name; a name that is not declared is missing, and then nothing changes. -/
theorem jumps_are_counted_below_the_greatest_limit (uses : List LabelUse) :
    (∀ limit, (∃ fault, (LabelTable.after uses).check limit = .error fault) ↔
      limit < maxCount ∧ ∃ name, lastIndex? name uses ≠ none ∧ limit < jumpsSince name uses) ∧
    (∀ limit fault, (LabelTable.after uses).check limit = .error fault →
      ∃ name, fault = .tooMany (.jumps name) limit ∧ lastIndex? name uses ≠ none ∧
        limit < jumpsSince name uses) ∧
    ∀ name,
      (∀ index, lastIndex? name uses = some index → (LabelTable.after uses).jump name =
        .ok (index, LabelTable.after (uses ++ [.jump name]))) ∧
      (lastIndex? name uses = none →
        (LabelTable.after uses).jump name = .error (.missing .labelName name) ∧
        LabelTable.after (uses ++ [.jump name]) = LabelTable.after uses ∧
        ∀ m : Machine, m.labels = LabelTable.after uses →
          Machine.jumpTo name m = .error (.missing .labelName name) m) := by
  refine ⟨fun limit => ⟨?_, ?_⟩, ?_, fun name => ⟨fun index hi => ?_, fun hi => ?_⟩⟩
  · rintro ⟨fault, hcheck⟩
    obtain ⟨hlimit, name, _, hexceeds⟩ := LabelTable.check_after hcheck
    exact ⟨hlimit, name, hexceeds⟩
  · rintro ⟨hlimit, name, hexceeds⟩
    exact LabelTable.check_after_of_exceeds hlimit hexceeds
  · intro limit fault hcheck
    exact (LabelTable.check_after hcheck).2
  · have hlabel := LabelTable.get?_after uses name
    rw [hi] at hlabel
    rw [LabelTable.after_concat]
    exact LabelTable.jump_of_get? hlabel
  · have hlabel := LabelTable.get?_after uses name
    rw [hi] at hlabel
    obtain ⟨hjump, hused⟩ := LabelTable.jump_of_get?_none hlabel
    refine ⟨hjump, ?_, fun m hm => ?_⟩
    · rw [LabelTable.after_concat]
      exact hused
    · rw [← hm] at hlabel
      exact Machine.jumpTo_of_get?_none hlabel

/-- Only the jumps behind the last declaration count, and the last index is the one that is jumped to. A
jump to another name is not among them. -/
theorem jumps_before_the_last_declaration_do_not_count :
    let uses : List LabelUse := [.declare "a" 3, .jump "a", .jump "a", .jump "b", .declare "a" 5,
      .jump "a", .jump "a"]
    lastIndex? "a" uses = some 5 ∧ jumpsSince "a" uses = 2 ∧ lastIndex? "b" uses = none ∧
      (∃ fault, (LabelTable.after uses).check 1 = .error fault) ∧
      (¬ ∃ fault, (LabelTable.after uses).check maxCount = .error fault) ∧
      (LabelTable.after uses).jump "a" = .ok (5, LabelTable.after (uses ++ [.jump "a"])) ∧
      (LabelTable.after uses).jump "b" = .error (.missing .labelName "b") := by
  intro uses
  obtain ⟨hchecks, _, hjumps⟩ := jumps_are_counted_below_the_greatest_limit uses
  have hlast : lastIndex? "a" uses = some 5 := by decide
  have hcount : jumpsSince "a" uses = 2 := by decide
  have hmissing : lastIndex? "b" uses = none := by decide
  refine ⟨hlast, hcount, hmissing, (hchecks 1).mpr ⟨by decide, "a", ?_, ?_⟩, fun h => ?_,
    (hjumps "a").1 5 hlast, ((hjumps "b").2 hmissing).1⟩
  · rw [hlast]
    exact Option.some_ne_none 5
  · rw [hcount]
    exact Nat.one_lt_two
  · exact lt_irrefl _ ((hchecks maxCount).mp h).1

/-- A label that is declared once and then jumped to so often. -/
def circling (jumps : Nat) : List LabelUse :=
  .declare "a" 0 :: List.replicate jumps (.jump "a")

theorem circling_succ (jumps : Nat) : circling (jumps + 1) = circling jumps ++ [.jump "a"] := by
  simp only [circling, List.replicate_succ', List.cons_append]

theorem lastIndex?_circling (jumps : Nat) : lastIndex? "a" (circling jumps) = some 0 := by
  induction jumps with
  | zero => rfl
  | succ jumps ih =>
    rw [circling_succ, lastIndex?_concat, ih]
    rfl

theorem jumpsSince_circling (jumps : Nat) : jumpsSince "a" (circling jumps) = jumps := by
  induction jumps with
  | zero => rfl
  | succ jumps ih =>
    rw [circling_succ, jumpsSince_concat, ih]
    rfl

/-- A program that jumps to its label in each of 2 ^ 32 passes. -/
def circle : List String :=
  ["LABEL a", "FOR i FROM 1 TO 4294967296", "GOTO a", "END FOR"]

/-- The loop of that program. -/
def circleLoop : LoopHeader :=
  ⟨"i", 1, .upTo 4294967296, 1⟩

namespace Machine

/-- A machine with the greatest limit that has done so many passes of the loop. -/
structure Circled (jumps : Nat) (m : Machine) : Prop where
  labels : m.labels = LabelTable.after (circling jumps)
  jumpLimit : m.jumpLimit = maxCount
  interrupted : m.interrupted = false
  debug : m.debug = false
  flushes : m.sink.refusesFlush = false
  place : 0 < jumps → m.jumped = true ∧ m.ip = 0

/-- The machine after one jump more. -/
def circledOnce (m : Machine) : Machine :=
  { m with labels := m.labels.used (.jump "a"), ip := 0, jumped := true }

variable {m : Machine} {jumps : Nat}

theorem Circled.free (h : Circled jumps m) : m.Free := by
  refine ⟨h.interrupted, ?_⟩
  rw [h.labels, h.jumpLimit]
  exact LabelTable.check_after_maxCount _

theorem Circled.once (h : Circled jumps m) : Circled (jumps + 1) m.circledOnce where
  labels := by
    rw [circling_succ, LabelTable.after_concat, ← h.labels]
    rfl
  jumpLimit := h.jumpLimit
  interrupted := h.interrupted
  debug := h.debug
  flushes := h.flushes
  place _ := ⟨rfl, rfl⟩

theorem Circled.setInt (h : Circled jumps m) (value : Int64) :
    Circled jumps (m.setInt circleLoop.var value) :=
  { h with }

theorem Circled.execBody_eq (h : Circled jumps m) :
    execBody .global ["GOTO a"] m = .ok () m.circledOnce := by
  have hread : Statement.read (m.vars.isString .global) "GOTO a" = .ok (.goto "a") := rfl
  have hlabel : m.labels.get? "a" = some ⟨0, min jumps maxCount⟩ := by
    rw [h.labels, LabelTable.get?_after, lastIndex?_circling, jumpsSince_circling]
    rfl
  have hjump : jumpTo "a" m = .ok () m.circledOnce := by
    rw [jumpTo, get_bind, LabelTable.jump_of_get? hlabel]
    rfl
  have hexecute : execute .global (.goto "a") m = .ok [] m.circledOnce := by
    rw [execute, bind_of_ok (guard_of_free h.free), get_bind]
    exact bind_of_ok hjump
  have hstart : start .global "GOTO a" [] m = .ok ([], 1) m.circledOnce := by
    rw [start_of_opens?_eq_none [] hread rfl]
    exact bind_of_ok hexecute
  have hend : (Frame.body .global []).tick m.circledOnce = .ok [] m.circledOnce := rfl
  have hdone : Yields [] m.circledOnce (.ok () m.circledOnce) := ⟨0, by rw [complete]⟩
  rw [execBody_eq_iff, yields_of_tick (tick_body_of_start hstart)]
  exact (yields_of_tick hend).mpr hdone

/-- No pass of the loop is stopped, not even the last one, whose jump is not counted any more. -/
theorem Circled.loops {value : Int64} {starts : List Machine}
    {result : EStateM.Result Fault Machine Unit}
    (hloops : Loops .global circleLoop ["GOTO a"] value m starts result) (h : Circled jumps m)
    (hv : value.toInt = jumps + 1) (hj : jumps ≤ 2 ^ 32) :
    ∃ m', result = .ok () m' ∧ Circled (2 ^ 32) m' := by
  have htop : circleLoop.top = 2 ^ 32 := by decide
  have hstep : circleLoop.step.toInt = 1 := by decide
  -- The induction is on the passes that are left. Each of them ends well.
  induction hloops generalizing jumps with
  | stopped hstop =>
    -- The guard of a pass asks for a count above the greatest one.
    exact absurd hstop h.free.not_stopped
  | past hpast =>
    rw [LoopHeader.admits_iff, htop, hv] at hpast
    have hall : jumps = 2 ^ 32 := by omega
    exact ⟨_, rfl, hall ▸ h⟩
  | failed hadmits hfails =>
    rw [(h.setInt _).execBody_eq] at hfails
    cases hfails
  | last hadmits _ hnone _ =>
    rw [add?_eq_none_iff (by omega), hv, hstep, Int64.toInt_maxValue] at hnone
    omega
  | overflows _ _ _ hbound => cases hbound
  | next hadmits hpass hnext _ ih =>
    rw [(h.setInt _).execBody_eq] at hpass
    cases hpass
    rw [LoopHeader.admits_iff, htop, hv] at hadmits
    have hvalue := add?_toInt hnext
    rw [hv, hstep] at hvalue
    exact ih (h.setInt _).once (by push_cast; exact hvalue) (by omega)

/-- Behind the loop only the line that ends it is left, three lines after the label. -/
theorem Circled.resume_eq (h : Circled (2 ^ 32) m) :
    ∃ m', resume circle 4 [.line 1 3] m = some (.ok () m') := by
  obtain ⟨hjumped, hip⟩ := h.place (Nat.two_pow_pos 32)
  let m₁ := m.lineEnded 1 3
  let m₂ : Machine := { m₁ with jumped := false }
  have hplace : m₁.ip = 3 := by
    change (if m.jumped then m.ip else 1) + 3 = 3
    rw [hjumped, hip]
    rfl
  have hline : tick circle [.line 1 3] m = .ok (some []) m₁ := rfl
  have hread : Statement.read (m₂.vars.isString .global) "END FOR" = .ok (.endBlock .forBlock) := rfl
  have hexecute : execute .global (.endBlock .forBlock) m₂ = .ok [] m₂ := by
    have hfree : m₂.Free := h.free
    rw [execute, bind_of_ok (guard_of_free hfree), get_bind]
    rfl
  have hstart : start .global "END FOR" [] m₂ = .ok ([], 1) m₂ := by
    rw [start_of_opens?_eq_none [] hread rfl]
    exact bind_of_ok hexecute
  have hlast : tick circle [] m₁ = .ok (some [.line m₁.ip 1]) m₂ := by
    have hdrop : circle.drop m₁.ip = ["END FOR"] := by
      rw [hplace]
      rfl
    have hdebug : m₁.debug = false := h.debug
    rw [tick_of_drop hdrop, bind_of_ok (trace_of_debug hdebug _), modify_bind]
    exact bind_of_ok hstart
  let m₃ := m₂.lineEnded m₁.ip 1
  have hbehind : tick circle [.line m₁.ip 1] m₂ = .ok (some []) m₃ := rfl
  have hend : tick circle [] m₃ = .ok none m₃.flushed.cleared := by
    have hdrop : circle.drop m₃.ip = [] := by
      change circle.drop (m₁.ip + 1) = []
      rw [hplace]
      rfl
    have hflushes : m₃.sink.refusesFlush = false := h.flushes
    rw [tick_of_ended hdrop, hflushes, if_neg Bool.false_ne_true]
  rw [resume, hline]
  dsimp only
  rw [resume, hlast]
  dsimp only
  rw [resume, hbehind]
  dsimp only
  rw [resume, hend]
  exact ⟨_, rfl⟩

end Machine

/-- Jumps behind the greatest count are not counted. The label is jumped to once more than the greatest
limit allows, and yet neither the check nor the run with that limit fails. -/
theorem greatest_limit_is_exceeded_unnoticed :
    lastIndex? "a" (circling (2 ^ 32)) = some 0 ∧
      maxCount < jumpsSince "a" (circling (2 ^ 32)) ∧
      (LabelTable.after (circling (2 ^ 32))).check maxCount = .ok () ∧
      ∃ n c budget m', Moment.after? circle n (.first { jumpLimit := maxCount }) = some c ∧
        c.machine.labels = LabelTable.after (circling (2 ^ 32)) ∧
        Machine.run budget circle { jumpLimit := maxCount } = some (.ok () m') := by
  refine ⟨lastIndex?_circling _, ?_, LabelTable.check_after_maxCount _, ?_⟩
  · rw [jumpsSince_circling]
    decide
  · let frames : List Frame := [.loop .global circleLoop ["GOTO a"] 1]
    obtain ⟨m, hbegins, hm⟩ : ∃ m : Machine,
        Moment.after? circle 3 (.first { jumpLimit := maxCount }) =
          some ⟨frames ++ [.line 1 3], m⟩ ∧ m.Circled 0 :=
      ⟨_, rfl, rfl, rfl, rfl, rfl, rfl, fun h => absurd h (lt_irrefl 0)⟩
    obtain ⟨budget, result, hcomplete⟩ : ∃ budget result,
        Machine.complete budget frames m = some result :=
      Machine.loop_ends (by decide) .global ["GOTO a"] 1 m
    obtain ⟨m', rfl, hm'⟩ := hm.loops (Machine.loops_of_complete hcomplete) (by decide) (by decide)
    obtain ⟨n, hreach⟩ := Moment.after?_of_complete circle hcomplete [.line 1 3]
    have hafter : Moment.after? circle (3 + n) (.first { jumpLimit := maxCount }) =
        some ⟨[.line 1 3], m'⟩ := by
      rw [Moment.after?_add, hbegins]
      exact hreach
    obtain ⟨m₁, hresume⟩ := hm'.resume_eq
    exact ⟨3 + n, _, _, m₁, hafter, hm'.labels, Moment.resume_of_after? hafter hresume⟩

end LineScript
