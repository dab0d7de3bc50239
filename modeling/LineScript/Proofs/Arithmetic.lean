import LineScript.Proofs.Declarations
import LineScript.Proofs.Reassignment
import Mathlib.Data.Rat.Floor

/-! Integers are reassigned exactly. The result of an operator is the one in the integers without
bounds, and if it does not fit into 64 bits the reassignment fails and changes nothing. Powers, which
are computed in double precision, are left out. -/

namespace LineScript

/-- A fraction without what is behind its point. -/
def truncated (q : ℚ) : Int :=
  if 0 ≤ q then ⌊q⌋ else ⌈q⌉

theorem truncated_div_natCast (x : Int) (d : Nat) : truncated (x / d) = x.tdiv d := by
  unfold truncated
  rw [Rat.floor_intCast_div_natCast, Rat.ceil_intCast_div_natCast]
  rcases Nat.eq_zero_or_pos d with rfl | hd
  · simp
  · have hpos : (0 : ℚ) < d := by exact_mod_cast hd
    by_cases hx : 0 ≤ x
    · have hq : (0 : ℚ) ≤ x / d := by positivity
      rw [if_pos hq, Int.tdiv_eq_ediv_of_nonneg hx]
    · have hq : ¬ (0 : ℚ) ≤ x / d := by
        rw [not_le]
        apply div_neg_of_neg_of_pos _ hpos
        exact_mod_cast not_le.mp hx
      have hneg : 0 ≤ -x := by omega
      rw [if_neg hq, ← Int.tdiv_eq_ediv_of_nonneg hneg, Int.neg_tdiv, neg_neg]

/-- The quotient that is computed is the fraction rounded toward zero. -/
theorem truncated_div (x y : Int) : truncated (x / y) = x.tdiv y := by
  obtain ⟨d, rfl | rfl⟩ := Int.eq_nat_or_neg y
  · exact_mod_cast truncated_div_natCast x d
  · -- Both signs are changed, which changes neither quotient.
    have hq : ((x : ℚ) / ((-(d : Int) : Int) : ℚ)) = ((-x : Int) : ℚ) / d := by
      push_cast
      rw [div_neg, neg_div]
    rw [hq, truncated_div_natCast, Int.tdiv_neg, Int.neg_tdiv]

/-- The integers of 64 bits. -/
def Fits (z : Int) : Prop :=
  -2 ^ 63 ≤ z ∧ z ≤ 2 ^ 63 - 1

instance (z : Int) : Decidable (Fits z) :=
  inferInstanceAs (Decidable (_ ∧ _))

theorem checked_of_fits {z : Int} (h : Fits z) : ∃ value, checked z = some value ∧ value.toInt = z := by
  obtain ⟨hmin, hmax⟩ := h
  refine ⟨Int64.ofInt z, ?_, Int64.toInt_ofInt_of_le hmin (by omega)⟩
  rw [checked, if_pos]
  rw [Int64.toInt_minValue, Int64.toInt_maxValue]
  omega

theorem checked_of_not_fits {z : Int} (h : ¬ Fits z) : checked z = none := by
  rw [checked, if_neg]
  rw [Int64.toInt_minValue, Int64.toInt_maxValue]
  intro hrange
  exact h ⟨by omega, by omega⟩

namespace Update

/-- What an operator does to integers without bounds. A power has no exact result, and the sign of
equality is no operation. -/
def onIntegers? : Update → Option (Int → Int → Int)
  | increment => some fun x _ => x + 1
  | decrement => some fun x _ => x - 1
  | add => some fun x y => x + y
  | subtract => some fun x y => x - y
  | multiply => some fun x y => x * y
  | divide => some fun x y => truncated (x / y)
  | set | raise => none

variable {op : Update} {f : Int → Int → Int}

theorem read?_symbol (op : Update) : read? op.symbol = some op := by
  cases op <;> rfl

theorem symbol_of_read? {symbol : String} (h : read? symbol = some op) : symbol = op.symbol := by
  unfold read? at h
  split at h <;> cases h <;> rfl

/-- An operator with an exact result has it if it fits, unless something is divided by zero. -/
theorem apply_eq (h : op.onIntegers? = some f) {x y : Int64} (hy : op = divide → y ≠ 0) :
    op.apply x y = (checked (f x.toInt y.toInt)).elim (.error .overflow) .ok := by
  have hone : (1 : Int64).toInt = 1 := rfl
  cases op with
  | set => cases h
  | raise => cases h
  | increment =>
    cases h
    simp only [apply, add?, hone]
    cases checked (x.toInt + 1) <;> rfl
  | decrement =>
    cases h
    simp only [apply, sub?, hone]
    cases checked (x.toInt - 1) <;> rfl
  | add =>
    cases h
    simp only [apply, add?]
    cases checked (x.toInt + y.toInt) <;> rfl
  | subtract =>
    cases h
    simp only [apply, sub?]
    cases checked (x.toInt - y.toInt) <;> rfl
  | multiply =>
    cases h
    simp only [apply, mul?]
    cases checked (x.toInt * y.toInt) <;> rfl
  | divide =>
    cases h
    simp only [apply, if_neg (hy rfl), div?, truncated_div]
    cases checked (x.toInt.tdiv y.toInt) <;> rfl

theorem apply_of_fits (h : op.onIntegers? = some f) {x y : Int64} (hy : op = divide → y ≠ 0)
    (hfits : Fits (f x.toInt y.toInt)) :
    ∃ value, op.apply x y = .ok value ∧ value.toInt = f x.toInt y.toInt := by
  obtain ⟨value, hvalue, hint⟩ := checked_of_fits hfits
  refine ⟨value, ?_, hint⟩
  rw [apply_eq h hy, hvalue]
  rfl

theorem apply_of_not_fits (h : op.onIntegers? = some f) {x y : Int64} (hy : op = divide → y ≠ 0)
    (hfits : ¬ Fits (f x.toInt y.toInt)) : op.apply x y = .error .overflow := by
  rw [apply_eq h hy, checked_of_not_fits hfits]
  rfl

end Update

namespace Variables

variable {vars : Variables} {scope : Scope} {name word : String} {slot : Slot} {op : Update}

/-- The integer that a word stands for as an operand: its value as a numeral, or else that of the first
integer variable found, among the local ones inside a macro, then among the global ones, and then
among the mutable ones that have a value. -/
inductive Denotes (vars : Variables) (scope : Scope) (word : String) : Int64 → Prop where
  | numeral {n : Int64} (h : readInt? word = some n) : Denotes vars scope word n
  | localInt {n : Int64} (hw : readInt? word = none) (hs : scope = .inMacro)
      (h : vars.localInts.get? word = some n) : Denotes vars scope word n
  | int {n : Int64} (hw : readInt? word = none)
      (hl : scope = .inMacro → vars.localInts.get? word = none)
      (h : vars.ints.get? word = some n) : Denotes vars scope word n
  | mutableInt {n : Int64} (hw : readInt? word = none)
      (hl : scope = .inMacro → vars.localInts.get? word = none) (hi : vars.ints.get? word = none)
      (h : vars.mutables.get? word = some (some n)) : Denotes vars scope word n

theorem denotes_of_operand {n : Int64} (h : vars.operand scope word = .ok n) :
    vars.Denotes scope word n := by
  unfold operand at h
  cases hw : readInt? word with
  | some k =>
    rw [hw] at h
    cases h
    exact .numeral hw
  | none =>
    rw [hw] at h
    have hint : vars.int? scope word = some n := found_eq_ok h
    have hglobal (hl : scope = .inMacro → vars.localInts.get? word = none)
        (hg : (vars.ints.get? word <|> (vars.mutables.get? word).join) = some n) :
        vars.Denotes scope word n := by
      cases hi : vars.ints.get? word with
      | some k =>
        rw [hi] at hg
        cases hg
        exact .int hw hl hi
      | none =>
        rw [hi] at hg
        exact .mutableInt hw hl hi (Option.join_eq_some_iff.mp hg)
    unfold int? localEntry at hint
    by_cases hs : scope = .inMacro
    · rw [if_pos hs] at hint
      cases hl : vars.localInts.get? word with
      | some k =>
        rw [hl] at hint
        cases hint
        exact .localInt hw hs hl
      | none =>
        rw [hl] at hint
        exact hglobal (fun _ => hl) hint
    · rw [if_neg hs] at hint
      exact hglobal (fun h => absurd h hs) hint

theorem Denotes.operand_eq {n : Int64} (h : vars.Denotes scope word n) :
    vars.operand scope word = .ok n := by
  have hfound (hw : readInt? word = none) (hn : vars.int? scope word = some n) :
      vars.operand scope word = .ok n := by
    rw [operand, hw]
    dsimp only
    rw [readInt, hn]
    rfl
  have hlocal (hl : scope = .inMacro → vars.localInts.get? word = none) :
      localEntry scope vars.localInts word = none := by
    unfold localEntry
    split
    · exact hl ‹_›
    · rfl
  cases h with
  | numeral h => rw [operand, h]
  | localInt hw hs h =>
    apply hfound hw
    rw [int?, localEntry, if_pos hs, h]
    rfl
  | int hw hl h =>
    apply hfound hw
    rw [int?, hlocal hl, h]
    rfl
  | mutableInt hw hl hi h =>
    apply hfound hw
    rw [int?, hlocal hl, hi, h]
    rfl

/-- The words after an operator are as many as it takes, and the given number is their operand. For an
operator without an operand it is zero. -/
inductive Supplies (vars : Variables) (scope : Scope) (op : Update) : List String → Int64 → Prop where
  | nothing (h : op.isUnary = true) : Supplies vars scope op [] 0
  | operand {word : String} {n : Int64} (h : op.isUnary = false)
      (hd : vars.Denotes scope word n) : Supplies vars scope op [word] n

/-- The variables with another value of an integer. -/
def withInt (vars : Variables) (name : String) (value : Int64) : Slot → Variables
  | .int => { vars with ints := vars.ints.insert name value }
  | .localInt => { vars with localInts := vars.localInts.insert name value }
  | _ => vars

theorem value?_withInt (hslot : slot = .int ∨ slot = .localInt) (vars : Variables) (name : String)
    (value : Int64) : (vars.withInt name value slot).value? name slot = some (.int value) := by
  rcases hslot with rfl | rfl <;>
    simp only [withInt, value?, Table.get?_insert_self, Option.map_some]

theorem agreeOff_withInt (vars : Variables) (name : String) (value : Int64) (slot : Slot) :
    AgreeOff slot name vars (vars.withInt name value slot) := by
  obtain ⟨hints, -, -, hlocals, -⟩ := agreeOff_insert vars name
  cases slot with
  | int => exact hints value
  | localInt => exact hlocals value
  | _ => exact .refl _ _ _

/-- The target of a reassignment is there. -/
theorem exists_value?_of_target? (ht : vars.target? scope name = some slot)
    (hslot : slot = .int ∨ slot = .localInt) : ∃ x, vars.value? name slot = some (.int x) := by
  have hbinds := binds_of_target? ht
  rcases hslot with rfl | rfl <;> obtain ⟨x, hx⟩ := Option.isSome_iff_exists.mp hbinds <;>
    exact ⟨x, congrArg (Option.map Value.int) hx⟩

theorem updateEntry_eq {t : Table Int64} {x : Int64} (hx : t.get? name = some x) (op : Update)
    (n : Int64) :
    Machine.updateEntry t name op n =
      ((op.apply x n).mapError .arithmetic).map (t.insert name) := by
  rw [Machine.updateEntry, hx]
  change ((op.apply x n).mapError Fault.arithmetic >>= fun value => pure (t.insert name value)) = _
  cases op.apply x n <;> rfl

theorem stored_eq (hslot : slot = .int ∨ slot = .localInt) {x : Int64}
    (hx : vars.value? name slot = some (.int x)) (op : Update) (n : Option Int64) :
    vars.stored name op n slot =
      ((op.apply x (n.getD 0)).mapError .arithmetic).map fun value =>
        vars.withInt name value slot := by
  have hget {t : Table Int64} (h : (t.get? name).map Value.int = some (.int x)) :
      t.get? name = some x := by
    obtain ⟨found, hf, he⟩ := Option.map_eq_some_iff.mp h
    cases he
    exact hf
  rcases hslot with rfl | rfl <;> rw [stored, updateEntry_eq (hget hx)] <;>
    cases op.apply x (n.getD 0) <;> rfl

/-- An operator on integers that gets its operand is applied to the value that is there. -/
theorem assigned_of_supplies (ht : vars.target? scope name = some slot)
    (hslot : slot = .int ∨ slot = .localInt) {x : Int64}
    (hx : vars.value? name slot = some (.int x)) (hop : op ≠ .set) {words : List String}
    {n : Int64} (hs : vars.Supplies scope op words n) (reserved : String → Bool) :
    vars.assigned scope reserved name (op.symbol :: words) =
      ((op.apply x n).mapError .arithmetic).map fun value => vars.withInt name value slot := by
  obtain ⟨word, value, hread, hvalue, rfl⟩ : ∃ word value,
      Machine.readUpdate name (op.symbol :: words) = .ok (op, word) ∧
      vars.operand? scope word = .ok value ∧ value.getD 0 = n := by
    cases hs with
    | nothing h =>
      refine ⟨none, none, ?_, rfl, rfl⟩
      simp only [Machine.readUpdate, Update.read?_symbol, h]
    | operand h hd =>
      rename_i word
      refine ⟨some word, some n, ?_, ?_, rfl⟩
      · simp only [Machine.readUpdate, Update.read?_symbol, h]
      · rw [operand?, hd.operand_eq]
        rfl
  have htakes : slot.takes op = true := by
    rcases hslot with rfl | rfl <;> exact decide_eq_true hop
  have hupdated : vars.updated scope name op word slot =
      (vars.operand? scope word).bind fun n => vars.stored name op n slot := by
    rcases hslot with rfl | rfl <;> exact if_pos htakes
  rw [assigned, ht]
  dsimp only
  rw [hread]
  dsimp only
  rw [hupdated, hvalue, ← stored_eq hslot hx]
  rfl

/-- An operator that does not get an operand fails. -/
theorem assigned_of_not_supplies {words : List String}
    (hs : ∀ n, ¬ vars.Supplies scope op words n) (name : String) (reserved : String → Bool) :
    ∃ fault, vars.assigned scope reserved name (op.symbol :: words) = .error fault := by
  cases ha : vars.assigned scope reserved name (op.symbol :: words) with
  | error fault => exact ⟨fault, rfl⟩
  | ok vars' =>
    obtain ⟨slot', op', word, n, _, hread, _, ho, _⟩ := exists_of_assigned ha
    simp only [Machine.readUpdate, Update.read?_symbol] at hread
    split at hread
    · rename_i hunary
      exact absurd (.nothing hunary) (hs 0)
    · rename_i hunary
      cases hread
      obtain ⟨k, hk, _⟩ := exists_of_map_eq_ok ho
      exact absurd (.operand hunary (denotes_of_operand hk)) (hs k)
    · cases hread

/-- A table that does not take an operator refuses it with a fault of syntax, whatever follows. -/
theorem assigned_of_not_takes (ht : vars.target? scope name = some slot)
    (hslot : slot.holdsStrings = false) {symbol : String}
    (htakes : ∀ op, Update.read? symbol = some op → slot.takes op = false)
    (words : List String) (reserved : String → Bool) :
    ∃ cause, vars.assigned scope reserved name (symbol :: words) = .error (.malformed cause) := by
  rw [assigned, ht]
  dsimp only
  cases hread : Machine.readUpdate name (symbol :: words) with
  | error cause => exact ⟨cause, rfl⟩
  | ok update =>
    obtain ⟨op, word⟩ := update
    have hop : Update.read? symbol = some op := by
      unfold Machine.readUpdate at hread
      split at hread
      · cases hread
      · rename_i hsymbol
        cases hsymbol
        split at hread
        · cases hread
        · rename_i hsymbol
          split at hread <;> cases hread <;> exact hsymbol
    refine ⟨.unknownOperator, ?_⟩
    have hrefused := htakes op hop
    cases slot with
    | string => cases hslot
    | localString => cases hslot
    | _ => simp only [updated, hrefused, Bool.false_eq_true, if_false]

end Variables

namespace Machine

variable {m : Machine} {scope : Scope} {name : String} {slot : Slot} {op : Update}
  {words : List String}

section

variable {f : Int → Int → Int} {x n : Int64} (ht : m.vars.target? scope name = some slot)
  (hslot : slot = .int ∨ slot = .localInt) (hx : m.vars.value? name slot = some (.int x))
  (hop : op.onIntegers? = some f) (hs : m.vars.Supplies scope op words n)

include ht hslot hx hop hs

theorem assign_of_supplies :
    assign scope name (op.symbol :: words) m =
      adopt (((op.apply x n).mapError .arithmetic).map fun value =>
        m.vars.withInt name value slot) m := by
  have hset : op ≠ .set := by
    rintro rfl
    cases hop
  rw [assign_eq, Variables.assigned_of_supplies ht hslot hx hset hs]

/-- A result that fits is stored. -/
theorem assign_of_fits (hn : op = .divide → n ≠ 0) (hf : Fits (f x.toInt n.toInt)) :
    ∃ value, value.toInt = f x.toInt n.toInt ∧
      assign scope name (op.symbol :: words) m =
        .ok () { m with vars := m.vars.withInt name value slot } := by
  obtain ⟨value, happly, hvalue⟩ := Update.apply_of_fits hop hn hf
  refine ⟨value, hvalue, ?_⟩
  rw [assign_of_supplies ht hslot hx hop hs, happly]
  rfl

theorem assign_of_not_fits (hn : op = .divide → n ≠ 0) (hf : ¬ Fits (f x.toInt n.toInt)) :
    assign scope name (op.symbol :: words) m = .error (.arithmetic .overflow) m := by
  rw [assign_of_supplies ht hslot hx hop hs, Update.apply_of_not_fits hop hn hf]
  rfl

theorem assign_of_divide_zero (hd : op = .divide) (hn : n = 0) :
    assign scope name (op.symbol :: words) m = .error (.arithmetic .divisionByZero) m := by
  rw [assign_of_supplies ht hslot hx hop hs]
  subst hd hn
  rfl

/-- A reassignment that succeeds has met neither of the two faults of arithmetic. -/
theorem fits_of_assign {m' : Machine} (hm : assign scope name (op.symbol :: words) m = .ok () m') :
    (op = .divide → n ≠ 0) ∧ Fits (f x.toInt n.toInt) := by
  have hn : op = .divide → n ≠ 0 := by
    intro hd hn
    rw [assign_of_divide_zero ht hslot hx hop hs hd hn] at hm
    cases hm
  refine ⟨hn, ?_⟩
  by_contra hf
  rw [assign_of_not_fits ht hslot hx hop hs hn hf] at hm
  cases hm

end

theorem exists_supplies_of_assign {m' : Machine}
    (hm : assign scope name (op.symbol :: words) m = .ok () m') :
    ∃ n, m.vars.Supplies scope op words n := by
  by_contra hnone
  obtain ⟨fault, hassigned⟩ :=
    Variables.assigned_of_not_supplies (fun n hs => hnone ⟨n, hs⟩) name m.isReserved
  rw [assign_eq, hassigned] at hm
  cases hm

theorem assign_of_not_takes (ht : m.vars.target? scope name = some slot)
    (hslot : slot.holdsStrings = false) {symbol : String}
    (htakes : ∀ op, Update.read? symbol = some op → slot.takes op = false) (words : List String) :
    ∃ cause, assign scope name (symbol :: words) m = .error (.malformed cause) m := by
  obtain ⟨cause, hassigned⟩ :=
    Variables.assigned_of_not_takes ht hslot htakes words m.isReserved
  refine ⟨cause, ?_⟩
  rw [assign_eq, hassigned]
  rfl

/-- A reassignment of an integer succeeds if and only if there are as many operands as the operator
takes, the operand has a value, nothing is divided by zero, and the exact result fits into 64 bits.
Then the integer has that result, and no other entry of any table has changed. Division by zero and
results that do not fit are faults of arithmetic; the sign of equality after an integer, and anything
else after a mutable integer, is a fault of syntax. -/
theorem integers_are_reassigned_exactly (m : Machine) (scope : Scope) (name : String) :
    (∀ slot, m.vars.target? scope name = some slot → slot = .int ∨ slot = .localInt →
      ∃ x, m.vars.value? name slot = some (.int x) ∧
      (∀ op f words, op.onIntegers? = some f →
        ((∃ m', assign scope name (op.symbol :: words) m = .ok () m') ↔
          ∃ n, m.vars.Supplies scope op words n ∧ (op = .divide → n ≠ 0) ∧
            Fits (f x.toInt n.toInt)) ∧
        ∀ n, m.vars.Supplies scope op words n →
          (∀ m', assign scope name (op.symbol :: words) m = .ok () m' →
            ∃ vars value, m' = { m with vars := vars } ∧
              vars.value? name slot = some (.int value) ∧ value.toInt = f x.toInt n.toInt ∧
              m.vars.AgreeOff slot name vars) ∧
          (op = .divide → n = 0 →
            assign scope name (op.symbol :: words) m = .error (.arithmetic .divisionByZero) m) ∧
          ((op = .divide → n ≠ 0) → ¬ Fits (f x.toInt n.toInt) →
            assign scope name (op.symbol :: words) m = .error (.arithmetic .overflow) m)) ∧
      ∀ words, ∃ cause, assign scope name ("=" :: words) m = .error (.malformed cause) m) ∧
    (m.vars.target? scope name = some .mutableInt → ∀ symbol words, symbol ≠ "=" →
      ∃ cause, assign scope name (symbol :: words) m = .error (.malformed cause) m) := by
  constructor
  · intro slot ht hslot
    obtain ⟨x, hx⟩ := Variables.exists_value?_of_target? ht hslot
    refine ⟨x, hx, fun op f words hop => ⟨⟨?_, ?_⟩, fun n hs => ⟨?_, ?_, ?_⟩⟩, fun words => ?_⟩
    · rintro ⟨m', hm⟩
      obtain ⟨n, hs⟩ := exists_supplies_of_assign hm
      exact ⟨n, hs, fits_of_assign ht hslot hx hop hs hm⟩
    · rintro ⟨n, hs, hn, hf⟩
      obtain ⟨value, _, hm⟩ := assign_of_fits ht hslot hx hop hs hn hf
      exact ⟨_, hm⟩
    · intro m' hm
      obtain ⟨hn, hf⟩ := fits_of_assign ht hslot hx hop hs hm
      obtain ⟨value, hvalue, hassign⟩ := assign_of_fits ht hslot hx hop hs hn hf
      rw [hm] at hassign
      cases hassign
      exact ⟨_, value, rfl, Variables.value?_withInt hslot m.vars name value, hvalue,
        Variables.agreeOff_withInt m.vars name value slot⟩
    · exact assign_of_divide_zero ht hslot hx hop hs
    · exact assign_of_not_fits ht hslot hx hop hs
    · have hints : slot.holdsStrings = false := by
        rcases hslot with rfl | rfl <;> rfl
      apply assign_of_not_takes ht hints
      intro op hop
      cases hop
      rcases hslot with rfl | rfl <;> rfl
  · intro ht symbol words hsymbol
    apply assign_of_not_takes ht rfl
    intro op hop
    have hne : op ≠ .set := by
      rintro rfl
      exact hsymbol (Update.symbol_of_read? hop)
    exact decide_eq_false hne

/-- The least integer divided by the mutable `d`, which is one less than zero, is one more than the
greatest; divided by itself it is one, and the global integer of the same name is not touched. -/
theorem least_integer_is_divided :
    let vars : Variables :=
      { ints := ⟨[("x", 7)]⟩, localInts := ⟨[("x", Int64.minValue)]⟩, mutables := ⟨[("d", some (-1))]⟩ }
    let m : Machine := { vars := vars }
    m.vars.target? .inMacro "x" = some .localInt ∧
      assign .inMacro "x" ["/=", "d"] m = .error (.arithmetic .overflow) m ∧
      ∃ m' one, assign .inMacro "x" ["/=", "x"] m = .ok () m' ∧
        m'.vars.value? "x" .localInt = some (.int one) ∧ one.toInt = 1 ∧
        m'.vars.value? "x" .int = some (.int 7) := by
  intro vars m
  have ht : m.vars.target? .inMacro "x" = some .localInt := rfl
  obtain ⟨x, hx, hexact, _⟩ :=
    (integers_are_reassigned_exactly m .inMacro "x").1 .localInt ht (Or.inr rfl)
  cases hx
  refine ⟨ht, ?_, ?_⟩
  · have hs : vars.Supplies .inMacro .divide ["d"] (-1) :=
      .operand rfl (.mutableInt (by decide +kernel) (fun _ => rfl) rfl rfl)
    have hf : ¬ Fits (truncated ((Int64.minValue.toInt : ℚ) / ((-1 : Int64).toInt : ℚ))) := by
      rw [truncated_div]
      decide
    exact ((hexact .divide _ ["d"] rfl).2 _ hs).2.2 (fun _ => by decide) hf
  · have hs : vars.Supplies .inMacro .divide ["x"] Int64.minValue :=
      .operand rfl (.localInt (by decide +kernel) rfl rfl)
    have hquotient : truncated ((Int64.minValue.toInt : ℚ) / (Int64.minValue.toInt : ℚ)) = 1 := by
      rw [truncated_div]
      decide
    have hf : Fits (truncated ((Int64.minValue.toInt : ℚ) / (Int64.minValue.toInt : ℚ))) := by
      rw [hquotient]
      decide
    obtain ⟨hiff, hresult⟩ := hexact .divide _ ["x"] rfl
    obtain ⟨m', hm⟩ := hiff.mpr ⟨_, hs, fun _ => by decide, hf⟩
    obtain ⟨vars', one, rfl, hone, hvalue, hagree⟩ := (hresult _ hs).1 m' hm
    refine ⟨_, one, hm, hone, hvalue.trans hquotient, ?_⟩
    exact hagree .int "x" (Or.inl (by decide))

end Machine

end LineScript
