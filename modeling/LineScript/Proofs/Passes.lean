import LineScript.Proofs.Ahead
import LineScript.Proofs.Sequence

/-! The passes of a loop. Their values are an arithmetic progression up to the bound, and neither
the body nor the ends of the range of integers make a difference to them. A loop without a bound
goes on to the greatest integer and fails behind it. -/

namespace LineScript

/-- How many terms of a progression are not above a bound. -/
def termCount (first step top : Int) : Nat :=
  if first ≤ top then ((top - first) / step).toNat + 1 else 0

/-- The terms of a progression that are not above a bound. -/
def progression (first step top : Int) : List Int :=
  (List.range (termCount first step top)).map fun k : Nat => first + k * step

section Progression

variable {first step top : Int}

theorem lt_termCount_iff (hs : 0 < step) (k : Nat) :
    k < termCount first step top ↔ first + k * step ≤ top := by
  unfold termCount
  split
  · rename_i hle
    have hquotient : 0 ≤ (top - first) / step := Int.ediv_nonneg (by omega) hs.le
    have hdivides := Int.le_ediv_iff_mul_le (a := (k : Int)) (b := top - first) hs
    omega
  · rename_i hlt
    have hterm : 0 ≤ (k : Int) * step := Int.mul_nonneg (Int.natCast_nonneg k) hs.le
    omega

theorem progression_of_lt (h : top < first) : progression first step top = [] := by
  have hcount : termCount first step top = 0 := if_neg (by omega)
  rw [progression, hcount]
  rfl

theorem progression_cons (hs : 0 < step) (h : first ≤ top) :
    progression first step top = first :: progression (first + step) step top := by
  have hterm (k : Nat) : first + (k + 1 : Nat) * step = first + step + k * step := by
    push_cast
    ring
  -- Both counts have the same numbers below them.
  have hcount : termCount first step top = termCount (first + step) step top + 1 := by
    apply eq_of_forall_lt_iff
    intro k
    cases k with
    | zero =>
      rw [lt_termCount_iff hs]
      simpa using h
    | succ k => rw [Nat.add_lt_add_iff_right, lt_termCount_iff hs, lt_termCount_iff hs, hterm]
  unfold progression
  rw [hcount, List.range_succ_eq_map, List.map_cons, List.map_map]
  congr 1
  · simp
  · apply List.map_congr_left
    intro k _
    exact hterm k

end Progression

/-- The greatest value that a pass may have. Without a bound it is the greatest integer. -/
def LoopHeader.top (header : LoopHeader) : Int :=
  match header.bound with
  | .upTo last => last.toInt
  | .unbounded => Int64.maxValue.toInt

/-- The values of the passes from a given one on. -/
def LoopHeader.values (header : LoopHeader) (value : Int64) : List Int :=
  progression value.toInt header.step.toInt header.top

/-- A sum is out of range if it is above the greatest integer, as long as nothing negative is added.
-/
theorem add?_eq_none_iff {x y : Int64} (hy : 0 < y.toInt) :
    add? x y = none ↔ Int64.maxValue.toInt < x.toInt + y.toInt := by
  have hx := x.le_toInt
  have hmin := Int64.toInt_minValue
  unfold add? checked
  split
  · rename_i hrange
    simp only [reduceCtorEq, false_iff]
    omega
  · rename_i hrange
    simp only [true_iff]
    omega

namespace LoopHeader

variable {header : LoopHeader} {value next : Int64}

/-- A value that is not past the bound. -/
def Admits (header : LoopHeader) (value : Int64) : Prop :=
  ∀ last, header.bound = .upTo last → ¬ last < value

theorem admits_iff : header.Admits value ↔ value.toInt ≤ header.top := by
  have hmax := value.toInt_lt
  unfold Admits top
  cases header.bound with
  | upTo last => simp [Int64.lt_iff_toInt_lt]
  | unbounded =>
    rw [Int64.toInt_maxValue]
    simp
    omega

theorem values_of_past (h : ¬ header.Admits value) : header.values value = [] := by
  rw [admits_iff] at h
  exact progression_of_lt (by omega)

theorem values_of_next (hs : 0 < header.step.toInt) (hv : header.Admits value)
    (ha : add? value header.step = some next) :
    header.values value = value.toInt :: header.values next := by
  unfold values
  rw [progression_cons hs (admits_iff.mp hv), add?_toInt ha]

theorem values_of_last (hs : 0 < header.step.toInt) (hv : header.Admits value)
    (ha : add? value header.step = none) : header.values value = [value.toInt] := by
  have hover := (add?_eq_none_iff hs).mp ha
  have htop : header.top ≤ Int64.maxValue.toInt := by
    unfold top
    split
    · rename_i last _
      have hlast := last.toInt_lt
      rw [Int64.toInt_maxValue]
      omega
    · exact le_rfl
  unfold values
  rw [progression_cons hs (admits_iff.mp hv), progression_of_lt (by omega)]

end LoopHeader

/-- Whether a frame is a loop between two passes. -/
def Frame.isLoop : Frame → Bool
  | .loop .. => true
  | _ => false

namespace Machine

/-- The machines with which the passes of the loop at the bottom of a stack begin, while the stack
is worked off. -/
def passes : (budget : Nat) → List Frame → Machine → List Machine
  | 0, _, _ => []
  | _ + 1, [], _ => []
  | budget + 1, frame :: stack, m =>
    match frame.tick m with
    | .error _ _ => []
    | .ok frames m' =>
      if frame.isLoop ∧ frames ≠ [] ∧ stack = [] then m' :: passes budget (frames ++ stack) m'
      else passes budget (frames ++ stack) m'

theorem passes_nil (budget : Nat) (m : Machine) : passes budget [] m = [] := by
  cases budget <;> rfl

section Ticks

variable {scope : Scope} {header : LoopHeader} {lines : List String} {value : Int64} {m : Machine}
  {fault : Fault}

theorem tick_loop_of_stopped (h : m.Stopped fault) :
    (Frame.loop scope header lines value).tick m = .error fault m := by
  rw [Frame.tick, bind_of_error (guard_of_stopped h)]

theorem tick_loop_of_past (hf : m.Free) (h : ¬ header.Admits value) :
    (Frame.loop scope header lines value).tick m = .ok [] m := by
  unfold LoopHeader.Admits at h
  push Not at h
  obtain ⟨last, hb, hl⟩ := h
  rw [Frame.tick, bind_of_ok (guard_of_free hf), hb]
  simp only [hl, if_true]
  rfl

theorem tick_loop_of_admits (hf : m.Free) (h : header.Admits value) :
    (Frame.loop scope header lines value).tick m =
      .ok [.body scope lines, .pass scope header lines value] (m.setInt header.var value) := by
  rw [Frame.tick, bind_of_ok (guard_of_free hf)]
  cases hb : header.bound with
  | upTo last =>
    simp only [h last hb, if_false]
    rfl
  | unbounded => rfl

/-- Above the frame at the bottom no pass of it begins. The work there fails, or it uncovers the
frame. -/
theorem complete_above {top : List Frame} {last : Frame} {budget : Nat}
    {result : EStateM.Result Fault Machine Unit} (hl : last.isCall = false)
    (h : complete budget (top ++ [last]) m = some result) :
    (∃ fault m', Yields top m (.error fault m') ∧ result = .error fault m' ∧
      passes budget (top ++ [last]) m = []) ∨
    ∃ budget' m', budget' ≤ budget ∧ Yields top m (.ok () m') ∧
      complete budget' [last] m' = some result ∧
      passes budget (top ++ [last]) m = passes budget' [last] m' := by
  have hbelow : ∀ frame ∈ [last], frame.isCall = false := List.forall_mem_singleton.mpr hl
  -- The induction is on the budget. A tick of the work above leaves the frame at the bottom alone.
  induction budget generalizing top m with
  | zero => cases top <;> cases h
  | succ budget ih =>
    cases top with
    | nil => exact Or.inr ⟨budget + 1, m, le_rfl, ⟨0, by rw [complete]⟩, h, rfl⟩
    | cons frame top =>
      rw [List.cons_append, complete] at h
      cases ht : frame.tick m with
      | error fault m₁ =>
        rw [ht] at h
        cases h
        refine Or.inl ⟨fault, m₁.unwind (frame :: top), yields_of_failed ht, ?_, ?_⟩
        · rw [← List.cons_append, unwind_append hbelow]
        · rw [List.cons_append, passes, ht]
      | ok frames m₁ =>
        rw [ht] at h
        -- There is always a frame below, so that the tick does not count as a pass.
        have hpasses : passes (budget + 1) (frame :: top ++ [last]) m =
            passes budget (frames ++ top ++ [last]) m₁ := by
          rw [List.cons_append, passes, ht, List.append_assoc]
          simp
        dsimp only at h
        rw [← List.append_assoc] at h
        rw [hpasses]
        rcases ih h with hfails | ⟨budget', m', hle, hdone, hlast, hsame⟩
        · obtain ⟨fault, m', hfails, hresult, hnone⟩ := hfails
          exact Or.inl ⟨fault, m', (yields_of_tick ht).mpr hfails, hresult, hnone⟩
        · exact Or.inr ⟨budget', m', by omega, (yields_of_tick ht).mpr hdone, hlast, hsame⟩

end Ticks

/-- How a loop goes on from a value: the machines with which its passes begin, and how it ends. -/
inductive Loops (scope : Scope) (header : LoopHeader) (lines : List String) :
    Int64 → Machine → List Machine → EStateM.Result Fault Machine Unit → Prop where
  | stopped {value : Int64} {m : Machine} {fault : Fault} (h : m.Stopped fault) :
      Loops scope header lines value m [] (.error fault m)
  | past {value : Int64} {m : Machine} (h : ¬ header.Admits value) :
      Loops scope header lines value m [] (.ok () m)
  | failed {value : Int64} {m m' : Machine} {fault : Fault} (hv : header.Admits value)
      (he : execBody scope lines (m.setInt header.var value) = .error fault m') :
      Loops scope header lines value m [m.setInt header.var value] (.error fault m')
  | last {value last : Int64} {m m' : Machine} (hv : header.Admits value)
      (he : execBody scope lines (m.setInt header.var value) = .ok () m')
      (ha : add? value header.step = none) (hb : header.bound = .upTo last) :
      Loops scope header lines value m [m.setInt header.var value] (.ok () m')
  | overflows {value : Int64} {m m' : Machine} (hv : header.Admits value)
      (he : execBody scope lines (m.setInt header.var value) = .ok () m')
      (ha : add? value header.step = none) (hb : header.bound = .unbounded) :
      Loops scope header lines value m [m.setInt header.var value]
        (.error (.arithmetic (.loopOverflow header.var)) m')
  | next {value next : Int64} {m m' : Machine} {starts : List Machine}
      {result : EStateM.Result Fault Machine Unit} (hv : header.Admits value)
      (he : execBody scope lines (m.setInt header.var value) = .ok () m')
      (ha : add? value header.step = some next)
      (h : Loops scope header lines next m' starts result) :
      Loops scope header lines value m (m.setInt header.var value :: starts) result

section Loops

variable {scope : Scope} {header : LoopHeader} {lines : List String} {value : Int64}
  {m m' : Machine} {starts : List Machine} {fault : Fault}
  {result : EStateM.Result Fault Machine Unit}

/-- Behind a pass the loop goes on to the next value, if there is one. -/
theorem complete_pass {budget : Nat}
    (h : complete budget [.pass scope header lines value] m = some result) :
    (∃ next budget', budget' < budget ∧ add? value header.step = some next ∧
      complete budget' [.loop scope header lines next] m = some result ∧
      passes budget [.pass scope header lines value] m =
        passes budget' [.loop scope header lines next] m) ∨
    add? value header.step = none ∧ passes budget [.pass scope header lines value] m = [] ∧
      ((∃ last, header.bound = .upTo last) ∧ result = .ok () m ∨
        header.bound = .unbounded ∧
          result = .error (.arithmetic (.loopOverflow header.var)) m) := by
  cases budget with
  | zero => cases h
  | succ budget =>
    rw [complete, Frame.tick] at h
    rw [passes, Frame.tick]
    cases ha : add? value header.step with
    | some next =>
      rw [ha] at h
      exact Or.inl ⟨next, budget, Nat.lt_succ_self budget, rfl, h, rfl⟩
    | none =>
      rw [ha] at h
      cases hb : header.bound with
      | upTo last =>
        rw [hb] at h
        have hdone : complete budget [] m = some result := h
        rw [complete] at hdone
        cases hdone
        exact Or.inr ⟨rfl, passes_nil budget m, Or.inl ⟨⟨last, rfl⟩, rfl⟩⟩
      | unbounded =>
        rw [hb] at h
        cases h
        exact Or.inr ⟨rfl, rfl, Or.inr ⟨rfl, rfl⟩⟩

theorem loops_of_complete {budget : Nat}
    (h : complete budget [.loop scope header lines value] m = some result) :
    Loops scope header lines value m (passes budget [.loop scope header lines value] m) result := by
  -- A pass takes some of the budget, and the loop goes on with what is left of it.
  induction budget using Nat.strong_induction_on generalizing value m with
  | _ budget ih =>
    cases budget with
    | zero => cases h
    | succ budget =>
      rw [complete] at h
      rw [passes]
      rcases free_or_stopped m with hf | ⟨fault, hstop⟩
      · by_cases hv : header.Admits value
        · rw [tick_loop_of_admits hf hv] at h ⊢
          dsimp only at h ⊢
          rw [if_pos ⟨rfl, List.cons_ne_nil _ _, rfl⟩]
          -- The pass is the work above the loop, which is uncovered when the pass is done.
          have hpass : complete budget ([.body scope lines] ++ [.pass scope header lines value])
              (m.setInt header.var value) = some result := h
          change Loops _ _ _ _ _ (_ :: passes budget
            ([.body scope lines] ++ [.pass scope header lines value]) _) _
          rcases complete_above rfl hpass with
            ⟨fault, m', hfails, rfl, hnone⟩ | ⟨budget', m', hle, hdone, hbehind, hsame⟩
          · rw [hnone]
            exact .failed hv (execBody_eq_iff.mpr hfails)
          · have he := execBody_eq_iff.mpr hdone
            rw [hsame]
            rcases complete_pass hbehind with
              ⟨next, budget₁, hlt, ha, hloop, hsame'⟩ | ⟨ha, hnone, ⟨⟨last, hb⟩, rfl⟩ | ⟨hb, rfl⟩⟩
            · rw [hsame']
              exact .next hv he ha (ih budget₁ (by omega) hloop)
            · rw [hnone]
              exact .last hv he ha hb
            · rw [hnone]
              exact .overflows hv he ha hb
        · rw [tick_loop_of_past hf hv] at h ⊢
          have hend : complete budget [] m = some result := h
          rw [complete] at hend
          cases hend
          dsimp only
          rw [if_neg (fun hframes => hframes.2.1 rfl), List.append_nil, passes_nil]
          exact .past hv
      · rw [tick_loop_of_stopped hstop] at h ⊢
        cases h
        exact .stopped hstop

/-- What a list of machines holds under the name of a global integer. -/
def written (var : String) (starts : List Machine) : List (Option Int) :=
  starts.map fun m => (m.vars.ints.get? var).map Int64.toInt

theorem written_setInt (var : String) (value : Int64) (m : Machine) (starts : List Machine) :
    written var (m.setInt var value :: starts) = some value.toInt :: written var starts := by
  unfold written setInt
  rw [List.map_cons, Table.get?_insert_self]
  rfl

/-- How the last of some passes ends. Without a pass nothing has happened. -/
def lastPass (scope : Scope) (lines : List String) (m : Machine) (starts : List Machine) :
    EStateM.Result Fault Machine Unit :=
  match starts.getLast? with
  | some start => execBody scope lines start
  | none => .ok () m

/-- A pass that ends well leads to those behind it. -/
theorem lastPass_cons {start : Machine} (he : execBody scope lines start = .ok () m') :
    lastPass scope lines m (start :: starts) = lastPass scope lines m' starts := by
  unfold lastPass
  rw [List.getLast?_cons]
  cases starts.getLast? with
  | some later => rfl
  | none => exact he

/-- A pass begins where the pass in front of it has ended, and only sets the variable. -/
theorem Loops.begins_behind (h : Loops scope header lines value m starts result) {k : Nat}
    {start : Machine} (hk : starts[k]? = some start) :
    ∃ m' term, lastPass scope lines m (starts.take k) = .ok () m' ∧
      start = m'.setInt header.var term := by
  -- The induction is on the passes. Only the first of them begins with the machine of the loop.
  induction h generalizing k with
  | stopped _ => cases hk
  | past _ => cases hk
  | next hv he ha _ ih =>
    cases k with
    | zero =>
      cases hk
      exact ⟨_, _, rfl, rfl⟩
    | succ k =>
      obtain ⟨m', term, hlast, hstart⟩ := ih hk
      exact ⟨m', term, (lastPass_cons he).trans hlast, hstart⟩
  | _ =>
    cases k with
    | zero =>
      cases hk
      exact ⟨_, _, rfl, rfl⟩
    | succ k => cases hk

/-- The passes have the values of the loop, in order, as far as the loop gets. -/
theorem Loops.written_prefix (hs : 0 < header.step.toInt)
    (h : Loops scope header lines value m starts result) :
    written header.var starts <+: (header.values value).map some := by
  induction h with
  | stopped _ => exact List.nil_prefix
  | past _ => exact List.nil_prefix
  | failed hv _ =>
    -- The value of the failed pass is a term, and nothing is known of the later ones.
    unfold LoopHeader.values
    rw [written_setInt, progression_cons hs (LoopHeader.admits_iff.mp hv), List.map_cons]
    exact List.cons_prefix_cons.mpr ⟨rfl, List.nil_prefix⟩
  | last hv _ ha _ =>
    rw [written_setInt, LoopHeader.values_of_last hs hv ha]
    exact List.prefix_rfl
  | overflows hv _ ha _ =>
    rw [written_setInt, LoopHeader.values_of_last hs hv ha]
    exact List.prefix_rfl
  | next hv _ ha _ ih =>
    rw [written_setInt, LoopHeader.values_of_next hs hv ha, List.map_cons]
    exact List.cons_prefix_cons.mpr ⟨rfl, ih⟩

/-- A loop ends well only behind its bound. -/
theorem Loops.whole_of_ok (hs : 0 < header.step.toInt)
    (h : Loops scope header lines value m starts (.ok () m')) :
    (∃ last, header.bound = .upTo last) ∧
      written header.var starts = (header.values value).map some ∧
      lastPass scope lines m starts = .ok () m' := by
  -- The induction is on the passes, from the last one back.
  generalize hr : EStateM.Result.ok () m' = result at h
  induction h with
  | stopped _ => cases hr
  | failed _ _ => cases hr
  | overflows _ _ _ _ => cases hr
  | past hv =>
    cases hr
    refine ⟨?_, ?_, rfl⟩
    · unfold LoopHeader.Admits at hv
      push Not at hv
      obtain ⟨last, hb, _⟩ := hv
      exact ⟨last, hb⟩
    · rw [LoopHeader.values_of_past hv]
      rfl
  | last hv he ha hb =>
    cases hr
    refine ⟨⟨_, hb⟩, ?_, he⟩
    rw [written_setInt, LoopHeader.values_of_last hs hv ha]
    rfl
  | next hv he ha _ ih =>
    obtain ⟨hb, hw, hl⟩ := ih hr
    refine ⟨hb, ?_, (lastPass_cons he).trans hl⟩
    rw [written_setInt, hw, LoopHeader.values_of_next hs hv ha]
    rfl

/-- A loop fails with one of its passes, or between two of them because a guard stops it, or behind
the greatest integer. -/
theorem Loops.cause_of_error (hs : 0 < header.step.toInt)
    (h : Loops scope header lines value m starts (.error fault m')) :
    lastPass scope lines m starts = .error fault m' ∨
    lastPass scope lines m starts = .ok () m' ∧
      (m'.Stopped fault ∨
        header.bound = .unbounded ∧ fault = .arithmetic (.loopOverflow header.var) ∧
          written header.var starts = (header.values value).map some) := by
  generalize hr : EStateM.Result.error fault m' = result at h
  induction h with
  | past _ => cases hr
  | last _ _ _ _ => cases hr
  | stopped hstop =>
    cases hr
    exact Or.inr ⟨rfl, Or.inl hstop⟩
  | failed _ he =>
    cases hr
    exact Or.inl he
  | overflows hv he ha hb =>
    cases hr
    refine Or.inr ⟨he, Or.inr ⟨hb, rfl, ?_⟩⟩
    rw [written_setInt, LoopHeader.values_of_last hs hv ha]
    rfl
  | next hv he ha _ ih =>
    rw [lastPass_cons he, written_setInt, LoopHeader.values_of_next hs hv ha, List.map_cons,
      List.cons.injEq]
    simpa using ih hr

/-- A loop whose first value is past its bound does nothing at all. -/
theorem Loops.nothing_of_past (h : Loops scope header lines value m starts result)
    (hv : ¬ header.Admits value) : starts = [] ∧ endState result = m := by
  cases h with
  | stopped _ => exact ⟨rfl, rfl⟩
  | past _ => exact ⟨rfl, rfl⟩
  | failed hadmits _ => exact absurd hadmits hv
  | last hadmits _ _ _ => exact absurd hadmits hv
  | overflows hadmits _ _ _ => exact absurd hadmits hv
  | next hadmits _ _ _ => exact absurd hadmits hv

theorem loop_ends (hs : 0 < header.step) (scope : Scope) (lines : List String) (value : Int64)
    (m : Machine) : ∃ budget result,
      complete budget [.loop scope header lines value] m = some result := by
  have hloop : Completes [.loop scope header lines value] m m.depth :=
    loop_completes hs (fun m₁ hm₁ => body_completes scope lines hm₁) value rfl
  obtain ⟨budget, result, h, _⟩ := hloop.exists_result
  exact ⟨budget, result, h⟩

end Loops

end Machine

open Machine

/-- The passes of a loop, whose step is positive, from its first value on. The loop always ends, and
meanwhile its variable is set to the terms of the progression up to the bound, in order and to no
other value, until a pass or a guard fails. A loop that ends well was through with them, and a loop
without a bound never ends well. -/
theorem loop_passes_are_exact (scope : Scope) (header : LoopHeader) (hs : 0 < header.step)
    (lines : List String) (m : Machine) :
    (∀ m₀ : Machine, m₀.Free → m₀.pending = some ⟨.forBlock, lines⟩ →
      execute scope (.forHeader header) m₀ =
        .ok [.loop scope header lines header.first] m₀.clearPending) ∧
    (∃ budget result, complete budget [.loop scope header lines header.first] m = some result) ∧
    ∀ budget result, complete budget [.loop scope header lines header.first] m = some result →
      let first := header.first.toInt
      let step := header.step.toInt
      let starts := passes budget [.loop scope header lines header.first] m
      let values := written header.var starts
      let terms := (progression first step header.top).map some
      (∀ k : Nat, k < terms.length ↔ first + k * step ≤ header.top) ∧
      values <+: terms ∧
      (∀ (k : Nat) (start : Machine), starts[k]? = some start →
        ∃ m' term, lastPass scope lines m (starts.take k) = .ok () m' ∧
          start = m'.setInt header.var term) ∧
      (∀ last, header.bound = .upTo last → last < header.first →
        starts = [] ∧ endState result = m) ∧
      (∀ m', result = .ok () m' → lastPass scope lines m starts = .ok () m' ∧ values = terms ∧
        ∃ last, header.bound = .upTo last ∧
          (header.first ≤ last → (starts.length : Int) = (last.toInt - first) / step + 1)) ∧
      ∀ fault m', result = .error fault m' →
        lastPass scope lines m starts = .error fault m' ∨
        lastPass scope lines m starts = .ok () m' ∧
          (m'.Stopped fault ∨
            header.bound = .unbounded ∧ fault = .arithmetic (.loopOverflow header.var) ∧
              values = terms) := by
  have hpos : 0 < header.step.toInt := by
    simpa only [Int64.toInt_zero] using Int64.lt_iff_toInt_lt.mp hs
  refine ⟨fun m₀ hf hp => execute_forHeader hf scope header hp,
    loop_ends hs scope lines header.first m, ?_⟩
  intro budget result h first step starts values terms
  have hloops : Loops scope header lines header.first m starts result := loops_of_complete h
  refine ⟨?_, hloops.written_prefix hpos, fun k start hk => hloops.begins_behind hk, ?_, ?_, ?_⟩
  · intro k
    rw [List.length_map, progression, List.length_map, List.length_range]
    exact lt_termCount_iff hpos k
  · intro last hb hlt
    exact hloops.nothing_of_past fun hadmits => hadmits last hb hlt
  · intro m' hr
    rw [hr] at hloops
    obtain ⟨⟨last, hb⟩, hwhole, hlast⟩ := hloops.whole_of_ok hpos
    refine ⟨hlast, hwhole, last, hb, ?_⟩
    intro hle
    have htop : header.top = last.toInt := by rw [LoopHeader.top, hb]
    have hfirst : first ≤ last.toInt := Int64.le_iff_toInt_le.mp hle
    have hquotient : 0 ≤ (last.toInt - first) / step := Int.ediv_nonneg (by omega) hpos.le
    have hcount : starts.length = termCount first step header.top := by
      calc starts.length = values.length := (List.length_map ..).symm
        _ = terms.length := congrArg List.length hwhole
        _ = termCount first step header.top := by
          rw [List.length_map, progression, List.length_map, List.length_range]
    rw [hcount, htop, termCount, if_pos hfirst]
    omega
  · intro fault m' hr
    rw [hr] at hloops
    exact hloops.cause_of_error hpos

/-- Results are compared by evaluation. -/
instance Machine.decidableEqResult : DecidableEq (EStateM.Result Fault Machine Unit)
  | .ok _ m, .ok _ m' =>
    decidable_of_iff (m = m') ⟨fun h => congrArg (EStateM.Result.ok ()) h, fun h => by cases h; rfl⟩
  | .error fault m, .error fault' m' =>
    decidable_of_iff (fault = fault' ∧ m = m') (EStateM.Result.error.injEq ..).to_iff.symm
  | .ok _ _, .error _ _ => isFalse nofun
  | .error _ _, .ok _ _ => isFalse nofun

/-- At the end of the range a loop has its last pass, with a bound or without one. The passes change
their variable, and yet there are two of them. -/
theorem loop_reaches_the_greatest_integer :
    let bounded : LoopHeader := ⟨"i", 9223372036854775804, .upTo Int64.maxValue, 2⟩
    let endless : LoopHeader := ⟨"i", 9223372036854775804, .unbounded, 2⟩
    let m' : Machine := { vars := { ints := ⟨[("i", Int64.maxValue)]⟩ } }
    complete 9 [.loop .global bounded ["i ++"] bounded.first] {} = some (.ok () m') ∧
      written "i" (passes 9 [.loop .global bounded ["i ++"] bounded.first] {}) =
        [some 9223372036854775804, some 9223372036854775806] ∧
      complete 9 [.loop .global endless ["i ++"] endless.first] {} =
        some (.error (.arithmetic (.loopOverflow "i")) m') ∧
      written "i" (passes 9 [.loop .global endless ["i ++"] endless.first] {}) <+:
        [some 9223372036854775804, some 9223372036854775806] := by
  intro bounded endless m'
  have hbounded : complete 9 [.loop .global bounded ["i ++"] bounded.first] {} =
      some (.ok () m') := by decide +kernel
  have hendless : complete 9 [.loop .global endless ["i ++"] endless.first] {} =
      some (.error (.arithmetic (.loopOverflow "i")) m') := by decide +kernel
  have hpos : 0 < (2 : Int64) := by decide
  obtain ⟨_, _, _, _, hok, _⟩ :=
    (loop_passes_are_exact .global bounded hpos ["i ++"] {}).2.2 9 _ hbounded
  obtain ⟨_, hstarts, _⟩ :=
    (loop_passes_are_exact .global endless hpos ["i ++"] {}).2.2 9 _ hendless
  have hterms : (progression 9223372036854775804 2 9223372036854775807).map some =
      [some 9223372036854775804, some 9223372036854775806] := by decide +kernel
  refine ⟨hbounded, ?_, hendless, ?_⟩
  · exact (hok m' rfl).2.1.trans hterms
  · exact hterms ▸ hstarts

end LineScript
