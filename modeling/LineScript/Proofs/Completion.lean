import LineScript.Proofs.Moments

/-! Every line completes. The measure has three parts: the calls that may still be nested, the
length of the body being executed, and the range left to the value of a loop. -/

namespace LineScript

theorem add?_toInt {x y z : Int64} (h : add? x y = some z) : z.toInt = x.toInt + y.toInt := by
  unfold add? checked at h
  split at h
  · rename_i hrange
    cases h
    rw [Int64.toInt_minValue, Int64.toInt_maxValue] at hrange
    exact Int64.toInt_ofInt_of_le (by omega) (by omega)
  · cases h

theorem BlockKind.length_body_le (kind : BlockKind) (rest : List String) :
    (kind.body rest).length ≤ rest.length :=
  (List.takeWhile_prefix _).length_le

namespace Machine

/-- A larger budget does not change a result. -/
theorem complete_unique {budget budget' : Nat} {stack : List Frame} {m : Machine}
    {result result' : EStateM.Result Fault Machine Unit}
    (h : complete budget stack m = some result) (h' : complete budget' stack m = some result') :
    result = result' := by
  induction budget generalizing budget' stack m with
  | zero =>
    cases stack with
    | nil =>
      rw [complete] at h h'
      exact Option.some.inj (h.symm.trans h')
    | cons frame stack => cases h
  | succ budget ih =>
    cases stack with
    | nil =>
      rw [complete] at h h'
      exact Option.some.inj (h.symm.trans h')
    | cons frame stack =>
      cases budget' with
      | zero => cases h'
      | succ budget' =>
        rw [complete] at h h'
        cases ht : frame.tick m with
        | ok frames m₁ =>
          rw [ht] at h h'
          exact ih h h'
        | error fault m₁ =>
          rw [ht] at h h'
          exact Option.some.inj (h.symm.trans h')

/-- The stack is worked off, by a fault or to the end, and at the end the given number of calls is
in progress. -/
inductive Completes : List Frame → Machine → Nat → Prop where
  | done (m : Machine) : Completes [] m m.depth
  | fails {frame : Frame} {stack : List Frame} {m m' : Machine} {fault : Fault} {depth : Nat}
      (h : frame.tick m = .error fault m') : Completes (frame :: stack) m depth
  | ticks {frame : Frame} {frames stack : List Frame} {m m' : Machine} {depth : Nat}
      (h : frame.tick m = .ok frames m') (hc : Completes (frames ++ stack) m' depth) :
      Completes (frame :: stack) m depth

theorem Completes.exists_result {frames : List Frame} {m : Machine} {depth : Nat}
    (h : Completes frames m depth) :
    ∃ budget result, complete budget frames m = some result ∧
      ∀ m', result = .ok () m' → m'.depth = depth := by
  induction h with
  | done m =>
    refine ⟨0, .ok () m, by rw [complete], fun m' he => ?_⟩
    cases he
    rfl
  | fails h =>
    refine ⟨1, _, by rw [complete, h], fun m' he => ?_⟩
    cases he
  | ticks h _ ih =>
    obtain ⟨budget, result, hr, hd⟩ := ih
    refine ⟨budget + 1, result, ?_, hd⟩
    rw [complete, h]
    exact hr

/-- Work that completes, put above a stack that completes after it. -/
theorem Completes.append {frames stack : List Frame} {m : Machine} {depth depth' : Nat}
    (h : Completes frames m depth)
    (hs : ∀ m', m'.depth = depth → Completes stack m' depth') :
    Completes (frames ++ stack) m depth' := by
  induction h with
  | done m => exact hs m rfl
  | fails h => exact .fails h
  | ticks h _ ih =>
    rw [List.cons_append]
    refine .ticks h ?_
    rw [← List.append_assoc]
    exact ih hs

/-- A frame completes if whatever a tick puts in its place does. -/
theorem completes_of_ticked {frame : Frame} {m : Machine} {depth : Nat}
    (h : ∀ frames m', frame.Ticked m frames m' → Completes frames m' depth) :
    Completes [frame] m depth := by
  cases hr : frame.tick m with
  | error fault m' => exact .fails hr
  | ok frames m' =>
    refine .ticks hr ?_
    rw [List.append_nil]
    exact h frames m' (Frame.ticked_of_tick hr)

/-- A loop whose body completes from every machine does so too, because its value grows until it
is out of range. -/
theorem loop_completes {scope : Scope} {header : LoopHeader} {lines : List String} {depth : Nat}
    (hpos : 0 < header.step)
    (hbody : ∀ m, m.depth = depth → Completes [.body scope lines] m depth)
    (value : Int64) {m : Machine} (hm : m.depth = depth) :
    Completes [.loop scope header lines value] m depth := by
  have hstep : 0 < header.step.toInt := by
    simpa only [Int64.toInt_zero] using Int64.lt_iff_toInt_lt.mp hpos
  -- The induction is on the distance from the value to the greatest one.
  generalize hn : (2 ^ 63 - value.toInt).toNat = n
  induction n using Nat.strong_induction_on generalizing value m with
  | _ n ih =>
    have hpass (m' : Machine) (hm' : m'.depth = depth) :
        Completes [.pass scope header lines value] m' depth := by
      refine completes_of_ticked fun frames m₁ ht => ?_
      cases ht with
      | passNext ha =>
        rename_i next
        have hnext := add?_toInt ha
        have hlt := value.toInt_lt
        exact ih (2 ^ 63 - next.toInt).toNat (by omega) next hm' rfl
      | passEnd ha hb =>
        rw [← hm']
        exact .done m'
    refine completes_of_ticked fun frames m₁ ht => ?_
    cases ht with
    | loopEnd hf hb hl =>
      rw [← hm]
      exact .done m
    | loopPass hf hb =>
      exact (hbody { m with vars.ints := m.vars.ints.insert header.var value } hm).append hpass

/-- The work that a line leaves completes, if the bodies that it may open and the macros that it
may call do. -/
theorem started_completes {scope : Scope} {line : String} {rest : List String} {m m' : Machine}
    {frames : List Frame} {span : Nat} (h : Started scope line rest m frames span m')
    (hbody : ∀ body m₁, body.length ≤ rest.length → m₁.depth = m.depth →
      Completes [.body scope body] m₁ m.depth)
    (hcall : ∀ body m₁, m.depth < maxDepth → m₁.depth = m.depth + 1 →
      Completes [.call 0 body] m₁ m.depth) :
    Completes frames m' m.depth := by
  cases h with
  | defined hr => exact .done { m with macros := _ }
  | plain hr hs hf hsame =>
    obtain ⟨vars, interrupted, sink, rfl⟩ := hsame
    exact .done { m with vars := vars, interrupted := interrupted, sink := sink }
  | skipped hr hf => exact .done m.clearPending
  | entered hr hf => exact hbody _ _ (BlockKind.length_body_le _ rest) rfl
  | looped hr hf =>
    refine loop_completes (read_forHeader_pos hr) (fun m₁ hm₁ => ?_) _ rfl
    exact hbody _ m₁ (BlockKind.length_body_le _ rest) hm₁
  | called hr hf hb hd => exact hcall _ _ hd rfl
  | labelled hr hf => exact .done { m with labels := _ }
  | jumped hr hf hj => exact .done { m with labels := _, ip := _, jumped := true }

/-- Bodies complete at a depth, if macros complete at the next one. -/
theorem body_completes_of_call {depth : Nat}
    (hcall : ∀ body m, depth < maxDepth → m.depth = depth + 1 → Completes [.call 0 body] m depth)
    (scope : Scope) (body : List String) {m : Machine} (hm : m.depth = depth) :
    Completes [.body scope body] m depth := by
  -- The body of a block is shorter than the body it stands in, and so is what follows it.
  generalize hn : body.length = n
  induction n using Nat.strong_induction_on generalizing scope body m with
  | _ n ih =>
    refine completes_of_ticked fun frames m' ht => ?_
    cases ht with
    | bodyEnd =>
      rw [← hm]
      exact .done m
    | bodyLine h =>
      rename_i text rest frames span
      rw [List.length_cons] at hn
      have hfirst : Completes frames m' depth := by
        subst hm
        refine started_completes h (fun body m₁ hl hm₁ => ?_) fun body m₁ hd hm₁ => hcall body m₁ hd hm₁
        exact ih body.length (by omega) scope body hm₁ rfl
      refine hfirst.append fun m₁ hm₁ => ?_
      have hdrop : (rest.drop (span - 1)).length ≤ rest.length := by
        rw [List.length_drop]
        omega
      exact ih (rest.drop (span - 1)).length (by omega) scope _ hm₁ rfl

theorem call_completes {depth : Nat} (hd : depth < maxDepth) (index : Nat) (body : List String)
    {m : Machine} (hm : m.depth = depth + 1) : Completes [.call index body] m depth := by
  -- The outer induction is on the calls that may still be nested, the inner one on the lines left.
  generalize hk : maxDepth - depth = k
  induction k generalizing depth index body m with
  | zero => omega
  | succ k ihk =>
    have hcall (body : List String) (m : Machine) (hd₁ : depth + 1 < maxDepth)
        (hm₁ : m.depth = depth + 1 + 1) : Completes [.call 0 body] m (depth + 1) :=
      ihk hd₁ 0 body hm₁ (by omega)
    generalize hn : body.length = n
    induction n using Nat.strong_induction_on generalizing index body m with
    | _ n ihn =>
      refine completes_of_ticked fun frames m' ht => ?_
      cases ht with
      | callEnd =>
        have he : m.depth - 1 = depth := by omega
        rw [← he]
        exact .done { m with depth := m.depth - 1 }
      | callLine h =>
        rename_i text rest frames span
        rw [List.length_cons] at hn
        have htraced := (traced_depth ("Line " ++ toString index ++ "\n") m).trans hm
        have hfirst : Completes frames m' (depth + 1) := by
          rw [← htraced] at hcall ⊢
          exact started_completes h
            (fun body m₁ _ hm₁ => body_completes_of_call hcall .inMacro body hm₁) hcall
        refine hfirst.append fun m₁ hm₁ => ?_
        have hdrop : (rest.drop (span - 1)).length ≤ rest.length := by
          rw [List.length_drop]
          omega
        exact ihn (rest.drop (span - 1)).length (by omega) _ _ hm₁ rfl

/-- Every body completes, and restores the depth. -/
theorem body_completes (scope : Scope) (lines : List String) {depth : Nat} {m : Machine}
    (hm : m.depth = depth) : Completes [.body scope lines] m depth :=
  body_completes_of_call (fun body _ hd hm₁ => call_completes hd 0 body hm₁) scope lines hm

/-- Whatever a line leaves to be done completes, and restores the depth. -/
theorem Started.completes {scope : Scope} {line : String} {rest : List String} {m m' : Machine}
    {frames : List Frame} {span : Nat} (h : Started scope line rest m frames span m') :
    Completes frames m' m.depth :=
  started_completes h (fun body _ _ hm₁ => body_completes scope body hm₁)
    fun body _ hd hm₁ => call_completes hd 0 body hm₁

/-- Executes the line at an index with everything under it, for at most `budget` ticks. The result
is the number of lines that it takes. -/
def step (budget : Nat) (scope : Scope) (lines : List String) (index : Nat) (m : Machine) :
    Option (EStateM.Result Fault Machine Nat) :=
  match lines.drop index with
  | [] => none
  | line :: rest =>
    match start scope line rest m with
    | .error fault m' => some (.error fault m')
    | .ok (frames, span) m' =>
      match complete budget frames m' with
      | some (.ok () m') => some (.ok span m')
      | some (.error fault m') => some (.error fault m')
      | none => none

/-- The machine when a program line that took `span` lines is done. -/
def lineEnded (index span : Nat) (m : Machine) : Machine :=
  { m with ip := (if m.jumped then m.ip else index) + span }

theorem exists_drop_eq_cons {lines : List String} {index : Nat} (h : index < lines.length) :
    ∃ line rest, lines.drop index = line :: rest :=
  ⟨_, _, List.drop_eq_getElem_cons h⟩

theorem step_completes (scope : Scope) {lines : List String} {index : Nat}
    (hi : index < lines.length) (m : Machine) :
    ∃ budget result, step budget scope lines index m = some result := by
  obtain ⟨line, rest, hd⟩ := exists_drop_eq_cons hi
  simp only [step, hd]
  cases hs : start scope line rest m with
  | error fault m' => exact ⟨0, _, rfl⟩
  | ok begun m' =>
    obtain ⟨frames, span⟩ := begun
    obtain ⟨budget, result, hr, _⟩ := (started_of_start hs).completes.exists_result
    refine ⟨budget, ?_⟩
    dsimp only
    rw [hr]
    cases result with
    | ok value m₁ => exact ⟨_, rfl⟩
    | error fault m₁ => exact ⟨_, rfl⟩

end Machine

end LineScript
