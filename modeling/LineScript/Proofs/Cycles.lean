import LineScript.Proofs.JumpGuard
import Mathlib.Data.DFinsupp.WellFounded
import Mathlib.Data.ENat.Basic

/-! Which cycles end. A jump back spends some of the allowance that the labels give to the line it
goes to, and only a label declared there gives more. A label that is declared after a jump of the
same program line gives more to the line jumped to. If that happens again and again the run goes
on forever, and otherwise it ends. -/

namespace LineScript

/-- The jumps to an index that a limit still allows by way of a label, with the one that trips the
guard. -/
def Label.allowance (limit index : Nat) (label : Label) : Nat :=
  if label.index = index then limit + 1 - label.jumps else 0

namespace LabelTable

/-- The jumps to an index that a limit still allows. -/
def allowance (labels : LabelTable) (limit index : Nat) : Nat :=
  (labels.table.entries.map fun entry => entry.2.allowance limit index).sum

variable {labels labels' : LabelTable} {limit index : Nat}

/-- A label takes the place of the one with its name, and so does its allowance. -/
theorem allowance_insert (labels : LabelTable) (limit index : Nat) (name : String)
    (label : Label) :
    allowance ⟨labels.table.insert name label⟩ limit index +
        (labels.get? name).elim 0 (Label.allowance limit index) =
      labels.allowance limit index + label.allowance limit index := by
  obtain ⟨⟨entries⟩⟩ := labels
  simp only [allowance, get?, Table.get?, Table.insert]
  induction entries with
  | nil => simp [Table.put, Table.find?]
  | cons old rest ih =>
    obtain ⟨other, oldLabel⟩ := old
    by_cases hn : other = name
    · simp only [Table.put, Table.find?, hn, if_true, List.map_cons, List.sum_cons,
        Option.elim_some]
      omega
    · simp only [Table.put, Table.find?, hn, if_false, List.map_cons, List.sum_cons]
      omega

theorem allowance_declare_le (labels : LabelTable) (limit : Nat) (name : String) {index p : Nat}
    (hp : p ≠ index) : (labels.declare name index).allowance limit p ≤ labels.allowance limit p := by
  have hinsert := allowance_insert labels limit p name ⟨index, 0⟩
  have hnew : Label.allowance limit p ⟨index, 0⟩ = 0 := if_neg hp.symm
  rw [hnew] at hinsert
  exact (Nat.le_add_right _ _).trans hinsert.le

/-- A jump spends allowance of its target only. It does so because the count of the label is below
the greatest one. -/
theorem allowance_jump (hw : labels.Within limit) (hlimit : limit < maxCount) {name : String}
    (hj : labels.jump name = .ok (index, labels')) :
    labels'.allowance limit index < labels.allowance limit index ∧
      ∀ p, labels'.allowance limit p ≤ labels.allowance limit p := by
  obtain ⟨label, hl, rfl, rfl⟩ := exists_of_jump hj
  have hle : label.jumps ≤ limit := hw (name, label) (Table.mem_of_find? hl)
  -- At the greatest count a jump would be free.
  have hcount : label.jumped.jumps = label.jumps + 1 := by
    dsimp only [Label.jumped]
    omega
  have hinsert (p : Nat) := allowance_insert labels limit p name label.jumped
  simp only [hl, Option.elim_some, Label.allowance, hcount] at hinsert
  have hindex : label.jumped.index = label.index := rfl
  simp only [hindex] at hinsert
  constructor
  · have htarget := hinsert label.index
    simp only [if_true] at htarget
    omega
  · intro p
    have hp := hinsert p
    split at hp <;> omega

end LabelTable

namespace Machine

/-- The jumps to an index that the limit of the machine still allows. -/
def allowance (m : Machine) (index : Nat) : Nat :=
  m.labels.allowance m.jumpLimit index

/-- What is true while a program line begun in `m₀` is executed. The allowances of the lines before
it have not grown, and if it has jumped back, that of the target has shrunk. -/
structure Spends (m₀ m : Machine) : Prop where
  jumpLimit : m.jumpLimit = m₀.jumpLimit
  before : ∀ p < m₀.ip, m.allowance p ≤ m₀.allowance p
  place : m.jumped = false → m.ip = m₀.ip
  target : m.jumped = true → m.ip < m₀.ip → m.allowance m.ip < m₀.allowance m.ip

variable {m₀ m m' : Machine}

theorem Spends.labelMove {declaring : Prop} (h : Spends m₀ m) (hmove : LabelMove declaring m m')
    (hlimit : m₀.jumpLimit < maxCount) (hsame : m'.jumpLimit = m.jumpLimit)
    (hquiet : declaring → m.jumped = false) : Spends m₀ m' := by
  have hle (p : Nat) (hle : m'.allowance p ≤ m.allowance p) (hp : p < m₀.ip) :
      m'.allowance p ≤ m₀.allowance p := hle.trans (h.before p hp)
  cases hmove with
  | stays hl hi hj =>
    have hall (p : Nat) : m'.allowance p = m.allowance p := by
      rw [allowance, allowance, hl, hsame]
    refine ⟨hsame.trans h.jumpLimit, fun p hp => hle p (hall p).le hp, ?_, ?_⟩
    · rw [hi, hj]
      exact h.place
    · rw [hi, hj, hall]
      exact h.target
  | declared hd hw name hl hi hj =>
    -- The line has not jumped, so the label gives its allowance to the line itself and to none
    -- before it.
    have hplace := h.place (hquiet hd)
    refine ⟨hsame.trans h.jumpLimit, fun p hp => hle p ?_ hp, fun _ => hi.trans hplace, ?_⟩
    · rw [allowance, allowance, hl, hsame]
      exact LabelTable.allowance_declare_le _ _ name (by omega)
    · intro hjumped
      rw [hj, hquiet hd] at hjumped
      cases hjumped
  | jumped hw hjump hl hi hj =>
    rw [← h.jumpLimit] at hlimit
    obtain ⟨hless, hall⟩ := LabelTable.allowance_jump hw hlimit hjump
    have hall' (p : Nat) : m'.allowance p ≤ m.allowance p := by
      rw [allowance, allowance, hl, hsame]
      exact hall p
    refine ⟨hsame.trans h.jumpLimit, fun p hp => hle p (hall' p) hp, ?_, fun _ hback => ?_⟩
    · intro hjumped
      rw [hj] at hjumped
      cases hjumped
    · have htarget : m'.allowance m'.ip < m.allowance m'.ip := by
        rw [allowance, allowance, hl, hsame, hi]
        exact hless
      exact htarget.trans_le (h.before _ hback)

theorem spends_lineReady (m : Machine) : Spends m m.lineReady := by
  have hall (p : Nat) : m.lineReady.allowance p = m.allowance p := by
    rw [allowance, allowance, lineReady_labels, lineReady_jumpLimit]
  refine ⟨lineReady_jumpLimit m, fun p _ => (hall p).le, fun _ => lineReady_ip m, ?_⟩
  intro hjumped
  cases hjumped

/-- The rank of a machine about to execute a program line: for every line the jumps to it that are
allowed, and no bound for the line itself. -/
def rank (program : List String) (m : Machine) : Lex (Fin program.length → ℕ∞) :=
  toLex fun p => if m.ip = p then ⊤ else m.allowance p

end Machine

/-- A tuple is smaller if some component is and none before it is greater. -/
theorem lex_lt_of_le_of_lt {n : Nat} {f g : Fin n → ℕ∞} (i : Fin n) (hle : ∀ j < i, f j ≤ g j)
    (hlt : f i < g i) : toLex f < toLex g := by
  obtain ⟨j, hne, hmin⟩ := (wellFounded_lt (α := Fin n)).has_min {j | f j ≠ g j} ⟨i, hlt.ne⟩
  have heq (k : Fin n) (hk : k < j) : f k = g k := by
    by_contra h
    exact hmin k h hk
  refine ⟨j, heq, ?_⟩
  have hji : j ≤ i := not_lt.mp (hmin i hlt.ne)
  rcases hji.lt_or_eq with hji | rfl
  · exact lt_of_le_of_ne (hle j hji) hne
  · exact hlt

/-- A program line that spends leaves a smaller rank. -/
theorem Machine.Spends.rank_lt {program : List String} {m₀ m : Machine} {span : Nat}
    (h : m₀.Spends m) (hspan : 0 < span) (hip : m₀.ip < program.length) :
    (m.lineEnded m₀.ip span).rank program < m₀.rank program := by
  have hall (p : Nat) : (m.lineEnded m₀.ip span).allowance p = m.allowance p := rfl
  -- After a jump back the component of the target falls, and otherwise that of the line itself,
  -- which is left for a later one.
  obtain ⟨i, hi, hnext, hless⟩ : ∃ i ≤ m₀.ip, i < (m.lineEnded m₀.ip span).ip ∧
      (i = m₀.ip ∨ m.allowance i < m₀.allowance i) := by
    by_cases hback : m.jumped = true ∧ m.ip < m₀.ip
    · refine ⟨m.ip, hback.2.le, ?_, Or.inr (h.target hback.1 hback.2)⟩
      simp only [lineEnded, hback.1, if_true]
      omega
    · refine ⟨m₀.ip, le_rfl, ?_, Or.inl rfl⟩
      dsimp only [lineEnded]
      split
      · have hahead : m₀.ip ≤ m.ip := not_lt.mp fun hlt => hback ⟨‹_›, hlt⟩
        omega
      · omega
  refine lex_lt_of_le_of_lt ⟨i, by omega⟩ (fun j hj => ?_) ?_
  · have hji : (j : Nat) < i := hj
    rw [if_neg (by omega), hall]
    split
    · exact le_top
    · exact Nat.cast_le.mpr (h.before j (by omega))
  · dsimp only
    rw [if_neg (by omega), hall]
    split
    · exact ENat.natCast_lt_top _
    · rcases hless with rfl | hless
      · contradiction
      · exact Nat.cast_lt.mpr hless

namespace Moment

/-- Whether a label is about to be declared by a program line that has already jumped. -/
def relabels (c : Moment) : Bool :=
  c.machine.jumped && c.stack.head?.any Frame.declares

variable {program : List String} {m : Machine}

theorem ends_of_no_relabelling (hlimit : m.jumpLimit < maxCount)
    (hA : Always program (fun c => c.relabels = false) ⟨[], m⟩) :
    ∃ n, after? program n ⟨[], m⟩ = none := by
  apply ends_of_descent (I := fun m => m.jumpLimit < maxCount) (Machine.rank program)
    (S := Machine.Spends) ?_ ?_ ?_ hlimit hA
  · intro m line rest frames span m' hlimit _ h
    exact m.spends_lineReady.labelMove h.labelMove hlimit h.settings_eq.1 fun _ => rfl
  · intro m frame stack frames m₁ m₂ hlimit hc hn ht h
    refine h.labelMove (ht.labelMove hn) hlimit ht.settings_eq.1 fun hd => ?_
    simpa [relabels, hd] using hc
  · intro m m' span hlimit h hspan hip
    have hsame : (m'.lineEnded m.ip span).jumpLimit = m.jumpLimit := h.jumpLimit
    exact ⟨hsame ▸ hlimit, h.rank_lt hspan hip⟩

/-- However late, a run that has not ended comes to the beginning of a program line. -/
theorem exists_line_after (n : Nat) :
    (∃ k, after? program k ⟨[], m⟩ = none) ∨
      ∃ k m', n ≤ k ∧ after? program k ⟨[], m⟩ = some ⟨[], m'⟩ := by
  induction n with
  | zero => exact Or.inr ⟨0, m, le_rfl, rfl⟩
  | succ n ih =>
    rcases ih with hend | ⟨k, m₁, hk, hafter⟩
    · exact Or.inl hend
    have hA : Always program (fun _ => True) ⟨[], m₁⟩ := fun _ _ _ => trivial
    rcases reaches_next_line (P := fun _ => True) hA (fun _ _ _ _ _ _ _ => trivial)
      (fun _ _ _ _ _ _ _ _ _ => trivial) with ⟨k', hend⟩ | ⟨k', span, m', _, hreach, _⟩
    · refine Or.inl ⟨k + k', ?_⟩
      rw [after?_add, hafter]
      exact hend
    · refine Or.inr ⟨k + (k' + 1), m'.lineEnded m₁.ip span, by omega, ?_⟩
      rw [after?_add, hafter]
      exact hreach

/-- A moment that comes back comes back forever. -/
theorem endless_of_cycle {c : Moment} {d : Nat} (hd : 0 < d) (h : after? program d c = some c)
    (n : Nat) : after? program n c ≠ none := by
  have hcycle (k : Nat) : after? program (d * k) c = some c := by
    induction k with
    | zero => rfl
    | succ k ih =>
      rw [Nat.mul_succ, after?_add, ih]
      exact h
  intro hn
  have hlate := after?_of_le (Nat.le_mul_of_pos_left n hd) hn
  rw [hcycle n] at hlate
  cases hlate

end Moment

/-- A run ends if and only if from some moment on no label is declared after a jump of the same
program line. -/
theorem run_ends_iff_relabelling_stops (program : List String) (m : Machine)
    (hlimit : m.jumpLimit < maxCount) :
    (∃ budget result, Machine.run budget program m = some result) ↔
      ∃ n, ∀ k ≥ n, ∀ c, Moment.after? program k (.first m) = some c → c.relabels = false := by
  rw [Moment.run_ends_iff]
  constructor
  · rintro ⟨n, hend⟩
    refine ⟨n, fun k hk c hc => ?_⟩
    rw [Moment.after?_of_le hk hend] at hc
    cases hc
  · rintro ⟨n, hquiet⟩
    have hline : (∃ k, Moment.after? program k (.first m) = none) ∨
        ∃ k m', n ≤ k ∧ Moment.after? program k (.first m) = some ⟨[], m'⟩ :=
      Moment.exists_line_after n
    rcases hline with hend | ⟨k, m', hk, hafter⟩
    · exact hend
    have hA : Moment.Always program (fun c => c.relabels = false) ⟨[], m'⟩ := by
      intro j c hc
      refine hquiet (k + j) (by omega) c ?_
      rw [Moment.after?_add]
      exact hafter ▸ hc
    rw [← (Moment.settings_of_after? m hafter).1] at hlimit
    obtain ⟨j, hend⟩ := Moment.ends_of_no_relabelling hlimit hA
    refine ⟨k + j, ?_⟩
    rw [Moment.after?_add]
    exact hafter ▸ hend

theorem counted_relabelling_stops :
    let program := ["INT n = 0", "LABEL a", "//", "//", "//", "n ++", "IF n < 3", "GOTO a",
      "LABEL a", "END IF"]
    let m : Machine := { jumpLimit := 1 }
    m.jumpLimit < maxCount ∧
    (∃ n, ∀ k ≥ n, ∀ c, Moment.after? program k (.first m) = some c → c.relabels = false) ∧
    ∃ budget result, Machine.run budget program m = some result := by
  intro program m
  have hended : Moment.after? program 29 (.first m) = none := by decide +kernel
  have hquiet : ∃ n, ∀ k ≥ n, ∀ c, Moment.after? program k (.first m) = some c →
      c.relabels = false := by
    refine ⟨29, fun k hk c hc => ?_⟩
    rw [Moment.after?_of_le hk hended] at hc
    cases hc
  have hlimit : m.jumpLimit < maxCount := by decide
  exact ⟨hlimit, hquiet, (run_ends_iff_relabelling_stops program m hlimit).mpr hquiet⟩

/-- The macro jumps to the label in front of its own call, and then declares it there again. -/
theorem relabelling_macro_runs_forever :
    let program := ["MACRO m", "GOTO a", "LABEL a", "END MACRO", "LABEL a", "CALL m"]
    (∀ line ∈ program, leadingKeyword? line ≠ some .forHeader) ∧
    ({} : Machine).jumpLimit < maxCount ∧
    ∀ budget, Machine.run budget program {} = none := by
  intro program
  refine ⟨by decide +kernel, by decide, fun budget => (Moment.run_eq_none_iff budget {}).mpr ?_⟩
  -- The second call begins in the same moment as the third.
  have hback : (Moment.after? program 9 (.first {})).bind (Moment.after? program 5) =
      Moment.after? program 9 (.first {}) := by decide +kernel
  have hsome : (Moment.after? program 9 (.first {})).isSome = true := by decide +kernel
  obtain ⟨c, hc⟩ := Option.isSome_iff_exists.mp hsome
  rw [hc] at hback
  refine Option.isSome_iff_ne_none.mpr fun hend => ?_
  have hlate := Moment.after?_of_le (Nat.le_add_left budget 9) hend
  rw [Moment.after?_add, hc] at hlate
  exact Moment.endless_of_cycle Nat.succ_pos' hback budget hlate

/-- No label is declared in the body of a block that a program line opens. -/
def LabelsOutsideBodies (program : List String) : Prop :=
  ∀ header < program.length, ∀ line ∈ program[header]?, ∀ kind ∈ Statement.opened? line,
    ∀ index < (Extent.locate program header kind).stop,
      (Extent.locate program header kind).start ≤ index →
        ∀ text ∈ program[index]?, Statement.declares text = false

instance (program : List String) : Decidable (LabelsOutsideBodies program) := by
  delta LabelsOutsideBodies
  infer_instance

theorem LabelsOutsideBodies.opensOnto {program : List String} (h : LabelsOutsideBodies program)
    {header : Nat} {line : String} {rest : List String}
    (hd : program.drop header = line :: rest) :
    Machine.OpensOnto (fun text => Statement.declares text = false) line rest := by
  intro kind hkind text htext
  have hline : program[header]? = some line := by
    rw [← List.head?_drop, hd, List.head?_cons]
  have hrest : program.drop (header + 1) = rest := by
    rw [← List.tail_drop, hd, List.tail_cons]
  have hheader : header < program.length := (List.getElem?_eq_some_iff.mp hline).1
  -- A line of the body stands in the program as many lines after the header.
  obtain ⟨i, hi, rfl⟩ := List.mem_iff_getElem.mp htext
  have hbody : program[header + 1 + i]? = some (kind.body rest)[i] := by
    have hsuffix := congrArg (fun lines => lines[i]?)
      (List.takeWhile_append_dropWhile (p := (· ≠ kind.terminator)) (l := rest))
    rw [← List.getElem?_drop, hrest, ← hsuffix]
    exact (List.getElem?_append_left hi).trans (List.getElem?_eq_getElem hi)
  have hstop : header + 1 + i < (Extent.locate program header kind).stop := by
    simp only [Extent.locate, hrest]
    omega
  exact h header hheader line hline kind hkind _ hstop (Nat.le_add_right _ i) _ hbody

theorem Moment.relabels_eq_false_of_only {c : Moment}
    (h : c.Only fun text => Statement.declares text = false) : c.relabels = false := by
  obtain ⟨stack, m⟩ := c
  cases stack with
  | nil => simp [relabels]
  | cons frame stack =>
    have hframe := h.1 frame List.mem_cons_self
    have hdeclares : frame.declares = false := by
      cases frame with
      | body scope rest =>
        cases rest with
        | nil => rfl
        | cons text rest => exact hframe text List.mem_cons_self
      | call index rest =>
        cases rest with
        | nil => rfl
        | cons text rest => exact hframe text List.mem_cons_self
      | _ => rfl
    simp [relabels, hdeclares]

/-- Where labels stand on program lines only, they bound every cycle. -/
theorem run_ends_of_labels_outside_bodies (program : List String) (m : Machine)
    (hlimit : m.jumpLimit < maxCount) (hlabels : LabelsOutsideBodies program) :
    ∃ budget result, Machine.run budget program m = some result := by
  have honly : Moment.Always program
      (Moment.Only fun text => Statement.declares text = false) (.first m) :=
    Moment.always_of_steps
      (fun c c' hs hc => Moment.only_of_steps (fun _ _ _ hd => hlabels.opensOnto hd) hs hc)
      (Moment.only_first _ m)
  have hquiet : Moment.Always program (fun c => c.relabels = false) (.first m) :=
    fun n c hc => Moment.relabels_eq_false_of_only (honly n c hc)
  exact (Moment.run_ends_iff m).mpr (Moment.ends_of_no_relabelling hlimit hquiet)

theorem run_ends_with_jumps_from_a_loop :
    let program := ["MACRO m", "GOTO a", "END MACRO", "LABEL b", "LABEL a",
      "FOR i FROM 1 TO 3", "CALL m", "IF i > 2", "GOTO b", "END IF", "END FOR"]
    let m : Machine := { jumpLimit := maxCount - 1 }
    m.jumpLimit < maxCount ∧ LabelsOutsideBodies program ∧
    ∃ budget result, Machine.run budget program m = some result := by
  intro program m
  have hlimit : m.jumpLimit < maxCount := by decide
  have hlabels : LabelsOutsideBodies program := by decide +kernel
  exact ⟨hlimit, hlabels, run_ends_of_labels_outside_bodies program m hlimit hlabels⟩

end LineScript
