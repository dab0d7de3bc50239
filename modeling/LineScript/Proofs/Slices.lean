import LineScript.Proofs.Course
import LineScript.Proofs.Pending
import Mathlib.Data.List.TakeWhile

/-! Bodies are parts of the program. Every body is cut out of lines that were cut out of the program
themselves, and ends before its terminator. Where a block is located, its body is within the lines, so
nothing is ever cut out of range. -/

namespace LineScript

theorem isInfix_of_cons {program rest : List String} {line : String}
    (h : line :: rest <:+: program) : rest <:+: program :=
  (List.suffix_cons line rest).isInfix.trans h

/-- The body of a block is a part of the program, and the terminator of the block is not in it. -/
def Block.CutFrom (program : List String) (block : Block) : Prop :=
  block.body <:+: program ∧ block.kind.terminator ∉ block.body

namespace BlockKind

theorem terminator_notMem_body (kind : BlockKind) (rest : List String) :
    kind.terminator ∉ kind.body rest := by
  intro hmem
  have hne := List.mem_takeWhile_imp hmem
  simp at hne

theorem cutFrom_body {program rest : List String} (h : rest <:+: program) (kind : BlockKind) :
    Block.CutFrom program ⟨kind, kind.body rest⟩ := by
  have hinitial : kind.body rest <+: rest := List.takeWhile_prefix _
  exact ⟨hinitial.isInfix.trans h, kind.terminator_notMem_body rest⟩

/-- A body that does not take all lines is followed by the terminator. -/
theorem getElem?_length_body (kind : BlockKind) {rest : List String}
    (h : (kind.body rest).length < rest.length) :
    rest[(kind.body rest).length]? = some kind.terminator := by
  induction rest with
  | nil => cases h
  | cons line rest ih =>
    by_cases hline : line = kind.terminator
    · have hbody : kind.body (line :: rest) = [] := by
        simp only [body, List.takeWhile_cons, hline, ne_eq, not_true_eq_false, decide_false,
          Bool.false_eq_true, if_false]
      rw [hbody, hline]
      rfl
    · have hbody : kind.body (line :: rest) = line :: kind.body rest := by
        simp only [body, List.takeWhile_cons, ne_eq, hline, not_false_eq_true, decide_true, if_true]
      rw [hbody] at h ⊢
      rw [List.length_cons, List.getElem?_cons_succ]
      apply ih
      simp only [List.length_cons] at h
      omega

end BlockKind

namespace Extent

variable {lines : List String} {header : Nat} (kind : BlockKind)

theorem stop_le (h : header < lines.length) : (locate lines header kind).stop ≤ lines.length := by
  have hle := kind.length_body_le (lines.drop (header + 1))
  rw [List.length_drop] at hle
  change header + 1 + (kind.body (lines.drop (header + 1))).length ≤ lines.length
  omega

theorem size_locate (lines : List String) (header : Nat) :
    (locate lines header kind).size = (kind.body (lines.drop (header + 1))).length :=
  Nat.add_sub_cancel_left _ _

theorem add_span_le (h : header < lines.length) :
    header + (locate lines header kind).span ≤ lines.length + 1 := by
  have hstop := stop_le kind h
  have hsize := size_locate kind lines header
  change header + 1 + (kind.body (lines.drop (header + 1))).length ≤ lines.length at hstop
  rw [span, hsize]
  omega

/-- The block that is located has the body that is cut out of the lines after its header, and as many
lines as a run takes for it. -/
theorem block?_locate (h : header < lines.length) :
    (locate lines header kind).block? lines = some ⟨kind, kind.body (lines.drop (header + 1))⟩ ∧
      (locate lines header kind).span = blockSpan (kind.body (lines.drop (header + 1))) := by
  have hsize := size_locate kind lines header
  have hinitial : kind.body (lines.drop (header + 1)) <+: lines.drop (header + 1) :=
    List.takeWhile_prefix _
  refine ⟨?_, congrArg (· + 2) hsize⟩
  rw [block?, if_pos (stop_le kind h), hsize]
  change some (Block.mk kind ((lines.drop (header + 1)).take _)) = _
  rw [← List.prefix_iff_eq_take.mp hinitial]

/-- The body is the longest run of lines without the terminator. -/
theorem le_stop_iff (h : header < lines.length) {n : Nat} (hn : n ≤ lines.length) :
    n ≤ (locate lines header kind).stop ↔
      ∀ i, header < i → i < n → lines[i]? ≠ some kind.terminator := by
  let rest := lines.drop (header + 1)
  have hline (i : Nat) : lines[header + 1 + i]? = rest[i]? := List.getElem?_drop.symm
  change n ≤ header + 1 + (kind.body rest).length ↔ _
  constructor
  · intro hle i hi hin hterminator
    obtain ⟨j, rfl⟩ := Nat.exists_eq_add_of_le (Nat.succ_le_of_lt hi)
    have hj : j < (kind.body rest).length := by omega
    obtain ⟨tail, htail⟩ : kind.body rest <+: rest := List.takeWhile_prefix _
    have hinside : (kind.body rest)[j]? = some kind.terminator := by
      calc
        (kind.body rest)[j]? = (kind.body rest ++ tail)[j]? := (List.getElem?_append_left hj).symm
        _ = rest[j]? := by rw [htail]
        _ = some kind.terminator := (hline j).symm.trans hterminator
    exact kind.terminator_notMem_body rest (List.mem_of_getElem? hinside)
  · intro hfree
    by_contra hlt
    -- The line behind the body would be the terminator.
    have hlength : (kind.body rest).length < rest.length := by
      rw [List.length_drop]
      omega
    apply hfree (header + 1 + (kind.body rest).length) (by omega) (by omega)
    rw [hline]
    exact kind.getElem?_length_body hlength

end Extent

namespace Machine

/-- The bodies of all macros are parts of the program. -/
def MacrosCutFrom (program : List String) (m : Machine) : Prop :=
  ∀ name body, m.macros.body? name = some body → Block.CutFrom program ⟨.macroBlock, body⟩

variable {program rest : List String} {scope : Scope} {line : String} {m m' : Machine}
  {frames : List Frame} {span : Nat}

theorem macrosCutFrom_define (hm : m.MacrosCutFrom program) (hr : rest <:+: program)
    (name : String) :
    MacrosCutFrom program
      { m with macros := m.macros.define name (BlockKind.macroBlock.body rest) } := by
  intro other body hb
  rw [MacroTable.body?_define] at hb
  split at hb
  · cases hb
    exact BlockKind.cutFrom_body hr .macroBlock
  · exact hm other body hb

/-- The lines that a line leaves to be executed are cut out of the lines after it, or are a macro. -/
theorem Started.cutFrom (h : Started scope line rest m frames span m') (hr : rest <:+: program)
    (hm : m.MacrosCutFrom program) :
    (∀ frame ∈ frames, frame.lines <:+: program) ∧ m'.MacrosCutFrom program := by
  cases h with
  | defined hread => exact ⟨by simp, macrosCutFrom_define hm hr _⟩
  | plain hread hs hf hsame =>
    obtain ⟨vars, interrupted, sink, rfl⟩ := hsame
    exact ⟨by simp, hm⟩
  | skipped hread hf => exact ⟨by simp, hm⟩
  | entered hread hf =>
    have hbody := (BlockKind.cutFrom_body hr .ifBlock).1
    exact ⟨List.forall_mem_singleton.mpr hbody, hm⟩
  | looped hread hf =>
    have hbody := (BlockKind.cutFrom_body hr .forBlock).1
    exact ⟨List.forall_mem_singleton.mpr hbody, hm⟩
  | called hread hf hb hd =>
    have hbody := (hm _ _ hb).1
    exact ⟨List.forall_mem_singleton.mpr hbody, hm⟩
  | labelled hread hf => exact ⟨by simp, hm⟩
  | jumped hread hf hj => exact ⟨by simp, hm⟩

end Machine

theorem Frame.Ticked.cutFrom {program : List String} {frame : Frame} {frames : List Frame}
    {m m' : Machine} (h : frame.Ticked m frames m') (hl : frame.lines <:+: program)
    (hm : m.MacrosCutFrom program) :
    (∀ other ∈ frames, other.lines <:+: program) ∧ m'.MacrosCutFrom program := by
  have hbehind {text : String} {rest : List String} (hlines : text :: rest <:+: program)
      (n : Nat) : rest.drop n <:+: program :=
    (List.drop_suffix n rest).isInfix.trans (isInfix_of_cons hlines)
  cases h with
  | bodyLine hs =>
    obtain ⟨hframes, hmacros⟩ := hs.cutFrom (isInfix_of_cons hl) hm
    refine ⟨List.forall_mem_append.mpr ⟨hframes, ?_⟩, hmacros⟩
    exact List.forall_mem_singleton.mpr (hbehind hl _)
  | callLine hs =>
    rename_i index text rest begun span
    have htraced : (m.traced ("Line " ++ toString index ++ "\n")).MacrosCutFrom program := by
      rw [Machine.MacrosCutFrom, Machine.traced_macros]
      exact hm
    obtain ⟨hframes, hmacros⟩ := hs.cutFrom (isInfix_of_cons hl) htraced
    refine ⟨List.forall_mem_append.mpr ⟨hframes, ?_⟩, hmacros⟩
    exact List.forall_mem_singleton.mpr (hbehind hl _)
  | loopPass hf hb =>
    refine ⟨fun other ho => ?_, hm⟩
    simp only [List.mem_cons, List.not_mem_nil, or_false] at ho
    rcases ho with rfl | rfl <;> exact hl
  | passNext ha => exact ⟨List.forall_mem_singleton.mpr hl, hm⟩
  | _ => exact ⟨fun other ho => absurd ho List.not_mem_nil, hm⟩

namespace Moment

open Machine

/-- Between two ticks all lines to be executed and all macros are parts of the program, and no block
is pending. -/
structure CutFrom (program : List String) (c : Moment) : Prop where
  lines : ∀ frame ∈ c.stack, frame.lines <:+: program
  macros : c.machine.MacrosCutFrom program
  pending : c.machine.pending = none

variable {program : List String} {c c' : Moment}

theorem cutFrom_first (program : List String) (m : Machine) : CutFrom program (first m) := by
  refine ⟨fun frame hf => ?_, fun name body hb => ?_, rfl⟩
  · cases hf
  · cases hb

theorem cutFrom_of_steps (hs : Steps program c c') (hc : CutFrom program c) :
    CutFrom program c' := by
  have hpending := pending_of_steps hs hc.pending
  cases hs with
  | frame ht =>
    have hframe := hc.lines _ List.mem_cons_self
    obtain ⟨hframes, hmacros⟩ := ht.cutFrom hframe hc.macros
    refine ⟨List.forall_mem_append.mpr ⟨hframes, ?_⟩, hmacros, hpending⟩
    intro other ho
    exact hc.lines other (List.mem_cons_of_mem _ ho)
  | line hd h =>
    rename_i line rest frames span m m'
    have hrest : rest <:+: program := by
      have hsuffix := (List.drop_suffix m.ip program).isInfix
      rw [hd] at hsuffix
      exact isInfix_of_cons hsuffix
    have hready : m.lineReady.MacrosCutFrom program := by
      rw [MacrosCutFrom, lineReady_macros]
      exact hc.macros
    obtain ⟨hframes, hmacros⟩ := h.cutFrom hrest hready
    have hline : ∀ frame ∈ [Frame.line m.ip span], frame.lines <:+: program :=
      List.forall_mem_singleton.mpr (List.nil_infix)
    exact ⟨List.forall_mem_append.mpr ⟨hframes, hline⟩, hmacros, hpending⟩

theorem always_cutFrom (program : List String) (m : Machine) :
    Always program (CutFrom program) (first m) :=
  always_of_steps (fun _ _ => cutFrom_of_steps) (cutFrom_first program m)

/-- The lines in front of a tick are a part of the program. -/
theorem CutFrom.ahead (hc : CutFrom program c) {scope : Scope} {line : String}
    {rest : List String} (ha : c.ahead? program = some (scope, line :: rest)) :
    rest <:+: program := by
  have hlines : line :: rest <:+: program := by
    obtain ⟨stack, m⟩ := c
    cases stack with
    | nil =>
      have hd : program.drop m.ip = line :: rest := congrArg Prod.snd (Option.some.inj ha)
      rw [← hd]
      exact (List.drop_suffix m.ip program).isInfix
    | cons frame stack =>
      have hframe := hc.lines frame List.mem_cons_self
      cases frame <;> cases ha <;> exact hframe
  exact isInfix_of_cons hlines

/-- The block of a header that the guard stops was cut out of the program. -/
theorem CutFrom.of_stopsAtHeader (hc : CutFrom program c) {fault : Fault} {block : Block}
    (h : c.StopsAtHeader program fault block) :
    block.kind ≠ .macroBlock ∧ block.CutFrom program := by
  obtain ⟨scope, line, rest, ha, ⟨statement, _, _, hk, hbody⟩, _⟩ := h
  have hcut := BlockKind.cutFrom_body (hc.ahead ha) block.kind
  rw [← hbody] at hcut
  exact ⟨hk, hcut⟩

theorem cutFrom_of_shows {m m' : Machine} (h : Shows program (first m) m') :
    m'.MacrosCutFrom program ∧
      ∀ block, m'.pending = some block → block.kind ≠ .macroBlock ∧ block.CutFrom program := by
  rcases h with ⟨n, c, hn, rfl⟩ | ⟨budget, fault, hr⟩
  · have hc := always_cutFrom program m n c hn
    refine ⟨hc.macros, fun block hb => ?_⟩
    rw [hc.pending] at hb
    cases hb
  · obtain ⟨n, c, m₁, hn, ht, rfl⟩ := exists_failing_tick hr
    have hc := always_cutFrom program m n c hn
    have hmacros : m₁.macros = c.machine.macros := by
      obtain ⟨_, _, _, _, _, rfl⟩ := (tickFailed_of_tick ht).exists_eq
      rfl
    refine ⟨?_, fun block hb => ?_⟩
    · intro name body hb
      apply hc.macros name body
      rw [← hmacros]
      exact hb
    · exact hc.of_stopsAtHeader ((pending_of_tick_error hc.pending ht).mp hb)

end Moment

open Machine

/-- In every machine that a run shows, the bodies of macros and the body that is pending are parts of
the program without their terminators, and a run that succeeds leaves none. So is the body of every
header that a run comes to, which is pending when the header is executed. A block that is located has
the longest body without the terminator, and this body is within the lines. -/
theorem bodies_are_cut_from_the_program (program : List String) (m : Machine) :
    (∀ m', Moment.Shows program (.first m) m' →
      (∀ name body, m'.macros.body? name = some body →
        Block.CutFrom program ⟨.macroBlock, body⟩) ∧
      ∀ block, m'.pending = some block → block.kind ≠ .macroBlock ∧ block.CutFrom program) ∧
    (∀ budget m', run budget program m = some (.ok () m') → m'.macros = {} ∧ m'.pending = none) ∧
    (∀ n c scope line rest statement kind, Moment.after? program n (.first m) = some c →
      c.ahead? program = some (scope, line :: rest) →
      Statement.read ((c.ready program).vars.isString scope) line = .ok statement →
      statement.opens? = some kind →
      Block.CutFrom program ⟨kind, kind.body rest⟩ ∧
      (kind ≠ .macroBlock → start scope line rest (c.ready program) =
        (execute scope statement >>= fun frames => pure (frames, blockSpan (kind.body rest)))
          { c.ready program with pending := some ⟨kind, kind.body rest⟩ })) ∧
    ∀ (lines : List String) (header : Nat) (kind : BlockKind), header < lines.length →
      let extent := Extent.locate lines header kind
      extent.block? lines = some ⟨kind, kind.body (lines.drop (header + 1))⟩ ∧
      extent.span = blockSpan (kind.body (lines.drop (header + 1))) ∧
      extent.stop ≤ lines.length ∧ header + extent.span ≤ lines.length + 1 ∧
      ∀ n ≤ lines.length, n ≤ extent.stop ↔
        ∀ i, header < i → i < n → lines[i]? ≠ some kind.terminator := by
  refine ⟨?_, ?_, ?_, ?_⟩
  · intro m' hshows
    exact Moment.cutFrom_of_shows hshows
  · intro budget m' hrun
    rw [cleared_of_resume hrun]
    exact ⟨rfl, rfl⟩
  · intro n c scope line rest statement kind hn ha hr ho
    have hrest := (Moment.always_cutFrom program m n c hn).ahead ha
    exact ⟨BlockKind.cutFrom_body hrest kind, start_of_opens? rest hr ho⟩
  · intro lines header kind h extent
    obtain ⟨hblock, hspan⟩ := Extent.block?_locate kind h
    refine ⟨hblock, hspan, Extent.stop_le kind h, Extent.add_span_le kind h, ?_⟩
    intro n hn
    exact Extent.le_stop_iff kind h hn

/-- An interrupted run defines a macro that opens a block without a terminator, and stops at the
header of another block. -/
theorem interrupted_run_leaves_cut_bodies :
    let program := ["MACRO m", "FOR i FROM 1 TO 2", "END IF", "END MACRO", "IF x == 1", "x ++"]
    ∃ m', Moment.Shows program (.first { interrupted := true }) m' ∧
      m'.macros.body? "m" = some ["FOR i FROM 1 TO 2", "END IF"] ∧
      m'.pending = some ⟨.ifBlock, ["x ++"]⟩ ∧
      Block.CutFrom program ⟨.macroBlock, ["FOR i FROM 1 TO 2", "END IF"]⟩ ∧
      Block.CutFrom program ⟨.ifBlock, ["x ++"]⟩ ∧
      4 < program.length ∧ 4 + (Extent.locate program 4 .ifBlock).span = program.length + 1 ∧
      4 + (Extent.locate program 4 .ifBlock).span ≤ program.length + 1 := by
  intro program
  obtain ⟨m', hrun, hmacro, hpending⟩ : ∃ m',
      run 20 program { interrupted := true } = some (.error .terminated m') ∧
      m'.macros.body? "m" = some ["FOR i FROM 1 TO 2", "END IF"] ∧
      m'.pending = some ⟨.ifBlock, ["x ++"]⟩ := ⟨_, rfl, by decide +kernel, by decide +kernel⟩
  have hshows : Moment.Shows program (.first { interrupted := true }) m' :=
    Or.inr ⟨20, .terminated, hrun⟩
  obtain ⟨hshown, _, _, hlocated⟩ := bodies_are_cut_from_the_program program { interrupted := true }
  obtain ⟨hmacros, hblock⟩ := hshown m' hshows
  exact ⟨m', hshows, hmacro, hpending, hmacros _ _ hmacro, (hblock _ hpending).2, by decide,
    by decide, (hlocated program 4 .ifBlock (by decide)).2.2.2.1⟩

end LineScript
