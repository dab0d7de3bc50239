import LineScript.Proofs.Bindings

/-! The names of variables. A declaration refuses names that are not valid, and a reassignment refuses
names that are not there. The variable of a loop is taken as it stands, so it is the only way in which
a name that is not valid comes into a table. -/

namespace LineScript

namespace Moment

open Machine

variable {program : List String} {c : Moment} {name : String}

/-- What is not valid cannot be declared. -/
theorem introduces_iff_of_invalid (hn : isValidName name = false) (slot : Slot) :
    c.Introduces program slot name ↔ slot = .int ∧ c.BeginsPass name := by
  refine ⟨fun h => h.resolve_left fun hd => ?_, Or.inr⟩
  rw [hd.fresh.1] at hn
  cases hn

/-- At every moment the entries of a name that is not valid are due to the passes begun before. -/
theorem binds_of_after? {m : Machine} (hn : isValidName name = false) {n : Nat}
    (h : after? program n (first m) = some c) (slot : Slot) :
    c.machine.vars.binds name slot = true ↔
      slot = .int ∧ ∃ k < n, ∃ c', after? program k (first m) = some c' ∧ c'.BeginsPass name := by
  rw [binds_iff_introduced h]
  constructor
  · rintro ⟨k, hk, c', hc', hi⟩
    obtain ⟨hslot, hb⟩ := (introduces_iff_of_invalid hn slot).mp hi
    exact ⟨hslot, k, hk, c', hc', hb⟩
  · rintro ⟨hslot, k, hk, c', hc', hb⟩
    exact ⟨k, hk, c', hc', Or.inr ⟨hslot, hb⟩⟩

/-- The machine that a failed run leaves behind has the entries of all passes that were begun. -/
theorem binds_of_failed {m m' : Machine} (hn : isValidName name = false) {budget : Nat}
    {fault : Fault} (h : run budget program m = some (.error fault m')) (slot : Slot) :
    m'.vars.binds name slot = true ↔
      slot = .int ∧ ∃ k c', after? program k (first m) = some c' ∧ c'.BeginsPass name := by
  rw [binds_iff_of_failed h]
  constructor
  · rintro ⟨k, c', hc', hi⟩
    obtain ⟨hslot, hb⟩ := (introduces_iff_of_invalid hn slot).mp hi
    exact ⟨hslot, k, c', hc', hb⟩
  · rintro ⟨hslot, k, c', hc', hb⟩
    exact ⟨k, c', hc', Or.inr ⟨hslot, hb⟩⟩

end Moment

/-- A loop stands in a program. -/
def LoopHeader.StandsIn (program : List String) (header : LoopHeader) : Prop :=
  ∃ line ∈ program, Statement.read (fun _ => false) line = .ok (.forHeader header)

/-- The loop of a frame, if it has one, has a property. -/
def Frame.LoopHas (Q : LoopHeader → Prop) : Frame → Prop
  | loop _ header _ _ | pass _ header _ _ => Q header
  | _ => True

theorem Machine.Started.loopHas {scope : Scope} {line : String} {rest : List String}
    {m m' : Machine} {frames : List Frame} {span : Nat} {Q : LoopHeader → Prop}
    (h : Started scope line rest m frames span m')
    (hl : ∀ header, Statement.read (fun _ => false) line = .ok (.forHeader header) → Q header) :
    ∀ frame ∈ frames, frame.LoopHas Q := by
  cases h with
  | looped hr hf =>
    have hheader := hl _ (Statement.read_eq_of_keyword? rfl (by decide) hr _)
    exact List.forall_mem_singleton.mpr hheader
  | entered hr hf => exact List.forall_mem_singleton.mpr trivial
  | called hr hf hb hd => exact List.forall_mem_singleton.mpr trivial
  | _ => exact fun frame hframe => absurd hframe List.not_mem_nil

theorem Frame.Ticked.loopHas {frame : Frame} {frames : List Frame} {m m' : Machine}
    {Q : LoopHeader → Prop} (h : frame.Ticked m frames m') (hq : frame.LoopHas Q)
    (hl : ∀ line ∈ frame.lines, ∀ header,
      Statement.read (fun _ => false) line = .ok (.forHeader header) → Q header) :
    ∀ other ∈ frames, other.LoopHas Q := by
  cases h with
  | bodyLine hs =>
    have hbegun := hs.loopHas (hl _ List.mem_cons_self)
    exact List.forall_mem_append.mpr ⟨hbegun, List.forall_mem_singleton.mpr trivial⟩
  | callLine hs =>
    have hbegun := hs.loopHas (hl _ List.mem_cons_self)
    exact List.forall_mem_append.mpr ⟨hbegun, List.forall_mem_singleton.mpr trivial⟩
  | loopPass hf hb =>
    intro other ho
    simp only [List.mem_cons, List.not_mem_nil, or_false] at ho
    rcases ho with rfl | rfl
    · trivial
    · exact hq
  | passNext ha => exact List.forall_mem_singleton.mpr hq
  | _ => exact fun other ho => absurd ho List.not_mem_nil

namespace Moment

variable {program : List String} {c : Moment}

/-- Every loop that is being executed stands in the program. -/
theorem always_standsIn (program : List String) (m : Machine) :
    Always program (fun c => ∀ frame ∈ c.stack, frame.LoopHas (·.StandsIn program)) (first m) := by
  have hstep (c c' : Moment) (hs : Steps program c c')
      (hc : Only (· ∈ program) c ∧ ∀ frame ∈ c.stack, frame.LoopHas (·.StandsIn program)) :
      Only (· ∈ program) c' ∧ ∀ frame ∈ c'.stack, frame.LoopHas (·.StandsIn program) := by
    obtain ⟨honly, hloops⟩ := hc
    refine ⟨only_of_steps (fun _ _ _ => Machine.opensOnto_of_program fun _ h => h) hs honly, ?_⟩
    cases hs with
    | frame ht =>
      have hframes := ht.loopHas (hloops _ List.mem_cons_self) fun line hline header hr =>
        ⟨line, honly.1 _ List.mem_cons_self line hline, hr⟩
      exact List.forall_mem_append.mpr
        ⟨hframes, fun other ho => hloops other (List.mem_cons_of_mem _ ho)⟩
    | line hd h =>
      rename_i line rest frames span m m'
      have hline : line ∈ program := by
        apply List.mem_of_mem_drop (i := m.ip)
        rw [hd]
        exact List.mem_cons_self
      have hframes : ∀ frame ∈ frames, frame.LoopHas (·.StandsIn program) :=
        h.loopHas fun header hr => ⟨line, hline, hr⟩
      exact List.forall_mem_append.mpr ⟨hframes, List.forall_mem_singleton.mpr trivial⟩
  have hfirst : Only (· ∈ program) (first m) ∧
      ∀ frame ∈ (first m).stack, frame.LoopHas (·.StandsIn program) :=
    ⟨only_first _ m, fun frame hframe => absurd hframe List.not_mem_nil⟩
  intro n c hn
  exact (always_of_steps hstep hfirst n c hn).2

theorem BeginsPass.standsIn {m : Machine} {n : Nat} {name : String}
    (h : after? program n (first m) = some c) (hb : c.BeginsPass name) :
    ∃ header : LoopHeader, header.StandsIn program ∧ header.var = name := by
  obtain ⟨frame, stack, hstack, hframe⟩ := hb
  have hloop := always_standsIn program m n c h frame (hstack ▸ List.mem_cons_self)
  cases frame with
  | loop scope header lines value => exact ⟨header, hloop, hframe.1⟩
  | _ => cases hframe

end Moment

/-- A name that is not valid has an entry if and only if it is the variable of a loop of which a pass
was begun, and then it is a global integer. So all names are valid as long as those of the loops
are. -/
theorem invalid_names_are_loop_variables (program : List String) (m : Machine) (name : String)
    (hn : isValidName name = false) :
    (∀ n c, Moment.after? program n (.first m) = some c → ∀ slot,
      c.machine.vars.binds name slot = true ↔
        slot = .int ∧ ∃ k < n, ∃ c',
          Moment.after? program k (.first m) = some c' ∧ c'.BeginsPass name) ∧
    (∀ budget fault m', Machine.run budget program m = some (.error fault m') → ∀ slot,
      m'.vars.binds name slot = true ↔
        slot = .int ∧ ∃ k c',
          Moment.after? program k (.first m) = some c' ∧ c'.BeginsPass name) ∧
    (∀ budget m', Machine.run budget program m = some (.ok () m') → ∀ slot,
      m'.vars.binds name slot = false) ∧
    ∀ n c, Moment.after? program n (.first m) = some c → c.BeginsPass name →
      ∃ header : LoopHeader, header.StandsIn program ∧ header.var = name := by
  refine ⟨?_, ?_, ?_, ?_⟩
  · intro n c h slot
    exact Moment.binds_of_after? hn h slot
  · intro budget fault m' h slot
    exact Moment.binds_of_failed hn h slot
  · intro budget m' h slot
    rw [Machine.cleared_of_resume h]
    cases slot <;> rfl
  · intro n c h hb
    exact Moment.BeginsPass.standsIn h hb

/-- The number 5 as the variable of a loop, which fails in its first pass. -/
theorem number_is_bound_by_its_loop :
    let program := ["FOR 5 FROM 1 TO 1", "GOTO a", "END FOR"]
    isValidName "5" = false ∧ ∃ m',
      Machine.run 20 program {} = some (.error (.missing .labelName "a") m') ∧
      m'.vars.ints.get? "5" = some 1 ∧
      (∃ k c', Moment.after? program k (.first {}) = some c' ∧ c'.BeginsPass "5") ∧
      ∀ slot, m'.vars.binds "5" slot = true → slot = .int := by
  intro program
  have hinvalid : isValidName "5" = false := by decide +kernel
  obtain ⟨m', hrun, hvalue⟩ : ∃ m',
      Machine.run 20 program {} = some (.error (.missing .labelName "a") m') ∧
      m'.vars.ints.get? "5" = some 1 := ⟨_, rfl, by decide +kernel⟩
  have hbinds := (invalid_names_are_loop_variables program {} "5" hinvalid).2.1 20 _ m' hrun
  have hbound : m'.vars.binds "5" .int = true := by
    rw [Variables.binds, Table.contains, hvalue]
    rfl
  exact ⟨hinvalid, m', hrun, hvalue, ((hbinds .int).mp hbound).2,
    fun slot h => ((hbinds slot).mp h).1⟩

/-- Numbers and names with a quotation mark become integers when they are variables of loops. -/
theorem loop_variables_need_not_be_valid :
    ∃ m', Machine.run 20 ["FOR 5 FROM 1 TO 1", "FOR a\" FROM 1 TO 1", "GOTO b", "END FOR"] {} =
        some (.error (.missing .labelName "b") m') ∧
      m'.vars.binds "5" .int = true ∧ isValidName "5" = false ∧
      m'.vars.binds "a\"" .int = true ∧ isValidName "a\"" = false :=
  ⟨_, rfl, by decide +kernel, by decide +kernel, by decide +kernel, by decide +kernel⟩

end LineScript
