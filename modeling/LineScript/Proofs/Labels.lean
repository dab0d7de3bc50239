import LineScript.Proofs.Progress

/-! Counting jumps. The guard is passed before every jump, so a count can be one above the limit,
but never two counts at once. -/

namespace LineScript

theorem Table.mem_put {α : Type} {name : String} {value : α} {entries : List (String × α)}
    {entry : String × α} (h : entry ∈ Table.put name value entries) :
    entry = (name, value) ∨ entry ∈ entries := by
  induction entries with
  | nil => exact Or.inl (List.mem_singleton.mp h)
  | cons old rest ih =>
    obtain ⟨other, oldValue⟩ := old
    by_cases hn : other = name
    · simp only [Table.put, hn, if_true] at h
      rcases List.mem_cons.mp h with he | hr
      · exact Or.inl he
      · exact Or.inr (List.mem_cons_of_mem _ hr)
    · simp only [Table.put, hn, if_false] at h
      rcases List.mem_cons.mp h with he | hr
      · exact Or.inr (he ▸ List.mem_cons_self)
      · rcases ih hr with he | hm
        · exact Or.inl he
        · exact Or.inr (List.mem_cons_of_mem _ hm)

theorem Table.mem_of_find? {α : Type} {name : String} {value : α} {entries : List (String × α)}
    (h : Table.find? name entries = some value) : (name, value) ∈ entries := by
  induction entries with
  | nil => cases h
  | cons old rest ih =>
    obtain ⟨other, oldValue⟩ := old
    by_cases hn : other = name
    · simp only [Table.find?, hn, if_true] at h
      cases h
      rw [hn]
      exact List.mem_cons_self
    · simp only [Table.find?, hn, if_false] at h
      exact List.mem_cons_of_mem _ (ih h)

namespace LabelTable

/-- Whether the count of a label is above a limit. -/
def isOver (limit : Nat) (entry : String × Label) : Bool :=
  limit < entry.2.jumps

/-- No count is above the limit. -/
def Within (labels : LabelTable) (limit : Nat) : Prop :=
  ∀ entry ∈ labels.table.entries, entry.2.jumps ≤ limit

/-- No count is more than one above the limit, and at most one is above it at all. -/
structure Guarded (labels : LabelTable) (limit : Nat) : Prop where
  bounded : ∀ entry ∈ labels.table.entries, entry.2.jumps ≤ limit + 1
  single : (labels.table.entries.filter (isOver limit)).length ≤ 1

variable {labels labels' : LabelTable} {limit : Nat}

theorem check_eq (labels : LabelTable) (limit : Nat) :
    labels.check limit =
      match labels.table.entries.find? (isOver limit) with
      | some entry => .error (.tooMany (.jumps entry.1) limit)
      | none => .ok () :=
  rfl

theorem within_of_check (h : labels.check limit = .ok ()) : labels.Within limit := by
  intro entry hentry
  rw [check_eq] at h
  cases hf : labels.table.entries.find? (isOver limit) with
  | some found =>
    rw [hf] at h
    cases h
  | none =>
    have hn := List.find?_eq_none.mp hf entry hentry
    simpa only [isOver, decide_eq_true_eq, not_lt] using hn

theorem filter_eq_nil_of_within (h : labels.Within limit) :
    labels.table.entries.filter (isOver limit) = [] := by
  apply List.filter_eq_nil_iff.mpr
  intro entry hentry
  have hle := h entry hentry
  simpa only [isOver, decide_eq_true_eq, not_lt] using hle

theorem length_filter_put_le {α : Type} {p : String × α → Bool} (name : String) (value : α)
    {entries : List (String × α)} (h : entries.filter p = []) :
    ((Table.put name value entries).filter p).length ≤ 1 := by
  induction entries with
  | nil =>
    exact List.length_filter_le _ _
  | cons old rest ih =>
    obtain ⟨other, oldValue⟩ := old
    have hnone := List.filter_eq_nil_iff.mp h
    have hrest : rest.filter p = [] :=
      List.filter_eq_nil_iff.mpr fun entry he => hnone entry (List.mem_cons_of_mem _ he)
    by_cases hn : other = name
    · simp only [Table.put, hn, if_true, List.filter_cons, hrest]
      split <;> simp
    · have hhead := hnone (other, oldValue) List.mem_cons_self
      simp only [Table.put, hn, if_false, List.filter_cons, hhead]
      exact ih hrest

/-- Whatever replaces one label of a table within the limit, the counts stay guarded as long as
the new count is at most one above. -/
theorem guarded_insert (h : labels.Within limit) (name : String) {label : Label}
    (hl : label.jumps ≤ limit + 1) : Guarded ⟨labels.table.insert name label⟩ limit := by
  refine ⟨fun entry hentry => ?_, length_filter_put_le name label (filter_eq_nil_of_within h)⟩
  rcases Table.mem_put hentry with rfl | hold
  · exact hl
  · exact (h entry hold).trans (Nat.le_succ limit)

theorem guarded_declare (h : labels.Within limit) (name : String) (index : Nat) :
    (labels.declare name index).Guarded limit :=
  guarded_insert h name (Nat.zero_le _)

/-- A jump leads to a label of the table, and counts it. -/
theorem exists_of_jump {name : String} {index : Nat} (h : labels.jump name = .ok (index, labels')) :
    ∃ label, labels.get? name = some label ∧ label.index = index ∧
      labels' = ⟨labels.table.insert name label.jumped⟩ := by
  unfold jump at h
  cases hl : labels.get? name with
  | none =>
    rw [hl] at h
    cases h
  | some label =>
    rw [hl] at h
    cases h
    exact ⟨label, rfl, rfl, rfl⟩

theorem guarded_jump (h : labels.Within limit) {name : String} {index : Nat}
    (hj : labels.jump name = .ok (index, labels')) : labels'.Guarded limit := by
  obtain ⟨label, hl, rfl, rfl⟩ := exists_of_jump hj
  have hle := h (name, label) (Table.mem_of_find? hl)
  have hjumped : label.jumped.jumps ≤ limit + 1 := by
    dsimp only [Label.jumped] at hle ⊢
    omega
  exact guarded_insert h name hjumped

theorem Guarded.filter_cases (h : labels.Guarded limit) :
    labels.table.entries.filter (isOver limit) = [] ∨
      ∃ entry, labels.table.entries.filter (isOver limit) = [entry] := by
  rcases Nat.le_one_iff_eq_zero_or_eq_one.mp h.single with hzero | hone
  · exact Or.inl (List.eq_nil_of_length_eq_zero hzero)
  · exact Or.inr (List.length_eq_one_iff.mp hone)

/-- The order in which a guarded table is searched does not matter. -/
theorem Guarded.check_perm (h : labels.Guarded limit) {entries : List (String × Label)}
    (hp : entries.Perm labels.table.entries) :
    LabelTable.check ⟨⟨entries⟩⟩ limit = labels.check limit := by
  have hfilter := hp.filter (isOver limit)
  have hsame : entries.filter (isOver limit) = labels.table.entries.filter (isOver limit) := by
    rcases h.filter_cases with hnil | ⟨entry, hone⟩
    · rw [hnil] at hfilter ⊢
      exact hfilter.eq_nil
    · rw [hone] at hfilter ⊢
      exact hfilter.eq_singleton
  rw [check_eq, check_eq, ← List.head?_filter, ← List.head?_filter, hsame]

/-- Two labels above the limit are one. -/
theorem Guarded.eq_of_over (h : labels.Guarded limit) {name name' : String}
    {label label' : Label} (hl : labels.get? name = some label)
    (hl' : labels.get? name' = some label') (ho : limit < label.jumps)
    (ho' : limit < label'.jumps) : name = name' := by
  have hmem : (name, label) ∈ labels.table.entries.filter (isOver limit) :=
    List.mem_filter.mpr ⟨Table.mem_of_find? hl, decide_eq_true ho⟩
  have hmem' : (name', label') ∈ labels.table.entries.filter (isOver limit) :=
    List.mem_filter.mpr ⟨Table.mem_of_find? hl', decide_eq_true ho'⟩
  rcases h.filter_cases with hnil | ⟨entry, hone⟩
  · rw [hnil] at hmem
    cases hmem
  · rw [hone] at hmem hmem'
    have hpair := (List.mem_singleton.mp hmem).trans (List.mem_singleton.mp hmem').symm
    exact congrArg Prod.fst hpair

end LabelTable

/-- Whether the next line of a frame declares a label. -/
def Frame.declares : Frame → Bool
  | .body _ (text :: _) | .call _ (text :: _) => Statement.declares text
  | _ => false

namespace Machine

/-- What can happen to the labels and to the place in the program: nothing, a label is declared at
that place, or it moves to a label that is counted. -/
inductive LabelMove (declaring : Prop) (m m' : Machine) : Prop where
  | stays (hl : m'.labels = m.labels) (hi : m'.ip = m.ip) (hj : m'.jumped = m.jumped)
  | declared (hd : declaring) (hw : m.labels.Within m.jumpLimit) (name : String)
      (hl : m'.labels = m.labels.declare name m.ip) (hi : m'.ip = m.ip)
      (hj : m'.jumped = m.jumped)
  | jumped (hw : m.labels.Within m.jumpLimit) {name : String} {index : Nat}
      {labels : LabelTable} (hjump : m.labels.jump name = .ok (index, labels))
      (hl : m'.labels = labels) (hi : m'.ip = index) (hj : m'.jumped = true)

theorem Free.within {m : Machine} (h : Free m) : m.labels.Within m.jumpLimit :=
  LabelTable.within_of_check h.2

variable {scope : Scope} {line : String} {rest : List String} {m m' : Machine}
  {frames : List Frame} {span : Nat}

theorem Started.settings_eq (h : Started scope line rest m frames span m') :
    m'.jumpLimit = m.jumpLimit ∧ m'.debug = m.debug := by
  cases h with
  | plain hr hs hf hsame =>
    obtain ⟨vars, interrupted, sink, rfl⟩ := hsame
    exact ⟨rfl, rfl⟩
  | _ => exact ⟨rfl, rfl⟩

theorem Started.labelMove (h : Started scope line rest m frames span m') :
    LabelMove (Statement.declares line = true) m m' := by
  cases h with
  | plain hr hs hf hsame =>
    obtain ⟨vars, interrupted, sink, rfl⟩ := hsame
    exact .stays rfl rfl rfl
  | labelled hr hf => exact .declared (Statement.declares_of_read hr) hf.within _ rfl rfl rfl
  | jumped hr hf hj => exact .jumped hf.within hj rfl rfl rfl
  | _ => exact .stays rfl rfl rfl

/-- The trace does not matter to the labels. -/
theorem labelMove_of_traced {declaring : Prop} {text : String}
    (h : LabelMove declaring (m.traced text) m') : LabelMove declaring m m' := by
  cases h with
  | stays hl hi hj =>
    rw [traced_labels] at hl
    rw [traced_ip] at hi
    rw [traced_jumped] at hj
    exact .stays hl hi hj
  | declared hd hw name hl hi hj =>
    rw [traced_labels, traced_jumpLimit] at hw
    rw [traced_labels, traced_ip] at hl
    rw [traced_ip] at hi
    rw [traced_jumped] at hj
    exact .declared hd hw name hl hi hj
  | jumped hw hjump hl hi hj =>
    rw [traced_labels, traced_jumpLimit] at hw
    rw [traced_labels] at hjump
    exact .jumped hw hjump hl hi hj

end Machine

namespace Frame

variable {frame : Frame} {m m' : Machine} {frames : List Frame}

theorem Ticked.settings_eq (h : frame.Ticked m frames m') :
    m'.jumpLimit = m.jumpLimit ∧ m'.debug = m.debug := by
  cases h with
  | bodyLine hs => exact hs.settings_eq
  | callLine hs =>
    have hsame := hs.settings_eq
    rw [Machine.traced_jumpLimit, Machine.traced_debug] at hsame
    exact hsame
  | _ => exact ⟨rfl, rfl⟩

theorem Ticked.labelMove (h : frame.Ticked m frames m') (hn : frame.isNested = true) :
    m.LabelMove (frame.declares = true) m' := by
  cases h with
  | line => cases hn
  | bodyLine hs => exact hs.labelMove
  | callLine hs => exact Machine.labelMove_of_traced hs.labelMove
  | _ => exact .stays rfl rfl rfl

end Frame

end LineScript
