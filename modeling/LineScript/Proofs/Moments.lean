import LineScript.Proofs.Ticks

/-! Runs as sequences of moments. A property that one tick preserves holds at every moment of a
run, and a run ends if and only if its sequence of moments does. -/

namespace LineScript

theorem lt_length_of_drop {program rest : List String} {index : Nat} {line : String}
    (hd : program.drop index = line :: rest) : index < program.length := by
  by_contra hge
  rw [List.drop_eq_nil_of_le (not_lt.mp hge)] at hd
  cases hd

theorem MacroTable.body?_define (macros : MacroTable) (name : String) (body : List String)
    (other : String) :
    (macros.define name body).body? other =
      if other = name then some body else macros.body? other := by
  split
  · rename_i hname
    subst hname
    exact Table.get?_insert_self _ _ _
  · rename_i hname
    exact Table.get?_insert_of_ne _ hname _

/-- Where a run stands between two ticks: the work that remains, and the machine. -/
structure Moment where
  stack : List Frame
  machine : Machine
deriving DecidableEq

namespace Moment

/-- The moment with which a run begins. -/
def first (m : Machine) : Moment :=
  ⟨[], m.cleared⟩

/-- The moment after one tick, unless the run ends with it. -/
def next? (program : List String) (c : Moment) : Option Moment :=
  match Machine.tick program c.stack c.machine with
  | .ok (some stack) m => some ⟨stack, m⟩
  | _ => none

theorem tick_of_next? {program : List String} {c c' : Moment} (h : c.next? program = some c') :
    Machine.tick program c.stack c.machine = .ok (some c'.stack) c'.machine := by
  unfold next? at h
  cases ht : Machine.tick program c.stack c.machine with
  | error fault m =>
    rw [ht] at h
    cases h
  | ok next m =>
    rw [ht] at h
    cases next with
    | none => cases h
    | some stack =>
      cases h
      rfl

/-- The moment after the given number of ticks, unless the run ends before. -/
def after? (program : List String) : Nat → Moment → Option Moment
  | 0, c => some c
  | n + 1, c => (c.next? program).bind (after? program n)

variable {program : List String} {c c' : Moment}

theorem after?_add (i j : Nat) (c : Moment) :
    after? program (i + j) c = (after? program i c).bind (after? program j) := by
  induction i generalizing c with
  | zero => simp only [Nat.zero_add, after?, Option.bind_some]
  | succ i ih =>
    rw [Nat.succ_add, after?, after?, Option.bind_assoc]
    exact congrArg _ (funext ih)

theorem after?_succ (n : Nat) (c : Moment) :
    after? program (n + 1) c = (after? program n c).bind (next? program) := by
  have hone : after? program 1 = next? program := by
    funext c
    exact Option.bind_fun_some _
  rw [after?_add, hone]

theorem after?_of_le {i j : Nat} (hij : i ≤ j) (h : after? program i c = none) :
    after? program j c = none := by
  obtain ⟨k, rfl⟩ := Nat.exists_eq_add_of_le hij
  rw [after?_add, h, Option.bind_none]

/-- A run goes on from each of its moments to its own result. -/
theorem resume_of_after? {n budget : Nat} {result : EStateM.Result Fault Machine Unit}
    (h : after? program n c = some c')
    (hr : Machine.resume program budget c'.stack c'.machine = some result) :
    Machine.resume program (n + budget) c.stack c.machine = some result := by
  induction n generalizing c with
  | zero =>
    cases h
    rw [Nat.zero_add]
    exact hr
  | succ n ih =>
    rw [after?] at h
    obtain ⟨c₁, hnext, hlater⟩ := Option.bind_eq_some_iff.mp h
    rw [Nat.succ_add, Machine.resume, tick_of_next? hnext]
    exact ih hlater

theorem resume_of_failed {stack : List Frame} {m m' : Machine} {fault : Fault}
    (h : Machine.tick program stack m = .error fault m') :
    Machine.resume program 1 stack m = some (.error fault (m'.unwind stack)) := by
  rw [Machine.resume, h]

theorem after?_one_of_tick {frame : Frame} {frames : List Frame} {m m' : Machine}
    (h : frame.tick m = .ok frames m') (program : List String) (stack : List Frame) :
    after? program 1 ⟨frame :: stack, m⟩ = some ⟨frames ++ stack, m'⟩ := by
  rw [after?, next?, Machine.tick_cons_of_ok program stack h]
  rfl

/-- A program has a result within a budget unless it still goes on after it. -/
theorem resume_eq_none_iff (budget : Nat) (c : Moment) :
    Machine.resume program budget c.stack c.machine = none ↔
      (after? program budget c).isSome := by
  induction budget generalizing c with
  | zero => simp only [Machine.resume, after?, Option.isSome_some]
  | succ budget ih =>
    rw [Machine.resume, after?, next?]
    cases ht : Machine.tick program c.stack c.machine with
    | error fault m => simp
    | ok result m =>
      cases result with
      | none => simp
      | some stack => exact ih ⟨stack, m⟩

theorem run_eq_none_iff (budget : Nat) (m : Machine) :
    Machine.run budget program m = none ↔ (after? program budget (first m)).isSome :=
  resume_eq_none_iff budget (first m)

/-- A result stays the same with every larger budget. -/
theorem resume_of_le {budget budget' : Nat} {stack : List Frame} {m : Machine}
    {result : EStateM.Result Fault Machine Unit} (hle : budget ≤ budget')
    (h : Machine.resume program budget stack m = some result) :
    Machine.resume program budget' stack m = some result := by
  induction budget generalizing budget' stack m with
  | zero => cases h
  | succ budget ih =>
    obtain ⟨more, rfl⟩ := Nat.exists_eq_add_of_lt (Nat.lt_of_succ_le hle)
    rw [Machine.resume] at h ⊢
    split at h
    · exact ih (by omega) h
    · exact h
    · exact h

/-- A run has a result if and only if some tick is its last. -/
theorem run_ends_iff (m : Machine) :
    (∃ budget result, Machine.run budget program m = some result) ↔
      ∃ n, after? program n (first m) = none := by
  constructor
  · rintro ⟨budget, result, h⟩
    refine ⟨budget, ?_⟩
    rw [← Option.not_isSome_iff_eq_none, ← run_eq_none_iff, h]
    exact Option.some_ne_none result
  · rintro ⟨n, h⟩
    have hn : Machine.run n program m ≠ none := by
      rw [Ne, run_eq_none_iff, h]
      exact Bool.false_ne_true
    exact ⟨n, Option.ne_none_iff_exists'.mp hn⟩

/-- One tick of a program, as a relation between moments. -/
inductive Steps (program : List String) : Moment → Moment → Prop where
  | frame {frame : Frame} {stack frames : List Frame} {m m' : Machine}
      (h : frame.Ticked m frames m') : Steps program ⟨frame :: stack, m⟩ ⟨frames ++ stack, m'⟩
  | line {line : String} {rest : List String} {frames : List Frame} {span : Nat} {m m' : Machine}
      (hd : program.drop m.ip = line :: rest)
      (h : Machine.Started .global line rest m.lineReady frames span m') :
      Steps program ⟨[], m⟩ ⟨frames ++ [.line m.ip span], m'⟩

theorem steps_of_next? (h : c.next? program = some c') : Steps program c c' := by
  have htick := tick_of_next? h
  obtain ⟨stack, m⟩ := c
  obtain ⟨stack', m'⟩ := c'
  cases stack with
  | nil =>
    have ht := Machine.nextLine_ticked program m
    rw [htick] at ht
    cases ht with
    | begun hd hs => exact .line hd hs
  | cons frame stack =>
    dsimp only at htick
    cases hr : frame.tick m with
    | error fault m₁ =>
      rw [Machine.tick_cons_of_error program stack hr] at htick
      cases htick
    | ok frames m₁ =>
      rw [Machine.tick_cons_of_ok program stack hr] at htick
      cases htick
      exact .frame (Frame.ticked_of_tick hr)

/-- What every tick preserves holds at every later moment. -/
theorem after?_induction {P : Moment → Prop}
    (hstep : ∀ c c', Steps program c c' → P c → P c') {n : Nat} (hc : P c)
    (h : after? program n c = some c') : P c' := by
  induction n generalizing c with
  | zero =>
    cases h
    exact hc
  | succ n ih =>
    rw [after?] at h
    obtain ⟨c₁, h₁, h₂⟩ := Option.bind_eq_some_iff.mp h
    exact ih (hstep c c₁ (steps_of_next? h₁) hc) h₂

/-- A property holds at this moment and at all later ones. -/
def Always (program : List String) (P : Moment → Prop) (c : Moment) : Prop :=
  ∀ n c', after? program n c = some c' → P c'

theorem Always.now {P : Moment → Prop} (h : Always program P c) : P c :=
  h 0 c rfl

theorem Always.later {P : Moment → Prop} (h : Always program P c) {n : Nat}
    (hn : after? program n c = some c') : Always program P c' := by
  intro k d hk
  apply h (n + k) d
  rw [after?_add, hn]
  exact hk

theorem always_of_steps {P : Moment → Prop} (hstep : ∀ c c', Steps program c c' → P c → P c')
    (hc : P c) : Always program P c :=
  fun _ _ h => after?_induction hstep hc h

end Moment

namespace Frame

/-- The lines that a frame may still execute itself. -/
def lines : Frame → List String
  | line _ _ => []
  | body _ rest | call _ rest => rest
  | loop _ _ lines _ | pass _ _ lines _ => lines

/-- Whether a frame stands above the program line being executed. -/
def isNested : Frame → Bool
  | line _ _ => false
  | _ => true

end Frame

namespace Machine

/-- All lines of all macros have a property. -/
def MacrosHave (Q : String → Prop) (m : Machine) : Prop :=
  ∀ name body, m.macros.body? name = some body → ∀ line ∈ body, Q line

/-- The bodies of the blocks that a line opens have a property, given the lines after it. -/
def OpensOnto (Q : String → Prop) (line : String) (rest : List String) : Prop :=
  ∀ kind, Statement.opened? line = some kind → ∀ text ∈ kind.body rest, Q text

variable {Q : String → Prop} {scope : Scope} {line : String} {rest : List String}
  {m m' : Machine} {frames : List Frame} {span : Nat}

theorem opensOnto_of_forall (h : ∀ text ∈ rest, Q text) : OpensOnto Q line rest :=
  fun _ _ text ht => h text ((List.takeWhile_sublist _).subset ht)

/-- What holds of all lines of a program holds of the body of every block. -/
theorem opensOnto_of_program {program : List String} (hprogram : ∀ text ∈ program, Q text)
    {index : Nat} (hd : program.drop index = line :: rest) : OpensOnto Q line rest := by
  apply opensOnto_of_forall
  intro text ht
  apply hprogram
  exact List.mem_of_mem_drop (hd ▸ List.mem_cons_of_mem _ ht)

theorem Started.span_pos (h : Started scope line rest m frames span m') : 0 < span := by
  cases h <;> first | exact Nat.one_pos | exact Nat.succ_pos _

theorem Started.isNested (h : Started scope line rest m frames span m') :
    ∀ frame ∈ frames, frame.isNested = true := by
  cases h <;> simp [Frame.isNested]

theorem Started.lines (h : Started scope line rest m frames span m')
    (ho : OpensOnto Q line rest) (hm : MacrosHave Q m) :
    (∀ frame ∈ frames, ∀ text ∈ frame.lines, Q text) ∧ MacrosHave Q m' := by
  cases h with
  | defined hr =>
    rename_i name
    refine ⟨by simp, fun other body hb => ?_⟩
    rw [MacroTable.body?_define] at hb
    split at hb
    · cases hb
      exact ho _ (Statement.opened?_of_read hr rfl)
    · exact hm other body hb
  | plain hr hs hf hsame =>
    obtain ⟨vars, interrupted, sink, rfl⟩ := hsame
    exact ⟨by simp, hm⟩
  | skipped hr hf => exact ⟨by simp, hm⟩
  | entered hr hf =>
    refine ⟨fun frame hframe => ?_, hm⟩
    obtain rfl := List.mem_singleton.mp hframe
    exact ho _ (Statement.opened?_of_read hr rfl)
  | looped hr hf =>
    refine ⟨fun frame hframe => ?_, hm⟩
    obtain rfl := List.mem_singleton.mp hframe
    exact ho _ (Statement.opened?_of_read hr rfl)
  | called hr hf hb hd =>
    refine ⟨fun frame hframe => ?_, hm⟩
    obtain rfl := List.mem_singleton.mp hframe
    exact hm _ _ hb
  | labelled hr hf => exact ⟨by simp, hm⟩
  | jumped hr hf hj => exact ⟨by simp, hm⟩

end Machine

namespace Frame

variable {Q : String → Prop} {frame : Frame} {m m' : Machine} {frames : List Frame}

theorem Ticked.isNested (h : frame.Ticked m frames m') :
    ∀ other ∈ frames, other.isNested = true := by
  cases h with
  | bodyLine hs =>
    exact List.forall_mem_append.mpr ⟨hs.isNested, List.forall_mem_singleton.mpr rfl⟩
  | callLine hs =>
    exact List.forall_mem_append.mpr ⟨hs.isNested, List.forall_mem_singleton.mpr rfl⟩
  | _ => simp [Frame.isNested]

/-- What holds of the lines of a frame and of all macros holds of the lines of the frames that
take its place. -/
theorem Ticked.lines (h : frame.Ticked m frames m') (hf : ∀ text ∈ frame.lines, Q text)
    (hm : m.MacrosHave Q) :
    (∀ other ∈ frames, ∀ text ∈ other.lines, Q text) ∧ m'.MacrosHave Q := by
  have hrest {text : String} {rest : List String} {n : Nat} (hq : ∀ l ∈ text :: rest, Q l) :
      ∀ l ∈ rest.drop n, Q l :=
    fun l hl => hq l (List.mem_cons_of_mem _ (List.mem_of_mem_drop hl))
  cases h with
  | line => exact ⟨by simp, hm⟩
  | bodyEnd => exact ⟨by simp, hm⟩
  | bodyLine hs =>
    obtain ⟨hframes, hm'⟩ := hs.lines
      (Machine.opensOnto_of_forall fun l hl => hf l (List.mem_cons_of_mem _ hl)) hm
    refine ⟨List.forall_mem_append.mpr ⟨hframes, ?_⟩, hm'⟩
    exact List.forall_mem_singleton.mpr (hrest hf)
  | callEnd => exact ⟨by simp, hm⟩
  | callLine hs =>
    rename_i index _ _ _ _
    have hmt : (m.traced ("Line " ++ toString index ++ "\n")).MacrosHave Q := by
      rw [Machine.MacrosHave, Machine.traced_macros]
      exact hm
    obtain ⟨hframes, hm'⟩ := hs.lines
      (Machine.opensOnto_of_forall fun l hl => hf l (List.mem_cons_of_mem _ hl)) hmt
    refine ⟨List.forall_mem_append.mpr ⟨hframes, ?_⟩, hm'⟩
    exact List.forall_mem_singleton.mpr (hrest hf)
  | loopEnd hfree hb hl => exact ⟨by simp, hm⟩
  | loopPass hfree hb =>
    refine ⟨fun other ho => ?_, hm⟩
    simp only [List.mem_cons, List.not_mem_nil, or_false] at ho
    rcases ho with rfl | rfl <;> exact hf
  | passNext ha =>
    refine ⟨fun other ho => ?_, hm⟩
    obtain rfl := List.mem_singleton.mp ho
    exact hf
  | passEnd ha hb => exact ⟨by simp, hm⟩

end Frame

namespace Moment

/-- All lines that can be executed below the program lines have a property. -/
def Only (Q : String → Prop) (c : Moment) : Prop :=
  (∀ frame ∈ c.stack, ∀ text ∈ frame.lines, Q text) ∧ c.machine.MacrosHave Q

theorem only_of_steps {Q : String → Prop} {program : List String}
    (hprogram : ∀ index line rest, program.drop index = line :: rest →
      Machine.OpensOnto Q line rest) {c c' : Moment} (hs : Steps program c c') (hc : Only Q c) :
    Only Q c' := by
  cases hs with
  | frame ht =>
    rename_i frame stack frames m m'
    have hframe := hc.1 frame List.mem_cons_self
    obtain ⟨hframes, hm'⟩ := ht.lines hframe hc.2
    refine ⟨List.forall_mem_append.mpr ⟨hframes, ?_⟩, hm'⟩
    intro other ho
    exact hc.1 other (List.mem_cons_of_mem _ ho)
  | line hd h =>
    rename_i line rest frames span m m'
    have hready : m.lineReady.MacrosHave Q := by
      rw [Machine.MacrosHave, Machine.lineReady_macros]
      exact hc.2
    obtain ⟨hframes, hm'⟩ := h.lines (hprogram m.ip line rest hd) hready
    refine ⟨List.forall_mem_append.mpr ⟨hframes, ?_⟩, hm'⟩
    simp [Frame.lines]

/-- In the beginning there is no work left and there are no macros. -/
theorem only_first (Q : String → Prop) (m : Machine) : Only Q (first m) := by
  refine ⟨fun frame hf => ?_, fun name body hb => ?_⟩
  · cases hf
  · cases hb

end Moment

end LineScript
