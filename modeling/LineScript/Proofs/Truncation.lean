import LineScript.Proofs.Moments
import LineScript.Proofs.Printing

/-! Sinks of limited capacity. A run that prints to one goes as it would without the limit, up to the
write that does not fit. There it fails, and the sink holds as much of the output as it can. -/

namespace LineScript

namespace Sink

/-- The sink with a limit on its size, or with none. -/
def withCapacity (capacity : Option Nat) (sink : Sink) : Sink :=
  { sink with capacity := capacity }

variable {sink : Sink} {data : ByteArray} {limit : Nat}

/-- The bytes that fit in are those that a sink without a limit takes. -/
theorem fitting_of_size_le (hfits : sink.bytes.size + data.size ≤ limit) :
    (sink.withCapacity (some limit)).fitting data = data := by
  have hle : data.size ≤ limit - sink.bytes.size := by omega
  change data.extract 0 (limit - sink.bytes.size) = data
  apply ByteArray.ext
  rw [ByteArray.data_extract]
  exact Array.extract_eq_self_of_le hle

theorem holds_eq_false_of_lt (hlt : limit < sink.bytes.size + data.size)
    (hs : sink.bytes.size ≤ limit) : (sink.withCapacity (some limit)).holds data = false := by
  have hsize : ((sink.withCapacity (some limit)).fitting data).size =
      min (limit - sink.bytes.size) data.size - 0 := ByteArray.size_extract
  have hne : ((sink.withCapacity (some limit)).fitting data).size ≠ data.size := by omega
  exact decide_eq_false hne

/-- A limited sink that is full holds the beginning of what was written. -/
theorem store_withCapacity_bytes (hs : sink.bytes.size ≤ limit) :
    ((sink.withCapacity (some limit)).store data).bytes =
      (sink.bytes ++ data).extract 0 limit := by
  have hold : sink.bytes.extract 0 limit = sink.bytes := by
    apply ByteArray.ext
    rw [ByteArray.data_extract]
    exact Array.extract_eq_self_of_le hs
  rw [ByteArray.extract_append, hold, Nat.zero_sub]
  rfl

end Sink

namespace Machine

/-- The machine with a limit on its sink, or with none. -/
def withCapacity (capacity : Option Nat) (m : Machine) : Machine :=
  m.withSink (m.sink.withCapacity capacity)

/-- How a result on an unlimited sink and the result on a limited one belong together: both are the
same and fit in, or the second one is the failure to print more than the limit allows. -/
inductive Truncated {α : Type} (limit : Nat) :
    EStateM.Result Fault Machine α → EStateM.Result Fault Machine α → Prop where
  | whole {r : EStateM.Result Fault Machine α} (hle : (endState r).sink.bytes.size ≤ limit) :
      Truncated limit r (mapEndState (withCapacity (some limit)) r)
  | cut {r : EStateM.Result Fault Machine α} {m : Machine}
      (hlt : limit < (endState r).sink.bytes.size)
      (hb : m.sink.bytes = (endState r).sink.bytes.extract 0 limit) :
      Truncated limit r (.error (.output .sinkFull) m)

variable {α β : Type} {limit : Nat} {m : Machine}

/-- Once the output was cut off, it does not matter what the unlimited run does next. -/
theorem truncated_of_grows {result : EStateM.Result Fault Machine α} {m₁ m' : Machine}
    (hlt : limit < m₁.sink.bytes.size) (hg : m₁.sink.Grows (endState result).sink)
    (hb : m'.sink.bytes = m₁.sink.bytes.extract 0 limit) :
    Truncated limit result (.error (.output .sinkFull) m') := by
  have hsize := hg.size_le
  apply Truncated.cut
  · omega
  · rw [hg.extract_eq hlt.le]
    exact hb

theorem truncated_quiet {action : Exec α} (h : Quiet action) (hm : m.sink.bytes.size ≤ limit) :
    Truncated limit (action m) (action (m.withCapacity (some limit))) := by
  have hsink := (h.display_eq m).2
  have hsame : action (m.withCapacity (some limit)) =
      mapEndState (withCapacity (some limit)) (action m) := by
    rw [withCapacity, h.withSink_eq m]
    cases hr : action m with
    | ok value m' =>
      rw [hr] at hsink
      change m'.sink = m.sink at hsink
      simp only [mapEndState, withCapacity, hsink]
    | error fault m' =>
      rw [hr] at hsink
      change m'.sink = m.sink at hsink
      simp only [mapEndState, withCapacity, hsink]
  rw [hsame]
  apply Truncated.whole
  rw [hsink]
  exact hm

/-- A text that fits in is printed to both sinks, and of any other the limited sink takes what
fits. -/
theorem truncated_put (text : String) (hu : m.sink.capacity = none)
    (hm : m.sink.bytes.size ≤ limit) :
    Truncated limit (printing (put text) m)
      (printing (put text) (m.withCapacity (some limit))) := by
  have hall := Sink.fitting_of_unlimited hu text.toUTF8
  have hunlimited : printing (put text) m = .ok () (m.printed text) := by
    rw [printing_put, if_pos (Sink.holds_of_fitting_eq hall)]
  have hbytes : (m.printed text).sink.bytes = m.sink.bytes ++ text.toUTF8 := by
    simp only [printed, Sink.store, hall]
  have hsize : (m.printed text).sink.bytes.size = m.sink.bytes.size + text.toUTF8.size := by
    rw [hbytes, ByteArray.size_append]
  rw [hunlimited, printing_put]
  by_cases hfits : m.sink.bytes.size + text.toUTF8.size ≤ limit
  · have hlimited := Sink.fitting_of_size_le hfits
    -- Both sinks take the same bytes, so the alarm rings on both or on none.
    have hstore : (m.withCapacity (some limit)).printed text =
        (m.printed text).withCapacity (some limit) := by
      have hm' : (m.withCapacity (some limit)).sink = m.sink.withCapacity (some limit) := rfl
      simp only [printed, hm', Sink.store, Sink.rings, hlimited, hall]
      rfl
    have hholds : (m.withCapacity (some limit)).sink.holds text.toUTF8 = true :=
      Sink.holds_of_fitting_eq hlimited
    rw [if_pos hholds, hstore]
    apply Truncated.whole (r := .ok () (m.printed text))
    change (m.printed text).sink.bytes.size ≤ limit
    omega
  · have hholds : (m.withCapacity (some limit)).sink.holds text.toUTF8 = false :=
      Sink.holds_eq_false_of_lt (by omega) hm
    rw [if_neg (by rw [hholds]; exact Bool.false_ne_true)]
    apply Truncated.cut
    · change limit < (m.printed text).sink.bytes.size
      omega
    · change _ = (m.printed text).sink.bytes.extract 0 limit
      rw [hbytes]
      exact Sink.store_withCapacity_bytes hm

/-- Whatever prints to a limited sink prints as without the limit until the output is cut off. -/
theorem Prints.truncated {action : Exec α} (h : Prints action) (hu : m.sink.capacity = none)
    (hm : m.sink.bytes.size ≤ limit) :
    Truncated limit (action m) (action (m.withCapacity (some limit))) := by
  induction h generalizing m with
  | quiet hq => exact truncated_quiet hq hm
  | put text => exact truncated_put text hu hm
  | trace text =>
    have hdebug : (m.withCapacity (some limit)).debug = m.debug := rfl
    rw [trace_eq, trace_eq, hdebug]
    split
    · exact truncated_put text hu hm
    · exact .whole (r := .ok () m) hm
  | flush =>
    have hrefuses : (m.withCapacity (some limit)).sink.refusesFlush = m.sink.refusesFlush := rfl
    rw [printing_flush, printing_flush, hrefuses]
    split
    · exact .whole (r := .error (.output .flushFailed) m) hm
    · exact .whole (r := .ok () m.flushed) hm
  | bind ha hn iha ihn =>
    rename_i action next
    have hfirst := iha hu hm
    have hgrows := ha.grows m
    cases hr : action m with
    | ok value m₁ =>
      rw [hr] at hfirst hgrows
      generalize hl : action (m.withCapacity (some limit)) = result at hfirst
      cases hfirst with
      | whole hle =>
        rw [bind_of_ok hr, bind_of_ok hl]
        exact ihn value (hgrows.capacity_eq.trans hu) hle
      | cut hlt hb =>
        -- The unlimited run goes on, but only adds to what was cut off.
        rw [bind_of_ok hr, bind_of_error hl]
        exact truncated_of_grows hlt ((hn value).grows m₁) hb
    | error fault m₁ =>
      rw [hr] at hfirst
      rw [bind_of_error hr]
      generalize hl : action (m.withCapacity (some limit)) = result at hfirst
      cases hfirst with
      | whole hle =>
        rw [bind_of_error hl]
        exact .whole (r := .error fault m₁) hle
      | cut hlt hb =>
        rw [bind_of_error hl]
        exact .cut hlt hb

/-- The output of a run only grows, up to its result. -/
theorem grows_of_resume {program : List String} {budget : Nat} {stack : List Frame}
    {result : EStateM.Result Fault Machine Unit}
    (h : resume program budget stack m = some result) :
    m.sink.Grows (endState result).sink := by
  induction budget generalizing stack m with
  | zero => cases h
  | succ budget ih =>
    have htick := (prints_tick program stack).grows m
    rw [resume] at h
    cases ht : tick program stack m with
    | error fault m₁ =>
      rw [ht] at h htick
      cases h
      exact htick
    | ok next m₁ =>
      rw [ht] at h htick
      cases next with
      | none =>
        cases h
        exact htick
      | some stack₁ => exact htick.trans (ih h)

/-- The result of a run on a limited sink, given the one on an unlimited sink. -/
theorem exists_truncated_of_resume {program : List String} {budget : Nat} {stack : List Frame}
    {result : EStateM.Result Fault Machine Unit} (hu : m.sink.capacity = none)
    (hm : m.sink.bytes.size ≤ limit) (h : resume program budget stack m = some result) :
    ∃ result', resume program budget stack (m.withCapacity (some limit)) = some result' ∧
      Truncated limit result result' := by
  induction budget generalizing stack m with
  | zero => cases h
  | succ budget ih =>
    have htick := (prints_tick program stack).truncated hu hm
    have hgrows := (prints_tick program stack).grows m
    rw [resume] at h ⊢
    generalize hl : tick program stack (m.withCapacity (some limit)) = limited at htick
    -- Both runs take the same ticks until a text does not fit.
    cases ht : tick program stack m with
    | error fault m₁ =>
      rw [ht] at h htick
      cases h
      cases htick with
      | whole hle => exact ⟨_, rfl, .whole (r := .error fault (m₁.unwind stack)) hle⟩
      | cut hlt hb => exact ⟨_, rfl, .cut hlt hb⟩
    | ok next m₁ =>
      rw [ht] at h htick hgrows
      cases next with
      | none =>
        cases h
        cases htick with
        | whole hle => exact ⟨_, rfl, .whole (r := .ok () m₁) hle⟩
        | cut hlt hb => exact ⟨_, rfl, .cut hlt hb⟩
      | some stack₁ =>
        cases htick with
        | whole hle => exact ih (hgrows.capacity_eq.trans hu) hle h
        | cut hlt hb => exact ⟨_, rfl, truncated_of_grows hlt (grows_of_resume h) hb⟩

end Machine

namespace Moment

variable {program : List String} {c c' : Moment} {limit : Nat}

theorem grows_of_next? (h : c.next? program = some c') : c.machine.sink.Grows c'.machine.sink := by
  have htick := (Machine.prints_tick program c.stack).grows c.machine
  rw [tick_of_next? h] at htick
  exact htick

theorem grows_of_after? {n : Nat} (h : after? program n c = some c') :
    c.machine.sink.Grows c'.machine.sink := by
  induction n generalizing c with
  | zero =>
    cases h
    exact Sink.Grows.refl _
  | succ n ih =>
    rw [after?] at h
    obtain ⟨c₁, hnext, hafter⟩ := Option.bind_eq_some_iff.mp h
    exact (grows_of_next? hnext).trans (ih hafter)

/-- A run that prints too much at some moment is cut off by then. -/
theorem cut_of_after? {n : Nat} (hu : c.machine.sink.capacity = none)
    (hm : c.machine.sink.bytes.size ≤ limit) (h : after? program n c = some c')
    (hlt : limit < c'.machine.sink.bytes.size) :
    ∃ m, Machine.resume program n c.stack (c.machine.withCapacity (some limit)) =
        some (.error (.output .sinkFull) m) ∧
      m.sink.bytes = c'.machine.sink.bytes.extract 0 limit := by
  induction n generalizing c with
  | zero =>
    cases h
    omega
  | succ n ih =>
    rw [after?] at h
    obtain ⟨c₁, hnext, hafter⟩ := Option.bind_eq_some_iff.mp h
    have hgrows := grows_of_next? hnext
    have htick := (Machine.prints_tick program c.stack).truncated hu hm
    rw [tick_of_next? hnext] at htick
    rw [Machine.resume]
    generalize Machine.tick program c.stack (c.machine.withCapacity (some limit)) = limited at htick
    cases htick with
    | whole hle => exact ih (hgrows.capacity_eq.trans hu) hle hafter
    | cut hcut hb =>
      refine ⟨_, rfl, ?_⟩
      rw [(grows_of_after? hafter).extract_eq hcut.le]
      exact hb

end Moment

/-- A limited sink cuts the output off and does nothing else. If a run ever prints more than the
limit, whether it ends or not, the run on the limited sink fails to print, and the sink holds the
beginning of the output. If a run ends within the limit, it ends in the same way on the limited
sink. -/
theorem limited_sink_only_truncates (program : List String) (m : Machine) (limit : Nat)
    (hm : m.sink.bytes.size ≤ limit) :
    (∀ n c, Moment.after? program n (.first (m.withCapacity none)) = some c →
      limit < c.machine.sink.bytes.size →
      ∃ m₁, Machine.run n program (m.withCapacity (some limit)) =
          some (.error (.output .sinkFull) m₁) ∧
        m₁.sink.bytes = c.machine.sink.bytes.extract 0 limit) ∧
    ∀ budget result, Machine.run budget program (m.withCapacity none) = some result →
      (limit < (Machine.endState result).sink.bytes.size →
        ∃ m₁, Machine.run budget program (m.withCapacity (some limit)) =
            some (.error (.output .sinkFull) m₁) ∧
          m₁.sink.bytes = (Machine.endState result).sink.bytes.extract 0 limit) ∧
      ((Machine.endState result).sink.bytes.size ≤ limit →
        Machine.run budget program (m.withCapacity (some limit)) =
          some (Machine.mapEndState (Machine.withCapacity (some limit)) result)) := by
  constructor
  · intro n c hafter hlt
    exact Moment.cut_of_after? (c := .first (m.withCapacity none)) rfl hm hafter hlt
  · intro budget result hrun
    obtain ⟨result', hlimited, ht⟩ :=
      Machine.exists_truncated_of_resume (m := (m.withCapacity none).cleared) rfl hm hrun
    have hrun' : Machine.run budget program (m.withCapacity (some limit)) = some result' := hlimited
    cases ht with
    | whole hle =>
      refine ⟨fun hlt => ?_, fun _ => hrun'⟩
      omega
    | cut hlt hb =>
      refine ⟨fun _ => ⟨_, hrun', hb⟩, fun hle => ?_⟩
      omega

/-- An endless loop is cut off inside its third letter, and a run that fails before the sink is full
fails in the same way. -/
theorem endless_loop_is_cut_off_inside_a_letter :
    let endless := ["MACRO m", "PRINTSTR \"é\"", "END MACRO", "FOR i FROM 1 TO NaN", "CALL m",
      "END FOR"]
    let failing := ["PRINTSTR \"é\" endl", "CALL m"]
    let m : Machine := {}
    m.sink.bytes.size ≤ 5 ∧
    (∃ m₁, Machine.run 18 endless (m.withCapacity (some 5)) =
        some (.error (.output .sinkFull) m₁) ∧
      m₁.sink.bytes = ⟨#[0xc3, 0xa9, 0xc3, 0xa9, 0xc3]⟩) ∧
    ∃ m₁, Machine.run 10 failing (m.withCapacity none) =
        some (.error (.missing .macroName "m") m₁) ∧
      Machine.run 10 failing (m.withCapacity (some 5)) =
        some (.error (.missing .macroName "m") (m₁.withCapacity (some 5))) := by
  intro endless failing m
  have hsize : m.sink.bytes.size ≤ 5 := by decide
  have hshown : (Moment.after? endless 18 (.first (m.withCapacity none))).map
      (fun c => c.machine.sink.bytes) = some ⟨#[0xc3, 0xa9, 0xc3, 0xa9, 0xc3, 0xa9]⟩ := by
    decide +kernel
  obtain ⟨c, hc, hbytes⟩ := Option.map_eq_some_iff.mp hshown
  have hlt : 5 < c.machine.sink.bytes.size := by
    rw [hbytes]
    decide
  obtain ⟨m₁, hrun, hcut⟩ := (limited_sink_only_truncates endless m 5 hsize).1 18 c hc hlt
  have hfirst : m₁.sink.bytes = ⟨#[0xc3, 0xa9, 0xc3, 0xa9, 0xc3]⟩ := by
    rw [hcut, hbytes]
    decide
  obtain ⟨m₂, hfails, hsmall⟩ : ∃ m₂, Machine.run 10 failing (m.withCapacity none) =
      some (.error (.missing .macroName "m") m₂) ∧ m₂.sink.bytes.size ≤ 5 :=
    ⟨_, rfl, by decide +kernel⟩
  exact ⟨hsize, ⟨m₁, hrun, hfirst⟩, m₂, hfails,
    ((limited_sink_only_truncates failing m 5 hsize).2 10 _ hfails).2 hsmall⟩

end LineScript
