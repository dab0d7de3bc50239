import LineScript.Text.Lines

/-!
Where a script prints: a growing sequence of bytes that may be limited, may refuse to be flushed,
and may raise an alarm when it has grown to a given size.
-/

namespace LineScript

/-- The bytes printed so far, and how the sink behaves. -/
structure Sink where
  bytes : ByteArray := .empty
  /-- The number of bytes it can hold. -/
  capacity : Option Nat := none
  /-- Whether a flush fails. -/
  refusesFlush : Bool := false
  /-- The size from which on every write raises the alarm. -/
  alarm : Option Nat := none
  /-- The number of bytes at the last flush. -/
  flushed : Nat := 0
deriving DecidableEq

namespace Sink

/-- The part of some bytes that fits. -/
def fitting (sink : Sink) (data : ByteArray) : ByteArray :=
  match sink.capacity with
  | none => data
  | some capacity => data.extract 0 (capacity - sink.bytes.size)

/-- Stores what fits. -/
def store (sink : Sink) (data : ByteArray) : Sink :=
  { sink with bytes := sink.bytes ++ sink.fitting data }

/-- Whether all of the bytes fit. -/
def holds (sink : Sink) (data : ByteArray) : Bool :=
  (sink.fitting data).size = data.size

/-- Whether storing the bytes raises the alarm. Storing nothing never does. -/
def rings (sink : Sink) (data : ByteArray) : Bool :=
  0 < (sink.fitting data).size && sink.alarm.any (· ≤ (sink.store data).bytes.size)

end Sink

end LineScript
