import LineScript.Fault
import LineScript.Table
import LineScript.Text.Numeral

/-!
Labels, and the count of jumps that bounds a cycle of them.
-/

namespace LineScript

/-- The limit on jumps to one label, unless another one is set. -/
def defaultJumpLimit : Nat := 10000

/-- A place in the program. -/
structure Label where
  index : Nat
  /-- The jumps to the label since it was last declared. -/
  jumps : Nat
deriving Repr, DecidableEq

/-- The label after one more jump. The count stays at the greatest one. -/
def Label.jumped (label : Label) : Label :=
  { label with jumps := min (label.jumps + 1) maxCount }

/-- The labels of a run. -/
structure LabelTable where
  table : Table Label := {}
deriving Repr, DecidableEq

namespace LabelTable

/-- The label with a name. -/
def get? (labels : LabelTable) (name : String) : Option Label :=
  labels.table.get? name

/-- Whether a name is a label. -/
def contains (labels : LabelTable) (name : String) : Bool :=
  labels.table.contains name

/-- The number of labels. -/
def size (labels : LabelTable) : Nat :=
  labels.table.size

/-- Puts a label at an index. A label that is declared again moves there and is counted anew. -/
def declare (labels : LabelTable) (name : String) (index : Nat) : LabelTable :=
  ⟨labels.table.insert name ⟨index, 0⟩⟩

/-- Counts a jump to a label, and gives the index to go to. -/
def jump (labels : LabelTable) (name : String) : Except Fault (Nat × LabelTable) :=
  match labels.get? name with
  | some label => .ok (label.index, ⟨labels.table.insert name label.jumped⟩)
  | none => .error (.missing .labelName name)

/-- Fails if some label was jumped to more often than the limit. -/
def check (labels : LabelTable) (limit : Nat) : Except Fault Unit :=
  match labels.table.entries.find? fun entry => limit < entry.2.jumps with
  | some entry => .error (.tooMany (.jumps entry.1) limit)
  | none => .ok ()

end LabelTable

end LineScript
