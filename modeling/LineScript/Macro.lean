import LineScript.Table

/-!
Macros: lists of lines kept under a name.
-/

namespace LineScript

/-- The macros of a run. -/
structure MacroTable where
  bodies : Table (List String) := {}
  /-- How often a macro was defined, the replaced definitions included. -/
  definitions : Nat := 0
deriving Repr, DecidableEq

namespace MacroTable

/-- The lines of a macro. -/
def body? (macros : MacroTable) (name : String) : Option (List String) :=
  macros.bodies.get? name

/-- Whether a name is a macro. -/
def contains (macros : MacroTable) (name : String) : Bool :=
  macros.bodies.contains name

/-- The number of macros. -/
def size (macros : MacroTable) : Nat :=
  macros.bodies.size

/-- Defines a macro, in place of any macro with that name. The number of the definition is the
count of definitions after it. -/
def define (macros : MacroTable) (name : String) (body : List String) : MacroTable where
  bodies := macros.bodies.insert name body
  definitions := macros.definitions + 1

end MacroTable

end LineScript
