import LineScript.Fault
import LineScript.Table
import LineScript.Text.Numeral
import LineScript.Text.Quoted

/-!
The variables of a run, in five tables that do not share names: the same name may stand in several
of them. The tables of local names belong to all macro calls of a run together.
-/

namespace LineScript

/-- Where a statement stands. -/
inductive Scope where
  /-- Outside all macros. -/
  | global
  /-- Reached through a call. -/
  | inMacro
deriving Repr, DecidableEq

/-- The five tables. -/
inductive Slot where
  | int
  | string
  | mutableInt
  | localInt
  | localString
deriving Repr, DecidableEq

/-- What a variable can show. -/
inductive Value where
  | int (value : Int64)
  | text (value : String)
  /-- A mutable integer without a value. -/
  | unset
deriving Repr, DecidableEq

namespace Value

/-- The printed form of a value. -/
def render : Value → String
  | int value => toString value
  | text value => value
  | unset => "null"

/-- The value of a mutable integer. -/
def ofMutable : Option Int64 → Value
  | some value => int value
  | none => unset

end Value

/-- A name is valid unless it is an integer or has a quotation mark in it. -/
def isValidName (name : String) : Bool :=
  (readInt? name).isNone && !name.toList.contains quoteMark

/-- Adds a new valid name to a table. -/
def Table.declare {α : Type} (t : Table α) (name : String) (value : α) :
    Except SyntaxFault (Table α) :=
  if !isValidName name then .error .invalidName
  else if t.contains name then .error .nameTaken
  else .ok (t.insert name value)

/-- All variables of a run. -/
structure Variables where
  ints : Table Int64 := {}
  strings : Table String := {}
  mutables : Table (Option Int64) := {}
  localInts : Table Int64 := {}
  localStrings : Table String := {}
deriving Repr, DecidableEq

namespace Variables

/-- The table into which `INT` declares. -/
def intSlot : Scope → Slot
  | .global => .int
  | .inMacro => .localInt

/-- The table into which `STRING` declares. -/
def stringSlot : Scope → Slot
  | .global => .string
  | .inMacro => .localString

/-- Declares an integer. -/
def declareInt (vars : Variables) (scope : Scope) (name : String) (value : Int64) :
    Except SyntaxFault Variables :=
  match scope with
  | .global => (vars.ints.declare name value).map fun t => { vars with ints := t }
  | .inMacro => (vars.localInts.declare name value).map fun t => { vars with localInts := t }

/-- Declares a string. -/
def declareString (vars : Variables) (scope : Scope) (name value : String) :
    Except SyntaxFault Variables :=
  match scope with
  | .global => (vars.strings.declare name value).map fun t => { vars with strings := t }
  | .inMacro => (vars.localStrings.declare name value).map fun t => { vars with localStrings := t }

/-- Declares a mutable integer, which every scope shares. -/
def declareMutable (vars : Variables) (name : String) (value : Option Int64) :
    Except SyntaxFault Variables :=
  (vars.mutables.declare name value).map fun t => { vars with mutables := t }

/-- Whether a line that begins with this name assigns to a string. -/
def isString (vars : Variables) (scope : Scope) (name : String) : Bool :=
  vars.strings.contains name || (scope = .inMacro && vars.localStrings.contains name)

/-- The local entry under a name, in the scope that sees local names. -/
def localEntry {α : Type} (scope : Scope) (t : Table α) (name : String) : Option α :=
  if scope = .inMacro then t.get? name else none

/-- Reads an integer: a local one first, then a global one, then a mutable that has a value. -/
def int? (vars : Variables) (scope : Scope) (name : String) : Option Int64 :=
  localEntry scope vars.localInts name <|> vars.ints.get? name <|> (vars.mutables.get? name).join

/-- Reads a string: a local one first, then a global one. -/
def string? (vars : Variables) (scope : Scope) (name : String) : Option String :=
  localEntry scope vars.localStrings name <|> vars.strings.get? name

/-- What `PRINTVAR` shows. Outside macros it sees the tables that are not local, inside them only
those that are. -/
def printable? (vars : Variables) (scope : Scope) (name : String) : Option Value :=
  match scope with
  | .global =>
    (vars.ints.get? name).map .int <|> (vars.strings.get? name).map .text <|>
      (vars.mutables.get? name).map .ofMutable
  | .inMacro =>
    (vars.localInts.get? name).map .int <|> (vars.localStrings.get? name).map .text

/-- The table to which a reassignment of the name goes. -/
def target? (vars : Variables) (scope : Scope) (name : String) : Option Slot :=
  if scope = .inMacro ∧ vars.localInts.contains name then some .localInt
  else if scope = .inMacro ∧ vars.localStrings.contains name then some .localString
  else if vars.ints.contains name then some .int
  else if vars.strings.contains name then some .string
  else if vars.mutables.contains name then some .mutableInt
  else none

/-- The value found, or the fault that the variable is missing. -/
def found {α : Type} (name : String) : Option α → Except Fault α
  | some value => .ok value
  | none => .error (.missing .variableName name)

/-- Reads an integer that has to be there. -/
def readInt (vars : Variables) (scope : Scope) (name : String) : Except Fault Int64 :=
  found name (vars.int? scope name)

/-- Reads a string that has to be there. -/
def readString (vars : Variables) (scope : Scope) (name : String) : Except Fault String :=
  found name (vars.string? scope name)

/-- Reads what `PRINTVAR` shows. -/
def readPrintable (vars : Variables) (scope : Scope) (name : String) : Except Fault Value :=
  found name (vars.printable? scope name)

end Variables

end LineScript
