import LineScript.FileTree

/-!
Where records of the program's own work go, and which of them are kept.
-/

namespace LineScript

/-- A record file that cannot be opened. -/
structure JournalFault where
  path : String
  cause : IoFault
deriving Repr, DecidableEq

/-- The wording of a record file that cannot be opened. -/
def JournalFault.message (f : JournalFault) : String :=
  "cannot open log file " ++ f.path ++ ": " ++ f.cause.message

/-- Which records are kept: those of the level that is set, if it is not blank, else those that
inform if there is a file for them, and none otherwise. -/
def journalLevel (level : Option String) (toFile : Bool) : String :=
  match (level.map fun text => trimBlanks text.toList).filter (· ≠ []) with
  | some text => String.ofList text
  | none => if toFile then "info" else "off"

/-- Opens the record file, if there is to be one. -/
def openJournal (files : FileTree) : Option String → Except JournalFault FileTree
  | none => .ok files
  | some path => (files.touch path).mapError fun cause => ⟨path, cause⟩

end LineScript
