import LineScript.Fault
import LineScript.Table
import LineScript.Text.Blank
import LineScript.Text.Lines

/-!
The files that the program reads and writes.
-/

namespace LineScript

/-- The parts of a path. A part that is a single dot stays in place. -/
def pathParts (path : List Char) : List String :=
  ((pieces (· = '/') path).filter (· ≠ ['.'])).map String.ofList

/-- The path with the given parts. -/
def joinPath (parts : List String) : String :=
  "/".intercalate parts

/-- The files below one folder, by their path from there. -/
structure FileTree where
  /-- The full path of the folder. -/
  base : String := ""
  files : Table ByteArray := {}
deriving DecidableEq

namespace FileTree

/-- The parts of a path, given from the folder or in full. A full path that leads elsewhere has
none. -/
def resolve? (tree : FileTree) (path : String) : Option (List String) :=
  let base := (tree.base ++ "/").toList
  if base.isPrefixOf path.toList then some (pathParts (path.toList.drop base.length))
  else if path.toList.head? = some '/' then none
  else some (pathParts path.toList)

/-- Puts a file into the tree, with the folders that it needs. -/
def mount (tree : FileTree) (path : String) (bytes : ByteArray) : FileTree :=
  match tree.resolve? path with
  | none => tree
  | some parts => { tree with files := tree.files.insert (joinPath parts) bytes }

/-- Whether there is a folder with these parts. A folder other than the base has a file below
it. -/
def hasFolder (tree : FileTree) (parts : List String) : Bool :=
  parts = [] ||
    tree.files.entries.any fun file => (joinPath parts ++ "/").toList.isPrefixOf file.1.toList

/-- The bytes of a file. -/
def bytes? (tree : FileTree) (path : String) : Option ByteArray :=
  (tree.resolve? path).bind fun parts => tree.files.get? (joinPath parts)

/-- Whether a path leads to a file or a folder. -/
def reaches (tree : FileTree) (path : String) : Bool :=
  (tree.bytes? path).isSome || (path ≠ "" && (tree.resolve? path).any tree.hasFolder)

/-- Reads a file as a text. -/
def readText (tree : FileTree) (path : String) : Except IoFault String :=
  match tree.bytes? path with
  | none => .error .notFound
  | some bytes =>
    match String.fromUTF8? bytes with
    | some text => .ok text
    | none => .error .notText

/-- Reads the lines of a file. -/
def readLines (tree : FileTree) (path : String) : Except IoFault (List String) :=
  (tree.readText path).map splitLines

/-- Gives a file new bytes. The folder in which it stands has to be there. -/
def write (tree : FileTree) (path : String) (bytes : ByteArray) : Except IoFault FileTree :=
  match tree.resolve? path with
  | none => .error .notFound
  | some parts =>
    if parts ≠ [] ∧ tree.hasFolder parts.dropLast then .ok (tree.mount path bytes)
    else .error .notFound

/-- Writes lines to a file. -/
def writeLines (tree : FileTree) (path : String) (lines : List String) : Except IoFault FileTree :=
  tree.write path (joinLines lines).toUTF8

/-- Makes sure that a file is there, and keeps what is in it. -/
def touch (tree : FileTree) (path : String) : Except IoFault FileTree :=
  match tree.bytes? path with
  | some _ => .ok tree
  | none => tree.write path .empty

end FileTree

end LineScript
