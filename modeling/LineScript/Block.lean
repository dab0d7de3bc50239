/-!
Blocks of lines: a header, a body, and the terminator that closes it.
-/

namespace LineScript

/-- The three kinds of block. -/
inductive BlockKind where
  | ifBlock
  | forBlock
  | macroBlock
deriving Repr, DecidableEq

/-- The word that opens a block. -/
def BlockKind.keyword : BlockKind → String
  | .ifBlock => "IF"
  | .forBlock => "FOR"
  | .macroBlock => "MACRO"

/-- The line that closes a block. -/
def BlockKind.terminator : BlockKind → String
  | .ifBlock => "END IF"
  | .forBlock => "END FOR"
  | .macroBlock => "END MACRO"

/-- The body of a block among the lines after its header: everything before the first line that
is exactly the terminator, or everything if there is none. A block of the same kind inside the
body is therefore closed by the same terminator. -/
def BlockKind.body (kind : BlockKind) (rest : List String) : List String :=
  rest.takeWhile (· ≠ kind.terminator)

/-- The number of lines a block with the given body takes, with its header and its terminator. A
missing terminator is counted too. -/
def blockSpan (body : List String) : Nat :=
  body.length + 2

/-- A block body together with its kind. -/
structure Block where
  kind : BlockKind
  body : List String
deriving Repr, DecidableEq

/-- Where a block stands in a list of lines. -/
structure Extent where
  kind : BlockKind
  header : Nat
  /-- The body is the lines from `start` up to, but without, `stop`. -/
  start : Nat
  stop : Nat
deriving Repr, DecidableEq

namespace Extent

/-- Finds the block of the given kind whose header has the given index. -/
def locate (lines : List String) (header : Nat) (kind : BlockKind) : Extent where
  kind := kind
  header := header
  start := header + 1
  stop := header + 1 + (kind.body (lines.drop (header + 1))).length

/-- The number of lines in the body. -/
def size (e : Extent) : Nat :=
  e.stop - e.start

/-- The number of lines in the block. -/
def span (e : Extent) : Nat :=
  e.size + 2

/-- The block that stands there, if the body ends within the lines. -/
def block? (e : Extent) (lines : List String) : Option Block :=
  if e.stop ≤ lines.length then some ⟨e.kind, (lines.drop e.start).take e.size⟩ else none

end Extent

end LineScript
