import LineScript.FileTree
import Mathlib.Data.List.Basic

/-! Lines that are written to a file are read back, unless one of them contains a line feed or ends in
a carriage return. -/

namespace LineScript

/-- A line that the end of a line behind it does not change: it has no line feed in it and no carriage
return at its end. -/
def Storable (line : List Char) : Prop :=
  '\n' ∉ line ∧ line.getLast? ≠ some '\r'

/-- A character goes to the line behind it, unless a line ends here. -/
theorem linesOf_cons {c : Char} {cs : List Char} (hc : c ≠ '\n')
    (hr : c = '\r' → cs.head? ≠ some '\n') :
    linesOf (c :: cs) =
      match linesOf cs with
      | [] => [[c]]
      | line :: rest => (c :: line) :: rest := by
  have hfeed : ∀ rest, c = '\r' → cs = '\n' :: rest → False := by
    rintro rest rfl rfl
    exact hr rfl rfl
  exact linesOf.eq_4 c cs hc hfeed

/-- Characters without a line feed go to the line behind them. -/
theorem linesOf_append_of_cons {front rest line : List Char} {later : List (List Char)}
    (hf : '\n' ∉ front) (hr : front.getLast? = some '\r' → rest.head? ≠ some '\n')
    (h : linesOf rest = line :: later) : linesOf (front ++ rest) = (front ++ line) :: later := by
  induction front with
  | nil => exact h
  | cons c cs ih =>
    have hc : c ≠ '\n' := by
      rintro rfl
      exact hf List.mem_cons_self
    have hcs : '\n' ∉ cs := fun hmem => hf (List.mem_cons_of_mem _ hmem)
    have hlater := ih hcs fun hlast => hr (by rw [List.getLast?_cons, hlast]; rfl)
    -- A carriage return is not followed by a line feed, neither in front nor at the seam.
    have hreturn : c = '\r' → (cs ++ rest).head? ≠ some '\n' := by
      rintro rfl
      cases cs with
      | nil => exact hr rfl
      | cons d ds =>
        intro hd
        apply hcs
        rw [List.cons_append, List.head?_cons, Option.some.injEq] at hd
        rw [hd]
        exact List.mem_cons_self
    rw [List.cons_append, linesOf_cons hc hreturn, hlater]
    rfl

/-- The first line of a text, up to its line feed. -/
theorem linesOf_append {line : List Char} (h : Storable line) (rest : List Char) :
    linesOf (line ++ '\n' :: rest) = line :: linesOf rest := by
  have hfeed : linesOf ('\n' :: rest) = [] :: linesOf rest := rfl
  rw [linesOf_append_of_cons h.1 (fun hlast => absurd hlast h.2) hfeed, List.append_nil]

theorem toList_joinLines_cons (line : String) (lines : List String) :
    (joinLines (line :: lines)).toList = line.toList ++ '\n' :: (joinLines lines).toList := by
  simp [joinLines]

theorem splitLines_joinLines {lines : List String} (h : ∀ line ∈ lines, Storable line.toList) :
    splitLines (joinLines lines) = lines := by
  induction lines with
  | nil => rfl
  | cons line lines ih =>
    have hlater := ih fun other hother => h other (List.mem_cons_of_mem _ hother)
    rw [splitLines, toList_joinLines_cons, linesOf_append (h line List.mem_cons_self),
      List.map_cons, String.ofList_toList]
    exact congrArg (line :: ·) hlater

theorem fromUTF8?_toUTF8 (text : String) : String.fromUTF8? text.toUTF8 = some text := by
  rw [String.fromUTF8?, String.toUTF8_eq_toByteArray, dif_pos text.isValidUTF8]
  rfl

namespace FileTree

variable {tree tree' : FileTree} {path : String}

/-- A file that can be written is there afterwards, and a path that leads to another file leads where it
led. -/
theorem bytes?_of_write {bytes : ByteArray} (h : tree.write path bytes = .ok tree') :
    tree'.bytes? path = some bytes ∧
      ∀ other, tree'.bytes? other = some bytes ∧ tree.bytes? other = tree.bytes? path ∨
        tree'.bytes? other = tree.bytes? other := by
  rw [write] at h
  cases hp : tree.resolve? path with
  | none =>
    rw [hp] at h
    cases h
  | some parts =>
    rw [hp] at h
    dsimp only at h
    split at h
    · cases h
      have hmount : tree.mount path bytes =
          { tree with files := tree.files.insert (joinPath parts) bytes } := by
        rw [mount, hp]
      -- Paths are resolved by the base of the tree, which stays.
      have hresolve (other : String) :
          (tree.mount path bytes).resolve? other = tree.resolve? other := by
        rw [hmount]
        rfl
      constructor
      · rw [bytes?, hresolve, hp, hmount]
        exact Table.get?_insert_self _ _ _
      · intro other
        rw [bytes?, bytes?, bytes?, hresolve, hmount, hp]
        cases tree.resolve? other with
        | none => exact Or.inr rfl
        | some parts' =>
          by_cases hj : joinPath parts' = joinPath parts
          · left
            rw [Option.bind_some, Option.bind_some, Option.bind_some, hj]
            exact ⟨Table.get?_insert_self _ _ _, rfl⟩
          · right
            rw [Option.bind_some, Option.bind_some]
            exact Table.get?_insert_of_ne _ hj bytes
    · cases h

theorem readLines_of_bytes? {lines : List String} (hl : ∀ line ∈ lines, Storable line.toList)
    (h : tree.bytes? path = some (joinLines lines).toUTF8) :
    tree.readLines path = .ok lines := by
  rw [readLines, readText, h]
  dsimp only
  rw [fromUTF8?_toUTF8]
  exact congrArg Except.ok (splitLines_joinLines hl)

/-- What is written is read back, and what was in another file can still be read. -/
theorem readLines_of_writeLines {lines : List String}
    (hl : ∀ line ∈ lines, Storable line.toList) (h : tree.writeLines path lines = .ok tree') :
    tree'.readLines path = .ok lines ∧
      ∀ other, tree.readLines other = .ok lines → tree'.readLines other = .ok lines := by
  obtain ⟨hself, hothers⟩ := bytes?_of_write h
  refine ⟨readLines_of_bytes? hl hself, fun other hread => ?_⟩
  rcases hothers other with ⟨hsame, _⟩ | hkept
  · exact readLines_of_bytes? hl hsame
  · rw [readLines, readText, hkept]
    exact hread

end FileTree

end LineScript
