/-
# `OhosBun.Patch.Hunks` — the lines of the hunks behind the pass

`inHunk`: which lines a header before them counts.  The pass does not know the hunks: a deleted line
`-- a/old/y` is written `--- a/old/y`, which reads like the name of a file.
-/
import OhosBun.Patch.HunkHeader
import OhosBun.Patch.PostprocessLines

namespace OhosBun.Patch

open OhosBun.Lib

/-- How many lines of a hunk are still to come, and whether a line is one of them. -/
def countLine (left : Nat × Nat) (line : Bytes) : Bool × Nat × Nat :=
  match hunkLineType line, left with
  | some .context, (original + 1, patched + 1) => (true, original, patched)
  | some .deletion, (original + 1, patched) => (true, original, patched)
  | some .insertion, (original, patched + 1) => (true, original, patched)
  | some .pragma, left => (false, left)
  | some .header, _ =>
    match parseHunkHeaderLine line with
    | .ok header => (false, header.original.len, header.patched.len)
    | .error _ => (false, 0, 0)
  | _, _ => (false, 0, 0)

/-- A line belongs to the body of a hunk. -/
def inHunk : (left : Nat × Nat) → List Bytes → Nat → Bool
  | _, [], _ => false
  | left, line :: _, 0 => (countLine left line).1
  | left, line :: lines, i + 1 => inHunk (countLine left line).2 lines i

/-- The lines of the hunks are as they were, and where they were. -/
def HunksKept (stdout : Bytes) (folders : Folders) : Prop :=
  ∀ i, inHunk (0, 0) (stdout.splitOn 10) i = true →
    ((gitDiffPostprocess stdout folders).splitOn 10)[i]? = (stdout.splitOn 10)[i]?

/-- The lines of the hunks are as they were when none of them reads like the name of a file in one of
the folders. -/
theorem hunksKept_iff (stdout : Bytes) (folders : Folders) :
    HunksKept stdout folders ↔
      ∀ i line, (stdout.splitOn 10)[i]? = some line → inHunk (0, 0) (stdout.splitOn 10) i = true →
        untouched folders (i + 1 < (stdout.splitOn 10).length)
          (sawAt folders {} (stdout.splitOn 10) i) line = true := by
  have hline : ∀ i line, (stdout.splitOn 10)[i]? = some line →
      (((gitDiffPostprocess stdout folders).splitOn 10)[i]? = (stdout.splitOn 10)[i]? ↔
        untouched folders (i + 1 < (stdout.splitOn 10).length)
          (sawAt folders {} (stdout.splitOn 10) i) line = true) := fun i line hget => by
    rw [splitOn_gitDiffPostprocess, getElem?_passLines, hget, Option.map_some, Option.some_inj]
    exact passLine_eq_self_iff _ _ _
  constructor
  · intro hkept i line hget hin
    exact (hline i line hget).mp (hkept i hin)
  · intro huntouched i hin
    cases hget : (stdout.splitOn 10)[i]? with
    | some line =>
      rw [← hget]
      exact (hline i line hget).mpr (huntouched i line hget hin)
    | none => rw [splitOn_gitDiffPostprocess, getElem?_passLines, hget, Option.map_none]

/-- The diff of a file whose first line was a comment with a path. -/
def commentDiff : Bytes :=
  ascii "diff --git a/old/x.lua b/new/x.lua\n--- a/old/x.lua\n+++ b/new/x.lua\n@@ -1,2 +1 @@\n--- a/old/y\n return 1\n"

theorem not_hunksKept_commentDiff : ¬HunksKept commentDiff ⟨ascii "old", ascii "new"⟩ := by
  intro hkept
  rw [commentDiff, ascii_ofList] at hkept
  have hline := hkept 4 (by decide)
  exact absurd hline (by with_unfolding_all decide)

end OhosBun.Patch
