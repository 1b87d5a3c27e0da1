/-
# `OhosBun.Patch.Postprocess` — the names of two folders are taken out of a diff

`git_diff_postprocess`: the text is edited in place, line after line.  A line of a change is left
alone, as far as its first bytes tell (`shouldSkipLine`); from the others what precedes the path in
a folder is taken out, and the line is looked at again, or left.
-/
import OhosBun.Patch.Strings

namespace OhosBun.Patch

open OhosBun.Lib

/-- `Vec::drain` -/
def drain (bytes : Bytes) (start stop : Nat) : Bytes := bytes.take start ++ bytes.drop stop

def shouldSkipLine (line : Bytes) : Bool :=
  match line with
  | [] => true
  | first :: _ =>
    (first = 32 || first = 45 || first = 43) &&
      -- line like: "--- a/numbers.txt" or "+++ b/numbers.txt" we should not skip
      !(ascii "--- ").isPrefixOf line && !(ascii "+++ ").isPrefixOf line

/-- The names of the folders. -/
structure Folders where
  old : Bytes
  new : Bytes

namespace Folders
variable (folders : Folders)

/-- `a_old_folder_slash` -/
def aOldFolderSlash : Bytes := ascii "a/" ++ trim folders.old [47] ++ [47]

/-- `b_new_folder_slash` -/
def bNewFolderSlash : Bytes := ascii "b/" ++ trim folders.new [47] ++ [47]

end Folders

/-- `saw_a_folder` and `saw_b_folder`, whether they are of the line; what was seen before the line
index changed is forgotten then. -/
structure Saw where
  a : Bool := false
  b : Bool := false
deriving DecidableEq

/-- What is taken out of a line, and whether it is looked at again. -/
structure Cut where
  start : Nat
  length : Nat
  again : Bool
  saw : Saw
deriving DecidableEq

/-- The name with a slash behind it, where the name is first. -/
def nameSlash (line name : Bytes) : Option Nat :=
  (indexOf line name).filter fun idx => (line)[idx + name.length]? = some 47

/-- The first of the substitutions that a line has. -/
def cut (folders : Folders) (saw : Saw) (line : Bytes) : Option Cut :=
  if shouldSkipLine line then none
  else
    match indexOf line folders.aOldFolderSlash with
    | some idx => some ⟨idx + 2, (trim folders.old [47]).length + 1, true, { saw with a := true }⟩
    | none =>
    match indexOf line folders.bNewFolderSlash with
    | some idx => some ⟨idx + 2, (trim folders.new [47]).length + 1, false, { saw with b := true }⟩
    | none =>
    match if saw.a then none else nameSlash line folders.old with
    | some idx => some ⟨idx, folders.old.length + 1, true, { saw with a := true }⟩
    | none =>
    match if saw.b then none else nameSlash line folders.new with
    | some idx => some ⟨idx, folders.new.length + 1, true, { saw with b := true }⟩
    | none => none

structure Pass where
  stdout : Bytes
  cursor : Nat := 0
  saw : Saw := {}
deriving DecidableEq

/-- A turn of the loop, and whether there is another one. -/
def turn (folders : Folders) (p : Pass) : Pass × Bool :=
  let lineStart := p.cursor
  let (lineEnd, nextCursor, exhausted) :=
    match indexOfChar (p.stdout.drop p.cursor) 10 with
    | some pos => (p.cursor + pos, p.cursor + pos + 1, false)
    | none => (p.stdout.length, p.stdout.length, true)
  let line := (p.stdout.take lineEnd).drop lineStart
  match cut folders p.saw line with
  | some c =>
    ({ stdout := drain p.stdout (lineStart + c.start) (lineStart + c.start + c.length)
       cursor := if c.again then lineStart else nextCursor - c.length
       saw := c.saw }, true)
  | none =>
    if exhausted then ({ p with saw := {} }, false)
    else ({ p with cursor := nextCursor, saw := {} }, true)

/-! ## The pass ends -/

theorem nameSlash_lt {line name : Bytes} {idx : Nat} (h : nameSlash line name = some idx) :
    idx + name.length < line.length := by
  rw [nameSlash, Option.filter_eq_some_iff] at h
  exact (List.getElem?_eq_some_iff.mp (of_decide_eq_true h.2)).1

/-- What is taken out is in the line. -/
theorem cut_le {folders : Folders} {saw : Saw} {line : Bytes} {c : Cut}
    (h : cut folders saw line = some c) : 0 < c.length ∧ c.start + c.length ≤ line.length := by
  rw [cut] at h
  split at h
  · exact absurd h (by simp)
  split at h
  · rename_i idx hidx
    obtain rfl := Option.some.inj h
    have hle := indexOf_le hidx
    have hlen : folders.aOldFolderSlash.length = 2 + (trim folders.old [47]).length + 1 := by
      rw [Folders.aOldFolderSlash, List.length_append, List.length_append]
      rfl
    exact ⟨Nat.succ_pos _, by dsimp only; omega⟩
  split at h
  · rename_i idx hidx
    obtain rfl := Option.some.inj h
    have hle := indexOf_le hidx
    have hlen : folders.bNewFolderSlash.length = 2 + (trim folders.new [47]).length + 1 := by
      rw [Folders.bNewFolderSlash, List.length_append, List.length_append]
      rfl
    exact ⟨Nat.succ_pos _, by dsimp only; omega⟩
  split at h
  · rename_i idx hidx
    obtain rfl := Option.some.inj h
    split at hidx
    · exact absurd hidx (by simp)
    · exact ⟨Nat.succ_pos _, nameSlash_lt hidx⟩
  split at h
  · rename_i idx hidx
    obtain rfl := Option.some.inj h
    split at hidx
    · exact absurd hidx (by simp)
    · exact ⟨Nat.succ_pos _, nameSlash_lt hidx⟩
  · exact absurd h (by simp)

theorem length_drain {bytes : Bytes} {start length : Nat} (h : start + length ≤ bytes.length) :
    (drain bytes start (start + length)).length = bytes.length - length := by
  rw [drain, List.length_append, List.length_take, List.length_drop]
  omega

/-- A line is cut, or the cursor is behind it. -/
theorem turn_lt {folders : Folders} {p p' : Pass} (hcursor : p.cursor ≤ p.stdout.length)
    (h : turn folders p = (p', true)) :
    p'.stdout.length - p'.cursor < p.stdout.length - p.cursor := by
  have hcut : ∀ {lineEnd nextCursor c}, lineEnd ≤ p.stdout.length → lineEnd ≤ nextCursor →
      cut folders p.saw ((p.stdout.take lineEnd).drop p.cursor) = some c →
      (drain p.stdout (p.cursor + c.start) (p.cursor + c.start + c.length)).length -
        (if c.again then p.cursor else nextCursor - c.length) < p.stdout.length - p.cursor := by
    intro lineEnd nextCursor c hend hnext hc
    obtain ⟨hpos, hle⟩ := cut_le hc
    rw [List.length_drop, List.length_take, Nat.min_eq_left hend] at hle
    rw [length_drain (by omega)]
    split <;> omega
  rw [turn] at h
  cases hchar : indexOfChar (p.stdout.drop p.cursor) 10 with
  | some pos =>
    rw [hchar] at h
    have hpos := indexOfChar_lt hchar
    rw [List.length_drop] at hpos
    dsimp only at h
    split at h
    · rename_i c hc
      obtain rfl := (Prod.mk.inj h).1
      exact hcut (by omega) (Nat.le_succ _) hc
    · obtain rfl := (Prod.mk.inj h).1
      dsimp only
      omega
  | none =>
    rw [hchar] at h
    dsimp only at h
    split at h
    · rename_i c hc
      obtain rfl := (Prod.mk.inj h).1
      exact hcut le_rfl le_rfl hc
    · exact absurd (Prod.mk.inj h).2 (by simp)

/-- The loop. -/
def Pass.run (folders : Folders) (p : Pass) : Bytes :=
  if _hcursor : p.cursor ≤ p.stdout.length then
    match _hturn : turn folders p with
    | (p, true) => p.run folders
    | (p, false) => p.stdout
  else p.stdout
termination_by p.stdout.length - p.cursor
decreasing_by exact turn_lt _hcursor _hturn

def gitDiffPostprocess (stdout : Bytes) (folders : Folders) : Bytes := (Pass.mk stdout 0 {}).run folders

end OhosBun.Patch
