/-
# `OhosBun.Patch.GitPatch` — the patches that git writes

A patch is a list of files that are created, deleted or changed (`GitFile`), each with its hunks; the
names of its lines are those of the source (`GitFile.lines`), and every line has a line end
(`patchText`).

git has no diff of a file of 1023 MiB or more: lines, and the numbers of lines, are far below `2 ^ 32`.
-/
import OhosBun.Patch.Parser

namespace OhosBun.Patch

open OhosBun.Lib
open OhosBun.Semver (decimal)

/-- The path of a file: it is not empty, and no whitespace is around it. -/
structure FilePath where
  bytes : Bytes
  ne_nil : bytes ≠ []
  no_line_end : 10 ∉ bytes
  head_not_whitespace : ∀ c ∈ bytes.head?, c ∉ whitespace
  last_not_whitespace : ∀ c ∈ bytes.getLast?, c ∉ whitespace
  length_lt : bytes.length < 2 ^ 30

/-- A line of the original, of the patched file, or of both. -/
structure GitLine where
  ty : PartType
  text : Bytes
  /-- The last line of a file can have no line end. -/
  noNewlineAtEndOfFile : Bool
  no_line_end : 10 ∉ text
  length_lt : text.length < 2 ^ 30

def PartType.sign : PartType → UInt8
  | context => 32
  | insertion => 43
  | deletion => 45

def GitLine.lines (l : GitLine) : List Bytes :=
  (l.ty.sign :: l.text) :: if l.noNewlineAtEndOfFile then [ascii "\\ No newline at end of file"] else []

/-- How many lines of the original and of the patched file a line is. -/
def PartType.counts : PartType → Nat × Nat
  | context => (1, 1)
  | insertion => (0, 1)
  | deletion => (1, 0)

/-- The lines of the original and of the patched file. -/
def bodyCounts (body : List GitLine) : Nat × Nat := (body.map fun l => l.ty.counts).sum

structure GitHunk where
  originalStart : Nat
  patchedStart : Nat
  /-- What is behind the ranges: a function, say. -/
  heading : Bytes
  body : List GitLine
  originalStart_lt : originalStart < 2 ^ 30
  patchedStart_lt : patchedStart < 2 ^ 30
  original_lt : (bodyCounts body).1 < 2 ^ 30
  patched_lt : (bodyCounts body).2 < 2 ^ 30
  no_line_end : 10 ∉ heading
  length_lt : heading.length < 2 ^ 30

/-- `start,len`; a length of one is not written. -/
def rangeText (start len : Nat) : Bytes := decimal start ++ if len = 1 then [] else [44] ++ decimal len

def GitHunk.headerLine (h : GitHunk) : Bytes :=
  ascii "@@ -" ++ (rangeText h.originalStart (bodyCounts h.body).1 ++
    (ascii " +" ++ (rangeText h.patchedStart (bodyCounts h.body).2 ++ (ascii " @@" ++ h.heading))))

def GitHunk.lines (h : GitHunk) : List Bytes := h.headerLine :: h.body.flatMap GitLine.lines

def FileMode.text : FileMode → Bytes
  | nonExecutable => ascii "100644"
  | executable => ascii "100755"

/-- What is done with a file. -/
inductive FileChange where
  | creation (mode : FileMode)
  | deletion (mode : FileMode)
  | change (modes : Option (FileMode × FileMode))
deriving DecidableEq

def FileChange.modeLines : FileChange → List Bytes
  | creation mode => [Marker.newFileMode.text ++ mode.text]
  | deletion mode => [Marker.deletedFileMode.text ++ mode.text]
  | change (some (oldMode, newMode)) => [Marker.oldMode.text ++ oldMode.text, Marker.newMode.text ++ newMode.text]
  | change none => []

structure GitFile where
  path : FilePath
  what : FileChange
  /-- The line with the hashes. -/
  index : Option Bytes
  /-- A tab is written behind a name that has blanks. -/
  tab : Bool
  hunks : List GitHunk
  index_no_line_end : ∀ text ∈ index, 10 ∉ text
  index_length_lt : ∀ text ∈ index, text.length < 2 ^ 30
  hunks_ne_nil : hunks ≠ []

/-- A change of a mode is a part for itself. -/
def changeNames (path : Bytes) : Option (FileMode × FileMode) → List Bytes
  | some (oldMode, newMode) => if oldMode ≠ newMode then [path, path] else [path]
  | none => [path]

namespace GitFile
variable (f : GitFile)

def diffLine : Bytes := ascii "diff --git a/" ++ (f.path.bytes ++ (ascii " b/" ++ f.path.bytes))

/-- A name in a header, or no file. -/
def nameText (side : Bytes) (none : Bool) : Bytes :=
  if none then ascii "/dev/null" else side ++ (f.path.bytes ++ if f.tab then [9] else [])

def fromLine : Bytes :=
  Marker.fromPath.text ++ f.nameText (ascii "a/") (match f.what with | .creation _ => true | _ => false)

def toLine : Bytes :=
  Marker.toPath.text ++ f.nameText (ascii "b/") (match f.what with | .deletion _ => true | _ => false)

def headerLines : List Bytes :=
  f.diffLine :: f.what.modeLines ++ (f.index.toList.map (Marker.index.text ++ ·) ++ [f.fromLine, f.toLine])

def lines : List Bytes := f.headerLines ++ f.hunks.flatMap GitHunk.lines

/-- The names of the parts that a file is to have: its own, each time. -/
def names : List Bytes :=
  match f.what with
  | .creation _ | .deletion _ => [f.path.bytes]
  | .change modes => changeNames f.path.bytes modes

end GitFile

def patchLines (files : List GitFile) : List Bytes := files.flatMap GitFile.lines

def patchText (files : List GitFile) : Bytes := (patchLines files).flatMap (· ++ [10])

/-- The path that a part names; a rename names two. -/
def PatchFilePart.names : PatchFilePart → List Bytes
  | filePatch path .. => [path]
  | fileDeletion path .. => [path]
  | fileCreation path .. => [path]
  | fileRename fromPath toPath => [fromPath, toPath]
  | fileModeChange path .. => [path]

/-! ## Its lines are lines -/

/-- A line that is read as one. -/
def IsLine (line : Bytes) : Prop := 10 ∉ line ∧ line.length < 2 ^ 32

theorem isLine_append {a b : Bytes} (ha : 10 ∉ a) (hb : 10 ∉ b) (hlength : a.length + b.length < 2 ^ 32) :
    IsLine (a ++ b) :=
  ⟨fun h => (List.mem_append.mp h).elim ha hb, by rwa [List.length_append]⟩

end OhosBun.Patch
