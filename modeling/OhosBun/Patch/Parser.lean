/-
# `OhosBun.Patch.Parser` — a patch file is parsed

`parse_patch_file`: the lines are read one by one, in the header of a file or in its hunks
(`PatchLinesParser`), and what was found about each file is made the parts of the patch
(`patchFileSecondPass`).
-/
import OhosBun.Patch.HunkHeader

namespace OhosBun.Patch

open OhosBun.Lib

inductive PartType where
  | context
  | insertion
  | deletion
deriving DecidableEq

structure PatchMutationPart where
  ty : PartType
  lines : List Bytes := []
  noNewlineAtEndOfFile : Bool := false
deriving DecidableEq

structure Hunk where
  header : Header := {}
  parts : List PatchMutationPart := []
deriving DecidableEq

/-- How many lines of the original and of the patched file the parts have. -/
def lineCounts (parts : List PatchMutationPart) : Nat × Nat :=
  parts.foldl (fun (original, patched) part =>
    match part.ty with
    | .context => (original + part.lines.length, patched + part.lines.length)
    | .insertion => (original, patched + part.lines.length)
    | .deletion => (original + part.lines.length, patched)) (0, 0)

def Hunk.verifyIntegrity (hunk : Hunk) : Bool :=
  lineCounts hunk.parts = (hunk.header.original.len, hunk.header.patched.len)

structure FileDeets where
  diffLineFromPath : Option Bytes := none
  diffLineToPath : Option Bytes := none
  oldMode : Option Bytes := none
  newMode : Option Bytes := none
  deletedFileMode : Option Bytes := none
  newFileMode : Option Bytes := none
  renameFrom : Option Bytes := none
  renameTo : Option Bytes := none
  beforeHash : Option Bytes := none
  afterHash : Option Bytes := none
  fromPath : Option Bytes := none
  toPath : Option Bytes := none
  hunks : List Hunk := []
deriving DecidableEq

/-- `nullify!` -/
def nullify (field : Option Bytes) : Option Bytes := field.filter (· ≠ [])

def FileDeets.nullifyEmptyStrings (file : FileDeets) : FileDeets where
  diffLineFromPath := nullify file.diffLineFromPath
  diffLineToPath := nullify file.diffLineToPath
  oldMode := nullify file.oldMode
  newMode := nullify file.newMode
  deletedFileMode := nullify file.deletedFileMode
  newFileMode := nullify file.newFileMode
  renameFrom := nullify file.renameFrom
  renameTo := nullify file.renameTo
  beforeHash := nullify file.beforeHash
  afterHash := nullify file.afterHash
  fromPath := nullify file.fromPath
  toPath := nullify file.toPath
  hunks := file.hunks

/-! ## The lines of a header -/

/-- What a line of a header starts with, in the order that they are looked for. -/
inductive Marker where
  | hunk
  | diff
  | oldMode
  | newMode
  | deletedFileMode
  | newFileMode
  | renameFrom
  | renameTo
  | index
  | fromPath
  | toPath
deriving DecidableEq

def Marker.text : Marker → Bytes
  | hunk => ascii "@@"
  | diff => ascii "diff --git "
  | oldMode => ascii "old mode "
  | newMode => ascii "new mode "
  | deletedFileMode => ascii "deleted file mode "
  | newFileMode => ascii "new file mode "
  | renameFrom => ascii "rename from "
  | renameTo => ascii "rename to "
  | index => ascii "index "
  | fromPath => ascii "--- "
  | toPath => ascii "+++ "

def Marker.all : List Marker :=
  [hunk, diff, oldMode, newMode, deletedFileMode, newFileMode, renameFrom, renameTo, index, fromPath, toPath]

def markerOf (line : Bytes) : Option Marker := Marker.all.find? (·.text.isPrefixOf line)

/-- The place of the `b` of the first ` b/`, as the scan from `i` finds it. -/
def startOfBPart (rest : Bytes) (i : Nat) : Option Nat :=
  match _hstart : indexOfChar (rest.drop i) 98 with
  | none => none
  | some start =>
    let i := i + start
    if 0 < i ∧ rest[i - 1]? = some 32 ∧ rest[i + 1]? = some 47 then some i
    else startOfBPart rest (i + 1)
termination_by rest.length - i
decreasing_by
  have hlt := indexOfChar_lt _hstart
  rw [List.length_drop] at hlt
  omega

def parseDiffLinePaths (line : Bytes) : Option (Bytes × Bytes) :=
  if (ascii "diff --git a/").isPrefixOf line then
    let rest := line.drop 13
    (startOfBPart rest 0).map fun i => (rest.take (i - 1), trimRight (rest.drop (i + 2)) whitespace)
  else none

/-- `[0-9a-zA-Z_]` -/
def isHashChar (c : UInt8) : Bool :=
  48 ≤ c && c ≤ 57 || 97 ≤ c && c ≤ 122 || 65 ≤ c && c ≤ 90 || c = 95

def parseDiffHashes (line : Bytes) : Option (Bytes × Bytes) := do
  let delimiterStart ← indexOf line (ascii "..")
  let aPart := line.take delimiterStart
  let rest := line.drop (delimiterStart + 2)
  let bPart := rest.takeWhile fun c => !(ascii " \n\r\t").contains c
  if !aPart.all isHashChar || rest = [] || !bPart.all isHashChar then none
  else some (aPart, bPart)

/-! ## The lines of a file -/

inductive ParserState where
  | parsingHeader
  | parsingHunks
deriving DecidableEq

structure PatchLinesParser where
  result : List FileDeets := []
  currentFilePatch : FileDeets := {}
  state : ParserState := .parsingHeader
  currentHunk : Option Hunk := none
  currentHunkMutationPart : Option PatchMutationPart := none
deriving DecidableEq

namespace PatchLinesParser
variable (p : PatchLinesParser)

def commitHunk : PatchLinesParser :=
  match p.currentHunk with
  | some hunk =>
    { p with
      currentFilePatch := { p.currentFilePatch with
        hunks := p.currentFilePatch.hunks ++
          [{ hunk with parts := hunk.parts ++ p.currentHunkMutationPart.toList }] }
      currentHunk := none
      currentHunkMutationPart := none }
  | none => p

def commitFilePatch : PatchLinesParser :=
  let p := p.commitHunk
  { p with result := p.result ++ [p.currentFilePatch.nullifyEmptyStrings], currentFilePatch := {} }

/-- A line of a header, and whether the iterator goes back to it. -/
def onHeaderLine (line : Bytes) : Except ParseErr (PatchLinesParser × Bool) :=
  let f := p.currentFilePatch
  -- what is behind the marker, trimmed
  let value (marker : Marker) := some (trim (line.drop marker.text.length) whitespace)
  let found (f : FileDeets) : Except ParseErr (PatchLinesParser × Bool) :=
    .ok ({ p with currentFilePatch := f }, false)
  match markerOf line with
  | none => .ok (p, false)
  | some .hunk => .ok ({ p with state := .parsingHunks, currentFilePatch := { f with hunks := [] } }, true)
  | some .diff =>
    let p := if f.diffLineFromPath.isSome then p.commitFilePatch else p
    match parseDiffLinePaths line with
    | none => .error .badDiffLine
    | some m =>
      .ok ({ p with currentFilePatch :=
        { p.currentFilePatch with diffLineFromPath := some m.1, diffLineToPath := some m.2 } }, false)
  | some .oldMode => found { f with oldMode := value .oldMode }
  | some .newMode => found { f with newMode := value .newMode }
  | some .deletedFileMode => found { f with deletedFileMode := value .deletedFileMode }
  | some .newFileMode => found { f with newFileMode := value .newFileMode }
  | some .renameFrom => found { f with renameFrom := value .renameFrom }
  | some .renameTo => found { f with renameTo := value .renameTo }
  | some .index =>
    match parseDiffHashes (line.drop Marker.index.text.length) with
    | none => .ok (p, false)
    | some hashes => found { f with beforeHash := some hashes.1, afterHash := some hashes.2 }
  -- `--- a/` and `+++ b/`
  | some .fromPath => found { f with fromPath := some (trim (line.drop 6) whitespace) }
  | some .toPath => found { f with toPath := some (trim (line.drop 6) whitespace) }

/-- A line of a hunk is pushed: to the part of the lines before it, when it is of their type. -/
def pushLine (hunk : Hunk) (ty : PartType) (line : Bytes) : PatchLinesParser :=
  match p.currentHunkMutationPart with
  | some part =>
    if part.ty = ty then
      { p with currentHunkMutationPart := some { part with lines := part.lines ++ [line] } }
    else
      { p with
        currentHunk := some { hunk with parts := hunk.parts ++ [part] }
        currentHunkMutationPart := some { ty := ty, lines := [line] } }
  | none => { p with currentHunkMutationPart := some { ty := ty, lines := [line] } }

def onHunkLine (supportLegacyDiffs : Bool) (line : Bytes) : Except ParseErr (PatchLinesParser × Bool) :=
  let bail : Except ParseErr (PatchLinesParser × Bool) :=
    .ok ({ p with state := .parsingHeader }.commitFilePatch, true)
  let push (ty : PartType) : Except ParseErr (PatchLinesParser × Bool) :=
    match p.currentHunk with
    | none => .error .hunkLinesEncounteredBeforeHunkHeader
    | some hunk => .ok (p.pushLine hunk ty (line.drop 1), false)
  if supportLegacyDiffs && (ascii "--- a/").isPrefixOf line then bail
  else
    match hunkLineType line with
    | none => bail
    | some .header => do
      let header ← parseHunkHeaderLine line
      .ok ({ p.commitHunk with currentHunk := some { header := header } }, false)
    | some .pragma =>
      if !(ascii "\\ No newline at end of file").isPrefixOf line then .error .unrecognizedPragma
      else
        match p.currentHunkMutationPart with
        | none => .error .noNewlineAtEofPragmaEncounteredWithoutContext
        | some part =>
          .ok ({ p with currentHunkMutationPart := some { part with noNewlineAtEndOfFile := true } }, false)
    | some .context => push .context
    | some .insertion => push .insertion
    | some .deletion => push .deletion

def onLine (supportLegacyDiffs : Bool) (line : Bytes) : Except ParseErr (PatchLinesParser × Bool) :=
  match p.state with
  | .parsingHeader => p.onHeaderLine line
  | .parsingHunks => p.onHunkLine supportLegacyDiffs line

/-- A line, and once more where the iterator goes back: a line that made the state another does not
make it another again (`onLine_back`). -/
def next (supportLegacyDiffs : Bool) (line : Bytes) : Except ParseErr PatchLinesParser := do
  let (p, back) ← p.onLine supportLegacyDiffs line
  if back then
    let (p, _) ← p.onLine supportLegacyDiffs line
    return p
  else return p

variable {p} {legacy : Bool} {line : Bytes} {q : PatchLinesParser}

theorem markerOf_hunk (h : markerOf line = some .hunk) : ∃ rest, line = 64 :: 64 :: rest := by
  have htext : Marker.hunk.text = [64, 64] := by decide
  have hpre := List.find?_some (p := fun m : Marker => m.text.isPrefixOf line) h
  obtain ⟨rest, rfl⟩ := List.isPrefixOf_iff_prefix.mp hpre
  exact ⟨rest, by rw [htext]; rfl⟩

theorem onHeaderLine_back (h : p.onHeaderLine line = .ok (q, true)) :
    markerOf line = some .hunk ∧ q.state = .parsingHunks := by
  rw [onHeaderLine] at h
  cases hmarker : markerOf line with
  | none =>
    rw [hmarker] at h
    exact absurd (Prod.mk.inj (Except.ok.inj h)).2 (by simp)
  | some m =>
    rw [hmarker] at h
    cases m with
    | hunk => exact ⟨rfl, by rw [← (Prod.mk.inj (Except.ok.inj h)).1]⟩
    | diff =>
      dsimp only at h
      split at h
      · exact absurd h (by simp)
      · exact absurd (Prod.mk.inj (Except.ok.inj h)).2 (by simp)
    | index =>
      dsimp only at h
      split at h
      · exact absurd (Prod.mk.inj (Except.ok.inj h)).2 (by simp)
      · exact absurd (Prod.mk.inj (Except.ok.inj h)).2 (by simp)
    | _ => exact absurd (Prod.mk.inj (Except.ok.inj h)).2 (by simp)

theorem onHunkLine_back (h : p.onHunkLine legacy line = .ok (q, true)) :
    q.state = .parsingHeader ∧ markerOf line ≠ some .hunk := by
  have hbail : ({ p with state := .parsingHeader }.commitFilePatch).state = .parsingHeader := by
    rcases p with ⟨_, _, _, _ | hunk, _⟩ <;> rfl
  have hpush : ∀ ty, (match p.currentHunk with
      | none => .error .hunkLinesEncounteredBeforeHunkHeader
      | some hunk => .ok (p.pushLine hunk ty (line.drop 1), false)) ≠
        (.ok (q, true) : Except ParseErr (PatchLinesParser × Bool)) := fun ty h => by
    split at h
    · exact absurd h (by simp)
    · exact absurd (Prod.mk.inj (Except.ok.inj h)).2 (by simp)
  rw [onHunkLine] at h
  split at h
  · rename_i hlegacy
    refine ⟨by rw [← (Prod.mk.inj (Except.ok.inj h)).1]; exact hbail, fun hmarker => ?_⟩
    obtain ⟨rest, rfl⟩ := markerOf_hunk hmarker
    have hopening : ascii "--- a/" = 45 :: (ascii "--- a/").tail := by decide
    rw [hopening, List.isPrefixOf_cons_cons] at hlegacy
    exact absurd hlegacy (by simp)
  · split at h
    · rename_i htype
      refine ⟨by rw [← (Prod.mk.inj (Except.ok.inj h)).1]; exact hbail, fun hmarker => ?_⟩
      obtain ⟨rest, rfl⟩ := markerOf_hunk hmarker
      contradiction
    · cases hheader : parseHunkHeaderLine line with
      | error e =>
        rw [hheader] at h
        contradiction
      | ok header =>
        rw [hheader] at h
        exact absurd (Prod.mk.inj (Except.ok.inj h)).2 (by simp)
    · split at h
      · exact absurd h (by simp)
      · split at h
        · exact absurd h (by simp)
        · exact absurd (Prod.mk.inj (Except.ok.inj h)).2 (by simp)
    · exact absurd h (hpush _)
    · exact absurd h (hpush _)
    · exact absurd h (hpush _)

/-- The iterator goes back to a line once. -/
theorem onLine_back (h : p.onLine legacy line = .ok (q, true)) {r : PatchLinesParser} :
    q.onLine legacy line ≠ .ok (r, true) := by
  intro hagain
  rw [onLine] at h hagain
  cases hstate : p.state with
  | parsingHeader =>
    rw [hstate] at h
    obtain ⟨hmarker, hq⟩ := onHeaderLine_back h
    rw [hq] at hagain
    exact (onHunkLine_back hagain).2 hmarker
  | parsingHunks =>
    rw [hstate] at h
    obtain ⟨hq, hmarker⟩ := onHunkLine_back h
    rw [hq] at hagain
    exact hmarker (onHeaderLine_back hagain).1

theorem onLine_back_hunk : ({ state := .parsingHunks } : PatchLinesParser).onLine false [64, 64] ≠ .ok ({}, true) :=
  onLine_back (p := {}) (by decide)

end PatchLinesParser

/-- `ScalarSplitIter`, of line ends. -/
def scalarSplit (buffer : Bytes) : List Bytes :=
  match _hpos : indexOfChar buffer 10 with
  | some pos => buffer.take pos :: scalarSplit (buffer.drop (pos + 1))
  | none => [buffer]
termination_by buffer.length
decreasing_by
  have hlt := indexOfChar_lt _hpos
  rw [List.length_drop]
  omega

/-- `PatchLinesParser::parse`; the last line end is none. -/
def parse (file : Bytes) (supportLegacyDiffs : Bool) : Except ParseErr (List FileDeets) :=
  let file := if file.getLast? = some 10 then file.dropLast else file
  if file = [] then .ok []
  else do
    let p ← (scalarSplit file).foldlM (fun p line => p.next supportLegacyDiffs line) ({} : PatchLinesParser)
    let files := p.commitFilePatch.result
    if files.all fun file => file.hunks.all Hunk.verifyIntegrity then .ok files
    else .error .hunkHeaderIntegrityCheckFailed

/-! ## The parts -/

inductive FileMode where
  | nonExecutable
  | executable
deriving DecidableEq

def FileMode.fromU32 (mode : Nat) : Option FileMode :=
  if mode = 0o644 then some .nonExecutable
  else if mode = 0o755 then some .executable
  else none

def parseFileMode (mode : Bytes) : Option FileMode :=
  (parseInt mode 8).bind fun parsedMode => FileMode.fromU32 (parsedMode &&& 0o777)

inductive PatchFilePart where
  | filePatch (path : Bytes) (hunks : List Hunk) (beforeHash afterHash : Option Bytes)
  | fileDeletion (path : Bytes) (mode : FileMode) (hunk : Option Hunk) (hash : Option Bytes)
  | fileCreation (path : Bytes) (mode : FileMode) (hunk : Option Hunk) (hash : Option Bytes)
  | fileRename (fromPath toPath : Bytes)
  | fileModeChange (path : Bytes) (oldMode newMode : FileMode)
deriving DecidableEq

/-- A field that is there and not empty. -/
def filled (field : Option Bytes) : Bool := field.any (· ≠ [])

def orErr {α : Type} (value : Option α) (e : ParseErr) : Except ParseErr α := value.elim (.error e) .ok

def modeChange (file : FileDeets) (path : Option Bytes) : Except ParseErr (List PatchFilePart) :=
  match path, file.oldMode, file.newMode with
  | some path, some oldMode, some newMode =>
    if oldMode ≠ newMode then do
      let oldMode ← orErr (parseFileMode oldMode) .badFileMode
      let newMode ← orErr (parseFileMode newMode) .badFileMode
      .ok [.fileModeChange path oldMode newMode]
    else .ok []
  | _, _, _ => .ok []

/-- What a file has at its `destination_file_path`: a change of its mode, and its hunks. -/
def changeParts (file : FileDeets) (path : Option Bytes) : Except ParseErr (List PatchFilePart) := do
  let modes ← modeChange file path
  match path with
  | some path =>
    if file.hunks ≠ [] then .ok (modes ++ [.filePatch path file.hunks file.beforeHash file.afterHash])
    else .ok modes
  | none => .ok modes

/-- A turn of `patch_file_second_pass`. -/
def fileParts (file : FileDeets) : Except ParseErr (List PatchFilePart) :=
  if filled file.renameFrom then
    match file.renameFrom, file.renameTo with
    | some fromPath, some toPath => do
      let parts ← changeParts file (some toPath)
      return .fileRename fromPath toPath :: parts
    | _, _ => .error .renameFromAndToNotGive
  else if filled file.deletedFileMode then do
    let path ← orErr (file.diffLineFromPath.or file.fromPath) .noPathGivenForFileDeletion
    let mode ← orErr (file.deletedFileMode.bind parseFileMode) .badFileMode
    return [.fileDeletion path mode file.hunks.head? file.beforeHash]
  else if filled file.newFileMode then do
    let path ← orErr (file.diffLineToPath.or file.toPath) .noPathGivenForFileCreation
    let mode ← orErr (file.newFileMode.bind parseFileMode) .badFileMode
    return [.fileCreation path mode file.hunks.head? file.afterHash]
  else changeParts file (file.toPath.or file.diffLineToPath)

def patchFileSecondPass (files : List FileDeets) : Except ParseErr (List PatchFilePart) := do
  let parts ← files.mapM fileParts
  return parts.flatten

def parsePatchFile (file : Bytes) : Except ParseErr (List PatchFilePart) :=
  match parse file false with
  | .ok files => patchFileSecondPass files
  | .error .hunkHeaderIntegrityCheckFailed => do patchFileSecondPass (← parse file true)
  | .error err => .error err

end OhosBun.Patch
