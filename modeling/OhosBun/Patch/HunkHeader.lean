/-
# `OhosBun.Patch.HunkHeader` — the header of a hunk, and what a line of it is
-/
import OhosBun.Patch.Strings

namespace OhosBun.Patch

open OhosBun.Lib
open OhosBun.Semver (isDigit)

/-- `ParseErr` -/
inductive ParseErr where
  | unrecognizedPragma
  | noNewlineAtEofPragmaEncounteredWithoutContext
  | hunkLinesEncounteredBeforeHunkHeader
  | hunkHeaderIntegrityCheckFailed
  | badDiffLine
  | badHeaderLine
  | renameFromAndToNotGive
  | noPathGivenForFileDeletion
  | noPathGivenForFileCreation
  | badFileMode
deriving DecidableEq

def whitespace : Bytes := [32, 9, 10, 13]

/-- `start` and `len` are `u32`. -/
structure HeaderRange where
  start : Nat := 1
  len : Nat := 0
deriving DecidableEq

structure Header where
  original : HeaderRange := {}
  patched : HeaderRange := {}
deriving DecidableEq

/-- What is left of a line behind a range: the `rest` starts at the blank. -/
structure HunkHeaderLineImpl where
  lineNr : Nat
  lineCount : Nat
  rest : Bytes
deriving DecidableEq

def parseHunkHeaderLineImpl (text : Bytes) : Except ParseErr HunkHeaderLineImpl :=
  let result (lineNr lineNrCount rest : Bytes) : Except ParseErr HunkHeaderLineImpl :=
    match parseDecimal lineNr, parseDecimal lineNrCount with
    | some lineNr, some lineNrCount => .ok ⟨max 1 lineNr, lineNrCount, rest⟩
    | _, _ => .error .badHeaderLine
  let lineNr := text.takeWhile isDigit
  match text.dropWhile isDigit with
  | [] => .error .badHeaderLine
  | _ :: [] => .error .badHeaderLine
  | c :: text =>
    if c = 32 then result lineNr (ascii "1") (c :: text)
    else if c = 44 then
      match text.dropWhile isDigit with
      | 32 :: rest => result lineNr (text.takeWhile isDigit) (32 :: rest)
      | _ => .error .badHeaderLine
    else .error .badHeaderLine

/-- The header that a line is. -/
def parseHunkHeaderLine (line : Bytes) : Except ParseErr Header :=
  match trim line whitespace with
  -- `@@ -`
  | 64 :: 64 :: 32 :: 45 :: line =>
    if line = [] then .error .badHeaderLine
    else do
      let firstResult ← parseHunkHeaderLineImpl line
      match firstResult.rest with
      | _ :: 43 :: line =>
        let secondResult ← parseHunkHeaderLineImpl line
        match secondResult.rest with
        | 32 :: 64 :: 64 :: _ =>
          .ok ⟨⟨firstResult.lineNr, firstResult.lineCount⟩, ⟨secondResult.lineNr, secondResult.lineCount⟩⟩
        | _ => .error .badHeaderLine
      | _ => .error .badHeaderLine
  | _ => .error .badHeaderLine

inductive HunkLineType where
  | context
  | insertion
  | deletion
  | header
  | pragma
deriving DecidableEq

/-- `hunk_line_type`; blank lines are context. -/
def hunkLineType : Bytes → Option HunkLineType
  | [] => some .context
  | c :: _ =>
    if c = 64 then some .header
    else if c = 45 then some .deletion
    else if c = 43 then some .insertion
    else if c = 32 then some .context
    else if c = 92 then some .pragma
    else if c = 13 then some .context
    else none

end OhosBun.Patch
