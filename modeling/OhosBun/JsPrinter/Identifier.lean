/-
# `OhosBun.JsPrinter.Identifier` — names made into identifiers

`MutableString::ensure_valid_identifier` puts one underscore for each run of code points that
cannot be in an identifier, and in front of a strict mode reserved word.  Whatever it is given,
there is something left to print (`ensureValidIdentifier_ne_nil`).

The Unicode tables of `identifier.rs` are not written out here (`UnicodeTables`).
-/
import OhosBun.JsPrinter.NameMinifier
import OhosBun.SourceMap.Wtf8

namespace OhosBun.JsPrinter

open OhosBun.Lib

/-- `is_id_start_es_next` and `is_id_continue_es_next`, for code points that are not ASCII. -/
structure UnicodeTables where
  isIdStartEsNext : Nat → Bool
  isIdContinueEsNext : Nat → Bool

/-! ## Code points -/

/-- `CodepointIterator::next`: the code point that a text starts with, and its width. -/
def nextCodepoint (tail : Bytes) : Int × Nat :=
  let first := tail.getD 0 0
  if first < 0x80 then (first.toNat, 1)
  else
    let (cp, len) := SourceMap.readRune tail (-1)
    -- What does not decode is a replacement character.
    if cp = -1 then (0xFFFD, 1) else (cp, len)

/-- All code points of a text of so many bytes at most, each with its bytes. -/
def codepoints : (fuel : Nat) → Bytes → List (Int × Bytes)
  | 0, _ => []
  | fuel + 1, tail =>
    if tail = [] then []
    else
      let (c, width) := nextCodepoint tail
      (c, tail.take width) :: codepoints fuel (tail.drop width)

def asciiLetter (c : Int) : Bool := (0x61 ≤ c && c ≤ 0x7A) || (0x41 ≤ c && c ≤ 0x5A)

def asciiDigit (c : Int) : Bool := 0x30 ≤ c && c ≤ 0x39

section Identifier
variable (unicode : UnicodeTables)

def isIdentifierStart (c : Int) : Bool :=
  if asciiLetter c || c = 0x5F || c = 0x24 then true
  else if c ≤ 0x7F || 0x10FFFF ≤ c then false
  else unicode.isIdStartEsNext c.toNat

def isIdentifierPart (c : Int) : Bool :=
  if asciiLetter c || asciiDigit c || c = 0x5F || c = 0x24 then true
  else if c ≤ 0x7F || 0x10FFFF ≤ c then false
  else unicode.isIdContinueEsNext c.toNat

/-! ## Making a name valid -/

/-- `STRICT_MODE_RESERVED_WORDS` -/
def strictModeReservedWords : List Name :=
  ["implements", "interface", "let", "package", "private", "protected", "public", "static",
    "yield"].map ascii

def isStrictModeReservedWord (s : Name) : Bool := strictModeReservedWords.contains s

def strictModeReservedWordRemap (s : Name) : Option Name :=
  if isStrictModeReservedWord s then some (ascii "_" ++ s) else none

/-- The name so far, and whether a gap is open; one underscore closes it. -/
def fillGap (s : Name × Bool) (codepoint : Int × Bytes) : Name × Bool :=
  if isIdentifierPart unicode codepoint.1 then
    ((if s.2 then s.1 ++ ascii "_" else s.1) ++ codepoint.2, false)
  else (s.1, true)

def ensureValidIdentifier (str : Name) : Name :=
  match codepoints str.length str with
  | [] => ascii "_"
  | (first, bytes) :: rest =>
    let valid := rest.takeWhile fun codepoint => isIdentifierPart unicode codepoint.1
    if isIdentifierStart unicode first && valid.length = rest.length then
      (strictModeReservedWordRemap str).getD str
    else
      -- the first letter can be a non-identifier start
      let startI := if isIdentifierStart unicode first then
          bytes.length + (valid.flatMap (·.2)).length
        else 0
      let items := str.drop startI
      let (mutableString, needsGap) := (codepoints items.length items).foldl (fillGap unicode)
        (if startI = 0 then ascii "_" else str.take startI, false)
      -- If it ends with an emoji
      if needsGap then mutableString ++ ascii "_" else mutableString

def isSimpleAsciiIdentifier : Name → Bool
  | [] => false
  | first :: rest =>
    (asciiLetter first.toNat || first = 0x5F || first = 0x24) &&
      rest.all fun c => asciiLetter c.toNat || asciiDigit c.toNat || c = 0x5F || c = 0x24

/-- `None` when it already is one. -/
def validIdentifierFor (name : Name) : Option Name :=
  if isSimpleAsciiIdentifier name && !isStrictModeReservedWord name then none
  else some (ensureValidIdentifier unicode name)

theorem foldl_fillGap_ne_nil (items : List (Int × Bytes)) {s : Name × Bool} (h : s.1 ≠ []) :
    (items.foldl (fillGap unicode) s).1 ≠ [] := by
  induction items generalizing s with
  | nil => exact h
  | cons item items ih =>
    refine ih ?_
    rw [fillGap]
    split
    · split
      · simp [ascii]
      · simp [h]
    · exact h

theorem strictModeReservedWordRemap_getD_ne_nil {str : Name} (h : str ≠ []) :
    (strictModeReservedWordRemap str).getD str ≠ [] := by
  rw [strictModeReservedWordRemap]
  split
  · simp [h]
  · exact h

theorem ensureValidIdentifier_ne_nil (str : Name) : ensureValidIdentifier unicode str ≠ [] := by
  have hne : ∀ n, codepoints n str ≠ [] → str ≠ [] := by
    rintro n h rfl
    cases n with
    | zero => exact h rfl
    | succ n => exact h rfl
  rw [ensureValidIdentifier]
  split
  · simp [ascii]
  next first bytes rest hcodepoints =>
    have hstr : str ≠ [] := hne str.length (by rw [hcodepoints]; exact List.cons_ne_nil _ _)
    dsimp only
    split
    · exact strictModeReservedWordRemap_getD_ne_nil hstr
    · generalize (if isIdentifierStart unicode first then _ else 0) = startI
      have hstart : (if startI = 0 then ascii "_" else str.take startI) ≠ [] := by
        split
        · simp [ascii]
        next h => simp [h, hstr]
      generalize (if startI = 0 then ascii "_" else str.take startI) = start at hstart
      have hfold := foldl_fillGap_ne_nil unicode
        (codepoints (str.drop startI).length (str.drop startI)) (s := (start, false)) hstart
      split
      · exact List.append_ne_nil_of_left_ne_nil hfold _
      · exact hfold

/-- What a symbol of that name is first tried as. -/
def normalized (name : Name) : Name := (validIdentifierFor unicode name).getD name

theorem normalized_ne_nil (name : Name) : normalized unicode name ≠ [] := by
  rw [normalized, validIdentifierFor]
  split
  next h =>
    rintro rfl
    exact absurd h (by decide)
  next => exact ensureValidIdentifier_ne_nil unicode name

end Identifier

end OhosBun.JsPrinter
