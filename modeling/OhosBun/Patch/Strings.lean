/-
# `OhosBun.Patch.Strings` — what the patches use of `strings` and `fmt`
-/
import OhosBun.Lib.Bytes
import OhosBun.Lib.Occurrence
import OhosBun.Semver.Version

namespace OhosBun.Patch

open OhosBun.Lib
open OhosBun.Semver (isDigit parseDigits parseWithSign)

/-- `strings::index_of_char`: the index is cast to a `u32`. -/
def indexOfChar (slice : Bytes) (char : UInt8) : Option Nat :=
  (slice.findIdx? (· = char)).map (· % 2 ^ 32)

/-- `strings::index_of` -/
def indexOf (s str : Bytes) : Option Nat := if str = [] then none else findInfix? str s

def trimLeft (s chars : Bytes) : Bytes := s.dropWhile (chars.contains ·)

def trimRight (s chars : Bytes) : Bytes := (s.reverse.dropWhile (chars.contains ·)).reverse

def trim (s chars : Bytes) : Bytes := trimRight (trimLeft s chars) chars

/-- `parse_int::<u32>`, of a radix that is given. -/
def parseInt (buf : Bytes) (radix : Nat) : Option Nat :=
  match buf with
  | [] => none
  | sign :: rest =>
    let neg := sign = 45
    let digits := if sign = 43 ∨ neg then rest else buf
    (parseWithSign radix digits).filter fun acc => if neg then acc = 0 else acc < 2 ^ 32

/-- `parse_decimal::<u32>` -/
def parseDecimal (s : Bytes) : Option Nat := parseInt s 10

theorem indexOf_le {s str : Bytes} {idx : Nat} (h : indexOf s str = some idx) :
    idx + str.length ≤ s.length := by
  rw [indexOf] at h
  split at h
  · exact absurd h (by simp)
  · exact findInfix?_le h

theorem indexOfChar_lt {slice : Bytes} {char : UInt8} {pos : Nat} (h : indexOfChar slice char = some pos) :
    pos < slice.length := by
  obtain ⟨i, hi, rfl⟩ := Option.map_eq_some_iff.mp h
  exact (Nat.mod_le _ _).trans_lt (List.findIdx?_eq_some_iff_getElem.mp hi).1

end OhosBun.Patch
