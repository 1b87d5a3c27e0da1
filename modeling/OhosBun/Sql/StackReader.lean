/-
# `OhosBun.Sql.StackReader` — a chunk, read where it is

The reader of the SQL protocols over bytes that are not in the read buffer: a place in them, and
where the message started that is read.  It is clamped to the bytes when it skips, in both
directions; set from the start of the message it is not, and reading panics past the end (`none`).
-/
import OhosBun.Lib.Bytes

namespace OhosBun.Sql

open OhosBun.Lib

/-- A number as a `u32`. -/
def toU32 (n : Nat) : Nat := n % 2 ^ 32

theorem toU32_of_lt {n : Nat} (h : n < 2 ^ 32) : toU32 n = n := Nat.mod_eq_of_lt h

structure StackReader where
  buffer : Bytes
  offset : Nat
  messageStart : Nat
deriving DecidableEq

namespace StackReader
variable (r : StackReader)

def markMessageStart : StackReader := { r with messageStart := r.offset }

def setOffsetFromStart (offset : Nat) : StackReader := { r with offset := r.messageStart + offset }

def ensureCapacity (length : Nat) : Bool := decide (r.offset + length ≤ r.buffer.length)

def peek : Option Bytes :=
  if r.offset ≤ r.buffer.length then some (r.buffer.drop r.offset) else none

def skip (count : Int) : StackReader :=
  if count < 0 then { r with offset := r.offset - count.natAbs }
  else if r.buffer.length < r.offset + count.natAbs then { r with offset := r.buffer.length }
  else { r with offset := r.offset + count.natAbs }

/-- `none` is the error for a short read. -/
def read (count : Nat) : Option Bytes × StackReader :=
  if r.ensureCapacity count then
    (some ((r.buffer.drop r.offset).take count), { r with offset := r.offset + count })
  else (none, r)

variable {r}

theorem peek_of_le (h : r.offset ≤ r.buffer.length) : r.peek = some (r.buffer.drop r.offset) :=
  if_pos h

theorem skip_of_le {n : Nat} (h : r.offset + n ≤ r.buffer.length) :
    r.skip n = { r with offset := r.offset + n } := by
  simp only [skip, Int.natAbs_natCast]
  rw [if_neg (by omega), if_neg (Nat.not_lt.mpr h)]

theorem read_of_le {n : Nat} (h : r.offset + n ≤ r.buffer.length) :
    r.read n = (some ((r.buffer.drop r.offset).take n), { r with offset := r.offset + n }) := by
  rw [read, ensureCapacity, decide_eq_true h, if_pos rfl]

theorem read_of_lt {n : Nat} (h : r.buffer.length < r.offset + n) : r.read n = (none, r) := by
  rw [read, ensureCapacity, decide_eq_false (Nat.not_le.mpr h)]
  rfl

end StackReader

end OhosBun.Sql
