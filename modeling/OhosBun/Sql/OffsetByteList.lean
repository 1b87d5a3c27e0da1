/-
# `OhosBun.Sql.OffsetByteList` — the offset in the open

The SQL connections set the offset of an `OffsetByteList` themselves, and write into its bytes by
index.  Here the list is what it is: the offset may be anything, reading past the end panics
(`none`), and lengths are `u32`s that wrap.

Where the offset was moved by `consume` alone the list is the one of `Collections`
(`ofList_write`, `ofList_consume`).
-/
import OhosBun.Collections.OffsetByteList

namespace OhosBun.Sql

open OhosBun.Lib

structure OffsetByteList where
  head : Nat := 0
  byteList : Bytes := []
deriving DecidableEq

namespace OffsetByteList

def write (l : OffsetByteList) (bytes : Bytes) : OffsetByteList :=
  { l with byteList := l.byteList ++ bytes }

def remaining (l : OffsetByteList) : Option Bytes :=
  if l.head ≤ l.byteList.length then some (l.byteList.drop l.head) else none

def consume (l : OffsetByteList) (bytes : Nat) : OffsetByteList :=
  let head := Collections.OffsetByteList.saturatingAdd l.head bytes
  if l.byteList.length ≤ head then {}
  else if l.byteList.length - head ≤ head then { byteList := l.byteList.drop head }
  else { l with head }

/-- `self.byte_list.len() as u32 - self.head`. -/
def len (l : OffsetByteList) : Nat := (l.byteList.length % 2 ^ 32 + 2 ^ 32 - l.head) % 2 ^ 32

/-- `slice_mut()[index..][..data.len()].copy_from_slice(data)`. -/
def pwrite (l : OffsetByteList) (data : Bytes) (index : Nat) : Option OffsetByteList :=
  if index + data.length ≤ l.byteList.length then
    some { l with
      byteList := l.byteList.take index ++ data ++ l.byteList.drop (index + data.length) }
  else none

/-- `byte_list.truncate`. -/
def truncate (l : OffsetByteList) (len : Nat) : OffsetByteList :=
  { l with byteList := l.byteList.take len }

/-! ## Lists whose offset is in range -/

variable {l : OffsetByteList}

theorem remaining_of_le (h : l.head ≤ l.byteList.length) :
    l.remaining = some (l.byteList.drop l.head) := if_pos h

theorem len_of_lt (h : l.head ≤ l.byteList.length) (hlt : l.byteList.length < 2 ^ 32) :
    l.len = l.byteList.length - l.head := by
  rw [len, Nat.mod_eq_of_lt hlt]
  have hsum : l.byteList.length + 2 ^ 32 - l.head = l.byteList.length - l.head + 2 ^ 32 := by omega
  rw [hsum, Nat.add_mod_right]
  exact Nat.mod_eq_of_lt (by omega)

theorem len_mk_zero (bytes : Bytes) : len ⟨0, bytes⟩ = bytes.length % 2 ^ 32 := by
  rw [len, Nat.sub_zero, Nat.add_mod_right, Nat.mod_mod]

/-- What was put in front of the index and behind the data stays. -/
theorem pwrite_append (front old data back : Bytes) (h : old.length = data.length) (head : Nat) :
    pwrite ⟨head, front ++ old ++ back⟩ data front.length = some ⟨head, front ++ data ++ back⟩ := by
  rw [pwrite, if_pos (by simp only [List.length_append]; omega), List.append_assoc,
    List.take_left, ← List.append_assoc, ← h, ← List.length_append, List.drop_left]

theorem consume_of_lt {bytes : Nat} (h : l.head + bytes ≤ l.byteList.length)
    (hlt : l.byteList.length < 2 ^ 32) :
    ((l.consume bytes).head = 0 ∨ (l.consume bytes).head < (l.consume bytes).byteList.length) ∧
      (l.consume bytes).byteList.length ≤ l.byteList.length ∧
      (l.consume bytes).byteList.drop (l.consume bytes).head =
        (l.byteList.drop l.head).drop bytes := by
  have hhead : Collections.OffsetByteList.saturatingAdd l.head bytes = l.head + bytes := by
    rw [Collections.OffsetByteList.saturatingAdd]
    omega
  rw [consume, hhead, List.drop_drop]
  split_ifs with hall hfront
  · exact ⟨.inl rfl, Nat.zero_le _, (List.drop_eq_nil_of_le hall).symm⟩
  · refine ⟨.inl rfl, ?_, rfl⟩
    rw [List.length_drop]
    exact Nat.sub_le _ _
  · exact ⟨.inr (Nat.not_le.mp hall), Nat.le_refl _, rfl⟩

/-- A list of which all is taken is empty. -/
theorem consume_all (h : l.head ≤ l.byteList.length) (hlt : l.byteList.length < 2 ^ 32) :
    l.consume (l.byteList.length - l.head) = {} := by
  have hhead : Collections.OffsetByteList.saturatingAdd l.head (l.byteList.length - l.head) =
      l.byteList.length := by
    rw [Collections.OffsetByteList.saturatingAdd]
    omega
  rw [consume, hhead]
  exact if_pos (Nat.le_refl _)

/-! ## The list of `Collections` -/

/-- A list whose offset only `consume` has moved. -/
def ofList (l : Collections.OffsetByteList) : OffsetByteList := ⟨l.head, l.byteList⟩

variable (l : Collections.OffsetByteList)

theorem remaining_ofList : (ofList l).remaining = some l.remaining := remaining_of_le l.head_le

theorem ofList_write (bytes : Bytes) : ofList (l.write bytes) = (ofList l).write bytes := rfl

theorem ofList_consume (bytes : Nat) : ofList (l.consume bytes) = (ofList l).consume bytes := by
  rw [consume, Collections.OffsetByteList.consume]
  dsimp only [ofList]
  split_ifs with hall hfront
  · exact (if_pos hall).symm
  · exact ((if_neg hall).trans (if_pos hfront)).symm
  · exact ((if_neg hall).trans (if_neg hfront)).symm

end OffsetByteList

end OhosBun.Sql
