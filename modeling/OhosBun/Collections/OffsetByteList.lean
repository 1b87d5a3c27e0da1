/-
# `OhosBun.Collections.OffsetByteList` — bytes that are taken from the front

`OffsetByteList` of `vec_ext.rs`: a list and how much of it is gone already.  The bytes
that are gone are dropped from the list when they are at least as many as are left.

The offset is a `u32` that saturates: up to `2^32 - 1` bytes are taken as they should be
(`remaining_consume_of_lt`), and past that some are there again.
-/
import OhosBun.Lib.Bytes
import OhosBun.Lib.Run

namespace OhosBun.Collections

open OhosBun.Lib

@[ext]
structure OffsetByteList where
  head : Nat := 0
  byteList : Bytes := []
  head_lt : head = 0 ∨ head < byteList.length := by exact .inl rfl
deriving DecidableEq

namespace OffsetByteList

def new : OffsetByteList := {}

def write (l : OffsetByteList) (bytes : Bytes) : OffsetByteList where
  head := l.head
  byteList := l.byteList ++ bytes
  head_lt := l.head_lt.imp_right fun h => by
    rw [List.length_append]
    exact Nat.lt_add_right _ h

def remaining (l : OffsetByteList) : Bytes := l.byteList.drop l.head

def saturatingAdd (a b : Nat) : Nat := min (a + b) (2 ^ 32 - 1)

def consume (l : OffsetByteList) (bytes : Nat) : OffsetByteList :=
  let head := saturatingAdd l.head bytes
  if h : l.byteList.length ≤ head then {}
  else if l.byteList.length - head ≤ head then { byteList := l.byteList.drop head }
  else { l with head, head_lt := .inr (Nat.lt_of_not_le h) }

variable (l : OffsetByteList)

theorem head_le : l.head ≤ l.byteList.length := by
  rcases l.head_lt with hzero | hlt
  · rw [hzero]
    exact Nat.zero_le _
  · exact Nat.le_of_lt hlt

theorem length_remaining : l.remaining.length = l.byteList.length - l.head := List.length_drop

/-- Where nothing is left there is nothing at all. -/
theorem eq_empty_of_remaining (h : l.remaining = []) : l = {} := by
  have hle := List.drop_eq_nil_iff.mp h
  obtain ⟨head, byteList, head_lt⟩ := l
  rcases head_lt with rfl | hlt
  · obtain rfl := List.length_eq_zero_iff.mp (Nat.le_zero.mp hle)
    rfl
  · exact absurd hle (Nat.not_le_of_lt hlt)

@[simp] theorem remaining_empty : remaining {} = [] := rfl

@[simp] theorem remaining_write (bytes : Bytes) :
    (l.write bytes).remaining = l.remaining ++ bytes :=
  List.drop_append_of_le_length l.head_le

theorem write_nil : l.write [] = l := OffsetByteList.ext rfl (List.append_nil _)

theorem write_write (bytes bytes' : Bytes) :
    (l.write bytes).write bytes' = l.write (bytes ++ bytes') :=
  OffsetByteList.ext rfl (List.append_assoc _ _ _)

/-- Bytes that were gone are back once the offset is at its bound. -/
theorem remaining_consume (bytes : Nat) :
    (l.consume bytes).remaining = l.byteList.drop (saturatingAdd l.head bytes) := by
  rw [consume]
  split_ifs with hall hfront
  · exact (List.drop_eq_nil_of_le hall).symm
  · rfl
  · rfl

variable {l}

theorem remaining_consume_of_lt {bytes : Nat} (h : l.head + bytes < 2 ^ 32) :
    (l.consume bytes).remaining = l.remaining.drop bytes := by
  rw [remaining_consume, saturatingAdd, Nat.min_eq_left (Nat.le_sub_one_of_lt h), remaining,
    List.drop_drop]

/-- While more is left than is gone only the offset changes. -/
theorem consume_of_lt {bytes : Nat} (h : saturatingAdd l.head bytes <
    l.byteList.length - saturatingAdd l.head bytes) :
    (l.consume bytes).head = saturatingAdd l.head bytes ∧
      (l.consume bytes).byteList = l.byteList := by
  have hlt : ¬ l.byteList.length ≤ saturatingAdd l.head bytes := by omega
  rw [consume, dif_neg hlt, if_neg (Nat.not_le_of_lt h)]
  exact ⟨rfl, rfl⟩

/-- The offset is kept only while more is left than is gone. -/
theorem head_consume (bytes : Nat) : (l.consume bytes).head = 0 ∨
    (l.consume bytes).head < (l.consume bytes).remaining.length := by
  rw [consume]
  split_ifs with hall hfront
  · exact .inl rfl
  · exact .inl rfl
  · refine .inr ?_
    rw [length_remaining]
    exact Nat.lt_of_not_le hfront

theorem length_consume_le (bytes : Nat) :
    (l.consume bytes).byteList.length ≤ l.byteList.length := by
  rw [consume]
  split_ifs with hall hfront
  · exact Nat.zero_le _
  · rw [List.length_drop]
    exact Nat.sub_le _ _
  · exact Nat.le_refl _

theorem length_write (bytes : Bytes) :
    (l.write bytes).byteList.length = l.byteList.length + bytes.length := List.length_append

/-! ## Runs -/

inductive Op
  | write (bytes : Bytes)
  | consume (bytes : Nat)

def perform (l : OffsetByteList) : Op → OffsetByteList
  | .write bytes => l.write bytes
  | .consume bytes => l.consume bytes

/-- The bytes that are left. -/
def left (bytes : Bytes) : Op → Bytes
  | .write more => bytes ++ more
  | .consume n => bytes.drop n

/-- The offset is not at its bound. -/
def Admits (l : OffsetByteList) : Op → Prop
  | .write _ => True
  | .consume bytes => l.head + bytes < 2 ^ 32

/-- The bytes that were written and not consumed remain, and take up half of the list at least. -/
theorem run_remaining (ops : List Op) (h : Along perform Admits new ops) :
    (ops.foldl perform new).remaining = ops.foldl left [] ∧
      (ops.foldl perform new).byteList.length ≤ 2 * (ops.foldl left []).length := by
  have hrun : (ops.foldl perform new).remaining = ops.foldl left [] ∧ ((ops.foldl perform new).head = 0 ∨
      (ops.foldl perform new).head < (ops.foldl perform new).remaining.length) := by
    refine foldl_of_along (R := fun l bytes => l.remaining = bytes ∧
      (l.head = 0 ∨ l.head < l.remaining.length)) ?_ ops ⟨rfl, .inl rfl⟩ h
    rintro l _ op ⟨rfl, hhead⟩ hop
    cases op with
    | write bytes =>
      refine ⟨l.remaining_write bytes, hhead.imp_right fun hlt => ?_⟩
      rw [perform, remaining_write, List.length_append]
      exact Nat.lt_add_right _ hlt
    | consume bytes => exact ⟨remaining_consume_of_lt hop, head_consume bytes⟩
  obtain ⟨hleft, hhead⟩ := hrun
  rw [← hleft]
  have hlength := (ops.foldl perform new).length_remaining
  exact ⟨rfl, by omega⟩

theorem run_remaining_one : (List.foldl perform new [.write [1, 2], .consume 1]).remaining = [2] ∧
    (List.foldl perform new [.write [1, 2], .consume 1]).byteList.length ≤ 2 * 1 :=
  run_remaining [.write [1, 2], .consume 1] ⟨trivial, show 0 + 1 < 2 ^ 32 by decide, trivial⟩

end OffsetByteList

end OhosBun.Collections
