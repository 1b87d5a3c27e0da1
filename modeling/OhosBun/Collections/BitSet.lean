/-
# `OhosBun.Collections.BitSet` — the bit set of a length known at run time

`DynamicBitSetUnmanaged` keeps a set of numbers below `bit_length` in words of 64
bits.  The bits of the last word that are past the length are padding, and every
operation leaves them zero: counting, comparing and iterating depend on it.

A set stands for a finite set of numbers (`Shows`).  The words of the allocation
may be more than those of the set: an allocator may refuse to shrink it.
-/
import Mathlib.Data.Finset.Card
import Mathlib.Order.Interval.Finset.Nat
import OhosBun.Lib.BitArray

namespace OhosBun.Collections

open OhosBun.Lib

/-! ## Words -/

/-- `usize::MAX` if `value`, else `0`. -/
def boolMaskUsize (value : Bool) : BitVec 64 := if value then BitVec.allOnes 64 else 0

/-- The bit within a word. -/
def wordMaskBit (index : Nat) : BitVec 64 := (1 : BitVec 64) <<< (index % 64)

/-- The word that holds the bit. -/
def wordMaskIndex (index : Nat) : Nat := index >>> 6

def numMasks (bitLength : Nat) : Nat := (bitLength + 63) / 64

/-- The padding bits of the last word become zero. -/
def clearPadding (bitLength : Nat) (masks : List (BitVec 64)) : List (BitVec 64) :=
  let paddingBits := numMasks bitLength * 64 - bitLength
  let lastItemMask := BitVec.allOnes 64 >>> paddingBits
  masks.modify (numMasks bitLength - 1) (· &&& lastItemMask)

structure Range where
  start : Nat
  stop : Nat
  deriving DecidableEq

def setRangeValueMasks (masks : List (BitVec 64)) (range : Range) (value : Bool) : List (BitVec 64) :=
  if range.start = range.stop then masks
  else
    let startMaskIndex := wordMaskIndex range.start
    let startBit := range.start % 64
    let endMaskIndex := wordMaskIndex range.stop
    let endBit := range.stop % 64
    if startMaskIndex = endMaskIndex then
      masks.modify startMaskIndex fun mask =>
        let mask1 := boolMaskUsize true <<< startBit
        let mask2 := boolMaskUsize true >>> (63 - (endBit - 1))
        let mask := mask &&& ~~~(mask1 &&& mask2)
        let mask1 := boolMaskUsize value <<< startBit
        let mask2 := boolMaskUsize value >>> (63 - (endBit - 1))
        mask ||| (mask1 &&& mask2)
    else
      let masks := if startBit > 0 then
          masks.modify startMaskIndex fun mask =>
            (mask &&& ~~~(boolMaskUsize true <<< startBit)) ||| (boolMaskUsize value <<< startBit)
        else masks
      let bulkMaskIndex := if startBit > 0 then startMaskIndex + 1 else startMaskIndex
      let masks :=
        overwrite masks bulkMaskIndex (List.replicate (endMaskIndex - bulkMaskIndex) (boolMaskUsize value))
      if endBit > 0 then
        masks.modify endMaskIndex fun mask =>
          (mask &&& (boolMaskUsize true <<< endBit)) ||| (boolMaskUsize value >>> (63 - (endBit - 1)))
      else masks

/-! ## The set -/

structure DynamicBitSetUnmanaged where
  bitLength : Nat
  /-- the words of the allocation, behind its length -/
  masks : List (BitVec 64)
  deriving DecidableEq

namespace DynamicBitSetUnmanaged

inductive AllocError
  | allocError
  deriving DecidableEq

/-- What the allocator answers, and what stands in the words it adds. -/
structure Heap where
  grants : Bool
  uninit : BitVec 64
  deriving DecidableEq

section Operations

/-- `Default::default`. -/
def empty : DynamicBitSetUnmanaged := ⟨0, []⟩

def masksSlice (s : DynamicBitSetUnmanaged) : List (BitVec 64) := s.masks.take (numMasks s.bitLength)

/-- A write through `masks_slice_mut`. -/
def onMasks (s : DynamicBitSetUnmanaged) (f : List (BitVec 64) → List (BitVec 64)) :
    DynamicBitSetUnmanaged := { s with masks := overwrite s.masks 0 (f s.masksSlice) }

def zipMasksRaw (s other : DynamicBitSetUnmanaged) (f : BitVec 64 → BitVec 64 → BitVec 64) :
    DynamicBitSetUnmanaged :=
  s.onMasks fun masks => List.zipWith f masks (other.masks.take (numMasks s.bitLength))

/-- The length that stands in front of the words; the empty set has no allocation. -/
def allocLen (s : DynamicBitSetUnmanaged) : Nat := if s.masks = [] then 0 else s.masks.length + 1

/-- The block `'realloc` of `resize`: the words of an allocation for so many. -/
def realloc (heap : Heap) (s : DynamicBitSetUnmanaged) (newMasks : Nat) :
    Except AllocError (List (BitVec 64)) :=
  if s.allocLen = newMasks + 1 then .ok s.masks
  else if heap.grants then
    .ok (s.masks.take newMasks ++ List.replicate (newMasks - s.masks.length) heap.uninit)
  else if newMasks + 1 > s.allocLen then .error .allocError
  -- the allocator does not want to move the allocation
  else .ok s.masks

/-- The part of `resize` for a set that grows: the new bits are set to the fill value. -/
def fillNew (masks : List (BitVec 64)) (oldLen newLen : Nat) (fill : Bool) : List (BitVec 64) :=
  let oldMasks := numMasks oldLen
  let newMasks := numMasks newLen
  let masks :=
    if fill ∧ oldMasks > 0 then
      let oldPaddingBits := oldMasks * 64 - oldLen
      let oldMask := BitVec.allOnes 64 >>> oldPaddingBits
      masks.modify (oldMasks - 1) (· ||| ~~~oldMask)
    else masks
  if newMasks > oldMasks then
    overwrite masks oldMasks (List.replicate (newMasks - oldMasks) (boolMaskUsize fill))
  else masks

def resize (heap : Heap) (s : DynamicBitSetUnmanaged) (newLen : Nat) (fill : Bool) :
    Except AllocError DynamicBitSetUnmanaged :=
  if numMasks newLen = 0 then .ok empty
  else do
    let masks ← s.realloc heap (numMasks newLen)
    let masks := if newLen > s.bitLength then fillNew masks s.bitLength newLen fill else masks
    .ok ⟨newLen, clearPadding newLen masks⟩

def initEmpty (heap : Heap) (bitLength : Nat) : Except AllocError DynamicBitSetUnmanaged :=
  resize heap empty bitLength false

def clone (heap : Heap) (s : DynamicBitSetUnmanaged) : Except AllocError DynamicBitSetUnmanaged := do
  let copy ← resize heap empty s.bitLength false
  .ok (copy.onMasks fun _ => s.masksSlice)

def isSet (s : DynamicBitSetUnmanaged) (index : Nat) : Option Bool :=
  if index < s.bitLength then
    (s.masksSlice[wordMaskIndex index]?).map fun mask => mask &&& wordMaskBit index != 0
  else none

/-- A word of eight bytes, the lowest first. -/
def wordOfBytes (bytes : List (BitVec 8)) : BitVec 64 :=
  bytes.foldr (fun byte word => word <<< 8 ||| byte.setWidth 64) 0

/-- `cast_slice`, for as many words. -/
def wordsOfBytes : (n : Nat) → List (BitVec 8) → List (BitVec 64)
  | 0, _ => []
  | n + 1, bytes => wordOfBytes (bytes.take 8) :: wordsOfBytes n (bytes.drop 8)

def fromBytes (heap : Heap) (bitLength : Nat) (bytes : List (BitVec 8)) :
    Except AllocError (Option DynamicBitSetUnmanaged) := do
  let set ← initEmpty heap bitLength
  let n := set.masksSlice.length
  if bytes.length ≠ n * 8 then .ok none
  else
    let set := set.onMasks fun _ => wordsOfBytes n bytes
    if n > 0 then .ok (some (set.onMasks (clearPadding bitLength))) else .ok (some set)

/-- The total number of set bits. -/
def count (s : DynamicBitSetUnmanaged) : Nat :=
  s.masksSlice.foldl (fun total mask => total + mask.cpop.toNat) 0

def set (s : DynamicBitSetUnmanaged) (index : Nat) : Option DynamicBitSetUnmanaged :=
  if index < s.bitLength then
    some (s.onMasks fun masks => masks.modify (wordMaskIndex index) (· ||| wordMaskBit index))
  else none

def unset (s : DynamicBitSetUnmanaged) (index : Nat) : Option DynamicBitSetUnmanaged :=
  if index < s.bitLength then
    some (s.onMasks fun masks => masks.modify (wordMaskIndex index) (· &&& ~~~wordMaskBit index))
  else none

/-- Changes the value of all bits in the range. -/
def setRangeValue (s : DynamicBitSetUnmanaged) (range : Range) (value : Bool) :
    Option DynamicBitSetUnmanaged :=
  if range.stop ≤ s.bitLength ∧ range.start ≤ range.stop then
    some (s.onMasks fun masks => setRangeValueMasks masks range value)
  else none

def setAll (s : DynamicBitSetUnmanaged) (value : Bool) : DynamicBitSetUnmanaged :=
  if s.bitLength = 0 then s
  else (s.onMasks fun masks => masks.map fun _ => boolMaskUsize value).onMasks (clearPadding s.bitLength)

/-- Flips every bit. -/
def toggleAll (s : DynamicBitSetUnmanaged) : DynamicBitSetUnmanaged :=
  -- avoid underflow if the length is zero
  if s.bitLength = 0 then s
  else (s.onMasks fun masks => masks.map fun mask => ~~~mask).onMasks (clearPadding s.bitLength)

/-- An operation on two sets of one length. -/
def zipMasks (s other : DynamicBitSetUnmanaged) (f : BitVec 64 → BitVec 64 → BitVec 64) :
    Option DynamicBitSetUnmanaged :=
  if other.bitLength = s.bitLength then some (s.zipMasksRaw other f) else none

def setUnion (s other : DynamicBitSetUnmanaged) : Option DynamicBitSetUnmanaged :=
  s.zipMasks other fun a b => a ||| b

def setIntersection (s other : DynamicBitSetUnmanaged) : Option DynamicBitSetUnmanaged :=
  s.zipMasks other fun a b => a &&& b

def setExclude (s other : DynamicBitSetUnmanaged) : Option DynamicBitSetUnmanaged :=
  s.zipMasks other fun a b => a &&& ~~~b

/-- The loop of `find_first_set`. -/
def findFirstSetFrom : (offset : Nat) → List (BitVec 64) → Option Nat
  | _, [] => none
  | offset, mask :: masks =>
    if mask ≠ 0 then some (offset + mask.ctz.toNat) else findFirstSetFrom (offset + 64) masks

/-- The index of the first set bit. -/
def findFirstSet (s : DynamicBitSetUnmanaged) : Option Nat := findFirstSetFrom 0 s.masksSlice

def eql (s other : DynamicBitSetUnmanaged) : Bool :=
  if s.bitLength ≠ other.bitLength then false else s.masksSlice == other.masksSlice

def subsetOf (s other : DynamicBitSetUnmanaged) : Bool :=
  if s.bitLength ≠ other.bitLength then false
  else (s.masksSlice.zip other.masksSlice).all fun (a, b) => a &&& b == a

end Operations

end DynamicBitSetUnmanaged

/-! ## The finite set of a bit set -/

theorem numMasks_mul_ge (n : Nat) : n ≤ numMasks n * 64 := by
  unfold numMasks
  omega

variable {n k i : Nat} {masks : List (BitVec 64)} {range : Range}

theorem numMasks_pos (h : 0 < n) : 0 < numMasks n := by
  unfold numMasks
  omega

theorem wordMaskIndex_eq (index : Nat) : wordMaskIndex index = index / 64 := by
  rw [wordMaskIndex, Nat.shiftRight_eq_div_pow]

theorem getLsbD_boolMaskUsize (value : Bool) (hk : k < 64) :
    (boolMaskUsize value).getLsbD k = value := by
  cases value with
  | true => rw [boolMaskUsize, if_pos rfl, BitVec.getLsbD_allOnes, decide_eq_true hk]
  | false => exact BitVec.getLsbD_zero

theorem getLsbD_wordMaskBit (index : Nat) (hk : k < 64) :
    (wordMaskBit index).getLsbD k = decide (k = index % 64) := by
  have hlt : index % 64 < 64 := Nat.mod_lt _ (by decide)
  rw [wordMaskBit, BitVec.getLsbD_shiftLeft, decide_eq_true hk, Bool.true_and]
  by_cases heq : k = index % 64
  · simp [heq]
  · by_cases hless : k < index % 64
    · simp [heq, hless]
    · have hpos : k - index % 64 ≠ 0 := by omega
      simp [heq, hless, hpos, BitVec.getLsbD_one]

theorem getLsbD_shiftLeft_boolMask (value : Bool) (s : Nat) (hk : k < 64) :
    (boolMaskUsize value <<< s).getLsbD k = (value && decide (s ≤ k)) := by
  rw [BitVec.getLsbD_shiftLeft, decide_eq_true hk, Bool.true_and, getLsbD_boolMaskUsize _ (by omega)]
  by_cases hs : s ≤ k
  · simp [hs]
  · simp [hs, Nat.not_le.mp hs]

theorem getLsbD_ushiftRight_boolMask (value : Bool) {e : Nat} (he : 0 < e) (he' : e ≤ 64) (hk : k < 64) :
    (boolMaskUsize value >>> (63 - (e - 1))).getLsbD k = (value && decide (k < e)) := by
  rw [BitVec.getLsbD_ushiftRight]
  by_cases hlt : k < e
  · rw [getLsbD_boolMaskUsize _ (by omega), decide_eq_true hlt, Bool.and_true]
  · rw [decide_eq_false hlt, Bool.and_false]
    exact BitVec.getLsbD_of_ge _ _ (by omega)

theorem getLsbD_ushiftRight_allOnes (s : Nat) :
    (BitVec.allOnes 64 >>> s).getLsbD k = decide (s + k < 64) := by
  rw [BitVec.getLsbD_ushiftRight, BitVec.getLsbD_allOnes]

theorem length_clearPadding (n : Nat) (masks : List (BitVec 64)) :
    (clearPadding n masks).length = masks.length := List.length_modify _ _ _

/-- The bits that are left by `clearPadding`. -/
theorem bitAt_clearPadding (hn : 0 < n) (hlen : numMasks n ≤ masks.length) (hi : i < numMasks n * 64) :
    bitAt (clearPadding n masks) i = (bitAt masks i && decide (i < n)) := by
  have hpos := numMasks_pos hn
  have hbound : n ≤ numMasks n * 64 ∧ numMasks n * 64 < n + 64 := by
    unfold numMasks
    omega
  rw [clearPadding, bitAt_modify (by omega)]
  by_cases hlast : i / 64 = numMasks n - 1
  · have hget := bitAt_getElem masks i (by omega)
    simp only [if_pos hlast, BitVec.getLsbD_and, getLsbD_ushiftRight_allOnes]
    rw [← hget]
    simp only [hlast]
    congr 1
    rw [decide_eq_decide]
    omega
  · rw [if_neg hlast, decide_eq_true (by omega), Bool.and_true]

/-- The bits of the first word of a range, which starts within it. -/
theorem bitAt_rangeStart {start : Nat} (value : Bool) (hstart : start / 64 < masks.length)
    (hi : i < masks.length * 64) :
    bitAt (masks.modify (start / 64) fun mask =>
        (mask &&& ~~~(boolMaskUsize true <<< (start % 64))) ||| (boolMaskUsize value <<< (start % 64))) i =
      if start ≤ i ∧ i < (start / 64 + 1) * 64 then value else bitAt masks i := by
  have hget := bitAt_getElem _ i (div_lt_length hi)
  have hmod : i % 64 < 64 := Nat.mod_lt _ (by decide)
  rw [bitAt_modify hstart]
  by_cases hword : i / 64 = start / 64
  · simp only [if_pos hword, BitVec.getLsbD_or, BitVec.getLsbD_and, BitVec.getLsbD_not,
      getLsbD_shiftLeft_boolMask _ _ hmod, decide_eq_true hmod, Bool.true_and]
    rw [← hget]
    simp only [hword]
    by_cases hin : start % 64 ≤ i % 64
    · rw [if_pos (by omega), decide_eq_true hin]
      cases value <;> simp
    · rw [if_neg (by omega), decide_eq_false hin]
      simp
  · rw [if_neg hword, if_neg (by omega)]

/-- The bits of the last word of a range, which ends within it. -/
theorem bitAt_rangeEnd {stop : Nat} (value : Bool) (hpos : 0 < stop % 64)
    (hstop : stop / 64 < masks.length) (hi : i < masks.length * 64) :
    bitAt (masks.modify (stop / 64) fun mask =>
        (mask &&& (boolMaskUsize true <<< (stop % 64))) ||| (boolMaskUsize value >>> (63 - (stop % 64 - 1)))) i =
      if stop / 64 * 64 ≤ i ∧ i < stop then value else bitAt masks i := by
  have hget := bitAt_getElem _ i (div_lt_length hi)
  have hmod : i % 64 < 64 := Nat.mod_lt _ (by decide)
  rw [bitAt_modify hstop]
  by_cases hword : i / 64 = stop / 64
  · simp only [if_pos hword, BitVec.getLsbD_or, BitVec.getLsbD_and, getLsbD_shiftLeft_boolMask _ _ hmod,
      getLsbD_ushiftRight_boolMask _ hpos (by omega : stop % 64 ≤ 64) hmod, Bool.true_and]
    rw [← hget]
    simp only [hword]
    by_cases hin : i % 64 < stop % 64
    · rw [if_pos (by omega), decide_eq_true hin, decide_eq_false (by omega)]
      simp
    · rw [if_neg (by omega), decide_eq_false hin, decide_eq_true (by omega)]
      simp
  · rw [if_neg hword, if_neg (by omega)]

/-- The bits of a range are written. -/
theorem bitAt_setRangeValueMasks (value : Bool) (hle : range.start ≤ range.stop)
    (hend : range.stop ≤ masks.length * 64) (hi : i < masks.length * 64) :
    bitAt (setRangeValueMasks masks range value) i =
      if range.start ≤ i ∧ i < range.stop then value else bitAt masks i := by
  have hget := bitAt_getElem _ i (div_lt_length hi)
  have hmod : i % 64 < 64 := Nat.mod_lt _ (by decide)
  rw [setRangeValueMasks]
  by_cases hempty : range.start = range.stop
  · rw [if_pos hempty, if_neg (by omega)]
  simp only [if_neg hempty, wordMaskIndex_eq]
  by_cases hsame : range.start / 64 = range.stop / 64
  · -- one word, in which the range ends behind its start
    have hbits : range.start % 64 < range.stop % 64 := by omega
    rw [if_pos hsame, bitAt_modify (by omega)]
    by_cases hword : i / 64 = range.start / 64
    · simp only [if_pos hword, BitVec.getLsbD_or, BitVec.getLsbD_and, BitVec.getLsbD_not,
        getLsbD_shiftLeft_boolMask _ _ hmod,
        getLsbD_ushiftRight_boolMask _ (e := range.stop % 64) (by omega) (by omega) hmod,
        decide_eq_true hmod, Bool.true_and]
      rw [← hget]
      simp only [hword]
      by_cases hin : range.start ≤ i ∧ i < range.stop
      · rw [if_pos hin, decide_eq_true (by omega : range.start % 64 ≤ i % 64),
          decide_eq_true (by omega : i % 64 < range.stop % 64)]
        cases value <;> simp
      · rw [if_neg hin]
        have hout : ¬ (range.start % 64 ≤ i % 64 ∧ i % 64 < range.stop % 64) := by omega
        rw [not_and_or] at hout
        rcases hout with hout | hout
        · simp [hout]
        · simp [hout]
    · rw [if_neg hword, if_neg (by omega)]
  · rw [if_neg hsame]
    have hstart : range.start / 64 < masks.length := by omega
    -- the first word, those that are filled, and the last word
    obtain ⟨bulk, hbulk⟩ : ∃ bulk, bulk =
        if range.start % 64 > 0 then range.start / 64 + 1 else range.start / 64 := ⟨_, rfl⟩
    obtain ⟨masks₁, hmasks₁⟩ : ∃ masks₁, masks₁ =
        if range.start % 64 > 0 then
          masks.modify (range.start / 64) fun mask =>
            (mask &&& ~~~(boolMaskUsize true <<< (range.start % 64))) |||
              (boolMaskUsize value <<< (range.start % 64))
        else masks := ⟨_, rfl⟩
    have hlen₁ : masks₁.length = masks.length := by
      rw [hmasks₁]
      split
      · exact List.length_modify _ _ _
      · rfl
    have h₁ : bitAt masks₁ i = if range.start ≤ i ∧ i < bulk * 64 then value else bitAt masks i := by
      rw [hmasks₁, hbulk]
      split
      · exact bitAt_rangeStart value hstart hi
      · rw [if_neg (by omega)]
    have hbulkLe : bulk ≤ range.stop / 64 ∧ range.start ≤ bulk * 64 := by
      rw [hbulk]
      split <;> omega
    have hfill : bulk + (List.replicate (range.stop / 64 - bulk) (boolMaskUsize value)).length ≤
        masks₁.length := by
      rw [List.length_replicate, hlen₁]
      omega
    obtain ⟨masks₂, hmasks₂⟩ : ∃ masks₂, masks₂ =
        overwrite masks₁ bulk (List.replicate (range.stop / 64 - bulk) (boolMaskUsize value)) := ⟨_, rfl⟩
    have hlen₂ : masks₂.length = masks.length := by
      rw [hmasks₂, length_overwrite hfill, hlen₁]
    have h₂ : bitAt masks₂ i =
        if range.start ≤ i ∧ i < range.stop / 64 * 64 then value else bitAt masks i := by
      rw [hmasks₂, bitAt_overwrite (by decide) hfill, List.length_replicate, h₁,
        Nat.add_sub_cancel' hbulkLe.1]
      by_cases hmid : bulk * 64 ≤ i ∧ i < range.stop / 64 * 64
      · rw [if_pos hmid, if_pos (by omega), bitAt_replicate (by rw [Nat.sub_mul]; omega),
          getLsbD_boolMaskUsize _ (Nat.mod_lt _ (by decide))]
      · rw [if_neg hmid]
        by_cases hfirst : range.start ≤ i ∧ i < bulk * 64
        · rw [if_pos hfirst, if_pos (by omega)]
        · rw [if_neg hfirst, if_neg (by omega)]
    rw [← hmasks₁, ← hbulk, ← hmasks₂]
    by_cases hlast : range.stop % 64 > 0
    · rw [if_pos hlast, bitAt_rangeEnd value hlast (by omega) (by omega), h₂]
      by_cases hend' : range.stop / 64 * 64 ≤ i ∧ i < range.stop
      · rw [if_pos hend', if_pos (by omega)]
      · rw [if_neg hend']
        by_cases hmid : range.start ≤ i ∧ i < range.stop / 64 * 64
        · rw [if_pos hmid, if_pos (by omega)]
        · rw [if_neg hmid, if_neg (by omega)]
    · rw [if_neg hlast, h₂]
      by_cases hmid : range.start ≤ i ∧ i < range.stop / 64 * 64
      · rw [if_pos hmid, if_pos (by omega)]
      · rw [if_neg hmid, if_neg (by omega)]

theorem length_setRangeValueMasks (value : Bool) (hle : range.start ≤ range.stop)
    (hend : range.stop ≤ masks.length * 64) :
    (setRangeValueMasks masks range value).length = masks.length := by
  rw [setRangeValueMasks]
  split
  · rfl
  · simp only [wordMaskIndex_eq]
    split
    · exact List.length_modify _ _ _
    · have hfill (bulk : Nat) {masks' : List (BitVec 64)} (hlen : masks'.length = masks.length)
          (hbulk : bulk ≤ range.stop / 64) :
          (overwrite masks' bulk (List.replicate (range.stop / 64 - bulk) (boolMaskUsize value))).length =
            masks.length := by
        rw [length_overwrite, hlen]
        rw [List.length_replicate, hlen]
        omega
      by_cases hstart : range.start % 64 > 0
      · simp only [if_pos hstart]
        have hlen := hfill (range.start / 64 + 1) (List.length_modify
          (fun mask => (mask &&& ~~~(boolMaskUsize true <<< (range.start % 64))) |||
              (boolMaskUsize value <<< (range.start % 64))) masks (range.start / 64)) (by omega)
        split
        · rw [List.length_modify]
          exact hlen
        · exact hlen
      · simp only [if_neg hstart]
        have hlen := hfill (range.start / 64) (rfl : masks.length = masks.length) (by omega)
        split
        · rw [List.length_modify]
          exact hlen
        · exact hlen

namespace DynamicBitSetUnmanaged

/-- The bit set stands for a finite set of numbers below its length. -/
structure Shows (s : DynamicBitSetUnmanaged) (n : Nat) (S : Finset Nat) : Prop where
  length : s.bitLength = n
  words : numMasks n ≤ s.masks.length
  subset : ∀ i ∈ S, i < n
  bits : ∀ i < numMasks n * 64, bitAt s.masks i = decide (i ∈ S)

section Refinement
variable {s other : DynamicBitSetUnmanaged} {n m : Nat} {S T : Finset Nat}

theorem empty_shows : empty.Shows 0 ∅ :=
  ⟨rfl, Nat.le_refl 0, fun _ hi => absurd hi (Finset.notMem_empty _), fun _ hi => absurd hi (Nat.not_lt_zero _)⟩

namespace Shows

theorem length_masksSlice (h : s.Shows n S) : s.masksSlice.length = numMasks n := by
  rw [masksSlice, h.length, List.length_take_of_le h.words]

/-- Past the length there is nothing, in the padding and behind it. -/
theorem bitAt_masksSlice (h : s.Shows n S) (i : Nat) : bitAt s.masksSlice i = decide (i ∈ S) := by
  rw [masksSlice, h.length, bitAt_take (by decide)]
  by_cases hi : i < numMasks n * 64
  · rw [decide_eq_true hi, Bool.true_and, h.bits i hi]
  · rw [decide_eq_false hi, Bool.false_and]
    refine (decide_eq_false fun hmem => hi ?_).symm
    exact Nat.lt_of_lt_of_le (h.subset i hmem) (numMasks_mul_ge n)

variable {f : List (BitVec 64) → List (BitVec 64)} {i index : Nat} {masks : List (BitVec 64)}
  {g : Bool → Bool → Bool}

/-- What is written to the words, of which there are as many, becomes the set. -/
theorem onMasks (h : s.Shows n S) (hlen : (f s.masksSlice).length = numMasks n) (hT : ∀ i ∈ T, i < n)
    (hbits : ∀ i < numMasks n * 64, bitAt (f s.masksSlice) i = decide (i ∈ T)) :
    (s.onMasks f).Shows n T := by
  have hwords := h.words
  have hfit : 0 + (f s.masksSlice).length ≤ s.masks.length := by omega
  refine ⟨h.length, ?_, hT, fun i hi => ?_⟩
  · rw [DynamicBitSetUnmanaged.onMasks, length_overwrite hfit]
    exact hwords
  · rw [DynamicBitSetUnmanaged.onMasks, bitAt_overwrite (by decide) hfit, if_pos (by omega), Nat.zero_mul,
      Nat.sub_zero, hbits i hi]

/-- The words of the set, with their padding cleared. -/
theorem onMasks_clearPadding (h : s.Shows n S) (hn : 0 < n) (hlen : (f s.masksSlice).length = numMasks n)
    (hT : ∀ i ∈ T, i < n) (hbits : ∀ i < n, bitAt (f s.masksSlice) i = decide (i ∈ T)) :
    ((s.onMasks f).onMasks (clearPadding n)).Shows n T := by
  have hwords := h.words
  have hfit : 0 + (f s.masksSlice).length ≤ s.masks.length := by omega
  -- the words that were written are read again
  have hslice : (s.onMasks f).masksSlice = f s.masksSlice := by
    rw [masksSlice, DynamicBitSetUnmanaged.onMasks, h.length]
    simp only [overwrite, List.take_zero, List.nil_append]
    rw [← hlen, List.take_left]
  have htwice : (s.onMasks f).onMasks (clearPadding n) =
      s.onMasks fun masks => clearPadding n (f masks) := by
    have hsame : overwrite (overwrite s.masks 0 (f s.masksSlice)) 0 (clearPadding n (f s.masksSlice)) =
        overwrite s.masks 0 (clearPadding n (f s.masksSlice)) := by
      simp only [overwrite, List.take_zero, List.nil_append, Nat.zero_add, length_clearPadding, List.drop_left]
    rw [DynamicBitSetUnmanaged.onMasks, hslice]
    simp only [DynamicBitSetUnmanaged.onMasks, hsame]
  rw [htwice]
  refine h.onMasks (by rw [length_clearPadding, hlen]) hT fun i hi => ?_
  rw [bitAt_clearPadding hn (Nat.le_of_eq hlen.symm) hi]
  by_cases hlt : i < n
  · rw [hbits i hlt, decide_eq_true hlt, Bool.and_true]
  · rw [decide_eq_false hlt, Bool.and_false]
    exact (decide_eq_false fun hmem => hlt (hT i hmem)).symm

theorem isSet (h : s.Shows n S) (hi : i < n) : s.isSet i = some (decide (i ∈ S)) := by
  have hlt : i < s.masksSlice.length * 64 := by
    rw [h.length_masksSlice]
    exact Nat.lt_of_lt_of_le hi (numMasks_mul_ge n)
  have hmod : i % 64 < 64 := Nat.mod_lt _ (by decide)
  rw [DynamicBitSetUnmanaged.isSet, if_pos (by rw [h.length]; exact hi), wordMaskIndex_eq,
    List.getElem?_eq_getElem (div_lt_length hlt), Option.map_some, ← h.bitAt_masksSlice i,
    ← bitAt_getElem _ i (div_lt_length hlt), Option.some.injEq]
  -- the masked word is zero unless the bit is set
  have hnone : ∀ k, (0 : BitVec 64).getLsbD k = false := fun _ => BitVec.getLsbD_zero
  rw [Bool.eq_iff_iff, bne_iff_ne, ne_eq]
  constructor
  · intro hne
    by_contra hbit
    refine hne (BitVec.eq_of_getLsbD_eq fun k hk => ?_)
    rw [BitVec.getLsbD_and, getLsbD_wordMaskBit i hk, hnone]
    by_cases heq : k = i % 64
    · rw [heq, Bool.eq_false_of_not_eq_true hbit, Bool.false_and]
    · rw [decide_eq_false heq, Bool.and_false]
  · intro hbit hzero
    have hand := congrArg (fun x => x.getLsbD (i % 64)) hzero
    simp only [BitVec.getLsbD_and, getLsbD_wordMaskBit i hmod, hbit, decide_true, Bool.and_true,
      hnone] at hand
    exact Bool.false_ne_true hand.symm

/-! ### One bit, a range, all bits -/

/-- One word, in which the bit of an index is written. -/
theorem bitAt_modify_wordMask (hindex : index < masks.length * 64) {f : BitVec 64 → BitVec 64}
    (hf : ∀ x k, k < 64 → (f x).getLsbD k = g (x.getLsbD k) (decide (k = index % 64)))
    (hg : ∀ b, g b false = b) (hi : i < masks.length * 64) :
    bitAt (masks.modify (wordMaskIndex index) f) i = g (bitAt masks i) (decide (i = index)) := by
  have hmod : i % 64 < 64 := Nat.mod_lt _ (by decide)
  rw [wordMaskIndex_eq, bitAt_modify (div_lt_length hindex)]
  by_cases hword : i / 64 = index / 64
  · have hget := bitAt_getElem _ i (div_lt_length hi)
    rw [if_pos hword, hf _ _ hmod, ← hget]
    simp only [hword]
    congr 1
    rw [decide_eq_decide]
    omega
  · have hne : i ≠ index := fun heq => hword (heq ▸ rfl)
    rw [if_neg hword, decide_eq_false hne, hg]

theorem set (h : s.Shows n S) (hindex : index < n) :
    ∃ s', s.set index = some s' ∧ s'.Shows n (insert index S) := by
  have hle := numMasks_mul_ge n
  refine ⟨_, if_pos (by rw [h.length]; exact hindex), h.onMasks ?_ (fun i hi => ?_) fun i hi => ?_⟩
  · rw [List.length_modify, h.length_masksSlice]
  · rcases Finset.mem_insert.mp hi with rfl | hi
    · exact hindex
    · exact h.subset i hi
  · rw [bitAt_modify_wordMask (g := fun a b => a || b) (by rw [h.length_masksSlice]; omega)
      (fun x k hk => by rw [BitVec.getLsbD_or, getLsbD_wordMaskBit _ hk]) Bool.or_false
      (by rw [h.length_masksSlice]; exact hi), h.bitAt_masksSlice, ← Bool.decide_or, decide_eq_decide,
      Finset.mem_insert, or_comm]

theorem unset (h : s.Shows n S) (hindex : index < n) :
    ∃ s', s.unset index = some s' ∧ s'.Shows n (S.erase index) := by
  have hle := numMasks_mul_ge n
  refine ⟨_, if_pos (by rw [h.length]; exact hindex), h.onMasks ?_ (fun i hi => ?_) fun i hi => ?_⟩
  · rw [List.length_modify, h.length_masksSlice]
  · exact h.subset i (Finset.mem_of_mem_erase hi)
  · rw [bitAt_modify_wordMask (g := fun a b => a && !b) (by rw [h.length_masksSlice]; omega)
      (fun x k hk => by
        rw [BitVec.getLsbD_and, BitVec.getLsbD_not, getLsbD_wordMaskBit _ hk, decide_eq_true hk,
          Bool.true_and]) (fun b => by rw [Bool.not_false, Bool.and_true])
      (by rw [h.length_masksSlice]; exact hi), h.bitAt_masksSlice, ← decide_not, ← Bool.decide_and,
      decide_eq_decide, Finset.mem_erase, and_comm]

theorem setRangeValue (h : s.Shows n S) {range : Range} (value : Bool) (hle : range.start ≤ range.stop)
    (hend : range.stop ≤ n) :
    ∃ s', s.setRangeValue range value = some s' ∧
      s'.Shows n (if value then S ∪ Finset.Ico range.start range.stop
        else S \ Finset.Ico range.start range.stop) := by
  have hmul := numMasks_mul_ge n
  have hlen := h.length_masksSlice
  refine ⟨_, if_pos ⟨by rw [h.length]; exact hend, hle⟩, h.onMasks ?_ (fun i hi => ?_) fun i hi => ?_⟩
  · rw [length_setRangeValueMasks value hle (by omega), hlen]
  · cases value with
    | true =>
      rcases Finset.mem_union.mp hi with hold | hnew
      · exact h.subset i hold
      · exact Nat.lt_of_lt_of_le (Finset.mem_Ico.mp hnew).2 hend
    | false => exact h.subset i (Finset.mem_sdiff.mp hi).1
  · rw [bitAt_setRangeValueMasks value hle (by omega) (by omega), h.bitAt_masksSlice]
    cases value with
    | true =>
      by_cases hin : range.start ≤ i ∧ i < range.stop
      · simp [hin]
      · simp [hin]
    | false =>
      by_cases hin : range.start ≤ i ∧ i < range.stop
      · simp [hin]
      · simp [hin]

theorem eq_empty (h : s.Shows 0 S) : S = ∅ :=
  Finset.eq_empty_of_forall_notMem fun i hi => Nat.not_lt_zero i (h.subset i hi)

theorem setAll (h : s.Shows n S) (value : Bool) :
    (s.setAll value).Shows n (if value then Finset.range n else ∅) := by
  rw [DynamicBitSetUnmanaged.setAll, h.length]
  rcases Nat.eq_zero_or_pos n with rfl | hn
  · obtain rfl := h.eq_empty
    rw [if_pos rfl, Finset.range_zero, ite_self]
    exact h
  · rw [if_neg (Nat.pos_iff_ne_zero.mp hn)]
    refine h.onMasks_clearPadding (f := List.map fun _ => boolMaskUsize value) hn (by rw [List.length_map, h.length_masksSlice]) (fun i hi => ?_)
      fun i hi => ?_
    · cases value with
      | true => exact Finset.mem_range.mp hi
      | false => exact absurd hi (Finset.notMem_empty i)
    · rw [bitAt_map (g := fun _ => value) (fun x k hk => getLsbD_boolMaskUsize value hk)
        (by rw [h.length_masksSlice]; exact Nat.lt_of_lt_of_le hi (numMasks_mul_ge n))]
      cases value with
      | true => simp [hi]
      | false => simp

theorem toggleAll (h : s.Shows n S) : s.toggleAll.Shows n (Finset.range n \ S) := by
  rw [DynamicBitSetUnmanaged.toggleAll, h.length]
  rcases Nat.eq_zero_or_pos n with rfl | hn
  · obtain rfl := h.eq_empty
    rw [if_pos rfl, Finset.range_zero, Finset.empty_sdiff]
    exact h
  · rw [if_neg (Nat.pos_iff_ne_zero.mp hn)]
    refine h.onMasks_clearPadding (f := List.map fun mask => ~~~mask) hn (by rw [List.length_map, h.length_masksSlice]) (fun i hi => ?_)
      fun i hi => ?_
    · exact Finset.mem_range.mp (Finset.mem_sdiff.mp hi).1
    · rw [bitAt_map (g := fun b => !b)
        (fun x k hk => by rw [BitVec.getLsbD_not, decide_eq_true hk, Bool.true_and])
        (by rw [h.length_masksSlice]; exact Nat.lt_of_lt_of_le hi (numMasks_mul_ge n)),
        h.bitAt_masksSlice, ← decide_not, decide_eq_decide, Finset.mem_sdiff, Finset.mem_range]
      exact ⟨fun hnot => ⟨hi, hnot⟩, And.right⟩

/-! ### Two sets -/

/-- An operation on the words acts on the members, if no member comes from nothing. -/
theorem zipMasks (h : s.Shows n S) (h' : other.Shows n T) {f : BitVec 64 → BitVec 64 → BitVec 64}
    {U : Finset Nat} (hf : ∀ x y k, k < 64 → (f x y).getLsbD k = g (x.getLsbD k) (y.getLsbD k))
    (hU : ∀ i, decide (i ∈ U) = g (decide (i ∈ S)) (decide (i ∈ T))) (hg : g false false = false) :
    ∃ s', s.zipMasks other f = some s' ∧ s'.Shows n U := by
  have hslice : other.masks.take (numMasks s.bitLength) = other.masksSlice := by
    rw [masksSlice, h.length, h'.length]
  have hlen : (List.zipWith f s.masksSlice other.masksSlice).length = numMasks n := by
    rw [List.length_zipWith, h.length_masksSlice, h'.length_masksSlice, Nat.min_self]
  refine ⟨_, if_pos (h'.length.trans h.length.symm), ?_⟩
  rw [zipMasksRaw, hslice]
  refine h.onMasks hlen (fun i hi => ?_) fun i hi => ?_
  · by_contra hlt
    have hfalse := hU i
    rw [decide_eq_true hi, decide_eq_false fun hmem => hlt (h.subset i hmem),
      decide_eq_false fun hmem => hlt (h'.subset i hmem), hg] at hfalse
    exact absurd hfalse.symm Bool.false_ne_true
  · rw [bitAt_zipWith hf (by rw [h.length_masksSlice]; exact hi) (by rw [h'.length_masksSlice]; exact hi),
      h.bitAt_masksSlice, h'.bitAt_masksSlice, hU]

theorem setUnion (h : s.Shows n S) (h' : other.Shows n T) :
    ∃ s', s.setUnion other = some s' ∧ s'.Shows n (S ∪ T) :=
  h.zipMasks h' (g := fun a b => a || b) (fun _ _ _ _ => BitVec.getLsbD_or)
    (fun i => by rw [← Bool.decide_or, decide_eq_decide, Finset.mem_union]) rfl

theorem setIntersection (h : s.Shows n S) (h' : other.Shows n T) :
    ∃ s', s.setIntersection other = some s' ∧ s'.Shows n (S ∩ T) :=
  h.zipMasks h' (g := fun a b => a && b) (fun _ _ _ _ => BitVec.getLsbD_and)
    (fun i => by rw [← Bool.decide_and, decide_eq_decide, Finset.mem_inter]) rfl

theorem setExclude (h : s.Shows n S) (h' : other.Shows n T) :
    ∃ s', s.setExclude other = some s' ∧ s'.Shows n (S \ T) :=
  h.zipMasks h' (g := fun a b => a && !b)
    (fun _ _ _ hk => by rw [BitVec.getLsbD_and, BitVec.getLsbD_not, decide_eq_true hk, Bool.true_and])
    (fun i => by rw [← decide_not, ← Bool.decide_and, decide_eq_decide, Finset.mem_sdiff]) rfl

/-! ### Resizing -/

/-- The allocation holds the words of the new length, and has kept those of the old one. -/
theorem realloc (h : s.Shows n S) (heap : Heap) {newMasks : Nat} (hpos : 0 < newMasks) :
    (s.realloc heap newMasks = .error .allocError ∧ heap.grants = false) ∨
      ∃ masks, s.realloc heap newMasks = .ok masks ∧ newMasks ≤ masks.length ∧
        ∀ i < newMasks * 64, i < numMasks n * 64 → bitAt masks i = decide (i ∈ S) := by
  rw [DynamicBitSetUnmanaged.realloc]
  have hwords := h.words
  have halloc : newMasks + 1 ≤ s.allocLen → newMasks ≤ s.masks.length := by
    intro hle
    rw [allocLen] at hle
    split at hle
    · omega
    · omega
  by_cases hsame : s.allocLen = newMasks + 1
  · exact Or.inr ⟨s.masks, if_pos hsame, halloc (Nat.le_of_eq hsame.symm), fun i _ hi => h.bits i hi⟩
  simp only [if_neg hsame]
  by_cases hgrants : heap.grants = true
  · right
    simp only [if_pos hgrants]
    refine ⟨_, rfl, ?_, fun i hi hi' => ?_⟩
    · rw [List.length_append, List.length_take, List.length_replicate]
      omega
    · rw [bitAt_append_left (by rw [List.length_take, Nat.min_def]; split <;> omega), bitAt_take (by decide),
        decide_eq_true hi, Bool.true_and, h.bits i hi']
  simp only [if_neg hgrants]
  by_cases hgrows : newMasks + 1 > s.allocLen
  · exact Or.inl ⟨if_pos hgrows, Bool.eq_false_of_not_eq_true hgrants⟩
  · exact Or.inr ⟨s.masks, if_neg hgrows, halloc (Nat.not_lt.mp hgrows), fun i _ hi => h.bits i hi⟩

/-- The bits that are new are filled. -/
theorem bitAt_fillNew {newLen : Nat} (fill : Bool) (hgrows : n < newLen)
    (hlen : numMasks newLen ≤ masks.length)
    (hold : ∀ i < numMasks newLen * 64, i < numMasks n * 64 → bitAt masks i = decide (i ∈ S))
    (hS : ∀ i ∈ S, i < n) :
    (fillNew masks n newLen fill).length = masks.length ∧
      ∀ i < newLen, bitAt (fillNew masks n newLen fill) i = if i < n then decide (i ∈ S) else fill := by
  have hmasks : n ≤ numMasks n * 64 ∧ numMasks n * 64 < n + 64 ∧ numMasks n ≤ numMasks newLen ∧
      newLen ≤ numMasks newLen * 64 := by
    unfold numMasks
    omega
  obtain ⟨padded, hpadded⟩ : ∃ padded, padded = if fill = true ∧ numMasks n > 0 then
      masks.modify (numMasks n - 1) (· ||| ~~~(BitVec.allOnes 64 >>> (numMasks n * 64 - n)))
    else masks := ⟨_, rfl⟩
  have hpaddedLen : padded.length = masks.length := by
    rw [hpadded]
    split
    · exact List.length_modify _ _ _
    · rfl
  -- the padding of the old last word
  have hpaddedBits : ∀ i < numMasks n * 64, bitAt padded i = if i < n then decide (i ∈ S) else fill := by
    intro i hi
    have hbit := hold i (by omega) hi
    rw [hpadded]
    by_cases hfill : fill = true ∧ numMasks n > 0
    · have hmod : i % 64 < 64 := Nat.mod_lt _ (by decide)
      rw [if_pos hfill, bitAt_modify (by omega)]
      by_cases hlast : i / 64 = numMasks n - 1
      · have hget := bitAt_getElem masks i (by omega)
        rw [hbit] at hget
        simp only [hlast] at hget
        simp only [if_pos hlast, BitVec.getLsbD_or, BitVec.getLsbD_not, getLsbD_ushiftRight_allOnes, hget,
          decide_eq_true hmod, Bool.true_and]
        by_cases hlt : i < n
        · rw [if_pos hlt, decide_eq_true (by omega : numMasks n * 64 - n + i % 64 < 64), Bool.not_true,
            Bool.or_false]
        · rw [if_neg hlt, decide_eq_false (by omega : ¬ numMasks n * 64 - n + i % 64 < 64), Bool.not_false,
            Bool.or_true, hfill.1]
      · rw [if_neg hlast, hbit, if_pos (by omega)]
    · rw [if_neg hfill, hbit]
      by_cases hlt : i < n
      · rw [if_pos hlt]
      · rw [if_neg hlt, decide_eq_false fun hmem => hlt (hS i hmem)]
        cases fill with
        | true => exact absurd ⟨rfl, by omega⟩ hfill
        | false => rfl
  simp only [fillNew, ← hpadded]
  by_cases hmore : numMasks newLen > numMasks n
  · have hfit : numMasks n +
        (List.replicate (numMasks newLen - numMasks n) (boolMaskUsize fill)).length ≤ padded.length := by
      rw [List.length_replicate]
      omega
    rw [if_pos hmore]
    refine ⟨by rw [length_overwrite hfit, hpaddedLen], fun i hi => ?_⟩
    rw [bitAt_overwrite (by decide) hfit, List.length_replicate]
    by_cases hnew : numMasks n * 64 ≤ i
    · rw [if_pos (by omega), bitAt_replicate (by rw [Nat.sub_mul]; omega),
        getLsbD_boolMaskUsize _ (Nat.mod_lt _ (by decide)), if_neg (by omega)]
    · rw [if_neg (by omega), hpaddedBits i (by omega)]
  · rw [if_neg hmore]
    exact ⟨hpaddedLen, fun i hi => hpaddedBits i (by omega)⟩

/-- The members that fit, and the new numbers if they are to be filled in. -/
theorem resize (h : s.Shows n S) (heap : Heap) (newLen : Nat) (fill : Bool) :
    (s.resize heap newLen fill = .error .allocError ∧ heap.grants = false) ∨
      ∃ s', s.resize heap newLen fill = .ok s' ∧
        s'.Shows newLen (S ∩ Finset.range newLen ∪ if fill then Finset.Ico n newLen else ∅) := by
  have hsub : ∀ i ∈ (S ∩ Finset.range newLen ∪ if fill then Finset.Ico n newLen else ∅), i < newLen := by
    intro i hi
    rcases Finset.mem_union.mp hi with hold | hnew
    · exact Finset.mem_range.mp (Finset.mem_inter.mp hold).2
    · split at hnew
      · exact (Finset.mem_Ico.mp hnew).2
      · exact absurd hnew (Finset.notMem_empty i)
  have hmem : ∀ i < newLen, decide (i ∈ S ∩ Finset.range newLen ∪ if fill then Finset.Ico n newLen else ∅) =
      if i < n then decide (i ∈ S) else fill := by
    intro i hi
    by_cases hlt : i < n
    · cases fill with
      | true => simp [hi, hlt, Nat.not_le.mpr hlt]
      | false => simp [hi, hlt]
    · have hout : i ∉ S := fun hmem => hlt (h.subset i hmem)
      cases fill with
      | true => simp [hi, hlt, hout, Nat.not_lt.mp hlt]
      | false => simp [hlt, hout]
  rw [DynamicBitSetUnmanaged.resize, h.length]
  by_cases hzero : numMasks newLen = 0
  · obtain rfl : newLen = 0 := by
      unfold numMasks at hzero
      omega
    refine Or.inr ⟨empty, if_pos rfl, ?_⟩
    rw [Finset.eq_empty_of_forall_notMem fun i hi => Nat.not_lt_zero i (hsub i hi)]
    exact empty_shows
  have hpos : 0 < newLen := by
    unfold numMasks at hzero
    omega
  simp only [if_neg hzero]
  rcases h.realloc heap (Nat.pos_of_ne_zero hzero) with ⟨herror, hgrants⟩ | ⟨masks, hok, hlen, hold⟩
  · left
    rw [herror]
    exact ⟨rfl, hgrants⟩
  right
  rw [hok]
  -- what is left to do is to clear the padding
  have hfinish {masks' : List (BitVec 64)} (hlen' : masks'.length = masks.length)
      (hbits : ∀ i < newLen, bitAt masks' i = if i < n then decide (i ∈ S) else fill) :
      (DynamicBitSetUnmanaged.mk newLen (clearPadding newLen masks')).Shows newLen
        (S ∩ Finset.range newLen ∪ if fill then Finset.Ico n newLen else ∅) := by
    refine ⟨rfl, by rw [length_clearPadding, hlen']; exact hlen, hsub, fun i hi => ?_⟩
    rw [bitAt_clearPadding hpos (by rw [hlen']; exact hlen) hi]
    by_cases hlt : i < newLen
    · rw [hbits i hlt, hmem i hlt, decide_eq_true hlt, Bool.and_true]
    · rw [decide_eq_false hlt, Bool.and_false]
      exact (decide_eq_false fun hin => hlt (hsub i hin)).symm
  by_cases hgrows : newLen > n
  · obtain ⟨hlen', hbits⟩ := bitAt_fillNew fill hgrows hlen hold h.subset
    refine ⟨_, ?_, hfinish hlen' hbits⟩
    simp only [bind, Except.bind, if_pos hgrows]
  · refine ⟨_, ?_, hfinish rfl fun i hi => ?_⟩
    · simp only [bind, Except.bind, if_neg hgrows]
    · have hge := numMasks_mul_ge newLen
      have hge' := numMasks_mul_ge n
      rw [hold i (by omega) (by omega), if_pos (by omega)]

theorem initEmpty (heap : Heap) (n : Nat) :
    (initEmpty heap n = .error .allocError ∧ heap.grants = false) ∨
      ∃ s', initEmpty heap n = .ok s' ∧ s'.Shows n ∅ := by
  rcases empty_shows.resize heap n false with herror | ⟨s', hok, h'⟩
  · exact Or.inl herror
  · refine Or.inr ⟨s', hok, ?_⟩
    rwa [Finset.empty_inter, if_neg Bool.false_ne_true, Finset.empty_union] at h'

theorem clone (h : s.Shows n S) (heap : Heap) :
    (s.clone heap = .error .allocError ∧ heap.grants = false) ∨
      ∃ s', s.clone heap = .ok s' ∧ s'.Shows n S := by
  have hinit := initEmpty heap n
  rw [DynamicBitSetUnmanaged.initEmpty] at hinit
  rw [DynamicBitSetUnmanaged.clone, h.length]
  rcases hinit with ⟨herror, hgrants⟩ | ⟨copy, hok, hcopy⟩
  · left
    rw [herror]
    exact ⟨rfl, hgrants⟩
  · right
    rw [hok]
    exact ⟨_, rfl, hcopy.onMasks h.length_masksSlice h.subset fun i _ => h.bitAt_masksSlice i⟩

end Shows

/-! ### Bytes -/

theorem getLsbD_wordOfBytes (bytes : List (BitVec 8)) : ∀ k < 64,
    (wordOfBytes bytes).getLsbD k = bitAt bytes k := by
  induction bytes with
  | nil =>
    intro k _
    rw [bitAt_of_le (by decide) (Nat.zero_le _)]
    exact BitVec.getLsbD_zero
  | cons byte bytes ih =>
    intro k hk
    have hcons : wordOfBytes (byte :: bytes) = wordOfBytes bytes <<< 8 ||| byte.setWidth 64 := rfl
    rw [hcons, BitVec.getLsbD_or, BitVec.getLsbD_shiftLeft, BitVec.getLsbD_setWidth,
      bitAt_cons (by decide), decide_eq_true hk, Bool.true_and, Bool.true_and]
    by_cases hlow : k < 8
    · rw [if_pos hlow, decide_eq_true hlow, Bool.not_true, Bool.false_and, Bool.false_or]
    · rw [if_neg hlow, decide_eq_false hlow, Bool.not_false, Bool.true_and, ih (k - 8) (by omega),
        BitVec.getLsbD_of_ge byte k (by omega), Bool.or_false]

theorem length_wordsOfBytes (n : Nat) : ∀ bytes, (wordsOfBytes n bytes).length = n := by
  induction n with
  | zero => exact fun _ => rfl
  | succ n ih => exact fun bytes => congrArg Nat.succ (ih _)

/-- The words hold the bits of the bytes. -/
theorem bitAt_wordsOfBytes (n : Nat) : ∀ (bytes : List (BitVec 8)) (i : Nat), i < n * 64 →
    bitAt (wordsOfBytes n bytes) i = bitAt bytes i := by
  induction n with
  | zero => exact fun _ _ hi => absurd hi (Nat.not_lt.mpr (Nat.zero_mul 64 ▸ Nat.zero_le _))
  | succ n ih =>
    intro bytes i hi
    rw [wordsOfBytes, bitAt_cons (by decide)]
    by_cases hlow : i < 64
    · rw [if_pos hlow, getLsbD_wordOfBytes _ i hlow, bitAt_take (by decide), decide_eq_true hlow,
        Bool.true_and]
    · obtain ⟨j, rfl⟩ := Nat.exists_eq_add_of_le (Nat.not_lt.mp hlow)
      have hdiv : (64 + j) / 8 = 8 + j / 8 := by omega
      have hmod : (64 + j) % 8 = j % 8 := by omega
      rw [if_neg hlow, Nat.add_sub_cancel_left, ih _ _ (by omega), bitAt, bitAt, List.getElem?_drop, hdiv,
        hmod]

/-- The members that a byte string gives, below the length. -/
theorem fromBytes_shows (heap : Heap) (n : Nat) (bytes : List (BitVec 8)) :
    (fromBytes heap n bytes = .error .allocError ∧ heap.grants = false) ∨
      (fromBytes heap n bytes = .ok none ∧ bytes.length ≠ numMasks n * 8) ∨
      (bytes.length = numMasks n * 8 ∧ ∃ s', fromBytes heap n bytes = .ok (some s') ∧
        s'.Shows n ((Finset.range n).filter fun i => bitAt bytes i = true)) := by
  rw [fromBytes]
  rcases Shows.initEmpty heap n with ⟨herror, hgrants⟩ | ⟨copy, hok, hcopy⟩
  · left
    rw [herror]
    exact ⟨rfl, hgrants⟩
  right
  rw [hok]
  simp only [bind, Except.bind, hcopy.length_masksSlice]
  by_cases hlen : bytes.length = numMasks n * 8
  · right
    refine ⟨hlen, ?_⟩
    simp only [hlen, ne_eq, not_true_eq_false, if_false]
    rcases Nat.eq_zero_or_pos n with rfl | hn
    · refine ⟨_, if_neg (Nat.lt_irrefl 0), ?_⟩
      exact hcopy.onMasks rfl (fun i hi => absurd hi (Finset.notMem_empty i))
        (fun i hi => absurd hi (Nat.not_lt_zero i))
    · refine ⟨_, if_pos (numMasks_pos hn), ?_⟩
      refine hcopy.onMasks_clearPadding hn (length_wordsOfBytes _ _)
        (fun i hi => Finset.mem_range.mp (Finset.mem_filter.mp hi).1) fun i hi => ?_
      rw [bitAt_wordsOfBytes _ _ _ (Nat.lt_of_lt_of_le hi (numMasks_mul_ge n))]
      simp [hi]
  · exact Or.inl ⟨if_pos hlen, hlen⟩

end Refinement

end DynamicBitSetUnmanaged

end OhosBun.Collections
