/-
# `OhosBun.Collections.BitSetIterator` — the iterator of a bit set

The iterator takes the bits of a word one after the other, from either end, and then
loads the next word; for the numbers that are not in the set it complements the words
and masks the last one.

What an iterator has still to yield is a list (`rest`), of which `next` takes the
first.
-/
import OhosBun.Collections.BitSet

namespace OhosBun.Collections

open OhosBun.Lib

/-! ## The iterator -/

structure BitSetIterator where
  /-- all bits which have not yet been iterated over -/
  bitsRemain : BitVec 64
  /-- all words which have not yet been iterated over -/
  wordsRemain : List (BitVec 64)
  /-- the offset of the current word -/
  bitOffset : Nat
  /-- the mask of the last word -/
  lastWordMask : BitVec 64
  deriving DecidableEq

namespace BitSetIterator
variable (kindSet dirFwd : Bool)

/-- Load the next word, which there is. -/
def nextWord (isFirstWord : Bool) (it : BitSetIterator) : BitSetIterator :=
  let word := if dirFwd then it.wordsRemain.headD 0 else it.wordsRemain.getLastD 0
  let word := if !kindSet then
      let word := ~~~word
      if (!dirFwd ∧ isFirstWord) ∨ (dirFwd ∧ it.wordsRemain.length = 1) then word &&& it.lastWordMask
      else word
    else word
  { it with
    wordsRemain := if dirFwd then it.wordsRemain.tail else it.wordsRemain.dropLast
    bitsRemain := word }

def init (masks : List (BitVec 64)) (lastWordMask : BitVec 64) : BitSetIterator :=
  if masks = [] then ⟨0, [], 0, lastWordMask⟩
  else
    nextWord kindSet dirFwd true
      ⟨0, masks, if dirFwd then 0 else (masks.length - 1) * 64, lastWordMask⟩

/-- What `next` does once there is a bit. -/
def takeBit (it : BitSetIterator) : Nat × BitSetIterator :=
  if dirFwd then
    (it.bitsRemain.ctz.toNat + it.bitOffset, { it with bitsRemain := it.bitsRemain &&& (it.bitsRemain - 1) })
  else
    let topBit := 64 - 1 - it.bitsRemain.clz.toNat
    (topBit + it.bitOffset, { it with bitsRemain := it.bitsRemain &&& ((1 : BitVec 64) <<< topBit - 1) })

/-- A turn of the loop of `next`. -/
def advance (it : BitSetIterator) : BitSetIterator :=
  let it := it.nextWord kindSet dirFwd false
  { it with bitOffset := if dirFwd then it.bitOffset + 64 else it.bitOffset - 64 }

/-- The loop of `next`, which takes a word a turn. -/
def nextLoop : (words : Nat) → BitSetIterator → Option Nat × BitSetIterator
  | 0, it => if it.bitsRemain ≠ 0 then ((it.takeBit dirFwd).1, (it.takeBit dirFwd).2) else (none, it)
  | words + 1, it =>
    if it.bitsRemain ≠ 0 then ((it.takeBit dirFwd).1, (it.takeBit dirFwd).2)
    else if it.wordsRemain = [] then (none, it)
    else nextLoop words (it.advance kindSet dirFwd)

/-- The index of the next unvisited bit. -/
def next (it : BitSetIterator) : Option Nat × BitSetIterator :=
  it.nextLoop kindSet dirFwd it.wordsRemain.length

/-- What the calls of `next` yield, from the first on. -/
def nth : Nat → BitSetIterator → Option Nat
  | 0, it => (it.next kindSet dirFwd).1
  | n + 1, it => nth n (it.next kindSet dirFwd).2

end BitSetIterator

namespace DynamicBitSetUnmanaged

def iterator (kindSet dirFwd : Bool) (s : DynamicBitSetUnmanaged) : BitSetIterator :=
  let paddingBits := numMasks s.bitLength * 64 - s.bitLength
  let lastItemMask := BitVec.allOnes 64 >>> paddingBits
  .init kindSet dirFwd s.masksSlice lastItemMask

end DynamicBitSetUnmanaged

/-! ## What is left to yield -/

namespace BitSetIterator
variable {dirFwd : Bool} {it : BitSetIterator} (kindSet : Bool)

/-- A word, or what is not in it. -/
def flip (kindSet : Bool) (word : BitVec 64) : BitVec 64 := if kindSet then word else ~~~word

/-- The last word, without its padding. -/
def flipLast (kindSet : Bool) (mask word : BitVec 64) : BitVec 64 :=
  if kindSet then word else ~~~word &&& mask

/-- The words as the iterator loads them. -/
def shown (kindSet : Bool) (mask : BitVec 64) : List (BitVec 64) → List (BitVec 64)
  | [] => []
  | [word] => [flipLast kindSet mask word]
  | word :: word' :: words => flip kindSet word :: shown kindSet mask (word' :: words)

theorem shown_concat (mask word : BitVec 64) (words : List (BitVec 64)) :
    shown kindSet mask (words ++ [word]) = words.map (flip kindSet) ++ [flipLast kindSet mask word] := by
  induction words with
  | nil => rfl
  | cons word' words ih =>
    cases words with
    | nil => rfl
    | cons word'' words =>
      exact congrArg (flip kindSet word' :: ·) ih

theorem shown_eq (mask : BitVec 64) (words : List (BitVec 64)) :
    shown kindSet mask words =
      if kindSet then words else (words.map fun word => ~~~word).modify (words.length - 1) (· &&& mask) := by
  induction words with
  | nil => cases kindSet <;> rfl
  | cons word words ih =>
    cases words with
    | nil => cases kindSet <;> rfl
    | cons word' words =>
      rw [shown, ih]
      cases kindSet <;> rfl

/-- What an iterator has still to yield. -/
def rest (kindSet dirFwd : Bool) (it : BitSetIterator) : List Nat :=
  if dirFwd then
    (ones it.bitsRemain).map (it.bitOffset + ·) ++
      onesFrom (it.bitOffset + 64) (shown kindSet it.lastWordMask it.wordsRemain)
  else
    ((ones it.bitsRemain).map (it.bitOffset + ·)).reverse ++
      (onesFrom 0 (it.wordsRemain.map (flip kindSet))).reverse

/-- Backwards, the offset is that of the word behind those that remain. -/
def Placed (dirFwd : Bool) (it : BitSetIterator) : Prop :=
  dirFwd = false → it.bitOffset = it.wordsRemain.length * 64

theorem takeBit_rest (hbits : it.bitsRemain ≠ 0) :
    rest kindSet dirFwd it = (it.takeBit dirFwd).1 :: rest kindSet dirFwd (it.takeBit dirFwd).2 := by
  cases dirFwd with
  | true =>
    simp only [rest, takeBit, if_true]
    rw [ones_eq_cons hbits, List.map_cons, List.cons_append, Nat.add_comm it.bitOffset]
  | false =>
    simp only [rest, takeBit, Bool.false_eq_true, if_false]
    rw [ones_eq_append hbits, List.map_append, List.reverse_append, List.map_singleton,
      List.reverse_singleton, List.append_assoc, List.singleton_append, Nat.add_comm it.bitOffset]

theorem takeBit_placed (h : it.Placed dirFwd) : (it.takeBit dirFwd).2.Placed dirFwd := by
  cases dirFwd with
  | true => exact fun hfalse => absurd hfalse (by decide)
  | false => exact h

/-- Loading a word leaves what there is to yield. -/
theorem advance_rest (h : it.Placed dirFwd) (hbits : it.bitsRemain = 0) (hwords : it.wordsRemain ≠ []) :
    rest kindSet dirFwd (it.advance kindSet dirFwd) = rest kindSet dirFwd it ∧
      (it.advance kindSet dirFwd).Placed dirFwd ∧
      (it.advance kindSet dirFwd).wordsRemain.length + 1 = it.wordsRemain.length := by
  cases dirFwd with
  | true =>
    obtain ⟨word, words, heq⟩ := List.exists_cons_of_ne_nil hwords
    refine ⟨?_, fun hfalse => absurd hfalse (by decide), by simp [advance, nextWord, heq]⟩
    simp only [rest, advance, nextWord, heq, hbits, ones_zero, List.map_nil, List.nil_append, if_true,
      List.headD_cons, List.tail_cons, List.length_cons, Bool.not_true, Bool.false_eq_true, false_and,
      false_or, true_and, Nat.add_eq_right]
    cases words with
    | nil => cases kindSet <;> rfl
    | cons word' words => cases kindSet <;> rfl
  | false =>
    obtain ⟨words, word, heq⟩ := (List.eq_nil_or_concat' it.wordsRemain).resolve_left hwords
    have hoffset := h rfl
    rw [heq, List.length_append, List.length_singleton] at hoffset
    refine ⟨?_, fun _ => ?_, by simp [advance, nextWord, heq]⟩
    · simp only [rest, advance, nextWord, heq, hbits, ones_zero, List.map_nil, List.reverse_nil, List.nil_append,
        Bool.false_eq_true, if_false, List.getLastD_concat, List.dropLast_concat, Bool.not_false,
        and_false, false_and, or_self]
      rw [List.map_append, List.map_singleton, onesFrom_append, onesFrom_singleton, List.reverse_append,
        List.length_map, hoffset]
      have hword : (if (!kindSet) = true then ~~~word else word) = flip kindSet word := by
        cases kindSet <;> rfl
      rw [hword, Nat.zero_add, Nat.succ_mul, Nat.add_sub_cancel]
    · simp only [advance, nextWord, heq, Bool.false_eq_true, if_false, List.dropLast_concat, hoffset]
      omega

theorem nextLoop_rest (words : Nat) : ∀ {it : BitSetIterator}, it.Placed dirFwd →
    it.wordsRemain.length ≤ words →
    (it.nextLoop kindSet dirFwd words).1 = (rest kindSet dirFwd it).head? ∧
      rest kindSet dirFwd (it.nextLoop kindSet dirFwd words).2 = (rest kindSet dirFwd it).tail ∧
      (it.nextLoop kindSet dirFwd words).2.Placed dirFwd := by
  -- nothing is left where there is neither a bit nor a word
  have hdone {it : BitSetIterator} (hbits : it.bitsRemain = 0) (hwords : it.wordsRemain = []) :
      rest kindSet dirFwd it = [] := by
    cases dirFwd with
    | true =>
      simp only [rest, hbits, hwords, ones_zero, shown, onesFrom, List.map_nil, List.append_nil, if_true]
    | false =>
      simp only [rest, hbits, hwords, ones_zero, onesFrom, List.map_nil, List.reverse_nil, List.append_nil,
        Bool.false_eq_true, if_false]
  induction words with
  | zero =>
    intro it h hle
    have hwords : it.wordsRemain = [] := List.length_eq_zero_iff.mp (Nat.le_zero.mp hle)
    rw [nextLoop]
    by_cases hbits : it.bitsRemain = 0
    · rw [if_neg (not_not_intro hbits), hdone hbits hwords]
      exact ⟨rfl, rfl, h⟩
    · rw [if_pos hbits, takeBit_rest kindSet hbits]
      exact ⟨rfl, rfl, takeBit_placed h⟩
  | succ words ih =>
    intro it h hle
    rw [nextLoop]
    by_cases hbits : it.bitsRemain = 0
    · rw [if_neg (not_not_intro hbits)]
      by_cases hwords : it.wordsRemain = []
      · rw [if_pos hwords, hdone hbits hwords]
        exact ⟨rfl, rfl, h⟩
      · obtain ⟨hrest, h', hlen⟩ := advance_rest kindSet h hbits hwords
        rw [if_neg hwords, ← hrest]
        exact ih h' (by omega)
    · rw [if_pos hbits, takeBit_rest kindSet hbits]
      exact ⟨rfl, rfl, takeBit_placed h⟩

/-- The calls of `next` yield the list, and then nothing. -/
theorem nth_rest (n : Nat) : ∀ {it : BitSetIterator}, it.Placed dirFwd →
    it.nth kindSet dirFwd n = (rest kindSet dirFwd it)[n]? := by
  induction n with
  | zero =>
    intro it h
    rw [nth, next, (nextLoop_rest kindSet _ h (Nat.le_refl _)).1, List.head?_eq_getElem?]
  | succ n ih =>
    intro it h
    obtain ⟨-, hrest, h'⟩ := nextLoop_rest kindSet _ h (Nat.le_refl _)
    rw [nth, next, ih h', hrest, List.getElem?_tail]

theorem init_rest (dirFwd : Bool) (masks : List (BitVec 64)) (mask : BitVec 64) :
    (init kindSet dirFwd masks mask).Placed dirFwd ∧
      rest kindSet dirFwd (init kindSet dirFwd masks mask) =
        if dirFwd then onesFrom 0 (shown kindSet mask masks)
        else (onesFrom 0 (shown kindSet mask masks)).reverse := by
  rw [init]
  by_cases hmasks : masks = []
  · subst hmasks
    rw [if_pos rfl]
    refine ⟨fun _ => rfl, ?_⟩
    cases dirFwd with
    | true => simp only [rest, ones_zero, shown, onesFrom, List.map_nil, List.append_nil, if_true]
    | false =>
      simp only [rest, ones_zero, shown, onesFrom, List.map_nil, List.reverse_nil, List.append_nil,
        Bool.false_eq_true, if_false]
  rw [if_neg hmasks]
  cases dirFwd with
  | true =>
    obtain ⟨word, words, rfl⟩ := List.exists_cons_of_ne_nil hmasks
    refine ⟨fun hfalse => absurd hfalse (by decide), ?_⟩
    simp only [rest, nextWord, if_true, List.headD_cons, List.tail_cons, List.length_cons, Bool.not_true,
      Bool.false_eq_true, false_and, false_or, true_and, Nat.add_eq_right]
    cases words with
    | nil => cases kindSet <;> rfl
    | cons word' words => cases kindSet <;> rfl
  | false =>
    obtain ⟨words, word, rfl⟩ := (List.eq_nil_or_concat' masks).resolve_left hmasks
    refine ⟨fun _ => by simp [nextWord], ?_⟩
    simp only [rest, nextWord, Bool.false_eq_true, if_false, List.getLastD_concat, List.dropLast_concat,
      Bool.not_false, true_and, false_and, or_false, if_true, List.length_append, List.length_singleton,
      Nat.add_sub_cancel]
    rw [shown_concat, onesFrom_append, onesFrom_singleton, List.reverse_append, List.length_map,
      Nat.zero_add]
    cases kindSet <;> rfl

end BitSetIterator

namespace DynamicBitSetUnmanaged
variable {s : DynamicBitSetUnmanaged} {n : Nat} {S : Finset Nat}

/-- The numbers below the length that are in the set, or are not. -/
def listed (kindSet : Bool) (n : Nat) (S : Finset Nat) : List Nat :=
  (List.range n).filter fun i => decide (i ∈ S) == kindSet

/-- The members of the words are those of the set. -/
theorem onesFrom_shown (h : s.Shows n S) (kindSet : Bool) :
    onesFrom 0 (BitSetIterator.shown kindSet
      (BitVec.allOnes 64 >>> (numMasks s.bitLength * 64 - s.bitLength)) s.masksSlice) =
        listed kindSet n S := by
  have hlen := h.length_masksSlice
  have hle := numMasks_mul_ge n
  rw [BitSetIterator.shown_eq, h.length, onesFrom_eq (by decide)]
  simp only [Nat.zero_add, List.map_id_fun', id_eq]
  refine eq_of_increasing (List.pairwise_lt_range.filter _) (List.pairwise_lt_range.filter _) fun i => ?_
  rw [List.mem_filter, listed, List.mem_filter, List.mem_range, List.mem_range]
  cases kindSet with
  | true =>
    rw [if_pos rfl, hlen, h.bitAt_masksSlice, beq_true]
    constructor
    · rintro ⟨-, hmem⟩
      exact ⟨h.subset i (of_decide_eq_true hmem), hmem⟩
    · rintro ⟨hi, hmem⟩
      exact ⟨by omega, hmem⟩
  | false =>
    -- the complement is masked where the padding would be
    rcases Nat.eq_zero_or_pos n with rfl | hn
    · have hnil : s.masksSlice = [] := List.length_eq_zero_iff.mp hlen
      simp [hnil]
    have hclear : (s.masksSlice.map fun word => ~~~word).modify (s.masksSlice.length - 1)
        (· &&& BitVec.allOnes 64 >>> (numMasks n * 64 - n)) =
          clearPadding n (s.masksSlice.map fun word => ~~~word) := by
      rw [clearPadding, hlen]
    have hbits : ∀ i < numMasks n * 64,
        bitAt (clearPadding n (s.masksSlice.map fun word => ~~~word)) i = (!decide (i ∈ S) && decide (i < n)) := by
      intro i hi
      rw [bitAt_clearPadding hn (by rw [List.length_map, hlen]) hi, bitAt_map (g := fun b => !b)
        (fun x k hk => by rw [BitVec.getLsbD_not, decide_eq_true hk, Bool.true_and]) (by rw [hlen]; exact hi),
        h.bitAt_masksSlice]
    rw [if_neg Bool.false_ne_true, hclear, length_clearPadding, List.length_map, hlen, beq_false]
    constructor
    · rintro ⟨hi, hbit⟩
      rw [hbits i hi, Bool.and_eq_true, decide_eq_true_eq] at hbit
      exact ⟨hbit.2, hbit.1⟩
    · rintro ⟨hi, hmem⟩
      have hlt : i < numMasks n * 64 := by omega
      refine ⟨hlt, ?_⟩
      rw [hbits i hlt, hmem, decide_eq_true hi, Bool.and_self]

/-- In each of its four modes the iterator yields the numbers once each, in order. -/
theorem nth_listed (h : s.Shows n S) (kindSet dirFwd : Bool) (i : Nat) :
    (s.iterator kindSet dirFwd).nth kindSet dirFwd i =
      (if dirFwd then listed kindSet n S else (listed kindSet n S).reverse)[i]? := by
  obtain ⟨hplaced, hrest⟩ := BitSetIterator.init_rest kindSet dirFwd s.masksSlice
    (BitVec.allOnes 64 >>> (numMasks s.bitLength * 64 - s.bitLength))
  rw [iterator, BitSetIterator.nth_rest kindSet i hplaced, hrest, onesFrom_shown h]

end DynamicBitSetUnmanaged

end OhosBun.Collections
