/-
# `OhosBun.SourceMap.WindowReader` — a window decodes to its rows

`WindowReader.next` walks five lanes and four masks at once.  What it needs at
delta `k` is one invariant, `ReaderAt`: each position stands at what the deltas
from `k` on contributed to that lane, and each mask bit from `k` on says what
its delta says.  `ReaderAt.next` is the step, `ReaderAt.drain` the whole window,
`parse_readerAt` the start.

The lanes are read off `contentsFrom` from the front here, where `WindowLayout`
grew them at the back.
-/
import Mathlib.Data.Nat.Bitwise
import OhosBun.SourceMap.WindowLayout

namespace OhosBun.SourceMap

open OhosBun.Lib

/-! ## Bits -/

variable {j k base pos o n : Nat} {mask bs : Bytes} {b e s : Bool} {bits : List Bool}

theorem testBit_byte (b : UInt8) (hj : j < 8) :
    ((b >>> UInt8.ofNat j) &&& 1 != 0) = b.toNat.testBit j := by
  have h : ((b >>> UInt8.ofNat j) &&& 1).toNat = b.toNat >>> j &&& 1 := by
    simp [Nat.mod_eq_of_lt (show j < 256 by omega), Nat.mod_eq_of_lt hj]
  rw [Nat.testBit, Nat.land_comm, ← h]
  rw [Bool.eq_iff_iff]
  simp [← UInt8.toNat_inj]

theorem maskBit_testBit (k : Nat) (hj : j < 8) :
    (maskBit k).toNat.testBit j = decide (j = k % 8) := by
  have hk : k % 8 < 8 := Nat.mod_lt _ (by decide)
  have key : ∀ a < 8, ∀ b < 8, (1 <<< UInt8.ofNat a : UInt8).toNat.testBit b = decide (b = a) := by
    decide
  exact key _ hk _ hj

/-- Setting a bit sets that bit and no other. -/
theorem testBit_setBit (hk : k / 8 < mask.length) (i : Nat) :
    testBit (setBit mask k) 0 i = if i = k then some true else testBit mask 0 i := by
  have hi : i % 8 < 8 := Nat.mod_lt _ (by decide)
  simp only [testBit, setBit, Nat.zero_add, List.getElem?_modify]
  by_cases hbyte : k / 8 = i / 8
  · simp only [← hbyte, List.getElem?_eq_getElem hk, Option.map_eq_map, Option.map_some, if_true,
      testBit_byte _ hi, UInt8.toNat_or, Nat.testBit_or, maskBit_testBit k hi]
    by_cases hik : i = k
    · simp [hik]
    · have : i % 8 ≠ k % 8 := by omega
      simp [hik, this]
  · rw [if_neg (by rintro rfl; exact hbyte rfl)]
    simp only [if_neg hbyte, Option.map_eq_map, Option.map_id_fun', id]

/-- A bit of a mask, read in the window. -/
theorem testBit_standsAt (h : StandsAt bs base mask) {i : Nat} (hi : i / 8 < mask.length) :
    testBit bs base i = testBit mask 0 i := by
  simp only [testBit, h.getElem? hi, Nat.zero_add]

theorem readVarint_standsAt {d : Int32} {rest : Bytes} (h : StandsAt bs pos (writeVarint d ++ rest)) :
    readVarint bs pos = some (d, pos + (writeVarint d).length) := by
  obtain ⟨pre, post, rfl, rfl⟩ := h
  rw [List.append_assoc]
  exact readVarint_writeVarint d pre (rest ++ post)

/-! ## The lanes, from the front -/

def genColLane (ds : List Delta) : Bytes := ds.flatMap fun d => writeVarint d.genCol

def origLineLane (ds : List Delta) : Bytes :=
  ds.flatMap fun d => if d.origLine = d.genLine then [] else writeVarint d.origLine

def origColLane (ds : List Delta) : Bytes :=
  ds.flatMap fun d => if d.origCol = d.genCol then [] else writeVarint d.origCol

def sourceLane (ds : List Delta) : Bytes :=
  ds.flatMap fun d => if d.srcIdx = 0 then [] else writeVarint d.srcIdx

/-- The gen-line exceptions, each behind the index of its delta. -/
def exceptionLane : Nat → List Delta → Bytes
  | _, [] => []
  | k, d :: ds =>
    (if d.isException then UInt8.ofNat k :: writeVarint d.genLine else []) ++
      exceptionLane (k + 1) ds

/-- A mask with bits from `k` on given. -/
def maskFrom : Nat → Bytes → List Bool → Bytes
  | _, mask, [] => mask
  | k, mask, b :: bits => maskFrom (k + 1) (if b then setBit mask k else mask) bits

/-- The flags byte, by what it says. -/
def flagsOf (exceptions sources : Bool) : UInt8 :=
  (if exceptions then flagHasGenLineExceptions else 0) ||| (if sources then flagHasSrcIdx else 0)

theorem flagsOf_exceptions (e s : Bool) : flagsOf e s &&& flagHasGenLineExceptions ≠ 0 ↔ e := by
  cases e <;> cases s <;> decide

theorem flagsOf_sources (e s : Bool) : flagsOf e s &&& flagHasSrcIdx ≠ 0 ↔ s := by
  cases e <;> cases s <;> decide

theorem flagsOf_eq_zero (e s : Bool) : flagsOf e s = 0 ↔ e = false ∧ s = false := by
  cases e <;> cases s <;> decide

section Contents
variable (ds : List Delta)

theorem contentsFrom_genCol : ∀ (k : Nat) (A : Contents),
    (contentsFrom k A ds).genCol = A.genCol ++ genColLane ds := by
  induction ds with
  | nil => simp [contentsFrom, genColLane]
  | cons d ds ih =>
    intro k A
    rw [contentsFrom, ih]
    exact List.append_assoc A.genCol (writeVarint d.genCol) (genColLane ds)

theorem contentsFrom_origLine : ∀ (k : Nat) (A : Contents),
    (contentsFrom k A ds).origLine = A.origLine ++ origLineLane ds := by
  induction ds with
  | nil => simp [contentsFrom, origLineLane]
  | cons d ds ih =>
    intro k A
    rw [contentsFrom, ih]
    exact List.append_assoc A.origLine _ (origLineLane ds)

theorem contentsFrom_origCol : ∀ (k : Nat) (A : Contents),
    (contentsFrom k A ds).origCol = A.origCol ++ origColLane ds := by
  induction ds with
  | nil => simp [contentsFrom, origColLane]
  | cons d ds ih =>
    intro k A
    rw [contentsFrom, ih]
    exact List.append_assoc A.origCol _ (origColLane ds)

theorem contentsFrom_srcIdx : ∀ (k : Nat) (A : Contents),
    (contentsFrom k A ds).srcIdx = A.srcIdx ++ sourceLane ds := by
  induction ds with
  | nil => simp [contentsFrom, sourceLane]
  | cons d ds ih =>
    intro k A
    rw [contentsFrom, ih]
    exact List.append_assoc A.srcIdx _ (sourceLane ds)

theorem contentsFrom_genLine : ∀ (k : Nat) (A : Contents),
    (contentsFrom k A ds).genLine = A.genLine ++ exceptionLane k ds := by
  induction ds with
  | nil => simp [contentsFrom, exceptionLane]
  | cons d ds ih =>
    intro k A
    rw [contentsFrom, ih]
    exact List.append_assoc A.genLine _ (exceptionLane (k + 1) ds)

theorem contentsFrom_flags : ∀ (k : Nat) (A : Contents) (e s : Bool), A.flags = flagsOf e s →
    (contentsFrom k A ds).flags =
      flagsOf (e || ds.any fun d => d.isException) (s || ds.any fun d => d.srcIdx ≠ 0) := by
  induction ds with
  | nil => intro k A e s h; simpa [contentsFrom] using h
  | cons d ds ih =>
    intro k A e s h
    have hpush : (A.push k d).flags =
        flagsOf (e || decide d.isException) (s || decide (d.srcIdx ≠ 0)) := by
      simp only [Contents.push, Contents.pushGenLineMask, Contents.pushGenCol,
        Contents.pushOrigLine, Contents.pushOrigCol, Contents.pushGenLine,
        Contents.pushSrcIdx, h]
      by_cases he : d.isException <;> by_cases hs : d.srcIdx = 0 <;>
        simp only [he, hs, ne_eq] <;> cases e <;> cases s <;> decide
    rw [contentsFrom, ih _ _ _ _ hpush]
    simp only [List.any_cons, Bool.or_assoc]

theorem contentsFrom_masks : ∀ (k : Nat) (A : Contents),
    (contentsFrom k A ds).genLineMask =
        maskFrom k A.genLineMask (ds.map fun d => decide (d.genLine ≥ 1)) ∧
      (contentsFrom k A ds).origLineMask =
        maskFrom k A.origLineMask (ds.map fun d => decide (d.origLine = d.genLine)) ∧
      (contentsFrom k A ds).origColMask =
        maskFrom k A.origColMask (ds.map fun d => decide (d.origCol = d.genCol)) ∧
      (contentsFrom k A ds).srcIdxMask =
        maskFrom k A.srcIdxMask (ds.map fun d => decide (d.srcIdx = 0)) := by
  induction ds with
  | nil => intro k A; exact ⟨rfl, rfl, rfl, rfl⟩
  | cons d ds ih =>
    intro k A
    obtain ⟨h₁, h₂, h₃, h₄⟩ := ih (k + 1) (A.push k d)
    simp only [contentsFrom, List.map_cons, maskFrom, decide_eq_true_eq]
    exact ⟨h₁, h₂, h₃, h₄⟩

end Contents

/-- The bits of a mask from `k` on. -/
def Bits (bs : Bytes) (base k : Nat) (bits : List Bool) : Prop :=
  ∀ j b, bits[j]? = some b → testBit bs base (k + j) = some b

theorem Bits.head (h : Bits bs base k (b :: bits)) : testBit bs base k = some b :=
  h 0 b rfl

theorem Bits.tail (h : Bits bs base k (b :: bits)) : Bits bs base (k + 1) bits := by
  intro j b' hj
  have := h (j + 1) b' hj
  rwa [← Nat.add_assoc, Nat.add_right_comm] at this

theorem Bits.standsAt (h : StandsAt bs base mask) (hlen : mask.length = 8) (hk : k + bits.length ≤ 64)
    (hb : Bits mask 0 k bits) : Bits bs base k bits := by
  intro j b hj
  have hj' : j < bits.length := (List.getElem?_eq_some_iff.mp hj).1
  rw [testBit_standsAt h (by omega)]
  exact hb j b hj

theorem testBit_maskFrom_below (bits : List Bool) : ∀ {k : Nat} {mask : Bytes} {i : Nat},
    mask.length = 8 → k + bits.length ≤ 64 → i < k →
      testBit (maskFrom k mask bits) 0 i = testBit mask 0 i := by
  induction bits with
  | nil => intro k mask i _ _ _; rfl
  | cons b bits ih =>
    intro k mask i hlen hk hi
    simp only [List.length_cons] at hk
    rw [maskFrom, ih _ (by omega) (by omega)]
    · cases b with
      | true => rw [if_pos rfl, testBit_setBit (by omega), if_neg (by omega)]
      | false => rfl
    · split
      · rw [setBit_length, hlen]
      · exact hlen

/-- A mask that was clear from `k` on has the bits it was given. -/
theorem maskFrom_bits (bits : List Bool) : ∀ {k : Nat} {mask : Bytes}, mask.length = 8 →
    k + bits.length ≤ 64 → (∀ i, k ≤ i → i < 64 → testBit mask 0 i = some false) →
      Bits (maskFrom k mask bits) 0 k bits := by
  induction bits with
  | nil => intro k mask _ _ _ j b hj; simp at hj
  | cons b bits ih =>
    intro k mask hlen hk hclear
    simp only [List.length_cons] at hk
    have hlen' : (if b then setBit mask k else mask).length = 8 := by
      split
      · rw [setBit_length, hlen]
      · exact hlen
    intro j b' hj
    cases j with
    | zero =>
      obtain rfl : b = b' := by simpa using hj
      rw [Nat.add_zero, maskFrom, testBit_maskFrom_below bits hlen' (by omega) (by omega)]
      cases b with
      | true => rw [if_pos rfl, testBit_setBit (by omega), if_pos rfl]
      | false => exact hclear k (by omega) (by omega)
    | succ j =>
      have hrest : ∀ i, k + 1 ≤ i → i < 64 →
          testBit (if b then setBit mask k else mask) 0 i = some false := by
        intro i hi hi'
        split
        · rw [testBit_setBit (by omega), if_neg (by omega)]
          exact hclear i (by omega) hi'
        · exact hclear i (by omega) hi'
      have := ih hlen' (by omega) hrest j b' (by simpa using hj)
      rwa [Nat.add_right_comm, Nat.add_assoc] at this

theorem clear_mask : ∀ i < 64, testBit (List.replicate 8 0) 0 i = some false := by decide

/-! ## The reader in mid-window -/

/-- The exception part of the reader's state before the deltas `ds`, the first
of which has index `k`. -/
def ExceptionsAt (bs : Bytes) (e : Bool) (k : Nat) (ds : List Delta) (r : WindowReader) : Prop :=
  if e then
    StandsAt bs r.genLineExcPos (exceptionLane k ds ++ [0xFF]) ∧
      bs[r.genLineExcPos]? = some r.genLineExcNextIdx
  else r.genLineExcNextIdx = 0xFF ∧ ∀ d ∈ ds, ¬ d.isException

/-- The source-index part. -/
def SourcesAt (bs : Bytes) (s : Bool) (k : Nat) (ds : List Delta) (r : WindowReader) : Prop :=
  if s then
    StandsAt bs r.srcIdxExcPos (sourceLane ds) ∧
      Bits bs r.srcIdxMask k (ds.map fun d => decide (d.srcIdx = 0))
  else ∀ d ∈ ds, d.srcIdx = 0

/-- The reader `r`, in the window of `n` rows at `o`, before the deltas `ds`,
the first of which has index `k`. -/
structure ReaderAt (bs : Bytes) (o n : Nat) (e s : Bool) (k : Nat) (ds : List Delta)
    (r : WindowReader) : Prop where
  bytes : r.bytes = bs
  base : r.base = o
  count : r.count = n
  flags : r.flags = flagsOf e s
  deltaIdx : r.deltaIdx = k
  genCol : StandsAt bs r.genColPos (genColLane ds)
  origLine : StandsAt bs r.origLineExcPos (origLineLane ds)
  origCol : StandsAt bs r.origColExcPos (origColLane ds)
  genLineBits : Bits bs (o + 8) k (ds.map fun d => decide (d.genLine ≥ 1))
  origLineBits : Bits bs (o + 16) k (ds.map fun d => decide (d.origLine = d.genLine))
  origColBits : Bits bs (o + 24) k (ds.map fun d => decide (d.origCol = d.genCol))
  exceptions : ExceptionsAt bs e k ds r
  sources : SourcesAt bs s k ds r

/-- The exceptions from `k` on have indices from `k` on. -/
theorem exceptionLane_head (ds : List Delta) : ∀ {k : Nat} {b : UInt8}, k + ds.length ≤ 64 →
    (exceptionLane k ds ++ [0xFF]).head? = some b → k ≤ b.toNat := by
  induction ds with
  | nil =>
    intro k b hk hb
    obtain rfl : (0xFF : UInt8) = b := by simpa [exceptionLane] using hb
    have : (0xFF : UInt8).toNat = 255 := rfl
    simp only [List.length_nil] at hk
    omega
  | cons d ds ih =>
    intro k b hk hb
    simp only [List.length_cons] at hk
    by_cases hd : d.isException
    · simp only [exceptionLane, if_pos hd, List.cons_append, List.head?_cons,
        Option.some.injEq] at hb
      subst hb
      rw [UInt8.toNat_ofNat']
      omega
    · simp only [exceptionLane, if_neg hd, List.nil_append] at hb
      have := ih (k := k + 1) (by omega) hb
      omega

/-- The gen-line delta that the mask bit stands for. -/
def maskedGenLine (d : Delta) : Int32 := if d.genLine ≥ 1 then 1 else 0

theorem maskedGenLine_eq {d : Delta} (h : ¬ d.isException) : maskedGenLine d = d.genLine := by
  unfold Delta.isException at h
  unfold maskedGenLine
  simp only [Int32.lt_iff_toInt_lt, Int32.le_iff_toInt_le, GT.gt, GE.ge, ← Int32.toInt_inj,
    Int32.toInt_one, Int32.toInt_zero] at *
  split
  · rw [Int32.toInt_one]; omega
  · rw [Int32.toInt_zero]; omega

section Step
variable {bs : Bytes} {o n : Nat} {e s : Bool} {k : Nat} {d : Delta} {ds : List Delta}
  {r : WindowReader}

/-- Either the next delta is an exception and stands at the cursor, or it is
none and the cursor waits. -/
theorem ExceptionsAt.cases (h : ExceptionsAt bs e k (d :: ds) r)
    (hk : k + (d :: ds).length ≤ 64) :
    (∃ pos idx, e = true ∧ r.genLineExcNextIdx.toNat = k ∧
      readVarint bs (r.genLineExcPos + 1) = some (d.genLine, pos) ∧ bs[pos]? = some idx ∧
      ∀ r', r'.genLineExcPos = pos → r'.genLineExcNextIdx = idx →
        ExceptionsAt bs e (k + 1) ds r') ∨
    (r.genLineExcNextIdx.toNat ≠ k ∧ ¬ d.isException ∧
      ∀ r', r'.genLineExcPos = r.genLineExcPos → r'.genLineExcNextIdx = r.genLineExcNextIdx →
        ExceptionsAt bs e (k + 1) ds r') := by
  simp only [List.length_cons] at hk
  cases e with
  | false =>
    obtain ⟨hidx, hno⟩ : r.genLineExcNextIdx = 0xFF ∧ ∀ d' ∈ d :: ds, ¬ d'.isException := h
    refine .inr ⟨?_, hno d (by simp), ?_⟩
    · have : (0xFF : UInt8).toNat = 255 := rfl
      rw [hidx]
      omega
    · intro r' _ hr'
      exact ⟨hr'.trans hidx, fun d' hd' => hno d' (List.mem_cons_of_mem _ hd')⟩
  | true =>
    obtain ⟨hlane, hidx⟩ : StandsAt bs r.genLineExcPos (exceptionLane k (d :: ds) ++ [0xFF]) ∧
      bs[r.genLineExcPos]? = some r.genLineExcNextIdx := h
    by_cases hd : d.isException
    · simp only [exceptionLane, if_pos hd, List.cons_append, List.append_assoc] at hlane
      have hnext := hlane.tail.right
      -- behind the varint: the next exception's index, or the terminator
      obtain ⟨b, l, hbl⟩ : ∃ b l, exceptionLane (k + 1) ds ++ [0xFF] = b :: l := by
        cases hl : exceptionLane (k + 1) ds with
        | nil => exact ⟨0xFF, [], by simp⟩
        | cons b l => exact ⟨b, l ++ [0xFF], by simp⟩
      have hb := hnext
      rw [hbl] at hb
      refine .inl ⟨_, b, rfl, ?_, readVarint_standsAt hlane.tail, hb.head, ?_⟩
      · have heq := hidx.symm.trans hlane.head
        rw [Option.some.injEq] at heq
        rw [heq, UInt8.toNat_ofNat']
        omega
      · rintro r' rfl' rfl
        exact ⟨by rw [rfl']; exact hnext, by rw [rfl']; exact hb.head⟩
    · simp only [exceptionLane, if_neg hd, List.nil_append] at hlane
      refine .inr ⟨?_, hd, ?_⟩
      · have hhead : (exceptionLane (k + 1) ds ++ [0xFF]).head? = some r.genLineExcNextIdx := by
          rw [← hidx, ← Nat.add_zero r.genLineExcPos, hlane.getElem? (by simp),
            List.head?_eq_getElem?]
        have := exceptionLane_head ds (by omega) hhead
        omega
      · intro r' hpos hidx'
        exact ⟨by rw [hpos]; exact hlane, by rw [hpos, hidx']; exact hidx⟩

/-- Either the source index stays, or its delta stands at the cursor. -/
theorem SourcesAt.cases (h : SourcesAt bs s k (d :: ds) r) :
    (s = true ∧ testBit bs r.srcIdxMask k = some (decide (d.srcIdx = 0)) ∧
      (d.srcIdx ≠ 0 →
        readVarint bs r.srcIdxExcPos =
          some (d.srcIdx, r.srcIdxExcPos + (writeVarint d.srcIdx).length)) ∧
      ∀ r', r'.srcIdxMask = r.srcIdxMask →
        r'.srcIdxExcPos = (if d.srcIdx = 0 then r.srcIdxExcPos
          else r.srcIdxExcPos + (writeVarint d.srcIdx).length) →
        SourcesAt bs s (k + 1) ds r') ∨
    (s = false ∧ d.srcIdx = 0 ∧ ∀ r', SourcesAt bs s (k + 1) ds r') := by
  cases s with
  | false =>
    have hz : ∀ d' ∈ d :: ds, d'.srcIdx = 0 := h
    exact .inr ⟨rfl, hz d (by simp), fun r' d' hd' => hz d' (List.mem_cons_of_mem _ hd')⟩
  | true =>
    obtain ⟨hlane, hbits⟩ : StandsAt bs r.srcIdxExcPos (sourceLane (d :: ds)) ∧
      Bits bs r.srcIdxMask k ((d :: ds).map fun d : Delta => decide (d.srcIdx = 0)) := h
    refine .inl ⟨rfl, hbits.head, ?_, ?_⟩
    · intro hd
      simp only [sourceLane, List.flatMap_cons, if_neg hd] at hlane
      exact readVarint_standsAt hlane
    · intro r' hmask hpos
      refine ⟨?_, by rw [hmask]; exact hbits.tail⟩
      rw [hpos]
      by_cases hd : d.srcIdx = 0
      · simp only [sourceLane, List.flatMap_cons, if_pos hd, List.nil_append] at hlane ⊢
        exact hlane
      · simp only [sourceLane, List.flatMap_cons, if_neg hd] at hlane ⊢
        exact hlane.right

/-- The reader with its two rare cursors moved. -/
def WindowReader.atRare (r : WindowReader) (excPos : Nat) (excIdx : UInt8) (srcPos : Nat) :
    WindowReader :=
  { r with genLineExcPos := excPos, genLineExcNextIdx := excIdx, srcIdxExcPos := srcPos }

theorem nextException_eq (hbytes : r.bytes = bs) (hbase : r.base = o)
    (he : ExceptionsAt bs e k (d :: ds) r) (hk : k + (d :: ds).length ≤ 64)
    (hbit : testBit bs (o + 16) k = some (decide (d.origLine = d.genLine))) :
    ∃ excPos excIdx,
      r.nextException k (maskedGenLine d)
          (if d.origLine = d.genLine then maskedGenLine d else d.origLine) =
        some (r.atRare excPos excIdx r.srcIdxExcPos, d.genLine, d.origLine) ∧
      ∀ r', r'.genLineExcPos = excPos → r'.genLineExcNextIdx = excIdx →
        ExceptionsAt bs e (k + 1) ds r' := by
  subst hbytes hbase
  unfold WindowReader.nextException
  rcases he.cases hk with ⟨pos, idx, -, hidx, hread, hget, hnext⟩ | ⟨hidx, hd, hnext⟩
  · refine ⟨pos, idx, ?_, hnext⟩
    rw [if_pos hidx, hread]
    simp only [WinHdr.origLineEqMaskOff, hbit, hget, Option.bind_eq_bind, Option.bind_some,
      decide_eq_true_eq]
    by_cases hol : d.origLine = d.genLine
    · rw [if_pos hol, hol]; rfl
    · rw [if_neg hol, if_neg hol]; rfl
  · refine ⟨r.genLineExcPos, r.genLineExcNextIdx, ?_, hnext⟩
    rw [if_neg hidx, maskedGenLine_eq hd]
    by_cases hol : d.origLine = d.genLine
    · rw [if_pos hol, hol]; rfl
    · rw [if_neg hol]; rfl

theorem nextSource_eq (hbytes : r.bytes = bs) (hflags : r.flags = flagsOf e s)
    (hs : SourcesAt bs s k (d :: ds) r) (st : State) :
    ∃ srcPos,
      r.nextSource k st = some ({ r with srcIdxExcPos := srcPos },
        { st with sourceIndex := st.sourceIndex + d.srcIdx }) ∧
      ∀ r', r'.srcIdxMask = r.srcIdxMask → r'.srcIdxExcPos = srcPos →
        SourcesAt bs s (k + 1) ds r' := by
  subst hbytes
  have hflag := flagsOf_sources e s
  rw [← hflags] at hflag
  unfold WindowReader.nextSource
  rcases hs.cases with ⟨rfl, htest, hread, hnext⟩ | ⟨rfl, hz, hnext⟩
  · refine ⟨_, ?_, hnext⟩
    rw [if_pos (hflag.mpr rfl), htest]
    by_cases hd : d.srcIdx = 0
    · simp [hd]
    · simp [hd, hread hd]
  · refine ⟨r.srcIdxExcPos, ?_, fun r' _ _ => hnext r'⟩
    rw [if_neg fun h => Bool.noConfusion (hflag.mp h), hz, Int32.add_zero]

/-- `next_rare` corrects the two line deltas and moves the source index. -/
theorem nextRare_eq (hbytes : r.bytes = bs) (hbase : r.base = o) (hflags : r.flags = flagsOf e s)
    (he : ExceptionsAt bs e k (d :: ds) r) (hs : SourcesAt bs s k (d :: ds) r)
    (hk : k + (d :: ds).length ≤ 64)
    (hbit : testBit bs (o + 16) k = some (decide (d.origLine = d.genLine))) (st : State) :
    ∃ excPos excIdx srcPos,
      r.nextRare k (maskedGenLine d)
          (if d.origLine = d.genLine then maskedGenLine d else d.origLine) st =
        some (r.atRare excPos excIdx srcPos, d.genLine, d.origLine,
          { st with sourceIndex := st.sourceIndex + d.srcIdx }) ∧
      ∀ r', r'.genLineExcPos = excPos → r'.genLineExcNextIdx = excIdx →
        r'.srcIdxMask = r.srcIdxMask → r'.srcIdxExcPos = srcPos →
        ExceptionsAt bs e (k + 1) ds r' ∧ SourcesAt bs s (k + 1) ds r' := by
  obtain ⟨excPos, excIdx, hexc, hexcNext⟩ := nextException_eq hbytes hbase he hk hbit
  obtain ⟨srcPos, hsrc, hsrcNext⟩ :=
    nextSource_eq (r := r.atRare excPos excIdx r.srcIdxExcPos) (e := e) hbytes hflags hs st
  refine ⟨excPos, excIdx, srcPos, ?_, ?_⟩
  · simp only [WindowReader.nextRare, hexc, hsrc, Option.bind_eq_bind, Option.bind_some]
    rfl
  · intro r' h₁ h₂ h₃ h₄
    exact ⟨hexcNext r' h₁ h₂, hsrcNext r' h₃ h₄⟩

theorem nextOrigLine_eq (hbytes : r.bytes = bs) (hbase : r.base = o)
    (hbit : testBit bs (o + 16) k = some (decide (d.origLine = d.genLine)))
    (hlane : StandsAt bs r.origLineExcPos (origLineLane (d :: ds))) (g : Int32) :
    ∃ pos, r.nextOrigLine k g =
        some ({ r with origLineExcPos := pos }, if d.origLine = d.genLine then g else d.origLine) ∧
      StandsAt bs pos (origLineLane ds) := by
  subst hbytes hbase
  unfold WindowReader.nextOrigLine
  simp only [WinHdr.origLineEqMaskOff, hbit, Option.bind_eq_bind, Option.bind_some,
    decide_eq_true_eq]
  by_cases hd : d.origLine = d.genLine
  · simp only [origLineLane, List.flatMap_cons, if_pos hd, List.nil_append] at hlane ⊢
    exact ⟨r.origLineExcPos, rfl, hlane⟩
  · simp only [origLineLane, List.flatMap_cons, if_neg hd] at hlane ⊢
    rw [readVarint_standsAt hlane]
    exact ⟨_, rfl, hlane.right⟩

theorem nextOrigCol_eq (hbytes : r.bytes = bs) (hbase : r.base = o)
    (hbit : testBit bs (o + 24) k = some (decide (d.origCol = d.genCol)))
    (hlane : StandsAt bs r.origColExcPos (origColLane (d :: ds))) :
    ∃ pos, r.nextOrigCol k d.genCol = some ({ r with origColExcPos := pos }, d.origCol) ∧
      StandsAt bs pos (origColLane ds) := by
  subst hbytes hbase
  unfold WindowReader.nextOrigCol
  simp only [WinHdr.origColEqMaskOff, hbit, Option.bind_eq_bind, Option.bind_some,
    decide_eq_true_eq]
  by_cases hd : d.origCol = d.genCol
  · simp only [origColLane, List.flatMap_cons, if_pos hd, List.nil_append] at hlane ⊢
    exact ⟨r.origColExcPos, by rw [hd]; rfl, hlane⟩
  · simp only [origColLane, List.flatMap_cons, if_neg hd] at hlane ⊢
    rw [readVarint_standsAt hlane]
    exact ⟨_, rfl, hlane.right⟩

/-- The deltas of a row, added to the row before it, give the row. -/
theorem advance_delta (prev cur : State) :
    State.advance { prev with sourceIndex := prev.sourceIndex + (delta prev cur).srcIdx }
      (delta prev cur).genLine (delta prev cur).genCol (delta prev cur).origLine
      (delta prev cur).origCol = cur := by
  have hadd (a b : Int32) : a + (b - a) = b := by rw [Int32.add_comm, Int32.sub_add_cancel]
  by_cases hd : cur.generatedLine - prev.generatedLine ≠ 0
  · simp only [delta, State.advance, if_pos hd, hadd]
  · have hline : cur.generatedLine = prev.generatedLine := by
      rw [← Int32.sub_add_cancel cur.generatedLine prev.generatedLine, not_not.mp hd,
        Int32.zero_add]
    simp only [delta, State.advance, if_neg hd, hadd]
    rw [← hline]

/-- **One call of `next`**: the next row, and the reader before the remaining deltas. -/
theorem ReaderAt.next {prev cur : State} (h : ReaderAt bs o n e s k (delta prev cur :: ds) r)
    (hk : k + (delta prev cur :: ds).length ≤ 64) :
    ∃ r', r.next prev = some (r', cur) ∧ ReaderAt bs o n e s (k + 1) ds r' := by
  obtain ⟨hbytes, hbase, hcount, hflags, hidx, hgenCol, horigLine, horigCol, hlineBits, holBits,
    hocBits, hexc, hsrc⟩ := h
  subst hbytes hbase hidx
  have hrow := advance_delta prev cur
  set d := delta prev cur with hd
  have hread := readVarint_standsAt (show StandsAt r.bytes r.genColPos
    (writeVarint d.genCol ++ genColLane ds) from hgenCol)
  -- the cursors, one after the other
  set r₁ : WindowReader := { r with
    deltaIdx := r.deltaIdx + 1, genColPos := r.genColPos + (writeVarint d.genCol).length } with hr₁
  obtain ⟨linePos, hline, hlineNext⟩ :=
    nextOrigLine_eq (r := r₁) rfl rfl holBits.head horigLine (maskedGenLine d)
  obtain ⟨colPos, hcol, hcolNext⟩ :=
    nextOrigCol_eq (r := { r₁ with origLineExcPos := linePos }) rfl rfl hocBits.head horigCol
  set r₂ : WindowReader := { r₁ with origLineExcPos := linePos, origColExcPos := colPos } with hr₂
  obtain ⟨excPos, excIdx, srcPos, hrare, hrareNext⟩ :=
    nextRare_eq (r := r₂) rfl rfl hflags hexc hsrc hk holBits.head prev
  have hmask : testBit r.bytes (r.base + 8) r.deltaIdx = some (decide (d.genLine ≥ 1)) :=
    hlineBits.head
  -- `next` up to its last branch
  have hnext : r.next prev =
      if r₂.flags ≠ 0 then
        (r₂.nextRare r.deltaIdx (maskedGenLine d)
          (if d.origLine = d.genLine then maskedGenLine d else d.origLine) prev).bind fun row =>
            some (row.1, row.2.2.2.advance row.2.1 d.genCol row.2.2.1 d.origCol)
      else some (r₂, prev.advance (maskedGenLine d) d.genCol
        (if d.origLine = d.genLine then maskedGenLine d else d.origLine) d.origCol) := by
    simp only [WindowReader.next, WinHdr.genLineMaskOff, hmask, hread, ← hr₁, Option.bind_eq_bind,
      Option.bind_some, decide_eq_true_eq]
    rw [show (if d.genLine ≥ 1 then (1 : Int32) else 0) = maskedGenLine d from rfl, hline]
    simp only [Option.bind_some]
    rw [hcol]
    rfl
  by_cases hfl : r.flags ≠ 0
  · refine ⟨r₂.atRare excPos excIdx srcPos, ?_, ?_⟩
    · rw [hnext, if_pos hfl, hrare]
      exact congrArg (fun st => some (r₂.atRare excPos excIdx srcPos, st)) hrow
    · obtain ⟨he', hs'⟩ := hrareNext (r₂.atRare excPos excIdx srcPos) rfl rfl rfl rfl
      exact ⟨rfl, rfl, hcount, hflags, rfl, hgenCol.right, hlineNext, hcolNext, hlineBits.tail,
        holBits.tail, hocBits.tail, he', hs'⟩
  · -- no exception and no source index in the whole window
    obtain ⟨rfl, rfl⟩ := (flagsOf_eq_zero e s).mp (hflags.symm.trans (not_not.mp hfl))
    obtain ⟨hidx, hno⟩ : r.genLineExcNextIdx = 0xFF ∧ ∀ d' ∈ d :: ds, ¬ d'.isException := hexc
    have hzero : ∀ d' ∈ d :: ds, d'.srcIdx = 0 := hsrc
    refine ⟨r₂, ?_, ?_⟩
    · rw [hzero d (by simp), Int32.add_zero] at hrow
      have hol : (if d.origLine = d.genLine then maskedGenLine d else d.origLine) = d.origLine := by
        rw [maskedGenLine_eq (hno d (by simp))]
        split
        · next heq => exact heq.symm
        · rfl
      rw [hnext, if_neg hfl, hol, maskedGenLine_eq (hno d (by simp))]
      exact congrArg (fun st => some (r₂, st)) hrow
    · exact ⟨rfl, rfl, hcount, hflags, rfl, hgenCol.right, hlineNext, hcolNext, hlineBits.tail,
        holBits.tail, hocBits.tail, ⟨hidx, fun d' hd' => hno d' (List.mem_cons_of_mem _ hd')⟩,
        fun d' hd' => hzero d' (List.mem_cons_of_mem _ hd')⟩

end Step

/-- `next` until done, from delta `k` on: the remaining rows. -/
theorem ReaderAt.drain (hn : n ≤ 64) (rest : List State) :
    ∀ {k fuel : Nat} {prev : State} {r : WindowReader},
      ReaderAt bs o n e s k (deltas prev rest) r → k + rest.length + 1 = n → rest.length ≤ fuel →
      r.drain fuel prev = some rest := by
  induction rest with
  | nil =>
    intro k fuel prev r h hk _
    have hdone : r.done = true := by
      simp only [WindowReader.done, h.deltaIdx, h.count, List.length_nil] at hk ⊢
      simp only [decide_eq_true_eq]
      omega
    cases fuel <;> simp [WindowReader.drain, hdone]
  | cons cur rest ih =>
    intro k fuel prev r h hk hfuel
    simp only [List.length_cons] at hk hfuel
    obtain ⟨fuel, rfl⟩ : ∃ f, fuel = f + 1 := ⟨fuel - 1, by omega⟩
    have hdone : r.done = false := by
      simp only [WindowReader.done, h.deltaIdx, h.count, decide_eq_false_iff_not]
      omega
    have h₀ : ReaderAt bs o n e s k (delta prev cur :: deltas cur rest) r := h
    obtain ⟨r', hnext, h'⟩ := h₀.next (by simp only [List.length_cons, deltas_length]; omega)
    have hrest : r'.drain fuel cur = some rest := ih h' (by omega) (by omega)
    simp [WindowReader.drain, hdone, hnext, hrest]

/-! ## The start of a window -/

/-- The loop of `parse` stops at the terminator. -/
theorem skipExceptions_eq (ds : List Delta) : ∀ {k fuel pos : Nat},
    StandsAt bs pos (exceptionLane k ds ++ [0xFF]) → k + ds.length ≤ 64 →
    (exceptionLane k ds).length < fuel →
      skipExceptions bs fuel pos = some (pos + (exceptionLane k ds).length) := by
  induction ds with
  | nil =>
    intro k fuel pos h _ hfuel
    obtain ⟨fuel, rfl⟩ : ∃ f, fuel = f + 1 := ⟨fuel - 1, by omega⟩
    have h₀ : StandsAt bs pos [0xFF] := h
    simp [skipExceptions, h₀.head, exceptionLane]
  | cons d ds ih =>
    intro k fuel pos h hk hfuel
    simp only [List.length_cons] at hk
    by_cases hd : d.isException
    · simp only [exceptionLane, if_pos hd, List.cons_append, List.append_assoc, List.length_cons,
        List.length_append] at h hfuel ⊢
      obtain ⟨fuel, rfl⟩ : ∃ f, fuel = f + 1 := ⟨fuel - 1, by omega⟩
      have hne : UInt8.ofNat k ≠ 0xFF := by
        rw [ne_eq, ← UInt8.toNat_inj, UInt8.toNat_ofNat']
        have : (0xFF : UInt8).toNat = 255 := rfl
        omega
      have hread := readVarint_standsAt h.tail
      have hrest : skipExceptions bs fuel (pos + 1 + (writeVarint d.genLine).length) = _ :=
        ih h.tail.right (by omega) (by omega)
      simp only [skipExceptions, h.head, if_neg hne, hread, Option.bind_eq_bind,
        Option.bind_some, hrest]
      congr 1
      omega
    · simp only [exceptionLane, if_neg hd, List.nil_append] at h hfuel ⊢
      exact ih h (by omega) hfuel

theorem u16At_standsAt {v : Nat} (h : StandsAt bs pos (leBytes 2 v)) (hv : v < 2 ^ 16) :
    u16At bs pos = some v := by
  have hslice := h.slice
  rw [leBytes_length] at hslice
  rw [u16At, hslice, Option.map_some, ofLe_leBytes_of_lt (by omega)]

/-- The lanes and masks of a window's contents, by its deltas. -/
theorem windowContents_eq (ds : List Delta) (hds : ds.length < 64) :
    let A := contentsFrom 0 Contents.empty ds
    let e := ds.any fun d => d.isException
    let s := ds.any fun d => d.srcIdx ≠ 0
    A.flags = flagsOf e s ∧ A.genCol = genColLane ds ∧ A.origLine = origLineLane ds ∧
      A.origCol = origColLane ds ∧ A.genLine = exceptionLane 0 ds ∧ A.srcIdx = sourceLane ds ∧
      Bits A.genLineMask 0 0 (ds.map fun d => decide (d.genLine ≥ 1)) ∧
      Bits A.origLineMask 0 0 (ds.map fun d => decide (d.origLine = d.genLine)) ∧
      Bits A.origColMask 0 0 (ds.map fun d => decide (d.origCol = d.genCol)) ∧
      Bits A.srcIdxMask 0 0 (ds.map fun d => decide (d.srcIdx = 0)) := by
  intro A e s
  obtain ⟨h₁, h₂, h₃, h₄⟩ := contentsFrom_masks ds 0 Contents.empty
  have hbits (f : Delta → Bool) : Bits (maskFrom 0 (List.replicate 8 0) (ds.map f)) 0 0
      (ds.map f) :=
    maskFrom_bits _ rfl (by rw [List.length_map]; omega) fun i _ hi => clear_mask i hi
  refine ⟨contentsFrom_flags ds 0 .empty false false rfl, contentsFrom_genCol ds 0 .empty,
    contentsFrom_origLine ds 0 .empty, contentsFrom_origCol ds 0 .empty,
    contentsFrom_genLine ds 0 .empty, contentsFrom_srcIdx ds 0 .empty, ?_, ?_, ?_, ?_⟩
  · rw [h₁]; exact hbits _
  · rw [h₂]; exact hbits _
  · rw [h₃]; exact hbits _
  · rw [h₄]; exact hbits _

/-- Where the parts of a window stand. -/
structure WindowAt (bs : Bytes) (o n : Nat) (A : Contents) : Prop where
  count : bs[o + WinHdr.countOff]? = some (UInt8.ofNat n)
  flags : bs[o + WinHdr.flagsOff]? = some A.flags
  genColLen : u16At bs (o + WinHdr.genColLenOff) = some A.genCol.length
  origLineLen : u16At bs (o + WinHdr.origLineLenOff) = some A.origLine.length
  origColLen : u16At bs (o + WinHdr.origColLenOff) = some A.origCol.length
  genLineMask : StandsAt bs (o + 8) A.genLineMask
  origLineMask : StandsAt bs (o + 16) A.origLineMask
  origColMask : StandsAt bs (o + 24) A.origColMask
  genCol : StandsAt bs (o + WinHdr.genColLaneOff) A.genCol
  origLine : StandsAt bs (o + WinHdr.genColLaneOff + A.genCol.length) A.origLine
  origCol : StandsAt bs (o + WinHdr.genColLaneOff + A.genCol.length + A.origLine.length) A.origCol
  rare : StandsAt bs
    (o + WinHdr.genColLaneOff + A.genCol.length + A.origLine.length + A.origCol.length)
    (A.genLineLane ++ A.srcIdxLane)

theorem windowAt {A : Contents} (hw : StandsAt bs o (A.window n)) (hf : A.Fits k) (hk : k < 64) :
    WindowAt bs o n A := by
  have hhdr : StandsAt bs o (A.header n) := hw.left
  have h₂ : StandsAt bs (o + 2) _ := hhdr.right.right
  have h₄ : StandsAt bs (o + 4) _ := h₂.right
  have h₆ : StandsAt bs (o + 6) _ := h₄.right
  have h₈ : StandsAt bs (o + 8) _ := h₆.right
  have h₁₆ : StandsAt bs (o + 8 + A.genLineMask.length) _ := h₈.right
  have h₂₄ := h₁₆.right
  have hlanes : StandsAt bs (o + (A.header n).length) _ := hw.right
  rw [hf.genLineMask] at h₁₆ h₂₄
  rw [hf.origLineMask] at h₂₄
  rw [A.header_length hf n] at hlanes
  have := hf.genCol
  have := hf.origLine
  have := hf.origCol
  exact {
    count := hhdr.head
    flags := hhdr.right.head
    genColLen := u16At_standsAt h₂.left (by omega)
    origLineLen := u16At_standsAt h₄.left (by omega)
    origColLen := u16At_standsAt h₆.left (by omega)
    genLineMask := h₈.left
    origLineMask := h₁₆.left
    origColMask := h₂₄
    genCol := hlanes.left
    origLine := hlanes.right.left
    origCol := hlanes.right.right.left
    rare := hlanes.right.right.right }

theorem exceptionLane_eq_nil (ds : List Delta) : ∀ {k : Nat}, (∀ d ∈ ds, ¬ d.isException) →
    exceptionLane k ds = [] := by
  induction ds with
  | nil => intro k _; rfl
  | cons d ds ih =>
    intro k h
    rw [exceptionLane, if_neg (h d (by simp)), ih fun d' hd' => h d' (List.mem_cons_of_mem _ hd')]
    rfl

/-- The rare lanes in `parse`: the exception lane, if there is one. -/
theorem parseExceptions_eq (pos : Nat) {ds : List Delta} (hds : ds.length < 64)
    (he : e = ds.any fun d => d.isException) {r : WindowReader} (hflags : r.flags = flagsOf e s)
    (hidx : r.genLineExcNextIdx = 0xFF)
    (hlane : StandsAt bs pos (exceptionLane 0 ds ++ if e then [0xFF] else [])) :
    ∃ excPos excIdx,
      r.parseExceptions bs pos =
        some (r.atRare excPos excIdx r.srcIdxExcPos,
          pos + (exceptionLane 0 ds ++ if e then [0xFF] else []).length) ∧
      ∀ r', r'.genLineExcPos = excPos → r'.genLineExcNextIdx = excIdx →
        ExceptionsAt bs e 0 ds r' := by
  have hflag := flagsOf_exceptions e s
  rw [← hflags] at hflag
  unfold WindowReader.parseExceptions
  cases e with
  | true =>
    simp only [if_true] at hlane ⊢
    have hbound := hlane.length_le
    simp only [List.length_append, List.length_singleton] at hbound
    have hget := hlane.getElem? (i := 0) (by simp)
    obtain ⟨b, hb⟩ : ∃ b, (exceptionLane 0 ds ++ [0xFF])[0]? = some b :=
      ⟨_, List.getElem?_eq_getElem (by simp)⟩
    rw [Nat.add_zero, hb] at hget
    have hskip : skipExceptions bs (bs.length + 1) pos = _ :=
      skipExceptions_eq ds hlane (by omega) (by omega)
    refine ⟨pos, b, ?_, ?_⟩
    · rw [if_pos ⟨hflag.mpr rfl, by omega⟩]
      simp only [hget, hskip, Option.bind_eq_bind, Option.bind_some, List.length_append,
        List.length_singleton]
      rfl
    · intro r' hpos' hidx'
      exact ⟨by rw [hpos']; exact hlane, by rw [hpos', hidx']; exact hget⟩
  | false =>
    have hno : ∀ d ∈ ds, ¬ d.isException := by simpa using he.symm
    refine ⟨r.genLineExcPos, 0xFF, ?_, ?_⟩
    · rw [if_neg fun h => Bool.noConfusion (hflag.mp h.1), exceptionLane_eq_nil ds hno]
      rw [← hidx]
      rfl
    · intro r' _ hidx'
      exact ⟨hidx', hno⟩

/-- **`parse` at the start of a window** puts the reader before its first delta. -/
theorem parse_readerAt {first : State} {rest : List State} (hw : StandsAt bs o (windowBytes first rest))
    (hrest : rest.length < 64) (self : WindowReader) :
    ∃ e s r, self.parse bs o = some r ∧
      ReaderAt bs o (rest.length + 1) e s 0 (deltas first rest) r := by
  have hfits := window_fits first rest
  have hat := windowAt hw hfits hrest
  set ds := deltas first rest with hds
  have hlen : ds.length = rest.length := deltas_length first rest
  obtain ⟨hflags, hgc, hol, hoc, hgl, hsi, b₁, b₂, b₃, b₄⟩ := windowContents_eq ds (by omega)
  set A := contentsFrom 0 Contents.empty ds with hA
  set e := ds.any fun d => d.isException with he
  set s := ds.any fun d => d.srcIdx ≠ 0 with hs
  have hbits {l : List Bool} {mask : Bytes} {pos : Nat} (h : StandsAt bs pos mask)
      (hm : mask.length = 8) (hl : l.length = ds.length) (hb : Bits mask 0 0 l) :
      Bits bs pos 0 l :=
    Bits.standsAt h hm (by omega) hb
  have hn : min (UInt8.ofNat (rest.length + 1)).toNat syncInterval = rest.length + 1 := by
    rw [UInt8.toNat_ofNat', syncInterval]
    omega
  set pos := o + WinHdr.genColLaneOff + A.genCol.length + A.origLine.length + A.origCol.length
    with hpos
  -- the reader as `parse` sets it up before the rare lanes
  set r₀ : WindowReader := { self with
    bytes := bs, base := o, count := rest.length + 1, flags := A.flags, deltaIdx := 0
    genColPos := o + WinHdr.genColLaneOff
    origLineExcPos := o + WinHdr.genColLaneOff + A.genCol.length
    origColExcPos := o + WinHdr.genColLaneOff + A.genCol.length + A.origLine.length
    genLineExcNextIdx := 0xFF } with hr₀
  have hparse : self.parse bs o = if A.flags = 0 then some r₀ else
      (r₀.parseExceptions bs pos).bind fun read =>
        if A.flags &&& flagHasSrcIdx ≠ 0 then
          some { read.1 with srcIdxMask := read.2, srcIdxExcPos := read.2 + 8 }
        else some read.1 := by
    simp only [WindowReader.parse, hat.count, hat.flags, hat.genColLen, hat.origLineLen,
      hat.origColLen, Option.bind_eq_bind, Option.bind_some, hn]
    rfl
  have hreader (excPos excIdx srcPos mask) :
      let r := { r₀.atRare excPos excIdx srcPos with srcIdxMask := mask }
      ExceptionsAt bs e 0 ds r → SourcesAt bs s 0 ds r →
        ReaderAt bs o (rest.length + 1) e s 0 ds r := by
    intro r hexc hsrc
    exact {
      bytes := rfl, base := rfl, count := rfl, flags := hflags, deltaIdx := rfl
      genCol := by rw [← hgc]; exact hat.genCol
      origLine := by rw [← hol]; exact hat.origLine
      origCol := by rw [← hoc]; exact hat.origCol
      genLineBits := hbits hat.genLineMask hfits.genLineMask (by simp) b₁
      origLineBits := hbits hat.origLineMask hfits.origLineMask (by simp) b₂
      origColBits := hbits hat.origColMask hfits.origColMask (by simp) b₃
      exceptions := hexc, sources := hsrc }
  have hlane : A.genLineLane = exceptionLane 0 ds ++ if e then [0xFF] else [] := by
    rw [Contents.genLineLane, hflags, hgl]
    simp only [flagsOf_exceptions]
    split <;> simp
  obtain ⟨excPos, excIdx, hexc, hexcAt⟩ := parseExceptions_eq pos (r := r₀) (s := s)
    (by omega) he hflags rfl (by rw [← hlane]; exact hat.rare.left)
  rw [← hlane] at hexc
  refine ⟨e, s, ?_⟩
  rw [hparse]
  by_cases hzero : A.flags = 0
  · obtain ⟨he', hs'⟩ := (flagsOf_eq_zero e s).mp (hflags.symm.trans hzero)
    refine ⟨r₀, if_pos hzero, hreader r₀.genLineExcPos 0xFF r₀.srcIdxExcPos r₀.srcIdxMask ?_ ?_⟩
    · rw [he']
      exact ⟨rfl, by simpa [he'] using he⟩
    · rw [hs']
      show ∀ d ∈ ds, d.srcIdx = 0
      simpa [hs'] using hs
  · have hsrcFlag := flagsOf_sources e s
    rw [← hflags] at hsrcFlag
    simp only [if_neg hzero, hexc, Option.bind_some]
    by_cases hsrc : s = true
    · rw [if_pos (hsrcFlag.mpr hsrc)]
      have hstand := hat.rare.right
      rw [Contents.srcIdxLane, if_pos (hsrcFlag.mpr hsrc)] at hstand
      refine ⟨_, rfl, hreader excPos excIdx (pos + A.genLineLane.length + 8)
        (pos + A.genLineLane.length) (hexcAt _ rfl rfl) ?_⟩
      rw [hsrc]
      refine ⟨?_, hbits hstand.left hfits.srcIdxMask (by simp) b₄⟩
      have := hstand.right
      rw [hfits.srcIdxMask, hsi] at this
      exact this
    · rw [if_neg fun h => hsrc (hsrcFlag.mp h)]
      rw [Bool.not_eq_true] at hsrc
      refine ⟨_, rfl, hreader excPos excIdx r₀.srcIdxExcPos r₀.srcIdxMask (hexcAt _ rfl rfl) ?_⟩
      rw [hsrc]
      show ∀ d ∈ ds, d.srcIdx = 0
      simpa [hsrc] using hs

end OhosBun.SourceMap
