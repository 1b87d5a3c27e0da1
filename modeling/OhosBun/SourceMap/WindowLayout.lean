/-
# `OhosBun.SourceMap.WindowLayout` — what `flush_window` leaves in the stream

`flush_window` writes five lanes and four masks through separate cursors into
reserved sub-ranges of a spare buffer and then moves the lanes together.  This
module says what comes out, without buffer or cursors: `windowBytes`, a header
followed by the lanes back to back (`encodeWindow_eq`).

    Contents      the lanes and masks, as byte strings
    Contents.push what one delta adds to them
    Refines       the buffer holds them, each cursor at the end of its lane

The step lemmas `emit*_refines` are all of one shape: a write at a cursor
extends its own lane and, since no lane outgrows its reservation (`Fits`),
leaves every other assertion alone.  The four compaction copies go left, so a
lane that has not been moved yet is still intact when its turn comes.
-/
import OhosBun.SourceMap.InternalSourceMap

namespace OhosBun.SourceMap

open OhosBun.Lib

/-! ## The contents of a window -/

structure Contents where
  genLineMask : Bytes
  origLineMask : Bytes
  origColMask : Bytes
  srcIdxMask : Bytes
  genCol : Bytes
  origLine : Bytes
  origCol : Bytes
  genLine : Bytes
  srcIdx : Bytes
  flags : UInt8

def Contents.empty : Contents where
  genLineMask := List.replicate 8 0
  origLineMask := List.replicate 8 0
  origColMask := List.replicate 8 0
  srcIdxMask := List.replicate 8 0
  genCol := []
  origLine := []
  origCol := []
  genLine := []
  srcIdx := []
  flags := 0

/-- Set bit `k` of a mask. -/
def setBit (mask : Bytes) (k : Nat) : Bytes := mask.modify (k / 8) (· ||| maskBit k)

/-- The gen-line delta does not round-trip through its mask bit. -/
def Delta.isException (d : Delta) : Prop := d.genLine > 1 ∨ d.genLine < 0

instance (d : Delta) : Decidable d.isException :=
  inferInstanceAs (Decidable (d.genLine > 1 ∨ d.genLine < 0))

namespace Contents
variable (A : Contents) (k : Nat) (d : Delta)

def pushGenLineMask : Contents :=
  { A with genLineMask := if d.genLine ≥ 1 then setBit A.genLineMask k else A.genLineMask }

def pushGenCol : Contents := { A with genCol := A.genCol ++ writeVarint d.genCol }

def pushOrigLine : Contents :=
  { A with
    origLineMask := if d.origLine = d.genLine then setBit A.origLineMask k else A.origLineMask
    origLine := A.origLine ++ if d.origLine = d.genLine then [] else writeVarint d.origLine }

def pushOrigCol : Contents :=
  { A with
    origColMask := if d.origCol = d.genCol then setBit A.origColMask k else A.origColMask
    origCol := A.origCol ++ if d.origCol = d.genCol then [] else writeVarint d.origCol }

def pushGenLine : Contents :=
  { A with
    genLine := A.genLine ++
      if d.isException then UInt8.ofNat k :: writeVarint d.genLine else []
    flags := if d.isException then A.flags ||| flagHasGenLineExceptions else A.flags }

def pushSrcIdx : Contents :=
  { A with
    srcIdxMask := if d.srcIdx = 0 then setBit A.srcIdxMask k else A.srcIdxMask
    srcIdx := A.srcIdx ++ if d.srcIdx = 0 then [] else writeVarint d.srcIdx
    flags := if d.srcIdx = 0 then A.flags else A.flags ||| flagHasSrcIdx }

/-- What the delta with index `k` adds. -/
def push : Contents :=
  (((((A.pushGenLineMask k d).pushGenCol d).pushOrigLine k d).pushOrigCol k d).pushGenLine k
    d).pushSrcIdx k d

end Contents

/-- The deltas of the rows after `prev`. -/
def deltas : State → List State → List Delta
  | _, [] => []
  | prev, cur :: rest => delta prev cur :: deltas cur rest

@[simp] theorem deltas_length (prev : State) (rest : List State) :
    (deltas prev rest).length = rest.length := by
  induction rest generalizing prev with
  | nil => rfl
  | cons cur rest ih => simp [deltas, ih]

/-- Contents `A` with the deltas `ds`, numbered from `k` on, added. -/
@[grind] def contentsFrom : Nat → Contents → List Delta → Contents
  | _, A, [] => A
  | k, A, d :: ds => contentsFrom (k + 1) (A.push k d) ds

/-- The exception lane as stored: with its terminator, when there is one. -/
def Contents.genLineLane (A : Contents) : Bytes :=
  if A.flags &&& flagHasGenLineExceptions ≠ 0 then A.genLine ++ [0xFF] else A.genLine

/-- The source-index lane as stored: absent unless flagged. -/
def Contents.srcIdxLane (A : Contents) : Bytes :=
  if A.flags &&& flagHasSrcIdx ≠ 0 then A.srcIdxMask ++ A.srcIdx else []

def Contents.header (A : Contents) (n : Nat) : Bytes :=
  [UInt8.ofNat n] ++ ([A.flags] ++ (leBytes 2 A.genCol.length ++ (leBytes 2 A.origLine.length ++
    (leBytes 2 A.origCol.length ++ (A.genLineMask ++ (A.origLineMask ++ A.origColMask))))))

/-- A window of `n` rows with the given contents. -/
def Contents.window (A : Contents) (n : Nat) : Bytes :=
  A.header n ++ (A.genCol ++ (A.origLine ++ (A.origCol ++ (A.genLineLane ++ A.srcIdxLane))))

/-- The window of the rows `first :: rest`. -/
def windowBytes (first : State) (rest : List State) : Bytes :=
  (contentsFrom 0 .empty (deltas first rest)).window (rest.length + 1)

/-! ## No lane outgrows its reservation -/

/-- Sizes after `k` deltas. -/
structure Contents.Fits (A : Contents) (k : Nat) : Prop where
  genLineMask : A.genLineMask.length = 8
  origLineMask : A.origLineMask.length = 8
  origColMask : A.origColMask.length = 8
  srcIdxMask : A.srcIdxMask.length = 8
  genCol : A.genCol.length ≤ k * 5
  origLine : A.origLine.length ≤ k * 5
  origCol : A.origCol.length ≤ k * 5
  genLine : A.genLine.length ≤ k * 6
  srcIdx : A.srcIdx.length ≤ k * 5

theorem Contents.Fits.empty : Contents.empty.Fits 0 := by
  constructor <;> decide

@[simp] theorem setBit_length (mask : Bytes) (k : Nat) : (setBit mask k).length = mask.length := by
  simp [setBit]

variable {A : Contents} {k nd : Nat} {n : UInt8} {m : Mem} {front : Bytes}

theorem Contents.Fits.push (h : A.Fits k) (d : Delta) :
    (A.push k d).Fits (k + 1) := by
  have hv (x : Int32) : (writeVarint x).length ≤ 5 := writeVarint_length_le x
  have hlane {l : Bytes} {p : Prop} [Decidable p] (x : Int32) (hl : l.length ≤ k * 5) :
      (l ++ if p then [] else writeVarint x).length ≤ (k + 1) * 5 := by
    have := hv x
    split <;> simp only [List.length_append, List.length_nil] <;> omega
  have hmask {l : Bytes} {p : Prop} [Decidable p] (hl : l.length = 8) :
      (if p then setBit l k else l).length = 8 := by
    split
    · rw [setBit_length, hl]
    · exact hl
  refine ⟨hmask h.genLineMask, hmask h.origLineMask, hmask h.origColMask, hmask h.srcIdxMask,
    ?_, hlane _ h.origLine, hlane _ h.origCol, ?_, hlane _ h.srcIdx⟩
  · have := hv d.genCol
    have := h.genCol
    simp only [Contents.push, Contents.pushGenLineMask, Contents.pushGenCol,
      Contents.pushOrigLine, Contents.pushOrigCol, Contents.pushGenLine, Contents.pushSrcIdx,
      List.length_append]
    omega
  · have := hv d.genLine
    have := h.genLine
    simp only [Contents.push, Contents.pushGenLineMask, Contents.pushGenCol,
      Contents.pushOrigLine, Contents.pushOrigCol, Contents.pushGenLine, Contents.pushSrcIdx,
      List.length_append]
    split <;> simp only [List.length_cons, List.length_nil] <;> omega

theorem contentsFrom_fits (ds : List Delta) : ∀ {k : Nat} {A : Contents}, A.Fits k →
    (contentsFrom k A ds).Fits (k + ds.length) := by
  induction ds with
  | nil => intro k A h; exact h
  | cons d ds ih =>
    intro k A h
    have := ih (h.push d)
    rwa [Nat.add_assoc, Nat.add_comm 1] at this

/-- The contents of the window of `first :: rest`. -/
theorem window_fits (first : State) (rest : List State) :
    (contentsFrom 0 .empty (deltas first rest)).Fits rest.length := by
  have := contentsFrom_fits (deltas first rest) Contents.Fits.empty
  rwa [deltas_length, Nat.zero_add] at this

/-! ## The buffer holds the contents -/

/-- The reserved sub-ranges of the spare buffer that the delta loop writes. -/
inductive Region where
  | count | genLineMask | origLineMask | origColMask
  | genCol | origLine | origCol | genLine | srcIdxMask | srcIdx

/-- Where a sub-range starts when `nd` deltas are reserved. -/
def Region.start (nd : Nat) : Region → Nat
  | .count => WinHdr.countOff
  | .genLineMask => WinHdr.genLineMaskOff
  | .origLineMask => WinHdr.origLineEqMaskOff
  | .origColMask => WinHdr.origColEqMaskOff
  | .genCol => (laneBases nd).genCol
  | .origLine => (laneBases nd).origLine
  | .origCol => (laneBases nd).origCol
  | .genLine => (laneBases nd).genLine
  | .srcIdxMask => (laneBases nd).srcIdx
  | .srcIdx => (laneBases nd).srcIdx + 8

/-- The reserved width; the exception lane has one byte more for its terminator. -/
def Region.width (nd : Nat) : Region → Nat
  | .count => 1
  | .genLineMask | .origLineMask | .origColMask | .srcIdxMask => 8
  | .genCol | .origLine | .origCol | .srcIdx => nd * 5
  | .genLine => nd * 6 + 1

/-- The bases, as numbers `omega` can read. -/
theorem laneBases_eq (nd : Nat) : laneBases nd =
    { genCol := 32, origLine := 32 + nd * 5, origCol := 32 + nd * 5 + nd * 5,
      genLine := 32 + nd * 5 + nd * 5 + nd * 5,
      srcIdx := 32 + nd * 5 + nd * 5 + nd * 5 + nd * 6 + 1 } := rfl

theorem Region.disjoint (nd : Nat) {r r' : Region} (h : r ≠ r') :
    r.start nd + r.width nd ≤ r'.start nd ∨ r'.start nd + r'.width nd ≤ r.start nd := by
  cases r <;> cases r' <;>
    simp only [Region.start, Region.width, laneBases_eq, WinHdr.countOff, WinHdr.genLineMaskOff,
      WinHdr.origLineEqMaskOff, WinHdr.origColEqMaskOff, ne_eq, not_true_eq_false] at h ⊢ <;>
    omega

/-- What a sub-range holds. -/
def Contents.at (A : Contents) (n : UInt8) : Region → Bytes
  | .count => [n]
  | .genLineMask => A.genLineMask
  | .origLineMask => A.origLineMask
  | .origColMask => A.origColMask
  | .genCol => A.genCol
  | .origLine => A.origLine
  | .origCol => A.origCol
  | .genLine => A.genLine
  | .srcIdxMask => A.srcIdxMask
  | .srcIdx => A.srcIdx

/-- Every sub-range holds its contents and has room for them. -/
structure Held (nd : Nat) (n : UInt8) (m : Mem) (A : Contents) : Prop where
  holds : ∀ r : Region, m.Holds (r.start nd) (A.at n r)
  room : ∀ r : Region, (A.at n r).length ≤ r.width nd

section Held
variable {nd : Nat} {n : UInt8} {m : Mem} {A B : Contents}

/-- Frame rule for the spare buffer: a write inside one sub-range changes what
that sub-range holds and nothing else. -/
theorem Held.write (h : Held nd n m A) (r : Region) {o : Nat} {w : Bytes}
    (hlo : r.start nd ≤ o) (hhi : o + w.length ≤ r.start nd + r.width nd)
    (hnew : (m.writeAt o w).Holds (r.start nd) (B.at n r))
    (hroom : (B.at n r).length ≤ r.width nd)
    (hsame : ∀ r', r' ≠ r → B.at n r' = A.at n r') : Held nd n (m.writeAt o w) B := by
  constructor
  · intro r'
    by_cases hr : r' = r
    · subst hr; exact hnew
    · rw [hsame r' hr]
      have hd := Region.disjoint nd hr
      have hl := h.room r'
      exact (h.holds r').frame (by omega)
  · intro r'
    by_cases hr : r' = r
    · subst hr; exact hroom
    · rw [hsame r' hr]; exact h.room r'

/-- A write at the cursor of a lane appends to the lane. -/
theorem Held.snoc (h : Held nd n m A) (r : Region) {o : Nat} {w : Bytes}
    (ho : o = r.start nd + (A.at n r).length) (hroom : (A.at n r).length + w.length ≤ r.width nd)
    (hnew : B.at n r = A.at n r ++ w) (hsame : ∀ r', r' ≠ r → B.at n r' = A.at n r') :
    Held nd n (m.writeAt o w) B := by
  refine h.write r (by omega) (by omega) ?_ ?_ hsame
  · rw [hnew]
    exact (h.holds r).snoc ho w
  · rw [hnew, List.length_append]
    exact hroom

/-- Setting a bit of a mask. -/
theorem Held.orBit (h : Held nd n m A) (r : Region) {k : Nat} (hk : k < 64)
    (hwidth : r.width nd = 8) (hnew : B.at n r = setBit (A.at n r) k)
    (hsame : ∀ r', r' ≠ r → B.at n r' = A.at n r') :
    Held nd n (SourceMap.orBit m (r.start nd + k / 8) (maskBit k)) B := by
  refine h.write r (by omega) ?_ ?_ ?_ hsame
  · simp only [List.length_singleton]; omega
  · rw [hnew]
    exact (h.holds r).modify (k / 8) (· ||| maskBit k)
  · rw [hnew, setBit_length]
    exact h.room r

end Held

/-- The buffer holds the contents, each cursor stands at the end of its lane. -/
structure Refines (nd : Nat) (n : UInt8) (c : Cursors) (A : Contents) : Prop where
  held : Held nd n c.buf A
  wGenCol : c.wGenCol = (laneBases nd).genCol + A.genCol.length
  wOrigLine : c.wOrigLine = (laneBases nd).origLine + A.origLine.length
  wOrigCol : c.wOrigCol = (laneBases nd).origCol + A.origCol.length
  wGenLine : c.wGenLine = (laneBases nd).genLine + A.genLine.length
  wSrcIdx : c.wSrcIdx = (laneBases nd).srcIdx + 8 + A.srcIdx.length
  flags : c.flags = A.flags

section Steps
variable {nd k : Nat} {n : UInt8} {c : Cursors} {A : Contents} {d : Delta}

theorem emitGenLineMask_refines (h : Refines nd n c A) (hk : k < 64) :
    Refines nd n (emitGenLineMask k d c) (A.pushGenLineMask k d) := by
  unfold emitGenLineMask Contents.pushGenLineMask
  by_cases hd : d.genLine ≥ 1
  · simp only [if_pos hd]
    have held := h.held.orBit (B := { A with genLineMask := setBit A.genLineMask k })
      .genLineMask hk rfl rfl (by intro r' hr; cases r' <;> first | rfl | exact absurd rfl hr)
    exact { h with held := held }
  · simp only [if_neg hd]
    exact h

theorem emitGenCol_refines (h : Refines nd n c A) (hl : A.genCol.length ≤ k * 5) (hk : k < nd) :
    Refines nd n (emitGenCol d c) (A.pushGenCol d) := by
  have hlen := writeVarint_length_le d.genCol
  have hw := h.wGenCol
  have held := h.held.snoc (B := A.pushGenCol d) .genCol hw
    (by simp only [Contents.at, Region.width, maxVarintLen] at hlen ⊢; omega) rfl
    (by intro r' hr; cases r' <;> first | rfl | exact absurd rfl hr)
  have hcur : (emitGenCol d c).wGenCol = (laneBases nd).genCol + (A.pushGenCol d).genCol.length := by
    simp only [emitGenCol, Contents.pushGenCol, List.length_append]; omega
  exact { h with held := held, wGenCol := hcur }

theorem emitOrigLine_refines (h : Refines nd n c A) (hl : A.origLine.length ≤ k * 5)
    (hk : k < nd) (hnd : nd < 64) :
    Refines nd n (emitOrigLine k d c) (A.pushOrigLine k d) := by
  have hlen := writeVarint_length_le d.origLine
  have hw := h.wOrigLine
  unfold emitOrigLine Contents.pushOrigLine
  by_cases hd : d.origLine = d.genLine
  · simp only [if_pos hd, List.append_nil]
    have held := h.held.orBit (B := { A with origLineMask := setBit A.origLineMask k })
      .origLineMask (by omega : k < 64) rfl rfl
      (by intro r' hr; cases r' <;> first | rfl | exact absurd rfl hr)
    exact { h with held := held }
  · simp only [if_neg hd]
    have held := h.held.snoc (B := { A with origLine := A.origLine ++ writeVarint d.origLine })
      .origLine hw (by simp only [Contents.at, Region.width, maxVarintLen] at hlen ⊢; omega) rfl
      (by intro r' hr; cases r' <;> first | rfl | exact absurd rfl hr)
    have hcur : c.wOrigLine + (writeVarint d.origLine).length =
        (laneBases nd).origLine + (A.origLine ++ writeVarint d.origLine).length := by
      rw [List.length_append]; omega
    exact { h with held := held, wOrigLine := hcur }

theorem emitOrigCol_refines (h : Refines nd n c A) (hl : A.origCol.length ≤ k * 5)
    (hk : k < nd) (hnd : nd < 64) :
    Refines nd n (emitOrigCol k d c) (A.pushOrigCol k d) := by
  have hlen := writeVarint_length_le d.origCol
  have hw := h.wOrigCol
  unfold emitOrigCol Contents.pushOrigCol
  by_cases hd : d.origCol = d.genCol
  · simp only [if_pos hd, List.append_nil]
    have held := h.held.orBit (B := { A with origColMask := setBit A.origColMask k })
      .origColMask (by omega : k < 64) rfl rfl
      (by intro r' hr; cases r' <;> first | rfl | exact absurd rfl hr)
    exact { h with held := held }
  · simp only [if_neg hd]
    have held := h.held.snoc (B := { A with origCol := A.origCol ++ writeVarint d.origCol })
      .origCol hw (by simp only [Contents.at, Region.width, maxVarintLen] at hlen ⊢; omega) rfl
      (by intro r' hr; cases r' <;> first | rfl | exact absurd rfl hr)
    have hcur : c.wOrigCol + (writeVarint d.origCol).length =
        (laneBases nd).origCol + (A.origCol ++ writeVarint d.origCol).length := by
      rw [List.length_append]; omega
    exact { h with held := held, wOrigCol := hcur }

theorem emitGenLineException_refines (h : Refines nd n c A) (hl : A.genLine.length ≤ k * 6)
    (hk : k < nd) :
    Refines nd n (emitGenLineException k d c) (A.pushGenLine k d) := by
  have hlen := writeVarint_length_le d.genLine
  have hw := h.wGenLine
  unfold emitGenLineException Contents.pushGenLine
  by_cases hd : d.isException
  · -- two writes: the index byte, then the varint behind it
    have hd' : d.genLine > 1 ∨ d.genLine < 0 := hd
    simp only [if_pos hd, if_pos hd']
    have h₁ := h.held.snoc (B := { A with genLine := A.genLine ++ [UInt8.ofNat k] }) .genLine hw
      (by simp only [Contents.at, Region.width, List.length_singleton]; omega) rfl
      (by intro r' hr; cases r' <;> first | rfl | exact absurd rfl hr)
    have held := h₁.snoc
      (B := { A with
        genLine := A.genLine ++ (UInt8.ofNat k :: writeVarint d.genLine)
        flags := A.flags ||| flagHasGenLineExceptions })
      .genLine (o := c.wGenLine + 1) (w := writeVarint d.genLine)
      (by simp only [Contents.at, Region.start, List.length_append, List.length_singleton]; omega)
      (by
        simp only [Contents.at, Region.width, List.length_append, List.length_singleton,
          maxVarintLen] at hlen ⊢
        omega)
      (by simp [Contents.at])
      (by intro r' hr; cases r' <;> first | rfl | exact absurd rfl hr)
    have hcur : c.wGenLine + 1 + (writeVarint d.genLine).length = (laneBases nd).genLine +
        (A.genLine ++ (UInt8.ofNat k :: writeVarint d.genLine)).length := by
      rw [List.length_append, List.length_cons]; omega
    exact { h with held := held, wGenLine := hcur, flags := by simp only [h.flags] }
  · have hd' : ¬ (d.genLine > 1 ∨ d.genLine < 0) := hd
    simp only [if_neg hd, if_neg hd', List.append_nil]
    exact h

theorem emitSrcIdx_refines (h : Refines nd n c A) (hl : A.srcIdx.length ≤ k * 5)
    (hk : k < nd) (hnd : nd < 64) :
    Refines nd n (emitSrcIdx (laneBases nd) k d c) (A.pushSrcIdx k d) := by
  have hlen := writeVarint_length_le d.srcIdx
  have hw := h.wSrcIdx
  unfold emitSrcIdx Contents.pushSrcIdx
  by_cases hd : d.srcIdx = 0
  · simp only [if_pos hd, List.append_nil]
    have held := h.held.orBit (B := { A with srcIdxMask := setBit A.srcIdxMask k })
      .srcIdxMask (by omega : k < 64) rfl rfl
      (by intro r' hr; cases r' <;> first | rfl | exact absurd rfl hr)
    exact { h with held := held }
  · simp only [if_neg hd]
    have held := h.held.snoc
      (B := { A with
        srcIdx := A.srcIdx ++ writeVarint d.srcIdx
        flags := A.flags ||| flagHasSrcIdx })
      .srcIdx hw (by simp only [Contents.at, Region.width, maxVarintLen] at hlen ⊢; omega) rfl
      (by intro r' hr; cases r' <;> first | rfl | exact absurd rfl hr)
    have hcur : c.wSrcIdx + (writeVarint d.srcIdx).length =
        (laneBases nd).srcIdx + 8 + (A.srcIdx ++ writeVarint d.srcIdx).length := by
      rw [List.length_append]; omega
    exact { h with held := held, wSrcIdx := hcur, flags := by simp only [h.flags] }

/-- One iteration of the delta loop adds one delta to the contents. -/
theorem emitDelta_refines (h : Refines nd n c A) (hf : A.Fits k) (hk : k < nd) (hnd : nd < 64) :
    Refines nd n (emitDelta (laneBases nd) k d c) (A.push k d) := by
  have h₁ := emitGenLineMask_refines (d := d) h (by omega : k < 64)
  have h₂ := emitGenCol_refines (d := d) h₁ hf.genCol hk
  have h₃ := emitOrigLine_refines (d := d) h₂ hf.origLine hk hnd
  have h₄ := emitOrigCol_refines (d := d) h₃ hf.origCol hk hnd
  have h₅ := emitGenLineException_refines (d := d) h₄ hf.genLine hk
  exact emitSrcIdx_refines (d := d) h₅ hf.srcIdx hk hnd

end Steps

/-- The whole delta loop. -/
theorem emitDeltas_refines (hnd : nd < 64) (rest : List State) :
    ∀ (prev : State) {k : Nat} {c : Cursors} {A : Contents}, k + rest.length = nd →
      Refines nd n c A → A.Fits k →
      Refines nd n (emitDeltas (laneBases nd) k prev rest c)
        (contentsFrom k A (deltas prev rest)) := by
  induction rest with
  | nil =>
    intro prev k c A _ h _
    exact h
  | cons cur rest ih =>
    intro prev k c A hk h hf
    simp only [List.length_cons] at hk
    have hstep := emitDelta_refines (d := delta prev cur) h hf (by omega) hnd
    exact ih cur (by omega) hstep (hf.push _)

/-! ## The committed bytes -/

/-- The buffer as the loop finds it: a zeroed header with the count in it and a
zeroed source-index mask. -/
theorem initial_refines (spare : Mem) (nd : Nat) (n : UInt8) :
    Refines nd n
      { buf := ((spare.writeAt 0 (List.replicate WinHdr.genColLaneOff 0)).writeAt
          WinHdr.countOff [n]).writeAt (laneBases nd).srcIdx (List.replicate 8 0)
        flags := 0, wGenCol := (laneBases nd).genCol, wOrigLine := (laneBases nd).origLine
        wOrigCol := (laneBases nd).origCol, wGenLine := (laneBases nd).genLine
        wSrcIdx := (laneBases nd).srcIdx + 8 }
      Contents.empty := by
  have hz : (spare.writeAt 0 (List.replicate WinHdr.genColLaneOff 0)).Holds 0
      (List.replicate 8 0 ++ (List.replicate 8 0 ++ (List.replicate 8 0 ++ List.replicate 8 0))) :=
    Mem.Holds.write spare 0 (List.replicate WinHdr.genColLaneOff 0)
  -- a mask of the zeroed header survives the count and the source-index mask
  have hmask (off : Nat) (h : (spare.writeAt 0 (List.replicate WinHdr.genColLaneOff 0)).Holds off
      (List.replicate 8 0)) (hlo : 1 ≤ off) (hhi : off ≤ 24) :
      (((spare.writeAt 0 (List.replicate WinHdr.genColLaneOff 0)).writeAt
        WinHdr.countOff [n]).writeAt (laneBases nd).srcIdx (List.replicate 8 0)).Holds off
        (List.replicate 8 0) := by
    refine (h.frame ?_).frame ?_
    · simp only [WinHdr.countOff, List.length_singleton]; omega
    · simp only [laneBases_eq, List.length_replicate]; omega
  have hcount : (((spare.writeAt 0 (List.replicate WinHdr.genColLaneOff 0)).writeAt
      WinHdr.countOff [n]).writeAt (laneBases nd).srcIdx (List.replicate 8 0)).Holds
      WinHdr.countOff [n] :=
    (Mem.Holds.write _ WinHdr.countOff [n]).frame
      (by simp only [laneBases_eq, WinHdr.countOff, List.length_singleton]; omega)
  refine ⟨⟨?_, ?_⟩, rfl, rfl, rfl, rfl, rfl, rfl⟩
  · intro r
    cases r with
    | count => exact hcount
    | genLineMask => exact hmask 8 hz.right.left (by decide) (by decide)
    | origLineMask => exact hmask 16 hz.right.right.left (by decide) (by decide)
    | origColMask => exact hmask 24 hz.right.right.right (by decide) (by decide)
    | srcIdxMask => exact Mem.Holds.write _ _ _
    | genCol | origLine | origCol | genLine | srcIdx => exact Mem.Holds.nil
  · intro r
    cases r <;> simp [Contents.at, Contents.empty, Region.width]

/-- The count is the only part of the first eight bytes that the loop owns. -/
theorem Held.frameHeader (h : Held nd n m A) {o : Nat} {w : Bytes} (hlo : 1 ≤ o)
    (hhi : o + w.length ≤ 8) :
    Held nd n (m.writeAt o w) A := by
  refine ⟨fun r => (h.holds r).frame ?_, h.room⟩
  cases r <;>
    simp only [Region.start, Contents.at, laneBases_eq, WinHdr.countOff, WinHdr.genLineMaskOff,
      WinHdr.origLineEqMaskOff, WinHdr.origColEqMaskOff, List.length_singleton] <;>
    omega

/-- The terminator closes the exception lane. -/
theorem terminator_refines {c : Cursors} (h : Refines nd n c A) (hf : A.Fits nd) :
    let c' := if c.flags &&& flagHasGenLineExceptions ≠ 0 then
        { c with buf := c.buf.writeAt c.wGenLine [0xFF], wGenLine := c.wGenLine + 1 }
      else c
    Refines nd n c' { A with genLine := A.genLineLane } := by
  intro c'
  have hw := h.wGenLine
  have hl := hf.genLine
  by_cases hflag : A.flags &&& flagHasGenLineExceptions ≠ 0
  · have held := h.held.snoc (B := { A with genLine := A.genLine ++ [0xFF] }) .genLine
      (w := [0xFF]) hw (by simp only [Contents.at, Region.width, List.length_singleton]; omega) rfl
      (by intro r' hr; cases r' <;> first | rfl | exact absurd rfl hr)
    have hcur : c.wGenLine + 1 = (laneBases nd).genLine + (A.genLine ++ [0xFF]).length := by
      rw [List.length_append, List.length_singleton]; omega
    simp only [c', h.flags, if_pos hflag, Contents.genLineLane]
    exact { h with held := held, wGenLine := hcur, flags := rfl }
  · simp only [c', h.flags, if_neg hflag, Contents.genLineLane]
    exact h

/-- The five header fields and the masks, once the loop is done: the header and
the first lane stand at the front of the buffer. -/
theorem holds_header {n : Nat} (h : Held nd (UInt8.ofNat n) m A) (h₁ : A.genLineMask.length = 8)
    (h₂ : A.origLineMask.length = 8) (h₃ : A.origColMask.length = 8) :
    let m' := (((m.writeAt WinHdr.flagsOff [A.flags]).writeAt WinHdr.genColLenOff
      (leBytes 2 A.genCol.length)).writeAt WinHdr.origLineLenOff
      (leBytes 2 A.origLine.length)).writeAt WinHdr.origColLenOff (leBytes 2 A.origCol.length)
    Held nd (UInt8.ofNat n) m' A ∧ m'.Holds 0 (A.header n ++ A.genCol) := by
  intro m'
  have hlen (v : Nat) : (leBytes 2 v).length = 2 := leBytes_length 2 v
  have held : Held nd (UInt8.ofNat n) m' A := by
    refine (((h.frameHeader ?_ ?_).frameHeader ?_ ?_).frameHeader ?_ ?_).frameHeader ?_ ?_ <;>
      simp [WinHdr.flagsOff, WinHdr.genColLenOff, WinHdr.origLineLenOff, WinHdr.origColLenOff]
  refine ⟨held, ?_⟩
  have hflags : m'.Holds 1 [A.flags] := by
    refine (((Mem.Holds.write m 1 [A.flags]).frame ?_).frame ?_).frame ?_ <;>
      simp [WinHdr.genColLenOff, WinHdr.origLineLenOff, WinHdr.origColLenOff]
  have hgc : m'.Holds 2 (leBytes 2 A.genCol.length) := by
    refine ((Mem.Holds.write _ 2 _).frame ?_).frame ?_ <;>
      simp [WinHdr.origLineLenOff, WinHdr.origColLenOff]
  have hol : m'.Holds 4 (leBytes 2 A.origLine.length) :=
    (Mem.Holds.write _ 4 _).frame (by simp [WinHdr.origColLenOff])
  have hoc : m'.Holds 6 (leBytes 2 A.origCol.length) := Mem.Holds.write _ 6 _
  have hmasks : m'.Holds 8 (A.genLineMask ++ (A.origLineMask ++ A.origColMask)) :=
    (held.holds .genLineMask).append (o := 16) (by rw [Contents.at, h₁]; rfl)
      ((held.holds .origLineMask).append (o := 24) (by rw [Contents.at, h₂]; rfl)
        (held.holds .origColMask))
  have hheader : m'.Holds 0 (A.header n) :=
    (held.holds .count).append (o := 1) rfl <| hflags.append (o := 2) rfl <|
      hgc.append (o := 4) (by rw [hlen]) <| hol.append (o := 6) (by rw [hlen]) <|
        hoc.append (o := 8) (by rw [hlen]) hmasks
  have hheaderLen : (A.header n).length = 32 := by
    simp [Contents.header, h₁, h₂, h₃]
  exact hheader.append (by rw [hheaderLen]; rfl) (held.holds .genCol)

theorem Contents.header_length (hf : A.Fits k) (n : Nat) :
    (A.header n).length = 32 := by
  simp [Contents.header, hf.genLineMask, hf.origLineMask, hf.origColMask]

/-- A copy to the end of the compacted prefix extends it, and does not reach
what stands further up. -/
theorem holds_copy {lane : Bytes} {src : Nat} (hfront : m.Holds 0 front) (hlane : m.Holds src lane) :
    (m.copy src front.length lane.length).Holds 0 (front ++ lane) ∧
      ∀ {off : Nat} {bs : Bytes}, m.Holds off bs → front.length + lane.length ≤ off →
        (m.copy src front.length lane.length).Holds off bs := by
  have hread : m.readAt src lane.length = lane := hlane
  constructor
  · simp only [Mem.copy, hread]
    exact hfront.snoc (by omega) lane
  · intro off bs h hle
    exact h.frame (by rw [Mem.readAt_length]; omega)

/-- The compaction: four lanes, each at or above the place it moves to and
below the next one, end up back to back behind the front. -/
theorem compact_eq {l₁ l₂ l₃ l₄ : Bytes} {o₁ o₂ o₃ o₄ : Nat} (hfront : m.Holds 0 front)
    (h₁ : m.Holds o₁ l₁) (h₂ : m.Holds o₂ l₂) (h₃ : m.Holds o₃ l₃) (h₄ : m.Holds o₄ l₄)
    (b₁ : front.length ≤ o₁) (b₂ : o₁ + l₁.length ≤ o₂) (b₃ : o₂ + l₂.length ≤ o₃)
    (b₄ : o₃ + l₃.length ≤ o₄) :
    ((((m.copy o₁ front.length l₁.length).copy o₂ (front.length + l₁.length) l₂.length).copy o₃
        (front.length + l₁.length + l₂.length) l₃.length).copy o₄
        (front.length + l₁.length + l₂.length + l₃.length) l₄.length).readAt 0
        (front.length + l₁.length + l₂.length + l₃.length + l₄.length) =
      front ++ (l₁ ++ (l₂ ++ (l₃ ++ l₄))) := by
  obtain ⟨f₁, k₁⟩ := holds_copy hfront h₁
  obtain ⟨f₂, k₂⟩ := holds_copy f₁ (k₁ h₂ (by omega))
  simp only [List.length_append] at f₂ k₂
  obtain ⟨f₃, k₃⟩ := holds_copy f₂ (k₂ (k₁ h₃ (by omega)) (by omega))
  simp only [List.length_append] at f₃ k₃
  obtain ⟨f₄, -⟩ := holds_copy f₃ (k₃ (k₂ (k₁ h₄ (by omega)) (by omega)) (by omega))
  simp only [List.length_append] at f₄
  have hread : Mem.readAt _ 0 (front ++ l₁ ++ l₂ ++ l₃ ++ l₄).length = _ := f₄
  simpa only [List.length_append, List.append_assoc, Nat.add_assoc] using hread

/-- The header fields, then the compaction, on a buffer that holds the closed
lanes. -/
theorem compact_window {n : Nat} (hfits : A.Fits nd)
    (h : Held nd (UInt8.ofNat n) m { A with genLine := A.genLineLane }) :
    let m₀ := (((m.writeAt WinHdr.flagsOff [A.flags]).writeAt WinHdr.genColLenOff
      (leBytes 2 A.genCol.length)).writeAt WinHdr.origLineLenOff
      (leBytes 2 A.origLine.length)).writeAt WinHdr.origColLenOff (leBytes 2 A.origCol.length)
    let w₁ := (laneBases nd).genCol + A.genCol.length
    let m₁ := m₀.copy (laneBases nd).origLine w₁ A.origLine.length
    let w₂ := w₁ + A.origLine.length
    let m₂ := m₁.copy (laneBases nd).origCol w₂ A.origCol.length
    let w₃ := w₂ + A.origCol.length
    let m₃ := m₂.copy (laneBases nd).genLine w₃ A.genLineLane.length
    let w₄ := w₃ + A.genLineLane.length
    let m₄ := m₃.copy (laneBases nd).srcIdx w₄ A.srcIdxLane.length
    m₄.readAt 0 (w₄ + A.srcIdxLane.length) = A.window n := by
  intro m₀ w₁ m₁ w₂ m₂ w₃ m₃ w₄ m₄
  obtain ⟨held, hfront⟩ : Held nd (UInt8.ofNat n) m₀ { A with genLine := A.genLineLane } ∧
      m₀.Holds 0 (A.header n ++ A.genCol) :=
    holds_header h hfits.genLineMask hfits.origLineMask hfits.origColMask
  have hw₁ : (A.header n ++ A.genCol).length = w₁ := by
    rw [List.length_append, Contents.header_length hfits n]; rfl
  -- the source-index lane is one piece, and not stored when not flagged
  have hsrc : m₀.Holds (laneBases nd).srcIdx A.srcIdxLane := by
    unfold Contents.srcIdxLane
    split
    · have hadj : Region.start nd .srcIdx = (laneBases nd).srcIdx + A.srcIdxMask.length := by
        rw [hfits.srcIdxMask]; rfl
      exact (held.holds .srcIdxMask).append hadj (held.holds .srcIdx)
    · exact Mem.Holds.nil
  have b₁ := hfits.genCol
  have b₂ := hfits.origLine
  have b₃ := hfits.origCol
  have b₄ : A.genLineLane.length ≤ nd * 6 + 1 := held.room .genLine
  have key := compact_eq hfront (held.holds .origLine) (held.holds .origCol) (held.holds .genLine)
    hsrc
    (by rw [hw₁]; simp only [w₁, Region.start, laneBases_eq]; omega)
    (by simp only [Region.start, Contents.at, laneBases_eq]; omega)
    (by simp only [Region.start, Contents.at, laneBases_eq]; omega)
    (by simp only [Region.start, Contents.at, laneBases_eq]; omega)
  rw [hw₁] at key
  rw [Contents.window, ← List.append_assoc]
  exact key

/-- **The window that `flush_window` commits**, whatever the spare bytes were. -/
theorem encodeWindow_eq (spare : Mem) (first : State) (rest : List State)
    (hrest : rest.length < 64) : encodeWindow spare first rest = windowBytes first rest := by
  set nd := rest.length with hnd
  have hfits := window_fits first rest
  have hloop := emitDeltas_refines hrest rest first (k := 0) (by omega)
    (initial_refines spare nd (UInt8.ofNat (nd + 1))) Contents.Fits.empty
  have hterm := terminator_refines hloop hfits
  simp only [windowBytes, ← hnd]
  set A := contentsFrom 0 Contents.empty (deltas first rest) with hA
  simp only [encodeWindow, ← hnd]
  set c₀ := emitDeltas (laneBases nd) 0 first rest _ with hc₀
  simp only at hterm
  set c := (if c₀.flags &&& flagHasGenLineExceptions ≠ 0 then
      { c₀ with buf := c₀.buf.writeAt c₀.wGenLine [0xFF], wGenLine := c₀.wGenLine + 1 }
    else c₀) with hc
  -- the lane lengths, from the cursors
  have hgc : c.wGenCol - (laneBases nd).genCol = A.genCol.length := by
    have := hterm.wGenCol; simp only at this; omega
  have hol : c.wOrigLine - (laneBases nd).origLine = A.origLine.length := by
    have := hterm.wOrigLine; simp only at this; omega
  have hoc : c.wOrigCol - (laneBases nd).origCol = A.origCol.length := by
    have := hterm.wOrigCol; simp only at this; omega
  have hgl : c.wGenLine - (laneBases nd).genLine = A.genLineLane.length := by
    have := hterm.wGenLine; simp only at this; omega
  have hsrc : (if c.flags &&& flagHasSrcIdx ≠ 0 then c.wSrcIdx - (laneBases nd).srcIdx else 0) =
      A.srcIdxLane.length := by
    have hw := hterm.wSrcIdx
    have hfl : c.flags = A.flags := hterm.flags
    simp only at hw
    rw [hfl, Contents.srcIdxLane]
    split
    · rw [List.length_append, hfits.srcIdxMask]; omega
    · rfl
  rw [hgc, hol, hoc, hgl, hsrc, hterm.flags]
  exact compact_window hfits hterm.held

end OhosBun.SourceMap
