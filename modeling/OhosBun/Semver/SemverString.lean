/-
# `OhosBun.Semver.SemverString` — strings of eight bytes

`semver_string::String`: the bytes of a short string, or the offset and the length of a longer
one in a buffer, told apart by the last bit.  `in_` is a piece of the buffer that starts at
`off`, which in the source is the difference of two addresses; where the bytes fit in the
handle the buffer is not looked at.

    slice_of_holds    the slice of a handle is the string
    eql_iff           two handles are equal when the strings are, whatever their buffers

Words are little-endian, as on every platform that the source is built for.
-/
import OhosBun.Lib.ZeroByte

namespace OhosBun.Semver

open OhosBun.Lib

structure Pointer where
  off : Nat
  len : Nat
deriving DecidableEq

namespace Pointer

def init (off : Nat) (in_ : Bytes) : Pointer := ⟨off % 2 ^ 32, in_.length % 2 ^ 32⟩

def toBits (p : Pointer) : Nat := ofLe (leBytes 4 p.off ++ leBytes 4 p.len)

def fromBits (bits : Nat) : Pointer :=
  ⟨ofLe ((leBytes 8 bits).take 4), ofLe ((leBytes 8 bits).drop 4)⟩

end Pointer

structure SemverString where
  bytes : Bytes
  size : bytes.length = 8
deriving DecidableEq

namespace SemverString

def MAX_INLINE_LEN : Nat := 8

def MAX_ADDRESSABLE_SPACE_MASK : Nat := 2 ^ 63 - 1

/-- The bytes themselves, up to `MAX_INLINE_LEN` of them, and zeros. -/
def inline (in_ : Bytes) : SemverString where
  bytes := (in_ ++ List.replicate 8 0).take 8
  size := by simp

/-- The place of the bytes. -/
def packed (p : Pointer) : SemverString where
  bytes := leBytes 8 ((p.toBits &&& MAX_ADDRESSABLE_SPACE_MASK) ||| 2 ^ 63)
  size := leBytes_length 8 _

def canInline (buf : Bytes) : Bool :=
  if buf.length < MAX_INLINE_LEN then true
  else if buf.length = MAX_INLINE_LEN then buf.getD (MAX_INLINE_LEN - 1) 0 &&& 128 == 0
  else false

def init (off : Nat) (in_ : Bytes) : SemverString :=
  if in_.length < MAX_INLINE_LEN then inline in_
  else if in_.length = MAX_INLINE_LEN then
    -- "If they use the final bit, then it's a big string."
    if in_.getD (MAX_INLINE_LEN - 1) 0 ≥ 128 then packed (Pointer.init off in_) else inline in_
  else packed (Pointer.init off in_)

/-- The handle, and the buffer with the string at its end. -/
def initAppend (buf in_ : Bytes) : SemverString × Bytes :=
  let items := buf ++ in_
  (packed (Pointer.init (items.length - in_.length) in_), items)

def initAppendIfNeeded (buf in_ : Bytes) : SemverString × Bytes :=
  if in_.length < MAX_INLINE_LEN then (inline in_, buf)
  else if in_.length = MAX_INLINE_LEN then
    if in_.getD (MAX_INLINE_LEN - 1) 0 ≥ 128 then initAppend buf in_ else (inline in_, buf)
  else initAppend buf in_

section Readers
variable (self that : SemverString)

def isInline : Bool := self.bytes.getD (MAX_INLINE_LEN - 1) 0 &&& 128 == 0

def ptr : Pointer := Pointer.fromBits (ofLe self.bytes &&& MAX_ADDRESSABLE_SPACE_MASK)

/-- The index of the first zero byte, or 8. -/
def inlineLen : Nat :=
  let bits := ofLe self.bytes
  let zeroBytes := (bits + 2 ^ 64 - 0x0101010101010101) % 2 ^ 64 &&& (2 ^ 64 - 1 - bits) &&&
    0x8080808080808080
  trailingZeros 64 zeroBytes / 8

def slice (buf : Bytes) : Bytes :=
  if self.isInline then self.bytes.take self.inlineLen
  else (Lib.slice buf self.ptr.off self.ptr.len).getD []

def len : Nat := if self.isInline then self.inlineLen else self.ptr.len

def isEmpty : Bool := ofLe self.bytes == 0

def eql (thisBuf thatBuf : Bytes) : Bool :=
  if self.isInline && that.isInline then ofLe self.bytes == ofLe that.bytes
  else if self.isInline != that.isInline then false
  else match Lib.slice thisBuf self.ptr.off self.ptr.len,
      Lib.slice thatBuf that.ptr.off that.ptr.len with
    | some a, some b => a == b
    | _, _ => false

end Readers

/-! ## Short strings -/

theorem and_high_eq_zero {b : UInt8} : (b &&& 128 == 0) = true ↔ b < 128 := by
  rw [beq_iff_eq, ← UInt8.toNat_inj, UInt8.toNat_and, UInt8.lt_iff_toNat_lt]
  show b.toNat &&& 2 ^ 7 = 0 ↔ b.toNat < 128
  have hlt := b.toNat_lt
  constructor
  · intro h
    by_contra hge
    have hbit : b.toNat.testBit 7 = true := by
      rw [Nat.testBit_eq_decide_div_mod_eq]
      exact decide_eq_true (by omega)
    rw [Nat.and_two_pow, hbit] at h
    exact absurd h (by decide)
  · intro h
    rw [show 2 ^ 7 = 128 from rfl]
    exact and_high_of_lt h

variable {s buf : Bytes} {h h' : SemverString}

theorem canInline_iff :
    canInline s = true ↔ s.length < 8 ∨ s.length = 8 ∧ s.getD 7 0 < 128 := by
  unfold canInline MAX_INLINE_LEN
  split
  · rename_i h
    simp [h]
  · split
    · rename_i h h'
      rw [and_high_eq_zero]
      simp [h']
    · rename_i h h'
      simp [h, h']

/-- The constructors agree on which strings are short. -/
theorem init_eq (off : Nat) (s : Bytes) :
    init off s = if canInline s then inline s else packed (Pointer.init off s) := by
  unfold init canInline MAX_INLINE_LEN
  split
  · rfl
  · split
    · rcases UInt8.lt_or_le (s.getD 7 0) 128 with hlt | hge
      · rw [if_neg (by simpa using hlt), if_pos (and_high_eq_zero.mpr hlt)]
      · rw [if_pos hge, if_neg fun h => absurd (and_high_eq_zero.mp h) (UInt8.not_lt.mpr hge)]
    · rfl

theorem initAppendIfNeeded_eq (buf s : Bytes) :
    initAppendIfNeeded buf s = if canInline s then (inline s, buf) else initAppend buf s := by
  unfold initAppendIfNeeded canInline MAX_INLINE_LEN
  split
  · rfl
  · split
    · rcases UInt8.lt_or_le (s.getD 7 0) 128 with hlt | hge
      · rw [if_neg (by simpa using hlt), if_pos (and_high_eq_zero.mpr hlt)]
      · rw [if_pos hge, if_neg fun h => absurd (and_high_eq_zero.mp h) (UInt8.not_lt.mpr hge)]
    · rfl

theorem inline_bytes (h : canInline s = true) :
    (inline s).bytes = s ++ List.replicate (8 - s.length) 0 := by
  have hlen : s.length ≤ 8 := by
    rcases canInline_iff.mp h with hlt | ⟨heq, -⟩
    · omega
    · omega
  show (s ++ List.replicate 8 0).take 8 = _
  rw [List.take_append, List.take_of_length_le hlen, List.take_replicate]
  congr 2
  omega

theorem isInline_inline (h : canInline s = true) : (inline s).isInline = true := by
  rw [isInline, inline_bytes h]
  refine and_high_eq_zero.mpr ?_
  unfold MAX_INLINE_LEN
  rcases canInline_iff.mp h with hlt | ⟨heq, hhigh⟩
  · have hzero : (s ++ List.replicate (8 - s.length) (0 : UInt8)).getD (8 - 1) 0 = 0 := by
      rw [List.getD_append_right _ _ _ _ (by omega)]
      simp
    rw [hzero]
    decide
  · rwa [List.getD_append _ _ _ _ (by omega)]

theorem inlineLen_eq (h : SemverString) : h.inlineLen = h.bytes.findIdx (· = 0) := by
  have hzero := trailingZeros_zeroBytes h.bytes
  rw [h.size] at hzero
  exact hzero

/-- A string without a zero byte. -/
def NulFree (s : Bytes) : Prop := ∀ b ∈ s, b ≠ 0

theorem inlineLen_inline (h : canInline s = true) (hs : NulFree s) :
    (inline s).inlineLen = s.length := by
  rw [inlineLen_eq, inline_bytes h, List.findIdx_append]
  have hnone : s.findIdx (fun b => decide (b = 0)) = s.length :=
    List.findIdx_eq_length.mpr fun b hb => decide_eq_false (hs b hb)
  rw [hnone, if_neg (Nat.lt_irrefl _)]
  cases 8 - s.length with
  | zero => simp
  | succ n => simp [List.replicate_succ, List.findIdx_cons]

/-! ## Long strings -/

section Packed
variable {off : Nat} {s : Bytes} (hlt : off + s.length < 2 ^ 31)
include hlt

theorem bits_packed :
    ofLe (packed (Pointer.init off s)).bytes = off + 2 ^ 32 * s.length + 2 ^ 63 := by
  have hbits : (Pointer.init off s).toBits = off + 2 ^ 32 * s.length := by
    rw [Pointer.toBits, ofLe_append, leBytes_length, ofLe_leBytes, ofLe_leBytes, Pointer.init]
    dsimp only
    rw [Nat.mod_eq_of_lt (by omega), Nat.mod_eq_of_lt (by omega)]
    omega
  have hor : (off + 2 ^ 32 * s.length) ||| 2 ^ 63 = off + 2 ^ 32 * s.length + 2 ^ 63 := by
    have hadd := Nat.two_pow_add_eq_or_of_lt (i := 63) (b := off + 2 ^ 32 * s.length) (by omega) 1
    rw [Nat.mul_one] at hadd
    rw [Nat.lor_comm, ← hadd, Nat.add_comm]
  have hmask : ((Pointer.init off s).toBits &&& MAX_ADDRESSABLE_SPACE_MASK) ||| 2 ^ 63 =
      off + 2 ^ 32 * s.length + 2 ^ 63 := by
    rw [hbits, MAX_ADDRESSABLE_SPACE_MASK, Nat.and_two_pow_sub_one_eq_mod,
      Nat.mod_eq_of_lt (by omega), hor]
  have hlt' : off + 2 ^ 32 * s.length + 2 ^ 63 < 256 ^ 8 := by omega
  show ofLe (leBytes 8 _) = _
  rw [hmask]
  exact ofLe_leBytes_of_lt hlt'

theorem isInline_packed : (packed (Pointer.init off s)).isInline = false := by
  rw [← Bool.not_eq_true, isInline, and_high_eq_zero, UInt8.not_lt, UInt8.le_iff_toNat_le]
  have hsplit := bits_packed hlt
  have hsize := (packed (Pointer.init off s)).size
  generalize (packed (Pointer.init off s)).bytes = bytes at hsplit hsize
  -- the last byte is what is above the 56 bits of the others
  have hparts : bytes = bytes.take 7 ++ [bytes.getD 7 0] := by
    rw [List.getD_eq_getElem _ _ (by omega), List.take_append_getElem]
    exact (List.take_of_length_le (by omega)).symm
  have hlow := ofLe_lt (bytes.take 7)
  have hseven : (bytes.take 7).length = 7 := by rw [List.length_take, hsize]; rfl
  rw [hseven] at hlow
  have hofLe : ofLe bytes = ofLe (bytes.take 7) + 256 ^ 7 * (bytes.getD 7 0).toNat := by
    conv_lhs => rw [hparts]
    rw [ofLe_append, hseven, ofLe, ofLe, Nat.mul_zero, Nat.add_zero]
  show 128 ≤ (bytes.getD 7 0).toNat
  omega

theorem ptr_packed : (packed (Pointer.init off s)).ptr = ⟨off, s.length⟩ := by
  have hmask : ofLe (packed (Pointer.init off s)).bytes &&& MAX_ADDRESSABLE_SPACE_MASK =
      off + 2 ^ 32 * s.length := by
    rw [bits_packed hlt, MAX_ADDRESSABLE_SPACE_MASK, Nat.and_two_pow_sub_one_eq_mod]
    omega
  have hbytes := leBytes_add 4 4 (off + 2 ^ 32 * s.length)
  have hdiv : (off + 2 ^ 32 * s.length) / 256 ^ 4 = s.length := by omega
  have hoff : ofLe (leBytes 4 (off + 2 ^ 32 * s.length)) = off := by
    rw [ofLe_leBytes]
    omega
  have hlen : ofLe (leBytes 4 s.length) = s.length := by
    rw [ofLe_leBytes]
    omega
  rw [hdiv] at hbytes
  rw [ptr, hmask, Pointer.fromBits, hbytes, List.take_left' (leBytes_length 4 _),
    List.drop_left' (leBytes_length 4 _), hoff, hlen]

end Packed

/-! ## Handles -/

/-- The handle of a string that is in a buffer. -/
inductive Holds (buf s : Bytes) : SemverString → Prop
  | inline : canInline s = true → Holds buf s (inline s)
  | packed {off : Nat} : canInline s = false → Lib.slice buf off s.length = some s →
      Holds buf s (packed (Pointer.init off s))

theorem length_of_slice {off : Nat} (h : Lib.slice buf off s.length = some s) :
    off + s.length ≤ buf.length := by
  unfold Lib.slice at h
  split at h
  · assumption
  · exact absurd h (by simp)

/-- A handle is good for a longer buffer. -/
theorem holds_append (hh : Holds buf s h) (more : Bytes) :
    Holds (buf ++ more) s h := by
  cases hh with
  | inline hin => exact .inline hin
  | packed hin hslice =>
    refine .packed hin ?_
    have hle := length_of_slice hslice
    unfold Lib.slice at hslice ⊢
    rw [if_pos hle] at hslice
    rw [if_pos (by rw [List.length_append]; omega), List.drop_append_of_le_length (by omega),
      List.take_append_of_le_length (by rw [List.length_drop]; omega), hslice]

theorem length_pos_of_not_canInline (h : canInline s = false) : 8 ≤ s.length := by
  by_contra hlt
  have htrue := canInline_iff.mpr (.inl (show s.length < 8 by omega))
  exact absurd (h.symm.trans htrue) (by decide)

section Holds
variable {buf buf' s s' : Bytes} {h h' : SemverString} (hbuf : buf.length < 2 ^ 31)
include hbuf

theorem isInline_of_holds (hh : Holds buf s h) : h.isInline = canInline s := by
  cases hh with
  | inline hin => rw [isInline_inline hin, hin]
  | packed hin hslice => rw [isInline_packed ((length_of_slice hslice).trans_lt hbuf), hin]

/-- **The slice** of a handle is its string. -/
theorem slice_of_holds (hs : canInline s = true → NulFree s) (hh : Holds buf s h) :
    h.slice buf = s := by
  rw [slice, isInline_of_holds hbuf hh]
  cases hh with
  | inline hin =>
    rw [if_pos hin, inlineLen_inline hin (hs hin), inline_bytes hin, List.take_left]
  | packed hin hslice =>
    rw [hin, if_neg (by decide), ptr_packed ((length_of_slice hslice).trans_lt hbuf)]
    dsimp only
    rw [hslice]
    rfl

theorem len_of_holds (hs : NulFree s) (hh : Holds buf s h) : h.len = s.length := by
  rw [len, isInline_of_holds hbuf hh]
  cases hh with
  | inline hin => rw [if_pos hin, inlineLen_inline hin hs]
  | packed hin hslice =>
    rw [hin, if_neg (by decide), ptr_packed ((length_of_slice hslice).trans_lt hbuf)]

theorem isEmpty_of_holds (hs : NulFree s) (hh : Holds buf s h) : h.isEmpty = true ↔ s = [] := by
  rw [isEmpty, beq_iff_eq]
  cases hh with
  | inline hin =>
    rw [inline_bytes hin, ofLe_append]
    cases s with
    | nil => exact iff_of_true (by decide) rfl
    | cons b s =>
      refine iff_of_false (fun hzero => ?_) (List.cons_ne_nil b s)
      rw [ofLe] at hzero
      have hb : b.toNat = 0 := by omega
      exact hs b List.mem_cons_self (UInt8.toNat_inj.mp hb)
  | packed hin hslice =>
    refine iff_of_false (fun hzero => ?_) fun hnil => ?_
    · rw [bits_packed ((length_of_slice hslice).trans_lt hbuf)] at hzero
      omega
    · have hlen := length_pos_of_not_canInline hin
      rw [hnil] at hlen
      exact absurd hlen (by decide)

end Holds

/-- The bytes of a handle are the number that `eql` compares. -/
theorem ofLe_bytes_inj (heq : ofLe h.bytes = ofLe h'.bytes) : h = h' := by
  obtain ⟨bytes, hsize⟩ := h
  obtain ⟨bytes', hsize'⟩ := h'
  obtain rfl : bytes = bytes' := ofLe_inj (hsize.trans hsize'.symm) heq
  rfl

/-- **Equality** of handles is that of their strings. -/
theorem eql_iff {buf' s' : Bytes} (hbuf : buf.length < 2 ^ 31) (hbuf' : buf'.length < 2 ^ 31)
    (hs : NulFree s) (hs' : NulFree s') (hh : Holds buf s h) (hh' : Holds buf' s' h') :
    h.eql h' buf buf' = true ↔ s = s' := by
  rw [eql, isInline_of_holds hbuf hh, isInline_of_holds hbuf' hh']
  cases hh with
  | inline hin =>
    cases hh' with
    | inline hin' =>
      rw [hin, hin', if_pos (by decide), beq_iff_eq]
      constructor
      · intro heq
        have hsame := congrArg (fun h => h.slice []) (ofLe_bytes_inj heq)
        have hnil : ([] : Bytes).length < 2 ^ 31 := by decide
        have hslice := slice_of_holds hnil (fun _ => hs) (.inline hin)
        have hslice' := slice_of_holds hnil (fun _ => hs') (.inline hin')
        exact hslice.symm.trans (hsame.trans hslice')
      · rintro rfl
        rfl
    | packed hin' hslice' =>
      rw [hin, hin', if_neg (by decide), if_pos (by decide)]
      refine iff_of_false (by decide) fun heq => ?_
      rw [heq, hin'] at hin
      exact absurd hin (by decide)
  | packed hin hslice =>
    cases hh' with
    | inline hin' =>
      rw [hin, hin', if_neg (by decide), if_pos (by decide)]
      refine iff_of_false (by decide) fun heq => ?_
      rw [heq, hin'] at hin
      exact absurd hin (by decide)
    | packed hin' hslice' =>
      rw [hin, hin', if_neg (by decide), if_neg (by decide),
        ptr_packed ((length_of_slice hslice).trans_lt hbuf),
        ptr_packed ((length_of_slice hslice').trans_lt hbuf')]
      dsimp only
      rw [hslice, hslice']
      exact beq_iff_eq

end SemverString

end OhosBun.Semver
