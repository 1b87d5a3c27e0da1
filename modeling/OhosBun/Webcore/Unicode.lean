/-
# `OhosBun.Webcore.Unicode` — from UTF-8 to UTF-16

`to_utf16_alloc_maybe_buffered` of `bun_core`: text that simdutf converts is converted by
simdutf, and the rest is replaced or refused sequence by sequence.  A sequence that the
input cuts off is handed back when more input may come.

simdutf, which native builds use, is a parameter.  Indices are of any size: the `u32` that
`first_non_ascii` casts to holds those of every buffer that the engine allocates.  Memory
does not run out.
-/
import OhosBun.Lib.Outcome

namespace OhosBun.Webcore

open OhosBun.Lib

/-- The part of simdutf that is called. -/
structure Simdutf where
  /-- `simdutf::length::utf16::from::utf8` -/
  utf16LengthFromUtf8 : Bytes → Nat
  /-- `simdutf__convert_utf8_to_utf16le_with_errors`: whether it is successful, and the code
  units it writes. -/
  convertUtf8ToUtf16leWithErrors : Bytes → Bool × List UInt16

/-- `Buffered`: the bytes of a sequence that has been cut off. -/
abbrev Buffered := { slice : Bytes // slice.length ≤ 3 }

instance : Inhabited Buffered := ⟨⟨[], Nat.zero_le 3⟩⟩

/-- `append_u8_as_u16`, on nothing. -/
def widen (bytes : Bytes) : List UInt16 := bytes.map UInt8.toUInt16

/-- `first_non_ascii` -/
def firstNonAscii (slice : Bytes) : Option Nat := slice.findIdx? (· > 127)

/-- `UTF16Replacement` -/
structure Utf16Replacement where
  codePoint : Nat := 0xFFFD
  len : Nat := 0
  fail : Bool := false
  canBuffer : Bool := true
  deriving DecidableEq

/-- `non_ascii_sequence_length` -/
def nonAsciiSequenceLength (firstByte : UInt8) : Nat :=
  if firstByte ≤ 193 then 0
  else if firstByte ≤ 223 then 2
  else if firstByte ≤ 239 then 3
  else if firstByte ≤ 244 then 4
  else 0

/-- `convert_utf8_bytes_into_utf16_with_length` -/
def convertUtf8BytesIntoUtf16WithLength (sequence : Fin 4 → UInt8) (len remainingLen : Nat) :
    Utf16Replacement :=
  match len with
  | 2 =>
    if sequence 1 < 0x80 ∨ sequence 1 > 0xBF then
      { len := 1, fail := true, canBuffer := remainingLen < 2 }
    else { len, codePoint := ((sequence 0).toNat <<< 6) + (sequence 1).toNat - 0x00003080 }
  | 3 =>
    if (if sequence 0 = 0xE0 then sequence 1 < 0xA0 ∨ sequence 1 > 0xBF
        else if sequence 0 = 0xED then sequence 1 < 0x80 ∨ sequence 1 > 0x9F
        else sequence 1 < 0x80 ∨ sequence 1 > 0xBF) then
      { len := 1, fail := true, canBuffer := remainingLen < 2 }
    else if sequence 2 < 0x80 ∨ sequence 2 > 0xBF then
      { len := 2, fail := true, canBuffer := remainingLen < 3 }
    else
      { len, codePoint := ((sequence 0).toNat <<< 12) + ((sequence 1).toNat <<< 6) +
          (sequence 2).toNat - 0x000E2080 }
  | 4 =>
    if sequence 0 ≤ 0xEF ∨ 0xF5 ≤ sequence 0 then
      { len := 1, fail := true, canBuffer := false }
    else if (if sequence 0 = 0xF0 then sequence 1 < 0x90 ∨ sequence 1 > 0xBF
        else if sequence 0 = 0xF4 then sequence 1 < 0x80 ∨ sequence 1 > 0x8F
        else sequence 1 < 0x80 ∨ sequence 1 > 0xBF) then
      { len := 1, fail := true, canBuffer := remainingLen < 2 }
    else if sequence 2 < 0x80 ∨ sequence 2 > 0xBF then
      { len := 2, fail := true, canBuffer := remainingLen < 3 }
    else if sequence 3 < 0x80 ∨ sequence 3 > 0xBF then
      { len := 3, fail := true, canBuffer := remainingLen < 4 }
    else
      { len, codePoint := ((sequence 0).toNat <<< 18) + ((sequence 1).toNat <<< 12) +
          ((sequence 2).toNat <<< 6) + (sequence 3).toNat - 0x03C82080 }
  | _ => { len := 1, fail := true }

/-- `u16_lead` -/
def u16Lead (supplementary : Nat) : UInt16 := UInt16.ofNat ((supplementary >>> 10) + 0xD7C0)

/-- `u16_trail` -/
def u16Trail (supplementary : Nat) : UInt16 := UInt16.ofNat ((supplementary &&& 0x3FF) ||| 0xDC00)

/-- `push_codepoint_utf16`, on nothing. -/
def pushCodepointUtf16 (codePoint : Nat) : List UInt16 :=
  if codePoint ≤ 0xFFFF then [UInt16.ofNat codePoint] else [u16Lead codePoint, u16Trail codePoint]

inductive ToUtf16Error
  | invalidByteSequence
  deriving DecidableEq

theorem nonAsciiSequenceLength_le (firstByte : UInt8) : nonAsciiSequenceLength firstByte ≤ 4 := by
  unfold nonAsciiSequenceLength
  repeat' split
  all_goals decide

/-- The first four bytes, with zeros behind the last one. -/
def sequenceOf (remaining : Bytes) (i : Fin 4) : UInt8 := remaining.getD i 0

/-- The loop of `to_utf16_alloc_maybe_buffered`, with `non_ascii` the index of the next byte to
replace. -/
def replaceInvalid (failIfInvalid flush : Bool) (output : List UInt16) (remaining : Bytes) :
    Option Nat → Outcome ToUtf16Error (List UInt16 × Buffered)
  | none => .ok (output ++ widen remaining, default)
  | some i =>
    match _hremaining : remaining.drop i with
    | [] => .panic
    | b :: tail =>
      let output := output ++ widen (remaining.take i)
      let convertedLength := nonAsciiSequenceLength b
      let converted := convertUtf8BytesIntoUtf16WithLength (sequenceOf (b :: tail))
        convertedLength (b :: tail).length
      if hbuffer : flush = false ∧ converted.fail ∧ converted.canBuffer ∧
          convertedLength > (b :: tail).length then
        .ok (output, ⟨b :: tail, Nat.le_of_lt_succ
          (Nat.lt_of_lt_of_le hbuffer.2.2.2 (nonAsciiSequenceLength_le b))⟩)
      else if failIfInvalid ∧ converted.fail then .err .invalidByteSequence
      else
        let rest := (b :: tail).drop (max converted.len 1)
        replaceInvalid failIfInvalid flush (output ++ pushCodepointUtf16 converted.codePoint)
          rest (firstNonAscii rest)
termination_by remaining.length
decreasing_by
  have hlen := congrArg List.length _hremaining
  simp only [List.length_drop, List.length_cons] at hlen ⊢
  omega

/-- `to_utf16_alloc_maybe_buffered`; nothing to convert is `none`. -/
def toUtf16AllocMaybeBuffered (simdutf : Simdutf) (failIfInvalid flush : Bool) (bytes : Bytes) :
    Outcome ToUtf16Error (Option (List UInt16 × Buffered)) :=
  match firstNonAscii bytes with
  | none => .ok none
  | some firstNonAsciiIdx =>
    let outLength := simdutf.utf16LengthFromUtf8 bytes
    let res := simdutf.convertUtf8ToUtf16leWithErrors bytes
    if outLength ≠ 0 ∧ res.1 then .ok (some (res.2.take outLength, default))
    else
      let output := if outLength = 0 then [] else res.2.take firstNonAsciiIdx
      let start := if output ≠ [] then firstNonAsciiIdx else 0
      do
        let out ← replaceInvalid failIfInvalid flush output (bytes.drop start) (some 0)
        pure (some out)

end OhosBun.Webcore
