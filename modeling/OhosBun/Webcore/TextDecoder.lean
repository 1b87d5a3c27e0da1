/-
# `OhosBun.Webcore.TextDecoder` — the streaming decoder behind `TextDecoder`

The decoder object for the encodings `utf-8`, `utf-16le` and `utf-16be`, as its calls see it:
a flag that says whether the last call belongs to the stream that goes on, the flag of the
byte order mark, and what each encoding carries from one chunk to the next.

A call gives the code units that the engine makes a string of, or throws.  The decoder of
the other encodings, and its state, are left out.
-/
import OhosBun.Webcore.Unicode

namespace OhosBun.Webcore

open OhosBun.Lib

inductive EncodingLabel
  | utf8
  | utf16Le
  | utf16Be
  deriving DecidableEq

/-- What a call throws: `ERR_ENCODING_INVALID_ENCODED_DATA`, with its message. -/
inductive DecodeError
  | invalidEncodedData (message : String)
  deriving DecidableEq

structure TextDecoder where
  buffered : Buffered
  leadByte : Option UInt8
  leadSurrogate : Option UInt16
  bomSeen : Bool
  doNotFlush : Bool
  ignoreBom : Bool
  fatal : Bool
  encoding : EncodingLabel

/-- `u16_is_lead` -/
def u16IsLead (c : UInt16) : Bool := (c &&& 0xFC00) == 0xD800

/-- `u16_is_trail` -/
def u16IsTrail (c : UInt16) : Bool := (c &&& 0xFC00) == 0xDC00

namespace TextDecoder

/-- A decoder as the constructor leaves it. -/
def new (encoding : EncodingLabel) (ignoreBom fatal : Bool) : TextDecoder where
  buffered := default
  leadByte := none
  leadSurrogate := none
  bomSeen := false
  doNotFlush := false
  ignoreBom := ignoreBom
  fatal := fatal
  encoding := encoding

/-! ## UTF-16 -/

/-- `process_code_unit_utf16`, with `output` and `saw_error`. -/
def processCodeUnitUtf16 (d : TextDecoder) (output : List UInt16) (sawError : Bool)
    (codeUnit : UInt16) : TextDecoder × List UInt16 × Bool :=
  match d.leadSurrogate with
  | some leadSurrogate =>
    if u16IsTrail codeUnit then
      ({ d with leadSurrogate := none }, output ++ [leadSurrogate, codeUnit], sawError)
    else unpaired { d with leadSurrogate := none } (output ++ [0xFFFD]) true
  | none => unpaired d output sawError
where
  /-- The code unit is not the second one of a pair. -/
  unpaired (d : TextDecoder) (output : List UInt16) (sawError : Bool) :
      TextDecoder × List UInt16 × Bool :=
    if u16IsLead codeUnit then ({ d with leadSurrogate := some codeUnit }, output, sawError)
    else if u16IsTrail codeUnit then (d, output ++ [0xFFFD], true)
    else (d, output ++ [codeUnit], sawError)

/-- `code_unit_from_bytes_utf16` -/
def codeUnitFromBytesUtf16 (bigEndian : Bool) (first second : UInt16) : UInt16 :=
  if bigEndian then (first <<< 8) ||| second else first ||| (second <<< 8)

/-- The loop of `decode_utf16`; less than a code unit is left. -/
def decodeUnits (bigEndian : Bool) (d : TextDecoder) (output : List UInt16) (sawError : Bool) :
    Bytes → TextDecoder × List UInt16 × Bool × Bytes
  | a :: b :: remain =>
    let (d, output, sawError) := d.processCodeUnitUtf16 output sawError
      (codeUnitFromBytesUtf16 bigEndian a.toUInt16 b.toUInt16)
    decodeUnits bigEndian d output sawError remain
  | remain => (d, output, sawError, remain)

/-- The start of `decode_utf16`: the code unit whose first byte has been carried. -/
def decodeCarried (bigEndian : Bool) (d : TextDecoder) (bytes : Bytes) :
    TextDecoder × List UInt16 × Bool × Bytes :=
  match d.leadByte, bytes with
  | some leadByte, b :: remain =>
    let (d, output, sawError) := { d with leadByte := none }.processCodeUnitUtf16 [] false
      (codeUnitFromBytesUtf16 bigEndian leadByte.toUInt16 b.toUInt16)
    (d, output, sawError, remain)
  | _, _ => (d, [], false, bytes)

/-- The byte that is left behind the loop of `decode_utf16`. -/
def carryRemain (d : TextDecoder) (remain : Bytes) : TextDecoder :=
  match remain with
  | b :: _ => { d with leadByte := some b }
  | [] => d

/-- The end of `decode_utf16`. -/
def flushCarried (flush : Bool) (d : TextDecoder) (output : List UInt16) (sawError : Bool) :
    TextDecoder × List UInt16 × Bool :=
  if flush && (d.leadByte.isSome || d.leadSurrogate.isSome) then
    ({ d with leadByte := none, leadSurrogate := none }, output ++ [0xFFFD], true)
  else (d, output, sawError)

/-- `decode_utf16` -/
def decodeUtf16 (bigEndian flush : Bool) (d : TextDecoder) (bytes : Bytes) :
    TextDecoder × List UInt16 × Bool :=
  let (d, output, sawError, remain) := decodeCarried bigEndian d bytes
  let (d, output, sawError, remain) := decodeUnits bigEndian d output sawError remain
  flushCarried flush (d.carryRemain remain) output sawError

/-! ## Calls -/

/-- `begin_decode` -/
def beginDecode (d : TextDecoder) (stream : Bool) : TextDecoder :=
  if d.doNotFlush then { d with doNotFlush := stream }
  else { d with doNotFlush := stream, bomSeen := false }

/-- `UTF8_BOM` -/
def utf8Bom : Bytes := [0xEF, 0xBB, 0xBF]

def invalidData (label : String) : DecodeError :=
  .invalidEncodedData ("The encoded data was not valid for encoding " ++ label)

/-- `set_bom_seen` and `input`, for the bytes of a chunk behind those that have been buffered. -/
def bomInput (d : TextDecoder) (joined : Bytes) : Bool × Bytes :=
  if d.ignoreBom || d.bomSeen then (false, joined)
  else if utf8Bom.isPrefixOf joined then (true, joined.drop utf8Bom.length)
  else if joined.isPrefixOf utf8Bom then (false, joined)
  else (true, joined)

/-- The branch of `decode_slice` for `utf-8`. -/
def decodeUtf8 (simdutf : Simdutf) (flush : Bool) (d : TextDecoder) (bufferSlice : Bytes) :
    Outcome DecodeError (List UInt16) × TextDecoder :=
  let joined := d.buffered.1 ++ bufferSlice
  let d := { d with buffered := default }
  let (setBomSeen, input) := d.bomInput joined
  match toUtf16AllocMaybeBuffered simdutf d.fatal flush input with
  | .panic => (.panic, d)
  | .err .invalidByteSequence => (.err (invalidData "utf-8"), d)
  | .ok maybeDecodeResult =>
    let d := if setBomSeen then { d with bomSeen := true } else d
    match maybeDecodeResult with
    | some (decoded, leftover) =>
      (.ok decoded, if flush then d else { d with buffered := leftover })
    | none => (.ok (widen input), d)

/-- `bom` -/
def utf16Bom (bigEndian : Bool) : Bytes := if bigEndian then [0xFE, 0xFF] else [0xFF, 0xFE]

/-- `pre_stripped` -/
def preStripped (bigEndian : Bool) (d : TextDecoder) (bufferSlice : Bytes) : Bool :=
  !d.ignoreBom && !d.bomSeen && d.leadByte.isNone && d.leadSurrogate.isNone &&
    (utf16Bom bigEndian).isPrefixOf bufferSlice

/-- The branch of `decode_slice` for `utf-16le` and `utf-16be`. -/
def decodeUtf16Slice (bigEndian flush : Bool) (d : TextDecoder) (bufferSlice : Bytes) :
    Outcome DecodeError (List UInt16) × TextDecoder :=
  let preStripped := d.preStripped bigEndian bufferSlice
  let input := if preStripped then bufferSlice.drop 2 else bufferSlice
  let (d, decoded, sawError) := decodeUtf16 bigEndian flush d input
  if sawError && d.fatal then
    (.err (invalidData (if bigEndian then "utf-16be" else "utf-16le")), d)
  else if preStripped then (.ok decoded, { d with bomSeen := true })
  else if !d.ignoreBom && !d.bomSeen && !decoded.isEmpty then
    (.ok (if decoded.head? = some 0xFEFF then decoded.tail else decoded), { d with bomSeen := true })
  else (.ok decoded, d)

/-- `decode_slice` -/
def decodeSlice (simdutf : Simdutf) (flush : Bool) (d : TextDecoder) (bufferSlice : Bytes) :
    Outcome DecodeError (List UInt16) × TextDecoder :=
  match d.encoding with
  | .utf8 => decodeUtf8 simdutf flush d bufferSlice
  | .utf16Le => decodeUtf16Slice false flush d bufferSlice
  | .utf16Be => decodeUtf16Slice true flush d bufferSlice

/-- `decode`, behind the checks of its arguments. -/
def decode (simdutf : Simdutf) (d : TextDecoder) (stream : Bool) (inputSlice : Bytes) :
    Outcome DecodeError (List UInt16) × TextDecoder :=
  decodeSlice simdutf (!stream) (d.beginDecode stream) inputSlice

/-- One call after the other: each says whether the stream goes on behind its chunk. -/
def run (simdutf : Simdutf) (d : TextDecoder) :
    List (Bool × Bytes) → List (Outcome DecodeError (List UInt16)) × TextDecoder
  | [] => ([], d)
  | (stream, chunk) :: calls =>
    let (result, d) := d.decode simdutf stream chunk
    let (results, d) := d.run simdutf calls
    (result :: results, d)

end TextDecoder

end OhosBun.Webcore
