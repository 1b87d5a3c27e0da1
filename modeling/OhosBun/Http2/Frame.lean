/-
# `OhosBun.Http2.Frame` — frames of HTTP/2

The frames that the client of `fetch` reads and writes: a header of nine bytes with the length of
the payload, a type, flags and the stream, and then the payload.  The type and the flags are
bytes, of which any may be on the wire.
-/
import OhosBun.Lib.Bytes

namespace OhosBun.Http2

open OhosBun.Lib

def MAX_WINDOW_SIZE : Nat := 2 ^ 31 - 1
def MAX_STREAM_ID : Nat := 2 ^ 31 - 1
def MAX_FRAME_SIZE : Nat := 0x00FFFFFF
def DEFAULT_WINDOW_SIZE : Nat := 65535
def DEFAULT_MAX_FRAME_SIZE : Nat := 16384
def LOCAL_INITIAL_WINDOW_SIZE : Nat := 2 ^ 24
def LOCAL_MAX_HEADER_LIST_SIZE : Nat := 256 * 1024
def LOCAL_MAX_CONTINUATIONS : Nat := 8
def WRITE_BUFFER_HIGH_WATER : Nat := 256 * 1024
def WRITE_BUFFER_CONTROL_LIMIT : Nat := 1024 * 1024

def CLIENT_PREFACE : Bytes := ascii "PRI * HTTP/2.0\r\n\r\nSM\r\n\r\n"

/-! ## Types, flags and codes -/

def FT_DATA : UInt8 := 0
def FT_HEADERS : UInt8 := 1
def FT_PRIORITY : UInt8 := 2
def FT_RST_STREAM : UInt8 := 3
def FT_SETTINGS : UInt8 := 4
def FT_PUSH_PROMISE : UInt8 := 5
def FT_PING : UInt8 := 6
def FT_GOAWAY : UInt8 := 7
def FT_WINDOW_UPDATE : UInt8 := 8
def FT_CONTINUATION : UInt8 := 9

def ACK : UInt8 := 0x1
def END_STREAM : UInt8 := 0x1
def END_HEADERS : UInt8 := 0x4
def PADDED : UInt8 := 0x8
def PRIORITY : UInt8 := 0x20

def ST_HEADER_TABLE_SIZE : Nat := 1
def ST_ENABLE_PUSH : Nat := 2
def ST_MAX_CONCURRENT_STREAMS : Nat := 3
def ST_INITIAL_WINDOW_SIZE : Nat := 4
def ST_MAX_FRAME_SIZE : Nat := 5
def ST_MAX_HEADER_LIST_SIZE : Nat := 6

namespace ErrorCode

def NO_ERROR : Nat := 0x0
def PROTOCOL_ERROR : Nat := 0x1
def INTERNAL_ERROR : Nat := 0x2
def FLOW_CONTROL_ERROR : Nat := 0x3
def FRAME_SIZE_ERROR : Nat := 0x6
def REFUSED_STREAM : Nat := 0x7
def CANCEL : Nat := 0x8
def COMPRESSION_ERROR : Nat := 0x9
def ENHANCE_YOUR_CALM : Nat := 0xb

end ErrorCode

/-- What the client of the protocol fails with, as far as it matters here. -/
inductive Error
  | protocolError
  | frameSizeError
  | flowControlError
  | compressionError
  | headerListTooLarge
  | enhanceYourCalm
  | streamReset
  | refusedStream
  | goAway
  | writeFailed
  | aborted
  /-- any other failure, of a request -/
  | other
deriving DecidableEq

def errorCodeFor : Error → Nat
  | .protocolError => ErrorCode.PROTOCOL_ERROR
  | .frameSizeError => ErrorCode.FRAME_SIZE_ERROR
  | .flowControlError => ErrorCode.FLOW_CONTROL_ERROR
  | .compressionError => ErrorCode.COMPRESSION_ERROR
  | .headerListTooLarge | .enhanceYourCalm => ErrorCode.ENHANCE_YOUR_CALM
  | _ => ErrorCode.INTERNAL_ERROR

/-! ## Frames -/

structure Frame where
  type : UInt8
  flags : UInt8
  streamId : Nat
  payload : Bytes
deriving DecidableEq

namespace Frame
variable (f : Frame)

/-- `flags & flag != 0`. -/
def has (flag : UInt8) : Bool := f.flags &&& flag != 0

def length : Nat := f.payload.length

end Frame

/-- `UInt31WithReserved::uint31`. -/
def uint31 (n : Nat) : Nat := n % 2 ^ 31

structure FrameHeader where
  length : Nat
  type : UInt8
  flags : UInt8
  streamIdentifier : Nat
deriving DecidableEq

namespace FrameHeader

def BYTE_SIZE : Nat := 9

/-- `none` when there are fewer bytes. -/
def decode : Bytes → Option FrameHeader
  | b₀ :: b₁ :: b₂ :: b₃ :: b₄ :: b₅ :: b₆ :: b₇ :: b₈ :: _ =>
    some ⟨ofBe [b₀, b₁, b₂], b₃, b₄, ofBe [b₅, b₆, b₇, b₈]⟩
  | _ => none

end FrameHeader

def stripPadding (payload : Bytes) : Option Bytes :=
  match payload with
  | [] => none
  | pad :: rest => if pad.toNat < payload.length then some (rest.take (rest.length - pad.toNat)) else none

/-- `StreamPriority::BYTE_SIZE`. -/
def PRIORITY_SIZE : Nat := 5

/-- The types and values in a payload of settings. -/
def settingsUnits : Bytes → List (Nat × Nat)
  | b₀ :: b₁ :: b₂ :: b₃ :: b₄ :: b₅ :: rest =>
    (ofBe [b₀, b₁], ofBe [b₂, b₃, b₄, b₅]) :: settingsUnits rest
  | _ => []

def encodeSetting (setting value : Nat) : Bytes := beBytes 2 setting ++ beBytes 4 value

/-! ## Fields of a response -/

def isFieldNameByte (c : UInt8) : Bool :=
  (97 ≤ c && c ≤ 122) || (48 ≤ c && c ≤ 57) || (ascii "!#$%&'*+-.^_\x60|~").contains c

def isMalformedResponseField (name : Bytes) : Bool :=
  name.isEmpty || name.any (fun c => !isFieldNameByte c) ||
    [ascii "connection", ascii "keep-alive", ascii "proxy-connection", ascii "te",
      ascii "transfer-encoding", ascii "upgrade"].contains name

def isMalformedResponseValue (value : Bytes) : Bool := value.any fun c => c = 0 || c = 13 || c = 10

/-- `parse_unsigned`, with a radix of ten: underscores between digits are skipped. -/
def parseUnsigned (digits : Bytes) : Option Nat :=
  if digits.head? = none ∨ digits.head? = some 95 ∨ digits.getLast? = some 95 then none
  else
    digits.foldlM (fun acc c =>
      if c = 95 then some acc
      else if 48 ≤ c ∧ c ≤ 57 then some (acc * 10 + (c.toNat - 48))
      else none) 0

/-- The number in a value of `:status`, or zero. -/
def parseStatus (value : Bytes) : Nat :=
  if value.length = 3 then (parseUnsigned value).getD 0 else 0

end OhosBun.Http2
