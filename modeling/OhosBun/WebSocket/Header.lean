/-
# `OhosBun.WebSocket.Header` — the first two bytes of a frame

`WebsocketHeader` of `http/websocket.rs` is a 16-bit word in network order; its fields are cut
out with shifts and masks.  `parse_websocket_header` says what a client reads after it.
-/
import OhosBun.Lib.Bytes

namespace OhosBun.WebSocket

open OhosBun.Lib

/-! ## Opcodes -/

inductive Opcode
  | continuation | text | binary | res3 | res4 | res5 | res6 | res7
  | close | ping | pong | resB | resC | resD | resE | resF
deriving DecidableEq

namespace Opcode

def toRaw : Opcode → Nat
  | continuation => 0x0
  | text => 0x1
  | binary => 0x2
  | res3 => 0x3
  | res4 => 0x4
  | res5 => 0x5
  | res6 => 0x6
  | res7 => 0x7
  | close => 0x8
  | ping => 0x9
  | pong => 0xA
  | resB => 0xB
  | resC => 0xC
  | resD => 0xD
  | resE => 0xE
  | resF => 0xF

/-- Of the low four bits. -/
def fromRaw (n : Nat) : Opcode :=
  match n % 16 with
  | 0x0 => continuation
  | 0x1 => text
  | 0x2 => binary
  | 0x3 => res3
  | 0x4 => res4
  | 0x5 => res5
  | 0x6 => res6
  | 0x7 => res7
  | 0x8 => close
  | 0x9 => ping
  | 0xA => pong
  | 0xB => resB
  | 0xC => resC
  | 0xD => resD
  | 0xE => resE
  | _ => resF

def isControl (opcode : Opcode) : Bool := opcode.toRaw / 8 % 2 = 1

theorem toRaw_lt (opcode : Opcode) : opcode.toRaw < 16 := by
  cases opcode <;> decide

@[simp] theorem fromRaw_toRaw (opcode : Opcode) : fromRaw opcode.toRaw = opcode := by
  cases opcode <;> rfl

end Opcode

/-! ## The header -/

/-- The word of a header. -/
structure WebsocketHeader where
  bits : Nat
deriving DecidableEq

namespace WebsocketHeader

/-- With `rsv = 0`, `compressed = false` and `final = true`. -/
def new (len : Nat) (mask : Bool) (opcode : Opcode) : WebsocketHeader :=
  ⟨len % 2 ^ 7 + mask.toNat * 2 ^ 7 + opcode.toRaw * 2 ^ 8 + 2 ^ 15⟩

/-- `width` bits of the word from bit `shift` on. -/
def field (header : WebsocketHeader) (shift width : Nat) : Nat :=
  (header.bits >>> shift) % 2 ^ width

variable (header : WebsocketHeader)

def len : Nat := header.field 0 7
def mask : Bool := header.field 7 1 ≠ 0
def opcode : Opcode := .fromRaw (header.field 8 4)
def rsv : Nat := header.field 12 2
def compressed : Bool := header.field 14 1 ≠ 0
def isFinal : Bool := header.field 15 1 ≠ 0

def setCompressed (v : Bool) : WebsocketHeader :=
  ⟨header.bits - header.field 14 1 * 2 ^ 14 + v.toNat * 2 ^ 14⟩

def slice : Bytes := [UInt8.ofNat (header.bits / 256), UInt8.ofNat header.bits]

def fromSlice (a b : UInt8) : WebsocketHeader := ⟨a.toNat * 256 + b.toNat⟩

def packLength (length : Nat) : Nat :=
  if length ≤ 125 then length else if length ≤ 0xFFFF then 126 else 127

def lengthByteCount (byteLength : Nat) : Nat :=
  if byteLength ≤ 125 then 0 else if byteLength ≤ 0xFFFF then 2 else 8

def frameSizeIncludingMask (byteLength : Nat) : Nat :=
  2 + byteLength + lengthByteCount byteLength + 4

end WebsocketHeader

/-! ## What comes after it -/

inductive ReceiveState
  | needHeader | needMask | needBody | extendedPayloadLength16 | extendedPayloadLength64
  | ping | pong | close | fail
deriving DecidableEq

structure ParsedHeader where
  opcode : Opcode
  payloadLen : Nat
  isFragmented : Bool
  isFinal : Bool
  /-- The first reserved bit, for a compressed message. -/
  compressed : Bool
  next : ReceiveState
deriving DecidableEq

def parseWebsocketHeader (a b : UInt8) : ParsedHeader :=
  let header := WebsocketHeader.fromSlice a b
  let opcode := header.opcode
  let isDataFrame := opcode = .text || opcode = .binary
  let parsed : ParsedHeader :=
    { opcode
      payloadLen := header.len
      isFragmented := opcode = .continuation || !header.isFinal
      isFinal := header.isFinal
      compressed := header.compressed
      next := .fail }
  if header.mask && isDataFrame then { parsed with next := .needMask }
  else if header.rsv ≠ 0 then parsed
  else
    { parsed with
      next :=
        match opcode with
        | .text | .continuation | .binary =>
          if header.len ≤ 125 then .needBody
          else if header.len = 126 then .extendedPayloadLength16
          else if header.len = 127 then .extendedPayloadLength64
          else .fail
        | .close => .close
        | .ping => .ping
        | .pong => .pong
        | _ => .fail }

/-- The code that a close is answered with, and the one that script sees. -/
def receivedCloseCodes (received : Nat) : Nat × Nat :=
  let isInvalid := received < 1000 || (1004 ≤ received && received < 1007) ||
    (1015 ≤ received && received ≤ 2999) || received > 4999
  let dispatch := if isInvalid then 1002 else received
  let echo := if dispatch = 1001 then 1000 else dispatch
  (echo, dispatch)

end OhosBun.WebSocket
