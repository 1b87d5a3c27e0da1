/-
# `OhosBun.WebSocket.Connection` — what a client sends, and what it tells script

The half of `websocket_client.rs` that writes: frames, the queue of what the transport has not
taken yet, the closing handshake, and the calls into `CppWebSocket`.  The transport is a raw
socket or a proxy tunnel; how much it takes of each write is up to it (`Env.takes`), and what
it took is `wire`.

`events` is what can be seen from outside: the calls into script and the frames handed to the
transport, in order.  Text encodings, the compressor and the entropy are parameters.
-/
import OhosBun.WebSocket.Header

namespace OhosBun.WebSocket

open OhosBun.Lib

inductive ErrorCode
  | failedToWrite | ended | controlFrameIsFragmented | invalidControlFrame
  | compressionUnsupported | invalidCompressedData | unexpectedMaskFromServer
  | unsupportedControlFrame | unexpectedOpcode | invalidUtf8 | messageTooBig | unexpectedRsv1
deriving DecidableEq

def minCompressSize : Nat := 860
def stackFrameSize : Nat := 1024
def maxReceiveMessageLength : Nat := 128 * 1024 * 1024
def maxControlPayload : Nat := 125
def maxCloseReason : Nat := maxControlPayload - 2

/-- What the client does not decide.  `takes` answers the `n`-th write of the transport: so many
bytes of it, or an error; `encrypted` is what the tunnel makes of that write. -/
structure Env (δ : Type) where
  isValidUtf8 : Bytes → Bool
  decompress : δ → Bytes → δ × Except ErrorCode Bytes
  compress : δ → Bytes → Option (δ × Bytes)
  entropy : Nat → Bytes
  takes : Nat → Option Nat
  encrypted : Nat → Bytes

/-- Seen from outside. -/
inductive Event
  | message (kind : Opcode) (data : Bytes)
  | abruptClose (code : ErrorCode)
  | closed (code : Nat) (reason : Bytes)
  | frame (bytes : Bytes)
deriving DecidableEq

/-- A tunnel is its `write_buffer`.  `clears` counts the calls of `clear_data`. -/
structure Connection (δ : Type) where
  ssl : Bool := false
  outgoing : Bool := true
  closed : Bool := false
  shutdown : Bool := false
  tunnel : Option Bytes := none
  sendBuffer : Bytes := []
  closeDispatchPending : Option (Nat × Bytes) := none
  deflate : Option δ := none
  clears : Nat := 0
  writes : Nat := 0
  masks : Nat := 0
  wire : Bytes := []
  events : List Event := []

/-! ## Frames -/

def maskBytes (key bytes : Bytes) : Bytes :=
  bytes.mapIdx fun i b => b ^^^ key.getD (i % 4) 0

/-- The extended length of a frame. -/
def lengthBytes (byteLength : Nat) : Bytes :=
  beBytes (WebsocketHeader.lengthByteCount byteLength) byteLength

/-- A frame for the server. -/
def encodeFrame (opcode : Opcode) (compressed : Bool) (key content : Bytes) : Bytes :=
  let header := WebsocketHeader.new (WebsocketHeader.packLength content.length) true opcode
  (header.setCompressed compressed).slice ++ lengthBytes content.length ++ key ++ maskBytes key content

/-- An outgoing payload: what it is in UTF-8 when it is text. -/
inductive Copy
  | utf16 (content : Bytes)
  | latin1 (content : Bytes)
  | bytes (content : Bytes)
  | raw (frame : Bytes)
deriving DecidableEq

namespace Copy

def content : Copy → Bytes
  | utf16 content | latin1 content | bytes content | raw content => content

/-- Of the frame, and of what is in it. -/
def frameAndContentLen : Copy → Nat × Nat
  | raw frame => (frame.length, frame.length)
  | copy => (WebsocketHeader.frameSizeIncludingMask copy.content.length, copy.content.length)

end Copy

/-- A string of script, with its length in code units. -/
structure EncodedSlice where
  is16Bit : Bool
  len : Nat
  utf8 : Bytes
deriving DecidableEq

namespace Connection
variable {δ : Type} (env : Env δ) (c : Connection δ)

def log (event : Event) : Connection δ := { c with events := c.events ++ [event] }

def hasTcp : Bool := c.tunnel.isSome || (!c.closed && !c.shutdown)

def hasBackpressure : Bool := 0 < c.sendBuffer.length || c.tunnel.any fun buffer => buffer ≠ []

def hasPendingCloseDispatch : Bool := c.closeDispatchPending.isSome

/-! ## Endings -/

/-- `clear_data`, for this half. -/
def clearData : Connection δ :=
  { c with
    sendBuffer := []
    closeDispatchPending := none
    deflate := none
    tunnel := none
    clears := c.clears + 1 }

def dispatchAbruptClose (code : ErrorCode) : Connection δ :=
  if c.outgoing then { c with outgoing := false }.log (.abruptClose code) else c

def dispatchClose (code : Nat) (reason : Bytes) : Connection δ :=
  if c.outgoing then { c with outgoing := false }.log (.closed code reason) else c

/-- The socket has closed. -/
def handleClose : Connection δ :=
  match c.closeDispatchPending with
  | some (code, reason) => c.clearData.dispatchClose code reason
  | none => c.clearData.dispatchAbruptClose .ended

/-- `tcp.close`, which calls back. -/
def closeTcp : Connection δ := if c.closed then c else { c with closed := true }.handleClose

def cancel : Connection δ :=
  let after := c.clearData.closeTcp
  if c.tunnel.isSome then after.dispatchAbruptClose .ended else after

def fail (code : ErrorCode) : Connection δ :=
  (if c.outgoing then { c with outgoing := false }.log (.abruptClose code) else c).cancel

/-! ## The transport -/

/-- A write to the raw socket, or of application data through the tunnel. -/
def takeBytes (bytes : Bytes) : Option Nat × Connection δ :=
  let after := { c with writes := c.writes + 1 }
  match env.takes c.writes with
  | none => (none, after)
  | some n =>
    let wrote := min n bytes.length
    (some wrote, { after with wire := c.wire ++ bytes.take wrote })

/-- `write_encrypted`: how much of it the socket takes is the next answer. -/
def writeEncrypted (encrypted : Bytes) : Connection δ :=
  match c.tunnel with
  | none => c
  | some buffer =>
    if buffer ≠ [] then { c with tunnel := some (buffer ++ encrypted) }
    else
      let taken := (env.takes c.writes).getD 0
      { c with writes := c.writes + 1, tunnel := some (encrypted.drop taken) }

/-- `WebSocketProxyTunnel::write` -/
def tunnelWrite (bytes : Bytes) : Option Nat × Connection δ :=
  let (wrote, after) := c.takeBytes env bytes
  (wrote, after.writeEncrypted env (env.encrypted c.writes))

def sendBufferOut : Bool × Connection δ :=
  if c.tunnel.isSome then
    match c.tunnelWrite env c.sendBuffer with
    | (some wrote, after) => (true, { after with sendBuffer := c.sendBuffer.drop wrote })
    | (none, after) => (false, after.fail .failedToWrite)
  else if c.closed then (false, c)
  else
    match c.takeBytes env c.sendBuffer with
    | (some wrote, after) => (true, { after with sendBuffer := c.sendBuffer.drop wrote })
    | (none, after) => (false, after.fail .failedToWrite)

/-! ## Sending -/

/-- The key that the next frame is masked with. -/
def generateMask : Bytes × Connection δ := (env.entropy c.masks, { c with masks := c.masks + 1 })

def queue (bytes : Bytes) (doWrite : Bool) : Bool × Connection δ :=
  let queued := { c with sendBuffer := c.sendBuffer ++ bytes }
  if doWrite then queued.sendBufferOut env else (true, queued)

def sendDataUncompressed (copy : Copy) (doWrite : Bool) (opcode : Opcode) : Bool × Connection δ :=
  match copy with
  | .raw bytes => c.queue env bytes doWrite
  | copy =>
    let (key, c) := c.generateMask env
    let bytes := encodeFrame opcode false key copy.content
    (c.log (.frame bytes)).queue env bytes doWrite

def shouldCompress (dataLen : Nat) (opcode : Opcode) : Bool :=
  c.deflate.isSome && (opcode = .text || opcode = .binary) && minCompressSize ≤ dataLen

def sendData (copy : Copy) (doWrite : Bool) (opcode : Opcode) : Bool × Connection δ :=
  let isRaw := match copy with
    | .raw _ => true
    | _ => false
  if isRaw || !c.shouldCompress copy.frameAndContentLen.2 opcode then
    c.sendDataUncompressed env copy doWrite opcode
  else
    match c.deflate.bind fun deflate => env.compress deflate copy.content with
    | none => c.sendDataUncompressed env copy doWrite opcode
    | some (deflate, compressed) =>
      let (key, c) := { c with deflate := some deflate }.generateMask env
      let bytes := encodeFrame opcode true key compressed
      (c.log (.frame bytes)).queue env bytes doWrite

def copyToSendBuffer (bytes : Bytes) (doWrite : Bool) : Bool × Connection δ :=
  c.sendData env (.raw bytes) doWrite .binary

def enqueueEncodedBytes (bytes : Bytes) : Bool × Connection δ :=
  let c := c.log (.frame bytes)
  if c.tunnel.isSome then
    match c.tunnelWrite env bytes with
    | (none, after) => (false, after.fail .failedToWrite)
    | (some wrote, after) =>
      if wrote < bytes.length then (true, (after.copyToSendBuffer env (bytes.drop wrote) false).2)
      else (true, after)
  else if !c.hasBackpressure then
    match c.takeBytes env bytes with
    | (none, after) => (false, after.fail .failedToWrite)
    | (some wrote, after) =>
      if wrote = bytes.length then (true, after)
      else (true, (after.copyToSendBuffer env (bytes.drop wrote) false).2)
  else c.copyToSendBuffer env bytes true

def sendInlineFrame (copy : Copy) (opcode : Opcode) : Connection δ :=
  let (key, c) := c.generateMask env
  (c.enqueueEncodedBytes env (encodeFrame opcode false key copy.content)).2

/-- Small frames that meet no backpressure are framed on the stack. -/
def sendFrame (copy : Copy) (payloadByteLen : Nat) (opcode : Opcode) : Connection δ :=
  let frameSize := WebsocketHeader.frameSizeIncludingMask payloadByteLen
  if !c.hasBackpressure && frameSize < stackFrameSize then c.sendInlineFrame env copy opcode
  else (c.sendData env copy (!c.hasBackpressure) opcode).2

def writeBinaryData (slice : Bytes) (op : Nat) : Connection δ :=
  if !c.hasTcp || op > 0xF then c.dispatchAbruptClose .ended
  else c.sendFrame env (.bytes slice) slice.length (.fromRaw op)

def writeString (str : EncodedSlice) (op : Nat) : Connection δ :=
  if !c.hasTcp then c.dispatchAbruptClose .ended
  else
    let opcode := Opcode.fromRaw op
    let queued := (c.sendData env (if str.is16Bit then .utf16 str.utf8 else .latin1 str.utf8)
      (!c.hasBackpressure) opcode).2
    if !str.is16Bit && str.len < stackFrameSize then
      let bytes := Copy.latin1 str.utf8
      if !c.hasBackpressure && bytes.frameAndContentLen.1 < stackFrameSize then
        c.sendInlineFrame env bytes opcode
      else queued
    else if str.len * 4 < stackFrameSize && !c.hasBackpressure then
      c.sendInlineFrame env (.utf16 str.utf8) opcode
    else queued

/-- `send_pong`, of the payload in `ping_frame_bytes`. -/
def sendPong (payload : Bytes) : Connection δ :=
  if !c.hasTcp then c.dispatchAbruptClose .ended
  else
    let header := WebsocketHeader.new (payload.length % 2 ^ 7) true .pong
    -- an empty pong is masked too, with a key of zeros
    let (key, c) := if payload ≠ [] then c.generateMask env else ([0, 0, 0, 0], c)
    (c.enqueueEncodedBytes env (header.slice ++ key ++ maskBytes key payload)).2

/-! ## The closing handshake -/

/-- The write side of a raw socket that is not encrypted. -/
def shutdownAfterCloseFrame : Connection δ :=
  if !c.ssl && c.tunnel.isNone then { c with shutdown := true } else c

def sendCloseWithBody (code : Nat) (dispatchCode : Option Nat) (body : Bytes) : Connection δ :=
  let body := body.take maxCloseReason
  if c.hasPendingCloseDispatch then c
  else if !c.hasTcp then (c.dispatchAbruptClose .ended).clearData
  else if body ≠ [] && !env.isValidUtf8 body then c.fail .invalidUtf8
  else
    let header := WebsocketHeader.new ((body.length + 2) % 2 ^ 7) true .close
    let (key, c) := c.generateMask env
    let bytes := header.slice ++ key ++ maskBytes key (beBytes 2 code ++ body)
    match c.enqueueEncodedBytes env bytes with
    | (false, c) => c
    | (true, c) =>
      let dispatchCode := dispatchCode.getD code
      if c.sendBuffer = [] then c.shutdownAfterCloseFrame.clearData.dispatchClose dispatchCode body
      else { c with closeDispatchPending := some (dispatchCode, body) }

/-- A close without a body is answered with 1000, and script is told 1005. -/
def sendClose : Connection δ := c.sendCloseWithBody env 1000 (some 1005) []

/-- `close`, called by script with a reason that fits. -/
def close (code : Nat) (reason : Bytes) : Connection δ :=
  if !c.hasTcp then c else c.sendCloseWithBody env code none reason

def finishPendingClose : Connection δ :=
  match c.closeDispatchPending with
  | none => c
  | some (code, reason) =>
    { c with closeDispatchPending := none }.shutdownAfterCloseFrame.clearData.dispatchClose code reason

def drainSendBufferAndFinishClose : Connection δ :=
  let c := if c.sendBuffer ≠ [] then (c.sendBufferOut env).2 else c
  if c.sendBuffer = [] then c.finishPendingClose else c

/-- `on_writable` of the tunnel, up to what it does for the client: flush, and write what is
buffered. -/
def tunnelFlush (flushed : Bytes) : Bool × Connection δ :=
  let c := if flushed ≠ [] then c.writeEncrypted env flushed else c
  match c.tunnel with
  | none => (true, c)
  | some [] => (true, c)
  | some buffer =>
    match env.takes c.writes with
    | none => (false, { c with writes := c.writes + 1 })
    | some n =>
      (buffer.length ≤ n, { c with writes := c.writes + 1, tunnel := some (buffer.drop n) })

/-- `handle_writable` of a raw socket, and `handle_tunnel_writable`. -/
def handleWritable (closeReceived : Bool) : Connection δ :=
  if closeReceived && !c.hasPendingCloseDispatch then c else c.drainSendBufferAndFinishClose env

/-- The transport can be written to again; `flushed` is what the tunnel had to say first. -/
def onWritable (closeReceived : Bool) (flushed : Bytes) : Connection δ :=
  if c.tunnel.isSome then
    match c.tunnelFlush env flushed with
    | (true, c) => c.handleWritable env closeReceived
    | (false, c) => c
  else c.handleWritable env closeReceived

end Connection

end OhosBun.WebSocket
