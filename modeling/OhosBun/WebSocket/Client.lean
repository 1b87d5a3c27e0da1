/-
# `OhosBun.WebSocket.Client` — how a client reads frames

`handle_data` of `websocket_client.rs`: a cursor goes over what was read, one state handler at a
time, and what a frame still needs is kept for the next read.  A control payload is gathered in
`ping_frame_bytes`; while it is, the cursor's `body_remain` counts what has been gathered.

`clear_data` clears both halves of a client; a call into the sending half that has cleared it
clears this half as well (`Client.call`).
-/
import OhosBun.WebSocket.Connection

namespace OhosBun.WebSocket

open OhosBun.Lib

/-! ## What is kept between reads -/

/-- `pingFrameBytes` is what comes after the header of a control frame. -/
structure Receive where
  receiveState : ReceiveState := .needHeader
  receivingType : Opcode := .resB
  receivingIsFinal : Bool := true
  pingFrameBytes : Bytes := List.replicate 128 0
  pingLen : Nat := 0
  controlFrameStarted : Bool := false
  closeReceived : Bool := false
  receiveBodyRemain : Nat := 0
  receiveBuffer : Bytes := []
  headerFragment : Option UInt8 := none
  payloadLengthFrameBytes : Bytes := List.replicate 8 0
  payloadLengthFrameLen : Nat := 0
  receivingCompressed : Bool := false
  messageIsCompressed : Bool := false
deriving DecidableEq

/-- `clear_data`, for this half. -/
def Receive.clear (r : Receive) : Receive :=
  { r with
    receiveBuffer := []
    receiveBodyRemain := 0
    controlFrameStarted := false
    pingLen := 0
    receivingCompressed := false
    messageIsCompressed := false }

structure Client (δ : Type) where
  connection : Connection δ
  receive : Receive

structure RecvCursor where
  data : Bytes
  state : ReceiveState
  bodyRemain : Nat
  isFinal : Bool
  lastDataType : Opcode
deriving DecidableEq

/-- `panicked` is an index out of range. -/
inductive Step
  | again | needMoreData | terminated | panicked
deriving DecidableEq

/-- `bytes` written over what is at `off`. -/
def splice (buffer : Bytes) (off : Nat) (bytes : Bytes) : Bytes :=
  buffer.take off ++ bytes ++ buffer.drop (off + bytes.length)

/-! ## Messages -/

namespace Connection
variable {δ : Type} (env : Env δ) (c : Connection δ)

def dispatchData (data : Bytes) (kind : Opcode) : Connection δ :=
  if !c.outgoing then c.clearData
  else
    match kind with
    | .text => if env.isValidUtf8 data then c.log (.message .text data) else c.fail .invalidUtf8
    | .binary | .ping | .pong => c.log (.message kind data)
    | _ => c.fail .unexpectedOpcode

def dispatchCompressedData (data : Bytes) (kind : Opcode) : Connection δ :=
  match c.deflate with
  | none => c.fail .compressionUnsupported
  | some deflate =>
    match env.decompress deflate data with
    | (deflate, .ok decompressed) =>
      { c with deflate := some deflate }.dispatchData env decompressed kind
    | (deflate, .error code) => { c with deflate := some deflate }.fail code

end Connection

namespace Client
variable {δ : Type} (env : Env δ) (c : Client δ)

/-- After a call into the sending half. -/
def call (connection : Connection δ) : Client δ :=
  { connection
    receive :=
      if connection.clears = c.connection.clears then c.receive else c.receive.clear }

def bufferPayload (data : Bytes) : Client δ :=
  { c with receive := { c.receive with receiveBuffer := c.receive.receiveBuffer ++ data } }

/-- Dispatches what has been gathered in `receive_buffer`. -/
def dispatchBufferedMessage (kind : Opcode) (compressed : Bool) : Client δ :=
  let data := c.receive.receiveBuffer
  let taken : Client δ := { c with receive := { c.receive with receiveBuffer := [] } }
  let after := taken.call
    (if compressed then c.connection.dispatchCompressedData env data kind
      else c.connection.dispatchData env data kind)
  { after with
    receive :=
      { after.receive with
        receiveBuffer := []
        receiveBodyRemain := 0
        receivingCompressed := if compressed then false else after.receive.receivingCompressed
        messageIsCompressed := false } }

def consumeCompressed (data : Bytes) (leftInFragment : Nat) (kind : Opcode) (isFinal : Bool) :
    Nat × Client δ :=
  let c := if data ≠ [] then c.bufferPayload data else c
  if data.length = leftInFragment then
    let c := { c with receive := { c.receive with receiveBodyRemain := 0 } }
    (data.length, if isFinal then c.dispatchBufferedMessage env kind true else c)
  else (data.length, c)

/-- Payload of a data message: how much of it is consumed, which is all. -/
def consume (data : Bytes) (leftInFragment : Nat) (kind : Opcode) (isFinal : Bool) :
    Nat × Client δ :=
  if c.receive.receivingCompressed then c.consumeCompressed env data leftInFragment kind isFinal
  else
    let frameComplete := data.length = leftInFragment
    if isFinal ∧ frameComplete ∧ c.receive.receiveBuffer = [] then
      let c := c.call (c.connection.dispatchData env data kind)
      (data.length, { c with receive := { c.receive with messageIsCompressed := false } })
    else if isFinal ∧ frameComplete ∧ data = [] then (0, c.dispatchBufferedMessage env kind false)
    else if data = [] then (0, c)
    else
      let c := c.bufferPayload data
      if frameComplete then
        let c := { c with receive := { c.receive with receiveBodyRemain := 0 } }
        (data.length, if isFinal then c.dispatchBufferedMessage env kind false else c)
      else (data.length, c)

/-! ## State handlers -/

def recvFailed (cursor : RecvCursor) (code : ErrorCode) : Client δ × RecvCursor × Step :=
  (c.call (c.connection.fail code), cursor, .terminated)

/-- The two bytes of a header, and what they say of the message. -/
def recvHeader (cursor : RecvCursor) (a b : UInt8) : Client δ × RecvCursor × Step :=
  let header := parseWebsocketHeader a b
  let cursor :=
    { cursor with
      state := header.next
      bodyRemain := header.payloadLen
      isFinal := header.isFinal }
  let isMessage := header.opcode = .text || header.opcode = .binary
  if header.opcode = .continuation ∧ c.receive.receivingIsFinal then
    -- nothing to continue here
    c.recvFailed cursor .unexpectedOpcode
  else if isMessage ∧ !c.receive.receivingIsFinal then c.recvFailed cursor .unexpectedOpcode
  else if header.opcode.isControl ∧ header.isFragmented then
    c.recvFailed cursor .controlFrameIsFragmented
  else
    let c : Client δ :=
      if header.opcode = .continuation || isMessage then
        { c with receive := { c.receive with receivingIsFinal := header.isFinal } }
      else c
    let cursor := if isMessage then { cursor with lastDataType := header.opcode } else cursor
    if !(header.opcode = .continuation || isMessage || header.opcode = .ping ||
        header.opcode = .pong || header.opcode = .close) then
      c.recvFailed cursor .unsupportedControlFrame
    else if header.compressed && !isMessage then c.recvFailed cursor .unexpectedRsv1
    else if header.compressed && c.connection.deflate.isNone then
      c.recvFailed cursor .compressionUnsupported
    else
      -- a message has its own bit, a continuation that of its message
      let c : Client δ :=
        if isMessage then
          { c with
            receive :=
              { c.receive with
                messageIsCompressed := header.compressed
                receivingCompressed := header.compressed } }
        else if header.opcode = .continuation then
          { c with
            receive :=
              { c.receive with receivingCompressed := c.receive.messageIsCompressed } }
        else c
      if cursor.bodyRemain = 0 ∧ cursor.state = .needBody ∧ cursor.isFinal then
        -- an empty message is one too
        let c := (c.consume env [] 0 cursor.lastDataType true).2
        let c : Client δ :=
          { c with
            receive := { c.receive with receivingCompressed := false, messageIsCompressed := false } }
        (c, { cursor with state := .needHeader },
          if cursor.data = [] then .needMoreData else .again)
      else (c, cursor, .again)

def recvFrameHeader (cursor : RecvCursor) : Client δ × RecvCursor × Step :=
  match c.receive.headerFragment, cursor.data with
  | none, [] => (c, cursor, .panicked)
  | none, [a] =>
    ({ c with receive := { c.receive with headerFragment := some a } }, cursor, .needMoreData)
  | none, a :: b :: rest => c.recvHeader env { cursor with data := rest } a b
  | some _, [] => (c, cursor, .panicked)
  | some a, b :: rest =>
    { c with receive := { c.receive with headerFragment := none } }.recvHeader env
      { cursor with data := rest } a b

def recvExtendedPayloadLength (cursor : RecvCursor) (byteSize : Nat) :
    Client δ × RecvCursor × Step :=
  if cursor.data = [] then (c, cursor, .needMoreData)
  else
    let start := c.receive.payloadLengthFrameLen
    let totalReceived := min (byteSize - start) cursor.data.length
    let bytes := splice c.receive.payloadLengthFrameBytes start (cursor.data.take totalReceived)
    let received : Receive :=
      { c.receive with
        payloadLengthFrameBytes := bytes
        payloadLengthFrameLen := start + totalReceived }
    let cursor := { cursor with data := cursor.data.drop totalReceived }
    if received.payloadLengthFrameLen < byteSize then
      ({ c with receive := received }, cursor, .needMoreData)
    else
      let c : Client δ := { c with receive := { received with payloadLengthFrameLen := 0 } }
      let cursor :=
        { cursor with bodyRemain := ofBe (bytes.take byteSize), state := .needBody }
      if cursor.bodyRemain = 0 then c.recvFailed cursor .invalidControlFrame
      else (c, cursor, .again)

/-- From here on `body_remain` counts what has been gathered. -/
def startControl (cursor : RecvCursor) : Client δ × RecvCursor :=
  if c.receive.controlFrameStarted then (c, cursor)
  else
    ({ c with
        receive :=
          { c.receive with pingLen := cursor.bodyRemain % 256, controlFrameStarted := true } },
      { cursor with bodyRemain := 0 })

/-- As much of the payload as there is. -/
def gatherControl (cursor : RecvCursor) : Client δ × RecvCursor :=
  if cursor.data = [] then (c, cursor)
  else
    let totalReceived := min c.receive.pingLen (cursor.bodyRemain + cursor.data.length)
    let copied := totalReceived - cursor.bodyRemain
    ({ c with
        receive :=
          { c.receive with
            pingFrameBytes :=
              splice c.receive.pingFrameBytes cursor.bodyRemain (cursor.data.take copied) } },
      { cursor with bodyRemain := totalReceived, data := cursor.data.drop copied })

/-- The payload of a control frame when it is complete. -/
def bufferControlPayload (cursor : RecvCursor) : Option Bytes × Client δ × RecvCursor :=
  let (c, cursor) := c.startControl cursor
  let (c, cursor) := c.gatherControl cursor
  if c.receive.pingLen > cursor.bodyRemain then (none, c, cursor)
  else
    (some (c.receive.pingFrameBytes.take c.receive.pingLen),
      { c with receive := { c.receive with controlFrameStarted := false } }, cursor)

/-- `ping_frame_bytes` and `ping_len` are what is sent back; that it is masked in place is not
seen again, the next control payload is written over it. -/
def sendPong : Client δ :=
  let payload := c.receive.pingFrameBytes.take c.receive.pingLen
  c.call (c.connection.sendPong env payload)

def recvPingOrPong (cursor : RecvCursor) (opcode : Opcode) : Client δ × RecvCursor × Step :=
  if !c.receive.controlFrameStarted ∧ cursor.bodyRemain > maxControlPayload then
    c.recvFailed cursor .invalidControlFrame
  else
    match c.bufferControlPayload cursor with
    | (none, c, cursor) => (c, cursor, .needMoreData)
    | (some payload, c, cursor) =>
      let c := c.call (c.connection.dispatchData env payload opcode)
      let cursor := { cursor with state := .needHeader, bodyRemain := 0 }
      let c := if opcode = .ping then c.sendPong env else c
      (c, cursor, if cursor.data = [] then .needMoreData else .again)

def recvBody (cursor : RecvCursor) : Client δ × RecvCursor × Step :=
  let bufferedLen := c.receive.receiveBuffer.length
  if min (bufferedLen + cursor.bodyRemain) (2 ^ 64 - 1) > maxReceiveMessageLength then
    c.recvFailed cursor .messageTooBig
  else
    let taken := min cursor.bodyRemain cursor.data.length
    let (consumed, c) := c.consume env (cursor.data.take taken) cursor.bodyRemain
      cursor.lastDataType cursor.isFinal
    let bodyRemain := cursor.bodyRemain - consumed
    let cursor :=
      { cursor with
        bodyRemain
        data := cursor.data.drop taken
        state := if bodyRemain = 0 then .needHeader else cursor.state }
    (c, cursor, if cursor.data = [] then .needMoreData else .again)

def recvClose (cursor : RecvCursor) : Client δ × RecvCursor × Step :=
  if cursor.bodyRemain = 1 ∨ cursor.bodyRemain > maxControlPayload then
    c.recvFailed cursor .invalidControlFrame
  else
    let received : Client δ := { c with receive := { c.receive with closeReceived := true } }
    if cursor.bodyRemain = 0 then
      (received.call (c.connection.sendClose env), cursor, .terminated)
    else
      match c.bufferControlPayload cursor with
      | (none, c, cursor) => (c, cursor, .needMoreData)
      | (some payload, c, cursor) =>
        let c : Client δ := { c with receive := { c.receive with closeReceived := true } }
        if 2 ≤ payload.length then
          let (echoCode, dispatchCode) := receivedCloseCodes (ofBe (payload.take 2))
          (c.call (c.connection.sendCloseWithBody env echoCode (some dispatchCode) (payload.drop 2)),
            cursor, .terminated)
        else (c.call (c.connection.sendClose env), cursor, .terminated)

/-! ## The loop -/

def step (cursor : RecvCursor) : Client δ × RecvCursor × Step :=
  match cursor.state with
  | .needHeader => c.recvFrameHeader env cursor
  | .needMask => c.recvFailed cursor .unexpectedMaskFromServer
  | .extendedPayloadLength16 => c.recvExtendedPayloadLength cursor 2
  | .extendedPayloadLength64 => c.recvExtendedPayloadLength cursor 8
  | .ping => c.recvPingOrPong env cursor .ping
  | .pong => c.recvPingOrPong env cursor .pong
  | .needBody => c.recvBody env cursor
  | .close => c.recvClose env cursor
  | .fail => c.recvFailed cursor .unsupportedControlFrame

/-- The loop, for so many turns; `none` where it panics or has not come to its end. -/
def loop : (turns : Nat) → Client δ → RecvCursor → Option (Client δ)
  | 0, _, _ => none
  | turns + 1, c, cursor =>
    match c.step env cursor with
    | (c, cursor, .again) => loop turns c cursor
    | (c, cursor, .needMoreData) =>
      some
        { c with
          receive :=
            { c.receive with
              receiveState := cursor.state
              receivingType := cursor.lastDataType
              receiveBodyRemain := cursor.bodyRemain } }
    | (c, _, .terminated) => some { c with receive := { c.receive with closeReceived := true } }
    | (_, _, .panicked) => none

/-- Where the loop starts. -/
def cursor (data : Bytes) : RecvCursor where
  data
  state := c.receive.receiveState
  bodyRemain := c.receive.receiveBodyRemain
  isFinal := c.receive.receivingIsFinal
  lastDataType := c.receive.receivingType

/-- `handle_data`, for as many turns as a read can take. -/
def handleData (data : Bytes) : Option (Client δ) :=
  if c.receive.closeReceived then some c else loop env (3 * data.length + 3) c (c.cursor data)

/-- Reads, one after another. -/
def handleReads : Client δ → List Bytes → Option (Client δ)
  | c, [] => some c
  | c, data :: reads => (c.handleData env data).bind fun c => handleReads c reads

end Client

end OhosBun.WebSocket
