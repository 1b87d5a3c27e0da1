/-
# `OhosBun.Http2.Session` — a connection of `fetch`, and what it sends

A `ClientSession` is one connection, and its streams are the requests on it.  This module has what
the session writes: the preface, the headers of a request, and its body within the windows that
the server has granted.

`trace` is not in the code.  It has what happened on the connection, in order: the frames that were
read and written, and the changes of the windows and of the bodies that there are to send.

An index out of range, a failed conversion of an integer and a loop that does not end are `none`.
-/
import OhosBun.Http2.Frame
import OhosBun.Lib.ArrayMap

namespace OhosBun.Http2

open OhosBun.Lib

inductive Event
  | received (frame : Frame)
  | wrote (frame : Frame)
  | preface
  /-- An increment of a send window that was accepted; of the connection, for stream zero. -/
  | credited (streamId increment : Nat)
  | initialWindow (size : Nat)
  | maxFrame (size : Nat)
  /-- More of the body of a request is there. -/
  | provided (streamId : Nat) (bytes : Bytes)
  /-- Whether the body of a request is all there. -/
  | ended (streamId : Nat) (ended : Bool)
deriving DecidableEq

/-! ## Streams -/

inductive State
  | open
  | halfClosedLocal
  | halfClosedRemote
  | closed
deriving DecidableEq

/-- `HTTPRequestBody`; a stream has a buffer until it is detached. -/
inductive RequestBody
  | bytes (body : Bytes)
  | stream (ended : Bool) (buffer : Option Bytes)
deriving DecidableEq

/-- The id of a stream is its key in the map of the session. -/
structure Stream where
  /-- whether there still is a client behind the stream -/
  client : Bool := true
  body : RequestBody
  headerBlock : Bytes := []
  bodyBuffer : Bytes := []
  decodedBytes : Bytes := []
  decodedHeaders : List (Bytes × Bytes) := []
  statusCode : Nat := 0
  state : State := .open
  rstDone : Bool := false
  headersReady : Bool := false
  headersEndStream : Bool := false
  awaitingContinue : Bool := false
  fatalError : Option Error := none
  unackedBytes : Nat := 0
  dataBytesReceived : Nat := 0
  sendWindow : Int
  pendingBody : Bytes := []
deriving DecidableEq

namespace Stream
variable (s : Stream)

def sentEndStream : Stream :=
  { s with state :=
      match s.state with
      | .open => .halfClosedLocal
      | .halfClosedRemote => .closed
      | other => other }

def recvEndStream : Stream :=
  { s with state :=
      match s.state with
      | .open => .halfClosedRemote
      | .halfClosedLocal => .closed
      | other => other }

def localClosed : Bool := s.state = .halfClosedLocal || s.state = .closed

def remoteClosed : Bool := s.state = .halfClosedRemote || s.state = .closed

end Stream

/-! ## The session -/

/-- The decoder of header fields is a parameter, whose state is an `H`. -/
structure Session (H : Type) where
  hpack : H
  /-- how many bytes the socket has not taken yet -/
  writeBuffer : Nat := 0
  readBuffer : Bytes := []
  streams : ArrayMap Nat Stream := {}
  nextStreamId : Nat := 1
  expectingContinuation : Nat := 0
  continuationCount : Nat := 0
  prefaceSent : Bool := false
  settingsReceived : Bool := false
  goawayReceived : Bool := false
  encoderPoisoned : Bool := false
  streamProgressed : Bool := false
  goawayLastStreamId : Nat := 0
  fatalError : Option Error := none
  orphanHeaderBlock : Bytes := []
  remoteMaxFrameSize : Nat := DEFAULT_MAX_FRAME_SIZE
  remoteMaxConcurrentStreams : Nat := 100
  remoteInitialWindowSize : Nat := DEFAULT_WINDOW_SIZE
  pendingHpackEncCapacity : Option Nat := none
  connSendWindow : Int := DEFAULT_WINDOW_SIZE
  connUnackedBytes : Nat := 0
  trace : List Event := []

namespace Session
variable {H : Type} (s : Session H)

def hasHeadroom : Bool :=
  !s.goawayReceived && !s.encoderPoisoned && s.fatalError.isNone &&
    decide (s.streams.count < s.remoteMaxConcurrentStreams) && decide (s.nextStreamId < MAX_STREAM_ID)

def log (event : Event) : Session H := { s with trace := s.trace ++ [event] }

def fail (err : Error) : Session H := { s with fatalError := some err }

def modifyStream (id : Nat) (f : Stream → Stream) : Session H :=
  { s with streams := s.streams.modify id f }

def queue (bytes : Bytes) : Session H := { s with writeBuffer := s.writeBuffer + bytes.length }

def writeFrame (type flags : UInt8) (streamId : Nat) (payload : Bytes) : Session H :=
  { s with writeBuffer := s.writeBuffer + FrameHeader.BYTE_SIZE + payload.length }.log
    (.wrote ⟨type, flags, streamId, payload⟩)

def writeWindowUpdate (streamId increment : Nat) : Session H :=
  s.writeFrame FT_WINDOW_UPDATE 0 streamId (beBytes 4 increment)

def rstStream (id code : Nat) : Session H :=
  match s.streams.get? id with
  | none => s
  | some stream =>
    if stream.rstDone || stream.state = .closed then s
    else
      (s.modifyStream id fun stream => { stream with rstDone := true, state := .closed }).writeFrame
        FT_RST_STREAM 0 id (beBytes 4 code)

/-- What the socket takes. -/
def flush (wrote : Nat) : Session H := { s with writeBuffer := s.writeBuffer - wrote }

/-! ## Requests -/

def writePreface : Session H :=
  let s := (s.queue CLIENT_PREFACE).log .preface
  let s := s.writeFrame FT_SETTINGS 0 0 (encodeSetting ST_ENABLE_PUSH 0 ++
    encodeSetting ST_INITIAL_WINDOW_SIZE LOCAL_INITIAL_WINDOW_SIZE ++
    encodeSetting ST_MAX_HEADER_LIST_SIZE LOCAL_MAX_HEADER_LIST_SIZE)
  let s := s.writeWindowUpdate 0 (LOCAL_INITIAL_WINDOW_SIZE - DEFAULT_WINDOW_SIZE)
  { s with prefaceSent := true }

/-- The frames of a header block behind its first; none of them is empty. -/
def writeContinuations (id : Nat) : (fuel : Nat) → (remaining : Bytes) → Session H → Option (Session H)
  | 0, _, _ => none
  | fuel + 1, remaining, s =>
    let chunk := remaining.take s.remoteMaxFrameSize
    let remaining := remaining.drop s.remoteMaxFrameSize
    if remaining = [] then some (s.writeFrame FT_CONTINUATION END_HEADERS id chunk)
    else writeContinuations id fuel remaining (s.writeFrame FT_CONTINUATION 0 id chunk)

def writeHeaderBlock (id : Nat) (block : Bytes) (endStream : Bool) : Option (Session H) :=
  let chunk := block.take s.remoteMaxFrameSize
  let remaining := block.drop s.remoteMaxFrameSize
  let flags := if endStream then END_STREAM else 0
  if remaining = [] then some (s.writeFrame FT_HEADERS (END_HEADERS ||| flags) id chunk)
  else writeContinuations id block.length remaining (s.writeFrame FT_HEADERS flags id chunk)

/-- How much of the data was framed, besides what was before. -/
def writeDataWindowed (id : Nat) (endStream : Bool) (cap : Nat) :
    (fuel : Nat) → (remaining : Bytes) → (consumed : Nat) → Session H → Option (Session H × Nat)
  | 0, _, _, _ => none
  | fuel + 1, remaining, consumed, s => do
    let stream ← s.streams.get? id
    let window := (max (min stream.sendWindow s.connSendWindow) 0).toNat
    if remaining ≠ [] ∧ window = 0 then some (s, consumed)
    else if remaining ≠ [] ∧ WRITE_BUFFER_HIGH_WATER ≤ s.writeBuffer then some (s, consumed)
    else if cap ≤ consumed ∧ remaining ≠ [] then some (s, consumed)
    else
      let chunkLen := min (min remaining.length s.remoteMaxFrameSize) window
      let last := chunkLen = remaining.length
      let s := s.writeFrame FT_DATA (if last ∧ endStream then END_STREAM else 0) id
        (remaining.take chunkLen)
      if MAX_WINDOW_SIZE < chunkLen then none
      else
        let s := s.modifyStream id fun stream =>
          { stream with sendWindow := stream.sendWindow - chunkLen }
        let s := { s with connSendWindow := s.connSendWindow - chunkLen }
        if last then some (s, consumed + chunkLen)
        else writeDataWindowed id endStream cap fuel (remaining.drop chunkLen) (consumed + chunkLen) s

def drainSendBody (id cap : Nat) : Option (Session H) := do
  let stream ← s.streams.get? id
  if stream.localClosed || stream.awaitingContinue || stream.fatalError.isSome then some s
  else if !stream.client then some s
  else
    match stream.body with
    | .bytes _ =>
      let pending := stream.pendingBody
      let (s, sent) ← writeDataWindowed id true cap (pending.length + 1) pending 0 s
      let s := s.modifyStream id fun stream => { stream with pendingBody := pending.drop sent }
      if pending.drop sent = [] then some (s.modifyStream id Stream.sentEndStream) else some s
    | .stream _ none => some s
    | .stream ended (some data) =>
      if data = [] ∧ !ended then some s
      else
        let (s, sent) ← writeDataWindowed id ended cap (data.length + 1) data 0 s
        let s := s.modifyStream id fun stream =>
          { stream with body := .stream ended (some (data.drop sent)) }
        if data.drop sent = [] ∧ ended then
          some (s.modifyStream id fun stream =>
            { stream.sentEndStream with body := .stream ended none })
        else some s

/-- One pass over the streams, and whether any of them got further. -/
def drainPass (slice : Nat) : (ids : List Nat) → Session H → Bool → Option (Session H × Bool)
  | [], s, progressed => some (s, progressed)
  | id :: ids, s, progressed => do
    let stream ← s.streams.get? id
    if stream.localClosed ∨ stream.sendWindow ≤ 0 then drainPass slice ids s progressed
    else
      let before := s.connSendWindow
      let s ← s.drainSendBody id slice
      let stream ← s.streams.get? id
      drainPass slice ids s (progressed || s.connSendWindow ≠ before || stream.localClosed)

/-- Whether it stopped with more to send. -/
def drainSendBodies (slice : Nat) : (fuel : Nat) → Session H → Option (Session H × Bool)
  | 0, _ => none
  | fuel + 1, s =>
    if s.connSendWindow ≤ 0 then some (s, false)
    else if WRITE_BUFFER_HIGH_WATER ≤ s.writeBuffer then some (s, true)
    else do
      let (s, progressed) ← drainPass slice s.streams.keys s false
      if progressed then drainSendBodies slice fuel s else some (s, false)

end Session

end OhosBun.Http2
