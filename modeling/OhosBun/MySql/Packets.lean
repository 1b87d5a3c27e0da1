/-
# `OhosBun.MySql.Packets` — packets from the wire

`read_and_process_data` of `MySQLConnection.rs`: a chunk is read where it is while the read buffer
is empty, and from the buffer, behind what is left there, otherwise.  `process_packets` takes one
packet after the other until there is not all of one (`ShortRead`); what is left of the chunk then
stays in the buffer.  A packet that is as long as a packet can be is the first of several, which
are one payload (`process_split_packet`).

The handlers are parameters: a handler sees what is left to be read, which starts with the payload,
and may leave the reader anywhere.  An index out of range is `panic`.
-/
import OhosBun.MySql.PacketHeader
import OhosBun.Sql.OffsetByteList
import OhosBun.Sql.StackReader

namespace OhosBun.MySql

open OhosBun.Lib PacketHeader

/-! ## Readers -/

/-- Bytes, a place in them, and where the message started that is read. -/
class ReaderContext (C : Type) where
  markMessageStart : C → C
  setOffsetFromStart : C → Nat → C
  peek : C → Option Bytes
  skip : C → Int → C
  ensureCapacity : C → Nat → Option Bool

instance : ReaderContext Sql.StackReader where
  markMessageStart r := r.markMessageStart
  setOffsetFromStart r offset := r.setOffsetFromStart offset
  peek r := r.peek
  skip r count := r.skip count
  ensureCapacity r length := some (r.ensureCapacity length)

/-- `Reader`: the read buffer of the connection. -/
structure BufferReader where
  readBuffer : Sql.OffsetByteList
  lastMessageStart : Nat
deriving DecidableEq

instance : ReaderContext BufferReader where
  markMessageStart r := { r with lastMessageStart := r.readBuffer.head }
  setOffsetFromStart r offset :=
    { r with readBuffer.head := Sql.toU32 (r.lastMessageStart + Sql.toU32 offset) }
  peek r := r.readBuffer.remaining
  skip r count :=
    if count < 0 then
      if r.readBuffer.head < count.natAbs then { r with readBuffer.head := 0 }
      else { r with readBuffer.head := r.readBuffer.head - count.natAbs }
    else if r.readBuffer.byteList.length < r.readBuffer.head + count.natAbs then
      { r with readBuffer.head := Sql.toU32 r.readBuffer.byteList.length }
    else { r with readBuffer.head := Sql.toU32 (r.readBuffer.head + count.natAbs) }
  ensureCapacity r count := r.readBuffer.remaining.map fun rest => decide (count ≤ rest.length)

/-! ## The connection -/

inductive ConnectionState
  | disconnected
  | connecting
  | handshaking
  | authenticating
  | authenticationAwaitingPk
  | sessionSetup
  | connected
  | failed
deriving DecidableEq

inductive TLSStatus
  | none
  | pending
  | messageSent
  | sslNotAvailable
  | sslFailed
  | sslOk
deriving DecidableEq

/-- What the handlers work on: the rest of the connection is a `σ`. -/
structure Core (σ : Type) where
  status : ConnectionState
  tlsStatus : TLSStatus
  sequenceId : UInt8
  client : σ

/-- How a handler returned, and how far it moved the reader. -/
abbrev Handled (σ : Type) := Except AnyMySQLError Unit × Core σ × Int

structure Handlers (σ : Type) where
  handleHandshake : Core σ → (peek : Bytes) → Handled σ
  handleAuth : Core σ → (peek : Bytes) → (headerLength : Nat) → Handled σ
  handleSessionSetup : Core σ → (peek : Bytes) → (headerLength : Nat) → Handled σ
  handleCommand : Core σ → (peek : Bytes) → (headerLength : Nat) → Handled σ

/-- `commands` has the payloads that `handle_command` was called with. -/
structure Session (σ : Type) where
  core : Core σ
  commands : List Bytes := []

section Process
variable {σ C : Type} [ReaderContext C] (handlers : Handlers σ)

/-- A call that returned, with the reader and the session. -/
abbrev Returned (C σ : Type) := Except AnyMySQLError Unit × C × Session σ

def handleCommand (reader : C) (headerLength : Nat) (s : Session σ) : Option (Returned C σ) := do
  let peek ← ReaderContext.peek reader
  let (result, core, moved) := handlers.handleCommand s.core peek headerLength
  some (result, ReaderContext.skip reader moved,
    { core, commands := s.commands ++ [peek.take headerLength] })

/-- The match on the status, for a packet whose payload the reader is at. -/
def handlePacket (header : PacketHeader) (packetLength : Nat) (reader : C) (s : Session σ) :
    Option (Returned C σ) := do
  let s := { s with core.sequenceId := header.sequenceId + 1 }
  let peek ← ReaderContext.peek reader
  match s.core.status with
  | .handshaking =>
    let (result, core, moved) := handlers.handleHandshake s.core peek
    let reader := ReaderContext.skip reader moved
    if result = .ok () ∧ core.tlsStatus = .messageSent then
      let reader := ReaderContext.setOffsetFromStart reader packetLength
      let behind ← ReaderContext.peek reader
      if behind ≠ [] then some (.error .unexpectedPacket, reader, { s with core })
      else some (.ok (), reader, { s with core })
    else some (result, reader, { s with core })
  | .authenticating | .authenticationAwaitingPk =>
    let (result, core, moved) := handlers.handleAuth s.core peek header.length
    some (result, ReaderContext.skip reader moved, { s with core })
  | .sessionSetup =>
    let (result, core, moved) := handlers.handleSessionSetup s.core peek header.length
    some (result, ReaderContext.skip reader moved, { s with core })
  | .connected => handleCommand handlers reader header.length s
  | _ => some (.error .unexpectedPacket, reader, s)

end Process

/-! ## Payloads in several packets -/

/-- The first loop of `process_split_packet`: the next sequence id, and how long the packets and
the payload are. -/
def splitLengths (buffered : Bytes) (sequenceId : UInt8) (wireLength payloadLength : Nat) :
    Option (Except AnyMySQLError (UInt8 × Nat × Nat)) :=
  if buffered.length < wireLength then none
  else
    match decode (buffered.drop wireLength) with
    | none => some (.error .shortRead)
    | some header =>
      if header.sequenceId ≠ sequenceId then some (.error .unexpectedPacket)
      else if 2 ^ 32 ≤ wireLength + (size + header.length) then some (.error .overflow)
      else if buffered.length < wireLength + (size + header.length) then some (.error .shortRead)
      else if header.length < maxPayloadLength then
        some (.ok (sequenceId + 1, wireLength + (size + header.length),
          payloadLength + header.length))
      else
        splitLengths buffered (sequenceId + 1) (wireLength + (size + header.length))
          (payloadLength + header.length)
termination_by buffered.length - wireLength
decreasing_by
  unfold size at *
  omega

/-- The second loop: the payload, from packets of a length that none is longer than. -/
def splitPayload (maxLength : Nat) (buffered : Bytes) (wireLength offset : Nat) (payload : Bytes) :
    Option Bytes :=
  if offset < wireLength then
    match slice buffered offset (min (offset + maxLength) wireLength - offset) with
    | none => none
    | some piece =>
      splitPayload maxLength buffered wireLength (min (offset + maxLength) wireLength + size)
        (payload ++ piece)
  else some payload
termination_by wireLength - offset
decreasing_by
  have hsize : 0 < size := by decide
  omega

section Process
variable {σ C : Type} [ReaderContext C] (handlers : Handlers σ)

def processSplitPacket (reader : C) (s : Session σ) : Option (Returned C σ) :=
  if s.core.status ≠ .connected then some (.error .unexpectedPacket, reader, s)
  else do
    let buffered ← ReaderContext.peek reader
    match decode buffered with
    | none => some (.error .shortRead, reader, s)
    | some header =>
      match ← splitLengths buffered header.sequenceId 0 0 with
      | .error err => some (.error err, reader, s)
      | .ok (sequenceId, wireLength, payloadLength) =>
        let payload ← splitPayload maxPayloadLength buffered wireLength size []
        let reader := ReaderContext.setOffsetFromStart reader wireLength
        let s := { s with core.sequenceId := sequenceId }
        if 2 ^ 32 ≤ payloadLength then some (.error .overflow, reader, s)
        else
          let (result, _, s) ←
            handleCommand handlers (Sql.StackReader.mk payload 0 0) payloadLength s
          match result with
          | .error .shortRead => some (.error .unexpectedPacket, reader, s)
          | result => some (result, reader, s)

/-- `process_packets` only ends with an error. -/
inductive Processed (C σ : Type)
  /-- not at its end after so many turns -/
  | unfinished
  | panic
  | failed (err : AnyMySQLError) (reader : C) (session : Session σ)

def processPackets : (turns : Nat) → C → Session σ → Processed C σ
  | 0, _, _ => .unfinished
  | turns + 1, reader, s =>
    let reader := ReaderContext.markMessageStart reader
    match ReaderContext.peek reader with
    | none => .panic
    | some peek =>
      match decode peek with
      | none => .failed .shortRead reader s
      | some header =>
        let packetLength := header.length + size
        match ReaderContext.ensureCapacity reader packetLength with
        | none => .panic
        | some false => .failed .shortRead reader s
        | some true =>
          if header.length = maxPayloadLength then
            match processSplitPacket handlers reader s with
            | none => .panic
            | some (.error err, reader, s) => .failed err reader s
            | some (.ok (), reader, s) => processPackets turns reader s
          else
            match handlePacket handlers header packetLength
              (ReaderContext.skip reader size) s with
            | none => .panic
            -- wherever the handler left the reader, the guard moves it
            | some (.error err, reader, s) =>
              .failed err (ReaderContext.setOffsetFromStart reader packetLength) s
            | some (.ok (), reader, s) =>
              processPackets turns (ReaderContext.setOffsetFromStart reader packetLength) s

end Process

/-! ## Chunks -/

structure Reading (σ : Type) where
  session : Session σ
  readBuffer : Sql.OffsetByteList := {}
  lastMessageStart : Nat := 0

/-- What became of a call. -/
inductive Called (σ : Type)
  | unfinished
  | panic
  | returned (result : Except AnyMySQLError Unit) (connection : Reading σ)

namespace Reading
variable {σ : Type} (handlers : Handlers σ)

/-- There are more turns than bytes. -/
def readAndProcessData (c : Reading σ) (data : Bytes) : Called σ :=
  let turns := c.readBuffer.byteList.length + data.length + 1
  match c.readBuffer.remaining with
  | none => .panic
  | some [] =>
    match processPackets handlers turns (Sql.StackReader.mk data 0 0) c.session with
    | .unfinished => .unfinished
    | .panic => .panic
    | .failed err reader session =>
      if err = .shortRead then
        if reader.messageStart ≤ data.length then
          .returned (.ok ()) { session, readBuffer := ⟨0, data.drop reader.messageStart⟩ }
        else .panic
      else .returned (.error err) { c with session }
  | some (_ :: _) =>
    let readBuffer := { c.readBuffer with head := c.lastMessageStart }.write data
    match processPackets handlers turns (BufferReader.mk readBuffer c.lastMessageStart) c.session with
    | .unfinished => .unfinished
    | .panic => .panic
    | .failed err reader session =>
      .returned (if err ≠ .shortRead then .error err else .ok ())
        ⟨session, reader.readBuffer, reader.lastMessageStart⟩

/-- The connection after a chunk, while there is no error. -/
def receive (c : Reading σ) (data : Bytes) : Option (Reading σ) :=
  match c.readAndProcessData handlers data with
  | .returned (.ok ()) c => some c
  | _ => none

end Reading

end OhosBun.MySql
