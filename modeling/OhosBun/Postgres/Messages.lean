/-
# `OhosBun.Postgres.Messages` — messages from the wire

`on_data` of the PostgreSQL connection: a chunk is read where it is while there is nothing behind
the last message start, and from the read buffer, behind what is left there, otherwise.  A message
is a type, a length that counts itself, and a body; the dispatch loop calls the handler of the type
and checks that it took exactly the body.  When there is not all of a message (`ShortRead`), what
is left of the chunk stays in the buffer.

The handlers are parameters: a handler sees what is left to be read, which starts with the length,
and moves the reader forward.  An index out of range is `panic`.
-/
import OhosBun.Sql.OffsetByteList
import OhosBun.Sql.StackReader

namespace OhosBun.Postgres

open OhosBun.Lib

/-- What reading messages fails with, as far as it matters here. -/
inductive AnyPostgresError
  | invalidMessage
  | invalidMessageLength
  | shortRead
  | tlsNotAvailable
  | unexpectedMessage
  /-- any other failure, of a handler -/
  | other
deriving DecidableEq

/-! ## Readers -/

class ReaderContext (C : Type) where
  markMessageStart : C → C
  peek : C → Option Bytes
  skip : C → Nat → C
  ensureLength : C → Nat → Bool
  read : C → Nat → Option (Except AnyPostgresError Bytes × C)

instance : ReaderContext Sql.StackReader where
  markMessageStart r := r.markMessageStart
  peek r := r.peek
  skip r count := r.skip (min count (2 ^ 63 - 1) : Nat)
  ensureLength r count := r.ensureCapacity count
  read r count :=
    match r.read count with
    | (some data, r) => some (.ok data, r)
    | (none, r) => some (.error .shortRead, r)

/-- `Reader`: the read buffer of the connection. -/
structure BufferReader where
  readBuffer : Sql.OffsetByteList
  lastMessageStart : Nat
deriving DecidableEq

namespace BufferReader
variable (r : BufferReader)

def skip (count : Nat) : BufferReader :=
  let head := Sql.toU32 (r.readBuffer.head + Sql.toU32 count)
  { r with readBuffer.head := min head (Sql.toU32 r.readBuffer.byteList.length) }

def read (count : Nat) : Option (Except AnyPostgresError Bytes × BufferReader) :=
  r.readBuffer.remaining.map fun rest =>
    if rest.length < count then (.error .shortRead, r) else (.ok (rest.take count), r.skip count)

end BufferReader

instance : ReaderContext BufferReader where
  markMessageStart r := { r with lastMessageStart := r.readBuffer.head }
  peek r := r.readBuffer.remaining
  skip r count := r.skip count
  ensureLength r count := decide (r.readBuffer.head + count ≤ r.readBuffer.byteList.length)
  read r count := r.read count

section NewReader
variable {C : Type} [ReaderContext C]

/-- What a read returned, and the reader behind it. -/
abbrev ReadResult (C α : Type) := Option (Except AnyPostgresError α × C)

/-- `int`, for an integer of so many bytes. -/
def int (size : Nat) (reader : C) : ReadResult C Nat :=
  (ReaderContext.read reader size).map fun (data, reader) => (data.map ofBe, reader)

/-- A length is signed, and counts its own four bytes. -/
def validateLength (raw : Nat) : Except AnyPostgresError Nat :=
  if raw < 4 ∨ 2 ^ 31 - 1 < raw then .error .invalidMessageLength else .ok raw

def length (reader : C) : ReadResult C Nat :=
  (int 4 reader).map fun
    | (.error err, reader) => (.error err, reader)
    | (.ok raw, reader) =>
      match validateLength raw with
      | .error err => (.error err, reader)
      | .ok expected =>
        if ReaderContext.ensureLength reader (expected - 4) then (.ok expected, reader)
        else (.error .shortRead, reader)

def bodyLength (reader : C) : ReadResult C Nat :=
  (length reader).map fun (result, reader) => (result.map (· - 4), reader)

def skipMessage (reader : C) : ReadResult C Unit :=
  (bodyLength reader).map fun
    | (.error err, reader) => (.error err, reader)
    | (.ok body, reader) => (.ok (), ReaderContext.skip reader body)

/-- What is left to be read, and the length of the message that is next. -/
def peekLength (reader : C) : Option (Except AnyPostgresError (Nat × Nat)) := do
  let view ← ReaderContext.peek reader
  if view.length < 4 then some (.error .shortRead)
  else
    match validateLength (ofBe (view.take 4)) with
    | .error err => some (.error err)
    | .ok length =>
      if view.length < length then some (.error .shortRead) else some (.ok (view.length, length))

end NewReader

/-! ## The connection -/

inductive Status
  | disconnected
  | connecting
  | sentStartupMessage
  | connected
  | failed
deriving DecidableEq

inductive TLSStatus
  | none
  | pending
  /-- so many bytes of the request were sent -/
  | messageSent (n : UInt8)
  | sslNotAvailable
  | sslOk
deriving DecidableEq

inductive SSLMode
  | disable
  | prefer
  | require
  | verifyCa
  | verifyFull
deriving DecidableEq

inductive MessageType
  | dataRow
  | copyData
  | parameterStatus
  | readyForQuery
  | commandComplete
  | bindComplete
  | parseComplete
  | parameterDescription
  | rowDescription
  | authentication
  | noData
  | backendKeyData
  | errorResponse
  | portalSuspended
  | closeComplete
  | copyInResponse
  | noticeResponse
  | emptyQueryResponse
  | copyOutResponse
  | copyDone
  | copyBothResponse
  | notificationResponse
deriving DecidableEq

/-- The message that starts with a byte; others are skipped. -/
def messageType (c : Nat) : Option MessageType :=
  match Char.ofNat c with
  | 'D' => some .dataRow
  | 'd' => some .copyData
  | 'S' => some .parameterStatus
  | 'Z' => some .readyForQuery
  | 'C' => some .commandComplete
  | '2' => some .bindComplete
  | '1' => some .parseComplete
  | 't' => some .parameterDescription
  | 'T' => some .rowDescription
  | 'R' => some .authentication
  | 'n' => some .noData
  | 'K' => some .backendKeyData
  | 'E' => some .errorResponse
  | 's' => some .portalSuspended
  | '3' => some .closeComplete
  | 'G' => some .copyInResponse
  | 'N' => some .noticeResponse
  | 'I' => some .emptyQueryResponse
  | 'H' => some .copyOutResponse
  | 'c' => some .copyDone
  | 'W' => some .copyBothResponse
  | 'A' => some .notificationResponse
  | _ => none

/-- What the handlers work on: the rest of the connection is a `σ`. -/
structure Core (σ : Type) where
  status : Status
  tlsStatus : TLSStatus
  sslMode : SSLMode
  client : σ

structure Handlers (σ : Type) where
  /-- How the handler returned, and how far it moved the reader. -/
  on : Core σ → MessageType → (peek : Bytes) → Except AnyPostgresError Unit × Core σ × Nat
  setupTls : Core σ → Core σ
  fail : Core σ → AnyPostgresError → Core σ

/-- `messages` has the messages that `on` was called with. -/
structure Session (σ : Type) where
  core : Core σ
  messages : List (MessageType × Bytes) := []

/-! ## The dispatch loop -/

section Dispatch
variable {σ C : Type} [ReaderContext C] (handlers : Handlers σ)

/-- A call that returned, with the reader and the session. -/
abbrev Returned (C σ : Type) := Except AnyPostgresError Unit × C × Session σ

/-- `connection.on`, for a message of this length. -/
def on (type : MessageType) (length : Nat) (reader : C) (s : Session σ) : Option (Returned C σ) := do
  let peek ← ReaderContext.peek reader
  let (result, core, moved) := handlers.on s.core type peek
  some (result, ReaderContext.skip reader moved,
    { core, messages := s.messages ++ [(type, (peek.take length).drop 4)] })

/-- A message whose length the reader is at. -/
def dispatch (c length : Nat) (reader : C) (s : Session σ) : Option (Returned C σ) :=
  match messageType c with
  | some type => on handlers type length reader s
  | none => (skipMessage reader).map fun (result, reader) => (result, reader, s)

inductive Processed (C σ : Type)
  /-- not at its end after so many turns -/
  | unfinished
  | panic
  | returned (result : Except AnyPostgresError Unit) (reader : C) (session : Session σ)

/-- What a turn of the loop comes to. -/
inductive Turn (C σ : Type)
  | panic
  | continue (reader : C) (session : Session σ)
  | returned (result : Except AnyPostgresError Unit) (reader : C) (session : Session σ)

/-- The bare byte that answers the request for TLS. -/
def tlsReply (c : Nat) (reader : C) (s : Session σ) : Turn C σ :=
  match Char.ofNat c with
  | 'S' =>
    let s := { s with core.tlsStatus := .sslOk }
    .returned (.ok ()) reader { s with core := handlers.setupTls s.core }
  | 'N' =>
    let s := { s with core.tlsStatus := .sslNotAvailable }
    match s.core.sslMode with
    | .require | .verifyCa | .verifyFull =>
      .returned (.ok ()) reader { s with core := handlers.fail s.core .tlsNotAvailable }
    | _ => .continue reader s
  | _ => .returned (.error .unexpectedMessage) reader s

/-- A message, once its type was read. -/
def frame (c : Nat) (reader : C) (s : Session σ) : Turn C σ :=
  match peekLength reader with
  | none => .panic
  | some (.error err) => .returned (.error err) reader s
  | some (.ok (before, length)) =>
    let after := before - length
    match dispatch handlers c length reader s with
    | none => .panic
    | some (.error err, reader, s) => .returned (.error err) reader s
    | some (.ok (), reader, s) =>
      if s.core.status = .failed then .returned (.ok ()) reader s
      else
        match ReaderContext.peek reader with
        | none => .panic
        | some peek =>
          if peek.length ≠ after then .returned (.error .invalidMessage) reader s
          else .continue reader s

def turn (reader : C) (s : Session σ) : Turn C σ :=
  if s.core.status = .failed then .returned (.ok ()) reader s
  else
    match int 1 (ReaderContext.markMessageStart reader) with
    | none => .panic
    | some (.error err, reader) => .returned (.error err) reader s
    | some (.ok c, reader) =>
      match s.core.tlsStatus with
      | .messageSent _ => tlsReply handlers c reader s
      | _ => frame handlers c reader s

def onData : (turns : Nat) → C → Session σ → Processed C σ
  | 0, _, _ => .unfinished
  | turns + 1, reader, s =>
    match turn handlers reader s with
    | .panic => .panic
    | .returned result reader s => .returned result reader s
    | .continue reader s => onData turns reader s

end Dispatch

/-! ## Chunks -/

structure Connection (σ : Type) where
  session : Session σ
  readBuffer : Sql.OffsetByteList := {}
  lastMessageStart : Nat := 0

/-- What became of a call. -/
inductive Called (σ : Type)
  | unfinished
  | panic
  | returned (connection : Connection σ)

namespace Connection
variable {σ : Type} (handlers : Handlers σ)

/-- There are more turns than bytes. -/
def onData (c : Connection σ) (data : Bytes) : Called σ :=
  let turns := c.readBuffer.byteList.length + data.length + 1
  let readBuffer := { c.readBuffer with head := c.lastMessageStart }
  match readBuffer.remaining with
  | none => .panic
  | some [] =>
    match Postgres.onData handlers turns (Sql.StackReader.mk data 0 0) c.session with
    | .unfinished => .unfinished
    | .panic => .panic
    | .returned (.ok ()) _ session => .returned { c with session, readBuffer }
    | .returned (.error err) reader session =>
      if err = .shortRead then
        if reader.messageStart ≤ data.length then
          .returned { session, readBuffer := ⟨0, data.drop reader.messageStart⟩ }
        else .panic
      else
        .returned { c with
          session := { session with core := handlers.fail session.core err }
          readBuffer }
  | some (_ :: _) =>
    let reader := BufferReader.mk (readBuffer.write data) c.lastMessageStart
    match Postgres.onData handlers turns reader c.session with
    | .unfinished => .unfinished
    | .panic => .panic
    | .returned (.ok ()) reader session =>
      .returned ⟨session, { reader.readBuffer with head := 0 }, 0⟩
    | .returned (.error err) reader session =>
      if err ≠ .shortRead then
        .returned ⟨{ session with core := handlers.fail session.core err }, reader.readBuffer,
          reader.lastMessageStart⟩
      else .returned ⟨session, reader.readBuffer, reader.lastMessageStart⟩

def receive (c : Connection σ) (data : Bytes) : Option (Connection σ) :=
  match c.onData handlers data with
  | .returned c => some c
  | _ => none

end Connection

end OhosBun.Postgres
