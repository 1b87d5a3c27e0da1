/-
# `OhosBun.Http2.Client` — requests on a connection

What the client does with a connection, besides reading it: a request is attached, more of its body
comes, the response is delivered, a request is aborted, and windows are replenished.  The entry
points of `ClientSession` are sequences of these (`Op`).

What the HTTP client behind a stream answers is given with the operation: whether the request was
aborted, how its headers were taken, and so on.
-/
import OhosBun.Http2.Dispatch
import OhosBun.Lib.Refinement

namespace OhosBun.Http2

open OhosBun.Lib

/-- What became of the headers of a request. -/
inductive Encoding
  /-- the body could not be compressed -/
  | compressFailed
  | encodeFailed
  | encoded (block : Bytes)
deriving DecidableEq

structure Request where
  encoding : Encoding
  body : RequestBody
  /-- whether the body waits for the server to ask for it -/
  expectContinue : Bool := false
deriving DecidableEq

/-- What `deliver_stream` is answered by the client of a stream. -/
structure Delivery where
  aborted : Bool := false
  /-- `apply_multiplexed_headers`: a failure, or whether there is no body -/
  headers : Option Bool := some false
  redirectPending : Bool := false
  doneAfterHeaders : Bool := false
  inBody : Bool := true
  /-- `h2_handle_response_body`: a failure, or whether to report -/
  handled : Option Bool := some true
  doneAfterBody : Bool := false
deriving DecidableEq

def USIZE_MAX : Nat := 2 ^ 64 - 1

namespace Session
variable {H : Type} (s : Session H)

def removeStream (id : Nat) : Session H :=
  match s.streams.get? id with
  | none => s
  | some stream =>
    { s with
      orphanHeaderBlock :=
        if s.expectingContinuation = id then stream.headerBlock else s.orphanHeaderBlock
      streams := s.streams.swapRemove id }

/-! ## Attaching -/

/-- `write_request`, with the header block. -/
def writeRequest (id : Nat) (body : RequestBody) (expectContinue : Bool) (block : Bytes) :
    Option (Session H) := do
  let s := { s with pendingHpackEncCapacity := none }
  match body with
  | .bytes [] =>
    let s ← s.writeHeaderBlock id block true
    some (s.modifyStream id Stream.sentEndStream)
  | .bytes body =>
    let s := s.modifyStream id fun stream => { stream with awaitingContinue := expectContinue }
    let s ← s.writeHeaderBlock id block false
    let s := s.modifyStream id fun stream => { stream with pendingBody := body }
    s.drainSendBody id USIZE_MAX
  | .stream _ _ =>
    let s := s.modifyStream id fun stream => { stream with awaitingContinue := expectContinue }
    s.writeHeaderBlock id block false

/-- What there is of the body of a request that is attached. -/
def logBody (id : Nat) : RequestBody → Session H
  | .bytes body => (s.log (.provided id body)).log (.ended id true)
  | .stream ended buffer => (s.log (.provided id (buffer.getD []))).log (.ended id ended)

def attach (request : Request) : Option (Session H) :=
  let id := s.nextStreamId
  let stream : Stream :=
    { body := request.body, sendWindow := (min s.remoteInitialWindowSize MAX_WINDOW_SIZE : Nat) }
  let s := { s with
    nextStreamId := min (id + 2) (2 ^ 32 - 1)
    streams := s.streams.put id stream }
  let s := if s.prefaceSent then s else s.writePreface
  let s := s.logBody id request.body
  match request.encoding with
  | .compressFailed => some (s.removeStream id)
  | .encodeFailed =>
    some ({ s with pendingHpackEncCapacity := none, encoderPoisoned := true }.removeStream id)
  | .encoded block => s.writeRequest id request.body request.expectContinue block

/-! ## Bodies of requests -/

/-- The other thread puts more of a body into the buffer. -/
def provide (id : Nat) (bytes : Bytes) : Session H :=
  match (s.streams.get? id).map Stream.body with
  | some (.stream ended (some buffer)) =>
    (s.modifyStream id fun stream =>
      { stream with body := .stream ended (some (buffer ++ bytes)) }).log (.provided id bytes)
  | _ => s

def streamRequestBody (id : Nat) (ended : Bool) : Option (Session H) :=
  match s.streams.get? id with
  | none => some s
  | some stream =>
    if !stream.client then some s
    else
      match stream.body with
      | .bytes _ => some s
      | .stream _ buffer =>
        let s := (s.modifyStream id fun stream =>
          { stream with body := .stream ended buffer }).log (.ended id ended)
        s.drainSendBody id USIZE_MAX

/-! ## Delivering -/

def detachClient (id : Nat) : Session H :=
  s.modifyStream id fun stream => { stream with client := false }

/-- `deliver_stream`, behind the headers: whether the stream is finished. -/
def deliverBody (id : Nat) (stream : Stream) (d : Delivery) : Session H × Bool :=
  if !d.inBody then (s, false)
  else if stream.bodyBuffer ≠ [] then
    let s := if stream.remoteClosed then s.detachClient id else s
    let s := s.modifyStream id fun stream => { stream with bodyBuffer := [] }
    match d.handled with
    | none => ((s.rstStream id ErrorCode.CANCEL).detachClient id, true)
    | some report =>
      if stream.remoteClosed then (s, true)
      else if report && d.doneAfterBody then (s.detachClient id, true)
      else (s, false)
  else if stream.remoteClosed then (s.detachClient id, true)
  else (s, false)

def deliverStream (id : Nat) (d : Delivery) : Option (Session H × Bool) := do
  let stream ← s.streams.get? id
  if !stream.client then some (s, true)
  else if d.aborted then some ((s.rstStream id ErrorCode.CANCEL).detachClient id, true)
  else if stream.fatalError.isSome then some (s.detachClient id, true)
  else if stream.headersReady then
    let s := s.modifyStream id fun stream => { stream with headersReady := false }
    match d.headers with
    | none => some ((s.rstStream id ErrorCode.CANCEL).detachClient id, true)
    | some finished =>
      if d.redirectPending then some ((s.rstStream id ErrorCode.CANCEL).detachClient id, true)
      else if finished || (stream.remoteClosed && stream.bodyBuffer.isEmpty) || d.doneAfterHeaders then
        some (s.detachClient id, true)
      else some (s.deliverBody id stream d)
  else some (s.deliverBody id stream d)

/-- A turn of the loop that delivers: a stream that is finished is cancelled where it is open. -/
def deliver (id : Nat) (d : Delivery) : Option (Session H) := do
  let (s, finished) ← s.deliverStream id d
  if finished then some ((s.rstStream id ErrorCode.CANCEL).removeStream id) else some s

/-- `detach_with_failure`. -/
def abort (id : Nat) : Session H := (s.rstStream id ErrorCode.CANCEL).removeStream id

/-! ## Windows of the server -/

def REPLENISH_THRESHOLD : Nat := LOCAL_INITIAL_WINDOW_SIZE / 2

/-- Whether the window of a stream is replenished. -/
def replenished (paused : List Nat) (id : Nat) (stream : Stream) : Bool :=
  decide (REPLENISH_THRESHOLD ≤ stream.unackedBytes) && !stream.remoteClosed &&
    !(stream.client && paused.contains id)

/-- The clients that are paused may change at any time. -/
def replenishWindow (paused : List Nat) : Session H :=
  let s := if REPLENISH_THRESHOLD ≤ s.connUnackedBytes then
      { s.writeWindowUpdate 0 s.connUnackedBytes with connUnackedBytes := 0 }
    else s
  let updates := s.streams.entries.filter fun (id, stream) => replenished paused id stream
  let streams := s.streams.mapValues fun id stream =>
    if replenished paused id stream then { stream with unackedBytes := 0 } else stream
  let s := { s with streams }
  updates.foldl (fun s (id, stream) => s.writeWindowUpdate id stream.unackedBytes) s

/-! ## The end -/

def failAll (err : Error) (alive : Bool) : Session H :=
  let s := { s with fatalError := some (s.fatalError.getD err) }
  let s := if alive then s.writeFrame FT_GOAWAY 0 0 (beBytes 4 0 ++ beBytes 4 (errorCodeFor err)) else s
  { s with streams := {} }

end Session

/-! ## Operations -/

inductive Op
  /-- a frame of the server -/
  | dispatch (frame : Frame)
  | attach (request : Request)
  | provide (id : Nat) (bytes : Bytes)
  | streamRequestBody (id : Nat) (ended : Bool)
  | drainSendBody (id cap : Nat)
  | drainSendBodies
  | flush (wrote : Nat)
  | deliver (id : Nat) (answers : Delivery)
  | abort (id : Nat)
  | replenishWindow (paused : List Nat)
  | failAll (err : Error) (alive : Bool)
deriving DecidableEq

namespace Session
variable {H : Type} (hpack : Lshpack H)

/-- More passes than there can be that get further. -/
def drainFuel (s : Session H) : Nat := s.connSendWindow.toNat + s.streams.count + 1

def step (s : Session H) : Op → Option (Session H)
  | .dispatch frame => s.dispatchFrame hpack frame
  | .attach request => s.attach request
  | .provide id bytes => some (s.provide id bytes)
  | .streamRequestBody id ended => s.streamRequestBody id ended
  | .drainSendBody id cap => if id ∈ s.streams.keys then s.drainSendBody id cap else some s
  | .drainSendBodies =>
    (drainSendBodies s.remoteMaxFrameSize s.drainFuel s).map fun (s, _) => s
  | .flush wrote => some (s.flush wrote)
  | .deliver id answers => if id ∈ s.streams.keys then s.deliver id answers else some s
  | .abort id => some (s.abort id)
  | .replenishWindow paused => some (s.replenishWindow paused)
  | .failAll err alive => some (s.failAll err alive)

/-- A connection that has not failed, with room for a stream where there is to be one; one that
has failed can be torn down. -/
def Allowed (s : Session H) (op : Op) : Prop :=
  match op with
  | .attach _ => s.hasHeadroom
  | .failAll _ _ => True
  | _ => s.fatalError = none

instance (s : Session H) (op : Op) : Decidable (s.Allowed op) :=
  match op with
  | .attach _ => inferInstanceAs (Decidable (s.hasHeadroom = true))
  | .failAll _ _ => .isTrue trivial
  | .dispatch _ | .provide _ _ | .streamRequestBody _ _ | .drainSendBody _ _ | .drainSendBodies | .flush _
  | .deliver _ _ | .abort _ | .replenishWindow _ => inferInstanceAs (Decidable (s.fatalError = none))

/-- A step; there is nothing that it answers. -/
def transition (s : Session H) (op : Op) : Option (Session H × Unit) :=
  (s.step hpack op).map fun s => (s, ())

/-- The connection after some operations. -/
def run (s : Session H) (ops : List Op) : Option (Session H) :=
  (Lib.run (transition hpack) s ops).map Prod.fst

/-- Each operation, when it comes, is allowed, and is as it should be. -/
def Along (guard : Session H → Op → Prop) : Session H → List Op → Prop :=
  Guarded (transition hpack) fun s op => s.Allowed op ∧ guard s op

instance Along.decidable {guard : Session H → Op → Prop} [∀ s op, Decidable (guard s op)]
    (s : Session H) (ops : List Op) : Decidable (Along hpack guard s ops) :=
  inferInstanceAs (Decidable (Guarded _ _ s ops))

end Session

end OhosBun.Http2
