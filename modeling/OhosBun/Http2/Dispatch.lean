/-
# `OhosBun.Http2.Dispatch` — frames of the server

`dispatch_frame` and what it calls: a frame changes the session, and a connection error stops it
(`fatalError`).  Header blocks are decoded when they are complete, for streams that are not there
any more too: the table of the decoder is one for the connection.

The decoder is a parameter: it is given what is left of a block, and says how many bytes a field
took, where zero is a failure.
-/
import OhosBun.Http2.Session

namespace OhosBun.Http2

open OhosBun.Lib

/-! ## The decoder of header fields -/

/-- `lshpack_wrapper_decode`: the bytes that the field took, its name, its value. -/
structure Lshpack (H : Type) where
  decode : H → Bytes → Nat × Bytes × Bytes × H

namespace Lshpack
variable {H : Type} (hpack : Lshpack H)

/-- `HPACK::decode`. -/
def decodeField (h : H) (src : Bytes) : Option (Nat × Bytes × Bytes) × H :=
  let (offset, name, value, h) := hpack.decode h src
  if offset = 0 ∨ name = [] then (none, h) else (some (offset, name, value), h)

theorem decodeField_pos {h h' : H} {src : Bytes} {offset : Nat} {name value : Bytes}
    (heq : hpack.decodeField h src = (some (offset, name, value), h')) : 0 < offset := by
  rcases hd : hpack.decode h src with ⟨offset', name', value', h₁⟩
  rw [decodeField, hd] at heq
  dsimp only at heq
  split_ifs at heq with hfail
  · exact absurd (Prod.mk.inj heq).1 (by simp)
  · obtain ⟨rfl, -⟩ := Prod.mk.inj (Option.some.inj (Prod.mk.inj heq).1)
    exact Nat.pos_of_ne_zero fun h => hfail (.inl h)

end Lshpack

/-- The local variables of `decode_header_block`, with the bytes that were decoded. -/
structure Decoding where
  status : Nat := 0
  fields : List (Bytes × Bytes) := []
  seenRegular : Bool := false
  seenStatus : Bool := false
  malformed : Bool := false
  decodedBytes : Bytes

/-- A field of a block, on a stream that has this status; `none` when the list gets too large. -/
def Decoding.field (statusCode : Nat) (d : Decoding) (name value : Bytes) : Option Decoding :=
  if name.head? = some 58 then
    if statusCode ≠ 0 ∨ d.seenRegular ∨ d.seenStatus ∨ name ≠ ascii ":status" then
      some { d with malformed := true }
    else
      let status := parseStatus value
      some { d with
        seenStatus := true
        status
        malformed := d.malformed || status < 100 || 999 < status }
  else
    let d := { d with seenRegular := true }
    if statusCode ≠ 0 ∨ d.malformed then some d
    else if isMalformedResponseField name || isMalformedResponseValue value then
      some { d with malformed := true }
    else if LOCAL_MAX_HEADER_LIST_SIZE < d.decodedBytes.length + name.length + value.length then none
    else
      some { d with
        decodedBytes := d.decodedBytes ++ name ++ value
        fields := d.fields ++ [(name, value)] }

section Decode
variable {H : Type} (hpack : Lshpack H)

/-- The fields of a block, one after the other, or the error that ends the connection. -/
def decodeFields (statusCode : Nat) (block : Bytes) (h : H) (d : Decoding) :
    Except Error Decoding × H :=
  if block = [] then (.ok d, h)
  else
    match _heq : hpack.decodeField h block with
    | (none, h) => (.error .compressionError, h)
    | (some (offset, name, value), h) =>
      match d.field statusCode name value with
      | none => (.error .headerListTooLarge, h)
      | some d => decodeFields statusCode (block.drop offset) h d
termination_by block.length
decreasing_by
  have hpos := hpack.decodeField_pos _heq
  have hblock := List.length_pos_iff.mpr ‹block ≠ []›
  rw [List.length_drop]
  omega

/-- A block of a stream that is not there. -/
def discardFields (block : Bytes) (h : H) : Bool × H :=
  if block = [] then (true, h)
  else
    match _heq : hpack.decodeField h block with
    | (none, h) => (false, h)
    | (some (offset, _, _), h) => discardFields (block.drop offset) h
termination_by block.length
decreasing_by
  have hpos := hpack.decodeField_pos _heq
  have hblock := List.length_pos_iff.mpr ‹block ≠ []›
  rw [List.length_drop]
  omega

namespace Session
variable (s : Session H)

def decodeDiscardOrphan : Session H :=
  let (decoded, h) := discardFields hpack s.orphanHeaderBlock s.hpack
  let s := { s with hpack := h, orphanHeaderBlock := [] }
  if decoded then s else s.fail .compressionError

/-- `decode_header_block`, behind its loop. -/
def finishHeaderBlock (id : Nat) (stream : Stream) (d : Decoding) : Session H :=
  if d.malformed then
    (s.rstStream id ErrorCode.PROTOCOL_ERROR).modifyStream id fun stream =>
      { stream with fatalError := some .protocolError }
  else if stream.statusCode ≠ 0 then
    if stream.headersEndStream then s
    else s.modifyStream id fun stream => { stream with fatalError := some .protocolError }
  else if d.status = 0 then
    s.modifyStream id fun stream => { stream with fatalError := some .protocolError }
  else if 100 ≤ d.status ∧ d.status < 200 then
    let s := if d.status = 100 then
        s.modifyStream id fun stream => { stream with awaitingContinue := false }
      else s
    if stream.remoteClosed then
      s.modifyStream id fun stream => { stream with fatalError := some .protocolError }
    else s
  else
    let s := s.modifyStream id fun stream =>
      { stream with
        statusCode := d.status
        headersReady := true
        decodedBytes := d.decodedBytes
        decodedHeaders := stream.decodedHeaders ++ d.fields }
    -- the server answers without the body that it was to ask for
    if stream.awaitingContinue then
      (s.writeFrame FT_DATA END_STREAM id []).modifyStream id fun stream =>
        { stream.sentEndStream with awaitingContinue := false }
    else s

def decodeHeaderBlock (id : Nat) : Option (Session H) := do
  let stream ← s.streams.get? id
  let s := s.modifyStream id fun stream => { stream with headerBlock := [] }
  match decodeFields hpack stream.statusCode stream.headerBlock s.hpack
      { decodedBytes := stream.decodedBytes } with
  | (.error err, h) => some ({ s with hpack := h }.fail err)
  | (.ok d, h) => some ({ s with hpack := h }.finishHeaderBlock id stream d)

end Session

end Decode

/-! ## Frames -/

namespace Session
variable {H : Type}

/-- The windows of the streams, after the initial one changed; an early return is an `error`. -/
def shiftWindows (delta : Int) :
    (ids : List Nat) → Session H → Option (Except (Session H) (Session H))
  | [], s => some (.ok s)
  | id :: ids, s => do
    let stream ← s.streams.get? id
    let next := stream.sendWindow + delta
    if MAX_WINDOW_SIZE < next then some (.error (s.fail .flowControlError))
    else if next < -(2 ^ 31) then none
    else shiftWindows delta ids (s.modifyStream id fun stream => { stream with sendWindow := next })

def applySetting (s : Session H) (type value : Nat) :
    Option (Except (Session H) (Session H)) :=
  if type = ST_MAX_FRAME_SIZE then
    if value < DEFAULT_MAX_FRAME_SIZE ∨ MAX_FRAME_SIZE < value then
      some (.error (s.fail .protocolError))
    else some (.ok ({ s with remoteMaxFrameSize := value }.log (.maxFrame value)))
  else if type = ST_MAX_CONCURRENT_STREAMS then
    some (.ok { s with remoteMaxConcurrentStreams := value })
  else if type = ST_HEADER_TABLE_SIZE then
    some (.ok { s with
      pendingHpackEncCapacity := some (min (s.pendingHpackEncCapacity.getD value) value) })
  else if type = ST_INITIAL_WINDOW_SIZE then
    if MAX_WINDOW_SIZE < value then some (.error (s.fail .flowControlError))
    else
      let delta := (value : Int) - s.remoteInitialWindowSize
      shiftWindows delta s.streams.keys
        ({ s with remoteInitialWindowSize := value }.log (.initialWindow value))
  else some (.ok s)

def applySettings :
    (units : List (Nat × Nat)) → Session H → Option (Except (Session H) (Session H))
  | [], s => some (.ok s)
  | (type, value) :: units, s => do
    match ← s.applySetting type value with
    | .error s => some (.error s)
    | .ok s => applySettings units s

def dispatchSettings (s : Session H) (f : Frame) : Option (Session H) :=
  if f.streamId ≠ 0 then some (s.fail .protocolError)
  else if f.has ACK then some (if f.length ≠ 0 then s.fail .frameSizeError else s)
  else if f.length % 6 ≠ 0 then some (s.fail .frameSizeError)
  else do
    match ← applySettings (settingsUnits f.payload) s with
    | .error s => some s
    | .ok s =>
      if WRITE_BUFFER_CONTROL_LIMIT ≤ s.writeBuffer then some (s.fail .enhanceYourCalm)
      else some { s.writeFrame FT_SETTINGS ACK 0 [] with settingsReceived := true }

def dispatchWindowUpdate (s : Session H) (f : Frame) : Option (Session H) :=
  if f.length ≠ 4 then some (s.fail .frameSizeError)
  else
    let inc := uint31 (ofBe (f.payload.take 4))
    if f.streamId = 0 then
      if inc = 0 then some (s.fail .protocolError)
      else
        let next := s.connSendWindow + inc
        if MAX_WINDOW_SIZE < next then some (s.fail .flowControlError)
        else if next < -(2 ^ 31) then none
        else some ({ s with connSendWindow := next, streamProgressed := true }.log (.credited 0 inc))
    else
      match s.streams.get? (uint31 f.streamId) with
      | some stream =>
        let id := uint31 f.streamId
        if inc = 0 then
          some ((s.rstStream id ErrorCode.PROTOCOL_ERROR).modifyStream id fun stream =>
            { stream with fatalError := some .protocolError })
        else
          let next := stream.sendWindow + inc
          if MAX_WINDOW_SIZE < next then
            some ((s.rstStream id ErrorCode.FLOW_CONTROL_ERROR).modifyStream id fun stream =>
              { stream with fatalError := some .flowControlError })
          else if next < -(2 ^ 31) then none
          else
            let s := s.modifyStream id fun stream => { stream with sendWindow := next }
            some ({ s with streamProgressed := true }.log (.credited id inc))
      | none =>
        if f.streamId % 2 = 0 ∨ s.nextStreamId ≤ f.streamId then some (s.fail .protocolError)
        else some s

def dispatchPing (s : Session H) (f : Frame) : Session H :=
  if f.length ≠ 8 then s.fail .frameSizeError
  else if f.streamId ≠ 0 then s.fail .protocolError
  else if f.has ACK then s
  else if WRITE_BUFFER_CONTROL_LIMIT ≤ s.writeBuffer then s.fail .enhanceYourCalm
  else s.writeFrame FT_PING ACK 0 (f.payload.take 8)

def dispatchPriority (s : Session H) (f : Frame) : Session H :=
  if f.streamId = 0 then s.fail .protocolError
  else if f.length ≠ PRIORITY_SIZE then s.fail .frameSizeError
  else s

/-- A stream that never was there. -/
def isIdle (s : Session H) (id : Nat) : Bool :=
  decide (id = 0) || decide (id % 2 = 0) || decide (s.nextStreamId ≤ id)

/-- The part of a block that is in a frame of headers. -/
def headersFragment (f : Frame) : Except Error Bytes :=
  match if f.has PADDED then stripPadding f.payload else some f.payload with
  | none => .error .protocolError
  | some fragment =>
    if f.has PRIORITY ∧ fragment.length < PRIORITY_SIZE then .error .protocolError
    else
      let fragment := if f.has PRIORITY then fragment.drop PRIORITY_SIZE else fragment
      if LOCAL_MAX_HEADER_LIST_SIZE < fragment.length then .error .headerListTooLarge
      else .ok fragment

section Headers
variable (hpack : Lshpack H)

/-- A block of a stream is complete. -/
def endHeaders (s : Session H) (id : Nat) : Option (Session H) := do
  let stream ← s.streams.get? id
  let s := if stream.headersEndStream then s.modifyStream id Stream.recvEndStream else s
  s.decodeHeaderBlock hpack id

def dispatchHeaders (s : Session H) (f : Frame) : Option (Session H) :=
  let s := { s with continuationCount := 0 }
  let id := f.streamId
  match s.streams.get? id with
  | none =>
    if s.isIdle id then some (s.fail .protocolError)
    else
      match headersFragment f with
      | .error err => some (s.fail err)
      | .ok fragment =>
        let s := { s with orphanHeaderBlock := fragment }
        if f.has END_HEADERS then some (s.decodeDiscardOrphan hpack)
        else some { s with expectingContinuation := id }
  | some _ =>
    let s := { s with streamProgressed := true }
    match headersFragment f with
    | .error err => some (s.fail err)
    | .ok fragment =>
      let s := s.modifyStream id fun stream =>
        { stream with headerBlock := fragment, headersEndStream := f.has END_STREAM }
      if f.has END_HEADERS then s.endHeaders hpack id
      else some { s with expectingContinuation := id }

def dispatchContinuation (s : Session H) (f : Frame) : Option (Session H) :=
  if s.expectingContinuation = 0 ∨ f.streamId ≠ s.expectingContinuation then
    some (s.fail .protocolError)
  else
    let s := { s with continuationCount := s.continuationCount + 1 }
    if LOCAL_MAX_CONTINUATIONS < s.continuationCount then some (s.fail .enhanceYourCalm)
    else
      let id := s.expectingContinuation
      match s.streams.get? id with
      | some stream =>
        if LOCAL_MAX_HEADER_LIST_SIZE < stream.headerBlock.length + f.length then
          some (s.fail .headerListTooLarge)
        else
          let s := s.modifyStream id fun stream =>
            { stream with headerBlock := stream.headerBlock ++ f.payload }
          if f.has END_HEADERS then { s with expectingContinuation := 0 }.endHeaders hpack id
          else some s
      | none =>
        if LOCAL_MAX_HEADER_LIST_SIZE < s.orphanHeaderBlock.length + f.length then
          some (s.fail .headerListTooLarge)
        else
          let s := { s with orphanHeaderBlock := s.orphanHeaderBlock ++ f.payload }
          if f.has END_HEADERS then
            some ({ s with expectingContinuation := 0 }.decodeDiscardOrphan hpack)
          else some s

end Headers

/-- `saturating_add` of a `u32`. -/
def saturatingAdd (a b : Nat) : Nat := min (a + b) (2 ^ 32 - 1)

def dispatchData (s : Session H) (f : Frame) : Session H :=
  let s := { s with connUnackedBytes := saturatingAdd s.connUnackedBytes f.length }
  let id := f.streamId
  match s.streams.get? id with
  | none => if s.isIdle id then s.fail .protocolError else s
  | some stream =>
    let s := { s with streamProgressed := true }
    if stream.statusCode = 0 then
      (s.rstStream id ErrorCode.PROTOCOL_ERROR).modifyStream id fun stream =>
        { stream with fatalError := some .protocolError }
    else if stream.remoteClosed then
      s.modifyStream id fun stream =>
        { stream with fatalError := some (stream.fatalError.getD .protocolError) }
    else
      let s := s.modifyStream id fun stream =>
        { stream with unackedBytes := saturatingAdd stream.unackedBytes f.length }
      match if f.has PADDED then stripPadding f.payload else some f.payload with
      | none => s.fail .protocolError
      | some fragment =>
        let s := if f.has END_STREAM then s.modifyStream id Stream.recvEndStream else s
        s.modifyStream id fun stream =>
          { stream with
            dataBytesReceived := stream.dataBytesReceived + fragment.length
            bodyBuffer := stream.bodyBuffer ++ fragment }

def dispatchRstStream (s : Session H) (f : Frame) : Session H :=
  if f.length ≠ 4 then s.fail .frameSizeError
  else if s.isIdle f.streamId then s.fail .protocolError
  else
    match s.streams.get? f.streamId with
    | none => s
    | some stream =>
      if stream.rstDone then s
      else
        let hadResponse := stream.remoteClosed
        let code := ofBe (f.payload.take 4)
        s.modifyStream f.streamId fun stream =>
          { stream with
            rstDone := true
            state := .closed
            fatalError :=
              if code = ErrorCode.NO_ERROR then
                if hadResponse then none else some .streamReset
              else if code = ErrorCode.REFUSED_STREAM then some .refusedStream
              else some .streamReset }

def dispatchGoaway (s : Session H) (f : Frame) : Session H :=
  if f.streamId ≠ 0 then s.fail .protocolError
  else if f.length < 8 then s.fail .frameSizeError
  else
    let lastId := uint31 (ofBe (f.payload.take 4))
    let graceful := decide (ofBe ((f.payload.drop 4).take 4) = ErrorCode.NO_ERROR)
    { s with
      goawayReceived := true
      goawayLastStreamId := lastId
      streams := s.streams.mapValues fun id stream =>
        if lastId < id then
          { stream with fatalError := some (if graceful then .refusedStream else .goAway) }
        else if !graceful && !stream.remoteClosed then { stream with fatalError := some .goAway }
        else stream }

/-- A frame that may be there, and may be read now. -/
def dispatchType (hpack : Lshpack H) (s : Session H) (f : Frame) : Option (Session H) :=
  if f.type = FT_SETTINGS then s.dispatchSettings f
  else if f.type = FT_WINDOW_UPDATE then s.dispatchWindowUpdate f
  else if f.type = FT_PING then some (s.dispatchPing f)
  else if f.type = FT_PRIORITY then some (s.dispatchPriority f)
  else if f.type = FT_HEADERS then s.dispatchHeaders hpack f
  else if f.type = FT_CONTINUATION then s.dispatchContinuation hpack f
  else if f.type = FT_DATA then some (s.dispatchData f)
  else if f.type = FT_RST_STREAM then some (s.dispatchRstStream f)
  else if f.type = FT_GOAWAY then some (s.dispatchGoaway f)
  else if f.type = FT_PUSH_PROMISE then some (s.fail .protocolError)
  else some s

def dispatchFrame (hpack : Lshpack H) (s : Session H) (f : Frame) : Option (Session H) :=
  let s := s.log (.received f)
  if s.expectingContinuation ≠ 0 ∧ f.type ≠ FT_CONTINUATION then some (s.fail .protocolError)
  else if !s.settingsReceived ∧ f.type ≠ FT_SETTINGS then some (s.fail .protocolError)
  else s.dispatchType hpack f

/-! ## Bytes -/

/-- The frames of some bytes, as long as there is no connection error, and how many bytes they
were. -/
def parseFrames (hpack : Lshpack H) (buf : Bytes) (consumed : Nat) (s : Session H) :
    Option (Session H × Nat) :=
  match FrameHeader.decode buf with
  | none => some (s, consumed)
  | some header =>
    if DEFAULT_MAX_FRAME_SIZE < header.length then some (s.fail .frameSizeError, consumed)
    else if buf.length < FrameHeader.BYTE_SIZE + header.length then some (s, consumed)
    else do
      let payload := (buf.drop FrameHeader.BYTE_SIZE).take header.length
      let s ← s.dispatchFrame hpack
        ⟨header.type, header.flags, uint31 header.streamIdentifier, payload⟩
      let consumed := consumed + (FrameHeader.BYTE_SIZE + header.length)
      if s.fatalError.isSome then some (s, consumed)
      else parseFrames hpack (buf.drop (FrameHeader.BYTE_SIZE + header.length)) consumed s
termination_by buf.length
decreasing_by
  rw [List.length_drop]
  unfold FrameHeader.BYTE_SIZE at *
  omega

end Session

end OhosBun.Http2
