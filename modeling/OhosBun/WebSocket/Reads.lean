/-
# `OhosBun.WebSocket.Reads` — a client is a receiver of its reads

`Client.view` is where in the stream a client stands, whatever it has kept and however its cursor
counts.  A turn of the loop takes the view over the bytes that it consumes (`Follows.step`), and
so does a read (`Follows.handleData`), except where it meets a close frame of whose payload it has
none or one byte (`Client.InCloseCode`): there the bytes counted are taken for those left.
-/
import OhosBun.WebSocket.Endings

namespace OhosBun.WebSocket

open OhosBun.Lib

theorem take_splice {buffer : Bytes} (bytes : Bytes) {off : Nat} (h : off ≤ buffer.length) :
    (splice buffer off bytes).take (off + bytes.length) = buffer.take off ++ bytes := by
  have hlen : (buffer.take off ++ bytes).length = off + bytes.length := by
    rw [List.length_append, List.length_take, Nat.min_eq_left h]
  rw [splice, ← hlen, List.take_left]

theorem length_splice {buffer bytes : Bytes} {off : Nat} (h : off + bytes.length ≤ buffer.length) :
    (splice buffer off bytes).length = buffer.length := by
  rw [splice, List.length_append, List.length_append, List.length_take, List.length_drop]
  omega

/-! ## The phases of a receiver do not matter where it leaves them -/

namespace Receiver
variable {δ : Type} (env : Env δ) (r : Receiver δ) (phase : Phase)

@[simp] theorem failed_phase (code : ErrorCode) :
    ({ r with phase } : Receiver δ).failed code = r.failed code := rfl

@[simp] theorem deliver_phase : ({ r with phase } : Receiver δ).deliver env = r.deliver env := rfl

@[simp] theorem complete_phase : ({ r with phase } : Receiver δ).complete env = r.complete env := rfl

@[simp] theorem enterBody_phase (len : Nat) :
    ({ r with phase } : Receiver δ).enterBody env len = r.enterBody env len := rfl

@[simp] theorem answer_phase (opcode : Opcode) (payload : Bytes) :
    ({ r with phase } : Receiver δ).answer env opcode payload = r.answer env opcode payload := by
  cases opcode <;> rfl

@[simp] theorem enterControl_phase (opcode : Opcode) (len : Nat) :
    ({ r with phase } : Receiver δ).enterControl env opcode len = r.enterControl env opcode len := by
  simp only [enterControl, failed_phase, answer_phase]

@[simp] theorem enter_phase (next : ReceiveState) (len : Nat) :
    ({ r with phase } : Receiver δ).enter env next len = r.enter env next len := by
  cases next with
  | ping | pong | close => exact enterControl_phase env r phase _ len
  | _ => rfl

@[simp] theorem readHeader_phase (a b : UInt8) :
    ({ r with phase } : Receiver δ).readHeader env a b = r.readHeader env a b := by
  have hbegin : ∀ header,
      ({ r with phase } : Receiver δ).begin header = { r.begin header with phase } := by
    intro header
    unfold begin
    cases header.opcode with
    | _ => rfl
  have hread : ∀ q : Receiver δ, q.readHeader env a b =
      (q.refuses (parseWebsocketHeader a b)).elim
        ((q.begin (parseWebsocketHeader a b)).enter env (parseWebsocketHeader a b).next
          (parseWebsocketHeader a b).payloadLen) q.failed := by
    intro q
    rw [readHeader]
    cases q.refuses (parseWebsocketHeader a b) with
    | _ => rfl
  have hrefuses : ({ r with phase } : Receiver δ).refuses (parseWebsocketHeader a b) =
      r.refuses (parseWebsocketHeader a b) := rfl
  rw [hread, hread, hbegin, enter_phase, hrefuses]
  rfl

/-- The rest of a header. -/
theorem bytes_second (a b : UInt8) :
    ({ r with phase := .second a } : Receiver δ).bytes env [b] = r.readHeader env a b := by
  rw [bytes_cons, bytes_nil, byte]
  exact readHeader_phase env r (.second a) a b

theorem bytes_header {r : Receiver δ} (h : r.phase = .header) (a b : UInt8) :
    r.bytes env [a, b] = r.readHeader env a b := by
  have hbyte : r.byte env a = { r with phase := .second a } := by rw [byte, h]
  rw [bytes_cons, hbyte, bytes_second]

end Receiver

/-! ## Where a client stands -/

namespace Client
variable {δ : Type} (env : Env δ) (c : Client δ) (cursor : RecvCursor)

/-- Between frames. -/
def base : Receiver δ where
  connection := c.connection
  kind := cursor.lastDataType
  isFinal := c.receive.receivingIsFinal
  message := c.receive.receiveBuffer
  receivingCompressed := c.receive.receivingCompressed
  messageIsCompressed := c.receive.messageIsCompressed

def viewControl (opcode : Opcode) : Receiver δ :=
  if c.receive.controlFrameStarted then
    { c.base cursor with
      phase := .control opcode c.receive.pingLen (c.receive.pingFrameBytes.take cursor.bodyRemain) }
  else (c.base cursor).enterControl env opcode cursor.bodyRemain

def view : Receiver δ :=
  match cursor.state with
  | .needHeader =>
    match c.receive.headerFragment with
    | none => c.base cursor
    | some a => { c.base cursor with phase := .second a }
  | .extendedPayloadLength16 =>
    { c.base cursor with
      phase := .length 2 (c.receive.payloadLengthFrameBytes.take c.receive.payloadLengthFrameLen) }
  | .extendedPayloadLength64 =>
    { c.base cursor with
      phase := .length 8 (c.receive.payloadLengthFrameBytes.take c.receive.payloadLengthFrameLen) }
  | .needBody => (c.base cursor).enterBody env cursor.bodyRemain
  | .ping => c.viewControl env cursor .ping
  | .pong => c.viewControl env cursor .pong
  | .close => c.viewControl env cursor .close
  | .needMask => (c.base cursor).failed .unexpectedMaskFromServer
  | .fail => (c.base cursor).failed .unsupportedControlFrame

/-- How long an extended length is. -/
def lengthSize : ReceiveState → Nat
  | .extendedPayloadLength16 => 2
  | .extendedPayloadLength64 => 8
  | _ => 1

/-- What the fields of a live client owe each other. -/
structure Valid : Prop where
  alive : c.connection.Alive
  closeReceived : c.receive.closeReceived = false
  fragment : c.receive.headerFragment ≠ none → cursor.state = .needHeader
  lengthBytes : c.receive.payloadLengthFrameBytes.length = 8
  lengthLen : c.receive.payloadLengthFrameLen < lengthSize cursor.state
  control : c.receive.controlFrameStarted = true →
    (cursor.state = .ping ∨ cursor.state = .pong ∨ cursor.state = .close) ∧
    cursor.bodyRemain < c.receive.pingLen ∧ c.receive.pingLen ≤ maxControlPayload
  controlBytes : c.receive.pingFrameBytes.length = 128
  isFinal : cursor.state = .needBody ∨ 1 < lengthSize cursor.state →
    cursor.isFinal = c.receive.receivingIsFinal
  body : cursor.state = .needBody → cursor.bodyRemain = 0 → cursor.isFinal = false

/-- Part of a close frame is there, and of its payload not more than one byte. -/
def InCloseCode : Prop :=
  cursor.state = .close ∧ c.receive.controlFrameStarted = true ∧ cursor.bodyRemain ≤ 1

/-- A client that is alive stands where the receiver does; else the receiver has ended and
nothing more is seen of the client. -/
inductive Follows (r : Receiver δ) : Prop
  | live (valid : c.Valid cursor) (view : c.view env cursor = r)
  | dead (connection : c.connection.Dead) (silent : r.connection.Silent c.connection)
      (ended : r.phase = .ended)

/-- And what can be seen of the client is what is seen of the receiver. -/
structure Settled (r : Receiver δ) : Prop where
  follows : c.Follows env cursor r
  silent : r.connection.Silent c.connection

/-- What a turn of the loop makes of the bytes at its cursor. -/
inductive Turn (data : Bytes) (r : Receiver δ) : Client δ × RecvCursor × Step → Prop
  | again {c : Client δ} {cursor : RecvCursor} (taken : Bytes) (hdata : data = taken ++ cursor.data)
      (hfollows : c.Follows env cursor (r.bytes env taken))
      (hmore : cursor.state = .needHeader → cursor.data ≠ []) (hclean : ¬ c.InCloseCode cursor) :
      Turn data r (c, cursor, .again)
  | needMoreData {c : Client δ} {cursor : RecvCursor}
      (hsettled : c.Settled env cursor (r.bytes env data)) : Turn data r (c, cursor, .needMoreData)
  | terminated {c : Client δ} {cursor : RecvCursor} (hended : (r.bytes env data).phase = .ended)
      (hsilent : (r.bytes env data).connection.Silent c.connection) :
      Turn data r (c, cursor, .terminated)

variable {env c cursor} {r : Receiver δ}

theorem Valid.settled (h : c.Valid cursor) (hsame : (c.view env cursor).connection = c.connection)
    (hview : c.view env cursor = r) : c.Settled env cursor r where
  follows := .live h hview
  silent := by
    rw [← hview, hsame]
    exact .refl _

variable {data got : Bytes} {connection : Connection δ} {c' : Client δ} {q : Receiver δ}
  {cursor' : RecvCursor} {len : Nat} {opcode : Opcode}

theorem Turn.prepend {taken rest : Bytes} {result : Client δ × RecvCursor × Step}
    (hdata : data = taken ++ rest) (h : Turn env rest (r.bytes env taken) result) :
    Turn env data r result := by
  cases h with
  | again taken' hrest hfollows hmore hclean =>
    refine .again (taken ++ taken') (by rw [hdata, hrest, List.append_assoc]) ?_ hmore hclean
    rw [Receiver.bytes_append]
    exact hfollows
  | needMoreData hsettled =>
    refine .needMoreData ?_
    rw [hdata, Receiver.bytes_append]
    exact hsettled
  | terminated hended hsilent =>
    rw [← Receiver.bytes_append, ← hdata] at hended hsilent
    exact .terminated hended hsilent

/-! ## Messages -/

theorem call_of_clears (h : connection.clears = c.connection.clears) :
    c.call connection = { c with connection } := by
  rw [call, if_pos h]

/-- What is left of a client once a message has been dispatched, of which `data` was not in the
buffer yet. -/
structure Dispatched (env : Env δ) (kind : Opcode) (data : Bytes) (c c' : Client δ) : Prop where
  connection_eq : c'.connection = c.connection.dispatchMessage env c.receive.receivingCompressed
    (c.receive.receiveBuffer ++ data) kind
  receive_eq : c'.connection.clears = c.connection.clears → ∃ receiveBodyRemain, c'.receive =
    { c.receive with
      receiveBuffer := []
      receiveBodyRemain
      receivingCompressed := false
      messageIsCompressed := false }

theorem dispatched_dispatchBufferedMessage (env : Env δ) (c : Client δ) (kind : Opcode) :
    Dispatched env kind [] c (c.dispatchBufferedMessage env kind c.receive.receivingCompressed) where
  connection_eq := by
    rw [List.append_nil]
    rfl
  receive_eq hclears := by
    refine ⟨0, ?_⟩
    simp only [dispatchBufferedMessage, call] at hclears ⊢
    rw [if_pos hclears]
    cases c.receive.receivingCompressed <;> rfl

/-- The last bytes are buffered first. -/
theorem Dispatched.of_buffered {kind : Opcode} (remain : Nat) (h : Dispatched env kind []
      { (c.bufferPayload data) with
        receive := { (c.bufferPayload data).receive with receiveBodyRemain := remain } } c') :
    Dispatched env kind data c c' where
  connection_eq := by
    have hconnection := h.connection_eq
    rw [List.append_nil] at hconnection
    exact hconnection
  receive_eq hclears := h.receive_eq hclears

theorem bufferPayload_nil (c : Client δ) : c.bufferPayload [] = c := by
  rw [bufferPayload, List.append_nil]

/-- The last bytes of a message. -/
theorem dispatched_consume (c : Client δ) (data : Bytes) (kind : Opcode) :
    (c.consume env data data.length kind true).1 = data.length ∧
    Dispatched env kind data c (c.consume env data data.length kind true).2 := by
  have hbuffered := dispatched_dispatchBufferedMessage env
    { (c.bufferPayload data) with
      receive := { (c.bufferPayload data).receive with receiveBodyRemain := 0 } } kind
  replace hbuffered := hbuffered.of_buffered 0
  have hcompressed' : (c.bufferPayload data).receive.receivingCompressed = c.receive.receivingCompressed :=
    rfl
  cases hcompressed : c.receive.receivingCompressed with
  | true =>
    rw [consume, if_pos hcompressed, consumeCompressed]
    have hpayload : (if data ≠ [] then c.bufferPayload data else c) = c.bufferPayload data := by
      split
      next => rfl
      next h => rw [not_not.mp h, bufferPayload_nil]
    rw [hpayload, if_pos rfl]
    rw [hcompressed', hcompressed] at hbuffered
    exact ⟨rfl, hbuffered⟩
  | false =>
    rw [hcompressed', hcompressed] at hbuffered
    rw [consume, if_neg (by rw [hcompressed]; decide)]
    dsimp only
    by_cases hempty : c.receive.receiveBuffer = []
    · -- in one piece: the buffer is passed by
      rw [if_pos ⟨rfl, rfl, hempty⟩]
      refine ⟨rfl, ?_, fun hclears => ⟨c.receive.receiveBodyRemain, ?_⟩⟩
      · rw [hcompressed, hempty]
        rfl
      · have hcall : c.call (c.connection.dispatchData env data kind) =
            { c with connection := c.connection.dispatchData env data kind } := call_of_clears hclears
        have hreceive : c.receive =
            { c.receive with receiveBuffer := [], receivingCompressed := false } := by
          rw [← hempty, ← hcompressed]
        rw [hcall]
        exact congrArg (fun r : Receive => { r with messageIsCompressed := false }) hreceive
    · rw [if_neg (fun h => hempty h.2.2)]
      by_cases hdata : data = []
      · rw [if_pos ⟨rfl, rfl, hdata⟩]
        have hdispatched := dispatched_dispatchBufferedMessage env c kind
        rw [hcompressed] at hdispatched
        rw [hdata]
        exact ⟨rfl, hdispatched⟩
      · rw [if_neg (fun h => hdata h.2.2), if_neg hdata, if_pos rfl]
        exact ⟨rfl, hbuffered⟩

/-- Bytes of a message of which more is to come. -/
theorem consume_of_more (c : Client δ) {left : Nat} (kind : Opcode) {isFinal : Bool}
    (h : data.length = left → isFinal = false) :
    ∃ receiveBodyRemain, c.consume env data left kind isFinal = (data.length,
      { c with
        receive :=
          { c.receive with
            receiveBuffer := c.receive.receiveBuffer ++ data
            receiveBodyRemain } }) := by
  have hmore : ¬ (isFinal = true ∧ data.length = left) := fun ⟨hfinal, hlen⟩ => by
    rw [h hlen] at hfinal
    exact absurd hfinal (by decide)
  have hpayload : (if data ≠ [] then c.bufferPayload data else c) = c.bufferPayload data := by
    split
    next => rfl
    next h => rw [not_not.mp h, bufferPayload_nil]
  rw [consume, consumeCompressed, hpayload]
  dsimp only
  by_cases hcompressed : c.receive.receivingCompressed
  · rw [if_pos hcompressed]
    by_cases hlen : data.length = left
    · rw [if_pos hlen, h hlen]
      exact ⟨0, rfl⟩
    · rw [if_neg hlen]
      exact ⟨c.receive.receiveBodyRemain, rfl⟩
  · rw [if_neg hcompressed, if_neg (fun h => hmore ⟨h.1, h.2.1⟩),
      if_neg (fun h => hmore ⟨h.1, h.2.1⟩)]
    by_cases hdata : data = []
    · rw [if_pos hdata, hdata, List.append_nil]
      exact ⟨c.receive.receiveBodyRemain, rfl⟩
    · rw [if_neg hdata]
      by_cases hlen : data.length = left
      · rw [if_pos hlen, h hlen]
        exact ⟨0, rfl⟩
      · rw [if_neg hlen]
        exact ⟨c.receive.receiveBodyRemain, rfl⟩

/-! ## Turns that fail -/

theorem turn_recvFailed (c : Client δ) (cursor : RecvCursor) {code : ErrorCode}
    (hq : q.connection = c.connection) :
    Turn env data (q.failed code) (c.recvFailed cursor code) := by
  have hended : (q.failed code).bytes env data = q.failed code := Receiver.bytes_ended rfl data
  refine .terminated ?_ ?_
  · rw [hended]
    rfl
  · rw [hended, Receiver.failed, hq]
    exact .refl _

/-- After a message: between frames, or dead. -/
theorem settled_settle
    (hcases : connection.Alive ∧ connection.clears = q.connection.clears ∨ connection.Dead)
    (hconnection : c.connection = connection)
    (hlive : connection.Alive → connection.clears = q.connection.clears →
      c.Valid cursor ∧ c.view env cursor = { q with connection, phase := .header }) :
    c.Settled env cursor (q.settle connection) := by
  have hsilent : (q.settle connection).connection.Silent c.connection := by
    rw [hconnection]
    exact .refl _
  rcases hcases with ⟨halive, hclears⟩ | hdead
  · obtain ⟨hvalid, hview⟩ := hlive halive hclears
    refine ⟨.live hvalid ?_, hsilent⟩
    rw [hview, Receiver.settle, halive.outgoing]
    rfl
  · refine ⟨.dead (hconnection ▸ hdead) hsilent ?_, hsilent⟩
    rw [Receiver.settle, hdead.outgoing]
    rfl

/-! ## A body -/

/-- Nothing of a header, of a length or of a control payload is kept. -/
structure Between (c : Client δ) : Prop where
  alive : c.connection.Alive
  closeReceived : c.receive.closeReceived = false
  fragment : c.receive.headerFragment = none
  lengthBytes : c.receive.payloadLengthFrameBytes.length = 8
  lengthLen : c.receive.payloadLengthFrameLen = 0
  started : c.receive.controlFrameStarted = false
  controlBytes : c.receive.pingFrameBytes.length = 128

theorem Valid.between (h : c.Valid cursor) (hstate : cursor.state = .needBody) : c.Between where
  alive := h.alive
  closeReceived := h.closeReceived
  fragment := not_not.mp fun hfragment => by
    have hheader := h.fragment hfragment
    rw [hstate] at hheader
    exact absurd hheader (by decide)
  lengthBytes := h.lengthBytes
  lengthLen := by
    have hlen := h.lengthLen
    rw [hstate] at hlen
    exact Nat.lt_one_iff.mp hlen
  started := by
    refine Bool.eq_false_iff.mpr fun hstarted => ?_
    have hcontrol := (h.control hstarted).1
    rw [hstate] at hcontrol
    exact absurd hcontrol (by decide)
  controlBytes := h.controlBytes

theorem Between.lengthLen_lt (h : c.Between) (state : ReceiveState) :
    c.receive.payloadLengthFrameLen < lengthSize state := by
  rw [h.lengthLen]
  cases state <;> decide

/-- At a header, a body or the start of anything. -/
theorem Between.valid (h : c.Between)
    (hfinal : cursor.state = .needBody ∨ 1 < lengthSize cursor.state →
      cursor.isFinal = c.receive.receivingIsFinal)
    (hbody : cursor.state = .needBody → cursor.bodyRemain = 0 → cursor.isFinal = false) :
    c.Valid cursor where
  alive := h.alive
  closeReceived := h.closeReceived
  fragment hfragment := absurd h.fragment hfragment
  lengthBytes := h.lengthBytes
  lengthLen := h.lengthLen_lt _
  control hstarted := by
    rw [h.started] at hstarted
    exact absurd hstarted (by decide)
  controlBytes := h.controlBytes
  isFinal := hfinal
  body := hbody

theorem Between.valid_header (h : c.Between) (hstate : cursor.state = .needHeader) :
    c.Valid cursor ∧ c.view env cursor = c.base cursor := by
  refine ⟨h.valid (fun hother => ?_) (fun hother => ?_), ?_⟩
  · rw [hstate] at hother
    exact absurd hother (by decide)
  · rw [hstate] at hother
    exact absurd hother (by decide)
  · rw [view, hstate]
    dsimp only
    rw [h.fragment]

/-- A message is over. -/
theorem Between.settled_dispatched (h : c.Between)
    (hdispatched : Dispatched env cursor.lastDataType data c c') (hstate : cursor'.state = .needHeader)
    (hkind : cursor'.lastDataType = cursor.lastDataType) :
    c'.Settled env cursor'
      (Receiver.deliver env { c.base cursor with message := c.receive.receiveBuffer ++ data }) := by
  have hcases := (Connection.kept_dispatchMessage env h.alive.outgoing c.receive.receivingCompressed
    (c.receive.receiveBuffer ++ data) cursor.lastDataType).cases h.alive
  refine settled_settle hcases hdispatched.connection_eq fun halive hclears => ?_
  obtain ⟨remain, hreceive⟩ := hdispatched.receive_eq (by rw [hdispatched.connection_eq]; exact hclears)
  have hbetween : c'.Between := by
    refine ⟨?_, ?_, ?_, ?_, ?_, ?_, ?_⟩
    · rw [hdispatched.connection_eq]
      exact halive
    all_goals rw [hreceive]
    · exact h.closeReceived
    · exact h.fragment
    · exact h.lengthBytes
    · exact h.lengthLen
    · exact h.started
    · exact h.controlBytes
  obtain ⟨hvalid, hview⟩ := hbetween.valid_header hstate
  refine ⟨hvalid, ?_⟩
  rw [hview, base, hdispatched.connection_eq, hreceive, hkind]
  rfl

/-- The turn goes on where there is more. -/
theorem turn_rest (taken : Bytes) (hdata : data = taken ++ cursor.data)
    (hsettled : c.Settled env cursor (q.bytes env taken)) (hclean : ¬ c.InCloseCode cursor) :
    Turn env data q (c, cursor, if cursor.data = [] then .needMoreData else .again) := by
  split
  next hrest =>
    rw [hrest, List.append_nil] at hdata
    rw [hdata]
    exact .needMoreData hsettled
  next hrest => exact .again taken hdata hsettled.follows (fun _ => hrest) hclean

theorem not_inCloseCode_of_state (h : cursor.state ≠ .close) : ¬ c.InCloseCode cursor :=
  fun hcode => h hcode.1

theorem turn_recvBody (h : c.Valid cursor) (hstate : cursor.state = .needBody) :
    Turn env cursor.data (c.view env cursor) (c.recvBody env cursor) := by
  have hbetween := h.between hstate
  have hfinal : cursor.isFinal = c.receive.receivingIsFinal := h.isFinal (.inl hstate)
  have hview : c.view env cursor = (c.base cursor).enterBody env cursor.bodyRemain := by
    rw [view, hstate]
  have hempty : ¬ (cursor.bodyRemain = 0 ∧ (c.base cursor).isFinal = true) := by
    rintro ⟨hremain, hbase⟩
    have hbody := h.body hstate hremain
    rw [hfinal] at hbody
    exact absurd (hbody.symm.trans hbase) (by decide)
  rw [hview, Receiver.enterBody, if_neg hempty, recvBody]
  dsimp only
  by_cases hbig : (c.base cursor).message.length + cursor.bodyRemain > maxReceiveMessageLength
  · have hmin : min (c.receive.receiveBuffer.length + cursor.bodyRemain) (2 ^ 64 - 1) >
        maxReceiveMessageLength := by
      have hlen : c.receive.receiveBuffer.length + cursor.bodyRemain > maxReceiveMessageLength := hbig
      rw [maxReceiveMessageLength] at hlen ⊢
      omega
    rw [if_pos hmin, if_pos hbig]
    exact turn_recvFailed c cursor rfl
  · have hmin : ¬ min (c.receive.receiveBuffer.length + cursor.bodyRemain) (2 ^ 64 - 1) >
        maxReceiveMessageLength :=
      fun hmin => hbig (lt_of_lt_of_le hmin (Nat.min_le_left _ _))
    rw [if_neg hmin, if_neg hbig]
    have htaken : (cursor.data.take (min cursor.bodyRemain cursor.data.length)).length =
        min cursor.bodyRemain cursor.data.length := by
      rw [List.length_take]
      omega
    have hdata : cursor.data = cursor.data.take (min cursor.bodyRemain cursor.data.length) ++
        cursor.data.drop (min cursor.bodyRemain cursor.data.length) :=
      (List.take_append_drop _ _).symm
    generalize hchunk : cursor.data.take (min cursor.bodyRemain cursor.data.length) = chunk at htaken hdata
    by_cases hlast : chunk.length = cursor.bodyRemain ∧ cursor.isFinal = true
    · -- the message is over
      obtain ⟨hlen, hisFinal⟩ := hlast
      obtain ⟨hconsumed, hdispatched⟩ := dispatched_consume c chunk cursor.lastDataType
      rw [hlen, ← hisFinal] at hconsumed hdispatched
      rw [hconsumed, Nat.sub_self, if_pos rfl]
      refine turn_rest chunk hdata ?_
        (not_inCloseCode_of_state (show ReceiveState.needHeader ≠ .close by decide))
      have hbase : (c.base cursor).isFinal = true := hfinal.symm.trans hisFinal
      have hne : cursor.bodyRemain ≠ 0 := fun hremain => hempty ⟨hremain, hbase⟩
      have hnil : chunk ≠ [] := fun hnil => by
        rw [hnil] at hlen
        exact hne hlen.symm
      rw [if_neg hne, Receiver.bytes_body rfl hlen hnil, Receiver.complete, if_pos hbase]
      exact hbetween.settled_dispatched hdispatched rfl rfl
    · -- more is to come, of the frame or of the message
      have hmore : chunk.length = cursor.bodyRemain → cursor.isFinal = false := fun hlen =>
        Bool.eq_false_iff.mpr fun hisFinal => hlast ⟨hlen, hisFinal⟩
      obtain ⟨remain, hconsumed⟩ := consume_of_more c cursor.lastDataType hmore
      rw [hconsumed]
      dsimp only
      generalize hc' : ({ c with
        receive :=
          { c.receive with
            receiveBuffer := c.receive.receiveBuffer ++ chunk
            receiveBodyRemain := remain } } : Client δ) = c'
      have hbetween' : c'.Between := by
        rw [← hc']
        exact { hbetween with }
      have hbase : ∀ cursor' : RecvCursor, cursor'.lastDataType = cursor.lastDataType →
          c'.base cursor' = { c.base cursor with message := (c.base cursor).message ++ chunk } := by
        intro cursor' hkind
        rw [← hc', base, hkind]
        rfl
      have hnotClose : (if cursor.bodyRemain - chunk.length = 0 then ReceiveState.needHeader
          else cursor.state) ≠ .close := by
        split
        · decide
        · rw [hstate]
          decide
      refine turn_rest chunk hdata ?_ (not_inCloseCode_of_state hnotClose)
      by_cases hlen : chunk.length = cursor.bodyRemain
      · -- the frame is over
        rw [hlen, Nat.sub_self, if_pos rfl]
        obtain ⟨hvalid, hview'⟩ := @Between.valid_header _ _ _ { cursor with
            bodyRemain := 0
            data := cursor.data.drop (min cursor.bodyRemain cursor.data.length)
            state := .needHeader } hbetween' rfl
        refine hvalid.settled (congrArg Receiver.connection hview') ?_
        rw [hview']
        refine (hbase _ (by rfl)).trans ?_
        by_cases hzero : cursor.bodyRemain = 0
        · have hnil : chunk = [] := List.eq_nil_of_length_eq_zero (hlen.trans hzero)
          rw [if_pos hzero, hnil, Receiver.bytes_nil, List.append_nil]
          rfl
        · have hnil : chunk ≠ [] := fun hnil => by
            rw [hnil] at hlen
            exact hzero hlen.symm
          have hnotFinal : ¬ (c.base cursor).isFinal = true :=
            Bool.eq_false_iff.mp (hfinal.symm.trans (hmore hlen))
          rw [if_neg hzero, Receiver.bytes_body rfl hlen hnil, Receiver.complete, if_neg hnotFinal]
          rfl
      · have hlt : chunk.length < cursor.bodyRemain := by
          rw [htaken] at hlen ⊢
          omega
        have hne : cursor.bodyRemain - chunk.length ≠ 0 := by omega
        rw [if_neg hne, if_neg (by omega), Receiver.bytes_body_of_lt rfl hlt]
        have hview' : c'.view env
            { cursor with
              bodyRemain := cursor.bodyRemain - chunk.length
              data := cursor.data.drop (min cursor.bodyRemain cursor.data.length) } =
            { c.base cursor with
              phase := .body (cursor.bodyRemain - chunk.length)
              message := (c.base cursor).message ++ chunk } := by
          have hsmall : ¬ ((c.base cursor).message ++ chunk).length + (cursor.bodyRemain - chunk.length) >
              maxReceiveMessageLength := by
            rw [List.length_append]
            omega
          rw [view, hstate]
          dsimp only
          refine (congrArg (fun q : Receiver δ => q.enterBody env (cursor.bodyRemain - chunk.length))
            (hbase _ (by rfl))).trans ?_
          rw [Receiver.enterBody, if_neg (fun hzero => hne hzero.1), if_neg hsmall, if_neg hne]
        have hvalid := @Between.valid _ _ { cursor with
            bodyRemain := cursor.bodyRemain - chunk.length
            data := cursor.data.drop (min cursor.bodyRemain cursor.data.length) } hbetween'
          (fun _ => hc' ▸ hfinal) (fun _ hzero => absurd hzero hne)
        refine hvalid.settled ?_ hview'
        rw [hview', ← hc']
        rfl

/-! ## An extended length -/

theorem Valid.noFragment (h : c.Valid cursor) (hstate : cursor.state ≠ .needHeader) :
    c.receive.headerFragment = none :=
  not_not.mp fun hfragment => hstate (h.fragment hfragment)

theorem Valid.notStarted (h : c.Valid cursor)
    (hstate : cursor.state ≠ .ping ∧ cursor.state ≠ .pong ∧ cursor.state ≠ .close) :
    c.receive.controlFrameStarted = false := by
  refine Bool.eq_false_iff.mpr fun hstarted => ?_
  rcases (h.control hstarted).1 with hping | hpong | hclose
  · exact hstate.1 hping
  · exact hstate.2.1 hpong
  · exact hstate.2.2 hclose

theorem view_of_long (h : 1 < lengthSize cursor.state) : c.view env cursor =
    { c.base cursor with
      phase := .length (lengthSize cursor.state)
        (c.receive.payloadLengthFrameBytes.take c.receive.payloadLengthFrameLen) } := by
  rw [view]
  cases hstate : cursor.state with
  | extendedPayloadLength16 => rfl
  | extendedPayloadLength64 => rfl
  | _ =>
    rw [hstate] at h
    exact absurd h (by decide)

theorem lengthSize_le (state : ReceiveState) : lengthSize state ≤ 8 := by
  cases state <;> decide

theorem turn_recvExtendedPayloadLength (h : c.Valid cursor) (hlong : 1 < lengthSize cursor.state) :
    Turn env cursor.data (c.view env cursor)
      (c.recvExtendedPayloadLength cursor (lengthSize cursor.state)) := by
  have hstates : cursor.state ≠ .needHeader ∧ cursor.state ≠ .ping ∧ cursor.state ≠ .pong ∧
      cursor.state ≠ .close := by
    refine ⟨?_, ?_, ?_, ?_⟩ <;>
    · intro hstate
      rw [hstate] at hlong
      exact absurd hlong (by decide)
  have hstart := h.lengthLen
  have hlen8 := h.lengthBytes
  have hle := lengthSize_le cursor.state
  have hfinal : cursor.isFinal = c.receive.receivingIsFinal := h.isFinal (.inr hlong)
  rw [recvExtendedPayloadLength]
  split
  next hdata =>
    rw [hdata]
    refine .needMoreData (h.settled ?_ rfl)
    rw [view_of_long hlong]
    rfl
  next hdata =>
    dsimp only
    rw [view_of_long hlong]
    have hgot : (c.receive.payloadLengthFrameBytes.take c.receive.payloadLengthFrameLen).length =
        c.receive.payloadLengthFrameLen := by
      rw [List.length_take]
      omega
    generalize htotal : min (lengthSize cursor.state - c.receive.payloadLengthFrameLen)
      cursor.data.length = total
    have htaken : (cursor.data.take total).length = total := by
      rw [List.length_take]
      omega
    have hbytes := take_splice (cursor.data.take total)
      (show c.receive.payloadLengthFrameLen ≤ c.receive.payloadLengthFrameBytes.length by omega)
    have hbytes8 : (splice c.receive.payloadLengthFrameBytes c.receive.payloadLengthFrameLen
        (cursor.data.take total)).length = 8 := by
      rw [length_splice (by omega), hlen8]
    rw [htaken] at hbytes
    generalize splice c.receive.payloadLengthFrameBytes c.receive.payloadLengthFrameLen
      (cursor.data.take total) = bytes at hbytes hbytes8
    by_cases hshort : c.receive.payloadLengthFrameLen + total < lengthSize cursor.state
    · have hall : cursor.data.take total = cursor.data := List.take_of_length_le (by omega)
      rw [if_pos hshort]
      rw [hall] at hbytes
      refine .needMoreData (Valid.settled ?_ ?_ ?_)
      · exact { h with
          lengthBytes := hbytes8
          lengthLen := hshort }
      · exact congrArg Receiver.connection (view_of_long (by exact hlong))
      · refine (view_of_long (by exact hlong)).trans ?_
        rw [Receiver.bytes_length_of_lt rfl (by rw [hgot]; omega)]
        dsimp only
        rw [hbytes]
        rfl
    · rw [if_neg hshort]
      have hsize : c.receive.payloadLengthFrameLen + total = lengthSize cursor.state := by omega
      have hne : cursor.data.take total ≠ [] := fun hnil => by
        rw [hnil, List.length_nil] at htaken
        omega
      refine Turn.prepend (List.take_append_drop total cursor.data).symm ?_
      rw [Receiver.bytes_length rfl (by omega) hne, ← hsize, hbytes]
      split
      next => exact turn_recvFailed _ _ rfl
      next hzero =>
        rw [Receiver.enterBody_phase]
        have hbetween : Between { c with
            receive :=
              { c.receive with
                payloadLengthFrameBytes := bytes
                payloadLengthFrameLen := 0 } } :=
          { alive := h.alive
            closeReceived := h.closeReceived
            fragment := h.noFragment hstates.1
            lengthBytes := hbytes8
            lengthLen := rfl
            started := h.notStarted hstates.2
            controlBytes := h.controlBytes }
        refine .again [] rfl (.live (hbetween.valid (fun _ => hfinal) fun _ hnone => absurd hnone hzero) ?_)
          (fun hheader => ReceiveState.noConfusion hheader)
          (not_inCloseCode_of_state (show ReceiveState.needBody ≠ .close by decide))
        rfl

/-! ## A control frame -/

/-- `len` bytes of a control payload are due, and `got` is there. -/
structure Gathering (c : Client δ) (cursor : RecvCursor) (len : Nat) (got : Bytes) : Prop where
  alive : c.connection.Alive
  closeReceived : c.receive.closeReceived = false
  fragment : c.receive.headerFragment = none
  lengthBytes : c.receive.payloadLengthFrameBytes.length = 8
  lengthLen : c.receive.payloadLengthFrameLen = 0
  started : c.receive.controlFrameStarted = true
  pingLen : c.receive.pingLen = len
  len_le : len ≤ maxControlPayload
  remain : cursor.bodyRemain = got.length
  got_le : got.length ≤ len
  take : c.receive.pingFrameBytes.take got.length = got
  controlBytes : c.receive.pingFrameBytes.length = 128

theorem Gathering.gatherControl (h : c.Gathering cursor len got) :
    ∃ taken rest bytes, cursor.data = taken ++ rest ∧ got.length + taken.length ≤ len ∧
      (got.length + taken.length < len → rest = []) ∧ bytes.length = 128 ∧
      bytes.take (got.length + taken.length) = got ++ taken ∧
      c.gatherControl cursor =
        ({ c with receive := { c.receive with pingFrameBytes := bytes } },
          { cursor with bodyRemain := got.length + taken.length, data := rest }) := by
  have hle := h.got_le
  have hlen := h.len_le
  have hbytes := h.controlBytes
  rw [maxControlPayload] at hlen
  rw [Client.gatherControl]
  split
  next hdata =>
    refine ⟨[], [], c.receive.pingFrameBytes, hdata, hle, fun _ => rfl, hbytes, ?_, ?_⟩
    · rw [List.length_nil, Nat.add_zero, List.append_nil, h.take]
    · rw [List.length_nil, Nat.add_zero, ← h.remain, ← hdata]
  next =>
    dsimp only
    rw [h.pingLen, h.remain]
    generalize hcopied : min len (got.length + cursor.data.length) - got.length = copied
    have htaken : (cursor.data.take copied).length = copied := by
      rw [List.length_take]
      omega
    have hsum : min len (got.length + cursor.data.length) = got.length + copied := by omega
    have htake := take_splice (cursor.data.take copied)
      (show got.length ≤ c.receive.pingFrameBytes.length by omega)
    rw [htaken, h.take] at htake
    refine ⟨cursor.data.take copied, cursor.data.drop copied,
      splice c.receive.pingFrameBytes got.length (cursor.data.take copied),
      (List.take_append_drop _ _).symm, by omega, fun hlt => List.drop_eq_nil_of_le (by omega), ?_, ?_, ?_⟩
    · rw [length_splice (by omega), hbytes]
    · rw [htaken, htake]
    · rw [htaken, hsum]

/-- What of it comes next: all that there is, or the rest of it. -/
theorem Gathering.bufferControlPayload (h : c.Gathering cursor len got) :
    (∃ bytes, got.length + cursor.data.length < len ∧ bytes.length = 128 ∧
      bytes.take (got.length + cursor.data.length) = got ++ cursor.data ∧
      c.bufferControlPayload cursor = (none,
        { c with receive := { c.receive with pingFrameBytes := bytes } },
        { cursor with bodyRemain := got.length + cursor.data.length, data := [] })) ∨
    ∃ taken rest bytes, cursor.data = taken ++ rest ∧ got.length + taken.length = len ∧
      bytes.length = 128 ∧ bytes.take len = got ++ taken ∧
      c.bufferControlPayload cursor = (some (got ++ taken),
        { c with
          receive := { c.receive with pingFrameBytes := bytes, controlFrameStarted := false } },
        { cursor with bodyRemain := len, data := rest }) := by
  obtain ⟨taken, rest, bytes, hdata, hle, hrest, hbytes, htake, hgather⟩ := h.gatherControl
  have hstart : c.startControl cursor = (c, cursor) := if_pos h.started
  rw [Client.bufferControlPayload, hstart]
  dsimp only
  rw [hgather]
  dsimp only
  rw [h.pingLen]
  by_cases hlt : got.length + taken.length < len
  · rw [hrest hlt, List.append_nil] at hdata
    rw [← hdata] at hlt htake
    rw [← hdata, hrest (hdata ▸ hlt), if_pos hlt]
    exact .inl ⟨bytes, hlt, hbytes, htake, rfl⟩
  · have hlen : got.length + taken.length = len := by omega
    rw [if_neg (fun h => hlt h)]
    refine .inr ⟨taken, rest, bytes, hdata, hlen, hbytes, hlen ▸ htake, ?_⟩
    rw [hlen, ← hlen, htake]

def IsControl (state : ReceiveState) : Prop :=
  state = .ping ∨ state = .pong ∨ state = .close

theorem IsControl.short {state : ReceiveState} (h : IsControl state) :
    lengthSize state = 1 ∧ state ≠ .needHeader ∧ state ≠ .needBody := by
  rcases h with rfl | rfl | rfl <;> decide

/-- A control frame from its start, or from where it was left. -/
theorem Valid.startControl (h : c.Valid cursor) (hstate : IsControl cursor.state)
    (hmax : c.receive.controlFrameStarted = false → cursor.bodyRemain ≤ maxControlPayload) :
    ∃ (c' : Client δ) (remain len : Nat) (got : Bytes),
      c.startControl cursor = (c', { cursor with bodyRemain := remain }) ∧
      c'.Gathering { cursor with bodyRemain := remain } len got ∧
      c'.base { cursor with bodyRemain := remain } = c.base cursor ∧
      ∀ opcode, (opcode = .close → c.receive.controlFrameStarted = false → cursor.bodyRemain ≠ 1) →
        c.viewControl env cursor opcode =
          if got.length = len then (c.base cursor).answer env opcode got
          else { c.base cursor with phase := .control opcode len got } := by
  obtain ⟨hshort, hheader, hbody⟩ := hstate.short
  have hlengthLen := h.lengthLen
  rw [hshort, Nat.lt_one_iff] at hlengthLen
  rw [Client.startControl]
  cases hstarted : c.receive.controlFrameStarted with
  | true =>
    obtain ⟨-, hlt, hle⟩ := h.control hstarted
    have hgot : (c.receive.pingFrameBytes.take cursor.bodyRemain).length = cursor.bodyRemain := by
      rw [List.length_take, h.controlBytes]
      rw [maxControlPayload] at hle
      omega
    refine ⟨c, cursor.bodyRemain, c.receive.pingLen, c.receive.pingFrameBytes.take cursor.bodyRemain,
      rfl, ?_, rfl, fun opcode _ => ?_⟩
    · exact {
        alive := h.alive
        closeReceived := h.closeReceived
        fragment := h.noFragment hheader
        lengthBytes := h.lengthBytes
        lengthLen := hlengthLen
        started := hstarted
        pingLen := rfl
        len_le := hle
        remain := hgot.symm
        got_le := by omega
        take := by rw [hgot]
        controlBytes := h.controlBytes }
    · rw [viewControl, if_pos hstarted, if_neg (by omega)]
  | false =>
    have hle := hmax hstarted
    have hmod : cursor.bodyRemain % 256 = cursor.bodyRemain := by
      rw [maxControlPayload] at hle
      omega
    refine ⟨_, 0, cursor.bodyRemain, [], rfl, ?_, rfl, fun opcode hone => ?_⟩
    · exact {
        alive := h.alive
        closeReceived := h.closeReceived
        fragment := h.noFragment hheader
        lengthBytes := h.lengthBytes
        lengthLen := hlengthLen
        started := rfl
        pingLen := hmod
        len_le := hle
        remain := rfl
        got_le := Nat.zero_le _
        take := rfl
        controlBytes := h.controlBytes }
    · rw [viewControl, if_neg (by rw [hstarted]; decide), Receiver.enterControl, if_neg (by
        rintro (hlong | ⟨hclose, hlen⟩)
        · omega
        · exact hone hclose rfl hlen)]
      by_cases hzero : cursor.bodyRemain = 0
      · rw [if_pos hzero, hzero]
        rfl
      · rw [if_neg hzero, if_neg (fun hlen => hzero hlen.symm)]

/-- A control frame is left where it is, or complete. -/
theorem Valid.bufferControlPayload (h : c.Valid cursor) (hstate : IsControl cursor.state)
    (hview : c.view env cursor = c.viewControl env cursor opcode)
    (hviews : ∀ (c' : Client δ) (cursor' : RecvCursor), cursor'.state = cursor.state →
      c'.view env cursor' = c'.viewControl env cursor' opcode)
    (hmax : c.receive.controlFrameStarted = false → cursor.bodyRemain ≤ maxControlPayload)
    (hone : opcode = .close → c.receive.controlFrameStarted = false → cursor.bodyRemain ≠ 1) :
    (∃ c' cursor', c.bufferControlPayload cursor = (none, c', cursor') ∧
      c'.Settled env cursor' ((c.view env cursor).bytes env cursor.data)) ∨
    ∃ (payload taken rest : Bytes) (c' : Client δ) (remain : Nat),
      c.bufferControlPayload cursor = (some payload, c', { cursor with bodyRemain := remain, data := rest }) ∧
      cursor.data = taken ++ rest ∧
      (c.view env cursor).bytes env taken = (c.base cursor).answer env opcode payload ∧
      c'.Between ∧ c'.base cursor = c.base cursor ∧
      c'.receive.pingFrameBytes.take c'.receive.pingLen = payload := by
  obtain ⟨c₀, remain, len, got, hstart, hgathering, hbase, hcontrol⟩ := h.startControl hstate hmax
  have hbuffer : c.bufferControlPayload cursor =
      c₀.bufferControlPayload { cursor with bodyRemain := remain } := by
    have hstart' : c₀.startControl { cursor with bodyRemain := remain } =
        (c₀, { cursor with bodyRemain := remain }) := if_pos hgathering.started
    rw [Client.bufferControlPayload, Client.bufferControlPayload, hstart, hstart']
  have hgot := hgathering.got_le
  rw [hview, hcontrol opcode hone, hbuffer]
  rcases hgathering.bufferControlPayload with ⟨bytes, hlt, hbytes, htake, hresult⟩ |
      ⟨taken, rest, bytes, hdata, hlen, hbytes, htake, hresult⟩
  · dsimp only at hlt htake
    refine .inl ⟨_, _, hresult, Valid.settled ?_ ?_ ?_⟩
    · exact {
        alive := hgathering.alive
        closeReceived := hgathering.closeReceived
        fragment := fun hfragment => absurd hgathering.fragment hfragment
        lengthBytes := hgathering.lengthBytes
        lengthLen := by
          change c₀.receive.payloadLengthFrameLen < _
          rw [hgathering.lengthLen]
          exact Nat.lt_of_lt_of_le Nat.zero_lt_one (Nat.le_of_eq hstate.short.1.symm)
        control := fun _ => ⟨hstate, by
          change got.length + cursor.data.length < c₀.receive.pingLen
          rwa [hgathering.pingLen], by
          change c₀.receive.pingLen ≤ _
          rw [hgathering.pingLen]
          exact hgathering.len_le⟩
        controlBytes := hbytes
        isFinal := fun hother => by
          obtain ⟨hshort, hheader, hbody⟩ := hstate.short
          rcases hother with hother | hother
          · exact absurd hother hbody
          · exact absurd hother (by
              change ¬ 1 < lengthSize cursor.state
              omega)
        body := fun hother => absurd hother hstate.short.2.2 }
    · refine (congrArg Receiver.connection (hviews _ _ (by rfl))).trans ?_
      rw [viewControl, if_pos hgathering.started]
      rfl
    · refine (hviews _ _ (by rfl)).trans ?_
      rw [viewControl, if_pos hgathering.started, if_neg (by omega),
        Receiver.bytes_control_of_lt rfl hlt]
      dsimp only
      rw [htake, hgathering.pingLen, ← hbase]
      rfl
  · refine .inr ⟨got ++ taken, taken, rest, _, len, hresult, hdata, ?_, ?_, ?_, ?_⟩
    · by_cases hcomplete : got.length = len
      · have hnil : taken = [] := List.eq_nil_of_length_eq_zero (by omega)
        rw [if_pos hcomplete, hnil, Receiver.bytes_nil, List.append_nil]
      · have hne : taken ≠ [] := fun hnil => by
          rw [hnil, List.length_nil] at hlen
          omega
        rw [if_neg hcomplete, Receiver.bytes_control rfl hlen hne, Receiver.answer_phase,
          Receiver.answer_phase]
    · exact {
        alive := hgathering.alive
        closeReceived := hgathering.closeReceived
        fragment := hgathering.fragment
        lengthBytes := hgathering.lengthBytes
        lengthLen := hgathering.lengthLen
        started := rfl
        controlBytes := hbytes }
    · rw [← hbase]
      rfl
    · change bytes.take c₀.receive.pingLen = _
      rw [hgathering.pingLen, htake]

/-- A ping or a pong is over. -/
theorem Between.settled_control (h : c.Between) (hkept : c.connection.Kept connection)
    (hstate : cursor'.state = .needHeader) (hkind : cursor'.lastDataType = cursor.lastDataType) :
    (c.call connection).Settled env cursor' ((c.base cursor).settle connection) := by
  refine settled_settle (hkept.cases h.alive) rfl fun halive hclears => ?_
  have hcall : c.call connection = { c with connection } := call_of_clears hclears
  have hbetween : Between ({ c with connection } : Client δ) := { h with alive := halive }
  obtain ⟨hvalid, hview⟩ := hbetween.valid_header hstate
  rw [hcall]
  refine ⟨hvalid, ?_⟩
  rw [hview, base, hkind]
  rfl

theorem dispatchData_control (h : connection.outgoing = true) (payload : Bytes)
    (hopcode : opcode = .ping ∨ opcode = .pong) :
    connection.dispatchData env payload opcode = connection.log (.message opcode payload) := by
  unfold Connection.dispatchData
  rw [h]
  rcases hopcode with rfl | rfl
  · rfl
  · rfl

theorem turn_recvPingOrPong (h : c.Valid cursor) (hopcode : opcode = .ping ∨ opcode = .pong)
    (hstate : IsControl cursor.state) (hview : c.view env cursor = c.viewControl env cursor opcode)
    (hviews : ∀ (c' : Client δ) (cursor' : RecvCursor), cursor'.state = cursor.state →
      c'.view env cursor' = c'.viewControl env cursor' opcode) :
    Turn env cursor.data (c.view env cursor) (c.recvPingOrPong env cursor opcode) := by
  rw [recvPingOrPong]
  split
  next hlong =>
    obtain ⟨hstarted, hlong⟩ := hlong
    rw [hview, viewControl, if_neg (Bool.eq_false_iff.mp ((Bool.not_eq_true' _).mp hstarted)),
      Receiver.enterControl, if_pos (.inl hlong)]
    exact turn_recvFailed c cursor rfl
  next hlong =>
    have hmax : c.receive.controlFrameStarted = false → cursor.bodyRemain ≤ maxControlPayload :=
      fun hstarted => Nat.not_lt.mp fun hlt => hlong ⟨by rw [hstarted]; rfl, hlt⟩
    have hone : opcode = .close → c.receive.controlFrameStarted = false → cursor.bodyRemain ≠ 1 := by
      rintro rfl
      exact absurd hopcode (by decide)
    rcases h.bufferControlPayload hstate hview hviews hmax hone with
      ⟨c', cursor', hbuffer, hsettled⟩ |
      ⟨payload, taken, rest, c', remain, hbuffer, hdata, hbytes, hbetween, hbase, hpayload⟩
    · rw [hbuffer]
      exact .needMoreData hsettled
    · rw [hbuffer]
      dsimp only
      have hconnection : c'.connection = c.connection := congrArg Receiver.connection hbase
      refine turn_rest taken hdata ?_
        (not_inCloseCode_of_state (show ReceiveState.needHeader ≠ .close by decide))
      rw [hbytes, ← hbase]
      have hdispatch := @dispatchData_control _ env _ _ hbetween.alive.outgoing payload hopcode
      rw [hdispatch]
      have hcall : c'.call (c'.connection.log (.message opcode payload)) =
          { c' with connection := c'.connection.log (.message opcode payload) } := call_of_clears rfl
      rcases hopcode with rfl | rfl
      · have hbetween' : Between
            ({ c' with connection := c'.connection.log (.message .ping payload) } : Client δ) :=
          { hbetween with alive := ⟨hbetween.alive.outgoing, hbetween.alive.pending⟩ }
        rw [if_pos rfl, hcall, sendPong]
        dsimp only
        rw [hpayload]
        have hsettled := @Between.settled_control _ env _ _ _
          { cursor with state := .needHeader, bodyRemain := 0, data := rest } hbetween'
          (Connection.kept_sendPong env hbetween'.alive.pending payload) rfl rfl
        rw [Receiver.answer]
        change Client.Settled _ _ _ ((c'.base cursor).settle
          ((c'.connection.dispatchData env payload .ping).sendPong env payload))
        rw [hdispatch]
        exact hsettled
      · rw [if_neg (by decide)]
        have hsettled := @Between.settled_control _ env _ _
          (c'.connection.log (.message .pong payload))
          { cursor with state := .needHeader, bodyRemain := 0, data := rest } hbetween
          (.inl ⟨rfl, rfl, rfl⟩) rfl rfl
        change Client.Settled _ _ _ ((c'.base cursor).settle
          (c'.connection.dispatchData env payload .pong))
        rw [hdispatch]
        exact hsettled

theorem turn_recvClose (h : c.Valid cursor) (hclean : ¬ c.InCloseCode cursor)
    (hstate : cursor.state = .close) :
    Turn env cursor.data (c.view env cursor) (c.recvClose env cursor) := by
  have hviews : ∀ (c' : Client δ) (cursor' : RecvCursor), cursor'.state = cursor.state →
      c'.view env cursor' = c'.viewControl env cursor' .close := by
    intro c' cursor' hsame
    rw [view, hsame, hstate]
  have hview := hviews c cursor rfl
  have hcontrol : IsControl cursor.state := .inr (.inr hstate)
  have hremain : c.receive.controlFrameStarted = true → 2 ≤ cursor.bodyRemain := fun hstarted =>
    Nat.not_lt.mp fun hlt => hclean ⟨hstate, hstarted, Nat.lt_succ_iff.mp hlt⟩
  rw [recvClose]
  split
  next hwrong =>
    have hstarted : c.receive.controlFrameStarted = false := by
      refine Bool.eq_false_iff.mpr fun hstarted => ?_
      obtain ⟨-, hlt, hle⟩ := h.control hstarted
      have htwo := hremain hstarted
      omega
    rw [hview, viewControl, if_neg (Bool.eq_false_iff.mp hstarted), Receiver.enterControl,
      if_pos (hwrong.symm.imp_right fun hone => ⟨rfl, hone⟩)]
    exact turn_recvFailed c cursor rfl
  next hright =>
    rw [not_or] at hright
    dsimp only
    split
    next hzero =>
      have hstarted : c.receive.controlFrameStarted = false := by
        refine Bool.eq_false_iff.mpr fun hstarted => ?_
        have htwo := hremain hstarted
        omega
      have hanswer : c.view env cursor = (c.base cursor).answer env .close [] := by
        rw [hview, viewControl, if_neg (Bool.eq_false_iff.mp hstarted), Receiver.enterControl,
          if_neg (by omega), if_pos hzero]
      have hended : (c.view env cursor).bytes env cursor.data = (c.base cursor).answer env .close [] := by
        rw [hanswer]
        exact Receiver.bytes_ended rfl _
      refine .terminated ?_ ?_
      · rw [hended]
        rfl
      · rw [hended]
        exact .refl _
    next hzero =>
      rcases h.bufferControlPayload hcontrol hview hviews (fun _ => Nat.not_lt.mp hright.2)
          (fun _ _ => hright.1) with
        ⟨c', cursor', hbuffer, hsettled⟩ |
        ⟨payload, taken, rest, c', remain, hbuffer, hdata, hbytes, hbetween, hbase, hpayload⟩
      · rw [hbuffer]
        exact .needMoreData hsettled
      · rw [hbuffer]
        dsimp only
        have hconnection : c'.connection = c.connection := congrArg Receiver.connection hbase
        have hended : (c.view env cursor).bytes env cursor.data =
            (c.base cursor).answer env .close payload := by
          rw [hdata, Receiver.bytes_append, hbytes]
          exact Receiver.bytes_ended rfl _
        have hanswer : ((c.base cursor).answer env .close payload).connection =
            c'.connection.answerClose env payload := by
          rw [hconnection]
          rfl
        rw [Connection.answerClose] at hanswer
        split
        next hlong =>
          rw [if_pos hlong] at hanswer
          refine .terminated (by rw [hended]; rfl) ?_
          rw [hended, hanswer]
          exact .refl _
        next hlong =>
          rw [if_neg hlong] at hanswer
          refine .terminated (by rw [hended]; rfl) ?_
          rw [hended, hanswer]
          exact .refl _

/-! ## A header -/

/-- After a header comes something else, and a payload with a length that of a data frame. -/
theorem parseWebsocketHeader_next (a b : UInt8) :
    (parseWebsocketHeader a b).next ≠ .needHeader ∧
    ((parseWebsocketHeader a b).next = .needBody ∨ 1 < lengthSize (parseWebsocketHeader a b).next →
      (parseWebsocketHeader a b).opcode = .continuation ∨ (parseWebsocketHeader a b).opcode = .text ∨
      (parseWebsocketHeader a b).opcode = .binary) := by
  rw [parseWebsocketHeader]
  generalize WebsocketHeader.fromSlice a b = header
  dsimp only
  split
  next => simp [lengthSize]
  next =>
    split
    next => simp [lengthSize]
    next =>
      dsimp only
      cases header.opcode with
      | continuation | text | binary =>
        dsimp only
        split_ifs <;> simp [lengthSize]
      | _ => simp [lengthSize]

theorem turn_recvHeader (h : c.Between) (cursor : RecvCursor) (a b : UInt8) :
    Turn env cursor.data ((c.base cursor).readHeader env a b) (c.recvHeader env cursor a b) := by
  obtain ⟨hne, hnext⟩ := parseWebsocketHeader_next a b
  rw [Receiver.readHeader, recvHeader]
  generalize parseWebsocketHeader a b = header at hnext hne
  dsimp only
  have hbaseFinal : (c.base cursor).isFinal = c.receive.receivingIsFinal := rfl
  have hbaseConnection : (c.base cursor).connection = c.connection := rfl
  rw [Receiver.refuses, hbaseFinal, hbaseConnection]
  generalize hmessage : (decide (header.opcode = .text) || decide (header.opcode = .binary)) = isMessage
  by_cases h₁ : header.opcode = .continuation ∧ c.receive.receivingIsFinal = true
  · rw [if_pos h₁, if_pos h₁]
    exact turn_recvFailed _ _ rfl
  rw [if_neg h₁, if_neg h₁]
  by_cases h₂ : isMessage = true ∧ (!c.receive.receivingIsFinal) = true
  · rw [if_pos h₂, if_pos h₂]
    exact turn_recvFailed _ _ rfl
  rw [if_neg h₂, if_neg h₂]
  by_cases h₃ : header.opcode.isControl = true ∧ header.isFragmented = true
  · rw [if_pos h₃, if_pos h₃]
    exact turn_recvFailed _ _ rfl
  rw [if_neg h₃, if_neg h₃]
  generalize hopened : (if (decide (header.opcode = .continuation) || isMessage) = true then
    ({ c with receive := { c.receive with receivingIsFinal := header.isFinal } } : Client δ) else c) = opened
  have hconnection : opened.connection = c.connection := by
    rw [← hopened]
    split <;> rfl
  by_cases h₄ : (!(decide (header.opcode = .continuation) || isMessage || decide (header.opcode = .ping) ||
      decide (header.opcode = .pong) || decide (header.opcode = .close))) = true
  · rw [if_pos h₄, if_pos h₄]
    exact turn_recvFailed _ _ hconnection.symm
  rw [if_neg h₄, if_neg h₄]
  by_cases h₅ : (header.compressed && !isMessage) = true
  · rw [if_pos h₅, if_pos h₅]
    exact turn_recvFailed _ _ hconnection.symm
  have hdeflate : opened.connection.deflate = c.connection.deflate := by rw [hconnection]
  rw [if_neg h₅, if_neg h₅, hdeflate]
  by_cases h₆ : (header.compressed && c.connection.deflate.isNone) = true
  · rw [if_pos h₆, if_pos h₆]
    exact turn_recvFailed _ _ hconnection.symm
  rw [if_neg h₆, if_neg h₆]
  dsimp only
  generalize hbegun : (if isMessage = true then
    ({ opened with
      receive :=
        { opened.receive with
          messageIsCompressed := header.compressed
          receivingCompressed := header.compressed } } : Client δ)
    else if header.opcode = .continuation then
      { opened with
        receive := { opened.receive with receivingCompressed := opened.receive.messageIsCompressed } }
    else opened) = begun
  generalize hcursor : (if isMessage = true then
    ({ cursor with
      state := header.next
      bodyRemain := header.payloadLen
      isFinal := header.isFinal
      lastDataType := header.opcode } : RecvCursor)
    else
      { cursor with
        state := header.next
        bodyRemain := header.payloadLen
        isFinal := header.isFinal }) = cursor'
  -- what has been read of the header
  have hbegin : begun.base cursor' = (c.base cursor).begin header ∧ begun.Between ∧
      (header.opcode = .continuation ∨ header.opcode = .text ∨ header.opcode = .binary →
        begun.receive.receivingIsFinal = header.isFinal) := by
    by_cases hm : isMessage = true
    · have hopcode : header.opcode = .text ∨ header.opcode = .binary := by
        rw [hm] at hmessage
        simpa using hmessage
      rw [if_pos hm] at hbegun hcursor
      rw [if_pos (by rw [hm, Bool.or_true])] at hopened
      rw [← hbegun, ← hcursor, ← hopened]
      refine ⟨?_, { h with }, fun _ => rfl⟩
      rcases hopcode with hopcode | hopcode
      · rw [Receiver.begin, hopcode]
        rfl
      · rw [Receiver.begin, hopcode]
        rfl
    · rw [if_neg hm] at hbegun hcursor
      have hopcode : header.opcode ≠ .text ∧ header.opcode ≠ .binary := by
        rw [Bool.not_eq_true] at hm
        rw [hm] at hmessage
        simpa using hmessage
      by_cases hc : header.opcode = .continuation
      · rw [if_pos hc] at hbegun
        rw [if_pos (by rw [hc]; rfl)] at hopened
        rw [← hbegun, ← hcursor, ← hopened]
        refine ⟨?_, { h with }, fun _ => rfl⟩
        rw [Receiver.begin, hc]
        rfl
      · rw [if_neg hc] at hbegun
        rw [if_neg (by simp [hc, hm])] at hopened
        rw [← hbegun, ← hcursor, ← hopened]
        refine ⟨?_, h, fun hdata => ?_⟩
        · unfold Receiver.begin
          cases hop : header.opcode with
          | continuation => exact absurd hop hc
          | text => exact absurd hop hopcode.1
          | binary => exact absurd hop hopcode.2
          | _ => rfl
        · rcases hdata with hdata | hdata | hdata
          · exact absurd hdata hc
          · exact absurd hdata hopcode.1
          · exact absurd hdata hopcode.2
  have hfields : cursor'.data = cursor.data ∧ cursor'.state = header.next ∧
      cursor'.bodyRemain = header.payloadLen ∧ cursor'.isFinal = header.isFinal := by
    rw [← hcursor]
    split <;> exact ⟨rfl, rfl, rfl, rfl⟩
  obtain ⟨hbase, hbetween, hfinal⟩ := hbegin
  obtain ⟨hdata, hstate, hremain, hisFinal⟩ := hfields
  rw [← hdata, ← hbase, ← hstate, ← hremain]
  rw [← hstate] at hne hnext
  by_cases hempty : cursor'.bodyRemain = 0 ∧ cursor'.state = .needBody ∧ cursor'.isFinal = true
  · obtain ⟨hzero, hbody, hlast⟩ := hempty
    have hopen : (begun.base cursor').isFinal = true :=
      (hfinal (hnext (.inl hbody))).trans (hisFinal.symm.trans hlast)
    rw [if_pos ⟨hzero, hbody, hlast⟩, hbody, hzero]
    obtain ⟨-, hconnection', hreceive⟩ := dispatched_consume begun [] cursor'.lastDataType
    rw [List.length_nil] at hconnection' hreceive
    generalize (begun.consume env [] 0 cursor'.lastDataType true).2 = consumed at hconnection' hreceive
    refine turn_rest [] rfl ?_ (not_inCloseCode_of_state (show ReceiveState.needHeader ≠ .close by decide))
    rw [Receiver.bytes_nil, Receiver.enter, Receiver.enterBody, if_pos ⟨rfl, hopen⟩]
    have hdispatched : Dispatched env cursor'.lastDataType [] begun
        { consumed with
          receive :=
            { consumed.receive with receivingCompressed := false, messageIsCompressed := false } } :=
      { connection_eq := hconnection'
        receive_eq := fun hclears => by
          obtain ⟨remain, hreceive⟩ := hreceive hclears
          exact ⟨remain, by rw [hreceive]⟩ }
    have hcleared : ({ cursor' with state := .needHeader } : RecvCursor).state = .needHeader := rfl
    have hsettled := hbetween.settled_dispatched hdispatched hcleared rfl
    rw [List.append_nil] at hsettled
    rw [← hzero]
    exact hsettled
  · rw [if_neg hempty]
    refine .again [] rfl (.live (hbetween.valid (fun hother => ?_) (fun hbody hzero => ?_)) ?_)
      (fun hheader => absurd hheader hne) ?_
    · rw [hisFinal, hfinal (hnext hother)]
    · exact Bool.eq_false_iff.mpr fun hlast => hempty ⟨hzero, hbody, hlast⟩
    · rw [Receiver.bytes_nil, view]
      cases hnow : cursor'.state with
      | needHeader => exact absurd hnow hne
      | extendedPayloadLength16 | extendedPayloadLength64 =>
        dsimp only
        rw [hbetween.lengthLen, List.take_zero]
        rfl
      | ping | pong | close =>
        dsimp only
        rw [viewControl, hbetween.started]
        rfl
      | _ => rfl
    · rintro ⟨-, hstarted, -⟩
      rw [hbetween.started] at hstarted
      exact absurd hstarted (by decide)

theorem turn_recvFrameHeader (h : c.Valid cursor) (hstate : cursor.state = .needHeader)
    (hmore : cursor.data ≠ []) :
    Turn env cursor.data (c.view env cursor) (c.recvFrameHeader env cursor) := by
  have hstarted := h.notStarted (by rw [hstate]; decide)
  have hlengthLen := h.lengthLen
  rw [hstate] at hlengthLen
  have hbetween : ∀ (fragment : Option UInt8), fragment = none →
      Between { c with receive := { c.receive with headerFragment := fragment } } := by
    intro fragment hfragment
    exact {
      alive := h.alive
      closeReceived := h.closeReceived
      fragment := hfragment
      lengthBytes := h.lengthBytes
      lengthLen := Nat.lt_one_iff.mp hlengthLen
      started := hstarted
      controlBytes := h.controlBytes }
  have hview : c.view env cursor =
      match c.receive.headerFragment with
      | none => c.base cursor
      | some a => { c.base cursor with phase := .second a } := by
    rw [view, hstate]
  rw [hview, recvFrameHeader]
  cases hfragment : c.receive.headerFragment with
  | none =>
    rcases hdata : cursor.data with - | ⟨a, - | ⟨b, rest⟩⟩
    · exact absurd hdata hmore
    · have hview' : Client.view env
          { c with receive := { c.receive with headerFragment := some a } } cursor =
          { c.base cursor with phase := .second a } := by
        rw [view, hstate]
        rfl
      refine .needMoreData (Valid.settled { h with fragment := fun _ => hstate } ?_ hview')
      exact congrArg Receiver.connection hview'
    · have hbetween' : c.Between := { hbetween none rfl with fragment := hfragment }
      have hturn : Turn env rest ((c.base cursor).readHeader env a b)
          (c.recvHeader env { cursor with data := rest } a b) :=
        turn_recvHeader hbetween' { cursor with data := rest } a b
      have hdata' : a :: b :: rest = [a, b] ++ rest := rfl
      refine Turn.prepend hdata' ?_
      rw [Receiver.bytes_header env (by rfl)]
      exact hturn
  | some a =>
    rcases hdata : cursor.data with - | ⟨b, rest⟩
    · exact absurd hdata hmore
    · have hturn : Turn env rest ((c.base cursor).readHeader env a b)
          (({ c with receive := { c.receive with headerFragment := none } } : Client δ).recvHeader env
            { cursor with data := rest } a b) :=
        turn_recvHeader (hbetween none rfl) { cursor with data := rest } a b
      have hdata' : b :: rest = [b] ++ rest := rfl
      refine Turn.prepend hdata' ?_
      rw [Receiver.bytes_second]
      exact hturn

/-! ## Every turn -/

/-- A turn of a client that is alive. -/
theorem Valid.turn (h : c.Valid cursor) (hmore : cursor.state = .needHeader → cursor.data ≠ [])
    (hclean : ¬ c.InCloseCode cursor) :
    Turn env cursor.data (c.view env cursor) (c.step env cursor) := by
  rw [step]
  cases hstate : cursor.state with
  | needHeader => exact turn_recvFrameHeader h hstate (hmore hstate)
  | needMask =>
    rw [view, hstate]
    exact turn_recvFailed c cursor rfl
  | needBody => exact turn_recvBody h hstate
  | extendedPayloadLength16 | extendedPayloadLength64 =>
    have hturn := @turn_recvExtendedPayloadLength _ env _ _ h (by rw [hstate]; decide)
    rw [hstate] at hturn
    exact hturn
  | ping =>
    refine turn_recvPingOrPong h (.inl rfl) (.inl hstate) (by rw [view, hstate]) fun c' cursor' hsame => ?_
    rw [view, hsame, hstate]
  | pong =>
    refine turn_recvPingOrPong h (.inr rfl) (.inr (.inl hstate)) (by rw [view, hstate])
      fun c' cursor' hsame => ?_
    rw [view, hsame, hstate]
  | close => exact turn_recvClose h hclean hstate
  | fail =>
    rw [view, hstate]
    exact turn_recvFailed c cursor rfl

end Client

end OhosBun.WebSocket
