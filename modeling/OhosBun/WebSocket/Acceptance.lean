/-
# `OhosBun.WebSocket.Acceptance` — a client accepts well-formed sequences of frames

Read one whole frame at a time, a client delivers what the framing says (`accepts_frames`), and
fails at the frame that breaks it.  The one exception is the MASK bit, which the header decoder
looks at for text and binary frames alone (`Frame.Slips`).
-/
import OhosBun.WebSocket.Segments
import OhosBun.WebSocket.Sending
import OhosBun.WebSocket.Framing

namespace OhosBun.WebSocket

open OhosBun.Lib

/-! ## The header of a frame -/

theorem packLength_le (length : Nat) : WebsocketHeader.packLength length ≤ 127 := by
  rw [WebsocketHeader.packLength]
  split
  · omega
  · split
    · decide
    · decide

/-- The length of a control frame is in its header. -/
theorem short_length {length : Nat} (h : length ≤ maxControlPayload) :
    lengthBytes length = [] ∧ WebsocketHeader.packLength length = length := by
  rw [maxControlPayload] at h
  rw [lengthBytes, WebsocketHeader.lengthByteCount, WebsocketHeader.packLength, if_pos h, if_pos h]
  exact ⟨rfl, rfl⟩

namespace Frame
variable (frame : Frame)

theorem first_lt : frame.first < 256 := by
  have hraw := frame.opcode.toRaw_lt
  have hfin := Bool.toNat_le frame.fin
  have hrsv1 := Bool.toNat_le frame.rsv1
  have hrsv2 := Bool.toNat_le frame.rsv2
  have hrsv3 := Bool.toNat_le frame.rsv3
  rw [first]
  omega

theorem second_lt : frame.second < 256 := by
  have hlen := packLength_le frame.payload.length
  have hmask := Bool.toNat_le frame.mask.isSome
  rw [second]
  omega

/-- The header as the decoder has it. -/
def header : WebsocketHeader := .fromSlice (UInt8.ofNat frame.first) (UInt8.ofNat frame.second)

theorem header_bits : frame.header.bits = frame.first * 256 + frame.second := by
  change (UInt8.ofNat frame.first).toNat * 256 + (UInt8.ofNat frame.second).toNat = _
  rw [UInt8.toNat_ofNat_of_lt' frame.first_lt, UInt8.toNat_ofNat_of_lt' frame.second_lt]

theorem header_field (shift width : Nat) : frame.header.field shift width =
    (frame.first * 256 + frame.second) / 2 ^ shift % 2 ^ width := by
  rw [WebsocketHeader.field, header_bits, Nat.shiftRight_eq_div_pow]

theorem header_fields : frame.header.len = WebsocketHeader.packLength frame.payload.length ∧
    frame.header.mask = frame.mask.isSome ∧ frame.header.opcode = frame.opcode ∧
    (frame.header.rsv = 0 ↔ frame.rsv2 = false ∧ frame.rsv3 = false) ∧
    frame.header.compressed = frame.rsv1 ∧ frame.header.isFinal = frame.fin := by
  have hraw := frame.opcode.toRaw_lt
  have hlen := packLength_le frame.payload.length
  have hmask := Bool.toNat_le frame.mask.isSome
  have hfin := Bool.toNat_le frame.fin
  have hrsv1 := Bool.toNat_le frame.rsv1
  have hrsv2 := Bool.toNat_le frame.rsv2
  have hrsv3 := Bool.toNat_le frame.rsv3
  have hbit : ∀ (b : Bool) (n : Nat), n = b.toNat → decide (n ≠ 0) = b := by
    rintro b n rfl
    cases b <;> rfl
  refine ⟨?_, ?_, ?_, ?_, ?_, ?_⟩
  · rw [WebsocketHeader.len, header_field, first, second]
    omega
  · rw [WebsocketHeader.mask, header_field]
    refine hbit _ _ ?_
    rw [first, second]
    omega
  · have hopcode : (frame.first * 256 + frame.second) / 2 ^ 8 % 2 ^ 4 = frame.opcode.toRaw := by
      rw [first, second]
      omega
    rw [WebsocketHeader.opcode, header_field, hopcode, Opcode.fromRaw_toRaw]
  · have hrsv : frame.header.rsv = frame.rsv2.toNat * 2 + frame.rsv3.toNat := by
      rw [WebsocketHeader.rsv, header_field, first, second]
      omega
    rw [hrsv]
    cases frame.rsv2 <;> cases frame.rsv3 <;> decide
  · rw [WebsocketHeader.compressed, header_field]
    refine hbit _ _ ?_
    rw [first, second]
    omega
  · rw [WebsocketHeader.isFinal, header_field]
    refine hbit _ _ ?_
    rw [first, second]
    omega

/-- What the decoder says comes next. -/
def next : ReceiveState :=
  if frame.mask.isSome = true ∧ (frame.opcode = .text ∨ frame.opcode = .binary) then .needMask
  else if frame.rsv2 = true ∨ frame.rsv3 = true then .fail
  else
    match frame.opcode with
    | .text | .continuation | .binary =>
      if frame.payload.length ≤ 125 then .needBody
      else if frame.payload.length ≤ 0xFFFF then .extendedPayloadLength16
      else .extendedPayloadLength64
    | .close => .close
    | .ping => .ping
    | .pong => .pong
    | _ => .fail

theorem parse_encode :
    parseWebsocketHeader (UInt8.ofNat frame.first) (UInt8.ofNat frame.second) =
      { opcode := frame.opcode
        payloadLen := WebsocketHeader.packLength frame.payload.length
        isFragmented := frame.opcode = .continuation || !frame.fin
        isFinal := frame.fin
        compressed := frame.rsv1
        next := frame.next } := by
  obtain ⟨hlen, hmask, hopcode, hrsv, hcompressed, hfinal⟩ := frame.header_fields
  have hpacked : ∀ (x y z w : ReceiveState),
      (if WebsocketHeader.packLength frame.payload.length ≤ 125 then x
        else if WebsocketHeader.packLength frame.payload.length = 126 then y
        else if WebsocketHeader.packLength frame.payload.length = 127 then z else w) =
      if frame.payload.length ≤ 125 then x else if frame.payload.length ≤ 0xFFFF then y else z := by
    intro x y z w
    rw [WebsocketHeader.packLength]
    split_ifs <;> first | rfl | omega
  have hheader : WebsocketHeader.fromSlice (UInt8.ofNat frame.first) (UInt8.ofNat frame.second) =
      frame.header := rfl
  rw [parseWebsocketHeader, hheader]
  dsimp only
  rw [hlen, hmask, hopcode, hcompressed, hfinal, hpacked, next]
  simp only [Bool.and_eq_true, Bool.or_eq_true, decide_eq_true_eq]
  split
  next => rfl
  next =>
    by_cases hzero : frame.header.rsv = 0
    · have hclear := hrsv.mp hzero
      have hnone : ¬ (frame.rsv2 = true ∨ frame.rsv3 = true) := by
        rw [hclear.1, hclear.2]
        decide
      rw [if_neg (not_not.mpr hzero), if_neg hnone] <;>
        cases frame.opcode <;> rfl
    · have hset : frame.rsv2 = true ∨ frame.rsv3 = true := by
        by_contra hnone
        simp only [not_or, Bool.not_eq_true] at hnone
        exact hzero (hrsv.mpr hnone)
      rw [if_pos hzero, if_pos hset]

/-- The header is refused, whatever comes after it. -/
def Refused (opened : Bool) : Prop :=
  frame.opcode = .continuation ∧ opened = false ∨
  (frame.opcode = .text ∨ frame.opcode = .binary) ∧ opened = true ∨
  frame.opcode.isControl = true ∧ frame.fin = false ∨ frame.opcode.isReserved = true ∨ frame.rsv1 = true

end Frame

namespace Receiver
variable {δ : Type} {env : Env δ} {r : Receiver δ}

theorem refuses_iff (h : r.connection.deflate = none) (frame : Frame) :
    r.refuses (parseWebsocketHeader (UInt8.ofNat frame.first) (UInt8.ofNat frame.second)) ≠ none ↔
      frame.Refused (!r.isFinal) := by
  rw [frame.parse_encode, refuses, Frame.Refused, h]
  dsimp +instances only
  rw [Option.isNone_none]
  generalize frame.opcode = opcode
  generalize frame.fin = fin
  generalize frame.rsv1 = rsv1
  generalize r.isFinal = isFinal
  cases opcode <;> revert fin rsv1 isFinal <;> decide

/-- A header that is not refused opens what comes after it. -/
theorem readHeader_of_refuses_none {a b : UInt8} (h : r.refuses (parseWebsocketHeader a b) = none) :
    r.readHeader env a b = (r.begin (parseWebsocketHeader a b)).enter env
      (parseWebsocketHeader a b).next (parseWebsocketHeader a b).payloadLen := by
  unfold readHeader
  dsimp only
  rw [h]

theorem readHeader_of_refuses_some {a b : UInt8} {code : ErrorCode}
    (h : r.refuses (parseWebsocketHeader a b) = some code) :
    r.readHeader env a b = r.failed code := by
  unfold readHeader
  dsimp only
  rw [h]

theorem begin_connection (header : ParsedHeader) : (r.begin header).connection = r.connection := by
  unfold begin
  cases header.opcode <;> rfl

/-- A receiver that has failed with what comes next. -/
def FailsAs (r q : Receiver δ) : Prop :=
  q.phase = .ended ∧ ∃ code, q.connection = r.connection.fail code

theorem failsAs_failed {q : Receiver δ} (h : q.connection = r.connection) (code : ErrorCode) :
    r.FailsAs (q.failed code) := ⟨rfl, code, by rw [failed, h]⟩

end Receiver

/-- Only its MASK bit breaks the framing, and the decoder does not look at it. -/
def Frame.Slips (frame : Frame) (opened : Bool) : Prop :=
  frame.mask.isSome = true ∧ frame.opcode ≠ .text ∧ frame.opcode ≠ .binary ∧
    ¬ { frame with mask := none }.Breaks opened

instance (frame : Frame) (opened : Bool) : Decidable (frame.Slips opened) := by
  unfold Frame.Slips
  infer_instance

/-- What else breaks the framing is the length of a control frame. -/
theorem Frame.long_of_breaks {frame : Frame} {opened : Bool} (hbreaks : frame.Breaks opened)
    (hslips : ¬ frame.Slips opened) (hrefused : ¬ frame.Refused opened)
    (hdata : ¬ (frame.mask.isSome = true ∧ (frame.opcode = .text ∨ frame.opcode = .binary)))
    (hrsv : ¬ (frame.rsv2 = true ∨ frame.rsv3 = true)) :
    (frame.opcode.isControl = true ∧ frame.opcode.isReserved = false) ∧
    (maxControlPayload < WebsocketHeader.packLength frame.payload.length ∨
      frame.opcode = .close ∧ WebsocketHeader.packLength frame.payload.length = 1) := by
  have hunmasked : { frame with mask := none }.Breaks opened := by
    by_cases hmask : frame.mask.isSome = true
    · by_contra hnone
      refine hslips ⟨hmask, fun htext => hdata ⟨hmask, .inl htext⟩, fun hbinary => ?_, hnone⟩
      exact hdata ⟨hmask, .inr hbinary⟩
    · exact hbreaks.resolve_left hmask |> .inr
  simp only [Frame.Refused, not_or] at hrefused
  obtain ⟨hcontinuation, hmessage, hfragment, hreserved, hrsv1⟩ := hrefused
  have hcontrol : ∀ opcode : Opcode, opcode = .close → opcode.isControl = true := by
    rintro _ rfl
    rfl
  rw [WebsocketHeader.packLength, maxControlPayload]
  rcases hunmasked with hmask | hrsv' | hreserved' | ⟨hcontrol', hfin | hlong⟩ | hcontinuation' |
    hmessage' | ⟨hclose, hone⟩
  · exact absurd hmask Bool.false_ne_true
  · rcases hrsv' with hset | hset
    · exact absurd hset hrsv1
    · exact absurd hset hrsv
  · exact absurd hreserved' hreserved
  · exact absurd ⟨hcontrol', hfin⟩ hfragment
  · refine ⟨⟨hcontrol', Bool.eq_false_iff.mpr hreserved⟩, .inl ?_⟩
    have hlong' : 125 < frame.payload.length := hlong
    rw [if_neg (by omega)]
    split
    · decide
    · decide
  · exact absurd hcontinuation' hcontinuation
  · exact absurd hmessage' hmessage
  · have hone' : frame.payload.length = 1 := hone
    refine ⟨⟨hcontrol _ hclose, Bool.eq_false_iff.mpr hreserved⟩, .inr ⟨hclose, ?_⟩⟩
    rw [hone', if_pos (by decide)]

namespace Receiver
variable {δ : Type} {env : Env δ} {r : Receiver δ}

/-- A frame that breaks the framing fails the connection. -/
theorem failsAs_of_breaks (hphase : r.phase = .header) (hdeflate : r.connection.deflate = none)
    {frame : Frame} (hbreaks : frame.Breaks (!r.isFinal)) (hslips : ¬ frame.Slips (!r.isFinal)) :
    r.FailsAs (r.bytes env frame.encode) := by
  have hbytes : ∀ rest : Bytes, r.bytes env
      (UInt8.ofNat frame.first :: UInt8.ofNat frame.second :: rest) =
      (r.readHeader env (UInt8.ofNat frame.first) (UInt8.ofNat frame.second)).bytes env rest := by
    intro rest
    have happend : UInt8.ofNat frame.first :: UInt8.ofNat frame.second :: rest =
        [UInt8.ofNat frame.first, UInt8.ofNat frame.second] ++ rest := rfl
    rw [happend, bytes_append, bytes_header env hphase]
  have hended : ∀ q : Receiver δ, r.FailsAs q → ∀ rest, r.FailsAs (q.bytes env rest) := by
    intro q hfails rest
    rw [bytes_ended hfails.1]
    exact hfails
  rw [Frame.encode, hbytes]
  refine hended _ ?_ _
  cases hrefuses : r.refuses (parseWebsocketHeader (UInt8.ofNat frame.first) (UInt8.ofNat frame.second)) with
  | some code =>
    rw [readHeader_of_refuses_some hrefuses]
    exact failsAs_failed rfl code
  | none =>
    have hnot := mt (refuses_iff hdeflate frame).mpr (not_not.mpr hrefuses)
    have hsame := begin_connection (r := r)
      (parseWebsocketHeader (UInt8.ofNat frame.first) (UInt8.ofNat frame.second))
    rw [readHeader_of_refuses_none hrefuses]
    generalize r.begin (parseWebsocketHeader (UInt8.ofNat frame.first) (UInt8.ofNat frame.second)) = q at hsame
    rw [frame.parse_encode]
    dsimp only
    rw [Frame.next]
    split
    next => exact failsAs_failed hsame _
    next hdata =>
      split
      next => exact failsAs_failed hsame _
      next hrsv =>
        obtain ⟨hcontrol, hlong⟩ := frame.long_of_breaks hbreaks hslips hnot hdata hrsv
        cases hopcode : frame.opcode with
        | close | ping | pong =>
          rw [hopcode] at hlong
          dsimp only
          rw [enter, enterControl, if_pos hlong]
          exact failsAs_failed hsame _
        | _ =>
          rw [hopcode] at hcontrol
          exact absurd hcontrol (by decide)

/-! ## Frames in their place -/

theorem enterControl_bytes {opcode : Opcode} {payload : Bytes} (hlen : payload.length ≤ maxControlPayload)
    (hone : opcode = .close → payload.length ≠ 1) :
    (r.enterControl env opcode payload.length).bytes env payload = r.answer env opcode payload := by
  have hallowed : ¬ (maxControlPayload < payload.length ∨ opcode = .close ∧ payload.length = 1) := by
    rintro (hlong | ⟨hclose, hshort⟩)
    · exact Nat.not_lt.mpr hlen hlong
    · exact hone hclose hshort
  rw [enterControl, if_neg hallowed]
  by_cases hempty : payload = []
  · rw [hempty, if_pos List.length_nil, bytes_nil]
  · rw [if_neg (fun hzero => hempty (List.eq_nil_of_length_eq_zero hzero)),
      bytes_control rfl (by rw [List.length_nil, Nat.zero_add]) hempty, answer_phase, answer_phase]
    rfl

theorem enterBody_bytes {payload : Bytes}
    (hsmall : r.message.length + payload.length ≤ maxReceiveMessageLength) :
    (r.enterBody env payload.length).bytes env payload =
      ({ r with message := r.message ++ payload } : Receiver δ).complete env := by
  rw [enterBody]
  by_cases hempty : payload = []
  · rw [hempty, List.length_nil, List.append_nil, bytes_nil, complete]
    dsimp only
    by_cases hfinal : r.isFinal = true
    · rw [if_pos ⟨rfl, hfinal⟩, if_pos hfinal]
    · have hle : ¬ r.message.length + 0 > maxReceiveMessageLength :=
        Nat.not_lt.mpr (Nat.le_of_add_right_le hsmall)
      rw [if_neg (fun h => hfinal h.2), if_neg hle, if_pos rfl, if_neg hfinal]
  · have hpos : payload.length ≠ 0 := fun hzero => hempty (List.eq_nil_of_length_eq_zero hzero)
    rw [if_neg (fun h => hpos h.1), if_neg (Nat.not_lt.mpr hsmall), if_neg hpos,
      bytes_body rfl rfl hempty]
    rfl

/-- A data frame from its header on. -/
theorem enter_bytes {payload : Bytes}
    (hsmall : r.message.length + payload.length ≤ maxReceiveMessageLength) :
    (r.enter env
      (if payload.length ≤ 125 then .needBody
        else if payload.length ≤ 0xFFFF then .extendedPayloadLength16 else .extendedPayloadLength64)
      (WebsocketHeader.packLength payload.length)).bytes env (lengthBytes payload.length ++ payload) =
      ({ r with message := r.message ++ payload } : Receiver δ).complete env := by
  have hextended : ∀ size, 0 < size → payload.length ≠ 0 → payload.length < 256 ^ size →
      ({ r with phase := .length size [] } : Receiver δ).bytes env (beBytes size payload.length ++ payload) =
        ({ r with message := r.message ++ payload } : Receiver δ).complete env := by
    intro size hsize hpos hlt
    have hlen := beBytes_length size payload.length
    have hne : beBytes size payload.length ≠ [] := fun hnil => by
      rw [hnil] at hlen
      exact Nat.ne_of_lt hsize hlen
    rw [bytes_append, bytes_length rfl (by rw [List.length_nil, Nat.zero_add, hlen]) hne, List.nil_append,
      ofBe_beBytes hlt, if_neg hpos, enterBody_phase, enterBody_phase]
    exact enterBody_bytes hsmall
  have hmax : payload.length < 256 ^ 8 := by
    rw [maxReceiveMessageLength] at hsmall
    omega
  rw [lengthBytes, WebsocketHeader.lengthByteCount, WebsocketHeader.packLength]
  by_cases hshort : payload.length ≤ 125
  · rw [if_pos hshort, if_pos hshort, if_pos hshort]
    exact enterBody_bytes hsmall
  · rw [if_neg hshort, if_neg hshort, if_neg hshort]
    by_cases hmiddle : payload.length ≤ 0xFFFF
    · rw [if_pos hmiddle, if_pos hmiddle, if_pos hmiddle]
      exact hextended 2 (by decide) (by omega) (by omega)
    · rw [if_neg hmiddle, if_neg hmiddle, if_neg hmiddle]
      exact hextended 8 (by decide) (by omega) hmax

end Receiver

/-! ## What is seen of a reception -/

/-- The pong that answers a ping. -/
def pongFrame (key payload : Bytes) : Frame where
  fin := true
  rsv1 := false
  rsv2 := false
  rsv3 := false
  opcode := .pong
  mask := some key
  payload

/-- A ping is answered, with a key of zeros where it is empty. -/
def Delivery.seen {δ : Type} (env : Env δ) (masks : Nat) : Delivery → List Event
  | .message kind data => [.message kind data]
  | .ping payload =>
    [.message .ping payload,
      .frame (pongFrame (if payload ≠ [] then env.entropy masks else [0, 0, 0, 0]) payload).encode]
  | .pong payload => [.message .pong payload]

/-- Keys that are used up. -/
def Delivery.keys : Delivery → Nat
  | .ping payload => if payload ≠ [] then 1 else 0
  | _ => 0

def seen {δ : Type} (env : Env δ) : Nat → List Delivery → List Event
  | _, [] => []
  | masks, delivery :: deliveries =>
    delivery.seen env masks ++ seen env (masks + delivery.keys) deliveries

def keys (deliveries : List Delivery) : Nat := (deliveries.map Delivery.keys).sum

theorem seen_append {δ : Type} (env : Env δ) (deliveries : List Delivery) (delivery : Delivery) :
    ∀ masks, seen env masks (deliveries ++ [delivery]) =
      seen env masks deliveries ++ delivery.seen env (masks + keys deliveries) := by
  induction deliveries with
  | nil => exact fun masks => List.append_nil _
  | cons head deliveries ih =>
    intro masks
    have hkeys : masks + keys (head :: deliveries) = masks + head.keys + keys deliveries := by
      rw [keys, List.map_cons, List.sum_cons, Nat.add_assoc]
      rfl
    rw [List.cons_append, seen, seen, ih, List.append_assoc, hkeys]

theorem keys_append (deliveries : List Delivery) (delivery : Delivery) :
    keys (deliveries ++ [delivery]) = keys deliveries + delivery.keys := by
  rw [keys, List.map_append, List.sum_append]
  rfl

/-- The events of a reception: what is delivered with the answers to pings, and after that, at a
frame that breaks the framing, that the connection has failed.  A close frame has an answer. -/
def Shows {δ : Type} (env : Env δ) (c : Connection δ) (s : Reception) (events : List Event) : Prop :=
  match s.ending with
  | none => events = c.events ++ seen env c.masks s.delivered
  | some .broken => ∃ code, events = c.events ++ seen env c.masks s.delivered ++ [.abruptClose code]
  | some .closed => ∃ answer, events = c.events ++ seen env c.masks s.delivered ++ answer ∧
      ∀ kind data, .message kind data ∉ answer

namespace Connection
variable {δ : Type} {env : Env δ} {c : Connection δ}

theorem events_fail (houtgoing : c.outgoing = true) (code : ErrorCode) :
    (c.fail code).events = c.events ++ [.abruptClose code] := by
  have hcancel : ∀ d : Connection δ, d.outgoing = false → d.cancel.events = d.events := by
    intro d hout
    have hclose : d.clearData.closeTcp.events = d.events ∧ d.clearData.closeTcp.outgoing = false := by
      rw [closeTcp]
      split
      · exact ⟨rfl, hout⟩
      · simp only [handleClose, clearData, dispatchAbruptClose, hout]
        exact ⟨rfl, rfl⟩
    rw [cancel]
    split
    · rw [dispatchAbruptClose, if_neg (by rw [hclose.2]; decide), hclose.1]
    · exact hclose.1
  rw [fail, if_pos houtgoing, hcancel _ (by rfl)]
  rfl

/-- The bytes of a pong are those of its frame. -/
theorem sendPong_bytes {payload : Bytes} (hlen : payload.length ≤ maxControlPayload) (key : Bytes) :
    (WebsocketHeader.new (payload.length % 2 ^ 7) true .pong).slice ++ key ++ maskBytes key payload =
      (pongFrame key payload).encode := by
  obtain ⟨hshort, hpacked⟩ := short_length hlen
  rw [maxControlPayload] at hlen
  have hbits : (WebsocketHeader.new (payload.length % 2 ^ 7) true .pong).bits =
      138 * 256 + (128 + payload.length) := by
    change payload.length % 2 ^ 7 % 2 ^ 7 + 1 * 2 ^ 7 + 10 * 2 ^ 8 + 2 ^ 15 = _
    omega
  have hsecond : (pongFrame key payload).second = 128 + payload.length := by
    change 1 * 128 + WebsocketHeader.packLength payload.length = _
    rw [hpacked]
  have hhigh : (138 * 256 + (128 + payload.length)) / 256 = 138 := by omega
  have hlow : UInt8.ofNat (138 * 256 + (128 + payload.length)) = UInt8.ofNat (128 + payload.length) := by
    refine UInt8.toNat.inj ?_
    rw [UInt8.toNat_ofNat', UInt8.toNat_ofNat', Nat.mul_add_mod_self_right]
  have hpayload : (pongFrame key payload).payload = payload := rfl
  rw [WebsocketHeader.slice, hbits, hhigh, hlow, Frame.encode, hsecond, hpayload, hshort, List.nil_append]
  rfl

/-- A ping is answered. -/
theorem sendPong_spec (henv : env.Takes) (halive : c.Alive) (htcp : c.hasTcp = true) {payload : Bytes}
    (hlen : payload.length ≤ maxControlPayload) :
    (c.sendPong env payload).Alive ∧ (c.sendPong env payload).hasTcp = true ∧
      (c.sendPong env payload).deflate = c.deflate ∧
      (c.sendPong env payload).masks = c.masks + (Delivery.ping payload).keys ∧
      (c.sendPong env payload).events = c.events ++
        [.frame (pongFrame (if payload ≠ [] then env.entropy c.masks else [0, 0, 0, 0]) payload).encode] := by
  have hposted : ∀ (key : Bytes) (d : Connection δ), d.Alive → d.hasTcp = true → d.deflate = c.deflate →
      d.masks = c.masks + (Delivery.ping payload).keys → d.events = c.events →
      ∃ after, (d.enqueueEncodedBytes env (pongFrame key payload).encode).2 = after ∧ after.Alive ∧
        after.hasTcp = true ∧ after.deflate = c.deflate ∧
        after.masks = c.masks + (Delivery.ping payload).keys ∧
        after.events = c.events ++ [Event.frame (pongFrame key payload).encode] := by
    intro key d hd hdtcp hdeflate hmasks hevents
    obtain ⟨after, henqueue, hsteady, -⟩ :=
      enqueueEncodedBytes_steady henv hdtcp (pongFrame key payload).encode
    refine ⟨after, congrArg Prod.snd henqueue, ⟨hsteady.outgoing.trans hd.outgoing,
      hsteady.pending.trans hd.pending⟩, hsteady.hasTcp.trans hdtcp, hsteady.deflate.trans hdeflate,
      hsteady.masks.trans hmasks, ?_⟩
    rw [hsteady.events, ← hevents]
    rfl
  rw [sendPong, if_neg (by rw [htcp]; decide)]
  by_cases hempty : payload ≠ []
  · rw [if_pos hempty, if_pos hempty]
    dsimp only
    rw [sendPong_bytes hlen]
    obtain ⟨after, henqueue, hafter⟩ := hposted (env.entropy c.masks) { c with masks := c.masks + 1 }
      ⟨halive.outgoing, halive.pending⟩ htcp rfl (by rw [Delivery.keys, if_pos hempty]) rfl
    rw [generateMask, henqueue]
    exact hafter
  · rw [if_neg hempty, if_neg hempty]
    dsimp only
    rw [sendPong_bytes hlen]
    obtain ⟨after, henqueue, hafter⟩ := hposted [0, 0, 0, 0] c halive htcp rfl
      (by rw [Delivery.keys, if_neg hempty]; rfl) rfl
    rw [henqueue]
    exact hafter

theorem sendCloseWithBody_events (henv : env.Takes) (halive : c.Alive) (htcp : c.hasTcp = true)
    (code : Nat) (dispatchCode : Option Nat) (body : Bytes) :
    ∃ answer, (c.sendCloseWithBody env code dispatchCode body).events = c.events ++ answer ∧
      ∀ kind data, .message kind data ∉ answer := by
  rw [sendCloseWithBody]
  dsimp only
  rw [hasPendingCloseDispatch, halive.pending, if_neg (by decide), if_neg (by rw [htcp]; decide)]
  split
  next => exact ⟨_, events_fail halive.outgoing _, fun kind data => by simp⟩
  next =>
    have htcp' : (c.generateMask env).2.hasTcp = true := htcp
    generalize (WebsocketHeader.new (((body.take maxCloseReason).length + 2) % 2 ^ 7) true .close).slice ++
      (c.generateMask env).1 ++
      maskBytes (c.generateMask env).1 (beBytes 2 code ++ body.take maxCloseReason) = bytes
    obtain ⟨after, henqueue, hsteady, -⟩ := enqueueEncodedBytes_steady henv htcp' bytes
    have hout : after.outgoing = true := hsteady.outgoing.trans halive.outgoing
    have hevents : after.events = c.events ++ [Event.frame bytes] := hsteady.events
    rw [henqueue]
    dsimp only
    split
    next =>
      have hshutdown : after.shutdownAfterCloseFrame.clearData.outgoing = true ∧
          after.shutdownAfterCloseFrame.clearData.events = after.events := by
        rw [shutdownAfterCloseFrame]
        split
        · exact ⟨hout, rfl⟩
        · exact ⟨hout, rfl⟩
      refine ⟨[.frame bytes, .closed (dispatchCode.getD code) (body.take maxCloseReason)], ?_,
        fun kind data => by simp⟩
      rw [dispatchClose, if_pos hshutdown.1]
      change after.shutdownAfterCloseFrame.clearData.events ++ [_] = _
      rw [hshutdown.2, hevents, List.append_assoc, List.singleton_append]
    next => exact ⟨[.frame bytes], hevents, fun kind data => by simp⟩

/-- The answer to a close frame delivers nothing. -/
theorem answerClose_events (henv : env.Takes) (halive : c.Alive) (htcp : c.hasTcp = true)
    (payload : Bytes) : ∃ answer, (c.answerClose env payload).events = c.events ++ answer ∧
      ∀ kind data, .message kind data ∉ answer := by
  rw [answerClose]
  split
  · exact sendCloseWithBody_events henv halive htcp _ _ _
  · exact sendCloseWithBody_events henv halive htcp _ _ _

end Connection

/-! ## A receiver of frames -/

/-- The message that the frame is part of stays within the limit. -/
def Frame.Fits (frame : Frame) (s : Reception) : Prop :=
  ¬ frame.Breaks s.opened.isSome → frame.opcode.isControl = false →
    (s.opened.elim 0 fun opened => opened.2.length) + frame.payload.length ≤ maxReceiveMessageLength

instance (frame : Frame) (s : Reception) : Decidable (frame.Fits s) := by
  unfold Frame.Fits
  infer_instance

namespace Receiver
variable {δ : Type} {env : Env δ} {c : Connection δ} {s : Reception} {r : Receiver δ}

/-- Between frames. -/
structure Open (env : Env δ) (c : Connection δ) (s : Reception) (r : Receiver δ) : Prop where
  ending : s.ending = none
  phase : r.phase = .header
  alive : r.connection.Alive
  hasTcp : r.connection.hasTcp = true
  deflate : r.connection.deflate = none
  compressed : r.receivingCompressed = false
  messageCompressed : r.messageIsCompressed = false
  opened : s.opened = if r.isFinal then none else some (r.kind, r.message)
  message : r.isFinal = true → r.message = []
  kind : r.isFinal = false → r.kind = .text ∨ r.kind = .binary
  events : r.connection.events = c.events ++ seen env c.masks s.delivered
  masks : r.connection.masks = c.masks + keys s.delivered

/-- Where a receiver is after whole frames. -/
def At (env : Env δ) (c : Connection δ) (s : Reception) (r : Receiver δ) : Prop :=
  Open env c s r ∨ r.phase = .ended ∧ s.ending ≠ none ∧ Shows env c s r.connection.events

/-- Something is delivered. -/
theorem Open.deliver (h : Open env c s r) {connection : Connection δ} {delivery : Delivery}
    (halive : connection.Alive) (htcp : connection.hasTcp = true) (hdeflate : connection.deflate = none)
    (hmasks : connection.masks = r.connection.masks + delivery.keys)
    (hevents : connection.events = r.connection.events ++ delivery.seen env r.connection.masks) :
    Open env c (s.deliver delivery) (r.settle connection) := by
  have hsettle : r.settle connection = { r with connection, phase := .header } := by
    rw [settle, halive.outgoing]
    rfl
  rw [hsettle]
  refine { h with phase := rfl, alive := halive, hasTcp := htcp, deflate := hdeflate, events := ?_, masks := ?_ }
  · change connection.events = _ ++ seen env _ (s.delivered ++ [delivery])
    rw [hevents, h.events, h.masks, seen_append, List.append_assoc]
  · change connection.masks = _ + keys (s.delivered ++ [delivery])
    rw [hmasks, h.masks, keys_append, Nat.add_assoc]

/-- A data frame, complete. -/
theorem Open.complete (h : Open env c s r) {kind : Opcode} (hkind : kind = .text ∨ kind = .binary)
    (data : Bytes) (fin : Bool)
    (hvalid : fin = true → kind = .text → env.isValidUtf8 data = true) :
    Open env c (s.fragment kind data fin)
      (({ r with kind, isFinal := fin, message := data } : Receiver δ).complete env) := by
  rw [Receiver.complete]
  cases fin with
  | true =>
    rw [if_pos rfl, Receiver.deliver]
    dsimp only
    rw [h.compressed]
    have hdispatch : r.connection.dispatchMessage env false data kind =
        r.connection.log (.message kind data) := by
      change r.connection.dispatchData env data kind = _
      unfold Connection.dispatchData
      rw [h.alive.outgoing]
      rcases hkind with rfl | rfl
      · dsimp only
        rw [hvalid rfl rfl]
        rfl
      · rfl
    rw [hdispatch]
    have hclean : Open env c { s with opened := none }
        ({ r with
          kind
          isFinal := true
          message := []
          receivingCompressed := false
          messageIsCompressed := false } : Receiver δ) :=
      { h with
        compressed := rfl
        messageCompressed := rfl
        opened := rfl
        message := fun _ => rfl
        kind := fun hfinal => Bool.noConfusion hfinal }
    have halive : (r.connection.log (.message kind data)).Alive := ⟨h.alive.outgoing, h.alive.pending⟩
    have hevents : (r.connection.log (.message kind data)).events =
        r.connection.events ++ (Delivery.message kind data).seen env r.connection.masks := rfl
    exact hclean.deliver halive h.hasTcp h.deflate rfl hevents
  | false =>
    rw [if_neg Bool.false_ne_true]
    exact { h with
      phase := rfl
      opened := rfl
      message := fun hfinal => Bool.noConfusion hfinal
      kind := fun _ => hkind }

/-- What the reception asks of a frame that is to be received: where it may slip past the decoder,
how long a message gets, and what is valid text. -/
structure Allowed (env : Env δ) (s : Reception) (frame : Frame) : Prop where
  slips : ¬ frame.Slips s.opened.isSome
  small : frame.Fits s
  valid : ∀ data, .message .text data ∈ (s.accept frame).delivered → env.isValidUtf8 data = true

theorem Open.opened_isSome (h : Open env c s r) : s.opened.isSome = !r.isFinal := by
  rw [h.opened]
  cases r.isFinal <;> rfl

/-- The header of a frame in its place, and what comes after it. -/
theorem bytes_encode (hphase : r.phase = .header) (hdeflate : r.connection.deflate = none) {frame : Frame}
    (hbreaks : ¬ frame.Breaks (!r.isFinal)) :
    r.bytes env frame.encode =
      ((r.begin
          { opcode := frame.opcode
            payloadLen := WebsocketHeader.packLength frame.payload.length
            isFragmented := frame.opcode = .continuation || !frame.fin
            isFinal := frame.fin
            compressed := false
            next := frame.next }).enter env frame.next
        (WebsocketHeader.packLength frame.payload.length)).bytes env
        (lengthBytes frame.payload.length ++ frame.payload) := by
  have hrefuses : r.refuses
      (parseWebsocketHeader (UInt8.ofNat frame.first) (UInt8.ofNat frame.second)) = none := by
    by_contra hsome
    have hrefused := (refuses_iff hdeflate frame).mp hsome
    refine hbreaks ?_
    rcases hrefused with hcontinuation | hmessage | hfragment | hreserved | hrsv1
    · exact .inr (.inr (.inr (.inr (.inl hcontinuation))))
    · exact .inr (.inr (.inr (.inr (.inr (.inl hmessage)))))
    · exact .inr (.inr (.inr (.inl ⟨hfragment.1, .inl hfragment.2⟩)))
    · exact .inr (.inr (.inl hreserved))
    · exact .inr (.inl (.inl hrsv1))
  simp only [Frame.Breaks, not_or] at hbreaks
  obtain ⟨hmask, ⟨hrsv1, -, -⟩, -⟩ := hbreaks
  have hbody : frame.body = frame.payload := by
    rw [Frame.body]
    cases hkey : frame.mask with
    | none => rfl
    | some key =>
      rw [hkey] at hmask
      exact absurd rfl hmask
  have happend : frame.encode = [UInt8.ofNat frame.first, UInt8.ofNat frame.second] ++
      (lengthBytes frame.payload.length ++ frame.body) := rfl
  rw [happend, bytes_append, bytes_header env hphase, readHeader_of_refuses_none hrefuses,
    frame.parse_encode, hbody, Bool.eq_false_iff.mpr hrsv1]

/-- What comes next of a frame in its place. -/
theorem next_of_not_breaks {frame : Frame} {opened : Bool} (hbreaks : ¬ frame.Breaks opened) :
    frame.next =
      match frame.opcode with
      | .text | .continuation | .binary =>
        if frame.payload.length ≤ 125 then .needBody
        else if frame.payload.length ≤ 0xFFFF then .extendedPayloadLength16
        else .extendedPayloadLength64
      | .close => .close
      | .ping => .ping
      | .pong => .pong
      | _ => .fail := by
  simp only [Frame.Breaks, not_or] at hbreaks
  obtain ⟨hmask, ⟨-, hrsv2, hrsv3⟩, -⟩ := hbreaks
  rw [Frame.next, if_neg (fun h => hmask h.1), if_neg (not_or.mpr ⟨hrsv2, hrsv3⟩)]

/-- A control frame in its place is answered. -/
theorem bytes_control_frame (hphase : r.phase = .header) (hdeflate : r.connection.deflate = none)
    {frame : Frame} (hbreaks : ¬ frame.Breaks (!r.isFinal))
    (hopcode : frame.opcode = .close ∨ frame.opcode = .ping ∨ frame.opcode = .pong) :
    r.bytes env frame.encode = r.answer env frame.opcode frame.payload ∧
      frame.payload.length ≤ maxControlPayload := by
  have hnext := next_of_not_breaks hbreaks
  have hcontrol : frame.opcode.isControl = true := by
    rcases hopcode with hopcode | hopcode | hopcode <;> rw [hopcode] <;> rfl
  have hlen : frame.payload.length ≤ maxControlPayload := by
    refine Nat.not_lt.mp fun hlong => hbreaks ?_
    exact .inr (.inr (.inr (.inl ⟨hcontrol, .inr hlong⟩)))
  have hone : frame.opcode = .close → frame.payload.length ≠ 1 := fun hclose hone =>
    hbreaks (.inr (.inr (.inr (.inr (.inr (.inr ⟨hclose, hone⟩))))))
  obtain ⟨hshort, hpacked⟩ := short_length hlen
  refine ⟨?_, hlen⟩
  rw [bytes_encode hphase hdeflate hbreaks, hnext, hshort, hpacked, List.nil_append,
    ← enterControl_bytes hlen hone]
  rcases hopcode with hopcode | hopcode | hopcode <;> rw [hopcode] <;> rfl

/-- And a data frame is added to its message. -/
theorem bytes_data_frame (hphase : r.phase = .header) (hdeflate : r.connection.deflate = none)
    {frame : Frame} (hbreaks : ¬ frame.Breaks (!r.isFinal)) {q : Receiver δ}
    (hopcode : frame.opcode = .continuation ∨ frame.opcode = .text ∨ frame.opcode = .binary)
    (hbegin : r.begin
      { opcode := frame.opcode
        payloadLen := WebsocketHeader.packLength frame.payload.length
        isFragmented := frame.opcode = .continuation || !frame.fin
        isFinal := frame.fin
        compressed := false
        next := frame.next } = q)
    (hsmall : q.message.length + frame.payload.length ≤ maxReceiveMessageLength) :
    r.bytes env frame.encode =
      ({ q with message := q.message ++ frame.payload } : Receiver δ).complete env := by
  have hnext := next_of_not_breaks hbreaks
  rw [bytes_encode hphase hdeflate hbreaks, hbegin, ← enter_bytes hsmall, hnext]
  rcases hopcode with hopcode | hopcode | hopcode <;> rw [hopcode]

/-- One whole frame. -/
theorem Open.bytes_encode (h : Open env c s r) (henv : env.Takes) {frame : Frame}
    (hallowed : Allowed env s frame) : At env c (s.accept frame) (r.bytes env frame.encode) := by
  have hopened := h.opened_isSome
  by_cases hbreaks : frame.Breaks s.opened.isSome
  · have hslips := hallowed.slips
    rw [Reception.accept_of_breaks h.ending hbreaks]
    rw [hopened] at hbreaks hslips
    obtain ⟨hended, code, hconnection⟩ := failsAs_of_breaks h.phase h.deflate hbreaks hslips
    refine .inr ⟨hended, Option.some_ne_none _, code, ?_⟩
    rw [hconnection, Connection.events_fail h.alive.outgoing, h.events]
  · have hsmall := hallowed.small hbreaks
    have hvalid := hallowed.valid
    have hbreaks' : ¬ frame.Breaks (!r.isFinal) := hopened ▸ hbreaks
    rcases Reception.accept_of_not_breaks h.ending hbreaks with ⟨hopcode, haccept⟩ | ⟨hopcode, haccept⟩ |
      ⟨hopcode, haccept⟩ | ⟨kind, data, hopcode, hsome, haccept⟩ | ⟨hopcode, hnone, haccept⟩
    · obtain ⟨hbytes, -⟩ := bytes_control_frame h.phase h.deflate hbreaks' (.inl hopcode)
      obtain ⟨answer, hevents, hsilent⟩ :=
        Connection.answerClose_events henv h.alive h.hasTcp frame.payload
      rw [haccept, hbytes, hopcode]
      refine .inr ⟨rfl, Option.some_ne_none _, answer, ?_, hsilent⟩
      rw [← h.events, ← hevents]
      rfl
    · obtain ⟨hbytes, hlen⟩ := bytes_control_frame h.phase h.deflate hbreaks' (.inr (.inl hopcode))
      have hlogged : (r.connection.log (.message .ping frame.payload)).Alive :=
        ⟨h.alive.outgoing, h.alive.pending⟩
      obtain ⟨halive, htcp, hdeflate, hmasks, hevents⟩ :=
        Connection.sendPong_spec henv hlogged h.hasTcp hlen
      rw [haccept, hbytes, hopcode, answer,
        Client.dispatchData_control h.alive.outgoing frame.payload (.inl rfl)]
      refine .inl (h.deliver halive htcp (hdeflate.trans h.deflate) hmasks ?_)
      rw [hevents]
      exact List.append_assoc _ _ _
    · obtain ⟨hbytes, -⟩ := bytes_control_frame h.phase h.deflate hbreaks' (.inr (.inr hopcode))
      have hanswer : r.answer env .pong frame.payload =
          r.settle (r.connection.dispatchData env frame.payload .pong) := rfl
      have hevents : (r.connection.log (.message .pong frame.payload)).events =
          r.connection.events ++ (Delivery.pong frame.payload).seen env r.connection.masks := rfl
      rw [haccept, hbytes, hopcode, hanswer,
        Client.dispatchData_control h.alive.outgoing frame.payload (.inr rfl)]
      exact .inl (h.deliver ⟨h.alive.outgoing, h.alive.pending⟩ h.hasTcp h.deflate rfl hevents)
    · -- a fragment of the message that is open
      have hnotFinal : r.isFinal = false := by
        rw [hsome] at hopened
        exact (Bool.not_eq_true' _).mp hopened.symm
      have hmessage : some (kind, data) = some (r.kind, r.message) := by
        rw [← hsome, h.opened, hnotFinal]
        rfl
      obtain ⟨rfl, rfl⟩ := Prod.mk.inj (Option.some.inj hmessage)
      rw [hsome, hopcode] at hsmall
      have hbegin : r.begin
          { opcode := frame.opcode
            payloadLen := WebsocketHeader.packLength frame.payload.length
            isFragmented := frame.opcode = .continuation || !frame.fin
            isFinal := frame.fin
            compressed := false
            next := frame.next } = { r with isFinal := frame.fin } := by
        have hsame : r.receivingCompressed = r.messageIsCompressed :=
          h.compressed.trans h.messageCompressed.symm
        have hclear : ({ r with isFinal := frame.fin } : Receiver δ) =
            { r with isFinal := frame.fin, receivingCompressed := r.messageIsCompressed } := by
          rw [← hsame]
        rw [hclear, hopcode]
        rfl
      have hbytes := @bytes_data_frame _ env _ h.phase h.deflate _ hbreaks' _ (.inl hopcode)
        hbegin (hsmall rfl)
      rw [haccept, hbytes]
      have hcomplete := h.complete (h.kind hnotFinal) (r.message ++ frame.payload) frame.fin fun hfin htext => by
        refine hvalid _ ?_
        rw [haccept, hfin, htext]
        exact List.mem_append_right _ (List.mem_singleton_self _)
      exact .inl hcomplete
    · -- a message, or the first fragment of one
      have hfinal : r.isFinal = true := by
        rw [hnone] at hopened
        exact (Bool.not_eq_false' _).mp hopened.symm
      have hcontrol : frame.opcode.isControl = false := by
        rcases hopcode with hopcode | hopcode <;> rw [hopcode] <;> rfl
      have hbegin : r.begin
          { opcode := frame.opcode
            payloadLen := WebsocketHeader.packLength frame.payload.length
            isFragmented := frame.opcode = .continuation || !frame.fin
            isFinal := frame.fin
            compressed := false
            next := frame.next } = { r with kind := frame.opcode, isFinal := frame.fin } := by
        have hclear : ({ r with kind := frame.opcode, isFinal := frame.fin } : Receiver δ) =
            { r with
              kind := frame.opcode
              isFinal := frame.fin
              messageIsCompressed := false
              receivingCompressed := false } := by
          rw [← h.compressed, h.messageCompressed, h.compressed]
        rw [hclear]
        rcases hopcode with hopcode | hopcode <;> rw [hopcode] <;> rfl
      have hempty := h.message hfinal
      have hsmall' := hsmall hcontrol
      rw [hnone] at hsmall'
      have hbytes := @bytes_data_frame _ env _ h.phase h.deflate _ hbreaks' _ (.inr hopcode)
        hbegin (by rw [hempty]; exact hsmall')
      have hcomplete := h.complete hopcode frame.payload frame.fin fun hfin htext => by
        refine hvalid _ ?_
        rw [haccept, hfin, htext]
        exact List.mem_append_right _ (List.mem_singleton_self _)
      rw [haccept, hbytes]
      change At env c _ (({ r with
        kind := frame.opcode
        isFinal := frame.fin
        message := r.message ++ frame.payload } : Receiver δ).complete env)
      rw [hempty, List.nil_append]
      exact .inl hcomplete

/-- Nothing comes after the end. -/
theorem At.bytes_encode (h : At env c s r) (henv : env.Takes) {frame : Frame}
    (hallowed : s.ending = none → Allowed env s frame) :
    At env c (s.accept frame) (r.bytes env frame.encode) := by
  rcases h with h | ⟨hended, hending, hshows⟩
  · exact h.bytes_encode henv (hallowed h.ending)
  · rw [Reception.accept_of_ending hending, bytes_ended hended]
    exact .inr ⟨hended, hending, hshows⟩

end Receiver

/-! ## A client of whole frames -/

namespace Client
variable {δ : Type} {env : Env δ} {connection : Connection δ}

/-- Between frames no close frame has been cut. -/
theorem Stands.not_cutInClose {c : Client δ} {r : Receiver δ} (h : c.Stands env r)
    (hphase : r.phase = .header ∨ r.phase = .ended) : ¬ c.CutInClose := by
  rintro ⟨houtgoing, hopen, hstate, hstarted, -⟩
  rcases h.cases with hfollows | ⟨hclosed, -⟩
  · cases hfollows with
    | dead hdead _ _ =>
      rw [hdead.outgoing] at houtgoing
      exact absurd houtgoing Bool.false_ne_true
    | live _ hview =>
      have hclose : (c.cursor []).state = .close := hstate
      rw [view, hclose] at hview
      dsimp only at hview
      rw [viewControl, if_pos hstarted] at hview
      rw [← hview] at hphase
      exact hphase.elim Phase.noConfusion Phase.noConfusion
  · rw [hopen] at hclosed
    exact absurd hclosed Bool.false_ne_true

theorem handleReads_frames (henv : env.Takes) {frames : List Frame} : ∀ {c : Client δ} {r : Receiver δ}
    {s : Reception}, c.Stands env r → Receiver.At env connection s r →
    (∀ data, .message .text data ∈ (frames.foldl Reception.accept s).delivered →
      env.isValidUtf8 data = true) →
    s.Along (fun s frame => frame.Fits s) frames →
    s.Along (fun s frame => ¬ frame.Slips s.opened.isSome) frames →
    ∃ c' r', c.handleReads env (frames.map Frame.encode) = some c' ∧ c'.Stands env r' ∧
      Receiver.At env connection (frames.foldl Reception.accept s) r' := by
  induction frames with
  | nil => exact fun hstands hat _ _ _ => ⟨_, _, rfl, hstands, hat⟩
  | cons frame frames ih =>
    intro c r s hstands hat hvalid hfits hslips
    have hphase : r.phase = .header ∨ r.phase = .ended :=
      hat.imp (fun h => h.phase) (fun h => h.1)
    have hne : frame.encode ≠ [] := List.cons_ne_nil _ _
    obtain ⟨c₁, hread, hstands₁⟩ := hstands.handleData hne (hstands.not_cutInClose hphase)
    have hat₁ := hat.bytes_encode henv fun hending => {
      slips := hslips.1 hending
      small := hfits.1 hending
      valid := fun data hmem =>
        hvalid data ((Reception.foldl_delivered frames (s.accept frame)).subset hmem) }
    obtain ⟨c₂, r₂, hreads, hstands₂, hat₂⟩ := ih hstands₁ hat₁ hvalid hfits.2 hslips.2
    refine ⟨c₂, r₂, ?_, hstands₂, hat₂⟩
    rw [List.map_cons, handleReads, hread]
    exact hreads

/-- A client on a connection without compression delivers what the framing says, and nothing after
its end. -/
theorem accepts_frames (henv : env.Takes) (halive : connection.Alive) (htcp : connection.hasTcp = true)
    (hdeflate : connection.deflate = none) {frames : List Frame}
    (hvalid : ∀ data, .message .text data ∈ (Reception.receive frames).delivered →
      env.isValidUtf8 data = true)
    (hfits : Reception.Along (fun s frame => frame.Fits s) {} frames)
    (hslips : Reception.Along (fun s frame => ¬ frame.Slips s.opened.isSome) {} frames) :
    ∃ c, (fresh connection).handleReads env (frames.map Frame.encode) = some c ∧
      Shows env connection (Reception.receive frames) c.connection.events := by
  have hopen : Receiver.At env connection {} { connection } := .inl
    { ending := rfl
      phase := rfl
      alive := halive
      hasTcp := htcp
      deflate := hdeflate
      compressed := rfl
      messageCompressed := rfl
      opened := rfl
      message := fun _ => rfl
      kind := fun hfinal => Bool.noConfusion hfinal
      events := (List.append_nil _).symm
      masks := rfl }
  obtain ⟨c, r, hreads, hstands, hat⟩ :=
    handleReads_frames henv (stands_fresh halive) hopen hvalid hfits hslips
  refine ⟨c, hreads, ?_⟩
  rw [hstands.silent.events]
  rcases hat with h | ⟨-, -, hshows⟩
  · rw [Shows, Reception.receive, h.ending]
    exact h.events
  · exact hshows

theorem freely_takes : freely.Takes := fun _ => Option.some_ne_none _

/-- A message in two fragments with a ping between them, and a reserved opcode. -/
theorem accepts_frames_reserved : ∃ c, (fresh {}).handleReads freely
      [[0x01, 1, 0x48], [0x89, 1, 7], [0x80, 1, 0x69], [0x83, 0]] = some c ∧
    ∃ code, c.connection.events =
      [.message .ping [7], .frame [0x8A, 0x81, 1, 2, 3, 4, 6], .message .text [0x48, 0x69],
        .abruptClose code] :=
  @accepts_frames _ _ _ freely_takes ⟨rfl, rfl⟩ rfl rfl
    [⟨false, false, false, false, .text, none, [0x48]⟩,
      ⟨true, false, false, false, .ping, none, [7]⟩,
      ⟨true, false, false, false, .continuation, none, [0x69]⟩,
      ⟨true, false, false, false, .res3, none, []⟩] (fun _ _ => rfl) (by decide) (by decide)

/-- A ping with its MASK bit set is answered like one without. -/
theorem not_accepts_masked : ¬ ∀ frames : List Frame,
    Reception.Along (fun s frame => frame.Fits s) {} frames →
    ∃ c, (fresh {}).handleReads freely (frames.map Frame.encode) = some c ∧
      Shows freely {} (Reception.receive frames) c.connection.events := by
  intro hall
  obtain ⟨c, hrun, code, hshows⟩ :=
    hall [⟨true, false, false, false, .ping, some [1, 2, 3, 4], [7]⟩] (by decide)
  have hevents : ((fresh {}).handleReads freely [[0x89, 0x81, 1, 2, 3, 4, 6]]).map
      (fun c => c.connection.events) =
      some [.message .ping [1], .frame [0x8A, 0x81, 1, 2, 3, 4, 0]] := by decide
  have hsame : some c.connection.events =
      some [.message .ping [1], .frame [0x8A, 0x81, 1, 2, 3, 4, 0]] := by
    rw [← hevents]
    exact (congrArg (Option.map fun c => c.connection.events) hrun).symm
  rw [hshows] at hsame
  have hone : 1 = 2 := congrArg List.length (Option.some.inj hsame)
  exact absurd hone (by decide)

end Client

end OhosBun.WebSocket
