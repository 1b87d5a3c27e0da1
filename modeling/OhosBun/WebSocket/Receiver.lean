/-
# `OhosBun.WebSocket.Receiver` — a stream of frames, byte by byte

What a client makes of its input, with no reads in it: a receiver takes one byte at a time and
knows where in a frame it is (`Phase`).  A message is gathered in `message` whether or not it
comes in one piece, and a header that fails the connection does so with its second byte.

What is sent, and how script is called, is as in `Connection`.
-/
import OhosBun.WebSocket.Client

namespace OhosBun.WebSocket

open OhosBun.Lib

/-- `length` has bytes of an extended length, `control` of a control payload.  A receiver that
has `ended` takes no notice of more. -/
inductive Phase
  | header
  | second (a : UInt8)
  | length (size : Nat) (got : Bytes)
  | body (remain : Nat)
  | control (opcode : Opcode) (len : Nat) (got : Bytes)
  | ended
deriving DecidableEq

structure Receiver (δ : Type) where
  connection : Connection δ
  phase : Phase := .header
  kind : Opcode := .resB
  /-- Whether no message is open. -/
  isFinal : Bool := true
  message : Bytes := []
  receivingCompressed : Bool := false
  messageIsCompressed : Bool := false

namespace Connection
variable {δ : Type} (env : Env δ) (c : Connection δ)

def dispatchMessage (compressed : Bool) (data : Bytes) (kind : Opcode) : Connection δ :=
  if compressed then c.dispatchCompressedData env data kind else c.dispatchData env data kind

/-- A close frame is answered with its code, or with a normal closure. -/
def answerClose (payload : Bytes) : Connection δ :=
  if 2 ≤ payload.length then
    let (echoCode, dispatchCode) := receivedCloseCodes (ofBe (payload.take 2))
    c.sendCloseWithBody env echoCode (some dispatchCode) (payload.drop 2)
  else c.sendClose env

end Connection

namespace Receiver
variable {δ : Type} (env : Env δ) (r : Receiver δ)

def failed (code : ErrorCode) : Receiver δ :=
  { r with connection := r.connection.fail code, phase := .ended }

/-- Between frames, unless the connection has failed. -/
def settle (connection : Connection δ) : Receiver δ :=
  { r with connection, phase := if connection.outgoing then .header else .ended }

/-- The message is complete. -/
def deliver : Receiver δ :=
  { r with message := [], receivingCompressed := false, messageIsCompressed := false }.settle
    (r.connection.dispatchMessage env r.receivingCompressed r.message r.kind)

/-- The last byte of a data frame. -/
def complete : Receiver δ := if r.isFinal then r.deliver env else { r with phase := .header }

def enterBody (len : Nat) : Receiver δ :=
  if len = 0 ∧ r.isFinal then r.deliver env
  else if r.message.length + len > maxReceiveMessageLength then r.failed .messageTooBig
  else if len = 0 then { r with phase := .header }
  else { r with phase := .body len }

/-- A control frame is complete. -/
def answer (opcode : Opcode) (payload : Bytes) : Receiver δ :=
  match opcode with
  | .close => { r with connection := r.connection.answerClose env payload, phase := .ended }
  | .ping => r.settle ((r.connection.dispatchData env payload .ping).sendPong env payload)
  | opcode => r.settle (r.connection.dispatchData env payload opcode)

def enterControl (opcode : Opcode) (len : Nat) : Receiver δ :=
  if maxControlPayload < len ∨ opcode = .close ∧ len = 1 then r.failed .invalidControlFrame
  else if len = 0 then r.answer env opcode []
  else { r with phase := .control opcode len [] }

/-- What follows a header. -/
def enter (next : ReceiveState) (len : Nat) : Receiver δ :=
  match next with
  | .needHeader => { r with phase := .header }
  | .needMask => r.failed .unexpectedMaskFromServer
  | .needBody => r.enterBody env len
  | .extendedPayloadLength16 => { r with phase := .length 2 [] }
  | .extendedPayloadLength64 => { r with phase := .length 8 [] }
  | .ping => r.enterControl env .ping len
  | .pong => r.enterControl env .pong len
  | .close => r.enterControl env .close len
  | .fail => r.failed .unsupportedControlFrame

/-- Why a header fails the connection, whatever its state. -/
def refuses (header : ParsedHeader) : Option ErrorCode :=
  let isMessage := header.opcode = .text || header.opcode = .binary
  if header.opcode = .continuation ∧ r.isFinal then some .unexpectedOpcode
  else if isMessage ∧ !r.isFinal then some .unexpectedOpcode
  else if header.opcode.isControl ∧ header.isFragmented then some .controlFrameIsFragmented
  else if !(header.opcode = .continuation || isMessage || header.opcode = .ping ||
      header.opcode = .pong || header.opcode = .close) then some .unsupportedControlFrame
  else if header.compressed && !isMessage then some .unexpectedRsv1
  else if header.compressed && r.connection.deflate.isNone then some .compressionUnsupported
  else none

/-- The message that a header opens or goes on with. -/
def begin (header : ParsedHeader) : Receiver δ :=
  match header.opcode with
  | .text | .binary =>
    { r with
      kind := header.opcode
      isFinal := header.isFinal
      messageIsCompressed := header.compressed
      receivingCompressed := header.compressed }
  | .continuation =>
    { r with isFinal := header.isFinal, receivingCompressed := r.messageIsCompressed }
  | _ => r

def readHeader (a b : UInt8) : Receiver δ :=
  let header := parseWebsocketHeader a b
  match r.refuses header with
  | some code => r.failed code
  | none => (r.begin header).enter env header.next header.payloadLen

def byte (b : UInt8) : Receiver δ :=
  match r.phase with
  | .header => { r with phase := .second b }
  | .second a => r.readHeader env a b
  | .length size got =>
    let got := got ++ [b]
    if got.length < size then { r with phase := .length size got }
    else if ofBe got = 0 then r.failed .invalidControlFrame
    else r.enterBody env (ofBe got)
  | .body remain =>
    let gathered := { r with message := r.message ++ [b] }
    if 1 < remain then { gathered with phase := .body (remain - 1) } else gathered.complete env
  | .control opcode len got =>
    let got := got ++ [b]
    if got.length < len then { r with phase := .control opcode len got }
    else r.answer env opcode got
  | .ended => r

def bytes (bs : Bytes) : Receiver δ := bs.foldl (byte env) r

/-! ## Several bytes at once -/

variable {env r}

@[simp] theorem bytes_nil : r.bytes env [] = r := rfl

theorem bytes_cons (b : UInt8) (bs : Bytes) : r.bytes env (b :: bs) = (r.byte env b).bytes env bs :=
  rfl

theorem bytes_append (xs ys : Bytes) :
    r.bytes env (xs ++ ys) = (r.bytes env xs).bytes env ys :=
  List.foldl_append

theorem bytes_ended (h : r.phase = .ended) (bs : Bytes) : r.bytes env bs = r := by
  induction bs with
  | nil => rfl
  | cons b bs ih =>
    have hbyte : r.byte env b = r := by rw [byte, h]
    rw [bytes_cons, hbyte, ih]

variable {bs got : Bytes} {size len : Nat} {opcode : Opcode}

/-- A part of a body. -/
theorem bytes_body_of_lt : ∀ {r : Receiver δ} {remain : Nat}, r.phase = .body remain →
    bs.length < remain →
    r.bytes env bs = { r with message := r.message ++ bs, phase := .body (remain - bs.length) } := by
  induction bs with
  | nil =>
    intro r remain hphase _
    simp only [bytes_nil, List.append_nil, List.length_nil, Nat.sub_zero, ← hphase]
  | cons b bs ih =>
    intro r remain hphase hlt
    rw [List.length_cons] at hlt
    have hone : 1 < remain := by omega
    have hbyte : r.byte env b =
        { r with message := r.message ++ [b], phase := .body (remain - 1) } := by
      rw [byte, hphase]
      exact if_pos hone
    rw [bytes_cons, hbyte, ih rfl (by omega)]
    simp only [List.append_assoc, List.singleton_append, List.length_cons, Receiver.mk.injEq,
      Phase.body.injEq, true_and, and_true]
    omega

/-- The whole of it. -/
theorem bytes_body {remain : Nat} (hphase : r.phase = .body remain) (hlen : bs.length = remain)
    (hne : bs ≠ []) :
    r.bytes env bs = { r with message := r.message ++ bs, phase := .body 1 }.complete env := by
  obtain ⟨init, last, rfl⟩ := List.eq_nil_or_concat bs |>.resolve_left hne
  rw [List.concat_eq_append] at hlen ⊢
  rw [List.length_append, List.length_singleton] at hlen
  rw [bytes_append, bytes_body_of_lt hphase (by omega), bytes_cons, bytes_nil]
  have hone : remain - init.length = 1 := by omega
  simp only [byte, hone, Nat.lt_irrefl, if_false, List.append_assoc]

theorem bytes_length_of_lt : ∀ {r : Receiver δ} {got : Bytes},
    r.phase = .length size got → got.length + bs.length < size →
    r.bytes env bs = { r with phase := .length size (got ++ bs) } := by
  induction bs with
  | nil =>
    intro r got hphase _
    simp only [bytes_nil, List.append_nil, ← hphase]
  | cons b bs ih =>
    intro r got hphase hlt
    rw [List.length_cons] at hlt
    have hbyte : r.byte env b = { r with phase := .length size (got ++ [b]) } := by
      rw [byte, hphase]
      exact if_pos (by rw [List.length_append, List.length_singleton]; omega)
    rw [bytes_cons, hbyte, ih rfl (by rw [List.length_append, List.length_singleton]; omega),
      List.append_assoc, List.singleton_append]

theorem bytes_length (hphase : r.phase = .length size got) (hlen : got.length + bs.length = size)
    (hne : bs ≠ []) :
    r.bytes env bs =
      if ofBe (got ++ bs) = 0 then r.failed .invalidControlFrame
      else { r with phase := .length size got }.enterBody env (ofBe (got ++ bs)) := by
  obtain ⟨init, last, rfl⟩ := List.eq_nil_or_concat bs |>.resolve_left hne
  rw [List.concat_eq_append] at hlen ⊢
  rw [List.length_append, List.length_singleton] at hlen
  rw [bytes_append, bytes_length_of_lt hphase (by omega), bytes_cons, bytes_nil, byte]
  simp only [List.append_assoc]
  rw [if_neg (by simp only [List.length_append, List.length_singleton]; omega)]
  rfl

theorem bytes_control_of_lt :
    ∀ {r : Receiver δ} {got : Bytes}, r.phase = .control opcode len got →
    got.length + bs.length < len →
    r.bytes env bs = { r with phase := .control opcode len (got ++ bs) } := by
  induction bs with
  | nil =>
    intro r got hphase _
    simp only [bytes_nil, List.append_nil, ← hphase]
  | cons b bs ih =>
    intro r got hphase hlt
    rw [List.length_cons] at hlt
    have hbyte : r.byte env b = { r with phase := .control opcode len (got ++ [b]) } := by
      rw [byte, hphase]
      exact if_pos (by rw [List.length_append, List.length_singleton]; omega)
    rw [bytes_cons, hbyte, ih rfl (by rw [List.length_append, List.length_singleton]; omega),
      List.append_assoc, List.singleton_append]

theorem bytes_control (hphase : r.phase = .control opcode len got) (hlen : got.length + bs.length = len)
    (hne : bs ≠ []) :
    r.bytes env bs =
      { r with phase := .control opcode len (got ++ bs.dropLast) }.answer env opcode (got ++ bs) := by
  obtain ⟨init, last, rfl⟩ := List.eq_nil_or_concat bs |>.resolve_left hne
  rw [List.concat_eq_append] at hlen ⊢
  rw [List.length_append, List.length_singleton] at hlen
  rw [bytes_append, bytes_control_of_lt hphase (by omega), bytes_cons, bytes_nil, byte]
  simp only [List.append_assoc, List.dropLast_concat]
  rw [if_neg (by simp only [List.length_append, List.length_singleton]; omega)]

end Receiver

end OhosBun.WebSocket
