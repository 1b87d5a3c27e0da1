/-
# `OhosBun.WebSocket.Framing` — what a sequence of frames is worth

A frame as any server may put it on the wire (`Frame.encode`), and the framing of RFC 6455: when a
frame breaks it (`Frame.Breaks`), and what is delivered of a sequence of frames up to the first
that does, or to a close frame (`Reception.accept`).  Nothing here is about how a client reads.
-/
import OhosBun.WebSocket.Connection

namespace OhosBun.WebSocket

open OhosBun.Lib

/-! ## Frames -/

/-- `mask` is the key, where the MASK bit is set. -/
structure Frame where
  fin : Bool
  rsv1 : Bool
  rsv2 : Bool
  rsv3 : Bool
  opcode : Opcode
  mask : Option Bytes
  payload : Bytes
deriving DecidableEq

def Opcode.isReserved : Opcode → Bool
  | .continuation | .text | .binary | .close | .ping | .pong => false
  | _ => true

namespace Frame
variable (frame : Frame)

/-- The first byte: the FIN bit, the reserved bits and the opcode. -/
def first : Nat :=
  frame.fin.toNat * 128 + frame.rsv1.toNat * 64 + frame.rsv2.toNat * 32 + frame.rsv3.toNat * 16 +
    frame.opcode.toRaw

/-- The second: the MASK bit and the length, or which length comes next. -/
def second : Nat :=
  frame.mask.isSome.toNat * 128 + WebsocketHeader.packLength frame.payload.length

/-- What comes after the length. -/
def body : Bytes :=
  match frame.mask with
  | none => frame.payload
  | some key => key ++ maskBytes key frame.payload

/-- On the wire, the length in as few bytes as it takes. -/
def encode : Bytes :=
  UInt8.ofNat frame.first :: UInt8.ofNat frame.second ::
    (lengthBytes frame.payload.length ++ frame.body)

/-- Whether the frame breaks the framing; `opened` where fragments of a message have come. -/
def Breaks (opened : Bool) : Prop :=
  frame.mask.isSome = true ∨
  (frame.rsv1 = true ∨ frame.rsv2 = true ∨ frame.rsv3 = true) ∨
  frame.opcode.isReserved = true ∨
  frame.opcode.isControl = true ∧ (frame.fin = false ∨ maxControlPayload < frame.payload.length) ∨
  frame.opcode = .continuation ∧ opened = false ∨
  (frame.opcode = .text ∨ frame.opcode = .binary) ∧ opened = true ∨
  frame.opcode = .close ∧ frame.payload.length = 1

instance (opened : Bool) : Decidable (frame.Breaks opened) := by
  unfold Breaks
  infer_instance

end Frame

/-! ## What is delivered -/

inductive Delivery
  | message (kind : Opcode) (data : Bytes)
  | ping (payload : Bytes)
  | pong (payload : Bytes)
deriving DecidableEq

inductive Ending
  | closed | broken
deriving DecidableEq

/-- `opened` is the message of which fragments have come, and what has come of it. -/
structure Reception where
  opened : Option (Opcode × Bytes) := none
  delivered : List Delivery := []
  ending : Option Ending := none
deriving DecidableEq

namespace Reception
variable (s : Reception)

def deliver (delivery : Delivery) : Reception := { s with delivered := s.delivered ++ [delivery] }

/-- A message up to here. -/
def fragment (kind : Opcode) (data : Bytes) (fin : Bool) : Reception :=
  if fin then { s with opened := none }.deliver (.message kind data)
  else { s with opened := some (kind, data) }

def accept (frame : Frame) : Reception :=
  if s.ending.isSome then s
  else if frame.Breaks s.opened.isSome then { s with ending := some .broken }
  else
    match frame.opcode, s.opened with
    | .close, _ => { s with ending := some .closed }
    | .ping, _ => s.deliver (.ping frame.payload)
    | .pong, _ => s.deliver (.pong frame.payload)
    | .continuation, some (kind, data) => s.fragment kind (data ++ frame.payload) frame.fin
    | .continuation, none => s
    | kind, _ => s.fragment kind frame.payload frame.fin

/-- Of a sequence of frames. -/
def receive (frames : List Frame) : Reception := frames.foldl accept {}

/-- `P` of every frame and of what was received before it, up to the end. -/
def Along (P : Reception → Frame → Prop) : Reception → List Frame → Prop
  | _, [] => True
  | s, frame :: frames => (s.ending = none → P s frame) ∧ Along P (s.accept frame) frames

instance decidableAlong (P : Reception → Frame → Prop) [∀ s frame, Decidable (P s frame)] :
    ∀ (s : Reception) (frames : List Frame), Decidable (Along P s frames)
  | _, [] => .isTrue trivial
  | s, frame :: frames =>
    have := decidableAlong P (s.accept frame) frames
    inferInstanceAs (Decidable ((s.ending = none → P s frame) ∧ Along P (s.accept frame) frames))

variable {s}

/-- What was delivered stays so. -/
theorem accept_delivered (frame : Frame) : s.delivered <+: (s.accept frame).delivered := by
  have hfragment : ∀ kind data fin, s.delivered <+: (s.fragment kind data fin).delivered := by
    intro kind data fin
    cases fin with
    | true => exact List.prefix_append _ _
    | false => exact List.prefix_rfl
  unfold accept
  split
  · exact List.prefix_rfl
  split
  · exact List.prefix_rfl
  split
  · exact List.prefix_rfl
  · exact List.prefix_append _ _
  · exact List.prefix_append _ _
  · exact hfragment _ _ _
  · exact List.prefix_rfl
  · exact hfragment _ _ _

theorem foldl_delivered (frames : List Frame) :
    ∀ s : Reception, s.delivered <+: (frames.foldl accept s).delivered := by
  induction frames with
  | nil => exact fun s => List.prefix_rfl
  | cons frame frames ih => exact fun s => (accept_delivered frame).trans (ih (s.accept frame))

/-- Nothing comes after the end. -/
theorem accept_of_ending (h : s.ending ≠ none) (frame : Frame) : s.accept frame = s := by
  unfold accept
  rw [if_pos (Option.isSome_iff_ne_none.mpr h)]

theorem accept_of_breaks (h : s.ending = none) {frame : Frame} (hbreaks : frame.Breaks s.opened.isSome) :
    s.accept frame = { s with ending := some .broken } := by
  unfold accept
  rw [if_neg (by rw [h]; decide), if_pos hbreaks]

/-- What a frame in its place comes to. -/
theorem accept_of_not_breaks (h : s.ending = none) {frame : Frame}
    (hbreaks : ¬ frame.Breaks s.opened.isSome) :
    frame.opcode = .close ∧ s.accept frame = { s with ending := some .closed } ∨
    frame.opcode = .ping ∧ s.accept frame = s.deliver (.ping frame.payload) ∨
    frame.opcode = .pong ∧ s.accept frame = s.deliver (.pong frame.payload) ∨
    (∃ kind data, frame.opcode = .continuation ∧ s.opened = some (kind, data) ∧
      s.accept frame = s.fragment kind (data ++ frame.payload) frame.fin) ∨
    (frame.opcode = .text ∨ frame.opcode = .binary) ∧ s.opened = none ∧
      s.accept frame = s.fragment frame.opcode frame.payload frame.fin := by
  have haccept : s.accept frame =
      match frame.opcode, s.opened with
      | .close, _ => { s with ending := some .closed }
      | .ping, _ => s.deliver (.ping frame.payload)
      | .pong, _ => s.deliver (.pong frame.payload)
      | .continuation, some (kind, data) => s.fragment kind (data ++ frame.payload) frame.fin
      | .continuation, none => s
      | kind, _ => s.fragment kind frame.payload frame.fin := by
    unfold accept
    rw [if_neg (by rw [h]; decide), if_neg hbreaks]
  rw [haccept]
  simp only [Frame.Breaks, not_or, not_and] at hbreaks
  obtain ⟨-, -, hreserved, -, hcontinuation, hmessage, -⟩ := hbreaks
  cases hopcode : frame.opcode with
  | close => exact .inl ⟨rfl, rfl⟩
  | ping => exact .inr (.inl ⟨rfl, rfl⟩)
  | pong => exact .inr (.inr (.inl ⟨rfl, rfl⟩))
  | continuation =>
    cases hopened : s.opened with
    | none =>
      have hnone := hcontinuation hopcode
      rw [hopened] at hnone
      exact absurd rfl hnone
    | some opened => exact .inr (.inr (.inr (.inl ⟨opened.1, opened.2, rfl, rfl, rfl⟩)))
  | text =>
    have hnone := hmessage (.inl hopcode)
    exact .inr (.inr (.inr (.inr ⟨.inl rfl, by simpa using hnone, rfl⟩)))
  | binary =>
    have hnone := hmessage (.inr hopcode)
    exact .inr (.inr (.inr (.inr ⟨.inr rfl, by simpa using hnone, rfl⟩)))
  | _ =>
    rw [hopcode] at hreserved
    exact absurd rfl hreserved

end Reception

end OhosBun.WebSocket
