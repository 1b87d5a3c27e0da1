/-
# `OhosBun.MySql.PacketHeader` — packets on the wire

A packet is a header, which is the length of the payload in 24 bits and a sequence id, and the
payload.  A payload of `maxPayloadLength` bytes or more takes several packets, with consecutive
sequence ids: all but the last are as long as a packet can be, and the last is shorter (`packets`).
-/
import OhosBun.Lib.Bytes

namespace OhosBun.MySql

open OhosBun.Lib

/-- What the clients of the protocol fail with, as far as it matters here. -/
inductive AnyMySQLError
  | outOfMemory
  | overflow
  | unexpectedPacket
  | shortRead
  /-- any other failure, of a handler -/
  | other
deriving DecidableEq

structure PacketHeader where
  length : Nat
  sequenceId : UInt8
deriving DecidableEq

namespace PacketHeader

def size : Nat := 4

/-- A length of exactly this says that another packet follows. -/
def maxPayloadLength : Nat := 0xFFFFFF

def decode : Bytes → Option PacketHeader
  | b₀ :: b₁ :: b₂ :: b₃ :: _ =>
    some ⟨b₀.toNat ||| b₁.toNat <<< 8 ||| b₂.toNat <<< 16, b₃⟩
  | _ => none

def encode (h : PacketHeader) : Bytes :=
  [UInt8.ofNat (h.length &&& 0xff), UInt8.ofNat (h.length >>> 8 &&& 0xff),
    UInt8.ofNat (h.length >>> 16 &&& 0xff), h.sequenceId]

@[simp] theorem length_encode (h : PacketHeader) : h.encode.length = size := rfl

theorem encode_eq (h : PacketHeader) : h.encode = leBytes 3 h.length ++ [h.sequenceId] := by
  have hbyte : ∀ n, UInt8.ofNat (n &&& 0xff) = UInt8.ofNat n := fun n => by
    rw [show (0xff : Nat) = 2 ^ 8 - 1 from rfl, Nat.and_two_pow_sub_one_eq_mod]
    exact UInt8.toNat_inj.mp (by simp)
  simp only [encode, hbyte, leBytes, Nat.shiftRight_eq_div_pow, Nat.div_div_eq_div_mul,
    List.cons_append, List.nil_append]

theorem decode_eq (b₀ b₁ b₂ b₃ : UInt8) (rest : Bytes) :
    decode (b₀ :: b₁ :: b₂ :: b₃ :: rest) = some ⟨ofLe [b₀, b₁, b₂], b₃⟩ := by
  have h₁ : b₀.toNat ||| b₁.toNat <<< 8 = b₁.toNat <<< 8 + b₀.toNat := by
    rw [Nat.or_comm, ← Nat.shiftLeft_add_eq_or_of_lt b₀.toNat_lt]
  have h₂ : b₀.toNat ||| b₁.toNat <<< 8 ||| b₂.toNat <<< 16 =
      b₂.toNat <<< 16 + (b₁.toNat <<< 8 + b₀.toNat) := by
    rw [h₁, Nat.or_comm, ← Nat.shiftLeft_add_eq_or_of_lt]
    have hb₀ := b₀.toNat_lt
    have hb₁ := b₁.toNat_lt
    rw [Nat.shiftLeft_eq]
    omega
  rw [decode, h₂]
  simp only [ofLe, Nat.shiftLeft_eq]
  congr 2
  omega

/-- A header is read back. -/
theorem decode_encode {h : PacketHeader} (hlt : h.length < 2 ^ 24) (rest : Bytes) :
    decode (h.encode ++ rest) = some h := by
  rw [encode_eq]
  refine (decode_eq _ _ _ _ _).trans ?_
  exact congrArg (fun n => some (PacketHeader.mk n h.sequenceId))
    (ofLe_leBytes_of_lt (n := 3) (v := h.length) hlt)

theorem decode_of_short {bytes : Bytes} (h : bytes.length < size) : decode bytes = none := by
  match bytes with
  | [] | [_] | [_, _] | [_, _, _] => rfl
  | _ :: _ :: _ :: _ :: rest =>
    simp only [List.length_cons, size] at h
    omega

theorem decode_append {bytes : Bytes} (h : size ≤ bytes.length) (rest : Bytes) :
    decode (bytes ++ rest) = decode bytes := by
  match bytes with
  | [] | [_] | [_, _] | [_, _, _] => simp [size] at h
  | _ :: _ :: _ :: _ :: _ => rfl

end PacketHeader

/-! ## Packets -/

open PacketHeader

/-- One packet. -/
def frame (sequenceId : UInt8) (payload : Bytes) : Bytes :=
  encode ⟨payload.length, sequenceId⟩ ++ payload

theorem length_frame (sequenceId : UInt8) (payload : Bytes) :
    (frame sequenceId payload).length = size + payload.length := by
  rw [frame, List.length_append, length_encode]

/-- The packets of a payload. -/
def packets (sequenceId : UInt8) (payload : Bytes) : Bytes :=
  if payload.length < maxPayloadLength then frame sequenceId payload
  else frame sequenceId (payload.take maxPayloadLength) ++
    packets (sequenceId + 1) (payload.drop maxPayloadLength)
termination_by payload.length
decreasing_by
  rw [List.length_drop]
  unfold maxPayloadLength at *
  omega

theorem packets_of_lt {sequenceId : UInt8} {payload : Bytes}
    (h : payload.length < maxPayloadLength) :
    packets sequenceId payload = frame sequenceId payload := by
  rw [packets, if_pos h]

theorem packets_of_ge {sequenceId : UInt8} {payload : Bytes}
    (h : maxPayloadLength ≤ payload.length) :
    packets sequenceId payload = frame sequenceId (payload.take maxPayloadLength) ++
      packets (sequenceId + 1) (payload.drop maxPayloadLength) := by
  rw [packets, if_neg (Nat.not_lt.mpr h)]

end OhosBun.MySql
