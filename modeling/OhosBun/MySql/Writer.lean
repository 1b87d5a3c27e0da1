/-
# `OhosBun.MySql.Writer` — packets under partial writes

A packet is started, its payload is written, and it is ended: the header goes in front of the
payload then, or the packet is taken back if its payload is too long.  `flush_data` gives the bytes
to the socket, which takes a prefix of them; until it is writable again nothing is written.

The offset of a packet is counted from the bytes that are not sent, but its header is put at that
index of the whole list.  The two agree because nothing is sent of the list while the flag for
backpressure is off (`Ready`).

`frames_written_iff`: what the socket took and what is left are the packets that were ended, one
after the other.  Lengths are `u32`s, so that holds up to payloads that are too long by whole
multiples of `2^32` (`PacketWrites.Rejectable`).
-/
import OhosBun.Lib.Refinement
import OhosBun.MySql.PacketHeader
import OhosBun.MySql.RequestQueue
import OhosBun.Sql.OffsetByteList

namespace OhosBun.MySql

open OhosBun.Lib PacketHeader

/-- The bytes that go out on a connection that is connected, with those the socket took. -/
structure Output where
  writeBuffer : Sql.OffsetByteList := {}
  hasBackpressure : Bool := false
  accepted : Bytes := []
deriving DecidableEq

/-- A packet whose payload is written in pieces. -/
structure PacketWrites where
  sequenceId : UInt8
  pieces : List Bytes
deriving DecidableEq

namespace Output

def isAbleToWrite (c : Output) : Bool :=
  !c.hasBackpressure && decide (c.writeBuffer.len < maxPipelineSize)

/-! ## The writer -/

def offset (c : Output) : Nat := c.writeBuffer.len

def write (c : Output) (data : Bytes) : Output := { c with writeBuffer := c.writeBuffer.write data }

def pwrite (c : Output) (data : Bytes) (index : Nat) : Option Output :=
  (c.writeBuffer.pwrite data index).map fun writeBuffer => { c with writeBuffer }

def truncate (c : Output) (offset : Nat) : Output :=
  { c with writeBuffer := c.writeBuffer.truncate (c.writeBuffer.head + offset) }

/-- Subtraction of a `usize`, without a check for overflow. -/
def wrappingSub (a b : Nat) : Nat := (a % 2 ^ 64 + 2 ^ 64 - b % 2 ^ 64) % 2 ^ 64

/-- `NewWriterWrap::start`: the header is left blank. -/
def start (c : Output) : Output × Nat := (c.write (List.replicate size 0), c.offset)

/-- `Packet::end`, of a packet that was started at an offset. -/
def «end» (c : Output) (sequenceId : UInt8) (offset : Nat) :
    Option (Output × Except AnyMySQLError Unit) :=
  let length := wrappingSub (wrappingSub c.offset offset) size
  if maxPayloadLength ≤ length then some (c.truncate offset, .error .overflow)
  else (c.pwrite (encode ⟨length, sequenceId⟩) offset).map fun c => (c, .ok ())

/-- A packet from its start to its end. -/
def writePacket (c : Output) (packet : PacketWrites) :
    Option (Output × Except AnyMySQLError Unit) :=
  let (c, offset) := c.start
  (packet.pieces.foldl write c).end packet.sequenceId offset

/-! ## The socket -/

/-- `flush_data`, with what the socket says that it wrote. -/
def flushData (c : Output) (wrote : Int) : Option Output :=
  if c.hasBackpressure then some c
  else do
    let chunk ← c.writeBuffer.remaining
    if chunk = [] then some c
    else
      let c := { c with hasBackpressure := decide (wrote.toNat < chunk.length) }
      if 0 < wrote then
        some { c with
          writeBuffer := c.writeBuffer.consume wrote.toNat
          accepted := c.accepted ++ chunk.take wrote.toNat }
      else some c

/-- `on_writable`, up to where the queue goes on. -/
def onWritable (c : Output) (wrote : Int) : Option Output :=
  { c with hasBackpressure := false }.flushData wrote

/-! ## Runs -/

inductive Op
  | packet (packet : PacketWrites)
  | flushData (wrote : Int)
  | onWritable (wrote : Int)
deriving DecidableEq

/-- What became of a packet. -/
abbrev Reply := Option (Except AnyMySQLError Unit)

def step (c : Output) : Op → Option (Output × Reply)
  | .packet packet => (c.writePacket packet).map fun (c, ended) => (c, some ended)
  | .flushData wrote => (c.flushData wrote).map fun c => (c, none)
  | .onWritable wrote => (c.onWritable wrote).map fun c => (c, none)

/-- Packets are started where they may be, and the socket does not write more than it is given. -/
def Allowed (c : Output) : Op → Prop
  | .packet _ => c.isAbleToWrite
  | .flushData wrote | .onWritable wrote =>
    wrote ≤ (c.writeBuffer.byteList.length - c.writeBuffer.head : Nat)

instance (c : Output) : (op : Op) → Decidable (c.Allowed op)
  | .packet _ => inferInstanceAs (Decidable (_ = _))
  | .flushData _ | .onWritable _ => inferInstanceAs (Decidable (_ ≤ _))

end Output

namespace PacketWrites

def payload (p : PacketWrites) : Bytes := p.pieces.flatten

/-- The payload fits in a packet. -/
def Fits (p : PacketWrites) : Prop := p.payload.length < maxPayloadLength

/-- The payload fits, or is too long also when its length is taken for a `u32`. -/
def Rejectable (p : PacketWrites) : Prop :=
  p.payload.length < maxPayloadLength ∨ maxPayloadLength ≤ p.payload.length % 2 ^ 32

instance (p : PacketWrites) : Decidable p.Rejectable := inferInstanceAs (Decidable (_ ∨ _))

end PacketWrites

/-- A list of frames: a packet adds one, or is rejected and adds none. -/
inductive Framed : Bytes → Output.Op → Output.Reply → Bytes → Prop
  | packet (out : Bytes) {p : PacketWrites} (h : p.Fits) :
      Framed out (.packet p) (some (.ok ())) (out ++ frame p.sequenceId p.payload)
  | overflow (out : Bytes) {p : PacketWrites} (h : ¬ p.Fits) :
      Framed out (.packet p) (some (.error .overflow)) out
  | flushData (out : Bytes) (wrote : Int) : Framed out (.flushData wrote) none out
  | onWritable (out : Bytes) (wrote : Int) : Framed out (.onWritable wrote) none out

namespace Output

/-! ## Between packets -/

/-- Nothing of the list is sent while there is no backpressure. -/
structure Ready (c : Output) (out : Bytes) : Prop where
  head : c.hasBackpressure = false → c.writeBuffer.head = 0
  head_lt : c.writeBuffer.head = 0 ∨ c.writeBuffer.head < c.writeBuffer.byteList.length
  length_lt : c.writeBuffer.byteList.length < 2 ^ 25
  bytes : c.accepted ++ c.writeBuffer.byteList.drop c.writeBuffer.head = out

variable {c : Output} {out : Bytes}

theorem ready_init : Ready {} [] := ⟨fun _ => rfl, .inl rfl, by decide, rfl⟩

theorem Ready.head_le (h : c.Ready out) :
    c.writeBuffer.head ≤ c.writeBuffer.byteList.length := by
  have hlt := h.head_lt
  omega

/-- Where a packet may be started: all of the list is unsent, and it is short. -/
theorem Ready.of_isAbleToWrite (h : c.Ready out) (hable : c.isAbleToWrite) :
    ∃ bytes, c.writeBuffer = ⟨0, bytes⟩ ∧ bytes.length < maxPipelineSize ∧
      c.accepted ++ bytes = out := by
  rw [isAbleToWrite, Bool.and_eq_true, Bool.not_eq_true', decide_eq_true_eq] at hable
  have hhead := h.head hable.1
  have hlen := Sql.OffsetByteList.len_of_lt h.head_le (h.length_lt.trans (by decide))
  have hbytes := h.bytes
  rw [hhead] at hlen hbytes
  rw [hlen, Nat.sub_zero] at hable
  refine ⟨c.writeBuffer.byteList, ?_, hable.2, hbytes⟩
  rw [← hhead]

theorem writeBuffer_foldl_write (pieces : List Bytes) (c : Output) :
    pieces.foldl write c = c.write pieces.flatten := by
  induction pieces generalizing c with
  | nil =>
    simp only [List.foldl_nil, List.flatten_nil, write, Sql.OffsetByteList.write, List.append_nil]
  | cons piece pieces ih =>
    rw [List.foldl_cons, ih, List.flatten_cons]
    simp only [write, Sql.OffsetByteList.write, List.append_assoc]

/-- What `end` takes for the length of a payload, written behind few bytes. -/
theorem length_lt_iff {before n : Nat} (hbefore : before < maxPipelineSize) :
    (wrappingSub (wrappingSub ((before + size + n) % 2 ^ 32) before) size < maxPayloadLength ↔
      n % 2 ^ 32 < maxPayloadLength) ∧
    (n % 2 ^ 32 < maxPayloadLength →
      wrappingSub (wrappingSub ((before + size + n) % 2 ^ 32) before) size = n % 2 ^ 32) := by
  unfold wrappingSub maxPipelineSize size maxPayloadLength at *
  omega

/-- A packet is framed with what `end` takes for its length, or leaves nothing behind. -/
theorem writePacket_eq {bytes : Bytes} (hbuffer : c.writeBuffer = ⟨0, bytes⟩)
    (hlt : bytes.length < maxPipelineSize) (p : PacketWrites) :
    c.writePacket p =
      if p.payload.length % 2 ^ 32 < maxPayloadLength then
        some ({ c with writeBuffer :=
          ⟨0, bytes ++ encode ⟨p.payload.length % 2 ^ 32, p.sequenceId⟩ ++ p.payload⟩ }, .ok ())
      else some (c, .error .overflow) := by
  have hoffset : c.offset = bytes.length := by
    rw [offset, hbuffer, Sql.OffsetByteList.len_mk_zero, Nat.mod_eq_of_lt (hlt.trans (by decide))]
  have hwritten : p.pieces.foldl write (c.write (List.replicate size 0)) =
      { c with writeBuffer := ⟨0, bytes ++ List.replicate size 0 ++ p.payload⟩ } := by
    rw [writeBuffer_foldl_write]
    simp only [write, Sql.OffsetByteList.write, hbuffer, PacketWrites.payload]
  obtain ⟨hiff, heq⟩ := length_lt_iff (n := p.payload.length) hlt
  have hend : (({ c with writeBuffer := ⟨0, bytes ++ List.replicate size 0 ++ p.payload⟩ } :
      Output).offset) = (bytes.length + size + p.payload.length) % 2 ^ 32 := by
    rw [offset, Sql.OffsetByteList.len_mk_zero, List.length_append, List.length_append,
      List.length_replicate]
  rw [writePacket, start]
  dsimp only
  rw [hwritten, hoffset, «end», hend]
  split_ifs with hlong hmod hmod
  · exact absurd (hiff.mpr hmod) (Nat.not_lt.mpr hlong)
  · -- taken back to where it was started
    simp only [truncate, Sql.OffsetByteList.truncate, Nat.zero_add, List.append_assoc,
      List.take_left, ← hbuffer]
  · rw [heq hmod, pwrite, Sql.OffsetByteList.pwrite_append _ _ _ _ (by simp [size])]
    rfl
  · exact absurd (hiff.mp (Nat.not_le.mp hlong)) hmod

variable {p : PacketWrites} {wrote : Int} {op : Op} {reply : Reply}

theorem Ready.writePacket (h : c.Ready out) (hable : c.isAbleToWrite) (hp : p.Rejectable) :
    ∃ c' reply out', c.writePacket p = some (c', reply) ∧
      Framed out (.packet p) (some reply) out' ∧ c'.Ready out' := by
  obtain ⟨bytes, hbuffer, hlt, hout⟩ := h.of_isAbleToWrite hable
  have hwrite := writePacket_eq hbuffer hlt p
  by_cases hfits : p.Fits
  · have hmod : p.payload.length % 2 ^ 32 = p.payload.length :=
      Nat.mod_eq_of_lt (Nat.lt_trans hfits (by decide))
    rw [hmod, if_pos (show p.payload.length < maxPayloadLength from hfits)] at hwrite
    refine ⟨_, _, _, hwrite, .packet out hfits, ⟨fun _ => rfl, .inl rfl, ?_, ?_⟩⟩
    · unfold PacketWrites.Fits maxPayloadLength at hfits
      unfold maxPipelineSize at hlt
      simp only [List.length_append, length_encode, size]
      omega
    · rw [← hout, frame, List.append_assoc, List.append_assoc]
      rfl
  · rw [if_neg (Nat.not_lt.mpr (hp.resolve_left hfits))] at hwrite
    exact ⟨c, _, out, hwrite, .overflow out hfits, h⟩

/-- What the socket does not take is what is left. -/
theorem ready_flushData (hfalse : c.hasBackpressure = false)
    (hhead : c.writeBuffer.head = 0 ∨ c.writeBuffer.head < c.writeBuffer.byteList.length)
    (hlt : c.writeBuffer.byteList.length < 2 ^ 25)
    (hbytes : c.accepted ++ c.writeBuffer.byteList.drop c.writeBuffer.head = out)
    (hwrote : wrote ≤ (c.writeBuffer.byteList.length - c.writeBuffer.head : Nat)) :
    ∃ c', c.flushData wrote = some c' ∧ c'.Ready out := by
  have hle : c.writeBuffer.head ≤ c.writeBuffer.byteList.length := by omega
  have hlen : (c.writeBuffer.byteList.drop c.writeBuffer.head).length =
      c.writeBuffer.byteList.length - c.writeBuffer.head := List.length_drop
  rw [flushData, if_neg (by rw [hfalse]; simp), Sql.OffsetByteList.remaining_of_le hle]
  simp only [Option.bind_eq_bind, Option.bind_some]
  split_ifs with hnil hpos
  · refine ⟨c, rfl, ⟨fun _ => ?_, hhead, hlt, hbytes⟩⟩
    rw [hnil, List.length_nil] at hlen
    omega
  · obtain ⟨hhead', hlt', hdrop⟩ := @Sql.OffsetByteList.consume_of_lt c.writeBuffer wrote.toNat
      (by omega) (hlt.trans (by decide))
    refine ⟨_, rfl, ⟨fun hall => ?_, hhead', Nat.lt_of_le_of_lt hlt' hlt, ?_⟩⟩
    · -- all of it was taken
      have hall' := of_decide_eq_false hall
      have heq : wrote.toNat = c.writeBuffer.byteList.length - c.writeBuffer.head := by omega
      dsimp only
      rw [heq, Sql.OffsetByteList.consume_all hle (hlt.trans (by decide))]
    · dsimp only
      rw [hdrop, List.append_assoc, List.take_append_drop, hbytes]
  · refine ⟨_, rfl, ⟨fun hall => ?_, hhead, hlt, hbytes⟩⟩
    have hall' := of_decide_eq_false hall
    have hne : (c.writeBuffer.byteList.drop c.writeBuffer.head).length ≠ 0 :=
      fun hzero => hnil (List.length_eq_zero_iff.mp hzero)
    omega

theorem Ready.flushData (h : c.Ready out)
    (hwrote : wrote ≤ (c.writeBuffer.byteList.length - c.writeBuffer.head : Nat)) :
    ∃ c', c.flushData wrote = some c' ∧ c'.Ready out := by
  cases hfalse : c.hasBackpressure with
  | true => exact ⟨c, if_pos hfalse, h⟩
  | false => exact ready_flushData hfalse h.head_lt h.length_lt h.bytes hwrote

theorem Ready.onWritable (h : c.Ready out)
    (hwrote : wrote ≤ (c.writeBuffer.byteList.length - c.writeBuffer.head : Nat)) :
    ∃ c', c.onWritable wrote = some c' ∧ c'.Ready out :=
  ready_flushData (c := { c with hasBackpressure := false }) rfl h.head_lt h.length_lt h.bytes hwrote

/-! ## Runs of frames -/

/-- The payload of a packet can be rejected. -/
def Op.Rejectable : Op → Prop
  | .packet p => p.Rejectable
  | .flushData _ | .onWritable _ => True

theorem step_framed (h : c.Ready out) (hallowed : c.Allowed op) (hop : op.Rejectable) :
    ∃ c' reply out', c.step op = some (c', reply) ∧ Framed out op reply out' ∧ c'.Ready out' := by
  cases op with
  | packet p =>
    obtain ⟨c', reply, out', hwrite, hframed, h'⟩ := h.writePacket hallowed hop
    exact ⟨c', some reply, out', by rw [step, hwrite]; rfl, hframed, h'⟩
  | flushData wrote =>
    obtain ⟨c', hflush, h'⟩ := h.flushData hallowed
    exact ⟨c', none, out, by rw [step, hflush]; rfl, .flushData out wrote, h'⟩
  | onWritable wrote =>
    obtain ⟨c', hflush, h'⟩ := h.onWritable hallowed
    exact ⟨c', none, out, by rw [step, hflush]; rfl, .onWritable out wrote, h'⟩

/-- A payload that is too long and cannot be rejected is framed. -/
theorem not_framed (h : c.Ready out) (hallowed : c.Allowed op) (hop : ¬ op.Rejectable) {c' : Output}
    (hstep : c.step op = some (c', reply)) (out' : Bytes) :
    ¬ Framed out op reply out' := by
  cases op with
  | packet p =>
    obtain ⟨hlong, hmod⟩ := not_or.mp hop
    obtain ⟨bytes, hbuffer, hlt, -⟩ := h.of_isAbleToWrite hallowed
    rw [step, writePacket_eq hbuffer hlt, if_pos (Nat.not_le.mp hmod)] at hstep
    obtain ⟨-, rfl⟩ := Prod.mk.inj (Option.some.inj hstep)
    intro hframed
    cases hframed with
    | packet hfits => exact hlong hfits
  | flushData wrote => exact absurd trivial hop
  | onWritable wrote => exact absurd trivial hop

theorem framed_unique {out₁ out₂ : Bytes} (h₁ : Framed out op reply out₁)
    (h₂ : Framed out op reply out₂) : out₁ = out₂ := by
  cases h₁ <;> cases h₂ <;> rfl

/-- What was taken and what is left are the packets that were ended, one after the other, and
packets that are too long are rejected, if and only if none of these is taken for a shorter one. -/
theorem frames_written_iff (ops : List Op) (hallowed : Guarded step Allowed {} ops) :
    (∃ c replies out, run step {} ops = some (c, replies) ∧ Follows Framed [] ops replies out ∧
      c.writeBuffer.remaining.map (c.accepted ++ ·) = some out) ↔ ∀ op ∈ ops, op.Rejectable := by
  constructor
  · rintro ⟨c, replies, out, hrun, hfollows, -⟩
    refine forall_of_follows (R := Ready) (fun s a op s' reply b hR hguard hs hspec => ?_) ready_init
      hallowed hrun hfollows
    have hop : op.Rejectable := not_not.mp fun hop => not_framed hR hguard hop hs b hspec
    obtain ⟨c', reply', out', hs', hspec', h'⟩ := step_framed hR hguard hop
    obtain ⟨rfl, rfl⟩ := Prod.mk.inj (Option.some.inj (hs.symm.trans hs'))
    rw [framed_unique hspec hspec']
    exact ⟨hop, h'⟩
  · intro hops
    have hstep : ∀ (c : Output) (out : Bytes) (op : Op), c.Ready out → c.Allowed op ∧ op.Rejectable →
        ∃ c' reply out', c.step op = some (c', reply) ∧ Framed out op reply out' ∧ c'.Ready out' :=
      fun c out op hready hguard => step_framed hready hguard.1 hguard.2
    obtain ⟨c, replies, out, hrun, hfollows, hready⟩ :=
      exists_run hstep ops ready_init (hallowed.and_forall hops)
    refine ⟨c, replies, out, hrun, hfollows, ?_⟩
    rw [Sql.OffsetByteList.remaining_of_le hready.head_le, Option.map_some, hready.bytes]

/-- A packet that waits for the socket, which takes half of it, and another one after it. -/
theorem frames_written_twice :
    Guarded step Allowed {} [.packet ⟨0, [[3, 1], [2]]⟩, .flushData 4, .onWritable 3,
      .packet ⟨7, [[9]]⟩] ∧
    ((∃ c replies out, run step {} [.packet ⟨0, [[3, 1], [2]]⟩, .flushData 4, .onWritable 3,
        .packet ⟨7, [[9]]⟩] = some (c, replies) ∧
      Follows Framed [] [.packet ⟨0, [[3, 1], [2]]⟩, .flushData 4, .onWritable 3,
        .packet ⟨7, [[9]]⟩] replies out ∧
      c.writeBuffer.remaining.map (c.accepted ++ ·) = some out) ↔
    ∀ op ∈ [Op.packet ⟨0, [[3, 1], [2]]⟩, .flushData 4, .onWritable 3, .packet ⟨7, [[9]]⟩],
      op.Rejectable) :=
  have h : Guarded step Allowed {} [.packet ⟨0, [[3, 1], [2]]⟩, .flushData 4, .onWritable 3,
      .packet ⟨7, [[9]]⟩] := by decide
  ⟨h, frames_written_iff _ h⟩

theorem writePacket_of_wraps (hlen : p.payload.length = 2 ^ 32) :
    ({} : Output).writePacket p =
      some ({ writeBuffer := ⟨0, encode ⟨0, p.sequenceId⟩ ++ p.payload⟩ }, .ok ()) := by
  have hwrite := writePacket_eq (c := {}) rfl (by decide) p
  rw [hlen, Nat.mod_self, if_pos (by decide)] at hwrite
  exact hwrite

/-- Four gigabytes go out behind a header that says that there are none. -/
theorem long_payload_framed :
    ({} : Output).Allowed (.packet ⟨0, [List.replicate (2 ^ 32) 0]⟩) ∧
    maxPayloadLength ≤ (PacketWrites.payload ⟨0, [List.replicate (2 ^ 32) 0]⟩).length ∧
    step {} (.packet ⟨0, [List.replicate (2 ^ 32) 0]⟩) =
      some ({ writeBuffer := ⟨0, encode ⟨0, 0⟩ ++ List.replicate (2 ^ 32) 0⟩ }, some (.ok ())) := by
  have hpayload : PacketWrites.payload ⟨0, [List.replicate (2 ^ 32) 0]⟩ =
      List.replicate (2 ^ 32) 0 := by
    simp only [PacketWrites.payload, List.flatten_cons, List.flatten_nil, List.append_nil]
  have hlen : (PacketWrites.payload ⟨0, [List.replicate (2 ^ 32) 0]⟩).length = 2 ^ 32 := by
    rw [hpayload, List.length_replicate]
  refine ⟨by decide, ?_, ?_⟩
  · rw [hlen]
    decide
  · rw [step, writePacket_of_wraps hlen, hpayload]
    rfl

end Output

end OhosBun.MySql
