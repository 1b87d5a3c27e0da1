/-
# `OhosBun.MySql.Chunks` — a stream of packets, however it is cut

A stream of packets is handed over payload by payload wherever the chunks end, and what is kept is
the start of the payload that is not complete (`reassembles`).  The offset in the read buffer is a
`u32`, and packets that straddle chunks stay in it: that is for streams of less than `2^32` bytes.

The packets of one payload may not take `2^32` bytes either, even if not all of them have come: the
connection fails with the header that takes them there (`overflow_of_header`).
-/
import OhosBun.MySql.Reassembly

namespace OhosBun.MySql

open OhosBun.Lib PacketHeader

/-- A payload whose packets take less than `2^32` bytes. -/
abbrev Sendable := { m : Message // m.encode.length < 2 ^ 32 }

def Sendable.encode (m : Sendable) : Bytes := m.val.encode

theorem length_le_of_flatMap {messages : List Message} {bytes tail : Bytes}
    (h : bytes = messages.flatMap Message.encode ++ tail) : messages.length ≤ bytes.length := by
  subst h
  induction messages with
  | nil => exact Nat.zero_le _
  | cons m messages ih =>
    have hpos : 0 < m.encode.length := List.length_pos_iff.mpr (encode_ne_nil m)
    rw [List.flatMap_cons, List.append_assoc, List.length_append, List.length_cons]
    omega

namespace Reading
variable {σ : Type} {handlers : Handlers σ}

/-- Between two chunks: the payloads `done` were handed over, and `kept` is in the buffer. -/
structure Stands (before : List Bytes) (c : Reading σ) (received : Nat) (done : List Sendable)
    (kept : Bytes) : Prop where
  status : c.session.core.status = .connected
  commands : c.session.commands = before ++ done.map (·.val.payload)
  remaining : c.readBuffer.remaining = some kept
  start : kept ≠ [] → c.lastMessageStart = c.readBuffer.head
  length_le : kept ≠ [] → c.readBuffer.byteList.length ≤ received

theorem remaining_eq_some {l : Sql.OffsetByteList} {bytes : Bytes} :
    l.remaining = some bytes ↔ l.head ≤ l.byteList.length ∧ l.byteList.drop l.head = bytes := by
  rw [Sql.OffsetByteList.remaining]
  split_ifs with hle
  · exact ⟨fun h => ⟨hle, Option.some.inj h⟩, fun h => congrArg some h.2⟩
  · exact ⟨fun h => (absurd h (by simp)), fun h => absurd h.1 hle⟩

variable {before : List Bytes} {c : Reading σ} {received : Nat} {done : List Sendable}
  {kept chunk tail : Bytes} {frames : List Sendable}

theorem Stands.receive_nil (hquiet : Quiet handlers) (hs : Stands before c received done [])
    (htail : Framing.Partial Sendable.encode tail)
    (heq : chunk = frames.flatMap Sendable.encode ++ tail)
    (hlt : received + chunk.length < 2 ^ 32) :
    ∃ c', c.receive handlers chunk = some c' ∧
      Stands before c' (received + chunk.length) (done ++ frames) tail := by
  obtain ⟨extra, last, hextra, hlast⟩ := htail
  have hframes : frames.flatMap Sendable.encode =
      (frames.map Subtype.val).flatMap Message.encode := by
    rw [List.flatMap_map]
    rfl
  rw [hframes] at heq
  have hturns : (frames.map Subtype.val).length < c.readBuffer.byteList.length + chunk.length + 1 :=
    Nat.lt_succ_of_le ((length_le_of_flatMap heq).trans (Nat.le_add_left _ _))
  have hat : LawfulReader.At (Sql.StackReader.mk chunk 0 0) chunk 0 0 := ⟨rfl, Nat.zero_le _⟩
  obtain ⟨reader, s, offset, hprocess, ⟨hreader, hoffset⟩, hdrop, hstatus, hcommands⟩ :=
    hquiet.processPackets_messages (by omega) last.property hextra hlast _ hat hs.status
      (List.drop_zero.trans heq) hturns
  refine ⟨{ session := s, readBuffer := ⟨0, chunk.drop offset⟩ }, ?_, hstatus, ?_, ?_, fun _ => rfl, ?_⟩
  · rw [receive, readAndProcessData, hs.remaining]
    dsimp only
    rw [hprocess, hreader]
    simp only [if_true]
    rw [if_pos hoffset]
  · dsimp only
    rw [hcommands, hs.commands, List.map_append, List.append_assoc, List.map_map]
    rfl
  · exact remaining_eq_some.2 ⟨Nat.zero_le _, hdrop⟩
  · intro _
    dsimp only
    rw [List.length_drop]
    omega

theorem Stands.receive_cons (hquiet : Quiet handlers) (hs : Stands before c received done kept)
    (hkept : kept ≠ []) (htail : Framing.Partial Sendable.encode tail)
    (heq : kept ++ chunk = frames.flatMap Sendable.encode ++ tail)
    (hlt : received + chunk.length < 2 ^ 32) :
    ∃ c', c.receive handlers chunk = some c' ∧
      Stands before c' (received + chunk.length) (done ++ frames) tail := by
  obtain ⟨extra, last, hextra, hlast⟩ := htail
  obtain ⟨session, readBuffer, lastMessageStart⟩ := c
  obtain ⟨hle, hdrop⟩ := remaining_eq_some.1 hs.remaining
  obtain rfl : lastMessageStart = readBuffer.head := hs.start hkept
  have hreceived := hs.length_le hkept
  dsimp only at hle hdrop hreceived
  have hframes : frames.flatMap Sendable.encode =
      (frames.map Subtype.val).flatMap Message.encode := by
    rw [List.flatMap_map]
    rfl
  rw [hframes] at heq
  have hbytes : (readBuffer.byteList ++ chunk).drop readBuffer.head =
      (frames.map Subtype.val).flatMap Message.encode ++ tail := by
    rw [List.drop_append_of_le_length hle, hdrop, heq]
  have hlength : (readBuffer.byteList ++ chunk).length =
      readBuffer.byteList.length + chunk.length := List.length_append
  have hturns : (frames.map Subtype.val).length <
      readBuffer.byteList.length + chunk.length + 1 := by
    have hmessages := length_le_of_flatMap hbytes
    rw [List.length_drop, hlength] at hmessages
    omega
  have hat : LawfulReader.At (BufferReader.mk ⟨readBuffer.head, readBuffer.byteList ++ chunk⟩
      readBuffer.head) (readBuffer.byteList ++ chunk) readBuffer.head readBuffer.head :=
    ⟨rfl, by omega, by omega⟩
  obtain ⟨reader, s, offset, hprocess, ⟨hreader, hoffset, -⟩, hdrop', hstatus, hcommands⟩ :=
    hquiet.processPackets_messages (by omega) last.property hextra hlast _ hat hs.status
      hbytes hturns
  refine ⟨⟨s, ⟨offset, readBuffer.byteList ++ chunk⟩, offset⟩, ?_, hstatus, ?_, ?_, fun _ => rfl, ?_⟩
  · obtain ⟨b, kept, rfl⟩ := List.exists_cons_of_ne_nil hkept
    rw [receive, readAndProcessData, hs.remaining]
    dsimp only [Sql.OffsetByteList.write]
    rw [hprocess, hreader]
    rfl
  · dsimp only
    rw [hcommands, hs.commands, List.map_append, List.append_assoc, List.map_map]
    rfl
  · exact remaining_eq_some.2 ⟨hoffset, hdrop'⟩
  · intro _
    dsimp only
    omega

theorem Stands.receive (hquiet : Quiet handlers) (hs : Stands before c received done kept)
    (htail : Framing.Partial Sendable.encode tail)
    (heq : kept ++ chunk = frames.flatMap Sendable.encode ++ tail)
    (hlt : received + chunk.length < 2 ^ 32) :
    ∃ c', c.receive handlers chunk = some c' ∧
      Stands before c' (received + chunk.length) (done ++ frames) tail := by
  cases kept with
  | nil => exact hs.receive_nil hquiet htail heq hlt
  | cons b kept => exact hs.receive_cons hquiet (List.cons_ne_nil b kept) htail heq hlt

/-- Handlers that do nothing. -/
def idle : Handlers Unit where
  handleHandshake core _ := (.ok (), core, 0)
  handleAuth core _ _ := (.ok (), core, 0)
  handleSessionSetup core _ _ := (.ok (), core, 0)
  handleCommand core _ _ := (.ok (), core, 0)

theorem quiet_idle : Quiet idle := fun core _ _ h => ⟨core, 0, rfl, h⟩

/-- A connection to which nothing was sent yet. -/
def fresh : Reading Unit := { session := { core := ⟨.connected, .none, 0, ()⟩ } }

/-- Behind whole packets, the header of one that goes past `2^32` bytes is enough. -/
theorem splitLengths_of_header {buffered : Bytes} (k : Nat) :
    ∀ (sequenceId : UInt8) (payload front start extra : Bytes) (n : Nat),
      (k + 1) * maxPayloadLength ≤ payload.length →
      start ++ extra = packets sequenceId payload → buffered = front ++ start →
      start.length = k * (size + maxPayloadLength) + size →
      front.length + k * (size + maxPayloadLength) < 2 ^ 32 →
      2 ^ 32 ≤ front.length + (k + 1) * (size + maxPayloadLength) →
      splitLengths buffered sequenceId front.length n = some (.error .overflow) := by
  induction k with
  | zero =>
    intro sequenceId payload front start extra n hlong hpackets hbuffered hstart hlt hge
    rw [Nat.zero_add, Nat.one_mul] at hlong hge
    have hdecode : decode start = some ⟨maxPayloadLength, sequenceId⟩ := by
      have hsize : size ≤ start.length := by omega
      rw [← decode_append hsize extra, hpackets, ← List.append_nil (packets _ _), decode_packets,
        Nat.min_eq_right hlong]
    have hbound : ¬buffered.length < front.length := by
      rw [hbuffered, List.length_append]
      omega
    rw [splitLengths, if_neg hbound, hbuffered, List.drop_left, hdecode]
    simp only [ne_eq, not_true_eq_false, if_false]
    rw [if_pos hge]
  | succ k ih =>
    intro sequenceId payload front start extra n hlong hpackets hbuffered hstart hlt hge
    rw [Nat.succ_mul] at hlong hstart hlt hge
    have hmax : maxPayloadLength ≤ payload.length := by omega
    have hdecode : decode start = some ⟨maxPayloadLength, sequenceId⟩ := by
      have hsize : size ≤ start.length := by omega
      rw [← decode_append hsize extra, hpackets, ← List.append_nil (packets _ _), decode_packets,
        Nat.min_eq_right hmax]
    have hframe : (frame sequenceId (payload.take maxPayloadLength)).length =
        size + maxPayloadLength := by
      rw [length_frame, List.length_take, Nat.min_eq_left hmax]
    have hlen : buffered.length = front.length + start.length := by
      rw [hbuffered, List.length_append]
    rw [packets_of_ge hmax] at hpackets
    obtain ⟨start', rfl, hrest⟩ := exists_append_of_length_le hpackets (by rw [hframe]; omega)
    have hfront : (front ++ frame sequenceId (payload.take maxPayloadLength)).length =
        front.length + (size + maxPayloadLength) := by
      rw [List.length_append, hframe]
    rw [List.length_append, hframe] at hstart hlen
    rw [splitLengths, if_neg (by omega), hbuffered, List.drop_left, hdecode, ← hbuffered]
    simp only [ne_eq, not_true_eq_false, if_false]
    rw [if_neg (by omega), if_neg (by omega), if_neg (Nat.lt_irrefl _), ← hfront]
    refine ih _ _ _ start' extra _ ?_ hrest ?_ ?_ ?_ ?_
    · rw [List.length_drop]
      omega
    · rw [hbuffered, List.append_assoc]
    · omega
    · omega
    · rw [hfront]
      omega

/-- The connection fails although what has come, and what is to come before the payload is
complete, may be less than `2^32` bytes. -/
theorem overflow_of_header {c : Reading σ} (hstatus : c.session.core.status = .connected)
    (hempty : c.readBuffer.remaining = some []) {m : Message} {start extra : Bytes} {k : Nat}
    (hk : 1 ≤ k) (hlong : (k + 1) * maxPayloadLength ≤ m.payload.length)
    (hencode : start ++ extra = m.encode) (hstart : start.length = k * (size + maxPayloadLength) + size)
    (hlt : k * (size + maxPayloadLength) < 2 ^ 32)
    (hge : 2 ^ 32 ≤ (k + 1) * (size + maxPayloadLength)) :
    c.readAndProcessData handlers start = .returned (.error .overflow) c := by
  have hpos : size + maxPayloadLength ≤ k * (size + maxPayloadLength) := Nat.le_mul_of_pos_left _ hk
  have hmax : maxPayloadLength ≤ m.payload.length :=
    (Nat.le_mul_of_pos_left _ (Nat.succ_pos k)).trans hlong
  have hdecode : decode start = some ⟨maxPayloadLength, m.sequenceId⟩ := by
    have hsize : size ≤ start.length := by omega
    rw [← decode_append hsize extra, hencode, Message.encode, ← List.append_nil (packets _ _),
      decode_packets, Nat.min_eq_right hmax]
  have hlengths : splitLengths start m.sequenceId 0 0 = some (.error .overflow) :=
    splitLengths_of_header k m.sequenceId m.payload [] start extra 0 hlong hencode rfl hstart
      (by rwa [List.length_nil, Nat.zero_add]) (by rwa [List.length_nil, Nat.zero_add])
  have hat : LawfulReader.At (Sql.StackReader.mk start 0 0) start 0 0 := ⟨rfl, Nat.zero_le _⟩
  have hmark := LawfulReader.markMessageStart hat
  have hsplit : processSplitPacket handlers
      (ReaderContext.markMessageStart (Sql.StackReader.mk start 0 0)) c.session =
        some (.error .overflow, ReaderContext.markMessageStart (Sql.StackReader.mk start 0 0), c.session) := by
    rw [processSplitPacket, if_neg (not_not.mpr hstatus), LawfulReader.peek hmark, List.drop_zero]
    simp only [Option.bind_eq_bind, Option.bind_some, hdecode, hlengths]
  have hcapacity : 0 + (maxPayloadLength + size) ≤ start.length := by omega
  rw [readAndProcessData, hempty]
  dsimp only
  rw [processPackets]
  simp only [LawfulReader.peek hmark, List.drop_zero, hdecode, LawfulReader.ensureCapacity hmark,
    decide_eq_true hcapacity, if_true, hsplit]
  rfl

/-- The first 255 packets of `2^32` bytes, and a header. -/
def tooLong : Message := ⟨0, List.replicate (2 ^ 32) 0⟩

end Reading

end OhosBun.MySql
