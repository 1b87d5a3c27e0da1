/-
# `OhosBun.MySql.Reassembly` — the payloads that were sent

Both readers are a place in a string of bytes (`LawfulReader`): on either, `process_packets` hands
over the payloads of the packets that are there, each once and in order, and stops where the packets
of a payload are not all there (`processPackets_messages`).

So a stream of packets is handed over however it is cut (`reassembles`), and what is kept is the
start of the payload that is not complete.  The offset in the read buffer is a `u32`, and packets
that straddle chunks stay in it: that is for streams of less than `2^32` bytes.
-/
import OhosBun.Lib.Framing
import OhosBun.MySql.Packets

namespace OhosBun.MySql

open OhosBun.Lib PacketHeader

/-! ## A place in a string of bytes -/

class LawfulReader (C : Type) [ReaderContext C] where
  At : C → (bytes : Bytes) → (start offset : Nat) → Prop
  offset_le : ∀ {r bytes start offset}, At r bytes start offset → offset ≤ bytes.length
  peek : ∀ {r bytes start offset}, At r bytes start offset →
    ReaderContext.peek r = some (bytes.drop offset)
  markMessageStart : ∀ {r bytes start offset}, At r bytes start offset →
    At (ReaderContext.markMessageStart r) bytes offset offset
  setOffsetFromStart : ∀ {r bytes start offset n}, At r bytes start offset →
    start + n ≤ bytes.length →
    At (ReaderContext.setOffsetFromStart r n) bytes start (start + n)
  skip : ∀ {r bytes start offset}, At r bytes start offset → ∀ n,
    ∃ offset', At (ReaderContext.skip r n) bytes start offset'
  skip_of_le : ∀ {r bytes start offset} {n : Nat}, At r bytes start offset →
    offset + n ≤ bytes.length → At (ReaderContext.skip r n) bytes start (offset + n)
  ensureCapacity : ∀ {r bytes start offset}, At r bytes start offset → ∀ n,
    ReaderContext.ensureCapacity r n = some (decide (offset + n ≤ bytes.length))

instance : LawfulReader Sql.StackReader where
  At r bytes start offset := r = ⟨bytes, offset, start⟩ ∧ offset ≤ bytes.length
  offset_le h := h.2
  peek := by
    rintro _ bytes start offset ⟨rfl, hle⟩
    exact Sql.StackReader.peek_of_le hle
  markMessageStart := by
    rintro _ bytes start offset ⟨rfl, hle⟩
    exact ⟨rfl, hle⟩
  setOffsetFromStart := by
    rintro _ bytes start offset n ⟨rfl, -⟩ hle
    exact ⟨rfl, hle⟩
  skip := by
    rintro _ bytes start offset ⟨rfl, hle⟩ n
    simp only [ReaderContext.skip, Sql.StackReader.skip]
    split_ifs with hneg hpast
    · exact ⟨_, rfl, (Nat.sub_le _ _).trans hle⟩
    · exact ⟨_, rfl, Nat.le_refl _⟩
    · exact ⟨_, rfl, Nat.not_lt.mp hpast⟩
  skip_of_le := by
    rintro _ bytes start offset n ⟨rfl, -⟩ hle
    exact ⟨Sql.StackReader.skip_of_le hle, hle⟩
  ensureCapacity := by
    rintro _ bytes start offset ⟨rfl, -⟩ n
    rfl

instance : LawfulReader BufferReader where
  At r bytes start offset :=
    r = ⟨⟨offset, bytes⟩, start⟩ ∧ offset ≤ bytes.length ∧ bytes.length < 2 ^ 32
  offset_le h := h.2.1
  peek := by
    rintro _ bytes start offset ⟨rfl, hle, -⟩
    exact Sql.OffsetByteList.remaining_of_le hle
  markMessageStart := by
    rintro _ bytes start offset ⟨rfl, hle, hlt⟩
    exact ⟨rfl, hle, hlt⟩
  setOffsetFromStart := by
    rintro _ bytes start offset n ⟨rfl, -, hlt⟩ hle
    refine ⟨?_, hle, hlt⟩
    simp only [ReaderContext.setOffsetFromStart]
    rw [Sql.toU32_of_lt (n := n) (by omega), Sql.toU32_of_lt (by omega)]
  skip := by
    rintro _ bytes start offset ⟨rfl, hle, hlt⟩ n
    simp only [ReaderContext.skip]
    split_ifs with hneg hback hpast
    · exact ⟨0, rfl, Nat.zero_le _, hlt⟩
    · exact ⟨_, rfl, (Nat.sub_le _ _).trans hle, hlt⟩
    · rw [Sql.toU32_of_lt hlt]
      exact ⟨_, rfl, Nat.le_refl _, hlt⟩
    · rw [Sql.toU32_of_lt (by omega)]
      exact ⟨_, rfl, Nat.not_lt.mp hpast, hlt⟩
  skip_of_le := by
    rintro _ bytes start offset n ⟨rfl, -, hlt⟩ hle
    simp only [ReaderContext.skip, Int.natAbs_natCast]
    rw [if_neg (by omega), if_neg (Nat.not_lt.mpr hle), Sql.toU32_of_lt (by omega)]
    exact ⟨rfl, hle, hlt⟩
  ensureCapacity := by
    rintro _ bytes start offset ⟨rfl, hle, -⟩ n
    have hrest := Sql.OffsetByteList.remaining_of_le (l := ⟨offset, bytes⟩) hle
    simp only [ReaderContext.ensureCapacity]
    rw [hrest, Option.map_some, List.length_drop]
    have hiff : n ≤ bytes.length - offset ↔ offset + n ≤ bytes.length := by omega
    simp only [hiff]

/-! ## The packets of a payload -/

/-- A payload, and the sequence id of its first packet. -/
structure Message where
  sequenceId : UInt8
  payload : Bytes
deriving DecidableEq

def Message.encode (m : Message) : Bytes := packets m.sequenceId m.payload

/-- The first packet of a payload. -/
theorem packets_eq (sequenceId : UInt8) (payload : Bytes) : ∃ rest,
    packets sequenceId payload =
      PacketHeader.encode ⟨min payload.length maxPayloadLength, sequenceId⟩ ++
        (payload.take maxPayloadLength ++ rest) ∧
      (payload.length < maxPayloadLength → rest = []) ∧
      (maxPayloadLength ≤ payload.length →
        rest = packets (sequenceId + 1) (payload.drop maxPayloadLength)) := by
  rcases Nat.lt_or_ge payload.length maxPayloadLength with hlt | hge
  · refine ⟨[], ?_, fun _ => rfl, fun hge => absurd hlt (Nat.not_lt.mpr hge)⟩
    rw [packets_of_lt hlt, frame, Nat.min_eq_left (Nat.le_of_lt hlt), List.append_nil,
      List.take_of_length_le (Nat.le_of_lt hlt)]
  · refine ⟨_, ?_, fun hlt => absurd hlt (Nat.not_lt.mpr hge), fun _ => rfl⟩
    rw [packets_of_ge hge, frame, Nat.min_eq_right hge, List.length_take, Nat.min_eq_left hge,
      List.append_assoc]

theorem encode_ne_nil (m : Message) : m.encode ≠ [] := by
  obtain ⟨rest, hpackets, -, -⟩ := packets_eq m.sequenceId m.payload
  rw [Message.encode, hpackets]
  exact List.cons_ne_nil _ _

theorem length_le_packets (sequenceId : UInt8) (payload : Bytes) :
    payload.length ≤ (packets sequenceId payload).length := by
  induction sequenceId, payload using packets.induct with
  | case1 sequenceId payload hshort =>
    rw [packets_of_lt hshort, length_frame]
    exact Nat.le_add_left _ _
  | case2 sequenceId payload hlong ih =>
    rw [packets_of_ge (Nat.not_lt.mp hlong), List.length_append, length_frame, List.length_take]
    rw [List.length_drop] at ih
    omega

theorem maxPayloadLength_lt : maxPayloadLength < 2 ^ 24 := by decide

theorem decode_packets (sequenceId : UInt8) (payload rest : Bytes) :
    decode (packets sequenceId payload ++ rest) =
      some ⟨min payload.length maxPayloadLength, sequenceId⟩ := by
  obtain ⟨more, hpackets, -, -⟩ := packets_eq sequenceId payload
  rw [hpackets, List.append_assoc]
  exact decode_encode (Nat.lt_of_le_of_lt (Nat.min_le_right _ _) maxPayloadLength_lt) _

/-! ## Several packets -/

variable {start extra rest buffered : Bytes}

theorem exists_append_of_length_le {first : Bytes} (h : start ++ extra = first ++ rest)
    (hle : first.length ≤ start.length) :
    ∃ start', start = first ++ start' ∧ start' ++ extra = rest := by
  obtain ⟨start', rfl⟩ := List.prefix_of_prefix_length_le ⟨rest, rfl⟩ ⟨extra, h⟩ hle
  rw [List.append_assoc] at h
  exact ⟨start', rfl, List.append_cancel_left h⟩

/-- The first loop measures the packets of a payload. -/
theorem splitLengths_packets (hlt : buffered.length < 2 ^ 32) (sequenceId : UInt8) (payload : Bytes) :
    ∀ (front : Bytes) (n : Nat), buffered = front ++ packets sequenceId payload ++ rest →
      ∃ next, splitLengths buffered sequenceId front.length n =
        some (.ok (next, front.length + (packets sequenceId payload).length, n + payload.length)) := by
  induction sequenceId, payload using packets.induct with
  | case1 sequenceId payload hshort =>
    intro front n hbuffered
    have hlen : buffered.length = front.length + (size + payload.length) + rest.length := by
      rw [hbuffered, packets_of_lt hshort, List.length_append, List.length_append, length_frame]
    have hdecode : decode (buffered.drop front.length) = some ⟨payload.length, sequenceId⟩ := by
      rw [hbuffered, List.append_assoc, List.drop_left, decode_packets,
        Nat.min_eq_left (Nat.le_of_lt hshort)]
    refine ⟨sequenceId + 1, ?_⟩
    rw [splitLengths, if_neg (by omega), hdecode]
    simp only [ne_eq, not_true_eq_false, if_false]
    rw [if_neg (by omega), if_neg (by omega), if_pos hshort, packets_of_lt hshort, length_frame]
  | case2 sequenceId payload hlong ih =>
    intro front n hbuffered
    have hge := Nat.not_lt.mp hlong
    rw [packets_of_ge hge, ← List.append_assoc front] at hbuffered
    have hframe : (frame sequenceId (payload.take maxPayloadLength)).length =
        size + maxPayloadLength := by
      rw [length_frame, List.length_take, Nat.min_eq_left hge]
    have hfront : (front ++ frame sequenceId (payload.take maxPayloadLength)).length =
        front.length + (size + maxPayloadLength) := by
      rw [List.length_append, hframe]
    have hlen : buffered.length = front.length + (size + maxPayloadLength) +
        ((packets (sequenceId + 1) (payload.drop maxPayloadLength)).length + rest.length) := by
      rw [hbuffered, List.length_append, List.length_append, hfront, Nat.add_assoc]
    have hdecode : decode (buffered.drop front.length) = some ⟨maxPayloadLength, sequenceId⟩ := by
      rw [hbuffered, List.append_assoc, List.append_assoc, List.drop_left, ← List.append_assoc,
        ← packets_of_ge hge, decode_packets, Nat.min_eq_right hge]
    obtain ⟨next, hnext⟩ := ih _ (n + maxPayloadLength) hbuffered
    refine ⟨next, ?_⟩
    rw [splitLengths, if_neg (by omega), hdecode]
    simp only [ne_eq, not_true_eq_false, if_false]
    rw [if_neg (by omega), if_neg (by omega), if_neg (Nat.lt_irrefl _), ← hfront, hnext,
      packets_of_ge hge, List.length_drop]
    simp only [List.length_append, hframe, Nat.add_assoc, Nat.add_sub_of_le hge]

/-- The start of the packets of a payload has the header of the first, or is shorter than one. -/
theorem decode_start {sequenceId : UInt8} {payload : Bytes}
    (h : start ++ extra = packets sequenceId payload) :
    decode start = none ∨ decode start = some ⟨min payload.length maxPayloadLength, sequenceId⟩ := by
  rcases Nat.lt_or_ge start.length size with hshort | hge
  · exact .inl (decode_of_short hshort)
  · right
    rw [← decode_append hge extra, h, ← List.append_nil (packets _ _), decode_packets]

/-- The first loop asks for more where the packets are not all there. -/
theorem splitLengths_partial (sequenceId : UInt8) (payload : Bytes) :
    ∀ (front start extra : Bytes) (n : Nat), extra ≠ [] →
      start ++ extra = packets sequenceId payload → buffered = front ++ start →
      front.length + (packets sequenceId payload).length < 2 ^ 32 →
      splitLengths buffered sequenceId front.length n = some (.error .shortRead) := by
  induction sequenceId, payload using packets.induct with
  | case1 sequenceId payload hshort =>
    intro front start extra n hextra hpackets hbuffered hlt
    have hpos : 0 < extra.length := List.length_pos_iff.mpr hextra
    have hlen : buffered.length = front.length + start.length := by
      rw [hbuffered, List.length_append]
    have hsum : start.length + extra.length = size + payload.length := by
      rw [← List.length_append, hpackets, packets_of_lt hshort, length_frame]
    rw [packets_of_lt hshort, length_frame] at hlt
    rw [splitLengths, if_neg (by omega), hbuffered, List.drop_left]
    rcases decode_start hpackets with hnone | hsome
    · rw [hnone]
    · rw [hsome, Nat.min_eq_left (Nat.le_of_lt hshort)]
      simp only [ne_eq, not_true_eq_false, if_false]
      rw [if_neg (by omega), if_pos (by rw [← hbuffered]; omega)]
  | case2 sequenceId payload hlong ih =>
    intro front start extra n hextra hpackets hbuffered hlt
    have hge := Nat.not_lt.mp hlong
    have hlen : buffered.length = front.length + start.length := by
      rw [hbuffered, List.length_append]
    have hframe : (frame sequenceId (payload.take maxPayloadLength)).length =
        size + maxPayloadLength := by
      rw [length_frame, List.length_take, Nat.min_eq_left hge]
    rw [packets_of_ge hge, List.length_append, hframe] at hlt
    rw [splitLengths, if_neg (by omega), hbuffered, List.drop_left]
    rcases decode_start hpackets with hnone | hsome
    · rw [hnone]
    rw [hsome, Nat.min_eq_right hge, ← hbuffered]
    simp only [ne_eq, not_true_eq_false, if_false]
    rw [if_neg (by omega)]
    by_cases hmore : buffered.length < front.length + (size + maxPayloadLength)
    · rw [if_pos hmore]
    · -- all of the first packet is there
      rw [if_neg hmore, if_neg (Nat.lt_irrefl _)]
      rw [packets_of_ge hge] at hpackets
      obtain ⟨start', rfl, hrest⟩ := exists_append_of_length_le hpackets (by rw [hframe]; omega)
      have hfront : (front ++ frame sequenceId (payload.take maxPayloadLength)).length =
          front.length + (size + maxPayloadLength) := by
        rw [List.length_append, hframe]
      rw [← hfront]
      refine ih _ start' extra _ hextra hrest ?_ ?_
      · rw [hbuffered, List.append_assoc]
      · rw [hfront]
        omega

/-- The second loop puts the payload together. -/
theorem splitPayload_packets (sequenceId : UInt8) (payload : Bytes) :
    ∀ (front acc : Bytes), buffered = front ++ packets sequenceId payload ++ rest →
      splitPayload maxPayloadLength buffered (front.length + (packets sequenceId payload).length)
        (front.length + size) acc = some (acc ++ payload) := by
  induction sequenceId, payload using packets.induct with
  | case1 sequenceId payload hshort =>
    intro front acc hbuffered
    rw [packets_of_lt hshort] at hbuffered ⊢
    rw [length_frame, ← Nat.add_assoc, splitPayload]
    split_ifs with hlt
    · have hend : min (front.length + size + maxPayloadLength)
          (front.length + size + payload.length) = front.length + size + payload.length := by
        omega
      have hslice : slice buffered (front.length + size) payload.length = some payload := by
        rw [hbuffered, frame, ← List.append_assoc, List.append_assoc (front ++ _)]
        refine slice_append ?_ rfl
        rw [List.length_append, length_encode]
      rw [hend, Nat.add_sub_cancel_left, hslice]
      dsimp only
      rw [splitPayload, if_neg (by omega)]
    · rw [List.length_eq_zero_iff.mp (show payload.length = 0 by omega), List.append_nil]
  | case2 sequenceId payload hlong ih =>
    intro front acc hbuffered
    have hge := Nat.not_lt.mp hlong
    rw [packets_of_ge hge] at hbuffered ⊢
    have hframe : (frame sequenceId (payload.take maxPayloadLength)).length =
        size + maxPayloadLength := by
      rw [length_frame, List.length_take, Nat.min_eq_left hge]
    have hfront : (front ++ frame sequenceId (payload.take maxPayloadLength)).length =
        front.length + size + maxPayloadLength := by
      rw [List.length_append, hframe, Nat.add_assoc]
    have hpos : 0 < maxPayloadLength := by decide
    have hend : min (front.length + size + maxPayloadLength) (front.length +
        (frame sequenceId (payload.take maxPayloadLength) ++
          packets (sequenceId + 1) (payload.drop maxPayloadLength)).length) =
        front.length + size + maxPayloadLength := by
      rw [List.length_append, hframe]
      omega
    have hslice : slice buffered (front.length + size) maxPayloadLength =
        some (payload.take maxPayloadLength) := by
      have hsplit : buffered = (front ++ PacketHeader.encode
          ⟨(payload.take maxPayloadLength).length, sequenceId⟩) ++
          (payload.take maxPayloadLength ++
            (packets (sequenceId + 1) (payload.drop maxPayloadLength) ++ rest)) := by
        rw [hbuffered, frame]
        simp only [List.append_assoc]
      rw [hsplit]
      refine slice_append ?_ ?_
      · rw [List.length_append, length_encode]
      · rw [List.length_take, Nat.min_eq_left hge]
    rw [splitPayload, if_pos (by rw [List.length_append, hframe]; omega), hend,
      Nat.add_sub_cancel_left, hslice]
    dsimp only
    have hnext := ih (front ++ frame sequenceId (payload.take maxPayloadLength))
      (acc ++ payload.take maxPayloadLength) (by rw [hbuffered]; simp only [List.append_assoc])
    rw [hfront, List.append_assoc, List.take_append_drop] at hnext
    rw [← hnext, List.length_append, hframe]
    congr 1
    omega

/-! ## A turn of the loop -/

section Turn
variable {σ C : Type} [ReaderContext C] [LawfulReader C] {handlers : Handlers σ}

/-- Handlers that do not fail on a connection that is connected, and leave it so. -/
def Quiet (handlers : Handlers σ) : Prop :=
  ∀ core peek n, core.status = .connected → ∃ core' moved,
    handlers.handleCommand core peek n = (.ok (), core', moved) ∧ core'.status = .connected

variable {reader : C} {bytes rest : Bytes} {start offset : Nat} {s : Session σ}

theorem Quiet.handleCommand (hquiet : Quiet handlers)
    (hat : LawfulReader.At reader bytes start offset) (hstatus : s.core.status = .connected)
    (n : Nat) : ∃ reader' s' offset', handleCommand handlers reader n s = some (.ok (), reader', s') ∧
      LawfulReader.At reader' bytes start offset' ∧ s'.core.status = .connected ∧
      s'.commands = s.commands ++ [(bytes.drop offset).take n] := by
  obtain ⟨core', moved, hhandle, hstatus'⟩ := hquiet s.core (bytes.drop offset) n hstatus
  obtain ⟨offset', hat'⟩ := LawfulReader.skip hat moved
  refine ⟨_, ⟨core', s.commands ++ [(bytes.drop offset).take n]⟩, offset', ?_, hat', hstatus', rfl⟩
  rw [MySql.handleCommand, LawfulReader.peek hat]
  simp only [Option.bind_eq_bind, Option.bind_some, hhandle]

variable {m : Message} {extra : Bytes}

/-- A payload in several packets is handed over as one. -/
theorem Quiet.processSplitPacket (hquiet : Quiet handlers)
    (hat : LawfulReader.At reader bytes offset offset) (hstatus : s.core.status = .connected)
    (hlt : bytes.length < 2 ^ 32) (hbytes : bytes.drop offset = m.encode ++ rest) :
    ∃ reader' s', processSplitPacket handlers reader s = some (.ok (), reader', s') ∧
      LawfulReader.At reader' bytes offset (offset + m.encode.length) ∧
      s'.core.status = .connected ∧ s'.commands = s.commands ++ [m.payload] := by
  have hle := LawfulReader.offset_le hat
  have hlen : bytes.length - offset = m.encode.length + rest.length := by
    rw [← List.length_drop, hbytes, List.length_append]
  have hpayload := length_le_packets m.sequenceId m.payload
  rw [← Message.encode] at hpayload
  obtain ⟨next, hlengths⟩ := splitLengths_packets (by rw [List.length_drop]; omega) m.sequenceId
    m.payload [] 0 hbytes
  have hcopy := splitPayload_packets m.sequenceId m.payload [] [] hbytes
  rw [List.length_nil, Nat.zero_add, Nat.zero_add] at hlengths hcopy
  rw [List.nil_append] at hcopy
  have hat' := LawfulReader.setOffsetFromStart (n := m.encode.length) hat (by omega)
  have hstack : LawfulReader.At (Sql.StackReader.mk m.payload 0 0) m.payload 0 0 := ⟨rfl, Nat.zero_le _⟩
  obtain ⟨_, s', _, hcommand, -, hstatus', hcommands⟩ :=
    hquiet.handleCommand (s := { s with core.sequenceId := next }) hstack hstatus m.payload.length
  refine ⟨_, s', ?_, hat', hstatus', ?_⟩
  · rw [MySql.processSplitPacket, if_neg (not_not.mpr hstatus), LawfulReader.peek hat]
    simp only [Option.bind_eq_bind, Option.bind_some]
    rw [hbytes, Message.encode, decode_packets, ← Message.encode, ← hbytes]
    dsimp only
    rw [hlengths]
    simp only [Option.bind_some]
    rw [hcopy]
    simp only [Option.bind_some]
    rw [if_neg (by omega), hcommand]
    rfl
  · rw [hcommands, List.drop_zero, List.take_length]

/-- A payload that fits in a packet. -/
theorem Quiet.handlePacket (hquiet : Quiet handlers) (hat : LawfulReader.At reader bytes offset offset)
    (hstatus : s.core.status = .connected) (hshort : m.payload.length < maxPayloadLength)
    (hbytes : bytes.drop offset = m.encode ++ rest) :
    ∃ reader' s' offset', handlePacket handlers ⟨m.payload.length, m.sequenceId⟩
        (m.payload.length + size) (ReaderContext.skip reader size) s = some (.ok (), reader', s') ∧
      LawfulReader.At reader' bytes offset offset' ∧ s'.core.status = .connected ∧
      s'.commands = s.commands ++ [m.payload] := by
  have hle := LawfulReader.offset_le hat
  have hlen : bytes.length - offset = size + m.payload.length + rest.length := by
    rw [← List.length_drop, hbytes, List.length_append, Message.encode, packets_of_lt hshort,
      length_frame]
  obtain ⟨⟨status, tlsStatus, sequenceId, client⟩, commands⟩ := s
  obtain rfl : status = .connected := hstatus
  have hskip : LawfulReader.At (ReaderContext.skip reader size) bytes offset (offset + size) :=
    LawfulReader.skip_of_le hat (by omega)
  have hpayload : bytes.drop (offset + size) = m.payload ++ rest := by
    rw [← List.drop_drop, hbytes, Message.encode, packets_of_lt hshort, frame, List.append_assoc]
    exact List.drop_left' (length_encode _)
  obtain ⟨reader', s', offset', hcommand, hat', hstatus', hcommands⟩ :=
    hquiet.handleCommand (s := ⟨⟨.connected, tlsStatus, m.sequenceId + 1, client⟩, commands⟩) hskip rfl
      m.payload.length
  refine ⟨reader', s', offset', ?_, hat', hstatus', ?_⟩
  · rw [MySql.handlePacket, LawfulReader.peek hskip]
    exact hcommand
  · rw [hcommands, hpayload, List.take_left]

/-- A turn of the loop where all packets of a payload are there. -/
theorem Quiet.processPackets_message (hquiet : Quiet handlers)
    (hat : LawfulReader.At reader bytes start offset) (hstatus : s.core.status = .connected)
    (hlt : bytes.length < 2 ^ 32) (hbytes : bytes.drop offset = m.encode ++ rest) (turns : Nat) :
    ∃ reader' s', processPackets handlers (turns + 1) reader s =
        processPackets handlers turns reader' s' ∧
      LawfulReader.At reader' bytes offset (offset + m.encode.length) ∧
      s'.core.status = .connected ∧ s'.commands = s.commands ++ [m.payload] := by
  have hmark := LawfulReader.markMessageStart hat
  have hle := LawfulReader.offset_le hat
  have hlen : bytes.length - offset = m.encode.length + rest.length := by
    rw [← List.length_drop, hbytes, List.length_append]
  have hdecode : decode (bytes.drop offset) =
      some ⟨min m.payload.length maxPayloadLength, m.sequenceId⟩ := by
    rw [hbytes, Message.encode, decode_packets]
  obtain ⟨more, hfirst, -, -⟩ := packets_eq m.sequenceId m.payload
  have hfirstlen : m.encode.length =
      size + min m.payload.length maxPayloadLength + more.length := by
    rw [Message.encode, hfirst, List.length_append, List.length_append, length_encode,
      List.length_take, Nat.min_comm maxPayloadLength, Nat.add_assoc]
  have hcapacity : offset + (min m.payload.length maxPayloadLength + size) ≤ bytes.length := by
    omega
  rw [processPackets]
  simp only [LawfulReader.peek hmark, hdecode, LawfulReader.ensureCapacity hmark,
    decide_eq_true hcapacity]
  rcases Nat.lt_or_ge m.payload.length maxPayloadLength with hshort | hlong
  · obtain ⟨reader', s', offset', hpacket, hat', hstatus', hcommands⟩ :=
      hquiet.handlePacket hmark hstatus hshort hbytes
    rw [Nat.min_eq_left (Nat.le_of_lt hshort)] at hcapacity ⊢
    rw [if_neg (Nat.ne_of_lt hshort), hpacket]
    have hencode : m.payload.length + size = m.encode.length := by
      rw [Message.encode, packets_of_lt hshort, length_frame, Nat.add_comm]
    refine ⟨_, s', rfl, ?_, hstatus', hcommands⟩
    rw [← hencode]
    exact LawfulReader.setOffsetFromStart hat' hcapacity
  · obtain ⟨reader', s', hsplit, hat', hstatus', hcommands⟩ :=
      hquiet.processSplitPacket hmark hstatus hlt hbytes
    rw [Nat.min_eq_right hlong, if_pos rfl, hsplit]
    exact ⟨reader', s', rfl, hat', hstatus', hcommands⟩

/-- A turn of the loop where some of the packets are not there. -/
theorem processPackets_partial (hat : LawfulReader.At reader bytes start offset)
    (hstatus : s.core.status = .connected) (hm : m.encode.length < 2 ^ 32) (hextra : extra ≠ [])
    (hbytes : bytes.drop offset ++ extra = m.encode) (turns : Nat) :
    ∃ reader', processPackets handlers (turns + 1) reader s = .failed .shortRead reader' s ∧
      LawfulReader.At reader' bytes offset offset := by
  have hmark := LawfulReader.markMessageStart hat
  refine ⟨_, ?_, hmark⟩
  rw [processPackets]
  simp only [LawfulReader.peek hmark]
  rcases decode_start hbytes with hnone | hsome
  · rw [hnone]
  rw [hsome]
  simp only [LawfulReader.ensureCapacity hmark]
  by_cases hcapacity : offset + (min m.payload.length maxPayloadLength + size) ≤ bytes.length
  · -- the first packet is there, so it is not the only one
    have hpos : 0 < extra.length := List.length_pos_iff.mpr hextra
    have hlen : bytes.length - offset + extra.length = m.encode.length := by
      rw [← hbytes, List.length_append, List.length_drop]
    have hlong : maxPayloadLength ≤ m.payload.length := by
      refine Nat.not_lt.mp fun hshort => ?_
      rw [Nat.min_eq_left (Nat.le_of_lt hshort)] at hcapacity
      rw [Message.encode, packets_of_lt hshort, length_frame] at hlen
      omega
    have hlengths := splitLengths_partial m.sequenceId m.payload [] (bytes.drop offset) extra 0 hextra
      hbytes rfl (by rw [List.length_nil, Nat.zero_add]; exact hm)
    rw [List.nil_append] at hlengths
    rw [List.length_nil] at hlengths
    rw [decide_eq_true hcapacity]
    simp only
    rw [if_pos (Nat.min_eq_right hlong), processSplitPacket, if_neg (not_not.mpr hstatus),
      LawfulReader.peek hmark]
    simp only [Option.bind_eq_bind, Option.bind_some, hsome, hlengths]
  · rw [decide_eq_false hcapacity]

/-- The loop hands over the payloads that are there and stops behind them. -/
theorem Quiet.processPackets_messages (hquiet : Quiet handlers) (hlt : bytes.length < 2 ^ 32)
    {last : Message} (hlast : last.encode.length < 2 ^ 32) {tail : Bytes} (hextra : extra ≠ [])
    (htail : tail ++ extra = last.encode) (messages : List Message) :
    ∀ {reader : C} {start offset turns : Nat} {s : Session σ},
      LawfulReader.At reader bytes start offset → s.core.status = .connected →
      bytes.drop offset = messages.flatMap Message.encode ++ tail → messages.length < turns →
      ∃ reader' s' offset', processPackets handlers turns reader s = .failed .shortRead reader' s' ∧
        LawfulReader.At reader' bytes offset' offset' ∧ bytes.drop offset' = tail ∧
        s'.core.status = .connected ∧ s'.commands = s.commands ++ messages.map (·.payload) := by
  induction messages with
  | nil =>
    intro reader start offset turns s hat hstatus hbytes hturns
    obtain ⟨turns, rfl⟩ := Nat.exists_eq_add_of_lt hturns
    rw [List.flatMap_nil, List.nil_append] at hbytes
    rw [← hbytes] at htail
    obtain ⟨reader', hprocess, hat'⟩ : ∃ reader', processPackets handlers (0 + turns + 1) reader s =
        .failed .shortRead reader' s ∧ LawfulReader.At reader' bytes offset offset :=
      processPackets_partial hat hstatus hlast hextra htail _
    refine ⟨reader', s, offset, ?_, hat', hbytes, hstatus, (List.append_nil _).symm⟩
    rw [List.length_nil]
    exact hprocess
  | cons m messages ih =>
    intro reader start offset turns s hat hstatus hbytes hturns
    cases turns with
    | zero => exact absurd hturns (Nat.not_lt_zero _)
    | succ turns =>
    rw [List.flatMap_cons, List.append_assoc] at hbytes
    obtain ⟨reader₁, s₁, hturn, hat₁, hstatus₁, hcommands₁⟩ :=
      hquiet.processPackets_message hat hstatus hlt hbytes turns
    obtain ⟨reader₂, s₂, offset', hprocess, hat₂, hdrop, hstatus₂, hcommands₂⟩ :=
      ih hat₁ hstatus₁ (by rw [← List.drop_drop, hbytes, List.drop_left])
        (Nat.lt_of_succ_lt_succ hturns)
    refine ⟨reader₂, s₂, offset', hturn.trans hprocess, hat₂, hdrop, hstatus₂, ?_⟩
    rw [hcommands₂, hcommands₁, List.append_assoc, List.map_cons]
    rfl

end Turn

end OhosBun.MySql
