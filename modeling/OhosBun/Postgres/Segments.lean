/-
# `OhosBun.Postgres.Segments` — a stream of messages, however it is cut

Both readers are a place in a string of bytes (`LawfulReader`): on either, the dispatch loop calls
`on` for the messages that are there, each once and in order, and stops where a message is not all
there (`Quiet.onData_messages`).  So it does not matter where the chunks of a stream end, and what
is behind the last message start is the start of the message that is not complete
(`segmentation`).

The offset in the read buffer is a `u32`, and messages that straddle chunks stay in it: that is for
streams of less than `2^32` bytes.
-/
import OhosBun.Lib.Framing
import OhosBun.Postgres.Messages

namespace OhosBun.Postgres

open OhosBun.Lib

/-! ## A place in a string of bytes -/

class LawfulReader (C : Type) [ReaderContext C] where
  At : C → (bytes : Bytes) → (start offset : Nat) → Prop
  offset_le : ∀ {r bytes start offset}, At r bytes start offset → offset ≤ bytes.length
  markMessageStart : ∀ {r bytes start offset}, At r bytes start offset →
    At (ReaderContext.markMessageStart r) bytes offset offset
  peek : ∀ {r bytes start offset}, At r bytes start offset →
    ReaderContext.peek r = some (bytes.drop offset)
  skip : ∀ {r bytes start offset n}, At r bytes start offset → offset + n ≤ bytes.length →
    At (ReaderContext.skip r n) bytes start (offset + n)
  ensureLength : ∀ {r bytes start offset}, At r bytes start offset → ∀ n,
    ReaderContext.ensureLength r n = decide (offset + n ≤ bytes.length)
  read_of_le : ∀ {r bytes start offset n}, At r bytes start offset → offset + n ≤ bytes.length →
    ∃ r', ReaderContext.read r n = some (.ok ((bytes.drop offset).take n), r') ∧
      At r' bytes start (offset + n)
  read_of_lt : ∀ {r bytes start offset n}, At r bytes start offset → bytes.length < offset + n →
    ReaderContext.read r n = some (.error .shortRead, r)

instance : LawfulReader Sql.StackReader where
  At r bytes start offset :=
    r = ⟨bytes, offset, start⟩ ∧ offset ≤ bytes.length ∧ bytes.length < 2 ^ 32
  offset_le h := h.2.1
  markMessageStart := by
    rintro _ bytes start offset ⟨rfl, hle, hlt⟩
    exact ⟨rfl, hle, hlt⟩
  peek := by
    rintro _ bytes start offset ⟨rfl, hle, -⟩
    exact Sql.StackReader.peek_of_le hle
  skip := by
    rintro _ bytes start offset n ⟨rfl, -, hlt⟩ hle
    simp only [ReaderContext.skip]
    rw [Nat.min_eq_left (by omega)]
    exact ⟨Sql.StackReader.skip_of_le hle, hle, hlt⟩
  ensureLength := by
    rintro _ bytes start offset ⟨rfl, -⟩ n
    rfl
  read_of_le := by
    rintro _ bytes start offset n ⟨rfl, -, hlt⟩ hle
    refine ⟨⟨bytes, offset + n, start⟩, ?_, rfl, hle, hlt⟩
    simp only [ReaderContext.read]
    rw [Sql.StackReader.read_of_le hle]
  read_of_lt := by
    rintro _ bytes start offset n ⟨rfl, -⟩ hlt
    simp only [ReaderContext.read]
    rw [Sql.StackReader.read_of_lt hlt]

theorem BufferReader.skip_of_le {bytes : Bytes} {start offset n : Nat}
    (hle : offset + n ≤ bytes.length) (hlt : bytes.length < 2 ^ 32) :
    (BufferReader.mk ⟨offset, bytes⟩ start).skip n = ⟨⟨offset + n, bytes⟩, start⟩ := by
  simp only [BufferReader.skip]
  rw [Sql.toU32_of_lt (n := n) (by omega), Sql.toU32_of_lt (by omega), Sql.toU32_of_lt hlt,
    Nat.min_eq_left hle]

instance : LawfulReader BufferReader where
  At r bytes start offset :=
    r = ⟨⟨offset, bytes⟩, start⟩ ∧ offset ≤ bytes.length ∧ bytes.length < 2 ^ 32
  offset_le h := h.2.1
  markMessageStart := by
    rintro _ bytes start offset ⟨rfl, hle, hlt⟩
    exact ⟨rfl, hle, hlt⟩
  peek := by
    rintro _ bytes start offset ⟨rfl, hle, -⟩
    exact Sql.OffsetByteList.remaining_of_le hle
  skip := by
    rintro _ bytes start offset n ⟨rfl, -, hlt⟩ hle
    exact ⟨BufferReader.skip_of_le hle hlt, hle, hlt⟩
  ensureLength := by
    rintro _ bytes start offset ⟨rfl, -⟩ n
    rfl
  read_of_le := by
    rintro _ bytes start offset n ⟨rfl, hoffset, hlt⟩ hle
    refine ⟨⟨⟨offset + n, bytes⟩, start⟩, ?_, rfl, hle, hlt⟩
    have hrest := Sql.OffsetByteList.remaining_of_le (l := ⟨offset, bytes⟩) hoffset
    have hlen : ¬(bytes.drop offset).length < n := by
      rw [List.length_drop]
      omega
    simp only [ReaderContext.read, BufferReader.read]
    rw [hrest, Option.map_some, if_neg hlen, BufferReader.skip_of_le hle hlt]
  read_of_lt := by
    rintro _ bytes start offset n ⟨rfl, hoffset, -⟩ hlt
    have hrest := Sql.OffsetByteList.remaining_of_le (l := ⟨offset, bytes⟩) hoffset
    have hlen : (bytes.drop offset).length < n := by
      rw [List.length_drop]
      omega
    simp only [ReaderContext.read, BufferReader.read]
    rw [hrest, Option.map_some, if_pos hlen]

/-! ## Messages -/

structure Message where
  type : UInt8
  body : Bytes
deriving DecidableEq

namespace Message

/-- The length, which counts itself. -/
def length (m : Message) : Nat := 4 + m.body.length

def encode (m : Message) : Bytes := m.type :: (beBytes 4 m.length ++ m.body)

theorem length_encode (m : Message) : m.encode.length = 1 + m.length := by
  rw [encode, length, List.length_cons, List.length_append, beBytes_length]
  omega

theorem encode_ne_nil (m : Message) : m.encode ≠ [] := List.cons_ne_nil _ _

/-- What `on` is called with; a message of another type is skipped. -/
def received (m : Message) : Option (MessageType × Bytes) :=
  (messageType m.type.toNat).map fun type => (type, m.body)

/-- A message that fits, with a body that is one of its type. -/
def WellFormed (ofType : MessageType → Bytes → Prop) (m : Message) : Prop :=
  m.length < 2 ^ 31 ∧ ∀ type ∈ messageType m.type.toNat, ofType type m.body

end Message

/-- Connections that are not failed, and do not wait for the answer to a request for TLS. -/
def Core.Running {σ : Type} (core : Core σ) : Prop :=
  core.status ≠ .failed ∧ ∀ n, core.tlsStatus ≠ .messageSent n

/-- Handlers that take the body of a message and do not fail. -/
def Quiet {σ : Type} (handlers : Handlers σ) (ofType : MessageType → Bytes → Prop) : Prop :=
  ∀ core type body rest, core.Running → ofType type body → 4 + body.length < 2 ^ 31 → ∃ core',
    handlers.on core type (beBytes 4 (4 + body.length) ++ (body ++ rest)) =
      (.ok (), core', 4 + body.length) ∧ core'.Running

/-! ## A turn of the loop -/

section Turn
variable {σ C : Type} [ReaderContext C] [LawfulReader C] {handlers : Handlers σ}
  {ofType : MessageType → Bytes → Prop} {reader : C} {bytes rest : Bytes} {start offset : Nat}
  {s : Session σ}

variable {n : Nat} {m : Message} {extra : Bytes}

theorem validateLength_of_lt (hge : 4 ≤ n) (hlt : n < 2 ^ 31) :
    validateLength n = .ok n := if_neg (by omega)

theorem ofBe_length (hlt : m.length < 2 ^ 31) (rest : Bytes) :
    ofBe ((beBytes 4 m.length ++ rest).take 4) = m.length := by
  rw [List.take_left' (beBytes_length 4 _)]
  exact ofBe_beBytes (Nat.lt_trans hlt (by decide))

theorem int_of_le (hat : LawfulReader.At reader bytes start offset) (hle : offset + n ≤ bytes.length) :
    ∃ reader',
      int n reader = some (.ok (ofBe ((bytes.drop offset).take n)), reader') ∧
        LawfulReader.At reader' bytes start (offset + n) := by
  obtain ⟨reader', hread, hat'⟩ := LawfulReader.read_of_le hat hle
  exact ⟨reader', by rw [int, hread]; rfl, hat'⟩

theorem int_of_lt (hat : LawfulReader.At reader bytes start offset) (hlt : bytes.length < offset + n) :
    int n reader = some (.error .shortRead, reader) := by
  rw [int, LawfulReader.read_of_lt hat hlt]
  rfl

/-- The length of a message that is there. -/
theorem peekLength_message (hat : LawfulReader.At reader bytes start offset) (hlt : m.length < 2 ^ 31)
    (hbytes : bytes.drop offset = beBytes 4 m.length ++ (m.body ++ rest)) :
    peekLength reader = some (.ok (bytes.length - offset, m.length)) := by
  have hlen := congrArg List.length hbytes
  rw [List.length_append, List.length_append, beBytes_length, List.length_drop] at hlen
  have hge : 4 ≤ m.length := Nat.le_add_right _ _
  rw [peekLength, LawfulReader.peek hat]
  simp only [Option.bind_eq_bind, Option.bind_some, List.length_drop]
  rw [if_neg (by omega), hbytes, ofBe_length hlt, validateLength_of_lt hge hlt]
  dsimp only
  rw [if_neg (by rw [Message.length]; omega)]

theorem skipMessage_message (hat : LawfulReader.At reader bytes start offset) (hlt : m.length < 2 ^ 31)
    (hbytes : bytes.drop offset = beBytes 4 m.length ++ (m.body ++ rest)) :
    ∃ reader', skipMessage reader = some (.ok (), reader') ∧
      LawfulReader.At reader' bytes start (offset + m.length) := by
  have hlen := congrArg List.length hbytes
  rw [List.length_append, List.length_append, beBytes_length, List.length_drop] at hlen
  have hge : 4 ≤ m.length := Nat.le_add_right _ _
  have hbody : m.length - 4 = m.body.length := Nat.add_sub_cancel_left _ _
  obtain ⟨reader', hint, hat'⟩ := int_of_le (n := 4) hat (by omega)
  have hcapacity : offset + 4 + (m.length - 4) ≤ bytes.length := by omega
  have hskip := LawfulReader.skip hat' hcapacity
  refine ⟨_, ?_, by rwa [Nat.add_assoc, Nat.add_sub_of_le hge] at hskip⟩
  rw [hbytes, ofBe_length hlt] at hint
  rw [skipMessage, bodyLength, length, hint]
  simp only [Option.map_some, validateLength_of_lt hge hlt, LawfulReader.ensureLength hat',
    decide_eq_true hcapacity, if_true]
  rfl

/-- A message that is there is handed over, or skipped. -/
theorem Quiet.dispatch (hquiet : Quiet handlers ofType) (hat : LawfulReader.At reader bytes start offset)
    (hrunning : s.core.Running) (hm : m.WellFormed ofType)
    (hbytes : bytes.drop offset = beBytes 4 m.length ++ (m.body ++ rest)) :
    ∃ reader' s', dispatch handlers m.type.toNat m.length reader s = some (.ok (), reader', s') ∧
      LawfulReader.At reader' bytes start (offset + m.length) ∧ s'.core.Running ∧
      s'.messages = s.messages ++ m.received.toList := by
  obtain ⟨hlt, htype⟩ := hm
  have hlen := congrArg List.length hbytes
  rw [List.length_append, List.length_append, beBytes_length, List.length_drop] at hlen
  have hlength : m.length = 4 + m.body.length := rfl
  rw [Postgres.dispatch, Message.received]
  cases hc : messageType m.type.toNat with
  | none =>
    obtain ⟨reader', hskip, hat'⟩ := skipMessage_message hat hlt hbytes
    refine ⟨reader', s, ?_, hat', hrunning, (List.append_nil _).symm⟩
    dsimp only
    rw [hskip]
    rfl
  | some type =>
    obtain ⟨core', hon, hrunning'⟩ :=
      hquiet s.core type m.body rest hrunning (htype type hc) hlt
    refine ⟨_, ⟨core', s.messages ++ [(type, m.body)]⟩, ?_,
      LawfulReader.skip hat (n := m.length) (by omega), hrunning', rfl⟩
    have hbody : ((bytes.drop offset).take m.length).drop 4 = m.body := by
      rw [hbytes, ← List.append_assoc, List.take_left' (by
        rw [List.length_append, beBytes_length, hlength]), List.drop_left' (beBytes_length 4 _)]
    rw [← hlength, ← hbytes] at hon
    dsimp only
    rw [on, LawfulReader.peek hat]
    simp only [Option.bind_eq_bind, Option.bind_some, hbody, hon]

omit [LawfulReader C] in
theorem turn_of_running (hrunning : s.core.Running) {c : Nat} {reader' : C}
    (hint : int 1 (ReaderContext.markMessageStart reader) = some (.ok c, reader')) :
    turn handlers reader s = frame handlers c reader' s := by
  rw [turn, if_neg hrunning.1, hint]
  dsimp only
  split
  · rename_i n htls
    exact absurd htls (hrunning.2 n)
  · rfl

/-- A turn of the loop where a message is there. -/
theorem Quiet.turn (hquiet : Quiet handlers ofType) (hat : LawfulReader.At reader bytes start offset)
    (hrunning : s.core.Running) (hm : m.WellFormed ofType)
    (hbytes : bytes.drop offset = m.encode ++ rest) :
    ∃ reader' s', turn handlers reader s = .continue reader' s' ∧
      LawfulReader.At reader' bytes offset (offset + m.encode.length) ∧ s'.core.Running ∧
      s'.messages = s.messages ++ m.received.toList := by
  have hlen := congrArg List.length hbytes
  rw [List.length_append, m.length_encode, List.length_drop] at hlen
  have hmark := LawfulReader.markMessageStart hat
  obtain ⟨reader₁, hint, hat₁⟩ := int_of_le (n := 1) hmark (by omega)
  have htype : ofBe ((bytes.drop offset).take 1) = m.type.toNat := by
    rw [hbytes]
    exact Nat.add_zero _
  rw [htype] at hint
  have hbytes₁ : bytes.drop (offset + 1) = beBytes 4 m.length ++ (m.body ++ rest) := by
    rw [← List.drop_drop, hbytes, Message.encode, List.cons_append, List.drop_one, List.tail_cons,
      List.append_assoc]
  obtain ⟨reader₂, s₂, hdispatch, hat₂, hrunning₂, hmessages⟩ :=
    hquiet.dispatch hat₁ hrunning hm hbytes₁
  have hafter : (bytes.drop (offset + 1 + m.length)).length =
      bytes.length - (offset + 1) - m.length := by
    rw [List.length_drop]
    omega
  rw [m.length_encode, ← Nat.add_assoc]
  refine ⟨reader₂, s₂, ?_, hat₂, hrunning₂, hmessages⟩
  rw [turn_of_running hrunning hint, frame, peekLength_message hat₁ hm.1 hbytes₁]
  dsimp only
  rw [hdispatch]
  dsimp only
  rw [if_neg hrunning₂.1, LawfulReader.peek hat₂]
  dsimp only
  rw [if_neg (not_not.mpr hafter)]

/-- A turn of the loop where some of a message is not there. -/
theorem turn_partial (hat : LawfulReader.At reader bytes start offset) (hrunning : s.core.Running)
    (hm : m.length < 2 ^ 31) (hextra : extra ≠ []) (hbytes : bytes.drop offset ++ extra = m.encode) :
    ∃ reader' offset', turn handlers reader s = .returned (.error .shortRead) reader' s ∧
      LawfulReader.At reader' bytes offset offset' := by
  have hpos : 0 < extra.length := List.length_pos_iff.mpr hextra
  have hlen := congrArg List.length hbytes
  rw [List.length_append, m.length_encode, List.length_drop] at hlen
  have hle := LawfulReader.offset_le hat
  have hmark := LawfulReader.markMessageStart hat
  rcases Nat.lt_or_ge bytes.length (offset + 1) with hnone | hsome
  · refine ⟨_, _, ?_, hmark⟩
    rw [turn, if_neg hrunning.1, int_of_lt hmark hnone]
  obtain ⟨reader₁, hint, hat₁⟩ := int_of_le (n := 1) hmark hsome
  refine ⟨reader₁, offset + 1, ?_, hat₁⟩
  have hview : (bytes.drop (offset + 1)) ++ extra = beBytes 4 m.length ++ m.body := by
    have hdrop := congrArg (List.drop 1) hbytes
    rw [List.drop_append_of_le_length (by rw [List.length_drop]; omega), List.drop_drop] at hdrop
    exact hdrop
  have hshort : peekLength reader₁ = some (.error .shortRead) := by
    rw [peekLength, LawfulReader.peek hat₁]
    simp only [Option.bind_eq_bind, Option.bind_some]
    split_ifs with hlength
    · rfl
    · have htake : (bytes.drop (offset + 1)).take 4 = (beBytes 4 m.length ++ m.body).take 4 := by
        rw [← hview, List.take_append_of_le_length (Nat.not_lt.mp hlength)]
      have hge : 4 ≤ m.length := Nat.le_add_right _ _
      rw [htake, ofBe_length hm, validateLength_of_lt hge hm]
      dsimp only
      rw [if_pos (by rw [List.length_drop]; omega)]
  rw [turn_of_running hrunning hint, frame, hshort]

/-- The loop hands over the messages that are there and stops behind them. -/
theorem Quiet.onData_messages (hquiet : Quiet handlers ofType) {last : Message}
    (hlast : last.length < 2 ^ 31) {tail : Bytes} (hextra : extra ≠ [])
    (htail : tail ++ extra = last.encode) (messages : List Message) :
    ∀ {reader : C} {start offset turns : Nat} {s : Session σ},
      (∀ m ∈ messages, m.WellFormed ofType) → LawfulReader.At reader bytes start offset →
      s.core.Running → bytes.drop offset = messages.flatMap Message.encode ++ tail →
      messages.length < turns →
      ∃ reader' s' start' offset',
        onData handlers turns reader s = .returned (.error .shortRead) reader' s' ∧
        LawfulReader.At reader' bytes start' offset' ∧ start' ≤ bytes.length ∧
        bytes.drop start' = tail ∧ s'.core.Running ∧
        s'.messages = s.messages ++ messages.filterMap Message.received := by
  induction messages with
  | nil =>
    intro reader start offset turns s _ hat hrunning hbytes hturns
    cases turns with
    | zero => exact absurd hturns (Nat.not_lt_zero _)
    | succ turns =>
    rw [List.flatMap_nil, List.nil_append] at hbytes
    rw [← hbytes] at htail
    obtain ⟨reader', offset', hturn, hat'⟩ :=
      turn_partial hat hrunning hlast hextra htail
    refine ⟨reader', s, offset, offset', ?_, hat', LawfulReader.offset_le hat, hbytes, hrunning,
      (List.append_nil _).symm⟩
    rw [onData, hturn]
  | cons m messages ih =>
    intro reader start offset turns s hwell hat hrunning hbytes hturns
    cases turns with
    | zero => exact absurd hturns (Nat.not_lt_zero _)
    | succ turns =>
    rw [List.flatMap_cons, List.append_assoc] at hbytes
    obtain ⟨hm, hwell'⟩ := List.forall_mem_cons.mp hwell
    obtain ⟨reader₁, s₁, hturn, hat₁, hrunning₁, hmessages₁⟩ := hquiet.turn hat hrunning hm hbytes
    obtain ⟨reader₂, s₂, start₂, offset₂, hloop, hat₂, hle, hdrop, hrunning₂, hmessages₂⟩ :=
      ih hwell' hat₁ hrunning₁ (by rw [← List.drop_drop, hbytes, List.drop_left])
        (Nat.lt_of_succ_lt_succ hturns)
    refine ⟨reader₂, s₂, start₂, offset₂, ?_, hat₂, hle, hdrop, hrunning₂, ?_⟩
    · rw [onData, hturn]
      exact hloop
    · rw [hmessages₂, hmessages₁, List.append_assoc, List.filterMap_cons]
      cases m.received <;> rfl

end Turn

/-! ## Chunks -/

/-- The messages of a stream whose bodies are of their types. -/
abbrev WellFormed (ofType : MessageType → Bytes → Prop) := { m : Message // m.WellFormed ofType }

section Chunks
variable {σ : Type} {handlers : Handlers σ} {ofType : MessageType → Bytes → Prop}

def WellFormed.encode (ofType : MessageType → Bytes → Prop) (m : WellFormed ofType) : Bytes :=
  m.val.encode

theorem flatMap_encode (frames : List (WellFormed ofType)) :
    frames.flatMap (WellFormed.encode ofType) = (frames.map Subtype.val).flatMap Message.encode := by
  rw [List.flatMap_map]
  rfl

theorem length_le_of_flatMap {messages : List Message} {bytes tail : Bytes}
    (h : bytes = messages.flatMap Message.encode ++ tail) : messages.length ≤ bytes.length := by
  subst h
  induction messages with
  | nil => exact Nat.zero_le _
  | cons m messages ih =>
    rw [List.flatMap_cons, List.append_assoc, List.length_append, List.length_cons,
      m.length_encode]
    omega

namespace Connection

/-- What is in the buffer from the start of the last message. -/
def kept (c : Connection σ) : Bytes := c.readBuffer.byteList.drop c.lastMessageStart

/-- Between two chunks: the messages `done` were handed over, and `kept` is in the buffer. -/
structure Stands (before : List (MessageType × Bytes)) (c : Connection σ) (received : Nat)
    (done : List (WellFormed ofType)) (kept : Bytes) : Prop where
  running : c.session.core.Running
  messages : c.session.messages = before ++ done.filterMap (·.val.received)
  start_le : c.lastMessageStart ≤ c.readBuffer.byteList.length
  kept_eq : c.kept = kept
  length_le : kept ≠ [] → c.readBuffer.byteList.length ≤ received

variable {before : List (MessageType × Bytes)} {c : Connection σ} {received : Nat}
  {done frames : List (WellFormed ofType)} {kept chunk tail : Bytes}

theorem Stands.remaining (hs : Stands before c received done kept) :
    ({ c.readBuffer with head := c.lastMessageStart } : Sql.OffsetByteList).remaining = some kept := by
  rw [← hs.kept_eq]
  exact Sql.OffsetByteList.remaining_of_le hs.start_le

theorem Stands.receive_nil (hquiet : Quiet handlers ofType) (hs : Stands before c received done [])
    (htail : Framing.Partial (WellFormed.encode ofType) tail)
    (heq : chunk = frames.flatMap (WellFormed.encode ofType) ++ tail)
    (hlt : received + chunk.length < 2 ^ 32) :
    ∃ c', c.receive handlers chunk = some c' ∧
      Stands before c' (received + chunk.length) (done ++ frames) tail := by
  obtain ⟨extra, ⟨last, hwell⟩, hextra, hlast⟩ := htail
  rw [flatMap_encode] at heq
  have hturns : (frames.map Subtype.val).length < c.readBuffer.byteList.length + chunk.length + 1 :=
    Nat.lt_succ_of_le ((length_le_of_flatMap heq).trans (Nat.le_add_left _ _))
  have hat : LawfulReader.At (Sql.StackReader.mk chunk 0 0) chunk 0 0 :=
    ⟨rfl, Nat.zero_le _, by omega⟩
  have hframes : ∀ m ∈ frames.map Subtype.val, m.WellFormed ofType := fun m hm => by
    obtain ⟨m, -, rfl⟩ := List.mem_map.mp hm
    exact m.property
  obtain ⟨reader, s, start, offset, hloop, ⟨hreader, -⟩, hstart, hdrop, hrunning, hmessages⟩ :=
    hquiet.onData_messages hwell.1 hextra hlast _ hframes hat hs.running
      (List.drop_zero.trans heq) hturns
  refine ⟨{ session := s, readBuffer := ⟨0, chunk.drop start⟩ }, ?_, hrunning, ?_, Nat.zero_le _,
    hdrop, ?_⟩
  · rw [receive, onData, hs.remaining]
    dsimp only
    rw [hloop, hreader]
    simp only [if_true]
    rw [if_pos hstart]
  · dsimp only
    rw [hmessages, hs.messages, List.filterMap_append, List.append_assoc, List.filterMap_map]
    rfl
  · intro _
    dsimp only
    rw [List.length_drop]
    omega

theorem Stands.receive_cons (hquiet : Quiet handlers ofType)
    (hs : Stands before c received done kept) (hkept : kept ≠ [])
    (htail : Framing.Partial (WellFormed.encode ofType) tail)
    (heq : kept ++ chunk = frames.flatMap (WellFormed.encode ofType) ++ tail)
    (hlt : received + chunk.length < 2 ^ 32) :
    ∃ c', c.receive handlers chunk = some c' ∧
      Stands before c' (received + chunk.length) (done ++ frames) tail := by
  obtain ⟨extra, ⟨last, hwell⟩, hextra, hlast⟩ := htail
  rw [flatMap_encode] at heq
  have hle := hs.start_le
  have hreceived := hs.length_le hkept
  have hdrop : c.readBuffer.byteList.drop c.lastMessageStart = kept := hs.kept_eq
  have hbytes : (c.readBuffer.byteList ++ chunk).drop c.lastMessageStart =
      (frames.map Subtype.val).flatMap Message.encode ++ tail := by
    rw [List.drop_append_of_le_length hle, hdrop, heq]
  have hlength : (c.readBuffer.byteList ++ chunk).length =
      c.readBuffer.byteList.length + chunk.length := List.length_append
  have hturns : (frames.map Subtype.val).length <
      c.readBuffer.byteList.length + chunk.length + 1 := by
    have hmessages := length_le_of_flatMap hbytes
    rw [List.length_drop, hlength] at hmessages
    omega
  have hat : LawfulReader.At (BufferReader.mk ⟨c.lastMessageStart, c.readBuffer.byteList ++ chunk⟩
      c.lastMessageStart) (c.readBuffer.byteList ++ chunk) c.lastMessageStart c.lastMessageStart :=
    ⟨rfl, by omega, by omega⟩
  have hframes : ∀ m ∈ frames.map Subtype.val, m.WellFormed ofType := fun m hm => by
    obtain ⟨m, -, rfl⟩ := List.mem_map.mp hm
    exact m.property
  obtain ⟨reader, s, start, offset, hloop, ⟨hreader, -⟩, hstart, hdrop', hrunning, hmessages⟩ :=
    hquiet.onData_messages hwell.1 hextra hlast _ hframes hat hs.running hbytes hturns
  refine ⟨⟨s, ⟨offset, c.readBuffer.byteList ++ chunk⟩, start⟩, ?_, hrunning, ?_, hstart, hdrop', ?_⟩
  · have hremaining := hs.remaining
    obtain ⟨b, kept, rfl⟩ := List.exists_cons_of_ne_nil hkept
    rw [receive, onData, hremaining]
    dsimp only [Sql.OffsetByteList.write]
    rw [hloop, hreader]
    rfl
  · dsimp only
    rw [hmessages, hs.messages, List.filterMap_append, List.append_assoc, List.filterMap_map]
    rfl
  · intro _
    dsimp only
    omega

theorem Stands.receive (hquiet : Quiet handlers ofType) (hs : Stands before c received done kept)
    (htail : Framing.Partial (WellFormed.encode ofType) tail)
    (heq : kept ++ chunk = frames.flatMap (WellFormed.encode ofType) ++ tail)
    (hlt : received + chunk.length < 2 ^ 32) :
    ∃ c', c.receive handlers chunk = some c' ∧
      Stands before c' (received + chunk.length) (done ++ frames) tail := by
  cases kept with
  | nil => exact hs.receive_nil hquiet htail heq hlt
  | cons b kept => exact hs.receive_cons hquiet (List.cons_ne_nil b kept) htail heq hlt

/-- Handlers that skip the message. -/
def skipping : Handlers Unit where
  on core _ peek := (.ok (), core, ofBe (peek.take 4))
  setupTls core := core
  fail core _ := { core with status := .failed }

theorem quiet_skipping : Quiet skipping fun _ _ => True := fun core _ body rest hrunning _ hlt => by
  refine ⟨core, ?_, hrunning⟩
  have hlength := ofBe_length (m := ⟨0, body⟩) hlt (body ++ rest)
  exact congrArg (fun n => (Except.ok (), core, n)) hlength

/-- A connection to which nothing was sent yet. -/
def fresh : Connection Unit := { session := { core := ⟨.connected, .none, .disable, ()⟩ } }

end Connection

end Chunks

end OhosBun.Postgres
