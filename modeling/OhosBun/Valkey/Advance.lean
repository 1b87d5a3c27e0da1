/-
# `OhosBun.Valkey.Advance` — commands leave the queue in order

Whatever of `drain`, `on_auto_flush`, `flush_data` and `send_next_command` is called: commands
go from the front of the queue to the back of the commands in flight, and their bytes to the
end of what the socket and the write buffer have (`Advance`).

The write buffer's offset is a `u32`, so the bytes are where they should be while fewer than
2^32 of them wait (`Advance.bytes`).
-/
import OhosBun.Valkey.Client

namespace OhosBun.Valkey

open OhosBun.Lib OhosBun.Collections

/-! ## The socket -/

section Socket
variable (takes : Nat → Int) (socket : Socket) (data : Bytes)

theorem Socket.write_sent : (socket.write takes data).2.sent ++
    data.drop (socket.write takes data).1.toNat = socket.sent ++ data := by
  rw [Socket.write]
  split
  · rfl
  · dsimp only
    rw [List.append_assoc, List.take_append_drop]

theorem Socket.write_le : (socket.write takes data).1.toNat ≤ data.length := by
  rw [Socket.write]
  split
  · exact Nat.zero_le _
  · dsimp only
    omega

theorem Socket.write_closed : (socket.write takes data).2.closed = socket.closed := by
  rw [Socket.write]
  split
  · rfl
  · rfl

end Socket

namespace Client
variable {F64 : Type}

/-- The bytes that wait to be sent, with those of the buffer that are gone but still there. -/
def backlog (c : Client F64) : Nat :=
  c.writeBuffer.byteList.length + (c.queue.flatMap (·.serializedData)).length

/-- From the front of the queue to the back of the commands in flight. -/
structure Advance (c : Client F64) (moved : List Entry) (c' : Client F64) : Prop where
  eq : c' = { c with
    socket := c'.socket
    writeBuffer := c'.writeBuffer
    queue := c'.queue
    autoFlusherRegistered := c'.autoFlusherRegistered
    inFlight := c.inFlight ++ moved.map Entry.toPair
    written := c.written ++ moved.map (·.promise) }
  queue : c.queue = moved ++ c'.queue
  closed : c'.socket.closed = c.socket.closed
  bytes : c.backlog < 2 ^ 32 → c'.socket.sent ++ c'.writeBuffer.remaining =
    c.socket.sent ++ c.writeBuffer.remaining ++ moved.flatMap (·.serializedData)
  backlog_le : c'.backlog ≤ c.backlog
  serial : (∀ pair ∈ c.inFlight.tail, pair.metaFlags.supportsAutoPipelining) →
    ∀ pair ∈ c'.inFlight.tail, pair.metaFlags.supportsAutoPipelining

namespace Advance
variable {c c' c'' : Client F64} {moved moved' : List Entry}

theorem status (h : Advance c moved c') : c'.status = c.status := (congrArg Client.status h.eq :)

theorem flags (h : Advance c moved c') : c'.flags = c.flags := (congrArg Client.flags h.eq :)

theorem subscriptionCtx (h : Advance c moved c') : c'.subscriptionCtx = c.subscriptionCtx :=
  (congrArg Client.subscriptionCtx h.eq :)

theorem promises (h : Advance c moved c') : c'.promises = c.promises :=
  (congrArg Client.promises h.eq :)

theorem settled (h : Advance c moved c') : c'.settled = c.settled := (congrArg Client.settled h.eq :)

theorem inFlight (h : Advance c moved c') :
    c'.inFlight = c.inFlight ++ moved.map Entry.toPair := (congrArg Client.inFlight h.eq :)

theorem written (h : Advance c moved c') : c'.written = c.written ++ moved.map (·.promise) :=
  (congrArg Client.written h.eq :)

/-- Nothing moved. -/
theorem nil_of (heq : c' = { c with
      socket := c'.socket
      writeBuffer := c'.writeBuffer
      autoFlusherRegistered := c'.autoFlusherRegistered })
    (hclosed : c'.socket.closed = c.socket.closed)
    (hbytes : c.backlog < 2 ^ 32 → c'.socket.sent ++ c'.writeBuffer.remaining =
      c.socket.sent ++ c.writeBuffer.remaining)
    (hlen : c'.writeBuffer.byteList.length ≤ c.writeBuffer.byteList.length) :
    Advance c [] c' := by
  have hqueue : c'.queue = c.queue := (congrArg Client.queue heq :)
  have hinFlight : c'.inFlight = c.inFlight := (congrArg Client.inFlight heq :)
  refine ⟨?_, hqueue.symm, hclosed, fun hroom => ?_, ?_, fun hserial => ?_⟩
  · rw [List.map_nil, List.map_nil, List.append_nil, List.append_nil, hqueue]
    exact heq
  · rw [hbytes hroom, List.flatMap_nil, List.append_nil]
  · rw [backlog, backlog, hqueue]
    exact Nat.add_le_add_right hlen _
  · rwa [hinFlight]

theorem refl (c : Client F64) : Advance c [] c :=
  nil_of rfl rfl (fun _ => rfl) (Nat.le_refl _)

theorem trans (h : Advance c moved c') (h' : Advance c' moved' c'') :
    Advance c (moved ++ moved') c'' where
  eq := by
    rw [List.map_append, List.map_append, ← List.append_assoc, ← List.append_assoc, ← h.inFlight,
      ← h.written]
    have heq := h'.eq
    rw [h'.eq, h.eq]
  queue := by rw [h.queue, h'.queue, List.append_assoc]
  closed := h'.closed.trans h.closed
  bytes hroom := by
    rw [h'.bytes (h.backlog_le.trans_lt hroom), h.bytes hroom, List.flatMap_append,
      List.append_assoc]
  backlog_le := h'.backlog_le.trans h.backlog_le
  serial hserial := h'.serial (h.serial hserial)

end Advance

/-! ## The operations -/

section Operations
variable (env : Environment F64) (c : Client F64)

theorem advance_flushData : Advance c [] (flushData env c) := by
  rw [flushData]
  split
  · exact .refl c
  · refine .nil_of rfl (Socket.write_closed _ _ _) (fun hroom => ?_) ?_
    · have hlist : c.writeBuffer.byteList.length < 2 ^ 32 := Nat.lt_of_le_of_lt (Nat.le_add_right _ _) hroom
      have hwrite := Socket.write_sent env.takes c.socket c.writeBuffer.remaining
      have hle := Socket.write_le env.takes c.socket c.writeBuffer.remaining
      have hhead := c.writeBuffer.head_le
      rw [OffsetByteList.length_remaining] at hle
      rw [← hwrite]
      dsimp only
      split
      · rw [OffsetByteList.remaining_consume_of_lt (by omega)]
      next hneg => rw [Int.toNat_of_nonpos (Int.not_lt.mp hneg), List.drop_zero]
    · dsimp only
      split
      · exact OffsetByteList.length_consume_le _
      · exact Nat.le_refl _

theorem advance_registerAutoFlusher : Advance c [] c.registerAutoFlusher :=
  .nil_of rfl rfl (fun _ => rfl) (Nat.le_refl _)

variable {c} in
/-- Commands move, and their bytes with them. -/
theorem Advance.of_move {c' : Client F64} {moved : List Entry} (heq : c' = { c with
      socket := c'.socket
      writeBuffer := c'.writeBuffer
      queue := c'.queue
      inFlight := c.inFlight ++ moved.map Entry.toPair
      written := c.written ++ moved.map (·.promise) })
    (hqueue : c.queue = moved ++ c'.queue) (hclosed : c'.socket.closed = c.socket.closed)
    (hbytes : c'.socket.sent ++ c'.writeBuffer.remaining =
      c.socket.sent ++ c.writeBuffer.remaining ++ moved.flatMap (·.serializedData))
    (hlen : c'.writeBuffer.byteList.length ≤
      c.writeBuffer.byteList.length + (moved.flatMap (·.serializedData)).length)
    (hserial : (c.inFlight = [] ∧ moved.length ≤ 1) ∨
      ∀ entry ∈ moved, entry.metaFlags.supportsAutoPipelining) : Advance c moved c' where
  eq := by
    have hregistered : c'.autoFlusherRegistered = c.autoFlusherRegistered :=
      (congrArg Client.autoFlusherRegistered heq :)
    rw [hregistered]
    exact heq
  queue := hqueue
  closed := hclosed
  bytes _ := hbytes
  backlog_le := by
    rw [backlog, backlog, hqueue, List.flatMap_append, List.length_append]
    omega
  serial h := by
    have hinFlight : c'.inFlight = c.inFlight ++ moved.map Entry.toPair :=
      (congrArg Client.inFlight heq :)
    rw [hinFlight]
    rcases hserial with ⟨hempty, hlen⟩ | hall
    · have htail : moved.tail = [] :=
        List.length_eq_zero_iff.mp (by rw [List.length_tail, Nat.sub_eq_zero_of_le hlen])
      rw [hempty, List.nil_append, ← List.map_tail, htail]
      exact fun pair hpair => absurd hpair List.not_mem_nil
    · intro pair hpair
      have hmoved : ∀ pair ∈ moved.map Entry.toPair, pair.metaFlags.supportsAutoPipelining := by
        intro pair hpair
        obtain ⟨entry, hentry, rfl⟩ := List.mem_map.mp hpair
        exact hall entry hentry
      cases hflight : c.inFlight with
      | nil =>
        rw [hflight, List.nil_append] at hpair
        exact hmoved pair (List.mem_of_mem_tail hpair)
      | cons head rest =>
        rw [hflight] at hpair h
        exact (List.mem_append.mp hpair).elim (h pair) (hmoved pair)

theorem foldl_write (buffer : OffsetByteList) (entries : List Entry) :
    entries.foldl (fun buffer cmd => buffer.write cmd.serializedData) buffer =
      buffer.write (entries.flatMap (·.serializedData)) := by
  induction entries generalizing buffer with
  | nil => exact buffer.write_nil.symm
  | cons entry entries ih => rw [List.foldl_cons, ih, OffsetByteList.write_write, List.flatMap_cons]

theorem drop_takeWhile_length {α : Type} (p : α → Bool) (l : List α) :
    l.takeWhile p ++ l.drop (l.takeWhile p).length = l := by
  have hdrop := congrArg (List.drop (l.takeWhile p).length) (List.takeWhile_append_dropWhile (p := p) (l := l))
  rw [List.drop_left] at hdrop
  rw [← hdrop, List.takeWhile_append_dropWhile]

theorem advance_onAutoFlush : ∃ moved, Advance c moved (onAutoFlush env c) := by
  rw [onAutoFlush]
  split
  · exact ⟨[], .nil_of rfl rfl (fun _ => rfl) (Nat.le_refl _)⟩
  · generalize hpipelineable : c.queue.takeWhile (·.metaFlags.supportsAutoPipelining) = pipelineable
    have hsplit := drop_takeWhile_length (·.metaFlags.supportsAutoPipelining) c.queue
    rw [hpipelineable] at hsplit
    have hall : ∀ entry ∈ pipelineable, entry.metaFlags.supportsAutoPipelining := by
      intro entry hentry
      rw [← hpipelineable] at hentry
      exact List.all_eq_true.mp List.all_takeWhile entry hentry
    have hmove : Advance c pipelineable { c with
        queue := c.queue.drop pipelineable.length
        inFlight := c.inFlight ++ pipelineable.map Entry.toPair
        writeBuffer := pipelineable.foldl (fun buffer cmd => buffer.write cmd.serializedData)
          c.writeBuffer
        written := c.written ++ pipelineable.map (·.promise) } := by
      refine .of_move rfl hsplit.symm rfl ?_ ?_ (.inr hall)
      · rw [foldl_write, OffsetByteList.remaining_write, List.append_assoc]
      · rw [foldl_write, OffsetByteList.length_write]
    exact ⟨_, hmove.trans ((advance_flushData env _).trans
      (.nil_of rfl rfl (fun _ => rfl) (Nat.le_refl _)))⟩

theorem advance_drain : ∃ moved, Advance c moved (drain env c) := by
  rw [drain]
  split
  · exact ⟨[], .refl c⟩
  next offlineCmd queue hqueue =>
    split
    · exact ⟨[], .refl c⟩
    next hserial =>
      have hserial' : (c.inFlight = [] ∧ [offlineCmd].length ≤ 1) ∨
          ∀ entry ∈ [offlineCmd], entry.metaFlags.supportsAutoPipelining := by
        simpa [or_iff_not_imp_left] using hserial
      have hdata : [offlineCmd].flatMap (·.serializedData) = offlineCmd.serializedData := by
        rw [List.flatMap_singleton]
      dsimp only
      split
      next hready =>
        have hsent := Socket.write_sent env.takes c.socket offlineCmd.serializedData
        have hclosed := Socket.write_closed env.takes c.socket offlineCmd.serializedData
        cases hwrite : c.socket.write env.takes offlineCmd.serializedData with
        | mk wrote socket =>
          rw [hwrite] at hsent hclosed
          refine ⟨[offlineCmd], .of_move rfl hqueue hclosed ?_ ?_ hserial'⟩
          · have hempty : c.writeBuffer.remaining = [] :=
              List.isEmpty_iff.mp (Bool.and_eq_true_iff.mp hready).2
            rw [hdata, hempty, List.append_nil, ← hsent]
            split
            next hwhole => rw [hempty, hwhole]
            next => rw [OffsetByteList.remaining_write, hempty, List.nil_append]
          · rw [hdata]
            split
            · exact Nat.le_add_right _ _
            · rw [OffsetByteList.length_write, List.length_drop]
              exact Nat.add_le_add_left (Nat.sub_le _ _) _
      next =>
        refine ⟨[offlineCmd], .of_move rfl hqueue rfl ?_ ?_ hserial'⟩
        · rw [hdata, OffsetByteList.remaining_write, List.append_assoc]
        · rw [hdata, OffsetByteList.length_write]

theorem advance_sendHead : ∃ moved, Advance c moved (sendHead env c) := by
  rw [sendHead]
  split
  · split
    · exact advance_drain env c
    · exact ⟨[], .refl c⟩
  · split_ifs
    · exact ⟨[], advance_registerAutoFlusher c⟩
    · obtain ⟨moved, hdrain⟩ := advance_drain env c
      dsimp only
      split
      · exact ⟨_, hdrain.trans (advance_registerAutoFlusher _)⟩
      · exact ⟨moved, hdrain⟩
    · exact ⟨[], .refl c⟩

theorem advance_sendNextCommand : ∃ moved, Advance c moved (sendNextCommand env c) := by
  rw [sendNextCommand]
  split
  · obtain ⟨moved, hhead⟩ := advance_sendHead env c
    exact ⟨_, hhead.trans (advance_flushData env _)⟩
  · exact ⟨[], advance_flushData env c⟩

/-- A command that is sent is put at the end of the queue, and may move from there. -/
theorem advance_enqueue (promise : Promise) : ∃ moved,
    Advance { c with queue := c.queue ++ [Entry.create promise.metaFlags promise] } moved
      (enqueue env c promise) := by
  rw [enqueue]
  dsimp only
  split
  · split
    · exact ⟨[], advance_registerAutoFlusher _⟩
    · exact ⟨[], .refl _⟩
  next hdirect =>
    simp only [Bool.or_eq_true, Bool.and_eq_true, Bool.not_eq_true', not_or, not_and,
      Bool.not_eq_true, Bool.not_eq_false, List.isEmpty_iff] at hdirect
    obtain ⟨⟨⟨⟨hqueue, hwait⟩, -⟩, -⟩, hcan⟩ := hdirect
    have hinFlight : c.inFlight = [] := hwait (by
      cases hsupports : promise.metaFlags.supportsAutoPipelining with
      | false => rfl
      | true => exact hcan hsupports)
    have hmove : Advance { c with queue := c.queue ++ [Entry.create promise.metaFlags promise] }
        [Entry.create promise.metaFlags promise]
        { c with
          writeBuffer := c.writeBuffer.write promise.command.serialize
          inFlight := c.inFlight ++ [⟨promise.metaFlags, promise⟩]
          written := c.written ++ [promise] } := by
      refine .of_move rfl ?_ rfl ?_ ?_ (.inl ⟨hinFlight, Nat.le_refl 1⟩)
      · rw [hqueue]
        rfl
      · rw [List.flatMap_singleton, OffsetByteList.remaining_write, List.append_assoc]
        rfl
      · rw [List.flatMap_singleton, OffsetByteList.length_write]
        rfl
    exact ⟨_, hmove.trans (advance_flushData env _)⟩

/-- The client where a command has been accepted and nothing done about it. -/
def accept (c : Client F64) (promise : Promise) : Client F64 :=
  { c with
    promises := c.promises + 1
    queue := c.queue ++ [Entry.create promise.metaFlags promise] }

theorem advance_send (command : Command) (h : c.sendRejection = none) :
    ∃ moved, Advance (c.accept ⟨c.promises, command⟩) moved (send env c command) := by
  have hrejection : sendRejection { c with promises := c.promises + 1 } = none := h
  rw [send]
  dsimp only
  rw [hrejection]
  dsimp only
  obtain ⟨moved, hmoved⟩ :=
    advance_enqueue env { c with promises := c.promises + 1 } ⟨c.promises, command⟩
  split
  · exact ⟨_, hmoved.trans (advance_registerAutoFlusher _)⟩
  · exact ⟨moved, hmoved⟩

end Operations

end Client

end OhosBun.Valkey
