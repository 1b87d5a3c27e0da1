/-
# `OhosBun.WebSocket.Sending` — a frame on its way to the transport

On a connection whose transport takes some of every write (`Env.Takes`), a frame goes to the
transport, to `send_buffer` or in part to each, and nothing else changes (`Steady`).  What was
written with what is buffered, the stream, grows by the frame at its end; only a write that goes
past bytes still buffered, straight into a tunnel, breaks that.
-/
import OhosBun.WebSocket.Endings

namespace OhosBun.WebSocket

open OhosBun.Lib

/-- No write of the transport is an error. -/
def Env.Takes {δ : Type} (env : Env δ) : Prop := ∀ n, env.takes n ≠ none

namespace Connection
variable {δ : Type} {env : Env δ} {c d e : Connection δ}

/-- Bytes have moved, and nothing else. -/
structure Steady (c d : Connection δ) : Prop where
  ssl : d.ssl = c.ssl
  outgoing : d.outgoing = c.outgoing
  closed : d.closed = c.closed
  shutdown : d.shutdown = c.shutdown
  tunnel : d.tunnel.isSome = c.tunnel.isSome
  pending : d.closeDispatchPending = c.closeDispatchPending
  deflate : d.deflate = c.deflate
  clears : d.clears = c.clears
  masks : d.masks = c.masks
  events : d.events = c.events

theorem Steady.refl (c : Connection δ) : c.Steady c :=
  ⟨rfl, rfl, rfl, rfl, rfl, rfl, rfl, rfl, rfl, rfl⟩

theorem Steady.trans (h : c.Steady d) (h' : d.Steady e) : c.Steady e where
  ssl := h'.ssl.trans h.ssl
  outgoing := h'.outgoing.trans h.outgoing
  closed := h'.closed.trans h.closed
  shutdown := h'.shutdown.trans h.shutdown
  tunnel := h'.tunnel.trans h.tunnel
  pending := h'.pending.trans h.pending
  deflate := h'.deflate.trans h.deflate
  clears := h'.clears.trans h.clears
  masks := h'.masks.trans h.masks
  events := h'.events.trans h.events

theorem Steady.hasTcp (h : c.Steady d) : d.hasTcp = c.hasTcp := by
  rw [Connection.hasTcp, Connection.hasTcp, h.tunnel, h.closed, h.shutdown]

/-- What was written, and what is still to be. -/
def stream (c : Connection δ) : Bytes := c.wire ++ c.sendBuffer

/-! ## The transport -/

/-- What it takes is written, and all but the writing is as it was. -/
theorem takeBytes_some (henv : env.Takes) (c : Connection δ) (bytes : Bytes) :
    ∃ n after, env.takes c.writes = some n ∧
      c.takeBytes env bytes = (some (min n bytes.length), after) ∧ c.Steady after ∧
      after.wire = c.wire ++ bytes.take (min n bytes.length) ∧ after.sendBuffer = c.sendBuffer := by
  obtain ⟨n, hn⟩ := Option.ne_none_iff_exists'.mp (henv c.writes)
  have hsteady : c.Steady
      { c with writes := c.writes + 1, wire := c.wire ++ bytes.take (min n bytes.length) } :=
    { Steady.refl c with }
  refine ⟨n, _, hn, ?_, hsteady, rfl, rfl⟩
  rw [takeBytes, hn]

theorem writeEncrypted_steady (env : Env δ) (c : Connection δ) (bytes : Bytes) :
    c.Steady (c.writeEncrypted env bytes) ∧ (c.writeEncrypted env bytes).wire = c.wire ∧
      (c.writeEncrypted env bytes).sendBuffer = c.sendBuffer := by
  rw [writeEncrypted]
  split
  next => exact ⟨.refl c, rfl, rfl⟩
  next htunnel =>
    have hsome : c.tunnel.isSome = true := by
      rw [htunnel]
      rfl
    split
    · exact ⟨{ Steady.refl c with tunnel := hsome.symm }, rfl, rfl⟩
    · exact ⟨{ Steady.refl c with tunnel := hsome.symm }, rfl, rfl⟩

theorem tunnelWrite_some (henv : env.Takes) (c : Connection δ) (bytes : Bytes) :
    ∃ n after, env.takes c.writes = some n ∧
      c.tunnelWrite env bytes = (some (min n bytes.length), after) ∧ c.Steady after ∧
      after.wire = c.wire ++ bytes.take (min n bytes.length) ∧ after.sendBuffer = c.sendBuffer := by
  obtain ⟨n, after, hn, htake, hsteady, hwire, hbuffer⟩ := takeBytes_some henv c bytes
  obtain ⟨hsteady', hwire', hbuffer'⟩ :=
    writeEncrypted_steady env after (env.encrypted c.writes)
  refine ⟨n, _, hn, ?_, hsteady.trans hsteady', hwire'.trans hwire, hbuffer'.trans hbuffer⟩
  rw [tunnelWrite, htake]

theorem not_closed_of_hasTcp (h : c.hasTcp = true) (htunnel : c.tunnel.isSome = false) :
    c.closed = false := by
  rw [Connection.hasTcp, htunnel] at h
  simp only [Bool.false_or, Bool.and_eq_true, Bool.not_eq_true'] at h
  exact h.1

/-- What is buffered goes out as far as it is taken. -/
theorem sendBufferOut_steady (henv : env.Takes) (htcp : c.hasTcp = true) :
    ∃ after, c.sendBufferOut env = (true, after) ∧ c.Steady after ∧ after.stream = c.stream := by
  have hmoved : ∀ (n : Nat) (after : Connection δ), c.Steady after →
      after.wire = c.wire ++ c.sendBuffer.take n →
      c.Steady { after with sendBuffer := c.sendBuffer.drop n } ∧
        ({ after with sendBuffer := c.sendBuffer.drop n } : Connection δ).stream = c.stream := by
    intro n after hsteady hwire
    refine ⟨{ hsteady with }, ?_⟩
    change after.wire ++ c.sendBuffer.drop n = _
    rw [hwire, List.append_assoc, List.take_append_drop]
    rfl
  rw [sendBufferOut]
  cases htunnel : c.tunnel.isSome with
  | true =>
    obtain ⟨n, after, -, hwrite, hsteady, hwire, -⟩ := tunnelWrite_some henv c c.sendBuffer
    rw [if_pos rfl, hwrite]
    exact ⟨_, rfl, hmoved _ after hsteady hwire⟩
  | false =>
    have hclosed := not_closed_of_hasTcp htcp htunnel
    obtain ⟨n, after, -, hwrite, hsteady, hwire, -⟩ := takeBytes_some henv c c.sendBuffer
    rw [if_neg (by decide), if_neg (by rw [hclosed]; decide), hwrite]
    exact ⟨_, rfl, hmoved _ after hsteady hwire⟩

/-! ## Frames -/

theorem queue_steady (henv : env.Takes) (htcp : c.hasTcp = true) (bytes : Bytes) (doWrite : Bool) :
    ∃ after, c.queue env bytes doWrite = (true, after) ∧ c.Steady after ∧
      after.stream = c.stream ++ bytes := by
  have hqueued : c.Steady { c with sendBuffer := c.sendBuffer ++ bytes } := { Steady.refl c with }
  have hstream : ({ c with sendBuffer := c.sendBuffer ++ bytes } : Connection δ).stream =
      c.stream ++ bytes := (List.append_assoc ..).symm
  rw [queue]
  cases doWrite with
  | true =>
    obtain ⟨after, hout, hsteady, hsame⟩ := sendBufferOut_steady henv (hqueued.hasTcp.trans htcp)
    exact ⟨after, hout, hqueued.trans hsteady, hsame.trans hstream⟩
  | false => exact ⟨_, rfl, hqueued, hstream⟩

/-- A direct write goes past bytes that are buffered. -/
def Overtakes (env : Env δ) (c : Connection δ) : Prop :=
  c.tunnel.isSome = true ∧ c.sendBuffer ≠ [] ∧ env.takes c.writes ≠ some 0

theorem enqueueEncodedBytes_steady (henv : env.Takes) (htcp : c.hasTcp = true) (bytes : Bytes) :
    ∃ after, c.enqueueEncodedBytes env bytes = (true, after) ∧ (c.log (.frame bytes)).Steady after ∧
      (¬ c.Overtakes env → after.stream = c.stream ++ bytes) := by
  -- what is not taken is buffered
  have hrest : ∀ (n : Nat) (after : Connection δ), (c.log (.frame bytes)).Steady after →
      after.wire = c.wire ++ bytes.take n → after.sendBuffer = c.sendBuffer →
      (c.sendBuffer = [] ∨ bytes.take n = []) →
      (after.copyToSendBuffer env (bytes.drop n) false).2.stream = c.stream ++ bytes := by
    intro n after hsteady hwire hbuffer hempty
    change after.wire ++ (after.sendBuffer ++ bytes.drop n) = c.wire ++ c.sendBuffer ++ bytes
    rw [hwire, hbuffer]
    rcases hempty with hempty | hempty
    · rw [hempty, List.nil_append, List.append_nil, List.append_assoc, List.take_append_drop]
    · have hall : bytes.drop n = bytes := by
        have happend := List.take_append_drop n bytes
        rwa [hempty, List.nil_append] at happend
      rw [hempty, hall, List.append_nil, List.append_assoc]
  have hsteadyRest : ∀ (n : Nat) (after : Connection δ), (c.log (.frame bytes)).Steady after →
      (c.log (.frame bytes)).Steady (after.copyToSendBuffer env (bytes.drop n) false).2 :=
    fun _ _ hsteady => { hsteady with }
  have hdone : ∀ after : Connection δ, bytes.drop bytes.length = [] →
      (after.copyToSendBuffer env (bytes.drop bytes.length) false).2.stream = after.stream := by
    intro after hnil
    rw [hnil]
    change after.wire ++ (after.sendBuffer ++ []) = after.wire ++ after.sendBuffer
    rw [List.append_nil]
  have hdrop : bytes.drop bytes.length = [] := List.drop_length
  rw [enqueueEncodedBytes]
  cases htunnel : c.tunnel.isSome with
  | true =>
    obtain ⟨n, after, hn, hwrite, hsteady, hwire, hbuffer⟩ :=
      tunnelWrite_some henv (c.log (.frame bytes)) bytes
    have hempty : ¬ c.Overtakes env → c.sendBuffer = [] ∨ bytes.take (min n bytes.length) = [] := by
      intro hnot
      by_cases hbuffered : c.sendBuffer = []
      · exact .inl hbuffered
      · have hzero : env.takes c.writes = some 0 :=
          not_not.mp fun htakes => hnot ⟨htunnel, hbuffered, htakes⟩
        have hn' : env.takes c.writes = some n := hn
        rw [hzero, Option.some_inj] at hn'
        rw [← hn', Nat.zero_min]
        exact .inr rfl
    have htunnel' : (c.log (.frame bytes)).tunnel.isSome = true := htunnel
    rw [if_pos htunnel', hwrite]
    dsimp only
    split
    next => exact ⟨_, rfl, hsteadyRest _ after hsteady, fun hnot => hrest _ after hsteady hwire hbuffer (hempty hnot)⟩
    next hall =>
      have hlen : min n bytes.length = bytes.length := by omega
      refine ⟨_, rfl, hsteady, fun hnot => ?_⟩
      rw [hlen] at hwire hempty
      rw [← hdone after hdrop]
      exact hrest _ after hsteady hwire hbuffer (hempty hnot)
  | false =>
    have htunnel' : (c.log (.frame bytes)).tunnel.isSome = false := htunnel
    rw [if_neg (by rw [htunnel']; decide)]
    split
    next hfree =>
      have hbuffered : c.sendBuffer = [] := by
        have hpressure := (Bool.not_eq_true' _).mp hfree
        rw [hasBackpressure, Bool.or_eq_false_iff, decide_eq_false_iff_not] at hpressure
        exact List.eq_nil_of_length_eq_zero (Nat.eq_zero_of_not_pos hpressure.1)
      obtain ⟨n, after, -, hwrite, hsteady, hwire, hbuffer⟩ :=
        takeBytes_some henv (c.log (.frame bytes)) bytes
      rw [hwrite]
      dsimp only
      split
      next hlen =>
        refine ⟨_, rfl, hsteady, fun _ => ?_⟩
        rw [hlen] at hwire
        rw [← hdone after hdrop]
        exact hrest _ after hsteady hwire hbuffer (.inl hbuffered)
      next => exact ⟨_, rfl, hsteadyRest _ after hsteady, fun _ => hrest _ after hsteady hwire hbuffer (.inl hbuffered)⟩
    next =>
      have hlogged : (c.log (.frame bytes)).hasTcp = true := htcp
      obtain ⟨after, hqueue, hsteady, hstream⟩ := queue_steady henv hlogged bytes true
      refine ⟨after, ?_, hsteady, fun _ => hstream⟩
      rw [← hqueue]
      rfl

end Connection

end OhosBun.WebSocket
