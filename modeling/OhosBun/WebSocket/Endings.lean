/-
# `OhosBun.WebSocket.Endings` — connections that have failed

A call into the sending half either leaves the connection attached to script, and nothing
cleared, or the connection is dead (`Kept`): script has been told and there is no transport.
Nothing is seen of a dead connection any more (`Silent`).
-/
import OhosBun.WebSocket.Receiver

namespace OhosBun.WebSocket

open OhosBun.Lib

namespace Connection
variable {δ : Type} (env : Env δ) {c d e : Connection δ}

/-- Script is there, and waits for no close to be written. -/
structure Alive (c : Connection δ) : Prop where
  outgoing : c.outgoing = true
  pending : c.closeDispatchPending = none

/-- Script has been told of the end, and the transport is gone. -/
structure Dead (c : Connection δ) : Prop where
  outgoing : c.outgoing = false
  pending : c.closeDispatchPending = none
  hasTcp : c.hasTcp = false

/-- Nothing was cleared. -/
structure Unharmed (c d : Connection δ) : Prop where
  outgoing : d.outgoing = c.outgoing
  pending : d.closeDispatchPending = c.closeDispatchPending
  clears : d.clears = c.clears

/-- Nothing was cleared, unless the connection died. -/
def Kept (c d : Connection δ) : Prop := c.Unharmed d ∨ d.Dead

/-- Nothing was seen, and nothing that is to come has changed. -/
structure Silent (c d : Connection δ) : Prop where
  events : d.events = c.events
  wire : d.wire = c.wire
  pending : d.closeDispatchPending = c.closeDispatchPending

theorem Silent.refl (c : Connection δ) : c.Silent c := ⟨rfl, rfl, rfl⟩

theorem Silent.symm (h : c.Silent d) : d.Silent c :=
  ⟨h.events.symm, h.wire.symm, h.pending.symm⟩

theorem Silent.trans (h : c.Silent d) (h' : d.Silent e) : c.Silent e :=
  ⟨h'.events.trans h.events, h'.wire.trans h.wire, h'.pending.trans h.pending⟩

theorem Kept.refl (c : Connection δ) : c.Kept c := .inl ⟨rfl, rfl, rfl⟩

theorem Unharmed.trans (h : c.Unharmed d) (h' : d.Unharmed e) : c.Unharmed e :=
  ⟨h'.outgoing.trans h.outgoing, h'.pending.trans h.pending, h'.clears.trans h.clears⟩

theorem Kept.trans (h : c.Unharmed d) (h' : d.Kept e) : c.Kept e := h'.imp_left h.trans

theorem Alive.unharmed (h : c.Alive) (h' : c.Unharmed d) : d.Alive :=
  ⟨h'.outgoing.trans h.outgoing, h'.pending.trans h.pending⟩

/-! ## Failing -/

theorem dead_fail (c : Connection δ) (code : ErrorCode) : (c.fail code).Dead := by
  have hclose : ∀ d : Connection δ, d.outgoing = false → d.tunnel = none →
      d.closeDispatchPending = none → d.closeTcp.Dead := by
    intro d houtgoing htunnel hpending
    rw [closeTcp]
    split
    next hclosed => exact ⟨houtgoing, hpending, by simp [Connection.hasTcp, htunnel, hclosed]⟩
    next =>
      simp only [handleClose, hpending, dispatchAbruptClose, clearData, houtgoing]
      exact ⟨rfl, rfl, rfl⟩
  have hcancel : ∀ d : Connection δ, d.outgoing = false → d.cancel.Dead := by
    intro d houtgoing
    have hdead := hclose d.clearData houtgoing rfl rfl
    rw [cancel]
    split
    · rw [dispatchAbruptClose, if_neg (by rw [hdead.outgoing]; decide)]
      exact hdead
    · exact hdead
  rw [fail]
  split
  next => exact hcancel _ rfl
  next h => exact hcancel c (by simpa using h)

theorem Dead.clearData (h : c.Dead) : c.clearData.Dead ∧ c.Silent c.clearData := by
  obtain ⟨houtgoing, hpending, htcp⟩ := h
  refine ⟨⟨houtgoing, rfl, ?_⟩, rfl, rfl, hpending.symm⟩
  rw [Connection.hasTcp] at htcp ⊢
  exact (Bool.or_eq_false_iff.mp htcp).2

theorem Dead.dispatchAbruptClose (h : c.Dead) (code : ErrorCode) :
    c.dispatchAbruptClose code = c := by
  rw [Connection.dispatchAbruptClose, h.outgoing]
  rfl

theorem Dead.fail (h : c.Dead) (code : ErrorCode) :
    (c.fail code).Dead ∧ c.Silent (c.fail code) := by
  refine ⟨dead_fail c code, ?_⟩
  have hpending := h.pending
  have hclosed : c.closed = true ∨ c.shutdown = true := by
    have htcp := (Bool.or_eq_false_iff.mp (h.hasTcp : (_ || _) = false)).2
    cases hc : c.closed
    · rw [hc] at htcp
      exact .inr (by simpa using htcp)
    · exact .inl rfl
  have htunnel : c.tunnel.isSome = false := (Bool.or_eq_false_iff.mp (h.hasTcp : (_ || _) = false)).1
  rw [Connection.fail, if_neg (by rw [h.outgoing]; decide), cancel, htunnel]
  simp only [Bool.false_eq_true, if_false, closeTcp]
  split
  · exact ⟨rfl, rfl, hpending.symm⟩
  · simp only [handleClose, Connection.clearData, Connection.dispatchAbruptClose, h.outgoing]
    exact ⟨rfl, rfl, hpending.symm⟩

/-- Data for a connection that is dead. -/
theorem Dead.dispatchData (h : c.Dead) (data : Bytes) (kind : Opcode) :
    (c.dispatchData env data kind).Dead ∧ c.Silent (c.dispatchData env data kind) := by
  unfold Connection.dispatchData
  rw [h.outgoing]
  exact h.clearData

theorem Dead.dispatchMessage (h : c.Dead) (compressed : Bool) (data : Bytes) (kind : Opcode) :
    (c.dispatchMessage env compressed data kind).Dead ∧
      c.Silent (c.dispatchMessage env compressed data kind) := by
  rw [Connection.dispatchMessage]
  split
  · rw [dispatchCompressedData]
    split
    · exact h.fail _
    next deflate _ =>
      have hdead : ∀ deflate : Option δ, { c with deflate }.Dead := fun _ =>
        ⟨h.outgoing, h.pending, h.hasTcp⟩
      split
      · obtain ⟨hdead', hevents, hwire, hpending⟩ := (hdead (some _)).dispatchData env _ _
        exact ⟨hdead', hevents, hwire, hpending⟩
      · obtain ⟨hdead', hevents, hwire, hpending⟩ := (hdead (some _)).fail _
        exact ⟨hdead', hevents, hwire, hpending⟩
  · exact h.dispatchData env _ _

theorem Dead.sendPong (h : c.Dead) (payload : Bytes) : c.sendPong env payload = c := by
  rw [Connection.sendPong, h.hasTcp]
  exact h.dispatchAbruptClose _

theorem Dead.sendCloseWithBody (h : c.Dead) (code : Nat) (dispatchCode : Option Nat) (body : Bytes) :
    (c.sendCloseWithBody env code dispatchCode body).Dead ∧
      c.Silent (c.sendCloseWithBody env code dispatchCode body) := by
  rw [Connection.sendCloseWithBody]
  dsimp only
  split
  · exact ⟨h, .refl c⟩
  · rw [h.hasTcp, h.dispatchAbruptClose]
    exact h.clearData

/-! ## Not failing -/

theorem kept_fail (c : Connection δ) (code : ErrorCode) : c.Kept (c.fail code) :=
  .inr (dead_fail c code)

theorem unharmed_takeBytes (c : Connection δ) (bytes : Bytes) :
    c.Unharmed (c.takeBytes env bytes).2 := by
  rw [takeBytes]
  dsimp only
  split
  · exact ⟨rfl, rfl, rfl⟩
  · exact ⟨rfl, rfl, rfl⟩

theorem unharmed_writeEncrypted (c : Connection δ) (bytes : Bytes) :
    c.Unharmed (c.writeEncrypted env bytes) := by
  rw [writeEncrypted]
  split
  · exact ⟨rfl, rfl, rfl⟩
  · split
    · exact ⟨rfl, rfl, rfl⟩
    · exact ⟨rfl, rfl, rfl⟩

theorem unharmed_tunnelWrite (c : Connection δ) (bytes : Bytes) :
    c.Unharmed (c.tunnelWrite env bytes).2 :=
  (unharmed_takeBytes env c bytes).trans
    (unharmed_writeEncrypted env (c.takeBytes env bytes).2 (env.encrypted c.writes))

theorem kept_sendBufferOut (c : Connection δ) : c.Kept (c.sendBufferOut env).2 := by
  have htunnel := unharmed_tunnelWrite env c c.sendBuffer
  have htake := unharmed_takeBytes env c c.sendBuffer
  rw [sendBufferOut]
  split
  · split
    next hwrite =>
      rw [hwrite] at htunnel
      exact .inl ⟨htunnel.outgoing, htunnel.pending, htunnel.clears⟩
    next => exact .inr (dead_fail _ _)
  · split
    · exact .refl c
    · split
      next hwrite =>
        rw [hwrite] at htake
        exact .inl ⟨htake.outgoing, htake.pending, htake.clears⟩
      next => exact .inr (dead_fail _ _)

theorem kept_copyToSendBuffer (c : Connection δ) (bytes : Bytes) (doWrite : Bool) :
    c.Kept (c.copyToSendBuffer env bytes doWrite).2 := by
  change c.Kept (c.queue env bytes doWrite).2
  rw [queue]
  split
  · have hqueued : c.Unharmed { c with sendBuffer := c.sendBuffer ++ bytes } := ⟨rfl, rfl, rfl⟩
    exact Kept.trans hqueued (kept_sendBufferOut env _)
  · exact .inl ⟨rfl, rfl, rfl⟩

theorem kept_enqueueEncodedBytes (c : Connection δ) (bytes : Bytes) :
    c.Kept (c.enqueueEncodedBytes env bytes).2 := by
  have hlog : c.Unharmed (c.log (.frame bytes)) := ⟨rfl, rfl, rfl⟩
  have htunnel := unharmed_tunnelWrite env (c.log (.frame bytes)) bytes
  have htake := unharmed_takeBytes env (c.log (.frame bytes)) bytes
  rw [enqueueEncodedBytes]
  split
  · split
    next => exact .inr (dead_fail _ _)
    next hwrite =>
      rw [hwrite] at htunnel
      split
      · exact Kept.trans (hlog.trans htunnel) (kept_copyToSendBuffer env _ _ _)
      · exact .inl (hlog.trans htunnel)
  · split
    · split
      next => exact .inr (dead_fail _ _)
      next hwrite =>
        rw [hwrite] at htake
        split
        · exact .inl (hlog.trans htake)
        · exact Kept.trans (hlog.trans htake) (kept_copyToSendBuffer env _ _ _)
    · exact Kept.trans hlog (kept_copyToSendBuffer env _ _ _)

/-- A pong goes out, or the connection is dead. -/
theorem kept_sendPong (hpending : c.closeDispatchPending = none) (payload : Bytes) :
    c.Kept (c.sendPong env payload) := by
  rw [Connection.sendPong]
  split
  next htcp =>
    rw [dispatchAbruptClose]
    split
    · exact .inr ⟨rfl, hpending, Bool.not_eq_true' _ |>.mp htcp⟩
    · exact .refl c
  next =>
    have hmask : c.Unharmed
        (if payload ≠ [] then c.generateMask env else ([0, 0, 0, 0], c)).2 := by
      split
      · exact ⟨rfl, rfl, rfl⟩
      · exact ⟨rfl, rfl, rfl⟩
    exact Kept.trans hmask (kept_enqueueEncodedBytes env _ _)

theorem kept_dispatchData (h : c.outgoing = true) (data : Bytes) (kind : Opcode) :
    c.Kept (c.dispatchData env data kind) := by
  unfold Connection.dispatchData
  rw [h]
  simp only [Bool.not_true, Bool.false_eq_true, if_false]
  cases kind with
  | text =>
    dsimp only
    split
    · exact .inl ⟨rfl, rfl, rfl⟩
    · exact kept_fail c _
  | binary => exact .inl ⟨rfl, rfl, rfl⟩
  | ping => exact .inl ⟨rfl, rfl, rfl⟩
  | pong => exact .inl ⟨rfl, rfl, rfl⟩
  | _ => exact kept_fail c _

theorem kept_dispatchMessage (h : c.outgoing = true) (compressed : Bool) (data : Bytes)
    (kind : Opcode) : c.Kept (c.dispatchMessage env compressed data kind) := by
  rw [Connection.dispatchMessage]
  split
  · rw [dispatchCompressedData]
    split
    · exact kept_fail c _
    next deflate _ =>
      split
      next deflate' decompressed _ =>
        have houtgoing : { c with deflate := some deflate' }.outgoing = true := h
        have hdeflate : c.Unharmed { c with deflate := some deflate' } := ⟨rfl, rfl, rfl⟩
        exact Kept.trans hdeflate (kept_dispatchData env houtgoing decompressed kind)
      next => exact .inr (dead_fail _ _)
  · exact kept_dispatchData env h _ _

/-- What is left of a kept connection. -/
theorem Kept.cases (h : c.Kept d) (halive : c.Alive) : d.Alive ∧ d.clears = c.clears ∨ d.Dead :=
  h.imp_left fun hsame => ⟨halive.unharmed hsame, hsame.clears⟩

end Connection

end OhosBun.WebSocket
