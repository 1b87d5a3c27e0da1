/-
# `OhosBun.WebSocket.Outgoing` — what a client sends is not interleaved

The calls that make a client write, in any order (`Action`), on a transport that takes some of
every write.  Frames are neither torn nor reordered and nothing follows a close frame
(`Orderly.acts`), as long as no call writes where it should not: a control frame straight into a
tunnel past bytes still buffered, or anything at all once a close frame has been sent
(`Connection.Strays`).
-/
import OhosBun.WebSocket.Sending

namespace OhosBun.WebSocket

open OhosBun.Lib

/-- A call that makes a client write.  `answer` is of the payload of a close frame. -/
inductive Action
  | writeBinaryData (slice : Bytes) (op : Nat)
  | writeString (str : EncodedSlice) (op : Nat)
  | sendPong (payload : Bytes)
  | close (code : Nat) (reason : Bytes)
  | sendCloseWithBody (code : Nat) (dispatchCode : Option Nat) (body : Bytes)
  | onWritable (closeReceived : Bool) (flushed : Bytes)
deriving DecidableEq

/-- The reason of a close frame is valid UTF-8; else there is no frame, and the connection fails. -/
def Action.ValidReason {δ : Type} (env : Env δ) : Action → Prop
  | .close _ reason | .sendCloseWithBody _ _ reason =>
    reason.take maxCloseReason = [] ∨ env.isValidUtf8 (reason.take maxCloseReason) = true
  | _ => True

namespace Connection
variable {δ : Type} (env : Env δ) (c : Connection δ)

def act : Action → Connection δ
  | .writeBinaryData slice op => c.writeBinaryData env slice op
  | .writeString str op => c.writeString env str op
  | .sendPong payload => c.sendPong env payload
  | .close code reason => c.close env code reason
  | .sendCloseWithBody code dispatchCode body => c.sendCloseWithBody env code dispatchCode body
  | .onWritable closeReceived flushed => c.onWritable env closeReceived flushed

/-- Calls, one after another. -/
def acts (actions : List Action) : Connection δ := actions.foldl (act env) c

end Connection

def Event.frame? : Event → Option Bytes
  | .frame bytes => some bytes
  | _ => none

/-- The frames handed to the transport. -/
def framesOf (events : List Event) : List Bytes := events.filterMap Event.frame?

/-- The opcode in its first byte is that of a close frame. -/
def IsClose (frame : Bytes) : Prop := (frame.headD 0).toNat % 16 = 8

instance (frame : Bytes) : Decidable (IsClose frame) := by
  unfold IsClose
  infer_instance

namespace Connection
variable {δ : Type} {env : Env δ} {c d e : Connection δ}

def CloseSent (c : Connection δ) : Prop := ∃ frame ∈ framesOf c.events, IsClose frame

instance (c : Connection δ) : Decidable c.CloseSent := by
  unfold CloseSent
  infer_instance

/-- Whether the call makes a frame of its own. -/
def Sends (c : Connection δ) : Action → Prop
  | .writeBinaryData _ op => c.hasTcp = true ∧ op ≤ 0xF
  | .writeString .. => c.hasTcp = true
  | .sendPong _ => c.hasTcp = true
  | .close .. | .sendCloseWithBody .. => c.hasTcp = true ∧ c.closeDispatchPending = none
  | .onWritable .. => False

/-- And whether that is a control frame, which does not wait for what is buffered. -/
def IsControl : Action → Prop
  | .sendPong _ | .close .. | .sendCloseWithBody .. => True
  | _ => False

/-- A frame is sent after a close frame, or past bytes still buffered. -/
def Strays (env : Env δ) (c : Connection δ) (action : Action) : Prop :=
  c.Sends action ∧ (c.CloseSent ∨ IsControl action ∧ c.Overtakes env)

instance decidableSends (c : Connection δ) : ∀ action, Decidable (c.Sends action)
  | .writeBinaryData _ op => inferInstanceAs (Decidable (c.hasTcp = true ∧ op ≤ 0xF))
  | .writeString .. | .sendPong _ => inferInstanceAs (Decidable (c.hasTcp = true))
  | .close .. | .sendCloseWithBody .. =>
    inferInstanceAs (Decidable (c.hasTcp = true ∧ c.closeDispatchPending = none))
  | .onWritable .. => .isFalse id

instance decidableIsControl : ∀ action, Decidable (IsControl action)
  | .sendPong _ | .close .. | .sendCloseWithBody .. => .isTrue trivial
  | .writeBinaryData .. | .writeString .. | .onWritable .. => .isFalse id

instance (env : Env δ) (c : Connection δ) (action : Action) : Decidable (c.Strays env action) := by
  unfold Strays Overtakes
  infer_instance

/-- No close frame but the last. -/
def NothingAfterClose (frames : List Bytes) : Prop := ∀ frame ∈ frames.dropLast, ¬ IsClose frame

/-- Whole frames in order, none after a close frame. -/
structure Orderly (c : Connection δ) : Prop where
  stream : c.stream = (framesOf c.events).flatten
  last : NothingAfterClose (framesOf c.events)
  buffered : c.hasTcp = false → c.sendBuffer = []

/-! ## One frame -/

/-- A frame has been sent, as far as the transport takes it. -/
structure Posts (c d : Connection δ) : Prop where
  frame : ∃ bytes, d.events = c.events ++ [.frame bytes] ∧ d.stream = c.stream ++ bytes
  hasTcp : d.hasTcp = c.hasTcp
  outgoing : d.outgoing = c.outgoing
  pending : d.closeDispatchPending = c.closeDispatchPending

theorem posts_queue (henv : env.Takes) (htcp : c.hasTcp = true) (bytes : Bytes) (doWrite : Bool) :
    c.Posts ((c.log (.frame bytes)).queue env bytes doWrite).2 := by
  have hlogged : (c.log (.frame bytes)).hasTcp = true := htcp
  obtain ⟨after, hqueue, hsteady, hstream⟩ := queue_steady henv hlogged bytes doWrite
  rw [hqueue]
  exact ⟨⟨bytes, hsteady.events, hstream⟩, hsteady.hasTcp, hsteady.outgoing, hsteady.pending⟩

theorem posts_enqueueEncodedBytes (henv : env.Takes) (htcp : c.hasTcp = true)
    (hdirect : ¬ c.Overtakes env) (bytes : Bytes) :
    (c.enqueueEncodedBytes env bytes).1 = true ∧ c.Posts (c.enqueueEncodedBytes env bytes).2 := by
  obtain ⟨after, henqueue, hsteady, hstream⟩ := enqueueEncodedBytes_steady henv htcp bytes
  rw [henqueue]
  exact ⟨rfl, ⟨bytes, hsteady.events, hstream hdirect⟩, hsteady.hasTcp, hsteady.outgoing, hsteady.pending⟩

theorem not_overtakes_of_no_backpressure (h : c.hasBackpressure = false) : ¬ c.Overtakes env := by
  rw [hasBackpressure, Bool.or_eq_false_iff, decide_eq_false_iff_not] at h
  exact fun hovertakes =>
    hovertakes.2.1 (List.eq_nil_of_length_eq_zero (Nat.eq_zero_of_not_pos h.1))

/-- Which key it is masked with is no matter. -/
theorem Posts.of_generateMask (h : (c.generateMask env).2.Posts d) : c.Posts d :=
  ⟨h.frame, h.hasTcp, h.outgoing, h.pending⟩

theorem posts_sendInlineFrame (henv : env.Takes) (htcp : c.hasTcp = true)
    (hfree : c.hasBackpressure = false) (copy : Copy) (opcode : Opcode) :
    c.Posts (c.sendInlineFrame env copy opcode) := by
  have htcp' : (c.generateMask env).2.hasTcp = true := htcp
  have hdirect : ¬ (c.generateMask env).2.Overtakes env :=
    not_overtakes_of_no_backpressure (by exact hfree)
  exact (posts_enqueueEncodedBytes henv htcp' hdirect _).2.of_generateMask

theorem posts_sendDataUncompressed (henv : env.Takes) (htcp : c.hasTcp = true) {copy : Copy}
    (hcopy : ∀ frame, copy ≠ .raw frame) (doWrite : Bool) (opcode : Opcode) :
    c.Posts (c.sendDataUncompressed env copy doWrite opcode).2 := by
  have htcp' : (c.generateMask env).2.hasTcp = true := htcp
  have hposts := fun bytes : Bytes => (posts_queue henv htcp' bytes doWrite).of_generateMask
  cases copy with
  | raw frame => exact absurd rfl (hcopy frame)
  | _ => exact hposts _

theorem posts_sendData (henv : env.Takes) (htcp : c.hasTcp = true) {copy : Copy}
    (hcopy : ∀ frame, copy ≠ .raw frame) (doWrite : Bool) (opcode : Opcode) :
    c.Posts (c.sendData env copy doWrite opcode).2 := by
  have hplain := posts_sendDataUncompressed henv htcp hcopy doWrite opcode
  cases copy with
  | raw frame => exact absurd rfl (hcopy frame)
  | _ =>
    unfold sendData
    dsimp only
    split
    next => exact hplain
    split
    next => exact hplain
    next deflate compressed _ =>
      have htcp' : (({ c with deflate := some deflate } : Connection δ).generateMask env).2.hasTcp =
          true := htcp
      have hposts := posts_queue henv htcp'
        (encodeFrame opcode true (env.entropy c.masks) compressed) doWrite
      exact ⟨hposts.frame, hposts.hasTcp, hposts.outgoing, hposts.pending⟩

theorem posts_sendFrame (henv : env.Takes) (htcp : c.hasTcp = true) {copy : Copy}
    (hcopy : ∀ frame, copy ≠ .raw frame) (payloadByteLen : Nat) (opcode : Opcode) :
    c.Posts (c.sendFrame env copy payloadByteLen opcode) := by
  rw [sendFrame]
  split
  next hfree =>
    rw [Bool.and_eq_true, Bool.not_eq_true'] at hfree
    exact posts_sendInlineFrame henv htcp hfree.1 copy opcode
  next => exact posts_sendData henv htcp hcopy _ opcode

theorem posts_writeString (henv : env.Takes) (htcp : c.hasTcp = true) (str : EncodedSlice) (op : Nat) :
    c.Posts (c.writeString env str op) := by
  have hqueued : c.Posts (c.sendData env
      (if str.is16Bit then .utf16 str.utf8 else .latin1 str.utf8) (!c.hasBackpressure) (.fromRaw op)).2 := by
    refine posts_sendData henv htcp ?_ _ _
    split
    · exact fun _ => Copy.noConfusion
    · exact fun _ => Copy.noConfusion
  rw [writeString, if_neg (by rw [htcp]; decide)]
  dsimp only
  split
  · split
    next hfree =>
      rw [Bool.and_eq_true, Bool.not_eq_true'] at hfree
      exact posts_sendInlineFrame henv htcp hfree.1 _ _
    next => exact hqueued
  · split
    next hfree =>
      rw [Bool.and_eq_true, Bool.not_eq_true'] at hfree
      exact posts_sendInlineFrame henv htcp hfree.2 _ _
    next => exact hqueued

theorem posts_sendPong (henv : env.Takes) (htcp : c.hasTcp = true) (hdirect : ¬ c.Overtakes env)
    (payload : Bytes) : c.Posts (c.sendPong env payload) := by
  rw [sendPong, if_neg (by rw [htcp]; decide)]
  by_cases hempty : payload ≠ []
  · have htcp' : (c.generateMask env).2.hasTcp = true := htcp
    have hdirect' : ¬ (c.generateMask env).2.Overtakes env := hdirect
    rw [if_pos hempty]
    exact (posts_enqueueEncodedBytes henv htcp' hdirect' _).2.of_generateMask
  · rw [if_neg hempty]
    exact (posts_enqueueEncodedBytes henv htcp hdirect _).2

/-! ## The invariant -/

/-- Another frame at the end. -/
theorem Orderly.posts (h : c.Orderly) (hposts : c.Posts d) (hopen : ¬ c.CloseSent) (htcp : c.hasTcp = true) :
    d.Orderly := by
  obtain ⟨bytes, hevents, hstream⟩ := hposts.frame
  have hframes : framesOf d.events = framesOf c.events ++ [bytes] := by
    rw [hevents, framesOf, List.filterMap_append]
    rfl
  refine ⟨?_, ?_, ?_⟩
  · rw [hstream, h.stream, hframes, List.flatten_append, List.flatten_singleton]
  · rw [hframes]
    intro frame hmem
    rw [List.dropLast_concat] at hmem
    exact fun hclose => hopen ⟨frame, hmem, hclose⟩
  · rw [hposts.hasTcp, htcp]
    exact fun hnone => Bool.noConfusion hnone

/-- Nothing has been sent. -/
theorem Orderly.unsent (h : c.Orderly) (hstream : d.stream = c.stream)
    (hframes : framesOf d.events = framesOf c.events) (hbuffered : d.hasTcp = false → d.sendBuffer = []) :
    d.Orderly := by
  refine ⟨?_, ?_, hbuffered⟩
  · rw [hstream, hframes, h.stream]
  · rw [hframes]
    exact h.last

theorem Orderly.dispatchAbruptClose (h : c.Orderly) (code : ErrorCode) :
    (c.dispatchAbruptClose code).Orderly := by
  rw [Connection.dispatchAbruptClose]
  split
  · refine h.unsent rfl ?_ h.buffered
    exact (List.filterMap_append ..).trans (List.append_nil _)
  · exact h

/-- What is buffered is not lost where there is none. -/
theorem Orderly.clearData (h : c.Orderly) (hbuffer : c.sendBuffer = []) : c.clearData.Orderly := by
  refine h.unsent ?_ rfl fun _ => rfl
  rw [Connection.stream, Connection.stream, hbuffer]
  rfl

theorem Orderly.finish (h : c.Orderly) (hbuffer : c.sendBuffer = []) (code : Nat) (reason : Bytes) :
    (c.shutdownAfterCloseFrame.clearData.dispatchClose code reason).Orderly := by
  have hshutdown : c.shutdownAfterCloseFrame.Orderly ∧ c.shutdownAfterCloseFrame.sendBuffer = [] := by
    rw [shutdownAfterCloseFrame]
    split
    · exact ⟨h.unsent rfl rfl fun _ => hbuffer, hbuffer⟩
    · exact ⟨h, hbuffer⟩
  have hcleared := hshutdown.1.clearData hshutdown.2
  rw [dispatchClose]
  split
  · refine hcleared.unsent rfl ?_ fun _ => rfl
    exact (List.filterMap_append ..).trans (List.append_nil _)
  · exact hcleared

/-- What the call does not stray with. -/
theorem not_strays {action : Action} (h : ¬ c.Strays env action) (hsends : c.Sends action) :
    ¬ c.CloseSent ∧ (IsControl action → ¬ c.Overtakes env) :=
  ⟨fun hclose => h ⟨hsends, .inl hclose⟩, fun hcontrol hovertakes => h ⟨hsends, .inr ⟨hcontrol, hovertakes⟩⟩⟩

theorem Orderly.sendCloseWithBody (henv : env.Takes) (h : c.Orderly) (code : Nat) (dispatchCode : Option Nat)
    {body : Bytes}
    (hvalid : body.take maxCloseReason = [] ∨ env.isValidUtf8 (body.take maxCloseReason) = true)
    (hstray : ¬ c.Strays env (.sendCloseWithBody code dispatchCode body)) :
    (c.sendCloseWithBody env code dispatchCode body).Orderly := by
  rw [Connection.sendCloseWithBody]
  dsimp only
  split
  next => exact h
  next hpending =>
    have hnone : c.closeDispatchPending = none := by
      rw [hasPendingCloseDispatch, Bool.not_eq_true, Option.isSome_eq_false_iff,
        Option.isNone_iff_eq_none] at hpending
      exact hpending
    split
    next htcp =>
      have hbuffer := h.buffered ((Bool.not_eq_true' _).mp htcp)
      refine (h.dispatchAbruptClose .ended).clearData ?_
      rw [Connection.dispatchAbruptClose]
      split
      · exact hbuffer
      · exact hbuffer
    next htcp =>
      have htcp' : c.hasTcp = true := by simpa using htcp
      obtain ⟨hopen, hdirect⟩ := not_strays hstray ⟨htcp', hnone⟩
      have hsound : ¬ (decide (body.take maxCloseReason ≠ []) &&
          !env.isValidUtf8 (body.take maxCloseReason)) = true := by
        rw [Bool.and_eq_true, decide_eq_true_eq, Bool.not_eq_true']
        rintro ⟨hne, hinvalid⟩
        rcases hvalid with hempty | hvalid
        · exact hne hempty
        · rw [hvalid] at hinvalid
          exact Bool.noConfusion hinvalid
      rw [if_neg hsound]
      generalize (WebsocketHeader.new (((body.take maxCloseReason).length + 2) % 2 ^ 7) true .close).slice ++
        (c.generateMask env).1 ++
        maskBytes (c.generateMask env).1 (beBytes 2 code ++ body.take maxCloseReason) = bytes
      have hmasked : (c.generateMask env).2.hasTcp = true := htcp'
      have hdirect' : ¬ (c.generateMask env).2.Overtakes env := hdirect trivial
      obtain ⟨hok, hposts⟩ := posts_enqueueEncodedBytes henv hmasked hdirect' bytes
      generalize (c.generateMask env).2.enqueueEncodedBytes env bytes = result at hok hposts
      obtain ⟨ok, after⟩ := result
      dsimp only at hok hposts
      have horderly := h.posts hposts.of_generateMask hopen htcp'
      rw [hok]
      dsimp only
      split
      next hempty => exact horderly.finish hempty _ _
      next => exact horderly.unsent rfl rfl horderly.buffered

theorem Orderly.sendBufferOut (henv : env.Takes) (h : c.Orderly) (htcp : c.hasTcp = true) :
    (c.sendBufferOut env).2.Orderly := by
  obtain ⟨after, hout, hsteady, hstream⟩ := sendBufferOut_steady henv htcp
  rw [hout]
  refine h.unsent hstream (congrArg framesOf hsteady.events) ?_
  rw [hsteady.hasTcp, htcp]
  exact fun hnone => Bool.noConfusion hnone

/-- A close that waited for its frame to be written. -/
theorem Orderly.finishPending (h : c.Orderly) :
    (if c.sendBuffer = [] then c.finishPendingClose else c).Orderly := by
  split
  next hempty =>
    rw [finishPendingClose]
    split
    next => exact h
    next code reason _ =>
      have hforgotten : Orderly { c with closeDispatchPending := none } := h.unsent rfl rfl h.buffered
      exact hforgotten.finish hempty code reason
  next => exact h

theorem Orderly.handleWritable (henv : env.Takes) (h : c.Orderly) (closeReceived : Bool) :
    (c.handleWritable env closeReceived).Orderly := by
  rw [Connection.handleWritable]
  split
  next => exact h
  next =>
    have hdrained : (if c.sendBuffer ≠ [] then (c.sendBufferOut env).2 else c).Orderly := by
      split
      next hbuffer =>
        have htcp : c.hasTcp = true := by
          by_contra hnone
          exact hbuffer (h.buffered (Bool.eq_false_iff.mpr hnone))
        exact h.sendBufferOut henv htcp
      next => exact h
    exact hdrained.finishPending

theorem tunnelFlush_steady (env : Env δ) (c : Connection δ) (flushed : Bytes) :
    c.Steady (c.tunnelFlush env flushed).2 ∧ (c.tunnelFlush env flushed).2.wire = c.wire ∧
      (c.tunnelFlush env flushed).2.sendBuffer = c.sendBuffer := by
  have hwritten : c.Steady (if flushed ≠ [] then c.writeEncrypted env flushed else c) ∧
      (if flushed ≠ [] then c.writeEncrypted env flushed else c).wire = c.wire ∧
      (if flushed ≠ [] then c.writeEncrypted env flushed else c).sendBuffer = c.sendBuffer := by
    split
    · exact writeEncrypted_steady env c flushed
    · exact ⟨.refl c, rfl, rfl⟩
  rw [tunnelFlush]
  generalize (if flushed ≠ [] then c.writeEncrypted env flushed else c) = written at hwritten
  split
  next => exact hwritten
  next => exact hwritten
  next buffer _ htunnel =>
    have hsome : c.tunnel.isSome = true := by
      rw [← hwritten.1.tunnel, htunnel]
      rfl
    split
    · exact ⟨{ hwritten.1 with }, hwritten.2⟩
    · exact ⟨{ hwritten.1 with tunnel := hsome.symm }, hwritten.2⟩

theorem Orderly.onWritable (henv : env.Takes) (h : c.Orderly) (closeReceived : Bool) (flushed : Bytes) :
    (c.onWritable env closeReceived flushed).Orderly := by
  obtain ⟨hsteady, hwire, hbuffer⟩ := tunnelFlush_steady env c flushed
  have hflushed : (c.tunnelFlush env flushed).2.Orderly := by
    refine h.unsent ?_ (congrArg framesOf hsteady.events) ?_
    · rw [Connection.stream, hwire, hbuffer]
      rfl
    · rw [hsteady.hasTcp, hbuffer]
      exact h.buffered
  rw [Connection.onWritable]
  split
  · generalize c.tunnelFlush env flushed = result at hflushed
    obtain ⟨ok, after⟩ := result
    cases ok with
    | true => exact hflushed.handleWritable henv closeReceived
    | false => exact hflushed
  · exact h.handleWritable henv closeReceived

/-! ## Runs -/

theorem Orderly.act (henv : env.Takes) (h : c.Orderly) {action : Action} (hvalid : action.ValidReason env)
    (hstray : ¬ c.Strays env action) : (c.act env action).Orderly := by
  cases action with
  | writeBinaryData slice op =>
    change (c.writeBinaryData env slice op).Orderly
    rw [writeBinaryData]
    split
    next => exact h.dispatchAbruptClose .ended
    next hsends =>
      simp only [Bool.or_eq_true, Bool.not_eq_true', decide_eq_true_eq, not_or, Bool.not_eq_false,
        Nat.not_lt] at hsends
      obtain ⟨hopen, -⟩ := not_strays hstray hsends
      exact h.posts (posts_sendFrame henv hsends.1 (fun _ => Copy.noConfusion) _ _) hopen hsends.1
  | writeString str op =>
    change (c.writeString env str op).Orderly
    cases htcp : c.hasTcp with
    | true =>
      obtain ⟨hopen, -⟩ := not_strays hstray htcp
      exact h.posts (posts_writeString henv htcp str op) hopen htcp
    | false =>
      rw [writeString, htcp]
      exact h.dispatchAbruptClose .ended
  | sendPong payload =>
    change (c.sendPong env payload).Orderly
    cases htcp : c.hasTcp with
    | true =>
      obtain ⟨hopen, hdirect⟩ := not_strays hstray htcp
      exact h.posts (posts_sendPong henv htcp (hdirect trivial) payload) hopen htcp
    | false =>
      rw [sendPong, htcp]
      exact h.dispatchAbruptClose .ended
  | close code reason =>
    change (c.close env code reason).Orderly
    rw [Connection.close]
    split
    next => exact h
    next => exact h.sendCloseWithBody henv code none hvalid hstray
  | sendCloseWithBody code dispatchCode body => exact h.sendCloseWithBody henv code dispatchCode hvalid hstray
  | onWritable closeReceived flushed => exact h.onWritable henv closeReceived flushed

/-- No call strays. -/
def Straight (env : Env δ) : Connection δ → List Action → Prop
  | _, [] => True
  | c, action :: actions => ¬ c.Strays env action ∧ Straight env (c.act env action) actions

theorem Orderly.acts (henv : env.Takes) {actions : List Action} : ∀ {c : Connection δ}, c.Orderly →
    (∀ action ∈ actions, action.ValidReason env) → c.Straight env actions →
    (c.acts env actions).Orderly := by
  induction actions with
  | nil => exact fun h _ _ => h
  | cons action actions ih =>
    intro c h hvalid hstraight
    have hact := h.act henv (hvalid action (List.mem_cons_self ..)) hstraight.1
    exact ih hact (fun action' hmem => hvalid action' (List.mem_cons_of_mem _ hmem)) hstraight.2

/-- The first write takes three bytes. -/
def haltingly : Env Unit where
  isValidUtf8 _ := true
  decompress _ _ := ((), .error .invalidCompressedData)
  compress _ _ := none
  entropy _ := [1, 2, 3, 4]
  takes n := if n = 0 then some 3 else some 1000
  encrypted _ := []

theorem haltingly_takes : haltingly.Takes := by
  intro n
  rw [haltingly]
  dsimp only
  split
  · exact Option.some_ne_none _
  · exact Option.some_ne_none _

instance decidableStraight (env : Env δ) : ∀ (c : Connection δ) (actions : List Action),
    Decidable (c.Straight env actions)
  | _, [] => .isTrue trivial
  | c, action :: actions =>
    have := decidableStraight env (c.act env action) actions
    inferInstanceAs (Decidable (¬ c.Strays env action ∧ Straight env (c.act env action) actions))

end Connection

end OhosBun.WebSocket
