/-
# `OhosBun.Http2.Aside` — what leaves header blocks alone

What the client does besides reading header blocks leaves the decoder as it is, and the part of a
block that is there (`Aside`): whether the stream of the block is there still, or is removed
meanwhile, when the session takes the part over.
-/
import OhosBun.Http2.Local

namespace OhosBun.Http2

open OhosBun.Lib

namespace Session
variable {H : Type} {s s' s'' : Session H} {id : Nat}

/-- The part of the header block that is not complete. -/
def pendingBlock (s : Session H) : Bytes :=
  ((s.streams.get? s.expectingContinuation).map Stream.headerBlock).getD s.orphanHeaderBlock

/-- What was done is nothing to the decoder, nor to a block that is not complete. -/
structure Aside (s s' : Session H) : Prop where
  hpack : s'.hpack = s.hpack
  expecting : s'.expectingContinuation = s.expectingContinuation
  nextId : s.nextStreamId ≤ s'.nextStreamId
  pending : s.expectingContinuation < s.nextStreamId → s'.pendingBlock = s.pendingBlock

namespace Aside

theorem refl (s : Session H) : s.Aside s := ⟨rfl, rfl, le_rfl, fun _ => rfl⟩

theorem trans (h : s.Aside s') (h' : s'.Aside s'') : s.Aside s'' where
  hpack := h'.hpack.trans h.hpack
  expecting := h'.expecting.trans h.expecting
  nextId := h.nextId.trans h'.nextId
  pending hlt := (h'.pending (h.expecting.symm ▸ hlt.trans_le h.nextId)).trans (h.pending hlt)

/-- Fields of other things. -/
theorem of_eq (h : s.Aside s') (hhpack : s''.hpack = s'.hpack)
    (hexpecting : s''.expectingContinuation = s'.expectingContinuation)
    (hnext : s''.nextStreamId = s'.nextStreamId) (hstreams : s''.streams = s'.streams)
    (horphan : s''.orphanHeaderBlock = s'.orphanHeaderBlock) : s.Aside s'' := h.trans
  ⟨hhpack, hexpecting, hnext.ge, fun _ => by rw [pendingBlock, hstreams, hexpecting, horphan, pendingBlock]⟩

theorem mapValues {f : Nat → Stream → Stream} (h : s.Aside s')
    (hf : ∀ id stream, (f id stream).headerBlock = stream.headerBlock) :
    s.Aside { s' with streams := s'.streams.mapValues f } := by
  refine h.trans ⟨rfl, rfl, le_rfl, fun _ => ?_⟩
  rw [pendingBlock, ArrayMap.get?_mapValues, Option.map_map, pendingBlock]
  exact congrArg (fun block => (Option.map block _).getD _) (funext fun stream => hf _ stream)

theorem modifyStream {f : Stream → Stream} (h : s.Aside s')
    (hf : ∀ stream, (f stream).headerBlock = stream.headerBlock := by exact fun _ => rfl) :
    s.Aside (s'.modifyStream id f) :=
  h.mapValues fun id' stream => by
    split_ifs
    · exact hf stream
    · rfl

theorem writeFrame (h : s.Aside s') (type flags : UInt8) (payload : Bytes) :
    s.Aside (s'.writeFrame type flags id payload) := h.of_eq rfl rfl rfl rfl rfl

theorem log (h : s.Aside s') (e : Event) : s.Aside (s'.log e) := h.of_eq rfl rfl rfl rfl rfl

theorem fail (h : s.Aside s') (err : Error) : s.Aside (s'.fail err) := h.of_eq rfl rfl rfl rfl rfl

theorem rstStream (h : s.Aside s') (id code : Nat) : s.Aside (s'.rstStream id code) := by
  rw [Session.rstStream]
  split
  · exact h
  · split
    · exact h
    · exact (h.modifyStream fun _ => by rfl).writeFrame _ _ _

/-- The block of a stream that is removed is the session's. -/
theorem removeStream (h : s.Aside s') (id : Nat) : s.Aside (s'.removeStream id) := by
  rw [Session.removeStream]
  cases hget : s'.streams.get? id with
  | none => exact h
  | some stream =>
    refine h.trans ⟨rfl, rfl, le_rfl, fun _ => ?_⟩
    dsimp only
    rw [pendingBlock, pendingBlock, ArrayMap.get?_swapRemove]
    split_ifs with hid
    · rw [hid, hget]
      rfl
    · rfl

/-! ## What is sent -/

variable {fuel cap slice : Nat} {remaining block : Bytes} {endStream stopped : Bool} {ids : List Nat}
  {body : RequestBody} {result : Except (Session H) (Session H)} {f : Frame}

theorem writeContinuations (h : s.Aside s') (heq : writeContinuations id fuel remaining s' = some s'') :
    s.Aside s'' := by
  induction fuel generalizing remaining s' with
  | zero => contradiction
  | succ fuel ih =>
    rw [Session.writeContinuations] at heq
    split at heq
    · obtain rfl := Option.some.inj heq
      exact h.writeFrame _ _ _
    · exact ih (h.writeFrame _ _ _) heq

theorem writeHeaderBlock (h : s.Aside s') (heq : s'.writeHeaderBlock id block endStream = some s'') :
    s.Aside s'' := by
  rw [Session.writeHeaderBlock] at heq
  split at heq
  · obtain rfl := Option.some.inj heq
    exact h.writeFrame _ _ _
  · exact (h.writeFrame _ _ _).writeContinuations heq

theorem writeDataWindowed {consumed sent : Nat} (h : s.Aside s')
    (heq : writeDataWindowed id endStream cap fuel remaining consumed s' = some (s'', sent)) :
    s.Aside s'' := by
  induction fuel generalizing remaining consumed s' with
  | zero => contradiction
  | succ fuel ih =>
    simp only [Session.writeDataWindowed, Option.bind_eq_bind, Option.bind_eq_some_iff] at heq
    obtain ⟨stream, -, heq⟩ := heq
    split at heq
    · exact (Prod.mk.inj (Option.some.inj heq)).1 ▸ h
    split at heq
    · exact (Prod.mk.inj (Option.some.inj heq)).1 ▸ h
    split at heq
    · exact (Prod.mk.inj (Option.some.inj heq)).1 ▸ h
    split at heq
    · exact absurd heq (by simp)
    generalize hframed : (s'.writeFrame FT_DATA _ id _).modifyStream id _ = framed at heq
    have hside : s.Aside framed := hframed ▸ (h.writeFrame _ _ _).modifyStream fun _ => by rfl
    split at heq
    · obtain rfl := (Prod.mk.inj (Option.some.inj heq)).1
      exact hside.of_eq rfl rfl rfl rfl rfl
    · refine ih ?_ heq
      exact hside.of_eq rfl rfl rfl rfl rfl

theorem drainSendBody (h : s.Aside s') (heq : s'.drainSendBody id cap = some s'') :
    s.Aside s'' := by
  simp only [Session.drainSendBody, Option.bind_eq_bind, Option.bind_eq_some_iff] at heq
  obtain ⟨stream, -, heq⟩ := heq
  split at heq
  · exact Option.some.inj heq ▸ h
  split at heq
  · exact Option.some.inj heq ▸ h
  split at heq
  · obtain ⟨⟨sent, n⟩, hsent, heq⟩ := Option.bind_eq_some_iff.mp heq
    split at heq
    · obtain rfl := Option.some.inj heq
      exact ((h.writeDataWindowed hsent).modifyStream fun _ => by rfl).modifyStream fun _ => by rfl
    · obtain rfl := Option.some.inj heq
      exact (h.writeDataWindowed hsent).modifyStream fun _ => by rfl
  · exact Option.some.inj heq ▸ h
  · split at heq
    · exact Option.some.inj heq ▸ h
    obtain ⟨⟨sent, n⟩, hsent, heq⟩ := Option.bind_eq_some_iff.mp heq
    split at heq
    · obtain rfl := Option.some.inj heq
      exact ((h.writeDataWindowed hsent).modifyStream fun _ => by rfl).modifyStream fun _ => by rfl
    · obtain rfl := Option.some.inj heq
      exact (h.writeDataWindowed hsent).modifyStream fun _ => by rfl

theorem drainPass {progressed : Bool} (h : s.Aside s')
    (heq : drainPass slice ids s' progressed = some (s'', stopped)) : s.Aside s'' := by
  induction ids generalizing s' progressed with
  | nil => exact (Prod.mk.inj (Option.some.inj heq)).1 ▸ h
  | cons id ids ih =>
    simp only [Session.drainPass, Option.bind_eq_bind, Option.bind_eq_some_iff] at heq
    obtain ⟨stream, -, heq⟩ := heq
    split at heq
    · exact ih h heq
    · obtain ⟨s₁, hdrained, heq⟩ := Option.bind_eq_some_iff.mp heq
      obtain ⟨stream', -, heq⟩ := Option.bind_eq_some_iff.mp heq
      exact ih (h.drainSendBody hdrained) heq

theorem drainSendBodies (h : s.Aside s') (heq : drainSendBodies slice fuel s' = some (s'', stopped)) :
    s.Aside s'' := by
  induction fuel generalizing s' with
  | zero => contradiction
  | succ fuel ih =>
    rw [Session.drainSendBodies] at heq
    split at heq
    · exact (Prod.mk.inj (Option.some.inj heq)).1 ▸ h
    split at heq
    · exact (Prod.mk.inj (Option.some.inj heq)).1 ▸ h
    obtain ⟨⟨s₁, progressed⟩, hpass, heq⟩ := Option.bind_eq_some_iff.mp heq
    dsimp only at heq
    split at heq
    · exact ih (h.drainPass hpass) heq
    · exact (Prod.mk.inj (Option.some.inj heq)).1 ▸ h.drainPass hpass

/-! ## Operations -/

theorem writeRequest {expectContinue : Bool} (h : s.Aside s')
    (heq : s'.writeRequest id body expectContinue block = some s'') : s.Aside s'' := by
  unfold Session.writeRequest at heq
  generalize hs₁ : ({ s' with pendingHpackEncCapacity := none } : Session H) = s₁ at heq
  have hside : s.Aside s₁ := hs₁ ▸ h.of_eq rfl rfl rfl rfl rfl
  match body with
  | .bytes [] =>
    obtain ⟨s₂, hblock, heq⟩ := Option.bind_eq_some_iff.mp heq
    obtain rfl := Option.some.inj heq
    exact (hside.writeHeaderBlock hblock).modifyStream fun _ => by rfl
  | .bytes (b :: rest) =>
    obtain ⟨s₂, hblock, heq⟩ := Option.bind_eq_some_iff.mp heq
    exact (((hside.modifyStream fun _ => by rfl).writeHeaderBlock hblock).modifyStream fun _ => by rfl).drainSendBody heq
  | .stream ended buffer => exact (hside.modifyStream fun _ => by rfl).writeHeaderBlock heq

theorem logBody (h : s.Aside s') : s.Aside (s'.logBody id body) := by
  cases body with
  | bytes body => exact (h.log _).log _
  | stream ended buffer => exact (h.log _).log _

theorem attach {request : Request} (hid : s.nextStreamId < MAX_STREAM_ID)
    (heq : s.attach request = some s') : s.Aside s' := by
  rw [attach_eq] at heq
  have hopened : s.Aside (s.opened (s.attached request.body)) := by
    rw [opened]
    dsimp only
    have hside : s.Aside { s with
        nextStreamId := min (s.nextStreamId + 2) (2 ^ 32 - 1)
        streams := s.streams.put s.nextStreamId (s.attached request.body) } := by
      refine ⟨rfl, rfl, ?_, fun hlt => ?_⟩
      · have hle : MAX_STREAM_ID ≤ 2 ^ 32 - 1 := by decide
        exact le_min (Nat.le_add_right _ 2) (hid.le.trans hle)
      · rw [pendingBlock, ArrayMap.get?_put, if_neg hlt.ne]
        rfl
    split
    · exact hside
    · exact hside.of_eq rfl rfl rfl rfl rfl
  replace hopened := @Aside.logBody _ _ _ s.nextStreamId request.body hopened
  generalize (s.opened (s.attached request.body)).logBody s.nextStreamId request.body = s₂ at heq hopened
  dsimp only at heq
  split at heq
  · exact Option.some.inj heq ▸ hopened.removeStream _
  · obtain rfl := Option.some.inj heq
    refine removeStream ?_ _
    exact hopened.of_eq rfl rfl rfl rfl rfl
  · exact hopened.writeRequest heq

theorem provide (id : Nat) (bytes : Bytes) : s.Aside (s.provide id bytes) := by
  rw [Session.provide]
  split
  · exact ((refl s).modifyStream fun _ => by rfl).log _
  · exact refl s

theorem streamRequestBody {ended : Bool} (heq : s.streamRequestBody id ended = some s') : s.Aside s' := by
  rw [Session.streamRequestBody] at heq
  split at heq
  · exact Option.some.inj heq ▸ refl s
  split at heq
  · exact Option.some.inj heq ▸ refl s
  split at heq
  · exact Option.some.inj heq ▸ refl s
  · exact (((refl s).modifyStream fun _ => by rfl).log _).drainSendBody heq

theorem detachClient (h : s.Aside s') (id : Nat) : s.Aside (s'.detachClient id) := h.modifyStream fun _ => by rfl

theorem deliverBody (h : s.Aside s') (id : Nat) (stream : Stream) (d : Delivery) :
    s.Aside (s'.deliverBody id stream d).1 := by
  rw [Session.deliverBody]
  split
  · exact h
  split
  · dsimp only
    generalize hs₁ : (if stream.remoteClosed = true then s'.detachClient id else s').modifyStream id _ = s₁
    have hside : s.Aside s₁ := by
      rw [← hs₁]
      refine modifyStream ?_ fun _ => by rfl
      split
      · exact h.detachClient id
      · exact h
    split
    · exact (hside.rstStream id _).detachClient id
    split
    · exact hside
    split
    · exact hside.detachClient id
    · exact hside
  split
  · exact h.detachClient id
  · exact h

theorem deliver {d : Delivery} (heq : s.deliver id d = some s') : s.Aside s' := by
  have hdelivered : ∀ s₁ finished, s.deliverStream id d = some (s₁, finished) → s.Aside s₁ := by
    intro s₁ finished heq
    simp only [deliverStream, Option.bind_eq_bind, Option.bind_eq_some_iff] at heq
    obtain ⟨stream, -, heq⟩ := heq
    have hcancel : ∀ s', s.Aside s' → s.Aside ((s'.rstStream id ErrorCode.CANCEL).detachClient id) :=
      fun s' h => (h.rstStream id _).detachClient id
    split at heq
    · exact (Prod.mk.inj (Option.some.inj heq)).1 ▸ refl s
    split at heq
    · exact (Prod.mk.inj (Option.some.inj heq)).1 ▸ hcancel s (refl s)
    split at heq
    · exact (Prod.mk.inj (Option.some.inj heq)).1 ▸ (refl s).detachClient id
    split at heq
    · split at heq
      · exact (Prod.mk.inj (Option.some.inj heq)).1 ▸ hcancel _ ((refl s).modifyStream fun _ => by rfl)
      split at heq
      · exact (Prod.mk.inj (Option.some.inj heq)).1 ▸ hcancel _ ((refl s).modifyStream fun _ => by rfl)
      split at heq
      · exact (Prod.mk.inj (Option.some.inj heq)).1 ▸ ((refl s).modifyStream fun _ => by rfl).detachClient id
      · have hbody := congrArg Prod.fst (Option.some.inj heq)
        dsimp only at hbody
        rw [← hbody]
        exact deliverBody ((refl s).modifyStream fun _ => by rfl) id stream d
    · have hbody := congrArg Prod.fst (Option.some.inj heq)
      dsimp only at hbody
      rw [← hbody]
      exact deliverBody (refl s) id stream d
  rw [Session.deliver] at heq
  obtain ⟨⟨s₁, finished⟩, hstream, heq⟩ := Option.bind_eq_some_iff.mp heq
  have hside := hdelivered s₁ finished hstream
  dsimp only at heq
  split at heq
  · exact Option.some.inj heq ▸ (hside.rstStream id _).removeStream id
  · exact Option.some.inj heq ▸ hside

theorem abort (id : Nat) : s.Aside (s.abort id) := ((refl s).rstStream id _).removeStream id

theorem replenishWindow (paused : List Nat) : s.Aside (s.replenishWindow paused) := by
  have hupdates : ∀ (updates : List (Nat × Stream)) s', s.Aside s' →
      s.Aside (updates.foldl (fun s u => s.writeWindowUpdate u.1 u.2.unackedBytes) s') := by
    intro updates
    induction updates with
    | nil => exact fun _ h => h
    | cons update updates ih => exact fun s' h => ih _ (h.writeFrame _ _ _)
  rw [Session.replenishWindow]
  refine hupdates _ _ (mapValues ?_ fun id stream => ?_)
  · split
    · exact (refl s).of_eq rfl rfl rfl rfl rfl
    · exact refl s
  · split <;> rfl

/-- Whatever a client does by itself. -/
theorem step {H : Type} (hpack : Lshpack H) {s s' : Session H} {op : Op} (hop : ∀ f, op ≠ .dispatch f)
    (hfatal : s'.fatalError = none) (hallowed : s.Allowed op) (heq : s.step hpack op = some s') :
    s.Aside s' := by
  cases op with
  | dispatch f => exact absurd rfl (hop f)
  | attach request =>
    simp only [Allowed, hasHeadroom, Bool.and_eq_true, decide_eq_true_iff] at hallowed
    exact attach hallowed.2 heq
  | provide id bytes => exact Option.some.inj heq ▸ provide id bytes
  | streamRequestBody id ended => exact streamRequestBody heq
  | drainSendBody id cap =>
    rw [Session.step] at heq
    split at heq
    · exact (refl s).drainSendBody heq
    · exact Option.some.inj heq ▸ refl s
  | drainSendBodies =>
    obtain ⟨⟨s₁, stopped⟩, hdrained, rfl⟩ := Option.map_eq_some_iff.mp heq
    exact (refl s).drainSendBodies hdrained
  | flush wrote => exact Option.some.inj heq ▸ (refl s).of_eq rfl rfl rfl rfl rfl
  | deliver id answers =>
    rw [Session.step] at heq
    split at heq
    · exact deliver heq
    · exact Option.some.inj heq ▸ refl s
  | abort id => exact Option.some.inj heq ▸ abort id
  | replenishWindow paused => exact Option.some.inj heq ▸ replenishWindow paused
  | failAll err alive =>
    obtain rfl := Option.some.inj heq
    cases alive with
    | false => contradiction
    | true => contradiction

/-! ## Frames that are not of a header block -/

/-- The session behind a step that may return early. -/
def either : Except (Session H) (Session H) → Session H
  | .ok s => s
  | .error s => s

theorem shiftWindows {delta : Int} (h : s.Aside s') (heq : shiftWindows delta ids s' = some result) :
    s.Aside (either result) := by
  induction ids generalizing s' with
  | nil => exact Option.some.inj heq ▸ h
  | cons id ids ih =>
    simp only [Session.shiftWindows, Option.bind_eq_bind, Option.bind_eq_some_iff] at heq
    obtain ⟨stream, -, heq⟩ := heq
    split at heq
    · exact Option.some.inj heq ▸ h.fail _
    split at heq
    · exact absurd heq (by simp)
    · exact ih (h.modifyStream fun _ => by rfl) heq

theorem applySetting {type value : Nat} (h : s.Aside s')
    (heq : s'.applySetting type value = some result) : s.Aside (either result) := by
  rw [Session.applySetting] at heq
  split at heq
  · split at heq
    · exact Option.some.inj heq ▸ h.fail _
    · exact Option.some.inj heq ▸ h.of_eq rfl rfl rfl rfl rfl
  split at heq
  · exact Option.some.inj heq ▸ h.of_eq rfl rfl rfl rfl rfl
  split at heq
  · exact Option.some.inj heq ▸ h.of_eq rfl rfl rfl rfl rfl
  split at heq
  · split at heq
    · exact Option.some.inj heq ▸ h.fail _
    · refine shiftWindows ?_ heq
      exact h.of_eq rfl rfl rfl rfl rfl
  · exact Option.some.inj heq ▸ h

theorem applySettings {units : List (Nat × Nat)} (h : s.Aside s')
    (heq : applySettings units s' = some result) : s.Aside (either result) := by
  induction units generalizing s' with
  | nil => exact Option.some.inj heq ▸ h
  | cons setting units ih =>
    obtain ⟨first, hfirst, heq⟩ := Option.bind_eq_some_iff.mp heq
    have hside := h.applySetting hfirst
    cases first with
    | error s₁ => exact Option.some.inj heq ▸ hside
    | ok s₁ => exact ih hside heq

theorem dispatchSettings (h : s.Aside s') (heq : s'.dispatchSettings f = some s'') :
    s.Aside s'' := by
  rw [Session.dispatchSettings] at heq
  split at heq
  · exact Option.some.inj heq ▸ h.fail _
  split at heq
  · obtain rfl := Option.some.inj heq
    split
    · exact h.fail _
    · exact h
  split at heq
  · exact Option.some.inj heq ▸ h.fail _
  obtain ⟨result, hresult, heq⟩ := Option.bind_eq_some_iff.mp heq
  have hside := h.applySettings hresult
  cases result with
  | error s₁ => exact Option.some.inj heq ▸ hside
  | ok s₁ =>
    dsimp only at heq
    split at heq
    · exact Option.some.inj heq ▸ fail hside _
    · exact Option.some.inj heq ▸ of_eq hside rfl rfl rfl rfl rfl

theorem dispatchWindowUpdate (h : s.Aside s') (heq : s'.dispatchWindowUpdate f = some s'') :
    s.Aside s'' := by
  rw [Session.dispatchWindowUpdate] at heq
  split at heq
  · exact Option.some.inj heq ▸ h.fail _
  dsimp only at heq
  split at heq
  · split at heq
    · exact Option.some.inj heq ▸ h.fail _
    split at heq
    · exact Option.some.inj heq ▸ h.fail _
    split at heq
    · exact absurd heq (by simp)
    · exact Option.some.inj heq ▸ h.of_eq rfl rfl rfl rfl rfl
  split at heq
  · split at heq
    · exact Option.some.inj heq ▸ (h.rstStream _ _).modifyStream fun _ => by rfl
    split at heq
    · exact Option.some.inj heq ▸ (h.rstStream _ _).modifyStream fun _ => by rfl
    split at heq
    · exact absurd heq (by simp)
    · generalize hs₁ : s'.modifyStream (uint31 f.streamId) _ = s₁ at heq
      have hside : s.Aside s₁ := hs₁ ▸ h.modifyStream fun _ => by rfl
      exact Option.some.inj heq ▸ hside.of_eq rfl rfl rfl rfl rfl
  · split at heq
    · exact Option.some.inj heq ▸ h.fail _
    · exact Option.some.inj heq ▸ h

theorem dispatchPing (h : s.Aside s') (f : Frame) : s.Aside (s'.dispatchPing f) := by
  rw [Session.dispatchPing]
  split
  · exact h.fail _
  split
  · exact h.fail _
  split
  · exact h
  split
  · exact h.fail _
  · exact h.writeFrame _ _ _

theorem dispatchPriority (h : s.Aside s') (f : Frame) : s.Aside (s'.dispatchPriority f) := by
  rw [Session.dispatchPriority]
  split
  · exact h.fail _
  split
  · exact h.fail _
  · exact h

theorem dispatchData (h : s.Aside s') (f : Frame) : s.Aside (s'.dispatchData f) := by
  rw [Session.dispatchData]
  dsimp only
  split
  · split
    · exact h.of_eq rfl rfl rfl rfl rfl
    · exact h.of_eq rfl rfl rfl rfl rfl
  · generalize hs₁ : ({ s' with
        connUnackedBytes := saturatingAdd s'.connUnackedBytes f.length
        streamProgressed := true } : Session H) = s₁
    have hside : s.Aside s₁ := hs₁ ▸ h.of_eq rfl rfl rfl rfl rfl
    split
    · exact (hside.rstStream _ _).modifyStream fun _ => by rfl
    split
    · exact hside.modifyStream fun _ => by rfl
    split
    · exact (hside.modifyStream fun _ => by rfl).fail _
    · refine modifyStream ?_ fun _ => by rfl
      split
      · exact (hside.modifyStream fun _ => by rfl).modifyStream fun _ => by rfl
      · exact hside.modifyStream fun _ => by rfl

theorem dispatchRstStream (h : s.Aside s') (f : Frame) : s.Aside (s'.dispatchRstStream f) := by
  rw [Session.dispatchRstStream]
  split
  · exact h.fail _
  split
  · exact h.fail _
  split
  · exact h
  split
  · exact h
  · exact h.modifyStream fun _ => by rfl

theorem dispatchGoaway (h : s.Aside s') (f : Frame) : s.Aside (s'.dispatchGoaway f) := by
  rw [Session.dispatchGoaway]
  split
  · exact h.fail _
  split
  · exact h.fail _
  · refine of_eq (h.mapValues ?_) rfl rfl rfl rfl rfl
    intro id stream
    split_ifs <;> rfl

/-! ## Header blocks that are decoded -/

theorem finishHeaderBlock (h : s.Aside s') (id : Nat) (stream : Stream) (d : Decoding) :
    s.Aside (s'.finishHeaderBlock id stream d) := by
  rw [Session.finishHeaderBlock]
  split
  · exact (h.rstStream _ _).modifyStream fun _ => by rfl
  split
  · split
    · exact h
    · exact h.modifyStream fun _ => by rfl
  split
  · exact h.modifyStream fun _ => by rfl
  split
  · split
    · dsimp only
      split
      · exact (h.modifyStream fun _ => by rfl).modifyStream fun _ => by rfl
      · exact h.modifyStream fun _ => by rfl
    · dsimp only
      split
      · exact h.modifyStream fun _ => by rfl
      · exact h
  · dsimp only
    split
    · exact ((h.modifyStream fun _ => by rfl).writeFrame _ _ _).modifyStream fun _ => by rfl
    · exact h.modifyStream fun _ => by rfl

end Aside

end Session

end OhosBun.Http2
