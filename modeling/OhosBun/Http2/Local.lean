/-
# `OhosBun.Http2.Local` — operations of the client are actions

What the client does by itself, that is not a frame of the server: each operation returns, and what
it does to the view is a sequence of actions.
-/
import OhosBun.Http2.Drains

namespace OhosBun.Http2

open OhosBun.Lib

namespace Session
variable {H : Type} {s s' : Session H} {id : Nat} {stream : Stream}
variable (ok : StreamView → Prop) (hears : Frame → Prop)

/-! ## Attaching -/

/-- A stream is opened, behind the preface. -/
def opened (s : Session H) (stream : Stream) : Session H :=
  let s := { s with
    nextStreamId := min (s.nextStreamId + 2) (2 ^ 32 - 1)
    streams := s.streams.put s.nextStreamId stream }
  if s.prefaceSent then s else s.writePreface

def attached (s : Session H) (body : RequestBody) : Stream :=
  { body, sendWindow := (min s.remoteInitialWindowSize MAX_WINDOW_SIZE : Nat) }

theorem attach_eq (request : Request) : s.attach request =
    (let s' := (s.opened (s.attached request.body)).logBody s.nextStreamId request.body
    match request.encoding with
    | .compressFailed => some (s'.removeStream s.nextStreamId)
    | .encodeFailed =>
      some ({ s' with pendingHpackEncCapacity := none, encoderPoisoned := true }.removeStream
        s.nextStreamId)
    | .encoded block =>
      s'.writeRequest s.nextStreamId request.body request.expectContinue block) := rfl

/-- A view with the preface written. -/
def prefacedView (v : View) : View :=
  if v.prefaced then v
  else { v with prefaced := true }.log
    [.preface, .wrote prefaceFrame,
      .wrote (windowUpdate 0 (LOCAL_INITIAL_WINDOW_SIZE - DEFAULT_WINDOW_SIZE))]

theorem prefacedView_reaches (v : View) : Reaches ok hears v (prefacedView v) := by
  rw [prefacedView]
  split_ifs with h
  · exact .refl
  · exact .single (.preface v (Bool.eq_false_iff.mpr h))

theorem prefaced_prefacedView {v : View} : (prefacedView v).prefaced = true := by
  rw [prefacedView]
  split_ifs with h
  · exact h
  · rfl

theorem nextId_prefacedView {v : View} : (prefacedView v).nextId = v.nextId := by
  rw [prefacedView]
  split_ifs
  · rfl
  · rfl

theorem view_opened (hid : s.nextStreamId < MAX_STREAM_ID) :
    (s.opened stream).view =
      { prefacedView s.view with nextId := s.nextStreamId + 2 }.set s.nextStreamId
        (some stream.view) := by
  have hmin : min (s.nextStreamId + 2) (2 ^ 32 - 1) = s.nextStreamId + 2 := by
    unfold MAX_STREAM_ID at hid
    omega
  have hstreams : (fun id' => ((s.streams.put s.nextStreamId stream).get? id').map Stream.view) =
      Function.update s.view.streams s.nextStreamId (some stream.view) := by
    funext id'
    rw [ArrayMap.get?_put, Function.update_apply]
    split_ifs <;> rfl
  rw [opened, hmin]
  cases h : s.prefaceSent <;>
    simp only [h, if_true, if_false, Bool.false_eq_true, prefacedView, view, View.set, View.log,
      writePreface, writeWindowUpdate, writeFrame, queue, log, hstreams, prefaceFrame, windowUpdate,
      List.append_assoc, List.cons_append, List.nil_append]

theorem get?_opened : (s.opened stream).streams.get? s.nextStreamId = some stream := by
  have hput : (s.streams.put s.nextStreamId stream).get? s.nextStreamId = some stream := by
    rw [ArrayMap.get?_put, if_pos rfl]
  rw [opened]
  split_ifs
  · exact hput
  · exact hput

/-- What there is of a body at first, and whether that is all of it. -/
def firstBytes : RequestBody → Bytes
  | .bytes body => body
  | .stream _ buffer => buffer.getD []

def firstEnded : RequestBody → Bool
  | .bytes _ => true
  | .stream ended _ => ended

theorem view_logBody (body : RequestBody) :
    (s.logBody id body).view = s.view.log (bodyEvents id (firstBytes body) (firstEnded body)) := by
  cases body <;>
    simp only [logBody, view_log, View.log, bodyEvents, firstBytes, firstEnded, List.append_assoc,
      List.cons_append, List.nil_append]

theorem view_wroteFrames (n : Nat) (frames : List Frame) :
    (s.wroteFrames n frames).view = s.view.log (frames.map Event.wrote) := rfl

/-- The frames of a request that was opened are written, and its stream changes. -/
theorem view_requested {v : View} {st : StreamView} {events : List Event}
    (hget : s.streams.get? id = some stream) (hview : s.view = (v.set id (some st)).log events)
    (n : Nat) (frames : List Frame) (f : Stream → Stream) :
    ((s.wroteFrames n frames).modifyStream id f).view =
      (v.set id (some (f stream).view)).log (events ++ frames.map Event.wrote) := by
  have hwrote : (s.wroteFrames n frames).streams.get? id = some stream := hget
  have hlogged : (s.wroteFrames n frames).view =
      ((v.set id (some st)).log events).log (frames.map Event.wrote) := by
    rw [← hview]
    rfl
  rw [view_modifyStream hwrote, hlogged]
  simp only [View.log, View.set, Function.update_idem, List.append_assoc]

theorem modifyStream_wroteFrames (n : Nat) (frames : List Frame) (f g : Stream → Stream) :
    ((s.modifyStream id f).wroteFrames n frames).modifyStream id g =
      (s.wroteFrames n frames).modifyStream id fun stream => g (f stream) :=
  modifyStream_modifyStream (s := s.wroteFrames n frames) f g

section Request
variable {v : View}

/-- The session when a request is opened, and is written now. -/
structure Opened (v : View) (body : RequestBody) (s : Session H) : Prop where
  prefaced : v.prefaced = true
  get? : s.streams.get? v.nextId = some { body, sendWindow := v.initial }
  view : s.view = ({ v with nextId := v.nextId + 2 }.set v.nextId
    (some (Stream.view { body, sendWindow := v.initial }))).log
      (bodyEvents v.nextId (firstBytes body) (firstEnded body))

theorem Opened.maxFrame_pos {body : RequestBody} (h : Opened v body s) (hv : v.Sound) :
    0 < s.remoteMaxFrameSize := by
  have hframe : s.remoteMaxFrameSize = v.maxFrame := congrArg View.maxFrame h.view
  rw [hframe]
  exact Nat.lt_of_lt_of_le (by decide) hv.maxFrame_ge

/-- A request that was opened is written, and its stream is as it should be. -/
theorem Opened.action {body : RequestBody} (h : Opened v body s) (hid : v.nextId < MAX_STREAM_ID)
    (awaiting : Bool) {endStream : Bool} {frames : List Frame}
    (hframes : HeaderFrames v.nextId endStream frames)
    (hend : endStream = true → firstBytes body = []) (n : Nat) (f : Stream → Stream)
    (hf : (f { body, sendWindow := v.initial }).view =
      { state := if endStream then .halfClosedLocal else .open
        rstDone := false
        awaiting
        answered := false
        unacked := 0
        window := v.initial
        unsent := firstBytes body
        ended := firstEnded body }) :
    Action ok hears v ((s.wroteFrames n frames).modifyStream v.nextId f).view := by
  rw [view_requested h.get? h.view, hf]
  exact .request v _ _ awaiting endStream frames hframes hid hend h.prefaced

theorem writeRequest_spec {body : RequestBody} (h : Opened v body s) (hv : v.Sound)
    (hid : v.nextId < MAX_STREAM_ID) (expectContinue : Bool) (block : Bytes) :
    ∃ s', s.writeRequest v.nextId body expectContinue block = some s' ∧
      Reaches ok hears v s'.view := by
  have hmax := h.maxFrame_pos hv
  replace h : Opened v body { s with pendingHpackEncCapacity := none } := { h with }
  rw [writeRequest.eq_def]
  dsimp only
  generalize { s with pendingHpackEncCapacity := none } = s₁ at h
  have hmax := h.maxFrame_pos hv
  match body with
  | .bytes [] =>
    obtain ⟨n, frames, hframes, heq⟩ := writeHeaderBlock_spec hmax v.nextId block true
    rw [heq]
    exact ⟨_, rfl, .single (h.action ok hears hid false hframes (fun _ => rfl) n _ rfl)⟩
  | .bytes (b :: rest) =>
    obtain ⟨n, frames, hframes, heq⟩ := writeHeaderBlock_spec
      (s := s₁.modifyStream v.nextId fun stream =>
        { stream with awaitingContinue := expectContinue }) hmax v.nextId block false
    have haction := h.action ok hears hid expectContinue hframes (by simp) n (fun stream =>
      { stream with awaitingContinue := expectContinue, pendingBody := b :: rest }) rfl
    have hwrote : (s₁.wroteFrames n frames).streams.get? v.nextId =
        some { body := .bytes (b :: rest), sendWindow := v.initial } := h.get?
    obtain ⟨s₂, heq₂, -, hreach⟩ := drainSendBody_spec ok hears (haction.sound hv)
      (get?_modifyStream_of hwrote _) USIZE_MAX
    dsimp only
    rw [heq, Option.bind_eq_bind, Option.bind_some, modifyStream_wroteFrames]
    exact ⟨s₂, heq₂, .head haction hreach⟩
  | .stream ended buffer =>
    obtain ⟨n, frames, hframes, heq⟩ := writeHeaderBlock_spec
      (s := s₁.modifyStream v.nextId fun stream =>
        { stream with awaitingContinue := expectContinue }) hmax v.nextId block false
    exact ⟨_, heq, .single (h.action ok hears hid expectContinue hframes (by simp) n _ rfl)⟩

end Request

theorem opened_view (hid : s.nextStreamId < MAX_STREAM_ID) (hv : s.view.Sound) (body : RequestBody) :
    Opened (prefacedView s.view) body ((s.opened (s.attached body)).logBody s.nextStreamId body) := by
  have hnext := nextId_prefacedView (v := s.view)
  have hinitial : (prefacedView s.view).initial = s.remoteInitialWindowSize := by
    rw [prefacedView]
    split_ifs
    · rfl
    · rfl
  have hstream : s.attached body = { body, sendWindow := (prefacedView s.view).initial } := by
    have hle : s.remoteInitialWindowSize ≤ MAX_WINDOW_SIZE := hv.initial_le
    rw [attached, hinitial, Nat.min_eq_left hle]
  constructor
  · exact prefaced_prefacedView
  · rw [hnext, ← hstream]
    cases body with
    | bytes => exact get?_opened
    | stream => exact get?_opened
  · rw [view_logBody, view_opened hid, hnext, ← hstream]
    rfl

theorem attach_spec (hv : s.view.Sound) (hroom : s.hasHeadroom) (request : Request) :
    ∃ s', s.attach request = some s' ∧ Reaches ok hears s.view s'.view := by
  simp only [hasHeadroom, Bool.and_eq_true, decide_eq_true_iff, Option.isNone_iff_eq_none] at hroom
  obtain ⟨⟨⟨-, hfatal⟩, -⟩, hid⟩ := hroom
  have hopened := opened_view hid hv request.body
  have hreach := prefacedView_reaches ok hears s.view
  have hnext : (prefacedView s.view).nextId = s.nextStreamId := nextId_prefacedView
  have hv' := hreach.sound hv
  rw [attach_eq]
  dsimp only
  generalize (s.opened (s.attached request.body)).logBody s.nextStreamId request.body = s' at hopened
  rw [← hnext] at hid ⊢
  have hremoved : ∀ s'' : Session H, s''.view = s'.view → Reaches ok hears s.view
      (s''.removeStream (prefacedView s.view).nextId).view := fun s'' hview => by
    have hskip := hreach.tail (.skip _ (firstBytes request.body) (firstEnded request.body) hid
      hopened.prefaced)
    rw [view_removeStream, hview, hopened.view, View.set_log_set]
    exact hskip.tail (.remove _ (prefacedView s.view).nextId)
  cases request.encoding with
  | compressFailed => exact ⟨_, rfl, hremoved _ rfl⟩
  | encodeFailed => exact ⟨_, rfl, hremoved _ rfl⟩
  | encoded block =>
    obtain ⟨s'', heq, hreach'⟩ := writeRequest_spec ok hears hopened hv' hid
      request.expectContinue block
    exact ⟨s'', heq, hreach.trans hreach'⟩

/-! ## Bodies of requests -/

theorem provide_reaches (id : Nat) (bytes : Bytes) :
    Reaches ok hears s.view (s.provide id bytes).view := by
  rw [provide]
  cases hget : s.streams.get? id with
  | none => exact .refl
  | some stream =>
    rw [Option.map_some]
    cases hbody : stream.body with
    | bytes => exact .refl
    | stream ended buffer =>
      cases buffer with
      | none => exact .refl
      | some buffer =>
        have haction : Action ok hears s.view _ :=
          .provided s.view id bytes stream.view (view_streams_of_get? hget)
        rw [view_log, view_modifyStream hget]
        refine .single ?_
        convert haction using 4
        simp [Stream.view, Stream.unsent, Stream.bodyEnded, hbody]

theorem streamRequestBody_spec (hv : s.view.Sound) (id : Nat)
    (ended : Bool) : ∃ s', s.streamRequestBody id ended = some s' ∧ Reaches ok hears s.view s'.view := by
  rw [streamRequestBody]
  cases hget : s.streams.get? id with
  | none => exact ⟨s, rfl, .refl⟩
  | some stream =>
    dsimp only
    split_ifs with hclient
    · exact ⟨s, rfl, .refl⟩
    cases hbody : stream.body with
    | bytes => exact ⟨s, rfl, .refl⟩
    | stream ended' buffer =>
      dsimp only
      have haction : Action ok hears s.view _ :=
        .ended s.view id ended stream.view (view_streams_of_get? hget)
      have hview : ((s.modifyStream id fun stream =>
          { stream with body := .stream ended buffer }).log (.ended id ended)).view =
          (s.view.set id (some { stream.view with ended })).log [.ended id ended] := by
        rw [view_log, view_modifyStream hget]
        simp [Stream.view, Stream.unsent, Stream.bodyEnded, hbody]
      rw [← hview] at haction
      obtain ⟨s', heq, -, hreach⟩ := drainSendBody_spec ok hears
        (haction.sound hv) (get?_modifyStream_of hget _) USIZE_MAX
      exact ⟨s', heq, .head haction hreach⟩

/-! ## Deliveries -/

@[simp] theorem detachClient_view (id : Nat) : (s.detachClient id).view = s.view :=
  view_modifyStream_same fun _ => rfl

/-- A change to what the client is told of a stream. -/
@[simp] theorem view_clearBuffer (id : Nat) : (s.modifyStream id fun stream =>
    { stream with bodyBuffer := [] }).view = s.view := view_modifyStream_same fun _ => rfl

@[simp] theorem view_clearReady (id : Nat) : (s.modifyStream id fun stream =>
    { stream with headersReady := false }).view = s.view := view_modifyStream_same fun _ => rfl

theorem cancel_reaches (id : Nat) (hview : s'.view = s.view) :
    Reaches ok hears s.view ((s'.rstStream id ErrorCode.CANCEL).detachClient id).view := by
  rw [detachClient_view, ← hview]
  exact rstStream_reaches id ErrorCode.CANCEL

theorem deliverBody_reaches (id : Nat) (stream : Stream) (d : Delivery) :
    Reaches ok hears s.view (s.deliverBody id stream d).1.view := by
  have hsame : ∀ s' : Session H, s'.view = s.view → Reaches ok hears s.view s'.view :=
    fun s' h => .of_eq h.symm
  have hcleared : ((if stream.remoteClosed then s.detachClient id else s).modifyStream id fun stream =>
      { stream with bodyBuffer := [] }).view = s.view := by
    rw [view_clearBuffer]
    split_ifs
    · exact detachClient_view id
    · rfl
  rw [deliverBody]
  dsimp only
  generalize (if stream.remoteClosed then s.detachClient id else s).modifyStream id
    (fun stream => { stream with bodyBuffer := [] }) = s₁ at hcleared ⊢
  have hdetached : (s₁.detachClient id).view = s.view := (detachClient_view id).trans hcleared
  by_cases hin : (!d.inBody) = true
  · rw [if_pos hin]
    exact .refl
  rw [if_neg hin]
  by_cases hbuffer : stream.bodyBuffer ≠ []
  · rw [if_pos hbuffer]
    cases d.handled with
    | none => exact cancel_reaches ok hears id hcleared
    | some report =>
      dsimp only
      split_ifs
      · exact hsame _ hcleared
      · exact hsame _ hdetached
      · exact hsame _ hcleared
  · rw [if_neg hbuffer]
    split_ifs
    · exact hsame _ (detachClient_view id)
    · exact .refl

theorem deliverStream_spec (hget : s.streams.get? id = some stream) (d : Delivery) :
    ∃ s' finished, s.deliverStream id d = some (s', finished) ∧ Reaches ok hears s.view s'.view := by
  have hdetached : Reaches ok hears s.view (s.detachClient id).view :=
    .of_eq (detachClient_view id).symm
  rw [deliverStream, hget]
  simp only [Option.bind_eq_bind, Option.bind_some]
  by_cases hclient : (!stream.client) = true
  · rw [if_pos hclient]
    exact ⟨s, true, rfl, .refl⟩
  rw [if_neg hclient]
  by_cases haborted : d.aborted = true
  · rw [if_pos haborted]
    exact ⟨_, true, rfl, cancel_reaches ok hears id rfl⟩
  rw [if_neg haborted]
  by_cases hfatal : stream.fatalError.isSome = true
  · rw [if_pos hfatal]
    exact ⟨_, true, rfl, hdetached⟩
  rw [if_neg hfatal]
  by_cases hready : stream.headersReady = true
  · rw [if_pos hready]
    have hview := view_clearReady (s := s) id
    generalize s.modifyStream id (fun stream => { stream with headersReady := false }) = s₁ at hview ⊢
    cases d.headers with
    | none => exact ⟨_, true, rfl, cancel_reaches ok hears id hview⟩
    | some finished =>
      dsimp only
      split_ifs
      · exact ⟨_, true, rfl, cancel_reaches ok hears id hview⟩
      · exact ⟨_, true, rfl, .of_eq ((detachClient_view id).trans hview).symm⟩
      · exact ⟨_, _, rfl, hview ▸ deliverBody_reaches ok hears id stream d⟩
  · rw [if_neg hready]
    exact ⟨_, _, rfl, deliverBody_reaches ok hears id stream d⟩

theorem abort_reaches (id : Nat) : Reaches ok hears s.view (s.abort id).view :=
  (rstStream_reaches id ErrorCode.CANCEL).trans (removeStream_reaches id)

theorem deliver_spec (hid : id ∈ s.streams.keys) (d : Delivery) :
    ∃ s', s.deliver id d = some s' ∧ Reaches ok hears s.view s'.view := by
  obtain ⟨stream, hget⟩ := ArrayMap.mem_keys.1 hid
  obtain ⟨s₁, finished, heq, hreach⟩ := deliverStream_spec ok hears hget d
  rw [deliver, heq]
  cases finished with
  | false => exact ⟨s₁, rfl, hreach⟩
  | true => exact ⟨_, rfl, hreach.trans (abort_reaches ok hears id)⟩

/-! ## Windows of the server -/

/-- A view, when the windows of some streams were replenished. -/
def replenishedView (v : View) (updates : List (Nat × Stream)) : View :=
  { v with
    streams := fun id =>
      if id ∈ updates.map Prod.fst then (v.streams id).map fun st => { st with unacked := 0 }
      else v.streams id
    trace := v.trace ++ updates.map fun u => .wrote (windowUpdate u.1 u.2.unackedBytes) }

theorem replenishedView_reaches (updates : List (Nat × Stream)) :
    ∀ v : View, (updates.map Prod.fst).Nodup →
      (∀ u ∈ updates, v.streams u.1 = some u.2.view ∧ u.2.view.remoteClosed = false ∧
        REPLENISH_THRESHOLD ≤ u.2.unackedBytes) →
      Reaches ok hears v (replenishedView v updates) := by
  induction updates with
  | nil =>
    intro v _ _
    refine .of_eq ?_
    simp [replenishedView]
  | cons u updates ih =>
    intro v hnodup hupdates
    obtain ⟨hnotin, hnodup⟩ := List.nodup_cons.mp hnodup
    obtain ⟨⟨hst, hopen, hthreshold⟩, hupdates⟩ := List.forall_mem_cons.mp hupdates
    refine .head (.replenishStream v u.1 u.2.view hst hopen hthreshold) ?_
    have hrest := ih ((v.set u.1 (some { u.2.view with unacked := 0 })).log
      [.wrote (windowUpdate u.1 u.2.unackedBytes)]) hnodup fun u' hmem => by
        refine ⟨?_, (hupdates u' hmem).2⟩
        rw [View.streams_log, View.streams_set, if_neg]
        · exact (hupdates u' hmem).1
        · rintro heq
          exact hnotin (heq ▸ List.mem_map_of_mem hmem)
    have hview : replenishedView v (u :: updates) =
        replenishedView ((v.set u.1 (some { u.2.view with unacked := 0 })).log
          [.wrote (windowUpdate u.1 u.2.unackedBytes)]) updates := by
      simp only [replenishedView, View.log, View.set, List.map_cons, List.append_assoc,
        List.cons_append, List.nil_append, List.mem_cons]
      congr 1
      funext id
      by_cases hid : id = u.1
      · rw [hid, if_pos (.inl rfl), if_neg hnotin, Function.update_self, hst, Option.map_some]
      · rw [Function.update_of_ne hid]
        simp only [hid, false_or]
    rw [hview]
    exact hrest

theorem view_writeWindowUpdates (updates : List (Nat × Stream)) :
    ∀ s : Session H,
      (updates.foldl (fun (s : Session H) (id, stream) =>
        s.writeWindowUpdate id stream.unackedBytes) s).view =
        s.view.log (updates.map fun u => .wrote (windowUpdate u.1 u.2.unackedBytes)) := by
  induction updates with
  | nil =>
    intro s
    rw [List.foldl_nil, List.map_nil, View.log, List.append_nil]
  | cons u updates ih =>
    intro s
    rw [List.foldl_cons, ih, List.map_cons]
    simp only [View.log, view, writeWindowUpdate, writeFrame, log, windowUpdate, List.append_assoc,
      List.cons_append, List.nil_append]

theorem replenishStreams_view (paused : List Nat) :
    (let updates := s.streams.entries.filter fun (id, stream) => replenished paused id stream
    let streams := s.streams.mapValues fun id stream =>
      if replenished paused id stream then { stream with unackedBytes := 0 } else stream
    updates.foldl (fun (s : Session H) (id, stream) => s.writeWindowUpdate id stream.unackedBytes)
      { s with streams }).view =
    replenishedView s.view (s.streams.entries.filter fun u => replenished paused u.1 u.2) := by
  have hstreams : (fun id => ((s.streams.mapValues fun id stream =>
      if replenished paused id stream then { stream with unackedBytes := 0 } else stream).get? id).map
        Stream.view) = fun id =>
      if id ∈ (s.streams.entries.filter fun u => replenished paused u.1 u.2).map Prod.fst then
        (s.view.streams id).map fun st => { st with unacked := 0 }
      else s.view.streams id := by
    funext id
    rw [ArrayMap.get?_mapValues, view_streams]
    cases hget : s.streams.get? id with
    | none => simp
    | some stream =>
      have hmem : id ∈ (s.streams.entries.filter fun u => replenished paused u.1 u.2).map Prod.fst ↔
          replenished paused id stream = true := by
        simp only [List.mem_map, List.mem_filter, Prod.exists, exists_and_right, exists_eq_right]
        constructor
        · rintro ⟨stream', hentry, hreplenished⟩
          obtain rfl := Option.some.inj (hget.symm.trans (ArrayMap.get?_eq_some.mpr hentry))
          exact hreplenished
        · exact fun h => ⟨stream, ArrayMap.get?_eq_some.mp hget, h⟩
      simp only [Option.map_some, hmem]
      split_ifs <;> rfl
  dsimp only
  rw [view_writeWindowUpdates]
  simp only [replenishedView, View.log, ← hstreams]
  rfl

theorem replenishWindow_reaches (paused : List Nat) :
    Reaches ok hears s.view (s.replenishWindow paused).view := by
  have hstreams : ∀ s : Session H, Reaches ok hears s.view
      (replenishedView s.view (s.streams.entries.filter fun u => replenished paused u.1 u.2)) :=
    fun s => by
      refine replenishedView_reaches ok hears _ _ ?_ ?_
      · exact s.streams.nodup.sublist (List.filter_sublist.map Prod.fst)
      · rintro ⟨id, stream⟩ hmem
        obtain ⟨hentry, hreplenished⟩ := List.mem_filter.mp hmem
        simp only [replenished, Bool.and_eq_true, decide_eq_true_iff, Bool.not_eq_true'] at hreplenished
        exact ⟨view_streams_of_get? (ArrayMap.get?_eq_some.mpr hentry), hreplenished.1.2, hreplenished.1.1⟩
  rw [replenishWindow]
  by_cases hthreshold : REPLENISH_THRESHOLD ≤ s.connUnackedBytes
  · rw [if_pos hthreshold]
    have haction : Action ok hears s.view _ := .replenish s.view hthreshold
    refine .head haction ?_
    rw [replenishStreams_view]
    exact hstreams { s.writeWindowUpdate 0 s.connUnackedBytes with connUnackedBytes := 0 }
  · rw [if_neg hthreshold]
    rw [replenishStreams_view]
    exact hstreams s

end Session

end OhosBun.Http2
