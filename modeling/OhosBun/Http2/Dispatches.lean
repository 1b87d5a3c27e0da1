/-
# `OhosBun.Http2.Dispatches` — frames of the server are actions

What a frame does to the view of a session is to be read, which is one action, and then a sequence
of actions of the client; or the connection fails, and then the frame is all that was read
(`Follows`).  The end of a stream whose server answered without its body is written where the block
that the frame completes is that of a final response (`answered?`).
-/
import OhosBun.Http2.Local

namespace OhosBun.Http2

open OhosBun.Lib

/-- Whether the fields are those of a response that is not informational. -/
def Decoding.isFinal (statusCode : Nat) (d : Decoding) : Bool :=
  !d.malformed && statusCode = 0 && d.status ≠ 0 && !(decide (100 ≤ d.status) && decide (d.status < 200))

theorem Stream.localClosed_recvEndStream (s : Stream) :
    s.recvEndStream.localClosed = s.localClosed := by
  cases h : s.state <;> simp only [recvEndStream, localClosed, h] <;> rfl

theorem Stream.closed_recvEndStream (s : Stream) (h : s.state = .closed) :
    s.recvEndStream.state = .closed := by
  simp only [recvEndStream, h]

namespace Session
variable {H : Type} {s s' s'' : Session H} {id : Nat} {stream : Stream}

/-- No frame is read any more. -/
def silent (_ : Frame) : Prop := False

/-- The connection failed, and sends nothing of a stream any more. -/
def Failed (s s' : Session H) : Prop :=
  s'.fatalError.isSome ∧ ∃ events, (∀ e ∈ events, e.Plain) ∧ s'.trace = s.trace ++ events

theorem Failed.of_fail (err : Error) (h : s'.trace = s.trace) : Failed s (s'.fail err) :=
  ⟨rfl, [], by simp, h.trans (List.append_nil _).symm⟩

theorem failAll_failed (err : Error) (alive : Bool) : Failed s (s.failAll err alive) := by
  rw [failAll]
  cases alive with
  | false => exact ⟨rfl, [], by simp, (List.append_nil _).symm⟩
  | true =>
    refine ⟨rfl, [.wrote ⟨FT_GOAWAY, 0, 0, _⟩], fun e he => ?_, rfl⟩
    obtain rfl := List.mem_singleton.mp he
    exact .inr (.inr rfl)

/-- The connection failed, or went on. -/
def Follows (ok : StreamView → Prop) (s s' : Session H) : Prop :=
  Failed s s' ∨ Reaches ok silent s.view s'.view

variable {ok : StreamView → Prop}

theorem Follows.of_fail (err : Error) (h : s'.trace = s.trace) : Follows ok s (s'.fail err) :=
  .inl (.of_fail err h)

theorem Follows.of_view (h : s'.view = s.view) : Follows ok s s' := .inr (.of_eq h.symm)

/-- Nothing but the view matters. -/
theorem Follows.congr (h : Follows ok s' s'') (hview : s'.view = s.view) : Follows ok s s'' := by
  have htrace : s'.trace = s.trace := congrArg View.trace hview
  rw [Follows, Failed, htrace, hview] at h
  exact h

theorem Follows.trans (h : Reaches ok silent s.view s'.view) (htrace : s'.trace = s.trace)
    (h' : Follows ok s' s'') : Follows ok s s'' := by
  rcases h' with hfailed | hreach
  · rw [Failed, htrace] at hfailed
    exact .inl hfailed
  · exact .inr (h.trans hreach)

/-! ## Header blocks -/

section Headers
variable {stream' : Stream}

theorem heard_reaches (ok : StreamView → Prop) (hears : Frame → Prop) (f : Stream → Stream) (hget : s.streams.get? id = some stream)
    (hrst : (f stream).rstDone = stream.rstDone) (hclosed : (f stream).localClosed = stream.localClosed)
    (hstate : stream.state = .closed → (f stream).state = .closed)
    (hunacked : (f stream).unackedBytes = stream.unackedBytes)
    (hwindow : (f stream).sendWindow = stream.sendWindow) (hunsent : (f stream).unsent = stream.unsent)
    (hended : (f stream).bodyEnded = stream.bodyEnded) :
    Reaches ok hears s.view (s.modifyStream id f).view := by
  rw [view_modifyStream hget]
  exact .single (.heard s.view id stream.view (f stream).view (view_streams_of_get? hget) hrst hclosed
    hstate hunacked hwindow hunsent hended)

theorem finishHeaderBlock_reaches (hget : s.streams.get? id = some stream')
    (hview : stream'.view = stream.view) (d : Decoding)
    (hok : d.isFinal stream.statusCode → stream.awaitingContinue →
      ∀ st : StreamView, st.localClosed = stream.localClosed → ok st) :
    Reaches ok silent s.view (s.finishHeaderBlock id stream d).view := by
  have hfatal : ∀ s' : Session H, (s'.modifyStream id fun stream =>
      { stream with fatalError := some .protocolError }).view = s'.view :=
    fun s' => view_modifyStream_same fun _ => rfl
  rw [finishHeaderBlock]
  by_cases hmalformed : d.malformed = true
  · rw [if_pos hmalformed]
    exact rstStream_modify_reaches id _ fun _ => rfl
  rw [if_neg hmalformed]
  by_cases hanswered : stream.statusCode ≠ 0
  · rw [if_pos hanswered]
    split_ifs
    · exact .refl
    · exact .of_eq (hfatal s).symm
  rw [if_neg hanswered]
  by_cases hstatus : d.status = 0
  · rw [if_pos hstatus]
    exact .of_eq (hfatal s).symm
  rw [if_neg hstatus]
  by_cases hinformational : 100 ≤ d.status ∧ d.status < 200
  · rw [if_pos hinformational]
    have hcontinue : Reaches ok silent s.view (if d.status = 100 then
        s.modifyStream id fun stream => { stream with awaitingContinue := false } else s).view := by
      split_ifs
      · exact heard_reaches ok silent _ hget rfl rfl (fun h => h) rfl rfl rfl rfl
      · exact .refl
    dsimp only
    generalize (if d.status = 100 then
      s.modifyStream id fun stream => { stream with awaitingContinue := false } else s) = s₁
      at hcontinue ⊢
    split_ifs
    · exact hcontinue.trans (.of_eq (hfatal s₁).symm)
    · exact hcontinue
  rw [if_neg hinformational]
  dsimp only
  have hheard := heard_reaches ok silent (fun stream =>
    { stream with
      statusCode := d.status
      headersReady := true
      decodedBytes := d.decodedBytes
      decodedHeaders := stream.decodedHeaders ++ d.fields }) hget rfl rfl (fun h => h) rfl rfl rfl rfl
  have hget' := get?_modifyStream_of hget fun stream =>
    { stream with
      statusCode := d.status
      headersReady := true
      decodedBytes := d.decodedBytes
      decodedHeaders := stream.decodedHeaders ++ d.fields }
  generalize (s.modifyStream id fun stream =>
    { stream with
      statusCode := d.status
      headersReady := true
      decodedBytes := d.decodedBytes
      decodedHeaders := stream.decodedHeaders ++ d.fields }) = s₁ at hheard hget' ⊢
  by_cases hawaiting : stream.awaitingContinue = true
  · rw [if_pos hawaiting]
    have hfinal : d.isFinal stream.statusCode = true := by
      simp only [Decoding.isFinal, Bool.and_eq_true, Bool.not_eq_true', decide_eq_true_iff]
      simp_all
    have hlocal : stream'.localClosed = stream.localClosed := congrArg StreamView.localClosed hview
    have hwrote : (s₁.writeFrame FT_DATA END_STREAM id []).streams.get? id = _ := hget'
    have hclosed : ∀ stream : Stream,
        Stream.view { stream.sentEndStream with awaitingContinue := false } =
          { stream.view.sentEnd with awaiting := false } := fun stream =>
      congrArg (fun st : StreamView => { st with awaiting := false }) stream.view_sentEndStream
    rw [view_modifyStream hwrote, hclosed]
    exact hheard.tail (.halfClose s₁.view id _ (view_streams_of_get? hget') (hok hfinal hawaiting _ hlocal))
  · rw [if_neg hawaiting]
    exact hheard

variable (hpack : Lshpack H)

theorem decodeHeaderBlock_spec (ok : StreamView → Prop) (hget : s.streams.get? id = some stream)
    (hok : ∀ d h, decodeFields hpack stream.statusCode stream.headerBlock s.hpack
        { decodedBytes := stream.decodedBytes } = (.ok d, h) →
      d.isFinal stream.statusCode → stream.awaitingContinue →
        ∀ st : StreamView, st.localClosed = stream.localClosed → ok st) :
    ∃ s', s.decodeHeaderBlock hpack id = some s' ∧ Follows ok s s' := by
  have hview : (s.modifyStream id fun stream => { stream with headerBlock := [] }).view = s.view :=
    view_modifyStream_same fun _ => rfl
  have hget' := get?_modifyStream_of hget fun stream => { stream with headerBlock := [] }
  rw [decodeHeaderBlock, hget]
  simp only [Option.bind_eq_bind, Option.bind_some]
  rw [show (s.modifyStream id fun stream => { stream with headerBlock := [] }).hpack = s.hpack from rfl]
  rcases hdecode : decodeFields hpack stream.statusCode stream.headerBlock s.hpack
    { decodedBytes := stream.decodedBytes } with ⟨err | d, h⟩
  · exact ⟨_, rfl, .of_fail err rfl⟩
  · refine ⟨_, rfl, .inr ?_⟩
    rw [← hview]
    exact finishHeaderBlock_reaches
      (s := { s.modifyStream id fun stream => { stream with headerBlock := [] } with hpack := h })
      hget' rfl d (hok d h hdecode)

theorem endHeaders_spec (ok : StreamView → Prop) (hget : s.streams.get? id = some stream)
    (hok : ∀ d h, decodeFields hpack stream.statusCode stream.headerBlock s.hpack
        { decodedBytes := stream.decodedBytes } = (.ok d, h) →
      d.isFinal stream.statusCode → stream.awaitingContinue →
        ∀ st : StreamView, st.localClosed = stream.localClosed → ok st) :
    ∃ s', s.endHeaders hpack id = some s' ∧ Follows ok s s' := by
  have hlocal := stream.localClosed_recvEndStream
  rw [endHeaders, hget]
  simp only [Option.bind_eq_bind, Option.bind_some]
  split_ifs with hend
  · have hheard := heard_reaches ok silent Stream.recvEndStream hget rfl hlocal
      stream.closed_recvEndStream rfl rfl rfl rfl
    obtain ⟨s', heq, hfollows⟩ := decodeHeaderBlock_spec hpack ok
      (get?_modifyStream_of hget Stream.recvEndStream) fun d h hdecode hfinal hawaiting st hst =>
        hok d h hdecode hfinal hawaiting st (hst.trans hlocal)
    exact ⟨s', heq, hfollows.trans hheard rfl⟩
  · exact decodeHeaderBlock_spec hpack ok hget hok

theorem decodeDiscardOrphan_follows : Follows ok s (s.decodeDiscardOrphan hpack) := by
  rw [decodeDiscardOrphan]
  rcases discardFields hpack s.orphanHeaderBlock s.hpack with ⟨decoded, h⟩
  cases decoded with
  | true => exact .of_view rfl
  | false => exact .of_fail .compressionError rfl

end Headers

/-- The stream and the block that a frame completes. -/
def completed? (s : Session H) (f : Frame) : Option (Stream × Bytes) := do
  let stream ← s.streams.get? f.streamId
  if !s.settingsReceived || !f.has END_HEADERS then none
  else if f.type = FT_HEADERS ∧ s.expectingContinuation = 0 then
    match headersFragment f with
    | .error _ => none
    | .ok fragment => some (stream, fragment)
  else if f.type = FT_CONTINUATION ∧ s.expectingContinuation ≠ 0 ∧
      f.streamId = s.expectingContinuation ∧ s.continuationCount < LOCAL_MAX_CONTINUATIONS ∧
      stream.headerBlock.length + f.length ≤ LOCAL_MAX_HEADER_LIST_SIZE then
    some (stream, stream.headerBlock ++ f.payload)
  else none

/-- The stream of which the frame completes the final response. -/
def answered? (hpack : Lshpack H) (s : Session H) (f : Frame) : Option Stream := do
  let (stream, block) ← s.completed? f
  match (decodeFields hpack stream.statusCode block s.hpack { decodedBytes := stream.decodedBytes }).1 with
  | .error _ => none
  | .ok d => if d.isFinal stream.statusCode then some stream else none

section Blocks
variable (hpack : Lshpack H) {f : Frame}

/-- Where a frame ends a stream without its body, it may. -/
def Answers (ok : StreamView → Prop) (s : Session H) (f : Frame) : Prop :=
  ∀ stream, s.answered? hpack f = some stream → stream.awaitingContinue →
    ∀ st : StreamView, st.localClosed = stream.localClosed → ok st

theorem answered?_of_completed? {block : Bytes} (hcompleted : s.completed? f = some (stream, block))
    {d : Decoding} {h : H}
    (hdecode : decodeFields hpack stream.statusCode block s.hpack
      { decodedBytes := stream.decodedBytes } = (.ok d, h))
    (hfinal : d.isFinal stream.statusCode = true) : s.answered? hpack f = some stream := by
  rw [answered?, hcompleted]
  simp only [Option.bind_eq_bind, Option.bind_some, hdecode, hfinal, if_true]

theorem dispatchHeaders_spec (htype : f.type = FT_HEADERS) (hready : s.settingsReceived = true)
    (hexpecting : s.expectingContinuation = 0) (hok : Answers hpack ok s f) :
    ∃ s', s.dispatchHeaders hpack f = some s' ∧ Follows ok s s' := by
  rw [dispatchHeaders]
  dsimp only
  cases hget : s.streams.get? f.streamId with
  | none =>
    dsimp only
    split
    · exact ⟨_, rfl, .of_fail _ rfl⟩
    split
    · exact ⟨_, rfl, .of_fail _ rfl⟩
    split
    · exact ⟨_, rfl, (decodeDiscardOrphan_follows hpack).congr rfl⟩
    · exact ⟨_, rfl, .of_view rfl⟩
  | some stream =>
    cases hfragment : headersFragment f with
    | error err => exact ⟨_, rfl, .of_fail err rfl⟩
    | ok fragment =>
      dsimp only
      have hview : ({ s with continuationCount := 0, streamProgressed := true }.modifyStream
          f.streamId fun stream =>
            { stream with headerBlock := fragment, headersEndStream := f.has END_STREAM }).view =
          s.view := view_modifyStream_same fun _ => rfl
      split
      case isFalse => exact ⟨_, rfl, .of_view hview⟩
      case isTrue hend =>
        have hcompleted : s.completed? f = some (stream, fragment) := by
          simp [completed?, hget, hready, hend, htype, hexpecting, hfragment]
        obtain ⟨s', heq, hfollows⟩ := endHeaders_spec hpack ok
          (get?_modifyStream_of (s := { s with continuationCount := 0, streamProgressed := true })
            hget fun stream =>
              { stream with headerBlock := fragment, headersEndStream := f.has END_STREAM })
          fun d h hdecode hfinal =>
            hok stream (answered?_of_completed? hpack hcompleted hdecode hfinal)
        exact ⟨s', heq, hfollows.congr hview⟩

theorem dispatchContinuation_spec (htype : f.type = FT_CONTINUATION) (hready : s.settingsReceived = true)
    (hok : Answers hpack ok s f) : ∃ s', s.dispatchContinuation hpack f = some s' ∧ Follows ok s s' := by
  rw [dispatchContinuation]
  dsimp only
  by_cases hguard : s.expectingContinuation = 0 ∨ f.streamId ≠ s.expectingContinuation
  · rw [if_pos hguard]
    exact ⟨_, rfl, .of_fail _ rfl⟩
  rw [if_neg hguard]
  obtain ⟨hexpecting, hid⟩ := not_or.mp hguard
  rw [ne_eq, not_not] at hid
  by_cases hcount : LOCAL_MAX_CONTINUATIONS < s.continuationCount + 1
  · rw [if_pos hcount]
    exact ⟨_, rfl, .of_fail _ rfl⟩
  rw [if_neg hcount]
  cases hget : s.streams.get? s.expectingContinuation with
  | none =>
    dsimp only
    split
    · exact ⟨_, rfl, .of_fail _ rfl⟩
    split
    · exact ⟨_, rfl, (decodeDiscardOrphan_follows hpack).congr rfl⟩
    · exact ⟨_, rfl, .of_view rfl⟩
  | some stream =>
    dsimp only
    by_cases hlarge : LOCAL_MAX_HEADER_LIST_SIZE < stream.headerBlock.length + f.length
    · rw [if_pos hlarge]
      exact ⟨_, rfl, .of_fail _ rfl⟩
    rw [if_neg hlarge]
    have hview : ({ s with continuationCount := s.continuationCount + 1 }.modifyStream
        s.expectingContinuation fun stream =>
          { stream with headerBlock := stream.headerBlock ++ f.payload }).view = s.view :=
      view_modifyStream_same fun _ => rfl
    split
    case isFalse => exact ⟨_, rfl, .of_view hview⟩
    case isTrue hend =>
      have hget' := get?_modifyStream_of
        (s := { s with continuationCount := s.continuationCount + 1, expectingContinuation := 0 })
        hget fun stream => { stream with headerBlock := stream.headerBlock ++ f.payload }
      have hcompleted : s.completed? f = some (stream, stream.headerBlock ++ f.payload) := by
        have hheaders : ¬(f.type = FT_HEADERS ∧ s.expectingContinuation = 0) :=
          fun h => hexpecting h.2
        simp only [completed?, hid, hget, Option.bind_eq_bind, Option.bind_some, hready, hend]
        rw [if_neg (by decide), if_neg hheaders, if_pos ⟨htype, hexpecting, trivial, by omega, by omega⟩]
      obtain ⟨s', heq, hfollows⟩ := endHeaders_spec hpack ok hget' fun d h hdecode hfinal =>
        hok stream (answered?_of_completed? hpack hcompleted hdecode hfinal)
      exact ⟨s', heq, hfollows.congr hview⟩

end Blocks

/-! ## Settings -/

/-- A view, when the windows of some streams were changed. -/
def shiftedView (v : View) (delta : Int) (ids : List Nat) : View :=
  { v with
    streams := fun id => (v.streams id).map fun st =>
      if id ∈ ids then { st with window := st.window + delta } else st }

theorem shiftWindows_spec (delta : Int) (ids : List Nat) :
    ∀ s : Session H, ids.Nodup →
      (∀ id ∈ ids, ∃ stream, s.streams.get? id = some stream ∧ -(2 ^ 31) ≤ stream.sendWindow + delta) →
      (∃ s', shiftWindows delta ids s = some (.error s') ∧ s'.fatalError.isSome ∧ s'.trace = s.trace) ∨
      (∃ s', shiftWindows delta ids s = some (.ok s') ∧
        (∀ id ∈ ids, ∀ stream, s.streams.get? id = some stream →
          stream.sendWindow + delta ≤ MAX_WINDOW_SIZE) ∧
        s'.view = shiftedView s.view delta ids) := by
  induction ids with
  | nil =>
    intro s _ _
    refine .inr ⟨s, rfl, by simp, ?_⟩
    simp [shiftedView]
  | cons id ids ih =>
    intro s hnodup hids
    obtain ⟨hnotin, hnodup⟩ := List.nodup_cons.mp hnodup
    obtain ⟨⟨stream, hget, hge⟩, hids⟩ := List.forall_mem_cons.mp hids
    rw [shiftWindows, hget]
    simp only [Option.bind_eq_bind, Option.bind_some]
    by_cases hover : MAX_WINDOW_SIZE < stream.sendWindow + delta
    · rw [if_pos hover]
      exact .inl ⟨_, rfl, rfl, rfl⟩
    rw [if_neg hover, if_neg (by omega)]
    have hother : ∀ id' ∈ ids, (s.modifyStream id fun s =>
        { s with sendWindow := stream.sendWindow + delta }).streams.get? id' = s.streams.get? id' :=
      fun id' hmem => by
        rw [get?_modifyStream, if_neg]
        rintro rfl
        exact hnotin hmem
    rcases ih _ hnodup (fun id' hmem => by rw [hother id' hmem]; exact hids id' hmem) with
      ⟨s', heq, hfatal, htrace⟩ | ⟨s', heq, hle, hview⟩
    · exact .inl ⟨s', heq, hfatal, htrace⟩
    · refine .inr ⟨s', heq, ?_, ?_⟩
      · intro id' hmem stream' hget'
        rcases List.mem_cons.mp hmem with rfl | hmem
        · obtain rfl := Option.some.inj (hget.symm.trans hget')
          exact not_lt.mp hover
        · exact hle id' hmem stream' ((hother id' hmem).trans hget')
      · rw [hview, view_modifyStream hget]
        refine congrArg (fun streams => { s.view with streams }) (funext fun id' => ?_)
        by_cases hid : id' = id
        · rw [hid, View.streams_set, if_pos rfl, view_streams_of_get? hget, Option.map_some,
            Option.map_some, if_neg hnotin, if_pos List.mem_cons_self]
          rfl
        · rw [View.streams_set, if_neg hid]
          simp only [List.mem_cons, hid, false_or]

/-- Some settings were applied. -/
structure Applied (ok : StreamView → Prop) (s s' : Session H) : Prop where
  reaches : Reaches ok silent s.view s'.view
  plain : ∃ events, (∀ e ∈ events, e.Plain) ∧ s'.trace = s.trace ++ events

theorem Applied.refl (ok : StreamView → Prop) (s : Session H) : Applied ok s s :=
  ⟨.refl, [], by simp, (List.append_nil _).symm⟩

theorem Applied.of_view (h : s'.view = s.view) : Applied ok s s' :=
  ⟨.of_eq h.symm, [], by simp, (congrArg View.trace h).trans (List.append_nil _).symm⟩

theorem Applied.trans (h : Applied ok s s') (h' : Applied ok s' s'') : Applied ok s s'' := by
  obtain ⟨events, hplain, heq⟩ := h.plain
  obtain ⟨events', hplain', heq'⟩ := h'.plain
  refine ⟨h.reaches.trans h'.reaches, events ++ events', ?_, ?_⟩
  · exact fun e he => (List.mem_append.mp he).elim (hplain e) (hplain' e)
  · rw [heq', heq, List.append_assoc]

theorem Applied.failed (h : Applied ok s s') (h' : Failed s' s'') : Failed s s'' := by
  obtain ⟨events, hplain, heq⟩ := h.plain
  obtain ⟨hfatal, events', hplain', heq'⟩ := h'
  refine ⟨hfatal, events ++ events', ?_, ?_⟩
  · exact fun e he => (List.mem_append.mp he).elim (hplain e) (hplain' e)
  · rw [heq', heq, List.append_assoc]

theorem initialWindow_spec (ok : StreamView → Prop) (hv : s.view.Sound) {size : Nat}
    (hsize : size ≤ MAX_WINDOW_SIZE) :
    (∃ s', shiftWindows ((size : Int) - s.remoteInitialWindowSize) s.streams.keys
        ({ s with remoteInitialWindowSize := size }.log (.initialWindow size)) = some (.error s') ∧
      Failed s s') ∨
    ∃ s', shiftWindows ((size : Int) - s.remoteInitialWindowSize) s.streams.keys
        ({ s with remoteInitialWindowSize := size }.log (.initialWindow size)) = some (.ok s') ∧
      Applied ok s s' := by
  have hids : ∀ id ∈ s.streams.keys, ∃ stream, s.streams.get? id = some stream ∧
      -(2 ^ 31) ≤ stream.sendWindow + ((size : Int) - s.remoteInitialWindowSize) := fun id hmem => by
    obtain ⟨stream, hget⟩ := ArrayMap.mem_keys.1 hmem
    have hsub : (s.remoteInitialWindowSize : Int) - stream.sendWindow ≤ MAX_WINDOW_SIZE :=
      hv.initial_sub_le id stream.view (view_streams_of_get? hget)
    have hmax : (MAX_WINDOW_SIZE : Int) = 2 ^ 31 - 1 := rfl
    exact ⟨stream, hget, by omega⟩
  have hplain : ∀ e ∈ [Event.initialWindow size], e.Plain :=
    fun e he => List.mem_singleton.mp he ▸ trivial
  rcases shiftWindows_spec _ s.streams.keys
    ({ s with remoteInitialWindowSize := size }.log (.initialWindow size)) s.streams.nodup hids with
    ⟨s', heq, hfatal, htrace⟩ | ⟨s', heq, hle, hview⟩
  · exact .inl ⟨s', heq, hfatal, _, hplain, htrace⟩
  · refine .inr ⟨s', heq, ?_, _, hplain, congrArg View.trace hview⟩
    have hshift : s'.view = (s.view.shift size).log [.initialWindow size] := by
      rw [hview]
      refine congrArg (fun streams => { s.view with
        initial := size
        trace := s.trace ++ [Event.initialWindow size]
        streams }) (funext fun id => Option.map_congr fun st hst => ?_)
      obtain ⟨stream, hget, -⟩ := Option.map_eq_some_iff.mp hst
      have hkey : id ∈ s.streams.keys := ArrayMap.mem_keys.2 ⟨stream, hget⟩
      exact if_pos hkey
    rw [hshift]
    refine .single (.initialWindow s.view size hsize fun id st hst => ?_)
    obtain ⟨stream, hget, rfl⟩ := Option.map_eq_some_iff.mp hst
    exact hle id (ArrayMap.mem_keys.2 ⟨stream, hget⟩) stream hget

theorem applySetting_spec (ok : StreamView → Prop) (hv : s.view.Sound) (type value : Nat) :
    (∃ s', s.applySetting type value = some (.error s') ∧ Failed s s') ∨
      ∃ s', s.applySetting type value = some (.ok s') ∧ Applied ok s s' := by
  rw [applySetting]
  split
  · split
    · exact .inl ⟨_, rfl, .of_fail _ rfl⟩
    · rename_i hsize
      refine .inr ⟨_, rfl, .single (.maxFrame s.view value ?_ ?_), [.maxFrame value], ?_, rfl⟩
      · omega
      · omega
      · exact fun e he => List.mem_singleton.mp he ▸ trivial
  split
  · exact .inr ⟨_, rfl, .of_view rfl⟩
  split
  · exact .inr ⟨_, rfl, .of_view rfl⟩
  split
  · split
    · exact .inl ⟨_, rfl, .of_fail _ rfl⟩
    · rename_i hsize
      exact initialWindow_spec ok hv (not_lt.mp hsize)
  · exact .inr ⟨_, rfl, .refl ok s⟩

theorem applySettings_spec (ok : StreamView → Prop) (units : List (Nat × Nat)) :
    ∀ s : Session H, s.view.Sound →
      (∃ s', applySettings units s = some (.error s') ∧ Failed s s') ∨
        ∃ s', applySettings units s = some (.ok s') ∧ Applied ok s s' := by
  induction units with
  | nil => exact fun s _ => .inr ⟨s, rfl, .refl ok s⟩
  | cons unit units ih =>
    intro s hv
    rw [applySettings]
    rcases applySetting_spec ok hv unit.1 unit.2 with ⟨s₁, heq, hfailed⟩ | ⟨s₁, heq, happlied⟩
    · rw [heq]
      exact .inl ⟨s₁, rfl, hfailed⟩
    · rw [heq]
      rcases ih s₁ (happlied.reaches.sound hv) with
        ⟨s₂, heq₂, hfailed⟩ | ⟨s₂, heq₂, happlied₂⟩
      · exact .inl ⟨s₂, heq₂, happlied.failed hfailed⟩
      · exact .inr ⟨s₂, heq₂, happlied.trans happlied₂⟩

variable {f : Frame}

theorem dispatchSettings_spec (ok : StreamView → Prop) (hv : s.view.Sound) :
    ∃ s', s.dispatchSettings f = some s' ∧ Follows ok s s' := by
  rw [dispatchSettings]
  split
  · exact ⟨_, rfl, .of_fail _ rfl⟩
  split
  · refine ⟨_, rfl, ?_⟩
    split
    · exact .of_fail _ rfl
    · exact .of_view rfl
  split
  · exact ⟨_, rfl, .of_fail _ rfl⟩
  rcases applySettings_spec ok (settingsUnits f.payload) s hv with
    ⟨s₁, heq, hfailed⟩ | ⟨s₁, heq, happlied⟩
  · rw [heq]
    exact ⟨s₁, rfl, .inl hfailed⟩
  · rw [heq]
    simp only [Option.bind_eq_bind, Option.bind_some]
    split
    · exact ⟨_, rfl, .inl (happlied.failed (.of_fail _ rfl))⟩
    · refine ⟨_, rfl, .inr (happlied.reaches.tail ?_)⟩
      exact .control s₁.view ⟨FT_SETTINGS, ACK, 0, []⟩ (.inl rfl)

/-! ## Windows, resets and the rest -/

theorem dispatchWindowUpdate_spec (ok : StreamView → Prop) (hv : s.view.Sound) :
    ∃ s', s.dispatchWindowUpdate f = some s' ∧ Follows ok s s' := by
  rw [dispatchWindowUpdate]
  split
  · exact ⟨_, rfl, .of_fail _ rfl⟩
  dsimp only
  generalize uint31 (ofBe (f.payload.take 4)) = inc
  split
  · split
    · exact ⟨_, rfl, .of_fail _ rfl⟩
    split
    · exact ⟨_, rfl, .of_fail _ rfl⟩
    rename_i hle
    have hconn : 0 ≤ s.connSendWindow := hv.conn_nonneg
    rw [if_neg (by omega)]
    exact ⟨_, rfl, .inr (.single (.credit s.view inc (not_lt.mp hle)))⟩
  cases hget : s.streams.get? (uint31 f.streamId) with
  | none =>
    dsimp only
    split
    · exact ⟨_, rfl, .of_fail _ rfl⟩
    · exact ⟨_, rfl, .of_view rfl⟩
  | some stream =>
    have hst := view_streams_of_get? hget
    dsimp only
    split
    · exact ⟨_, rfl, .inr (rstStream_modify_reaches _ _ fun _ => rfl)⟩
    split
    · exact ⟨_, rfl, .inr (rstStream_modify_reaches _ _ fun _ => rfl)⟩
    rename_i hle
    have hsub : (s.remoteInitialWindowSize : Int) - stream.sendWindow ≤ MAX_WINDOW_SIZE :=
      hv.initial_sub_le _ stream.view hst
    have hmax : (MAX_WINDOW_SIZE : Int) = 2 ^ 31 - 1 := rfl
    rw [if_neg (by omega)]
    refine ⟨_, rfl, .inr (.single ?_)⟩
    have haction : Action ok silent s.view _ := .creditStream s.view (uint31 f.streamId) inc stream.view
      (hv.opened _ _ hst).1 hst (not_lt.mp hle)
    rw [view_log]
    convert haction using 2
    exact view_modifyStream hget _

theorem dispatchPing_follows : Follows ok s (s.dispatchPing f) := by
  rw [dispatchPing]
  split_ifs
  · exact .of_fail _ rfl
  · exact .of_fail _ rfl
  · exact .of_view rfl
  · exact .of_fail _ rfl
  · exact .inr (.single (.control s.view ⟨FT_PING, ACK, 0, f.payload.take 8⟩ (.inr (.inl rfl))))

theorem dispatchPriority_follows : Follows ok s (s.dispatchPriority f) := by
  rw [dispatchPriority]
  split_ifs
  · exact .of_fail _ rfl
  · exact .of_fail _ rfl
  · exact .of_view rfl

theorem dispatchGoaway_follows : Follows ok s (s.dispatchGoaway f) := by
  rw [dispatchGoaway]
  split_ifs
  · exact .of_fail _ rfl
  · exact .of_fail _ rfl
  · refine .of_view (congrArg (fun streams => { s.view with streams }) (funext fun id => ?_))
    rw [ArrayMap.get?_mapValues, Option.map_map]
    refine Option.map_congr fun stream _ => ?_
    dsimp only [Function.comp]
    split
    · rfl
    split
    · rfl
    · rfl

/-! ## Any frame -/

/-- The connection failed, or the frame is read and then the client does what it does. -/
def Hears (ok : StreamView → Prop) (f : Frame) (s s' : Session H) : Prop :=
  Failed s s' ∨ ∃ v, Action ok (Eq f) s.view v ∧ v.trace = s.trace ++ [.received f] ∧
    Reaches ok silent v s'.view

theorem Hears.of_failed (hfatal : s'.fatalError.isSome) (h : s'.trace = s.trace ++ [.received f]) :
    Hears ok f s s' :=
  .inl ⟨hfatal, [.received f], fun _ he => List.mem_singleton.mp he ▸ trivial, h⟩

theorem Follows.hears (h : Follows ok (s.log (.received f)) s') (hdata : f.type ≠ FT_DATA)
    (hrst : f.type ≠ FT_RST_STREAM) : Hears ok f s s' := by
  rcases h with ⟨hfatal, events, hplain, heq⟩ | hreach
  · refine .inl ⟨hfatal, .received f :: events, List.forall_mem_cons.mpr ⟨trivial, hplain⟩, ?_⟩
    rw [heq, log, List.append_assoc]
    rfl
  · exact .inr ⟨_, .received s.view f rfl hdata fun h => absurd h hrst, rfl, hreach⟩

theorem Follows.hears_of (h : Follows ok (s.log (.received f)) s') {type : UInt8}
    (htype : f.type = type) (hdata : type ≠ FT_DATA) (hrst : type ≠ FT_RST_STREAM) :
    Hears ok f s s' := h.hears (htype ▸ hdata) (htype ▸ hrst)

/-- The sum of what was read of the connection, whatever becomes of the DATA. -/
theorem dataIgnored_hears (htype : f.type = FT_DATA)
    (hid : f.streamId ≠ 0 ∧ f.streamId < s.nextStreamId)
    (hst : ∀ stream, s.streams.get? f.streamId = some stream → stream.view.takes = false)
    (h : Reaches ok silent ({ s.view with
      unacked := saturatingAdd s.connUnackedBytes f.length }.log [.received f]) s'.view) :
    Hears ok f s s' := by
  refine .inr ⟨_, .dataIgnored s.view f rfl htype hid fun st hst' => ?_, rfl, h⟩
  obtain ⟨stream, hget, rfl⟩ := Option.map_eq_some_iff.mp hst'
  rw [hst stream hget]
  rfl

theorem dispatchData_hears (hv : s.view.Sound) (htype : f.type = FT_DATA) :
    Hears ok f s ((s.log (.received f)).dispatchData f) := by
  rw [dispatchData]
  dsimp only
  cases hget : (s.log (.received f)).streams.get? f.streamId with
  | none =>
    dsimp only
    split
    · exact .of_failed rfl rfl
    · rename_i hidle
      simp only [isIdle, Bool.or_eq_true, decide_eq_true_iff, not_or, not_le] at hidle
      exact dataIgnored_hears htype ⟨hidle.1.1, hidle.2⟩
        (fun stream h => absurd (hget.symm.trans h) (by simp)) .refl
  | some stream =>
    dsimp only
    have hid := hv.opened f.streamId stream.view (view_streams_of_get? hget)
    generalize hs₁ : ({ s.log (.received f) with
        connUnackedBytes := saturatingAdd (s.log (.received f)).connUnackedBytes f.length
        streamProgressed := true } : Session H) = s₁
    have hview : s₁.view =
        { s.view with unacked := saturatingAdd s.connUnackedBytes f.length }.log [.received f] := by
      rw [← hs₁]
      rfl
    have hget' : s₁.streams.get? f.streamId = some stream := by
      rw [← hs₁]
      exact hget
    by_cases hstatus : stream.statusCode = 0
    · rw [if_pos hstatus]
      refine dataIgnored_hears htype hid (fun stream' h => ?_) ?_
      · obtain rfl := Option.some.inj (hget.symm.trans h)
        simp [Stream.view, StreamView.takes, hstatus]
      · exact hview ▸ rstStream_modify_reaches f.streamId _ fun _ => rfl
    rw [if_neg hstatus]
    by_cases hclosed : stream.remoteClosed = true
    · rw [if_pos hclosed]
      refine dataIgnored_hears htype hid (fun stream' h => ?_) ?_
      · obtain rfl := Option.some.inj (hget.symm.trans h)
        simp [StreamView.takes, hclosed]
      · rw [← hview, view_modifyStream_same]
        · exact .refl
        · exact fun _ => rfl
    rw [if_neg hclosed]
    have htakes : stream.view.takes = true := by
      rw [StreamView.takes, Stream.remoteClosed_view, Bool.eq_false_iff.mpr hclosed]
      simp [Stream.view, hstatus]
    have hget₂ := get?_modifyStream_of hget' fun stream =>
      { stream with unackedBytes := saturatingAdd stream.unackedBytes f.length }
    have hview₂ := view_modifyStream hget' fun stream =>
      { stream with unackedBytes := saturatingAdd stream.unackedBytes f.length }
    generalize (s₁.modifyStream f.streamId fun stream =>
      { stream with unackedBytes := saturatingAdd stream.unackedBytes f.length }) = s₂
      at hget₂ hview₂ ⊢
    have htrace₂ : s₂.trace = s.trace ++ [Event.received f] :=
      (congrArg View.trace hview₂).trans (congrArg View.trace hview)
    split
    · exact .of_failed rfl htrace₂
    have hstart : (({ s.view with unacked := saturatingAdd s.view.unacked f.length }.set f.streamId
        (some { stream.view with unacked := saturatingAdd stream.view.unacked f.length })).log
          [.received f]) = s₂.view := by
      rw [hview₂, hview]
      rfl
    refine .inr ⟨s₂.view, ?_, htrace₂, ?_⟩
    · rw [← hstart]
      exact .dataTaken s.view f rfl htype stream.view (view_streams_of_get? hget) htakes
    rw [view_modifyStream_same]
    · split
      · exact heard_reaches ok silent Stream.recvEndStream hget₂ rfl
          (Stream.localClosed_recvEndStream _) (Stream.closed_recvEndStream _) rfl rfl rfl rfl
      · exact .refl
    · exact fun _ => rfl

theorem dispatchRstStream_hears (htype : f.type = FT_RST_STREAM) :
    Hears ok f s ((s.log (.received f)).dispatchRstStream f) := by
  rw [dispatchRstStream]
  split
  · exact .of_failed rfl rfl
  by_cases hidle : (s.log (.received f)).isIdle f.streamId = true
  · rw [if_pos hidle]
    exact .of_failed rfl rfl
  rw [if_neg hidle]
  have hnext : f.streamId < s.nextStreamId := by
    simp only [isIdle, Bool.or_eq_true, decide_eq_true_iff, not_or, not_le] at hidle
    exact hidle.2
  have hreceived : (∀ stream, s.streams.get? f.streamId = some stream → stream.rstDone = true) →
      Hears ok f s (s.log (.received f)) := fun h => by
    refine .inr ⟨_, .received s.view f rfl (by rw [htype]; decide) fun _ => ⟨hnext, fun st hst => ?_⟩,
      rfl, .refl⟩
    obtain ⟨stream, hget, rfl⟩ := Option.map_eq_some_iff.mp hst
    exact h stream hget
  cases hget : (s.log (.received f)).streams.get? f.streamId with
  | none => exact hreceived fun stream h => absurd (hget.symm.trans h) (by simp)
  | some stream =>
    dsimp only
    split
    · rename_i hdone
      refine hreceived fun stream' h => ?_
      obtain rfl := Option.some.inj (hget.symm.trans h)
      exact hdone
    · refine .inr ⟨_, .reset s.view f rfl htype stream.view (view_streams_of_get? hget), rfl,
        .of_eq ?_⟩
      rw [view_modifyStream hget]
      rfl

theorem dispatchFrame_spec (hpack : Lshpack H) (hv : s.view.Sound)
    (hok : Answers hpack ok s f) : ∃ s', s.dispatchFrame hpack f = some s' ∧ Hears ok f s s' := by
  rw [dispatchFrame]
  by_cases hexpecting : (s.log (.received f)).expectingContinuation ≠ 0 ∧ f.type ≠ FT_CONTINUATION
  · rw [if_pos hexpecting]
    exact ⟨_, rfl, .of_failed rfl rfl⟩
  rw [if_neg hexpecting]
  by_cases hready : (!(s.log (.received f)).settingsReceived) = true ∧ f.type ≠ FT_SETTINGS
  · rw [if_pos hready]
    exact ⟨_, rfl, .of_failed rfl rfl⟩
  rw [if_neg hready, dispatchType]
  have hv' : (s.log (.received f)).view.Sound := hv.log _
  by_cases hsettings : f.type = FT_SETTINGS
  · obtain ⟨s', heq, h⟩ := dispatchSettings_spec (f := f) ok hv'
    rw [if_pos hsettings]
    exact ⟨s', heq, h.hears_of hsettings (by decide) (by decide)⟩
  rw [if_neg hsettings]
  have hready : s.settingsReceived = true := by
    by_contra h
    exact hready ⟨by rw [Bool.not_eq_true] at h; rw [Bool.not_eq_true']; exact h, hsettings⟩
  by_cases hupdate : f.type = FT_WINDOW_UPDATE
  · obtain ⟨s', heq, h⟩ := dispatchWindowUpdate_spec (f := f) ok hv'
    rw [if_pos hupdate]
    exact ⟨s', heq, h.hears_of hupdate (by decide) (by decide)⟩
  rw [if_neg hupdate]
  by_cases hping : f.type = FT_PING
  · rw [if_pos hping]
    exact ⟨_, rfl, dispatchPing_follows.hears_of hping (by decide) (by decide)⟩
  rw [if_neg hping]
  by_cases hpriority : f.type = FT_PRIORITY
  · rw [if_pos hpriority]
    exact ⟨_, rfl, dispatchPriority_follows.hears_of hpriority (by decide) (by decide)⟩
  rw [if_neg hpriority]
  by_cases hheaders : f.type = FT_HEADERS
  · have hnone : s.expectingContinuation = 0 := by
      by_contra h
      exact hexpecting ⟨h, by rw [hheaders]; decide⟩
    obtain ⟨s', heq, h⟩ := dispatchHeaders_spec (s := s.log (.received f)) hpack hheaders hready hnone hok
    rw [if_pos hheaders]
    exact ⟨s', heq, h.hears_of hheaders (by decide) (by decide)⟩
  rw [if_neg hheaders]
  by_cases hcontinuation : f.type = FT_CONTINUATION
  · obtain ⟨s', heq, h⟩ := dispatchContinuation_spec (s := s.log (.received f)) hpack hcontinuation
      hready hok
    rw [if_pos hcontinuation]
    exact ⟨s', heq, h.hears_of hcontinuation (by decide) (by decide)⟩
  rw [if_neg hcontinuation]
  by_cases hdata : f.type = FT_DATA
  · rw [if_pos hdata]
    exact ⟨_, rfl, dispatchData_hears hv hdata⟩
  rw [if_neg hdata]
  by_cases hrst : f.type = FT_RST_STREAM
  · rw [if_pos hrst]
    exact ⟨_, rfl, dispatchRstStream_hears hrst⟩
  rw [if_neg hrst]
  split
  · exact ⟨_, rfl, dispatchGoaway_follows.hears hdata hrst⟩
  split
  · exact ⟨_, rfl, .of_failed rfl rfl⟩
  · exact ⟨_, rfl, Follows.hears (.of_view rfl) hdata hrst⟩

end Session

end OhosBun.Http2
