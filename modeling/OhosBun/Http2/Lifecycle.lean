/-
# `OhosBun.Http2.Lifecycle` — what is written on a stream, from first to last

On a stream there are the frames of one header block, frames of its body, of which the last one may
have `END_STREAM`, and at most one `RST_STREAM`; a trace says how far a stream is (`phase`), and which
frames may follow (`Orderly`).

The end of a stream whose server answered without its body is written without a look at the state of
the stream: where the stream was reset before, the trace goes wrong (`Timely` is that it was not).
-/
import OhosBun.Http2.Steps
import OhosBun.Lib.History

namespace OhosBun.Http2

open OhosBun.Lib OhosBun.Lib.History

/-- How far the client is with a stream. -/
inductive Phase
  | idle
  /-- in a header block, behind which the stream ends or not -/
  | headers (endStream : Bool)
  | open
  | ended
  | reset
deriving DecidableEq

namespace Phase

/-- Behind a frame that ends the stream or does not. -/
def behind (endStream : Bool) : Phase := if endStream then .ended else .open

/-- A frame of the stream was written. -/
def wrote (p : Phase) (f : Frame) : Phase :=
  if f.type = FT_RST_STREAM then .reset
  else if f.type = FT_HEADERS then
    if f.has END_HEADERS then behind (f.has END_STREAM) else .headers (f.has END_STREAM)
  else if f.type = FT_CONTINUATION then
    match p with
    | .headers endStream => if f.has END_HEADERS then behind endStream else p
    | p => p
  else if f.type = FT_DATA then if f.has END_STREAM then .ended else p
  else p

/-- Whether a frame of the stream may be written. -/
def Admits (p : Phase) (f : Frame) : Prop :=
  (f.type = FT_HEADERS → p = .idle) ∧
  (f.type = FT_CONTINUATION → ∃ endStream, p = .headers endStream) ∧
  (f.type = FT_DATA → p = .open) ∧
  (f.type = FT_RST_STREAM → p ≠ .reset)

end Phase

/-- What an event is for a stream. -/
@[grind] def Phase.next (id : Nat) (p : Phase) : Event → Phase
  | .wrote f => if f.streamId = id then p.wrote f else p
  | .received f => if f.type = FT_RST_STREAM ∧ f.streamId = id then .reset else p
  | _ => p

def phase (id : Nat) (t : List Event) : Phase := t.foldl (Phase.next id) .idle

/-- A frame is written where the phase of its stream admits it. -/
def Orderly (t : List Event) : Event → Prop
  | .wrote f => (phase f.streamId t).Admits f
  | _ => True

section Phase
variable {t events : List Event} {id : Nat} {e : Event}

theorem phase_concat : phase id (t ++ [e]) = (phase id t).next id e := by
  rw [phase, List.foldl_concat]
  rfl

theorem wrote_headers {p : Phase} {f : Frame} (h : f.type = FT_HEADERS) : p.next f.streamId (.wrote f) =
    if f.has END_HEADERS then .behind (f.has END_STREAM) else .headers (f.has END_STREAM) := by
  rw [Phase.next, if_pos rfl]
  unfold Phase.wrote
  rw [h, if_neg (by decide), if_pos rfl]

theorem wrote_continuation {endStream : Bool} {f : Frame} (h : f.type = FT_CONTINUATION) :
    (Phase.headers endStream).next f.streamId (.wrote f) =
      if f.has END_HEADERS then .behind endStream else .headers endStream := by
  rw [Phase.next, if_pos rfl]
  unfold Phase.wrote
  rw [h, if_neg (by decide), if_neg (by decide), if_pos rfl]

theorem wrote_data {p : Phase} {f : Frame} (h : f.type = FT_DATA) :
    p.next f.streamId (.wrote f) = if f.has END_STREAM then .ended else p := by
  rw [Phase.next, if_pos rfl]
  unfold Phase.wrote
  rw [h, if_neg (by decide), if_neg (by decide), if_neg (by decide), if_pos rfl]

theorem phase_append_of_next (h : ∀ e ∈ events, ∀ p : Phase, p.next id e = p) :
    phase id (t ++ events) = phase id t := by
  induction events using List.reverseRecOn with
  | nil => rw [List.append_nil]
  | append_singleton events e ih =>
    rw [← List.append_assoc, phase_concat, h e (List.mem_append_right _ List.mem_cons_self)]
    exact ih fun e' he' => h e' (List.mem_append_left _ he')

end Phase

/-- What a stream is, by its phase. -/
structure Stage (st : StreamView) (p : Phase) : Prop where
  opened : p ≠ .idle ∧ ∀ endStream, p ≠ .headers endStream
  open_of : st.localClosed = false → p = .open
  reset : p = .reset → st.rstDone = true
  closed : st.rstDone = true → st.state = .closed

structure Life (v : View) : Prop where
  stage : ∀ id st, v.streams id = some st → Stage st (phase id v.trace)
  idle : ∀ id, v.nextId ≤ id → phase id v.trace = .idle
  orderly : Always Orderly v.trace

section Life
variable {v v' : View} {id : Nat} {st st' : StreamView} {p : Phase} {e : Event} {events : List Event}

/-- Events behind which each stream is where it was. -/
def Event.Still (e : Event) : Prop := (∀ id p, Phase.next id p e = p) ∧ ∀ t, Orderly t e

variable {f : Frame} {t : List Event} {frames : List Frame} {endStream : Bool}

theorem Event.Still.wrote (hheaders : f.type ≠ FT_HEADERS) (hcontinuation : f.type ≠ FT_CONTINUATION)
    (hdata : f.type ≠ FT_DATA) (hrst : f.type ≠ FT_RST_STREAM) : (Event.wrote f).Still := by
  refine ⟨fun id p => ?_, fun t => ⟨fun h => absurd h hheaders, fun h => absurd h hcontinuation,
    fun h => absurd h hdata, fun h => absurd h hrst⟩⟩
  simp only [Phase.next, Phase.wrote, if_neg hheaders, if_neg hcontinuation, if_neg hdata, if_neg hrst,
    ite_self]

theorem Event.Still.control (h : f.IsControl) : (Event.wrote f).Still := by
  rcases h with h | h | h <;> exact .wrote (by rw [h]; decide) (by rw [h]; decide)
    (by rw [h]; decide) (by rw [h]; decide)

theorem Event.Still.windowUpdate (id increment : Nat) : (Event.wrote (windowUpdate id increment)).Still :=
  .wrote (by decide : FT_WINDOW_UPDATE ≠ FT_HEADERS) (by decide : FT_WINDOW_UPDATE ≠ FT_CONTINUATION)
    (by decide : FT_WINDOW_UPDATE ≠ FT_DATA) (by decide : FT_WINDOW_UPDATE ≠ FT_RST_STREAM)

theorem Event.Still.received (h : f.type ≠ FT_RST_STREAM) : (Event.received f).Still :=
  ⟨fun _ _ => if_neg fun hf => h hf.1, fun _ => trivial⟩

theorem always_orderly_append (ht : Always Orderly t) (h : ∀ e ∈ events, ∀ t, Orderly t e) :
    Always Orderly (t ++ events) := by
  induction events using List.reverseRecOn with
  | nil => rwa [List.append_nil]
  | append_singleton events e ih =>
    rw [← List.append_assoc]
    exact always_concat.2 ⟨ih fun e' he' => h e' (List.mem_append_left _ he'),
      h e (List.mem_append_right _ List.mem_cons_self) _⟩

/-- A stream whose reset is as it was, and that is closed where it was. -/
theorem Stage.of_le (h : Stage st p) (hrst : st'.rstDone = st.rstDone)
    (hclosed : st.localClosed = true → st'.localClosed = true)
    (hstate : st.state = .closed → st'.state = .closed) : Stage st' p where
  opened := h.opened
  open_of hopen := h.open_of (by
    by_contra hne
    exact absurd (hopen.symm.trans (hclosed (Bool.not_eq_false _ ▸ hne))) (by simp))
  reset hp := hrst.trans (h.reset hp)
  closed hst := hstate (h.closed (hrst.symm.trans hst))

theorem Stage.of_reset (st : StreamView) : Stage st.reset .reset where
  opened := ⟨by simp, by simp⟩
  open_of := by intros; contradiction
  reset _ := rfl
  closed _ := rfl

/-- Events behind which each stream is where it was. -/
theorem Life.still (hv : Life v) (hnext : v.nextId ≤ v'.nextId) (htrace : v'.trace = v.trace ++ events)
    (hevents : ∀ e ∈ events, e.Still)
    (hstreams : ∀ id st', v'.streams id = some st' → Stage st' (phase id v.trace)) : Life v' where
  stage id st' hst' := by
    rw [htrace, phase_append_of_next fun e he => (hevents e he).1 id]
    exact hstreams id st' hst'
  idle id hid := by
    rw [htrace, phase_append_of_next fun e he => (hevents e he).1 id]
    exact hv.idle id (hnext.trans hid)
  orderly := by
    rw [htrace]
    exact always_orderly_append hv.orderly fun e he => (hevents e he).2

/-- An event of one stream. -/
theorem Life.concat (hv : Life v) (hid : id < v.nextId) (hnext : v'.nextId = v.nextId)
    (htrace : v'.trace = v.trace ++ [e]) (hstreams : v'.streams = (v.set id (some st')).streams)
    (happart : ∀ id' p, id' ≠ id → Phase.next id' p e = p) (hstage : Stage st' ((phase id v.trace).next id e))
    (horderly : Orderly v.trace e) : Life v' where
  stage id' st'' hst'' := by
    rw [hstreams, View.streams_set] at hst''
    rw [htrace, phase_concat]
    split_ifs at hst'' with hne
    · obtain rfl := Option.some.inj hst''
      rw [hne]
      exact hstage
    · rw [happart id' _ hne]
      exact hv.stage id' st'' hst''
  idle id' hid' := by
    rw [hnext] at hid'
    rw [htrace, phase_concat, happart id' _ (hid.trans_le hid').ne']
    exact hv.idle id' hid'
  orderly := by
    rw [htrace]
    exact always_concat.2 ⟨hv.orderly, horderly⟩

/-- The rest of a header block, behind which the stream is open, or has ended. -/
theorem Continues.written (h : Continues id frames) (hphase : phase id t = .headers endStream)
    (ht : Always Orderly t) :
    phase id (t ++ frames.map Event.wrote) = .behind endStream ∧
      Always Orderly (t ++ frames.map Event.wrote) := by
  have hadmits : ∀ (flags : UInt8) (chunk : Bytes),
      Orderly t (.wrote ⟨FT_CONTINUATION, flags, id, chunk⟩) := fun flags chunk =>
    ⟨by rintro ⟨⟩, fun _ => ⟨endStream, hphase⟩, by rintro ⟨⟩, by rintro ⟨⟩⟩
  induction h generalizing t with
  | last chunk =>
    refine ⟨?_, always_concat.2 ⟨ht, hadmits END_HEADERS chunk⟩⟩
    rw [List.map_singleton, phase_concat, hphase]
    exact (wrote_continuation rfl).trans (if_pos (by decide : (END_HEADERS &&& END_HEADERS != 0) = true))
  | more chunk _ ih =>
    have hnext : phase id (t ++ [Event.wrote ⟨FT_CONTINUATION, 0, id, chunk⟩]) = .headers endStream := by
      rw [phase_concat, hphase]
      exact (wrote_continuation rfl).trans (if_neg (by decide : ¬(0 &&& END_HEADERS != 0) = true))
    rw [List.map_cons, List.append_cons]
    exact ih hnext (always_concat.2 ⟨ht, hadmits 0 chunk⟩) fun flags chunk =>
      ⟨by rintro ⟨⟩, fun _ => ⟨endStream, hnext⟩, by rintro ⟨⟩, by rintro ⟨⟩⟩

theorem HeaderFrames.written (h : HeaderFrames id endStream frames) (hphase : phase id t = .idle)
    (ht : Always Orderly t) :
    phase id (t ++ frames.map Event.wrote) = .behind endStream ∧
      Always Orderly (t ++ frames.map Event.wrote) := by
  have hadmits : ∀ (flags : UInt8) (chunk : Bytes), Orderly t (.wrote ⟨FT_HEADERS, flags, id, chunk⟩) :=
    fun flags chunk => ⟨fun _ => hphase, by rintro ⟨⟩, by rintro ⟨⟩, by rintro ⟨⟩⟩
  cases h with
  | single chunk =>
    refine ⟨?_, always_concat.2 ⟨ht, hadmits _ chunk⟩⟩
    rw [List.map_singleton, phase_concat, hphase]
    refine (wrote_headers rfl).trans ?_
    cases endStream with
    | false =>
      have hlast : (Frame.mk FT_HEADERS (END_HEADERS ||| endFlag false) id chunk).has END_HEADERS := by
        exact (by decide : ((END_HEADERS ||| endFlag false) &&& END_HEADERS != 0) = true)
      rw [if_pos hlast]
      exact congrArg Phase.behind (by decide : ((END_HEADERS ||| endFlag false) &&& END_STREAM != 0) = false)
    | true =>
      have hlast : (Frame.mk FT_HEADERS (END_HEADERS ||| endFlag true) id chunk).has END_HEADERS := by
        exact (by decide : ((END_HEADERS ||| endFlag true) &&& END_HEADERS != 0) = true)
      rw [if_pos hlast]
      exact congrArg Phase.behind (by decide : ((END_HEADERS ||| endFlag true) &&& END_STREAM != 0) = true)
  | more chunk hrest =>
    rw [List.map_cons, List.append_cons]
    refine hrest.written ?_ (always_concat.2 ⟨ht, hadmits _ chunk⟩)
    rw [phase_concat, hphase]
    refine (wrote_headers rfl).trans ?_
    rw [has_endFlag]
    cases endStream with
    | false => exact if_neg (by decide : ¬(endFlag false &&& END_HEADERS != 0) = true)
    | true => exact if_neg (by decide : ¬(endFlag true &&& END_HEADERS != 0) = true)

/-- A frame of a body on a stream whose side is open. -/
theorem Life.data (hv : Life v) (hsound : v.Sound) (hst : v.streams id = some st)
    (hopen : st.localClosed = false) (endStream : Bool) (payload : Bytes) (hnext : v'.nextId = v.nextId)
    (htrace : v'.trace = v.trace ++ [.wrote ⟨FT_DATA, endFlag endStream, id, payload⟩])
    (hstreams : v'.streams = (v.set id (some st')).streams)
    (hrst : st'.rstDone = st.rstDone) (hstate : st'.state = if endStream then st.sentEnd.state else st.state) :
    Life v' := by
  have hphase := (hv.stage id st hst).open_of hopen
  have hlive : st.rstDone = false := by
    by_contra hrst
    have hclosed := (hv.stage id st hst).closed (Bool.not_eq_false _ ▸ hrst)
    rw [StreamView.localClosed, hclosed] at hopen
    exact absurd hopen (by simp)
  refine hv.concat (hsound.opened id st hst).2 hnext htrace hstreams
    (fun id' p hne => if_neg hne.symm) ?_ ⟨by rintro ⟨⟩, by rintro ⟨⟩, fun _ => hphase, by rintro ⟨⟩⟩
  have hbehind : (phase id v.trace).next id (.wrote ⟨FT_DATA, endFlag endStream, id, payload⟩) =
      if endStream then .ended else .open := by
    rw [hphase]
    exact (wrote_data rfl).trans (by rw [has_endFlag])
  rw [hbehind]
  constructor
  case opened => cases endStream <;> exact ⟨by simp, by simp⟩
  case open_of =>
    intro hopen'
    cases endStream with
    | false => rfl
    | true =>
      rw [StreamView.localClosed, hstate] at hopen'
      exact absurd (hopen'.symm.trans st.localClosed_sentEnd) (by simp)
  case reset => cases endStream <;> simp
  case closed => exact fun h => absurd ((hrst.trans hlive).symm.trans h) (by simp)

/-- A reset of a stream that was reset before, or is gone. -/
theorem Life.receivedReset (hv : Life v) (htype : f.type = FT_RST_STREAM) (hid : f.streamId < v.nextId)
    (hrst : ∀ st, v.streams f.streamId = some st → st.rstDone) :
    Life (v.log [.received f]) := by
  have hapart : ∀ id p, id ≠ f.streamId → Phase.next id p (.received f) = p :=
    fun id p hne => if_neg fun hf => hne hf.2.symm
  constructor
  case stage =>
    intro id st hst
    rw [View.log, phase_concat]
    by_cases hne : id = f.streamId
    · have hstage := hv.stage id st hst
      have hreset : Phase.next id (phase id v.trace) (.received f) = .reset := if_pos ⟨htype, hne.symm⟩
      rw [hreset]
      have hdone := hrst st (by rw [← hne]; exact hst)
      refine ⟨⟨by simp, by simp⟩, fun hopen => ?_, fun _ => hdone, hstage.closed⟩
      rw [StreamView.localClosed, hstage.closed hdone] at hopen
      exact absurd hopen (by simp)
    · rw [hapart id _ hne]
      exact hv.stage id st hst
  case idle =>
    intro id hle
    rw [View.log, phase_concat, hapart id _ (hid.trans_le hle).ne']
    exact hv.idle id hle
  case orderly => exact always_concat.2 ⟨hv.orderly, trivial⟩

/-- A stream that is opened by a header block. -/
theorem Life.opening (hv : Life v) (endStream : Bool) (hframes : HeaderFrames v.nextId endStream frames)
    (htrace : v'.trace = v.trace ++ frames.map Event.wrote) (hnext : v'.nextId = v.nextId + 2)
    (hstreams : v'.streams = (v.set v.nextId (some st')).streams) (hrst : st'.rstDone = false)
    (hstate : st'.state = if endStream then .halfClosedLocal else .open) : Life v' := by
  obtain ⟨hphase, horderly⟩ := hframes.written (hv.idle _ le_rfl) hv.orderly
  have hapart : ∀ id, id ≠ v.nextId → phase id v'.trace = phase id v.trace := by
    intro id hne
    rw [htrace]
    refine phase_append_of_next fun e he p => ?_
    obtain ⟨g, hg, rfl⟩ := List.mem_map.mp he
    exact if_neg fun heq => hne (heq.symm.trans (hframes.streamId g hg))
  constructor
  case stage =>
    intro id st hst
    rw [hstreams, View.streams_set] at hst
    split_ifs at hst with hne
    · obtain rfl := Option.some.inj hst
      rw [hne, htrace, hphase]
      refine ⟨?_, fun hopen => ?_, ?_, fun h => absurd (hrst.symm.trans h) (by simp)⟩
      · cases endStream <;> exact ⟨by decide, by decide⟩
      · rw [StreamView.localClosed, hstate] at hopen
        cases endStream with
        | false => rfl
        | true => exact absurd hopen (by simp)
      · cases endStream <;> exact (by intros; contradiction)
    · rw [hapart id hne]
      exact hv.stage id st hst
  case idle =>
    intro id hle
    rw [hnext] at hle
    rw [hapart id (by omega)]
    exact hv.idle id (by omega)
  case orderly => exact htrace ▸ horderly

theorem Life.action {hears : Frame → Prop} (hv : Life v) (hsound : v.Sound)
    (h : Action (fun st => st.localClosed = false) hears v v') : Life v' := by
  have hset : ∀ {id st st'}, v.streams id = some st → Stage st' (phase id v.trace) →
      ∀ id' st'', (v.set id (some st')).streams id' = some st'' → Stage st'' (phase id' v.trace) := by
    intro id st st' hst hstage
    refine View.forall_set hv.stage fun st'' heq => ?_
    rwa [← Option.some.inj heq]
  have hone : ∀ {e : Event}, e.Still → ∀ e' ∈ [e], e'.Still := fun h => List.forall_mem_singleton.mpr h
  cases h with
  | received f hf hdata hrst =>
    by_cases htype : f.type = FT_RST_STREAM
    · exact hv.receivedReset htype (hrst htype).1 (hrst htype).2
    · exact hv.still le_rfl rfl (hone (.received htype)) hv.stage
  | reset f hf htype st hst =>
    refine hv.concat (hsound.opened _ st hst).2 rfl rfl rfl
      (fun id' p hne => if_neg fun hf => hne hf.2.symm) ?_ trivial
    rw [Phase.next, if_pos ⟨htype, rfl⟩]
    exact .of_reset st
  | dataIgnored f hf htype hid =>
    exact hv.still le_rfl rfl (hone (.received (htype ▸ (by decide)))) hv.stage
  | dataTaken f hf htype st hst =>
    exact hv.still le_rfl rfl (hone (.received (htype ▸ (by decide))))
      (hset hst ((hv.stage _ st hst).of_le rfl (fun h => h) fun h => h))
  | control f hf => exact hv.still le_rfl rfl (hone (.control hf)) hv.stage
  | preface =>
    refine hv.still le_rfl rfl ?_ hv.stage
    refine List.forall_mem_cons.mpr ⟨⟨fun _ _ => rfl, fun _ => trivial⟩, List.forall_mem_cons.mpr
      ⟨.control (.inl rfl), hone (.windowUpdate _ _)⟩⟩
  | replenish h => exact hv.still le_rfl rfl (hone (.windowUpdate _ _)) hv.stage
  | replenishStream id st hst hopen h =>
    exact hv.still le_rfl rfl (hone (.windowUpdate _ _))
      (hset hst ((hv.stage _ st hst).of_le rfl (fun h => h) fun h => h))
  | rst id code st hst hrst =>
    refine hv.concat (hsound.opened _ st hst).2 rfl rfl rfl (fun id' p hne => if_neg hne.symm) ?_
      ⟨by rintro ⟨⟩, by rintro ⟨⟩, by rintro ⟨⟩, fun _ hreset => ?_⟩
    · rw [Phase.next, if_pos rfl]
      exact .of_reset st
    · exact absurd (hrst.symm.trans ((hv.stage id st hst).reset hreset)) (by simp)
  | remove id =>
    exact hv.still le_rfl (List.append_nil _).symm (by simp) (View.forall_set hv.stage (by simp))
  | heard id st st' hst hrst hclosed hstate hunacked hwindow hunsent hended =>
    exact hv.still le_rfl (List.append_nil _).symm (by simp)
      (hset hst ((hv.stage _ st hst).of_le hrst (fun h => hclosed.trans h) hstate))
  | provided id bytes st hst =>
    exact hv.still le_rfl rfl (hone ⟨fun _ _ => rfl, fun _ => trivial⟩)
      (hset hst ((hv.stage _ st hst).of_le rfl (fun h => h) fun h => h))
  | ended id ended st hst =>
    exact hv.still le_rfl rfl (hone ⟨fun _ _ => rfl, fun _ => trivial⟩)
      (hset hst ((hv.stage _ st hst).of_le rfl (fun h => h) fun h => h))
  | creditStream id increment st hid hst h =>
    exact hv.still le_rfl rfl (hone ⟨fun _ _ => rfl, fun _ => trivial⟩)
      (hset hst ((hv.stage _ st hst).of_le rfl (fun h => h) fun h => h))
  | credit increment h => exact hv.still le_rfl rfl (hone ⟨fun _ _ => rfl, fun _ => trivial⟩) hv.stage
  | initialWindow size hsize h =>
    refine hv.still le_rfl rfl (hone ⟨fun _ _ => rfl, fun _ => trivial⟩) fun id st hst => ?_
    obtain ⟨st, hst', rfl⟩ := Option.map_eq_some_iff.mp hst
    exact (hv.stage id st hst').of_le rfl (fun h => h) fun h => h
  | maxFrame size hge hle =>
    exact hv.still le_rfl rfl (hone ⟨fun _ _ => rfl, fun _ => trivial⟩) hv.stage
  | halfClose id st hst hok => exact hv.data hsound hst hok true [] rfl rfl rfl rfl rfl
  | dataFrame id st payload rest endStream hst hopen =>
    refine hv.data hsound hst hopen endStream payload rfl rfl rfl ?_ ?_
    · cases endStream <;> rfl
    · cases endStream <;> rfl
  | skip bytes ended hid hprefaced =>
    refine hv.still (Nat.le_add_right _ 2) rfl (List.forall_mem_cons.mpr
      ⟨⟨fun _ _ => rfl, fun _ => trivial⟩, hone ⟨fun _ _ => rfl, fun _ => trivial⟩⟩) hv.stage
  | request bytes ended awaiting endStream frames hframes hid hend hprefaced =>
    have hbody : Life (v.log (bodyEvents v.nextId bytes ended)) :=
      hv.still le_rfl rfl (List.forall_mem_cons.mpr
        ⟨⟨fun _ _ => rfl, fun _ => trivial⟩, hone ⟨fun _ _ => rfl, fun _ => trivial⟩⟩) hv.stage
    exact hbody.opening endStream hframes (List.append_assoc _ _ _).symm rfl rfl rfl rfl

end Life

/-! ## Runs -/

namespace Session
variable {H : Type} (hpack : Lshpack H) {s : Session H}

/-- Where the server answers without the body of a request, the side of the client is open. -/
def Timely (s : Session H) : Op → Prop
  | .dispatch f => (s.answered? hpack f).all fun stream => !stream.awaitingContinue || !stream.localClosed
  | _ => True

instance Timely.decidable (s : Session H) : DecidablePred (Timely hpack s) := fun op =>
  match op with
  | .dispatch _ => inferInstanceAs (Decidable (_ = true))
  | .attach _ | .provide _ _ | .streamRequestBody _ _ | .drainSendBody _ _ | .drainSendBodies | .flush _
  | .deliver _ _ | .abort _ | .replenishWindow _ | .failAll _ _ => .isTrue trivial

/-- Where no answer comes to a request whose side is closed, what is written on each stream is in
order, before and behind a fatal error. -/
theorem orderly_of_timely (h : H) (ops : List Op)
    (halong : Along hpack (Timely hpack) { hpack := h } ops) :
    ∃ s', run hpack { hpack := h } ops = some s' ∧ Always Orderly s'.trace := by
  have hlife : Life ({ hpack := h } : Session H).view := ⟨by intros; contradiction, fun _ _ => rfl, always_nil⟩
  have hplain : ∀ t events, Always Orderly t → (∀ e ∈ events, e.Plain) → Always Orderly (t ++ events) := by
    intro t events ht hevents
    refine always_orderly_append ht fun e he t' => ?_
    cases e with
    | wrote f => exact (Event.Still.control (hevents _ he)).2 t'
    | received f => exact trivial
    | preface => exact trivial
    | credited id n => exact trivial
    | initialWindow n => exact trivial
    | maxFrame n => exact trivial
    | provided id bytes => exact trivial
    | ended id fin => exact trivial
  have hguard : Along hpack (fun s op => ∀ f, op = .dispatch f →
      Answers hpack (fun st => st.localClosed = false) s f ∧ True) { hpack := h } ops := by
    refine halong.mono fun s op hop => ⟨hop.1, ?_⟩
    rintro f rfl
    refine ⟨fun stream hstream hawaiting st hst => ?_, trivial⟩
    have htimely := (Option.all_eq_true _ _).mp hop.2 stream hstream
    rw [hawaiting, Bool.not_true, Bool.false_or, Bool.not_eq_true'] at htimely
    exact hst.trans htimely
  obtain ⟨s', heq, htrace, -⟩ := run_spec hpack (fun st => st.localClosed = false) (fun _ _ => True) Life
    (Always Orderly) (fun _ _ hsound hv haction => hv.action hsound haction) (fun _ hv => hv.orderly) hplain
    ops (sound_new h) hlife hguard
  exact ⟨s', heq, htrace⟩

/-- A request that waits for the server to ask for its body, and is answered. -/
def answeredEarly : List Op :=
  [.attach ⟨.encoded [0x82], .bytes [1, 2, 3], true⟩,
    .dispatch ⟨FT_SETTINGS, 0, 0, []⟩,
    .dispatch ⟨FT_HEADERS, END_HEADERS, 1, [0x88]⟩,
    .drainSendBodies]

theorem orderly_of_timely_answeredEarly : ∃ s', run finalStatus { hpack := () } answeredEarly = some s' ∧
    Always Orderly s'.trace :=
  orderly_of_timely finalStatus () answeredEarly (by with_unfolding_all decide)

/-- The same, where the stream was reset. -/
def answeredReset : List Op :=
  [.attach ⟨.encoded [0x82], .bytes [1, 2, 3], true⟩,
    .dispatch ⟨FT_SETTINGS, 0, 0, []⟩,
    .dispatch ⟨FT_WINDOW_UPDATE, 0, 1, beBytes 4 0⟩,
    .dispatch ⟨FT_HEADERS, END_HEADERS, 1, [0x88]⟩]

theorem not_orderly_answeredReset : Along finalStatus (fun _ _ => True) { hpack := () } answeredReset ∧
    ∃ s', run finalStatus { hpack := () } answeredReset = some s' ∧ ¬Always Orderly s'.trace := by
  have hlast : (run finalStatus { hpack := () } answeredReset).map
      (fun s => (s.trace.getLast?, phase 1 s.trace.dropLast)) =
        some (some (.wrote ⟨FT_DATA, END_STREAM, 1, []⟩), .reset) := by
    with_unfolding_all decide
  obtain ⟨s', heq, hs'⟩ := Option.map_eq_some_iff.mp hlast
  obtain ⟨hwrote, hphase⟩ := Prod.mk.inj hs'
  obtain ⟨before, htrace⟩ := List.getLast?_eq_some_iff.mp hwrote
  refine ⟨by with_unfolding_all decide, s', heq, fun horderly => ?_⟩
  rw [htrace] at horderly
  rw [htrace, List.dropLast_concat] at hphase
  have hopen : phase 1 before = .open := (always_concat.1 horderly).2.2.2.1 rfl
  exact absurd (hphase.symm.trans hopen) (by simp)

end Session

end OhosBun.Http2
