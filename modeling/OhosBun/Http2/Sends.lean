/-
# `OhosBun.Http2.Sends` — what the client sends are actions

The view of a session, and the functions that write: each of them returns, and what it does to the
view is a sequence of actions.  A request is opened with its header block; of a body as much is
framed as the windows, the frame size and the write buffer allow, and the passes over the streams
end because each of them uses up a window or ends a stream.
-/
import OhosBun.Http2.View

namespace OhosBun.Http2

open OhosBun.Lib

def Stream.unsent (s : Stream) : Bytes :=
  match s.body with
  | .bytes _ => s.pendingBody
  | .stream _ buffer => buffer.getD []

def Stream.bodyEnded (s : Stream) : Bool :=
  match s.body with
  | .bytes _ => true
  | .stream ended _ => ended

def Stream.view (s : Stream) : StreamView where
  state := s.state
  rstDone := s.rstDone
  awaiting := s.awaitingContinue
  answered := decide (s.statusCode ≠ 0)
  unacked := s.unackedBytes
  window := s.sendWindow
  unsent := s.unsent
  ended := s.bodyEnded

@[simp] theorem Stream.localClosed_view (s : Stream) : s.view.localClosed = s.localClosed := rfl

@[simp] theorem Stream.remoteClosed_view (s : Stream) : s.view.remoteClosed = s.remoteClosed := rfl

theorem Stream.view_sentEndStream (s : Stream) : s.sentEndStream.view = s.view.sentEnd := by
  cases h : s.state <;>
    simp only [sentEndStream, view, StreamView.sentEnd, unsent, bodyEnded, h]

namespace Session
variable {H : Type}

def view (s : Session H) : View where
  nextId := s.nextStreamId
  streams := fun id => (s.streams.get? id).map Stream.view
  conn := s.connSendWindow
  initial := s.remoteInitialWindowSize
  maxFrame := s.remoteMaxFrameSize
  unacked := s.connUnackedBytes
  prefaced := s.prefaceSent
  failed := s.fatalError.isSome
  trace := s.trace

variable {s s' : Session H} {id id' : Nat} {stream : Stream}

theorem view_streams : s.view.streams id = (s.streams.get? id).map Stream.view := rfl

theorem view_streams_of_get? (h : s.streams.get? id = some stream) :
    s.view.streams id = some stream.view := by
  rw [view_streams, h, Option.map_some]

theorem view_log (e : Event) : (s.log e).view = s.view.log [e] := rfl

theorem view_writeFrame (type flags : UInt8) (payload : Bytes) :
    (s.writeFrame type flags id payload).view = s.view.log [.wrote ⟨type, flags, id, payload⟩] := rfl

theorem streams_writeFrame (type flags : UInt8) (payload : Bytes) :
    (s.writeFrame type flags id payload).streams = s.streams := rfl

theorem get?_modifyStream (f : Stream → Stream) : (s.modifyStream id f).streams.get? id' =
    if id' = id then (s.streams.get? id').map f else s.streams.get? id' := ArrayMap.get?_modify f

theorem get?_modifyStream_self (f : Stream → Stream) :
    (s.modifyStream id f).streams.get? id = (s.streams.get? id).map f := by
  rw [get?_modifyStream, if_pos rfl]

theorem get?_modifyStream_of (h : s.streams.get? id = some stream) (f : Stream → Stream) :
    (s.modifyStream id f).streams.get? id = some (f stream) := by
  rw [get?_modifyStream_self, h, Option.map_some]

theorem view_modifyStream (h : s.streams.get? id = some stream) (f : Stream → Stream) :
    (s.modifyStream id f).view = s.view.set id (some (f stream).view) := by
  refine congrArg (fun streams => { s.view with streams }) (funext fun id' => ?_)
  rw [get?_modifyStream, Function.update_apply]
  split_ifs with hid
  · rw [hid, h, Option.map_some, Option.map_some]
  · rfl

/-- A change that is not in the view. -/
theorem view_modifyStream_same {f : Stream → Stream} (hf : ∀ stream, (f stream).view = stream.view) :
    (s.modifyStream id f).view = s.view := by
  refine congrArg (fun streams => { s.view with streams }) (funext fun id' => ?_)
  rw [get?_modifyStream]
  split_ifs
  · rw [Option.map_map]
    exact Option.map_congr fun stream _ => hf stream
  · rfl

theorem keys_modifyStream (f : Stream → Stream) : (s.modifyStream id f).streams.keys = s.streams.keys :=
  ArrayMap.keys_modify id f

theorem view_removeStream : (s.removeStream id).view = s.view.set id none := by
  rw [removeStream]
  cases hget : s.streams.get? id with
  | none => exact (View.set_self (by rw [view_streams, hget, Option.map_none])).symm
  | some stream =>
    refine congrArg (fun streams => { s.view with streams }) (funext fun id' => ?_)
    dsimp only
    rw [ArrayMap.get?_swapRemove, Function.update_apply]
    split_ifs
    · rfl
    · rfl

/-! ## Resets -/

section Reaches
variable {ok : StreamView → Prop} {hears : Frame → Prop}

theorem rstStream_reaches (id code : Nat) : Reaches ok hears s.view (s.rstStream id code).view := by
  rw [rstStream]
  cases hget : s.streams.get? id with
  | none => exact .refl
  | some stream =>
    dsimp only
    split_ifs with hclosed
    · exact .refl
    · rw [Bool.or_eq_true, decide_eq_true_iff, not_or, Bool.not_eq_true] at hclosed
      refine .single ?_
      rw [view_writeFrame, view_modifyStream hget]
      exact .rst s.view id code stream.view (view_streams_of_get? hget) hclosed.1 hclosed.2

theorem removeStream_reaches (id : Nat) : Reaches ok hears s.view (s.removeStream id).view := by
  rw [view_removeStream]
  exact .single (.remove s.view id)

/-- A reset of a stream, and a change to it that is not in the view. -/
theorem rstStream_modify_reaches (id code : Nat) {f : Stream → Stream}
    (hf : ∀ stream, (f stream).view = stream.view) :
    Reaches ok hears s.view ((s.rstStream id code).modifyStream id f).view := by
  rw [view_modifyStream_same hf]
  exact rstStream_reaches id code

/-! ## Header blocks -/

/-- The session with some more frames written. -/
def wroteFrames (s : Session H) (n : Nat) (frames : List Frame) : Session H :=
  { s with writeBuffer := n, trace := s.trace ++ frames.map Event.wrote }

theorem writeFrame_eq (type flags : UInt8) (payload : Bytes) :
    s.writeFrame type flags id payload =
      s.wroteFrames (s.writeBuffer + FrameHeader.BYTE_SIZE + payload.length)
        [⟨type, flags, id, payload⟩] := rfl

theorem wroteFrames_wroteFrames (n n' : Nat) (frames frames' : List Frame) :
    (s.wroteFrames n frames).wroteFrames n' frames' = s.wroteFrames n' (frames ++ frames') := by
  simp only [wroteFrames, List.map_append, List.append_assoc]

theorem writeContinuations_spec (id : Nat) :
    ∀ (fuel : Nat) (remaining : Bytes) (s : Session H), 0 < s.remoteMaxFrameSize →
      remaining.length ≤ fuel → 0 < fuel → ∃ n frames, Continues id frames ∧
      writeContinuations id fuel remaining s = some (s.wroteFrames n frames) := by
  intro fuel
  induction fuel with
  | zero => exact fun _ _ _ _ hpos => absurd hpos (Nat.lt_irrefl 0)
  | succ fuel ih =>
    intro remaining s hmax hle _
    by_cases hlast : remaining.drop s.remoteMaxFrameSize = []
    · rw [writeContinuations, if_pos hlast]
      exact ⟨_, _, .last (remaining.take s.remoteMaxFrameSize), rfl⟩
    · have hlen : 0 < (remaining.drop s.remoteMaxFrameSize).length := List.length_pos_iff.mpr hlast
      rw [List.length_drop] at hlen
      obtain ⟨n, frames, hframes, heq⟩ := ih (remaining.drop s.remoteMaxFrameSize)
        (s.writeFrame FT_CONTINUATION 0 id (remaining.take s.remoteMaxFrameSize)) hmax
        (by rw [List.length_drop]; omega) (by omega)
      refine ⟨n, _, .more (remaining.take s.remoteMaxFrameSize) hframes, ?_⟩
      rw [writeContinuations, if_neg hlast, heq, writeFrame_eq, wroteFrames_wroteFrames]
      rfl

theorem writeHeaderBlock_spec (hmax : 0 < s.remoteMaxFrameSize) (id : Nat) (block : Bytes)
    (endStream : Bool) : ∃ n frames, HeaderFrames id endStream frames ∧
      s.writeHeaderBlock id block endStream = some (s.wroteFrames n frames) := by
  by_cases hlast : block.drop s.remoteMaxFrameSize = []
  · rw [writeHeaderBlock, if_pos hlast]
    exact ⟨_, _, .single (block.take s.remoteMaxFrameSize), rfl⟩
  · have hlen : 0 < (block.drop s.remoteMaxFrameSize).length := List.length_pos_iff.mpr hlast
    rw [List.length_drop] at hlen
    obtain ⟨n, frames, hframes, heq⟩ := writeContinuations_spec id block.length
      (block.drop s.remoteMaxFrameSize)
      (s.writeFrame FT_HEADERS (endFlag endStream) id (block.take s.remoteMaxFrameSize)) hmax
      (by rw [List.length_drop]; omega) (by omega)
    refine ⟨n, _, .more (block.take s.remoteMaxFrameSize) hframes, ?_⟩
    rw [writeFrame_eq, wroteFrames_wroteFrames] at heq
    rw [writeHeaderBlock, if_neg hlast]
    exact heq

/-! ## Bodies -/

/-- The session with some frames of a body written. -/
def framed (s : Session H) (id n : Nat) (frames : List Frame) (sent : Nat) : Session H :=
  { (s.wroteFrames n frames).modifyStream id fun stream =>
      { stream with sendWindow := stream.sendWindow - sent } with
    connSendWindow := s.connSendWindow - sent }

theorem framed_framed (id n n' : Nat) (frames frames' : List Frame) (sent sent' : Nat) :
    (s.framed id n frames sent).framed id n' frames' sent' =
      s.framed id n' (frames ++ frames') (sent + sent') := by
  simp only [framed, wroteFrames, modifyStream, ArrayMap.modify_modify, List.map_append,
    List.append_assoc, Nat.cast_add, Int.sub_sub]

theorem framed_zero (id : Nat) : s.framed id s.writeBuffer [] 0 = s := by
  simp only [framed, wroteFrames, modifyStream, List.map_nil, List.append_nil, Nat.cast_zero,
    Int.sub_zero]
  rw [ArrayMap.modify_eq_self fun _ => rfl]

end Reaches

end Session

/-- A stream, of whose body so much was sent. -/
def StreamView.sent (st : StreamView) (n : Nat) (rest : Bytes) (fin : Bool) : StreamView :=
  { (if fin then st.sentEnd else st) with
    window := st.window - n
    unsent := rest }

/-- A view, when so many bytes of the body of a stream were sent. -/
def View.sent (v : View) (id : Nat) (st : StreamView) (n : Nat) (rest : Bytes) (fin : Bool)
    (frames : List Frame) : View :=
  ({ v with conn := v.conn - n }.log (frames.map Event.wrote)).set id (some (st.sent n rest fin))

section Sent
variable (v : View) (id : Nat) (st : StreamView)

theorem View.sent_sent (n n' : Nat) (rest rest' : Bytes) (fin : Bool) (frames frames' : List Frame) :
    (v.sent id st n rest false frames).sent id (st.sent n rest false) n' rest' fin frames' =
      v.sent id st (n + n') rest' fin (frames ++ frames') := by
  have hst : (st.sent n rest false).sent n' rest' fin = st.sent (n + n') rest' fin := by
    cases fin <;> simp [StreamView.sent, StreamView.sentEnd, Int.sub_sub]
  rw [View.sent, hst]
  simp only [View.sent, View.log, View.set, Function.update_idem, List.map_append, List.append_assoc,
    Nat.cast_add, Int.sub_sub]

theorem View.sent_set (n : Nat) (rest rest' : Bytes) (frames : List Frame) :
    (v.sent id st n rest false frames).set id (some { st.sent n rest false with unsent := rest' }) =
      v.sent id st n rest' false frames := by
  simp only [View.sent, View.set_set]
  rfl

theorem View.sent_zero (rest : Bytes) :
    v.sent id st 0 rest false [] = v.set id (some { st with unsent := rest }) := by
  simp [View.sent, View.log, StreamView.sent]

end Sent

namespace Session
variable {H : Type} {s : Session H} {id : Nat} {stream : Stream}

theorem view_framed (hget : s.streams.get? id = some stream) (n sent : Nat) (frames : List Frame) :
    (s.framed id n frames sent).view =
      s.view.sent id stream.view sent stream.unsent false frames := by
  have hwrote : (s.wroteFrames n frames).streams.get? id = some stream := hget
  have hview := view_modifyStream hwrote fun stream =>
    { stream with sendWindow := stream.sendWindow - sent }
  exact congrArg (fun v : View => { v with conn := s.connSendWindow - sent }) hview

theorem get?_framed (hget : s.streams.get? id = some stream) (n sent : Nat) (frames : List Frame) :
    (s.framed id n frames sent).streams.get? id =
      some { stream with sendWindow := stream.sendWindow - sent } := by
  have hwrote : (s.wroteFrames n frames).streams.get? id = some stream := hget
  exact get?_modifyStream_of hwrote _

/-- A frame of a body, as it is written. -/
theorem framed_data (flags : UInt8) (payload : Bytes) (sent : Nat) :
    s.framed id (s.writeBuffer + FrameHeader.BYTE_SIZE + payload.length)
        [⟨FT_DATA, flags, id, payload⟩] sent =
      { (s.writeFrame FT_DATA flags id payload).modifyStream id fun stream =>
          { stream with sendWindow := stream.sendWindow - sent } with
        connSendWindow := ((s.writeFrame FT_DATA flags id payload).modifyStream id fun stream =>
          { stream with sendWindow := stream.sendWindow - sent }).connSendWindow - sent } := rfl

/-- A frame of a body is an action, where the body is what remains of it. -/
theorem dataFrame_reaches (ok : StreamView → Prop) (hears : Frame → Prop) (id : Nat) (v : View)
    (st : StreamView) {remaining : Bytes} {n : Nat}
    {endStream : Bool} (hopen : st.localClosed = false) (hended : st.ended = endStream)
    (hwindow : (n : Int) ≤ max (min st.window v.conn) 0) (hframe : n ≤ v.maxFrame)
    (hle : n ≤ remaining.length) :
    Reaches ok hears (v.set id (some { st with unsent := remaining }))
      (v.sent id st n (remaining.drop n) (decide (remaining.drop n = []) && endStream)
        [⟨FT_DATA, endFlag (decide (remaining.drop n = []) && endStream), id, remaining.take n⟩]) := by
  have htake : (remaining.take n).length = n := by rw [List.length_take, Nat.min_eq_left hle]
  have haction : Action ok hears (v.set id (some { st with unsent := remaining })) _ := .dataFrame
    (v.set id (some { st with unsent := remaining })) id { st with unsent := remaining }
    (remaining.take n) (remaining.drop n) (decide (remaining.drop n = []) && endStream)
    (by rw [View.streams_set, if_pos rfl]) hopen (List.take_append_drop n remaining).symm
    (by rwa [htake]) (by rwa [htake])
    (by rw [Bool.and_eq_true, decide_eq_true_iff, ← hended])
  refine .single ?_
  convert haction using 1
  rw [htake]
  simp only [View.sent, View.set, View.log, Function.update_idem, List.map_cons, List.map_nil]
  congr 3
  cases decide (remaining.drop n = []) && endStream <;> rfl

theorem writeDataWindowed_spec (ok : StreamView → Prop) (hears : Frame → Prop) (id : Nat) (endStream : Bool) (cap : Nat) :
    ∀ (fuel : Nat) (remaining : Bytes) (consumed : Nat) (s : Session H) (stream : Stream),
      0 < s.remoteMaxFrameSize → s.connSendWindow ≤ MAX_WINDOW_SIZE →
      s.streams.get? id = some stream → stream.localClosed = false →
      stream.bodyEnded = endStream → remaining.length < fuel →
      ∃ n frames sent, sent ≤ remaining.length ∧
        writeDataWindowed id endStream cap fuel remaining consumed s =
          some (s.framed id n frames sent, consumed + sent) ∧
        Reaches ok hears (s.view.set id (some { stream.view with unsent := remaining }))
          (s.view.sent id stream.view sent (remaining.drop sent)
            (decide (remaining.drop sent = []) && endStream) frames) := by
  intro fuel
  induction fuel with
  | zero => exact fun _ _ _ _ _ _ _ _ _ hfuel => absurd hfuel (Nat.not_lt_zero _)
  | succ fuel ih =>
    intro remaining consumed s stream hmax hconn hget hopen hended hfuel
    have hstop : remaining ≠ [] → ∃ n frames sent, sent ≤ remaining.length ∧
        some (s, consumed) = some (s.framed id n frames sent, consumed + sent) ∧
        Reaches ok hears (s.view.set id (some { stream.view with unsent := remaining }))
          (s.view.sent id stream.view sent (remaining.drop sent)
            (decide (remaining.drop sent = []) && endStream) frames) := fun hne => by
      refine ⟨s.writeBuffer, [], 0, Nat.zero_le _, by rw [framed_zero, Nat.add_zero], ?_⟩
      rw [List.drop_zero, decide_eq_false hne, Bool.false_and, View.sent_zero]
      exact .refl
    rw [writeDataWindowed, hget]
    simp only [Option.bind_eq_bind, Option.bind_some]
    by_cases hwindow : remaining ≠ [] ∧ (max (min stream.sendWindow s.connSendWindow) 0).toNat = 0
    · rw [if_pos hwindow]
      exact hstop hwindow.1
    rw [if_neg hwindow]
    by_cases hbuffer : remaining ≠ [] ∧ WRITE_BUFFER_HIGH_WATER ≤ s.writeBuffer
    · rw [if_pos hbuffer]
      exact hstop hbuffer.1
    rw [if_neg hbuffer]
    by_cases hcap : cap ≤ consumed ∧ remaining ≠ []
    · rw [if_pos hcap]
      exact hstop hcap.2
    rw [if_neg hcap]
    have hpos : remaining ≠ [] →
        0 < min (min remaining.length s.remoteMaxFrameSize)
          (max (min stream.sendWindow s.connSendWindow) 0).toNat := fun hne => by
      have hlen : 0 < remaining.length := List.length_pos_iff.mpr hne
      have hopened : (max (min stream.sendWindow s.connSendWindow) 0).toNat ≠ 0 :=
        fun h => hwindow ⟨hne, h⟩
      omega
    generalize hchunk : min (min remaining.length s.remoteMaxFrameSize)
      (max (min stream.sendWindow s.connSendWindow) 0).toNat = chunkLen at hpos
    have hle : chunkLen ≤ remaining.length := by omega
    have hframe : chunkLen ≤ s.remoteMaxFrameSize := by omega
    have hfits : (chunkLen : Int) ≤ max (min stream.sendWindow s.connSendWindow) 0 := by omega
    have hflag : (if chunkLen = remaining.length ∧ endStream = true then END_STREAM else 0) =
        endFlag (decide (remaining.drop chunkLen = []) && endStream) := by
      have hlast : chunkLen = remaining.length ↔ remaining.drop chunkLen = [] := by
        rw [List.drop_eq_nil_iff]
        omega
      simp only [endFlag, hlast, Bool.and_eq_true, decide_eq_true_iff]
    have hreach := dataFrame_reaches ok hears id s.view stream.view hopen hended hfits hframe hle
    rw [if_neg (by omega), hflag, ← framed_data]
    by_cases hdone : chunkLen = remaining.length
    · rw [if_pos hdone]
      exact ⟨_, _, chunkLen, hle, rfl, hreach⟩
    rw [if_neg hdone]
    generalize s.writeBuffer + FrameHeader.BYTE_SIZE + (remaining.take chunkLen).length = n
    have hrest : remaining.drop chunkLen ≠ [] := fun h => hdone (by
      rw [List.drop_eq_nil_iff] at h
      omega)
    have hpos := hpos fun h => hrest (by rw [h, List.drop_nil])
    rw [decide_eq_false hrest, Bool.false_and] at hreach ⊢
    generalize (⟨FT_DATA, endFlag false, id, remaining.take chunkLen⟩ : Frame) = frame at hreach ⊢
    obtain ⟨n', frames, sent, hsent, heq, hreach'⟩ := ih (remaining.drop chunkLen)
      (consumed + chunkLen) (s.framed id n [frame] chunkLen) _ hmax (by
        have := hconn
        change s.connSendWindow - _ ≤ _
        omega) (get?_framed hget _ _ _) hopen hended (by
        rw [List.length_drop]
        omega)
    rw [List.length_drop] at hsent
    refine ⟨n', frame :: frames, chunkLen + sent, by omega, ?_, hreach.trans ?_⟩
    · rw [heq, framed_framed, Nat.add_assoc]
      rfl
    · have hset := View.sent_set s.view id stream.view chunkLen
        stream.unsent (remaining.drop chunkLen) [frame]
      have hview := View.sent_sent s.view id stream.view chunkLen sent
        stream.unsent (remaining.drop (chunkLen + sent))
        (decide (remaining.drop (chunkLen + sent) = []) && endStream) [frame] frames
      rw [view_framed hget, List.drop_drop] at hreach'
      exact (hset ▸ hreach').trans (Reaches.of_eq hview)

end Session

end OhosBun.Http2
