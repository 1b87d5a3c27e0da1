/-
# `OhosBun.Http2.FlowControl` — the windows of the server are respected

The windows are what the trace says: what there was at first, and what was accepted since, less the
DATA that was framed (`Flow`).  Each frame of a body fits the windows at its moment, the bodies go out
in order, and the end of a stream is on the frame that completes its body.

A server may answer before it has the body that it was to ask for, and then the stream is ended with
an empty frame; this is the proposition `Early`, which is false where no headers are read.
-/
import OhosBun.Http2.Steps
import OhosBun.Lib.History

namespace OhosBun.Http2

open OhosBun.Lib OhosBun.Lib.History

/-! ## What the trace says -/

namespace Event

/-- An increment of a window that was accepted. -/
def creditOn (id : Nat) : Event → Nat
  | .credited id' increment => if id' = id then increment else 0
  | _ => 0

/-- DATA of any stream. -/
def data : Event → Nat
  | .wrote f => if f.type = FT_DATA then f.payload.length else 0
  | _ => 0

def dataOn (id : Nat) : Event → Bytes
  | .wrote f => if f.type = FT_DATA ∧ f.streamId = id then f.payload else []
  | _ => []

def bodyOn (id : Nat) : Event → Bytes
  | .provided id' bytes => if id' = id then bytes else []
  | _ => []

def endedOn (id : Nat) : Event → Option Bool
  | .ended id' fin => if id' = id then some fin else none
  | _ => none

def initialSize : Event → Option Nat
  | .initialWindow size => some size
  | _ => none

def frameSize : Event → Option Nat
  | .maxFrame size => some size
  | _ => none

/-- A frame behind which the client sends nothing more on the stream. -/
def endsOn (id : Nat) : Event → Bool
  | .wrote f => (f.type = FT_DATA || f.type = FT_HEADERS) && f.streamId = id && f.has END_STREAM
  | _ => false

/-- An event that nothing of a stream depends on. -/
structure Apart (id : Nat) (e : Event) : Prop where
  credit : e.creditOn id = 0
  data : e.dataOn id = []
  body : e.bodyOn id = []
  ended : e.endedOn id = none
  ends : e.endsOn id = false

/-- An event that no window and no body depends on. -/
structure Quiet (e : Event) : Prop where
  apart : ∀ id, e.Apart id
  data : e.data = 0
  initial : e.initialSize = none
  frame : e.frameSize = none
  isData : ∀ f, e = .wrote f → f.type ≠ FT_DATA

theorem quiet_received (f : Frame) : Quiet (.received f) :=
  ⟨fun _ => ⟨rfl, rfl, rfl, rfl, rfl⟩, rfl, rfl, rfl, by simp⟩

theorem apart_wrote {f : Frame} {id : Nat} (h : f.streamId ≠ id) : Apart id (.wrote f) :=
  ⟨rfl, if_neg fun h' => h h'.2, rfl, rfl, by simp [endsOn, h]⟩

theorem quiet_preface : Quiet .preface := ⟨fun _ => ⟨rfl, rfl, rfl, rfl, rfl⟩, rfl, rfl, rfl, by simp⟩

theorem quiet_wrote {f : Frame} (hdata : f.type ≠ FT_DATA) (hheaders : f.type ≠ FT_HEADERS) :
    Quiet (.wrote f) where
  apart id := ⟨rfl, if_neg fun h => hdata h.1, rfl, rfl, by simp [endsOn, hdata, hheaders]⟩
  data := if_neg hdata
  initial := rfl
  frame := rfl
  isData _ heq := (Event.wrote.inj heq) ▸ hdata

end Event

/-- The body of a stream, as far as it was framed. -/
def sent (id : Nat) (t : List Event) : Bytes := t.flatMap (Event.dataOn id)

/-- The body of a stream, as far as it is there. -/
def body (id : Nat) (t : List Event) : Bytes := t.flatMap (Event.bodyOn id)

def bodyEnded (id : Nat) (t : List Event) : Bool := latest (Event.endedOn id) false t

def initialWindow (t : List Event) : Nat := latest Event.initialSize DEFAULT_WINDOW_SIZE t

def maxFrameSize (t : List Event) : Nat := latest Event.frameSize DEFAULT_MAX_FRAME_SIZE t

def connWindow (t : List Event) : Int :=
  DEFAULT_WINDOW_SIZE + total (Event.creditOn 0) t - total Event.data t

def streamWindow (id : Nat) (t : List Event) : Int :=
  initialWindow t + total (Event.creditOn id) t - (sent id t).length

/-- A frame of a body fits both windows, where it is not empty, and it is not too large. -/
def Fits (t : List Event) : Event → Prop
  | .wrote f => f.type = FT_DATA →
      (f.payload.length : Int) ≤ max (connWindow t) 0 ∧
      (f.payload.length : Int) ≤ max (streamWindow f.streamId t) 0 ∧ f.payload.length ≤ maxFrameSize t
  | _ => True

/-- A frame of a body ends the stream where it completes the body, and the stream has not ended. -/
def Completes (t : List Event) : Event → Prop
  | .wrote f => f.type = FT_DATA →
      (f.has END_STREAM = true ↔
        bodyEnded f.streamId t = true ∧ sent f.streamId t ++ f.payload = body f.streamId t) ∧
      ∀ e ∈ t, e.endsOn f.streamId = false
  | _ => True

/-! ## Events without an effect -/

section Apart
variable {t events : List Event} {id : Nat}

theorem sent_append : sent id (t ++ events) = sent id t ++ sent id events := List.flatMap_append

theorem body_append : body id (t ++ events) = body id t ++ body id events := List.flatMap_append

section Stream
variable (h : ∀ e ∈ events, e.Apart id)
include h

theorem sent_eq_nil : sent id events = [] := List.flatMap_eq_nil_iff.mpr fun e he => (h e he).data

theorem body_eq_nil : body id events = [] := List.flatMap_eq_nil_iff.mpr fun e he => (h e he).body

theorem credits_eq_zero : total (Event.creditOn id) events = 0 := total_eq_zero fun e he => (h e he).credit

theorem sent_apart : sent id (t ++ events) = sent id t := by
  rw [sent_append, sent_eq_nil h, List.append_nil]

theorem body_apart : body id (t ++ events) = body id t := by
  rw [body_append, body_eq_nil h, List.append_nil]

theorem bodyEnded_apart : bodyEnded id (t ++ events) = bodyEnded id t :=
  latest_append_of_none fun e he => (h e he).ended

end Stream

variable (h : ∀ e ∈ events, e.Quiet)
include h

theorem initialWindow_quiet : initialWindow (t ++ events) = initialWindow t :=
  latest_append_of_none fun e he => (h e he).initial

theorem maxFrameSize_quiet : maxFrameSize (t ++ events) = maxFrameSize t :=
  latest_append_of_none fun e he => (h e he).frame

theorem connWindow_quiet : connWindow (t ++ events) = connWindow t := by
  rw [connWindow, total_append, total_append, credits_eq_zero fun e he => (h e he).apart 0,
    total_eq_zero fun e he => (h e he).data]
  rfl

theorem streamWindow_quiet : streamWindow id (t ++ events) = streamWindow id t := by
  have happart : ∀ e ∈ events, e.Apart id := fun e he => (h e he).apart id
  rw [streamWindow, initialWindow_quiet h, sent_apart happart, total_append, credits_eq_zero happart]
  rfl

omit h

section Concat
variable (id) (e : Event)

theorem sent_concat : sent id (t ++ [e]) = sent id t ++ e.dataOn id := by
  rw [sent_append]
  simp only [sent, List.flatMap_cons, List.flatMap_nil, List.append_nil]

theorem body_concat : body id (t ++ [e]) = body id t ++ e.bodyOn id := by
  rw [body_append]
  simp only [body, List.flatMap_cons, List.flatMap_nil, List.append_nil]

theorem bodyEnded_concat : bodyEnded id (t ++ [e]) = (e.endedOn id).getD (bodyEnded id t) :=
  latest_concat _ _ _ _

theorem initialWindow_concat : initialWindow (t ++ [e]) = e.initialSize.getD (initialWindow t) :=
  latest_concat _ _ _ _

theorem maxFrameSize_concat : maxFrameSize (t ++ [e]) = e.frameSize.getD (maxFrameSize t) :=
  latest_concat _ _ _ _

theorem connWindow_concat : connWindow (t ++ [e]) = connWindow t + e.creditOn 0 - e.data := by
  rw [connWindow, connWindow, total_append, total_append, total_singleton, total_singleton]
  omega

theorem streamWindow_concat : streamWindow id (t ++ [e]) =
    streamWindow id t + (e.initialSize.getD (initialWindow t) - initialWindow t) + e.creditOn id -
      (e.dataOn id).length := by
  rw [streamWindow, streamWindow, initialWindow_concat, total_append, total_singleton, sent_concat,
    List.length_append]
  omega

end Concat

end Apart

/-! ## The invariant -/

structure Flow (Early : Prop) (v : View) : Prop where
  conn : v.conn = connWindow v.trace
  initial : v.initial = initialWindow v.trace
  maxFrame : v.maxFrame = maxFrameSize v.trace
  window : ∀ id st, v.streams id = some st → st.window = streamWindow id v.trace
  body : ∀ id st, v.streams id = some st → body id v.trace = sent id v.trace ++ st.unsent
  ended : ∀ id st, v.streams id = some st → st.ended = bodyEnded id v.trace
  isPrefix : ∀ id, sent id v.trace <+: Http2.body id v.trace
  opened : ∀ id, v.nextId ≤ id → ∀ e ∈ v.trace, e.Apart id
  fits : Always Fits v.trace
  closed : ¬Early → ∀ id st, v.streams id = some st → ∀ e ∈ v.trace, e.endsOn id = true →
    st.localClosed = true
  completes : ¬Early → Always Completes v.trace

section Flow
variable {Early : Prop} {v v' : View} {events : List Event}

theorem always_quiet {P : List Event → Event → Prop} {t : List Event} (ht : Always P t)
    (hevents : ∀ e ∈ events, e.Quiet) (h : ∀ e, e.Quiet → ∀ t, P t e) : Always P (t ++ events) :=
  always_append.2 ⟨ht, fun before e after heq =>
    h e (hevents e (by rw [heq]; exact List.mem_append_right before List.mem_cons_self)) _⟩

variable {e : Event} {id : Nat} {st : StreamView}

theorem Event.Quiet.fits (h : e.Quiet) (t : List Event) : Fits t e := by
  cases e with
  | wrote f => exact fun hf => absurd hf (h.isData f rfl)
  | _ => exact trivial

theorem Event.Quiet.completes (h : e.Quiet) (t : List Event) : Completes t e := by
  cases e with
  | wrote f => exact fun hf => absurd hf (h.isData f rfl)
  | _ => exact trivial

/-- A stream is as it was, as to what it sends. -/
def Kept (v : View) (id : Nat) (st' : StreamView) : Prop :=
  ∃ st, v.streams id = some st ∧ st'.window = st.window ∧ st'.unsent = st.unsent ∧
    st'.ended = st.ended ∧ (st.localClosed = true → st'.localClosed = true)

/-- Quiet events, and changes of the streams that are not about what they send. -/
theorem Flow.quiet (hv : Flow Early v) (hconn : v'.conn = v.conn) (hinitial : v'.initial = v.initial)
    (hmax : v'.maxFrame = v.maxFrame) (hnext : v.nextId ≤ v'.nextId)
    (htrace : v'.trace = v.trace ++ events) (hevents : ∀ e ∈ events, e.Quiet)
    (hstreams : ∀ id st', v'.streams id = some st' → Kept v id st') : Flow Early v' := by
  have happart : ∀ id, ∀ e ∈ events, e.Apart id := fun id e he => (hevents e he).apart id
  constructor
  case conn => rw [hconn, hv.conn, htrace, connWindow_quiet hevents]
  case initial => rw [hinitial, hv.initial, htrace, initialWindow_quiet hevents]
  case maxFrame => rw [hmax, hv.maxFrame, htrace, maxFrameSize_quiet hevents]
  case window =>
    intro id st' hst'
    obtain ⟨st, hst, hwindow, -⟩ := hstreams id st' hst'
    rw [hwindow, hv.window id st hst, htrace, streamWindow_quiet hevents]
  case body =>
    intro id st' hst'
    obtain ⟨st, hst, -, hunsent, -⟩ := hstreams id st' hst'
    rw [hunsent, htrace, body_apart (happart id), sent_apart (happart id), hv.body id st hst]
  case ended =>
    intro id st' hst'
    obtain ⟨st, hst, -, -, hended, -⟩ := hstreams id st' hst'
    rw [hended, htrace, bodyEnded_apart (happart id), hv.ended id st hst]
  case isPrefix =>
    intro id
    rw [htrace, body_apart (happart id), sent_apart (happart id)]
    exact hv.isPrefix id
  case opened =>
    intro id hid e he
    rw [htrace] at he
    rcases List.mem_append.mp he with he | he
    · exact hv.opened id (hnext.trans hid) e he
    · exact happart id e he
  case fits =>
    rw [htrace]
    exact always_quiet hv.fits hevents fun e he t => he.fits t
  case closed =>
    intro hearly id st' hst' e he hends
    obtain ⟨st, hst, -, -, -, hclosed⟩ := hstreams id st' hst'
    rw [htrace] at he
    rcases List.mem_append.mp he with he | he
    · exact hclosed (hv.closed hearly id st hst e he hends)
    · exact absurd ((happart id e he).ends.symm.trans hends) (by simp)
  case completes =>
    intro hearly
    rw [htrace]
    exact always_quiet (hv.completes hearly) hevents fun e he t => he.completes t

/-- One event of one stream. -/
theorem Flow.concat (st' : StreamView) (hv : Flow Early v) (hst : v.streams id = some st)
    (hid : id < v.nextId) (hconn : v'.conn = v.conn - e.data) (hinitial : v'.initial = v.initial)
    (hmax : v'.maxFrame = v.maxFrame) (hnext : v'.nextId = v.nextId) (htrace : v'.trace = v.trace ++ [e])
    (hstreams : v'.streams = (v.set id (some st')).streams) (hother : ∀ id', id' ≠ id → e.Apart id')
    (hsize : e.initialSize = none) (hframe : e.frameSize = none) (hcredit : e.creditOn 0 = 0)
    (hwindow : st'.window = st.window + e.creditOn id - (e.dataOn id).length)
    (hbody : st.unsent ++ e.bodyOn id = e.dataOn id ++ st'.unsent)
    (hended : st'.ended = (e.endedOn id).getD st.ended)
    (hclosed : st.localClosed = true → st'.localClosed = true)
    (hends : e.endsOn id = true → st'.localClosed = true) (hfits : Fits v.trace e)
    (hcompletes : ¬Early → Completes v.trace e) : Flow Early v' := by
  have hbody' : Http2.body id (v.trace ++ [e]) = sent id (v.trace ++ [e]) ++ st'.unsent := by
    rw [body_concat, sent_concat, hv.body id st hst, List.append_assoc, hbody, List.append_assoc]
  have hsame : ∀ id', id' ≠ id → ∀ e' ∈ [e], e'.Apart id' := fun id' hne e' he' => by
    rw [List.mem_singleton.mp he']
    exact hother id' hne
  have hcases : ∀ {P : Nat → StreamView → Prop}, P id st' →
      (∀ id' st, id' ≠ id → v.streams id' = some st → P id' st) →
      ∀ id' st, v'.streams id' = some st → P id' st := by
    intro P hP hPv id' st'' hst''
    rw [hstreams, View.streams_set] at hst''
    split_ifs at hst'' with heq
    · rw [heq, ← Option.some.inj hst'']
      exact hP
    · exact hPv id' st'' heq hst''
  constructor
  case conn => rw [hconn, hv.conn, htrace, connWindow_concat, hcredit, Nat.cast_zero, Int.add_zero]
  case initial => rw [hinitial, hv.initial, htrace, initialWindow_concat, hsize, Option.getD_none]
  case maxFrame => rw [hmax, hv.maxFrame, htrace, maxFrameSize_concat, hframe, Option.getD_none]
  case window =>
    refine hcases ?_ fun id' st'' hne hst'' => ?_
    · rw [htrace, streamWindow_concat, hsize, hwindow, hv.window id st hst, Option.getD_none, Int.sub_self,
        Int.add_zero]
    · rw [htrace, streamWindow_concat, hsize, hv.window id' st'' hst'', Option.getD_none, Int.sub_self,
        Int.add_zero, (hother id' hne).credit, (hother id' hne).data, List.length_nil, Nat.cast_zero,
        Int.add_zero, Int.sub_zero]
  case body =>
    rw [htrace]
    refine hcases hbody' fun id' st'' hne hst'' => ?_
    rw [body_apart (hsame id' hne), sent_apart (hsame id' hne), hv.body id' st'' hst'']
  case ended =>
    rw [htrace]
    refine hcases ?_ fun id' st'' hne hst'' => ?_
    · rw [hended, bodyEnded_concat, hv.ended id st hst]
    · rw [bodyEnded_apart (hsame id' hne), hv.ended id' st'' hst'']
  case isPrefix =>
    intro id'
    rw [htrace]
    by_cases hne : id' = id
    · rw [hne, hbody']
      exact List.prefix_append _ _
    · rw [body_apart (hsame id' hne), sent_apart (hsame id' hne)]
      exact hv.isPrefix id'
  case opened =>
    intro id' hle e' he'
    rw [hnext] at hle
    rw [htrace] at he'
    rcases List.mem_append.mp he' with he' | he'
    · exact hv.opened id' hle e' he'
    · exact hsame id' (hid.trans_le hle).ne' e' he'
  case fits =>
    rw [htrace]
    exact always_concat.2 ⟨hv.fits, hfits⟩
  case closed =>
    intro hearly
    rw [htrace]
    refine hcases (fun e' he' hends' => ?_) fun id' st'' hne hst'' e' he' hends' => ?_
    · rcases List.mem_append.mp he' with he' | he'
      · exact hclosed (hv.closed hearly id st hst e' he' hends')
      · exact hends (List.mem_singleton.mp he' ▸ hends')
    · rcases List.mem_append.mp he' with he' | he'
      · exact hv.closed hearly id' st'' hst'' e' he' hends'
      · exact absurd ((hsame id' hne e' he').ends.symm.trans hends') (by simp)
  case completes =>
    intro hearly
    rw [htrace]
    exact always_concat.2 ⟨hv.completes hearly, hcompletes hearly⟩

/-- A stream that is opened, of which nothing was sent. -/
theorem Flow.openStream (hv : Flow Early v) (awaiting : Bool) : Flow Early ({ v with nextId := v.nextId + 2 }.set v.nextId
      (some
        { state := .open
          rstDone := false
          awaiting
          answered := false
          unacked := 0
          window := v.initial
          unsent := []
          ended := false })) := by
  have happart := hv.opened v.nextId (le_refl _)
  have hended : bodyEnded v.nextId v.trace = false := by
    have h := bodyEnded_apart (t := []) happart
    rwa [List.nil_append] at h
  have hwindow : streamWindow v.nextId v.trace = v.initial := by
    rw [streamWindow, credits_eq_zero happart, sent_eq_nil happart, ← hv.initial]
    rfl
  constructor
  case conn => exact hv.conn
  case initial => exact hv.initial
  case maxFrame => exact hv.maxFrame
  case window =>
    refine View.forall_set hv.window fun st hst => ?_
    obtain rfl := Option.some.inj hst
    exact hwindow.symm
  case body =>
    refine View.forall_set hv.body fun st hst => ?_
    obtain rfl := Option.some.inj hst
    exact (body_eq_nil happart).trans (by rw [List.append_nil]; exact (sent_eq_nil happart).symm)
  case ended =>
    refine View.forall_set hv.ended fun st hst => ?_
    obtain rfl := Option.some.inj hst
    exact hended.symm
  case isPrefix => exact hv.isPrefix
  case opened => exact fun id hle e he => hv.opened id (Nat.le_of_add_right_le hle) e he
  case fits => exact hv.fits
  case closed =>
    intro hearly
    refine View.forall_set (hv.closed hearly) fun st hst e he hends => ?_
    exact absurd ((happart e he).ends.symm.trans hends) (by simp)
  case completes => exact hv.completes

/-- One event that no body depends on, with the windows changed as it says. -/
theorem Flow.windows (hv : Flow Early v) (hsound : v.Sound) (hconn : v'.conn = v.conn + e.creditOn 0)
    (hinitial : v'.initial = e.initialSize.getD v.initial)
    (hmax : v'.maxFrame = e.frameSize.getD v.maxFrame) (hnext : v'.nextId = v.nextId)
    (htrace : v'.trace = v.trace ++ [e]) (hdata : e.data = 0) (happart : ∀ id, id ≠ 0 → e.Apart id)
    (hzero : e.dataOn 0 = [] ∧ e.bodyOn 0 = [])
    (hstreams : ∀ id st', v'.streams id = some st' → ∃ st, v.streams id = some st ∧
      st'.window = st.window + (v'.initial - v.initial) ∧ st'.unsent = st.unsent ∧
      st'.ended = st.ended ∧ (st.localClosed = true → st'.localClosed = true)) (hfits : Fits v.trace e)
    (hcompletes : Completes v.trace e) : Flow Early v' := by
  have hone : ∀ id, id ≠ 0 → ∀ e' ∈ [e], e'.Apart id := fun id hid e' he' => by
    rw [List.mem_singleton.mp he']
    exact happart id hid
  constructor
  case conn => rw [hconn, hv.conn, htrace, connWindow_concat, hdata, Nat.cast_zero, Int.sub_zero]
  case initial => rw [hinitial, hv.initial, htrace, initialWindow_concat]
  case maxFrame => rw [hmax, hv.maxFrame, htrace, maxFrameSize_concat]
  case window =>
    intro id st' hst'
    obtain ⟨st, hst, hwindow, -⟩ := hstreams id st' hst'
    have hid := happart id (hsound.opened id st hst).1
    rw [hwindow, htrace, streamWindow_concat, hid.credit, hid.data, hv.window id st hst, hinitial,
      hv.initial, List.length_nil, Nat.cast_zero, Int.add_zero, Int.sub_zero]
  case body =>
    intro id st' hst'
    obtain ⟨st, hst, -, hunsent, -⟩ := hstreams id st' hst'
    have hid := hone id (hsound.opened id st hst).1
    rw [hunsent, htrace, body_apart hid, sent_apart hid, hv.body id st hst]
  case ended =>
    intro id st' hst'
    obtain ⟨st, hst, -, -, hended, -⟩ := hstreams id st' hst'
    rw [hended, htrace, bodyEnded_apart (hone id (hsound.opened id st hst).1), hv.ended id st hst]
  case isPrefix =>
    intro id
    rw [htrace, sent_concat, body_concat]
    rcases Nat.eq_zero_or_pos id with rfl | hpos
    · rw [hzero.1, hzero.2, List.append_nil, List.append_nil]
      exact hv.isPrefix 0
    · rw [(happart id hpos.ne').data, (happart id hpos.ne').body, List.append_nil, List.append_nil]
      exact hv.isPrefix id
  case opened =>
    intro id hle e' he'
    rw [hnext] at hle
    rw [htrace] at he'
    rcases List.mem_append.mp he' with he' | he'
    · exact hv.opened id hle e' he'
    · exact hone id (hsound.nextId_pos.trans_le hle).ne' e' he'
  case fits =>
    rw [htrace]
    exact always_concat.2 ⟨hv.fits, hfits⟩
  case closed =>
    intro hearly id st' hst' e' he' hends
    obtain ⟨st, hst, -, -, -, hclosed⟩ := hstreams id st' hst'
    rw [htrace] at he'
    rcases List.mem_append.mp he' with he' | he'
    · exact hclosed (hv.closed hearly id st hst e' he' hends)
    · exact absurd ((hone id (hsound.opened id st hst).1 e' he').ends.symm.trans hends) (by simp)
  case completes =>
    intro hearly
    rw [htrace]
    exact always_concat.2 ⟨hv.completes hearly, hcompletes⟩

theorem Flow.provided (hv : Flow Early v) (hst : v.streams id = some st) (hid : id ≠ 0 ∧ id < v.nextId)
    (bytes : Bytes) :
    Flow Early ((v.set id (some { st with unsent := st.unsent ++ bytes })).log [.provided id bytes]) :=
  hv.concat _ (e := .provided id bytes) hst hid.2 (Int.sub_zero _).symm rfl rfl rfl rfl rfl
    (fun id' hne => ⟨rfl, rfl, if_neg hne.symm, rfl, rfl⟩) rfl rfl rfl
    (by simp [Event.creditOn, Event.dataOn]) (by simp [Event.bodyOn, Event.dataOn]) rfl (fun h => h)
    (by intros; contradiction) trivial fun _ => trivial

theorem Flow.bodyEnded (hv : Flow Early v) (hst : v.streams id = some st) (hid : id ≠ 0 ∧ id < v.nextId)
    (ended : Bool) :
    Flow Early ((v.set id (some { st with ended })).log [.ended id ended]) :=
  hv.concat _ (e := .ended id ended) hst hid.2 (Int.sub_zero _).symm rfl rfl rfl rfl rfl
    (fun id' hne => ⟨rfl, rfl, rfl, if_neg hne.symm, rfl⟩) rfl rfl rfl
    (by simp [Event.creditOn, Event.dataOn]) (by simp [Event.bodyOn, Event.dataOn])
    (by simp [Event.endedOn]) (fun h => h) (by intros; contradiction) trivial fun _ => trivial

/-- The stream that a request opens, with its body as far as it is there. -/
def openedStream (v : View) (awaiting : Bool) (bytes : Bytes) (ended : Bool) : StreamView where
  state := .open
  rstDone := false
  awaiting
  answered := false
  unacked := 0
  window := v.initial
  unsent := bytes
  ended

theorem Flow.openBody (hv : Flow Early v) (hsound : v.Sound) (awaiting : Bool) (bytes : Bytes)
    (ended : Bool) :
    Flow Early (({ v with nextId := v.nextId + 2 }.set v.nextId
      (some (openedStream v awaiting bytes ended))).log (bodyEvents v.nextId bytes ended)) := by
  have hid : v.nextId ≠ 0 ∧ v.nextId < v.nextId + 2 := ⟨hsound.nextId_pos.ne', by omega⟩
  have hprovided := (hv.openStream awaiting).provided (View.streams_set.trans (if_pos rfl)) hid bytes
  have hended := hprovided.bodyEnded (View.streams_set.trans (if_pos rfl)) hid ended
  simp only [View.log, View.set, Function.update_idem, List.append_assoc, List.cons_append,
    List.nil_append] at hended
  exact hended

theorem Flow.action {hears : Frame → Prop} (hv : Flow Early v) (hsound : v.Sound)
    (h : Action (fun _ => Early) hears v v') : Flow Early v' := by
  have hsame : ∀ id st', v.streams id = some st' → Kept v id st' :=
    fun id st' h => ⟨st', h, rfl, rfl, rfl, fun h => h⟩
  have hset : ∀ {id st st'}, v.streams id = some st → st'.window = st.window → st'.unsent = st.unsent →
      st'.ended = st.ended → (st.localClosed = true → st'.localClosed = true) →
      ∀ id' st'', (v.set id (some st')).streams id' = some st'' → Kept v id' st'' :=
    fun hst hwindow hunsent hended hclosed => View.forall_set hsame fun st'' heq =>
      Option.some.inj heq ▸ ⟨_, hst, hwindow, hunsent, hended, hclosed⟩
  have hquiet : ∀ {f : Frame}, f.type ≠ FT_DATA → f.type ≠ FT_HEADERS → ∀ e ∈ [Event.wrote f], e.Quiet :=
    fun hdata hheaders => List.forall_mem_singleton.mpr (Event.quiet_wrote hdata hheaders)
  have hread : ∀ f : Frame, ∀ e ∈ [Event.received f], e.Quiet :=
    fun f => List.forall_mem_singleton.mpr (Event.quiet_received f)
  cases h with
  | received f => exact hv.quiet rfl rfl rfl le_rfl rfl (hread f) hsame
  | reset f _ _ st hst =>
    exact hv.quiet rfl rfl rfl le_rfl rfl (hread f) (hset hst rfl rfl rfl fun _ => rfl)
  | dataIgnored f => exact hv.quiet rfl rfl rfl le_rfl rfl (hread f) hsame
  | dataTaken f _ _ st hst =>
    exact hv.quiet rfl rfl rfl le_rfl rfl (hread f) (hset hst rfl rfl rfl fun h => h)
  | control f hf =>
    refine hv.quiet rfl rfl rfl le_rfl rfl (hquiet ?_ ?_) hsame
    · rcases hf with h | h | h <;> rw [h] <;> decide
    · rcases hf with h | h | h <;> rw [h] <;> decide
  | preface =>
    refine hv.quiet rfl rfl rfl le_rfl rfl ?_ hsame
    refine List.forall_mem_cons.mpr ⟨Event.quiet_preface, List.forall_mem_cons.mpr ⟨?_, ?_⟩⟩
    · exact Event.quiet_wrote (by decide) (by decide)
    · exact hquiet (f := windowUpdate 0 _) (by decide : FT_WINDOW_UPDATE ≠ FT_DATA)
        (by decide : FT_WINDOW_UPDATE ≠ FT_HEADERS)
  | replenish h =>
    exact hv.quiet rfl rfl rfl le_rfl rfl (hquiet (by decide : FT_WINDOW_UPDATE ≠ FT_DATA)
      (by decide : FT_WINDOW_UPDATE ≠ FT_HEADERS)) hsame
  | replenishStream id st hst hopen h =>
    exact hv.quiet rfl rfl rfl le_rfl rfl (hquiet (by decide : FT_WINDOW_UPDATE ≠ FT_DATA)
      (by decide : FT_WINDOW_UPDATE ≠ FT_HEADERS)) (hset hst rfl rfl rfl fun h => h)
  | rst id code st hst =>
    exact hv.quiet rfl rfl rfl le_rfl rfl (hquiet (by decide : FT_RST_STREAM ≠ FT_DATA)
      (by decide : FT_RST_STREAM ≠ FT_HEADERS)) (hset hst rfl rfl rfl fun _ => rfl)
  | remove id =>
    exact hv.quiet rfl rfl rfl le_rfl (List.append_nil _).symm (by simp) (View.forall_set hsame (by simp))
  | heard id st st' hst hrst hclosed hstate hunacked hwindow hunsent hended =>
    exact hv.quiet rfl rfl rfl le_rfl (List.append_nil _).symm (by simp)
      (hset hst hwindow hunsent hended fun h => hclosed.trans h)
  | provided id bytes st hst => exact hv.provided hst (hsound.opened id st hst) bytes
  | ended id ended st hst => exact hv.bodyEnded hst (hsound.opened id st hst) ended
  | creditStream id increment st hid hst h =>
    exact hv.concat _ (e := .credited id increment) hst (hsound.opened id st hst).2 (Int.sub_zero _).symm
      rfl rfl rfl rfl rfl (fun id' hne => ⟨if_neg hne.symm, rfl, rfl, rfl, rfl⟩) rfl rfl (if_neg hid)
      (by simp [Event.creditOn, Event.dataOn]) (by simp [Event.bodyOn, Event.dataOn]) rfl (fun h => h)
      (by intros; contradiction) trivial fun _ => trivial
  | halfClose id st hst hok =>
    exact hv.concat _ (e := .wrote ⟨FT_DATA, END_STREAM, id, []⟩) hst (hsound.opened id st hst).2
      (Int.sub_zero _).symm rfl rfl rfl rfl rfl (fun id' hne => Event.apart_wrote hne.symm) rfl rfl rfl
      (by simp [Event.creditOn, Event.dataOn, StreamView.sentEnd])
      (by simp [Event.bodyOn, Event.dataOn, StreamView.sentEnd]) rfl
      (fun _ => st.localClosed_sentEnd) (fun _ => st.localClosed_sentEnd)
      (fun _ => ⟨le_max_right _ _, le_max_right _ _, Nat.zero_le _⟩) fun hearly => absurd hok hearly
  | dataFrame id st payload rest endStream hst hopen hunsent hwindow hframe hend =>
    have hdata : (Event.wrote ⟨FT_DATA, endFlag endStream, id, payload⟩).dataOn id = payload :=
      if_pos ⟨rfl, rfl⟩
    have hconn := hv.conn
    have hwin := hv.window id st hst
    have hsize := hv.maxFrame
    have hbody := hv.body id st hst
    rw [hunsent, ← List.append_assoc] at hbody
    refine hv.concat _ (e := .wrote ⟨FT_DATA, endFlag endStream, id, payload⟩) hst
      (hsound.opened id st hst).2 rfl rfl rfl rfl rfl rfl (fun id' hne => Event.apart_wrote hne.symm) rfl
      rfl rfl ?_ ?_ ?_ (fun h => absurd (hopen.symm.trans h) (by simp)) ?_ (fun _ => ⟨?_, ?_, ?_⟩)
      fun hearly _ => ⟨?_, fun e he => ?_⟩
    · rw [hdata]
      exact congrArg (· - (payload.length : Int)) (Int.add_zero _).symm
    · rw [hdata, hunsent]
      exact List.append_nil _
    · cases endStream <;> rfl
    · intro hends
      rw [Event.endsOn, has_endFlag] at hends
      have hfin : endStream = true := (Bool.and_eq_true_iff.mp hends).2
      rw [hfin]
      exact st.localClosed_sentEnd
    · dsimp only
      omega
    · dsimp only
      omega
    · dsimp only
      omega
    · rw [has_endFlag, hend, ← hv.ended id st hst, hbody]
      constructor
      · rintro ⟨hrest, hended⟩
        exact ⟨hended, by rw [hrest, List.append_nil]⟩
      · rintro ⟨hended, heq⟩
        exact ⟨List.self_eq_append_right.mp heq, hended⟩
    · rw [← Bool.not_eq_true]
      exact fun hends => absurd (hopen.symm.trans (hv.closed hearly id st hst e he hends)) (by simp)
  | credit increment h =>
    exact hv.windows (e := .credited 0 increment) hsound rfl rfl rfl rfl rfl rfl
      (fun id hid => ⟨if_neg hid.symm, rfl, rfl, rfl, rfl⟩) ⟨rfl, rfl⟩
      (fun id st hst => ⟨st, hst, by simp [View.log], rfl, rfl, fun h => h⟩) trivial trivial
  | initialWindow size hsize h =>
    refine hv.windows (e := .initialWindow size) hsound (Int.add_zero _).symm rfl rfl rfl rfl rfl
      (fun id hid => ⟨rfl, rfl, rfl, rfl, rfl⟩) ⟨rfl, rfl⟩ (fun id st hst => ?_) trivial trivial
    obtain ⟨st, hst', rfl⟩ := Option.map_eq_some_iff.mp hst
    exact ⟨st, hst', rfl, rfl, rfl, fun h => h⟩
  | maxFrame size hge hle =>
    exact hv.windows (e := .maxFrame size) hsound (Int.add_zero _).symm rfl rfl rfl rfl rfl
      (fun id hid => ⟨rfl, rfl, rfl, rfl, rfl⟩) ⟨rfl, rfl⟩
      (fun id st hst => ⟨st, hst, by simp [View.log], rfl, rfl, fun h => h⟩) trivial trivial
  | skip bytes ended hid hprefaced =>
    have hnew : v.streams v.nextId = none := by
      refine Option.eq_none_iff_forall_ne_some.mpr fun st hst => ?_
      exact absurd (hsound.opened v.nextId st hst).2 (lt_irrefl _)
    refine (hv.openBody hsound false bytes ended).quiet rfl rfl rfl le_rfl (List.append_nil _).symm (by simp)
      fun id st hst => ⟨st, ?_, rfl, rfl, rfl, fun h => h⟩
    have hne : id ≠ v.nextId := by
      rintro rfl
      exact absurd (hnew.symm.trans hst) (by simp)
    exact (View.streams_set.trans (if_neg hne)).trans hst
  | request bytes ended awaiting endStream frames hframes hid hend hprefaced =>
    have hbody := hv.openBody hsound awaiting bytes ended
    obtain ⟨f, rest, rfl, htype, hstream, hends, hrest⟩ := hframes.exists_cons
    have hdata : f.type ≠ FT_DATA := by
      rw [htype]
      decide
    have hnone : ∀ id, (Event.wrote f).dataOn id = [] := fun id => if_neg fun h => hdata h.1
    have hheaders : Flow Early (({ v with nextId := v.nextId + 2 }.set v.nextId
        (some { openedStream v awaiting bytes ended with
          state := if endStream then .halfClosedLocal else .open })).log
        (bodyEvents v.nextId bytes ended ++ [Event.wrote f])) := by
      refine hbody.concat { openedStream v awaiting bytes ended with
        state := if endStream then .halfClosedLocal else .open } (e := .wrote f) (View.streams_set.trans (if_pos rfl))
        (Nat.lt_add_of_pos_right Nat.zero_lt_two : v.nextId < v.nextId + 2) ?_ rfl rfl rfl
        (List.append_assoc _ _ _).symm ?_ (fun id' hne => Event.apart_wrote (hstream ▸ hne.symm)) rfl rfl
        rfl ?_ ?_ rfl (by intros; contradiction) ?_ (fun h => absurd h hdata) (fun _ h => absurd h hdata)
      · rw [show (Event.wrote f).data = 0 from if_neg hdata]
        exact (Int.sub_zero _).symm
      · exact (congrArg View.streams (View.set_set (some (openedStream v awaiting bytes ended)))).symm
      · rw [hnone]
        simp [Event.creditOn]
      · rw [hnone]
        simp [Event.bodyOn]
      · intro hf
        have hfin : endStream = true := hends.symm.trans (Bool.and_eq_true_iff.mp hf).2
        rw [if_pos hfin]
        rfl
    refine @Flow.quiet _ _ _ (rest.map Event.wrote) hheaders rfl rfl rfl le_rfl ?_ ?_
      fun id st hst =>
      ⟨st, hst, rfl, rfl, rfl, fun h => h⟩
    · simp only [View.log, View.set, List.map_cons, List.append_assoc, List.cons_append,
        List.nil_append]
    · intro e he
      obtain ⟨g, hg, rfl⟩ := List.mem_map.mp he
      refine Event.quiet_wrote ?_ ?_
      · rw [(hrest g hg).1]
        decide
      · rw [(hrest g hg).1]
        decide

end Flow

/-! ## Runs -/

/-- The operation reads a part of a header block. -/
def Op.ReadsHeaders : Op → Prop
  | .dispatch f => f.type = FT_HEADERS ∨ f.type = FT_CONTINUATION
  | _ => False

instance : DecidablePred Op.ReadsHeaders := fun op =>
  match op with
  | .dispatch f => inferInstanceAs (Decidable (f.type = FT_HEADERS ∨ f.type = FT_CONTINUATION))
  | .attach _ | .provide _ _ | .streamRequestBody _ _ | .drainSendBody _ _ | .drainSendBodies | .flush _
  | .deliver _ _ | .abort _ | .replenishWindow _ | .failAll _ _ => .isFalse id

namespace Session
variable {H : Type} (hpack : Lshpack H) {s : Session H} {f : Frame}

theorem type_of_answered? {stream : Stream} (h : s.answered? hpack f = some stream) :
    f.type = FT_HEADERS ∨ f.type = FT_CONTINUATION := by
  by_contra hother
  rw [not_or] at hother
  have hnone : s.completed? f = none := by
    rw [completed?]
    cases s.streams.get? f.streamId with
    | none => rfl
    | some stream =>
      simp [hother.1, hother.2]
  rw [answered?, hnone] at h
  exact absurd h (by simp)

/-- The windows and the bodies of a connection are what its trace says. -/
structure Controlled (s : Session H) : Prop where
  conn : s.connSendWindow = connWindow s.trace
  conn_nonneg : 0 ≤ s.connSendWindow
  conn_le : s.connSendWindow ≤ 2 ^ 31 - 1
  stream : ∀ id stream, s.streams.get? id = some stream → stream.sendWindow = streamWindow id s.trace ∧
    -(2 ^ 31) ≤ stream.sendWindow ∧ stream.sendWindow ≤ 2 ^ 31 - 1
  fits : Always Fits s.trace
  isPrefix : ∀ id, sent id s.trace <+: body id s.trace

theorem flow_new (Early : Prop) (h : H) : Flow Early ({ hpack := h } : Session H).view where
  conn := rfl
  initial := rfl
  maxFrame := rfl
  window := by intros; contradiction
  body := by intros; contradiction
  ended := by intros; contradiction
  isPrefix _ := List.prefix_refl _
  opened := by intros; contradiction
  fits := always_nil
  closed := by intros; contradiction
  completes _ := always_nil

theorem controlled_of_flow {Early : Prop} (hv : s.view.Sound) (h : Flow Early s.view) : s.Controlled where
  conn := h.conn
  conn_nonneg := hv.conn_nonneg
  conn_le := hv.conn_le
  stream id stream hget := by
    have hst := view_streams_of_get? hget
    have hsub : (s.remoteInitialWindowSize : Int) - stream.sendWindow ≤ 2 ^ 31 - 1 :=
      hv.initial_sub_le id stream.view hst
    exact ⟨h.window id stream.view hst, by omega, hv.window_le id stream.view hst⟩
  fits := h.fits
  isPrefix := h.isPrefix

/-- A decoder that knows no field. -/
def noDecoder : Lshpack Unit := ⟨fun h _ => (0, [], [], h)⟩

/-- A body of five bytes, with a window of two that is enlarged. -/
def smallWindow : List Op :=
  [.dispatch ⟨FT_SETTINGS, 0, 0, encodeSetting ST_INITIAL_WINDOW_SIZE 2⟩,
    .attach ⟨.encoded [0x82], .bytes [1, 2, 3, 4, 5], false⟩,
    .dispatch ⟨FT_WINDOW_UPDATE, 0, 1, beBytes 4 7⟩,
    .drainSendBodies]

end Session

end OhosBun.Http2
