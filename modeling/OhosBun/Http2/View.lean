/-
# `OhosBun.Http2.View` — what a connection owes and may send

The part of a session that flow control and the lives of the streams are about (`View`), and what
can happen to it (`Action`): a frame is read, an increment is accepted, a frame of a body is
written, a stream is reset, and so on, each where it may be.  Header blocks, buffers and what the
clients are told are not in the view.

There is one action that is not always right: the end of a stream whose server answered without
its body (`halfClose`) is written where `ok` is true of the stream.
-/
import Mathlib.Data.Fintype.Defs
import Mathlib.Logic.Relation
import OhosBun.Http2.Client

namespace OhosBun.Http2

open OhosBun.Lib

structure StreamView where
  state : State
  rstDone : Bool
  awaiting : Bool
  /-- whether the final headers of the response are there -/
  answered : Bool
  unacked : Nat
  window : Int
  unsent : Bytes
  /-- whether nothing is to come behind `unsent` -/
  ended : Bool

namespace StreamView
variable (st : StreamView)

def localClosed : Bool := st.state = .halfClosedLocal || st.state = .closed

def remoteClosed : Bool := st.state = .halfClosedRemote || st.state = .closed

/-- Whether DATA is counted. -/
def takes : Bool := st.answered && !st.remoteClosed

def reset : StreamView := { st with rstDone := true, state := .closed }

def sentEnd : StreamView :=
  { st with state :=
      match st.state with
      | .open => .halfClosedLocal
      | .halfClosedRemote => .closed
      | other => other }

theorem localClosed_sentEnd : st.sentEnd.localClosed = true := by
  cases h : st.state <;> simp only [sentEnd, localClosed, h] <;> rfl

end StreamView

structure View where
  nextId : Nat
  streams : Nat → Option StreamView
  conn : Int
  initial : Nat
  maxFrame : Nat
  unacked : Nat
  prefaced : Bool
  failed : Bool
  trace : List Event

namespace View
variable (v : View)

def set (id : Nat) (st : Option StreamView) : View :=
  { v with streams := Function.update v.streams id st }

def log (events : List Event) : View := { v with trace := v.trace ++ events }

/-- The initial window is this now, and those of the streams change by as much. -/
def shift (size : Nat) : View :=
  { v with
    initial := size
    streams := fun id => (v.streams id).map fun st =>
      { st with window := st.window + (size - v.initial) } }

end View

/-! ## Frames of header blocks -/

inductive Continues (id : Nat) : List Frame → Prop
  | last (chunk : Bytes) : Continues id [⟨FT_CONTINUATION, END_HEADERS, id, chunk⟩]
  | more (chunk : Bytes) {frames : List Frame} (h : Continues id frames) :
      Continues id (⟨FT_CONTINUATION, 0, id, chunk⟩ :: frames)

/-- The flag of a frame behind which the stream sends nothing. -/
def endFlag (endStream : Bool) : UInt8 := if endStream then END_STREAM else 0

theorem has_endFlag (endStream : Bool) (type : UInt8) (id : Nat) (payload : Bytes) :
    Frame.has ⟨type, endFlag endStream, id, payload⟩ END_STREAM = endStream := by
  cases endStream with
  | false => exact (by decide : (endFlag false &&& END_STREAM != 0) = false)
  | true => exact (by decide : (endFlag true &&& END_STREAM != 0) = true)

inductive HeaderFrames (id : Nat) (endStream : Bool) : List Frame → Prop
  | single (chunk : Bytes) :
      HeaderFrames id endStream [⟨FT_HEADERS, END_HEADERS ||| endFlag endStream, id, chunk⟩]
  | more (chunk : Bytes) {frames : List Frame} (h : Continues id frames) :
      HeaderFrames id endStream (⟨FT_HEADERS, endFlag endStream, id, chunk⟩ :: frames)

variable {id : Nat} {frames : List Frame} {endStream : Bool}

theorem Continues.forall (h : Continues id frames) :
    ∀ f ∈ frames, f.type = FT_CONTINUATION ∧ f.streamId = id := by
  induction h with
  | last chunk => exact List.forall_mem_singleton.mpr ⟨rfl, rfl⟩
  | more chunk _ ih => exact List.forall_mem_cons.mpr ⟨⟨rfl, rfl⟩, ih⟩

theorem HeaderFrames.exists_cons (h : HeaderFrames id endStream frames) :
    ∃ f rest, frames = f :: rest ∧ f.type = FT_HEADERS ∧
      f.streamId = id ∧ f.has END_STREAM = endStream ∧
      ∀ g ∈ rest, g.type = FT_CONTINUATION ∧ g.streamId = id := by
  cases h with
  | single chunk =>
    refine ⟨_, [], rfl, rfl, rfl, ?_, by simp⟩
    cases endStream with
    | false => exact (by decide : ((END_HEADERS ||| endFlag false) &&& END_STREAM != 0) = false)
    | true => exact (by decide : ((END_HEADERS ||| endFlag true) &&& END_STREAM != 0) = true)
  | more chunk hrest => exact ⟨_, _, rfl, rfl, rfl, has_endFlag endStream _ _ _, hrest.forall⟩

theorem HeaderFrames.streamId (h : HeaderFrames id endStream frames) : ∀ f ∈ frames, f.streamId = id := by
  obtain ⟨f, rest, rfl, -, hstream, -, hrest⟩ := h.exists_cons
  exact List.forall_mem_cons.mpr ⟨hstream, fun g hg => (hrest g hg).2⟩

/-! ## Actions -/

/-- Frames that are not about a stream. -/
def Frame.IsControl (f : Frame) : Prop :=
  f.type = FT_SETTINGS ∨ f.type = FT_PING ∨ f.type = FT_GOAWAY

/-- Events that change nothing but what the server said, or end the connection. -/
def Event.Plain : Event → Prop
  | .received _ | .initialWindow _ | .maxFrame _ => True
  | .wrote f => f.IsControl
  | _ => False

def prefaceFrame : Frame := ⟨FT_SETTINGS, 0, 0, encodeSetting ST_ENABLE_PUSH 0 ++
  encodeSetting ST_INITIAL_WINDOW_SIZE LOCAL_INITIAL_WINDOW_SIZE ++
  encodeSetting ST_MAX_HEADER_LIST_SIZE LOCAL_MAX_HEADER_LIST_SIZE⟩

def windowUpdate (id increment : Nat) : Frame := ⟨FT_WINDOW_UPDATE, 0, id, beBytes 4 increment⟩

def bodyEvents (id : Nat) (bytes : Bytes) (ended : Bool) : List Event :=
  [.provided id bytes, .ended id ended]

/-- The frames that may be read are those that `hears` is true of. -/
inductive Action (ok : StreamView → Prop) (hears : Frame → Prop) : View → View → Prop
  | received (v : View) (f : Frame) (hf : hears f) (hdata : f.type ≠ FT_DATA)
      (hrst : f.type = FT_RST_STREAM → f.streamId < v.nextId ∧
        ∀ st, v.streams f.streamId = some st → st.rstDone) :
      Action ok hears v (v.log [.received f])
  | reset (v : View) (f : Frame) (hf : hears f) (htype : f.type = FT_RST_STREAM) (st : StreamView)
      (hst : v.streams f.streamId = some st) :
      Action ok hears v ((v.set f.streamId (some st.reset)).log [.received f])
  | dataIgnored (v : View) (f : Frame) (hf : hears f) (htype : f.type = FT_DATA)
      (hid : f.streamId ≠ 0 ∧ f.streamId < v.nextId)
      (hst : ∀ st, v.streams f.streamId = some st → !st.takes) :
      Action ok hears v ({ v with
        unacked := Session.saturatingAdd v.unacked f.length }.log [.received f])
  | dataTaken (v : View) (f : Frame) (hf : hears f) (htype : f.type = FT_DATA) (st : StreamView)
      (hst : v.streams f.streamId = some st) (htakes : st.takes) :
      Action ok hears v ((({ v with
        unacked := Session.saturatingAdd v.unacked f.length }).set f.streamId
          (some { st with unacked := Session.saturatingAdd st.unacked f.length })).log
        [.received f])
  | control (v : View) (f : Frame) (hf : f.IsControl) : Action ok hears v (v.log [.wrote f])
  | preface (v : View) (h : v.prefaced = false) :
      Action ok hears v ({ v with prefaced := true }.log
        [.preface, .wrote prefaceFrame,
          .wrote (windowUpdate 0 (LOCAL_INITIAL_WINDOW_SIZE - DEFAULT_WINDOW_SIZE))])
  | replenish (v : View) (h : Session.REPLENISH_THRESHOLD ≤ v.unacked) :
      Action ok hears v ({ v with unacked := 0 }.log [.wrote (windowUpdate 0 v.unacked)])
  | replenishStream (v : View) (id : Nat) (st : StreamView) (hst : v.streams id = some st)
      (hopen : st.remoteClosed = false) (h : Session.REPLENISH_THRESHOLD ≤ st.unacked) :
      Action ok hears v ((v.set id (some { st with unacked := 0 })).log
        [.wrote (windowUpdate id st.unacked)])
  | rst (v : View) (id code : Nat) (st : StreamView) (hst : v.streams id = some st)
      (hrst : st.rstDone = false) (hstate : st.state ≠ .closed) :
      Action ok hears v ((v.set id (some st.reset)).log
        [.wrote ⟨FT_RST_STREAM, 0, id, beBytes 4 code⟩])
  | remove (v : View) (id : Nat) : Action ok hears v (v.set id none)
  /-- a request that could not be written -/
  | skip (v : View) (bytes : Bytes) (ended : Bool) (hid : v.nextId < MAX_STREAM_ID)
      (hprefaced : v.prefaced = true) :
      Action ok hears v ({ v with nextId := v.nextId + 2 }.log (bodyEvents v.nextId bytes ended))
  | request (v : View) (bytes : Bytes) (ended awaiting endStream : Bool) (frames : List Frame)
      (hframes : HeaderFrames v.nextId endStream frames) (hid : v.nextId < MAX_STREAM_ID)
      (hend : endStream = true → bytes = []) (hprefaced : v.prefaced = true) :
      Action ok hears v (({ v with nextId := v.nextId + 2 }.set v.nextId
        (some
          { state := if endStream then .halfClosedLocal else .open
            rstDone := false
            awaiting
            answered := false
            unacked := 0
            window := v.initial
            unsent := bytes
            ended })).log (bodyEvents v.nextId bytes ended ++ frames.map Event.wrote))
  | dataFrame (v : View) (id : Nat) (st : StreamView) (payload rest : Bytes) (endStream : Bool)
      (hst : v.streams id = some st) (hopen : st.localClosed = false)
      (hunsent : st.unsent = payload ++ rest)
      (hwindow : (payload.length : Int) ≤ max (min st.window v.conn) 0)
      (hframe : payload.length ≤ v.maxFrame)
      (hend : endStream = true ↔ rest = [] ∧ st.ended = true) :
      Action ok hears v ((({ v with conn := v.conn - payload.length }).set id
        (some
          { (if endStream then st.sentEnd else st) with
            window := st.window - payload.length
            unsent := rest })).log [.wrote ⟨FT_DATA, endFlag endStream, id, payload⟩])
  /-- the server answered without the body -/
  | halfClose (v : View) (id : Nat) (st : StreamView) (hst : v.streams id = some st)
      (hok : ok st) :
      Action ok hears v ((v.set id (some { st.sentEnd with awaiting := false })).log
        [.wrote ⟨FT_DATA, END_STREAM, id, []⟩])
  | credit (v : View) (increment : Nat) (h : v.conn + increment ≤ MAX_WINDOW_SIZE) :
      Action ok hears v ({ v with conn := v.conn + increment }.log [.credited 0 increment])
  | creditStream (v : View) (id increment : Nat) (st : StreamView) (hid : id ≠ 0)
      (hst : v.streams id = some st) (h : st.window + increment ≤ MAX_WINDOW_SIZE) :
      Action ok hears v ((v.set id (some { st with window := st.window + increment })).log
        [.credited id increment])
  | initialWindow (v : View) (size : Nat) (hsize : size ≤ MAX_WINDOW_SIZE)
      (h : ∀ id st, v.streams id = some st → st.window + (size - v.initial) ≤ MAX_WINDOW_SIZE) :
      Action ok hears v ((v.shift size).log [.initialWindow size])
  | maxFrame (v : View) (size : Nat) (hge : DEFAULT_MAX_FRAME_SIZE ≤ size)
      (hle : size ≤ MAX_FRAME_SIZE) :
      Action ok hears v ({ v with maxFrame := size }.log [.maxFrame size])
  | provided (v : View) (id : Nat) (bytes : Bytes) (st : StreamView) (hst : v.streams id = some st) :
      Action ok hears v ((v.set id (some { st with unsent := st.unsent ++ bytes })).log
        [.provided id bytes])
  | ended (v : View) (id : Nat) (ended : Bool) (st : StreamView) (hst : v.streams id = some st) :
      Action ok hears v ((v.set id (some { st with ended })).log [.ended id ended])
  /-- what the server said of its own side of the stream -/
  | heard (v : View) (id : Nat) (st st' : StreamView) (hst : v.streams id = some st)
      (hrst : st'.rstDone = st.rstDone) (hclosed : st'.localClosed = st.localClosed)
      (hstate : st.state = .closed → st'.state = .closed)
      (hunacked : st'.unacked = st.unacked) (hwindow : st'.window = st.window)
      (hunsent : st'.unsent = st.unsent) (hended : st'.ended = st.ended) :
      Action ok hears v (v.set id (some st'))

/-- Some actions, one after the other. -/
def Reaches (ok : StreamView → Prop) (hears : Frame → Prop) : View → View → Prop :=
  Relation.ReflTransGen (Action ok hears)

section Reaches
variable {ok : StreamView → Prop} {hears : Frame → Prop} {v v' v'' : View}

theorem Reaches.of_eq (h : v = v') : Reaches ok hears v v' := by
  rw [h]
  exact .refl

theorem Reaches.head (h : Action ok hears v v') (h' : Reaches ok hears v' v'') :
    Reaches ok hears v v'' := Relation.ReflTransGen.head h h'

theorem Reaches.single (h : Action ok hears v v') : Reaches ok hears v v' :=
  Relation.ReflTransGen.single h

theorem Reaches.tail (h : Reaches ok hears v v') (h' : Action ok hears v' v'') :
    Reaches ok hears v v'' := Relation.ReflTransGen.tail h h'

theorem Reaches.trans (h : Reaches ok hears v v') (h' : Reaches ok hears v' v'') :
    Reaches ok hears v v'' := Relation.ReflTransGen.trans h h'

end Reaches

/-! ## Bounds -/

/-- The bounds that keep the integers of a session in range. -/
structure View.Sound (v : View) : Prop where
  initial_le : v.initial ≤ MAX_WINDOW_SIZE
  maxFrame_ge : DEFAULT_MAX_FRAME_SIZE ≤ v.maxFrame
  maxFrame_le : v.maxFrame ≤ MAX_FRAME_SIZE
  conn_nonneg : 0 ≤ v.conn
  conn_le : v.conn ≤ MAX_WINDOW_SIZE
  window_le : ∀ id st, v.streams id = some st → st.window ≤ MAX_WINDOW_SIZE
  /-- what was sent was in the window that there was -/
  initial_sub_le : ∀ id st, v.streams id = some st →
    (v.initial : Int) - st.window ≤ MAX_WINDOW_SIZE
  nextId_pos : 0 < v.nextId
  /-- a stream is one that was opened -/
  opened : ∀ id st, v.streams id = some st → id ≠ 0 ∧ id < v.nextId

namespace View
variable {v : View} {id id' : Nat} {st st' : StreamView} {o : Option StreamView}

theorem streams_set : (v.set id o).streams id' = if id' = id then o else v.streams id' := by
  rw [set]
  dsimp only
  rw [Function.update_apply]

theorem streams_log (events : List Event) : (v.log events).streams = v.streams := rfl

theorem set_self (h : v.streams id = o) : v.set id o = v := by
  rw [← h, set, Function.update_eq_self]

theorem set_set (o' : Option StreamView) : (v.set id o').set id o = v.set id o := by
  simp only [set, Function.update_idem]

theorem set_log_set (o' : Option StreamView) (events : List Event) :
    ((v.set id o').log events).set id o = (v.log events).set id o := by
  simp only [set, log, Function.update_idem]

/-- What holds of the streams, and of one that is new, holds of them all. -/
theorem forall_set {P : Nat → StreamView → Prop}
    (h : ∀ id st, v.streams id = some st → P id st) (hst : ∀ st, o = some st → P id st) :
    ∀ id' st, (v.set id o).streams id' = some st → P id' st := by
  intro id' st heq
  rw [streams_set] at heq
  split_ifs at heq with hid
  · subst hid
    exact hst st heq
  · exact h id' st heq

theorem Sound.log (h : v.Sound) (events : List Event) : (v.log events).Sound := { h with }

theorem Sound.set (h : v.Sound) (hle : ∀ st, o = some st → st.window ≤ MAX_WINDOW_SIZE)
    (hsub : ∀ st, o = some st → (v.initial : Int) - st.window ≤ MAX_WINDOW_SIZE)
    (hid : ∀ st, o = some st → id ≠ 0 ∧ id < v.nextId) : (v.set id o).Sound :=
  { h with
    window_le := forall_set h.window_le hle
    initial_sub_le := forall_set h.initial_sub_le hsub
    opened := forall_set h.opened hid }

/-- A stream whose window is as it was. -/
theorem Sound.set_of_window (h : v.Sound) (hst : v.streams id = some st)
    (hwindow : st'.window = st.window) : (v.set id (some st')).Sound :=
  h.set
    (fun st'' heq => by
      obtain rfl := Option.some.inj heq
      rw [hwindow]
      exact h.window_le id st hst)
    (fun st'' heq => by
      obtain rfl := Option.some.inj heq
      rw [hwindow]
      exact h.initial_sub_le id st hst)
    (fun _ _ => h.opened id st hst)

theorem Sound.set_log_of_window (h : v.Sound) (hst : v.streams id = some st) {events : List Event}
    (hwindow : st'.window = st.window) : ((v.set id (some st')).log events).Sound :=
  (h.set_of_window hst hwindow).log events

theorem Sound.of_eq {v' : View} (h : v.Sound) (hstreams : v'.streams = v.streams)
    (hconn : v'.conn = v.conn) (hinitial : v'.initial = v.initial) (hmax : v'.maxFrame = v.maxFrame)
    (hnext : v.nextId ≤ v'.nextId) : v'.Sound where
  initial_le := hinitial ▸ h.initial_le
  maxFrame_ge := hmax ▸ h.maxFrame_ge
  maxFrame_le := hmax ▸ h.maxFrame_le
  conn_nonneg := hconn ▸ h.conn_nonneg
  conn_le := hconn ▸ h.conn_le
  window_le := hstreams ▸ h.window_le
  initial_sub_le := by
    rw [hstreams, hinitial]
    exact h.initial_sub_le
  nextId_pos := h.nextId_pos.trans_le hnext
  opened id st hst := by
    obtain ⟨hid, hlt⟩ := h.opened id st (hstreams ▸ hst)
    exact ⟨hid, hlt.trans_le hnext⟩

end View

section Preserved
variable {ok : StreamView → Prop} {hears : Frame → Prop} {v v' : View}

theorem Action.mono {hears' : Frame → Prop} (h : Action ok hears v v') (hhears : ∀ f, hears f → hears' f) :
    Action ok hears' v v' := by
  cases h with
  | received f hf hdata hrst => exact .received v f (hhears f hf) hdata hrst
  | reset f hf htype st hst => exact .reset v f (hhears f hf) htype st hst
  | dataIgnored f hf htype hid hst => exact .dataIgnored v f (hhears f hf) htype hid hst
  | dataTaken f hf htype st hst htakes => exact .dataTaken v f (hhears f hf) htype st hst htakes
  | control f hf => exact .control v f hf
  | preface h => exact .preface v h
  | replenish h => exact .replenish v h
  | replenishStream id st hst hopen h => exact .replenishStream v id st hst hopen h
  | rst id code st hst hrst hstate => exact .rst v id code st hst hrst hstate
  | remove id => exact .remove v id
  | skip bytes ended hid hprefaced => exact .skip v bytes ended hid hprefaced
  | request bytes ended awaiting endStream frames hframes hid hend hprefaced =>
    exact .request v bytes ended awaiting endStream frames hframes hid hend hprefaced
  | dataFrame id st payload rest endStream hst hopen hunsent hwindow hframe hend =>
    exact .dataFrame v id st payload rest endStream hst hopen hunsent hwindow hframe hend
  | halfClose id st hst hok => exact .halfClose v id st hst hok
  | credit increment h => exact .credit v increment h
  | creditStream id increment st hid hst h => exact .creditStream v id increment st hid hst h
  | initialWindow size hsize h => exact .initialWindow v size hsize h
  | maxFrame size hge hle => exact .maxFrame v size hge hle
  | provided id bytes st hst => exact .provided v id bytes st hst
  | ended id ended st hst => exact .ended v id ended st hst
  | heard id st st' hst hrst hclosed hstate hunacked hwindow hunsent hended =>
    exact .heard v id st st' hst hrst hclosed hstate hunacked hwindow hunsent hended

theorem Action.sound (h : Action ok hears v v') (hv : v.Sound) : v'.Sound := by
  cases h with
  | received | control => exact hv.log _
  | reset f _ _ st hst => exact hv.set_log_of_window hst rfl
  | dataIgnored | preface | replenish => exact hv.of_eq rfl rfl rfl rfl le_rfl
  | dataTaken f _ _ st hst _ =>
    have hv' : View.Sound { v with unacked := Session.saturatingAdd v.unacked f.length } :=
      hv.of_eq rfl rfl rfl rfl le_rfl
    exact hv'.set_log_of_window hst rfl
  | replenishStream id st hst _ _ => exact hv.set_log_of_window hst rfl
  | rst id _ st hst _ _ => exact hv.set_log_of_window hst rfl
  | remove id => exact hv.set (by simp) (by simp) (by simp)
  | skip => exact hv.of_eq rfl rfl rfl rfl (Nat.le_add_right _ _)
  | request bytes ended awaiting endStream frames _ _ _ =>
    have hv' : View.Sound { v with nextId := v.nextId + 2 } :=
      hv.of_eq rfl rfl rfl rfl (Nat.le_add_right _ _)
    refine View.Sound.log (hv'.set ?_ ?_ ?_) _
    · rintro st heq
      obtain rfl := Option.some.inj heq
      exact Int.ofNat_le.mpr hv.initial_le
    · rintro st heq
      obtain rfl := Option.some.inj heq
      dsimp only
      rw [Int.sub_self]
      exact Int.natCast_nonneg _
    · exact fun _ _ => ⟨hv.nextId_pos.ne', Nat.lt_add_of_pos_right Nat.zero_lt_two⟩
  | dataFrame id st payload rest endStream hst _ _ hwindow _ _ =>
    have hle := hv.window_le id st hst
    have hsub := hv.initial_sub_le id st hst
    have hnonneg := hv.conn_nonneg
    have hconn := hv.conn_le
    have hinitial := hv.initial_le
    have hv' : View.Sound { v with conn := v.conn - payload.length } :=
      { hv with
        conn_nonneg := by dsimp only; omega
        conn_le := by dsimp only; omega }
    refine View.Sound.log (hv'.set ?_ ?_ fun _ _ => hv.opened id st hst) _
    · rintro st' heq
      obtain rfl := Option.some.inj heq
      dsimp only
      omega
    · rintro st' heq
      obtain rfl := Option.some.inj heq
      dsimp only
      omega
  | halfClose id st hst _ => exact hv.set_log_of_window hst rfl
  | credit increment h =>
    have hnonneg := hv.conn_nonneg
    exact { hv with
      conn_nonneg := Int.add_nonneg hnonneg (Int.natCast_nonneg _)
      conn_le := h }
  | creditStream id increment st _ hst h =>
    have hsub := hv.initial_sub_le id st hst
    refine View.Sound.log (hv.set ?_ ?_ fun _ _ => hv.opened id st hst) _
    · rintro st' heq
      obtain rfl := Option.some.inj heq
      exact h
    · rintro st' heq
      obtain rfl := Option.some.inj heq
      dsimp only
      omega
  | initialWindow size hsize h =>
    refine { hv with initial_le := hsize, window_le := ?_, initial_sub_le := ?_, opened := ?_ }
    · intro id st heq
      obtain ⟨st, hst, rfl⟩ := Option.map_eq_some_iff.mp heq
      exact h id st hst
    · intro id st heq
      obtain ⟨st, hst, rfl⟩ := Option.map_eq_some_iff.mp heq
      have hsub := hv.initial_sub_le id st hst
      dsimp only [View.shift, View.log]
      omega
    · intro id st heq
      obtain ⟨st, hst, rfl⟩ := Option.map_eq_some_iff.mp heq
      exact hv.opened id st hst
  | maxFrame size hge hle => exact { hv with maxFrame_ge := hge, maxFrame_le := hle }
  | provided id _ st hst => exact hv.set_log_of_window hst rfl
  | ended id _ st hst => exact hv.set_log_of_window hst rfl
  | heard id st st' hst _ _ _ _ hwindow _ _ => exact hv.set_of_window hst hwindow

theorem Reaches.sound (h : Reaches ok hears v v') (hv : v.Sound) : v'.Sound := by
  induction h with
  | refl => exact hv
  | tail _ haction ih => exact haction.sound ih

end Preserved

end OhosBun.Http2
