/-
# `OhosBun.Http2.ReceiveCredit` — the windows that the client gives the server

What was received of DATA is given back to the server in increments of its windows, when there is
enough of it.  Nothing is lost on the way: what was given and what is to be given are, together,
what was received (`Credit`); of a stream, what was received of it behind the headers of its
response, as long as it was neither reset nor ended (`takenOn`).
-/
import Mathlib.Data.List.TakeWhile
import OhosBun.Http2.Steps
import OhosBun.Lib.History

namespace OhosBun.Http2

open OhosBun.Lib OhosBun.Lib.History

/-! ## What was received, and given back -/

namespace Event

/-- The increment of the window of a stream, or of the connection for stream zero. -/
def incrementOn (id : Nat) : Event → Nat
  | .wrote f => if f.type = FT_WINDOW_UPDATE ∧ f.streamId = id then ofBe f.payload else 0
  | _ => 0

/-- The DATA that is received; its padding is a part of it. -/
def dataLength : Event → Nat
  | .received f => if f.type = FT_DATA then f.length else 0
  | _ => 0

def dataLengthOn (id : Nat) : Event → Nat
  | .received f => if f.type = FT_DATA ∧ f.streamId = id then f.length else 0
  | _ => 0

end Event

def increments (id : Nat) : List Event → Nat := total (Event.incrementOn id)

def dataLength : List Event → Nat := total Event.dataLength

def dataLengthOn (id : Nat) : List Event → Nat := total (Event.dataLengthOn id)

/-- What the client writes first. -/
def prefaceEvents : List Event :=
  [.preface, .wrote prefaceFrame,
    .wrote (windowUpdate 0 (LOCAL_INITIAL_WINDOW_SIZE - DEFAULT_WINDOW_SIZE))]

def afterPreface (t : List Event) : List Event :=
  (t.dropWhile fun e => e ≠ .preface).drop prefaceEvents.length

/-- An increment that may be written is one. -/
def InRange : Event → Prop
  | .wrote f => f.type = FT_WINDOW_UPDATE → 1 ≤ ofBe f.payload ∧ ofBe f.payload ≤ 2 ^ 31 - 1
  | _ => True

section Lengths
variable {t : List Event} {id n : Nat}

theorem incrementOn_windowUpdate {id' : Nat} (h : n < 2 ^ 32) :
    (Event.wrote (windowUpdate id' n)).incrementOn id = if id' = id then n else 0 := by
  have hpayload : ofBe (windowUpdate id' n).payload = n := ofBe_beBytes h
  rw [Event.incrementOn, hpayload]
  exact if_congr (and_iff_right rfl) rfl rfl

theorem inRange_windowUpdate {id' : Nat} (hpos : 0 < n) (h : n ≤ LOCAL_INITIAL_WINDOW_SIZE) :
    InRange (.wrote (windowUpdate id' n)) := fun _ => by
  have hlt : n < 256 ^ 4 := h.trans_lt (by decide)
  have hle : LOCAL_INITIAL_WINDOW_SIZE ≤ 2 ^ 31 - 1 := by decide
  have hpayload : ofBe (windowUpdate id' n).payload = n := ofBe_beBytes hlt
  rw [hpayload]
  exact ⟨hpos, h.trans hle⟩

theorem afterPreface_of_notMem (h : .preface ∉ t) : afterPreface t = [] := by
  rw [afterPreface, List.dropWhile_eq_nil_iff.mpr, List.drop_nil]
  intro e he
  exact decide_eq_true fun heq => h (heq ▸ he)

theorem afterPreface_append {before after : List Event} (h : .preface ∉ before) :
    afterPreface (before ++ prefaceEvents ++ after) = after := by
  rw [afterPreface, List.append_assoc, List.dropWhile_append_of_pos]
  · exact List.drop_left
  · intro e he
    exact decide_eq_true fun heq => h (heq ▸ he)

end Lengths

/-! ## What is kept -/

/-- An event that is neither DATA nor a window update. -/
structure Event.Unmetered (e : Event) : Prop where
  increment : ∀ id, e.incrementOn id = 0
  data : e.dataLength = 0
  dataOn : ∀ id, e.dataLengthOn id = 0
  preface : e ≠ .preface
  inRange : InRange e

/-- What was received of the connection is to be given back, or was, since the preface. -/
def ConnCredit (v : View) : Prop :=
  (v.prefaced = false ∧ v.nextId = 1 ∧ v.unacked = 0 ∧ .preface ∉ v.trace ∧ dataLength v.trace = 0 ∧
    increments 0 v.trace = 0) ∨
  (v.prefaced = true ∧ ∃ before after, v.trace = before ++ prefaceEvents ++ after ∧
    .preface ∉ before ∧ increments 0 before = 0 ∧ increments 0 after + v.unacked = dataLength v.trace)

/-- What was received and is to be given back, where `n` was received of a stream. -/
structure Credit (id n : Nat) (v : View) : Prop where
  conn : ConnCredit v
  conn_le : v.unacked ≤ LOCAL_INITIAL_WINDOW_SIZE
  stream_le : ∀ id st, v.streams id = some st → st.unacked ≤ LOCAL_INITIAL_WINDOW_SIZE ∧
    increments id v.trace + st.unacked ≤ dataLengthOn id v.trace
  idle : ∀ id, v.nextId ≤ id → increments id v.trace = 0
  stream : ∀ st, v.streams id = some st → increments id v.trace + st.unacked = n
  stream_idle : v.nextId ≤ id → n = 0
  inRange : ∀ e ∈ v.trace, InRange e

section Credit
variable {v v' : View} {id n : Nat} {st st' : StreamView} {e : Event} {events t : List Event}

theorem increments_append_of (h : ∀ e ∈ events, e.Unmetered) (id : Nat) :
    increments id (t ++ events) = increments id t := by
  rw [increments, total_append, total_eq_zero fun e he => (h e he).increment id]
  rfl

theorem dataLength_append_of (h : ∀ e ∈ events, e.Unmetered) :
    dataLength (t ++ events) = dataLength t := by
  rw [dataLength, total_append, total_eq_zero fun e he => (h e he).data]
  rfl

theorem dataLengthOn_append_of (h : ∀ e ∈ events, e.Unmetered) (id : Nat) :
    dataLengthOn id (t ++ events) = dataLengthOn id t := by
  rw [dataLengthOn, total_append, total_eq_zero fun e he => (h e he).dataOn id]
  rfl

theorem forall_inRange_append (ht : ∀ e ∈ t, InRange e) (h : ∀ e ∈ events, InRange e) :
    ∀ e ∈ t ++ events, InRange e := fun e he => by
  rcases List.mem_append.mp he with he | he
  · exact ht e he
  · exact h e he

namespace ConnCredit

/-- Behind the preface. -/
theorem append (h : ConnCredit v) (hprefaced : v.prefaced = true) (hprefaced' : v'.prefaced = true)
    (htrace : v'.trace = v.trace ++ events)
    (hsum : increments 0 events + v'.unacked = v.unacked + dataLength events) : ConnCredit v' := by
  rcases h with ⟨hfresh, -⟩ | ⟨-, before, after, heq, hnot, hbefore, hafter⟩
  · exact absurd (hfresh.symm.trans hprefaced) (by simp)
  refine .inr ⟨hprefaced', before, after ++ events, ?_, hnot, hbefore, ?_⟩
  · rw [htrace, heq, List.append_assoc]
  · have hincrements : increments 0 (after ++ events) = increments 0 after + increments 0 events :=
      total_append _ _ _
    have hdata : dataLength v'.trace = dataLength v.trace + dataLength events := by
      rw [htrace]
      exact total_append _ _ _
    omega

theorem still (h : ConnCredit v) (hprefaced : v'.prefaced = v.prefaced) (hnext : v'.nextId = v.nextId)
    (hunacked : v'.unacked = v.unacked) (htrace : v'.trace = v.trace ++ events)
    (hevents : ∀ e ∈ events, e.Unmetered) : ConnCredit v' := by
  rcases h with ⟨hfresh, hid, hzero, hnot, hdata, hincrements⟩ | h
  · refine .inl ⟨hprefaced.trans hfresh, hnext.trans hid, hunacked.trans hzero, ?_, ?_, ?_⟩
    · rw [htrace, List.mem_append, not_or]
      exact ⟨hnot, fun hmem => (hevents _ hmem).preface rfl⟩
    · rw [htrace, dataLength_append_of hevents, hdata]
    · rw [htrace, increments_append_of hevents, hincrements]
  · refine append (.inr h) h.1 (hprefaced.trans h.1) htrace ?_
    rw [hunacked, increments, dataLength, total_eq_zero fun e he => (hevents e he).increment 0,
      total_eq_zero fun e he => (hevents e he).data, Nat.zero_add, Nat.add_zero]

/-- Where a stream was opened, the preface was written. -/
theorem prefaced (h : ConnCredit v) (hid : id ≠ 0 ∧ id < v.nextId) : v.prefaced = true := by
  rcases h with ⟨-, hnext, -⟩ | h
  · rw [hnext] at hid
    omega
  · exact h.1

/-- What is to be given back is all that was received, but for what was given since the preface. -/
theorem afterPreface_add (h : ConnCredit v) :
    increments 0 (afterPreface v.trace) + v.unacked = dataLength v.trace := by
  rcases h with ⟨-, -, hunacked, hnot, hdata, -⟩ | ⟨-, before, after, heq, hnot, -, hafter⟩
  · rw [afterPreface_of_notMem hnot, hunacked, hdata]
    rfl
  · rw [← hafter, heq, afterPreface_append hnot]

/-- Of all that was given, the preface was the first. -/
theorem increments_add (h : ConnCredit v) (hprefaced : v.prefaced = true) :
    increments 0 v.trace + v.unacked =
      LOCAL_INITIAL_WINDOW_SIZE - DEFAULT_WINDOW_SIZE + dataLength v.trace := by
  rcases h with ⟨hfresh, -⟩ | ⟨-, before, after, heq, -, hbefore, hafter⟩
  · exact absurd (hfresh.symm.trans hprefaced) (by simp)
  have hpreface : increments 0 prefaceEvents = LOCAL_INITIAL_WINDOW_SIZE - DEFAULT_WINDOW_SIZE := by decide
  have hsum : increments 0 v.trace = increments 0 before + increments 0 prefaceEvents + increments 0 after := by
    rw [heq]
    simp only [increments, total_append]
  omega

end ConnCredit

theorem dataLengthOn_le_append (id : Nat) : dataLengthOn id t ≤ dataLengthOn id (t ++ events) := by
  rw [dataLengthOn, total_append]
  exact Nat.le_add_right _ _

/-- Events that give nothing back of a stream, and take nothing. -/
theorem Credit.of_conn (hv : Credit id n v) (hsound : v.Sound) (hconn : ConnCredit v')
    (hle : v'.unacked ≤ LOCAL_INITIAL_WINDOW_SIZE) (hnext : v'.nextId = v.nextId)
    (htrace : v'.trace = v.trace ++ events) (hevents : ∀ id, id ≠ 0 → increments id events = 0)
    (hinRange : ∀ e ∈ events, InRange e)
    (hstreams : ∀ id st', v'.streams id = some st' →
      ∃ st, v.streams id = some st ∧ st'.unacked = st.unacked) : Credit id n v' := by
  have hsame : ∀ id, id ≠ 0 → increments id v'.trace = increments id v.trace := fun id hid => by
    have happend : increments id v'.trace = increments id v.trace + increments id events := by
      rw [htrace]
      exact total_append _ _ _
    rw [happend, hevents id hid, Nat.add_zero]
  constructor
  case conn => exact hconn
  case conn_le => exact hle
  case stream_le =>
    intro id' st' hst'
    obtain ⟨st, hst, heq⟩ := hstreams id' st' hst'
    have hst_le := hv.stream_le id' st hst
    rw [heq, hsame id' (hsound.opened id' st hst).1]
    exact ⟨hst_le.1, hst_le.2.trans (htrace ▸ dataLengthOn_le_append id')⟩
  case idle =>
    intro id' hle
    rw [hnext] at hle
    rw [hsame id' (hsound.nextId_pos.trans_le hle).ne']
    exact hv.idle id' hle
  case stream =>
    intro st' hst'
    obtain ⟨st, hst, heq⟩ := hstreams id st' hst'
    rw [heq, hsame id (hsound.opened id st hst).1]
    exact hv.stream st hst
  case stream_idle => exact fun hle => hv.stream_idle (hnext ▸ hle)
  case inRange =>
    rw [htrace]
    exact forall_inRange_append hv.inRange hinRange

theorem Credit.still (hv : Credit id n v) (hsound : v.Sound) (hprefaced : v'.prefaced = v.prefaced)
    (hnext : v'.nextId = v.nextId) (hunacked : v'.unacked = v.unacked)
    (htrace : v'.trace = v.trace ++ events) (hevents : ∀ e ∈ events, e.Unmetered)
    (hstreams : ∀ id st', v'.streams id = some st' →
      ∃ st, v.streams id = some st ∧ st'.unacked = st.unacked) : Credit id n v' :=
  hv.of_conn hsound (hv.conn.still hprefaced hnext hunacked htrace hevents) (hunacked ▸ hv.conn_le) hnext
    htrace (fun id _ => total_eq_zero fun e he => (hevents e he).increment id)
    (fun e he => (hevents e he).inRange) hstreams

/-- An event of one stream, of which `m` is taken. -/
theorem Credit.concat (hv : Credit id n v) {id' m : Nat} (hst : v.streams id' = some st)
    (hid : id' < v.nextId) (hconn : ConnCredit v') (hle : v'.unacked ≤ LOCAL_INITIAL_WINDOW_SIZE)
    (hnext : v'.nextId = v.nextId) (htrace : v'.trace = v.trace ++ [e])
    (hstreams : v'.streams = (v.set id' (some st')).streams)
    (happart : ∀ id, id ≠ id' → e.incrementOn id = 0)
    (hsum : e.incrementOn id' + st'.unacked = st.unacked + m) (hm : m ≤ e.dataLengthOn id')
    (hst' : st'.unacked ≤ LOCAL_INITIAL_WINDOW_SIZE) (hinRange : InRange e) :
    Credit id (n + if id' = id then m else 0) v' := by
  have hincrements : ∀ id, increments id v'.trace = increments id v.trace + e.incrementOn id := fun id => by
    rw [htrace, increments, total_append, total_singleton]
  have hdata : ∀ id, dataLengthOn id v'.trace = dataLengthOn id v.trace + e.dataLengthOn id := fun id => by
    rw [htrace, dataLengthOn, total_append, total_singleton]
  constructor
  case conn => exact hconn
  case conn_le => exact hle
  case stream_le =>
    intro id'' st'' hst''
    rw [hstreams, View.streams_set] at hst''
    rw [hincrements, hdata]
    split_ifs at hst'' with hne
    · obtain rfl := Option.some.inj hst''
      have hst_le := (hv.stream_le id' st hst).2
      rw [hne]
      exact ⟨hst', by omega⟩
    · rw [happart id'' hne]
      have hst_le := hv.stream_le id'' st'' hst''
      exact ⟨hst_le.1, hst_le.2.trans (Nat.le_add_right _ _)⟩
  case idle =>
    intro id'' hle
    rw [hnext] at hle
    rw [hincrements, happart id'' (hid.trans_le hle).ne']
    exact hv.idle id'' hle
  case stream =>
    intro st'' hst''
    rw [hstreams, View.streams_set] at hst''
    rw [hincrements]
    split_ifs at hst'' with hne
    · obtain rfl := Option.some.inj hst''
      have hsame := hv.stream st (hne ▸ hst)
      rw [if_pos hne.symm, ← hsame, hne]
      omega
    · rw [happart id hne, if_neg (Ne.symm hne)]
      exact hv.stream st'' hst''
  case stream_idle =>
    intro hle
    rw [hnext] at hle
    rw [hv.stream_idle hle, if_neg (hid.trans_le hle).ne]
  case inRange =>
    rw [htrace]
    exact forall_inRange_append hv.inRange (List.forall_mem_singleton.mpr hinRange)

/-- A stream that is opened, of which nothing was received. -/
theorem Credit.opening (hv : Credit id n v) (hprefaced : v.prefaced = true) (hprefaced' : v'.prefaced = true)
    (hnext : v'.nextId = v.nextId + 2) (hunacked : v'.unacked = v.unacked)
    (htrace : v'.trace = v.trace ++ events) (hevents : ∀ e ∈ events, e.Unmetered)
    (hstreams : ∀ id st', v'.streams id = some st' →
      (id = v.nextId ∧ st'.unacked = 0) ∨ v.streams id = some st') : Credit id n v' := by
  constructor
  case conn =>
    refine hv.conn.append hprefaced hprefaced' htrace ?_
    rw [hunacked, increments, dataLength, total_eq_zero fun e he => (hevents e he).increment 0,
      total_eq_zero fun e he => (hevents e he).data, Nat.zero_add, Nat.add_zero]
  case conn_le => exact hunacked ▸ hv.conn_le
  case stream_le =>
    intro id' st' hst'
    rw [htrace, increments_append_of hevents, dataLengthOn_append_of hevents]
    rcases hstreams id' st' hst' with ⟨rfl, hzero⟩ | hst
    · rw [hzero, hv.idle _ le_rfl]
      exact ⟨Nat.zero_le _, Nat.zero_le _⟩
    · exact hv.stream_le id' st' hst
  case idle =>
    intro id' hle
    rw [htrace, increments_append_of hevents]
    exact hv.idle id' (by omega)
  case stream =>
    intro st' hst'
    rw [htrace, increments_append_of hevents]
    rcases hstreams id st' hst' with ⟨hid, hzero⟩ | hst
    · rw [hzero, hv.idle id hid.ge, hv.stream_idle hid.ge]
    · exact hv.stream st' hst
  case stream_idle => exact fun hle => hv.stream_idle (by omega)
  case inRange =>
    rw [htrace]
    exact forall_inRange_append hv.inRange fun e he => (hevents e he).inRange

/-! ## Actions -/

variable {f : Frame} {ok : StreamView → Prop}

theorem Event.Unmetered.wrote (h : f.type ≠ FT_WINDOW_UPDATE) : (Event.wrote f).Unmetered where
  increment _ := if_neg fun hf => h hf.1
  data := rfl
  dataOn _ := rfl
  preface := by simp
  inRange hf := absurd hf h

theorem Event.Unmetered.control (h : f.IsControl) : (Event.wrote f).Unmetered :=
  .wrote (by rcases h with h | h | h <;> rw [h] <;> decide)

theorem Event.Unmetered.received (h : f.type ≠ FT_DATA) : (Event.received f).Unmetered where
  increment _ := rfl
  data := if_neg h
  dataOn _ := if_neg fun hf => h hf.1
  preface := by simp
  inRange := trivial

theorem Event.Unmetered.of_ne (hwrote : ∀ f, e ≠ .wrote f) (hreceived : ∀ f, e ≠ .received f)
    (hpreface : e ≠ .preface) : e.Unmetered := by
  cases e with
  | wrote f => exact absurd rfl (hwrote f)
  | received f => exact absurd rfl (hreceived f)
  | preface => exact absurd rfl hpreface
  | _ => exact ⟨fun _ => rfl, rfl, fun _ => rfl, by simp, trivial⟩

theorem unmetered_bodyEvents (bytes : Bytes) (ended : Bool) :
    ∀ e ∈ bodyEvents id bytes ended, e.Unmetered :=
  List.forall_mem_cons.mpr ⟨.of_ne (by simp) (by simp) (by simp),
    List.forall_mem_singleton.mpr (.of_ne (by simp) (by simp) (by simp))⟩

theorem unacked_le {threshold : Nat} (h : Session.REPLENISH_THRESHOLD ≤ threshold) : 0 < threshold :=
  Nat.lt_of_lt_of_le (by decide) h

theorem Credit.action (hv : Credit id n v) (hsound : v.Sound) (h : Action ok Session.silent v v') :
    Credit id n v' := by
  have hkept : ∀ id st', v.streams id = some st' → ∃ st, v.streams id = some st ∧ st'.unacked = st.unacked :=
    fun id st' h => ⟨st', h, rfl⟩
  have hset : ∀ {id st st'}, v.streams id = some st → st'.unacked = st.unacked →
      ∀ id' st'', (v.set id (some st')).streams id' = some st'' →
        ∃ st, v.streams id' = some st ∧ st''.unacked = st.unacked :=
    fun hst hunacked => View.forall_set hkept fun st'' heq => Option.some.inj heq ▸ ⟨_, hst, hunacked⟩
  have hone : ∀ {e : Event}, e.Unmetered → ∀ e' ∈ [e], e'.Unmetered :=
    fun h => List.forall_mem_singleton.mpr h
  have hlt : ∀ {n}, n ≤ LOCAL_INITIAL_WINDOW_SIZE → n < 2 ^ 32 := fun h => h.trans_lt (by decide)
  cases h with
  | received f hf => exact False.elim hf
  | reset f hf => exact False.elim hf
  | dataIgnored f hf => exact False.elim hf
  | dataTaken f hf => exact False.elim hf
  | control f hf => exact hv.still hsound rfl rfl rfl rfl (hone (.control hf)) hkept
  | preface hfresh =>
    refine hv.of_conn hsound ?_ hv.conn_le rfl rfl (fun id hid => ?_) ?_ hkept
    · rcases hv.conn with ⟨-, -, hunacked, hnot, hdata, hincrements⟩ | ⟨hprefaced, -⟩
      · refine .inr ⟨rfl, v.trace, [], (List.append_nil _).symm, hnot, hincrements, ?_⟩
        have hsame : dataLength (v.trace ++ prefaceEvents) = 0 := by
          rw [dataLength, total_append]
          exact congrArg (· + total Event.dataLength prefaceEvents) hdata
        exact (Nat.zero_add _).trans (hunacked.trans hsame.symm)
      · exact absurd (hfresh.symm.trans hprefaced) (by simp)
    · exact total_eq_zero (List.forall_mem_cons.mpr ⟨rfl, List.forall_mem_cons.mpr ⟨rfl,
        List.forall_mem_singleton.mpr (if_neg fun h => hid h.2.symm)⟩⟩)
    · exact List.forall_mem_cons.mpr ⟨trivial, List.forall_mem_cons.mpr ⟨by rintro ⟨⟩,
        List.forall_mem_singleton.mpr (inRange_windowUpdate (by decide) (by decide))⟩⟩
  | replenish h =>
    refine hv.of_conn hsound ?_ (Nat.zero_le _) rfl rfl (fun id hid => ?_) ?_ hkept
    · have hprefaced : v.prefaced = true := by
        rcases hv.conn with ⟨-, -, hunacked, -⟩ | h'
        · exact absurd (unacked_le h) (by omega)
        · exact h'.1
      refine hv.conn.append hprefaced hprefaced rfl ?_
      rw [increments, total_singleton, incrementOn_windowUpdate (hlt hv.conn_le), if_pos rfl]
      rfl
    · rw [increments, total_singleton]
      exact if_neg fun h => hid h.2.symm
    · exact List.forall_mem_singleton.mpr (inRange_windowUpdate (unacked_le h) hv.conn_le)
  | replenishStream id' st hst hopen h =>
    have hid := hsound.opened id' st hst
    have hle := (hv.stream_le id' st hst).1
    have hcredit := @Credit.concat _
      ((v.set id' (some { st with unacked := 0 })).log [.wrote (windowUpdate id' st.unacked)]) _
      _ _ _ (.wrote (windowUpdate id' st.unacked)) hv _ 0 hst hid.2 ?_ hv.conn_le rfl rfl rfl
      (fun id hne => ?_) ?_ (Nat.zero_le _) (Nat.zero_le _)
      (inRange_windowUpdate (unacked_le h) hle)
    · rwa [ite_self, Nat.add_zero] at hcredit
    · have hprefaced := hv.conn.prefaced hid
      refine hv.conn.append hprefaced hprefaced rfl ?_
      rw [increments, total_singleton, incrementOn_windowUpdate (hlt hle), if_neg hid.1, Nat.zero_add]
      rfl
    · exact if_neg fun h => hne h.2.symm
    · rw [incrementOn_windowUpdate (hlt hle), if_pos rfl]
  | rst id' code st hst =>
    exact hv.still hsound rfl rfl rfl rfl (hone (.wrote (by decide : FT_RST_STREAM ≠ FT_WINDOW_UPDATE)))
      (hset hst rfl)
  | remove id' =>
    exact hv.still hsound rfl rfl rfl (List.append_nil _).symm (by simp)
      (View.forall_set hkept (by simp))
  | heard id' st st' hst hrst hclosed hstate hunacked =>
    exact hv.still hsound rfl rfl rfl (List.append_nil _).symm (by simp) (hset hst hunacked)
  | provided id' bytes st hst =>
    exact hv.still hsound rfl rfl rfl rfl (hone (.of_ne (by simp) (by simp) (by simp)))
      (hset hst rfl)
  | ended id' ended st hst =>
    exact hv.still hsound rfl rfl rfl rfl (hone (.of_ne (by simp) (by simp) (by simp)))
      (hset hst rfl)
  | credit increment h =>
    exact hv.still hsound rfl rfl rfl rfl (hone (.of_ne (by simp) (by simp) (by simp))) hkept
  | creditStream id' increment st hid hst =>
    exact hv.still hsound rfl rfl rfl rfl (hone (.of_ne (by simp) (by simp) (by simp)))
      (hset hst rfl)
  | initialWindow size =>
    refine hv.still hsound rfl rfl rfl rfl (hone (.of_ne (by simp) (by simp) (by simp)))
      fun id' st hst => ?_
    obtain ⟨st, hst', rfl⟩ := Option.map_eq_some_iff.mp hst
    exact ⟨st, hst', rfl⟩
  | maxFrame size =>
    exact hv.still hsound rfl rfl rfl rfl (hone (.of_ne (by simp) (by simp) (by simp))) hkept
  | halfClose id' st hst =>
    exact hv.still hsound rfl rfl rfl rfl (hone (.wrote (by decide : FT_DATA ≠ FT_WINDOW_UPDATE)))
      (hset hst rfl)
  | dataFrame id' st payload rest endStream hst =>
    refine hv.still hsound rfl rfl rfl rfl (hone (.wrote (by decide : FT_DATA ≠ FT_WINDOW_UPDATE)))
      (hset hst ?_)
    cases endStream <;> rfl
  | skip bytes ended hid hprefaced =>
    exact hv.opening hprefaced hprefaced rfl rfl rfl (unmetered_bodyEvents bytes ended)
      fun _ _ hst => .inr hst
  | request bytes ended awaiting endStream frames hframes hid hend hprefaced =>
    refine hv.opening hprefaced hprefaced rfl rfl rfl (fun e he => ?_) fun id' st' hst' => ?_
    · rcases List.mem_append.mp he with he | he
      · exact unmetered_bodyEvents bytes ended e he
      obtain ⟨g, hg, rfl⟩ := List.mem_map.mp he
      obtain ⟨f, rest, rfl, htype, -, -, hrest⟩ := hframes.exists_cons
      refine .wrote ?_
      rcases List.mem_cons.mp hg with rfl | hg
      · rw [htype]
        decide
      · rw [(hrest g hg).1]
        decide
    · rw [View.log, View.streams_set] at hst'
      by_cases hne : id' = v.nextId
      · rw [if_pos hne] at hst'
        obtain rfl := Option.some.inj hst'
        exact .inl ⟨hne, rfl⟩
      · rw [if_neg hne] at hst'
        exact .inr hst'

/-- The server sends no more than the windows that it was given. -/
def Respects (t : List Event) (f : Frame) : Prop :=
  f.type = FT_DATA → dataLength t + f.length ≤ DEFAULT_WINDOW_SIZE + increments 0 t ∧
    dataLengthOn f.streamId t + f.length ≤ LOCAL_INITIAL_WINDOW_SIZE + increments f.streamId t

/-- DATA that is taken of a stream. -/
def View.taken (v : View) (id : Nat) (f : Frame) : Nat :=
  if f.type = FT_DATA ∧ f.streamId = id ∧ (v.streams id).any StreamView.takes then f.length else 0

/-- A server that respects the window of the connection. -/
theorem ConnCredit.add_le (h : ConnCredit v) (hprefaced : v.prefaced = true)
    (hrespects : dataLength v.trace + f.length ≤ DEFAULT_WINDOW_SIZE + increments 0 v.trace) :
    v.unacked + f.length ≤ LOCAL_INITIAL_WINDOW_SIZE := by
  have hsum := h.increments_add hprefaced
  have hle : DEFAULT_WINDOW_SIZE ≤ LOCAL_INITIAL_WINDOW_SIZE := by decide
  omega

theorem saturatingAdd_eq {a b : Nat} (h : a + b ≤ LOCAL_INITIAL_WINDOW_SIZE) :
    Session.saturatingAdd a b = a + b :=
  Nat.min_eq_left (h.trans (by decide))

/-- DATA, whatever becomes of it, is to be given back of the connection. -/
theorem ConnCredit.data (h : ConnCredit v) (hid : id ≠ 0 ∧ id < v.nextId) (htype : f.type = FT_DATA)
    (hprefaced : v'.prefaced = v.prefaced) (hunacked : v'.unacked = v.unacked + f.length)
    (htrace : v'.trace = v.trace ++ [.received f]) :
    ConnCredit v' := by
  have hp := h.prefaced hid
  refine h.append hp (hprefaced.trans hp) htrace ?_
  have hlength : (Event.received f).dataLength = f.length := if_pos htype
  rw [hunacked, dataLength, total_singleton, hlength, increments, total_singleton]
  exact Nat.zero_add _

theorem Credit.dispatch (hv : Credit id n v) (hsound : v.Sound) (hrespects : Respects v.trace f)
    (h : Action ok (Eq f) v v') (htrace : v'.trace = v.trace ++ [.received f]) :
    Credit id (n + v.taken id f) v' := by
  have hkept : ∀ id st', v.streams id = some st' → ∃ st, v.streams id = some st ∧ st'.unacked = st.unacked :=
    fun id st' h => ⟨st', h, rfl⟩
  have hnone : f.type ≠ FT_DATA → v.taken id f = 0 := fun h => if_neg fun hf => h hf.1
  have hself : v.trace ≠ v.trace ++ [Event.received f] := fun h => by
    simpa using congrArg List.length h
  cases h with
  | received f' hf hdata =>
    obtain rfl := hf
    rw [hnone hdata]
    exact hv.still hsound rfl rfl rfl rfl (List.forall_mem_singleton.mpr (.received hdata)) hkept
  | reset f' hf htype st hst =>
    obtain rfl := hf
    have hdata : f.type ≠ FT_DATA := htype ▸ (by decide)
    rw [hnone hdata]
    exact hv.still hsound rfl rfl rfl rfl (List.forall_mem_singleton.mpr (.received hdata))
      (View.forall_set hkept fun st' heq => Option.some.inj heq ▸ ⟨st, hst, rfl⟩)
  | dataIgnored f' hf htype hid hst =>
    obtain rfl := hf
    have hle := hv.conn.add_le (hv.conn.prefaced hid) (hrespects htype).1
    have htaken : v.taken id f = 0 := by
      refine if_neg fun h => ?_
      obtain ⟨st, hget, htakes⟩ := (Option.any_eq_true _ _).mp h.2.2
      have hnot := hst st (h.2.1 ▸ hget)
      rw [htakes] at hnot
      exact absurd hnot (by simp)
    rw [htaken]
    refine hv.of_conn hsound (hv.conn.data hid htype rfl (saturatingAdd_eq hle) rfl) ?_ rfl rfl
      (fun _ _ => total_singleton _ _) (List.forall_mem_singleton.mpr trivial) hkept
    exact (saturatingAdd_eq hle).trans_le hle
  | dataTaken f' hf htype st hst htakes =>
    obtain rfl := hf
    have hid := hsound.opened _ st hst
    have hle := hv.conn.add_le (hv.conn.prefaced hid) (hrespects htype).1
    have hst_le : st.unacked + f.length ≤ LOCAL_INITIAL_WINDOW_SIZE := by
      have hbound := (hv.stream_le _ st hst).2
      have hwindow := (hrespects htype).2
      omega
    have htaken : v.taken id f = if f.streamId = id then f.length else 0 := by
      rw [View.taken]
      refine if_congr ⟨fun h => h.2.1, fun h => ⟨htype, h, ?_⟩⟩ rfl rfl
      rw [← h, hst]
      exact htakes
    rw [htaken]
    refine hv.concat hst hid.2 (hv.conn.data hid htype rfl (saturatingAdd_eq hle) rfl)
      ((saturatingAdd_eq hle).trans_le hle) rfl rfl rfl (fun _ _ => rfl) ?_ ?_
      ((saturatingAdd_eq hst_le).trans_le hst_le) trivial
    · exact (Nat.zero_add _).trans (saturatingAdd_eq hst_le)
    · exact (if_pos ⟨htype, rfl⟩).ge
  | remove => exact absurd htrace hself
  | heard => exact absurd htrace hself
  | request => exact absurd (List.cons.inj (List.append_cancel_left htrace)).1 (by simp)
  | skip => exact absurd (List.cons.inj (List.append_cancel_left htrace)).1 (by simp)
  | _ => exact absurd (List.append_cancel_left htrace) (by simp)

end Credit

/-! ## Runs -/

namespace Session
variable {H : Type} (hpack : Lshpack H)

/-- DATA of a stream that is neither reset nor ended by the server. -/
def receivedOpen (id : Nat) (s : Session H) : Op → Nat
  | .dispatch f =>
    if f.type = FT_DATA ∧ f.streamId = id ∧
      (s.streams.get? id).any fun stream => !stream.remoteClosed then f.length else 0
  | _ => 0

/-- DATA of such a stream behind the final headers of its response. -/
def taken (id : Nat) (s : Session H) : Op → Nat
  | .dispatch f =>
    if f.type = FT_DATA ∧ f.streamId = id ∧
      (s.streams.get? id).any fun stream => stream.statusCode ≠ 0 && !stream.remoteClosed
    then f.length else 0
  | _ => 0

/-- The sum of what the operations of a run are, each in the state that it comes in. -/
def sumAlong (count : Session H → Op → Nat) (s : Session H) (ops : List Op) : Nat :=
  observe (transition hpack) (fun s op n => n + count s op) s ops 0

def Respectful (s : Session H) : Op → Prop
  | .dispatch f => Respects s.trace f
  | _ => True

instance Respectful.decidable (s : Session H) : DecidablePred s.Respectful := fun op =>
  match op with
  | .dispatch _ => inferInstanceAs (Decidable (_ → _))
  | .attach _ | .provide _ _ | .streamRequestBody _ _ | .drainSendBody _ _ | .drainSendBodies | .flush _
  | .deliver _ _ | .abort _ | .replenishWindow _ | .failAll _ _ => .isTrue trivial

theorem taken_view (s : Session H) (id : Nat) (f : Frame) : s.taken id (.dispatch f) = s.view.taken id f := by
  rw [taken, View.taken]
  have hany : (s.view.streams id).any StreamView.takes =
      (s.streams.get? id).any fun stream => stream.statusCode ≠ 0 && !stream.remoteClosed := by
    rw [show s.view.streams id = (s.streams.get? id).map Stream.view from rfl, Option.any_map]
    rfl
  rw [hany]

theorem credit_new (h : H) (id : Nat) : Credit id 0 ({ hpack := h } : Session H).view where
  conn := .inl ⟨rfl, rfl, rfl, by rintro ⟨⟩, rfl, rfl⟩
  conn_le := Nat.zero_le _
  stream_le := by intros; contradiction
  idle _ _ := rfl
  stream := by intros; contradiction
  stream_idle _ := rfl
  inRange := by intros; contradiction

theorem credit_run (h : H) (ops : List Op) (halong : Along hpack Respectful { hpack := h } ops) (id : Nat) :
    ∃ s', run hpack { hpack := h } ops = some s' ∧ (∀ e ∈ s'.trace, InRange e) ∧
      (s'.fatalError = none → Credit id (sumAlong hpack (taken id) { hpack := h } ops) s'.view) := by
  have hguard : Along hpack (fun s op => ∀ f, op = .dispatch f →
      Answers hpack (fun _ => True) s f ∧ Respects s.trace f) { hpack := h } ops := by
    refine halong.mono fun s op hop => ⟨hop.1, ?_⟩
    rintro f rfl
    exact ⟨fun _ _ _ _ _ => trivial, hop.2⟩
  have hplain : ∀ t events : List Event, (∀ e ∈ t, InRange e) → (∀ e ∈ events, e.Plain) →
      ∀ e ∈ t ++ events, InRange e := by
    refine fun t events ht hevents => forall_inRange_append ht fun e he => ?_
    cases e with
    | wrote f => exact (Event.Unmetered.control (hevents _ he)).inRange
    | _ => exact trivial
  obtain ⟨s', heq, htrace, hs'⟩ := run_observed_spec hpack (fun _ => True) (fun v f => Respects v.trace f)
    (fun s op n => n + taken id s op) (Credit id) (fun t => ∀ e ∈ t, InRange e)
    (fun _ _ _ hsound hv haction => hv.action hsound haction)
    (fun n s f v' hsound hv hrespects haction htrace => by
      rw [taken_view]
      exact hv.dispatch hsound hrespects haction htrace)
    (fun n s op hother => by
      cases op with
      | dispatch f => exact absurd rfl (hother f)
      | _ => rfl)
    (fun _ _ hv => hv.inRange) hplain ops (sound_new h) (credit_new h id) hguard
  exact ⟨s', heq, htrace, fun hfatal => (hs' hfatal).2⟩

/-- Of a server that respects its windows all that is received is given back, or is to be given
back; every increment is one. -/
theorem receiveCredit (h : H) (ops : List Op) (halong : Along hpack Respectful { hpack := h } ops) :
    ∃ s', run hpack { hpack := h } ops = some s' ∧ (∀ e ∈ s'.trace, InRange e) ∧
      (s'.fatalError = none →
        increments 0 (afterPreface s'.trace) + s'.connUnackedBytes = dataLength s'.trace ∧
        ∀ id stream, s'.streams.get? id = some stream →
          increments id s'.trace + stream.unackedBytes =
            sumAlong hpack (taken id) { hpack := h } ops) := by
  obtain ⟨s', heq, htrace, hs'⟩ := credit_run hpack h ops halong 0
  refine ⟨s', heq, htrace, fun hfatal => ⟨(hs' hfatal).conn.afterPreface_add, fun id stream hget => ?_⟩⟩
  obtain ⟨s'', heq', -, hs''⟩ := credit_run hpack h ops halong id
  obtain rfl := Option.some.inj (heq.symm.trans heq')
  exact (hs'' hfatal).stream stream.view (view_streams_of_get? hget)

/-- A response with some of its body, and a stream that is reset. -/
def someData : List Op :=
  [.attach ⟨.encoded [0x82], .bytes [], false⟩,
    .dispatch ⟨FT_SETTINGS, 0, 0, []⟩,
    .dispatch ⟨FT_HEADERS, END_HEADERS, 1, [0x88]⟩,
    .dispatch ⟨FT_DATA, PADDED, 1, [1, 7, 0]⟩,
    .replenishWindow [],
    .abort 1,
    .dispatch ⟨FT_DATA, 0, 1, [7]⟩]

theorem receiveCredit_someData : ∃ s', run finalStatus { hpack := () } someData = some s' ∧
    (∀ e ∈ s'.trace, InRange e) ∧
      (s'.fatalError = none →
        increments 0 (afterPreface s'.trace) + s'.connUnackedBytes = dataLength s'.trace ∧
        ∀ id stream, s'.streams.get? id = some stream →
          increments id s'.trace + stream.unackedBytes =
            sumAlong finalStatus (taken id) { hpack := () } someData) :=
  receiveCredit finalStatus () someData (by with_unfolding_all decide)

/-- DATA in front of the headers of its response. -/
def earlyData : List Op :=
  [.attach ⟨.encoded [0x82], .bytes [], false⟩,
    .dispatch ⟨FT_SETTINGS, 0, 0, []⟩,
    .dispatch ⟨FT_DATA, 0, 1, [7]⟩]

/-- DATA in front of the settings of the server. -/
def firstData : List Op := [.attach ⟨.encoded [0x82], .bytes [], false⟩, .dispatch ⟨FT_DATA, 0, 1, [7]⟩]

/-- It is not counted of the stream in the one run, and not counted at all in the other. -/
theorem uncounted_earlyData_firstData :
    (Along finalStatus Respectful { hpack := () } earlyData ∧
      ∃ s' stream, run finalStatus { hpack := () } earlyData = some s' ∧ s'.fatalError = none ∧
        s'.streams.get? 1 = some stream ∧ increments 1 s'.trace + stream.unackedBytes ≠
          sumAlong finalStatus (receivedOpen 1) { hpack := () } earlyData) ∧
    (Along finalStatus Respectful { hpack := () } firstData ∧
      ∃ s', run finalStatus { hpack := () } firstData = some s' ∧
        increments 0 (afterPreface s'.trace) + s'.connUnackedBytes ≠ dataLength s'.trace) := by
  have hearly : (run finalStatus { hpack := () } earlyData).bind (fun s => (s.streams.get? 1).map fun stream =>
      (s.fatalError, increments 1 s.trace + stream.unackedBytes)) = some (none, 0) := by
    decide
  have hreceived : sumAlong finalStatus (receivedOpen 1) { hpack := () } earlyData = 1 := by
    decide
  have hfirst : (run finalStatus { hpack := () } firstData).map (fun s =>
      (increments 0 (afterPreface s.trace) + s.connUnackedBytes, dataLength s.trace)) = some (0, 1) := by
    decide
  obtain ⟨s', heq, hs'⟩ := Option.bind_eq_some_iff.mp hearly
  obtain ⟨stream, hget, hstream⟩ := Option.map_eq_some_iff.mp hs'
  obtain ⟨hfatal, hzero⟩ := Prod.mk.inj hstream
  obtain ⟨s'', heq', hs''⟩ := Option.map_eq_some_iff.mp hfirst
  obtain ⟨hzero', hone⟩ := Prod.mk.inj hs''
  refine ⟨⟨by decide, s', stream, heq, hfatal, hget, ?_⟩, by decide, s'', heq', ?_⟩
  · rw [hzero, hreceived]
    exact Nat.zero_ne_one
  · rw [hzero', hone]
    exact Nat.zero_ne_one

end Session

end OhosBun.Http2
