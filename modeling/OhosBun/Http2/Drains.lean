/-
# `OhosBun.Http2.Drains` — bodies of requests are sent, as far as they can be

A body is drained by `drain_send_body`, and those of all streams by `drain_send_bodies`, pass after
pass.  What is done is a sequence of actions, and the passes come to an end: one that gets further
uses up some of the window of the connection, or ends a stream (`drainMeasure`).
-/
import Mathlib.Algebra.Order.BigOperators.Group.List
import OhosBun.Http2.Sends

namespace OhosBun.Http2

open OhosBun.Lib

namespace Session
variable {H : Type} {s s' s'' : Session H} {id : Nat}
  {stream : Stream}

def closedAt (s : Session H) (id : Nat) : Bool := (s.streams.get? id).any Stream.localClosed

/-- What drains leave as it was. -/
structure Drained (s s' : Session H) : Prop where
  keys : s'.streams.keys = s.streams.keys
  conn_le : s'.connSendWindow ≤ s.connSendWindow
  closed : ∀ id, s.closedAt id → s'.closedAt id

theorem Drained.refl (s : Session H) : s.Drained s := ⟨rfl, le_refl _, fun _ h => h⟩

theorem Drained.trans (h : s.Drained s') (h' : s'.Drained s'') : s.Drained s'' where
  keys := h'.keys.trans h.keys
  conn_le := h'.conn_le.trans h.conn_le
  closed id hid := h'.closed id (h.closed id hid)

theorem modifyStream_modifyStream (f g : Stream → Stream) :
    (s.modifyStream id f).modifyStream id g = s.modifyStream id fun stream => g (f stream) :=
  congrArg (fun streams => { s with streams }) (ArrayMap.modify_modify id f g)

/-! ## One body -/

section Body
variable (n sent : Nat) (frames : List Frame) (f : Stream → Stream)

theorem framed_drained (hget : s.streams.get? id = some stream) (hopen : stream.localClosed = false) :
    s.Drained ((s.framed id n frames sent).modifyStream id f) where
  keys := by
    rw [keys_modifyStream]
    exact keys_modifyStream (s := s) _
  conn_le := Int.sub_le_self _ (Int.natCast_nonneg _)
  closed id' hclosed := by
    have hne : id' ≠ id := by
      rintro rfl
      rw [closedAt, hget, Option.any_some, hopen] at hclosed
      exact absurd hclosed (by simp)
    have hsame : ((s.framed id n frames sent).modifyStream id f).streams.get? id' =
        s.streams.get? id' := by
      rw [get?_modifyStream, if_neg hne]
      exact (get?_modifyStream (s := s) _).trans (if_neg hne)
    rw [closedAt, hsame]
    exact hclosed

theorem framed_modify_view (hget : s.streams.get? id = some stream) (rest : Bytes) (fin : Bool)
    (hf : (f { stream with sendWindow := stream.sendWindow - sent }).view =
      stream.view.sent sent rest fin) :
    ((s.framed id n frames sent).modifyStream id f).view =
      s.view.sent id stream.view sent rest fin frames := by
  rw [view_modifyStream (get?_framed hget n sent frames), hf, view_framed hget, View.sent, View.sent,
    View.set_set]

end Body

theorem drainSendBody_spec (ok : StreamView → Prop) (hears : Frame → Prop) (hv : s.view.Sound) (hget : s.streams.get? id = some stream) (cap : Nat) :
    ∃ s', s.drainSendBody id cap = some s' ∧ s.Drained s' ∧ Reaches ok hears s.view s'.view := by
  have hmax : 0 < s.remoteMaxFrameSize := Nat.lt_of_lt_of_le (by decide) hv.maxFrame_ge
  have hview := view_streams_of_get? hget
  have hsame : ∃ s', some s = some s' ∧ s.Drained s' ∧ Reaches ok hears s.view s'.view :=
    ⟨s, rfl, .refl s, .refl⟩
  rw [drainSendBody, hget]
  simp only [Option.bind_eq_bind, Option.bind_some]
  split_ifs with hskip hclient
  · exact hsame
  · exact hsame
  rw [Bool.or_eq_true, Bool.or_eq_true, not_or, not_or, Bool.not_eq_true] at hskip
  have hopen := hskip.1.1
  cases hbody : stream.body with
  | bytes body =>
    dsimp only
    have hended : stream.bodyEnded = true := by rw [Stream.bodyEnded, hbody]
    have hunsent : stream.unsent = stream.pendingBody := by rw [Stream.unsent, hbody]
    obtain ⟨n, frames, sent, -, heq, hreach⟩ := writeDataWindowed_spec ok hears
      id true cap (stream.pendingBody.length + 1) stream.pendingBody 0 s stream hmax hv.conn_le hget
      hopen hended (Nat.lt_succ_self _)
    rw [heq]
    simp only [Option.bind_some, Nat.zero_add]
    rw [View.set_self (hview.trans (by rw [← hunsent]; rfl))] at hreach
    by_cases hdone : stream.pendingBody.drop sent = []
    · rw [if_pos hdone, modifyStream_modifyStream]
      refine ⟨_, rfl, framed_drained n sent frames _ hget hopen, ?_⟩
      rw [decide_eq_true hdone, Bool.true_and] at hreach
      rw [framed_modify_view n sent frames _ hget (stream.pendingBody.drop sent) true]
      · exact hreach
      · simp only [Stream.view, StreamView.sent, StreamView.sentEnd, Stream.sentEndStream, Stream.unsent,
          Stream.bodyEnded, hbody, if_true] <;>
          cases stream.state <;> rfl
    · rw [if_neg hdone]
      refine ⟨_, rfl, framed_drained n sent frames _ hget hopen, ?_⟩
      rw [decide_eq_false hdone, Bool.false_and] at hreach
      rw [framed_modify_view n sent frames _ hget (stream.pendingBody.drop sent) false]
      · exact hreach
      · simp [Stream.view, StreamView.sent, Stream.unsent, Stream.bodyEnded, hbody]
  | stream ended buffer =>
    cases buffer with
    | none => exact hsame
    | some data =>
      dsimp only
      split_ifs with hempty
      · exact hsame
      have hended : stream.bodyEnded = ended := by rw [Stream.bodyEnded, hbody]
      have hunsent : stream.unsent = data := by simp [Stream.unsent, hbody]
      obtain ⟨n, frames, sent, -, heq, hreach⟩ := writeDataWindowed_spec ok hears id ended cap (data.length + 1) data 0 s stream hmax hv.conn_le hget hopen
        hended (Nat.lt_succ_self _)
      rw [heq]
      simp only [Option.bind_some, Nat.zero_add]
      rw [View.set_self (hview.trans (by rw [← hunsent]; rfl))] at hreach
      by_cases hdone : data.drop sent = [] ∧ ended = true
      · rw [if_pos hdone, modifyStream_modifyStream]
        refine ⟨_, rfl, framed_drained n sent frames _ hget hopen, ?_⟩
        rw [decide_eq_true hdone.1, Bool.true_and, hdone.2] at hreach
        rw [framed_modify_view n sent frames _ hget (data.drop sent) true]
        · exact hreach
        · simp only [Stream.view, StreamView.sent, StreamView.sentEnd, Stream.sentEndStream,
            Stream.unsent, Stream.bodyEnded, hbody, hdone, Option.getD_none, if_true] <;>
            cases stream.state <;> rfl
      · rw [if_neg hdone]
        refine ⟨_, rfl, framed_drained n sent frames _ hget hopen, ?_⟩
        have hfin : (decide (data.drop sent = []) && ended) = false := by
          rw [← Bool.not_eq_true, Bool.and_eq_true, decide_eq_true_iff]
          exact hdone
        rw [hfin] at hreach
        rw [framed_modify_view n sent frames _ hget (data.drop sent) false]
        · exact hreach
        · simp [Stream.view, StreamView.sent, Stream.unsent, Stream.bodyEnded, hbody]

/-! ## All bodies -/

/-- What gets less by a pass that gets further. -/
def drainMeasure (s : Session H) : Nat :=
  s.connSendWindow.toNat + (s.streams.keys.map fun id => (!s.closedAt id).toNat).sum

theorem drainMeasure_lt_drainFuel (s : Session H) : s.drainMeasure < s.drainFuel := by
  have hsum := List.sum_le_card_nsmul (s.streams.keys.map fun id => (!s.closedAt id).toNat) 1 (by
    intro n hn
    obtain ⟨id, -, rfl⟩ := List.mem_map.mp hn
    exact Bool.toNat_le _)
  rw [List.length_map, ArrayMap.keys, List.length_map, nsmul_one, Nat.cast_id] at hsum
  unfold drainMeasure drainFuel ArrayMap.count ArrayMap.keys
  omega

theorem Drained.le_of_closed (h : s.Drained s') (id : Nat) : (!s'.closedAt id).toNat ≤ (!s.closedAt id).toNat := by
  cases hs : s.closedAt id with
  | false => exact Bool.toNat_le _
  | true => rw [h.closed id hs]

theorem Drained.measure_le (h : s.Drained s') : s'.drainMeasure ≤ s.drainMeasure := by
  rw [drainMeasure, drainMeasure, h.keys]
  exact Nat.add_le_add (Int.toNat_le_toNat h.conn_le)
    (List.sum_le_sum fun id _ => h.le_of_closed id)

theorem Drained.measure_lt_of_conn (h : s.Drained s') (hconn : 0 ≤ s'.connSendWindow)
    (hne : s'.connSendWindow ≠ s.connSendWindow) : s'.drainMeasure < s.drainMeasure := by
  rw [drainMeasure, drainMeasure, h.keys]
  refine Nat.add_lt_add_of_lt_of_le ?_ (List.sum_le_sum fun id _ => h.le_of_closed id)
  have hle := h.conn_le
  omega

theorem Drained.measure_lt_of_closed (h : s.Drained s') (hid : id ∈ s.streams.keys)
    (hopen : s.closedAt id = false) (hclosed : s'.closedAt id = true) : s'.drainMeasure < s.drainMeasure := by
  rw [drainMeasure, drainMeasure, h.keys]
  refine Nat.add_lt_add_of_le_of_lt (Int.toNat_le_toNat h.conn_le)
    (List.sum_lt_sum _ _ (fun id _ => h.le_of_closed id) ⟨id, hid, ?_⟩)
  rw [hopen, hclosed]
  exact Nat.zero_lt_one

theorem drainPass_spec (ok : StreamView → Prop) (hears : Frame → Prop) (slice : Nat) :
    ∀ (ids : List Nat) (s : Session H) (progressed : Bool), s.view.Sound →
      (∀ id ∈ ids, id ∈ s.streams.keys) →
      ∃ s' further, drainPass slice ids s progressed = some (s', further) ∧ s.Drained s' ∧
        Reaches ok hears s.view s'.view ∧
        (further = true → progressed = true ∨ s'.drainMeasure < s.drainMeasure) := by
  intro ids
  induction ids with
  | nil => exact fun s progressed _ _ => ⟨s, progressed, rfl, .refl s, .refl, .inl⟩
  | cons id ids ih =>
    intro s progressed hv hids
    obtain ⟨hid, hids⟩ := List.forall_mem_cons.mp hids
    obtain ⟨stream, hget⟩ := ArrayMap.mem_keys.1 hid
    rw [drainPass, hget]
    simp only [Option.bind_eq_bind, Option.bind_some]
    by_cases hskip : stream.localClosed = true ∨ stream.sendWindow ≤ 0
    · rw [if_pos hskip]
      exact ih s progressed hv hids
    rw [if_neg hskip]
    rw [not_or, Bool.not_eq_true] at hskip
    obtain ⟨s₁, heq, hdrained, hreach⟩ :=
      drainSendBody_spec ok hears hv hget slice
    have hv₁ := hreach.sound hv
    obtain ⟨stream₁, hget₁⟩ := ArrayMap.mem_keys.1 (hdrained.keys ▸ hid)
    obtain ⟨s₂, further, heq₂, hdrained₂, hreach₂, hfurther⟩ :=
      ih s₁ (progressed || s₁.connSendWindow ≠ s.connSendWindow || stream₁.localClosed) hv₁
        (fun id hmem => hdrained.keys ▸ hids id hmem)
    rw [heq, Option.bind_some, hget₁, Option.bind_some, heq₂]
    refine ⟨s₂, further, rfl, hdrained.trans hdrained₂, hreach.trans hreach₂, fun h => ?_⟩
    rcases hfurther h with hprogressed | hlt
    · rw [Bool.or_eq_true, Bool.or_eq_true, decide_eq_true_iff] at hprogressed
      rcases hprogressed with (hprogressed | hne) | hclosed
      · exact .inl hprogressed
      · exact .inr (hdrained₂.measure_le.trans_lt (hdrained.measure_lt_of_conn hv₁.conn_nonneg hne))
      · refine .inr (hdrained₂.measure_le.trans_lt (hdrained.measure_lt_of_closed hid ?_ ?_))
        · rw [closedAt, hget, Option.any_some, hskip.1]
        · rw [closedAt, hget₁, Option.any_some, hclosed]
    · exact .inr (hlt.trans_le hdrained.measure_le)

theorem drainSendBodies_spec (ok : StreamView → Prop) (hears : Frame → Prop) (slice : Nat) :
    ∀ (fuel : Nat) (s : Session H), s.view.Sound → s.drainMeasure < fuel →
      ∃ s' stopped, drainSendBodies slice fuel s = some (s', stopped) ∧ s.Drained s' ∧
        Reaches ok hears s.view s'.view := by
  intro fuel
  induction fuel with
  | zero => exact fun _ _ hfuel => absurd hfuel (Nat.not_lt_zero _)
  | succ fuel ih =>
    intro s hv hfuel
    rw [drainSendBodies]
    split_ifs with hconn hbuffer
    · exact ⟨s, false, rfl, .refl s, .refl⟩
    · exact ⟨s, true, rfl, .refl s, .refl⟩
    obtain ⟨s₁, further, heq, hdrained, hreach, hfurther⟩ := drainPass_spec ok hears slice s.streams.keys s false hv fun _ h => h
    rw [heq]
    simp only [Option.bind_eq_bind, Option.bind_some]
    cases further with
    | false => exact ⟨s₁, false, rfl, hdrained, hreach⟩
    | true =>
      have hlt := (hfurther rfl).resolve_left (by simp)
      obtain ⟨s₂, stopped, heq₂, hdrained₂, hreach₂⟩ :=
        ih s₁ (hreach.sound hv) (by omega)
      exact ⟨s₂, stopped, heq₂, hdrained.trans hdrained₂, hreach.trans hreach₂⟩

end Session

end OhosBun.Http2
