/-
# `OhosBun.Http2.Incoming` — bytes of the server

`parse_frames` dispatches the frames that are all there; what is left of the bytes stays in
`read_buffer` until there is more.  A read comes between any other operations: as long as there is
no fatal error, the frames that were received are those that the server's bytes are made of, each
once and in order, however the bytes are cut (`run_sends`).
-/
import OhosBun.Http2.HeaderBlocks

namespace OhosBun.Http2

open OhosBun.Lib

/-- The bytes are a header, and behind it as many bytes as it says. -/
def Frame.Spells (f : Frame) (bytes : Bytes) : Prop :=
  ∃ header, FrameHeader.decode bytes = some header ∧
    bytes.length = FrameHeader.BYTE_SIZE + header.length ∧
    f = ⟨header.type, header.flags, uint31 header.streamIdentifier, bytes.drop FrameHeader.BYTE_SIZE⟩

/-- There is no whole frame at the front. -/
def Unfinished (bytes : Bytes) : Prop :=
  ∀ header, FrameHeader.decode bytes = some header → bytes.length < FrameHeader.BYTE_SIZE + header.length

theorem decode_take {buf : Bytes} {header : FrameHeader} (h : FrameHeader.decode buf = some header) (n : Nat) :
    FrameHeader.decode (buf.take (FrameHeader.BYTE_SIZE + n)) = some header := by
  rw [FrameHeader.BYTE_SIZE, Nat.add_comm]
  unfold FrameHeader.decode at h
  split at h
  · exact h
  · exact absurd h (by simp)

namespace Session
variable {H : Type} (hpack : Lshpack H) {s : Session H}

theorem dispatch_received (hsound : s.view.Sound) (f : Frame) : ∃ s', s.dispatchFrame hpack f = some s' ∧
    (s'.fatalError = none → s'.view.Sound ∧ received s'.trace = received s.trace ++ [f]) := by
  have hok : Answers hpack (fun _ => True) s f := fun _ _ _ _ _ => trivial
  obtain ⟨s', heq, hfailed | ⟨v, haction, htrace, hreach⟩⟩ := dispatchFrame_spec hpack hsound hok
  · exact ⟨s', heq, fun hnone => absurd hnone (Option.isSome_iff_ne_none.mp hfailed.1)⟩
  · refine ⟨s', heq, fun _ => ⟨hreach.sound (haction.sound hsound), ?_⟩⟩
    rw [show received s'.trace = received v.trace from received_of_reaches hreach, htrace, received_append]
    rfl

/-- The frames that are all there in the first bytes were received, and what is left is not all of
one. -/
def Parsed (s : Session H) (buf : Bytes) (s' : Session H) (consumed : Nat) : Prop :=
  s'.fatalError = none → s'.view.Sound ∧ Unfinished (buf.drop consumed) ∧
    ∃ frames parts, List.Forall₂ Frame.Spells frames parts ∧ parts.flatten = buf.take consumed ∧
      received s'.trace = received s.trace ++ frames

theorem parseFrames_spec (buf : Bytes) (consumed : Nat) (hsound : s.view.Sound) (hfatal : s.fatalError = none) :
    ∃ s' n, s.parseFrames hpack buf consumed = some (s', consumed + n) ∧ Parsed s buf s' n := by
  induction hlen : buf.length using Nat.strong_induction_on generalizing buf consumed s with
  | _ len ih =>
    subst hlen
    rw [parseFrames]
    have hstop (hrest : Unfinished buf) :
        ∃ s' n, some (s, consumed) = some (s', consumed + n) ∧ Parsed s buf s' n :=
      ⟨s, 0, rfl, fun _ => ⟨hsound, hrest, [], [], .nil, rfl, (List.append_nil _).symm⟩⟩
    cases hheader : FrameHeader.decode buf with
    | none => exact hstop fun header h => absurd (hheader.symm.trans h) (by simp)
    | some header =>
      dsimp only
      split_ifs with hlarge hshort
      · exact ⟨_, 0, rfl, fun h => absurd h (by simp [fail])⟩
      · refine hstop fun header' h => ?_
        obtain rfl := Option.some.inj (hheader.symm.trans h)
        exact hshort
      · -- a whole frame
        have hle := Nat.not_lt.mp hshort
        generalize hf : (⟨header.type, header.flags, uint31 header.streamIdentifier,
          (buf.drop FrameHeader.BYTE_SIZE).take header.length⟩ : Frame) = f
        have hspells : f.Spells (buf.take (FrameHeader.BYTE_SIZE + header.length)) := by
          refine ⟨header, decode_take hheader _, List.length_take_of_le hle, hf.symm.trans ?_⟩
          rw [List.drop_take, Nat.add_sub_cancel_left]
        have hless : (buf.drop (FrameHeader.BYTE_SIZE + header.length)).length < buf.length := by
          rw [List.length_drop, FrameHeader.BYTE_SIZE] at *
          omega
        obtain ⟨s₁, heq, hs₁⟩ := dispatch_received hpack hsound f
        simp only [heq, Option.bind_eq_bind, Option.bind_some]
        split_ifs with hfatal₁
        · exact ⟨s₁, _, rfl, fun h => absurd h (Option.isSome_iff_ne_none.mp hfatal₁)⟩
        · rw [Option.not_isSome_iff_eq_none] at hfatal₁
          obtain ⟨hsound₁, hreceived⟩ := hs₁ hfatal₁
          obtain ⟨s₂, n, heq₂, hs₂⟩ := ih _ hless _ (consumed + (FrameHeader.BYTE_SIZE + header.length))
            hsound₁ hfatal₁ rfl
          refine ⟨s₂, FrameHeader.BYTE_SIZE + header.length + n, by rw [heq₂, Nat.add_assoc], fun h => ?_⟩
          obtain ⟨hsound₂, hrest, frames, parts, hspell, hparts, hreceived₂⟩ := hs₂ h
          rw [List.drop_drop] at hrest
          refine ⟨hsound₂, hrest, f :: frames, _ :: parts, .cons hspells hspell, ?_, ?_⟩
          · rw [List.flatten_cons]
            exact (congrArg _ hparts).trans List.take_add.symm
          · rw [hreceived₂, hreceived, List.append_assoc]
            rfl

/-- Any other operation. -/
theorem step_received {op : Op} (hsound : s.fatalError = none → s.view.Sound) (hallowed : s.Allowed op)
    (hother : ∀ f, op ≠ .dispatch f) : ∃ s', s.step hpack op = some s' ∧ (s'.fatalError = none →
      s.fatalError = none ∧ s'.view.Sound ∧ received s'.trace = received s.trace) := by
  obtain ⟨s', heq, hfailed | ⟨hfatal, hperforms⟩⟩ := step_spec hpack (fun _ => True) hsound hallowed
    fun f hf => absurd hf (hother f)
  · exact ⟨s', heq, fun hnone => absurd hnone (Option.isSome_iff_ne_none.mp hfailed.1)⟩
  · rw [Performs] at hperforms
    · exact ⟨s', heq, fun _ => ⟨hfatal, hperforms.sound (hsound hfatal), received_of_reaches hperforms⟩⟩
    · exact hother

end Session

/-! ## Runs -/

/-- The session, and its `read_buffer`. -/
structure Wire (H : Type) where
  session : Session H
  readBuffer : Bytes := []

/-- Bytes come for a connection in use or for a parked one, or there is another operation. -/
inductive Turn
  | data (incoming : Bytes)
  | idleData (incoming : Bytes)
  | other (op : Op)

def Op.isDispatch : Op → Bool
  | .dispatch _ => true
  | _ => false

def Turn.bytes : Turn → Bytes
  | .data incoming | .idleData incoming => incoming
  | .other _ => []

namespace Wire
variable {H : Type} (hpack : Lshpack H) {w : Wire H} {bytes : Bytes}

/-- `on_idle_data`, until it flushes. -/
def onIdleData (w : Wire H) (incoming : Bytes) : Option (Wire H) := do
  let (s, consumed) ← w.session.parseFrames hpack (w.readBuffer ++ incoming) 0
  return ⟨s, (w.readBuffer ++ incoming).drop consumed⟩

/-- `handle_data`, until it flushes; what is buffered is read as for a parked one. -/
def handleData (w : Wire H) (incoming : Bytes) : Option (Wire H) :=
  let w := { w with session := { w.session with streamProgressed := false } }
  if w.readBuffer = [] then do
    let (s, consumed) ← w.session.parseFrames hpack incoming 0
    return ⟨s, if consumed < incoming.length ∧ s.fatalError = none then incoming.drop consumed else []⟩
  else w.onIdleData hpack incoming

def step (w : Wire H) : Turn → Option (Wire H × Unit)
  | .data incoming => (w.handleData hpack incoming).map fun w => (w, ())
  | .idleData incoming => (w.onIdleData hpack incoming).map fun w => (w, ())
  | .other op => (w.session.step hpack op).map fun s => ({ w with session := s }, ())

/-- A connection that has failed is not read from; frames come in the bytes alone. -/
def Admits (w : Wire H) : Turn → Prop
  | .data _ | .idleData _ => w.session.fatalError = none
  | .other op => w.session.Allowed op ∧ op.isDispatch = false

instance (w : Wire H) (turn : Turn) : Decidable (w.Admits turn) :=
  match turn with
  | .data _ | .idleData _ => inferInstanceAs (Decidable (w.session.fatalError = none))
  | .other op => inferInstanceAs (Decidable (w.session.Allowed op ∧ op.isDispatch = false))

/-- The bytes so far are those of the frames that were received, and the read buffer, where there
is not another whole frame. -/
structure Spelled (w : Wire H) (bytes : Bytes) : Prop where
  sound : w.session.view.Sound
  unfinished : Unfinished w.readBuffer
  spells : ∃ parts, List.Forall₂ Frame.Spells (received w.session.trace) parts ∧
    parts.flatten ++ w.readBuffer = bytes

theorem Spelled.parsed {incoming : Bytes} (h : w.Spelled bytes) {s : Session H} {n : Nat}
    (hs : w.session.Parsed (w.readBuffer ++ incoming) s n) (hfatal : s.fatalError = none) :
    Spelled ⟨s, (w.readBuffer ++ incoming).drop n⟩ (bytes ++ incoming) := by
  obtain ⟨hsound, hrest, frames, parts, hspells, hparts, hreceived⟩ := hs hfatal
  obtain ⟨parts₀, hspells₀, rfl⟩ := h.spells
  refine ⟨hsound, hrest, parts₀ ++ parts, hreceived ▸ List.rel_append hspells₀ hspells, ?_⟩
  rw [List.flatten_append, List.append_assoc, hparts, List.take_append_drop, List.append_assoc]

theorem onIdleData_spec (h : w.Spelled bytes) (hfatal : w.session.fatalError = none)
    (incoming : Bytes) : ∃ w', w.onIdleData hpack incoming = some w' ∧
      (w'.session.fatalError = none → w'.Spelled (bytes ++ incoming)) := by
  obtain ⟨s, n, heq, hs⟩ := Session.parseFrames_spec hpack (w.readBuffer ++ incoming) 0 h.sound hfatal
  rw [Nat.zero_add] at heq
  exact ⟨_, by rw [onIdleData, heq]; rfl, h.parsed hs⟩

theorem handleData_spec (h : w.Spelled bytes) (hfatal : w.session.fatalError = none)
    (incoming : Bytes) : ∃ w', w.handleData hpack incoming = some w' ∧
      (w'.session.fatalError = none → w'.Spelled (bytes ++ incoming)) := by
  have h' : Spelled { w with session := { w.session with streamProgressed := false } } bytes :=
    ⟨h.sound, h.unfinished, h.spells⟩
  by_cases hempty : w.readBuffer = []
  · obtain ⟨s, n, heq, hs⟩ := Session.parseFrames_spec hpack (w.readBuffer ++ incoming) 0 h'.sound hfatal
    have hkept (hnone : s.fatalError = none) : (if n < incoming.length ∧ s.fatalError = none
        then incoming.drop n else []) = (w.readBuffer ++ incoming).drop n := by
      rw [hempty, List.nil_append]
      split_ifs with hlt
      · rfl
      · exact (List.drop_eq_nil_of_le (Nat.not_lt.mp fun h => hlt ⟨h, hnone⟩)).symm
    refine ⟨⟨s, _⟩, ?_, fun hnone => hkept hnone ▸ h'.parsed hs hnone⟩
    rw [hempty, List.nil_append, Nat.zero_add] at heq
    rw [handleData, if_pos hempty, heq]
    rfl
  · rw [handleData, if_neg hempty]
    exact onIdleData_spec hpack h' hfatal incoming

/-- What the server has sent, before and behind a turn. -/
def Sends (bytes : Bytes) (turn : Turn) (_ : Unit) (bytes' : Bytes) : Prop := bytes' = bytes ++ turn.bytes

theorem bytes_of_follows {bytes' : Bytes} {turns : List Turn} {replies : List Unit}
    (h : Follows Sends bytes turns replies bytes') : bytes' = bytes ++ turns.flatMap Turn.bytes := by
  induction h with
  | nil => exact (List.append_nil _).symm
  | cons hstep _ ih => rw [ih, hstep, List.flatMap_cons, List.append_assoc]

theorem step_spelled (w : Wire H) (bytes : Bytes) (turn : Turn)
    (h : w.session.fatalError = none → w.Spelled bytes) (hadmits : w.Admits turn) :
    ∃ w' reply bytes', w.step hpack turn = some (w', reply) ∧ Sends bytes turn reply bytes' ∧
      (w'.session.fatalError = none → w'.Spelled bytes') := by
  cases turn with
  | data incoming =>
    obtain ⟨w', heq, hw'⟩ := handleData_spec hpack (h hadmits) hadmits incoming
    exact ⟨w', (), _, by rw [step, heq]; rfl, rfl, hw'⟩
  | idleData incoming =>
    obtain ⟨w', heq, hw'⟩ := onIdleData_spec hpack (h hadmits) hadmits incoming
    exact ⟨w', (), _, by rw [step, heq]; rfl, rfl, hw'⟩
  | other op =>
    obtain ⟨hallowed, hop⟩ := hadmits
    obtain ⟨s', heq, hs'⟩ := Session.step_received hpack (fun hfatal => (h hfatal).sound) hallowed (by
      rintro f rfl
      exact absurd hop (by simp [Op.isDispatch]))
    refine ⟨{ w with session := s' }, (), bytes, by rw [step, heq]; rfl, (List.append_nil _).symm, fun hfatal' => ?_⟩
    obtain ⟨hfatal, hsound, hreceived⟩ := hs' hfatal'
    obtain ⟨-, hrest, parts, hspells, hparts⟩ := h hfatal
    exact ⟨hsound, hrest, parts, hreceived ▸ hspells, hparts⟩

/-- However the bytes of the server are cut, and whatever is done in between: as long as there is no
fatal error each frame that is all there was received, once and in order. -/
theorem run_sends (h : H) (turns : List Turn)
    (hadmits : Guarded (step hpack) Admits { session := { hpack := h } } turns) :
    ∃ w replies, run (step hpack) { session := { hpack := h } } turns = some (w, replies) ∧
      (w.session.fatalError = none → w.Spelled (turns.flatMap Turn.bytes)) := by
  obtain ⟨w, replies, bytes, hrun, hfollows, hw⟩ := exists_run (step_spelled hpack) turns
    (fun _ => ⟨Session.sound_new h, fun _ h => absurd h (by simp [FrameHeader.decode]), [], .nil, rfl⟩) hadmits
  obtain rfl := bytes_of_follows hfollows
  exact ⟨w, replies, hrun, hw⟩

/-- SETTINGS, cut in its header, and the start of another frame. -/
theorem run_sends_cut : ∃ w replies, run (step Session.finalStatus) { session := { hpack := () } }
      [.data [0, 0, 0], .other (.attach ⟨.encoded [0x82], .bytes [], false⟩), .data [4, 0, 0, 0, 0, 0, 7]] =
        some (w, replies) ∧
    (w.session.fatalError = none → w.Spelled [0, 0, 0, 4, 0, 0, 0, 0, 0, 7]) :=
  run_sends Session.finalStatus () _ (by with_unfolding_all decide)

end Wire

end OhosBun.Http2
