/-
# `OhosBun.Http2.Steps` — a connection, operation after operation

Each operation that is allowed returns, and what it does to the view is a sequence of actions
(`step_spec`), or the connection fails.  What the actions keep is kept by whole runs, then
(`run_spec`).
-/
import OhosBun.Http2.Dispatches

namespace OhosBun.Http2

open OhosBun.Lib

namespace Session
variable {H : Type} (hpack : Lshpack H) {s : Session H} {op : Op}

/-- The operation is a sequence of actions, of which the first, where there is a frame, is to read
it. -/
def Performs (ok : StreamView → Prop) (s s' : Session H) : Op → Prop
  | .dispatch f => ∃ v, Action ok (Eq f) s.view v ∧ v.trace = s.trace ++ [.received f] ∧
      Reaches ok silent v s'.view
  | _ => Reaches ok silent s.view s'.view

theorem step_spec (ok : StreamView → Prop) (hsound : s.fatalError = none → s.view.Sound)
    (hallowed : s.Allowed op) (hok : ∀ f, op = .dispatch f → Answers hpack ok s f) :
    ∃ s', s.step hpack op = some s' ∧ (Failed s s' ∨ s.fatalError = none ∧ Performs ok s s' op) := by
  have hspec : s.fatalError = none → (∀ f, op ≠ .dispatch f) →
      (∃ s', s.step hpack op = some s' ∧ Reaches ok silent s.view s'.view) →
      ∃ s', s.step hpack op = some s' ∧ (Failed s s' ∨ s.fatalError = none ∧ Performs ok s s' op) := by
    rintro hfatal hother ⟨s', heq, h⟩
    refine ⟨s', heq, .inr ⟨hfatal, ?_⟩⟩
    rw [Performs]
    · exact h
    · exact hother
  cases op with
  | dispatch f =>
    obtain ⟨s', heq, hfailed | hperforms⟩ := dispatchFrame_spec hpack (hsound hallowed) (hok f rfl)
    · exact ⟨s', heq, .inl hfailed⟩
    · exact ⟨s', heq, .inr ⟨hallowed, hperforms⟩⟩
  | attach request =>
    have hfatal : s.fatalError = none := by
      simp only [Allowed, hasHeadroom, Bool.and_eq_true, Option.isNone_iff_eq_none] at hallowed
      exact hallowed.1.1.2
    exact hspec hfatal (by simp) (attach_spec ok silent (hsound hfatal) hallowed request)
  | provide id bytes => exact hspec hallowed (by simp) ⟨_, rfl, provide_reaches ok silent id bytes⟩
  | streamRequestBody id ended =>
    exact hspec hallowed (by simp) (streamRequestBody_spec ok silent (hsound hallowed) id ended)
  | drainSendBody id cap =>
    by_cases hid : id ∈ s.streams.keys
    · obtain ⟨stream, hget⟩ := ArrayMap.mem_keys.1 hid
      obtain ⟨s', heq, -, h⟩ := drainSendBody_spec ok silent (hsound hallowed) hget cap
      exact hspec hallowed (by simp) ⟨s', (if_pos hid).trans heq, h⟩
    · exact hspec hallowed (by simp) ⟨s, if_neg hid, .refl⟩
  | drainSendBodies =>
    obtain ⟨s', stopped, heq, -, h⟩ := drainSendBodies_spec ok silent s.remoteMaxFrameSize s.drainFuel s
      (hsound hallowed) s.drainMeasure_lt_drainFuel
    exact hspec hallowed (by simp) ⟨s', by rw [step, heq]; rfl, h⟩
  | flush wrote => exact hspec hallowed (by simp) ⟨_, rfl, .refl⟩
  | deliver id answers =>
    by_cases hid : id ∈ s.streams.keys
    · obtain ⟨s', heq, h⟩ := deliver_spec ok silent hid answers
      exact hspec hallowed (by simp) ⟨s', (if_pos hid).trans heq, h⟩
    · exact hspec hallowed (by simp) ⟨s, if_neg hid, .refl⟩
  | abort id => exact hspec hallowed (by simp) ⟨_, rfl, abort_reaches ok silent id⟩
  | replenishWindow paused => exact hspec hallowed (by simp) ⟨_, rfl, replenishWindow_reaches ok silent paused⟩
  | failAll err alive => exact ⟨_, rfl, .inl (failAll_failed err alive)⟩

/-- What the actions keep is kept by every run without a fatal error, and so is of the trace what is
kept by the events of one.  What is kept may be about what was noted of the frames that were read,
each in the state that it came in. -/
theorem run_observed_spec {γ : Type} (ok : StreamView → Prop) (admits : View → Frame → Prop)
    (note : Session H → Op → γ → γ) (I : γ → View → Prop) (J : List Event → Prop)
    (hsilent : ∀ g v v', v.Sound → I g v → Action ok silent v v' → I g v')
    (hdispatch : ∀ g (s : Session H) f v', s.view.Sound → I g s.view → admits s.view f →
      Action ok (Eq f) s.view v' → v'.trace = s.trace ++ [.received f] → I (note s (.dispatch f) g) v')
    (hother : ∀ g s op, (∀ f, op ≠ .dispatch f) → note s op g = g)
    (hJ : ∀ g v, I g v → J v.trace)
    (hplain : ∀ t events, J t → (∀ e ∈ events, e.Plain) → J (t ++ events)) (ops : List Op) {g : γ}
    (hsound : s.view.Sound) (hs : I g s.view)
    (halong : Along hpack (fun s op => ∀ f, op = .dispatch f →
      Answers hpack ok s f ∧ admits s.view f) s ops) :
    ∃ s', run hpack s ops = some s' ∧ J s'.trace ∧
      (s'.fatalError = none → s'.view.Sound ∧ I (observe (transition hpack) note s ops g) s'.view) := by
  have hreaches : ∀ g v v', v.Sound → I g v → Reaches ok silent v v' → v'.Sound ∧ I g v' := by
    intro g v v' hsound hv hreach
    induction hreach with
    | refl => exact ⟨hsound, hv⟩
    | tail _ haction ih => exact ⟨haction.sound ih.1, hsilent g _ _ ih.1 ih.2 haction⟩
  obtain ⟨s', replies, heq, hs'⟩ := exists_run_observed note
    (I := fun s g => J s.trace ∧ (s.fatalError = none → s.view.Sound ∧ I g s.view))
    (fun s op g hs hop => by
      obtain ⟨hallowed, hguard⟩ := hop
      obtain ⟨s', heq, hfailed | ⟨hfatal, hperforms⟩⟩ :=
        step_spec hpack ok (fun h => (hs.2 h).1) hallowed fun f hf => (hguard f hf).1
      · obtain ⟨hfatal, events, hevents, htrace⟩ := hfailed
        refine ⟨s', (), by rw [transition, heq]; rfl, htrace ▸ hplain _ _ hs.1 hevents, fun hnone => ?_⟩
        rw [hnone] at hfatal
        exact absurd hfatal (by simp)
      · obtain ⟨hsound, hs⟩ := hs.2 hfatal
        have hs' : s'.view.Sound ∧ I (note s op g) s'.view := by
          by_cases hdispatches : ∃ f, op = .dispatch f
          · obtain ⟨f, rfl⟩ := hdispatches
            obtain ⟨v, haction, htrace, hreach⟩ := hperforms
            exact hreaches _ v _ (haction.sound hsound)
              (hdispatch g s f v hsound hs (hguard f rfl).2 haction htrace) hreach
          · rw [not_exists] at hdispatches
            rw [hother g s op hdispatches]
            rw [Performs] at hperforms
            · exact hreaches g _ _ hsound hs hperforms
            · exact hdispatches
        exact ⟨s', (), by rw [transition, heq]; rfl, hJ _ _ hs'.2, fun _ => hs'⟩)
    ops ⟨hJ _ _ hs, fun _ => ⟨hsound, hs⟩⟩ halong
  exact ⟨s', by rw [run, heq]; rfl, hs'⟩

/-- What the actions keep, where frames are as they should be, is kept by every run without a
fatal error. -/
theorem run_spec (ok : StreamView → Prop) (admits : View → Frame → Prop) (I : View → Prop)
    (J : List Event → Prop)
    (hI : ∀ v v', v.Sound → I v → Action ok (admits v) v v' → I v') (hJ : ∀ v, I v → J v.trace)
    (hplain : ∀ t events, J t → (∀ e ∈ events, e.Plain) → J (t ++ events)) (ops : List Op)
    (hsound : s.view.Sound) (hs : I s.view)
    (halong : Along hpack (fun s op => ∀ f, op = .dispatch f →
      Answers hpack ok s f ∧ admits s.view f) s ops) :
    ∃ s', run hpack s ops = some s' ∧ J s'.trace ∧ (s'.fatalError = none → s'.view.Sound ∧ I s'.view) := by
  refine run_observed_spec hpack ok admits (fun _ _ => id) (fun (_ : Unit) => I) J
    (fun _ v v' hsound hv haction => hI v v' hsound hv (haction.mono fun _ h => absurd h not_false))
    (fun _ s f v' hsound hs hadmits haction _ => hI _ v' hsound hs (haction.mono ?_))
    (fun _ _ _ _ => rfl) (fun _ => hJ) hplain ops hsound (g := ()) hs halong
  rintro _ rfl
  exact hadmits

/-- A connection at first. -/
theorem sound_new (h : H) : ({ hpack := h } : Session H).view.Sound :=
  { initial_le := (by decide : DEFAULT_WINDOW_SIZE ≤ MAX_WINDOW_SIZE)
    maxFrame_ge := le_refl DEFAULT_MAX_FRAME_SIZE
    maxFrame_le := (by decide : DEFAULT_MAX_FRAME_SIZE ≤ MAX_FRAME_SIZE)
    conn_nonneg := Int.natCast_nonneg DEFAULT_WINDOW_SIZE
    conn_le := (by decide : (DEFAULT_WINDOW_SIZE : Int) ≤ MAX_WINDOW_SIZE)
    window_le := by intros; contradiction
    initial_sub_le := by intros; contradiction
    nextId_pos := Nat.zero_lt_one
    opened := (by intros; contradiction) }

/-- A decoder for which each byte is a field that says the answer is final. -/
def finalStatus : Lshpack Unit := ⟨fun h _ => (1, [58, 115, 116, 97, 116, 117, 115], [50, 48, 48], h)⟩

end Session

end OhosBun.Http2
