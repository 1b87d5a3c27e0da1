/-
# `OhosBun.Http2.HeaderBlocks` — what the decoder of header fields is given

The decoder is the connection's: it has to see each block that the server sends, of whatever stream,
once and in order (`Synced`).  A block is the fragment of its HEADERS and what its CONTINUATION frames
bring (`Blocks.read`).
-/
import OhosBun.Http2.Aside
import OhosBun.Http2.Steps

namespace OhosBun.Http2

open OhosBun.Lib

/-! ## The blocks that are received -/

def Event.received? : Event → Option Frame
  | .received f => some f
  | _ => none

def received (t : List Event) : List Frame := t.filterMap Event.received?

/-- The blocks that are complete, and what there is of the next one. -/
structure Blocks where
  complete : List Bytes := []
  pending : Bytes := []
deriving DecidableEq

/-- The part of a block that is in HEADERS, without padding and priority. -/
def Frame.fragment (f : Frame) : Bytes :=
  let fragment := if f.has PADDED then (stripPadding f.payload).getD [] else f.payload
  if f.has PRIORITY then fragment.drop PRIORITY_SIZE else fragment

namespace Blocks

/-- The block is this so far; it may be complete. -/
def extend (b : Blocks) (block : Bytes) (endHeaders : Bool) : Blocks :=
  if endHeaders then ⟨b.complete ++ [block], []⟩ else { b with pending := block }

def read (b : Blocks) (f : Frame) : Blocks :=
  if f.type = FT_HEADERS then b.extend f.fragment (f.has END_HEADERS)
  else if f.type = FT_CONTINUATION then b.extend (b.pending ++ f.payload) (f.has END_HEADERS)
  else b

end Blocks

def blocks (t : List Event) : Blocks := (received t).foldl Blocks.read {}

/-- What becomes of the decoder when it is given a block. -/
def Lshpack.decodeBlock {H : Type} (hpack : Lshpack H) (h : H) (block : Bytes) : H :=
  (discardFields hpack block h).2

section Fragment
variable {f : Frame} {fragment : Bytes}

theorem fragment_of_headersFragment (h : Session.headersFragment f = .ok fragment) :
    f.fragment = fragment := by
  rw [Session.headersFragment] at h
  cases hpayload : (if f.has PADDED then stripPadding f.payload else some f.payload) with
  | none =>
    rw [hpayload] at h
    exact absurd h (by simp)
  | some payload =>
    rw [hpayload] at h
    dsimp only at h
    have hstart : (if f.has PADDED then (stripPadding f.payload).getD [] else f.payload) = payload := by
      split at hpayload
      · rw [if_pos ‹_›, hpayload]
        rfl
      · rw [if_neg ‹_›]
        exact Option.some.inj hpayload
    rw [Frame.fragment, hstart]
    by_cases hshort : f.has PRIORITY ∧ payload.length < PRIORITY_SIZE
    · rw [if_pos hshort] at h
      exact absurd h (by simp)
    rw [if_neg hshort] at h
    by_cases hlong : LOCAL_MAX_HEADER_LIST_SIZE <
        (if f.has PRIORITY then payload.drop PRIORITY_SIZE else payload).length
    · rw [if_pos hlong] at h
      exact absurd h (by simp)
    rw [if_neg hlong] at h
    exact Except.ok.inj h

section Decode
variable {H : Type} (hpack : Lshpack H) {statusCode offset : Nat} {block name value : Bytes} {h h' h₁ : H}
  {d d' : Decoding}

theorem decodeFields_of_decodeField (hblock : block ≠ [])
    (hfield : hpack.decodeField h block = (some (offset, name, value), h₁)) :
    decodeFields hpack statusCode block h d =
      match d.field statusCode name value with
      | none => (.error .headerListTooLarge, h₁)
      | some d => decodeFields hpack statusCode (block.drop offset) h₁ d := by
  rw [decodeFields, if_neg hblock]
  split
  · rename_i hnone
    exact absurd (Prod.mk.inj (hfield.symm.trans hnone)).1 (by simp)
  · rename_i hfield'
    obtain ⟨hsome, rfl⟩ := Prod.mk.inj (hfield.symm.trans hfield')
    obtain ⟨rfl, hrest⟩ := Prod.mk.inj (Option.some.inj hsome)
    obtain ⟨rfl, rfl⟩ := Prod.mk.inj hrest
    rfl

theorem discardFields_of_decodeField (hblock : block ≠ [])
    (hfield : hpack.decodeField h block = (some (offset, name, value), h₁)) :
    discardFields hpack block h = discardFields hpack (block.drop offset) h₁ := by
  rw [discardFields, if_neg hblock]
  split
  · rename_i hnone
    exact absurd (Prod.mk.inj (hfield.symm.trans hnone)).1 (by simp)
  · rename_i hfield'
    obtain ⟨hsome, rfl⟩ := Prod.mk.inj (hfield.symm.trans hfield')
    rw [(Prod.mk.inj (Option.some.inj hsome)).1]

/-- A block that is kept is decoded as one that is not. -/
theorem discardFields_of_decodeFields
    (heq : decodeFields hpack statusCode block h d = (.ok d', h')) :
    discardFields hpack block h = (true, h') := by
  induction block, h, d using decodeFields.induct hpack statusCode with
  | case1 h d =>
    rw [decodeFields, if_pos rfl] at heq
    rw [discardFields, if_pos rfl, (Prod.mk.inj heq).2]
  | case2 block h d hblock h₁ hfield =>
    rw [decodeFields, if_neg hblock] at heq
    split at heq
    · exact absurd (Prod.mk.inj heq).1 (by simp)
    · rename_i hsome
      exact absurd (Prod.mk.inj (hfield.symm.trans hsome)).1 (by simp)
  | case3 block h d hblock offset name value h₁ hfield hnone =>
    rw [decodeFields_of_decodeField hpack hblock hfield, hnone] at heq
    exact absurd (Prod.mk.inj heq).1 (by simp)
  | case4 block h d hblock offset name value h₁ hfield d₁ hsome ih =>
    rw [decodeFields_of_decodeField hpack hblock hfield, hsome] at heq
    rw [discardFields_of_decodeField hpack hblock hfield]
    exact ih heq

end Decode

end Fragment

namespace Session
variable {H : Type} (hpack : Lshpack H) {s s' : Session H} {f : Frame} {h₀ : H}

/-- The decoder was given the blocks that are complete; the rest is there. -/
structure Synced (h₀ : H) (s : Session H) : Prop where
  hpack : s.hpack = (blocks s.trace).complete.foldl hpack.decodeBlock h₀
  expecting : s.expectingContinuation < s.nextStreamId
  pending : s.expectingContinuation ≠ 0 → s.pendingBlock = (blocks s.trace).pending

section Synced
variable {hpack}

theorem Synced.aside (hs : Synced hpack h₀ s) (h : s.Aside s') (hblocks : blocks s'.trace = blocks s.trace) :
    Synced hpack h₀ s' where
  hpack := by rw [h.hpack, hblocks, hs.hpack]
  expecting := by rw [h.expecting]; exact hs.expecting.trans_le h.nextId
  pending hne := by
    rw [h.expecting] at hne
    rw [h.pending hs.expecting, hblocks, hs.pending hne]

/-- A block that is complete was given to the decoder. -/
theorem Synced.complete {block : Bytes} (hs : Synced hpack h₀ s)
    (hblocks : blocks s'.trace = ⟨(blocks s.trace).complete ++ [block], []⟩)
    (hhpack : s'.hpack = hpack.decodeBlock s.hpack block) (hexpecting : s'.expectingContinuation = 0)
    (hnext : s.nextStreamId ≤ s'.nextStreamId) : Synced hpack h₀ s' where
  hpack := by rw [hblocks, List.foldl_concat, ← hs.hpack, hhpack]
  expecting := by
    rw [hexpecting]
    exact (Nat.zero_le _).trans_lt (hs.expecting.trans_le hnext)
  pending hne := absurd hexpecting hne

theorem decodeHeaderBlock_hpack {id : Nat} {stream : Stream} (hget : s.streams.get? id = some stream)
    (heq : s.decodeHeaderBlock hpack id = some s') (hfatal : s'.fatalError = none) :
    s'.hpack = hpack.decodeBlock s.hpack stream.headerBlock ∧
      s'.expectingContinuation = s.expectingContinuation ∧ s.nextStreamId ≤ s'.nextStreamId := by
  rw [decodeHeaderBlock, hget] at heq
  dsimp only [Option.bind_eq_bind, Option.bind_some] at heq
  split at heq
  · obtain rfl := Option.some.inj heq
    contradiction
  · rename_i d h hdecode
    have hdiscard := discardFields_of_decodeFields hpack hdecode
    have hside := Aside.finishHeaderBlock (Aside.refl
      { s.modifyStream id fun stream => { stream with headerBlock := [] } with hpack := h }) id stream d
    rw [Option.some.inj heq] at hside
    exact ⟨hside.hpack.trans (congrArg Prod.snd hdiscard).symm, hside.expecting, hside.nextId⟩

theorem endHeaders_hpack {id : Nat} {stream : Stream} (hget : s.streams.get? id = some stream)
    (heq : s.endHeaders hpack id = some s') (hfatal : s'.fatalError = none) :
    s'.hpack = hpack.decodeBlock s.hpack stream.headerBlock ∧
      s'.expectingContinuation = s.expectingContinuation ∧ s.nextStreamId ≤ s'.nextStreamId := by
  rw [endHeaders, hget] at heq
  dsimp only [Option.bind_eq_bind, Option.bind_some] at heq
  split at heq
  · have h := decodeHeaderBlock_hpack (get?_modifyStream_of hget Stream.recvEndStream) heq hfatal
    exact h
  · exact decodeHeaderBlock_hpack hget heq hfatal

theorem decodeDiscardOrphan_hpack (hpack : Lshpack H) (s : Session H) : (s.decodeDiscardOrphan hpack).hpack =
    hpack.decodeBlock s.hpack s.orphanHeaderBlock ∧
      (s.decodeDiscardOrphan hpack).expectingContinuation = s.expectingContinuation ∧
      s.nextStreamId ≤ (s.decodeDiscardOrphan hpack).nextStreamId := by
  rw [decodeDiscardOrphan]
  dsimp only
  split
  · exact ⟨rfl, rfl, le_rfl⟩
  · exact ⟨rfl, rfl, le_rfl⟩

theorem Synced.headers (hs : Synced hpack h₀ s) (hsound : s.view.Sound) (hexpecting : s.expectingContinuation = 0)
    (htype : f.type = FT_HEADERS) (hfatal : s'.fatalError = none)
    (heq : (s.log (.received f)).dispatchHeaders hpack f = some s')
    (hblocks : blocks s'.trace = (blocks s.trace).read f) : Synced hpack h₀ s' := by
  rw [Blocks.read, if_pos htype, Blocks.extend] at hblocks
  rw [dispatchHeaders] at heq
  dsimp only at heq
  cases hget : (s.log (.received f)).streams.get? f.streamId with
  | none =>
    rw [hget] at heq
    dsimp only at heq
    split at heq
    · obtain rfl := Option.some.inj heq
      contradiction
    rename_i hidle
    cases hfragment : headersFragment f with
    | error err =>
      rw [hfragment] at heq
      obtain rfl := Option.some.inj heq
      contradiction
    | ok fragment =>
      rw [hfragment] at heq
      rw [fragment_of_headersFragment hfragment] at hblocks
      dsimp only at heq
      split at heq
      · rename_i hend
        obtain rfl := Option.some.inj heq
        rw [if_pos hend] at hblocks
        obtain ⟨hhpack, hexpecting', hnext⟩ := decodeDiscardOrphan_hpack hpack
          { s.log (.received f) with continuationCount := 0, orphanHeaderBlock := fragment }
        exact hs.complete hblocks hhpack (hexpecting'.trans hexpecting) hnext
      · rename_i hend
        obtain rfl := Option.some.inj heq
        rw [if_neg hend] at hblocks
        refine ⟨by rw [hblocks]; exact hs.hpack, ?_, fun _ => ?_⟩
        · simp only [isIdle, Bool.or_eq_true, decide_eq_true_iff, not_or, not_le] at hidle
          exact hidle.2
        · rw [hblocks]
          exact congrArg (fun o => (Option.map Stream.headerBlock o).getD fragment) hget
  | some stream =>
    rw [hget] at heq
    dsimp only at heq
    cases hfragment : headersFragment f with
    | error err =>
      rw [hfragment] at heq
      obtain rfl := Option.some.inj heq
      contradiction
    | ok fragment =>
      rw [hfragment] at heq
      rw [fragment_of_headersFragment hfragment] at hblocks
      dsimp only at heq
      generalize hs₁ : ({ s.log (.received f) with
        continuationCount := 0, streamProgressed := true } : Session H) = s₁ at heq
      have hget₁ : s₁.streams.get? f.streamId = some stream := by
        rw [← hs₁]
        exact hget
      have hget₂ := get?_modifyStream_of hget₁ fun stream =>
        { stream with headerBlock := fragment, headersEndStream := f.has END_STREAM }
      split at heq
      · rename_i hend
        rw [if_pos hend] at hblocks
        obtain ⟨hhpack, hexpecting', hnext⟩ := endHeaders_hpack hget₂ heq hfatal
        rw [← hs₁] at hhpack hexpecting' hnext
        exact hs.complete hblocks hhpack (hexpecting'.trans hexpecting) hnext
      · rename_i hend
        obtain rfl := Option.some.inj heq
        rw [if_neg hend] at hblocks
        rw [← hs₁] at hblocks hget₂ ⊢
        refine ⟨by rw [hblocks]; exact hs.hpack, ?_, fun _ => ?_⟩
        · exact (hsound.opened f.streamId stream.view (view_streams_of_get? hget)).2
        · rw [hblocks]
          exact congrArg (fun o => (Option.map Stream.headerBlock o).getD _) hget₂

theorem Synced.continuation (hs : Synced hpack h₀ s) (htype : f.type = FT_CONTINUATION)
    (hfatal : s'.fatalError = none) (heq : (s.log (.received f)).dispatchContinuation hpack f = some s')
    (hblocks : blocks s'.trace = (blocks s.trace).read f) : Synced hpack h₀ s' := by
  have hheaders : f.type ≠ FT_HEADERS := htype ▸ (by decide)
  rw [Blocks.read, if_neg hheaders, if_pos htype, Blocks.extend] at hblocks
  rw [dispatchContinuation] at heq
  split at heq
  · obtain rfl := Option.some.inj heq
    contradiction
  rename_i hexpected
  obtain ⟨hexpecting, hid⟩ := not_or.mp hexpected
  have hpending := hs.pending hexpecting
  dsimp only at heq
  split at heq
  · obtain rfl := Option.some.inj heq
    contradiction
  cases hget : (s.log (.received f)).streams.get? (s.log (.received f)).expectingContinuation with
  | some stream =>
    rw [hget] at heq
    dsimp only at heq
    have hblock : stream.headerBlock = (blocks s.trace).pending := by
      rw [← hpending]
      exact (congrArg (fun o => (Option.map Stream.headerBlock o).getD _) hget).symm
    rw [← hblock] at hblocks
    split at heq
    · obtain rfl := Option.some.inj heq
      contradiction
    generalize hs₁ : ({ s.log (.received f) with
      continuationCount := (s.log (.received f)).continuationCount + 1 } : Session H) = s₁ at heq
    have hget₁ : s₁.streams.get? s.expectingContinuation = some stream := by
      rw [← hs₁]
      exact hget
    have hget₂ := get?_modifyStream_of hget₁ fun stream =>
      { stream with headerBlock := stream.headerBlock ++ f.payload }
    split at heq
    · rename_i hend
      rw [if_pos hend] at hblocks
      obtain ⟨hhpack, hexpecting', hnext⟩ := endHeaders_hpack
        (s := { s₁.modifyStream s.expectingContinuation fun stream =>
          { stream with headerBlock := stream.headerBlock ++ f.payload } with expectingContinuation := 0 })
        hget₂ heq hfatal
      rw [← hs₁] at hhpack hnext
      exact hs.complete hblocks hhpack hexpecting' hnext
    · rename_i hend
      obtain rfl := Option.some.inj heq
      rw [if_neg hend] at hblocks
      rw [← hs₁] at hblocks hget₂ ⊢
      refine ⟨by rw [hblocks]; exact hs.hpack, hs.expecting, fun _ => ?_⟩
      rw [hblocks]
      exact congrArg (fun o => (Option.map Stream.headerBlock o).getD _) hget₂
  | none =>
    rw [hget] at heq
    dsimp only at heq
    have hblock : s.orphanHeaderBlock = (blocks s.trace).pending := by
      rw [← hpending]
      exact (congrArg (fun o => (Option.map Stream.headerBlock o).getD _) hget).symm
    rw [← hblock] at hblocks
    split at heq
    · obtain rfl := Option.some.inj heq
      contradiction
    split at heq
    · rename_i hend
      obtain rfl := Option.some.inj heq
      rw [if_pos hend] at hblocks
      obtain ⟨hhpack, hexpecting', hnext⟩ := decodeDiscardOrphan_hpack hpack
        { s.log (.received f) with
          continuationCount := (s.log (.received f)).continuationCount + 1
          orphanHeaderBlock := (s.log (.received f)).orphanHeaderBlock ++ f.payload
          expectingContinuation := 0 }
      exact hs.complete hblocks hhpack hexpecting' hnext
    · rename_i hend
      obtain rfl := Option.some.inj heq
      rw [if_neg hend] at hblocks
      refine ⟨by rw [hblocks]; exact hs.hpack, hs.expecting, fun _ => ?_⟩
      rw [hblocks]
      exact congrArg (fun o => (Option.map Stream.headerBlock o).getD _) hget

/-- A frame is read. -/
theorem Synced.dispatch (hs : Synced hpack h₀ s) (hsound : s.view.Sound) (hfatal : s'.fatalError = none)
    (heq : s.dispatchFrame hpack f = some s') (hblocks : blocks s'.trace = (blocks s.trace).read f) :
    Synced hpack h₀ s' := by
  rw [dispatchFrame] at heq
  split at heq
  · obtain rfl := Option.some.inj heq
    contradiction
  rename_i hexpecting
  split at heq
  · obtain rfl := Option.some.inj heq
    contradiction
  rw [dispatchType] at heq
  by_cases hheaders : f.type = FT_HEADERS
  · have hnone : s.expectingContinuation = 0 := by
      by_contra h
      exact hexpecting ⟨h, hheaders ▸ (by decide)⟩
    rw [hheaders, if_neg (by decide), if_neg (by decide), if_neg (by decide), if_neg (by decide),
      if_pos rfl] at heq
    exact hs.headers hsound hnone hheaders hfatal heq hblocks
  by_cases hcontinuation : f.type = FT_CONTINUATION
  · rw [hcontinuation, if_neg (by decide), if_neg (by decide), if_neg (by decide), if_neg (by decide),
      if_neg (by decide), if_pos rfl] at heq
    exact hs.continuation hcontinuation hfatal heq hblocks
  rw [Blocks.read, if_neg hheaders, if_neg hcontinuation] at hblocks
  refine hs.aside ?_ hblocks
  have hlog : s.Aside (s.log (.received f)) := (Aside.refl s).log _
  rw [if_neg hheaders, if_neg hcontinuation] at heq
  split at heq
  · exact hlog.dispatchSettings heq
  split at heq
  · exact hlog.dispatchWindowUpdate heq
  split at heq
  · exact Option.some.inj heq ▸ hlog.dispatchPing f
  split at heq
  · exact Option.some.inj heq ▸ hlog.dispatchPriority f
  split at heq
  · exact Option.some.inj heq ▸ hlog.dispatchData f
  split at heq
  · exact Option.some.inj heq ▸ hlog.dispatchRstStream f
  split at heq
  · exact Option.some.inj heq ▸ hlog.dispatchGoaway f
  split at heq
  · exact Option.some.inj heq ▸ hlog.fail _
  · exact Option.some.inj heq ▸ hlog

end Synced

/-! ## Runs -/

variable {t events : List Event} {ok : StreamView → Prop} {v v' : View}

theorem received_append :
    received (t ++ events) = received t ++ received events := List.filterMap_append

theorem received_append_of (h : ∀ e ∈ events, e.received? = none) :
    received (t ++ events) = received t := by
  rw [received_append, received, received, List.filterMap_eq_nil_iff.mpr h, List.append_nil]

/-- What is not reading a frame. -/
theorem received_of_action (h : Action ok silent v v') :
    received v'.trace = received v.trace := by
  have hone : ∀ {e : Event}, e.received? = none → ∀ e' ∈ [e], e'.received? = none :=
    fun h => List.forall_mem_singleton.mpr h
  cases h with
  | received f hf => exact False.elim hf
  | reset f hf => exact False.elim hf
  | dataIgnored f hf => exact False.elim hf
  | dataTaken f hf => exact False.elim hf
  | remove => rfl
  | heard => rfl
  | preface => exact received_append_of (by simp [Event.received?])
  | skip => exact received_append_of (by simp [bodyEvents, Event.received?])
  | request bytes ended awaiting endStream frames =>
    refine received_append_of fun e he => ?_
    rcases List.mem_append.mp he with he | he
    · revert e
      simp [bodyEvents, Event.received?]
    · obtain ⟨g, -, rfl⟩ := List.mem_map.mp he
      rfl
  | _ => exact received_append_of (hone rfl)

theorem received_of_reaches (h : Reaches ok silent v v') :
    received v'.trace = received v.trace := by
  induction h with
  | refl => rfl
  | tail _ haction ih => exact (received_of_action haction).trans ih

/-- A decoder that knows what it was given; a block is one field. -/
def recorder : Lshpack (List Bytes) := ⟨fun h src => (src.length, [120], [], h ++ [src])⟩

/-- A stream that is removed in the middle of its block, and one that is not there any more. -/
def removedMeanwhile : List Op :=
  [.attach ⟨.encoded [0x82], .bytes [], false⟩,
    .dispatch ⟨FT_SETTINGS, 0, 0, []⟩,
    .dispatch ⟨FT_HEADERS, PADDED, 1, [1, 0x88, 0x89, 0]⟩,
    .abort 1,
    .dispatch ⟨FT_CONTINUATION, END_HEADERS, 1, [0x8a]⟩,
    .dispatch ⟨FT_HEADERS, END_HEADERS, 1, [0x8b]⟩]

end Session

end OhosBun.Http2
