/-
# `OhosBun.SourceMap.RoundTrip` — encode, finalize, decode

What a builder holds after a run of calls is a list of full windows and a
pending one (`Builder.Holds`).  The blob that `finalize` makes of it has, for
each window, a sync entry with the window's first row and its place in the
stream; the decoder seeds itself from the entry and drains the window.

The one limit is the sync entry's `byte_offset`, a `u32`: `flush_window` asserts
in debug builds that the stream is no longer than that and truncates in release
builds.  `decode_finalize` is the round trip under the assertion, and
`decode_replicate_ne` what happens without it.
-/
import Mathlib.Data.List.Infix
import OhosBun.SourceMap.WindowReader

namespace OhosBun.SourceMap

open OhosBun.Lib

/-! ## What a run appends -/

/-- The rows that a sequence of calls appends, `line` separators in. -/
def appended : (line : Nat) → List Call → List State
  | _, [] => []
  | line, .lineSeparator :: calls => appended (line + 1) calls
  | line, .mapping m :: calls =>
    { generatedLine := Int32.ofNat line
      generatedColumn := m.generatedColumn
      sourceIndex := m.sourceIndex
      originalLine := m.originalLine
      originalColumn := m.originalColumn } :: appended line calls

/-- Line separators among calls. -/
def separatorCount (calls : List Call) : Nat := calls.count .lineSeparator

theorem appended_append (calls more : List Call) : ∀ line,
    appended line (calls ++ more) = appended line calls ++
      appended (line + separatorCount calls) more := by
  induction calls with
  | nil => exact fun line => rfl
  | cons call calls ih =>
    intro line
    cases call with
    | lineSeparator =>
      rw [List.cons_append, appended, appended, ih, separatorCount, separatorCount,
        List.count_cons_self, Nat.add_assoc, Nat.add_comm 1]
    | mapping m =>
      rw [List.cons_append, appended, appended, ih, List.cons_append, separatorCount,
        separatorCount, List.count_cons_of_ne (by simp)]

theorem appended_separators (n : Nat) : ∀ line,
    appended line (List.replicate n .lineSeparator) = [] := by
  induction n with
  | zero => exact fun _ => rfl
  | succ n ih => exact fun line => ih (line + 1)

/-- Every window that the calls open starts at a stream offset with `P`: at each
prefix of the calls that leaves rows to flush, the stream's length has it. -/
def WindowsStart (P : Nat → Prop) (b : Builder) (calls : List Call) : Prop :=
  ∀ pre, pre <+: calls → (b.run pre).pending ≠ [] → P (b.run pre).winStream.length

/-- The assertion of `flush_window`, `self.win_stream.len() <= u32::MAX as usize`,
over a whole run and its `finalize`. -/
def OffsetsFit (calls : List Call) : Prop := WindowsStart (· < 2 ^ 32) Builder.init calls

/-! ## What a builder holds -/

/-- A committed window: its first row and the others. -/
structure Window where
  first : State
  rest : List State

namespace Window

def rows (w : Window) : List State := w.first :: w.rest

def bytes (w : Window) : Bytes := windowBytes w.first w.rest

end Window

/-- The sync entries of windows that start at `off`. -/
def syncEntriesFrom : (off : Nat) → List Window → List SyncEntry
  | _, [] => []
  | off, w :: ws =>
    syncEntryOf w.first (UInt32.ofNat off) :: syncEntriesFrom (off + w.bytes.length) ws

/-- The stream offset of window `i`. -/
def windowStart (ws : List Window) (i : Nat) : Nat := ((ws.take i).flatMap Window.bytes).length

theorem syncEntriesFrom_snoc (ws : List Window) (w : Window) : ∀ off,
    syncEntriesFrom off (ws ++ [w]) = syncEntriesFrom off ws ++
      [syncEntryOf w.first (UInt32.ofNat (off + (ws.flatMap Window.bytes).length))] := by
  induction ws with
  | nil => intro off; simp [syncEntriesFrom]
  | cons v ws ih =>
    intro off
    simp only [List.cons_append, syncEntriesFrom, ih, List.flatMap_cons, List.length_append,
      Nat.add_assoc]

@[simp] theorem syncEntriesFrom_length (ws : List Window) : ∀ off,
    (syncEntriesFrom off ws).length = ws.length := by
  induction ws with
  | nil => intro off; rfl
  | cons w ws ih => intro off; simp [syncEntriesFrom, ih]

theorem syncEntriesFrom_get (ws : List Window) : ∀ (off : Nat) {i : Nat} {w : Window},
    ws[i]? = some w →
    (syncEntriesFrom off ws)[i]? =
      some (syncEntryOf w.first (UInt32.ofNat (off + windowStart ws i))) := by
  induction ws with
  | nil => intro off i w h; simp at h
  | cons v ws ih =>
    intro off i w h
    cases i with
    | zero =>
      obtain rfl : v = w := by simpa using h
      simp [syncEntriesFrom, windowStart]
    | succ i =>
      have := ih (off + v.bytes.length) (i := i) (w := w) (by simpa using h)
      simp only [syncEntriesFrom, List.getElem?_cons_succ, this, windowStart,
        List.take_succ_cons, List.flatMap_cons, List.length_append, Nat.add_assoc]

section Windows
variable {P : Nat → Prop}

/-- The windows a builder has committed, their starts with `P`. -/
structure Committed (P : Nat → Prop) (b : Builder) (ws : List Window) : Prop where
  entries : b.syncEntries = syncEntriesFrom 0 ws
  stream : b.winStream = ws.flatMap Window.bytes
  size : ∀ w ∈ ws, w.rest.length < 64
  starts : ∀ i < ws.length, P (windowStart ws i)

/-- The builder has seen `line` separators and appended `rows`. -/
structure Builder.Holds (P : Nat → Prop) (b : Builder) (line : Nat) (rows : List State) :
    Prop where
  line : b.generatedLine + b.pendingGeneratedLineDelta = Int32.ofNat line
  pending : b.pending.length < 64
  windows : ∃ ws, Committed P b ws ∧ (∀ w ∈ ws, w.rest.length = 63) ∧
    rows = ws.flatMap Window.rows ++ b.pending

theorem Builder.init_holds : Builder.init.Holds P 0 [] :=
  ⟨rfl, by decide, [], ⟨rfl, rfl, by simp, by simp⟩, by simp, rfl⟩

theorem windowStart_append (ws vs : List Window) {i : Nat} (hi : i ≤ ws.length) :
    windowStart (ws ++ vs) i = windowStart ws i := by
  rw [windowStart, windowStart, List.take_append_of_le_length hi]

variable {b : Builder} {ws : List Window} {line : Nat} {rows : List State}

/-- `flush_window` commits the pending rows as one more window. -/
theorem Committed.flushWindow_cons (h : Committed P b ws) {first : State} {rest : List State}
    (hp : b.pending = first :: rest) (hlen : rest.length < 64) (hstart : P b.winStream.length) :
    Committed P b.flushWindow (ws ++ [⟨first, rest⟩]) := by
  have hlast : windowStart (ws ++ [⟨first, rest⟩]) ws.length = b.winStream.length := by
    rw [windowStart_append _ _ le_rfl, windowStart, List.take_length, h.stream]
  rw [Builder.flushWindow, hp]
  refine ⟨?_, ?_, ?_, ?_⟩
  · rw [syncEntriesFrom_snoc, h.entries, h.stream, Nat.zero_add]
  · show b.winStream ++ encodeWindow _ first rest = _
    rw [encodeWindow_eq _ _ _ (by omega), h.stream, List.flatMap_append]
    simp [Window.bytes]
  · intro w hw
    rcases List.mem_append.mp hw with hw | hw
    · exact h.size w hw
    · obtain rfl := List.mem_singleton.mp hw
      exact hlen
  · intro i hi
    rw [List.length_append, List.length_singleton] at hi
    rcases Nat.lt_succ_iff_lt_or_eq.mp hi with hi | rfl
    · rw [windowStart_append _ _ (Nat.le_of_lt hi)]
      exact h.starts i hi
    · rw [hlast]
      exact hstart

theorem Committed.flushWindow (h : Committed P b ws) (hlen : b.pending.length ≤ 64)
    (hstart : b.pending ≠ [] → P b.winStream.length) :
    ∃ vs, Committed P b.flushWindow (ws ++ vs) ∧ b.flushWindow.pending = [] ∧
      vs.flatMap Window.rows = b.pending ∧ ∀ w ∈ vs, w.rows = b.pending := by
  cases hp : b.pending with
  | nil =>
    rw [Builder.flushWindow, hp]
    exact ⟨[], by simpa using h, hp, by simp, by simp⟩
  | cons first rest =>
    rw [hp] at hlen hstart
    refine ⟨[⟨first, rest⟩], h.flushWindow_cons hp hlen (hstart (List.cons_ne_nil _ _)), ?_, ?_, ?_⟩
    · rw [Builder.flushWindow, hp]
    · simp [Window.rows]
    · simp [Window.rows]

theorem Builder.Holds.appendLineSeparator (h : b.Holds P line rows) :
    b.appendLineSeparator.Holds P (line + 1) rows := by
  obtain ⟨ws, hws, hfull, hrows⟩ := h.windows
  refine ⟨?_, h.pending, ws, ⟨hws.entries, hws.stream, hws.size, hws.starts⟩, hfull, hrows⟩
  show b.generatedLine + (b.pendingGeneratedLineDelta + 1) = _
  rw [← Int32.add_assoc, h.line, Int32.ofNat_add]
  rfl

theorem Builder.Holds.appendMapping (h : b.Holds P line rows)
    (hstart : b.pending ≠ [] → P b.winStream.length) (m : SourceMapState) :
    (b.appendMapping m).Holds P line (rows ++ appended line [.mapping m]) := by
  obtain ⟨ws, hws, hfull, hrows⟩ := h.windows
  have hpending := h.pending
  set row : State := {
    generatedLine := b.generatedLine + b.pendingGeneratedLineDelta
    generatedColumn := m.generatedColumn
    sourceIndex := m.sourceIndex
    originalLine := m.originalLine
    originalColumn := m.originalColumn } with hrow
  set b₁ : Builder := { b with
    generatedLine := b.generatedLine + b.pendingGeneratedLineDelta
    pendingGeneratedLineDelta := 0
    pending := b.pending ++ [row]
    count := b.count + 1 } with hb₁
  have hstep : b.appendMapping m =
      if b₁.pending.length = 64 then b₁.flushWindow else b₁ := rfl
  have hrows₁ : rows ++ appended line [.mapping m] = ws.flatMap Window.rows ++ b₁.pending := by
    rw [hrows, List.append_assoc, hb₁, hrow, h.line]
    rfl
  have hcommitted : Committed P b₁ ws := ⟨hws.entries, hws.stream, hws.size, hws.starts⟩
  have hline : b₁.generatedLine + b₁.pendingGeneratedLineDelta = Int32.ofNat line := by
    rw [hb₁, Int32.add_zero, h.line]
  have hlen₁ : b₁.pending.length = b.pending.length + 1 := by simp [hb₁]
  rw [hstep]
  by_cases hsync : b₁.pending.length = 64
  · rw [if_pos hsync]
    have hne : b.pending ≠ [] := List.ne_nil_of_length_pos (by omega)
    obtain ⟨vs, hvs, hnil, hflat, hmem⟩ := hcommitted.flushWindow (by omega) fun _ => hstart hne
    refine ⟨?_, by rw [hnil]; decide, ws ++ vs, hvs, ?_, ?_⟩
    · unfold Builder.flushWindow
      split
      · exact hline
      · exact hline
    · intro w hw
      rcases List.mem_append.mp hw with hw | hw
      · exact hfull w hw
      · have hlen := congrArg List.length (hmem w hw)
        rw [Window.rows, List.length_cons, hsync] at hlen
        omega
    · rw [hnil, List.append_nil, List.flatMap_append, hflat, hrows₁]
  · rw [if_neg hsync]
    exact ⟨hline, by omega, ws, hcommitted, hfull, hrows₁⟩

/-- A whole run. -/
theorem Builder.Holds.run (calls : List Call) : ∀ {b : Builder} {line : Nat} {rows : List State},
    b.Holds P line rows → WindowsStart P b calls →
      ∃ line', (b.run calls).Holds P line' (rows ++ appended line calls) := by
  induction calls with
  | nil =>
    intro b line rows h _
    exact ⟨line, by simpa [appended, Builder.run] using h⟩
  | cons call calls ih =>
    intro b line rows h hstart
    have hstart' : WindowsStart P (b.call call) calls := fun pre hpre =>
      hstart (call :: pre) (List.prefix_cons_inj call |>.mpr hpre)
    cases call with
    | lineSeparator => exact ih h.appendLineSeparator hstart'
    | mapping m =>
      obtain ⟨line', h'⟩ := ih (h.appendMapping (hstart [] List.nil_prefix) m) hstart'
      rw [List.append_assoc] at h'
      exact ⟨line', h'⟩

/-- What a run leaves to `finalize` to encode. -/
theorem committed_run {calls : List Call} (hstart : WindowsStart P Builder.init calls) :
    ∃ ws, Committed P (Builder.init.run calls).flushWindow ws ∧
      ws.flatMap Window.rows = appended 0 calls := by
  obtain ⟨line, h⟩ := Builder.init_holds.run calls hstart
  obtain ⟨ws, hws, -, hrows⟩ := h.windows
  obtain ⟨vs, hvs, -, hflat, -⟩ :=
    hws.flushWindow (Nat.le_of_lt h.pending) (hstart calls List.prefix_rfl)
  refine ⟨ws ++ vs, hvs, ?_⟩
  rw [List.flatMap_append, hflat, ← hrows, List.nil_append]

end Windows

/-! ## The blob -/

variable {bs bytes : Bytes} {pos i : Nat} {m : InternalSourceMap} {e : SyncEntry} {α : Type*}
  {entries : List SyncEntry} {b : Builder} {ws : List Window} {r : WindowReader}

theorem u32At_standsAt {v : Nat} (h : StandsAt bs pos (leBytes 4 v)) (hv : v < 2 ^ 32) :
    InternalSourceMap.u32At bs pos = some (UInt32.ofNat v) := by
  have hslice := h.slice
  rw [leBytes_length] at hslice
  rw [InternalSourceMap.u32At, hslice, Option.map_some, ofLe_leBytes_of_lt (by omega)]

theorem i32At_standsAt {v : Int32} (h : StandsAt bs pos (leBytes 4 v.toUInt32.toNat)) :
    InternalSourceMap.i32At bs pos = some v := by
  rw [InternalSourceMap.i32At, u32At_standsAt h v.toUInt32.toNat_lt]
  simp

@[simp] theorem SyncEntry.bytes_length (e : SyncEntry) : e.bytes.length = 24 := by
  simp [SyncEntry.bytes]

/-- An entry is read back. -/
theorem syncEntry_standsAt (h : StandsAt m.data (headerSize + i * syncEntrySize) e.bytes) :
    m.syncEntry i = some e := by
  have h' := h
  simp only [SyncEntry.bytes, List.append_assoc] at h'
  have h₁ := h'.right
  have h₂ := h₁.right
  have h₃ := h₂.right
  have h₄ := h₃.right
  have h₅ := h₄.right
  simp only [leBytes_length] at h₁ h₂ h₃ h₄ h₅
  simp only [InternalSourceMap.syncEntry, i32At_standsAt h'.left, i32At_standsAt h₁.left,
    u32At_standsAt h₂.left e.byteOffset.toNat_lt, i32At_standsAt h₃.left, i32At_standsAt h₄.left,
    i32At_standsAt h₅, Option.bind_eq_bind, Option.bind_some, UInt32.ofNat_toNat]
  rfl

/-- The decoder's view of a blob whose tables and stream are given. -/
structure BlobOf (m : InternalSourceMap) (entries : List SyncEntry) (stream : Bytes) : Prop where
  syncCount : m.syncCount = some (UInt32.ofNat entries.length)
  count_lt : entries.length < 2 ^ 32
  syncEntry : ∀ {i : Nat} {e : SyncEntry}, entries[i]? = some e → m.syncEntry i = some e
  stream : m.stream = some (stream ++ [0])

theorem flatMap_length_const {f : α → Bytes} {c : Nat} (h : ∀ a, (f a).length = c) (l : List α) :
    (l.flatMap f).length = l.length * c := by
  induction l with
  | nil => simp
  | cons a l ih => simp only [List.flatMap_cons, List.length_append, h, ih, List.length_cons]; ring

/-- A finalized builder, once its producer has filled the header in. -/
theorem finalize_blobOf (stream : Bytes) (hn : headerSize + entries.length * syncEntrySize < 2 ^ 32)
    (hs : stream.length < 2 ^ 63) (mappingCount inputLineCount : Nat) :
    BlobOf (fillHeader (List.replicate 24 0 ++ leBytes 4 entries.length ++
        leBytes 4 (headerSize + entries.length * syncEntrySize) ++
        entries.flatMap SyncEntry.bytes ++ stream ++ List.replicate streamTailPad 0)
      mappingCount inputLineCount) entries stream := by
  set blob := List.replicate 24 0 ++ leBytes 4 entries.length ++
    leBytes 4 (headerSize + entries.length * syncEntrySize) ++
    entries.flatMap SyncEntry.bytes ++ stream ++ List.replicate streamTailPad 0 with hblob
  have hlen : blob.length = 32 + entries.length * 24 + stream.length + 1 := by
    simp [hblob, flatMap_length_const SyncEntry.bytes_length, streamTailPad]
    omega
  simp only [headerSize, syncEntrySize] at hn
  -- the data, piece by piece
  have hdata : (fillHeader blob mappingCount inputLineCount).data =
      leBytes 8 blob.length ++ (leBytes 8 mappingCount ++ (leBytes 8 inputLineCount ++
        (leBytes 4 entries.length ++ (leBytes 4 (32 + entries.length * 24) ++
          (entries.flatMap SyncEntry.bytes ++ (stream ++ [0])))))) := by
    have hdrop : blob.drop 24 = leBytes 4 entries.length ++
        (leBytes 4 (32 + entries.length * 24) ++
          (entries.flatMap SyncEntry.bytes ++ (stream ++ [0]))) := by
      rw [hblob]
      simp only [List.append_assoc]
      rw [List.drop_left' (by simp)]
      rfl
    simp only [fillHeader, hdrop, List.append_assoc]
  set data := (fillHeader blob mappingCount inputLineCount).data with hd
  have h₀ : StandsAt data 0 data := StandsAt.refl data
  nth_rewrite 2 [hdata] at h₀
  have h₈ := h₀.right
  have h₁₆ := h₈.right
  have h₂₄ := h₁₆.right
  have h₂₈ := h₂₄.right
  have h₃₂ := h₂₈.right
  have hstream := h₃₂.right
  simp only [leBytes_length, flatMap_length_const SyncEntry.bytes_length] at h₈ h₁₆ h₂₄ h₂₈ h₃₂ hstream
  have hoff := u32At_standsAt h₂₈.left hn
  refine ⟨u32At_standsAt h₂₄.left (by omega), by omega, ?_, ?_⟩
  · intro i e hi
    refine syncEntry_standsAt ?_
    have hentry := h₃₂.left.trans (StandsAt.flatMap hi SyncEntry.bytes)
    have hlt := (List.getElem?_eq_some_iff.mp hi).1
    rw [flatMap_length_const SyncEntry.bytes_length, List.length_take,
      Nat.min_eq_left (by omega)] at hentry
    exact hentry
  · have htotal : InternalSourceMap.totalLen (fillHeader blob mappingCount inputLineCount) =
        some blob.length := by
      have hslice := h₀.left.slice
      rw [leBytes_length] at hslice
      rw [InternalSourceMap.totalLen, hslice, Option.map_some, ofLe_leBytes_of_lt (by omega)]
    have hlenStream : (stream ++ [0]).length = blob.length - (32 + entries.length * 24) := by
      rw [hlen, List.length_append, List.length_singleton]
      omega
    have hslice := hstream.slice
    rw [hlenStream] at hslice
    have hoff' : InternalSourceMap.streamOffset (fillHeader blob mappingCount inputLineCount) =
        some (UInt32.ofNat (32 + entries.length * 24)) := hoff
    simp only [InternalSourceMap.stream, hoff', htotal, Option.bind_eq_bind, Option.bind_some,
      UInt32.toNat_ofNat_of_lt' hn]
    exact hslice

/-! ## The round trip -/

/-- One window of a blob: the seed from its sync entry, then its bytes. -/
theorem decodeWindow_eq {stream : Bytes} (hm : BlobOf m entries stream) {w : Window} (start : Nat)
    (hentry : entries[i]? = some (syncEntryOf w.first (UInt32.ofNat start))) (hstart : start < 2 ^ 32)
    (hw : StandsAt stream start w.bytes) (hsize : w.rest.length < 64) :
    m.decodeWindow i = some w.rows := by
  obtain ⟨pre, post, hstream, hpre⟩ := hw
  have hat : StandsAt (stream ++ [0]) start (windowBytes w.first w.rest) :=
    ⟨pre, post ++ [0], by simp [hstream, Window.bytes], hpre⟩
  obtain ⟨e, s, r, hparse, hreader⟩ := parse_readerAt hat hsize .dangling
  have hdrain : r.drain syncInterval w.first = some w.rest :=
    hreader.drain (by omega) w.rest (by omega) (by simp only [syncInterval]; omega)
  have hseed : m.seedWindow i .dangling = some (w.first, r) := by
    simp only [InternalSourceMap.seedWindow, hm.syncEntry hentry, hm.stream, Option.bind_eq_bind,
      Option.bind_some, syncEntryOf, UInt32.toNat_ofNat_of_lt' hstart, hparse]
    rfl
  simp only [InternalSourceMap.decodeWindow, hseed, Option.bind_eq_bind, Option.bind_some, hdrain]
  rfl

theorem mapM_range_eq {f : Nat → Option α} (l : List α) : ∀ k,
    (∀ i a, l[i]? = some a → f (k + i) = some a) →
      (List.range' k l.length).mapM f = some l := by
  induction l with
  | nil => intro k _; rfl
  | cons a l ih =>
    intro k h
    have hrest := ih (k + 1) fun i b hb => by
      have := h (i + 1) b (by simpa using hb)
      rwa [← Nat.add_assoc, Nat.add_right_comm] at this
    have hhead := h 0 a rfl
    rw [Nat.add_zero] at hhead
    simp [List.range'_succ, List.mapM_cons, hhead, hrest]

/-- A blob of committed windows decodes to their rows. -/
theorem decode_committed (h : Committed (· < 2 ^ 32) b ws) (hm : BlobOf m b.syncEntries b.winStream) :
    m.decode = some (ws.flatMap Window.rows) := by
  have hcount : b.syncEntries.length = ws.length := by rw [h.entries, syncEntriesFrom_length]
  have hlt := hm.count_lt
  have hwindows : (List.range' 0 (ws.map Window.rows).length).mapM m.decodeWindow =
      some (ws.map Window.rows) := by
    refine mapM_range_eq _ 0 ?_
    intro i rows hi
    obtain ⟨w, hw, rfl⟩ := by simpa using hi
    have hi' := (List.getElem?_eq_some_iff.mp hw).1
    rw [Nat.zero_add]
    refine decodeWindow_eq hm (windowStart ws i) ?_ (h.starts i hi') ?_
      (h.size w (List.mem_of_getElem? hw))
    · rw [h.entries, syncEntriesFrom_get ws 0 hw, Nat.zero_add]
    · rw [h.stream]
      exact StandsAt.flatMap hw Window.bytes
  rw [List.length_map, ← hcount, ← UInt32.toNat_ofNat_of_lt' hlt] at hwindows
  simp only [InternalSourceMap.decode, hm.syncCount, Option.bind_eq_bind, Option.bind_some,
    List.range_eq_range', hwindows, List.flatMap_def]
  rfl

theorem windowBytes_bounds (first : State) {rest : List State} (h : rest.length < 64) :
    32 ≤ (windowBytes first rest).length ∧ (windowBytes first rest).length < 2 ^ 12 := by
  have hfits := window_fits first rest
  have hhdr := Contents.header_length hfits (rest.length + 1)
  have h₁ := hfits.genCol
  have h₂ := hfits.origLine
  have h₃ := hfits.origCol
  have h₄ := hfits.genLine
  have h₅ := hfits.srcIdx
  have h₆ := hfits.srcIdxMask
  have hgl : ∀ A : Contents, A.genLineLane.length ≤ A.genLine.length + 1 := by
    intro A
    unfold Contents.genLineLane
    split <;> simp
  have hsi : ∀ A : Contents, A.srcIdxLane.length ≤ A.srcIdxMask.length + A.srcIdx.length := by
    intro A
    unfold Contents.srcIdxLane
    split <;> simp
  have h₇ := hgl (contentsFrom 0 .empty (deltas first rest))
  have h₈ := hsi (contentsFrom 0 .empty (deltas first rest))
  simp only [windowBytes, Contents.window, List.length_append, hhdr]
  omega

theorem flatMap_bytes_length_ge (ws : List Window) (h : ∀ w ∈ ws, w.rest.length < 64) :
    32 * ws.length ≤ (ws.flatMap Window.bytes).length := by
  induction ws with
  | nil => simp
  | cons w ws ih =>
    have := ih fun w' hw' => h w' (List.mem_cons_of_mem _ hw')
    have := (windowBytes_bounds w.first (h w (by simp))).1
    simp only [List.flatMap_cons, List.length_append, List.length_cons, Window.bytes] at *
    omega

/-- Offsets that fit leave room for the sync table and the stream. -/
theorem Committed.sizes (h : Committed (· < 2 ^ 32) b ws) :
    ws.length ≤ 2 ^ 27 ∧ b.winStream.length < 2 ^ 33 := by
  rcases List.eq_nil_or_concat ws with rfl | ⟨init, last, rfl⟩
  · rw [h.stream]
    simp
  · rw [List.concat_eq_append] at h ⊢
    have hstart := h.starts init.length (by simp)
    rw [windowStart_append _ _ le_rfl, windowStart, List.take_length] at hstart
    have hge := flatMap_bytes_length_ge init fun w hw => h.size w (List.mem_append_left _ hw)
    have hlast := (windowBytes_bounds last.first (h.size last (by simp))).2
    rw [h.stream]
    simp only [List.flatMap_append, List.length_append, List.flatMap_singleton, Window.bytes,
      List.length_singleton] at *
    omega

/-- **The round trip.**  While no window starts beyond `u32::MAX`, the decoder
gives back exactly the appended rows. -/
theorem decode_finalize (calls : List Call) (mappingCount inputLineCount : Nat)
    (hfit : OffsetsFit calls) :
    ∃ blob, (Builder.init.run calls).finalize = some blob ∧
      (fillHeader blob mappingCount inputLineCount).decode = some (appended 0 calls) := by
  obtain ⟨ws, hws, hrows⟩ := committed_run hfit
  obtain ⟨hcount, hstream⟩ := hws.sizes
  have hlen : (Builder.init.run calls).flushWindow.syncEntries.length = ws.length := by
    rw [hws.entries, syncEntriesFrom_length]
  have htable : headerSize + (Builder.init.run calls).flushWindow.syncEntries.length *
      syncEntrySize < 2 ^ 32 := by
    rw [hlen, headerSize, syncEntrySize]
    omega
  refine ⟨_, if_pos ⟨htable, by rw [hlen]; omega⟩, ?_⟩
  rw [← hrows]
  exact decode_committed hws (finalize_blobOf _ htable (by omega) mappingCount inputLineCount)

theorem decode_finalize_two_rows :
    ∃ blob, (Builder.init.run [.mapping ⟨3, 1, 2, 4⟩, .lineSeparator, .lineSeparator,
        .mapping ⟨0, 1, 7, 4⟩]).finalize = some blob ∧
      (fillHeader blob 2 2).decode = some [⟨0, 3, 1, 2, 4⟩, ⟨2, 0, 1, 7, 4⟩] :=
  decode_finalize [.mapping ⟨3, 1, 2, 4⟩, .lineSeparator, .lineSeparator, .mapping ⟨0, 1, 7, 4⟩]
    2 2 <| by
      have hall : ∀ pre ∈ [Call.mapping ⟨3, 1, 2, 4⟩, .lineSeparator, .lineSeparator,
          .mapping ⟨0, 1, 7, 4⟩].inits, (Builder.init.run pre).winStream.length < 2 ^ 32 := by
        decide
      exact fun pre hpre _ => hall pre ((List.mem_inits _ _).mpr hpre)

/-! ## Beyond 4 GiB

A run of equal rows makes windows of 95 bytes.  The first window that starts
beyond `u32::MAX` starts at 4294967385, its entry says 89, and byte 89 of the
stream is a zero column delta: the decoder reads a window without deltas there. -/

def zeroRow : State := ⟨0, 0, 0, 0, 0⟩

def zeroCall : Call := .mapping ⟨0, 0, 0, 0⟩

def zeroWindow : Window := ⟨zeroRow, List.replicate 63 zeroRow⟩

theorem zeroWindow_length : zeroWindow.bytes.length = 95 := by decide +kernel

theorem zeroWindow_byte : zeroWindow.bytes[89]? = some 0 := by
  set_option maxRecDepth 2048 in decide

theorem appended_zero (n : Nat) :
    appended 0 (List.replicate n zeroCall) = List.replicate n zeroRow := by
  induction n with
  | zero => rfl
  | succ n ih => rw [List.replicate_succ, zeroCall, appended, ← zeroCall, ih]; rfl

theorem flatMap_rows_length (h : ∀ w ∈ ws, w.rest.length = 63) :
    (ws.flatMap Window.rows).length = 64 * ws.length := by
  induction ws with
  | nil => rfl
  | cons w ws ih =>
    have hws := ih fun v hv => h v (List.mem_cons_of_mem _ hv)
    have hw := h w List.mem_cons_self
    simp only [List.flatMap_cons, List.length_append, Window.rows, List.length_cons, hw] at hws ⊢
    omega

theorem eq_replicate_zeroWindow (h : ∀ w ∈ ws, w.rest.length = 63)
    (hrows : ∀ s ∈ ws.flatMap Window.rows, s = zeroRow) :
    ws = List.replicate ws.length zeroWindow := by
  refine List.eq_replicate_iff.mpr ⟨rfl, ?_⟩
  rintro ⟨first, rest⟩ hw
  have hmem : ∀ s ∈ first :: rest, s = zeroRow := fun s hs =>
    hrows s (List.mem_flatMap.mpr ⟨_, hw, hs⟩)
  obtain rfl := hmem first List.mem_cons_self
  obtain rfl := List.eq_replicate_iff.mpr
    ⟨h _ hw, fun s hs => hmem s (List.mem_cons_of_mem _ hs)⟩
  rfl

/-- `64 * k` equal rows are `k` equal windows; fewer than 64 more are pending. -/
theorem zero_windows_append (k : Nat) {tail : List Call} (htail : (appended 0 tail).length < 64) :
    Committed (fun _ => True) (Builder.init.run (List.replicate (64 * k) zeroCall ++ tail))
        (List.replicate k zeroWindow) ∧
      (Builder.init.run (List.replicate (64 * k) zeroCall ++ tail)).pending = appended 0 tail := by
  obtain ⟨line, h⟩ := Builder.init_holds.run (P := fun _ => True)
    (List.replicate (64 * k) zeroCall ++ tail) fun _ _ _ => trivial
  have hsep : separatorCount (List.replicate (64 * k) zeroCall) = 0 := by
    rw [separatorCount, List.count_replicate]
    rfl
  rw [List.nil_append, appended_append, appended_zero, hsep, Nat.add_zero] at h
  obtain ⟨ws, hws, hfull, hrows⟩ := h.windows
  have hlen := flatMap_rows_length hfull
  have hcount := congrArg List.length hrows
  have hpending := h.pending
  rw [List.length_append, List.length_append, List.length_replicate, hlen] at hcount
  have hk : ws.length = k := by omega
  obtain ⟨hzero, htail'⟩ := List.append_inj hrows (by rw [List.length_replicate, hlen, hk])
  have hws' := eq_replicate_zeroWindow hfull fun s hs =>
    (List.mem_replicate.mp (hzero ▸ hs)).2
  rw [hk] at hws'
  rw [← hws']
  exact ⟨hws, htail'.symm⟩

theorem zero_windows (k : Nat) :
    Committed (fun _ => True) (Builder.init.run (List.replicate (64 * k) zeroCall)).flushWindow
      (List.replicate k zeroWindow) := by
  obtain ⟨hws, hpending⟩ := zero_windows_append k (show (appended 0 []).length < 64 by decide)
  rw [List.append_nil] at hws hpending
  rw [Builder.flushWindow, hpending]
  exact hws

theorem parseExceptions_count {r' : WindowReader} {pos' : Nat}
    (h : r.parseExceptions bytes pos = some (r', pos')) : r'.count = r.count := by
  unfold WindowReader.parseExceptions at h
  split at h
  · simp only [Option.bind_eq_bind, Option.bind_eq_some_iff, Option.pure_def, Option.some.injEq,
      Prod.mk.injEq] at h
    obtain ⟨_, _, _, _, rfl, _⟩ := h
    rfl
  · simp only [Option.some.injEq, Prod.mk.injEq] at h
    rw [h.1]

/-- `parse` takes the count from the byte at the window's start. -/
theorem parse_count {self : WindowReader} {start : Nat} {c : UInt8} (hc : bytes[start]? = some c)
    (h : self.parse bytes start = some r) :
    r.count = min c.toNat syncInterval := by
  simp only [WindowReader.parse, WinHdr.countOff, Nat.add_zero, hc, Option.bind_eq_bind,
    Option.bind_some, Option.bind_eq_some_iff] at h
  obtain ⟨flags, -, gcl, -, oll, -, ocl, -, h⟩ := h
  split at h
  · simp only [Option.pure_def, Option.some.injEq] at h
    rw [← h]
  · obtain ⟨⟨r₁, pos⟩, hexc, h⟩ := Option.bind_eq_some_iff.mp h
    have hcount := parseExceptions_count hexc
    split at h
    · simp only [Option.pure_def, Option.some.injEq] at h
      rw [← h]
      exact hcount
    · simp only [Option.pure_def, Option.some.injEq] at h
      rw [← h]
      exact hcount

theorem drain_of_done (h : r.done = true) {fuel : Nat} {state : State} :
    r.drain fuel state = some [] := by
  cases fuel <;> simp [WindowReader.drain, h]

/-- A window header whose count byte is zero has one row. -/
theorem decodeWindow_of_zero_count (hentry : m.syncEntry i = some e) (hstream : m.stream = some bytes)
    (hzero : bytes[e.byteOffset.toNat]? = some 0) {rows : List State} (h : m.decodeWindow i = some rows) :
    rows.length = 1 := by
  simp only [InternalSourceMap.decodeWindow, InternalSourceMap.seedWindow, hentry, hstream,
    Option.bind_eq_bind, Option.bind_some, Option.bind_eq_some_iff, Option.pure_def,
    Option.some.injEq] at h
  obtain ⟨⟨state, r⟩, ⟨r', hparse, heq⟩, rest, hdrain, rfl⟩ := h
  obtain ⟨-, rfl⟩ := Prod.mk.inj heq
  have hcount := parse_count hzero hparse
  have hdone : r'.done = true := by
    rw [WindowReader.done, hcount]
    simp
  rw [drain_of_done hdone, Option.some.injEq] at hdrain
  rw [← hdrain]
  rfl

section ZeroWindows
variable {k i : Nat} {b : Builder} {m : InternalSourceMap}

theorem length_zeroWindows (j : Nat) :
    ((List.replicate j zeroWindow).flatMap Window.bytes).length = j * 95 := by
  rw [List.flatMap_replicate]
  simp [zeroWindow_length]

theorem getElem?_zeroWindows (hi : i ≤ k) :
    (List.replicate (k + 1) zeroWindow)[i]? = some zeroWindow := by
  rw [List.getElem?_replicate, if_pos (Nat.lt_succ_of_le hi)]

theorem windowStart_zeroWindows (hi : i ≤ k) :
    windowStart (List.replicate (k + 1) zeroWindow) i = i * 95 := by
  rw [windowStart, List.take_replicate, Nat.min_eq_left (Nat.le_succ_of_le hi), length_zeroWindows]

variable (hws : Committed (fun _ => True) b (List.replicate (k + 1) zeroWindow))
include hws

theorem syncEntries_zeroWindows (hi : i ≤ k) :
    b.syncEntries[i]? = some (syncEntryOf zeroWindow.first (UInt32.ofNat (i * 95))) := by
  rw [hws.entries, syncEntriesFrom_get _ 0 (getElem?_zeroWindows hi), Nat.zero_add,
    windowStart_zeroWindows hi]

theorem standsAt_zeroWindows (hi : i ≤ k) : StandsAt b.winStream (i * 95) zeroWindow.bytes := by
  rw [← windowStart_zeroWindows hi, hws.stream]
  exact StandsAt.flatMap (getElem?_zeroWindows hi) Window.bytes

/-- The windows before the last are read back. -/
theorem decode_zeroWindows (hblob : BlobOf m b.syncEntries b.winStream)
    (hk : k * 95 < 2 ^ 32 + 95) :
    (List.range' 0 k).mapM m.decodeWindow = some (List.replicate k zeroWindow.rows) := by
  have hinit : (List.range' 0 (List.replicate k zeroWindow.rows).length).mapM m.decodeWindow =
      some (List.replicate k zeroWindow.rows) := by
    refine mapM_range_eq _ 0 ?_
    intro i rows hi
    obtain ⟨hi', rfl⟩ : i < k ∧ zeroWindow.rows = rows := by
      simpa [List.getElem?_replicate] using hi
    have hstart : i * 95 < 2 ^ 32 := by
      have hle := Nat.mul_le_mul_right 95 (Nat.succ_le_of_lt hi')
      omega
    rw [Nat.zero_add]
    exact decodeWindow_eq hblob (i * 95) (syncEntries_zeroWindows hws hi'.le) hstart
      (standsAt_zeroWindows hws hi'.le) (by decide)
  rwa [List.length_replicate] at hinit

/-- The byte at 89, where the last window is looked for. -/
theorem zeroWindows_byte : (b.winStream ++ [0])[89]? = some 0 := by
  have hfront := (standsAt_zeroWindows hws (Nat.zero_le k)).getElem? (i := 89)
    (by rw [zeroWindow_length]; decide)
  rw [Nat.zero_mul, Nat.zero_add] at hfront
  have hlong : 89 < b.winStream.length := by
    rw [hws.stream, length_zeroWindows]
    omega
  rw [List.getElem?_append_left hlong, hfront, zeroWindow_byte]

end ZeroWindows

/-- With `k + 1` windows of zero rows, the last of which is misplaced at 89, the
decoder loses 63 rows. -/
theorem decode_zero_ne {k : Nat} (hk : k * 95 < 2 ^ 32 + 95) (hlast : k * 95 % 2 ^ 32 = 89)
    (mappingCount inputLineCount : Nat) :
    ¬ ∃ blob, (Builder.init.run (List.replicate (64 * (k + 1)) zeroCall)).finalize = some blob ∧
      (fillHeader blob mappingCount inputLineCount).decode =
        some (appended 0 (List.replicate (64 * (k + 1)) zeroCall)) := by
  rintro ⟨blob, hfin, hdec⟩
  have hws := zero_windows (k + 1)
  rw [appended_zero] at hdec
  unfold Builder.finalize at hfin
  simp only at hfin
  set b := (Builder.init.run (List.replicate (64 * (k + 1)) zeroCall)).flushWindow with hb
  have hlen : b.syncEntries.length = k + 1 := by
    rw [hws.entries, syncEntriesFrom_length, List.length_replicate]
  have hsmall : b.winStream.length < 2 ^ 63 := by
    rw [hws.stream, length_zeroWindows]
    omega
  split at hfin
  · next hcond =>
      rw [Option.some.injEq] at hfin
      have hblob := finalize_blobOf b.winStream hcond.1 hsmall mappingCount inputLineCount
      rw [hfin] at hblob
      set m := fillHeader blob mappingCount inputLineCount
      have hinit := decode_zeroWindows hws hblob hk
      have hlastByte : (b.winStream ++ [0])[(UInt32.ofNat (k * 95)).toNat]? = some 0 := by
        rw [UInt32.toNat_ofNat', hlast]
        exact zeroWindows_byte hws
      have hone {rows : List State} (h : m.decodeWindow k = some rows) : rows.length = 1 :=
        decodeWindow_of_zero_count (hblob.syncEntry (syncEntries_zeroWindows hws le_rfl))
          hblob.stream hlastByte h
      have hcount : (UInt32.ofNat b.syncEntries.length).toNat = k + 1 := by
        rw [UInt32.toNat_ofNat_of_lt' hblob.count_lt, hlen]
      simp only [InternalSourceMap.decode, hblob.syncCount, Option.bind_eq_bind, Option.bind_some,
        hcount, List.range_eq_range', List.range'_1_concat, List.mapM_append, hinit,
        List.mapM_cons, List.mapM_nil, Nat.zero_add, Option.bind_eq_some_iff, Option.pure_def,
        Option.some.injEq] at hdec
      obtain ⟨windows, ⟨_, ⟨last, hlast, rfl⟩, rfl⟩, hflat⟩ := hdec
      have hrows := congrArg List.length hflat
      have hsize : zeroWindow.rows.length = 64 := rfl
      simp only [List.flatten_append, List.flatten_singleton, List.length_append,
        List.length_flatten, List.map_replicate, List.sum_replicate_nat, List.length_replicate,
        hsize, hone hlast] at hrows
      clear hk hsmall hcond
      omega
  · exact absurd hfin (by simp)

/-- The round trip fails on 2893451776 equal mappings: 45210184 windows, the last
of which starts 89 bytes beyond `u32::MAX + 1`. -/
theorem decode_finalize_zero_rows_ne :
    ¬ ∃ blob, (Builder.init.run (List.replicate 2893451776 (.mapping ⟨0, 0, 0, 0⟩))).finalize =
        some blob ∧
      (fillHeader blob 2893451776 1).decode =
        some (appended 0 (List.replicate 2893451776 (.mapping ⟨0, 0, 0, 0⟩))) :=
  decode_zero_ne (k := 45210183) (by decide) (by decide) 2893451776 1

end OhosBun.SourceMap
