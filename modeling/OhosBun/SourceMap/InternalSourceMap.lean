/-
# `OhosBun.SourceMap.InternalSourceMap` — the blob, its builder and its reader

The private source-map format of `InternalSourceMap.rs`, byte for byte.

    builder   `appendLineSeparator` / `appendMapping`, a pending window of at
              most `syncInterval` mappings, `flushWindow`, `finalize`
    blob      24 header bytes left for the producer (`fillHeader`), the sync
              count, the stream offset, the sync table, the windows, one pad byte
    reader    `seedWindow`, `WindowReader.parse` / `next` / `nextRare` / `done`

What is kept from the source and what is not:

  * `i32` values are `Int32`, so every delta wraps as it does there; lengths and
    positions are `Nat`, and the places where the source narrows them to `u16`
    or `u32` narrow them here (`flushWindow` stores `start_off` as a `UInt32`,
    `finalize` panics when the stream offset does not fit);
  * a checked index that would panic, and a raw pointer read past the slice,
    are `none`: the reader is total and says where it would leave its bytes;
  * the spare buffer of `flush_window` is a `Mem`, filled through the same
    cursors and compacted by the same four copies;
  * the pending window is one list of rows rather than five columns: nothing
    reads a column without its row.

Native-endian stores are little-endian here, as on every supported target.
-/
import OhosBun.SourceMap.Varint

namespace OhosBun.SourceMap

open OhosBun.Lib

/-! ## Constants -/

/-- `SYNC_INTERVAL`: mappings in a full window. -/
def syncInterval : Nat := 64

/-- `HEADER_SIZE`. -/
def headerSize : Nat := 32

/-- `size_of::<SyncEntry>()`. -/
def syncEntrySize : Nat := 24

/-- `STREAM_TAIL_PAD`. -/
def streamTailPad : Nat := 1

/-- `FLAG_HAS_GEN_LINE_EXCEPTIONS`. -/
def flagHasGenLineExceptions : UInt8 := 4

/-- `FLAG_HAS_SRC_IDX`. -/
def flagHasSrcIdx : UInt8 := 8

namespace WinHdr

def countOff : Nat := 0
def flagsOff : Nat := 1
def genColLenOff : Nat := 2
def origLineLenOff : Nat := 4
def origColLenOff : Nat := 6
def genLineMaskOff : Nat := 8
def origLineEqMaskOff : Nat := 16
def origColEqMaskOff : Nat := 24
def genColLaneOff : Nat := 32

end WinHdr

/-! ## Rows -/

/-- An absolute mapping, the decoder's running state. -/
structure State where
  generatedLine : Int32
  generatedColumn : Int32
  sourceIndex : Int32
  originalLine : Int32
  originalColumn : Int32
  deriving DecidableEq, Inhabited

/-- The part of a `SourceMapState` that `append_mapping` reads: the generated
line comes from the separators instead. -/
structure SourceMapState where
  generatedColumn : Int32
  sourceIndex : Int32
  originalLine : Int32
  originalColumn : Int32
  deriving DecidableEq, Inhabited

structure SyncEntry where
  generatedLine : Int32
  generatedColumn : Int32
  byteOffset : UInt32
  originalLine : Int32
  originalColumn : Int32
  sourceIndex : Int32
  deriving DecidableEq, Inhabited

def SyncEntry.toState (e : SyncEntry) : State where
  generatedLine := e.generatedLine
  generatedColumn := e.generatedColumn
  sourceIndex := e.sourceIndex
  originalLine := e.originalLine
  originalColumn := e.originalColumn

/-! ## The window reader -/

/-- `test_bit`: bit `idx` of the mask that starts at `base`. -/
def testBit (bytes : Bytes) (base idx : Nat) : Option Bool :=
  (bytes[base + idx / 8]?).map fun b => (b >>> UInt8.ofNat (idx % 8)) &&& 1 != 0

structure WindowReader where
  bytes : Bytes
  base : Nat
  genColPos : Nat
  origLineExcPos : Nat
  origColExcPos : Nat
  genLineExcPos : Nat
  srcIdxMask : Nat
  srcIdxExcPos : Nat
  count : Nat
  flags : UInt8
  genLineExcNextIdx : UInt8
  deltaIdx : Nat

/-- `WindowReader::DANGLING`. -/
def WindowReader.dangling : WindowReader where
  bytes := []
  base := 0
  genColPos := 0
  origLineExcPos := 0
  origColExcPos := 0
  genLineExcPos := 0
  srcIdxMask := 0
  srcIdxExcPos := 0
  count := 0
  flags := 0
  genLineExcNextIdx := 0
  deltaIdx := 0

/-- The loop of `parse` over the gen-line exceptions, up to the `0xFF` byte. -/
def skipExceptions (bytes : Bytes) : Nat → (pos : Nat) → Option Nat
  | 0, _ => none
  | fuel + 1, pos =>
    match bytes[pos]? with
    | none => some pos
    | some b =>
      if b = 0xFF then some pos
      else do
        let (_, pos') ← readVarint bytes (pos + 1)
        skipExceptions bytes fuel pos'

/-- A `u16` field of the window header. -/
def u16At (bytes : Bytes) (off : Nat) : Option Nat := (slice bytes off 2).map ofLe

/-- The exception lane in `parse`: remember its start and find its end. -/
def WindowReader.parseExceptions (r : WindowReader) (bytes : Bytes) (pos : Nat) :
    Option (WindowReader × Nat) :=
  if r.flags &&& flagHasGenLineExceptions ≠ 0 ∧ pos < bytes.length then do
    let next ← bytes[pos]?
    let stop ← skipExceptions bytes (bytes.length + 1) pos
    return ({ r with genLineExcPos := pos, genLineExcNextIdx := next }, stop + 1)
  else
    some (r, pos)

def WindowReader.parse (self : WindowReader) (bytes : Bytes) (start : Nat) :
    Option WindowReader := do
  let count ← bytes[start + WinHdr.countOff]?
  let flags ← bytes[start + WinHdr.flagsOff]?
  let genColLen ← u16At bytes (start + WinHdr.genColLenOff)
  let origLineLen ← u16At bytes (start + WinHdr.origLineLenOff)
  let origColLen ← u16At bytes (start + WinHdr.origColLenOff)
  let genColPos := start + WinHdr.genColLaneOff
  let origLineExcPos := genColPos + genColLen
  let origColExcPos := origLineExcPos + origLineLen
  let pos := origColExcPos + origColLen
  let r := { self with
    bytes := bytes
    base := start
    count := min count.toNat syncInterval
    flags := flags
    deltaIdx := 0
    genColPos := genColPos
    origLineExcPos := origLineExcPos
    origColExcPos := origColExcPos
    genLineExcNextIdx := 0xFF }
  if flags = 0 then
    return r
  else
    let (r, pos) ← r.parseExceptions bytes pos
    if flags &&& flagHasSrcIdx ≠ 0 then
      return { r with srcIdxMask := pos, srcIdxExcPos := pos + 8 }
    else
      return r

def WindowReader.done (r : WindowReader) : Bool := r.deltaIdx + 1 ≥ r.count

/-- The first half of `next_rare`: a gen-line exception replaces the delta read
off the mask, and with it the original-line delta that was set equal to it. -/
def WindowReader.nextException (r : WindowReader) (deltaIdx : Nat) (dGenLine dOrigLine : Int32) :
    Option (WindowReader × Int32 × Int32) :=
  if r.genLineExcNextIdx.toNat = deltaIdx then do
    let (dGenLine, p) ← readVarint r.bytes (r.genLineExcPos + 1)
    let eq ← testBit r.bytes (r.base + WinHdr.origLineEqMaskOff) deltaIdx
    let nextIdx ← r.bytes[p]?
    return ({ r with genLineExcPos := p, genLineExcNextIdx := nextIdx }, dGenLine,
      if eq then dGenLine else dOrigLine)
  else
    some (r, dGenLine, dOrigLine)

/-- The second half of `next_rare`: the source index. -/
def WindowReader.nextSource (r : WindowReader) (deltaIdx : Nat) (state : State) :
    Option (WindowReader × State) :=
  if r.flags &&& flagHasSrcIdx ≠ 0 then do
    let same ← testBit r.bytes r.srcIdxMask deltaIdx
    if same then
      return (r, state)
    else
      let (dSrcIdx, p) ← readVarint r.bytes r.srcIdxExcPos
      return ({ r with srcIdxExcPos := p },
        { state with sourceIndex := state.sourceIndex + dSrcIdx })
  else
    some (r, state)

/-- `next_rare`.  It returns the two deltas it may replace. -/
def WindowReader.nextRare (r : WindowReader) (deltaIdx : Nat) (dGenLine dOrigLine : Int32)
    (state : State) : Option (WindowReader × Int32 × Int32 × State) := do
  let (r, dGenLine, dOrigLine) ← r.nextException deltaIdx dGenLine dOrigLine
  let (r, state) ← r.nextSource deltaIdx state
  return (r, dGenLine, dOrigLine, state)

/-- The end of `next`: add the four deltas to the state. -/
def State.advance (state : State) (dGenLine dGenCol dOrigLine dOrigCol : Int32) : State :=
  let state :=
    if dGenLine ≠ 0 then
      { state with
        generatedLine := state.generatedLine + dGenLine
        generatedColumn := dGenCol }
    else
      { state with generatedColumn := state.generatedColumn + dGenCol }
  { state with
    originalLine := state.originalLine + dOrigLine
    originalColumn := state.originalColumn + dOrigCol }

/-- The original-line delta of `next`: the gen-line delta, or its own varint. -/
def WindowReader.nextOrigLine (r : WindowReader) (deltaIdx : Nat) (dGenLine : Int32) :
    Option (WindowReader × Int32) := do
  let eq ← testBit r.bytes (r.base + WinHdr.origLineEqMaskOff) deltaIdx
  if eq then
    return (r, dGenLine)
  else
    let (d, p) ← readVarint r.bytes r.origLineExcPos
    return ({ r with origLineExcPos := p }, d)

/-- The original-column delta of `next`. -/
def WindowReader.nextOrigCol (r : WindowReader) (deltaIdx : Nat) (dGenCol : Int32) :
    Option (WindowReader × Int32) := do
  let eq ← testBit r.bytes (r.base + WinHdr.origColEqMaskOff) deltaIdx
  if eq then
    return (r, dGenCol)
  else
    let (d, p) ← readVarint r.bytes r.origColExcPos
    return ({ r with origColExcPos := p }, d)

def WindowReader.next (r : WindowReader) (state : State) : Option (WindowReader × State) := do
  let deltaIdx := r.deltaIdx
  let r := { r with deltaIdx := deltaIdx + 1 }
  let lineBit ← testBit r.bytes (r.base + WinHdr.genLineMaskOff) deltaIdx
  let dGenLine : Int32 := if lineBit then 1 else 0
  let (dGenCol, p) ← readVarint r.bytes r.genColPos
  let r := { r with genColPos := p }
  let (r, dOrigLine) ← r.nextOrigLine deltaIdx dGenLine
  let (r, dOrigCol) ← r.nextOrigCol deltaIdx dGenCol
  if r.flags ≠ 0 then
    let (r, dGenLine, dOrigLine, state) ← r.nextRare deltaIdx dGenLine dOrigLine state
    return (r, state.advance dGenLine dGenCol dOrigLine dOrigCol)
  else
    return (r, state.advance dGenLine dGenCol dOrigLine dOrigCol)

/-- `while !reader.done() { reader.next(&mut state); .. }`: the states reached. -/
@[grind] def WindowReader.drain : Nat → WindowReader → State → Option (List State)
  | 0, r, _ => if r.done then some [] else none
  | fuel + 1, r, state =>
    if r.done then some []
    else do
      let (r, state) ← r.next state
      let rest ← WindowReader.drain fuel r state
      return state :: rest

/-! ## The blob -/

/-- A view over the bytes of a blob. -/
structure InternalSourceMap where
  data : Bytes

namespace InternalSourceMap

def u32At (bytes : Bytes) (off : Nat) : Option UInt32 :=
  (slice bytes off 4).map fun bs => UInt32.ofNat (ofLe bs)

def i32At (bytes : Bytes) (off : Nat) : Option Int32 := (u32At bytes off).map UInt32.toInt32

def totalLen (m : InternalSourceMap) : Option Nat := (slice m.data 0 8).map ofLe

def syncCount (m : InternalSourceMap) : Option UInt32 := u32At m.data 24

def streamOffset (m : InternalSourceMap) : Option UInt32 := u32At m.data 28

def syncEntry (m : InternalSourceMap) (index : Nat) : Option SyncEntry := do
  let off := headerSize + index * syncEntrySize
  let generatedLine ← i32At m.data off
  let generatedColumn ← i32At m.data (off + 4)
  let byteOffset ← u32At m.data (off + 8)
  let originalLine ← i32At m.data (off + 12)
  let originalColumn ← i32At m.data (off + 16)
  let sourceIndex ← i32At m.data (off + 20)
  return { generatedLine, generatedColumn, byteOffset, originalLine, originalColumn, sourceIndex }

def stream (m : InternalSourceMap) : Option Bytes := do
  let off ← m.streamOffset
  let total ← m.totalLen
  slice m.data off.toNat (total - off.toNat)

def seedWindow (m : InternalSourceMap) (syncIdx : Nat) (reader : WindowReader) :
    Option (State × WindowReader) := do
  let se ← m.syncEntry syncIdx
  let bytes ← m.stream
  let reader ← reader.parse bytes se.byteOffset.toNat
  return (se.toState, reader)

/-- One window, decoded: the seed, then `next` until done. -/
def decodeWindow (m : InternalSourceMap) (syncIdx : Nat) : Option (List State) := do
  let (state, reader) ← m.seedWindow syncIdx .dangling
  let rest ← reader.drain syncInterval state
  return state :: rest

/-- Every window in order, as `append_vlq_to` walks them. -/
def decode (m : InternalSourceMap) : Option (List State) := do
  let n ← m.syncCount
  let windows ← (List.range n.toNat).mapM m.decodeWindow
  return windows.flatten

end InternalSourceMap

/-! ## The builder -/

structure Builder where
  generatedLine : Int32
  pendingGeneratedLineDelta : Int32
  count : UInt32
  pending : List State
  syncEntries : List SyncEntry
  winStream : Bytes

/-- `Builder::init`. -/
def Builder.init : Builder where
  generatedLine := 0
  pendingGeneratedLineDelta := 0
  count := 0
  pending := []
  syncEntries := []
  winStream := []

def Builder.appendLineSeparator (b : Builder) : Builder :=
  { b with pendingGeneratedLineDelta := b.pendingGeneratedLineDelta + 1 }

/-- Where each lane of a window starts in the spare buffer, as reserved for
`nDeltas` deltas of maximal varints. -/
structure LaneBases where
  genCol : Nat
  origLine : Nat
  origCol : Nat
  genLine : Nat
  srcIdx : Nat

def laneBases (nDeltas : Nat) : LaneBases :=
  let genCol := WinHdr.genColLaneOff
  let origLine := genCol + nDeltas * maxVarintLen
  let origCol := origLine + nDeltas * maxVarintLen
  let genLine := origCol + nDeltas * maxVarintLen
  let srcIdx := genLine + nDeltas * (1 + maxVarintLen) + 1
  { genCol, origLine, origCol, genLine, srcIdx }

/-- The spare buffer with one write cursor per lane. -/
structure Cursors where
  buf : Mem
  flags : UInt8
  wGenCol : Nat
  wOrigLine : Nat
  wOrigCol : Nat
  wGenLine : Nat
  wSrcIdx : Nat

/-- `*buf_ptr.add(addr) |= bit`. -/
def orBit (m : Mem) (addr : Nat) (bit : UInt8) : Mem := m.writeAt addr [m.get addr ||| bit]

/-- The deltas between two consecutive rows, as the loop computes them. -/
structure Delta where
  genLine : Int32
  genCol : Int32
  origLine : Int32
  origCol : Int32
  srcIdx : Int32

def delta (prev cur : State) : Delta :=
  let dGenLine := cur.generatedLine - prev.generatedLine
  { genLine := dGenLine
    genCol :=
      if dGenLine ≠ 0 then cur.generatedColumn else cur.generatedColumn - prev.generatedColumn
    origLine := cur.originalLine - prev.originalLine
    origCol := cur.originalColumn - prev.originalColumn
    srcIdx := cur.sourceIndex - prev.sourceIndex }

/-- `1u8 << (k & 7)`. -/
def maskBit (k : Nat) : UInt8 := 1 <<< UInt8.ofNat (k % 8)

section Emit
variable (bases : LaneBases) (k : Nat) (d : Delta) (c : Cursors)

def emitGenLineMask : Cursors :=
  if d.genLine ≥ 1 then
    { c with buf := orBit c.buf (WinHdr.genLineMaskOff + k / 8) (maskBit k) }
  else c

def emitGenCol : Cursors :=
  let bytes := writeVarint d.genCol
  { c with buf := c.buf.writeAt c.wGenCol bytes, wGenCol := c.wGenCol + bytes.length }

def emitOrigLine : Cursors :=
  if d.origLine = d.genLine then
    { c with buf := orBit c.buf (WinHdr.origLineEqMaskOff + k / 8) (maskBit k) }
  else
    let bytes := writeVarint d.origLine
    { c with buf := c.buf.writeAt c.wOrigLine bytes, wOrigLine := c.wOrigLine + bytes.length }

def emitOrigCol : Cursors :=
  if d.origCol = d.genCol then
    { c with buf := orBit c.buf (WinHdr.origColEqMaskOff + k / 8) (maskBit k) }
  else
    let bytes := writeVarint d.origCol
    { c with buf := c.buf.writeAt c.wOrigCol bytes, wOrigCol := c.wOrigCol + bytes.length }

def emitGenLineException : Cursors :=
  if d.genLine > 1 ∨ d.genLine < 0 then
    let buf := c.buf.writeAt c.wGenLine [UInt8.ofNat k]
    let bytes := writeVarint d.genLine
    { c with
      flags := c.flags ||| flagHasGenLineExceptions
      buf := buf.writeAt (c.wGenLine + 1) bytes
      wGenLine := c.wGenLine + 1 + bytes.length }
  else c

def emitSrcIdx : Cursors :=
  if d.srcIdx = 0 then
    { c with buf := orBit c.buf (bases.srcIdx + k / 8) (maskBit k) }
  else
    let bytes := writeVarint d.srcIdx
    { c with
      flags := c.flags ||| flagHasSrcIdx
      buf := c.buf.writeAt c.wSrcIdx bytes
      wSrcIdx := c.wSrcIdx + bytes.length }

/-- One iteration of the delta loop of `flush_window`. -/
def emitDelta : Cursors :=
  emitSrcIdx bases k d <| emitGenLineException k d <| emitOrigCol k d <| emitOrigLine k d <|
    emitGenCol d <| emitGenLineMask k d c

end Emit

/-- `for k in 0..n_deltas`, over the rows after `prev`. -/
def emitDeltas (bases : LaneBases) : (k : Nat) → (prev : State) → List State → Cursors → Cursors
  | _, _, [], c => c
  | k, prev, cur :: rest, c =>
    emitDeltas bases (k + 1) cur rest (emitDelta bases k (delta prev cur) c)

/-- The bytes that `flush_window` commits for the pending rows `first :: rest`,
through a spare buffer that holds anything at all before. -/
def encodeWindow (spare : Mem) (first : State) (rest : List State) : Bytes :=
  let n := rest.length + 1
  let bases := laneBases rest.length
  let buf := spare.writeAt 0 (List.replicate WinHdr.genColLaneOff 0)
  let buf := buf.writeAt WinHdr.countOff [UInt8.ofNat n]
  let buf := buf.writeAt bases.srcIdx (List.replicate 8 0)
  let c := emitDeltas bases 0 first rest
    { buf, flags := 0, wGenCol := bases.genCol, wOrigLine := bases.origLine,
      wOrigCol := bases.origCol, wGenLine := bases.genLine, wSrcIdx := bases.srcIdx + 8 }
  let c :=
    if c.flags &&& flagHasGenLineExceptions ≠ 0 then
      { c with buf := c.buf.writeAt c.wGenLine [0xFF], wGenLine := c.wGenLine + 1 }
    else c
  let buf := c.buf.writeAt WinHdr.flagsOff [c.flags]
  let genColLen := c.wGenCol - bases.genCol
  let origLineLen := c.wOrigLine - bases.origLine
  let origColLen := c.wOrigCol - bases.origCol
  let genLineLen := c.wGenLine - bases.genLine
  let srcIdxLen := if c.flags &&& flagHasSrcIdx ≠ 0 then c.wSrcIdx - bases.srcIdx else 0
  let buf := buf.writeAt WinHdr.genColLenOff (leBytes 2 genColLen)
  let buf := buf.writeAt WinHdr.origLineLenOff (leBytes 2 origLineLen)
  let buf := buf.writeAt WinHdr.origColLenOff (leBytes 2 origColLen)
  let w := bases.genCol + genColLen
  let buf := buf.copy bases.origLine w origLineLen
  let w := w + origLineLen
  let buf := buf.copy bases.origCol w origColLen
  let w := w + origColLen
  let buf := buf.copy bases.genLine w genLineLen
  let w := w + genLineLen
  let buf := buf.copy bases.srcIdx w srcIdxLen
  let w := w + srcIdxLen
  buf.readAt 0 w

/-- The sync entry of a window whose first row is `s`. -/
def syncEntryOf (s : State) (startOff : UInt32) : SyncEntry where
  generatedLine := s.generatedLine
  generatedColumn := s.generatedColumn
  byteOffset := startOff
  originalLine := s.originalLine
  originalColumn := s.originalColumn
  sourceIndex := s.sourceIndex

def Builder.flushWindow (b : Builder) : Builder :=
  match b.pending with
  | [] => b
  | first :: rest =>
    -- `self.win_stream.len() as u32`
    let startOff := UInt32.ofNat b.winStream.length
    { b with
      syncEntries := b.syncEntries ++ [syncEntryOf first startOff]
      -- the reserved bytes are uninitialised there; `encodeWindow_eq` has any of them
      winStream := b.winStream ++ encodeWindow ⟨fun _ => 0⟩ first rest
      pending := [] }

def Builder.appendMapping (b : Builder) (current : SourceMapState) : Builder :=
  let generatedLine := b.generatedLine + b.pendingGeneratedLineDelta
  let row : State := {
    generatedLine := generatedLine
    generatedColumn := current.generatedColumn
    sourceIndex := current.sourceIndex
    originalLine := current.originalLine
    originalColumn := current.originalColumn }
  let b := { b with
    generatedLine := generatedLine
    pendingGeneratedLineDelta := 0
    pending := b.pending ++ [row]
    count := b.count + 1 }
  if b.pending.length = syncInterval then b.flushWindow else b

/-- The 24 bytes of a `SyncEntry`. -/
def SyncEntry.bytes (e : SyncEntry) : Bytes :=
  leBytes 4 e.generatedLine.toUInt32.toNat ++ leBytes 4 e.generatedColumn.toUInt32.toNat ++
  leBytes 4 e.byteOffset.toNat ++ leBytes 4 e.originalLine.toUInt32.toNat ++
  leBytes 4 e.originalColumn.toUInt32.toNat ++ leBytes 4 e.sourceIndex.toUInt32.toNat

/-- `finalize`: `none` is the panic of `expect("int cast")`. -/
def Builder.finalize (b : Builder) : Option Bytes :=
  let b := b.flushWindow
  let syncBytes := b.syncEntries.length * syncEntrySize
  let streamOffset := headerSize + syncBytes
  if streamOffset < 2 ^ 32 ∧ b.syncEntries.length < 2 ^ 32 then
    some (List.replicate 24 0 ++ leBytes 4 b.syncEntries.length ++ leBytes 4 streamOffset ++
      b.syncEntries.flatMap SyncEntry.bytes ++ b.winStream ++ List.replicate streamTailPad 0)
  else none

/-- The producer (`generate_chunk`, `from_vlq`) fills the first 24 bytes in. -/
def fillHeader (blob : Bytes) (mappingCount inputLineCount : Nat) : InternalSourceMap where
  data := leBytes 8 blob.length ++ leBytes 8 mappingCount ++ leBytes 8 inputLineCount ++
    blob.drop 24

/-! ## Call sequences -/

/-- What the printer does to a builder. -/
inductive Call where
  | lineSeparator
  | mapping (current : SourceMapState)
  deriving DecidableEq

def Builder.call (b : Builder) : Call → Builder
  | .lineSeparator => b.appendLineSeparator
  | .mapping current => b.appendMapping current

def Builder.run (b : Builder) (calls : List Call) : Builder := calls.foldl Builder.call b

end OhosBun.SourceMap
