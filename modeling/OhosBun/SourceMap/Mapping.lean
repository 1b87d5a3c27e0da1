/-
# `OhosBun.SourceMap.Mapping` — the two readers of a mappings string

`mapping::parse` turns a VLQ mappings string into a list of mappings, which
`List::find` searches.  `from_vlq` turns the same string into the calls of an
`InternalSourceMap` builder, whose blob has its own `find`.

The readers are modelled as their loops are written: a turn of each skips the
semicolons, reads the fields of one segment with the base64 VLQ decoder, adds them
to the running position and appends one mapping.  They differ in what they check:
`from_vlq` adds with `checked_add`, `parse` wraps and looks at the sign, and only
`parse` knows how many sources there are.

Before its loop `parse` runs a vector kernel over inputs of 128 bytes and more.
The kernel is a parameter (`Kernel`); what is relied on is what its source
promises, that the scalar loop may take over where the kernel stops
(`Kernel.Resumes`).
-/
import OhosBun.Lib.Scan
import OhosBun.SourceMap.Vlq
import OhosBun.SourceMap.Cursor

namespace OhosBun.SourceMap

open OhosBun.Lib

/-! ## What both loops do -/

/-- `b';'`. -/
def semicolon : UInt8 := 59

/-- `b','`. -/
def comma : UInt8 := 44

/-- `decode(remain, 0)`, where a decoder that does not move is an error. -/
def readVlq {ε : Type} (err : ε) (remain : Bytes) : Except ε (Int32 × Bytes) :=
  let r := Vlq.decode remain 0
  if r.start = 0 then .error err else .ok (r.value, remain.drop r.start)

/-- The segment ends here. -/
def atEnd : Bytes → Bool
  | [] => true
  | c :: _ => c = comma || c = semicolon

/-- A comma behind a segment belongs to it. -/
def skipComma : Bytes → Bytes
  | [] => []
  | c :: rest => if c = comma then rest else c :: rest

/-! ## `from_vlq` -/

inductive FromVlqError where
  | invalidSourceMap
  deriving DecidableEq

/-- `i32::checked_add`. -/
def checkedAdd (a b : Int32) : Option Int32 :=
  if -2 ^ 31 ≤ a.toInt + b.toInt ∧ a.toInt + b.toInt < 2 ^ 31 then some (a + b) else none

def accumulate (absolute delta : Int32) : Except FromVlqError Int32 :=
  match (checkedAdd absolute delta).filter (fun v => v ≥ 0) with
  | some v => .ok v
  | none => .error .invalidSourceMap

namespace FromVlq

/-- The variables of the loop; of the builder, the calls made to it. -/
structure State where
  generatedColumn : Int32
  sourceIndex : Int32
  originalLine : Int32
  originalColumn : Int32
  maxOriginalLine : Int32
  calls : List Call

def init : State := ⟨0, 0, 0, 0, 0, []⟩

/-- The semicolons in front: a line separator each. -/
def separators (s : State) (remain : Bytes) : State × Bytes :=
  if remain.head? = some semicolon then
    ({ s with
      generatedColumn := 0
      calls := s.calls ++ List.replicate (remain.takeWhile (· = semicolon)).length .lineSeparator },
      remain.dropWhile (· = semicolon))
  else (s, remain)

/-- The fifth field is read and dropped. -/
def name (remain : Bytes) : Except FromVlqError Bytes :=
  if atEnd remain then return remain
  else do
    let (_, rest) ← readVlq .invalidSourceMap remain
    return rest

/-- The fields behind the generated column, and the mapping. -/
def fields (s : State) (remain : Bytes) : Except FromVlqError (State × Bytes) := do
  let (d, remain) ← readVlq .invalidSourceMap remain
  let sourceIndex ← accumulate s.sourceIndex d
  let (d, remain) ← readVlq .invalidSourceMap remain
  let originalLine ← accumulate s.originalLine d
  let (d, remain) ← readVlq .invalidSourceMap remain
  let originalColumn ← accumulate s.originalColumn d
  let remain ← name remain
  return ({ generatedColumn := s.generatedColumn
            sourceIndex := sourceIndex
            originalLine := originalLine
            originalColumn := originalColumn
            maxOriginalLine := max s.maxOriginalLine originalLine
            calls := s.calls ++
              [.mapping ⟨s.generatedColumn, sourceIndex, originalLine, originalColumn⟩] },
    skipComma remain)

/-- A segment; with one field there is no mapping. -/
def segment (s : State) (remain : Bytes) : Except FromVlqError (State × Bytes) := do
  let (d, remain) ← readVlq .invalidSourceMap remain
  let generatedColumn ← accumulate s.generatedColumn d
  let s := { s with generatedColumn }
  if atEnd remain then return (s, skipComma remain) else fields s remain

/-- One turn of the loop. -/
def turn (s : State) (remain : Bytes) : Except FromVlqError (State × Bytes) :=
  let r := separators s remain
  if r.2 = [] then .ok r else segment r.1 r.2

end FromVlq

/-- `from_vlq`.  `none` is a panic of `finalize`. -/
def fromVlq (vlq : Bytes) (inputLineCountHint : UInt32) :
    Option (Except FromVlqError InternalSourceMap) :=
  match scan FromVlq.turn FromVlq.init vlq with
  | .error e => some (.error e)
  | .ok s =>
    let builder := Builder.init.run s.calls
    let inputLines := max inputLineCountHint.toNat (s.maxOriginalLine.toInt.toNat + 1)
    builder.finalize.map fun blob => .ok (fillHeader blob builder.count.toNat inputLines)

/-- The calls that `from_vlq` makes to its builder. -/
def vlqCalls (vlq : Bytes) : List Call :=
  match scan FromVlq.turn FromVlq.init vlq with
  | .ok s => s.calls
  | .error _ => []

/-! ## `mapping::parse` -/

inductive ParseError where
  | missingGeneratedColumnValue
  | invalidGeneratedColumnValue
  | invalidSourceIndexDelta
  | invalidSourceIndexValue
  | missingOriginalLine
  | invalidOriginalLineValue
  | missingOriginalColumnValue
  | invalidOriginalColumnValue
  | invalidNameIndexDelta
  deriving DecidableEq

structure ParseFail where
  err : ParseError
  loc : Int32
  deriving DecidableEq

structure ParseOptions where
  allowNames : Bool
  sort : Bool

namespace Parse

/-- The variables of the loop.  A row without a name has name index -1, whether
the list stores names or not. -/
structure State where
  generated : LineColumnOffset
  original : LineColumnOffset
  sourceIndex : Int32
  nameIndex : Int32
  needsSort : Bool
  hasNames : Bool
  mappings : List Mapping

def init : State := ⟨⟨0, 0⟩, ⟨0, 0⟩, 0, 0, false, false, []⟩

/-- `while remain.starts_with(&SEMICOLON_RUN)`: four semicolons at a time. -/
def semicolonRuns : (lines : Int32) → Bytes → Int32 × Bytes
  | lines, a :: b :: c :: d :: rest =>
    if a = semicolon ∧ b = semicolon ∧ c = semicolon ∧ d = semicolon then
      semicolonRuns (lines + 4) rest
    else (lines, a :: b :: c :: d :: rest)
  | lines, rest => (lines, rest)

/-- The loop behind it, one semicolon at a time. -/
def semicolons : (lines : Int32) → Bytes → Int32 × Bytes
  | lines, [] => (lines, [])
  | lines, c :: rest => if c = semicolon then semicolons (lines + 1) rest else (lines, c :: rest)

/-- The semicolons in front. -/
def separators (s : State) (remain : Bytes) : State × Bytes :=
  if remain.head? = some semicolon then
    let runs := semicolonRuns s.generated.lines remain
    let singles := semicolons runs.1 runs.2
    ({ s with generated := ⟨singles.1, 0⟩ }, singles.2)
  else (s, remain)

section Turn
variable (total : Nat) (sourcesCount : Int32) (options : ParseOptions)

/-- A failure at what remains of `total` bytes. -/
def fail (err : ParseError) (remain : Bytes) : ParseFail where
  err := err
  loc := if total - remain.length < 2 ^ 31 then Int32.ofNat (total - remain.length)
    else Int32.maxValue

/-- A wrapping addition whose result must not be negative. -/
def add (err : ParseError) (remain : Bytes) (absolute delta : Int32) : Except ParseFail Int32 :=
  if absolute + delta < 0 then .error (fail total err remain) else .ok (absolute + delta)

/-- The same for the source index, which must be one of the sources. -/
def addSource (remain : Bytes) (absolute delta : Int32) : Except ParseFail Int32 :=
  if absolute + delta < 0 ∨ absolute + delta ≥ sourcesCount then
    .error (fail total .invalidSourceIndexValue remain)
  else .ok (absolute + delta)

/-- The fifth field. -/
def name (s : State) (remain : Bytes) : Except ParseFail (State × Bytes) :=
  if atEnd remain then return (s, remain)
  else do
    let (d, rest) ← readVlq (fail total .invalidNameIndexDelta remain) remain
    if options.allowNames then
      return ({ s with nameIndex := s.nameIndex + d, hasNames := true }, rest)
    else return (s, rest)

/-- The fields behind the generated column, and the mapping. -/
def fields (s : State) (remain : Bytes) : Except ParseFail (State × Bytes) := do
  let (d, rest) ← readVlq (fail total .invalidSourceIndexDelta remain) remain
  let sourceIndex ← addSource total sourcesCount remain s.sourceIndex d
  let remain := rest
  let (d, rest) ← readVlq (fail total .missingOriginalLine remain) remain
  let originalLine ← add total .invalidOriginalLineValue remain s.original.lines d
  let remain := rest
  let (d, rest) ← readVlq (fail total .missingOriginalColumnValue remain) remain
  let originalColumn ← add total .invalidOriginalColumnValue remain s.original.columns d
  let (s, remain) ← name total options
    { s with sourceIndex, original := ⟨originalLine, originalColumn⟩ } rest
  return ({ s with mappings := s.mappings ++
    [⟨s.generated, s.original, s.sourceIndex, if s.hasNames then s.nameIndex else -1⟩] },
    skipComma remain)

/-- A segment; those with one field are ignored. -/
def segment (s : State) (remain : Bytes) : Except ParseFail (State × Bytes) := do
  let (d, rest) ← readVlq (fail total .missingGeneratedColumnValue remain) remain
  let column ← add total .invalidGeneratedColumnValue remain s.generated.columns d
  let s := { s with
    needsSort := s.needsSort || d < 0
    generated := ⟨s.generated.lines, column⟩ }
  if atEnd rest then return (s, skipComma rest) else fields total sourcesCount options s rest

/-- One turn of the loop. -/
def turn (s : State) (remain : Bytes) : Except ParseFail (State × Bytes) :=
  let r := separators s remain
  if r.2 = [] then .ok r else segment total sourcesCount options r.1 r.2

end Turn

end Parse

/-- What `bun_highway::parse_mappings` leaves behind: the rows it has written, its
state and the offset of the first segment it has not taken. -/
structure KernelResult where
  rows : List Mapping
  genLine : Int32
  genCol : Int32
  origLine : Int32
  origCol : Int32
  srcIdx : Int32
  nameIdx : Int32
  needsSort : Bool
  hasNames : Bool
  errAt : Nat

abbrev Kernel := (bytes : Bytes) → (sourcesCount : Int32) → KernelResult

/-- `parse_simd`: the state for the scalar loop and where it resumes. -/
def parseSimd (kernel : Kernel) (bytes : Bytes) (sourcesCount : Int32) (options : ParseOptions) :
    Parse.State × Nat :=
  let r := kernel bytes sourcesCount
  ({ generated := ⟨r.genLine, r.genCol⟩
     original := ⟨r.origLine, r.origCol⟩
     sourceIndex := r.srcIdx
     nameIndex := if options.allowNames then r.nameIdx else 0
     needsSort := r.needsSort
     hasNames := options.allowNames && r.hasNames
     -- without names the kernel is given no column to write them to
     mappings := if options.allowNames then r.rows
       else r.rows.map fun m => { m with nameIndex := -1 } }, r.errAt)

/-- `SIMD_THRESHOLD`. -/
def simdThreshold : Nat := 128

namespace Mapping

/-- The comparison of `SortContext::less_than`; the row to the right has the
larger index, so rows in one place are not exchanged. -/
def lessThan (a b : Mapping) : Bool :=
  if a.generated.lines ≠ b.generated.lines then a.generated.lines < b.generated.lines
  else a.generated.columns < b.generated.columns

/-- The inner loop of `bun_collections_sort_context`: a row moves left past those
it is less than.  The rows before it are given last first. -/
def sink (x : Mapping) : List Mapping → List Mapping
  | [] => [x]
  | y :: before => if x.lessThan y then y :: sink x before else x :: y :: before

end Mapping

/-- `List::sort`. -/
def sortMappings (rows : List Mapping) : List Mapping :=
  (rows.foldl (fun before x => Mapping.sink x before) []).reverse

structure ParsedSourceMap where
  mappings : List Mapping
  inputLineCount : Nat

/-- `parse`; the estimated mapping count only reserves memory. -/
def parse (kernel : Kernel) (disableSimd : Bool) (bytes : Bytes) (sourcesCount : Int32)
    (inputLineCount : Nat) (options : ParseOptions) : Except ParseFail ParsedSourceMap := do
  let (s, resumeAt) := if bytes.length ≥ simdThreshold ∧ disableSimd = false
    then parseSimd kernel bytes sourcesCount options else (Parse.init, 0)
  let s ← scan (Parse.turn bytes.length sourcesCount options) s (bytes.drop resumeAt)
  let mappings := if s.needsSort && options.sort then sortMappings s.mappings else s.mappings
  return { mappings, inputLineCount }

/-- What the kernel promises: the scalar loop from where it stopped gives what the
scalar loop gives from the start. -/
def Kernel.Resumes (kernel : Kernel) : Prop :=
  ∀ (bytes : Bytes) (sourcesCount : Int32) (options : ParseOptions),
    simdThreshold ≤ bytes.length →
    scan (Parse.turn bytes.length sourcesCount options)
        (parseSimd kernel bytes sourcesCount options).1
        (bytes.drop (parseSimd kernel bytes sourcesCount options).2) =
      scan (Parse.turn bytes.length sourcesCount options) Parse.init bytes

/-! ## `List::find` -/

/-- `find_index_from_generated`. -/
def findIndexFromGenerated (generated : List LineColumnOffset) (line column : Int32) :
    Option Nat :=
  let index := upperBound (fun i => (generated.getD i ⟨0, 0⟩).lessOrEqual line column) 0
    generated.length
  if index > 0 ∧ (generated.getD (index - 1) ⟨0, 0⟩).lines = line then some (index - 1) else none

def findMapping (mappings : List Mapping) (line column : Int32) : Option Mapping :=
  (findIndexFromGenerated (mappings.map Mapping.generated) line column).bind (mappings[·]?)

end OhosBun.SourceMap
