/-
# `OhosBun.Valkey.Protocol` — replies of the Redis protocol

The reader of `valkey_protocol.rs`: a reply is a type byte, a line or a counted blob, and
what it counts, down to 128 levels of nesting.  `InvalidResponse` says that the buffer
ends too early; `stable_readValue` shows that nothing else changes as more comes in.

A reader has the rest of the buffer where the code has the buffer and a position.
`crlf_skip` is an argument of the one read that heeds it, and `take_prealloc_budget`, which
bounds what is reserved, is left out.  Doubles and their parser are parameters.
-/
import OhosBun.Lib.Bytes
import OhosBun.Lib.Reader
import OhosBun.Semver.Version

namespace OhosBun.Valkey

open OhosBun.Lib

inductive RedisError
  | authenticationFailed | connectionClosed | invalidArgument | invalidArray | invalidAttribute
  | invalidBigNumber | invalidBlobError | invalidBoolean | invalidBulkString | invalidCommand
  | invalidDouble | invalidErrorString | invalidInteger | invalidMap | invalidNull | invalidPush
  | invalidResponse | invalidResponseType | invalidSet | invalidSimpleString
  | invalidVerbatimString | jsError | outOfMemory | unsupportedProtocol | connectionTimeout
  | idleTimeout | nestingDepthExceeded | lineTooLong | serverError
deriving DecidableEq

inductive RESPType
  | simpleString | error | integer | bulkString | array
  | null | double | boolean | blobError | verbatimString | map | set | attribute | push | bigNumber
deriving DecidableEq

def RESPType.fromByte (byte : UInt8) : Option RESPType :=
  if byte = 43 then some .simpleString
  else if byte = 45 then some .error
  else if byte = 58 then some .integer
  else if byte = 36 then some .bulkString
  else if byte = 42 then some .array
  else if byte = 95 then some .null
  else if byte = 44 then some .double
  else if byte = 35 then some .boolean
  else if byte = 33 then some .blobError
  else if byte = 61 then some .verbatimString
  else if byte = 37 then some .map
  else if byte = 126 then some .set
  else if byte = 124 then some .attribute
  else if byte = 62 then some .push
  else if byte = 40 then some .bigNumber
  else none

structure VerbatimString where
  format : Bytes
  content : Bytes
deriving DecidableEq

structure MapEntry (α : Type) where
  key : α
  value : α

inductive RESPValue (F64 : Type)
  | simpleString (str : Bytes)
  | error (str : Bytes)
  | integer (int : Int)
  | bulkString (str : Option Bytes)
  | array (array : List (RESPValue F64))
  | null
  | double (d : F64)
  | boolean (b : Bool)
  | verbatimString (verbatim : VerbatimString)
  | map (entries : List (MapEntry (RESPValue F64)))
  | set (set : List (RESPValue F64))
  | attribute (attributes : List (MapEntry (RESPValue F64))) (value : RESPValue F64)
  | push (kind : Bytes) (data : List (RESPValue F64))
  | bigNumber (str : Bytes)

/-- What there is of doubles. -/
structure Floats (F64 : Type) where
  infinity : F64
  negInfinity : F64
  nan : F64
  /-- `bun_core::fmt::parse_f64` -/
  parseF64 : Bytes → Option F64

/-! ## Lines and numbers -/

abbrev ValkeyReader (α : Type) := Reader UInt8 RedisError α

/-- `MAX_NESTING_DEPTH` -/
def maxNestingDepth : Nat := 128

/-- `MAX_BULK_LEN` -/
def maxBulkLen : Nat := 512 * 1024 * 1024

/-- `MAX_LINE_LEN` -/
def maxLineLen : Nat := maxBulkLen

def readByte : ValkeyReader UInt8
  | byte :: rest => (.ok byte, rest)
  | [] => (.error .invalidResponse, [])

def crlfAt (buffer : Bytes) (i : Nat) : Bool := buffer[i]? = some 13 && buffer[i + 1]? = some 10

def readUntilCrlf (crlfSkip : Nat) : ValkeyReader Bytes := fun buffer =>
  let limit := min buffer.length (maxLineLen + 1)
  let start := min crlfSkip limit
  match (List.range' start (limit - start)).find? (crlfAt buffer) with
  | some i => (.ok (buffer.take i), buffer.drop (i + 2))
  | none =>
    if buffer.length > maxLineLen + 1 then (.error .lineTooLong, buffer)
    else (.error .invalidResponse, buffer)

/-- `parse_int::<i64>` of `bun_core::fmt`, in base 10. -/
def parseInt64 (buf : Bytes) : Option Int :=
  match buf with
  | [] => none
  | 43 :: rest => (Semver.parseWithSign 10 rest).bind fun n => if n < 2 ^ 63 then some n else none
  | 45 :: rest =>
    (Semver.parseWithSign 10 rest).bind fun n => if n ≤ 2 ^ 63 then some (-(n : Int)) else none
  | buf => (Semver.parseWithSign 10 buf).bind fun n => if n < 2 ^ 63 then some n else none

def readInteger (crlfSkip : Nat) : ValkeyReader Int :=
  (readUntilCrlf crlfSkip).bind fun str =>
    match parseInt64 str with
    | some int => .pure int
    | none => .fail .invalidInteger

section Values
variable {F64 : Type} (floats : Floats F64)

def readDouble : ValkeyReader F64 :=
  (readUntilCrlf 0).bind fun str =>
    -- Handle special values
    if str = ascii "inf" then .pure floats.infinity
    else if str = ascii "-inf" then .pure floats.negInfinity
    else if str = ascii "nan" then .pure floats.nan
    else
      match floats.parseF64 str with
      | some d => .pure d
      | none => .fail .invalidDouble

def readBoolean : ValkeyReader Bool :=
  (readUntilCrlf 0).bind fun str =>
    match str with
    | [116] => .pure true
    | [102] => .pure false
    | _ => .fail .invalidBoolean

/-- The bytes that a length counts, and the line end after them. -/
def readBlob (invalid : RedisError) (len : Nat) : ValkeyReader Bytes := fun buffer =>
  if buffer.length < len then (.error .invalidResponse, buffer)
  else
    ((readUntilCrlf 0).bind fun crlf =>
      if crlf ≠ [] then .fail invalid else .pure (buffer.take len)) (buffer.drop len)

/-- A length from 0 to `MAX_BULK_LEN`, and its blob. -/
def readCounted (invalid : RedisError) : ValkeyReader Bytes :=
  (readInteger 0).bind fun len =>
    if len < 0 ∨ len > maxBulkLen then .fail invalid else readBlob invalid len.toNat

def readVerbatimString : ValkeyReader VerbatimString :=
  (readCounted .invalidVerbatimString).bind fun contentWithFormat =>
    -- Format should be "xxx:" followed by content
    if contentWithFormat[3]? ≠ some 58 then .fail .invalidVerbatimString
    else .pure ⟨contentWithFormat.take 3, contentWithFormat.drop 4⟩

/-! ## Values -/

/-- A key and its value. -/
def readEntry {α : Type} (child : ValkeyReader α) : ValkeyReader (MapEntry α) :=
  child.bind fun key => child.map fun value => ⟨key, value⟩

/-- The type of a push, from its first element. -/
def pushType : RESPValue F64 → Option Bytes
  | .simpleString str => some str
  | .bulkString str => str
  | _ => none

/-- An aggregate reads its length, unless it is nested too deep, and rejects some. -/
def readAggregate {α β : Type} (child : Option (ValkeyReader α)) (invalid : Int → Bool)
    (error : RedisError) (children : ValkeyReader α → Int → ValkeyReader β) : ValkeyReader β :=
  match child with
  | none => .fail .nestingDepthExceeded
  | some child => (readInteger 0).bind fun len =>
    if invalid len then .fail error else children child len

/-- A value of a type, given how its children are read if it may have any. -/
def readOfType (child : Option (ValkeyReader (RESPValue F64))) :
    RESPType → ValkeyReader (RESPValue F64)
  | .simpleString => (readUntilCrlf 0).map .simpleString
  | .error => (readUntilCrlf 0).map .error
  | .integer => (readInteger 0).map .integer
  | .bulkString => (readInteger 0).bind fun len =>
    if len < 0 then .pure (.bulkString none)
    else if len > maxBulkLen then .fail .invalidBulkString
    else (readBlob .invalidBulkString len.toNat).map fun str => .bulkString (some str)
  | .array => readAggregate child (fun _ => false) .invalidArray fun child len =>
    -- RESP2 null array.
    if len < 0 then .pure .null else (child.many len.toNat).map .array
  | .null => (readUntilCrlf 0).bind fun line =>
    if line ≠ [] then .fail .invalidNull else .pure .null
  | .double => (readDouble floats).map .double
  | .boolean => readBoolean.map .boolean
  | .blobError => (readCounted .invalidBlobError).map .error
  | .verbatimString => readVerbatimString.map .verbatimString
  | .map => readAggregate child (fun len => len < 0) .invalidMap fun child len =>
    (Reader.many (readEntry child) len.toNat).map .map
  | .set => readAggregate child (fun len => len < 0) .invalidSet fun child len =>
    (child.many len.toNat).map .set
  | .attribute => readAggregate child (fun len => len < 0) .invalidAttribute fun child len =>
    (Reader.many (readEntry child) len.toNat).bind fun attrs =>
      child.map fun value => .attribute attrs value
  | .push => readAggregate child (fun len => len ≤ 0) .invalidPush fun child len =>
    -- First element is the push type
    child.bind fun kind =>
      match pushType kind with
      | none => .fail .invalidPush
      | some kind => (child.many (len - 1).toNat).map fun data => .push kind data
  | .bigNumber => (readUntilCrlf 0).map .bigNumber

/-- A value, given how its children are read if it may have any. -/
def readWith (child : Option (ValkeyReader (RESPValue F64))) : ValkeyReader (RESPValue F64) :=
  readByte.bind fun typeByte =>
    match RESPType.fromByte typeByte with
    | none => .fail .invalidResponseType
    | some type => readOfType floats child type

/-- `read_value_with_depth`, with so many levels left to `MAX_NESTING_DEPTH`. -/
def readValueAt : (levels : Nat) → ValkeyReader (RESPValue F64)
  | 0 => readWith floats none
  | levels + 1 => readWith floats (some (readValueAt levels))

def readValue : ValkeyReader (RESPValue F64) := readValueAt floats maxNestingDepth

end Values

/-! ## A line ends at its first line end -/

variable {buffer line left : Bytes} {i : Nat}

theorem crlfAt_append (h : crlfAt buffer i) (extra : Bytes) :
    crlfAt (buffer ++ extra) i := by
  rw [crlfAt, Bool.and_eq_true, decide_eq_true_eq, decide_eq_true_eq] at h ⊢
  obtain ⟨hi, hi'⟩ := h
  have hlt := (List.getElem?_eq_some_iff.mp hi).1
  have hlt' := (List.getElem?_eq_some_iff.mp hi').1
  exact ⟨by rw [List.getElem?_append_left hlt, hi], by rw [List.getElem?_append_left hlt', hi']⟩

theorem crlfAt_of_append {extra : Bytes} (h : crlfAt (buffer ++ extra) i) (hi : i + 1 < buffer.length) :
    crlfAt buffer i := by
  rw [crlfAt, List.getElem?_append_left (Nat.lt_of_succ_lt hi), List.getElem?_append_left hi] at h
  exact h

theorem lt_of_crlfAt (h : crlfAt buffer i) : i + 1 < buffer.length := by
  rw [crlfAt, Bool.and_eq_true, decide_eq_true_eq, decide_eq_true_eq] at h
  exact (List.getElem?_eq_some_iff.mp h.2).1

/-- What is skipped has no line end. -/
def SkipOk (crlfSkip : Nat) (buffer : Bytes) : Prop := ∀ i < crlfSkip, crlfAt buffer i = false

theorem SkipOk.zero (buffer : Bytes) : SkipOk 0 buffer := fun i hi => absurd hi (Nat.not_lt_zero i)

/-- Skipping changes nothing. -/
theorem readUntilCrlf_skip {crlfSkip : Nat} (h : SkipOk crlfSkip buffer) :
    readUntilCrlf crlfSkip buffer = readUntilCrlf 0 buffer := by
  have hfind : (List.range' 0 (min buffer.length (maxLineLen + 1))).find? (crlfAt buffer) =
      (List.range' (min crlfSkip (min buffer.length (maxLineLen + 1)))
        (min buffer.length (maxLineLen + 1) -
          min crlfSkip (min buffer.length (maxLineLen + 1)))).find? (crlfAt buffer) := by
    generalize min buffer.length (maxLineLen + 1) = limit
    have hsplit : List.range' 0 limit = List.range' 0 (min crlfSkip limit) ++
        List.range' (min crlfSkip limit) (limit - min crlfSkip limit) := by
      have happend :=
        @List.range'_append_1 0 (min crlfSkip limit) (limit - min crlfSkip limit)
      rw [Nat.zero_add, Nat.add_sub_of_le (Nat.min_le_right _ _)] at happend
      exact happend.symm
    rw [hsplit, List.find?_append, List.find?_eq_none.mpr, Option.none_or]
    intro i hi
    rw [List.mem_range'_1, Nat.zero_add] at hi
    rw [h i (hi.2.trans_le (Nat.min_le_left _ _))]
    decide
  rw [readUntilCrlf, readUntilCrlf]
  rw [Nat.zero_min, Nat.sub_zero, hfind]

/-- How a line is read. -/
theorem readUntilCrlf_eq_ok :
    readUntilCrlf 0 buffer = (.ok line, left) ↔ ∃ i ≤ maxLineLen, crlfAt buffer i ∧
      SkipOk i buffer ∧ line = buffer.take i ∧ left = buffer.drop (i + 2) := by
  rw [readUntilCrlf]
  rw [Nat.zero_min, Nat.sub_zero, ← List.range_eq_range']
  constructor
  · intro h
    split at h
    next i hfind =>
      obtain ⟨hline, hleft⟩ := Prod.mk.inj h
      rw [List.find?_range_eq_some] at hfind
      obtain ⟨hcrlf, hmem, hbefore⟩ := hfind
      have hlt := List.mem_range.mp hmem
      refine ⟨i, ?_, hcrlf, ?_, (Except.ok.inj hline).symm, hleft.symm⟩
      · exact Nat.le_of_lt_succ (hlt.trans_le (Nat.min_le_right _ _))
      · intro j hj
        simpa using hbefore j hj
    next =>
      split at h
      · simp at h
      · simp at h
  · rintro ⟨i, hi, hcrlf, hskip, rfl, rfl⟩
    have hfind : (List.range (min buffer.length (maxLineLen + 1))).find? (crlfAt buffer) =
        some i := by
      rw [List.find?_range_eq_some]
      refine ⟨hcrlf, List.mem_range.mpr (lt_min ?_ (Nat.lt_succ_of_le hi)), fun j hj => ?_⟩
      · exact Nat.lt_of_succ_lt (lt_of_crlfAt hcrlf)
      · rw [hskip j hj]
        rfl
    rw [hfind]

theorem readUntilCrlf_append (hline : 13 ∉ line) (hlen : line.length ≤ maxLineLen) (rest : Bytes) :
    readUntilCrlf 0 (line ++ 13 :: 10 :: rest) = (.ok line, rest) := by
  refine readUntilCrlf_eq_ok.2 ⟨line.length, hlen, ?_, ?_, ?_, ?_⟩
  · simp [crlfAt]
  · intro i hi
    rw [crlfAt, List.getElem?_append_left hi, List.getElem?_eq_getElem hi]
    refine Bool.and_eq_false_imp.mpr fun heq => absurd (List.getElem_mem hi) ?_
    rw [Option.some.inj (of_decide_eq_true heq)]
    exact hline
  · exact List.take_left.symm
  · rw [List.drop_append, List.drop_of_length_le (Nat.le_add_right _ _), Nat.add_sub_cancel_left]
    rfl

theorem readUntilCrlf_eq_error {e : RedisError} :
    readUntilCrlf 0 buffer = (.error e, left) ↔ left = buffer ∧
      SkipOk (min buffer.length (maxLineLen + 1)) buffer ∧
      e = if buffer.length > maxLineLen + 1 then .lineTooLong else .invalidResponse := by
  rw [readUntilCrlf]
  rw [Nat.zero_min, Nat.sub_zero, ← List.range_eq_range']
  cases hfind : (List.range (min buffer.length (maxLineLen + 1))).find? (crlfAt buffer) with
  | some i =>
    refine ⟨fun h => absurd (Prod.mk.inj h).1 (by simp), fun ⟨_, hskip, _⟩ => ?_⟩
    have hmem := List.mem_range.mp (List.mem_of_find?_eq_some hfind)
    have hcrlf := List.find?_some hfind
    rw [hskip i hmem] at hcrlf
    exact absurd hcrlf (by decide)
  | none =>
    have hskip : SkipOk (min buffer.length (maxLineLen + 1)) buffer := by
      intro i hi
      exact eq_false_of_ne_true (List.find?_eq_none.mp hfind i (List.mem_range.mpr hi))
    dsimp only
    split
    · simp [hskip, eq_comm, and_comm]
    · simp [hskip, eq_comm, and_comm]

/-! ## More of the buffer -/

theorem suffix_readUntilCrlf (crlfSkip : Nat) (buffer : Bytes) :
    (readUntilCrlf crlfSkip buffer).2 <:+ buffer := by
  rw [readUntilCrlf]
  split
  · exact List.drop_suffix _ _
  · split
    · exact List.suffix_refl _
    · exact List.suffix_refl _

theorem stable_readByte : readByte.Stable .invalidResponse where
  suffix rest := by
    cases rest with
    | nil => exact List.suffix_refl _
    | cons byte rest => exact List.suffix_cons byte rest
  ok {rest left a} h extra := by
    cases rest with
    | nil => simp [readByte] at h
    | cons byte rest =>
      obtain ⟨hbyte, rfl⟩ := Prod.mk.inj h
      obtain rfl := Except.ok.inj hbyte
      rfl
  error {rest left e} h hne := by
    cases rest with
    | nil =>
      obtain ⟨herr, _⟩ := Prod.mk.inj h
      exact absurd (Except.error.inj herr).symm hne
    | cons byte rest => simp [readByte] at h

theorem stable_readUntilCrlf : (readUntilCrlf 0).Stable .invalidResponse where
  suffix := suffix_readUntilCrlf 0
  ok h extra := by
    obtain ⟨i, hi, hcrlf, hskip, rfl, rfl⟩ := readUntilCrlf_eq_ok.1 h
    have hlt := lt_of_crlfAt hcrlf
    refine readUntilCrlf_eq_ok.2 ⟨i, hi, crlfAt_append hcrlf extra, ?_, ?_, ?_⟩
    · intro j hj
      refine eq_false_of_ne_true fun hcrlf' => ?_
      have hfalse := hskip j hj
      rw [crlfAt_of_append hcrlf' (by omega)] at hfalse
      exact absurd hfalse (by decide)
    · exact (List.take_append_of_le_length (by omega)).symm
    · exact (List.drop_append_of_le_length (by omega)).symm
  error {rest left e} h hne extra := by
    obtain ⟨rfl, hskip, he⟩ := readUntilCrlf_eq_error.1 h
    have hlen : left.length > maxLineLen + 1 := by
      by_contra hle
      rw [if_neg hle] at he
      exact hne he
    refine ⟨left ++ extra, readUntilCrlf_eq_error.2 ⟨rfl, ?_, ?_⟩⟩
    · intro j hj
      rw [Nat.lt_min] at hj
      refine eq_false_of_ne_true fun hcrlf => ?_
      have hfalse := hskip j (lt_min (by omega) hj.2)
      rw [crlfAt_of_append hcrlf (by omega)] at hfalse
      exact absurd hfalse (by decide)
    · rw [he, if_pos hlen, if_pos (by rw [List.length_append]; omega)]

theorem stable_readInteger : (readInteger 0).Stable .invalidResponse := by
  refine Reader.Stable.bind stable_readUntilCrlf fun str => ?_
  cases parseInt64 str with
  | some int => exact .pure int
  | none => exact .fail _

theorem stable_readBlob (invalid : RedisError) (len : Nat) :
    (readBlob invalid len).Stable .invalidResponse := by
  have hline : ∀ blob : Bytes, Reader.Stable RedisError.invalidResponse
      ((readUntilCrlf 0).bind fun crlf =>
        if crlf ≠ [] then .fail invalid else .pure blob : ValkeyReader Bytes) := by
    intro blob
    refine Reader.Stable.bind stable_readUntilCrlf fun crlf => ?_
    split
    · exact .fail _
    · exact .pure _
  refine ⟨fun rest => ?_, fun {rest left a} h extra => ?_, fun {rest left e} h hne extra => ?_⟩
  · rw [readBlob]
    split
    · exact List.suffix_refl _
    · exact ((hline _).suffix _).trans (List.drop_suffix _ _)
  · rw [readBlob] at h ⊢
    split at h
    · simp at h
    next hlen =>
      rw [if_neg (by rw [List.length_append]; omega),
        List.take_append_of_le_length (by omega), List.drop_append_of_le_length (by omega)]
      exact (hline _).ok h extra
  · rw [readBlob] at h
    split at h
    · obtain ⟨herr, _⟩ := Prod.mk.inj h
      exact absurd (Except.error.inj herr).symm hne
    next hlen =>
      rw [readBlob, if_neg (by rw [List.length_append]; omega),
        List.take_append_of_le_length (by omega), List.drop_append_of_le_length (by omega)]
      exact (hline _).error h hne extra

theorem stable_readCounted (invalid : RedisError) :
    (readCounted invalid).Stable .invalidResponse := by
  refine Reader.Stable.bind stable_readInteger fun len => ?_
  split
  · exact .fail _
  · exact stable_readBlob _ _

section Values
variable {F64 : Type} (floats : Floats F64)

theorem stable_readDouble : (readDouble floats).Stable .invalidResponse := by
  refine Reader.Stable.bind stable_readUntilCrlf fun str => ?_
  split_ifs
  · exact .pure _
  · exact .pure _
  · exact .pure _
  · cases floats.parseF64 str with
    | some d => exact .pure d
    | none => exact .fail _

theorem stable_readBoolean : readBoolean.Stable .invalidResponse := by
  refine Reader.Stable.bind stable_readUntilCrlf fun str => ?_
  split
  · exact .pure _
  · exact .pure _
  · exact .fail _

theorem stable_readVerbatimString : readVerbatimString.Stable .invalidResponse := by
  refine (stable_readCounted _).bind fun contentWithFormat => ?_
  split
  · exact .fail _
  · exact .pure _

variable {α : Type} {child : Option (ValkeyReader (RESPValue F64))}

theorem stable_readEntry {child : ValkeyReader α} (h : child.Stable .invalidResponse) :
    (readEntry child).Stable .invalidResponse :=
  h.bind fun _ => h.map _

theorem stable_readAggregate {β : Type} {child : Option (ValkeyReader α)} {invalid : Int → Bool}
    {error : RedisError} {children : ValkeyReader α → Int → ValkeyReader β}
    (h : ∀ c ∈ child, ∀ len, (children c len).Stable .invalidResponse) :
    (readAggregate child invalid error children).Stable .invalidResponse := by
  cases child with
  | none => exact .fail _
  | some c =>
    refine Reader.Stable.bind stable_readInteger fun len => ?_
    split
    · exact .fail _
    · exact h c rfl len

theorem stable_readOfType (h : ∀ c ∈ child, c.Stable .invalidResponse) (type : RESPType) :
    (readOfType floats child type).Stable .invalidResponse := by
  match type with
  | .simpleString | .error | .bigNumber => exact Reader.Stable.map stable_readUntilCrlf _
  | .integer => exact Reader.Stable.map stable_readInteger _
  | .bulkString =>
    refine Reader.Stable.bind stable_readInteger fun len => ?_
    split_ifs
    · exact .pure _
    · exact .fail _
    · exact (stable_readBlob _ _).map _
  | .array =>
    refine stable_readAggregate fun c hc len => ?_
    split
    · exact .pure _
    · exact ((h c hc).many _).map _
  | .null =>
    refine Reader.Stable.bind stable_readUntilCrlf fun line => ?_
    split
    · exact .fail _
    · exact .pure _
  | .double => exact (stable_readDouble floats).map _
  | .boolean => exact Reader.Stable.map stable_readBoolean _
  | .blobError => exact (stable_readCounted _).map _
  | .verbatimString => exact Reader.Stable.map stable_readVerbatimString _
  | .map => exact stable_readAggregate fun c hc len => ((stable_readEntry (h c hc)).many _).map _
  | .set => exact stable_readAggregate fun c hc len => ((h c hc).many _).map _
  | .attribute =>
    exact stable_readAggregate fun c hc len =>
      ((stable_readEntry (h c hc)).many _).bind fun _ => (h c hc).map _
  | .push =>
    refine stable_readAggregate fun c hc len => (h c hc).bind fun kind => ?_
    cases pushType kind with
    | none => exact .fail _
    | some kind => exact ((h c hc).many _).map _

theorem stable_readWith (h : ∀ c ∈ child, c.Stable .invalidResponse) :
    (readWith floats child).Stable .invalidResponse := by
  refine Reader.Stable.bind stable_readByte fun typeByte => ?_
  cases RESPType.fromByte typeByte with
  | none => exact .fail _
  | some type => exact stable_readOfType floats h type

theorem stable_readValueAt (levels : Nat) :
    (readValueAt floats levels).Stable .invalidResponse := by
  induction levels with
  | zero => exact stable_readWith floats fun c hc => absurd hc (by simp)
  | succ levels ih =>
    refine stable_readWith floats fun c hc => ?_
    rw [← Option.some.inj hc]
    exact ih

/-- More of the buffer changes no value and no error but the one for a short buffer. -/
theorem stable_readValue : (readValue floats).Stable .invalidResponse :=
  stable_readValueAt floats maxNestingDepth

end Values

end OhosBun.Valkey
