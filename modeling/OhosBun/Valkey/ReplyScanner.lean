/-
# `OhosBun.Valkey.ReplyScanner` — where a reply ends

The scanner goes over the elements of a reply without making values of them, and keeps its
place when the buffer ends too early: the position of the next element, how many children
each open aggregate still waits for, and how much of the next line is known to have no end.

`scan_outcome` says what it finds by recursion over the reply (`skipAt`), in place of the
stack.  `scan_prefixes` says that a scanner fed one prefix of a buffer after the other
comes to the same end as a fresh one, as long as none of them had a complete reply; after
one of those the scanner goes on to the next reply (`scan_after_complete`).
-/
import OhosBun.Valkey.Protocol

namespace OhosBun.Valkey

open OhosBun.Lib

/-! ## The scanner -/

/-- The bytes of a blob and the line end after them. -/
def skipBlob (invalid : RedisError) (len : Nat) : ValkeyReader (Option Nat) := fun buffer =>
  -- The payload plus its trailing CRLF must be fully buffered.
  if buffer.length < len + 2 then (.error .invalidResponse, buffer)
  else if buffer[len]? ≠ some 13 ∨ buffer[len + 1]? ≠ some 10 then (.error invalid, buffer)
  else (.ok none, buffer.drop (len + 2))

/-- Only `$-1` (RESP2 null bulk string) is legal. -/
def scanBlob (crlfSkip : Nat) (null : Bool) (invalid : RedisError) : ValkeyReader (Option Nat) :=
  (readInteger crlfSkip).bind fun len =>
    if len < 0 then (if null then .pure none else .fail invalid)
    else if len > maxBulkLen then .fail invalid
    else skipBlob invalid len.toNat

def scanAggregate (crlfSkip depth : Nat) (invalid : Int → Bool) (error : RedisError)
    (children : Int → Nat) : ValkeyReader (Option Nat) :=
  if maxNestingDepth ≤ depth then .fail .nestingDepthExceeded
  else (readInteger crlfSkip).bind fun len =>
    if invalid len then .fail error else .pure (some (children len))

def saturatingMul (a b : Nat) : Nat := min (a * b) (2 ^ 64 - 1)

def saturatingAdd (a b : Nat) : Nat := min (a + b) (2 ^ 64 - 1)

/-- What of an element comes after its type, with the number of its children. -/
def scanOfType (crlfSkip depth : Nat) : RESPType → ValkeyReader (Option Nat)
  | .simpleString | .error | .integer | .double | .boolean | .bigNumber =>
    (readUntilCrlf crlfSkip).bind fun _ => .pure none
  | .null => (readUntilCrlf crlfSkip).bind fun line =>
    if line ≠ [] then .fail .invalidNull else .pure none
  | .bulkString => scanBlob crlfSkip true .invalidBulkString
  | .blobError => scanBlob crlfSkip false .invalidBlobError
  | .verbatimString => scanBlob crlfSkip false .invalidVerbatimString
  | .array => scanAggregate crlfSkip depth (fun _ => false) .invalidArray fun len => len.toNat
  | .set => scanAggregate crlfSkip depth (fun len => len < 0) .invalidSet fun len => len.toNat
  | .push => scanAggregate crlfSkip depth (fun len => len ≤ 0) .invalidPush fun len => len.toNat
  | .map => scanAggregate crlfSkip depth (fun len => len < 0) .invalidMap fun len =>
    saturatingMul len.toNat 2
  | .attribute => scanAggregate crlfSkip depth (fun len => len < 0) .invalidAttribute fun len =>
    saturatingAdd (saturatingMul len.toNat 2) 1

def scanOne (crlfSkip depth : Nat) : ValkeyReader (Option Nat) :=
  readByte.bind fun typeByte =>
    match RESPType.fromByte typeByte with
    | none => .fail .invalidResponseType
    | some type => scanOfType crlfSkip depth type

inductive ScanResult
  | complete
  | needMoreData
deriving DecidableEq

/-- The innermost aggregate comes first in the stack. -/
structure ReplyScanner where
  pos : Nat := 0
  stack : List Nat := []
  crlfSkip : Nat := 0
deriving DecidableEq

namespace ReplyScanner

/-- Unwinds every aggregate that an element completes. -/
def unwind : List Nat → List Nat
  | [] => []
  | remaining :: stack => if 0 < remaining - 1 then (remaining - 1) :: stack else unwind stack

/-- The loop of `scan`; `rest` is the buffer from `pos` on, and every turn takes a byte. -/
@[grind] def scanLoop : (fuel : Nat) → ReplyScanner → (rest : Bytes) →
    Except RedisError ScanResult × ReplyScanner
  | 0, s, _ => (.ok .needMoreData, s)
  | fuel + 1, s, rest =>
    match scanOne s.crlfSkip s.stack.length rest with
    | (.error err, left) =>
      -- `InvalidResponse` is the parser's "ran out of bytes" sentinel.
      if err = .invalidResponse then
        (.ok .needMoreData,
          { s with crlfSkip := if left.length + 1 = rest.length then left.length - 1 else 0 })
      else (.error err, s)
    | (.ok children, left) =>
      let pos := s.pos + (rest.length - left.length)
      if 0 < children.getD 0 then scanLoop fuel ⟨pos, children.getD 0 :: s.stack, 0⟩ left
      else
        let stack := unwind s.stack
        if stack = [] then (.ok .complete, ⟨pos, stack, 0⟩)
        else scanLoop fuel ⟨pos, stack, 0⟩ left

def scan (s : ReplyScanner) (buffer : Bytes) : Except RedisError ScanResult × ReplyScanner :=
  scanLoop (buffer.length - s.pos + 1) s (buffer.drop s.pos)

/-- What a scan finds: the end of the reply, that it is not there yet, or an error. -/
def outcome (scanned : Except RedisError ScanResult × ReplyScanner) :
    Except RedisError (Option Nat) :=
  match scanned.1 with
  | .ok .complete => .ok (some scanned.2.pos)
  | .ok .needMoreData => .ok none
  | .error err => .error err

end ReplyScanner

/-! ## An element -/

section Elements
variable {crlfSkip : Nat} {buffer : Bytes}

theorem readInteger_skip (h : SkipOk crlfSkip buffer) :
    readInteger crlfSkip buffer = readInteger 0 buffer := by
  rw [readInteger, readInteger, Reader.bind, Reader.bind, readUntilCrlf_skip h]

theorem bind_readInteger_skip {α : Type} (h : SkipOk crlfSkip buffer) (f : Int → ValkeyReader α) :
    (readInteger crlfSkip).bind f buffer = (readInteger 0).bind f buffer := by
  rw [Reader.bind, Reader.bind, readInteger_skip h]

theorem bind_readUntilCrlf_skip {α : Type} (h : SkipOk crlfSkip buffer)
    (f : Bytes → ValkeyReader α) :
    (readUntilCrlf crlfSkip).bind f buffer = (readUntilCrlf 0).bind f buffer := by
  rw [Reader.bind, Reader.bind, readUntilCrlf_skip h]

theorem scanAggregate_skip (h : SkipOk crlfSkip buffer) (depth : Nat) (invalid : Int → Bool)
    (error : RedisError) (children : Int → Nat) :
    scanAggregate crlfSkip depth invalid error children buffer =
      scanAggregate 0 depth invalid error children buffer := by
  rw [scanAggregate, scanAggregate]
  split
  · rfl
  · exact bind_readInteger_skip h _

theorem scanOfType_skip (h : SkipOk crlfSkip buffer) (depth : Nat) (type : RESPType) :
    scanOfType crlfSkip depth type buffer = scanOfType 0 depth type buffer := by
  match type with
  | .simpleString | .error | .integer | .double | .boolean | .bigNumber | .null =>
    exact bind_readUntilCrlf_skip h _
  | .bulkString | .blobError | .verbatimString => exact bind_readInteger_skip h _
  | .array | .set | .push | .map | .attribute => exact scanAggregate_skip h _ _ _ _

/-- Skipping changes nothing. -/
theorem scanOne_skip {rest : Bytes} (h : SkipOk crlfSkip rest.tail) (depth : Nat) :
    scanOne crlfSkip depth rest = scanOne 0 depth rest := by
  cases rest with
  | nil => rfl
  | cons byte rest =>
    have hbyte : readByte (byte :: rest) = (.ok byte, rest) := rfl
    rw [scanOne, scanOne, Reader.bind_of_ok hbyte, Reader.bind_of_ok hbyte]
    cases RESPType.fromByte byte with
    | none => rfl
    | some type => exact scanOfType_skip h depth type

theorem stable_skipBlob (invalid : RedisError) (len : Nat) :
    (skipBlob invalid len).Stable .invalidResponse where
  suffix rest := by
    rw [skipBlob]
    split_ifs
    · exact List.suffix_refl _
    · exact List.suffix_refl _
    · exact List.drop_suffix _ _
  ok {rest left a} h extra := by
    rw [skipBlob] at h ⊢
    split_ifs at h with hlen hcrlf
    · simp at h
    · simp at h
    · obtain ⟨hok, rfl⟩ := Prod.mk.inj h
      rw [if_neg (by rw [List.length_append]; omega), List.getElem?_append_left (by omega),
        List.getElem?_append_left (by omega), if_neg hcrlf,
        List.drop_append_of_le_length (by omega), ← Except.ok.inj hok]
  error {rest left e} h hne extra := by
    rw [skipBlob] at h
    split_ifs at h with hlen hcrlf
    · obtain ⟨herr, _⟩ := Prod.mk.inj h
      exact absurd (Except.error.inj herr).symm hne
    · obtain ⟨herr, _⟩ := Prod.mk.inj h
      refine ⟨rest ++ extra, ?_⟩
      rw [skipBlob, if_neg (by rw [List.length_append]; omega),
        List.getElem?_append_left (by omega), List.getElem?_append_left (by omega), if_pos hcrlf,
        ← Except.error.inj herr]
    · simp at h

theorem stable_scanBlob (null : Bool) (invalid : RedisError) :
    (scanBlob 0 null invalid).Stable .invalidResponse := by
  refine stable_readInteger.bind fun len => ?_
  split_ifs
  · exact .pure _
  · exact .fail _
  · exact .fail _
  · exact stable_skipBlob _ _

theorem stable_scanAggregate (depth : Nat) (invalid : Int → Bool) (error : RedisError)
    (children : Int → Nat) :
    (scanAggregate 0 depth invalid error children).Stable .invalidResponse := by
  rw [scanAggregate]
  split
  · exact .fail _
  · refine stable_readInteger.bind fun len => ?_
    split
    · exact .fail _
    · exact .pure _

theorem stable_scanOfType (depth : Nat) (type : RESPType) :
    (scanOfType 0 depth type).Stable .invalidResponse := by
  match type with
  | .simpleString | .error | .integer | .double | .boolean | .bigNumber =>
    exact stable_readUntilCrlf.bind fun _ => .pure _
  | .null =>
    refine stable_readUntilCrlf.bind fun line => ?_
    split
    · exact .fail _
    · exact .pure _
  | .bulkString | .blobError | .verbatimString => exact stable_scanBlob _ _
  | .array | .set | .push | .map | .attribute => exact stable_scanAggregate _ _ _ _

theorem stable_scanOne (depth : Nat) : (scanOne 0 depth).Stable .invalidResponse := by
  refine stable_readByte.bind fun typeByte => ?_
  cases RESPType.fromByte typeByte with
  | none => exact .fail _
  | some type => exact stable_scanOfType depth type

/-- An element takes a byte. -/
theorem scanOne_length {depth : Nat} {rest left : Bytes} {children : Option Nat}
    (h : scanOne 0 depth rest = (.ok children, left)) : left.length < rest.length := by
  obtain ⟨byte, mid, hbyte, hmid⟩ := Reader.bind_eq_ok.1 h
  have hlt : mid.length < rest.length := by
    cases rest with
    | nil => simp [readByte] at hbyte
    | cons b bs =>
      obtain ⟨_, rfl⟩ := Prod.mk.inj hbyte
      exact Nat.lt_succ_self _
  refine Nat.lt_of_le_of_lt ?_ hlt
  cases htype : RESPType.fromByte byte with
  | none =>
    rw [htype] at hmid
    exact absurd (Prod.mk.inj hmid).1 (by simp)
  | some type =>
    rw [htype] at hmid
    exact (stable_scanOfType depth type).length_le hmid

end Elements

/-! ## The loop -/

namespace ReplyScanner
variable {s : ReplyScanner} {rest left : Bytes}

/-- The scanner at an element of the rest of the buffer. -/
def scanFrom (s : ReplyScanner) (rest : Bytes) : Except RedisError ScanResult × ReplyScanner :=
  scanLoop (rest.length + 1) s rest

/-- The scanner where an element ends that has no children left to come. -/
def finish (pos : Nat) (stack : List Nat) (left : Bytes) :
    Except RedisError ScanResult × ReplyScanner :=
  if unwind stack = [] then (.ok .complete, ⟨pos, unwind stack, 0⟩)
  else scanFrom ⟨pos, unwind stack, 0⟩ left

theorem scanLoop_fuel {fuel fuel' : Nat} (hfuel : rest.length < fuel) (hfuel' : rest.length < fuel')
    (hskip : SkipOk s.crlfSkip rest.tail) : scanLoop fuel s rest = scanLoop fuel' s rest := by
  induction fuel generalizing fuel' s rest with
  | zero => exact absurd hfuel (Nat.not_lt_zero _)
  | succ fuel ih =>
    cases fuel' with
    | zero => exact absurd hfuel' (Nat.not_lt_zero _)
    | succ fuel' =>
      rw [scanLoop, scanLoop, scanOne_skip hskip]
      cases hone : scanOne 0 s.stack.length rest with
      | mk r left =>
        cases r with
        | error err => rfl
        | ok children =>
          have hlt := scanOne_length hone
          dsimp only
          split_ifs
          · exact ih (by omega) (by omega) (.zero _)
          · rfl
          · exact ih (by omega) (by omega) (.zero _)

theorem scan_eq_scanFrom (s : ReplyScanner) (buffer : Bytes) :
    s.scan buffer = s.scanFrom (buffer.drop s.pos) := by
  rw [scan, scanFrom, List.length_drop]

section Turn
variable (hskip : SkipOk s.crlfSkip rest.tail)
include hskip

theorem scanFrom_error {err : RedisError}
    (h : scanOne 0 s.stack.length rest = (.error err, left)) :
    s.scanFrom rest =
      if err = .invalidResponse then
        (.ok .needMoreData,
          { s with crlfSkip := if left.length + 1 = rest.length then left.length - 1 else 0 })
      else (.error err, s) := by
  rw [scanFrom, scanLoop, scanOne_skip hskip, h]

theorem scanFrom_children {children : Option Nat}
    (h : scanOne 0 s.stack.length rest = (.ok children, left)) (hpos : 0 < children.getD 0) :
    s.scanFrom rest =
      scanFrom ⟨s.pos + (rest.length - left.length), children.getD 0 :: s.stack, 0⟩ left := by
  rw [scanFrom, scanLoop, scanOne_skip hskip, h]
  dsimp only
  rw [if_pos hpos]
  exact scanLoop_fuel (scanOne_length h) (Nat.lt_succ_self _) (.zero _)

theorem scanFrom_finish {children : Option Nat}
    (h : scanOne 0 s.stack.length rest = (.ok children, left)) (hzero : children.getD 0 = 0) :
    s.scanFrom rest = finish (s.pos + (rest.length - left.length)) s.stack left := by
  rw [scanFrom, scanLoop, scanOne_skip hskip, h, finish]
  dsimp only
  rw [if_neg (by omega)]
  split
  · rfl
  · exact scanLoop_fuel (scanOne_length h) (Nat.lt_succ_self _) (.zero _)

end Turn

/-! ## The loop goes by the shape of the reply -/

/-- An element and what it counts. -/
def skipWith (depth : Nat) (child : ValkeyReader Unit) : ValkeyReader Unit :=
  (scanOne 0 depth).bind fun children => (child.many (children.getD 0)).map fun _ => ()

/-- A value, with so many levels left to `MAX_NESTING_DEPTH`. -/
def skipAt : (levels : Nat) → ValkeyReader Unit
  | 0 => skipWith maxNestingDepth (.fail .nestingDepthExceeded)
  | levels + 1 => skipWith (maxNestingDepth - (levels + 1)) (skipAt levels)

variable {depth pos : Nat} {stack : List Nat} {α : Type} {buffer : Bytes}

theorem stable_skipWith {child : ValkeyReader Unit} (h : child.Stable .invalidResponse) :
    (skipWith depth child).Stable .invalidResponse :=
  (stable_scanOne depth).bind fun _ => (h.many _).map _

theorem stable_skipAt (levels : Nat) : (skipAt levels).Stable .invalidResponse := by
  induction levels with
  | zero => exact stable_skipWith (.fail _)
  | succ levels ih => exact stable_skipWith ih

/-- At the last level an element counts none. -/
theorem getD_of_max {children : Option Nat}
    (h : scanOne 0 maxNestingDepth rest = (.ok children, left)) : children.getD 0 = 0 := by
  obtain ⟨byte, mid, -, hmid⟩ := Reader.bind_eq_ok.1 h
  cases htype : RESPType.fromByte byte with
  | none =>
    rw [htype] at hmid
    exact absurd (Prod.mk.inj hmid).1 (by simp)
  | some type =>
    rw [htype] at hmid
    have hblob : ∀ null invalid, scanBlob 0 null invalid mid = (.ok children, left) →
        children.getD 0 = 0 := by
      intro null invalid hblob
      obtain ⟨len, mid', -, hlen⟩ := Reader.bind_eq_ok.1 hblob
      split_ifs at hlen
      · rw [← Except.ok.inj (Prod.mk.inj hlen).1]
        rfl
      · exact absurd (Prod.mk.inj hlen).1 (by simp)
      · exact absurd (Prod.mk.inj hlen).1 (by simp)
      · rw [skipBlob] at hlen
        split_ifs at hlen
        · exact absurd (Prod.mk.inj hlen).1 (by simp)
        · exact absurd (Prod.mk.inj hlen).1 (by simp)
        · rw [← Except.ok.inj (Prod.mk.inj hlen).1]
          rfl
    match type with
    | .simpleString | .error | .integer | .double | .boolean | .bigNumber =>
      obtain ⟨_, mid', -, hpure⟩ := Reader.bind_eq_ok.1 hmid
      rw [← Except.ok.inj (Prod.mk.inj hpure).1]
      rfl
    | .null =>
      obtain ⟨line, mid', -, hline⟩ := Reader.bind_eq_ok.1 hmid
      split at hline
      · exact absurd (Prod.mk.inj hline).1 (by simp)
      · rw [← Except.ok.inj (Prod.mk.inj hline).1]
        rfl
    | .bulkString | .blobError | .verbatimString => exact hblob _ _ hmid
    | .array | .set | .push | .map | .attribute =>
      exact absurd (Prod.mk.inj hmid).1 (by simp)

/-- How the scanner goes on where an element has been skipped, or could not be. -/
structure Follows (skip : ValkeyReader Unit) (depth : Nat) : Prop where
  ok : ∀ {s : ReplyScanner} {rest left : Bytes}, s.stack.length = depth →
    SkipOk s.crlfSkip rest.tail → skip rest = (.ok (), left) →
    left.length < rest.length ∧
      s.scanFrom rest = finish (s.pos + (rest.length - left.length)) s.stack left
  error : ∀ {s : ReplyScanner} {rest left : Bytes} {err : RedisError}, s.stack.length = depth →
    SkipOk s.crlfSkip rest.tail → skip rest = (.error err, left) →
    outcome (s.scanFrom rest) = if err = .invalidResponse then .ok none else .error err

/-- The children of an aggregate, one after the other. -/
theorem Follows.many {skip : ValkeyReader Unit} (h : Follows skip (stack.length + 1)) (n : Nat)
    {rest : Bytes} :
    (∀ {units left}, skip.many (n + 1) rest = (.ok units, left) → left.length < rest.length ∧
      scanFrom ⟨pos, (n + 1) :: stack, 0⟩ rest =
        finish (pos + (rest.length - left.length)) stack left) ∧
    (∀ {err left}, skip.many (n + 1) rest = (.error err, left) →
      outcome (scanFrom ⟨pos, (n + 1) :: stack, 0⟩ rest) =
        if err = .invalidResponse then .ok none else .error err) := by
  induction n generalizing pos rest with
  | zero =>
    constructor
    · intro units left hmany
      obtain ⟨⟨⟩, mid, hskip, hpure⟩ := Reader.bind_eq_ok.1 hmany
      obtain ⟨_, rfl⟩ := Prod.mk.inj hpure
      obtain ⟨hlt, hscan⟩ := h.ok (s := ⟨pos, 1 :: stack, 0⟩) rfl (.zero _) hskip
      exact ⟨hlt, hscan⟩
    · intro err left hmany
      rcases Reader.bind_eq_error.1 hmany with hskip | ⟨_, _, _, hpure⟩
      · exact h.error (s := ⟨pos, 1 :: stack, 0⟩) rfl (.zero _) hskip
      · exact absurd (Prod.mk.inj hpure).1 (by simp)
  | succ n ih =>
    have hnext : ∀ {mid : Bytes}, skip rest = (.ok (), mid) → mid.length < rest.length ∧
        scanFrom ⟨pos, (n + 2) :: stack, 0⟩ rest =
          scanFrom ⟨pos + (rest.length - mid.length), (n + 1) :: stack, 0⟩ mid := by
      intro mid hskip
      obtain ⟨hlt, hscan⟩ := h.ok (s := ⟨pos, (n + 2) :: stack, 0⟩) rfl (.zero _) hskip
      exact ⟨hlt, hscan⟩
    constructor
    · intro units left hmany
      obtain ⟨⟨⟩, mid, hskip, hrest⟩ := Reader.bind_eq_ok.1 hmany
      obtain ⟨units', hmany', _⟩ := Reader.map_eq_ok.1 hrest
      obtain ⟨hlt, hscan⟩ := hnext hskip
      obtain ⟨hlt', hscan'⟩ := ih.1 hmany'
      refine ⟨hlt'.trans hlt, ?_⟩
      rw [hscan, hscan']
      congr 1
      omega
    · intro err left hmany
      rcases Reader.bind_eq_error.1 hmany with hskip | ⟨⟨⟩, mid, hskip, hrest⟩
      · exact h.error (s := ⟨pos, (n + 2) :: stack, 0⟩) rfl (.zero _) hskip
      · rw [(hnext hskip).2]
        rcases Reader.bind_eq_error.1 hrest with hmany' | ⟨_, _, _, hpure⟩
        · exact ih.2 hmany'
        · exact absurd (Prod.mk.inj hpure).1 (by simp)

theorem outcome_scanFrom_error (hskip : SkipOk s.crlfSkip rest.tail) {err : RedisError}
    (h : scanOne 0 s.stack.length rest = (.error err, left)) :
    outcome (s.scanFrom rest) = if err = .invalidResponse then .ok none else .error err := by
  rw [scanFrom_error hskip h]
  split
  · rfl
  · rfl

/-- The stack does what the recursion does. -/
theorem follows_skipAt {levels : Nat} (hlevels : levels ≤ maxNestingDepth) :
    Follows (skipAt levels) (maxNestingDepth - levels) := by
  induction levels with
  | zero =>
    refine ⟨fun {s rest left} hdepth hskip h => ?_, fun {s rest left err} hdepth hskip h => ?_⟩
    · obtain ⟨children, mid, hone, hrest⟩ := Reader.bind_eq_ok.1 h
      have hcount := getD_of_max hone
      rw [hcount] at hrest
      obtain ⟨_, rfl⟩ := Prod.mk.inj hrest
      refine ⟨scanOne_length hone, scanFrom_finish hskip ?_ hcount⟩
      rw [hdepth]
      exact hone
    · rcases Reader.bind_eq_error.1 h with hone | ⟨children, mid, hone, hrest⟩
      · rw [Nat.sub_zero] at hdepth
        rw [← hdepth] at hone
        exact outcome_scanFrom_error hskip hone
      · rw [getD_of_max hone] at hrest
        exact absurd (Prod.mk.inj hrest).1 (by simp)
  | succ levels ih =>
    have hchildren := ih (Nat.le_of_succ_le hlevels)
    have hdepth' : maxNestingDepth - levels = maxNestingDepth - (levels + 1) + 1 := by omega
    rw [hdepth'] at hchildren
    refine ⟨fun {s rest left} hdepth hskip h => ?_, fun {s rest left err} hdepth hskip h => ?_⟩
    · obtain ⟨children, mid, hone, hrest⟩ := Reader.bind_eq_ok.1 h
      obtain ⟨units, hmany, _⟩ := Reader.map_eq_ok.1 hrest
      have hlt := scanOne_length hone
      rw [← hdepth] at hone
      cases hcount : children.getD 0 with
      | zero =>
        rw [hcount] at hmany
        obtain ⟨_, rfl⟩ := Prod.mk.inj hmany
        exact ⟨hlt, scanFrom_finish hskip hone hcount⟩
      | succ n =>
        rw [hcount] at hmany
        rw [← hdepth] at hchildren
        obtain ⟨hlt', hscan⟩ := (hchildren.many n).1 hmany
        refine ⟨hlt'.trans hlt, ?_⟩
        rw [scanFrom_children hskip hone (by omega), hcount, hscan]
        congr 1
        omega
    · rcases Reader.bind_eq_error.1 h with hone | ⟨children, mid, hone, hrest⟩
      · rw [← hdepth] at hone
        exact outcome_scanFrom_error hskip hone
      · rw [← hdepth] at hone
        rcases Reader.bind_eq_error.1 hrest with hmany | ⟨_, _, _, hpure⟩
        · cases hcount : children.getD 0 with
          | zero =>
            rw [hcount] at hmany
            exact absurd (Prod.mk.inj hmany).1 (by simp)
          | succ n =>
            rw [hcount] at hmany
            rw [← hdepth] at hchildren
            rw [scanFrom_children hskip hone (by omega), hcount]
            exact (hchildren.many n).2 hmany
        · exact absurd (Prod.mk.inj hpure).1 (by simp)

/-- What a fresh scanner finds. -/
theorem scan_outcome (buffer : Bytes) : outcome (scan {} buffer) =
    match skipAt maxNestingDepth buffer with
    | (.ok (), left) => .ok (some (buffer.length - left.length))
    | (.error err, _) => if err = .invalidResponse then .ok none else .error err := by
  have hfollows := follows_skipAt (Nat.le_refl maxNestingDepth)
  rw [Nat.sub_self] at hfollows
  rw [scan_eq_scanFrom, List.drop_zero]
  cases h : skipAt maxNestingDepth buffer with
  | mk r left =>
    cases r with
    | ok _ =>
      rw [(hfollows.ok (s := {}) rfl (.zero _) h).2]
      change Except.ok (some (0 + (buffer.length - left.length))) = _
      rw [Nat.zero_add]
    | error err => exact hfollows.error (s := {}) rfl (.zero _) h

/-! ## One prefix after the other -/

/-- The line that the scanner is in has no end in what is skipped, whatever comes. -/
structure Resumable (s : ReplyScanner) (rest : Bytes) : Prop where
  skipOk : SkipOk s.crlfSkip rest.tail
  inside : s.crlfSkip = 0 ∨ s.crlfSkip < rest.tail.length

theorem Resumable.append (h : Resumable s rest) (extra : Bytes) :
    SkipOk s.crlfSkip (rest ++ extra).tail := by
  rcases h.inside with hzero | hlt
  · rw [hzero]
    exact .zero _
  · have hne : rest ≠ [] := by
      rintro rfl
      exact absurd hlt (Nat.not_lt_zero _)
    rw [List.tail_append_of_ne_nil hne]
    intro i hi
    refine eq_false_of_ne_true fun hcrlf => ?_
    have hfalse := h.skipOk i hi
    rw [crlfAt_of_append hcrlf (by omega)] at hfalse
    exact absurd hfalse (by decide)

/-- A line that could not be read to its end has none. -/
theorem skipOk_of_bind {f : Bytes → ValkeyReader α} (hf : ∀ line, (f line).Stable .invalidResponse)
    (h : (readUntilCrlf 0).bind f buffer = (.error .invalidResponse, left))
    (hlen : left.length = buffer.length) : SkipOk buffer.length buffer := by
  rcases Reader.bind_eq_error.1 h with hline | ⟨line, mid, hline, hmid⟩
  · obtain ⟨_, hskip, he⟩ := readUntilCrlf_eq_error.1 hline
    split at he
    · exact absurd he (by decide)
    next hle =>
      rwa [Nat.min_eq_left (by omega)] at hskip
  · obtain ⟨i, _, hcrlf, _, _, rfl⟩ := readUntilCrlf_eq_ok.1 hline
    have hlt := lt_of_crlfAt hcrlf
    have hle := (hf line).length_le hmid
    rw [List.length_drop] at hle
    omega

theorem skipOk_of_bind_readInteger {f : Int → ValkeyReader α}
    (hf : ∀ len, (f len).Stable .invalidResponse)
    (h : (readInteger 0).bind f buffer = (.error .invalidResponse, left))
    (hlen : left.length = buffer.length) : SkipOk buffer.length buffer := by
  rw [readInteger, Reader.bind_bind] at h
  refine skipOk_of_bind (fun line => ?_) h hlen
  cases parseInt64 line with
  | some int => exact hf int
  | none => exact .fail _

theorem skipOk_of_scanOfType {type : RESPType}
    (h : scanOfType 0 depth type buffer = (.error .invalidResponse, left))
    (hlen : left.length = buffer.length) : SkipOk buffer.length buffer := by
  have haggregate : ∀ invalid error children,
      scanAggregate 0 depth invalid error children buffer = (.error .invalidResponse, left) →
      SkipOk buffer.length buffer := by
    intro invalid error children haggregate
    rw [scanAggregate] at haggregate
    split at haggregate
    · exact absurd (Prod.mk.inj haggregate).1 (by simp)
    · refine skipOk_of_bind_readInteger (fun len => ?_) haggregate hlen
      split
      · exact .fail _
      · exact .pure _
  have hblob : ∀ null invalid, scanBlob 0 null invalid buffer = (.error .invalidResponse, left) →
      SkipOk buffer.length buffer := by
    intro null invalid hblob
    refine skipOk_of_bind_readInteger (fun len => ?_) hblob hlen
    split_ifs
    · exact .pure _
    · exact .fail _
    · exact .fail _
    · exact stable_skipBlob _ _
  match type with
  | .simpleString | .error | .integer | .double | .boolean | .bigNumber =>
    exact skipOk_of_bind (fun _ => .pure _) h hlen
  | .null =>
    refine skipOk_of_bind (fun line => ?_) h hlen
    split
    · exact .fail _
    · exact .pure _
  | .bulkString | .blobError | .verbatimString => exact hblob _ _ h
  | .array | .set | .push | .map | .attribute => exact haggregate _ _ _ h

/-- What the scanner notes of a line that has no end yet. -/
theorem resumable_of_error (h : scanOne 0 depth rest = (.error .invalidResponse, left)) (pos : Nat)
    (stack : List Nat) :
    Resumable ⟨pos, stack, if left.length + 1 = rest.length then left.length - 1 else 0⟩ rest := by
  split
  next hlen =>
    cases rest with
    | nil => exact absurd hlen (Nat.succ_ne_zero _)
    | cons byte cs =>
      have hlen' : left.length = cs.length := Nat.succ.inj hlen
      have hbyte : readByte (byte :: cs) = (.ok byte, cs) := rfl
      rw [scanOne, Reader.bind_of_ok hbyte] at h
      have hskip : SkipOk cs.length cs := by
        cases htype : RESPType.fromByte byte with
        | none =>
          rw [htype] at h
          exact absurd (Prod.mk.inj h).1 (by simp)
        | some type =>
          rw [htype] at h
          exact skipOk_of_scanOfType h hlen'
      constructor
      · intro i hi
        exact hskip i (by dsimp only at hi; omega)
      · change left.length - 1 = 0 ∨ left.length - 1 < cs.length
        omega
  next => exact ⟨.zero _, .inl rfl⟩

/-- What the scanner finds does not depend on what it skips. -/
theorem outcome_scanFrom_skip {crlfSkip crlfSkip' : Nat} (h : SkipOk crlfSkip rest.tail)
    (h' : SkipOk crlfSkip' rest.tail) :
    outcome (scanFrom ⟨pos, stack, crlfSkip⟩ rest) =
      outcome (scanFrom ⟨pos, stack, crlfSkip'⟩ rest) := by
  cases hone : scanOne 0 stack.length rest with
  | mk r left =>
    cases r with
    | error err => rw [outcome_scanFrom_error h hone, outcome_scanFrom_error h' hone]
    | ok children =>
      rcases Nat.eq_zero_or_pos (children.getD 0) with hzero | hpos
      · rw [scanFrom_finish h hone hzero, scanFrom_finish h' hone hzero]
      · rw [scanFrom_children (s := ⟨pos, stack, crlfSkip⟩) h hone hpos,
          scanFrom_children (s := ⟨pos, stack, crlfSkip'⟩) h' hone hpos]

/-- Where a scanner stopped for want of data, or for an error, it can go on. -/
theorem scanFrom_resume (hs : Resumable s rest)
    (hopen : ∀ n, outcome (s.scanFrom rest) ≠ .ok (some n)) :
    ∃ left, left <:+ rest ∧ (s.scanFrom rest).2.pos = s.pos + (rest.length - left.length) ∧
      Resumable (s.scanFrom rest).2 left ∧
      ∀ extra, outcome ((s.scanFrom rest).2.scanFrom (left ++ extra)) =
        outcome (s.scanFrom (rest ++ extra)) := by
  induction hn : rest.length using Nat.strong_induction_on generalizing s rest with
  | h n ih =>
    subst hn
    cases hone : scanOne 0 s.stack.length rest with
    | mk r left =>
      cases r with
      | error err =>
        refine ⟨rest, List.suffix_refl _, ?_⟩
        rw [scanFrom_error hs.skipOk hone]
        split
        next herr =>
          rw [herr] at hone
          have hresumable := resumable_of_error hone s.pos s.stack
          refine ⟨by simp, hresumable, fun extra => ?_⟩
          exact outcome_scanFrom_skip (hresumable.append extra) (hs.append extra)
        next => exact ⟨by simp, hs, fun extra => rfl⟩
      | ok children =>
        have hlt := scanOne_length hone
        have hsuffix : left <:+ rest := by
          have h := (stable_scanOne s.stack.length).suffix rest
          rwa [hone] at h
        have hmore := fun extra => (stable_scanOne s.stack.length).ok hone extra
        have hpos : ∀ extra, (rest ++ extra).length - (left ++ extra).length =
            rest.length - left.length := by
          intro extra
          rw [List.length_append, List.length_append]
          omega
        -- the scanner after the element, on `rest` and on more than that
        have hgo : ∀ stack, s.scanFrom rest =
              scanFrom ⟨s.pos + (rest.length - left.length), stack, 0⟩ left →
            (∀ extra, s.scanFrom (rest ++ extra) =
              scanFrom ⟨s.pos + (rest.length - left.length), stack, 0⟩ (left ++ extra)) →
            ∃ left', left' <:+ rest ∧
              (s.scanFrom rest).2.pos = s.pos + (rest.length - left'.length) ∧
              Resumable (s.scanFrom rest).2 left' ∧
              ∀ extra, outcome ((s.scanFrom rest).2.scanFrom (left' ++ extra)) =
                outcome (s.scanFrom (rest ++ extra)) := by
          intro stack hscan hscan'
          rw [hscan] at hopen
          obtain ⟨left', hsuffix', hpos', hresumable, hextra⟩ :=
            ih left.length hlt ⟨.zero _, .inl rfl⟩ hopen rfl
          have hle := hsuffix'.length_le
          refine ⟨left', hsuffix'.trans hsuffix, ?_, ?_, fun extra => ?_⟩
          · rw [hscan, hpos']
            dsimp only
            omega
          · rwa [hscan]
          · rw [hscan, hscan', hextra]
        rcases Nat.eq_zero_or_pos (children.getD 0) with hzero | hchildren
        · have hfinish := scanFrom_finish hs.skipOk hone hzero
          have hne : unwind s.stack ≠ [] := by
            intro hnil
            refine hopen (s.pos + (rest.length - left.length)) ?_
            rw [hfinish, finish, if_pos hnil]
            rfl
          refine hgo (unwind s.stack) ?_ fun extra => ?_
          · rw [hfinish, finish, if_neg hne]
          · rw [scanFrom_finish (hs.append extra) (hmore extra) hzero, finish, if_neg hne,
              hpos]
        · refine hgo (children.getD 0 :: s.stack) ?_ fun extra => ?_
          · exact scanFrom_children hs.skipOk hone hchildren
          · rw [scanFrom_children (hs.append extra) (hmore extra) hchildren, hpos]

/-- A scanner that has seen a prefix and found no end is as good as a fresh one. -/
structure AsFresh (s : ReplyScanner) (buffer : Bytes) : Prop where
  pos_le : s.pos ≤ buffer.length
  resumable : Resumable s (buffer.drop s.pos)
  outcome_eq : ∀ extra, outcome (s.scan (buffer ++ extra)) = outcome (scan {} (buffer ++ extra))

theorem AsFresh.init : AsFresh {} [] := ⟨Nat.le_refl 0, ⟨.zero _, .inl rfl⟩, fun _ => rfl⟩

theorem AsFresh.scan {buffer' : Bytes} (h : AsFresh s buffer) (hpre : buffer <+: buffer')
    (hopen : ∀ n, outcome (scan {} buffer') ≠ .ok (some n)) : AsFresh (s.scan buffer').2 buffer' := by
  obtain ⟨more, rfl⟩ := hpre
  have hdrop : ∀ extra, (buffer ++ extra).drop s.pos = buffer.drop s.pos ++ extra :=
    fun extra => List.drop_append_of_le_length h.pos_le
  have hresumable : Resumable s ((buffer ++ more).drop s.pos) := by
    rw [hdrop]
    refine ⟨h.resumable.append more, h.resumable.inside.imp_right fun hlt => ?_⟩
    rw [List.length_tail] at hlt ⊢
    rw [List.length_append]
    omega
  rw [← h.outcome_eq more, scan_eq_scanFrom] at hopen
  obtain ⟨left, hsuffix, hpos, hresumable', hextra⟩ := scanFrom_resume hresumable hopen
  rw [scan_eq_scanFrom]
  have hle := hsuffix.length_le
  rw [List.length_drop] at hle hpos
  have hlen := h.pos_le
  have hpos_le : (s.scanFrom ((buffer ++ more).drop s.pos)).2.pos ≤ (buffer ++ more).length := by
    rw [hpos, List.length_append]
    omega
  have hleft : (buffer ++ more).drop (s.scanFrom ((buffer ++ more).drop s.pos)).2.pos = left := by
    obtain ⟨front, hfront⟩ := hsuffix
    rw [hpos, ← List.drop_drop, ← hfront]
    have hcount := congrArg List.length hfront
    rw [List.length_append, List.length_drop] at hcount
    rw [show (buffer ++ more).length - s.pos - left.length = front.length by omega,
      List.drop_left]
  refine ⟨hpos_le, ?_, fun extra => ?_⟩
  · rw [hleft]
    exact hresumable'
  · have hfresh := h.outcome_eq (more ++ extra)
    have hlen' : s.pos ≤ (buffer ++ more).length := by
      rw [List.length_append]
      omega
    rw [scan_eq_scanFrom s, ← List.append_assoc, List.drop_append_of_le_length hlen'] at hfresh
    rw [scan_eq_scanFrom, List.drop_append_of_le_length hpos_le, hleft, hextra, hfresh]

/-- The scanner after one prefix after the other. -/
def feed (s : ReplyScanner) (prefixes : List Bytes) : ReplyScanner :=
  prefixes.foldl (fun s buffer => (s.scan buffer).2) s

theorem AsFresh.feed {last : Bytes} (h : AsFresh s buffer) (prefixes : List Bytes)
    (hchain : (buffer :: prefixes ++ [last]).IsChain (· <+: ·))
    (hopen : ∀ p ∈ prefixes, ∀ n, outcome (ReplyScanner.scan {} p) ≠ .ok (some n)) :
    outcome ((ReplyScanner.feed s prefixes).scan last) = outcome (ReplyScanner.scan {} last) := by
  induction prefixes generalizing s buffer with
  | nil =>
    obtain ⟨more, rfl⟩ := (List.isChain_cons_cons.mp hchain).1
    exact h.outcome_eq more
  | cons p prefixes ih =>
    obtain ⟨hpre, hchain⟩ := List.isChain_cons_cons.mp hchain
    exact ih (h.scan hpre (hopen p List.mem_cons_self)) hchain
      fun q hq => hopen q (List.mem_cons_of_mem _ hq)

end ReplyScanner

end OhosBun.Valkey
