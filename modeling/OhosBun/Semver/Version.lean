/-
# `OhosBun.Semver.Version` — versions, their text and their order

`Version.rs`: the three numbers and the tag of a version, `Version::parse` with
its lenient corners (leading `v` and `=`, wildcards, missing parts, `1.0.0rc.1`),
`Tag::parse_with_pre_count`, the formatter, and the orders.

A string is its bytes.  `ExternalString` stores a hash beside them: `Wyhash11` is
a parameter, `0` the hash of a default string.  Numbers are naturals; `parseAscii`
has the bound of `u64`.  Lengths are naturals too: a slice has a `u32` length.
-/
import Mathlib.Data.List.Basic
import Mathlib.Data.Nat.Digits.Defs

namespace OhosBun.Semver

/-! ## Numbers -/

def isDigit (c : UInt8) : Bool := 48 ≤ c && c ≤ 57

def isAsciiAlphabetic (c : UInt8) : Bool := 65 ≤ c && c ≤ 90 || 97 ≤ c && c ≤ 122

/-- The digit loop of `parse_with_sign`, in `u128`. -/
def parseDigits (radix : Nat) : (acc : Nat) → List UInt8 → Option Nat
  | acc, [] => some acc
  | acc, c :: rest =>
    if c = 95 then parseDigits radix acc rest
    else
      let d := if isDigit c then some (c.toNat - 48)
        else if 97 ≤ c ∧ c ≤ 122 then some (c.toNat - 97 + 10)
        else if 65 ≤ c ∧ c ≤ 90 then some (c.toNat - 65 + 10)
        else none
      match d with
      | none => none
      | some d =>
        if radix ≤ d then none
        else if acc * radix + d < 2 ^ 128 then parseDigits radix (acc * radix + d) rest
        else none

/-- `parse_with_sign`: no leading or trailing `_`. -/
def parseWithSign (radix : Nat) (digits : List UInt8) : Option Nat :=
  if digits.isEmpty || digits.head? = some 95 || digits.getLast? = some 95 then none
  else parseDigits radix 0 digits

/-- `u64::parse_ascii`. -/
def parseAscii (s : List UInt8) : Option Nat :=
  match parseWithSign 10 s with
  | some n => if n < 2 ^ 64 then some n else none
  | none => none

/-- A number in decimal. -/
def decimal (n : Nat) : List UInt8 :=
  if n = 0 then [48] else ((Nat.digits 10 n).map fun d => 48 + UInt8.ofNat d).reverse

/-! ## Versions -/

structure ExternalString where
  value : List UInt8
  hash : UInt64
  deriving DecidableEq

instance : Inhabited ExternalString := ⟨⟨[], 0⟩⟩

def ExternalString.isEmpty (s : ExternalString) : Bool := s.value.isEmpty

structure Tag where
  pre : ExternalString
  build : ExternalString
  deriving DecidableEq, Inhabited

def Tag.hasPre (t : Tag) : Bool := !t.pre.isEmpty

def Tag.hasBuild (t : Tag) : Bool := !t.build.isEmpty

structure Version where
  major : Nat
  minor : Nat
  patch : Nat
  tag : Tag
  deriving DecidableEq, Inhabited

/-- `Partial`: the parts that were there. -/
structure PartialVersion where
  major : Option Nat
  minor : Option Nat
  patch : Option Nat
  tag : Tag
  deriving DecidableEq, Inhabited

/-- `Partial::min`. -/
def PartialVersion.min (v : PartialVersion) : Version where
  major := v.major.getD 0
  minor := v.minor.getD 0
  patch := v.patch.getD 0
  tag := v.tag

/-- `Formatter::fmt`. -/
def Version.fmt (v : Version) : List UInt8 :=
  decimal v.major ++ 46 :: decimal v.minor ++ 46 :: decimal v.patch ++
    (if v.tag.hasPre then 45 :: v.tag.pre.value else []) ++
    if v.tag.hasBuild then 43 :: v.tag.build.value else []

/-! ## Parsing -/

inductive Wildcard where
  | none | major | minor | patch
  deriving DecidableEq, Inhabited

inductive TagState where
  | none | pre | build
  deriving DecidableEq

/-- The locals of the scan in `parse_with_pre_count`. -/
structure TagScan where
  state : TagState
  start : Nat
  tag : Tag
  i : Nat

structure TagResult where
  tag : Tag
  len : Nat
  deriving DecidableEq, Inhabited

structure ParseResult where
  wildcard : Wildcard
  valid : Bool
  version : PartialVersion
  len : Nat
  deriving DecidableEq

instance : Inhabited ParseResult := ⟨⟨.none, true, default, 0⟩⟩

section Parse
variable (hash : List UInt8 → UInt64)

/-- `SlicedString::external`. -/
def external (s : List UInt8) : ExternalString := ⟨s, hash s⟩

/-- `input[start..i]`, as an external string. -/
def externalSlice (input : List UInt8) (start i : Nat) : ExternalString :=
  external hash ((input.drop start).take (i - start))

/-- What ends a pre or build at position `i`. -/
def TagScan.close (input : List UInt8) (s : TagScan) : Tag :=
  match s.state with
  | .none => s.tag
  | .pre => { s.tag with pre := externalSlice hash input s.start s.i }
  | .build => { s.tag with build := externalSlice hash input s.start s.i }

/-- The scan; `rest` is the input from `s.i` on. -/
def tagScan (input : List UInt8) (initialPreCount : Nat) : TagScan → (rest : List UInt8) → TagScan
  | s, [] => s
  | s, c :: rest =>
    if c = 43 then
      -- qualifier  ::= ( '-' pre )? ( '+' build )?
      let tag := if s.state = .pre ∨ s.state = .none ∧ 0 < initialPreCount then
        { s.tag with pre := externalSlice hash input s.start s.i } else s.tag
      if s.state = .build then tagScan input initialPreCount { s with tag, i := s.i + 1 } rest
      else tagScan input initialPreCount ⟨.build, s.i + 1, tag, s.i + 1⟩ rest
    else if c = 45 then
      if s.state = .pre then tagScan input initialPreCount { s with i := s.i + 1 } rest
      else tagScan input initialPreCount ⟨.pre, s.i + 1, s.tag, s.i + 1⟩ rest
    else if isAsciiAlphabetic c || isDigit c || c = 46 then
      tagScan input initialPreCount { s with i := s.i + 1 } rest
    else { s with state := .none, tag := s.close hash input }

/-- `Tag::parse_with_pre_count`. -/
def Tag.parseWithPreCount (input : List UInt8) (initialPreCount : Nat) : TagResult :=
  let scanned := input.takeWhile (· ≠ 32)
  if scanned.count 43 = 0 ∧ initialPreCount + scanned.count 45 = 0 then default
  else
    let s := tagScan hash input initialPreCount ⟨.none, 0, default, 0⟩ input
    let s := if s.state = .none ∧ 0 < initialPreCount then { s with state := .pre, start := 0 } else s
    ⟨s.close hash input, s.i⟩

/-- `Tag::parse`. -/
def Tag.parse (input : List UInt8) : TagResult := Tag.parseWithPreCount hash input 0

/-- `parse_version_number`. -/
def parseVersionNumber (input : List UInt8) : Option Nat := some ((parseAscii input).getD 0)

/-- The next of the three numbers. -/
def PartialVersion.setPart (v : PartialVersion) (part : Nat) (n : Option Nat) : PartialVersion :=
  match part with
  | 0 => { v with major := n }
  | 1 => { v with minor := n }
  | 2 => { v with patch := n }
  | _ => v

/-- The wildcard of a version that ends, or has its first `x`, at this part. -/
def wildcardAt : (part : Nat) → Wildcard
  | 0 => .major
  | 1 => .minor
  | 2 => .patch
  | _ => .none

def isWildcard (c : UInt8) : Bool := c = 120 || c = 42 || c = 88

/-- Whitespace and the version separators `v` and `=`. -/
def isLeading (c : UInt8) : Bool :=
  c = 32 || c = 9 || c = 10 || c = 13 || c = 11 || c = 12 || c = 118 || c = 61

/-- The second pass of `parse`, at position `i`; `rest` is the input from there
on.  Every turn but the last takes at least one byte of `rest`. -/
def parseParts : (fuel : Nat) → (rest : List UInt8) → (i partI : Nat) → ParseResult → Nat × Nat × ParseResult
  | 0, _, i, partI, result => (i, partI, result)
  | _ + 1, [], i, partI, result => (i, partI, result)
  | fuel + 1, c :: rest, i, partI, result =>
    if c = 32 then (i, partI, result)
    else if c = 124 ∨ c = 94 ∨ c = 35 ∨ c = 38 ∨ c = 37 ∨ c = 33 then (i - 1, partI, result)
    else if isDigit c then
      let number := c :: rest.takeWhile isDigit
      let after := rest.dropWhile isDigit
      let result := { result with
        version := result.version.setPart partI (parseVersionNumber number) }
      let partI := if partI < 3 then partI + 1 else partI
      let i := i + number.length
      -- `.` is expected only if there are remaining core version numbers
      match after with
      | 46 :: after' =>
        if partI ≠ 3 then parseParts fuel after' (i + 1) partI result
        else parseParts fuel after i partI result
      | _ => parseParts fuel after i partI result
    else if c = 46 then (i, partI, { result with valid := false })
    else if c = 45 ∨ c = 43 then
      -- just a plain tag with no version is invalid
      if partI < 2 ∧ result.wildcard = .none then (i, partI, { result with valid := false })
      else
        let tagResult := Tag.parse hash (c :: rest)
        (i + tagResult.len, partI,
          { result with version := { result.version with tag := tagResult.tag } })
    else if isWildcard c then
      let run := rest.takeWhile isWildcard
      let after := rest.dropWhile isWildcard
      let i := i + 1 + run.length
      let (i, after) := match after with
        | 46 :: after' => (i + 1, after')
        | _ => (i, after)
      if result.wildcard = .none then
        parseParts fuel after i (if partI < 3 then partI + 1 else partI)
          { result with wildcard := wildcardAt partI }
      else parseParts fuel after i partI result
    -- versions like `1.0.0rc.1`
    else if result.wildcard = .none ∧ 2 ≤ partI ∧ isAsciiAlphabetic c then
      let tagResult := Tag.parseWithPreCount hash (c :: rest) 1
      (i + tagResult.len, partI,
        { result with version := { result.version with tag := tagResult.tag } })
    else (i, partI, { result with valid := false })

/-- `Version::parse`. -/
def Version.parse (input : List UInt8) : ParseResult :=
  if input.isEmpty then { (default : ParseResult) with valid := false }
  else
    let rest := input.dropWhile isLeading
    if rest.isEmpty then ⟨.major, false, default, input.length⟩
    else
      let start := (input.takeWhile isLeading).length
      let (i, partI, result) := parseParts hash (rest.length + 1) rest start 0 default
      let wildcard := if result.wildcard = .none then wildcardAt partI else result.wildcard
      { result with wildcard, len := i }

end Parse

/-! ## Order -/

/-- `strings::order`. -/
def order (l r : List UInt8) : Ordering := compare l r

/-- `ExternalString::order`. -/
def ExternalString.order (l r : ExternalString) : Ordering :=
  if l.hash = r.hash ∧ 0 < l.hash then .eq else Semver.order l.value r.value

/-- One turn of `order_pre`. -/
def orderPart (l r : List UInt8) : Ordering :=
  match parseAscii l, parseAscii r with
  | some _, none => .lt
  | none, some _ => .gt
  | none, none => order l r
  | some l, some r => compare l r

/-- The loop of `order_pre`. -/
def orderParts : List (List UInt8) → List (List UInt8) → Ordering
  | [], [] => .eq
  | _ :: _, [] => .gt
  | [], _ :: _ => .lt
  | l :: ls, r :: rs => match orderPart l r with
    | .eq => orderParts ls rs
    | notEqual => notEqual

namespace Tag

def orderPre (l r : Tag) : Ordering := orderParts (l.pre.value.splitOn 46) (r.pre.value.splitOn 46)

def order (l r : Tag) : Ordering :=
  if !l.pre.isEmpty && !r.pre.isEmpty then l.orderPre r
  else match l.pre.order r.pre with
    | .eq => l.build.order r.build
    | preOrder => preOrder

def orderWithoutBuild (l r : Tag) : Ordering :=
  if !l.pre.isEmpty && !r.pre.isEmpty then l.orderPre r else l.pre.order r.pre

end Tag

namespace Version

def orderWithoutTag (l r : Version) : Ordering :=
  if l.major < r.major then .lt
  else if r.major < l.major then .gt
  else if l.minor < r.minor then .lt
  else if r.minor < l.minor then .gt
  else if l.patch < r.patch then .lt
  else if r.patch < l.patch then .gt
  else if l.tag.hasPre then (if !r.tag.hasPre then .lt else .eq)
  else (if r.tag.hasPre then .gt else .eq)

def order (l r : Version) : Ordering :=
  match l.orderWithoutTag r with
  | .eq => l.tag.order r.tag
  | notEqual => notEqual

def orderWithoutBuild (l r : Version) : Ordering :=
  match l.orderWithoutTag r with
  | .eq => l.tag.orderWithoutBuild r.tag
  | notEqual => notEqual

/-- `eql`: of the tags only the hashes of the prereleases. -/
def eql (l r : Version) : Bool :=
  l.major = r.major && l.minor = r.minor && l.patch = r.patch && r.tag.pre.hash = l.tag.pre.hash

end Version

end OhosBun.Semver
