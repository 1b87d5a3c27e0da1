/-
# `OhosBun.Semver.Query` — ranges and the query parser

`SemverRange.rs` and `SemverQuery.rs`: comparators, ranges, the tokens and the
loop of `query::parse`.

A linked list is a list.  `Query` is a range and its `next` chain (AND), `Group` a
query and its `next` chain (OR); a `tail` pointer is set when its chain is not
empty and points to the last of it.  The loop has the rest of the input in place
of the position `i`.
-/
import OhosBun.Semver.Version

namespace OhosBun.Semver

/-! ## Ranges -/

inductive Op where
  | unset | eql | lt | lte | gt | gte
  deriving DecidableEq, Inhabited

structure Comparator where
  op : Op
  version : Version
  deriving DecidableEq, Inhabited

/-- `u64::MAX`. -/
def maxU64 : Nat := 2 ^ 64 - 1

/-- `checked_add(1)` of a `u64`. -/
def checkedSucc (n : Nat) : Option Nat := if n < maxU64 then some (n + 1) else none

namespace Comparator

def ltNextMajor (major : Nat) : Comparator :=
  match checkedSucc major with
  | some m => ⟨.lt, { (default : Version) with major := m }⟩
  | none => ⟨.lte, ⟨maxU64, maxU64, maxU64, default⟩⟩

def ltNextMinor (major minor : Nat) : Comparator :=
  match checkedSucc minor with
  | some m => ⟨.lt, { (default : Version) with major, minor := m }⟩
  | none => ⟨.lte, ⟨major, maxU64, maxU64, default⟩⟩

def ltNextPatch (major minor patch : Nat) : Comparator :=
  match checkedSucc patch with
  | some p => ⟨.lt, ⟨major, minor, p, default⟩⟩
  | none => ⟨.lte, ⟨major, minor, maxU64, default⟩⟩

def satisfies (c : Comparator) (version : Version) : Bool :=
  match version.orderWithoutBuild c.version with
  | .eq => c.op = .lte || c.op = .gte || c.op = .eql
  | .gt => c.op = .gt || c.op = .gte
  | .lt => c.op = .lt || c.op = .lte

end Comparator

structure Range where
  left : Comparator
  right : Comparator
  deriving DecidableEq, Inhabited

namespace Range

/-- A range with one side. -/
def single (op : Op) (version : Version) : Range := ⟨⟨op, version⟩, default⟩

def initWildcard (version : Version) : Wildcard → Range
  | .none => single .eql version
  | .major => single .gte default
  | .minor => ⟨Comparator.ltNextMajor version.major,
      .gte, { (default : Version) with major := version.major }⟩
  | .patch => ⟨Comparator.ltNextMinor version.major version.minor,
      .gte, { (default : Version) with major := version.major, minor := version.minor }⟩

def hasLeft (r : Range) : Bool := r.left.op ≠ .unset

def hasRight (r : Range) : Bool := r.right.op ≠ .unset

def satisfies (r : Range) (version : Version) : Bool :=
  if !r.hasLeft then true
  else if !r.left.satisfies version then false
  else if r.hasRight && !r.right.satisfies version then false
  else true

/-- One side has a prerelease of the same numbers. -/
def matchesPre (c : Comparator) (version : Version) : Bool :=
  c.version.tag.hasPre && version.patch = c.version.patch && version.minor = c.version.minor &&
    version.major = c.version.major

/-- `satisfies_pre`, with `pre_matched` beside the result. -/
def satisfiesPre (r : Range) (version : Version) (preMatched : Bool) : Bool × Bool :=
  if !r.hasLeft then (true, preMatched)
  else
    let preMatched := preMatched || matchesPre r.left version ||
      r.hasRight && matchesPre r.right version
    if !r.left.satisfies version then (false, preMatched)
    else if r.hasRight && !r.right.satisfies version then (false, preMatched)
    else (true, preMatched)

end Range

/-! ## Queries -/

structure Query where
  range : Range
  next : List Range
  deriving DecidableEq, Inhabited

namespace Query

def satisfies (q : Query) (version : Version) : Bool :=
  (q.range :: q.next).all fun r => r.satisfies version

/-- The loop of `satisfies_pre`. -/
def satisfiesPreLoop (version : Version) : List Range → (preMatched : Bool) → Bool × Bool
  | [], preMatched => (true, preMatched)
  | r :: rs, preMatched => match r.satisfiesPre version preMatched with
    | (false, preMatched) => (false, preMatched)
    | (true, preMatched) => satisfiesPreLoop version rs preMatched

/-- `List::and_range`. -/
def andRange (q : Query) (range : Range) : Query :=
  if !q.range.hasLeft && !q.range.hasRight then { q with range }
  else { q with next := q.next ++ [range] }

end Query

structure Group where
  head : Query
  next : List Query
  /-- `Flags::PRE` -/
  pre : Bool
  /-- `Flags::BUILD` -/
  build : Bool
  deriving DecidableEq, Inhabited

namespace Group

def orVersion (g : Group) (version : Version) : Group :=
  if g.next.isEmpty && !g.head.range.hasLeft then
    { g with head := { g.head with range := { g.head.range with left := ⟨.eql, version⟩ } } }
  else { g with next := g.next ++ [⟨Range.single .eql version, []⟩] }

def andRange (g : Group) (range : Range) : Group :=
  match g.next.getLast? with
  | none => { g with head := g.head.andRange range }
  | some last => { g with next := g.next.dropLast ++ [last.andRange range] }

def orRange (g : Group) (range : Range) : Group :=
  if g.next.isEmpty && g.head.next.isEmpty && !g.head.range.hasLeft then
    { g with head := { g.head with range } }
  else { g with next := g.next ++ [⟨range, []⟩] }

def satisfies (g : Group) (version : Version) : Bool :=
  if version.tag.hasPre then
    (g.head :: g.next).any fun q =>
      match Query.satisfiesPreLoop version (q.range :: q.next) false with
      | (satisfied, preMatched) => satisfied && preMatched
  else (g.head :: g.next).any fun q => q.satisfies version

/-- `satisfies_including_prerelease`: a prerelease only has to satisfy the comparators. -/
def satisfiesIncludingPrerelease (g : Group) (version : Version) : Bool :=
  (g.head :: g.next).any fun q => q.satisfies version

/-- The flags of a version. -/
def note (g : Group) (version : Version) : Group :=
  { g with pre := g.pre || version.tag.hasPre, build := g.build || version.tag.hasBuild }

end Group

/-! ## Tokens -/

inductive TokenTag where
  | none | gt | gte | lt | lte | version | tilda | caret
  deriving DecidableEq, Inhabited

structure Token where
  tag : TokenTag
  wildcard : Wildcard
  deriving DecidableEq, Inhabited

/-- `Caret` in `to_range`. -/
def caretRange (version : PartialVersion) : Range :=
  match version.major, version.minor, version.patch with
  | none, _, _ => default
  | some major, none, _ =>
    ⟨⟨.gte, { (default : Version) with major }⟩, Comparator.ltNextMajor major⟩
  | some major, some minor, none =>
    ⟨⟨.gte, { (default : Version) with major, minor }⟩,
      if major = 0 then Comparator.ltNextMinor 0 minor else Comparator.ltNextMajor major⟩
  | some major, some minor, some patch =>
    ⟨⟨.gte, ⟨major, minor, patch, version.tag⟩⟩,
      if major = 0 then
        if minor = 0 then Comparator.ltNextPatch 0 0 patch else Comparator.ltNextMinor 0 minor
      else Comparator.ltNextMajor major⟩

/-- `Tilda` in `to_range`. -/
def tildaRange (version : PartialVersion) : Range :=
  match version.major, version.minor, version.patch with
  | none, _, _ => default
  | some major, none, _ =>
    ⟨⟨.gte, { (default : Version) with major }⟩, Comparator.ltNextMajor major⟩
  | some major, some minor, none =>
    ⟨⟨.gte, { (default : Version) with major, minor }⟩, Comparator.ltNextMinor major minor⟩
  | some major, some minor, some patch =>
    ⟨⟨.gte, ⟨major, minor, patch, version.tag⟩⟩, Comparator.ltNextMinor major minor⟩

/-- One of `<`, `<=`, `>` and `>=` with its wildcard; `full` is the number in place
of a part that is not there, `u64::MAX` for `<=` and `>`. -/
def boundRange (op : Op) (full : Nat) (version : PartialVersion) : Wildcard → Range
  | .major => ⟨⟨.gte, version.min⟩, .lte, ⟨maxU64, maxU64, maxU64, default⟩⟩
  | .minor => Range.single op ⟨version.major.getD 0, full, full, default⟩
  | .patch => Range.single op ⟨version.major.getD 0, version.minor.getD 0, full, default⟩
  | .none => Range.single op version.min

/-- `Token::to_range`; it is not called without a tag. -/
def Token.toRange (token : Token) (version : PartialVersion) : Range :=
  match token.tag with
  | .caret => caretRange version
  | .tilda => tildaRange version
  | .none => default
  | .version => Range.initWildcard version.min token.wildcard
  | .lte => boundRange .lte maxU64 version token.wildcard
  | .lt => boundRange .lt 0 version token.wildcard
  | .gt => boundRange .gt maxU64 version token.wildcard
  | .gte => boundRange .gte 0 version token.wildcard

/-! ## The loop -/

/-- `WHITESPACE_CHARS` -/
def isWhitespace (c : UInt8) : Bool :=
  c = 32 || c = 9 || c = 10 || c = 13 || c = 11 || c = 12

def skipSpaces (rest : List UInt8) : List UInt8 := rest.dropWhile (· = 32)

structure QueryState where
  list : Group
  token : Token
  count : Nat
  isOr : Bool
  deriving Inhabited

namespace QueryState

def setTag (s : QueryState) (tag : TokenTag) : QueryState := { s with token := { s.token with tag } }

/-- The `match` at the head of a turn: the rest, the state, and whether the round is
skipped. -/
def lex (s : QueryState) (c : UInt8) (cs : List UInt8) : List UInt8 × QueryState × Bool :=
  if c = 62 then
    match cs with
    | 61 :: cs => (skipSpaces cs, s.setTag .gte, false)
    | _ => (skipSpaces cs, s.setTag .gt, false)
  else if c = 60 then
    match cs with
    | 61 :: cs => (skipSpaces cs, s.setTag .lte, false)
    | _ => (skipSpaces cs, s.setTag .lt, false)
  else if c = 61 ∨ c = 118 then (skipSpaces cs, { s.setTag .version with isOr := true }, false)
  else if c = 126 then
    match cs with
    | 62 :: cs => (skipSpaces cs, s.setTag .tilda, false)
    | _ => (skipSpaces cs, s.setTag .tilda, false)
  else if c = 94 then (skipSpaces cs, s.setTag .caret, false)
  else if isDigit c || isWildcard c then
    (c :: cs, { s.setTag .version with isOr := true }, false)
  else if c = 124 then
    (skipSpaces (cs.dropWhile (· = 124)), { s.setTag .none with isOr := true }, true)
  else if c = 45 then (skipSpaces cs, s, false)
  else if c = 32 then (skipSpaces cs, s, true)
  -- skip tagged versions
  else (cs.dropWhile fun c => c ≠ 32 ∧ c ≠ 124, s.setTag .none, true)

/-- `hyphenate`: the rest of the input from the second version on. -/
def hyphenate (rest : List UInt8) : Option (List UInt8) :=
  if rest.head? = some 32 ∨ rest.head? = some 45 then
    match rest.dropWhile isWhitespace with
    | 45 :: after =>
      let after := after.dropWhile isWhitespace
      let after := if after.head? = some 118 ∨ after.head? = some 61 then after.tail else after
      let after := after.dropWhile isWhitespace
      match after with
      | c :: _ => if isDigit c || isWildcard c then some after else none
      | [] => none
    | _ => none
  else none

/-- The range of `version - second`. -/
def hyphenRange (version : Version) (second : ParseResult) : Range :=
  let upper := second.version.min
  match second.wildcard with
  | .major => Range.single .gte version
  | .minor => ⟨⟨.gte, version⟩,
      match checkedSucc upper.major with
      | some m => ⟨.lt, ⟨m, 0, 0, upper.tag⟩⟩
      | none => Comparator.ltNextMajor upper.major⟩
  | .patch => ⟨⟨.gte, version⟩,
      match checkedSucc upper.minor with
      | some m => ⟨.lt, ⟨upper.major, m, 0, upper.tag⟩⟩
      | none => Comparator.ltNextMinor upper.major upper.minor⟩
  | .none => ⟨⟨.gte, version⟩, ⟨.lte, upper⟩⟩

/-- The end of a round that made a range. -/
def close (s : QueryState) (list : Group) : QueryState :=
  ⟨list, ⟨s.token.tag, .none⟩, s.count + 1, false⟩

/-- How a range without a hyphen joins the group. -/
def join (s : QueryState) (parsed : ParseResult) (list : Group) : Group :=
  let range := (Token.mk s.token.tag parsed.wildcard).toRange parsed.version
  if s.count = 0 ∧ s.token.tag = .version then
    match parsed.wildcard with
    | .none => list.orVersion parsed.version.min
    | _ => list.orRange range
  else if s.count = 0 then list.andRange range
  else if s.isOr then list.orRange range
  else list.andRange range

section Round
variable (hash : List UInt8 → UInt64)

/-- A round that is not skipped. -/
def round (s : QueryState) (rest : List UInt8) : List UInt8 × QueryState :=
  let parsed := Version.parse hash rest
  let version := parsed.version.min
  let list := s.list.note version
  let rest := rest.drop parsed.len
  match hyphenate rest with
  | some rest =>
    let second := Version.parse hash rest
    let list := list.note second.version.min
    let range := hyphenRange version second
    (rest.drop (second.len + 1),
      s.close (if s.isOr then list.orRange range else list.andRange range))
  | none =>
    let rest := rest.drop 1
    if s.token.tag = .none then (rest, { s with list, token := ⟨.none, .none⟩ })
    else (rest, s.close (s.join parsed list))

/-- One turn of the loop, at the byte `c`. -/
def turn (s : QueryState) (c : UInt8) (cs : List UInt8) : List UInt8 × QueryState :=
  match s.lex c cs with
  | (rest, s, true) => (rest, s)
  | (rest, s, false) => s.round hash rest

theorem length_dropWhile_le {p : UInt8 → Bool} (l : List UInt8) :
    (l.dropWhile p).length ≤ l.length := (List.dropWhile_sublist p).length_le

/-- What the `match` of a turn leaves. -/
structure Lexed (s : QueryState) (c : UInt8) (cs : List UInt8)
    (r : List UInt8 × QueryState × Bool) : Prop where
  list : r.2.1.list = s.list
  /-- A byte is consumed, except before the digits of a version. -/
  length : r.1.length ≤ cs.length ∨ r.1 = c :: cs ∧ r.2.2 = false

theorem Lexed.skip {s s' : QueryState} {c : UInt8} {cs l : List UInt8} {more : Bool}
    (hlist : s'.list = s.list) (hlen : l.length ≤ cs.length) :
    Lexed s c cs (skipSpaces l, s', more) :=
  ⟨hlist, .inl ((length_dropWhile_le l).trans hlen)⟩

theorem lexed_lex (s : QueryState) (c : UInt8) (cs : List UInt8) : Lexed s c cs (s.lex c cs) := by
  unfold lex
  refine iteInduction (fun _ => ?_) fun _ => ?_
  · split
    · exact .skip rfl (Nat.le_succ _)
    · exact .skip rfl le_rfl
  refine iteInduction (fun _ => ?_) fun _ => ?_
  · split
    · exact .skip rfl (Nat.le_succ _)
    · exact .skip rfl le_rfl
  refine iteInduction (fun _ => .skip rfl le_rfl) fun _ => ?_
  refine iteInduction (fun _ => ?_) fun _ => ?_
  · split
    · exact .skip rfl (Nat.le_succ _)
    · exact .skip rfl le_rfl
  refine iteInduction (fun _ => .skip rfl le_rfl) fun _ => ?_
  refine iteInduction (fun _ => ⟨rfl, .inr ⟨rfl, rfl⟩⟩) fun _ => ?_
  refine iteInduction (fun _ => .skip rfl (length_dropWhile_le cs)) fun _ => ?_
  refine iteInduction (fun _ => .skip rfl le_rfl) fun _ => ?_
  exact iteInduction (fun _ => .skip rfl le_rfl) fun _ => ⟨rfl, .inl (length_dropWhile_le cs)⟩

theorem hyphenate_length {rest second : List UInt8} (h : hyphenate rest = some second) :
    second.length < rest.length := by
  have hshort (l : List UInt8) := length_dropWhile_le (p := isWhitespace) l
  unfold hyphenate at h
  split_ifs at h
  split at h
  · next after hafter =>
      have hrest := hshort rest
      rw [hafter, List.length_cons] at hrest
      simp only at h
      split at h
      · split_ifs at h
        · obtain rfl := Option.some.inj h
          have htail : (after.dropWhile isWhitespace).tail.length ≤ after.length := by
            rw [List.length_tail]
            exact (Nat.sub_le _ _).trans (hshort after)
          exact (Nat.lt_succ_of_le ((hshort _).trans htail)).trans_le hrest
        · obtain rfl := Option.some.inj h
          exact (Nat.lt_succ_of_le ((hshort _).trans (hshort after))).trans_le hrest
      · exact absurd h (by simp)
  · exact absurd h (by simp)

/-- A round consumes at least a byte. -/
theorem round_length (s : QueryState) (rest : List UInt8) :
    (s.round hash rest).1.length ≤ rest.length - 1 := by
  unfold round
  simp only
  split
  · next second h =>
      have hlt := hyphenate_length h
      simp only [List.length_drop] at hlt ⊢
      omega
  · split_ifs
    · simp only [List.length_drop]
      omega
    · simp only [List.length_drop]
      omega

theorem turn_length (s : QueryState) (c : UInt8) (cs : List UInt8) :
    (s.turn hash c cs).1.length < cs.length + 1 := by
  have hlex := (s.lexed_lex c cs).length
  unfold turn
  split
  · next rest s' h =>
      rw [h] at hlex
      rcases hlex with hlex | hlex
      · exact Nat.lt_succ_of_le hlex
      · exact absurd hlex.2 (by simp)
  · next rest s' h =>
      rw [h] at hlex
      have hround := s'.round_length hash rest
      rcases hlex with hlex | hlex
      · simp only at hlex
        omega
      · simp only at hlex
        rw [hlex.1, List.length_cons] at hround
        rw [hlex.1]
        omega

/-- `query::parse`, from the middle of the input. -/
def run (s : QueryState) : List UInt8 → QueryState
  | [] => s
  | c :: cs => (s.turn hash c cs).2.run (s.turn hash c cs).1
termination_by rest => rest.length
decreasing_by exact s.turn_length hash c cs

end Round

end QueryState

/-- `query::parse`. -/
def parseQuery (hash : List UInt8 → UInt64) (input : List UInt8) : Group :=
  (QueryState.run hash default input).list

end OhosBun.Semver
