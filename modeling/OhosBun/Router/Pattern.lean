/-
# `OhosBun.Router.Pattern` — the patterns of file-system routes

A route name such as `blog/[slug]/[[...rest]]` is read a token at a time from an offset,
a `u16`: `initMaybeHash` gives the token there and the offset after it, which it keeps
at most at the last byte of the name.  `match_` goes along a path with the tokens and
notes what the bracketed ones are bound to.

`hash` stands for the `u32` of a Wyhash that a static token carries along.  Sums of
offsets wrap as in a release build.
-/
import Mathlib.Data.List.Basic

namespace OhosBun.Router

/-! ## Bytes and offsets -/

/-- `/` -/
def slash : UInt8 := 47
/-- `[` -/
def openBracket : UInt8 := 91
/-- `]` -/
def closeBracket : UInt8 := 93
/-- `.` -/
def dot : UInt8 := 46

/-- `+` on `RoutePathInt`. -/
def add16 (a b : Nat) : Nat := (a + b) % 65536

theorem add16_eq {a b : Nat} (h : a + b < 65536) : add16 a b = a + b := Nat.mod_eq_of_lt h

/-- `bytes[from..to]` -/
def slice (bytes : List UInt8) (start stop : Nat) : List UInt8 := (bytes.take stop).drop start

structure HashedString where
  str : List UInt8
  hash : UInt32
  deriving DecidableEq

namespace HashedString

def EMPTY : HashedString := ⟨[], 0⟩

def init (hash : List UInt8 → UInt32) (buf : List UInt8) : HashedString := ⟨buf, hash buf⟩

def initNoHash (buf : List UInt8) : HashedString := ⟨buf, 0⟩

def eqlBytes (hash : List UInt8 → UInt32) (s : HashedString) (other : List UInt8) : Bool :=
  s.str.length = other.length && hash other = s.hash && s.str = other

end HashedString

structure TinyPtr where
  offset : Nat
  len : Nat
  deriving DecidableEq

def TinyPtr.str (p : TinyPtr) (bytes : List UInt8) : List UInt8 :=
  if p.len > 0 then slice bytes p.offset (p.offset + p.len) else []

/-! ## Tokens -/

inductive Tag where
  | dynamic | catchAll | optionalCatchAll
  deriving DecidableEq

inductive Value where
  | static (s : HashedString)
  | dynamic (p : TinyPtr)
  | catchAll (p : TinyPtr)
  | optionalCatchAll (p : TinyPtr)
  deriving DecidableEq

/-- `matches!(value, Value::OptionalCatchAll(_))` -/
def Value.isOptionalCatchAll : Value → Bool
  | .optionalCatchAll _ => true
  | _ => false

structure Pattern where
  value : Value
  /-- The offset after the token. -/
  len : Nat
  deriving DecidableEq

inductive PatternParseError where
  | catchAllMustBeAtTheEnd
  | invalidCatchAllRoute
  | invalidOptionalCatchAllRoute
  | invalidRoutePattern
  | missingParamName
  | patternMissingClosingBracket
  deriving DecidableEq

/-- `while i <= end && input[i] != b']'` -/
def findClosing : List UInt8 → Nat → Except PatternParseError Nat
  | [], i => .ok i
  | c :: rest, i =>
    if c = closeBracket then .ok i
    else if c = slash then .error .invalidRoutePattern
    else findClosing rest (add16 i 1)

/-- What follows a `[` decides the kind of the token and where its name starts. -/
def openTag (input : List UInt8) (last i : Nat) : Except PatternParseError (Tag × Nat) :=
  if i ≥ last then .error .invalidRoutePattern
  else
    match input[i]? with
    | some c =>
      if c = slash ∨ c = closeBracket then .error .missingParamName
      else if c = openBracket then
        if last < add16 i 4 then .error .invalidOptionalCatchAllRoute
        else if [dot, dot, dot] <+: input.drop (add16 i 1) then
          .ok (.optionalCatchAll, add16 (add16 i 1) 3)
        else .error .invalidOptionalCatchAllRoute
      else if c = dot then
        if last < add16 (add16 i 1) 2 then .error .invalidCatchAllRoute
        else if [dot, dot] <+: input.drop (add16 i 1) then
          .ok (.catchAll, add16 (add16 i 1) 2)
        else .error .invalidCatchAllRoute
      else .ok (.dynamic, i)
    | none => .error .invalidRoutePattern

def Tag.value (tag : Tag) (param : TinyPtr) : Value :=
  match tag with
  | .dynamic => .dynamic param
  | .catchAll => .catchAll param
  | .optionalCatchAll => .optionalCatchAll param

/-- After the `]` of the name: `[[...p]]` has another, and only `[p]` may have more of
the route after it. -/
def closeTag (input : List UInt8) (last : Nat) (tag : Tag) (param : TinyPtr) (i : Nat) :
    Except PatternParseError Pattern :=
  if tag = .optionalCatchAll ∧ (i > last ∨ input[i]? ≠ some closeBracket) then
    .error .patternMissingClosingBracket
  else
    let i := if tag = .optionalCatchAll then add16 i 1 else i
    if tag ≠ .dynamic ∧ i ≤ last then .error .catchAllMustBeAtTheEnd
    else .ok ⟨tag.value param, min (add16 i 1) last⟩

/-- A token in brackets, the `[` at `i`. -/
def bracket (input : List UInt8) (last i : Nat) : Except PatternParseError Pattern :=
  match openTag input last (add16 i 1) with
  | .error e => .error e
  | .ok (tag, start) =>
    match findClosing (input.drop (add16 start 1)) (add16 start 1) with
    | .error e => .error e
    | .ok close =>
      if close > last then .error .patternMissingClosingBracket
      else closeTag input last tag ⟨start, close - start⟩ (add16 close 1)

/-- `while i <= end`, with what is left of the input from `i`. -/
def scan (hashed : List UInt8 → HashedString) (atEnd : List UInt8 → HashedString)
    (input : List UInt8) (offset last : Nat) :
    List UInt8 → Nat → Except PatternParseError Pattern
  | [], i => .ok ⟨.static (atEnd (slice input offset i)), i⟩
  | c :: rest, i =>
    if c = slash then .ok ⟨.static (hashed (slice input offset i)), min (add16 i 1) last⟩
    else if c = openBracket then
      if i > offset then .ok ⟨.static (hashed (slice input offset i)), i⟩
      else bracket input last i
    else scan hashed atEnd input offset last rest (add16 i 1)

/-- `while input.len() > offset && input[offset] == b'/'` -/
def skipSlashes : List UInt8 → Nat → Nat
  | [], offset => offset
  | c :: rest, offset => if c = slash then skipSlashes rest (add16 offset 1) else offset

/-- The token at an offset.  `none` is the panic on a name that does not fit a `u16`. -/
def initMaybeHash (hash : List UInt8 → UInt32) (doHash : Bool) (input : List UInt8)
    (offset_ : Nat) : Option (Except PatternParseError Pattern) :=
  let hashed := if doHash then HashedString.init hash else HashedString.initNoHash
  let offset := skipSlashes (input.drop offset_) offset_
  if input = [] ∨ input.length ≤ offset then
    some (.ok ⟨.static .EMPTY, min input.length offset⟩)
  else if input.length - 1 ≥ 65536 then none
  else
    let last := input.length - 1
    if offset = last then some (.ok ⟨.static .EMPTY, offset⟩)
    else some (scan hashed (.init hash) input offset last (input.drop offset) offset)

def Pattern.init (hash : List UInt8 → UInt32) := initMaybeHash hash true

def Pattern.isEnd (p : Pattern) (input : List UInt8) : Bool := p.len ≥ input.length - 1

/-! ## Matching -/

structure Param where
  name : List UInt8
  value : List UInt8
  deriving DecidableEq

/-- What became of a match: an answer with the parameters, a panic (`expect`), or no
answer within the turns given. -/
inductive Matching where
  | answer (matched : Bool) (params : List Param)
  | panic
  | outOfTurns
  deriving DecidableEq

def segmentOf (path : List UInt8) : List UInt8 := path.takeWhile (· ≠ slash)

/-- The loop of `match_`; at most as many turns as the path has bytes, and one more. -/
@[grind] def matchLoop (hash : List UInt8 → UInt32) (allowOptionalCatchAll : Bool)
    (name matchName : List UInt8) :
    Nat → (offset : Nat) → (path : List UInt8) → (params : List Param) → Matching
  | 0, _, _, _ => .outOfTurns
  | turns + 1, offset, path, params =>
    if offset < name.length then
      match Pattern.init hash matchName offset with
      | some (.ok pattern) =>
        let offset := pattern.len
        match pattern.value with
        | .static str =>
          let segment := segmentOf path
          if !str.eqlBytes hash segment then .answer false []
          else
            let path := if segment.length < path.length then path.drop (segment.length + 1)
              else []
            if path = [] ∧ pattern.isEnd name then .answer true params
            else matchLoop hash allowOptionalCatchAll name matchName turns offset path params
        | .dynamic dynamic =>
          let bound := fun value => params ++ [⟨dynamic.str name, value⟩]
          if slash ∈ path then
            let value := segmentOf path
            let path := path.drop (value.length + 1)
            if pattern.isEnd name then .answer false []
            else matchLoop hash allowOptionalCatchAll name matchName turns offset path
              (bound value)
          else if pattern.isEnd name then .answer true (bound path)
          else if allowOptionalCatchAll then
            match Pattern.init hash matchName offset with
            | some (.ok next) =>
              if next.value.isOptionalCatchAll then .answer true (bound path)
              else .answer false []
            | _ => .panic
          else .answer true params
        | .catchAll dynamic =>
          if path ≠ [] then .answer true (params ++ [⟨dynamic.str name, path⟩])
          else .answer false params
        | .optionalCatchAll dynamic =>
          if allowOptionalCatchAll then
            .answer true (if path ≠ [] then params ++ [⟨dynamic.str name, path⟩] else params)
          else .answer false params
      | _ => .panic
    else .answer false params

/-- Match a filesystem route pattern to a URL path. -/
def match_ (hash : List UInt8 → UInt32) (allowOptionalCatchAll : Bool)
    (path name matchName : List UInt8) (params : List Param) : Matching :=
  matchLoop hash allowOptionalCatchAll name matchName (path.length + 1) 0 path params

end OhosBun.Router
