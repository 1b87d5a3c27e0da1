/-
# `OhosBun.Ini.EnvSubstitution` — environment variables in an `.npmrc` value

`parse_env_substitution` finds the innermost substitution behind a `$` and appends what
it stands for, `expand_env_vars` does so for a quoted value, and the walk of
`prepare_str` reads an unquoted one: escapes, comments and substitutions.

The walk is the one for `Usage::Value`, where a `.` is like any other byte.  A
character of several bytes is copied at once.
-/
import Mathlib.Data.List.Infix
import OhosBun.Lib.Bytes

namespace OhosBun.Ini

open OhosBun.Lib (Bytes)

/-! ## The environment -/

/-- The variables that are set. -/
abbrev Env := Bytes → Option Bytes

/-- `DotEnvLoader::get`: a `$` before the name is left out. -/
def Env.get (env : Env) (key : Bytes) : Option Bytes :=
  let key := if key.head? = some 36 then key.tail else key
  if key.isEmpty then none else env key

/-- `NAME?` -/
def isOptional (raw : Bytes) : Bool := raw.getLast? = some 63

def envVar (raw : Bytes) : Bytes := if isOptional raw then raw.dropLast else raw

/-- What `${raw}` is replaced by, if it is. -/
def expand (env : Env) (raw : Bytes) : Option Bytes :=
  match env.get (envVar raw) with
  | some expanded => some expanded
  | none => if isOptional raw then some [] else none

/-! ## The innermost substitution -/

/-- What the loop over the text behind `${` stops at. -/
inductive BodyEnd where
  | dollar (k : Nat)
  | brace
  | closing (k : Nat)
  | none
  deriving DecidableEq

def BodyEnd.later : BodyEnd → BodyEnd
  | dollar k => dollar (k + 1)
  | brace => brace
  | closing k => closing (k + 1)
  | none => none

def scanBody (esc : Bool) : Bytes → BodyEnd
  | [] => .none
  | c :: rest =>
    if c = 92 then (scanBody (!esc) rest).later
    else if c = 36 ∧ !esc then .dollar 0
    else if c = 123 ∧ !esc then .brace
    else if c = 125 ∧ !esc then .closing 0
    else (scanBody esc rest).later

def maxEnvSubstitutionDepth : Nat := 32

/-- The index of the `}` of the substitution, if it is one; the text between `start` and
the innermost `$` is appended even where its name is not set. -/
def parseEnvSubstitution (env : Env) (val : Bytes) (start : Nat) :
    (depthLeft i : Nat) → Bytes → Option Nat × Bytes
  | 0, _, unesc => (none, unesc)
  | depthLeft + 1, i, unesc =>
    if i + 2 < val.length ∧ val[i + 1]? = some 123 then
      match scanBody false (val.drop (i + 2)) with
      | .dollar k => parseEnvSubstitution env val start depthLeft (i + 2 + k) unesc
      | .brace | .none => (none, unesc)
      | .closing k =>
        let unesc := if start ≠ i then unesc ++ (val.drop start).take (i - start) else unesc
        match expand env ((val.drop (i + 2)).take k) with
        | some expanded => (some (i + 2 + k), unesc ++ expanded)
        | none => (none, unesc)
    else (none, unesc)

/-! ## Unquoted values -/

def utf8ByteSequenceLength (c : UInt8) : Nat :=
  if c ≤ 0x7F then 1
  else if 0xC0 ≤ c ∧ c ≤ 0xDF then 2
  else if 0xE0 ≤ c ∧ c ≤ 0xEF then 3
  else if 0xF0 ≤ c ∧ c ≤ 0xF7 then 4
  else 0

/-- The bytes of the character that starts with `c`, as far as there are any. -/
def charBytes (c : UInt8) (rest : Bytes) : Bytes := c :: rest.take (utf8ByteSequenceLength c - 1)

/-- The characters that a backslash escapes. -/
def escapable (c : UInt8) : Bool := c = 92 || c = 59 || c = 35 || c = 36

/-- The walk over a value: whether anything was escaped or substituted, and the text. -/
def walk (env : Env) (val : Bytes) :
    (fuel i : Nat) → (esc didAnyEscape : Bool) → Bytes → Bool × Bytes
  | 0, _, esc, didAnyEscape, unesc => (didAnyEscape, if esc then unesc ++ [92] else unesc)
  | fuel + 1, i, esc, didAnyEscape, unesc =>
    match val.drop i with
    | [] => (didAnyEscape, if esc then unesc ++ [92] else unesc)
    | c :: rest =>
      if esc then
        if escapable c then walk env val fuel (i + 1) false didAnyEscape (unesc ++ [c])
        else
          walk env val fuel (i + (charBytes c rest).length) false didAnyEscape
            (unesc ++ 92 :: charBytes c rest)
      else if c = 36 then
        match parseEnvSubstitution env val i maxEnvSubstitutionDepth i unesc with
        | (some j, unesc) => walk env val fuel (j + 1) false true unesc
        | (none, unesc) => walk env val fuel (i + 1) false didAnyEscape (unesc ++ [36])
      else if c = 59 ∨ c = 35 then (didAnyEscape, unesc)
      else if c = 92 then walk env val fuel (i + 1) true true unesc
      else
        walk env val fuel (i + (charBytes c rest).length) false didAnyEscape
          (unesc ++ charBytes c rest)

/-- `bun_core::trim(val, b" \n\r\t")` -/
def blank (c : UInt8) : Bool := c = 32 || c = 10 || c = 13 || c = 9

def trimEnd (val : Bytes) : Bytes := (val.reverse.dropWhile blank).reverse

def trim (val : Bytes) : Bytes := trimEnd (val.dropWhile blank)

def isQuoted (val : Bytes) : Bool :=
  (val.head? = some 34 && val.getLast? = some 34) ||
    (val.head? = some 39 && val.getLast? = some 39)

/-- The text of a value that is not quoted. -/
def unquoted (env : Env) (val : Bytes) : Bytes :=
  let (didAnyEscape, unesc) := walk env val val.length 0 false false []
  if didAnyEscape then unesc else val

/-- `prepare_str` for a value; what is done with one in quotes is `quoted`. -/
def prepareStr (quoted : Bytes → Bytes) (env : Env) (val : Bytes) : Bytes :=
  let val := trim val
  if isQuoted val then quoted val else unquoted env val

/-! ## Quoted values -/

/-- The `}` that closes as many braces as are open. -/
@[grind] def closingBrace : (depth : Nat) → Bytes → Option Nat
  | _, [] => none
  | depth, c :: rest =>
    let depth := if c = 123 then depth + 1 else if c = 125 then depth - 1 else depth
    if depth = 0 then some 0 else (closingBrace depth rest).map (· + 1)

/-- The text behind `${`, if that is what the text starts with. -/
def bodyOf : Bytes → Option Bytes
  | c :: d :: body => if c = 36 ∧ d = 123 then some body else none
  | _ => none

theorem bodyOf_eq_some {s body : Bytes} : bodyOf s = some body ↔ s = 36 :: 123 :: body := by
  match s with
  | [] | [_] => simp [bodyOf]
  | c :: d :: rest =>
    rw [bodyOf]
    split
    · next h =>
        obtain ⟨rfl, rfl⟩ := h
        simp
    · next h => simpa using fun hc hd _ => h ⟨hc, hd⟩

/-- The loop of `expand_env_vars`. -/
def expandLoop (env : Env) (val : Bytes) : Bytes :=
  match val with
  | [] => []
  | c :: rest =>
    match (bodyOf (c :: rest)).filter (· ≠ []) with
    | none => c :: expandLoop env rest
    | some body =>
      match closingBrace 1 body with
      | none => c :: expandLoop env rest
      | some k =>
        (match expand env (body.take k) with
          | some expanded => expanded
          | none => (c :: rest).take (k + 3)) ++ expandLoop env (rest.drop (k + 2))
termination_by val.length
decreasing_by all_goals simp only [List.length_cons, List.length_drop]; omega

def expandEnvVars (env : Env) (val : Bytes) : Bytes :=
  if [36, 123] <:+: val then expandLoop env val else val

end OhosBun.Ini
