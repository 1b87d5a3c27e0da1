/-
# `OhosBun.Paths.LongestCommon` — the directory that paths have in common

`longest_common_path` and `get_if_exists_longest_common_path`: up to eight paths are compared byte by
byte, all at once; more of them one after the other, from where the comparison before them stopped.

The start of `min_length`, `usize::MAX`, is not below a length.
-/
import OhosBun.Lib.Bytes

namespace OhosBun.Paths

open OhosBun.Lib

/-- How a call may fail to return. -/
inductive Panic where
  /-- an index past the end of a slice -/
  | offEnd
  /-- an index counted below zero -/
  | underflow
deriving DecidableEq

def isSepAny (c : UInt8) : Bool := c = 47 || c = 92

def minLength : List Bytes → Nat
  | [] => 0
  | [path] => path.length
  | path :: paths => min path.length (minLength paths)

/-- `nql_at_index_dyn` -/
def nqlAtIndex (index : Nat) (first : Bytes) (rest : List Bytes) : Bool :=
  rest.any fun path => first[index]? ≠ path[index]?

/-- `index` and `last_common_separator`. -/
structure Scan where
  index : Nat := 0
  last : Option Nat := none
deriving DecidableEq

/-- The loop for up to eight paths, and whether it broke off. -/
def scanFew (isSep : UInt8 → Bool) (minLength : Nat) (first : Bytes) (rest : List Bytes) (s : Scan) : Scan × Bool :=
  if s.index < minLength then
    if nqlAtIndex s.index first rest then (s, true)
    else
      scanFew isSep minLength first rest
        ⟨s.index + 1, if first[s.index]?.any isSep then some s.index else s.last⟩
  else (s, false)
termination_by minLength - s.index

/-- The inner loop for more of them, and whether it broke off. -/
def advance (minLength : Nat) (first path : Bytes) (index : Nat) : Nat × Bool :=
  if index < minLength then
    if first[index]? ≠ path[index]? then (index, true) else advance minLength first path (index + 1)
  else (index, false)
termination_by minLength - index

/-- The loop for more than eight paths; with `giveUp` it returns where it breaks off before it has
seen a separator. -/
@[grind]
def scanMany (isSep : UInt8 → Bool) (giveUp : Bool) (minLength : Nat) (first : Bytes) :
    Scan → List Bytes → Except Panic (Option Scan)
  | s, [] => .ok (some s)
  | s, path :: paths =>
    let (index, broke) := advance minLength first path s.index
    if giveUp && broke && s.last.isNone then .ok none
    else if index = minLength && index = 0 then .error .underflow
    else
      let index := if index = minLength then index - 1 else index
      match first[index]? with
      | none => .error .offEnd
      | some c =>
        scanMany isSep giveUp minLength first ⟨index, if isSep c then some index else s.last⟩ paths

def getIfExistsLongestCommonPathGeneric (isSep : UInt8 → Bool) (input : List Bytes) :
    Except Panic (Option Bytes) :=
  match input with
  | [] => .ok (some [])
  | [path] => .ok (some path)
  | first :: rest => do
    let scan ←
      if input.length ≤ 8 then
        match scanFew isSep (minLength input) first rest {} with
        | (s, broke) => .ok (if broke && s.last.isNone then none else some s)
      else scanMany isSep true (minLength input) first {} rest
    match scan with
    | none => .ok none
    | some s =>
      if s.index = 0 then .ok (some [47])
      else
        match s.last with
        | none => .ok (some [46])
        | some sep =>
          match input.find? fun path => path[s.index]?.any isSep with
          | some path => .ok (some (path.take (s.index + 1)))
          | none => .ok (some (first.take (sep + 1)))

/-- The loop after the scan: a path that goes on with a separator, when no path goes on with anything
else. -/
def goesOn (isSep : UInt8 → Bool) (index : Nat) : Option Bytes → List Bytes → Option Bytes
  | found, [] => found
  | found, path :: paths =>
    match path[index]? with
    | none => goesOn isSep index found paths
    | some c => if isSep c then goesOn isSep index (some path) paths else none

def longestCommonPathGeneric (isSep : UInt8 → Bool) (input : List Bytes) : Except Panic Bytes :=
  match input with
  | [] => .ok []
  | [path] => .ok path
  | first :: rest => do
    let scan ←
      if input.length ≤ 8 then .ok (some (scanFew isSep (minLength input) first rest {}).1)
      else scanMany isSep false (minLength input) first {} rest
    let s := scan.getD {}
    if s.index = 0 then .ok [47]
    else
      match goesOn isSep s.index none input with
      | some path => .ok (path.take (s.index + 1))
      | none => .ok (first.take (s.last.getD 0 + 1))

def longestCommonPath (input : List Bytes) : Except Panic Bytes := longestCommonPathGeneric isSepAny input

def getIfExistsLongestCommonPath (input : List Bytes) : Except Panic (Option Bytes) :=
  getIfExistsLongestCommonPathGeneric isSepAny input

end OhosBun.Paths
