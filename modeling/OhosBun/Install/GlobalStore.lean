/-
# `OhosBun.Install.GlobalStore` — the keys of the global virtual store

`install_isolated_packages` gives every entry of the isolated store an
`entry_hash`, the key of its directory in the store that projects share.  Three
passes over the entries:

    dfsPass      depth first; an entry hashes its own path and integrity, then the
                 name and hash of each dependency; in a cycle the name only
    sccPass      Tarjan's components; a component of several entries gets one hash
    closePass    an entry that links to one without a hash loses its own

An entry is here what the passes read of it: its store path, its integrity,
whether the checks on its own package (tag, patches, trusted scripts) let it into
the global store, and its dependencies.  `Wyhash` is a parameter: a function of
the seed and of the values fed to it.  The hash `0` means "not eligible".
-/
import Mathlib.Data.List.Dedup
import Mathlib.Data.List.GetD
import Mathlib.Data.List.Sort
import OhosBun.Lib.Tarjan

namespace OhosBun.Install

open OhosBun.Lib

/-! ## The store -/

structure EntryDependency where
  nameHash : UInt64
  entryId : Nat
  deriving DecidableEq

structure StoreEntry where
  storePath : List UInt8
  integrity : List UInt8
  eligible : Bool
  dependencies : List EntryDependency
  deriving DecidableEq

instance : Inhabited StoreEntry := ⟨⟨[], [], false, []⟩⟩

structure Store where
  entries : List StoreEntry
  links : ∀ e ∈ entries, ∀ d ∈ e.dependencies, d.entryId < entries.length

/-- A value fed to a hasher. -/
inductive HashInput where
  | storePath (bytes : List UInt8)
  | integrity (bytes : List UInt8)
  | nameHash (h : UInt64)
  | hash (h : Nat)
  deriving DecidableEq

namespace Store
variable (S : Store)

def entry (i : Nat) : StoreEntry := S.entries.getD i default

def deps (i : Nat) : List EntryDependency := (S.entry i).dependencies

theorem deps_lt {i : Nat} {d : EntryDependency} (h : d ∈ S.deps i) :
    i < S.entries.length ∧ d.entryId < S.entries.length := by
  unfold deps entry at h
  rcases Nat.lt_or_ge i S.entries.length with hi | hi
  · rw [List.getD_eq_getElem _ _ hi] at h
    exact ⟨hi, S.links _ (List.getElem_mem hi) d h⟩
  · rw [List.getD_eq_default _ _ hi] at h
    exact absurd h List.not_mem_nil

/-- The entries and their links. -/
def graph : Tarjan.Graph where
  size := S.entries.length
  succ := fun i => (S.deps i).map (·.entryId)
  succ_lt := by
    intro v w hw
    obtain ⟨d, hd, rfl⟩ := List.mem_map.mp hw
    exact (S.deps_lt hd).2

/-- What every hash of an entry starts with. -/
def ownInputs (i : Nat) : List HashInput :=
  [.storePath (S.entry i).storePath, .integrity (S.entry i).integrity]

end Store

/-- `0` is the "not eligible" sentinel. -/
def nonZero (h : Nat) : Nat := if h = 0 then 1 else h

/-! ## The first pass -/

inductive EntryState where
  | unvisited | inProgress | ineligible | done
  deriving DecidableEq

structure StackFrame where
  id : Nat
  nextDep : Nat
  hasher : List HashInput
  deriving DecidableEq

structure Dfs where
  states : Nat → EntryState
  hashes : Nat → Nat
  stack : List StackFrame
  root : Nat

namespace Dfs

def start : Dfs where
  states := fun _ => .unvisited
  hashes := fun _ => 0
  stack := []
  root := 0

/-- The entry is marked, has no hash and leaves the stack. -/
def reject (s : Dfs) (id : Nat) (rest : List StackFrame) : Dfs :=
  { s with
    states := Function.update s.states id .ineligible
    hashes := Function.update s.hashes id 0
    stack := rest }

/-- The next dependency, with what the hasher has read. -/
def next (s : Dfs) (top : StackFrame) (inputs : List HashInput) (rest : List StackFrame) : Dfs :=
  { s with stack := { top with nextDep := top.nextDep + 1, hasher := top.hasher ++ inputs } :: rest }

end Dfs

section Passes
variable (wyhash : UInt64 → List HashInput → Nat) (S : Store)

/-- A dependency of the entry on top of the stack. -/
def dfsLink (s : Dfs) (top : StackFrame) (rest : List StackFrame) (dep : EntryDependency) : Dfs :=
  match s.states dep.entryId with
  | .done => s.next top [.nameHash dep.nameHash, .hash (s.hashes dep.entryId)] rest
  -- a dependency that cannot live in the global store poisons this entry too
  | .ineligible => s.reject top.id rest
  | .inProgress => s.next top [.nameHash dep.nameHash] rest
  | .unvisited => { s with stack := ⟨dep.entryId, 0, []⟩ :: top :: rest }

def dfsFinish (s : Dfs) (top : StackFrame) (rest : List StackFrame) : Dfs :=
  { s with
    states := Function.update s.states top.id .done
    hashes := Function.update s.hashes top.id (nonZero (wyhash 0x9E3779B97F4A7C15 top.hasher))
    stack := rest }

def dfsStep (s : Dfs) : Dfs :=
  match s.stack with
  | [] =>
    if s.root < S.entries.length then
      if s.states s.root = .unvisited then
        { s with stack := [⟨s.root, 0, []⟩], root := s.root + 1 }
      else { s with root := s.root + 1 }
    else s
  | top :: rest =>
    match s.states top.id with
    | .unvisited =>
      if (S.entry top.id).eligible then
        { s with
          states := Function.update s.states top.id .inProgress
          stack := { top with hasher := S.ownInputs top.id } :: rest }
      else s.reject top.id rest
    | .ineligible => { s with stack := rest }
    | .inProgress | .done =>
      match (S.deps top.id)[top.nextDep]? with
      | some dep => dfsLink s top rest dep
      | none => dfsFinish wyhash s top rest

/-- The turns an entry takes while it is on the stack. -/
def dfsFrameTurns (s : Dfs) (f : StackFrame) : Nat :=
  if s.states f.id = .unvisited then 0 else 2 * ((S.deps f.id).length - f.nextDep) + 1

def dfsNewTurns (s : Dfs) (i : Nat) : Nat :=
  if s.states i = .unvisited then 2 * (S.deps i).length + 3 else 0

/-- A turn of the entry on top: the others have a dependency in flight. -/
def dfsTopTurn (s : Dfs) : Nat :=
  match s.stack with
  | [] => 0
  | top :: _ => if s.states top.id = .unvisited then 0 else 1

def dfsTurns (s : Dfs) : Nat :=
  (S.entries.length - s.root) + dfsTopTurn s + (s.stack.map (dfsFrameTurns S s)).sum +
    ∑ i ∈ Finset.range S.entries.length, dfsNewTurns S s i

def dfsPass : Dfs := (dfsStep wyhash S)^[dfsTurns S .start] .start

/-! ## The components -/

/-- The hash of an entry that is alone in its component. -/
def singletonHash (hashes : Nat → Nat) (m : Nat) : Nat :=
  if hashes m = 0 then 0
  else if (S.deps m).any fun d => hashes d.entryId = 0 then 0
  else
    nonZero (wyhash 0x9E3779B97F4A7C15 (S.ownInputs m ++
      (S.deps m).flatMap fun d => [.nameHash d.nameHash, .hash (hashes d.entryId)]))

/-- The dependencies of a component outside it. -/
def externalDeps (members : List Nat) : List EntryDependency :=
  (members.flatMap S.deps).filter fun d => d.entryId ∉ members

/-- One hash for a whole component: from the sorted hashes of its members' own
data and the sorted set of hashes of its external dependencies. -/
def sccHash (hashes : Nat → Nat) (members : List Nat) : Nat :=
  let memberSub := members.map fun m => wyhash 0 (S.ownInputs m)
  let sccExt := (externalDeps S members).map fun d =>
    wyhash 0 [.nameHash d.nameHash, .hash (hashes d.entryId)]
  let anyIneligible := members.any (fun m => hashes m = 0) ||
    (externalDeps S members).any fun d => hashes d.entryId = 0
  if anyIneligible then 0
  else
    nonZero (wyhash 0x42A7C15F9E3779B9
      ((memberSub.insertionSort (· ≤ ·) ++ sccExt.dedup.insertionSort (· ≤ ·)).map .hash))

def componentHash (hashes : Nat → Nat) : List Nat → Nat
  | [m] => singletonHash wyhash S hashes m
  | members => sccHash wyhash S hashes members

/-- What the pass does with a component. -/
def emitHashes : (Nat → Nat) → List Nat → Nat → Nat := Tarjan.write (componentHash wyhash S)

def sccPass (hashes : Nat → Nat) : Nat → Nat :=
  (Tarjan.run S.graph (emitHashes wyhash S) hashes).out

/-! ## The last pass -/

/-- An entry that links to an ineligible one becomes ineligible too. -/
def closeEntry (hashes : Nat → Nat) (i : Nat) : Nat → Nat :=
  if hashes i = 0 then hashes
  else if (S.deps i).any fun d => hashes d.entryId = 0 then Function.update hashes i 0
  else hashes

/-- One turn of `while changed`. -/
def closeSweep (hashes : Nat → Nat) : Nat → Nat :=
  (List.range S.entries.length).foldl (closeEntry S) hashes

/-- Each turn but the last marks an entry. -/
def closePass (hashes : Nat → Nat) : Nat → Nat := (closeSweep S)^[S.entries.length] hashes

/-- The `entry_hash` column. -/
def entryHash : Nat → Nat := closePass S (sccPass wyhash S (dfsPass wyhash S).hashes)

end Passes

end OhosBun.Install
