/-
# `OhosBun.Install.Tree` — the hoister

`Tree.rs` and `Lockfile::hoist::<Resolvable>`: the trees of a `node_modules`
layout, built breadth first from a queue.

    hoistDependency     where a dependency goes, from a tree upwards
    processDependency   one dependency of a package: decide, then apply
    processSubtree      one package: a new tree, its dependencies in sorted order
    hoistStep           one turn of the queue loop
    clean               the flattened result

What is kept: optional peers with their late bindings, bundled dependencies and
their hoist roots, the folder guard, the name guard with its error, the removal
of an empty tree.  `Filter`, the other method, and self-contained workspaces,
which only `Filter` has, are not here.

A tree's id is its index.  `hoist_dependency` recurses to the parent; parents
have smaller ids, so `selfId + 1` calls are enough and the last alternative of
`hoistDependency` is not reached (`hoistDependency_eq`).
-/
import Mathlib.Data.List.Basic
import OhosBun.Install.Lockfile

namespace OhosBun.Install

/-! ## The builder -/

structure BuilderEntry where
  parent : Option Nat
  dependencyId : Option DependencyID
  dependencies : List DependencyID
  deriving DecidableEq, Inhabited

structure FillItem where
  treeId : Nat
  dependencyId : DependencyID
  hoistRootId : Option Nat
  deriving DecidableEq, Inhabited

structure Builder where
  list : List BuilderEntry
  resolutions : List (Option PackageID)
  queue : List FillItem
  pendingOptionalPeers : List (UInt64 × List DependencyID)
  lateBoundOptionalPeer : Bool
  /-- The names logged as `Invalid dependency name "{}"`. -/
  errors : List (List UInt8)
  deriving DecidableEq, Inhabited

inductive HoistDependencyResult where
  | dependencyLoop
  | hoisted
  | resolve (resId : PackageID)
  | resolveReplace (id : Nat) (depId : DependencyID)
  | resolveLater
  | rebind (resId : PackageID)
  | placement (id : Nat) (bundled : Bool)
  deriving DecidableEq

namespace Builder

def init (resolutions : List (Option PackageID)) : Builder where
  list := []
  resolutions := resolutions
  queue := []
  pendingOptionalPeers := []
  lateBoundOptionalPeer := false
  errors := []

def entry (b : Builder) (id : Nat) : BuilderEntry := b.list.getD id default

/-- The builder with a new tree at the end. -/
def openTree (b : Builder) (parent : Option Nat) (dependencyId : Option DependencyID) : Builder :=
  { b with list := b.list ++ [⟨parent, dependencyId, []⟩] }

/-- `builder.resolutions[dep_id]`. -/
def resolution (b : Builder) (id : DependencyID) : Option PackageID := b.resolutions.getD id none

end Builder

section Hoister
variable {V : Type} (lf : Lockfile V)

/-! ## Where a dependency goes -/

/-- The range of a peer accepts the version that a same-named entry has. -/
def peerSatisfied (d : Dependency V) (resId : PackageID) : Bool :=
  match lf.resolveRange d, (lf.pkg resId).resolution with
  | .npm satisfies, .npm version => satisfies version
  | _, _ => false

/-- What `hoist_dependency` returns when tree `id` holds `depId` under the
dependency's name. -/
def onSameName (b : Builder) (packageId : Option PackageID) (inputDepId : DependencyID)
    (inputDepRange : DependencySlice) (id : Nat) (depId : DependencyID) :
    HoistDependencyResult :=
  match b.resolution depId, packageId with
  | none, none => .resolveLater
  | none, some _ => .resolveReplace id depId
  | some resId, none => .resolve resId
  | some resId, some packageId =>
    if resId = packageId then .hoisted
    else if inputDepRange.contains depId then .hoisted
    else if (lf.dep inputDepId).behavior.isPeer &&
        (peerSatisfied lf (lf.dep inputDepId) resId || lf.isWorkspaceRootDependency depId) then
      if (lf.dep inputDepId).behavior.isOptionalPeer then .rebind resId else .hoisted
    else .dependencyLoop

/-- The first entry of a tree under a name. -/
def BuilderEntry.named (e : BuilderEntry) (h : UInt64) : Option DependencyID :=
  e.dependencies.find? fun d => lf.nameHash d = h

@[grind]
def hoistDependency (b : Builder) (hoistRootId : Option Nat) (packageId : Option PackageID)
    (inputDepId : DependencyID) (inputDepRange : DependencySlice) :
    (asDefined : Bool) → (fuel : Nat) → (selfId : Nat) → HoistDependencyResult
  | _, 0, selfId => .placement selfId false
  | asDefined, fuel + 1, selfId =>
    match (b.entry selfId).named lf (lf.nameHash inputDepId) with
    | some depId => onSameName lf b packageId inputDepId inputDepRange selfId depId
    | none =>
      match (b.entry selfId).parent with
      | none => .placement selfId false
      | some parent =>
        if some selfId = hoistRootId then .placement selfId false
        else
          let id := hoistDependency b hoistRootId packageId inputDepId inputDepRange false
            fuel parent
          if !asDefined || id ≠ .dependencyLoop then id else .placement selfId false

/-- The guard of folder packages: an ancestor of tree `treeId` is the folder of
the same package under the same name. -/
def insideItself (b : Builder) (pkgId : PackageID) (h : UInt64) : (fuel : Nat) → (treeId : Nat) → Bool
  | 0, _ => false
  | fuel + 1, treeId =>
    (match (b.entry treeId).dependencyId with
      | some ancestor => b.resolution ancestor = some pkgId && lf.nameHash ancestor = h
      | none => false) ||
    match (b.entry treeId).parent with
    | some parent => insideItself b pkgId h fuel parent
    | none => false

/-- The labelled block `'hoisted` of `process_subtree`; `none` is `continue 'dep`. -/
def decideHoist (nextId : Nat) (hoistRootId : Option Nat) (range : DependencySlice) (b : Builder)
    (depId : DependencyID) : Option HoistDependencyResult :=
  let dependency := lf.dep depId
  let hoist := hoistDependency lf b hoistRootId (b.resolution depId) depId range true
    (nextId + 1) nextId
  if dependency.behavior.isBundled then some (.placement nextId true)
  else
    match b.resolution depId with
    | none => if dependency.behavior.isOptionalPeer then some hoist else none
    | some pkgId =>
      if (lf.pkg pkgId).resolution.isFolder then
        if dependency.behavior.isPeer && hoist = .hoisted then some .hoisted
        else if insideItself lf b pkgId dependency.nameHash (nextId + 1) nextId then none
        else some (.placement nextId false)
      else some hoist

/-! ## What happens to it -/

namespace Builder

/-- Bind every peer that waits for a name. -/
def bindPending (b : Builder) (h : UInt64) (resId : Option PackageID) : Builder :=
  match b.pendingOptionalPeers.find? fun e => e.1 = h with
  | none => b
  | some (_, peers) =>
    { b with
      resolutions := peers.foldl (fun rs d => rs.set d resId) b.resolutions
      pendingOptionalPeers := b.pendingOptionalPeers.filter fun e => e.1 ≠ h }

/-- `pending_optional_peers.get_or_put(h).put(dep_id)`. -/
def putPending (b : Builder) (h : UInt64) (depId : DependencyID) : Builder :=
  { b with
    pendingOptionalPeers :=
      if b.pendingOptionalPeers.any fun e => e.1 = h then
        b.pendingOptionalPeers.map fun e =>
          if e.1 = h ∧ depId ∉ e.2 then (e.1, e.2 ++ [depId]) else e
      else b.pendingOptionalPeers ++ [(h, [depId])] }

/-- Enqueue the subtree of a placed package, if it has dependencies. -/
def enqueue (b : Builder) (pkgId : Option PackageID) (item : FillItem) : Builder :=
  match pkgId with
  | none => b
  | some p => if 0 < (lf.resolutionList p).len then { b with queue := b.queue ++ [item] } else b

/-- `dependency_lists[id].push(dep_id)`. -/
def push (b : Builder) (id : Nat) (depId : DependencyID) : Builder :=
  { b with
    list := b.list.modify id fun e => { e with dependencies := e.dependencies ++ [depId] } }

/-- Put `depId` where tree `id` holds `replaced`. -/
def replace (b : Builder) (id : Nat) (replaced depId : DependencyID) : Builder :=
  { b with
    list := b.list.modify id fun e =>
      { e with dependencies := e.dependencies.map fun d => if d = replaced then depId else d } }

/-- The `match hoisted` of `process_subtree`. -/
def apply (hoistRootId : Option Nat) (b : Builder) (depId : DependencyID) :
    HoistDependencyResult → Builder
  | .dependencyLoop | .hoisted => b
  | .resolve resId =>
    ({ b with resolutions := b.resolutions.set depId (some resId) }).bindPending
      (lf.nameHash depId) (some resId)
  | .resolveReplace id replaced =>
    let pkgId := b.resolution depId
    let b := { b with
      lateBoundOptionalPeer := true
      resolutions := b.resolutions.set replaced pkgId }
    ((b.bindPending (lf.nameHash depId) pkgId).replace id replaced depId).enqueue lf pkgId
      { treeId := id, dependencyId := depId, hoistRootId := hoistRootId }
  | .rebind resId => { b with resolutions := b.resolutions.set depId (some resId) }
  | .resolveLater => b.putPending (lf.nameHash depId) depId
  | .placement id bundled =>
    (b.push id depId).enqueue lf (b.resolution depId)
      { treeId := id, dependencyId := depId
        -- a bundled dependency starts a new hoist root
        hoistRootId := if bundled then some id else hoistRootId }

end Builder

/-! ## Packages, the queue, the pass -/

/-- One iteration of the loop over `sort_buf`. -/
def processDependency (nextId : Nat) (hoistRootId : Option Nat) (range : DependencySlice)
    (b : Builder) (depId : DependencyID) : Builder :=
  if (lf.dep depId).hasSafeName then
    match decideHoist lf nextId hoistRootId range b depId with
    | none => b
    | some result => b.apply lf hoistRootId depId result
  else { b with errors := b.errors ++ [(lf.dep depId).name] }

/-- The package of a tree; the root tree belongs to package `0`. -/
def Builder.packageOf (b : Builder) : Option DependencyID → Option PackageID
  | none => some 0
  | some depId => b.resolution depId

def processSubtree (parent : Option Nat) (dependencyId : Option DependencyID)
    (hoistRootId : Option Nat) (b : Builder) : Builder :=
  match b.packageOf dependencyId with
  | none => b
  | some parentPkgId =>
    let range := lf.resolutionList parentPkgId
    if range.len = 0 then b
    else
      let nextId := b.list.length
      let b := (lf.sortBuf range).foldl (processDependency lf nextId hoistRootId range)
        (b.openTree parent dependencyId)
      if (b.entry nextId).dependencies = [] then { b with list := b.list.dropLast } else b

/-- One turn of the queue loop. -/
def hoistStep (b : Builder) : Builder :=
  match b.queue with
  | [] => b
  | item :: queue =>
    processSubtree lf (some item.treeId) (some item.dependencyId) item.hoistRootId
      { b with queue := queue }

/-- The builder before the queue loop. -/
def hoistStart (resolutions : List (Option PackageID)) : Builder :=
  processSubtree lf none none none (.init resolutions)

/-- The builder after `n` turns. -/
def hoistRun (resolutions : List (Option PackageID)) (n : Nat) : Builder :=
  (hoistStep lf)^[n] (hoistStart lf resolutions)

end Hoister

/-! ## The flattened result -/

structure Tree where
  id : Nat
  parent : Option Nat
  dependencyId : Option DependencyID
  dependencies : DependencySlice
  deriving DecidableEq, Inhabited

structure CleanResult where
  trees : List Tree
  depIds : List DependencyID
  deriving DecidableEq

/-- The entries of a tree that are resolved. -/
def Builder.kept (b : Builder) (e : BuilderEntry) : List DependencyID :=
  e.dependencies.filter fun d => (b.resolution d).isSome

/-- The loop of `clean`, from tree `id` on with `depIds` collected. -/
@[grind] def Builder.cleanFrom (b : Builder) : (id : Nat) → (depIds : List DependencyID) →
    List BuilderEntry → CleanResult
  | _, depIds, [] => ⟨[], depIds⟩
  | id, depIds, e :: list =>
    let rest := b.cleanFrom (id + 1) (depIds ++ b.kept e) list
    let tree : Tree := {
      id := id, parent := e.parent, dependencyId := e.dependencyId
      dependencies := ⟨depIds.length, (b.kept e).length⟩ }
    ⟨tree :: rest.trees, rest.depIds⟩

def Builder.clean (b : Builder) : CleanResult := b.cleanFrom 0 [] b.list

/-- What a finished pass leaves in the lockfile and returns. -/
structure HoistResult where
  trees : List Tree
  hoistedDependencies : List DependencyID
  resolutions : List (Option PackageID)
  lateBoundOptionalPeer : Bool
  deriving DecidableEq

/-- `hoist::<Resolvable>` with at most `fuel` turns of its loop. -/
def hoist {V : Type} (lf : Lockfile V) (resolutions : List (Option PackageID)) (fuel : Nat) :
    Option HoistResult :=
  let b := hoistRun lf resolutions fuel
  if b.queue = [] then
    some {
      trees := b.clean.trees
      hoistedDependencies := b.clean.depIds
      resolutions := b.resolutions
      lateBoundOptionalPeer := b.lateBoundOptionalPeer }
  else none

end OhosBun.Install
