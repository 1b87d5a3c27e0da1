/-
# `OhosBun.Install.OverrideMap` — the rules that override a dependency

`OverrideMap.rs`: flat rules by the hash of the name they override, and scoped rules,
which hold for the dependencies of a parent, for those that declare a range, or both.
`get` looks for the scoped rule that applies to a dependency and falls back to the flat
one.

A `SemverString` is its text.  Of a package the model has what an owner is known by, and
of a version its tag, its text and, when it is an npm range, the parsed range.  The range
of a parent or of a target is an npm range or the default version: the constructors of
`ScopedOverride` make no other.
-/
import OhosBun.Lib.ArrayMap
import OhosBun.Semver.Intersects

namespace OhosBun.Install.Overrides

open OhosBun.Lib
open OhosBun.Semver (Group Version)

/-! ## Rules -/

inductive VersionTag where
  | uninitialized | npm | distTag | tarball | folder | symlink | workspace | git | github | catalog
  deriving DecidableEq, Inhabited

/-- `dependency::Version` -/
structure DependencyVersion where
  tag : VersionTag
  literal : List UInt8
  /-- The range, when the tag says so. -/
  npm : Group
  deriving DecidableEq, Inhabited

/-- An npm range, or no range at all. -/
def DependencyVersion.IsRange (v : DependencyVersion) : Prop := v.tag = .npm ∨ v = default

structure Dependency where
  name : List UInt8
  nameHash : UInt64
  version : DependencyVersion
  deriving DecidableEq, Inhabited

structure ScopedOverride where
  parent : Option Dependency
  targetRange : DependencyVersion
  dep : Dependency
  parent_isRange : ∀ p ∈ parent, p.version.IsRange
  target_isRange : targetRange.IsRange
  deriving DecidableEq

namespace ScopedOverride
variable (rule : ScopedOverride)

def parentHasRange : Bool := rule.parent.any fun p => p.version.tag = .npm

def hasTargetRange : Bool := rule.targetRange.tag = .npm

end ScopedOverride

def cmpRangeText (l r : ScopedOverride) : Ordering :=
  let byParent := match l.parent, r.parent with
    | some a, some b =>
      if l.parentHasRange && r.parentHasRange then
        Semver.order a.version.literal b.version.literal
      else .eq
    | _, _ => .eq
  byParent.then (Semver.order l.targetRange.literal r.targetRange.literal)

/-! ## The lockfile -/

inductive Resolution where
  | npm (version : Version)
  | workspace
  | other
  deriving DecidableEq, Inhabited

/-- A package, as far as it owns dependencies: those from `begin` to `stop`. -/
structure OwnerPackage where
  nameHash : UInt64
  resolution : Resolution
  start : Nat
  stop : Nat
  deriving DecidableEq

/-- What the overrides read of a lockfile. -/
structure OverrideLockfile where
  dependencies : List Dependency
  packages : List OwnerPackage
  workspaceVersions : UInt64 → Option Version

def invalidPackageId : Nat := 2 ^ 32 - 1

structure OwnerIndex where
  byDep : List Nat := []
  packagesIndexed : Nat := 0
  deriving DecidableEq

/-- The dependencies of a package are given to it. -/
def fillOwner (dependenciesLen : Nat) (byDep : List Nat) (pkg : OwnerPackage × Nat) : List Nat :=
  let stop := min pkg.1.stop dependenciesLen
  let start := min pkg.1.start stop
  let byDep := byDep ++ List.replicate (stop - byDep.length) invalidPackageId
  byDep.take start ++ List.replicate (stop - start) pkg.2 ++ byDep.drop stop

/-- The packages that are new since the index was last read are added to it. -/
def OwnerIndex.refresh (index : OwnerIndex) (lockfile : OverrideLockfile) : OwnerIndex :=
  if index.packagesIndexed < lockfile.packages.length then
    ⟨(lockfile.packages.zipIdx.drop index.packagesIndexed).foldl
      (fillOwner lockfile.dependencies.length) index.byDep, lockfile.packages.length⟩
  else index

def OwnerIndex.ownerPackageId (index : OwnerIndex) (dependencyId : Nat) : Nat :=
  index.byDep.getD dependencyId invalidPackageId

/-- `owner_of`, from an index that has been refreshed. -/
def OwnerIndex.ownerOf (index : OwnerIndex) (lockfile : OverrideLockfile) (dependencyId : Nat) :
    Option (UInt64 × Option Version) :=
  let ownerId := index.ownerPackageId dependencyId
  if ownerId = invalidPackageId then none
  else
    lockfile.packages[ownerId]?.map fun pkg => (pkg.nameHash, match pkg.resolution with
      | .npm version => some version
      | .workspace => lockfile.workspaceVersions pkg.nameHash
      | .other => none)

/-! ## The map -/

structure OverrideMap where
  /-- The flat rules, by the hash of the name. -/
  map : ArrayMap UInt64 Dependency := {}
  scopedRules : List ScopedOverride := []
  scopedNames : List UInt64 := []
  ownerIndex : OwnerIndex := {}

namespace OverrideMap

def getFlat (m : OverrideMap) (nameHash : UInt64) : Option DependencyVersion :=
  (m.map.get? nameHash).map (·.version)

/-- The owner of the dependency once a rule has asked for it, and the best rule so far
with its tier. -/
structure Lookup where
  ownerIndex : OwnerIndex
  owner : Option (Option (UInt64 × Option Version))
  best : Option (ScopedOverride × Nat)

/-- `owner.get_or_insert_with(|| self.owner_of(lockfile, dependency_id))` -/
def Lookup.askOwner (s : Lookup) (lockfile : OverrideLockfile) (dependencyId : Nat) :
    Option (UInt64 × Option Version) × Lookup :=
  match s.owner with
  | some owner => (owner, s)
  | none =>
    let index := s.ownerIndex.refresh lockfile
    let owner := index.ownerOf lockfile dependencyId
    (owner, { s with ownerIndex := index, owner := some owner })

/-- The tier that the parent of a rule gives it, `none` when the dependency is another
parent's. -/
def parentTier (rule : ScopedOverride) (parent : Dependency)
    (owner : Option (UInt64 × Option Version)) : Option Nat :=
  match owner with
  | none => none
  | some (ownerNameHash, ownerVersion) =>
    if ownerNameHash ≠ parent.nameHash then none
    else if rule.parentHasRange then
      match ownerVersion with
      | none => none
      | some version => if parent.version.npm.satisfies version then some 4 else none
    else some 2

/-- The rule takes the place of the best so far unless that is as good. -/
def Lookup.consider (s : Lookup) (rule : ScopedOverride) (tier : Nat) : Lookup :=
  let replace : Bool := match s.best with
    | none => true
    | some (bestRule, bestTier) =>
      tier > bestTier || tier = bestTier && cmpRangeText rule bestRule = .lt
  if replace then { s with best := some (rule, tier) } else s

/-- The rule at its tier, if its target is in range. -/
def Lookup.atTier (s : Lookup) (declared : DependencyVersion) (rule : ScopedOverride)
    (tier : Nat) : Lookup :=
  if rule.hasTargetRange then
    -- the rule cannot be better than one of a higher tier, whatever its range
    if s.best.any fun best => best.2 > tier + 1 then s
    else if declared.tag ≠ .npm ∨ !rule.targetRange.npm.intersects declared.npm then s
    else s.consider rule (tier + 1)
  else s.consider rule tier

/-- One turn of `scoped_rule_for`. -/
def Lookup.turn (lockfile : OverrideLockfile) (dependencyId : Nat) (declared : DependencyVersion)
    (nameHash : UInt64) (s : Lookup) (rule : ScopedOverride) : Lookup :=
  if rule.dep.nameHash ≠ nameHash then s
  else
    match rule.parent with
    | none => s.atTier declared rule 0
    | some parent =>
      let (owner, s) := s.askOwner lockfile dependencyId
      match parentTier rule parent owner with
      | none => s
      | some tier => s.atTier declared rule tier

/-- `none` is the panic on a dependency that the lockfile does not have. -/
def scopedRuleFor (m : OverrideMap) (lockfile : OverrideLockfile) (dependencyId : Nat)
    (nameHash : UInt64) : Option Lookup :=
  lockfile.dependencies[dependencyId]?.map fun declared =>
    m.scopedRules.foldl (Lookup.turn lockfile dependencyId declared.version nameHash)
      ⟨m.ownerIndex, none, none⟩

/-- The version that overrides a dependency, and the map with its index brought up to
date. -/
def get (m : OverrideMap) (lockfile : OverrideLockfile) (dependencyId : Nat)
    (nameHash : UInt64) : Option (Option DependencyVersion × OverrideMap) :=
  if m.scopedRules.isEmpty then some (m.getFlat nameHash, m)
  else if m.scopedNames.contains nameHash then
    (m.scopedRuleFor lockfile dependencyId nameHash).map fun s =>
      let m' := { m with ownerIndex := s.ownerIndex }
      match s.best with
      | some (rule, _) => (some rule.dep.version, m')
      | none => (m.getFlat nameHash, m')
  else some (m.getFlat nameHash, m)

/-! ## Changes -/

/-- The rule has the same parent, parent range, target and target range. -/
def sameSelector (existing rule : ScopedOverride) : Bool :=
  existing.dep.nameHash = rule.dep.nameHash &&
    (match existing.parent, rule.parent with
      | none, none => true
      | some a, some b => a.nameHash = b.nameHash && a.version.literal = b.version.literal
      | _, _ => false) &&
    existing.targetRange.literal = rule.targetRange.literal

/-- The first rule that is found is replaced; `none` when there is none. -/
def replaceFirst (rule : ScopedOverride) : List ScopedOverride → Option (List ScopedOverride)
  | [] => none
  | existing :: rest =>
    if sameSelector existing rule then some (rule :: rest)
    else (replaceFirst rule rest).map (existing :: ·)

def pushScoped (m : OverrideMap) (rule : ScopedOverride) : OverrideMap :=
  if m.scopedNames.contains rule.dep.nameHash then
    match replaceFirst rule m.scopedRules with
    | some rules => { m with scopedRules := rules }
    | none => { m with scopedRules := m.scopedRules ++ [rule] }
  else
    { m with
      scopedNames := m.scopedNames ++ [rule.dep.nameHash]
      scopedRules := m.scopedRules ++ [rule] }

/-- The order of scoped rules in a lockfile. -/
def cmpScoped (l r : ScopedOverride) : Ordering :=
  (compare l.parent.isSome r.parent.isSome).then <|
    (match l.parent, r.parent with
      | some lp, some rp =>
        (Semver.order lp.name rp.name).then (Semver.order lp.version.literal rp.version.literal)
      | _, _ => .eq).then <|
    (Semver.order l.dep.name r.dep.name).then <|
      Semver.order l.targetRange.literal r.targetRange.literal

/-- The flat rules by their names, the scoped ones by parent and target. -/
def sort (m : OverrideMap) : OverrideMap :=
  { m with
    map := m.map.sort fun l r => (Semver.order l.2.name r.2.name).isLE
    scopedRules := m.scopedRules.mergeSort fun l r => (cmpScoped l r).isLE }

end OverrideMap

end OhosBun.Install.Overrides
