/-
# `OhosBun.Install.Lockfile` — packages, dependencies, resolutions

The part of a lockfile that the hoister reads: the package table with its
slices into the dependency buffer, the dependencies with their behaviour flags,
the resolution of each dependency, and the catalogs.

  * Indices are `Nat`.  The sentinels `invalid_package_id`, `INVALID_ID` and
    `ROOT_DEP_ID` are `none`.
  * A dependency's name is its bytes; `nameHash` is stored beside it, as there.
    The hoister compares names by hash and sorts by bytes.
  * A parsed range is the set of versions it accepts (`Group::satisfies`), over
    any type of versions.

A `Lockfile` carries the facts that make every index below valid.
-/
import Mathlib.Data.List.GetD
import Mathlib.Data.List.Sort

namespace OhosBun.Install

abbrev PackageID := Nat
abbrev DependencyID := Nat

/-! ## Dependencies -/

/-- The flag bits of a `Behavior`. -/
structure Behavior where
  prod : Bool
  optional : Bool
  dev : Bool
  peer : Bool
  workspace : Bool
  bundled : Bool
  deriving DecidableEq, Inhabited

namespace Behavior

def isProd (b : Behavior) : Bool := b.prod

/-- Peer-optionals are reported separately. -/
def isOptional (b : Behavior) : Bool := b.optional && !b.peer

def isOptionalPeer (b : Behavior) : Bool := b.optional && b.peer

def isDev (b : Behavior) : Bool := b.dev

def isPeer (b : Behavior) : Bool := b.peer

def isWorkspace (b : Behavior) : Bool := b.workspace

def isBundled (b : Behavior) : Bool := b.bundled

/-- One test of `cmp`: the side with the flag comes first. -/
def flagFirst (l r : Bool) (otherwise : Ordering) : Ordering :=
  if l ≠ r then (if l then .lt else .gt) else otherwise

def cmp (l r : Behavior) : Ordering :=
  flagFirst l.isWorkspace r.isWorkspace <| flagFirst l.isDev r.isDev <|
    flagFirst l.isOptional r.isOptional <| flagFirst l.isProd r.isProd <|
      flagFirst l.isPeer r.isPeer .eq

end Behavior

/-- `DependencyVersion`: its tag, with the payloads that are read. -/
inductive DependencyVersion (V : Type) where
  | npm (satisfies : V → Bool)
  | catalog (name : List UInt8)
  | uninitialized | distTag | tarball | folder | symlink | workspace | git | github

structure Dependency (V : Type) where
  name : List UInt8
  nameHash : UInt64
  behavior : Behavior
  version : DependencyVersion V

instance {V : Type} : Inhabited (Dependency V) := ⟨⟨[], 0, default, .uninitialized⟩⟩

/-- `is_safe_install_folder_name`: no empty, `.` or `..` component, and no
backslash, colon or NUL. -/
def isSafeInstallFolderName (name : List UInt8) : Bool :=
  !name.isEmpty && (name.splitOn 47).all fun component =>
    !(component.isEmpty || component = [46] || component = [46, 46]) &&
      !component.any fun c => c = 92 || c = 58 || c = 0

/-- The guard of the hoister: an empty name has no folder to escape. -/
def Dependency.hasSafeName {V : Type} (d : Dependency V) : Bool :=
  d.name.isEmpty || isSafeInstallFolderName d.name

/-! ## Packages -/

/-- `ExternalSlice`: `len` elements of a buffer from `off` on. -/
structure DependencySlice where
  off : Nat
  len : Nat
  deriving DecidableEq, Inhabited

namespace DependencySlice

def contains (s : DependencySlice) (id : Nat) : Bool := s.off ≤ id && id < s.len + s.off

/-- `begin()..end()`. -/
def ids (s : DependencySlice) : List Nat := List.range' s.off s.len

theorem mem_ids {s : DependencySlice} {id : Nat} :
    id ∈ s.ids ↔ s.off ≤ id ∧ id < s.off + s.len := by
  simp [ids, List.mem_range'_1]

theorem contains_eq_true {s : DependencySlice} {id : Nat} : s.contains id = true ↔ id ∈ s.ids := by
  simp only [contains, Bool.and_eq_true, decide_eq_true_eq, mem_ids]
  omega

end DependencySlice

/-- `Resolution`: its tag, and the version of an npm package. -/
inductive Resolution (V : Type) where
  | npm (version : V)
  | uninitialized | root | folder | localTarball | github | git | symlink | workspace
  | remoteTarball | singleFileModule

def Resolution.isFolder {V : Type} : Resolution V → Bool
  | .folder => true
  | _ => false

structure Package (V : Type) where
  resolution : Resolution V
  dependencies : DependencySlice
  resolutions : DependencySlice

instance {V : Type} : Inhabited (Package V) := ⟨⟨.uninitialized, ⟨0, 0⟩, ⟨0, 0⟩⟩⟩

structure Lockfile (V : Type) where
  packages : List (Package V)
  dependencies : List (Dependency V)
  resolutions : List (Option PackageID)
  /-- `CatalogMap::get_ref`: the version under a catalog's and a dependency's name. -/
  catalogs : List UInt8 → List UInt8 → Option (DependencyVersion V)
  root_mem : 0 < packages.length
  sizes : resolutions.length = dependencies.length
  ranges : ∀ p ∈ packages, p.resolutions.off + p.resolutions.len ≤ dependencies.length
  targets : ∀ p, some p ∈ resolutions → p < packages.length

namespace Lockfile
variable {V : Type} (lf : Lockfile V)

def dep (id : DependencyID) : Dependency V := lf.dependencies.getD id default

def pkg (id : PackageID) : Package V := lf.packages.getD id default

/-- `resolution_lists[pkg_id]`. -/
def resolutionList (id : PackageID) : DependencySlice := (lf.pkg id).resolutions

def nameHash (id : DependencyID) : UInt64 := (lf.dep id).nameHash

/-- `CatalogMap::resolve_range`. -/
def resolveRange (d : Dependency V) : DependencyVersion V :=
  match d.version with
  | .catalog name => (lf.catalogs name d.name).getD d.version
  | version => version

/-- `is_workspace_root_dependency`. -/
def isWorkspaceRootDependency (id : DependencyID) : Bool := (lf.pkg 0).dependencies.contains id

/-- `DepSorter::is_less_than`. -/
def isLessThan (l r : DependencyID) : Bool :=
  match (lf.dep l).behavior.cmp (lf.dep r).behavior with
  | .lt => true
  | .gt => false
  | .eq => decide ((lf.dep l).name < (lf.dep r).name)

/-- The sorted `sort_buf` of a package. -/
def sortBuf (s : DependencySlice) : List DependencyID :=
  s.ids.insertionSort fun a b => lf.isLessThan b a = false

theorem mem_sortBuf {s : DependencySlice} {id : DependencyID} : id ∈ lf.sortBuf s ↔ id ∈ s.ids :=
  (List.perm_insertionSort _ s.ids).mem_iff

theorem nodup_sortBuf (s : DependencySlice) : (lf.sortBuf s).Nodup :=
  (List.perm_insertionSort _ s.ids).nodup_iff.mpr List.nodup_range'

theorem length_sortBuf (s : DependencySlice) : (lf.sortBuf s).length = s.len := by
  rw [sortBuf, List.length_insertionSort, DependencySlice.ids, List.length_range']

/-- Dependency ids in a package's range are ids of the buffer. -/
theorem mem_range_lt {p id : Nat} (h : id ∈ (lf.resolutionList p).ids) :
    id < lf.dependencies.length := by
  rw [DependencySlice.mem_ids] at h
  unfold resolutionList pkg at h
  rcases Nat.lt_or_ge p lf.packages.length with hp | hp
  · rw [List.getD_eq_getElem _ _ hp] at h
    have := lf.ranges _ (List.getElem_mem hp)
    omega
  · rw [List.getD_eq_default _ _ hp] at h
    obtain ⟨-, hlt⟩ := h
    exact absurd hlt (Nat.not_lt_zero id)

theorem resolutionList_len_le (p : PackageID) :
    (lf.resolutionList p).len ≤ lf.dependencies.length := by
  unfold resolutionList pkg
  rcases Nat.lt_or_ge p lf.packages.length with hp | hp
  · rw [List.getD_eq_getElem _ _ hp]
    have := lf.ranges _ (List.getElem_mem hp)
    omega
  · rw [List.getD_eq_default _ _ hp]
    exact Nat.zero_le _

end Lockfile

end OhosBun.Install
