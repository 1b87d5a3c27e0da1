/-
# `OhosBun.Install.NodeModules` — the flattened layout

The results about `Lockfile::hoist::<Resolvable>`, stated on what it leaves in
the lockfile: the trees and the flat list of their entries.

    hoist_layout            without bundled dependencies the layout is right
    hoist_layout_bundled    with them, while no placement at a hoist root hides a
                            name from a package that was served through it

A dependency whose name is no safe folder name is reported and placed nowhere,
so it is found nowhere either (`hoist_layout_unsafe_ne`).
-/
import OhosBun.Install.Layout

namespace OhosBun.Install

open OhosBun.Lib

variable {V : Type}

/-! ## Reading the result -/

namespace HoistResult

def tree (r : HoistResult) (i : Nat) : Tree := r.trees.getD i default

/-- `tree.dependencies.get(hoisted_dependencies)`. -/
def entries (r : HoistResult) (i : Nat) : List DependencyID :=
  (r.hoistedDependencies.drop (r.tree i).dependencies.off).take (r.tree i).dependencies.len

/-- The tree of the package placed as the entry `e` of tree `t`: the one whose
parent is `t` and whose dependency is `e`, or `t` itself when there is none. -/
def ownTree (r : HoistResult) (t : Nat) (e : DependencyID) : Nat :=
  ((List.range r.trees.length).find? fun i =>
    (r.tree i).parent = some t && (r.tree i).dependencyId = some e).getD t

/-- The first entry under a name, from tree `s` up the parent links. -/
def lookup (r : HoistResult) (lf : Lockfile V) (s : Nat) (h : UInt64) : Option DependencyID :=
  (climb (fun i => (r.tree i).parent)
    (fun i => (r.entries i).find? fun d => lf.nameHash d = h) (s + 1) s).map Prod.snd

end HoistResult

theorem cleanFrom_depIds (b : Builder) (list : List BuilderEntry) : ∀ id depIds,
    (b.cleanFrom id depIds list).depIds = depIds ++ list.flatMap b.kept := by
  induction list with
  | nil => intro id depIds; simp [Builder.cleanFrom]
  | cons e list ih => intro id depIds; simp [Builder.cleanFrom, ih]

theorem cleanFrom_length (b : Builder) (list : List BuilderEntry) : ∀ id depIds,
    (b.cleanFrom id depIds list).trees.length = list.length := by
  induction list with
  | nil => intro id depIds; rfl
  | cons e list ih => intro id depIds; simp [Builder.cleanFrom, ih]

/-- The tree of an entry, when the entries before it keep `off` dependencies. -/
def Builder.cleanTree (b : Builder) (id off : Nat) (e : BuilderEntry) : Tree where
  id := id
  parent := e.parent
  dependencyId := e.dependencyId
  dependencies := ⟨off, (b.kept e).length⟩

theorem cleanFrom_trees (b : Builder) (list : List BuilderEntry) :
    ∀ (id : Nat) (depIds : List DependencyID) (i : Nat),
      (b.cleanFrom id depIds list).trees[i]? = list[i]?.map
        (b.cleanTree (id + i) (depIds ++ (list.take i).flatMap b.kept).length) := by
  induction list with
  | nil => intro id depIds i; simp [Builder.cleanFrom]
  | cons e list ih =>
    intro id depIds i
    cases i with
    | zero => simp [Builder.cleanFrom, Builder.cleanTree]
    | succ i =>
      simp only [Builder.cleanFrom, List.getElem?_cons_succ, ih, List.take_succ_cons,
        List.flatMap_cons, List.append_assoc, Nat.add_assoc, Nat.add_comm 1 i]

/-- The result of a finished pass. -/
def Builder.result (b : Builder) : HoistResult where
  trees := b.clean.trees
  hoistedDependencies := b.clean.depIds
  resolutions := b.resolutions
  lateBoundOptionalPeer := b.lateBoundOptionalPeer

variable {lf : Lockfile V} {r : HoistResult}

theorem hoist_eq_some {resolutions : List (Option PackageID)} {fuel : Nat}
    (h : hoist lf resolutions fuel = some r) :
    (hoistRun lf resolutions fuel).queue = [] ∧ r = (hoistRun lf resolutions fuel).result := by
  unfold hoist at h
  simp only at h
  split at h
  · next hq => exact ⟨hq, (Option.some.inj h).symm⟩
  · exact absurd h (by simp)

section Result
variable (b : Builder)

theorem result_length : b.result.trees.length = b.list.length := cleanFrom_length b b.list 0 []

theorem result_tree {i : Nat} (hi : i < b.list.length) :
    b.result.tree i = b.cleanTree i ((b.list.take i).flatMap b.kept).length (b.entry i) := by
  have htree := cleanFrom_trees b b.list 0 [] i
  rw [List.getElem?_eq_getElem hi] at htree
  have hget : b.result.trees[i]? =
      some (b.cleanTree i ((b.list.take i).flatMap b.kept).length b.list[i]) := by
    rw [Nat.zero_add, List.nil_append] at htree
    exact htree
  rw [HoistResult.tree, List.getD_eq_getElem?_getD, hget, Builder.entry,
    List.getD_eq_getElem _ _ hi]
  rfl

theorem result_tree_of_ge {i : Nat} (hi : b.list.length ≤ i) : b.result.tree i = default :=
  List.getD_eq_default _ _ (by rw [result_length]; exact hi)

theorem result_parent (i : Nat) : (b.result.tree i).parent = b.parent i := by
  rcases Nat.lt_or_ge i b.list.length with hi | hi
  · rw [result_tree b hi]
    rfl
  · rw [result_tree_of_ge b hi, Builder.parent, b.entry_of_ge hi]
    rfl

theorem result_dependencyId (i : Nat) :
    (b.result.tree i).dependencyId = (b.entry i).dependencyId := by
  rcases Nat.lt_or_ge i b.list.length with hi | hi
  · rw [result_tree b hi]
    rfl
  · rw [result_tree_of_ge b hi, b.entry_of_ge hi]
    rfl

/-- The entries of a tree are the resolved ones. -/
theorem result_entries (i : Nat) : b.result.entries i = b.kept (b.entry i) := by
  unfold HoistResult.entries
  rcases Nat.lt_or_ge i b.list.length with hi | hi
  · have hids : b.result.hoistedDependencies = b.list.flatMap b.kept := by
      have := cleanFrom_depIds b b.list 0 []
      rwa [List.nil_append] at this
    have hsplit : b.list.flatMap b.kept = (b.list.take i).flatMap b.kept ++
        (b.kept (b.entry i) ++ (b.list.drop (i + 1)).flatMap b.kept) := by
      rw [Builder.entry, List.getD_eq_getElem _ _ hi]
      conv_lhs => rw [← List.take_append_drop i b.list, List.drop_eq_getElem_cons hi]
      simp only [List.flatMap_append, List.flatMap_cons]
    rw [hids, result_tree b hi, hsplit]
    simp [Builder.cleanTree]
  · rw [result_tree_of_ge b hi, b.entry_of_ge hi]
    show ((_ : List DependencyID).drop 0).take 0 = b.kept default
    rw [List.take_zero]
    rfl

end Result

/-! ## The layout -/

/-- What a layout has to be: ids grow from parent to child, no tree holds a name
twice, and each placed package finds, for each dependency in `wanted`, the
locked package. -/
structure HoistResult.Right (r : HoistResult) (lf : Lockfile V) (wanted : DependencyID → Prop) :
    Prop where
  parents : ∀ i < r.trees.length, (r.tree i).id = i ∧ ∀ p, (r.tree i).parent = some p → p < i
  names : ∀ i, ((r.entries i).map lf.nameHash).Nodup
  finds : ∀ t e p d, e ∈ r.entries t → r.resolutions.getD e none = some p →
    d ∈ (lf.resolutionList p).ids → wanted d →
    ∃ e', r.lookup lf (r.ownTree t e) (lf.nameHash d) = some e' ∧
      r.resolutions.getD e' none = r.resolutions.getD d none

section Layout
variable {lf : Lockfile V} {b : Builder}

theorem Inv.kept_eq (hplain : lf.Plain) (h : Inv lf b none) (i : Nat) :
    b.kept (b.entry i) = (b.entry i).dependencies := by
  refine List.filter_eq_self.mpr ?_
  intro d hd
  have := hplain.resolved d (h.ids i d hd)
  rwa [Lockfile.locked, ← h.resolutions] at this

/-- The tree of a placed package is where the builder starts its lookups. -/
theorem start_ownTree (t : Nat) (e : DependencyID) : b.Start t e (b.result.ownTree t e) := by
  unfold HoistResult.ownTree
  simp only [result_parent, result_dependencyId, result_length]
  cases hfind : (List.range b.list.length).find? fun i =>
      decide (b.parent i = some t) && decide ((b.entry i).dependencyId = some e) with
  | none =>
    refine .inr ⟨rfl, ?_⟩
    intro i hi
    have := List.find?_eq_none.mp hfind i (List.mem_range.mpr (b.lt_length_of_parent hi.1))
    simp only [hi.1, hi.2, decide_true, Bool.and_self, not_true_eq_false] at this
  | some i =>
    have hi := List.find?_some hfind
    simp only [Bool.and_eq_true, decide_eq_true_eq] at hi
    exact .inl hi

/-- At the end of a run the invariant is the layout. -/
theorem Inv.right (hplain : lf.Plain) (h : Inv lf b none) (hq : b.queue = []) :
    b.result.Right lf fun d => (lf.dep d).hasSafeName = true := by
  have hentries (i : Nat) : b.result.entries i = (b.entry i).dependencies := by
    rw [result_entries, h.kept_eq hplain]
  have hres : b.result.resolutions = lf.resolutions := h.resolutions
  refine ⟨?_, ?_, ?_⟩
  · intro i hi
    rw [result_length] at hi
    refine ⟨by rw [result_tree b hi]; rfl, ?_⟩
    intro p hp
    rw [result_parent] at hp
    exact h.smaller i p hp
  · intro i
    rw [hentries]
    exact List.pairwise_map.mpr (h.names i)
  · intro t e p d he hp hd hsafe
    rw [hentries] at he
    rw [hres] at hp
    have hserved : b.Served lf none t e (b.result.ownTree t e) p d :=
      ⟨he, by rintro ⟨item, hitem, -⟩; rw [hq] at hitem; exact absurd hitem (by simp), by simp,
        start_ownTree t e, hp, hd, hsafe⟩
    obtain ⟨j, a, hfind, ha⟩ := h.done t e _ p d hserved
    refine ⟨a, ?_, by rw [hres]; exact ha⟩
    have hclimb := hfind.climb_eq h.smaller (Nat.lt_succ_self _)
    unfold HoistResult.lookup
    simp only [result_parent, hentries]
    exact congrArg (Option.map Prod.snd) hclimb

end Layout

/-- The layout of a run in which no placement hides a name. -/
theorem hoist_right (hplain : lf.Plain) (hquiet : ∀ n, QuietTurn lf (hoistRun lf lf.resolutions n))
    (fuel : Nat) (h : hoist lf lf.resolutions fuel = some r) :
    r.Right lf fun d => (lf.dep d).hasSafeName = true := by
  obtain ⟨hq, rfl⟩ := hoist_eq_some h
  exact (inv_hoistRun hplain hquiet fuel).right hplain hq

/-- **The layout without bundled dependencies.** -/
theorem hoist_layout (lf : Lockfile V) (hplain : lf.Plain)
    (hbundled : ∀ d < lf.dependencies.length, (lf.dep d).behavior.isBundled = false) (fuel : Nat)
    {r : HoistResult} (h : hoist lf lf.resolutions fuel = some r) :
    r.Right lf fun d => (lf.dep d).hasSafeName = true := by
  refine hoist_right hplain (fun n => ?_) fuel h
  intro item queue p hq hroot
  have hmem : item ∈ (hoistRun lf lf.resolutions n).queue := by
    rw [hq]
    exact List.mem_cons_self
  exact absurd (hoistRootId_eq_none lf hbundled lf.resolutions n item hmem) hroot

/-! ### Small lockfiles -/

/-- A production dependency; its hash is its first byte. -/
def prodDependency (name : List UInt8) : Dependency Nat where
  name := name
  nameHash := name.head!.toUInt64
  behavior := { prod := true, optional := false, dev := false, peer := false,
                workspace := false, bundled := false }
  version := .npm fun _ => true

def bundledDependency (name : List UInt8) : Dependency Nat :=
  { prodDependency name with
    behavior := { (prodDependency name).behavior with bundled := true } }

/-- An npm package with `len` dependencies from `off` on. -/
def npmPackage (off len : Nat) : Package Nat where
  resolution := .npm 0
  dependencies := ⟨off, len⟩
  resolutions := ⟨off, len⟩

/-- The root needs `a` and `b`; `b` needs another version of `a`. -/
def nestedLockfile : Lockfile Nat where
  packages := [npmPackage 0 2, npmPackage 2 0, npmPackage 2 1, npmPackage 3 0]
  dependencies := [prodDependency [97], prodDependency [98], prodDependency [97]]
  resolutions := [some 1, some 2, some 3]
  catalogs := fun _ _ => none
  root_mem := by decide
  sizes := by decide
  ranges := by decide
  targets := by simp

theorem hoist_layout_nested : ∃ r, hoist nestedLockfile nestedLockfile.resolutions 1 = some r ∧
    r.Right nestedLockfile fun d => (nestedLockfile.dep d).hasSafeName = true :=
  ⟨_, rfl, hoist_layout nestedLockfile ⟨by decide, by decide, by decide, by decide⟩ (by decide)
    1 rfl⟩

/-- The root needs `a`; `a` needs `../x`. -/
def escapingLockfile : Lockfile Nat where
  packages := [npmPackage 0 1, npmPackage 1 1, npmPackage 2 0]
  dependencies := [prodDependency [97], prodDependency [46, 46, 47, 120]]
  resolutions := [some 1, some 2]
  catalogs := fun _ _ => none
  root_mem := by decide
  sizes := by decide
  ranges := by decide
  targets := by simp

/-- A dependency with an unsafe name is found nowhere. -/
theorem hoist_layout_unsafe_ne : escapingLockfile.Plain ∧
    (∀ d < escapingLockfile.dependencies.length,
      (escapingLockfile.dep d).behavior.isBundled = false) ∧
    ∃ r, hoist escapingLockfile escapingLockfile.resolutions 1 = some r ∧
      ¬ r.Right escapingLockfile fun _ => True := by
  refine ⟨⟨by decide, by decide, by decide, by decide⟩, by decide, _, rfl, ?_⟩
  intro hright
  obtain ⟨e, he, -⟩ := hright.finds 0 0 1 1 (by decide) (by decide) (by decide) trivial
  have hnone : (hoistRun escapingLockfile escapingLockfile.resolutions 1).result.lookup
      escapingLockfile 0 (escapingLockfile.nameHash 1) = none := by decide
  exact absurd (hnone.symm.trans he) (by simp)

/-! ## Bundled dependencies -/

/-- **The layout with bundled dependencies**: it is right when every name is a
safe folder name and no placement at a hoist root hides the name from a package
that was served through it. -/
theorem hoist_layout_bundled (lf : Lockfile V) (hplain : lf.Plain)
    (hsafe : ∀ d < lf.dependencies.length, (lf.dep d).hasSafeName = true)
    (hquiet : ∀ n, QuietTurn lf (hoistRun lf lf.resolutions n)) (fuel : Nat) {r : HoistResult}
    (h : hoist lf lf.resolutions fuel = some r) : r.Right lf fun _ => True := by
  have hright := hoist_right hplain hquiet fuel h
  refine ⟨hright.parents, hright.names, ?_⟩
  intro t e p d he hp hd _
  exact hright.finds t e p d he hp hd (hsafe d (lf.mem_range_lt hd))

/-- Nothing is hidden when a name has one version. -/
theorem quietTurn_of_one_version (hone : ∀ d < lf.dependencies.length, ∀ d' < lf.dependencies.length,
      lf.nameHash d = lf.nameHash d' → lf.locked d = lf.locked d') (b : Builder) :
    QuietTurn lf b := by
  intro item queue p _ _ _
  have hloop (v : Nat) (cur : Option (Nat × DependencyID)) (root : Option Nat)
      (ds : List DependencyID) : ∀ b : Builder, (∀ d ∈ ds, d ∈ (lf.resolutionList p).ids) →
        QuietLoop lf cur v root (lf.resolutionList p) b ds := by
    induction ds with
    | nil => exact fun _ _ => trivial
    | cons d ds ih =>
      intro b hmem
      refine ⟨?_, ih _ fun d' hd' => hmem d' (List.mem_cons_of_mem _ hd')⟩
      intro x _ _ _ t e s q d' hs hname _
      exact hone d (lf.mem_range_lt (hmem d List.mem_cons_self)) d' (lf.mem_range_lt hs.mem)
        hname.symm
  exact hloop _ _ _ _ _ fun d hd => lf.mem_sortBuf.mp hd

/-- The root needs `a`; `a` bundles `b`; `b` needs `y`, which goes to the tree of `a`. -/
def bundlingLockfile : Lockfile Nat where
  packages := [npmPackage 0 1, npmPackage 1 1, npmPackage 2 1, npmPackage 3 0]
  dependencies := [prodDependency [97], bundledDependency [98], prodDependency [121]]
  resolutions := [some 1, some 2, some 3]
  catalogs := fun _ _ => none
  root_mem := by decide
  sizes := by decide
  ranges := by decide
  targets := by simp

theorem hoist_layout_bundling :
    ∃ r, hoist bundlingLockfile bundlingLockfile.resolutions 2 = some r ∧
      r.Right bundlingLockfile fun _ => True :=
  ⟨_, rfl, hoist_layout_bundled bundlingLockfile ⟨by decide, by decide, by decide, by decide⟩
    (by decide) (fun _ => quietTurn_of_one_version (by decide) _) 2 rfl⟩

/-- The root needs `a`; `a` needs `x` and bundles `b`; `b` needs another `x`. -/
def shadowingLockfile : Lockfile Nat where
  packages := [npmPackage 0 1, npmPackage 1 2, npmPackage 3 1, npmPackage 4 0, npmPackage 4 0]
  dependencies := [prodDependency [97], prodDependency [120], bundledDependency [98],
    prodDependency [120]]
  resolutions := [some 1, some 3, some 2, some 4]
  catalogs := fun _ _ => none
  root_mem := by decide
  sizes := by decide
  ranges := by decide
  targets := by simp

/-- The other `x` goes to the tree of `a`, between `a` and the `x` it is locked to. -/
theorem hoist_layout_shadowing_ne : shadowingLockfile.Plain ∧
    (∀ d < shadowingLockfile.dependencies.length,
      (shadowingLockfile.dep d).hasSafeName = true) ∧
    ∃ r, hoist shadowingLockfile shadowingLockfile.resolutions 2 = some r ∧
      ¬ r.Right shadowingLockfile fun _ => True := by
  refine ⟨⟨by decide, by decide, by decide, by decide⟩, by decide, _, rfl, ?_⟩
  intro hright
  obtain ⟨e, he, hres⟩ := hright.finds 0 0 1 1 (by decide) (by decide) (by decide) trivial
  have hother : (hoistRun shadowingLockfile shadowingLockfile.resolutions 2).result.lookup
      shadowingLockfile 1 (shadowingLockfile.nameHash 1) = some 3 := by decide
  obtain rfl := Option.some.inj (hother.symm.trans he)
  exact absurd hres (by decide)

end OhosBun.Install
