/-
# `OhosBun.Install.Hoisting` — what one step of the hoister can do

The facts every argument about the hoister starts from, so that none of them
unfolds it again.

    hoistDependency_found    the name is held by a tree on the climb
    hoistDependency_missed   it is not: the dependency goes to the top
    entry_push, ...          the trees after an update
-/
import OhosBun.Lib.Scope
import OhosBun.Install.Tree

namespace OhosBun.Install

open OhosBun.Lib

namespace Builder
variable {V : Type} (lf : Lockfile V) (b : Builder)

def parent (i : Nat) : Option Nat := (b.entry i).parent

/-- What a tree holds under a name. -/
def here (h : UInt64) (i : Nat) : Option DependencyID := (b.entry i).named lf h

/-- Ids grow from parent to child. -/
def ParentsSmaller : Prop := ∀ i p, b.parent i = some p → p < i

theorem cutAt_smaller {b : Builder} (hb : b.ParentsSmaller) (stop : Option Nat) :
    ∀ i p, cutAt b.parent stop i = some p → p < i :=
  fun i p h => hb i p (cutAt_eq_some h)

theorem here_eq_some {h : UInt64} {i : Nat} {d : DependencyID} (hd : b.here lf h i = some d) :
    d ∈ (b.entry i).dependencies ∧ lf.nameHash d = h :=
  ⟨List.mem_of_find?_eq_some hd, by simpa using List.find?_some hd⟩

theorem here_eq_none {h : UInt64} {i : Nat} :
    b.here lf h i = none ↔ ∀ d ∈ (b.entry i).dependencies, lf.nameHash d ≠ h := by
  simp [here, BuilderEntry.named]

end Builder

/-! ## `hoist_dependency` -/

section HoistDependency
variable {V : Type} {lf : Lockfile V} {b : Builder} (hb : b.ParentsSmaller)
  {root : Option Nat} {pkg : Option PackageID} {d : DependencyID} {range : DependencySlice}
include hb

/-- Above the defining tree the first same-named entry decides. -/
theorem hoistDependency_above {i j : Nat} {a : DependencyID}
    (h : Finds (cutAt b.parent root) (b.here lf (lf.nameHash d)) i j a) :
    ∀ {fuel : Nat}, i < fuel →
      hoistDependency lf b root pkg d range false fuel i = onSameName lf b pkg d range j a := by
  induction h with
  | @here i a hi =>
    intro fuel hf
    cases fuel with
    | zero => exact absurd hf (Nat.not_lt_zero _)
    | succ fuel =>
      have hi' : (b.entry i).named lf (lf.nameHash d) = some a := hi
      rw [hoistDependency, hi']
  | @up i p j a hn hp _ ih =>
    intro fuel hf
    cases fuel with
    | zero => exact absurd hf (Nat.not_lt_zero _)
    | succ fuel =>
      have hn' : (b.entry i).named lf (lf.nameHash d) = none := hn
      have hlt := Builder.cutAt_smaller hb root i p hp
      have hpar : (b.entry i).parent = some p := cutAt_eq_some hp
      have hroot : some i ≠ root := by
        rintro rfl
        simp [cutAt] at hp
      simp only [hoistDependency, hn', hpar, if_neg hroot, ih (by omega : p < fuel),
        Bool.not_false, Bool.true_or, if_true]

/-- The name is held by a tree on the climb. -/
theorem hoistDependency_found {i j : Nat} {a : DependencyID}
    (h : Finds (cutAt b.parent root) (b.here lf (lf.nameHash d)) i j a) :
    hoistDependency lf b root pkg d range true (i + 1) i =
      if j ≠ i ∧ onSameName lf b pkg d range j a = .dependencyLoop then .placement i false
      else onSameName lf b pkg d range j a := by
  cases h with
  | here hi =>
    have hi' : (b.entry i).named lf (lf.nameHash d) = some a := hi
    rw [hoistDependency, hi', if_neg (by simp)]
  | @up _ p _ _ hn hp hfind =>
    have hn' : (b.entry i).named lf (lf.nameHash d) = none := hn
    have hlt := Builder.cutAt_smaller hb root i p hp
    have hle := hfind.le (Builder.cutAt_smaller hb root)
    have hpar : (b.entry i).parent = some p := cutAt_eq_some hp
    have hroot : some i ≠ root := by
      rintro rfl
      simp [cutAt] at hp
    have hji : j ≠ i := by omega
    simp only [hoistDependency, hn', hpar, if_neg hroot, hoistDependency_above hb hfind hlt,
      Bool.not_true, Bool.false_or, decide_eq_true_eq, hji, ne_eq, not_false_eq_true, true_and]
    split <;> simp_all

/-- The name is held by no tree up to the hoist root: the dependency goes there. -/
theorem hoistDependency_missed {i top : Nat}
    (h : Passes (cutAt b.parent root) (b.here lf (lf.nameHash d)) i top)
    (htop : cutAt b.parent root top = none) : ∀ {fuel : Nat} (asDefined : Bool), i < fuel →
      hoistDependency lf b root pkg d range asDefined fuel i = .placement top false := by
  induction h with
  | @here i hi =>
    intro fuel asDefined hf
    cases fuel with
    | zero => exact absurd hf (Nat.not_lt_zero _)
    | succ fuel =>
      have hi' : (b.entry i).named lf (lf.nameHash d) = none := hi
      cases hpar : (b.entry i).parent with
      | none => simp only [hoistDependency, hi', hpar]
      | some p =>
        have hroot : some i = root := by
          by_contra hne
          simp [cutAt, hne, Builder.parent, hpar] at htop
        simp only [hoistDependency, hi', hpar, if_pos hroot]
  | @up i p j hn hp _ ih =>
    intro fuel asDefined hf
    cases fuel with
    | zero => exact absurd hf (Nat.not_lt_zero _)
    | succ fuel =>
      have hn' : (b.entry i).named lf (lf.nameHash d) = none := hn
      have hlt := Builder.cutAt_smaller hb root i p hp
      have hpar : (b.entry i).parent = some p := cutAt_eq_some hp
      have hroot : some i ≠ root := by
        rintro rfl
        simp [cutAt] at hp
      simp only [hoistDependency, hn', hpar, if_neg hroot, ih htop false (by omega : p < fuel)]
      simp

/-- Every outcome of `hoist_dependency`. -/
theorem hoistDependency_cases (lf : Lockfile V) (root : Option Nat) (pkg : Option PackageID)
    (d : DependencyID) (range : DependencySlice) (i : Nat) :
    (∃ j a, Finds (cutAt b.parent root) (b.here lf (lf.nameHash d)) i j a ∧
      hoistDependency lf b root pkg d range true (i + 1) i =
        if j ≠ i ∧ onSameName lf b pkg d range j a = .dependencyLoop then .placement i false
        else onSameName lf b pkg d range j a) ∨
    ∃ top, Passes (cutAt b.parent root) (b.here lf (lf.nameHash d)) i top ∧
      cutAt b.parent root top = none ∧
      hoistDependency lf b root pkg d range true (i + 1) i = .placement top false := by
  rcases finds_or_passes (Builder.cutAt_smaller hb root) i with ⟨j, a, h⟩ | ⟨top, h, htop⟩
  · exact .inl ⟨j, a, h, hoistDependency_found hb h⟩
  · exact .inr ⟨top, h, htop, hoistDependency_missed hb h htop true (Nat.lt_succ_self i)⟩

end HoistDependency

variable {V : Type} {b : Builder} {d : DependencyID} {range : DependencySlice} {v : Nat}
  {root : Option Nat}

theorem onSameName_ne_placement (lf : Lockfile V) (b : Builder) (pkg : Option PackageID)
    (d : DependencyID) (range : DependencySlice) (j : Nat) (a : DependencyID) (x : Nat) (bundled : Bool) :
    onSameName lf b pkg d range j a ≠ .placement x bundled := by
  unfold onSameName
  split
  · simp
  · simp
  · simp
  · split
    · simp
    · split
      · simp
      · split
        · split <;> simp
        · simp

/-- Only an unbound entry is replaced, by a bound dependency. -/
theorem onSameName_eq_resolveReplace {lf : Lockfile V} {pkg : Option PackageID} {j id : Nat}
    {a a' : DependencyID} (h : onSameName lf b pkg d range j a = .resolveReplace id a') :
    id = j ∧ a' = a ∧ b.resolution a = none ∧ ∃ p, pkg = some p := by
  unfold onSameName at h
  split at h
  · exact absurd h (by simp)
  · next hnone =>
      obtain ⟨rfl, rfl⟩ := HoistDependencyResult.resolveReplace.inj h
      exact ⟨rfl, rfl, hnone, _, rfl⟩
  · exact absurd h (by simp)
  · split at h
    · exact absurd h (by simp)
    · split at h
      · exact absurd h (by simp)
      · split at h
        · split at h <;> exact absurd h (by simp)
        · exact absurd h (by simp)

/-- What `process_subtree` decides about a dependency: nothing about trees and
queue, to replace an unbound peer of its name, or a place, the package's own tree
or one that does not hold its name. -/
theorem decideHoist_cases (lf : Lockfile V) (hb : b.ParentsSmaller) {r : HoistDependencyResult}
    (h : decideHoist lf v root range b d = some r) :
    (∀ id a, r ≠ .resolveReplace id a) ∧ (∀ id bundled, r ≠ .placement id bundled) ∨
    (∃ id a p, r = .resolveReplace id a ∧ id ≤ v ∧ b.here lf (lf.nameHash d) id = some a ∧
      b.resolution a = none ∧ b.resolution d = some p) ∨
    ∃ id bundled, r = .placement id bundled ∧
      (id = v ∨ id ≤ v ∧ b.here lf (lf.nameHash d) id = none) := by
  have hhoist {r : HoistDependencyResult}
      (hr : hoistDependency lf b root (b.resolution d) d range true (v + 1) v = r) :
      (∀ id a, r ≠ .resolveReplace id a) ∧ (∀ id bundled, r ≠ .placement id bundled) ∨
      (∃ id a p, r = .resolveReplace id a ∧ id ≤ v ∧ b.here lf (lf.nameHash d) id = some a ∧
        b.resolution a = none ∧ b.resolution d = some p) ∨
      ∃ id bundled, r = .placement id bundled ∧
        (id = v ∨ id ≤ v ∧ b.here lf (lf.nameHash d) id = none) := by
    rcases hoistDependency_cases hb lf root (b.resolution d) d range v with
      ⟨j, a, hfinds, heq⟩ | ⟨top, hpass, -, heq⟩
    · rw [heq] at hr
      split at hr
      · exact .inr (.inr ⟨v, false, hr.symm, .inl rfl⟩)
      · by_cases hreplace : ∃ id a', r = .resolveReplace id a'
        · obtain ⟨id, a', rfl⟩ := hreplace
          obtain ⟨rfl, rfl, hnone, p, hp⟩ := onSameName_eq_resolveReplace hr
          exact .inr (.inl ⟨_, _, p, rfl, hfinds.le (Builder.cutAt_smaller hb root),
            hfinds.here_eq, hnone, hp⟩)
        · refine .inl ⟨fun id a' h' => hreplace ⟨id, a', h'⟩, ?_⟩
          intro id bundled h'
          exact onSameName_ne_placement _ _ _ _ _ _ _ _ _ (hr.trans h')
    · exact .inr (.inr ⟨top, false, hr.symm.trans heq,
        .inr ⟨hpass.le (Builder.cutAt_smaller hb root), hpass.here_eq⟩⟩)
  unfold decideHoist at h
  simp only at h
  split at h
  · exact .inr (.inr ⟨v, true, (Option.some.inj h).symm, .inl rfl⟩)
  · split at h
    · split at h
      · exact hhoist (Option.some.inj h)
      · exact absurd h (by simp)
    · split at h
      · split at h
        · obtain rfl := Option.some.inj h
          exact .inl ⟨by simp, by simp⟩
        · split at h
          · exact absurd h (by simp)
          · exact .inr (.inr ⟨v, false, (Option.some.inj h).symm, .inl rfl⟩)
      · exact hhoist (Option.some.inj h)

/-- Only a bundled dependency is placed as one. -/
theorem decideHoist_ne_bundled (lf : Lockfile V) {x : Nat} (hb : (lf.dep d).behavior.isBundled = false) :
    decideHoist lf v root range b d ≠ some (.placement x true) := by
  have hhoist (asDefined : Bool) (pkg : Option PackageID) : ∀ (fuel i : Nat),
      hoistDependency lf b root pkg d range asDefined fuel i ≠ .placement x true := by
    intro fuel
    induction fuel generalizing asDefined with
    | zero => intro i; simp [hoistDependency]
    | succ fuel ih =>
      intro i
      unfold hoistDependency
      split
      · exact onSameName_ne_placement _ _ _ _ _ _ _ _ _
      · split
        · simp
        · split
          · simp
          · simp only
            split
            · exact ih false _
            · simp
  unfold decideHoist
  simp only [hb, Bool.false_eq_true, if_false]
  split
  · split
    · exact fun h => hhoist _ _ _ _ (Option.some.inj h)
    · simp
  · split
    · split
      · simp
      · split <;> simp
    · exact fun h => hhoist _ _ _ _ (Option.some.inj h)

/-! ## Trees after an update -/

namespace Builder
variable (b : Builder)

@[simp] theorem push_resolutions (id : Nat) (d : DependencyID) :
    (b.push id d).resolutions = b.resolutions := rfl

@[simp] theorem push_queue (id : Nat) (d : DependencyID) : (b.push id d).queue = b.queue := rfl

@[simp] theorem replace_queue (id : Nat) (a d : DependencyID) :
    (b.replace id a d).queue = b.queue := rfl

@[simp] theorem push_length (id : Nat) (d : DependencyID) :
    (b.push id d).list.length = b.list.length := by
  simp [push]

variable {i id : Nat} {d : DependencyID}

theorem entry_of_ge (h : b.list.length ≤ i) : b.entry i = default :=
  List.getD_eq_default _ _ h

theorem entry_push (hid : id < b.list.length) (d : DependencyID) (i : Nat) :
    (b.push id d).entry i =
      if i = id then { b.entry i with dependencies := (b.entry i).dependencies ++ [d] }
      else b.entry i := by
  simp only [entry, push, List.getD_eq_getElem?_getD, List.getElem?_modify]
  by_cases hi : i = id
  · subst hi
    simp [hid]
  · have hi' : id ≠ i := fun h => hi h.symm
    simp [hi, hi']

theorem entry_replace (hid : id < b.list.length) (a d : DependencyID) (i : Nat) :
    (b.replace id a d).entry i =
      if i = id then
        { b.entry i with
          dependencies := (b.entry i).dependencies.map fun e => if e = a then d else e }
      else b.entry i := by
  simp only [entry, replace, List.getD_eq_getElem?_getD, List.getElem?_modify]
  by_cases hi : i = id
  · subst hi
    simp [hid]
  · have hi' : id ≠ i := fun h => hi h.symm
    simp [hi, hi']

/-- Only entries change; the parent links and owners do not. -/
theorem parent_push (hid : id < b.list.length) (d : DependencyID) (i : Nat) :
    (b.push id d).parent i = b.parent i := by
  rw [parent, entry_push b hid]
  split <;> rfl

theorem dependencyId_push (hid : id < b.list.length) (d : DependencyID) (i : Nat) :
    ((b.push id d).entry i).dependencyId = (b.entry i).dependencyId := by
  rw [entry_push b hid]
  split <;> rfl

theorem here_push {V : Type} (lf : Lockfile V) (hid : id < b.list.length)
    (hnone : b.here lf (lf.nameHash d) id = none) (h : UInt64) (i : Nat) :
    (b.push id d).here lf h i =
      if i = id ∧ lf.nameHash d = h then some d else b.here lf h i := by
  unfold here
  rw [entry_push b hid]
  by_cases hi : i = id
  · subst hi
    by_cases hh : lf.nameHash d = h
    · subst hh
      have hnone' : (b.entry i).named lf (lf.nameHash d) = none := hnone
      simp only [BuilderEntry.named, List.find?_eq_none, decide_eq_true_eq] at hnone'
      simp only [BuilderEntry.named, if_true, true_and, List.find?_append]
      rw [List.find?_eq_none.mpr (by simpa using hnone')]
      simp
    · simp [BuilderEntry.named, hh, List.find?_append]
  · simp [hi]

theorem entry_openTree {p : Option Nat} {o : Option DependencyID} :
    (b.openTree p o).entry i = if i = b.list.length then ⟨p, o, []⟩ else b.entry i := by
  simp only [entry, openTree, List.getD_eq_getElem?_getD]
  rcases Nat.lt_trichotomy i b.list.length with hi | rfl | hi
  · rw [List.getElem?_append_left hi, if_neg hi.ne]
  · simp
  · rw [if_neg hi.ne', List.getElem?_eq_none (by simp; omega), List.getElem?_eq_none (by omega)]

theorem entry_dropLast :
    ({ b with list := b.list.dropLast } : Builder).entry i =
      if i + 1 < b.list.length then b.entry i else default := by
  simp only [entry, List.getD_eq_getElem?_getD, List.getElem?_dropLast]
  by_cases hi : i + 1 < b.list.length
  · rw [if_pos (by omega), if_pos hi]
  · rw [if_neg (by omega), if_neg hi]
    rfl

section Enqueue
variable {V : Type} (lf : Lockfile V) (p : Option PackageID) (item : FillItem)

@[simp] theorem enqueue_list : (b.enqueue lf p item).list = b.list := by
  unfold enqueue
  split
  · rfl
  · split <;> rfl

@[simp] theorem enqueue_resolutions : (b.enqueue lf p item).resolutions = b.resolutions := by
  unfold enqueue
  split
  · rfl
  · split <;> rfl

@[simp] theorem entry_enqueue (i : Nat) : (b.enqueue lf p item).entry i = b.entry i := by
  rw [entry, enqueue_list, entry]

/-- The item is added when its package has dependencies. -/
theorem queue_enqueue :
    (b.enqueue lf p item).queue = b.queue ++ [item] ∨
      (b.enqueue lf p item).queue = b.queue ∧ ∀ q, p = some q → (lf.resolutionList q).len = 0 := by
  unfold enqueue
  cases p with
  | none => exact .inr ⟨rfl, by simp⟩
  | some q =>
    simp only
    split
    · exact .inl rfl
    · next h =>
        refine .inr ⟨rfl, ?_⟩
        intro q' hq
        obtain rfl := Option.some.inj hq
        omega

end Enqueue

/-- An entry is in a tree of the list. -/
theorem lt_length_of_mem (h : d ∈ (b.entry i).dependencies) :
    i < b.list.length := by
  by_contra hge
  rw [entry_of_ge b (by omega)] at h
  exact absurd h (by show d ∉ []; simp)

theorem lt_length_of_parent {p : Nat} (h : b.parent i = some p) : i < b.list.length := by
  by_contra hge
  rw [parent, entry_of_ge b (by omega)] at h
  exact absurd h (by show none ≠ _; simp)

end Builder

/-! ## Placements -/

section Place
variable {V : Type} {lf : Lockfile V} {b : Builder} {d : DependencyID} {item : FillItem}

/-- The builder after a placement. -/
def place (lf : Lockfile V) (b : Builder) (d : DependencyID) (item : FillItem) : Builder :=
  (b.push item.treeId d).enqueue lf (b.resolution d) item

theorem place_parent (hx : item.treeId < b.list.length) (i : Nat) :
    (place lf b d item).parent i = b.parent i := by
  rw [Builder.parent, place, Builder.entry_enqueue, ← Builder.parent, b.parent_push hx]

theorem place_here (hx : item.treeId < b.list.length)
    (hnone : b.here lf (lf.nameHash d) item.treeId = none) (h : UInt64) (i : Nat) :
    (place lf b d item).here lf h i =
      if i = item.treeId ∧ lf.nameHash d = h then some d else b.here lf h i := by
  rw [Builder.here, place, Builder.entry_enqueue]
  exact b.here_push lf hx hnone h i

end Place

/-! ## Every outcome of an iteration -/

namespace Builder
variable (b : Builder)

theorem resolution_set {r : Option PackageID} (a e : DependencyID) :
    (b.resolutions.set a r).getD e none =
      if a = e ∧ e < b.resolutions.length then r else b.resolution e := by
  simp only [resolution, List.getD_eq_getElem?_getD, List.getElem?_set]
  by_cases hae : a = e
  · subst hae
    by_cases hlt : a < b.resolutions.length
    · simp [hlt]
    · simp [hlt]
  · simp [hae]

/-- What is bound stays bound. -/
def BoundIn (b b' : Builder) : Prop := ∀ e, b'.resolution e = none → b.resolution e = none

theorem boundIn_refl : b.BoundIn b := fun _ h => h

theorem BoundIn.trans {b b' b'' : Builder} (h : b.BoundIn b') (h' : b'.BoundIn b'') :
    b.BoundIn b'' :=
  fun e he => h e (h' e he)

/-- Binding a dependency. -/
theorem boundIn_set {b' : Builder} {a : DependencyID} {r : PackageID}
    (h : b'.resolutions = b.resolutions.set a (some r)) : b.BoundIn b' := by
  intro e he
  rw [resolution, h, resolution_set] at he
  split at he
  · exact absurd he (by simp)
  · exact he

theorem boundIn_bindPending (h : UInt64) (r : PackageID) : b.BoundIn (b.bindPending h (some r)) := by
  unfold bindPending
  split
  · exact b.boundIn_refl
  · next peers _ =>
      intro e he
      have hfold : ∀ (ds : List DependencyID) (rs : List (Option PackageID)),
          (ds.foldl (fun rs d => rs.set d (some r)) rs).getD e none = none →
            rs.getD e none = none := by
        intro ds
        induction ds with
        | nil => exact fun _ h => h
        | cons d ds ih =>
          intro rs hrs
          have := ih _ hrs
          have hset := resolution_set { b with resolutions := rs } (r := some r) d e
          rw [hset] at this
          split at this
          · exact absurd this (by simp)
          · exact this
      exact hfold peers b.resolutions he

@[simp] theorem bindPending_list (h : UInt64) (r : Option PackageID) :
    (b.bindPending h r).list = b.list := by
  unfold bindPending
  split <;> rfl

@[simp] theorem bindPending_queue (h : UInt64) (r : Option PackageID) :
    (b.bindPending h r).queue = b.queue := by
  unfold bindPending
  split <;> rfl

/-- The dependency takes the place of the unbound peer, which is bound to its
package. -/
theorem apply_resolveReplace {V : Type} (lf : Lockfile V) {root : Option Nat} {d : DependencyID}
    {id : Nat} {a : DependencyID} {p : PackageID} (hp : b.resolution d = some p) :
    (b.apply lf root d (.resolveReplace id a)).list = (b.replace id a d).list ∧
      ((b.apply lf root d (.resolveReplace id a)).queue = b.queue ++ [⟨id, d, root⟩] ∨
        (b.apply lf root d (.resolveReplace id a)).queue = b.queue) ∧
      b.BoundIn (b.apply lf root d (.resolveReplace id a)) := by
  simp only [apply, hp, enqueue_list]
  refine ⟨?_, ?_, ?_⟩
  · simp only [replace, bindPending_list]
  · rcases queue_enqueue _ lf (some p) ⟨id, d, root⟩ with hq | ⟨hq, -⟩
    · exact .inl (hq.trans (by rw [replace_queue, bindPending_queue]))
    · exact .inr (hq.trans (by rw [replace_queue, bindPending_queue]))
  · intro e he
    rw [resolution, enqueue_resolutions] at he
    exact b.boundIn_set rfl e (boundIn_bindPending _ _ p e he)

end Builder

/-- What one iteration of the loop over a package's dependencies can do: leave
trees and queue alone, put the dependency in the place of an unbound peer of its
name, or place it, in the package's own tree or where its name is not. -/
theorem processDependency_cases (lf : Lockfile V) (hb : b.ParentsSmaller) (v : Nat) (root : Option Nat)
    (range : DependencySlice) (d : DependencyID) :
    (∃ b', processDependency lf v root range b d = b' ∧ b'.list = b.list ∧ b'.queue = b.queue ∧
      b.BoundIn b') ∨
    (∃ b' id a p, processDependency lf v root range b d = b' ∧ id ≤ v ∧
      b.here lf (lf.nameHash d) id = some a ∧ b.resolution a = none ∧ b.resolution d = some p ∧
      b'.list = (b.replace id a d).list ∧
      (b'.queue = b.queue ++ [⟨id, d, root⟩] ∨ b'.queue = b.queue) ∧ b.BoundIn b') ∨
    ∃ item, processDependency lf v root range b d = place lf b d item ∧ item.dependencyId = d ∧
      (item.treeId = v ∨ item.treeId ≤ v ∧ b.here lf (lf.nameHash d) item.treeId = none) := by
  unfold processDependency
  split
  · split
    · exact .inl ⟨b, rfl, rfl, rfl, b.boundIn_refl⟩
    · next r hdecide =>
        rcases decideHoist_cases lf hb hdecide with ⟨hreplace, hplace⟩ | hreplace | hplace
        · refine .inl ⟨_, rfl, ?_⟩
          cases r with
          | dependencyLoop => exact ⟨rfl, rfl, b.boundIn_refl⟩
          | hoisted => exact ⟨rfl, rfl, b.boundIn_refl⟩
          | resolve q =>
            refine ⟨Builder.bindPending_list _ _ _, Builder.bindPending_queue _ _ _, ?_⟩
            exact (b.boundIn_set rfl).trans (Builder.boundIn_bindPending _ _ q)
          | resolveReplace id a => exact absurd rfl (hreplace id a)
          | resolveLater => exact ⟨rfl, rfl, b.boundIn_refl⟩
          | rebind q => exact ⟨rfl, rfl, b.boundIn_set rfl⟩
          | placement id bundled => exact absurd rfl (hplace id bundled)
        · obtain ⟨id, a, p, rfl, hid, ha, hnone, hp⟩ := hreplace
          refine .inr (.inl ⟨_, id, a, p, rfl, hid, ha, hnone, hp, ?_⟩)
          exact b.apply_resolveReplace lf hp
        · obtain ⟨id, bundled, rfl, hid⟩ := hplace
          exact .inr (.inr ⟨⟨id, d, if bundled then some id else root⟩, rfl, rfl, hid⟩)
  · exact .inl ⟨_, rfl, rfl, rfl, b.boundIn_refl⟩

/-! ## What the queue receives -/

section Queue
variable {V : Type} (lf : Lockfile V)

theorem mem_queue_enqueue {b : Builder} {p : Option PackageID} {item i : FillItem}
    (h : i ∈ (b.enqueue lf p item).queue) : i ∈ b.queue ∨ i = item := by
  rcases b.queue_enqueue lf p item with hq | ⟨hq, -⟩
  · rw [hq] at h
    simpa using h
  · rw [hq] at h
    exact .inl h

/-- A new item has the hoist root of its package, or is bundled in it. -/
theorem mem_queue_processDependency {v : Nat} {root : Option Nat} {range : DependencySlice}
    {b : Builder} {d : DependencyID} {i : FillItem}
    (h : i ∈ (processDependency lf v root range b d).queue) :
    i ∈ b.queue ∨ i.hoistRootId = root ∨ (lf.dep d).behavior.isBundled = true := by
  unfold processDependency at h
  split at h
  · split at h
    · exact .inl h
    · next result hdecide =>
        cases result with
        | dependencyLoop => exact .inl h
        | hoisted => exact .inl h
        | resolve q =>
          simp only [Builder.apply, Builder.bindPending_queue] at h
          exact .inl h
        | resolveReplace id a =>
          simp only [Builder.apply] at h
          rcases mem_queue_enqueue lf h with h | rfl
          · rw [Builder.replace_queue, Builder.bindPending_queue] at h
            exact .inl h
          · exact .inr (.inl rfl)
        | resolveLater => exact .inl h
        | rebind q => exact .inl h
        | placement x bundled =>
          rcases mem_queue_enqueue lf h with h | rfl
          · exact .inl h
          · cases bundled with
            | false => exact .inr (.inl rfl)
            | true =>
              refine .inr (.inr ?_)
              by_contra hb
              exact absurd hdecide (decideHoist_ne_bundled lf (by simpa using hb))
  · exact .inl h

/-- Items keep the empty hoist root of the root when nothing is bundled. -/
theorem hoistRootId_eq_none (hbundled : ∀ d < lf.dependencies.length,
    (lf.dep d).behavior.isBundled = false) (resolutions : List (Option PackageID)) :
    ∀ n, ∀ i ∈ (hoistRun lf resolutions n).queue, i.hoistRootId = none := by
  have hloop (v : Nat) (p : PackageID) (ds : List DependencyID) :
      ∀ b : Builder, (∀ d ∈ ds, d ∈ (lf.resolutionList p).ids) →
        (∀ i ∈ b.queue, i.hoistRootId = none) →
        ∀ i ∈ (ds.foldl (processDependency lf v none (lf.resolutionList p)) b).queue,
          i.hoistRootId = none := by
    induction ds with
    | nil => exact fun b _ hb => hb
    | cons d ds ih =>
      intro b hmem hb
      refine ih _ (fun d' hd' => hmem d' (List.mem_cons_of_mem _ hd')) ?_
      intro i hi
      rcases mem_queue_processDependency lf hi with hi | hi | hi
      · exact hb i hi
      · exact hi
      · rw [hbundled d (lf.mem_range_lt (hmem d List.mem_cons_self))] at hi
        exact absurd hi (by simp)
  have hsubtree (b : Builder) (parent : Option Nat) (owner : Option DependencyID)
      (hb : ∀ i ∈ b.queue, i.hoistRootId = none) :
      ∀ i ∈ (processSubtree lf parent owner none b).queue, i.hoistRootId = none := by
    unfold processSubtree
    split
    · exact hb
    · next p _ =>
        simp only
        split
        · exact hb
        · have hl := hloop b.list.length p (lf.sortBuf (lf.resolutionList p))
            (b.openTree parent owner) (fun d hd => lf.mem_sortBuf.mp hd) hb
          split
          · exact hl
          · exact hl
  intro n
  induction n with
  | zero => exact hsubtree _ none none (by show ∀ i ∈ [], _; simp)
  | succ n ih =>
    rw [hoistRun, Function.iterate_succ_apply']
    show ∀ i ∈ (hoistStep lf (hoistRun lf resolutions n)).queue, _
    unfold hoistStep
    split
    · exact ih
    · next item queue hq =>
        rw [hq] at ih
        rw [ih item List.mem_cons_self]
        exact hsubtree _ _ _ fun i hi => ih i (List.mem_cons_of_mem _ hi)

end Queue

end OhosBun.Install
