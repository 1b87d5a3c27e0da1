/-
# `OhosBun.Install.Termination` — when the queue loop ends

`process_subtree` guards folder packages against nesting in themselves: an
ancestor that is the folder of the same package under the same name.  Nothing
guards the others, and two names with two versions each can nest for ever
(`hoist_terminates_alternating_ne`).  What the loop needs is the guard's own
condition, with a bound in place of zero: it ends exactly when the folders of one
package under one name are nested in each other at most `k` deep
(`hoist_terminates`).

The measure: a tree at depth `n` has a slot for each name it does not hold and
for each unbound peer in it, a slot pays for one item in the queue, and an item
pays for the tree it opens, one level down.
-/
import Mathlib.Algebra.BigOperators.Group.Finset.Basic
import Mathlib.Algebra.Order.BigOperators.Group.Finset
import Mathlib.Algebra.Ring.Nat
import Mathlib.Order.OrderIsoNat
import OhosBun.Install.NodeModules

namespace OhosBun.Install

open OhosBun.Lib

/-! ## Nesting -/

namespace Builder
variable (b : Builder)

/-- The dependencies whose folders a tree is in, its own first. -/
def owners : (fuel : Nat) → (i : Nat) → List DependencyID
  | 0, _ => []
  | fuel + 1, i =>
    (b.entry i).dependencyId.toList ++
      match b.parent i with
      | some p => owners fuel p
      | none => []

/-- How many folders a tree is in. -/
def depth (i : Nat) : Nat := (b.owners (i + 1) i).length

/-- How often tree `i` is in the folder of a package under a name. -/
def nested {V : Type} (lf : Lockfile V) (p : PackageID) (h : UInt64) (i : Nat) : Nat :=
  (b.owners (i + 1) i).countP fun a => b.resolution a = some p && lf.nameHash a = h

/-- How often the next item of the queue is nested in its own package and name. -/
def nesting {V : Type} (lf : Lockfile V) : Nat :=
  match b.queue with
  | [] => 0
  | item :: _ =>
    match b.resolution item.dependencyId with
    | none => 0
    | some p => b.nested lf p (lf.nameHash item.dependencyId) item.treeId

variable {b}

theorem owners_fuel (hb : b.ParentsSmaller) : ∀ (fuel i : Nat), i < fuel →
    b.owners fuel i = b.owners (i + 1) i
  | 0, _, h => absurd h (Nat.not_lt_zero _)
  | fuel + 1, i, h => by
    cases hp : b.parent i with
    | none => simp only [owners, hp]
    | some p =>
      have hlt := hb i p hp
      have hle : i ≤ fuel := Nat.lt_succ_iff.mp h
      simp only [owners, hp]
      rw [owners_fuel hb fuel p (hlt.trans_le hle), owners_fuel hb i p hlt]

/-- The folders a tree is in are decided by the trees up to it. -/
theorem owners_congr {b' : Builder} (hb : b.ParentsSmaller) : ∀ (fuel i : Nat),
    (∀ j ≤ i, b'.parent j = b.parent j ∧
      (b'.entry j).dependencyId = (b.entry j).dependencyId) →
    b'.owners fuel i = b.owners fuel i
  | 0, _, _ => rfl
  | fuel + 1, i, h => by
    obtain ⟨hpar, hown⟩ := h i le_rfl
    unfold owners
    rw [hpar, hown]
    cases hp : b.parent i with
    | none => rfl
    | some p =>
      have hlt := hb i p hp
      simp only
      rw [owners_congr hb fuel p fun j hj => h j (hj.trans hlt.le)]

end Builder

/-! ## The measure -/

/-- What an item pays when `n` levels are left below it; `D` is the number of
dependencies. -/
def weight (D : Nat) : Nat → Nat
  | 0 => 1
  | n + 1 => 1 + 2 * D * weight D n

theorem weight_pos (D n : Nat) : 0 < weight D n := by
  cases n <;> simp [weight]

namespace Builder
variable {V : Type} (lf : Lockfile V) (b : Builder)

/-- The dependencies whose name tree `i` does not hold. -/
def free (i : Nat) : Finset Nat :=
  (Finset.range lf.dependencies.length).filter fun d => b.here lf (lf.nameHash d) i = none

def unbound (i : Nat) : Nat := (b.entry i).dependencies.countP fun d => b.resolution d = none

def slots (i : Nat) : Nat := (b.free lf i).card + b.unbound i

/-- What each item of a tree pays, with `L` levels in all. -/
def price (L i : Nat) : Nat := weight lf.dependencies.length (L - b.depth i)

def potential (L : Nat) : Nat :=
  (b.queue.map fun item => b.price lf L item.treeId).sum +
    ∑ i ∈ Finset.range b.list.length, b.slots lf i * b.price lf L i

end Builder

/-- One summand falls by `c` and rises by `r`, the others do not rise. -/
theorem sum_add_le_sum_add {n k : Nat} (hk : k < n) {f g : Nat → Nat} {c r : Nat}
    (hle : ∀ i < n, i ≠ k → f i ≤ g i) (hkk : f k + c ≤ g k + r) :
    ∑ i ∈ Finset.range n, f i + c ≤ ∑ i ∈ Finset.range n, g i + r := by
  have hmem : k ∈ Finset.range n := Finset.mem_range.mpr hk
  have hrest : ∑ i ∈ (Finset.range n).erase k, f i ≤ ∑ i ∈ (Finset.range n).erase k, g i := by
    refine Finset.sum_le_sum fun i hi => ?_
    obtain ⟨hne, hi⟩ := Finset.mem_erase.mp hi
    exact hle i (Finset.mem_range.mp hi) hne
  rw [← Finset.add_sum_erase _ f hmem, ← Finset.add_sum_erase _ g hmem]
  omega

theorem countP_add_one_le {α : Type*} {p q : α → Bool} {a : α} {l : List α}
    (h : ∀ x ∈ l, p x = true → q x = true) (ha : a ∈ l) (hp : p a = false) (hq : q a = true) :
    l.countP p + 1 ≤ l.countP q := by
  induction l with
  | nil => exact absurd ha List.not_mem_nil
  | cons x l ih =>
    have hl : ∀ y ∈ l, p y = true → q y = true := fun y hy => h y (List.mem_cons_of_mem _ hy)
    rcases List.mem_cons.mp ha with rfl | ha
    · have hle := List.countP_mono_left hl
      rw [List.countP_cons_of_neg (by simp [hp]), List.countP_cons_of_pos hq]
      exact Nat.succ_le_succ hle
    · have ih := ih hl ha
      have hx := h x List.mem_cons_self
      rw [List.countP_cons, List.countP_cons]
      cases hpx : p x with
      | false => simp only [Bool.false_eq_true, if_false]; omega
      | true => simp only [hx hpx, if_true]; omega

namespace Builder
variable {V : Type} {lf : Lockfile V} {b b' : Builder}

/-- The same trees in the same folders; what they hold may differ. -/
structure SameFolders (b b' : Builder) : Prop where
  length_eq : b'.list.length = b.list.length
  parent_eq : ∀ i, b'.parent i = b.parent i
  owner_eq : ∀ i, (b'.entry i).dependencyId = (b.entry i).dependencyId

theorem SameFolders.smaller (h : b.SameFolders b') (hb : b.ParentsSmaller) :
    b'.ParentsSmaller :=
  fun i p hp => hb i p ((h.parent_eq i).symm.trans hp)

theorem SameFolders.owners_eq (h : b.SameFolders b') (hb : b.ParentsSmaller) (fuel i : Nat) :
    b'.owners fuel i = b.owners fuel i :=
  owners_congr hb fuel i fun j _ => ⟨h.parent_eq j, h.owner_eq j⟩

theorem SameFolders.price_eq (h : b.SameFolders b') (hb : b.ParentsSmaller) (L i : Nat) :
    b'.price lf L i = b.price lf L i := by
  rw [price, depth, h.owners_eq hb, price, depth]

variable {k i v n m d t : Nat} {item : FillItem} {p : Option Nat} {o : Option DependencyID}
  {queue : List FillItem}

/-- A change of one tree, and of the queue by items of that tree. -/
theorem SameFolders.potential_le (h : b.SameFolders b') (hb : b.ParentsSmaller) (hk : k < b.list.length)
    (new : List FillItem) (r : Nat) (hq : b'.queue = b.queue ++ new)
    (hnew : ∀ item ∈ new, item.treeId = k) (hother : ∀ i ≠ k, b'.slots lf i ≤ b.slots lf i)
    (hslots : b'.slots lf k + new.length ≤ b.slots lf k + r) (L : Nat) :
    b'.potential lf L ≤ b.potential lf L + r * b.price lf L k := by
  have hpaid : (new.map fun item => b.price lf L item.treeId).sum =
      new.length * b.price lf L k := by
    rw [List.map_congr_left fun item hi => by rw [hnew item hi], List.map_const',
      List.sum_replicate_nat]
  have hsum := sum_add_le_sum_add hk (f := fun i => b'.slots lf i * b.price lf L i)
    (g := fun i => b.slots lf i * b.price lf L i) (c := new.length * b.price lf L k)
    (r := r * b.price lf L k) (fun i _ hne => Nat.mul_le_mul_right _ (hother i hne)) (by
      simp only [← Nat.add_mul]
      exact Nat.mul_le_mul_right _ hslots)
  simp only [potential, h.price_eq hb, h.length_eq, hq, List.map_append, List.sum_append, hpaid]
  omega

/-- Binding unbinds no slot. -/
theorem BoundIn.unbound_le (h : b.BoundIn b')
    (hd : (b'.entry i).dependencies = (b.entry i).dependencies) : b'.unbound i ≤ b.unbound i := by
  rw [unbound, unbound, hd]
  refine List.countP_mono_left fun d _ hd => ?_
  simpa using h d (by simpa using hd)

theorem free_subset (h : ∀ e, (b'.here lf (lf.nameHash e) i = none) →
    b.here lf (lf.nameHash e) i = none) : b'.free lf i ⊆ b.free lf i := by
  intro e he
  obtain ⟨hlt, he⟩ := Finset.mem_filter.mp he
  exact Finset.mem_filter.mpr ⟨hlt, h e he⟩

theorem free_congr (h : b'.entry i = b.entry i) : b'.free lf i = b.free lf i := by
  have hhere (d : DependencyID) : b'.here lf (lf.nameHash d) i = b.here lf (lf.nameHash d) i := by
    rw [here, h, here]
  refine Finset.Subset.antisymm (free_subset fun d => ?_) (free_subset fun d => ?_)
  · exact ((hhere d).symm.trans ·)
  · exact ((hhere d).trans ·)

/-- What an iteration or more of the loop of tree `v` leaves as it is, and what
it pays: `n` prices of `v` at most. -/
structure Spends (lf : Lockfile V) (v n : Nat) (b b' : Builder) : Prop where
  folders : b.SameFolders b'
  filled : ∀ i, (b.entry i).dependencies ≠ [] → (b'.entry i).dependencies ≠ []
  items : ∀ item ∈ b'.queue, item ∈ b.queue ∨
    (b'.entry item.treeId).dependencies ≠ [] ∧ item.dependencyId < lf.dependencies.length
  paid : ∀ L, b'.potential lf L ≤ b.potential lf L + n * b.price lf L v

theorem Spends.trans {b'' : Builder} (hb : b.ParentsSmaller) (h : Spends lf v n b b')
    (h' : Spends lf v m b' b'') : Spends lf v (n + m) b b'' where
  folders := ⟨h'.folders.length_eq.trans h.folders.length_eq,
    fun i => (h'.folders.parent_eq i).trans (h.folders.parent_eq i),
    fun i => (h'.folders.owner_eq i).trans (h.folders.owner_eq i)⟩
  filled := fun i hi => h'.filled i (h.filled i hi)
  items := by
    intro item hi
    rcases h'.items item hi with hi | hi
    · rcases h.items item hi with hi | ⟨hne, hlt⟩
      · exact .inl hi
      · exact .inr ⟨h'.filled _ hne, hlt⟩
    · exact .inr hi
  paid := by
    intro L
    have h₁ := h.paid L
    have h₂ := h'.paid L
    rw [h.folders.price_eq hb] at h₂
    calc b''.potential lf L ≤ b'.potential lf L + m * b.price lf L v := h₂
      _ ≤ b.potential lf L + n * b.price lf L v + m * b.price lf L v := Nat.add_le_add_right h₁ _
      _ = b.potential lf L + (n + m) * b.price lf L v := by rw [Nat.add_mul, Nat.add_assoc]

theorem Spends.mono (h : Spends lf v n b b') (hnm : n ≤ m) : Spends lf v m b b' :=
  { h with
    paid := fun L => (h.paid L).trans (Nat.add_le_add_left (Nat.mul_le_mul_right _ hnm) _) }

/-- Peers are bound, trees and queue stay. -/
theorem spends_of_list_eq (hb : b.ParentsSmaller) (hv : v < b.list.length) (hlist : b'.list = b.list)
    (hqueue : b'.queue = b.queue) (hbound : b.BoundIn b') :
    Spends lf v 0 b b' := by
  have hentry (i : Nat) : b'.entry i = b.entry i := by rw [entry, hlist, entry]
  have hslots (i : Nat) : b'.slots lf i ≤ b.slots lf i := by
    rw [slots, slots, free_congr (hentry i)]
    exact Nat.add_le_add_left (hbound.unbound_le (by rw [hentry])) _
  have hfolders : b.SameFolders b' :=
    ⟨by rw [hlist], fun i => by rw [parent, hentry, parent], fun i => by rw [hentry]⟩
  refine ⟨hfolders, fun i => by rw [hentry]; exact id, fun item hi => .inl (hqueue ▸ hi), ?_⟩
  refine hfolders.potential_le hb hv [] 0 (by simpa using hqueue) (by simp) ?_ ?_
  · exact fun i _ => hslots i
  · simpa using hslots v

/-- One tree changes what it holds and enqueues some of it. -/
theorem spends_of_change (hb : b.ParentsSmaller) (hlen : b'.list.length = b.list.length)
    (hk : k < b.list.length) (hother : ∀ i ≠ k, b'.entry i = b.entry i) (l : List DependencyID)
    (hthere : b'.entry k = { b.entry k with dependencies := l }) (hl : l ≠ []) (hbound : b.BoundIn b')
    (new : List FillItem) (hqueue : b'.queue = b.queue ++ new)
    (hnew : ∀ item ∈ new, item.treeId = k ∧ item.dependencyId < lf.dependencies.length) (r : Nat)
    (hslots : b'.slots lf k + new.length ≤ b.slots lf k + r) (hr : r = 0 ∨ k = v) :
    Spends lf v r b b' := by
  have hfilled : (b'.entry k).dependencies ≠ [] := by
    rw [hthere]
    exact hl
  have hfolders : b.SameFolders b' := by
    refine ⟨hlen, fun i => ?_, fun i => ?_⟩
    · by_cases hi : i = k
      · rw [hi, parent, hthere, parent]
      · rw [parent, hother i hi, parent]
    · by_cases hi : i = k
      · rw [hi, hthere]
      · rw [hother i hi]
  refine ⟨hfolders, ?_, ?_, ?_⟩
  · intro i hi
    by_cases hik : i = k
    · exact hik ▸ hfilled
    · exact (hother i hik).symm ▸ hi
  · intro item hitem
    rw [hqueue] at hitem
    rcases List.mem_append.mp hitem with hitem | hitem
    · exact .inl hitem
    · obtain ⟨rfl, hlt⟩ := hnew item hitem
      exact .inr ⟨hfilled, hlt⟩
  · intro L
    have hle : b'.potential lf L ≤ b.potential lf L + r * b.price lf L k := by
      refine hfolders.potential_le hb hk new r hqueue (fun item hi => (hnew item hi).1) ?_ hslots L
      intro i hi
      rw [slots, slots, free_congr (hother i hi)]
      exact Nat.add_le_add_left (hbound.unbound_le (by rw [hother i hi])) _
    rcases hr with rfl | rfl
    · simpa using hle
    · exact hle

/-- A bound dependency takes the place of an unbound peer of its name. -/
theorem spends_of_replace {id : Nat} {a p : Nat} {root : Option Nat} (hb : b.ParentsSmaller)
    (ha : b.here lf (lf.nameHash d) id = some a) (hnone : b.resolution a = none)
    (hp : b.resolution d = some p) (hd : d < lf.dependencies.length)
    (hlist : b'.list = (b.replace id a d).list)
    (hqueue : b'.queue = b.queue ++ [⟨id, d, root⟩] ∨ b'.queue = b.queue) (hbound : b.BoundIn b') :
    Spends lf v 0 b b' := by
  obtain ⟨hmem, hname⟩ := b.here_eq_some lf ha
  have hid : id < b.list.length := b.lt_length_of_mem hmem
  have hentry (i : Nat) : b'.entry i = (b.replace id a d).entry i := by rw [entry, hlist, entry]
  have hother (i : Nat) (hi : i ≠ id) : b'.entry i = b.entry i := by
    rw [hentry, b.entry_replace hid, if_neg hi]
  have hthere : b'.entry id = { b.entry id with
      dependencies := (b.entry id).dependencies.map fun e => if e = a then d else e } := by
    rw [hentry, b.entry_replace hid, if_pos rfl]
  have hfree : b'.free lf id ⊆ b.free lf id := by
    refine free_subset fun e he => ?_
    rw [b'.here_eq_none lf, hthere] at he
    rw [b.here_eq_none lf]
    intro x hx
    have hx' := he _ (List.mem_map_of_mem hx)
    by_cases hxa : x = a
    · simpa [hxa, hname] using hx'
    · simpa [hxa] using hx'
  have hunbound : b'.unbound id + 1 ≤ b.unbound id := by
    rw [unbound, unbound, hthere]
    simp only [List.countP_map]
    refine countP_add_one_le ?_ hmem ?_ (by simpa using hnone)
    · intro x _ hx
      by_cases hxa : x = a
      · simpa [hxa] using hnone
      · simpa using hbound x (by simpa [hxa] using hx)
    · cases hd' : b'.resolution d with
      | none => exact absurd ((hbound d hd').symm.trans hp) (by simp)
      | some q => simp [hd']
  have hslots : b'.slots lf id + 1 ≤ b.slots lf id := by
    have hcard := Finset.card_le_card hfree
    rw [slots, slots]
    omega
  have hlen : b'.list.length = b.list.length := by
    rw [hlist]
    simp [replace]
  have hl := List.ne_nil_of_mem (List.mem_map_of_mem (f := fun e => if e = a then d else e) hmem)
  rcases hqueue with hq | hq
  · exact spends_of_change hb hlen hid hother _ hthere hl hbound _ hq (by simpa using hd) 0 hslots
      (.inl rfl)
  · exact spends_of_change hb hlen hid hother _ hthere hl hbound [] (by simpa using hq) (by simp) 0
      ((Nat.le_succ _).trans hslots) (.inl rfl)

/-- A dependency is added to a tree: the tree of the loop, or one that does not
hold its name. -/
theorem spends_of_place (hb : b.ParentsSmaller) (hv : v < b.list.length) (hd : d < lf.dependencies.length)
    (hitem : item.dependencyId = d)
    (hid : item.treeId = v ∨ item.treeId ≤ v ∧ b.here lf (lf.nameHash d) item.treeId = none) :
    Spends lf v 1 b (place lf b d item) := by
  have hk : item.treeId < b.list.length := by
    rcases hid with h | ⟨h, -⟩
    · exact h ▸ hv
    · exact h.trans_lt hv
  have hentry (i : Nat) : (place lf b d item).entry i = (b.push item.treeId d).entry i :=
    entry_enqueue _ lf _ _ i
  have hother (i : Nat) (hi : i ≠ item.treeId) : (place lf b d item).entry i = b.entry i := by
    rw [hentry, b.entry_push hk, if_neg hi]
  have hthere : (place lf b d item).entry item.treeId = { b.entry item.treeId with
      dependencies := (b.entry item.treeId).dependencies ++ [d] } := by
    rw [hentry, b.entry_push hk, if_pos rfl]
  have hres (e : DependencyID) : (place lf b d item).resolution e = b.resolution e := by
    rw [resolution, place, enqueue_resolutions, push_resolutions, resolution]
  have hlen : (place lf b d item).list.length = b.list.length := by
    rw [place, enqueue_list, push_length]
  have hnames (e : DependencyID) (he : (place lf b d item).here lf (lf.nameHash e) item.treeId = none) :
      b.here lf (lf.nameHash e) item.treeId = none ∧ lf.nameHash d ≠ lf.nameHash e := by
    rw [here_eq_none, hthere] at he
    refine ⟨(b.here_eq_none lf).mpr fun x hx => he x (List.mem_append_left _ hx), ?_⟩
    exact he d (List.mem_append_right _ List.mem_cons_self)
  -- a name the tree did not hold is one slot less
  have hfree : ∃ r ≤ 1, ((place lf b d item).free lf item.treeId).card + 1 ≤
      (b.free lf item.treeId).card + r ∧ (r = 0 ∨ item.treeId = v) := by
    have hsub := free_subset fun e he => (hnames e he).1
    rcases hid with h | ⟨-, hnone⟩
    · exact ⟨1, le_rfl, Nat.succ_le_succ (Finset.card_le_card hsub), .inr h⟩
    · have hne : (place lf b d item).free lf item.treeId ≠ b.free lf item.treeId := by
        intro heq
        have hmem : d ∈ (place lf b d item).free lf item.treeId := by
          rw [heq]
          exact Finset.mem_filter.mpr ⟨Finset.mem_range.mpr hd, hnone⟩
        exact (hnames d (Finset.mem_filter.mp hmem).2).2 rfl
      have hlt := Finset.card_lt_card (Finset.ssubset_iff_subset_ne.mpr ⟨hsub, hne⟩)
      exact ⟨0, Nat.zero_le 1, hlt, .inl rfl⟩
  -- an unbound dependency is a slot of its own, a bound one may be enqueued
  have hunbound : ∃ new : List FillItem, (place lf b d item).queue = b.queue ++ new ∧
      (∀ i ∈ new, i = item) ∧
      (place lf b d item).unbound item.treeId + new.length ≤ b.unbound item.treeId + 1 := by
    have hcount : (place lf b d item).unbound item.treeId =
        b.unbound item.treeId + if b.resolution d = none then 1 else 0 := by
      simp only [unbound, hthere, hres, List.countP_append, List.countP_singleton,
        decide_eq_true_eq]
    cases hd' : b.resolution d with
    | none =>
      refine ⟨[], ?_, by simp, by simp [hcount, hd']⟩
      simp [place, enqueue, hd']
    | some q =>
      rcases queue_enqueue (b.push item.treeId d) lf (b.resolution d) item with hq | ⟨hq, -⟩
      · exact ⟨[item], hq, by simp, by simp [hcount, hd']⟩
      · exact ⟨[], hq.trans (List.append_nil _).symm, by simp, by simp [hcount, hd']⟩
  obtain ⟨r, hr, hcard, hrv⟩ := hfree
  obtain ⟨new, hqueue, hnew, hcount⟩ := hunbound
  have hslots : (place lf b d item).slots lf item.treeId + new.length ≤
      b.slots lf item.treeId + r := by
    rw [slots, slots]
    omega
  refine (spends_of_change hb hlen hk hother _ hthere (by simp) (fun e he => (hres e).symm.trans he)
    new hqueue ?_ r hslots hrv).mono hr
  intro i hi
  obtain rfl := hnew i hi
  exact ⟨rfl, hitem ▸ hd⟩

/-- One iteration. -/
theorem spends_processDependency (hb : b.ParentsSmaller) (hv : v < b.list.length)
    (hd : d < lf.dependencies.length) (root : Option Nat) (range : DependencySlice) :
    Spends lf v 1 b (processDependency lf v root range b d) := by
  rcases processDependency_cases lf hb v root range d with
    ⟨b', h, hlist, hqueue, hbound⟩ | ⟨b', id, a, p, h, -, ha, hnone, hp, hlist, hqueue, hbound⟩ |
    ⟨item, h, hitem, hid⟩
  · rw [h]
    exact (spends_of_list_eq hb hv hlist hqueue hbound).mono (Nat.zero_le 1)
  · rw [h]
    exact (spends_of_replace hb ha hnone hp hd hlist hqueue hbound).mono (Nat.zero_le 1)
  · rw [h]
    exact spends_of_place hb hv hd hitem hid

/-- The loop over a package's dependencies. -/
theorem spends_foldl (lf : Lockfile V) (root : Option Nat) (range : DependencySlice)
    (ds : List DependencyID) : ∀ {b : Builder}, b.ParentsSmaller → v < b.list.length →
      (∀ d ∈ ds, d < lf.dependencies.length) →
      Spends lf v ds.length b (ds.foldl (processDependency lf v root range) b) := by
  induction ds with
  | nil =>
    intro b hb hv _
    exact spends_of_list_eq hb hv rfl rfl b.boundIn_refl
  | cons d ds ih =>
    intro b hb hv hds
    have hone := spends_processDependency hb hv (hds d List.mem_cons_self) root range
    have hrest := ih (hone.folders.smaller hb) (hone.folders.length_eq.symm ▸ hv)
      fun d' hd' => hds d' (List.mem_cons_of_mem _ hd')
    rw [List.length_cons, Nat.add_comm]
    exact hone.trans hb hrest

/-! ## A turn -/

theorem owners_of_ge (h : b.list.length ≤ i) (fuel : Nat) : b.owners fuel i = [] := by
  cases fuel with
  | zero => rfl
  | succ fuel =>
    unfold owners parent
    rw [b.entry_of_ge h]
    rfl

theorem owners_openTree (hb : b.ParentsSmaller) (hi : i ≠ b.list.length) (fuel : Nat) :
    (b.openTree p o).owners fuel i = b.owners fuel i := by
  rcases Nat.lt_or_ge i b.list.length with hlt | hge
  · refine owners_congr hb fuel i fun j hj => ?_
    rw [parent, entry_openTree, if_neg (hj.trans_lt hlt).ne]
    exact ⟨rfl, rfl⟩
  · rw [owners_of_ge hge, owners_of_ge]
    simp only [openTree, List.length_append, List.length_singleton]
    omega

/-- A new tree is in the folder it opens and in those of its parent. -/
theorem owners_new (hb : b.ParentsSmaller) (ht : t < b.list.length) (o : DependencyID) :
    (b.openTree (some t) (some o)).owners (b.list.length + 1) b.list.length =
      o :: b.owners (t + 1) t := by
  have hentry : (b.openTree (some t) (some o)).entry b.list.length = ⟨some t, some o, []⟩ := by
    rw [entry_openTree, if_pos rfl]
  simp only [owners, parent, hentry, Option.toList_some, List.singleton_append]
  rw [owners_openTree hb ht.ne, owners_fuel hb _ _ ht]
  rfl

theorem smaller_openTree (hb : b.ParentsSmaller) (hp : ∀ t, p = some t → t < b.list.length) :
    (b.openTree p o).ParentsSmaller := by
  intro i t ht
  rw [parent, entry_openTree] at ht
  split at ht
  · next h => exact h ▸ hp t ht
  · exact hb i t ht

/-- No folder is entered more than `m` times on the way to a tree, and the queue
holds dependencies of trees that hold some. -/
structure Bounded (lf : Lockfile V) (m : Nat) (b : Builder) : Prop where
  smaller : b.ParentsSmaller
  items : ∀ item ∈ b.queue, (b.entry item.treeId).dependencies ≠ [] ∧
    item.dependencyId < lf.dependencies.length
  owners_lt : ∀ i, ∀ e ∈ b.owners (i + 1) i, e < lf.dependencies.length
  owners_count : ∀ i e, (b.owners (i + 1) i).count e ≤ m

theorem Bounded.treeId_lt (h : Bounded lf m b) (hi : item ∈ b.queue) :
    item.treeId < b.list.length := by
  obtain ⟨d, hd⟩ := List.exists_mem_of_ne_nil _ (h.items item hi).1
  exact b.lt_length_of_mem hd

theorem Bounded.depth_le (h : Bounded lf m b) (i : Nat) :
    b.depth i ≤ lf.dependencies.length * m := by
  have hsum := Multiset.sum_count_eq_card (s := Finset.range lf.dependencies.length)
    (m := (b.owners (i + 1) i : Multiset Nat))
    fun e he => Finset.mem_range.mpr (h.owners_lt i e (Multiset.mem_coe.mp he))
  rw [Multiset.coe_card] at hsum
  rw [depth, ← hsum]
  calc ∑ e ∈ Finset.range lf.dependencies.length, (b.owners (i + 1) i : Multiset Nat).count e
      ≤ (Finset.range lf.dependencies.length).card * m := by
        refine Finset.sum_le_card_nsmul _ _ m fun e _ => ?_
        rw [Multiset.coe_count]
        exact h.owners_count i e
    _ = lf.dependencies.length * m := by rw [Finset.card_range]

theorem Bounded.spends (h : Bounded lf m b) (hs : Spends lf v n b b') :
    Bounded lf m b' where
  smaller := hs.folders.smaller h.smaller
  items := by
    intro item hi
    rcases hs.items item hi with hi | hi
    · obtain ⟨hne, hlt⟩ := h.items item hi
      exact ⟨hs.filled _ hne, hlt⟩
    · exact hi
  owners_lt := by
    intro i e he
    rw [hs.folders.owners_eq h.smaller] at he
    exact h.owners_lt i e he
  owners_count := by
    intro i e
    rw [hs.folders.owners_eq h.smaller]
    exact h.owners_count i e

/-- A tree is opened in a folder that its owner is nested in less than `m` times. -/
theorem Bounded.openTree {o : Nat} (h : Bounded lf m b) (ht : t < b.list.length)
    (ho : o < lf.dependencies.length) (hm : (b.owners (t + 1) t).count o < m) :
    Bounded lf m (b.openTree (some t) (some o)) where
  smaller := smaller_openTree h.smaller fun t' ht' => Option.some.inj ht' ▸ ht
  items := by
    intro item hi
    rw [entry_openTree, if_neg (h.treeId_lt hi).ne]
    exact h.items item hi
  owners_lt := by
    intro i e he
    by_cases hi : i = b.list.length
    · rw [hi, owners_new h.smaller ht] at he
      rcases List.mem_cons.mp he with rfl | he
      · exact ho
      · exact h.owners_lt t e he
    · rw [owners_openTree h.smaller hi] at he
      exact h.owners_lt i e he
  owners_count := by
    intro i e
    by_cases hi : i = b.list.length
    · rw [hi, owners_new h.smaller ht, List.count_cons]
      by_cases heo : o = e
      · subst heo
        simpa using Nat.succ_le_of_lt hm
      · simpa [heo] using h.owners_count t e
    · rw [owners_openTree h.smaller hi]
      exact h.owners_count i e

/-- The new tree has a slot for every name. -/
theorem potential_openTree (h : Bounded lf m b) (p : Option Nat) (o : Option DependencyID) (L : Nat) :
    (b.openTree p o).potential lf L = b.potential lf L +
      lf.dependencies.length * (b.openTree p o).price lf L b.list.length := by
  have hprice (i : Nat) (hi : i ≠ b.list.length) :
      (b.openTree p o).price lf L i = b.price lf L i := by
    rw [price, depth, owners_openTree h.smaller hi, price, depth]
  have hentry (i : Nat) (hi : i ≠ b.list.length) :
      (b.openTree p o).entry i = b.entry i := by
    rw [entry_openTree, if_neg hi]
  have hslots (i : Nat) (hi : i ≠ b.list.length) :
      (b.openTree p o).slots lf i = b.slots lf i := by
    rw [slots, slots, free_congr (hentry i hi), unbound, unbound, hentry i hi]
    rfl
  have hnew : (b.openTree p o).slots lf b.list.length = lf.dependencies.length := by
    have hempty : (b.openTree p o).entry b.list.length = ⟨p, o, []⟩ := by
      rw [entry_openTree, if_pos rfl]
    have hfree : (b.openTree p o).free lf b.list.length =
        Finset.range lf.dependencies.length := by
      refine Finset.filter_true_of_mem fun d _ => ?_
      rw [here, hempty]
      rfl
    rw [slots, hfree, Finset.card_range, unbound, hempty]
    rfl
  have hqueue : ((b.openTree p o).queue.map
        fun item => (b.openTree p o).price lf L item.treeId) =
      b.queue.map fun item => b.price lf L item.treeId :=
    List.map_congr_left fun item hi => hprice _ (h.treeId_lt hi).ne
  have hlen : (b.openTree p o).list.length = b.list.length + 1 := by
    simp [Builder.openTree]
  have hsum : ∑ i ∈ Finset.range b.list.length,
        (b.openTree p o).slots lf i * (b.openTree p o).price lf L i =
      ∑ i ∈ Finset.range b.list.length, b.slots lf i * b.price lf L i := by
    refine Finset.sum_congr rfl fun i hi => ?_
    have hne := (Finset.mem_range.mp hi).ne
    rw [hslots i hne, hprice i hne]
  rw [potential, hqueue, hlen, Finset.sum_range_succ, hsum, hnew, potential, Nat.add_assoc]

section DropLast
variable {n : Nat} (hn : b.list.length = n + 1)
include hn

theorem entry_dropLast_of_ne {i : Nat} (hi : i ≠ n) :
    ({ b with list := b.list.dropLast } : Builder).entry i = b.entry i := by
  rw [entry_dropLast]
  split
  · rfl
  · rw [b.entry_of_ge (by omega)]

theorem owners_dropLast (hb : b.ParentsSmaller) {i : Nat} (hi : i ≠ n) (fuel : Nat) :
    ({ b with list := b.list.dropLast } : Builder).owners fuel i = b.owners fuel i := by
  rcases Nat.lt_or_ge i n with hlt | hge
  · refine owners_congr hb fuel i fun j hj => ?_
    rw [parent, entry_dropLast_of_ne hn (by omega)]
    exact ⟨rfl, rfl⟩
  · rw [owners_of_ge (by simp; omega), owners_of_ge (by omega)]

/-- An empty last tree is dropped. -/
theorem Bounded.dropLast {m : Nat} (h : Bounded lf m b) (hempty : (b.entry n).dependencies = []) :
    Bounded lf m { b with list := b.list.dropLast } := by
  have hitem (item : FillItem) (hi : item ∈ b.queue) : item.treeId ≠ n := by
    intro h'
    exact (h.items item hi).1 (h' ▸ hempty)
  have howners (i : Nat) :
      ({ b with list := b.list.dropLast } : Builder).owners (i + 1) i = [] ∨
        ({ b with list := b.list.dropLast } : Builder).owners (i + 1) i = b.owners (i + 1) i := by
    by_cases hi : i = n
    · exact .inl (owners_of_ge (by simp; omega) _)
    · exact .inr (owners_dropLast hn h.smaller hi _)
  refine ⟨?_, ?_, ?_, ?_⟩
  · intro i p hp
    rw [parent, entry_dropLast] at hp
    split at hp
    · exact h.smaller i p hp
    · exact absurd hp (by show none ≠ _; simp)
  · intro item hi
    rw [entry_dropLast_of_ne hn (hitem item hi)]
    exact h.items item hi
  · intro i e he
    rcases howners i with h' | h'
    · rw [h'] at he
      exact absurd he List.not_mem_nil
    · exact h.owners_lt i e (h' ▸ he)
  · intro i e
    rcases howners i with h' | h'
    · rw [h']
      exact Nat.zero_le m
    · rw [h']
      exact h.owners_count i e

/-- It held slots only. -/
theorem Bounded.potential_dropLast {m : Nat} (h : Bounded lf m b)
    (hempty : (b.entry n).dependencies = []) (L : Nat) :
    ({ b with list := b.list.dropLast } : Builder).potential lf L ≤ b.potential lf L := by
  have hlast : b = ({ b with list := b.list.dropLast } : Builder).openTree (b.entry n).parent
      (b.entry n).dependencyId := by
    have hentry : (⟨(b.entry n).parent, (b.entry n).dependencyId, []⟩ : BuilderEntry) =
        b.list.getLast (by rw [← List.length_pos_iff, hn]; exact Nat.succ_pos n) := by
      rw [← hempty, List.getLast_eq_getElem, entry]
      simp [hn]
    simp only [Builder.openTree, hentry, List.dropLast_append_getLast]
  have hopen := potential_openTree (h.dropLast hn hempty) (b.entry n).parent
    (b.entry n).dependencyId L
  rw [← hlast] at hopen
  rw [hopen]
  exact Nat.le_add_right _ _

end DropLast

/-- A turn pays for one new tree: its slots and its own loop. -/
theorem Bounded.processSubtree (h : Bounded lf m b) (hnew : Bounded lf m (b.openTree p o))
    (root : Option Nat) :
    Bounded lf m (processSubtree lf p o root b) ∧
      ∀ L, (Install.processSubtree lf p o root b).potential lf L ≤ b.potential lf L +
        2 * lf.dependencies.length * (b.openTree p o).price lf L b.list.length := by
  unfold Install.processSubtree
  cases b.packageOf o with
  | none => exact ⟨h, fun L => Nat.le_add_right _ _⟩
  | some q =>
    simp only
    by_cases hlen : (lf.resolutionList q).len = 0
    · rw [if_pos hlen]
      exact ⟨h, fun L => Nat.le_add_right _ _⟩
    · rw [if_neg hlen]
      have hlist : (b.openTree p o).list.length = b.list.length + 1 := by simp [Builder.openTree]
      have hs := spends_foldl lf (v := b.list.length) root (lf.resolutionList q)
        (lf.sortBuf (lf.resolutionList q)) hnew.smaller (hlist ▸ Nat.lt_succ_self _)
        fun d hd => lf.mem_range_lt (lf.mem_sortBuf.mp hd)
      have hb := hnew.spends hs
      have hpaid (L : Nat) := by
        calc _ ≤ (b.openTree p o).potential lf L + (lf.sortBuf (lf.resolutionList q)).length *
              (b.openTree p o).price lf L b.list.length := hs.paid L
          _ ≤ (b.openTree p o).potential lf L + lf.dependencies.length *
              (b.openTree p o).price lf L b.list.length := by
            refine Nat.add_le_add_left (Nat.mul_le_mul_right _ ?_) _
            rw [lf.length_sortBuf]
            exact lf.resolutionList_len_le q
          _ = b.potential lf L + 2 * lf.dependencies.length *
              (b.openTree p o).price lf L b.list.length := by
            rw [potential_openTree h, Nat.two_mul, Nat.add_mul, Nat.add_assoc]
      split
      · next hempty =>
          have hn := hs.folders.length_eq.trans hlist
          exact ⟨hb.dropLast hn hempty, fun L => (hb.potential_dropLast hn hempty L).trans (hpaid L)⟩
      · exact ⟨hb, hpaid⟩

theorem owners_setQueue (hb : b.ParentsSmaller) (q : List FillItem) (fuel i : Nat) :
    ({ b with queue := q } : Builder).owners fuel i = b.owners fuel i :=
  owners_congr hb fuel i fun _ _ => ⟨rfl, rfl⟩

theorem Bounded.dequeue (h : Bounded lf m b) (hq : b.queue = item :: queue) :
    Bounded lf m { b with queue := queue } where
  smaller := h.smaller
  items := fun i hi => h.items i (hq ▸ List.mem_cons_of_mem _ hi)
  owners_lt := by
    intro i e he
    rw [owners_setQueue h.smaller] at he
    exact h.owners_lt i e he
  owners_count := by
    intro i e
    rw [owners_setQueue h.smaller]
    exact h.owners_count i e

theorem potential_dequeue (hb : b.ParentsSmaller) (hq : b.queue = item :: queue) (L : Nat) :
    b.potential lf L =
      b.price lf L item.treeId + ({ b with queue := queue } : Builder).potential lf L := by
  have hprice (i : Nat) : ({ b with queue := queue } : Builder).price lf L i = b.price lf L i := by
    rw [price, depth, owners_setQueue hb, price, depth]
  simp only [potential, hprice, hq, List.map_cons, List.sum_cons, Nat.add_assoc]
  rfl

/-- The owner of the next tree is one of the folders that `nesting` counts. -/
theorem count_le_nesting (hq : b.queue = item :: queue) {q : PackageID}
    (hres : b.resolution item.dependencyId = some q) :
    (b.owners (item.treeId + 1) item.treeId).count item.dependencyId ≤ b.nesting lf := by
  simp only [nesting, hq, hres, nested]
  refine List.countP_mono_left fun a _ ha => ?_
  obtain rfl := beq_iff_eq.mp ha
  simp [hres]

/-- One turn of the loop lowers the measure. -/
theorem Bounded.hoistStep (h : Bounded lf (k + 1) b) (hk : b.nesting lf ≤ k) (hne : b.queue ≠ []) :
    Bounded lf (k + 1) (hoistStep lf b) ∧
      (Install.hoistStep lf b).potential lf (lf.dependencies.length * (k + 1)) <
        b.potential lf (lf.dependencies.length * (k + 1)) := by
  obtain ⟨item, queue, hq⟩ := List.exists_cons_of_ne_nil hne
  have hitem : item ∈ b.queue := hq ▸ List.mem_cons_self
  have ht := h.treeId_lt hitem
  have hstep : Install.hoistStep lf b = Install.processSubtree lf (some item.treeId)
      (some item.dependencyId) item.hoistRootId { b with queue := queue } := by
    simp only [Install.hoistStep, hq]
  rw [hstep, potential_dequeue h.smaller hq]
  cases hres : b.resolution item.dependencyId with
  | none =>
    have hnone : Install.processSubtree lf (some item.treeId) (some item.dependencyId)
        item.hoistRootId { b with queue := queue } = { b with queue := queue } := by
      have hpkg : ({ b with queue := queue } : Builder).packageOf (some item.dependencyId) = none :=
        hres
      simp only [Install.processSubtree, hpkg]
    rw [hnone]
    exact ⟨h.dequeue hq, Nat.lt_add_of_pos_left (weight_pos _ _)⟩
  | some q =>
    have hopen : Bounded lf (k + 1) (({ b with queue := queue } : Builder).openTree
        (some item.treeId) (some item.dependencyId)) := by
      refine (h.dequeue hq).openTree ht (h.items item hitem).2 ?_
      rw [owners_setQueue h.smaller]
      exact Nat.lt_succ_of_le ((count_le_nesting hq hres).trans hk)
    obtain ⟨hbounded, hpaid⟩ := (h.dequeue hq).processSubtree hopen item.hoistRootId
    refine ⟨hbounded, ?_⟩
    have hturn : (Install.processSubtree lf (some item.treeId) (some item.dependencyId)
          item.hoistRootId { b with queue := queue }).potential lf
            (lf.dependencies.length * (k + 1)) ≤
        ({ b with queue := queue } : Builder).potential lf (lf.dependencies.length * (k + 1)) +
          2 * lf.dependencies.length *
            (({ b with queue := queue } : Builder).openTree (some item.treeId)
              (some item.dependencyId)).price lf (lf.dependencies.length * (k + 1))
              b.list.length := hpaid _
    have hdepth : (({ b with queue := queue } : Builder).openTree (some item.treeId)
        (some item.dependencyId)).depth b.list.length = b.depth item.treeId + 1 := by
      rw [depth, owners_new (b := { b with queue := queue }) h.smaller ht,
        owners_setQueue h.smaller, List.length_cons, depth]
    have hle := hopen.depth_le b.list.length
    rw [hdepth] at hle
    obtain ⟨n, hn⟩ := Nat.exists_eq_add_of_le hle
    have hprice : b.price lf (lf.dependencies.length * (k + 1)) item.treeId =
        1 + 2 * lf.dependencies.length *
          (({ b with queue := queue } : Builder).openTree (some item.treeId)
            (some item.dependencyId)).price lf (lf.dependencies.length * (k + 1))
            b.list.length := by
      rw [price, price, hdepth, hn, Nat.add_sub_cancel_left,
        show b.depth item.treeId + 1 + n - b.depth item.treeId = n + 1 by omega, weight]
    rw [hprice]
    omega

end Builder

/-! ## The whole loop -/

section Run
variable {V : Type} (lf : Lockfile V) (resolutions : List (Option PackageID))

theorem bounded_hoistStart (m : Nat) : (hoistStart lf resolutions).Bounded lf m := by
  have hnil (b : Builder) (hb : b.ParentsSmaller) (hlist : ∀ i, (b.entry i).dependencyId = none)
      (hqueue : b.queue = []) : b.Bounded lf m := by
    have howners : ∀ fuel i, b.owners fuel i = [] := by
      intro fuel
      induction fuel with
      | zero => exact fun i => rfl
      | succ fuel ih =>
        intro i
        unfold Builder.owners
        rw [hlist]
        cases b.parent i with
        | none => rfl
        | some p => exact ih p
    refine ⟨hb, by simp [hqueue], ?_, ?_⟩
    · intro i e he
      rw [howners] at he
      exact absurd he List.not_mem_nil
    · intro i e
      rw [howners]
      exact Nat.zero_le m
  have hentry (i : Nat) : (Builder.init resolutions).entry i = default :=
    Builder.entry_of_ge _ (Nat.zero_le i)
  have hempty : (Builder.init resolutions).Bounded lf m := by
    refine hnil _ ?_ (fun i => by rw [hentry]; rfl) rfl
    intro i p hp
    rw [Builder.parent, hentry] at hp
    exact absurd hp (by show none ≠ _; simp)
  refine (hempty.processSubtree (hnil _ ?_ ?_ rfl) none).1
  · exact Builder.smaller_openTree hempty.smaller (by simp)
  · intro i
    rw [Builder.entry_openTree]
    split
    · rfl
    · rw [hentry]
      rfl

theorem hoistRun_succ (n : Nat) :
    hoistRun lf resolutions (n + 1) = hoistStep lf (hoistRun lf resolutions n) :=
  Function.iterate_succ_apply' _ _ _

/-- A finished loop stays as it is. -/
theorem hoistRun_of_queue_eq_nil {n : Nat} (h : (hoistRun lf resolutions n).queue = []) (m : Nat) :
    hoistRun lf resolutions (n + m) = hoistRun lf resolutions n := by
  induction m with
  | zero => rfl
  | succ m ih =>
    rw [← Nat.add_assoc, hoistRun_succ, ih, hoistStep, h]

/-- The loop ends when no folder it takes is nested in its own package and name
more than `k` times. -/
theorem exists_queue_eq_nil {k : Nat} (hk : ∀ n, (hoistRun lf resolutions n).nesting lf ≤ k) :
    ∃ n, (hoistRun lf resolutions n).queue = [] := by
  by_contra hend
  have hne (n : Nat) : (hoistRun lf resolutions n).queue ≠ [] := fun h => hend ⟨n, h⟩
  have hbounded (n : Nat) : (hoistRun lf resolutions n).Bounded lf (k + 1) := by
    induction n with
    | zero => exact bounded_hoistStart lf resolutions (k + 1)
    | succ n ih =>
      rw [hoistRun_succ]
      exact (ih.hoistStep (hk n) (hne n)).1
  refine not_strictAnti_of_wellFoundedLT (fun n => (hoistRun lf resolutions n).potential lf
    (lf.dependencies.length * (k + 1))) (strictAnti_nat_of_succ_lt fun n => ?_)
  rw [hoistRun_succ]
  exact ((hbounded n).hoistStep (hk n) (hne n)).2

/-- **Termination**: the loop ends exactly when there is a bound on how often the
folder that a turn takes is nested in folders of the same package under the same
name. -/
theorem hoist_terminates : (∃ n, (hoistRun lf resolutions n).queue = []) ↔
    ∃ k, ∀ n, (hoistRun lf resolutions n).nesting lf ≤ k := by
  constructor
  · rintro ⟨n, hn⟩
    refine ⟨(Finset.range n).sup fun i => (hoistRun lf resolutions i).nesting lf, fun i => ?_⟩
    rcases Nat.lt_or_ge i n with hlt | hge
    · exact Finset.le_sup (f := fun i => (hoistRun lf resolutions i).nesting lf)
        (Finset.mem_range.mpr hlt)
    · obtain ⟨m, rfl⟩ := Nat.exists_eq_add_of_le hge
      rw [hoistRun_of_queue_eq_nil lf resolutions hn, Builder.nesting, hn]
      exact Nat.zero_le _
  · rintro ⟨k, hk⟩
    exact exists_queue_eq_nil lf resolutions hk

end Run

/-! ## Two names that alternate -/

/-- The root needs `a`; `a@1` needs `b@1`, which needs `a@2`, which needs `b@2`,
which needs `a@1` again. -/
def alternatingLockfile : Lockfile Nat where
  packages := [npmPackage 0 1, npmPackage 1 1, npmPackage 2 1, npmPackage 3 1, npmPackage 4 1]
  dependencies := [prodDependency [97], prodDependency [98], prodDependency [97],
    prodDependency [98], prodDependency [97]]
  resolutions := [some 1, some 2, some 3, some 4, some 1]
  catalogs := fun _ _ => none
  root_mem := by decide
  sizes := by decide
  ranges := by decide
  targets := by simp

/-- The one dependency of the package that `e` is locked to. -/
def nextAlternating (e : DependencyID) : DependencyID := e % 4 + 1

/-- The last tree holds the dependency after `e` and waits in the queue; its
parent holds `e`. -/
structure Alternates (b : Builder) (e x y : Nat) : Prop where
  smaller : b.ParentsSmaller
  resolutions_eq : b.resolutions = alternatingLockfile.resolutions
  length_eq : b.list.length = y + 1
  queue_eq : b.queue = [⟨y, nextAlternating e, none⟩]
  parent_eq : b.parent y = some x
  parent_here : b.here alternatingLockfile (alternatingLockfile.nameHash e) x = some e
  none_here : b.here alternatingLockfile (alternatingLockfile.nameHash e) y = none
  here_eq : b.here alternatingLockfile (alternatingLockfile.nameHash (nextAlternating e)) y =
    some (nextAlternating e)

/-- The names alternate and no version meets itself. -/
theorem alternatingLockfile_facts {e : Nat} (he : e ∈ [1, 2, 3, 4]) :
    ∃ p q r, alternatingLockfile.resolutions.getD e none = some p ∧
      alternatingLockfile.resolutions.getD (nextAlternating e) none = some q ∧
      alternatingLockfile.resolutions.getD (nextAlternating (nextAlternating e)) none = some r ∧
      r ≠ p ∧ alternatingLockfile.resolutionList q = ⟨nextAlternating (nextAlternating e), 1⟩ ∧
      (alternatingLockfile.resolutionList r).len = 1 ∧
      (alternatingLockfile.pkg r).resolution.isFolder = false ∧
      DependencySlice.contains ⟨nextAlternating (nextAlternating e), 1⟩ e = false ∧
      alternatingLockfile.nameHash (nextAlternating (nextAlternating e)) =
        alternatingLockfile.nameHash e ∧
      alternatingLockfile.nameHash (nextAlternating e) ≠ alternatingLockfile.nameHash e ∧
      (alternatingLockfile.dep (nextAlternating (nextAlternating e))).behavior.isBundled = false ∧
      (alternatingLockfile.dep (nextAlternating (nextAlternating e))).behavior.isPeer = false ∧
      (alternatingLockfile.dep (nextAlternating (nextAlternating e))).hasSafeName = true := by
  simp only [List.mem_cons, List.not_mem_nil, or_false] at he
  rcases he with rfl | rfl | rfl | rfl <;>
    exact ⟨_, _, _, rfl, rfl, rfl, by decide, by decide, by decide, by decide, by decide, by decide,
      by decide, by decide, by decide, by decide⟩

/-- The next turn opens another tree: the name is held two levels up, by the
other version. -/
theorem Alternates.hoistStep {b : Builder} {e x y : Nat} (h : Alternates b e x y)
    (he : e ∈ [1, 2, 3, 4]) :
    Alternates (hoistStep alternatingLockfile b) (nextAlternating e) y (y + 1) := by
  obtain ⟨p, q, r, hp, hq, hr, hrp, hrange, hlen, hfolder, hcontains, hname, hother, hbundled, hpeer,
    hsafe⟩ := alternatingLockfile_facts he
  have hxy : x < y := h.smaller y x h.parent_eq
  -- the builder with the new tree `y + 1`
  let o : Builder := ({ b with queue := [] } : Builder).openTree (some y) (some (nextAlternating e))
  have hold (i : Nat) (hi : i ≠ y + 1) : o.entry i = b.entry i := by
    show (Builder.openTree _ _ _).entry i = _
    rw [Builder.entry_openTree, if_neg (h.length_eq ▸ hi)]
    rfl
  have hnew : o.entry (y + 1) = ⟨some y, some (nextAlternating e), []⟩ := by
    show (Builder.openTree _ _ _).entry (y + 1) = _
    rw [Builder.entry_openTree, if_pos h.length_eq.symm]
  have hlist : o.list.length = y + 2 := by
    show (b.list ++ [_]).length = _
    rw [List.length_append, h.length_eq, List.length_singleton]
  have hsmaller : o.ParentsSmaller :=
    Builder.smaller_openTree h.smaller fun t ht => by
      obtain rfl := Option.some.inj ht
      exact h.length_eq ▸ Nat.lt_succ_self y
  have hres (d : DependencyID) : o.resolution d = alternatingLockfile.resolutions.getD d none :=
    congrArg (·.getD d none) h.resolutions_eq
  have hfinds : Finds (cutAt o.parent none) (o.here alternatingLockfile
      (alternatingLockfile.nameHash (nextAlternating (nextAlternating e)))) (y + 1) x e := by
    rw [hname]
    refine .up (by rw [Builder.here, hnew]; rfl) (p := y) (by simp [cutAt, Builder.parent, hnew]) ?_
    refine .up (p := x) ?_ ?_ (.here ?_)
    · rw [Builder.here, hold y (by omega)]
      exact h.none_here
    · simpa [cutAt, Builder.parent, hold y (by omega)] using h.parent_eq
    · rw [Builder.here, hold x (by omega)]
      exact h.parent_here
  have hloop : onSameName alternatingLockfile o (some r) (nextAlternating (nextAlternating e))
      ⟨nextAlternating (nextAlternating e), 1⟩ x e = .dependencyLoop := by
    unfold onSameName
    rw [hres, hp]
    simp only [if_neg hrp.symm, hcontains, hpeer, Bool.false_and, Bool.false_eq_true, if_false]
  have hdecide : decideHoist alternatingLockfile (y + 1) none
      ⟨nextAlternating (nextAlternating e), 1⟩ o (nextAlternating (nextAlternating e)) =
        some (.placement (y + 1) false) := by
    have hfound : hoistDependency alternatingLockfile o none (some r)
        (nextAlternating (nextAlternating e)) ⟨nextAlternating (nextAlternating e), 1⟩ true
        (y + 1 + 1) (y + 1) = .placement (y + 1) false := by
      rw [hoistDependency_found hsmaller hfinds, if_pos ⟨by omega, hloop⟩]
    simp only [decideHoist, hbundled, hres, hr, hfolder, hfound, Bool.false_eq_true, if_false]
  have hplaced : (place alternatingLockfile o (nextAlternating (nextAlternating e))
      ⟨y + 1, nextAlternating (nextAlternating e), none⟩).entry (y + 1) =
        ⟨some y, some (nextAlternating e), [nextAlternating (nextAlternating e)]⟩ := by
    rw [place, Builder.entry_enqueue, o.entry_push (by show y + 1 < _; omega), if_pos rfl, hnew]
    rfl
  have hstep : Install.hoistStep alternatingLockfile b =
      place alternatingLockfile o (nextAlternating (nextAlternating e))
        ⟨y + 1, nextAlternating (nextAlternating e), none⟩ := by
    have hpkg : ({ b with queue := [] } : Builder).packageOf (some (nextAlternating e)) = some q :=
      (hres _).trans hq
    have hbuf : alternatingLockfile.sortBuf ⟨nextAlternating (nextAlternating e), 1⟩ =
        [nextAlternating (nextAlternating e)] := rfl
    have hfold : processDependency alternatingLockfile (y + 1) none
        ⟨nextAlternating (nextAlternating e), 1⟩ o (nextAlternating (nextAlternating e)) =
          place alternatingLockfile o (nextAlternating (nextAlternating e))
            ⟨y + 1, nextAlternating (nextAlternating e), none⟩ := by
      rw [processDependency, if_pos hsafe, hdecide]
      rfl
    rw [Install.hoistStep, h.queue_eq]
    simp only [processSubtree, hpkg, hrange, Nat.one_ne_zero, if_false, hbuf, List.foldl_cons,
      List.foldl_nil, h.length_eq]
    rw [hfold, hplaced, if_neg (by simp)]
  have htree : y + 1 < o.list.length := hlist ▸ Nat.lt_succ_self _
  have hkept (i : Nat) (hi : i ≠ y + 1) : (place alternatingLockfile o
      (nextAlternating (nextAlternating e))
      ⟨y + 1, nextAlternating (nextAlternating e), none⟩).entry i = b.entry i := by
    rw [place, Builder.entry_enqueue, o.entry_push htree, if_neg hi, hold i hi]
  rw [hstep]
  refine ⟨?_, ?_, ?_, ?_, ?_, ?_, ?_, ?_⟩
  · intro i t ht
    rw [place_parent htree] at ht
    exact hsmaller i t ht
  · rw [place, Builder.enqueue_resolutions, Builder.push_resolutions]
    exact h.resolutions_eq
  · rw [place, Builder.enqueue_list, Builder.push_length, hlist]
  · rw [place, hres, hr]
    simp only [Builder.enqueue, hlen, Nat.one_pos, if_true]
    rfl
  · rw [Builder.parent, hplaced]
  · rw [Builder.here, hkept y (by omega)]
    exact h.here_eq
  · rw [Builder.here, hplaced]
    simp [BuilderEntry.named, hname, hother.symm]
  · rw [Builder.here, hplaced]
    simp [BuilderEntry.named]

/-- **The loop does not end**: every turn but the first two opens a tree in the
tree the turn before opened. -/
theorem hoist_terminates_alternating_ne :
    ¬ ∃ n, (hoistRun alternatingLockfile alternatingLockfile.resolutions n).queue = [] := by
  have hrun (n : Nat) : ∃ e ∈ [1, 2, 3, 4], ∃ x y,
      Alternates (hoistRun alternatingLockfile alternatingLockfile.resolutions (2 + n)) e x y := by
    induction n with
    | zero =>
      refine ⟨1, by decide, 0, 1, ⟨?_, by decide, by decide, by decide, by decide, by decide,
        by decide, by decide⟩⟩
      intro i p hp
      have hi : i < 2 := Builder.lt_length_of_parent _ hp
      have hall : ∀ i < 2, ∀ p, (hoistRun alternatingLockfile
          alternatingLockfile.resolutions 2).parent i = some p → p < i := by
        decide
      exact hall i hi p hp
    | succ n ih =>
      obtain ⟨e, he, x, y, h⟩ := ih
      have hmem : ∀ e ∈ [1, 2, 3, 4], nextAlternating e ∈ [1, 2, 3, 4] := by decide
      rw [← Nat.add_assoc, hoistRun_succ]
      exact ⟨nextAlternating e, hmem e he, _, _, h.hoistStep he⟩
  rintro ⟨n, hn⟩
  obtain ⟨e, -, x, y, h⟩ := hrun n
  have hend := hoistRun_of_queue_eq_nil _ _ hn 2
  rw [Nat.add_comm] at hend
  rw [hend] at h
  exact absurd (h.queue_eq.symm.trans hn) (by simp)

end OhosBun.Install
