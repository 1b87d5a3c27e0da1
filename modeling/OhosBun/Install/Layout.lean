/-
# `OhosBun.Install.Layout` — every package finds what it was locked to

A hoisted layout is right when each placed package, looking a dependency up from
its own tree towards the root, first meets the locked package.  The hoister
decides one dependency at a time while the trees still grow, so the invariant is
about unfinished layouts: it speaks of the packages whose turn in the queue is
over (`Inv.done`), and the others have nothing to lose yet.

A placement changes lookups only through the tree that receives it.  That tree
is the new one, which nobody looks through yet; or the top of the climb.  The
root has nothing above it to hide.  A hoist root that a bundled dependency
opened has: a name placed there hides the same name further up from whoever
climbs through it.  `Quiet` is the condition that nobody already served does;
without bundled dependencies it always holds.
-/
import OhosBun.Install.Hoisting

namespace OhosBun.Install

open OhosBun.Lib

variable {V : Type}

/-! ## The graphs -/

/-- The package a dependency is locked to. -/
def Lockfile.locked (lf : Lockfile V) (d : DependencyID) : Option PackageID :=
  lf.resolutions.getD d none

/-- Every dependency is resolved, none is a peer or resolved to a folder, and no
package lists a name twice. -/
structure Lockfile.Plain (lf : Lockfile V) : Prop where
  resolved : ∀ d < lf.dependencies.length, (lf.locked d).isSome
  noPeer : ∀ d < lf.dependencies.length, (lf.dep d).behavior.isPeer = false
  noFolder : ∀ d < lf.dependencies.length, ∀ p < lf.packages.length, lf.locked d = some p →
    (lf.pkg p).resolution.isFolder = false
  names : ∀ p < lf.packages.length, ∀ d ∈ (lf.resolutionList p).ids,
    ∀ d' ∈ (lf.resolutionList p).ids, lf.nameHash d = lf.nameHash d' → d = d'

theorem Lockfile.locked_lt (lf : Lockfile V) {d : DependencyID} {p : Nat}
    (h : lf.locked d = some p) : p < lf.packages.length := by
  refine lf.targets p ?_
  unfold locked at h
  rw [List.getD_eq_getElem?_getD] at h
  cases hd : lf.resolutions[d]? with
  | none => rw [hd] at h; exact absurd h (by simp)
  | some r =>
    rw [hd] at h
    obtain rfl : r = some p := h
    exact List.mem_of_getElem? hd

/-! ## Lookups -/

namespace Builder
variable (lf : Lockfile V) (b : Builder)

/-- Tree `t` holds the entry `e`. -/
def Placed (t : Nat) (e : DependencyID) : Prop := e ∈ (b.entry t).dependencies

/-- The entry `e` of tree `t` waits in the queue. -/
def Queued (t : Nat) (e : DependencyID) : Prop :=
  ∃ item ∈ b.queue, item.treeId = t ∧ item.dependencyId = e

/-- Tree `i` is the folder of the entry `e` of tree `t`. -/
def Owns (i t : Nat) (e : DependencyID) : Prop :=
  b.parent i = some t ∧ (b.entry i).dependencyId = some e

/-- Where the package placed as the entry `e` of tree `t` starts a lookup: in its
own tree, or in `t` when it has none. -/
def Start (t : Nat) (e : DependencyID) (s : Nat) : Prop :=
  b.Owns s t e ∨ s = t ∧ ∀ i, ¬ b.Owns i t e

/-- From tree `s`, the first entry named as `d` is resolved as `d` is locked. -/
def Sees (s : Nat) (d : DependencyID) : Prop :=
  ∃ j e, Finds b.parent (b.here lf (lf.nameHash d)) s j e ∧ lf.locked e = lf.locked d

/-- Whoever is past its turn: the package of the entry `e` of tree `t`, with
dependency `d` and its lookups from `s`. -/
structure Served (cur : Option (Nat × DependencyID)) (t : Nat) (e : DependencyID) (s : Nat)
    (p : PackageID) (d : DependencyID) : Prop where
  placed : b.Placed t e
  notQueued : ¬ b.Queued t e
  notCurrent : cur ≠ some (t, e)
  start : b.Start t e s
  locked : lf.locked e = some p
  mem : d ∈ (lf.resolutionList p).ids
  safe : (lf.dep d).hasSafeName = true

end Builder

/-! ## The invariant -/

/-- What holds of the builder while the package of `cur` is being processed. -/
structure Inv (lf : Lockfile V) (b : Builder) (cur : Option (Nat × DependencyID)) : Prop where
  resolutions : b.resolutions = lf.resolutions
  smaller : b.ParentsSmaller
  rooted : ∀ i < b.list.length, b.parent i = none → i = 0
  names : ∀ t, (b.entry t).dependencies.Pairwise fun d d' => lf.nameHash d ≠ lf.nameHash d'
  ids : ∀ t e, b.Placed t e → e < lf.dependencies.length
  owner : ∀ i t e, b.Owns i t e → b.Placed t e
  ownsOnce : ∀ i i' t e, b.Owns i t e → b.Owns i' t e → i = i'
  queued : ∀ t e, b.Queued t e → b.Placed t e ∧ ∀ i, ¬ b.Owns i t e
  queuedOnce : (b.queue.map fun item => (item.treeId, item.dependencyId)).Nodup
  done : ∀ t e s p d, b.Served lf cur t e s p d → b.Sees lf s d

section Push
variable {lf : Lockfile V} {b : Builder} {cur : Option (Nat × DependencyID)} {x : Nat}
  {d : DependencyID} {item : FillItem}

variable {t s : Nat} {e : DependencyID}

theorem place_owns (hx : item.treeId < b.list.length) {i : Nat} :
    (place lf b d item).Owns i t e ↔ b.Owns i t e := by
  unfold Builder.Owns
  rw [place_parent hx, place, Builder.entry_enqueue, b.dependencyId_push hx]

theorem place_start (hx : item.treeId < b.list.length) :
    (place lf b d item).Start t e s ↔ b.Start t e s := by
  unfold Builder.Start
  simp only [place_owns hx]

theorem place_placed (hx : item.treeId < b.list.length) :
    (place lf b d item).Placed t e ↔ b.Placed t e ∨ t = item.treeId ∧ e = d := by
  unfold Builder.Placed
  rw [place, Builder.entry_enqueue, b.entry_push hx]
  split
  · next h => simp [h]
  · next h => simp [h]

/-- A lookup after a placement: what it was, or the new entry, which who passed
the tree now finds. -/
theorem place_sees (hx : item.treeId < b.list.length)
    (hnone : b.here lf (lf.nameHash d) item.treeId = none) {d' : DependencyID} (h : b.Sees lf s d')
    (hquiet : lf.nameHash d' = lf.nameHash d →
      Passes b.parent (b.here lf (lf.nameHash d)) s item.treeId → lf.locked d = lf.locked d') :
    (place lf b d item).Sees lf s d' := by
  obtain ⟨j, e, hfind, he⟩ := h
  have hparent : (place lf b d item).parent = b.parent := funext fun i => place_parent hx i
  have hhere := place_here hx hnone (lf.nameHash d')
  unfold Builder.Sees
  rw [hparent]
  by_cases hname : lf.nameHash d' = lf.nameHash d
  · have hother : ∀ k, k ≠ item.treeId → (place lf b d item).here lf (lf.nameHash d') k =
        b.here lf (lf.nameHash d') k := fun k hk => by rw [hhere, if_neg (by simp [hk])]
    rcases hfind.update (x := item.treeId) (by rw [hname]; exact hnone) hother with hpass | hfind'
    · refine ⟨item.treeId, d, hpass.finds ?_ hother, hquiet hname (by rw [← hname]; exact hpass)⟩
      rw [hhere, if_pos ⟨rfl, hname.symm⟩]
    · exact ⟨j, e, hfind', he⟩
  · have hsame : (place lf b d item).here lf (lf.nameHash d') = b.here lf (lf.nameHash d') :=
      funext fun k => by rw [hhere, if_neg (by simp [Ne.symm hname])]
    rw [hsame]
    exact ⟨j, e, hfind, he⟩

theorem place_queued (h : (place lf b d item).Queued t e) :
    b.Queued t e ∨ item.treeId = t ∧ item.dependencyId = e := by
  obtain ⟨i, hi, ht, he⟩ := h
  rcases (b.push item.treeId d).queue_enqueue lf (b.resolution d) item with hq | ⟨hq, -⟩
  · rw [place, hq, Builder.push_queue, List.mem_append, List.mem_singleton] at hi
    rcases hi with hi | rfl
    · exact .inl ⟨i, hi, ht, he⟩
    · exact .inr ⟨ht, he⟩
  · rw [place, hq, Builder.push_queue] at hi
    exact .inl ⟨i, hi, ht, he⟩

theorem queued_place (h : b.Queued t e) :
    (place lf b d item).Queued t e := by
  obtain ⟨i, hi, ht, he⟩ := h
  refine ⟨i, ?_, ht, he⟩
  rcases (b.push item.treeId d).queue_enqueue lf (b.resolution d) item with hq | ⟨hq, -⟩
  · rw [place, hq, Builder.push_queue]
    exact List.mem_append_left _ hi
  · rw [place, hq, Builder.push_queue]
    exact hi

/-- The new entry waits in the queue, or its package has no dependencies. -/
theorem place_new (lf : Lockfile V) (b : Builder) (hitem : item.dependencyId = d) :
    (place lf b d item).Queued item.treeId d ∨
      ∀ q, b.resolution d = some q → (lf.resolutionList q).len = 0 := by
  rcases (b.push item.treeId d).queue_enqueue lf (b.resolution d) item with hq | ⟨-, hq⟩
  · refine .inl ⟨item, ?_, rfl, hitem⟩
    rw [place, hq]
    simp
  · exact .inr hq

/-- A placement keeps the invariant when it hides nothing from the served. -/
theorem Inv.place (h : Inv lf b cur) (hx : item.treeId < b.list.length)
    (hitem : item.dependencyId = d) (hd : d < lf.dependencies.length)
    (hnone : b.here lf (lf.nameHash d) item.treeId = none)
    (hquiet : ∀ t e s p d', b.Served lf cur t e s p d' → lf.nameHash d' = lf.nameHash d →
      Passes b.parent (b.here lf (lf.nameHash d)) s item.treeId → lf.locked d = lf.locked d') :
    Inv lf (place lf b d item) cur := by
  have hnew : ¬ b.Placed item.treeId d := fun hp =>
    (b.here_eq_none lf).mp hnone d hp rfl
  refine ⟨?_, ?_, ?_, ?_, ?_, ?_, ?_, ?_, ?_, ?_⟩
  · rw [Install.place, Builder.enqueue_resolutions, Builder.push_resolutions, h.resolutions]
  · intro i p hp
    rw [place_parent hx] at hp
    exact h.smaller i p hp
  · intro i hi hp
    rw [place_parent hx] at hp
    rw [Install.place, Builder.enqueue_list, Builder.push_length] at hi
    exact h.rooted i hi hp
  · intro t
    rw [Install.place, Builder.entry_enqueue, b.entry_push hx]
    split
    · next ht =>
        subst ht
        refine List.pairwise_append.mpr ⟨h.names _, List.pairwise_singleton _ _, ?_⟩
        intro d' hd' d'' hd''
        obtain rfl := List.mem_singleton.mp hd''
        exact (b.here_eq_none lf).mp hnone d' hd'
    · exact h.names t
  · intro t e hp
    rcases (place_placed hx).mp hp with hp | ⟨-, rfl⟩
    · exact h.ids t e hp
    · exact hd
  · intro i t e ho
    exact (place_placed hx).mpr (.inl (h.owner i t e ((place_owns hx).mp ho)))
  · intro i i' t e ho ho'
    exact h.ownsOnce i i' t e ((place_owns hx).mp ho) ((place_owns hx).mp ho')
  · intro t e hq
    rcases place_queued hq with hq | ⟨rfl, rfl⟩
    · obtain ⟨hp, hno⟩ := h.queued t e hq
      exact ⟨(place_placed hx).mpr (.inl hp), fun i ho => hno i ((place_owns hx).mp ho)⟩
    · rw [hitem]
      refine ⟨(place_placed hx).mpr (.inr ⟨rfl, rfl⟩), fun i ho => ?_⟩
      exact hnew (h.owner i _ _ ((place_owns hx).mp ho))
  · rcases (b.push item.treeId d).queue_enqueue lf (b.resolution d) item with hq | ⟨hq, -⟩
    · rw [Install.place, hq, Builder.push_queue, List.map_append, List.map_singleton,
        List.nodup_append]
      refine ⟨h.queuedOnce, List.nodup_singleton _, ?_⟩
      rintro ⟨t, e⟩ hmem _ hlast heq
      obtain ⟨i, hi, hie⟩ := List.mem_map.mp hmem
      obtain rfl := List.mem_singleton.mp hlast
      obtain ⟨rfl, rfl⟩ := Prod.mk.inj heq
      obtain ⟨ht, he⟩ := Prod.mk.inj hie
      exact hnew ((h.queued _ _ ⟨i, hi, ht, he.trans hitem⟩).1)
    · rw [Install.place, hq, Builder.push_queue]
      exact h.queuedOnce
  · intro t e s p d' hs
    have hstart := (place_start hx).mp hs.start
    rcases (place_placed hx).mp hs.placed with hp | ⟨rfl, rfl⟩
    · have hserved : b.Served lf cur t e s p d' :=
        ⟨hp, fun hq => hs.notQueued (queued_place hq), hs.notCurrent, hstart, hs.locked, hs.mem,
          hs.safe⟩
      exact place_sees hx hnone (h.done t e s p d' hserved) (hquiet t e s p d' hserved)
    · -- the new entry is queued, unless its package has no dependency to look up
      rcases place_new lf b hitem with hq | hempty
      · exact absurd hq hs.notQueued
      · have hres : b.resolution e = some p := by
          rw [Builder.resolution, h.resolutions]
          exact hs.locked
        have hmem := DependencySlice.mem_ids.1 hs.mem
        rw [hempty p hres] at hmem
        omega

end Push

/-! ## One package -/

/-- The package of tree `v`, the last one, has had the dependencies `seen` placed. -/
structure Turn (lf : Lockfile V) (b : Builder) (v : Nat) (cur : Option (Nat × DependencyID))
    (seen : List DependencyID) : Prop where
  inv : Inv lf b cur
  last : b.list.length = v + 1
  entries : ∀ e ∈ (b.entry v).dependencies, e ∈ seen
  waiting : ∀ e ∈ (b.entry v).dependencies, b.Queued v e ∨
    ∀ q, lf.locked e = some q → (lf.resolutionList q).len = 0
  current : ∀ t e, b.Owns v t e ↔ cur = some (t, e)
  sees : ∀ d ∈ seen, (lf.dep d).hasSafeName = true → b.Sees lf v d

/-- Placing `d` outside the new tree hides nothing from the served: either
nothing is above the tree that receives it, or whoever looks `d`'s name up
through that tree is locked to the same package. -/
def Quiet (lf : Lockfile V) (b : Builder) (cur : Option (Nat × DependencyID)) (v : Nat)
    (root : Option Nat) (range : DependencySlice) (d : DependencyID) : Prop :=
  ∀ x, decideHoist lf v root range b d = some (.placement x false) → x ≠ v →
    (b.parent x).isSome → ∀ t e s p d', b.Served lf cur t e s p d' →
      lf.nameHash d' = lf.nameHash d → Passes b.parent (b.here lf (lf.nameHash d)) s x →
      lf.locked d = lf.locked d'

section Turn
variable {lf : Lockfile V} {b : Builder} {v : Nat} {cur : Option (Nat × DependencyID)}
  {seen : List DependencyID} {d : DependencyID}

variable {t s : Nat} {e d' : DependencyID} {p : PackageID}

/-- Nobody served looks through the new tree. -/
theorem Turn.not_passes (h : Turn lf b v cur seen) (hs : b.Served lf cur t e s p d')
    {here : Nat → Option DependencyID} :
    ¬ Passes b.parent here s v := by
  intro hpass
  have hle := hpass.le h.inv.smaller
  have hlast := h.last
  rcases hs.start with howns | ⟨rfl, -⟩
  · have hlt := b.lt_length_of_parent howns.1
    obtain rfl : s = v := by omega
    exact hs.notCurrent ((h.current t e).mp howns)
  · have hlt := b.lt_length_of_mem hs.placed
    obtain rfl : s = v := by omega
    rcases h.waiting e hs.placed with hq | hempty
    · exact hs.notQueued hq
    · have hmem := DependencySlice.mem_ids.1 hs.mem
      rw [hempty p hs.locked] at hmem
      omega

/-- A placement on the climb from the new tree. -/
theorem Turn.place (h : Turn lf b v cur seen) (item : FillItem) (hitem : item.dependencyId = d)
    (hd : d < lf.dependencies.length)
    (hpass : Passes b.parent (b.here lf (lf.nameHash d)) v item.treeId)
    (hfresh : ∀ d' ∈ seen, lf.nameHash d' ≠ lf.nameHash d)
    (hquiet : item.treeId ≠ v → ∀ t e s p d', b.Served lf cur t e s p d' →
      lf.nameHash d' = lf.nameHash d →
      Passes b.parent (b.here lf (lf.nameHash d)) s item.treeId → lf.locked d = lf.locked d') :
    Turn lf (place lf b d item) v cur (seen ++ [d]) := by
  have hle := hpass.le h.inv.smaller
  have hx : item.treeId < b.list.length := by rw [h.last]; omega
  have hnone := hpass.here_eq
  have hquiet' : ∀ t e s p d', b.Served lf cur t e s p d' → lf.nameHash d' = lf.nameHash d →
      Passes b.parent (b.here lf (lf.nameHash d)) s item.treeId → lf.locked d = lf.locked d' := by
    intro t e s p d' hs hname hp
    rcases eq_or_ne item.treeId v with hv | hv
    · rw [hv] at hp
      exact absurd hp (h.not_passes hs)
    · exact hquiet hv t e s p d' hs hname hp
  refine ⟨h.inv.place hx hitem hd hnone hquiet', ?_, ?_, ?_, ?_, ?_⟩
  · rw [Install.place, Builder.enqueue_list, Builder.push_length, h.last]
  · intro e he
    rcases (place_placed hx).mp he with he | ⟨-, rfl⟩
    · exact List.mem_append_left _ (h.entries e he)
    · exact List.mem_append_right _ (List.mem_singleton.mpr rfl)
  · intro e he
    rcases (place_placed hx).mp he with he | ⟨rfl, rfl⟩
    · rcases h.waiting e he with hq | hempty
      · exact .inl (queued_place hq)
      · exact .inr hempty
    · rcases place_new lf b hitem with hq | hempty
      · exact .inl hq
      · refine .inr fun q hq => hempty q ?_
        rw [Builder.resolution, h.inv.resolutions]
        exact hq
  · intro t e
    rw [place_owns hx]
    exact h.current t e
  · intro d' hd' hsafe
    rcases List.mem_append.mp hd' with hd' | hd'
    · exact place_sees hx hnone (h.sees d' hd' hsafe) fun hname => absurd hname (hfresh d' hd')
    · obtain rfl := List.mem_singleton.mp hd'
      have hparent : (Install.place lf b d' item).parent = b.parent :=
        funext fun i => place_parent hx i
      refine ⟨item.treeId, d', ?_, rfl⟩
      rw [hparent]
      refine hpass.finds ?_ fun k hk => ?_
      · rw [place_here hx hnone, if_pos ⟨rfl, rfl⟩]
      · rw [place_here hx hnone, if_neg (by simp [hk])]

/-- Without a placement only what the new tree sees has to be said. -/
theorem Turn.skip (h : Turn lf b v cur seen)
    (hd : (lf.dep d).hasSafeName = true → b.Sees lf v d) : Turn lf b v cur (seen ++ [d]) := by
  refine ⟨h.inv, h.last, fun e he => List.mem_append_left _ (h.entries e he), h.waiting,
    h.current, ?_⟩
  intro d' hd' hsafe
  rcases List.mem_append.mp hd' with hd' | hd'
  · exact h.sees d' hd' hsafe
  · obtain rfl := List.mem_singleton.mp hd'
    exact hd hsafe

theorem Turn.errors (h : Turn lf b v cur seen) (errors : List (List UInt8)) :
    Turn lf { b with errors := errors } v cur seen :=
  ⟨⟨h.inv.resolutions, h.inv.smaller, h.inv.rooted, h.inv.names, h.inv.ids, h.inv.owner,
    h.inv.ownsOnce, h.inv.queued, h.inv.queuedOnce,
    fun t e s p d hs => h.inv.done t e s p d
      ⟨hs.placed, hs.notQueued, hs.notCurrent, hs.start, hs.locked, hs.mem, hs.safe⟩⟩,
    h.last, h.entries, h.waiting, h.current, h.sees⟩

/-- Nothing is above a tree without parent. -/
theorem Inv.quiet_of_parent_none (h : Inv lf b cur) {x : Nat} (hx : b.parent x = none)
    (hs : b.Served lf cur t e s p d') (hname : lf.nameHash d' = lf.nameHash d) :
    ¬ Passes b.parent (b.here lf (lf.nameHash d)) s x := by
  intro hpass
  obtain ⟨j, a, hfind, -⟩ := h.done t e s p d' hs
  rw [hname] at hfind
  obtain ⟨q, hq, -⟩ := hpass.finds_beyond hfind
  exact absurd (hx.symm.trans hq) (by simp)

/-- One iteration of the loop over a package's dependencies. -/
theorem Turn.processDependency (hplain : lf.Plain) (h : Turn lf b v cur seen)
    (hp : p < lf.packages.length) (hseen : ∀ d' ∈ seen, d' ∈ (lf.resolutionList p).ids)
    (hd : d ∈ (lf.resolutionList p).ids) (hnew : d ∉ seen) {root : Option Nat}
    (hquiet : Quiet lf b cur v root (lf.resolutionList p) d) :
    Turn lf (processDependency lf v root (lf.resolutionList p) b d) v cur (seen ++ [d]) := by
  have hlt := lf.mem_range_lt hd
  have hres (e : DependencyID) : b.resolution e = lf.locked e := by
    rw [Builder.resolution, h.inv.resolutions, Lockfile.locked]
  have hfresh : ∀ d' ∈ seen, lf.nameHash d' ≠ lf.nameHash d := by
    intro d' hd' hname
    exact hnew (hplain.names p hp d' (hseen d' hd') d hd hname ▸ hd')
  -- the new tree holds only other names of this package
  have hhere : b.here lf (lf.nameHash d) v = none :=
    (b.here_eq_none lf).mpr fun e he => hfresh e (h.entries e he)
  unfold Install.processDependency
  cases hsafe : (lf.dep d).hasSafeName with
  | false =>
    simp only [Bool.false_eq_true, if_false]
    exact (h.skip (d := d) (by simp [hsafe])).errors _
  | true =>
    simp only [if_true]
    cases hbundled : (lf.dep d).behavior.isBundled with
    | true =>
      have hdecide : decideHoist lf v root (lf.resolutionList p) b d =
          some (.placement v true) := by
        simp only [decideHoist, hbundled, if_true]
      rw [hdecide]
      exact h.place ⟨v, d, some v⟩ rfl hlt (.here hhere) hfresh
        fun hv => absurd rfl hv
    | false =>
      obtain ⟨q, hq⟩ := Option.isSome_iff_exists.mp (hplain.resolved d hlt)
      have hfolder := hplain.noFolder d hlt q (lf.locked_lt hq) hq
      have hdecide : decideHoist lf v root (lf.resolutionList p) b d =
          some (hoistDependency lf b root (some q) d (lf.resolutionList p) true (v + 1) v) := by
        simp only [decideHoist, hbundled, hres, hq, hfolder, Bool.false_eq_true, if_false]
      have hquiet' (x : Nat)
          (hresult : hoistDependency lf b root (some q) d (lf.resolutionList p) true (v + 1) v =
            .placement x false) (hv : x ≠ v) (t : Nat) (e : DependencyID) (s : Nat)
          (r : PackageID) (d' : DependencyID) (hs : b.Served lf cur t e s r d')
          (hname : lf.nameHash d' = lf.nameHash d)
          (hpass : Passes b.parent (b.here lf (lf.nameHash d)) s x) :
          lf.locked d = lf.locked d' := by
        cases hpar : b.parent x with
        | none => exact absurd hpass (h.inv.quiet_of_parent_none hpar hs hname)
        | some y =>
          exact hquiet x (by rw [hdecide, hresult]) hv (by rw [hpar]; rfl) t e s r d' hs
            hname hpass
      rw [hdecide]
      simp only
      rcases hoistDependency_cases h.inv.smaller lf root (some q) d (lf.resolutionList p) v with
        ⟨j, a, hfind, hresult⟩ | ⟨top, hpass, -, hresult⟩
      · obtain ⟨hmem, hname⟩ := b.here_eq_some lf hfind.here_eq
        obtain ⟨ra, hra⟩ := Option.isSome_iff_exists.mp (hplain.resolved a (h.inv.ids j a hmem))
        by_cases hsame : ra = q
        · -- the same package further up
          have hsn : onSameName lf b (some q) d (lf.resolutionList p) j a = .hoisted := by
            simp only [onSameName, hres, hra, if_pos hsame]
          rw [hresult, hsn, if_neg (by simp)]
          exact h.skip fun _ => ⟨j, a, hfind.of_cutAt, by rw [hra, hq, hsame]⟩
        · -- another package further up: keep this one here
          have hnotRange : (lf.resolutionList p).contains a = false := by
            rw [Bool.eq_false_iff]
            intro hc
            have := hplain.names p hp a (DependencySlice.contains_eq_true.1 hc) d hd hname
            subst this
            exact hsame (Option.some.inj (hra.symm.trans hq))
          have hsn : onSameName lf b (some q) d (lf.resolutionList p) j a =
              .dependencyLoop := by
            simp only [onSameName, hres, hra, if_neg hsame, hnotRange,
              hplain.noPeer d hlt, Bool.false_and, Bool.false_eq_true, if_false]
          have hjv : j ≠ v := by
            rintro rfl
            exact hfresh a (h.entries a hmem) hname
          rw [hresult, hsn, if_pos ⟨hjv, rfl⟩]
          exact h.place ⟨v, d, root⟩ rfl hlt (.here hhere) hfresh
            fun hv => absurd rfl hv
      · rw [hresult]
        exact h.place ⟨top, d, root⟩ rfl hlt hpass.of_cutAt hfresh
          (hquiet' top hresult)

/-- Without a hoist root the climb ends at a tree without parent. -/
theorem Turn.quiet_of_root_none (h : Turn lf b v cur seen) {range : DependencySlice} :
    Quiet lf b cur v none range d := by
  intro x hdecide hv hpar
  refine absurd hpar ?_
  have hhoist : hoistDependency lf b none (b.resolution d) d range true (v + 1) v =
      .placement x false := by
    unfold decideHoist at hdecide
    simp only at hdecide
    split at hdecide
    · exact absurd hdecide (by simp)
    · split at hdecide
      · next hres =>
          split at hdecide
          · rw [hres]
            exact Option.some.inj (by rw [hres] at hdecide; exact hdecide)
          · exact absurd hdecide (by simp)
      · next q hres =>
          split at hdecide
          · split at hdecide
            · exact absurd hdecide (by simp)
            · split at hdecide
              · exact absurd hdecide (by simp)
              · simp only [Option.some.injEq, HoistDependencyResult.placement.injEq] at hdecide
                exact absurd hdecide.1.symm hv
          · rw [hres]
            exact Option.some.inj (by rw [hres] at hdecide; exact hdecide)
  rcases hoistDependency_cases h.inv.smaller lf none (b.resolution d) d range v with
    ⟨j, a, -, hresult⟩ | ⟨top, -, htop, hresult⟩
  · rw [hresult] at hhoist
    split at hhoist
    · simp only [HoistDependencyResult.placement.injEq] at hhoist
      exact absurd hhoist.1.symm hv
    · exact absurd hhoist (onSameName_ne_placement _ _ _ _ _ _ _ _ _)
  · rw [hresult, HoistDependencyResult.placement.injEq] at hhoist
    obtain ⟨rfl, -⟩ := hhoist
    have htop' : b.parent top = none := by simpa [cutAt] using htop
    rw [htop']
    simp

end Turn

/-- `Quiet` along the loop over a package's dependencies. -/
def QuietLoop (lf : Lockfile V) (cur : Option (Nat × DependencyID)) (v : Nat) (root : Option Nat)
    (range : DependencySlice) : Builder → List DependencyID → Prop
  | _, [] => True
  | b, d :: ds => Quiet lf b cur v root range d ∧
      QuietLoop lf cur v root range (processDependency lf v root range b d) ds

section Loop
variable {lf : Lockfile V} {b : Builder} {v : Nat} {cur : Option (Nat × DependencyID)}

/-- The whole loop. -/
theorem Turn.foldl (hplain : lf.Plain) {p : PackageID} (hp : p < lf.packages.length)
    (root : Option Nat) (ds : List DependencyID) : ∀ {b : Builder} {seen : List DependencyID},
      Turn lf b v cur seen → (∀ d ∈ seen ++ ds, d ∈ (lf.resolutionList p).ids) →
      (seen ++ ds).Nodup → (root = none ∨ QuietLoop lf cur v root (lf.resolutionList p) b ds) →
      Turn lf (ds.foldl (Install.processDependency lf v root (lf.resolutionList p)) b) v cur
        (seen ++ ds) := by
  induction ds with
  | nil =>
    intro b seen h _ _ _
    rw [List.append_nil]
    exact h
  | cons d ds ih =>
    intro b seen h hmem hnodup hquiet
    have hnew : d ∉ seen := by
      intro hd
      exact (List.nodup_append.mp hnodup).2.2 d hd d (by simp) rfl
    have hquiet₁ : Quiet lf b cur v root (lf.resolutionList p) d := by
      rcases hquiet with rfl | hquiet
      · exact h.quiet_of_root_none
      · exact hquiet.1
    have hstep := h.processDependency hplain hp
      (fun d' hd' => hmem d' (List.mem_append_left _ hd')) (hmem d (by simp)) hnew hquiet₁
    have happend : seen ++ d :: ds = seen ++ [d] ++ ds := by simp
    rw [happend] at hmem hnodup ⊢
    exact ih hstep hmem hnodup (hquiet.imp_right And.right)

/-- A new tree for the package whose turn it is. -/
theorem Turn.openTree (h : Inv lf b cur) (parent : Option Nat) (owner : Option DependencyID)
    (hroot : parent = none → b.list.length = 0)
    (howner : ∀ t, parent = some t → ∃ e, owner = some e)
    (hcur : ∀ t e, (parent = some t ∧ owner = some e) ↔ cur = some (t, e))
    (hfree : ∀ t e, cur = some (t, e) → b.Placed t e ∧ (∀ i, ¬ b.Owns i t e) ∧ ¬ b.Queued t e) :
    Turn lf (b.openTree parent owner) b.list.length cur [] := by
  set v := b.list.length with hv
  have hentry (i : Nat) : (b.openTree parent owner).entry i =
      if i = v then ⟨parent, owner, []⟩ else b.entry i := b.entry_openTree
  have hlen : (b.openTree parent owner).list.length = v + 1 := by simp [Builder.openTree, hv]
  have hplaced {t : Nat} {e : DependencyID} : (b.openTree parent owner).Placed t e ↔
      b.Placed t e := by
    unfold Builder.Placed
    rw [hentry]
    split
    · next ht => rw [b.entry_of_ge (by omega)]; rfl
    · rfl
  have howns {i t : Nat} {e : DependencyID} : (b.openTree parent owner).Owns i t e ↔
      b.Owns i t e ∨ i = v ∧ parent = some t ∧ owner = some e := by
    unfold Builder.Owns Builder.parent
    rw [hentry]
    split
    · next hi =>
        have hnone : (b.entry i).parent = none := by rw [b.entry_of_ge (by omega)]; rfl
        simp [hi ▸ hnone, hi]
    · next hi => simp [hi]
  have hparent (i : Nat) (hi : i ≠ v) : (b.openTree parent owner).parent i = b.parent i := by
    rw [Builder.parent, hentry, if_neg hi]
    rfl
  have hhere (n : UInt64) (i : Nat) (hi : i ≠ v) :
      (b.openTree parent owner).here lf n i = b.here lf n i := by
    rw [Builder.here, hentry, if_neg hi]
    rfl
  have hlt {t : Nat} (ht : parent = some t) : t < v := by
    obtain ⟨e, he⟩ := howner t ht
    exact b.lt_length_of_mem (hfree t e ((hcur t e).mp ⟨ht, he⟩)).1
  refine ⟨⟨h.resolutions, ?_, ?_, ?_, ?_, ?_, ?_, ?_, h.queuedOnce, ?_⟩, hlen, ?_, ?_, ?_, by simp⟩
  · intro i p hp
    rcases eq_or_ne i v with rfl | hi
    · rw [Builder.parent, hentry, if_pos rfl] at hp
      exact hlt hp
    · rw [hparent i hi] at hp
      exact h.smaller i p hp
  · intro i hi hp
    rw [hlen] at hi
    rcases eq_or_ne i v with rfl | hne
    · rw [Builder.parent, hentry, if_pos rfl] at hp
      exact hroot hp
    · rw [hparent i hne] at hp
      exact h.rooted i (by omega) hp
  · intro t
    rw [hentry]
    split
    · exact List.Pairwise.nil
    · exact h.names t
  · intro t e hp
    exact h.ids t e (hplaced.mp hp)
  · intro i t e ho
    rcases howns.mp ho with ho | ⟨-, hpe⟩
    · exact hplaced.mpr (h.owner i t e ho)
    · exact hplaced.mpr (hfree t e ((hcur t e).mp hpe)).1
  · intro i i' t e ho ho'
    rcases howns.mp ho with ho | ⟨rfl, hpe⟩
    · rcases howns.mp ho' with ho' | ⟨-, hpe'⟩
      · exact h.ownsOnce i i' t e ho ho'
      · exact absurd ho ((hfree t e ((hcur t e).mp hpe')).2.1 i)
    · rcases howns.mp ho' with ho' | ⟨rfl, -, -⟩
      · exact absurd ho' ((hfree t e ((hcur t e).mp hpe)).2.1 i')
      · rfl
  · intro t e hq
    obtain ⟨hp, hno⟩ := h.queued t e hq
    refine ⟨hplaced.mpr hp, fun i ho => ?_⟩
    rcases howns.mp ho with ho | ⟨-, hpe⟩
    · exact hno i ho
    · exact (hfree t e ((hcur t e).mp hpe)).2.2 hq
  · intro t e s p d hs
    have hno : ¬ (parent = some t ∧ owner = some e) := fun hpe =>
      hs.notCurrent ((hcur t e).mp hpe)
    have hstart : b.Start t e s := by
      rcases hs.start with ho | ⟨rfl, ho⟩
      · rcases howns.mp ho with ho | ⟨-, ho⟩
        · exact .inl ho
        · exact absurd ho hno
      · exact .inr ⟨rfl, fun i hi => ho i (howns.mpr (.inl hi))⟩
    have hsv : s < v := by
      rcases hstart with ho | ⟨rfl, -⟩
      · exact b.lt_length_of_parent ho.1
      · exact b.lt_length_of_mem (hplaced.mp hs.placed)
    obtain ⟨j, a, hfind, ha⟩ := h.done t e s p d
      ⟨hplaced.mp hs.placed, hs.notQueued, hs.notCurrent, hstart, hs.locked, hs.mem, hs.safe⟩
    refine ⟨j, a, hfind.congr h.smaller ?_ ?_, ha⟩
    · exact fun k hk => hparent k (by omega)
    · exact fun k hk => hhere _ k (by omega)
  · intro e he
    rw [hentry, if_pos rfl] at he
    exact absurd he (by simp)
  · intro e he
    rw [hentry, if_pos rfl] at he
    exact absurd he (by simp)
  · intro t e
    rw [howns, ← hcur t e]
    constructor
    · rintro (ho | ⟨-, hpe⟩)
      · exact absurd (b.lt_length_of_parent ho.1) (by omega)
      · exact hpe
    · exact fun hpe => .inr ⟨rfl, hpe⟩

/-- The end of a turn: an empty tree is removed. -/
theorem Turn.close {seen : List DependencyID} (h : Turn lf b v cur seen)
    (hall : ∀ t e p, cur = some (t, e) → lf.locked e = some p →
      ∀ d ∈ (lf.resolutionList p).ids, d ∈ seen) :
    Inv lf (if (b.entry v).dependencies = [] then { b with list := b.list.dropLast } else b)
      none := by
  have hlast := h.last
  have hinv := h.inv
  split
  · next hempty =>
      have hentry (i : Nat) : ({ b with list := b.list.dropLast } : Builder).entry i =
          if i < v then b.entry i else default := by
        rw [b.entry_dropLast, hlast]
        simp only [Nat.add_lt_add_iff_right]
      set b' : Builder := { b with list := b.list.dropLast } with hb'
      have hparent (i : Nat) (hi : i < v) : b'.parent i = b.parent i := by
        rw [Builder.parent, hentry, if_pos hi]
        rfl
      have hhere (n : UInt64) (i : Nat) (hi : i < v) : b'.here lf n i = b.here lf n i := by
        rw [Builder.here, hentry, if_pos hi]
        rfl
      have hplaced {t : Nat} {e : DependencyID} : b'.Placed t e ↔ b.Placed t e := by
        unfold Builder.Placed
        rw [hentry]
        split
        · rfl
        · next ht =>
            rcases Nat.lt_or_ge t (v + 1) with ht' | ht'
            · obtain rfl : t = v := by omega
              rw [hempty]
              rfl
            · rw [b.entry_of_ge (by omega)]
      have howns {i t : Nat} {e : DependencyID} : b'.Owns i t e ↔ b.Owns i t e ∧ i < v := by
        unfold Builder.Owns Builder.parent
        rw [hentry]
        split
        · next hi => simp [hi]
        · next hi =>
            simp only [hi, and_false, iff_false, not_and]
            intro hnone
            exact absurd hnone (by show none ≠ _; simp)
      have hplt {t : Nat} {e : DependencyID} (hp : b.Placed t e) : t < v := by
        have := b.lt_length_of_mem hp
        rcases Nat.lt_or_ge t v with ht | ht
        · exact ht
        · obtain rfl : t = v := by omega
          unfold Builder.Placed at hp
          rw [hempty] at hp
          exact absurd hp (by simp)
      refine ⟨hinv.resolutions, ?_, ?_, ?_, ?_, ?_, ?_, ?_, hinv.queuedOnce, ?_⟩
      · intro i p hp
        have hi : i < v := by
          by_contra hi
          rw [Builder.parent, hentry, if_neg hi] at hp
          exact absurd hp (by show none ≠ _; simp)
        rw [hparent i hi] at hp
        exact hinv.smaller i p hp
      · intro i hi hp
        have hi' : i < v := by
          simp only [hb', List.length_dropLast] at hi
          omega
        rw [hparent i hi'] at hp
        exact hinv.rooted i (by omega) hp
      · intro t
        rw [hentry]
        split
        · exact hinv.names t
        · exact List.Pairwise.nil
      · intro t e hp
        exact hinv.ids t e (hplaced.mp hp)
      · intro i t e ho
        exact hplaced.mpr (hinv.owner i t e (howns.mp ho).1)
      · intro i i' t e ho ho'
        exact hinv.ownsOnce i i' t e (howns.mp ho).1 (howns.mp ho').1
      · intro t e hq
        obtain ⟨hp, hno⟩ := hinv.queued t e hq
        exact ⟨hplaced.mpr hp, fun i ho => hno i (howns.mp ho).1⟩
      · intro t e s p d hs
        have htv := hplt (hplaced.mp hs.placed)
        have hsv : s < v := by
          rcases hs.start with ho | ⟨rfl, -⟩
          · exact (howns.mp ho).2
          · exact htv
        have hsees : b.Sees lf s d := by
          rcases eq_or_ne cur (some (t, e)) with hc | hc
          · -- the package without a tree looks from the tree that holds it
            have hov := (h.current t e).mpr hc
            have hst : s = t := by
              rcases hs.start with ho | ⟨hst, -⟩
              · have := hinv.ownsOnce s v t e (howns.mp ho).1 hov
                omega
              · exact hst
            obtain ⟨j, a, hfind, ha⟩ := h.sees d (hall t e p hc hs.locked d hs.mem) hs.safe
            have hnone : b.here lf (lf.nameHash d) v = none :=
              (b.here_eq_none lf).mpr (by rw [hempty]; simp)
            refine ⟨j, a, ?_, ha⟩
            cases hfind with
            | here hx => exact absurd (hnone.symm.trans hx) (by simp)
            | up _ hpar hfind =>
              obtain rfl := Option.some.inj (hov.1.symm.trans hpar)
              rw [hst]
              exact hfind
          · have hstart : b.Start t e s := by
              rcases hs.start with ho | ⟨rfl, ho⟩
              · exact .inl (howns.mp ho).1
              · refine .inr ⟨rfl, fun i hi => ?_⟩
                have hlt := b.lt_length_of_parent hi.1
                rcases Nat.lt_or_ge i v with hiv | hiv
                · exact ho i (howns.mpr ⟨hi, hiv⟩)
                · obtain rfl : i = v := by omega
                  exact hc ((h.current _ _).mp hi)
            exact hinv.done t e s p d ⟨hplaced.mp hs.placed, hs.notQueued, hc, hstart, hs.locked,
              hs.mem, hs.safe⟩
        obtain ⟨j, a, hfind, ha⟩ := hsees
        refine ⟨j, a, hfind.congr hinv.smaller ?_ ?_, ha⟩
        · exact fun k hk => hparent k (by omega)
        · exact fun k hk => hhere _ k (by omega)
  · refine ⟨hinv.resolutions, hinv.smaller, hinv.rooted, hinv.names, hinv.ids, hinv.owner,
      hinv.ownsOnce, hinv.queued, hinv.queuedOnce, ?_⟩
    intro t e s p d hs
    rcases eq_or_ne cur (some (t, e)) with hc | hc
    · have hov := (h.current t e).mpr hc
      have hsv : s = v := by
        rcases hs.start with ho | ⟨-, ho⟩
        · exact hinv.ownsOnce s v t e ho hov
        · exact absurd hov (ho v)
      rw [hsv]
      exact h.sees d (hall t e p hc hs.locked d hs.mem) hs.safe
    · exact hinv.done t e s p d ⟨hs.placed, hs.notQueued, hc, hs.start, hs.locked, hs.mem, hs.safe⟩

end Loop

/-! ## The queue loop -/

/-- `Quiet` along the turn of the first item of the queue. -/
def QuietTurn (lf : Lockfile V) (b : Builder) : Prop :=
  ∀ item queue p, b.queue = item :: queue → item.hoistRootId ≠ none →
    b.resolution item.dependencyId = some p →
    QuietLoop lf (some (item.treeId, item.dependencyId)) b.list.length item.hoistRootId
      (lf.resolutionList p)
      (({ b with queue := queue } : Builder).openTree (some item.treeId) (some item.dependencyId))
      (lf.sortBuf (lf.resolutionList p))

section Run
variable {lf : Lockfile V} {b : Builder}

theorem Inv.dequeue (h : Inv lf b none) {item : FillItem} {queue : List FillItem}
    (hq : b.queue = item :: queue) :
    Inv lf { b with queue := queue } (some (item.treeId, item.dependencyId)) ∧
      ¬ ({ b with queue := queue } : Builder).Queued item.treeId item.dependencyId := by
  have hmem {t : Nat} {e : DependencyID}
      (h' : ({ b with queue := queue } : Builder).Queued t e) : b.Queued t e := by
    obtain ⟨i, hi, ht, he⟩ := h'
    exact ⟨i, by rw [hq]; exact List.mem_cons_of_mem _ hi, ht, he⟩
  have hnodup := h.queuedOnce
  rw [hq, List.map_cons, List.nodup_cons] at hnodup
  refine ⟨⟨h.resolutions, h.smaller, h.rooted, h.names, h.ids, h.owner, h.ownsOnce,
    fun t e hq' => h.queued t e (hmem hq'), hnodup.2, ?_⟩, ?_⟩
  · intro t e s p d hs
    refine h.done t e s p d ⟨hs.placed, ?_, by simp, hs.start, hs.locked, hs.mem, hs.safe⟩
    rintro ⟨i, hi, rfl, rfl⟩
    rw [hq] at hi
    rcases List.mem_cons.mp hi with rfl | hi
    · exact hs.notCurrent rfl
    · exact hs.notQueued ⟨i, hi, rfl, rfl⟩
  · rintro ⟨i, hi, ht, he⟩
    exact hnodup.1 (List.mem_map.mpr ⟨i, hi, by rw [ht, he]⟩)

/-- One turn of the queue loop. -/
theorem Inv.hoistStep (hplain : lf.Plain) (h : Inv lf b none) (hquiet : QuietTurn lf b) :
    Inv lf (hoistStep lf b) none := by
  unfold Install.hoistStep
  split
  · exact h
  · next item queue hq =>
      obtain ⟨hinv, hnq⟩ := h.dequeue hq
      obtain ⟨hplaced, hfree⟩ := h.queued item.treeId item.dependencyId
        ⟨item, by rw [hq]; exact List.mem_cons_self, rfl, rfl⟩
      have hid := h.ids _ _ hplaced
      obtain ⟨p, hp⟩ := Option.isSome_iff_exists.mp (hplain.resolved _ hid)
      have hpkg : ({ b with queue := queue } : Builder).packageOf (some item.dependencyId) =
          some p := by
        show b.resolutions.getD _ none = _
        rw [h.resolutions]
        exact hp
      have hlt := lf.locked_lt hp
      unfold processSubtree
      rw [hpkg]
      simp only
      split
      · next hlen =>
          -- a package without dependencies has nothing to look up
          refine ⟨hinv.resolutions, hinv.smaller, hinv.rooted, hinv.names, hinv.ids, hinv.owner,
            hinv.ownsOnce, hinv.queued, hinv.queuedOnce, ?_⟩
          intro t e s q d hs
          rcases eq_or_ne (item.treeId, item.dependencyId) (t, e) with heq | hne
          · obtain ⟨-, rfl⟩ := Prod.mk.inj heq
            obtain rfl := Option.some.inj (hp.symm.trans hs.locked)
            have hmem := DependencySlice.mem_ids.1 hs.mem
            omega
          · exact hinv.done t e s q d ⟨hs.placed, hs.notQueued, by simpa using hne, hs.start,
              hs.locked, hs.mem, hs.safe⟩
      · have hopen := Turn.openTree hinv (some item.treeId) (some item.dependencyId) (by simp)
          (fun t _ => ⟨_, rfl⟩) (by simp)
          (by
            intro t e hte
            obtain ⟨rfl, rfl⟩ := Prod.mk.inj (Option.some.inj hte)
            exact ⟨hplaced, hfree, hnq⟩)
        have hloop := hopen.foldl hplain hlt item.hoistRootId
          (lf.sortBuf (lf.resolutionList p)) (by simp [lf.mem_sortBuf])
          (by simpa using lf.nodup_sortBuf _)
          (by
            rcases eq_or_ne item.hoistRootId none with hr | hr
            · exact .inl hr
            · exact .inr (hquiet item queue p hq hr hpkg))
        refine hloop.close ?_
        intro t e q hte hlocked d hd
        obtain ⟨-, rfl⟩ := Prod.mk.inj (Option.some.inj hte)
        obtain rfl := Option.some.inj (hp.symm.trans hlocked)
        rw [List.nil_append]
        exact lf.mem_sortBuf.mpr hd

/-- The root's turn. -/
theorem inv_hoistStart (hplain : lf.Plain) : Inv lf (hoistStart lf lf.resolutions) none := by
  have hinit : Inv lf (.init lf.resolutions) none := by
    have hentry (i : Nat) : (Builder.init lf.resolutions).entry i = default := rfl
    have hplaced (t : Nat) (e : DependencyID) : ¬ (Builder.init lf.resolutions).Placed t e := by
      intro h
      exact absurd h (by show e ∉ []; simp)
    have howns (i t : Nat) (e : DependencyID) : ¬ (Builder.init lf.resolutions).Owns i t e := by
      intro h
      exact absurd h.1 (by show none ≠ _; simp)
    refine ⟨rfl, ?_, ?_, ?_, ?_, ?_, ?_, ?_, List.nodup_nil, ?_⟩
    · exact fun i p h => absurd h (by show none ≠ _; simp)
    · exact fun i hi _ => absurd hi (Nat.not_lt_zero i)
    · exact fun t => List.Pairwise.nil
    · exact fun t e h => absurd h (hplaced t e)
    · exact fun i t e h => absurd h (howns i t e)
    · exact fun i i' t e h _ => absurd h (howns i t e)
    · rintro t e ⟨item, hitem, -⟩
      exact absurd hitem (by show item ∉ []; simp)
    · exact fun t e s p d h => absurd h.placed (hplaced t e)
  unfold hoistStart processSubtree
  simp only [Builder.packageOf]
  split
  · exact hinit
  · have hopen := Turn.openTree hinit none none (fun _ => rfl) (by simp) (by simp) (by simp)
    have hloop := hopen.foldl hplain lf.root_mem none
      (lf.sortBuf (lf.resolutionList 0)) (by simp [lf.mem_sortBuf])
      (by simpa using lf.nodup_sortBuf _) (.inl rfl)
    exact hloop.close (by simp)

/-- The whole run. -/
theorem inv_hoistRun (hplain : lf.Plain)
    (hquiet : ∀ n, QuietTurn lf (hoistRun lf lf.resolutions n)) :
    ∀ n, Inv lf (hoistRun lf lf.resolutions n) none
  | 0 => inv_hoistStart hplain
  | n + 1 => by
    have hstep := (inv_hoistRun hplain hquiet n).hoistStep hplain (hquiet n)
    rwa [hoistRun, Function.iterate_succ_apply']

end Run

end OhosBun.Install
