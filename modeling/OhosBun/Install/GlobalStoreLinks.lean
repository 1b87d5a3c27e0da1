/-
# `OhosBun.Install.GlobalStoreLinks` — one key, the same links

The second question about two stores: when two entries have the same store path
and the same key, are their dependencies linked alike?  With a hash that tells all
values apart:

    LinksAgree              the same aliases, linked to entries with the same
                            store paths and keys
    Pinned                  the entry is alone in its component, and so, up to
                            store paths, are the entries it links to
    keyFixesLinks_iff       the key fixes the links exactly for such entries

A component of several entries has one key, which says which entries and which
links out of it there are, not which entry has which link.
-/
import Mathlib.Data.List.Forall2
import OhosBun.Install.GlobalStoreSharing

namespace OhosBun.Install

open OhosBun.Lib

section Links
variable (wyhash : UInt64 → List HashInput → Nat)

/-- The same alias, and the linked entries have the same store path and key. -/
def SameLink (S S' : Store) (d d' : EntryDependency) : Prop :=
  d.nameHash = d'.nameHash ∧
    (S.entry d.entryId).storePath = (S'.entry d'.entryId).storePath ∧
    entryHash wyhash S d.entryId = entryHash wyhash S' d'.entryId

/-- The same links on both sides. -/
structure LinksAgree (S S' : Store) (e e' : Nat) : Prop where
  left : ∀ d ∈ S.deps e, ∃ d' ∈ S'.deps e', SameLink wyhash S S' d d'
  right : ∀ d' ∈ S'.deps e', ∃ d ∈ S.deps e, SameLink wyhash S S' d d'

/-- A directory made for the entry is right for every entry with its path and key. -/
def KeyFixesLinks (S : Store) (e : Nat) : Prop :=
  ∀ (S' : Store) (e' : Nat), e' < S'.entries.length → entryHash wyhash S e ≠ 0 →
    entryHash wyhash S e = entryHash wyhash S' e' →
    (S.entry e).storePath = (S'.entry e').storePath → LinksAgree wyhash S S' e e'

end Links

/-- The entry is alone in its component, and each component it links to has one
store path, unless the entry depends on itself: then its key holds what the first
pass left for it, and with it the store paths of its links. -/
def Store.Pinned (S : Store) (e : Nat) : Prop :=
  S.Alone e ∧ (S.SelfDependent e ∨ ∀ d ∈ S.deps e, ∀ y, S.graph.Mutual d.entryId y →
    (S.entry y).storePath = (S.entry d.entryId).storePath)

theorem exists_of_forall₂ {α β : Type*} {R : α → β → Prop} {l : List α} {l' : List β}
    (h : List.Forall₂ R l l') {a : α} (ha : a ∈ l) : ∃ b ∈ l', R a b := by
  induction h with
  | nil => exact absurd ha List.not_mem_nil
  | cons hab _ ih =>
    rcases List.mem_cons.mp ha with rfl | ha
    · exact ⟨_, List.mem_cons_self, hab⟩
    · obtain ⟨b, hb, hR⟩ := ih ha
      exact ⟨b, List.mem_cons_of_mem _ hb, hR⟩

/-! ## The key fixes the links -/

section Free
variable {wyhash : UInt64 → List HashInput → Nat} (hfree : CollisionFree wyhash)
include hfree

variable {S S' : Store} {x x' e : Nat}

/-- The store path is in what the first pass hashes. -/
theorem storePath_eq_of_firstHash (hclean : ¬ S.Poisoned x) (hclean' : ¬ S'.Poisoned x')
    (h : firstHash wyhash S x = firstHash wyhash S' x') :
    (S.entry x).storePath = (S'.entry x').storePath := by
  rcases dfsPass_spec wyhash S (S.lt_of_not_poisoned hclean) with ⟨-, hbad⟩ | ⟨-, -, inputs, -, hh⟩
  · exact absurd hbad hclean
  rcases dfsPass_spec wyhash S' (S'.lt_of_not_poisoned hclean') with
    ⟨-, hbad⟩ | ⟨-, -, inputs', -, hh'⟩
  · exact absurd hbad hclean'
  rw [firstHash, hh, firstHash, hh'] at h
  exact (ownInputs_append_inj (hfree.nonZero_inj h).2).1

/-- The key tells entries that are alone from members of a larger component. -/
theorem alone_of_secondHash_eq (hclean : ¬ S.Poisoned x) (hclean' : ¬ S'.Poisoned x')
    (h : secondHash wyhash S x = secondHash wyhash S' x') (halone : S.Alone x) :
    S'.Alone x' ∧ singleInputs wyhash S x = singleInputs wyhash S' x' := by
  obtain ⟨sccs, ho⟩ := exists_ordered wyhash S
  obtain ⟨sccs', ho'⟩ := exists_ordered wyhash S'
  rw [secondHash_of_alone ho hclean halone] at h
  by_cases halone' : S'.Alone x'
  · rw [secondHash_of_alone ho' hclean' halone'] at h
    exact ⟨halone', (hfree.nonZero_inj h).2⟩
  · obtain ⟨C', -, -, hh'⟩ := secondHash_of_not_alone ho' hclean' halone'
    rw [hh'] at h
    exact absurd (hfree.nonZero_inj h).1 (by decide)

/-- The key of a component names the store paths of its members. -/
theorem exists_storePath_eq (hclean : ¬ S.Poisoned x) (hclean' : ¬ S'.Poisoned x')
    (h : secondHash wyhash S x = secondHash wyhash S' x') :
    ∃ y, S.graph.Mutual x y ∧ (S.entry y).storePath = (S'.entry x').storePath := by
  by_cases halone : S.Alone x
  · obtain ⟨-, hinputs⟩ := alone_of_secondHash_eq hfree hclean hclean' h halone
    exact ⟨x, ⟨.refl, .refl⟩, (ownInputs_append_inj hinputs).1⟩
  · have halone' : ¬ S'.Alone x' := fun ha =>
      halone (alone_of_secondHash_eq hfree hclean' hclean h.symm ha).1
    obtain ⟨sccs, ho⟩ := exists_ordered wyhash S
    obtain ⟨sccs', ho'⟩ := exists_ordered wyhash S'
    obtain ⟨C, hC, hx, hh⟩ := secondHash_of_not_alone ho hclean halone
    obtain ⟨C', hC', hx', hh'⟩ := secondHash_of_not_alone ho' hclean' halone'
    rw [hh, hh'] at h
    have hinputs := (hfree.nonZero_inj h).2
    rw [sccInputs, sccInputs] at hinputs
    have hlists := List.map_injective_iff.mpr (fun a b hab => HashInput.hash.inj hab) hinputs
    have hmem : wyhash 0 (S'.ownInputs x') ∈
        (memberSubs wyhash S C).insertionSort (· ≤ ·) ++
          (externalSubs wyhash S C).dedup.insertionSort (· ≤ ·) := by
      rw [hlists]
      refine List.mem_append_left _ ((List.mem_insertionSort _).mpr ?_)
      exact List.mem_map_of_mem hx'
    rcases List.mem_append.mp hmem with hmem | hmem
    · obtain ⟨y, hy, hown⟩ := List.mem_map.mp ((List.mem_insertionSort _).mp hmem)
      refine ⟨y, (hC.mem_iff x hx y).mp hy, ?_⟩
      have hown := (hfree.injective hown).2
      exact HashInput.storePath.inj (List.cons.inj hown).1
    · -- a link out of a component is hashed from other values
      obtain ⟨d, -, hext⟩ := List.mem_map.mp (List.mem_dedup.mp ((List.mem_insertionSort _).mp hmem))
      exact absurd (hfree.injective hext).2 (by simp [Store.ownInputs])

/-- The first pass reads no hash for a link to itself, the second reads one for
every link. -/
theorem firstHash_ne_secondHash {y : Nat} (hclean : ¬ S.Poisoned x) (halone : S.Alone x)
    (hself : S.SelfDependent x) (hclean' : ¬ S'.Poisoned y) :
    firstHash wyhash S x ≠ secondHash wyhash S' y := by
  intro h
  obtain ⟨sccs', ho'⟩ := exists_ordered wyhash S'
  rw [firstHash_of_alone hclean halone] at h
  by_cases halone' : S'.Alone y
  · rw [secondHash_of_alone ho' hclean' halone'] at h
    have hinputs := (hfree.nonZero_inj h).2
    rw [firstInputs_eq_pieces, singleInputs_eq_pieces] at hinputs
    obtain ⟨d, hd, hdx⟩ := List.mem_map.mp hself
    obtain ⟨d', -, -, hread⟩ :=
      exists_of_forall₂ (flatMap_piece_inj (ownInputs_append_inj hinputs).2.2) hd
    simp [hdx] at hread
  · obtain ⟨C', -, -, hh'⟩ := secondHash_of_not_alone ho' hclean' halone'
    rw [hh'] at h
    exact absurd (hfree.nonZero_inj h).1 (by decide)

/-- Two entries alone whose keys hold the same values are linked alike when their
links to other entries have the same store paths. -/
theorem linksAgree_of_forall₂ {e' : Nat} (hclean : ¬ S.Poisoned e) (hclean' : ¬ S'.Poisoned e')
    (halone : S.Alone e) (halone' : S'.Alone e') (hpath : (S.entry e).storePath = (S'.entry e').storePath)
    (hkey : entryHash wyhash S e = entryHash wyhash S' e')
    (hlinks : List.Forall₂ (fun d d' => d.nameHash = d'.nameHash ∧
      linkHash wyhash S e d.entryId = linkHash wyhash S' e' d'.entryId ∧
      (d.entryId ≠ e → d'.entryId ≠ e' →
        (S.entry d.entryId).storePath = (S'.entry d'.entryId).storePath)) (S.deps e) (S'.deps e')) :
    LinksAgree wyhash S S' e e' := by
  have hsame : List.Forall₂ (SameLink wyhash S S') (S.deps e) (S'.deps e') := by
    obtain ⟨hlen, hzip⟩ := List.forall₂_iff_zip.mp hlinks
    refine List.forall₂_iff_zip.mpr ⟨hlen, fun {d d'} hdd => ?_⟩
    obtain ⟨hname, hlink, hpaths⟩ := hzip hdd
    obtain ⟨hd, hd'⟩ := List.of_mem_zip hdd
    have hgood : ¬ S.Poisoned d.entryId := fun hbad => hclean (hbad.of_edge (S.edge_of_mem hd))
    have hgood' : ¬ S'.Poisoned d'.entryId := fun hbad =>
      hclean' (hbad.of_edge (S'.edge_of_mem hd'))
    by_cases hself : d.entryId = e
    · have hdep : S.SelfDependent e := List.mem_map.mpr ⟨d, hd, hself⟩
      by_cases hself' : d'.entryId = e'
      · rw [SameLink, hself, hself']
        exact ⟨hname, hpath, hkey⟩
      · rw [linkHash, linkHash, if_pos hself, if_neg hself'] at hlink
        exact absurd hlink (firstHash_ne_secondHash hfree hclean halone hdep hgood')
    · by_cases hself' : d'.entryId = e'
      · have hdep' : S'.SelfDependent e' := List.mem_map.mpr ⟨d', hd', hself'⟩
        rw [linkHash, linkHash, if_neg hself, if_pos hself'] at hlink
        exact absurd hlink.symm (firstHash_ne_secondHash hfree hclean' halone' hdep' hgood)
      · rw [linkHash, linkHash, if_neg hself, if_neg hself'] at hlink
        refine ⟨hname, hpaths hself hself', ?_⟩
        rw [((entryHash_eq wyhash S (S.lt_of_not_poisoned hgood)).2 hgood).1,
          ((entryHash_eq wyhash S' (S'.lt_of_not_poisoned hgood')).2 hgood').1]
        exact hlink
  refine ⟨fun d hd => exists_of_forall₂ hsame hd, fun d' hd' => ?_⟩
  exact exists_of_forall₂ (List.Forall₂.flip hsame) hd'

theorem keyFixesLinks_of_pinned (he : e < S.entries.length) (hpin : S.Pinned e) :
    KeyFixesLinks wyhash S e := by
  intro S' e' he' hne hkey hpath
  obtain ⟨halone, hpin⟩ := hpin
  obtain ⟨hzero, hkeep⟩ := entryHash_eq wyhash S he
  obtain ⟨hzero', hkeep'⟩ := entryHash_eq wyhash S' he'
  have hclean : ¬ S.Poisoned e := fun hbad => hne (hzero hbad)
  have hclean' : ¬ S'.Poisoned e' := fun hbad => hne (hkey.trans (hzero' hbad))
  have hsecond : secondHash wyhash S e = secondHash wyhash S' e' :=
    (hkeep hclean).1.symm.trans (hkey.trans (hkeep' hclean').1)
  obtain ⟨halone', hinputs⟩ := alone_of_secondHash_eq hfree hclean hclean' hsecond halone
  rw [singleInputs_eq_pieces, singleInputs_eq_pieces] at hinputs
  have hpieces := flatMap_piece_inj (ownInputs_append_inj hinputs).2.2
  refine linksAgree_of_forall₂ hfree hclean hclean' halone halone' hpath hkey ?_
  obtain ⟨hlen, hzip⟩ := List.forall₂_iff_zip.mp hpieces
  rcases hpin with hself | hpin
  · -- the link to itself holds the values of the first pass, and these the store paths
    obtain ⟨d₀, hd₀, hde⟩ := List.mem_map.mp hself
    obtain ⟨d₀', hd₀', -, hlink⟩ := exists_of_forall₂ hpieces hd₀
    have hfirst : firstHash wyhash S e = firstHash wyhash S' e' := by
      have hlink := Option.some.inj hlink
      have hgood' : ¬ S'.Poisoned d₀'.entryId := fun hbad =>
        hclean' (hbad.of_edge (S'.edge_of_mem hd₀'))
      by_cases hself' : d₀'.entryId = e'
      · rwa [linkHash, linkHash, if_pos hde, if_pos hself'] at hlink
      · rw [linkHash, linkHash, if_pos hde, if_neg hself'] at hlink
        exact absurd hlink (firstHash_ne_secondHash hfree hclean halone hself hgood')
    rw [firstHash_of_alone hclean halone, firstHash_of_alone hclean' halone'] at hfirst
    have hreads := (hfree.nonZero_inj hfirst).2
    rw [firstInputs_eq_pieces, firstInputs_eq_pieces] at hreads
    obtain ⟨-, hzip'⟩ := List.forall₂_iff_zip.mp
      (flatMap_piece_inj (ownInputs_append_inj hreads).2.2)
    refine List.forall₂_iff_zip.mpr ⟨hlen, fun {d d'} hdd => ?_⟩
    obtain ⟨hd, hd'⟩ := List.of_mem_zip hdd
    refine ⟨(hzip hdd).1, Option.some.inj (hzip hdd).2, fun hne hne' => ?_⟩
    have hread := (hzip' hdd).2
    rw [if_neg hne, if_neg hne'] at hread
    exact storePath_eq_of_firstHash hfree
      (fun hbad => hclean (hbad.of_edge (S.edge_of_mem hd)))
      (fun hbad => hclean' (hbad.of_edge (S'.edge_of_mem hd'))) (Option.some.inj hread)
  · refine List.forall₂_iff_zip.mpr ⟨hlen, fun {d d'} hdd => ?_⟩
    obtain ⟨hd, hd'⟩ := List.of_mem_zip hdd
    have hlink := Option.some.inj (hzip hdd).2
    refine ⟨(hzip hdd).1, hlink, fun hne hne' => ?_⟩
    rw [linkHash, linkHash, if_neg hne, if_neg hne'] at hlink
    obtain ⟨y, hy, hyd⟩ := exists_storePath_eq hfree
      (fun hbad => hclean (hbad.of_edge (S.edge_of_mem hd)))
      (fun hbad => hclean' (hbad.of_edge (S'.edge_of_mem hd'))) hlink
    exact (hpin d hd y hy).symm.trans hyd

end Free

/-! ## Further entries -/

/-- What one store has, the other has under the same numbers. -/
def Store.Extends (S' S : Store) : Prop := S.entries <+: S'.entries

section Extends
variable {S S' : Store} (h : S'.Extends S)
include h

variable {x n : Nat} {wyhash : UInt64 → List HashInput → Nat} {s t : Dfs} {rest : List StackFrame}

theorem Store.Extends.entry_eq (hx : x < S.entries.length) : S'.entry x = S.entry x := by
  obtain ⟨extra, hextra⟩ := h
  rw [Store.entry, Store.entry, ← hextra, List.getD_append _ _ _ _ hx]

theorem Store.Extends.deps_eq (hx : x < S.entries.length) : S'.deps x = S.deps x := by
  rw [Store.deps, Store.deps, h.entry_eq hx]

/-- Both first passes take the same steps until that of the smaller store is done. -/
theorem dfsStep_of_extends (hinv : DfsInv wyhash S s) (hnot : ¬ DfsDone S s) :
    dfsStep wyhash S' s = dfsStep wyhash S s := by
  cases hstack : s.stack with
  | nil =>
    have hroot : s.root < S.entries.length := by
      by_contra hge
      exact hnot ⟨hstack, Nat.not_lt.mp hge⟩
    have hroot' : s.root < S'.entries.length := hroot.trans_le (List.IsPrefix.length_le h)
    simp only [dfsStep, hstack, hroot, hroot', if_true]
  | cons top rest =>
    have htop := hinv.lt top (hstack ▸ List.mem_cons_self)
    simp only [dfsStep, hstack, h.entry_eq htop, h.deps_eq htop, Store.ownInputs]

/-- What the larger pass leaves alone once the smaller one is done. -/
structure Settled (n : Nat) (t s : Dfs) : Prop where
  stack : ∀ f ∈ s.stack, n ≤ f.id
  states : ∀ x < n, s.states x = t.states x
  hashes : ∀ x < n, s.hashes x = t.hashes x

omit h in
theorem Settled.reject {id : Nat} (hs : Settled n t s) (hid : n ≤ id) (hrest : ∀ f ∈ rest, n ≤ f.id) :
    Settled n t (s.reject id rest) := by
  have hne {x : Nat} (hx : x < n) : x ≠ id := (hx.trans_le hid).ne
  refine ⟨hrest, fun x hx => ?_, fun x hx => ?_⟩
  · exact (Function.update_of_ne (hne hx) _ _).trans (hs.states x hx)
  · exact (Function.update_of_ne (hne hx) _ _).trans (hs.hashes x hx)

omit h in
/-- A turn for the next of the dependencies, or for the end of them. -/
theorem Settled.link {top : StackFrame} (hs : Settled n t s) (hnew : ∀ x, s.states x = .unvisited → n ≤ x)
    (htop : n ≤ top.id) (hrest : ∀ f ∈ rest, n ≤ f.id) :
    Settled n t (match (S.deps top.id)[top.nextDep]? with
      | some dep => dfsLink s top rest dep
      | none => dfsFinish wyhash s top rest) := by
  have hne {x : Nat} (hx : x < n) : x ≠ top.id := (hx.trans_le htop).ne
  have hcons {f : StackFrame} (hf : f.id = top.id) : ∀ g ∈ f :: rest, n ≤ g.id := by
    intro g hg
    rcases List.mem_cons.mp hg with rfl | hg
    · exact hf ▸ htop
    · exact hrest g hg
  split
  · next dep _ =>
      unfold dfsLink
      split
      · exact ⟨hcons rfl, hs.states, hs.hashes⟩
      · exact hs.reject htop hrest
      · exact ⟨hcons rfl, hs.states, hs.hashes⟩
      · next hdep =>
          refine ⟨fun f hf => ?_, hs.states, hs.hashes⟩
          rcases List.mem_cons.mp hf with rfl | hf
          · exact hnew _ hdep
          · exact hcons rfl f hf
  · refine ⟨hrest, fun x hx => ?_, fun x hx => ?_⟩
    · exact (Function.update_of_ne (hne hx) _ _).trans (hs.states x hx)
    · exact (Function.update_of_ne (hne hx) _ _).trans (hs.hashes x hx)

omit h in
theorem Settled.step (ht : ∀ x < n, t.states x ≠ .unvisited) (hs : Settled n t s) :
    Settled n t (dfsStep wyhash S s) := by
  have hnew {x : Nat} (hx : s.states x = .unvisited) : n ≤ x := by
    by_contra hlt
    exact ht x (Nat.not_le.mp hlt) ((hs.states x (Nat.not_le.mp hlt)).symm.trans hx)
  unfold dfsStep
  split
  · next hstack =>
      split
      · split
        · next hroot =>
            refine ⟨fun f hf => ?_, hs.states, hs.hashes⟩
            obtain rfl := List.mem_singleton.mp hf
            exact hnew hroot
        · exact ⟨hs.stack, hs.states, hs.hashes⟩
      · exact hs
  · next top rest hstack =>
      have htop : n ≤ top.id := hs.stack top (hstack ▸ List.mem_cons_self)
      have hrest : ∀ f ∈ rest, n ≤ f.id :=
        fun f hf => hs.stack f (hstack ▸ List.mem_cons_of_mem _ hf)
      have hne {x : Nat} (hx : x < n) : x ≠ top.id := (hx.trans_le htop).ne
      have hcons {f : StackFrame} (hf : f.id = top.id) : ∀ g ∈ f :: rest, n ≤ g.id := by
        intro g hg
        rcases List.mem_cons.mp hg with rfl | hg
        · exact hf ▸ htop
        · exact hrest g hg
      split
      · split
        · refine ⟨hcons rfl, fun x hx => ?_, hs.hashes⟩
          exact (Function.update_of_ne (hne hx) _ _).trans (hs.states x hx)
        · exact hs.reject htop hrest
      · exact ⟨hrest, hs.states, hs.hashes⟩
      · exact hs.link (fun _ => hnew) htop hrest
      · exact hs.link (fun _ => hnew) htop hrest

/-- Further entries do not change what the first pass leaves. -/
theorem firstHash_of_extends (wyhash : UInt64 → List HashInput → Nat) (hx : x < S.entries.length) :
    firstHash wyhash S' x = firstHash wyhash S x := by
  obtain ⟨m, hm⟩ := exists_iterate_eq (dfsStep wyhash S) (DfsInv wyhash S) (DfsDone S)
    (dfsStep wyhash S') (fun _ => dfsStep_of_done)
    (fun s hs hnot => ⟨hs.step, dfsStep_of_extends h hs hnot⟩) (dfsTurns S .start) dfsInv_start
  have hm : (dfsStep wyhash S')^[m] .start = dfsPass wyhash S := hm
  obtain ⟨hinv, hstack, hroot⟩ := dfsPass_inv wyhash S
  obtain ⟨-, hdone'⟩ := dfsPass_inv wyhash S'
  have hseen : ∀ y < S.entries.length, (dfsPass wyhash S).states y ≠ .unvisited := by
    intro y hy
    rcases hinv.roots y (hy.trans_le hroot) with hy | hy
    · exact hy
    · rw [hstack] at hy
      exact absurd hy List.not_mem_nil
  have hsettled (k : Nat) : Settled S.entries.length (dfsPass wyhash S)
      ((dfsStep wyhash S')^[k] (dfsPass wyhash S)) := by
    induction k with
    | zero => exact ⟨fun f hf => by simp [hstack] at hf, fun _ _ => rfl, fun _ _ => rfl⟩
    | succ k ih =>
      rw [Function.iterate_succ_apply']
      exact ih.step hseen
  rcases Nat.le_total m (dfsTurns S' .start) with hle | hle
  · have hpass : dfsPass wyhash S' =
        (dfsStep wyhash S')^[dfsTurns S' .start - m] (dfsPass wyhash S) := by
      rw [← hm, ← Function.iterate_add_apply, Nat.sub_add_cancel hle, dfsPass]
    rw [firstHash, hpass]
    exact (hsettled _).hashes x hx
  · have hpass : dfsPass wyhash S = dfsPass wyhash S' := by
      rw [← hm, ← Nat.sub_add_cancel hle, Function.iterate_add_apply]
      exact Function.iterate_fixed (dfsStep_of_done hdone') _
    rw [firstHash, ← hpass, firstHash]

theorem Store.Extends.renumbers (hx : x < S.entries.length) : Renumbers S S' id x := by
  have hlt {y : Nat} (hy : S.graph.Reach x y) : y < S.entries.length := S.reach_lt hx hy
  refine ⟨hx, ?_, fun y z _ _ hyz => hyz, ?_, ?_, ?_, ?_⟩
  · exact fun y hy => (hlt hy).trans_le (List.IsPrefix.length_le h)
  · exact fun y hy => by rw [id, h.entry_eq (hlt hy)]
  · exact fun y hy => by rw [id, h.entry_eq (hlt hy)]
  · exact fun y hy => by rw [id, h.entry_eq (hlt hy)]
  · exact fun y hy => by simp [h.deps_eq (hlt hy)]

/-- Further entries do not change the hashes of the second pass. -/
theorem secondHash_of_extends (wyhash : UInt64 → List HashInput → Nat) (hclean : ¬ S.Poisoned x) :
    secondHash wyhash S' x = secondHash wyhash S x := by
  obtain ⟨sccs, ho⟩ := exists_ordered wyhash S
  obtain ⟨sccs', ho'⟩ := exists_ordered wyhash S'
  have hx := S.lt_of_not_poisoned hclean
  exact (h.renumbers hx).secondHash_eq
    (fun y _ hy _ _ => firstHash_of_extends h wyhash (S.lt_of_not_poisoned hy)) ho ho'
    (List.append_nil sccs).symm x (ho.covers x hx) .refl hclean

/-- **Further entries change no key**. -/
theorem entryHash_of_extends (wyhash : UInt64 → List HashInput → Nat) (hx : x < S.entries.length) :
    entryHash wyhash S' x = entryHash wyhash S x := by
  obtain ⟨hzero, hkeep⟩ := entryHash_eq wyhash S hx
  obtain ⟨hzero', hkeep'⟩ := entryHash_eq wyhash S' (hx.trans_le (List.IsPrefix.length_le h))
  have hiff : S'.Poisoned x ↔ S.Poisoned x := (h.renumbers hx).poisoned_iff .refl
  by_cases hbad : S.Poisoned x
  · rw [hzero hbad, hzero' (hiff.mpr hbad)]
  · rw [(hkeep hbad).1, (hkeep' fun hbad' => hbad (hiff.mp hbad')).1]
    exact secondHash_of_extends h wyhash hbad

end Extends

/-- The store with further entries at its end. -/
def Store.append (S : Store) (extra : List StoreEntry)
    (hlinks : ∀ a ∈ extra, ∀ d ∈ a.dependencies, d.entryId < S.entries.length + extra.length) :
    Store where
  entries := S.entries ++ extra
  links := by
    intro a ha d hd
    rw [List.length_append]
    rcases List.mem_append.mp ha with ha | ha
    · exact (S.links a ha d hd).trans_le (Nat.le_add_right _ _)
    · exact hlinks a ha d hd

section Append
variable {S : Store} {extra : List StoreEntry}
  {hlinks : ∀ a ∈ extra, ∀ d ∈ a.dependencies, d.entryId < S.entries.length + extra.length}

theorem extends_append : (S.append extra hlinks).Extends S := ⟨extra, rfl⟩

theorem length_append : (S.append extra hlinks).entries.length = S.entries.length + extra.length :=
  List.length_append

theorem map_entry_append :
    (List.range' S.entries.length extra.length).map (S.append extra hlinks).entry = extra := by
  refine List.ext_getElem (by simp) fun i hi hi' => ?_
  simp [Store.entry, Store.append, hi']

theorem entry_append_head {a : StoreEntry} (h : extra.head? = some a) :
    (S.append extra hlinks).entry S.entries.length = a := by
  cases extra with
  | nil => exact absurd h (by simp)
  | cons b extra =>
    obtain rfl := Option.some.inj h
    simp [Store.entry, Store.append]

/-- The entries of the first store do not reach the further ones. -/
theorem lt_of_reach_append {x y : Nat} (hx : x < S.entries.length)
    (hr : (S.append extra hlinks).graph.Reach x y) : y < S.entries.length := by
  obtain ⟨z, hz, rfl⟩ := (extends_append.renumbers hx).exists_reach .refl hr
  exact S.reach_lt hx hz

theorem not_poisoned_append {x : Nat} (h : ¬ S.Poisoned x) :
    ¬ (S.append extra hlinks).Poisoned x := by
  have hiff : (S.append extra hlinks).Poisoned x ↔ S.Poisoned x :=
    (extends_append.renumbers (S.lt_of_not_poisoned h)).poisoned_iff .refl
  exact fun hbad => h (hiff.mp hbad)

end Append

variable {S : Store} {x y e : Nat} {wyhash : UInt64 → List HashInput → Nat}

/-- An eligible entry is poisoned through one of its links. -/
theorem Store.not_poisoned_of_deps (hx : (S.entry x).eligible = true)
    (hdeps : ∀ d ∈ S.deps x, ¬ S.Poisoned d.entryId) : ¬ S.Poisoned x := by
  rintro ⟨y, hy, hbad⟩
  rcases Relation.ReflTransGen.cases_head hy with rfl | ⟨z, hedge, hz⟩
  · exact absurd (hx.symm.trans hbad) (by simp)
  · obtain ⟨d, hd, rfl⟩ := List.mem_map.mp hedge
    exact hdeps d hd ⟨y, hz, hbad⟩

theorem Store.eligible_of_not_poisoned (hx : ¬ S.Poisoned x) :
    (S.entry x).eligible = true := by
  by_contra hbad
  exact hx ⟨x, .refl, by simpa using hbad⟩

/-- A component has one hash. -/
theorem secondHash_eq_of_mutual (wyhash : UInt64 → List HashInput → Nat) (hx : x < S.entries.length)
    (h : S.graph.Mutual x y) :
    secondHash wyhash S y = secondHash wyhash S x := by
  obtain ⟨sccs, ho⟩ := exists_ordered wyhash S
  obtain ⟨pre, C, post, hsplit, hxC⟩ := exists_split ho hx
  obtain ⟨k, hk, -⟩ := ho.hash_eq pre C post hsplit
  have hyC := ((ho.topological pre C post hsplit).1.mem_iff x hxC y).mpr h
  rw [hk x hxC, hk y hyC]

/-! ## Where it does not -/

section Relink
variable (wyhash : UInt64 → List HashInput → Nat) (S : Store)

/-- A copy of an entry with its links to keys `k` led to `y`. -/
def relinkedEntry (e k y : Nat) : StoreEntry :=
  { S.entry e with
    dependencies := (S.deps e).map fun d =>
      if secondHash wyhash S d.entryId = k then ⟨d.nameHash, y⟩ else d }

def relinkedStore (e k y : Nat) (hy : y < S.entries.length) : Store :=
  S.append [relinkedEntry wyhash S e k y] <| by
    intro a ha d' hd'
    obtain rfl := List.mem_singleton.mp ha
    obtain ⟨d, hd, rfl⟩ := List.mem_map.mp hd'
    refine Nat.lt_of_lt_of_le ?_ (Nat.le_add_right _ _)
    split
    · exact hy
    · exact (S.deps_lt hd).2

variable {wyhash S} {e k y : Nat} (hy : y < S.entries.length)

theorem entry_relinkedStore : (relinkedStore wyhash S e k y hy).entry S.entries.length =
    relinkedEntry wyhash S e k y :=
  entry_append_head rfl

theorem deps_relinkedStore : (relinkedStore wyhash S e k y hy).deps S.entries.length =
    (S.deps e).map fun d => if secondHash wyhash S d.entryId = k then ⟨d.nameHash, y⟩ else d := by
  rw [Store.deps, entry_relinkedStore]
  rfl

/-- Nothing links to the copy. -/
theorem not_edge_relinkedStore (v : Nat) :
    ¬ (relinkedStore wyhash S e k y hy).graph.Edge v S.entries.length := by
  intro hedge
  rcases Nat.lt_or_ge v S.entries.length with hv | hv
  · exact absurd (lt_of_reach_append hv (.single hedge)) (Nat.lt_irrefl _)
  · obtain ⟨d', hd', hd⟩ := List.mem_map.mp hedge
    have hlt := ((relinkedStore wyhash S e k y hy).deps_lt hd').1
    have hlen : (relinkedStore wyhash S e k y hy).entries.length = S.entries.length + 1 :=
      length_append
    obtain rfl : v = S.entries.length := by omega
    rw [deps_relinkedStore] at hd'
    obtain ⟨c, hc, rfl⟩ := List.mem_map.mp hd'
    split at hd
    · exact absurd (hd ▸ hy) (Nat.lt_irrefl _)
    · exact absurd (hd ▸ (S.deps_lt hc).2) (Nat.lt_irrefl _)

theorem alone_relinkedStore : (relinkedStore wyhash S e k y hy).Alone S.entries.length := by
  intro z hz
  exact Store.eq_of_reach_to (fun v hv => absurd hv (not_edge_relinkedStore hy v)) hz.2

theorem not_poisoned_relinkedStore (hclean : ¬ S.Poisoned e) (hgood : ¬ S.Poisoned y) :
    ¬ (relinkedStore wyhash S e k y hy).Poisoned S.entries.length := by
  refine Store.not_poisoned_of_deps ?_ fun d' hd' => not_poisoned_append ?_
  · rw [entry_relinkedStore]
    exact S.eligible_of_not_poisoned hclean
  · rw [deps_relinkedStore] at hd'
    obtain ⟨d, hd, rfl⟩ := List.mem_map.mp hd'
    split
    · exact hgood
    · exact fun hbad => hclean (hbad.of_edge (S.edge_of_mem hd))

/-- The copy has the key of the entry. -/
theorem secondHash_relinkedStore (hclean : ¬ S.Poisoned e) (halone : S.Alone e)
    (hself : ¬ S.SelfDependent e) (hgood : ¬ S.Poisoned y) (hkey : secondHash wyhash S y = k) :
    secondHash wyhash (relinkedStore wyhash S e k y hy) S.entries.length =
      secondHash wyhash S e := by
  obtain ⟨sccs, ho⟩ := exists_ordered wyhash S
  obtain ⟨sccs', ho'⟩ := exists_ordered wyhash (relinkedStore wyhash S e k y hy)
  have hext : (relinkedStore wyhash S e k y hy).Extends S := extends_append
  rw [secondHash_of_alone ho hclean halone, secondHash_of_alone ho'
    (not_poisoned_relinkedStore hy hclean hgood) (alone_relinkedStore hy)]
  congr 2
  have hown : (relinkedStore wyhash S e k y hy).ownInputs S.entries.length = S.ownInputs e := by
    rw [Store.ownInputs, entry_relinkedStore]
    rfl
  rw [singleInputs, singleInputs, hown, deps_relinkedStore, List.flatMap_map]
  congr 1
  refine List.flatMap_congr fun d hd => ?_
  have hde : d.entryId ≠ e := fun h => hself (List.mem_map.mpr ⟨d, hd, h⟩)
  have hgood' : ¬ S.Poisoned d.entryId := fun hbad => hclean (hbad.of_edge (S.edge_of_mem hd))
  by_cases hd' : secondHash wyhash S d.entryId = k
  · rw [if_pos hd', linkHash, linkHash, if_neg hy.ne, if_neg hde,
      secondHash_of_extends hext wyhash hgood, hkey, hd']
  · rw [if_neg hd', linkHash, linkHash, if_neg (S.deps_lt hd).2.ne, if_neg hde,
      secondHash_of_extends hext wyhash hgood']

end Relink

/-- A link into a component could lead to another member. -/
theorem not_keyFixesLinks_of_link (hclean : ¬ S.Poisoned e) (halone : S.Alone e)
    (hself : ¬ S.SelfDependent e) {d : EntryDependency} (hd : d ∈ S.deps e)
    (hy : S.graph.Mutual d.entryId y) (hne : (S.entry y).storePath ≠ (S.entry d.entryId).storePath) :
    ¬ KeyFixesLinks wyhash S e := by
  intro hfix
  have hgood {c : EntryDependency} (hc : c ∈ S.deps e) : ¬ S.Poisoned c.entryId :=
    fun hbad => hclean (hbad.of_edge (S.edge_of_mem hc))
  have hgoody : ¬ S.Poisoned y := fun hbad => hgood hd (hbad.of_reach hy.1)
  have hlt := S.lt_of_not_poisoned hgoody
  have hkey := secondHash_eq_of_mutual wyhash (S.deps_lt hd).2 hy
  let k := secondHash wyhash S d.entryId
  have hext : (relinkedStore wyhash S e k y hlt).Extends S := extends_append
  have hlen : S.entries.length < (relinkedStore wyhash S e k y hlt).entries.length := by
    rw [relinkedStore, length_append]
    exact Nat.lt_succ_self _
  obtain ⟨heq, hnz⟩ := (entryHash_eq wyhash S (S.lt_of_not_poisoned hclean)).2 hclean
  obtain ⟨heq', -⟩ := (entryHash_eq wyhash _ hlen).2 (not_poisoned_relinkedStore hlt hclean hgoody)
  have hlinks := hfix (relinkedStore wyhash S e k y hlt) S.entries.length hlen hnz
    (by rw [heq, heq', secondHash_relinkedStore hlt hclean halone hself hgoody hkey])
    (by rw [entry_relinkedStore]; rfl)
  obtain ⟨d', hd', -, hpath, hhash⟩ := hlinks.left d hd
  rw [deps_relinkedStore] at hd'
  obtain ⟨c, hc, rfl⟩ := List.mem_map.mp hd'
  by_cases hck : secondHash wyhash S c.entryId = k
  · rw [if_pos hck, hext.entry_eq hlt] at hpath
    exact hne hpath.symm
  · rw [if_neg hck, entryHash_of_extends hext wyhash (S.deps_lt hc).2,
      ((entryHash_eq wyhash S (S.deps_lt hd).2).2 (hgood hd)).1,
      ((entryHash_eq wyhash S (S.deps_lt hc).2).2 (hgood hc)).1] at hhash
    exact hck hhash.symm

section Star
variable (S : Store) (C : List Nat) (e : Nat) (tag : UInt64)

/-- A copy of `e` that links to copies of the other members and to nothing else. -/
def hubEntry : StoreEntry :=
  { S.entry e with
    dependencies := (List.range' (S.entries.length + 1) (C.erase e).length).map (⟨tag, ·⟩) }

/-- Copies of the other members, which link back and to all that the component
links to. -/
def spokeEntries : List StoreEntry :=
  (C.erase e).map fun m =>
    { S.entry m with dependencies := ⟨tag, S.entries.length⟩ :: externalDeps S C }

variable {S C} in
theorem lt_of_mem_externalDeps {d : EntryDependency} (hd : d ∈ externalDeps S C) :
    d.entryId < S.entries.length := by
  obtain ⟨m, -, hd⟩ := List.mem_flatMap.mp (List.mem_filter.mp hd).1
  exact (S.deps_lt hd).2

def starStore : Store :=
  S.append (hubEntry S C e tag :: spokeEntries S C e tag) <| by
    intro a ha d hd
    have hlen : (hubEntry S C e tag :: spokeEntries S C e tag).length =
        (C.erase e).length + 1 := by simp [spokeEntries]
    rcases List.mem_cons.mp ha with rfl | ha
    · obtain ⟨i, hi, rfl⟩ := List.mem_map.mp hd
      have hi := List.mem_range'_1.mp hi
      show i < _
      omega
    · obtain ⟨m, -, rfl⟩ := List.mem_map.mp ha
      rcases List.mem_cons.mp hd with rfl | hd
      · show S.entries.length < _
        omega
      · exact (lt_of_mem_externalDeps hd).trans_le (Nat.le_add_right _ _)

theorem starStore_extends : (starStore S C e tag).Extends S := extends_append

theorem entry_starStore : (starStore S C e tag).entry S.entries.length = hubEntry S C e tag :=
  entry_append_head rfl

theorem map_entry_starStore :
    (List.range' S.entries.length ((C.erase e).length + 1)).map (starStore S C e tag).entry =
      hubEntry S C e tag :: spokeEntries S C e tag := by
  have hlen : (C.erase e).length + 1 =
      (hubEntry S C e tag :: spokeEntries S C e tag).length := by simp [spokeEntries]
  rw [hlen]
  exact map_entry_append

theorem length_starStore : (starStore S C e tag).entries.length =
    S.entries.length + ((C.erase e).length + 1) := by
  rw [starStore, length_append]
  simp [spokeEntries]

theorem deps_hub : (starStore S C e tag).deps S.entries.length =
    (List.range' (S.entries.length + 1) (C.erase e).length).map (⟨tag, ·⟩) := by
  rw [Store.deps, entry_starStore]
  rfl

variable {S C e}

/-- A further entry is the hub or one of the others. -/
theorem entry_starStore_mem {x : Nat} (hx : S.entries.length ≤ x)
    (hx' : x < S.entries.length + ((C.erase e).length + 1)) :
    x = S.entries.length ∨ S.entries.length < x ∧
      (starStore S C e tag).entry x ∈ spokeEntries S C e tag := by
  have hmap := map_entry_starStore S C e tag
  rw [Nat.add_comm _ 1, ← List.range'_append_1, List.map_append] at hmap
  rcases hx.eq_or_lt with rfl | hlt
  · exact .inl rfl
  · right
    refine ⟨hlt, ?_⟩
    have htail : (List.range' (S.entries.length + 1) (C.erase e).length).map
        (starStore S C e tag).entry = spokeEntries S C e tag := by
      have := congrArg List.tail hmap
      simpa using this
    rw [← htail]
    exact List.mem_map_of_mem (List.mem_range'_1.mpr ⟨hlt, by omega⟩)

variable {tag}

theorem exists_of_spoke {x : Nat} (h : (starStore S C e tag).entry x ∈ spokeEntries S C e tag) :
    ∃ m ∈ C.erase e, (starStore S C e tag).entry x =
      { S.entry m with dependencies := ⟨tag, S.entries.length⟩ :: externalDeps S C } := by
  obtain ⟨m, hm, heq⟩ := List.mem_map.mp h
  exact ⟨m, hm, heq.symm⟩

/-- The further entries are one component. -/
theorem mutual_starStore {x : Nat} : (starStore S C e tag).graph.Mutual S.entries.length x ↔
    S.entries.length ≤ x ∧ x < S.entries.length + ((C.erase e).length + 1) := by
  have hlen := length_starStore S C e tag
  constructor
  · rintro ⟨hto, hback⟩
    refine ⟨?_, hlen ▸ Store.reach_lt (by omega) hto⟩
    by_contra hlt
    exact absurd (lt_of_reach_append (Nat.not_le.mp hlt) hback) (Nat.lt_irrefl _)
  · rintro ⟨hx, hx'⟩
    rcases entry_starStore_mem tag hx hx' with rfl | ⟨hlt, hmem⟩
    · exact ⟨.refl, .refl⟩
    · obtain ⟨m, -, hentry⟩ := exists_of_spoke hmem
      refine ⟨.single (List.mem_map.mpr ⟨⟨tag, x⟩, ?_, rfl⟩),
        .single (List.mem_map.mpr ⟨⟨tag, S.entries.length⟩, ?_, rfl⟩)⟩
      · rw [deps_hub]
        exact List.mem_map_of_mem (List.mem_range'_1.mpr ⟨hlt, by omega⟩)
      · rw [Store.deps, hentry]
        exact List.mem_cons_self

section Members
variable (hclean : ∀ m ∈ C, ¬ S.Poisoned m) (he : e ∈ C)
include hclean

theorem not_poisoned_of_external {d : EntryDependency} (hd : d ∈ externalDeps S C) :
    ¬ S.Poisoned d.entryId := by
  obtain ⟨m, hm, hd⟩ := List.mem_flatMap.mp (List.mem_filter.mp hd).1
  exact fun hbad => hclean m hm (hbad.of_edge (S.edge_of_mem hd))

include he

theorem not_poisoned_starStore : ¬ (starStore S C e tag).Poisoned S.entries.length := by
  rintro ⟨y, hy, hbad⟩
  -- all that is reached is a further entry or a clean one
  have hreach : S.entries.length ≤ y ∨ ¬ S.Poisoned y := by
    clear hbad
    induction hy with
    | refl => exact .inl le_rfl
    | @tail y z hy hedge ih =>
      obtain ⟨d, hd, rfl⟩ := List.mem_map.mp hedge
      rcases Nat.lt_or_ge y S.entries.length with hlt | hge
      · have hgood := ih.resolve_left (Nat.not_le.mpr hlt)
        rw [(starStore_extends S C e tag).deps_eq hlt] at hd
        exact .inr fun hbad => hgood (hbad.of_edge (S.edge_of_mem hd))
      · have hlen := length_starStore S C e tag
        rcases entry_starStore_mem tag hge (hlen ▸ (Store.deps_lt _ hd).1) with rfl | ⟨-, hmem⟩
        · rw [deps_hub] at hd
          obtain ⟨i, hi, rfl⟩ := List.mem_map.mp hd
          exact .inl ((Nat.le_succ _).trans (List.mem_range'_1.mp hi).1)
        · obtain ⟨m, -, hentry⟩ := exists_of_spoke hmem
          rw [Store.deps, hentry] at hd
          rcases List.mem_cons.mp hd with rfl | hd
          · exact .inl le_rfl
          · exact .inr (not_poisoned_of_external hclean hd)
  have hlen := length_starStore S C e tag
  have hy' := Store.reach_lt (by omega) hy
  rcases Nat.lt_or_ge y S.entries.length with hlt | hge
  · rw [(starStore_extends S C e tag).entry_eq hlt] at hbad
    exact hreach.resolve_left (Nat.not_le.mpr hlt) ⟨y, .refl, hbad⟩
  · rcases entry_starStore_mem tag hge (hlen ▸ hy') with rfl | ⟨-, hmem⟩
    · rw [entry_starStore] at hbad
      exact hclean e he ⟨e, .refl, hbad⟩
    · obtain ⟨m, hm, hentry⟩ := exists_of_spoke hmem
      rw [hentry] at hbad
      exact hclean m (List.mem_of_mem_erase hm) ⟨m, .refl, hbad⟩

omit hclean in
theorem memberSubs_starStore (wyhash : UInt64 → List HashInput → Nat) {C' : List Nat}
    (hC' : C'.Perm (List.range' S.entries.length ((C.erase e).length + 1))) :
    (memberSubs wyhash (starStore S C e tag) C').Perm (memberSubs wyhash S C) := by
  let own (a : StoreEntry) : Nat := wyhash 0 [.storePath a.storePath, .integrity a.integrity]
  have hcopies : (hubEntry S C e tag :: spokeEntries S C e tag).map own =
      memberSubs wyhash S (e :: C.erase e) := by
    simp [own, memberSubs, hubEntry, spokeEntries, Store.ownInputs]
  have hmap : memberSubs wyhash (starStore S C e tag) C' =
      (C'.map (starStore S C e tag).entry).map own := by
    simp [memberSubs, own, Store.ownInputs]
  have hall := (hC'.map (starStore S C e tag).entry).map own
  rw [map_entry_starStore, hcopies, ← hmap] at hall
  exact hall.trans ((List.perm_cons_erase he).symm.map _)

omit hclean he in
/-- The links out of the further entries are those out of the component. -/
theorem mem_externalDeps_starStore (hmore : C.erase e ≠ []) {C' : List Nat}
    (hC' : ∀ x, x ∈ C' ↔ S.entries.length ≤ x ∧ x < S.entries.length + ((C.erase e).length + 1))
    {d : EntryDependency} : d ∈ externalDeps (starStore S C e tag) C' ↔ d ∈ externalDeps S C := by
  constructor
  · intro hd
    obtain ⟨hd, hout⟩ := List.mem_filter.mp hd
    obtain ⟨x, hx, hd⟩ := List.mem_flatMap.mp hd
    have hout : d.entryId ∉ C' := by simpa using hout
    obtain ⟨hx, hx'⟩ := (hC' x).mp hx
    rcases entry_starStore_mem tag hx hx' with rfl | ⟨-, hmem⟩
    · rw [deps_hub] at hd
      obtain ⟨i, hi, rfl⟩ := List.mem_map.mp hd
      have hi := List.mem_range'_1.mp hi
      exact absurd ((hC' i).mpr ⟨by omega, by omega⟩) hout
    · obtain ⟨m, -, hentry⟩ := exists_of_spoke hmem
      rw [Store.deps, hentry] at hd
      rcases List.mem_cons.mp hd with rfl | hd
      · exact absurd ((hC' _).mpr ⟨le_rfl, by omega⟩) hout
      · exact hd
  · intro hd
    obtain ⟨m, rest, hcons⟩ := List.exists_cons_of_ne_nil hmore
    have hspoke : { S.entry m with dependencies := ⟨tag, S.entries.length⟩ :: externalDeps S C } ∈
        hubEntry S C e tag :: spokeEntries S C e tag := by
      refine List.mem_cons_of_mem _ (List.mem_map.mpr ⟨m, ?_, rfl⟩)
      rw [hcons]
      exact List.mem_cons_self
    rw [← map_entry_starStore] at hspoke
    obtain ⟨x, hx, hentry⟩ := List.mem_map.mp hspoke
    refine List.mem_filter.mpr ⟨List.mem_flatMap.mpr ⟨x, ?_, ?_⟩, ?_⟩
    · exact (hC' x).mpr (List.mem_range'_1.mp hx)
    · rw [Store.deps, hentry]
      exact List.mem_cons_of_mem _ hd
    · have hlt := lt_of_mem_externalDeps hd
      simp [hC' d.entryId, Nat.not_le.mpr hlt]

/-- The hub has the key of the component. -/
theorem secondHash_starStore (wyhash : UInt64 → List HashInput → Nat) (hmore : C.erase e ≠ []) :
    secondHash wyhash (starStore S C e tag) S.entries.length =
      nonZero (wyhash 0x42A7C15F9E3779B9 (sccInputs wyhash S C)) := by
  obtain ⟨sccs, ho⟩ := exists_ordered wyhash (starStore S C e tag)
  have hnot : ¬ (starStore S C e tag).Alone S.entries.length := by
    intro halone
    have hpos := List.length_pos_iff.mpr hmore
    have := halone (S.entries.length + 1) (mutual_starStore.2 ⟨by omega, by omega⟩)
    omega
  obtain ⟨C', hC', hn, hh⟩ := secondHash_of_not_alone ho
    (not_poisoned_starStore hclean he) hnot
  have hmem (x : Nat) : x ∈ C' ↔
      S.entries.length ≤ x ∧ x < S.entries.length + ((C.erase e).length + 1) :=
    (hC'.mem_iff _ hn x).trans mutual_starStore
  have hperm : C'.Perm (List.range' S.entries.length ((C.erase e).length + 1)) := by
    refine (List.perm_ext_iff_of_nodup hC'.nodup (List.nodup_range')).mpr fun x => ?_
    rw [hmem, List.mem_range'_1]
  have hlink {d : EntryDependency} (hd : d ∈ externalDeps S C) :=
    secondHash_of_extends (starStore_extends S C e tag) wyhash (not_poisoned_of_external hclean hd)
  rw [hh, sccInputs_congr (memberSubs_starStore he wyhash hperm)]
  intro k
  simp only [externalSubs, List.mem_map, mem_externalDeps_starStore hmore hmem]
  constructor
  · rintro ⟨d, hd, rfl⟩
    exact ⟨d, hd, by rw [hlink hd]⟩
  · rintro ⟨d, hd, rfl⟩
    exact ⟨d, hd, by rw [hlink hd]⟩

end Members

end Star

/-- A component could link otherwise: one copy of a member links to nothing outside. -/
theorem not_keyFixesLinks_of_not_alone (hclean : ¬ S.Poisoned e) (halone : ¬ S.Alone e) :
    ¬ KeyFixesLinks wyhash S e := by
  intro hfix
  obtain ⟨sccs, ho⟩ := exists_ordered wyhash S
  obtain ⟨C, hC, he, hh⟩ := secondHash_of_not_alone ho hclean halone
  have hall : ∀ m ∈ C, ¬ S.Poisoned m := fun m hm hbad =>
    hclean (hbad.of_reach ((hC.mem_iff e he m).mp hm).1)
  obtain ⟨y, hy, hye⟩ : ∃ y, S.graph.Mutual e y ∧ y ≠ e := by
    by_contra hno
    exact halone fun y hy => by_contra fun hne => hno ⟨y, hy, hne⟩
  have hmore : C.erase e ≠ [] :=
    List.ne_nil_of_mem ((List.mem_erase_of_ne hye).mpr ((hC.mem_iff e he y).mpr hy))
  obtain ⟨d, hd⟩ : ∃ d, d ∈ S.deps e := by
    rcases Relation.ReflTransGen.cases_head hy.1 with rfl | ⟨z, hedge, -⟩
    · exact absurd rfl hye
    · obtain ⟨d, hd, -⟩ := List.mem_map.mp hedge
      exact ⟨d, hd⟩
  let tag := d.nameHash + 1
  have hlen : S.entries.length < (starStore S C e tag).entries.length := by
    rw [length_starStore]
    omega
  obtain ⟨heq, hnz⟩ := (entryHash_eq wyhash S (S.lt_of_not_poisoned hclean)).2 hclean
  obtain ⟨heq', -⟩ := (entryHash_eq wyhash _ hlen).2 (not_poisoned_starStore hall he)
  have hlinks := hfix (starStore S C e tag) S.entries.length hlen hnz
    (by rw [heq, heq', hh, secondHash_starStore hall he wyhash hmore])
    (by rw [entry_starStore]; rfl)
  obtain ⟨d', hd', hname, -⟩ := hlinks.left d hd
  rw [deps_hub] at hd'
  obtain ⟨i, -, rfl⟩ := List.mem_map.mp hd'
  exact absurd hname (by simp [tag])

/-- **What the key fixes**: the links of an entry, exactly when it leads to an
ineligible one and has no key, or is pinned. -/
theorem keyFixesLinks_iff {wyhash : UInt64 → List HashInput → Nat} (hfree : CollisionFree wyhash)
    {S : Store} {e : Nat} (he : e < S.entries.length) :
    KeyFixesLinks wyhash S e ↔ S.Poisoned e ∨ S.Pinned e := by
  constructor
  · intro hfix
    by_contra hnot
    obtain ⟨hclean, hpin⟩ := not_or.mp hnot
    by_cases halone : S.Alone e
    · obtain ⟨hself, hlinks⟩ := not_or.mp fun h => hpin ⟨halone, h⟩
      refine hlinks fun d hd y hy => ?_
      by_contra hne
      exact not_keyFixesLinks_of_link hclean halone hself hd hy hne hfix
    · exact not_keyFixesLinks_of_not_alone hclean halone hfix
  · rintro (hbad | hpin)
    · exact fun S' e' _ hne => absurd ((entryHash_eq wyhash S he).1 hbad) hne
    · exact keyFixesLinks_of_pinned hfree he hpin

/-- An entry that only links to itself. -/
theorem keyFixesLinks_self : entryHash codeHash mixedStore 3 ≠ 0 ∧
    KeyFixesLinks codeHash mixedStore 3 := by
  have hclean : ¬ mixedStore.Poisoned 3 := Store.not_poisoned (by decide) (by decide)
  refine ⟨((entryHash_eq codeHash mixedStore (by decide)).2 hclean).2, ?_⟩
  refine (keyFixesLinks_iff codeHash_collisionFree (by decide)).mpr (.inr ⟨fun y hy => ?_, .inl ?_⟩)
  · exact Store.eq_of_reach (by decide) hy.1
  · decide

/-! ### A cycle that shares its key -/

/-- Entries `0` and `1` depend on each other, and `0` on `2`. -/
def firstLinksStore : Store where
  entries := [⟨[97], [], true, [⟨98, 1⟩, ⟨120, 2⟩]⟩, ⟨[98], [], true, [⟨97, 0⟩]⟩, ⟨[120], [], true, []⟩]
  links := by decide

/-- The same, but `1` depends on `2`. -/
def secondLinksStore : Store where
  entries := [⟨[97], [], true, [⟨98, 1⟩]⟩, ⟨[98], [], true, [⟨97, 0⟩, ⟨120, 2⟩]⟩, ⟨[120], [], true, []⟩]
  links := by decide

/-- What both stores have in common. -/
structure PairStore (S : Store) : Prop where
  length : S.entries.length = 3
  eligible : ∀ i < S.entries.length, (S.entry i).eligible = true
  there : S.graph.Edge 0 1
  back : S.graph.Edge 1 0
  leaf : S.deps 2 = []
  own : ∀ i < 3, S.ownInputs i = firstLinksStore.ownInputs i
  external : ∀ d ∈ S.deps 0 ++ S.deps 1, d.entryId ≠ 0 → d.entryId ≠ 1 → d = ⟨120, 2⟩
  exists_external : ⟨120, 2⟩ ∈ S.deps 0 ++ S.deps 1

namespace PairStore
variable {S : Store} (h : PairStore S)
include h

theorem not_poisoned {x : Nat} (hx : x < 3) : ¬ S.Poisoned x :=
  Store.not_poisoned h.eligible (h.length ▸ hx)

theorem leaf_alone {y : Nat} (hy : S.graph.Reach 2 y) : y = 2 :=
  Store.eq_of_reach (fun w hw => by simp [Store.graph, h.leaf] at hw) hy

theorem component {C : List Nat} (hC : S.graph.Component C) (h0 : 0 ∈ C) : C.Perm [0, 1] := by
  refine (List.perm_ext_iff_of_nodup hC.nodup (by decide)).mpr fun y => ?_
  rw [hC.mem_iff 0 h0 y]
  constructor
  · rintro ⟨hto, hback⟩
    have hlt := S.reach_lt (by rw [h.length]; decide) hto
    rw [h.length] at hlt
    have hne : y ≠ 2 := by
      rintro rfl
      exact absurd (h.leaf_alone hback) (by decide)
    have hy : y = 0 ∨ y = 1 := by omega
    simpa using hy
  · intro hy
    rcases List.mem_cons.mp hy with rfl | hy
    · exact ⟨.refl, .refl⟩
    · obtain rfl := List.mem_singleton.mp hy
      exact ⟨.single h.there, .single h.back⟩

theorem secondHash_leaf (wyhash : UInt64 → List HashInput → Nat) : secondHash wyhash S 2 =
    nonZero (wyhash 0x9E3779B97F4A7C15 (firstLinksStore.ownInputs 2)) := by
  obtain ⟨sccs, ho⟩ := exists_ordered wyhash S
  rw [secondHash_of_alone ho (h.not_poisoned (by decide)) fun y hy => h.leaf_alone hy.1,
    singleInputs, h.own 2 (by decide), h.leaf, List.flatMap_nil, List.append_nil]

theorem memberSubs_perm (wyhash : UInt64 → List HashInput → Nat) {C : List Nat}
    (hC : C.Perm [0, 1]) : (memberSubs wyhash S C).Perm (memberSubs wyhash firstLinksStore [0, 1]) := by
  refine (hC.map _).trans (.of_eq ?_)
  simp [memberSubs, h.own 0 (by decide), h.own 1 (by decide)]

theorem mem_externalSubs (wyhash : UInt64 → List HashInput → Nat) {C : List Nat}
    (hC : C.Perm [0, 1]) (k : Nat) : k ∈ externalSubs wyhash S C ↔ k = wyhash 0 [.nameHash 120,
      .hash (nonZero (wyhash 0x9E3779B97F4A7C15 (firstLinksStore.ownInputs 2)))] := by
  have hmem (d : EntryDependency) : d ∈ externalDeps S C ↔ d = ⟨120, 2⟩ := by
    have hdeps : d ∈ C.flatMap S.deps ↔ d ∈ S.deps 0 ++ S.deps 1 := by
      simp [List.mem_flatMap, hC.mem_iff]
    simp only [externalDeps, List.mem_filter, hdeps, hC.mem_iff, decide_eq_true_eq]
    constructor
    · rintro ⟨hd, hout⟩
      exact h.external d hd (fun h0 => hout (by simp [h0])) fun h1 => hout (by simp [h1])
    · rintro rfl
      exact ⟨h.exists_external, by decide⟩
  simp only [externalSubs, List.mem_map, hmem, exists_eq_left, h.secondHash_leaf wyhash]
  exact eq_comm

theorem entryHash_zero (wyhash : UInt64 → List HashInput → Nat) : ∃ C, C.Perm [0, 1] ∧
    entryHash wyhash S 0 = nonZero (wyhash 0x42A7C15F9E3779B9 (sccInputs wyhash S C)) := by
  have hclean : ¬ S.Poisoned 0 := h.not_poisoned (by decide)
  obtain ⟨sccs, ho⟩ := exists_ordered wyhash S
  have hnot : ¬ S.Alone 0 := fun halone =>
    absurd (halone 1 ⟨.single h.there, .single h.back⟩) (by decide)
  obtain ⟨C, hC, h0, hh⟩ := secondHash_of_not_alone ho hclean hnot
  refine ⟨C, h.component hC h0, ?_⟩
  rw [((entryHash_eq wyhash S (S.lt_of_not_poisoned hclean)).2 hclean).1, hh]

/-- Entry `0` has one key in all of them. -/
theorem entryHash_eq_of_pair {S' : Store} (h' : PairStore S')
    (wyhash : UInt64 → List HashInput → Nat) : entryHash wyhash S 0 = entryHash wyhash S' 0 := by
  obtain ⟨C, hC, hkey⟩ := h.entryHash_zero wyhash
  obtain ⟨C', hC', hkey'⟩ := h'.entryHash_zero wyhash
  rw [hkey, hkey', sccInputs_congr]
  · exact (h.memberSubs_perm wyhash hC).trans (h'.memberSubs_perm wyhash hC').symm
  · intro k
    rw [h.mem_externalSubs wyhash hC, h'.mem_externalSubs wyhash hC']

end PairStore

theorem firstLinksStore_pair : PairStore firstLinksStore where
  length := rfl
  eligible := by decide
  there := by decide
  back := by decide
  leaf := by decide
  own := by decide
  external := by decide
  exists_external := by decide

theorem secondLinksStore_pair : PairStore secondLinksStore where
  length := rfl
  eligible := by decide
  there := by decide
  back := by decide
  leaf := by decide
  own := by decide
  external := by decide
  exists_external := by decide

/-- The two entries `0` have one path and one key, but only the first has a link
named `120`. -/
theorem keyFixesLinks_pair_ne : CollisionFree codeHash ∧ ∀ wyhash, CollisionFree wyhash →
    entryHash wyhash firstLinksStore 0 ≠ 0 ∧
    entryHash wyhash firstLinksStore 0 = entryHash wyhash secondLinksStore 0 ∧
    (firstLinksStore.entry 0).storePath = (secondLinksStore.entry 0).storePath ∧
    ¬ LinksAgree wyhash firstLinksStore secondLinksStore 0 0 := by
  refine ⟨codeHash_collisionFree, fun wyhash _ => ⟨?_, ?_, by decide, fun hlinks => ?_⟩⟩
  · exact ((entryHash_eq wyhash firstLinksStore (by decide)).2
      (firstLinksStore_pair.not_poisoned (by decide))).2
  · exact firstLinksStore_pair.entryHash_eq_of_pair secondLinksStore_pair wyhash
  · obtain ⟨d', hd', hname, -⟩ := hlinks.left ⟨120, 2⟩ (by decide)
    have hall : ∀ d ∈ secondLinksStore.deps 0, d.nameHash ≠ 120 := by decide
    exact hall d' hd' hname.symm

end OhosBun.Install
