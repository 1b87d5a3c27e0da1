/-
# `OhosBun.Install.GlobalStoreSharing` — two projects, one key

What the keys are for: a directory made by one project serves another.  The first
question is about the same closure in two stores: does it get the same key?

    Renumbers              the closure of an entry, under other numbers
    entryHash_renumber     its key
    CollisionFree          a hash that tells all values apart

It does but for one corner: an entry alone in its component that depends on itself
hashes what the first pass left for it, and that depends on the numbering as soon
as the entry leads into a cycle (`entryHash_renumber_self_ne`).
-/
import Mathlib.Logic.Encodable.Basic
import Mathlib.Logic.Equiv.List
import OhosBun.Install.GlobalStoreKeys

namespace OhosBun.Install

open OhosBun.Lib

namespace Store
variable (S : Store)

/-- An entry on no cycle through another entry. -/
def Alone (x : Nat) : Prop := ∀ y, S.graph.Mutual x y → y = x

/-- The entry has a dependency on itself. -/
def SelfDependent (x : Nat) : Prop := S.graph.Edge x x

instance (x : Nat) : Decidable (S.SelfDependent x) := inferInstanceAs (Decidable (S.graph.Edge x x))

/-- A self-dependent entry that is alone does not lead into a cycle. -/
def SelfQuiet (e : Nat) : Prop :=
  ∀ m, S.graph.Reach e m → S.SelfDependent m → S.Alone m → ∀ c, S.graph.Reach m c → S.Alone c

variable {S}

theorem reach_lt {x y : Nat} (hx : x < S.entries.length) (hr : S.graph.Reach x y) :
    y < S.entries.length := by
  induction hr with
  | refl => exact hx
  | tail _ hedge _ => exact S.graph.succ_lt _ _ hedge

/-- An entry that links to nothing but itself reaches nothing else. -/
theorem eq_of_reach {x : Nat} (h : ∀ w ∈ S.graph.succ x, w = x) {y : Nat}
    (hr : S.graph.Reach x y) : y = x := by
  induction hr with
  | refl => rfl
  | tail _ hedge ih =>
    subst ih
    exact h _ hedge

/-- An entry that nothing but itself links to is reached from nowhere else. -/
theorem eq_of_reach_to {x : Nat} (h : ∀ v, x ∈ S.graph.succ v → v = x) {y : Nat}
    (hr : S.graph.Reach y x) : y = x := by
  induction hr using Relation.ReflTransGen.head_induction_on with
  | refl => rfl
  | head hedge _ ih =>
    subst ih
    exact h _ hedge

end Store

theorem insertionSort_eq_of_perm {l l' : List Nat} (h : l.Perm l') :
    l.insertionSort (· ≤ ·) = l'.insertionSort (· ≤ ·) :=
  (((List.perm_insertionSort _ l).trans h).trans (List.perm_insertionSort _ l').symm).eq_of_pairwise'
    (List.pairwise_insertionSort _ l) (List.pairwise_insertionSort _ l')

/-- The key of a component does not depend on the order of its members and links. -/
theorem sccInputs_congr {wyhash : UInt64 → List HashInput → Nat} {S S' : Store} {C C' : List Nat}
    (hmembers : (memberSubs wyhash S' C').Perm (memberSubs wyhash S C))
    (hexternals : ∀ k, k ∈ externalSubs wyhash S' C' ↔ k ∈ externalSubs wyhash S C) :
    sccInputs wyhash S' C' = sccInputs wyhash S C := by
  have hdedup : (externalSubs wyhash S' C').dedup.Perm (externalSubs wyhash S C).dedup := by
    refine (List.perm_ext_iff_of_nodup (List.nodup_dedup _) (List.nodup_dedup _)).mpr fun k => ?_
    rw [List.mem_dedup, List.mem_dedup, hexternals k]
  rw [sccInputs, sccInputs, insertionSort_eq_of_perm hmembers, insertionSort_eq_of_perm hdedup]

section Ordered
variable {wyhash : UInt64 → List HashInput → Nat} {S : Store} {sccs : List (List Nat)}
  (ho : Ordered wyhash S sccs)
include ho

/-- The component of an entry, with what comes before it. -/
theorem exists_split {x : Nat} (hx : x < S.entries.length) :
    ∃ pre C post, sccs = pre ++ C :: post ∧ x ∈ C := by
  obtain ⟨C, hC, hxC⟩ := List.mem_flatten.mp (ho.covers x hx)
  obtain ⟨pre, post, hsplit⟩ := List.append_of_mem hC
  exact ⟨pre, C, post, hsplit, hxC⟩

/-- A component of one entry is an entry alone. -/
theorem eq_singleton_iff {pre post : List (List Nat)} {C : List Nat}
    (hsplit : sccs = pre ++ C :: post) {x : Nat} (hx : x ∈ C) : C.length = 1 ↔ S.Alone x := by
  obtain ⟨hC, -, -⟩ := ho.topological pre C post hsplit
  constructor
  · intro hlen y hy
    obtain ⟨m, rfl⟩ := List.length_eq_one_iff.mp hlen
    obtain rfl := List.mem_singleton.mp hx
    exact List.mem_singleton.mp ((hC.mem_iff x hx y).mpr hy)
  · intro halone
    rcases C with _ | ⟨a, _ | ⟨b, C⟩⟩
    · exact absurd hx List.not_mem_nil
    · rfl
    · have ha := halone a ((hC.mem_iff x hx a).mp List.mem_cons_self)
      have hb := halone b ((hC.mem_iff x hx b).mp (List.mem_cons_of_mem _ List.mem_cons_self))
      have hnodup := hC.nodup
      rw [ha, hb] at hnodup
      exact absurd List.mem_cons_self (List.nodup_cons.mp hnodup).1

theorem secondHash_of_alone {x : Nat} (hclean : ¬ S.Poisoned x) (halone : S.Alone x) :
    secondHash wyhash S x = nonZero (wyhash 0x9E3779B97F4A7C15 (singleInputs wyhash S x)) := by
  obtain ⟨pre, C, post, hsplit, hx⟩ := exists_split ho (S.lt_of_not_poisoned hclean)
  rcases secondHash_of_mem ho hsplit hx hclean (ho.secondHash_ne_zero hsplit) with
    ⟨-, hh⟩ | ⟨hlen, -⟩
  · exact hh
  · exact absurd ((eq_singleton_iff ho hsplit hx).mpr halone) hlen

theorem secondHash_of_not_alone {x : Nat} (hclean : ¬ S.Poisoned x) (halone : ¬ S.Alone x) :
    ∃ C, S.graph.Component C ∧ x ∈ C ∧ secondHash wyhash S x =
      nonZero (wyhash 0x42A7C15F9E3779B9 (sccInputs wyhash S C)) := by
  obtain ⟨pre, C, post, hsplit, hx⟩ := exists_split ho (S.lt_of_not_poisoned hclean)
  rcases secondHash_of_mem ho hsplit hx hclean (ho.secondHash_ne_zero hsplit) with
    ⟨hC, -⟩ | ⟨-, hh⟩
  · exact absurd ((eq_singleton_iff ho hsplit hx).mp (by rw [hC]; rfl)) halone
  · exact ⟨C, (ho.topological pre C post hsplit).1, hx, hh⟩

end Ordered

/-! ## What the first pass leaves where there are no cycles -/

section First
variable (wyhash : UInt64 → List HashInput → Nat) (S : Store)

/-- Of a link to itself an entry reads the name only. -/
def firstInputs (x : Nat) : List HashInput :=
  S.ownInputs x ++ (S.deps x).flatMap fun d =>
    if d.entryId = x then [.nameHash d.nameHash]
    else [.nameHash d.nameHash, .hash (firstHash wyhash S d.entryId)]

variable {wyhash S}

theorem Hashed.eq_of_alone {x : Nat} {ds : List EntryDependency} {inputs : List HashInput}
    (h : Hashed S (dfsPass wyhash S) x ds inputs) (hds : ∀ d ∈ ds, d ∈ S.deps x)
    (halone : S.Alone x) : inputs = ds.flatMap fun d =>
      if d.entryId = x then [.nameHash d.nameHash]
      else [.nameHash d.nameHash, .hash (firstHash wyhash S d.entryId)] := by
  induction h with
  | nil => rfl
  | done _ _ hne ih =>
    rw [List.flatMap_append, ← ih fun d hd => hds d (List.mem_append_left _ hd)]
    simp [hne, firstHash]
  | @back ds inputs d _ hr ih =>
    have hd : d ∈ S.deps x := hds d (List.mem_append_right _ List.mem_cons_self)
    have hx := halone d.entryId ⟨.single (S.edge_of_mem hd), hr⟩
    rw [List.flatMap_append, ← ih fun d hd => hds d (List.mem_append_left _ hd)]
    simp [hx]

theorem firstHash_of_alone {x : Nat} (hclean : ¬ S.Poisoned x) (halone : S.Alone x) :
    firstHash wyhash S x = nonZero (wyhash 0x9E3779B97F4A7C15 (firstInputs wyhash S x)) := by
  rcases dfsPass_spec wyhash S (S.lt_of_not_poisoned hclean) with ⟨-, hbad⟩ | ⟨-, -, inputs, hin, hh⟩
  · exact absurd hbad hclean
  · rw [hin.eq_of_alone (fun d hd => hd) halone] at hh
    exact hh

end First

/-! ## The same closure in two stores -/

/-- The closure of `e` is in the second store under other numbers: same store
paths, integrities, eligibility and dependency lists. -/
structure Renumbers (S S' : Store) (φ : Nat → Nat) (e : Nat) : Prop where
  lt : e < S.entries.length
  lt_map : ∀ x, S.graph.Reach e x → φ x < S'.entries.length
  injective : ∀ x y, S.graph.Reach e x → S.graph.Reach e y → φ x = φ y → x = y
  storePath : ∀ x, S.graph.Reach e x → (S'.entry (φ x)).storePath = (S.entry x).storePath
  integrity : ∀ x, S.graph.Reach e x → (S'.entry (φ x)).integrity = (S.entry x).integrity
  eligible : ∀ x, S.graph.Reach e x → (S'.entry (φ x)).eligible = (S.entry x).eligible
  deps : ∀ x, S.graph.Reach e x →
    S'.deps (φ x) = (S.deps x).map fun d => ⟨d.nameHash, φ d.entryId⟩

namespace Renumbers
variable {S S' : Store} {φ : Nat → Nat} {e : Nat} (h : Renumbers S S' φ e)
include h

variable {x y : Nat} {wyhash : UInt64 → List HashInput → Nat} {sccs pre post : List (List Nat)}
  {C C' : List Nat}

theorem edge (hx : S.graph.Reach e x) (hedge : S.graph.Edge x y) :
    S'.graph.Edge (φ x) (φ y) := by
  obtain ⟨d, hd, rfl⟩ := List.mem_map.mp hedge
  refine S'.edge_of_mem (d := ⟨d.nameHash, φ d.entryId⟩) ?_
  rw [h.deps x hx]
  exact List.mem_map_of_mem hd

theorem reach (hx : S.graph.Reach e x) (hr : S.graph.Reach x y) :
    S'.graph.Reach (φ x) (φ y) := by
  induction hr with
  | refl => exact .refl
  | tail hxy hedge ih => exact ih.tail (h.edge (hx.trans hxy) hedge)

/-- Nothing else is reached. -/
theorem exists_reach {w : Nat} (hx : S.graph.Reach e x) (hr : S'.graph.Reach (φ x) w) :
    ∃ y, S.graph.Reach x y ∧ w = φ y := by
  induction hr with
  | refl => exact ⟨x, .refl, rfl⟩
  | tail _ hedge ih =>
    obtain ⟨y, hxy, rfl⟩ := ih
    obtain ⟨d', hd', rfl⟩ := List.mem_map.mp hedge
    rw [h.deps y (hx.trans hxy)] at hd'
    obtain ⟨d, hd, rfl⟩ := List.mem_map.mp hd'
    exact ⟨d.entryId, hxy.tail (S.edge_of_mem hd), rfl⟩

theorem reach_of_map (hx : S.graph.Reach e x) (hy : S.graph.Reach e y) (hr : S'.graph.Reach (φ x) (φ y)) :
    S.graph.Reach x y := by
  obtain ⟨z, hxz, hz⟩ := h.exists_reach hx hr
  rw [h.injective y z hy (hx.trans hxz) hz]
  exact hxz

theorem alone_iff (hx : S.graph.Reach e x) : S'.Alone (φ x) ↔ S.Alone x := by
  constructor
  · rintro halone y ⟨hxy, hyx⟩
    refine h.injective y x (hx.trans hxy) hx (halone (φ y) ⟨h.reach hx hxy, ?_⟩)
    exact h.reach (hx.trans hxy) hyx
  · rintro halone w ⟨hxw, hwx⟩
    obtain ⟨y, hxy, rfl⟩ := h.exists_reach hx hxw
    rw [halone y ⟨hxy, h.reach_of_map (hx.trans hxy) hx hwx⟩]

theorem poisoned_iff (hx : S.graph.Reach e x) : S'.Poisoned (φ x) ↔ S.Poisoned x := by
  constructor
  · rintro ⟨w, hw, hbad⟩
    obtain ⟨y, hxy, rfl⟩ := h.exists_reach hx hw
    exact ⟨y, hxy, (h.eligible y (hx.trans hxy)).symm.trans hbad⟩
  · rintro ⟨y, hxy, hbad⟩
    exact ⟨φ y, h.reach hx hxy, (h.eligible y (hx.trans hxy)).trans hbad⟩

theorem ownInputs_eq (hx : S.graph.Reach e x) : S'.ownInputs (φ x) = S.ownInputs x := by
  rw [Store.ownInputs, h.storePath x hx, h.integrity x hx, Store.ownInputs]

theorem eq_iff (hx : S.graph.Reach e x) (hy : S.graph.Reach e y) :
    φ y = φ x ↔ y = x :=
  ⟨h.injective y x hy hx, fun he => by rw [he]⟩

/-- The first pass agrees where there are no cycles. -/
theorem firstHash_eq (ho : Ordered wyhash S sccs) (hsplit : sccs = pre ++ post) :
    ∀ x ∈ pre.flatten, S.graph.Reach e x → ¬ S.Poisoned x →
      (∀ c, S.graph.Reach x c → S.Alone c) →
      firstHash wyhash S' (φ x) = firstHash wyhash S x := by
  induction pre using List.reverseRecOn generalizing post with
  | nil => exact fun x hx => absurd hx List.not_mem_nil
  | append_singleton pre C ih =>
    have hsplit' : sccs = pre ++ C :: post := by rw [hsplit]; simp
    intro x hx hex hclean halone
    rw [List.flatten_append] at hx
    rcases List.mem_append.mp hx with hx | hx
    · exact ih hsplit' x hx hex hclean halone
    · have hx : x ∈ C := by simpa using hx
      have hself := halone x .refl
      obtain ⟨-, -, hedge⟩ := ho.topological pre C post hsplit'
      obtain ⟨m, rfl⟩ := List.length_eq_one_iff.mp ((eq_singleton_iff ho hsplit' hx).mpr hself)
      obtain rfl := List.mem_singleton.mp hx
      rw [firstHash_of_alone hclean hself,
        firstHash_of_alone (fun hbad => hclean ((h.poisoned_iff hex).mp hbad))
          ((h.alone_iff hex).mpr hself),
        firstInputs, firstInputs, h.ownInputs_eq hex, h.deps x hex, List.flatMap_map]
      congr 3
      refine List.flatMap_congr fun d hd => ?_
      have hxd : S.graph.Edge x d.entryId := S.edge_of_mem hd
      simp only [h.eq_iff hex (hex.tail hxd)]
      by_cases hd' : d.entryId = x
      · rw [if_pos hd', if_pos hd']
      · rw [if_neg hd', if_neg hd']
        have hmem := (hedge x hx d.entryId hxd).resolve_left (by simpa using hd')
        rw [ih hsplit' d.entryId hmem (hex.tail hxd) (fun hbad => hclean (hbad.of_edge hxd))
          fun c hc => halone c (.head hxd hc)]

/-- The members of a component, and so the hashes of their own data, are the same. -/
theorem component_perm (hC : S.graph.Component C) (hC' : S'.graph.Component C') (hex : S.graph.Reach e x)
    (hx : x ∈ C) (hx' : φ x ∈ C') : C'.Perm (C.map φ) := by
  have hreach {y : Nat} (hy : y ∈ C) : S.graph.Reach e y :=
    hex.trans ((hC.mem_iff x hx y).mp hy).1
  refine (List.perm_ext_iff_of_nodup hC'.nodup ?_).mpr fun w => ?_
  · refine (List.nodup_map_iff_inj_on hC.nodup).mpr fun y hy z hz => ?_
    exact h.injective y z (hreach hy) (hreach hz)
  · rw [hC'.mem_iff _ hx' w]
    constructor
    · rintro ⟨hxw, hwx⟩
      obtain ⟨y, hxy, rfl⟩ := h.exists_reach hex hxw
      refine List.mem_map_of_mem ((hC.mem_iff x hx y).mpr ⟨hxy, ?_⟩)
      exact h.reach_of_map (hex.trans hxy) hex hwx
    · intro hw
      obtain ⟨y, hy, rfl⟩ := List.mem_map.mp hw
      obtain ⟨hxy, hyx⟩ := (hC.mem_iff x hx y).mp hy
      exact ⟨h.reach hex hxy, h.reach (hreach hy) hyx⟩

theorem externalDeps_map (hreach : ∀ m ∈ C, S.graph.Reach e m) (hperm : C'.Perm (C.map φ))
    {d' : EntryDependency} :
    d' ∈ externalDeps S' C' ↔ ∃ d ∈ externalDeps S C, d' = ⟨d.nameHash, φ d.entryId⟩ := by
  have hmem {y : Nat} (hy : S.graph.Reach e y) : φ y ∈ C' ↔ y ∈ C := by
    rw [hperm.mem_iff, List.mem_map]
    constructor
    · rintro ⟨z, hz, he⟩
      rw [← h.injective z y (hreach z hz) hy he]
      exact hz
    · exact fun hy => ⟨y, hy, rfl⟩
  simp only [externalDeps, List.mem_filter, List.mem_flatMap, decide_eq_true_eq]
  constructor
  · rintro ⟨⟨m', hm', hd'⟩, hout⟩
    obtain ⟨m, hm, rfl⟩ := List.mem_map.mp (hperm.mem_iff.mp hm')
    rw [h.deps m (hreach m hm)] at hd'
    obtain ⟨d, hd, rfl⟩ := List.mem_map.mp hd'
    refine ⟨d, ⟨⟨m, hm, hd⟩, fun hin => hout ?_⟩, rfl⟩
    exact (hmem ((hreach m hm).tail (S.edge_of_mem hd))).mpr hin
  · rintro ⟨d, ⟨⟨m, hm, hd⟩, hout⟩, rfl⟩
    refine ⟨⟨φ m, (hmem (hreach m hm)).mpr hm, ?_⟩, fun hin => hout ?_⟩
    · rw [h.deps m (hreach m hm)]
      exact List.mem_map_of_mem hd
    · exact (hmem ((hreach m hm).tail (S.edge_of_mem hd))).mp hin

theorem sccInputs_eq (hreach : ∀ m ∈ C, S.graph.Reach e m) (hperm : C'.Perm (C.map φ))
    (hlinks : ∀ d ∈ externalDeps S C,
      secondHash wyhash S' (φ d.entryId) = secondHash wyhash S d.entryId) :
    sccInputs wyhash S' C' = sccInputs wyhash S C := by
  have hmembers : (memberSubs wyhash S' C').Perm (memberSubs wyhash S C) := by
    refine (hperm.map _).trans ?_
    rw [List.map_map, memberSubs]
    refine .of_eq (List.map_congr_left fun m hm => ?_)
    rw [Function.comp_apply, h.ownInputs_eq (hreach m hm)]
  refine sccInputs_congr hmembers fun k => ?_
  simp only [externalSubs, List.mem_map, h.externalDeps_map hreach hperm]
  constructor
  · rintro ⟨d', ⟨d, hd, rfl⟩, rfl⟩
    exact ⟨d, hd, by rw [hlinks d hd]⟩
  · rintro ⟨d, hd, rfl⟩
    exact ⟨_, ⟨d, hd, rfl⟩, by rw [hlinks d hd]⟩

/-- The second pass agrees, component by component, when the first does on
entries that are alone and depend on themselves. -/
theorem secondHash_eq (hfirst : ∀ x, S.graph.Reach e x → ¬ S.Poisoned x → S.SelfDependent x → S.Alone x →
      firstHash wyhash S' (φ x) = firstHash wyhash S x) {sccs' : List (List Nat)}
    (ho : Ordered wyhash S sccs) (ho' : Ordered wyhash S' sccs') (hsplit : sccs = pre ++ post) :
    ∀ x ∈ pre.flatten, S.graph.Reach e x → ¬ S.Poisoned x →
      secondHash wyhash S' (φ x) = secondHash wyhash S x := by
  induction pre using List.reverseRecOn generalizing post with
  | nil => exact fun x hx => absurd hx List.not_mem_nil
  | append_singleton pre C ih =>
    have hsplit' : sccs = pre ++ C :: post := by rw [hsplit]; simp
    intro x hx hex hclean
    rw [List.flatten_append] at hx
    rcases List.mem_append.mp hx with hx | hx
    · exact ih hsplit' x hx hex hclean
    · have hx : x ∈ C := by simpa using hx
      have hclean' : ¬ S'.Poisoned (φ x) := fun hbad => hclean ((h.poisoned_iff hex).mp hbad)
      obtain ⟨hC, -, hedge⟩ := ho.topological pre C post hsplit'
      have hall := not_poisoned_of_mem ho hsplit' hx hclean
      have hreach (m : Nat) (hm : m ∈ C) : S.graph.Reach e m :=
        hex.trans ((hC.mem_iff x hx m).mp hm).1
      have hlink {m : Nat} (hm : m ∈ C) {d : EntryDependency} (hd : d ∈ S.deps m)
          (hout : d.entryId ∉ C) :
          secondHash wyhash S' (φ d.entryId) = secondHash wyhash S d.entryId := by
        have hmd := S.edge_of_mem hd
        exact ih hsplit' d.entryId ((hedge m hm _ hmd).resolve_left hout)
          ((hreach m hm).tail hmd) fun hbad => hall m hm (hbad.of_edge hmd)
      by_cases halone : S.Alone x
      · obtain ⟨m, rfl⟩ := List.length_eq_one_iff.mp ((eq_singleton_iff ho hsplit' hx).mpr halone)
        obtain rfl := List.mem_singleton.mp hx
        rw [secondHash_of_alone ho hclean halone,
          secondHash_of_alone ho' hclean' ((h.alone_iff hex).mpr halone),
          singleInputs, singleInputs, h.ownInputs_eq hex, h.deps x hex, List.flatMap_map]
        congr 3
        refine List.flatMap_congr fun d hd => ?_
        have hxd : S.graph.Edge x d.entryId := S.edge_of_mem hd
        simp only [linkHash, h.eq_iff hex (hex.tail hxd)]
        by_cases hd' : d.entryId = x
        · have hself : S.SelfDependent x := by
            show S.graph.Edge x x
            rw [← hd'] at hxd ⊢
            exact hxd
          rw [if_pos hd', if_pos hd', hfirst x hex hclean hself halone]
        · rw [if_neg hd', if_neg hd', hlink hx hd (by simpa using hd')]
      · obtain ⟨pre', C', post', hs', hx'⟩ := exists_split ho' (S'.lt_of_not_poisoned hclean')
        have halone' : ¬ S'.Alone (φ x) := fun ha => halone ((h.alone_iff hex).mp ha)
        rcases secondHash_of_mem ho hsplit' hx hclean (ho.secondHash_ne_zero hsplit') with
          ⟨hone, -⟩ | ⟨-, hh⟩
        · exact absurd ((eq_singleton_iff ho hsplit' hx).mp (by rw [hone]; rfl)) halone
        rcases secondHash_of_mem ho' hs' hx' hclean' (ho'.secondHash_ne_zero hs') with
          ⟨hone, -⟩ | ⟨-, hh'⟩
        · exact absurd ((eq_singleton_iff ho' hs' hx').mp (by rw [hone]; rfl)) halone'
        rw [hh, hh', h.sccInputs_eq hreach
          (h.component_perm hC (ho'.topological pre' C' post' hs').1 hex hx hx')]
        intro d hd
        obtain ⟨hd, hout⟩ := List.mem_filter.mp hd
        obtain ⟨m, hm, hd⟩ := List.mem_flatMap.mp hd
        exact hlink hm hd (by simpa using hout)

end Renumbers

/-- **The same closure, the same key**: for an entry that leads to an ineligible
one, which has none, and for an entry from which no self-dependent entry leads
into a cycle. -/
theorem entryHash_renumber (wyhash : UInt64 → List HashInput → Nat) {S S' : Store} {φ : Nat → Nat}
    {e : Nat} (h : Renumbers S S' φ e) (hquiet : S.Poisoned e ∨ S.SelfQuiet e) :
    entryHash wyhash S' (φ e) = entryHash wyhash S e := by
  obtain ⟨hzero, hkeep⟩ := entryHash_eq wyhash S h.lt
  obtain ⟨hzero', hkeep'⟩ := entryHash_eq wyhash S' (h.lt_map e .refl)
  by_cases hbad : S.Poisoned e
  · rw [hzero hbad, hzero' ((h.poisoned_iff .refl).mpr hbad)]
  · obtain ⟨sccs, ho⟩ := exists_ordered wyhash S
    obtain ⟨sccs', ho'⟩ := exists_ordered wyhash S'
    rw [(hkeep hbad).1, (hkeep' fun hbad' => hbad ((h.poisoned_iff .refl).mp hbad')).1]
    refine h.secondHash_eq ?_ ho ho' (List.append_nil sccs).symm e (ho.covers e h.lt) .refl hbad
    -- below such an entry there is no cycle, and the first pass agrees
    intro x hex hclean hself halone
    exact h.firstHash_eq ho (List.append_nil sccs).symm x
      (ho.covers x (S.lt_of_not_poisoned hclean)) hex hclean
      (hquiet.resolve_left hbad x hex hself halone)

/-! ## Hashes without collisions -/

/-- Different values have different hashes, and none hashes to the sentinel. -/
structure CollisionFree (wyhash : UInt64 → List HashInput → Nat) : Prop where
  injective : ∀ {seed seed' : UInt64} {xs ys : List HashInput},
    wyhash seed xs = wyhash seed' ys → seed = seed' ∧ xs = ys
  ne_zero : ∀ (seed : UInt64) (xs : List HashInput), wyhash seed xs ≠ 0

/-- A value as a number of its kind and a list of numbers. -/
def HashInput.code : HashInput → Nat × List Nat
  | .storePath bytes => (0, bytes.map (·.toNat))
  | .integrity bytes => (1, bytes.map (·.toNat))
  | .nameHash h => (2, [h.toNat])
  | .hash h => (3, [h])

def HashInput.decode : Nat × List Nat → HashInput
  | (0, l) => .storePath (l.map UInt8.ofNat)
  | (1, l) => .integrity (l.map UInt8.ofNat)
  | (2, l) => .nameHash (UInt64.ofNat (l.headD 0))
  | (_, l) => .hash (l.headD 0)

theorem HashInput.code_injective : Function.Injective HashInput.code := by
  refine Function.LeftInverse.injective (g := HashInput.decode) fun a => ?_
  cases a with
  | storePath bytes => simp [code, decode, Function.comp_def]
  | integrity bytes => simp [code, decode, Function.comp_def]
  | nameHash h => simp [code, decode]
  | hash h => simp [code, decode]

/-- A hash without collisions: the values themselves, as one number. -/
def codeHash (seed : UInt64) (xs : List HashInput) : Nat :=
  Encodable.encode (seed.toNat, xs.map HashInput.code) + 1

theorem codeHash_collisionFree : CollisionFree codeHash where
  injective := by
    intro seed seed' xs ys h
    have hcode := Encodable.encode_injective (Nat.succ_injective h)
    obtain ⟨hseed, hxs⟩ := Prod.mk.inj hcode
    exact ⟨UInt64.toNat_inj.mp hseed, List.map_injective_iff.mpr HashInput.code_injective hxs⟩
  ne_zero := fun _ _ => Nat.succ_ne_zero _

/-! ### A closure under two numberings -/

/-- Entry `0` links to a cycle, `1` and `2`, and to `3`, which depends on itself. -/
def mixedStore : Store where
  entries := [⟨[101], [], true, [⟨99, 1⟩, ⟨109, 3⟩]⟩, ⟨[99], [], true, [⟨100, 2⟩]⟩,
    ⟨[100], [], true, [⟨99, 1⟩]⟩, ⟨[109], [], true, [⟨109, 3⟩]⟩]
  links := by decide

def mixedStoreReversed : Store where
  entries := [⟨[109], [], true, [⟨109, 0⟩]⟩, ⟨[100], [], true, [⟨99, 2⟩]⟩,
    ⟨[99], [], true, [⟨100, 1⟩]⟩, ⟨[101], [], true, [⟨99, 2⟩, ⟨109, 0⟩]⟩]
  links := by decide

/-- The whole store in the opposite order. -/
theorem renumbers_reversed {S S' : Store} (n : Nat) (hn : S.entries.length = n + 1)
    (hn' : S'.entries.length = n + 1)
    (hall : ∀ x < n + 1, S'.entry (n - x) =
      { S.entry x with dependencies := (S.deps x).map fun d => ⟨d.nameHash, n - d.entryId⟩ })
    {e : Nat} (he : e < n + 1) : Renumbers S S' (fun x => n - x) e := by
  have hlt {x : Nat} (hx : S.graph.Reach e x) : x < n + 1 := hn ▸ S.reach_lt (hn ▸ he) hx
  refine ⟨hn ▸ he, ?_, ?_, ?_, ?_, ?_, ?_⟩
  · exact fun x _ => hn' ▸ Nat.lt_succ_of_le (Nat.sub_le n x)
  · intro x y hx hy hxy
    have hx := hlt hx
    have hy := hlt hy
    have hxy : n - x = n - y := hxy
    omega
  · exact fun x hx => by rw [hall x (hlt hx)]
  · exact fun x hx => by rw [hall x (hlt hx)]
  · exact fun x hx => by rw [hall x (hlt hx)]
  · exact fun x hx => by rw [Store.deps, hall x (hlt hx)]

theorem entryHash_renumber_mixed : mixedStore.SelfDependent 3 ∧
    entryHash codeHash mixedStoreReversed 3 = entryHash codeHash mixedStore 0 := by
  have hreversed : Renumbers mixedStore mixedStoreReversed (fun x => 3 - x) 0 :=
    renumbers_reversed 3 rfl rfl (by decide) (by decide)
  refine ⟨by decide, entryHash_renumber codeHash hreversed (.inr ?_)⟩
  intro m hm hself _ c hc
  have hlast {y : Nat} (hy : mixedStore.graph.Reach 3 y) : y = 3 := Store.eq_of_reach (by decide) hy
  have hall : ∀ m < 4, m ∈ mixedStore.graph.succ m → m = 3 := by decide
  obtain rfl := hall m (Store.reach_lt (S := mixedStore) (by decide) hm) hself
  obtain rfl := hlast hc
  exact fun y hy => hlast hy.1

/-- Entry `0` depends on itself and links into the cycle of `1` and `2`. -/
def selfFirstStore : Store where
  entries := [⟨[109], [], true, [⟨109, 0⟩, ⟨99, 1⟩]⟩, ⟨[99], [], true, [⟨100, 2⟩]⟩,
    ⟨[100], [], true, [⟨99, 1⟩]⟩]
  links := by decide

/-- The same entries in the opposite order. -/
def selfLastStore : Store where
  entries := [⟨[100], [], true, [⟨99, 1⟩]⟩, ⟨[99], [], true, [⟨100, 0⟩]⟩,
    ⟨[109], [], true, [⟨109, 2⟩, ⟨99, 1⟩]⟩]
  links := by decide

/-- Where all entries are eligible, none is poisoned. -/
theorem Store.not_poisoned {S : Store} (h : ∀ i < S.entries.length, (S.entry i).eligible = true)
    {x : Nat} (hx : x < S.entries.length) : ¬ S.Poisoned x := by
  rintro ⟨y, hy, hbad⟩
  exact absurd ((h y (S.reach_lt hx hy)).symm.trans hbad) (by simp)

section Free
variable {wyhash : UInt64 → List HashInput → Nat} (hfree : CollisionFree wyhash)
include hfree

theorem CollisionFree.nonZero_eq (seed : UInt64) (xs : List HashInput) :
    nonZero (wyhash seed xs) = wyhash seed xs := by
  rw [nonZero, if_neg (hfree.ne_zero seed xs)]

theorem CollisionFree.nonZero_inj {seed seed' : UInt64} {xs ys : List HashInput}
    (h : nonZero (wyhash seed xs) = nonZero (wyhash seed' ys)) : seed = seed' ∧ xs = ys := by
  rw [hfree.nonZero_eq, hfree.nonZero_eq] at h
  exact hfree.injective h

end Free

/-! ### Reading the values back -/

/-- What is read of a dependency: its name, and its hash if there is one. -/
def piece (g : EntryDependency → Option Nat) (d : EntryDependency) : List HashInput :=
  .nameHash d.nameHash :: (g d).toList.map .hash

/-- The pieces can be told apart. -/
theorem flatMap_piece_inj {g g' : EntryDependency → Option Nat} {ds ds' : List EntryDependency}
    (h : ds.flatMap (piece g) = ds'.flatMap (piece g')) :
    List.Forall₂ (fun d d' => d.nameHash = d'.nameHash ∧ g d = g' d') ds ds' := by
  have hstart (g : EntryDependency → Option Nat) (ds : List EntryDependency) (k : Nat)
      (rest : List HashInput) : ds.flatMap (piece g) ≠ .hash k :: rest := by
    cases ds with
    | nil => simp
    | cons d ds => simp [piece]
  induction ds generalizing ds' with
  | nil =>
    cases ds' with
    | nil => exact .nil
    | cons d' ds' => simp [piece] at h
  | cons d ds ih =>
    cases ds' with
    | nil => simp [piece] at h
    | cons d' ds' =>
      simp only [List.flatMap_cons, piece, List.cons_append, List.cons.injEq,
        HashInput.nameHash.injEq] at h
      obtain ⟨hname, h⟩ := h
      cases hg : g d with
      | none =>
        cases hg' : g' d' with
        | none =>
          rw [hg, hg'] at h
          exact .cons ⟨hname, hg.trans hg'.symm⟩ (ih h)
        | some k =>
          rw [hg, hg'] at h
          exact absurd h (hstart g ds k _)
      | some k =>
        cases hg' : g' d' with
        | none =>
          rw [hg, hg'] at h
          exact absurd h.symm (hstart g' ds' k _)
        | some k' =>
          rw [hg, hg'] at h
          obtain ⟨hk, hrest⟩ := List.cons.inj h
          obtain rfl := HashInput.hash.inj hk
          exact .cons ⟨hname, hg.trans hg'.symm⟩ (ih hrest)

theorem singleInputs_eq_pieces (wyhash : UInt64 → List HashInput → Nat) (S : Store) (x : Nat) :
    singleInputs wyhash S x = S.ownInputs x ++
      (S.deps x).flatMap (piece fun d => some (linkHash wyhash S x d.entryId)) := rfl

theorem firstInputs_eq_pieces (wyhash : UInt64 → List HashInput → Nat) (S : Store) (x : Nat) :
    firstInputs wyhash S x = S.ownInputs x ++ (S.deps x).flatMap (piece fun d =>
      if d.entryId = x then none else some (firstHash wyhash S d.entryId)) := by
  rw [firstInputs]
  congr 1
  refine List.flatMap_congr fun d _ => ?_
  by_cases hd : d.entryId = x
  · simp [piece, hd]
  · simp [piece, hd]

/-- The own data comes first and has two values. -/
theorem ownInputs_append_inj {S S' : Store} {x x' : Nat} {l l' : List HashInput}
    (h : S.ownInputs x ++ l = S'.ownInputs x' ++ l') :
    (S.entry x).storePath = (S'.entry x').storePath ∧ S.ownInputs x = S'.ownInputs x' ∧ l = l' := by
  simp only [Store.ownInputs, List.cons_append, List.nil_append, List.cons.injEq,
    HashInput.storePath.injEq, HashInput.integrity.injEq] at h
  obtain ⟨hpath, hint, hl⟩ := h
  exact ⟨hpath, by rw [Store.ownInputs, Store.ownInputs, hpath, hint], hl⟩

section Free
variable {wyhash : UInt64 → List HashInput → Nat} (hfree : CollisionFree wyhash)
include hfree

/-- The entry keeps what the first pass read in the cycle, and that depends on
where the pass entered it. -/
theorem selfStore_hash_ne : entryHash wyhash selfLastStore 2 ≠ entryHash wyhash selfFirstStore 0 := by
  have hclean : ¬ selfFirstStore.Poisoned 0 := Store.not_poisoned (by decide) (by decide)
  have hclean' : ¬ selfLastStore.Poisoned 2 := Store.not_poisoned (by decide) (by decide)
  have halone : selfFirstStore.Alone 0 := by
    have hto : ∀ v, 0 ∈ selfFirstStore.graph.succ v → v = 0 := by
      intro v hv
      obtain ⟨d, hd, -⟩ := List.mem_map.mp hv
      have hall : ∀ v < 3, 0 ∈ selfFirstStore.graph.succ v → v = 0 := by decide
      exact hall v (selfFirstStore.deps_lt hd).1 hv
    exact fun y hy => Store.eq_of_reach_to hto hy.2
  have halone' : selfLastStore.Alone 2 := by
    have hto : ∀ v, 2 ∈ selfLastStore.graph.succ v → v = 2 := by
      intro v hv
      obtain ⟨d, hd, -⟩ := List.mem_map.mp hv
      have hall : ∀ v < 3, 2 ∈ selfLastStore.graph.succ v → v = 2 := by decide
      exact hall v (selfLastStore.deps_lt hd).1 hv
    exact fun y hy => Store.eq_of_reach_to hto hy.2
  have hcycle : firstHash wyhash selfFirstStore 1 = nonZero (wyhash 0x9E3779B97F4A7C15
      [.storePath [99], .integrity [], .nameHash 100, .hash (nonZero
        (wyhash 0x9E3779B97F4A7C15 [.storePath [100], .integrity [], .nameHash 99]))]) := by
    have hturns : dfsTurns selfFirstStore .start = 20 := by decide
    rw [firstHash, dfsPass, hturns]
    simp [dfsStep, dfsLink, dfsFinish, Dfs.start, Dfs.next, Store.entry, Store.deps, selfFirstStore,
      Store.ownInputs]
  have hcycle' : firstHash wyhash selfLastStore 1 = nonZero (wyhash 0x9E3779B97F4A7C15
      [.storePath [99], .integrity [], .nameHash 100]) := by
    have hturns : dfsTurns selfLastStore .start = 20 := by decide
    rw [firstHash, dfsPass, hturns]
    simp [dfsStep, dfsLink, dfsFinish, Dfs.start, Dfs.next, Store.entry, Store.deps, selfLastStore,
      Store.ownInputs]
  obtain ⟨sccs, ho⟩ := exists_ordered wyhash selfFirstStore
  obtain ⟨sccs', ho'⟩ := exists_ordered wyhash selfLastStore
  rw [((entryHash_eq wyhash selfFirstStore (by decide)).2 hclean).1,
    ((entryHash_eq wyhash selfLastStore (by decide)).2 hclean').1,
    secondHash_of_alone ho hclean halone, secondHash_of_alone ho' hclean' halone']
  intro heq
  have hsingle := (hfree.nonZero_inj heq).2
  rw [singleInputs_eq_pieces, singleInputs_eq_pieces] at hsingle
  obtain ⟨-, hlink⟩ := (List.forall₂_cons.mp (flatMap_piece_inj (ownInputs_append_inj hsingle).2.2)).1
  have hself : firstHash wyhash selfLastStore 2 = firstHash wyhash selfFirstStore 0 :=
    Option.some.inj hlink
  rw [firstHash_of_alone hclean halone, firstHash_of_alone hclean' halone'] at hself
  have hfirst := (hfree.nonZero_inj hself).2
  rw [firstInputs_eq_pieces, firstInputs_eq_pieces] at hfirst
  have hpieces := (List.forall₂_cons.mp (flatMap_piece_inj (ownInputs_append_inj hfirst).2.2)).2
  have hone : firstHash wyhash selfLastStore 1 = firstHash wyhash selfFirstStore 1 :=
    Option.some.inj (List.forall₂_cons.mp hpieces).1.2
  rw [hcycle, hcycle'] at hone
  exact absurd (hfree.nonZero_inj hone).2 (by simp)

end Free

/-- The claim fails at the two numberings, for every hash without collisions. -/
theorem entryHash_renumber_self_ne :
    Renumbers selfFirstStore selfLastStore (fun x => 2 - x) 0 ∧ CollisionFree codeHash ∧
      ∀ wyhash, CollisionFree wyhash →
        entryHash wyhash selfLastStore 2 ≠ entryHash wyhash selfFirstStore 0 :=
  ⟨renumbers_reversed 2 rfl rfl (by decide) (by decide), codeHash_collisionFree,
    fun _ hfree => selfStore_hash_ne hfree⟩

end OhosBun.Install
