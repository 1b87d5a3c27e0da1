/-
# `OhosBun.Lib.Forest` — pairing heaps as forests

A forest is a list of trees, each a value over a forest of children.  Two trees are
linked by hanging one under the other's value (`link`), a forest becomes one tree in
two passes: pairs are linked from the left (`mergeRight`), then the pairs from the right
(`mergeLeft`).

For a strict weak order every one of these keeps the values (`nodes`) and heap order
(`Ordered`): no value is less than one above it.
-/
import Mathlib.Order.Defs.Unbundled
import Mathlib.Data.List.Nodup

namespace OhosBun.Lib

/-- A list of trees: the first tree's value and children, and the other trees. -/
inductive Forest (α : Type*)
  | nil
  | cons (v : α) (children siblings : Forest α)

/-- A tree: its value and children. -/
structure Forest.Tree (α : Type*) where
  value : α
  children : Forest α

namespace Forest
variable {α : Type*}

/-- The value of the first tree. -/
def first : Forest α → Option α
  | nil => none
  | cons v _ _ => some v

/-- The values, each before those under it and those after it. -/
def nodes : Forest α → List α
  | nil => []
  | cons v c s => v :: (c.nodes ++ s.nodes)

/-- The values of a tree. -/
def Tree.nodes (t : Tree α) : List α := t.value :: t.children.nodes

/-- The values of some trees. -/
def treesNodes : List (Tree α) → List α
  | [] => []
  | t :: ts => t.nodes ++ treesNodes ts

@[simp] theorem first_nil : (nil : Forest α).first = none := rfl
@[simp] theorem first_cons (v : α) (c s : Forest α) : (cons v c s).first = some v := rfl
@[simp] theorem nodes_nil : (nil : Forest α).nodes = [] := rfl

@[simp] theorem nodes_cons (v : α) (c s : Forest α) :
    (cons v c s).nodes = v :: (c.nodes ++ s.nodes) := rfl

@[simp] theorem treesNodes_nil : treesNodes ([] : List (Tree α)) = [] := rfl

@[simp] theorem treesNodes_cons (t : Tree α) (ts : List (Tree α)) :
    treesNodes (t :: ts) = t.nodes ++ treesNodes ts := rfl

theorem mem_nodes_of_first {F : Forest α} {v : α} (h : F.first = some v) : v ∈ F.nodes := by
  cases F with
  | nil => simp at h
  | cons u c s =>
    obtain rfl : u = v := by simpa using h
    simp

theorem first_ne {F : Forest α} {v : α} (h : v ∉ F.nodes) : F.first ≠ some v :=
  mt mem_nodes_of_first h

theorem Tree.mem_nodes {t : Tree α} {v : α} :
    v ∈ t.nodes ↔ v = t.value ∨ v ∈ t.children.nodes := List.mem_cons

theorem length_le_treesNodes (ts : List (Tree α)) : ts.length ≤ (treesNodes ts).length := by
  induction ts with
  | nil => simp
  | cons t ts ih =>
    simp only [List.length_cons, treesNodes_cons, List.length_append, Tree.nodes]
    omega

/-! ## Linking trees -/

section Linking
variable (less : α → α → Bool)

/-- The tree with the larger value becomes the first child of the other. -/
def link (s t : Tree α) : Tree α :=
  if less s.value t.value then ⟨s.value, cons t.value t.children s.children⟩
  else ⟨t.value, cons s.value s.children t.children⟩

/-- Links the trees in pairs, from the left: the last tree, or pair, and those before it
(the last one first). -/
def mergeRight (K : List (Tree α)) (a : Tree α) : Forest α → Tree α × List (Tree α)
  | nil => (a, K)
  | cons b c nil => (link less a ⟨b, c⟩, K)
  | cons b c (cons d e s) => mergeRight (link less a ⟨b, c⟩ :: K) ⟨d, e⟩ s

/-- Links the trees into one, the first tree first. -/
def mergeLeft (t : Tree α) : List (Tree α) → Tree α
  | [] => t
  | k :: K => mergeLeft (link less k t) K

/-- The trees of a nonempty forest as one tree. -/
def combine (a : Tree α) (s : Forest α) : Tree α :=
  mergeLeft less (mergeRight less [] a s).1 (mergeRight less [] a s).2

theorem nodes_link (s t : Tree α) : (link less s t).nodes.Perm (s.nodes ++ t.nodes) := by
  unfold link
  split
  · refine List.Perm.cons _ ?_
    exact (List.perm_append_comm : (t.nodes ++ s.children.nodes).Perm _)
  · have hswap : (t.value :: s.nodes ++ t.children.nodes).Perm (s.nodes ++ t.nodes) :=
      List.perm_middle.symm
    exact hswap

theorem nodes_mergeRight (K : List (Tree α)) (a : Tree α) (s : Forest α) :
    ((mergeRight less K a s).1.nodes ++ treesNodes (mergeRight less K a s).2).Perm
      (a.nodes ++ s.nodes ++ treesNodes K) := by
  fun_induction mergeRight less K a s with
  | case1 K a => simp
  | case2 K a b c =>
    refine (nodes_link less a ⟨b, c⟩).append_right _ |>.trans (.of_eq ?_)
    simp [Tree.nodes]
  | case3 K a b c d e s ih =>
    refine ih.trans ?_
    have hlink := nodes_link less a ⟨b, c⟩
    have hmove : (Tree.nodes ⟨d, e⟩ ++ s.nodes ++ ((link less a ⟨b, c⟩).nodes ++ treesNodes K)).Perm
        ((link less a ⟨b, c⟩).nodes ++ (Tree.nodes ⟨d, e⟩ ++ s.nodes) ++ treesNodes K) := by
      rw [← List.append_assoc]
      exact List.perm_append_comm.append_right _
    refine hmove.trans (((hlink.append_right _).append_right _).trans (.of_eq ?_))
    simp [Tree.nodes]

theorem nodes_mergeLeft (t : Tree α) (K : List (Tree α)) :
    (mergeLeft less t K).nodes.Perm (t.nodes ++ treesNodes K) := by
  induction K generalizing t with
  | nil => simp [mergeLeft]
  | cons k K ih =>
    refine (ih (link less k t)).trans ?_
    rw [treesNodes_cons, ← List.append_assoc]
    exact ((nodes_link less k t).trans List.perm_append_comm).append_right _

theorem length_mergeRight_lt (a : Tree α) (s : Forest α) :
    (mergeRight less [] a s).2.length < (a.nodes ++ s.nodes).length := by
  have hperm := (nodes_mergeRight less [] a s).length_eq
  have hle := length_le_treesNodes (mergeRight less [] a s).2
  simp only [Tree.nodes, treesNodes_nil, List.append_nil, List.length_append,
    List.length_cons] at hperm ⊢
  omega

/-- Every value of the forest is in the combined tree, once. -/
theorem nodes_combine (a : Tree α) (s : Forest α) :
    (combine less a s).nodes.Perm (a.nodes ++ s.nodes) := by
  refine (nodes_mergeLeft less _ _).trans ((nodes_mergeRight less [] a s).trans (.of_eq ?_))
  simp

end Linking

/-! ## Heap order -/

section Order
variable (less : α → α → Bool)

/-- No value is less than one above it. -/
def Ordered : Forest α → Prop
  | nil => True
  | cons v c s => (∀ u ∈ c.nodes, ¬ less u v) ∧ c.Ordered ∧ s.Ordered

/-- Heap order of a tree. -/
def Tree.Ordered (t : Tree α) : Prop :=
  (∀ u ∈ t.children.nodes, ¬ less u t.value) ∧ t.children.Ordered less

variable {less}

@[simp] theorem ordered_nil : Ordered less (nil : Forest α) := trivial

variable {s : Forest α} {a b : α} {t : Tree α} {K : List (Tree α)}

@[simp] theorem ordered_cons {v : α} {c : Forest α} :
    Ordered less (cons v c s) ↔ Tree.Ordered less ⟨v, c⟩ ∧ Ordered less s := by
  simp [Ordered, Tree.Ordered, and_assoc]

variable [IsStrictWeakOrder α fun a b => less a b]

theorem not_less_self (a : α) : ¬ less a a :=
  irrefl_of (fun a b : α => less a b) a

theorem not_less_of_less (h : less a b) : ¬ less b a :=
  fun h' => not_less_self a (trans_of (fun a b : α => less a b) h h')

/-- What is not less than a value is not less than one that value is not less than. -/
theorem not_less_trans {c : α} (hab : ¬ less a b) (hbc : ¬ less b c) : ¬ less a c := by
  intro hac
  by_cases hba : less b a
  · exact hbc (trans_of (fun a b : α => less a b) hba hac)
  by_cases hcb : less c b
  · exact hab (trans_of (fun a b : α => less a b) hac hcb)
  have hincomp := @IsStrictWeakOrder.incomp_trans α (fun a b => less a b) _ a b c
  exact (hincomp ⟨hab, hba⟩ ⟨hbc, hcb⟩).1 hac

/-- The root of an ordered tree is a minimum of it. -/
theorem Tree.Ordered.isMin (h : t.Ordered less) : ∀ u ∈ t.nodes, ¬ less u t.value := by
  intro u hu
  obtain rfl | hu := List.mem_cons.1 hu
  · exact not_less_self _
  · exact h.1 u hu

theorem Tree.Ordered.link {s : Tree α} (hs : s.Ordered less) (ht : t.Ordered less) :
    (link less s t).Ordered less := by
  -- the values under the loser are compared with the winner through the loser
  have hunder : ∀ {w l : Tree α}, w.Ordered less → l.Ordered less → ¬ less l.value w.value →
      Tree.Ordered less ⟨w.value, cons l.value l.children w.children⟩ := by
    intro w l hw hl hlw
    refine ⟨fun u hu => ?_, ordered_cons.2 ⟨hl, hw.2⟩⟩
    obtain rfl | hu := List.mem_cons.1 hu
    · exact hlw
    obtain hu | hu := List.mem_append.1 hu
    · exact not_less_trans (hl.1 u hu) hlw
    · exact hw.1 u hu
  unfold Forest.link
  split
  next hless => exact hunder hs ht (not_less_of_less hless)
  next hless => exact hunder ht hs hless

theorem ordered_mergeRight {a : Tree α} (hK : ∀ k ∈ K, Tree.Ordered less k) (ha : a.Ordered less)
    (hs : s.Ordered less) :
    (mergeRight less K a s).1.Ordered less ∧
      ∀ k ∈ (mergeRight less K a s).2, Tree.Ordered less k := by
  fun_induction mergeRight less K a s with
  | case1 K a => exact ⟨ha, hK⟩
  | case2 K a b c => exact ⟨ha.link (ordered_cons.1 hs).1, hK⟩
  | case3 K a b c d e s ih =>
    obtain ⟨hb, hs⟩ := ordered_cons.1 hs
    obtain ⟨hd, hs⟩ := ordered_cons.1 hs
    refine ih (fun k hk => ?_) hd hs
    obtain rfl | hk := List.mem_cons.1 hk
    · exact ha.link hb
    · exact hK k hk

theorem ordered_mergeLeft (ht : t.Ordered less) (hK : ∀ k ∈ K, Tree.Ordered less k) :
    (mergeLeft less t K).Ordered less := by
  induction K generalizing t with
  | nil => exact ht
  | cons k K ih =>
    obtain ⟨hk, hK⟩ := List.forall_mem_cons.1 hK
    exact ih (hk.link ht) hK

/-- The combined tree is in heap order when the trees are. -/
theorem Tree.Ordered.combine {a : Tree α} (ha : a.Ordered less) (hs : s.Ordered less) :
    (combine less a s).Ordered less :=
  have hright := ordered_mergeRight (K := []) (fun _ hk => by simp at hk) ha hs
  ordered_mergeLeft hright.1 hright.2

end Order

/-! ## Taking a value out -/

section Erase
variable [DecidableEq α]

/-- The forest without the tree of a value. -/
def erase (v : α) : Forest α → Forest α
  | nil => nil
  | cons u c s => if u = v then s else cons u (c.erase v) (s.erase v)

/-- The children of a value. -/
def childrenOf (v : α) : Forest α → Forest α
  | nil => nil
  | cons u c s => if u = v then c else if v ∈ c.nodes then c.childrenOf v else s.childrenOf v

variable {v : α}

variable {F : Forest α}

theorem erase_of_notMem (h : v ∉ F.nodes) : F.erase v = F := by
  induction F with
  | nil => rfl
  | cons u c s ihc ihs =>
    simp only [nodes_cons, List.mem_cons, List.mem_append, not_or] at h
    rw [erase, if_neg (Ne.symm h.1), ihc h.2.1, ihs h.2.2]

theorem first_erase (h : F.first ≠ some v) : (F.erase v).first = F.first := by
  cases F with
  | nil => rfl
  | cons u c s => rw [erase, if_neg (by simpa using h), first_cons, first_cons]

/-- A value, what is under it and the rest are all of the forest. -/
theorem nodes_erase (hv : v ∈ F.nodes) (hF : F.nodes.Nodup) :
    (v :: ((F.childrenOf v).nodes ++ (F.erase v).nodes)).Perm F.nodes := by
  induction F with
  | nil => simp at hv
  | cons u c s ihc ihs =>
    obtain ⟨hu, hcs⟩ := List.nodup_cons.1 hF
    obtain ⟨hc, hs, hdisj⟩ := List.nodup_append'.1 hcs
    by_cases huv : u = v
    · simp [childrenOf, erase, huv]
    rw [childrenOf, erase, if_neg huv, if_neg huv]
    by_cases hvc : v ∈ c.nodes
    · rw [if_pos hvc, erase_of_notMem (hdisj hvc)]
      have hperm := (ihc hvc hc).append_right s.nodes
      refine List.Perm.trans ?_ (hperm.cons u)
      simp only [nodes_cons, List.cons_append, List.append_assoc]
      exact (List.perm_middle.cons v).trans (.swap _ _ _)
    · have hvs : v ∈ s.nodes := by simpa [Ne.symm huv, hvc] using hv
      rw [if_neg hvc, erase_of_notMem hvc]
      have hperm := (ihs hvs hs).append_left c.nodes
      refine List.Perm.trans ?_ (hperm.cons u)
      simp only [nodes_cons]
      calc v :: ((s.childrenOf v).nodes ++ u :: (c.nodes ++ (s.erase v).nodes))
          _ |>.Perm (u :: v :: ((s.childrenOf v).nodes ++ (c.nodes ++ (s.erase v).nodes))) :=
            (List.perm_middle.cons v).trans (.swap _ _ _)
          _ |>.Perm (u :: (v :: (c.nodes ++ ((s.childrenOf v).nodes ++ (s.erase v).nodes)))) := by
            refine ((List.Perm.cons v ?_)).cons u
            rw [← List.append_assoc, ← List.append_assoc]
            exact List.perm_append_comm.append_right _
          _ |>.Perm (u :: (c.nodes ++ v :: ((s.childrenOf v).nodes ++ (s.erase v).nodes))) :=
            List.perm_middle.symm.cons u

/-- A value, what is under it and the rest share nothing. -/
structure Parts (F : Forest α) (v : α) : Prop where
  under : (F.childrenOf v).nodes.Nodup
  rest : (F.erase v).nodes.Nodup
  notMem_under : v ∉ (F.childrenOf v).nodes
  notMem_rest : v ∉ (F.erase v).nodes
  disjoint : (F.childrenOf v).nodes.Disjoint (F.erase v).nodes
  mem_iff : ∀ x, x ∈ F.nodes ↔ x = v ∨ x ∈ (F.childrenOf v).nodes ∨ x ∈ (F.erase v).nodes

theorem parts (hv : v ∈ F.nodes) (hF : F.nodes.Nodup) : Parts F v := by
  have hperm := nodes_erase hv hF
  obtain ⟨hvrest, hrest⟩ := List.nodup_cons.1 (hperm.nodup_iff.2 hF)
  obtain ⟨hunder, herase, hdisj⟩ := List.nodup_append'.1 hrest
  rw [List.mem_append, not_or] at hvrest
  refine ⟨hunder, herase, hvrest.1, hvrest.2, hdisj, fun x => ?_⟩
  rw [← hperm.mem_iff, List.mem_cons, List.mem_append]

variable {less : α → α → Bool}

theorem mem_of_mem_erase {u : α} (h : u ∈ (F.erase v).nodes) : u ∈ F.nodes := by
  induction F with
  | nil => exact h
  | cons w c s ihc ihs =>
    rw [erase] at h
    split at h
    · simp [h]
    · simp only [nodes_cons, List.mem_cons, List.mem_append] at h ⊢
      exact h.imp_right (Or.imp ihc ihs)

theorem Ordered.erase (h : F.Ordered less) : (F.erase v).Ordered less := by
  induction F with
  | nil => exact h
  | cons w c s ihc ihs =>
    obtain ⟨hc, hs⟩ := ordered_cons.1 h
    rw [Forest.erase]
    split
    · exact hs
    · exact ordered_cons.2 ⟨⟨fun u hu => hc.1 u (mem_of_mem_erase hu), ihc hc.2⟩, ihs hs⟩

theorem Ordered.childrenOf (h : F.Ordered less) :
    (F.childrenOf v).Ordered less := by
  induction F with
  | nil => exact h
  | cons w c s ihc ihs =>
    obtain ⟨hc, hs⟩ := ordered_cons.1 h
    rw [Forest.childrenOf]
    split
    · exact hc.2
    · split
      · exact ihc hc.2
      · exact ihs hs

theorem Ordered.under (h : F.Ordered less) (hv : v ∈ F.nodes) :
    ∀ u ∈ (F.childrenOf v).nodes, ¬ less u v := by
  induction F with
  | nil => simp at hv
  | cons w c s ihc ihs =>
    obtain ⟨hc, hs⟩ := ordered_cons.1 h
    rw [Forest.childrenOf]
    by_cases hwv : w = v
    · subst hwv
      rw [if_pos rfl]
      exact hc.1
    rw [if_neg hwv]
    by_cases hvc : v ∈ c.nodes
    · rw [if_pos hvc]
      exact ihc hc.2 hvc
    · rw [if_neg hvc]
      exact ihs hs (by simpa [Ne.symm hwv, hvc] using hv)

end Erase

/-- The forest of one tree. -/
def Tree.toForest (t : Tree α) : Forest α := .cons t.value t.children .nil

@[simp] theorem Tree.nodes_toForest (t : Tree α) : t.toForest.nodes = t.nodes := by
  simp [Tree.toForest, Tree.nodes]

theorem Tree.Ordered.toForest {less : α → α → Bool} {t : Tree α} (h : t.Ordered less) :
    Forest.Ordered less t.toForest := ordered_cons.2 ⟨h, ordered_nil⟩

end Forest

/-! ## The heap -/

/-- A pairing heap: nothing, or a tree. -/
abbrev PairingHeap (α : Type*) := Option (Forest.Tree α)

namespace PairingHeap
open Forest
variable {α : Type*}

/-- The values of a heap. -/
def values : PairingHeap α → List α
  | none => []
  | some t => t.nodes

/-- The root of a heap. -/
def min? (P : PairingHeap α) : Option α := P.map Forest.Tree.value

/-- The trees of a forest as one heap. -/
def ofForest (less : α → α → Bool) : Forest α → PairingHeap α
  | .nil => none
  | .cons v c s => some (combine less ⟨v, c⟩ s)

/-- A heap melded with a tree. -/
def meld (less : α → α → Bool) : PairingHeap α → Forest.Tree α → Forest.Tree α
  | none, t => t
  | some s, t => link less s t

/-- A heap with one more value. -/
def insert (less : α → α → Bool) (v : α) : PairingHeap α → PairingHeap α
  | none => some ⟨v, .nil⟩
  | some t => some (link less ⟨v, .nil⟩ t)

/-- A heap without its root. -/
def deleteMin (less : α → α → Bool) : PairingHeap α → PairingHeap α
  | none => none
  | some t => ofForest less t.children

/-- A heap without a value. -/
def remove [DecidableEq α] (less : α → α → Bool) (v : α) : PairingHeap α → PairingHeap α
  | none => none
  | some t =>
    if t.value = v then ofForest less t.children
    else some (meld less (ofForest less (t.children.childrenOf v))
      ⟨t.value, t.children.erase v⟩)

/-- Heap order. -/
def Ordered (less : α → α → Bool) (P : PairingHeap α) : Prop := ∀ t ∈ P, Forest.Tree.Ordered less t

@[simp] theorem values_none : values (none : PairingHeap α) = [] := rfl
@[simp] theorem values_some (t : Forest.Tree α) : values (some t) = t.nodes := rfl

section Values
variable (less : α → α → Bool)

theorem values_ofForest (F : Forest α) : (ofForest less F).values.Perm F.nodes := by
  cases F with
  | nil => exact .refl _
  | cons v c s => exact nodes_combine less ⟨v, c⟩ s

theorem nodes_meld (P : PairingHeap α) (t : Forest.Tree α) :
    (meld less P t).nodes.Perm (P.values ++ t.nodes) := by
  cases P with
  | none => exact .refl _
  | some s => exact nodes_link less s t

theorem values_insert (v : α) (P : PairingHeap α) :
    (P.insert less v).values.Perm (v :: P.values) := by
  cases P with
  | none => exact .refl _
  | some t => exact nodes_link less ⟨v, .nil⟩ t

variable {P : PairingHeap α}

theorem mem_values_deleteMin (hP : P.values.Nodup) (u : α) :
    u ∈ (P.deleteMin less).values ↔ u ∈ P.values ∧ some u ≠ P.min? := by
  cases P with
  | none => simp [deleteMin]
  | some t =>
    obtain ⟨ht, -⟩ := List.nodup_cons.1 hP
    rw [deleteMin, (values_ofForest less t.children).mem_iff, values_some, Forest.Tree.mem_nodes]
    have hne : some u ≠ min? (some t) ↔ u ≠ t.value := by simp [min?]
    rw [hne]
    constructor
    · exact fun hu => ⟨.inr hu, ne_of_mem_of_not_mem hu ht⟩
    · exact fun hu => hu.1.resolve_left hu.2

theorem length_values_deleteMin_le (P : PairingHeap α) :
    (P.deleteMin less).values.length ≤ P.values.length := by
  cases P with
  | none => exact Nat.le_refl _
  | some t =>
    rw [deleteMin, (values_ofForest less t.children).length_eq]
    exact Nat.le_succ _

theorem values_remove [DecidableEq α] {v : α} (hv : v ∈ P.values) (hP : P.values.Nodup) :
    (v :: (P.remove less v).values).Perm P.values := by
  cases P with
  | none => simp at hv
  | some t =>
    rw [remove]
    split
    next htv =>
      subst htv
      exact (values_ofForest less _).cons _
    next htv =>
      obtain ⟨-, hc⟩ := List.nodup_cons.1 hP
      have hvc : v ∈ t.children.nodes :=
        (Forest.Tree.mem_nodes.1 hv).resolve_left (Ne.symm htv)
      have hmeld := nodes_meld less (ofForest less (t.children.childrenOf v))
        ⟨t.value, t.children.erase v⟩
      refine ((hmeld.trans ((values_ofForest less _).append_right _)).cons v).trans ?_
      refine List.Perm.trans ?_ ((nodes_erase hvc hc).cons t.value)
      exact (List.perm_middle.cons v).trans (.swap _ _ _)

variable {less} [IsStrictWeakOrder α fun a b => less a b]

/-- The root of an ordered heap is a minimum of it. -/
theorem Ordered.isMin (h : P.Ordered less) {m : α} (hm : P.min? = some m) :
    m ∈ P.values ∧ ∀ u ∈ P.values, ¬ less u m := by
  cases P with
  | none => simp [min?] at hm
  | some t =>
    obtain rfl : t.value = m := by simpa [min?] using hm
    exact ⟨Forest.Tree.mem_nodes.2 (.inl rfl), (h t rfl).isMin⟩

theorem ordered_ofForest {F : Forest α} (h : F.Ordered less) :
    (ofForest less F).Ordered less := by
  cases F with
  | nil => exact fun t ht => by simp [ofForest] at ht
  | cons v c s =>
    obtain ⟨hv, hs⟩ := ordered_cons.1 h
    rintro t ⟨⟩
    exact hv.combine hs

theorem Ordered.insert (h : P.Ordered less) (v : α) :
    (P.insert less v).Ordered less := by
  have hv : Forest.Tree.Ordered less ⟨v, .nil⟩ := ⟨fun u hu => by simp at hu, ordered_nil⟩
  cases P with
  | none => rintro t ⟨⟩; exact hv
  | some s => rintro t ⟨⟩; exact hv.link (h s rfl)

theorem Ordered.deleteMin (h : P.Ordered less) :
    (P.deleteMin less).Ordered less := by
  cases P with
  | none => exact h
  | some t => exact ordered_ofForest (h t rfl).2

theorem Ordered.remove [DecidableEq α] (h : P.Ordered less) (v : α) :
    (P.remove less v).Ordered less := by
  cases P with
  | none => exact h
  | some t =>
    obtain ⟨hroot, hc⟩ := h t rfl
    rw [PairingHeap.remove]
    split
    · exact ordered_ofForest hc
    · rintro s ⟨⟩
      have hrest : Forest.Tree.Ordered less ⟨t.value, t.children.erase v⟩ :=
        ⟨fun u hu => hroot u (mem_of_mem_erase hu), hc.erase⟩
      have hunder := ordered_ofForest (F := t.children.childrenOf v) hc.childrenOf
      cases hof : ofForest less (t.children.childrenOf v) with
      | none => exact hrest
      | some w => exact (hunder w hof).link hrest

end Values

end PairingHeap

end OhosBun.Lib
