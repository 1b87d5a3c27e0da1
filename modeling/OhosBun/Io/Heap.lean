/-
# `OhosBun.Io.Heap` — the intrusive pairing heap

The nodes of the heap are pointers, and the memory gives each one the field the heap
keeps in it: a child, a previous and a next node, each of which may be null.  A failed
debug assertion, a null pointer that is followed and a loop that has not ended are `none`.

What the links hold is a forest (`Linked`, `Held`): `meld` links two trees of it,
`combineSiblings` combines a list of siblings, with `prev` as a stack of pairs and stale
`next` links in between, and `unlink` takes a node out of the siblings it is in.
-/
import Mathlib.Logic.Function.Basic
import OhosBun.Lib.Forest

namespace OhosBun.Io

open OhosBun.Lib

/-- The state a node carries for the heap. -/
structure IntrusiveField (α : Type*) where
  child : Option α := none
  prev : Option α := none
  next : Option α := none
deriving DecidableEq

/-- The fields of all nodes. -/
abbrev Links (α : Type*) := α → IntrusiveField α

/-- The heap: its root, and the memory of the nodes. -/
structure Intrusive (α : Type*) where
  root : Option α
  heap : Links α

namespace Intrusive
variable {α : Type*}

/-- The empty heap, over nodes that are in no heap. -/
def empty : Intrusive α := ⟨none, fun _ => {}⟩

section Operations
variable [DecidableEq α]

def setChild (L : Links α) (v : α) (p : Option α) : Links α :=
  Function.update L v { L v with child := p }

def setPrev (L : Links α) (v : α) (p : Option α) : Links α :=
  Function.update L v { L v with prev := p }

def setNext (L : Links α) (v : α) (p : Option α) : Links α :=
  Function.update L v { L v with next := p }

/-! ## The operations -/

variable (less : α → α → Bool)

/-- Melds two heaps together; `a` has no next node. -/
def meld (L : Links α) (a b : α) : Option (Links α × α) :=
  if (L a).next ≠ none then none
  else if less a b then
    let L := setPrev L b (some a)
    -- `a` inherits the siblings of `b`
    let L := match (L b).next with
      | some bNext => setNext (setPrev (setNext L a (some bNext)) bNext (some a)) b none
      | none => L
    let L := match (L a).child with
      | some aChild => setPrev (setNext L b (some aChild)) aChild (some b)
      | none => L
    some (setChild L a (some b), a)
  else
    let L := setPrev L b (L a).prev
    let L := setPrev L a (some b)
    -- the children of `b` become siblings of `a`
    let L := match (L b).child with
      | some bChild => setPrev (setNext L a (some bChild)) bChild (some a)
      | none => L
    some (setChild L b (some a), b)

/-- The first pass of `combineSiblings`: melds pairs to the right.  The pairs stay reachable
through `prev`, and keep their `next`. -/
def mergePairsRight : Nat → Links α → α → Option (Links α × α)
  | 0, _, _ => none
  | fuel + 1, L, a =>
    match (L a).next with
    | none => some (L, a)
    | some b => do
      let (L, b) ← meld less (setNext L a none) a b
      match (L b).next with
      | none => some (L, b)
      | some nextA => mergePairsRight fuel L nextA

/-- The second pass: melds the pairs to the left. -/
def mergePairsLeft : Nat → Links α → α → Option (Links α × α)
  | 0, _, _ => none
  | fuel + 1, L, root =>
    match (L root).prev with
    | none => some (L, root)
    | some b => do
      let (L, root) ← meld less (setNext L b none) b root
      mergePairsLeft fuel L root

/-- Combines the siblings of the leftmost value into one. -/
def combineSiblings (fuel : Nat) (L : Links α) (left : α) : Option (Links α × α) := do
  let (L, root) ← mergePairsRight less fuel (setPrev L left none) left
  mergePairsLeft less fuel L root

def insert (h : Intrusive α) (v : α) : Option (Intrusive α) :=
  match h.root with
  | some root => do
    let (L, root) ← meld less h.heap v root
    some ⟨some root, L⟩
  | none => some ⟨some v, h.heap⟩

def peek (h : Intrusive α) : Option α := h.root

/-- Deletes the minimum and returns it, with its links cleared. -/
def deleteMin (fuel : Nat) (h : Intrusive α) : Option (Intrusive α × Option α) :=
  match h.root with
  | none => some (h, none)
  | some root =>
    match (h.heap root).child with
    | some child => do
      let (L, newRoot) ← combineSiblings less fuel h.heap child
      some (⟨some newRoot, Function.update L root {}⟩, some root)
    | none => some (⟨none, Function.update h.heap root {}⟩, some root)

/-- Detaches a node from its parent or left sibling, and from its right sibling. -/
def unlink (L : Links α) (v prev : α) : Links α :=
  let vNext := (L v).next
  let L := match vNext with
    | some vNext => setPrev L vNext (some prev)
    | none => L
  let L := if (L prev).child = some v then setChild L prev vNext else setNext L prev vNext
  setNext (setPrev L v none) v none

/-- Removes a node that is in the heap. -/
def remove (fuel : Nat) (h : Intrusive α) (v : α) : Option (Intrusive α) :=
  match (h.heap v).prev with
  | none =>
    if h.root = some v then (deleteMin less fuel h).map Prod.fst else none
  | some prev =>
    let L := unlink h.heap v prev
    match (L v).child with
    | none => some ⟨h.root, L⟩
    | some child => do
      let (L, x) ← combineSiblings less fuel (setChild L v none) child
      let root ← h.root
      let (L, root) ← meld less L x root
      some ⟨some root, L⟩

end Operations

/-! ## What the links hold -/

/-- The links hold a forest under, or after, a node. -/
def Linked (L : Links α) : Forest α → Option α → Prop
  | .nil, _ => True
  | .cons v c s, p => L v = ⟨c.first, p, s.first⟩ ∧ Linked L c (some v) ∧ Linked L s (some v)

/-- The links hold a tree between two nodes. -/
structure Held (L : Links α) (t : Forest.Tree α) (p n : Option α) : Prop where
  field : L t.value = ⟨t.children.first, p, n⟩
  children : Linked L t.children (some t.value)

/-- The value of the first tree. -/
def top (K : List (Forest.Tree α)) : Option α := K.head?.map Forest.Tree.value

/-- The trees are stacked through `prev`; their `next` is stale. -/
def Stacked (L : Links α) : List (Forest.Tree α) → Prop
  | [] => True
  | k :: K => (∃ n, Held L k (top K) n) ∧ Stacked L K

section Frame
variable {L L' : Links α}

theorem Linked.congr {F : Forest α} {p : Option α} (h : Linked L F p)
    (hL : ∀ x ∈ F.nodes, L' x = L x) : Linked L' F p := by
  induction F generalizing p with
  | nil => trivial
  | cons v c s ihc ihs =>
    obtain ⟨hv, hc, hs⟩ := h
    refine ⟨(hL v (by simp)).trans hv, ihc hc fun x hx => hL x ?_, ihs hs fun x hx => hL x ?_⟩
    · simp [hx]
    · simp [hx]

/-- Another node in front of the first one. -/
theorem Linked.reprev [DecidableEq α] {F : Forest α} {p p' : Option α} (h : Linked L F p) (hF : F.nodes.Nodup)
    (hL : ∀ x ∈ F.nodes, L' x = if F.first = some x then { L x with prev := p' } else L x) :
    Linked L' F p' := by
  cases F with
  | nil => trivial
  | cons v c s =>
    obtain ⟨hv, hc, hs⟩ := h
    obtain ⟨hvcs, -⟩ := List.nodup_cons.1 hF
    have hrest : ∀ x ∈ c.nodes ++ s.nodes, L' x = L x := by
      intro x hx
      have hne : v ≠ x := fun h => hvcs (h ▸ hx)
      rw [hL x (List.mem_cons_of_mem _ hx), Forest.first_cons, if_neg (by simpa using hne)]
    refine ⟨?_, hc.congr fun x hx => hrest x ?_, hs.congr fun x hx => hrest x ?_⟩
    · rw [hL v (by simp), Forest.first_cons, if_pos rfl, hv]
    · simp [hx]
    · simp [hx]

theorem Held.congr {t : Forest.Tree α} {p n : Option α} (h : Held L t p n)
    (hL : ∀ x ∈ t.nodes, L' x = L x) : Held L' t p n :=
  ⟨(hL _ (by simp [Forest.Tree.nodes])).trans h.field,
    h.children.congr fun x hx => hL x (by simp [Forest.Tree.nodes, hx])⟩

theorem Stacked.congr {K : List (Forest.Tree α)} (h : Stacked L K)
    (hL : ∀ x ∈ Forest.treesNodes K, L' x = L x) : Stacked L' K := by
  induction K with
  | nil => trivial
  | cons k K ih =>
    obtain ⟨⟨n, hk⟩, hK⟩ := h
    refine ⟨⟨n, hk.congr fun x hx => hL x ?_⟩, ih hK fun x hx => hL x ?_⟩
    · simp [hx]
    · simp [hx]

end Frame

/-! ## Melding -/

section Meld
variable [DecidableEq α] {less : α → α → Bool} {L : Links α}

theorem setChild_apply (v x : α) (p : Option α) :
    setChild L v p x = if x = v then { L x with child := p } else L x := by
  rw [setChild, Function.update_apply]
  split <;> simp_all

theorem setPrev_apply (v x : α) (p : Option α) :
    setPrev L v p x = if x = v then { L x with prev := p } else L x := by
  rw [setPrev, Function.update_apply]
  split <;> simp_all

theorem setNext_apply (v x : α) (p : Option α) :
    setNext L v p x = if x = v then { L x with next := p } else L x := by
  rw [setNext, Function.update_apply]
  split <;> simp_all

/-- What `meld` does to the fields when `a` becomes the parent. -/
theorem meld_wins {a b : α} {ac ap bc bp bn : Option α} (ha : L a = ⟨ac, ap, none⟩)
    (hb : L b = ⟨bc, bp, bn⟩) (hab : a ≠ b) (hac : ∀ x, ac = some x → x ≠ a ∧ x ≠ b)
    (hbn : ∀ x, bn = some x → x ≠ a ∧ x ≠ b ∧ ac ≠ some x) (hless : less a b) :
    ∃ L', meld less L a b = some (L', a) ∧ L' a = ⟨some b, ap, bn⟩ ∧ L' b = ⟨bc, some a, ac⟩ ∧
      ∀ x, x ≠ a → x ≠ b → L' x = if ac = some x then { L x with prev := some b }
        else if bn = some x then { L x with prev := some a } else L x := by
  rw [meld, if_neg (by simp [ha]), if_pos hless]
  have hnext : (setPrev L b (some a) b).next = bn := by simp [setPrev_apply, hb]
  simp only [hnext]
  cases bn with
  | none =>
    have hchild : (setPrev L b (some a) a).child = ac := by simp [setPrev_apply, ha, hab]
    simp only [hchild]
    refine ⟨_, rfl, ?_⟩
    cases ac with
    | none => grind [setChild_apply, setPrev_apply, setNext_apply]
    | some c => grind [setChild_apply, setPrev_apply, setNext_apply]
  | some n =>
    obtain ⟨hna, hnb, hnc⟩ := hbn n rfl
    have hchild : (setNext (setPrev (setNext (setPrev L b (some a)) a (some n)) n (some a)) b
        none a).child = ac := by
      simp [setPrev_apply, setNext_apply, ha, hab, hna.symm]
    simp only [hchild]
    refine ⟨_, rfl, ?_⟩
    cases ac with
    | none => grind [setChild_apply, setPrev_apply, setNext_apply]
    | some c => grind [setChild_apply, setPrev_apply, setNext_apply]

/-- What `meld` does to the fields when `b` stays in its place. -/
theorem meld_loses {a b : α} {ac ap bc bp bn : Option α} (ha : L a = ⟨ac, ap, none⟩)
    (hb : L b = ⟨bc, bp, bn⟩) (hab : a ≠ b) (hbc : ∀ x, bc = some x → x ≠ a ∧ x ≠ b)
    (hless : ¬ less a b) :
    ∃ L', meld less L a b = some (L', b) ∧ L' b = ⟨some a, ap, bn⟩ ∧ L' a = ⟨ac, some b, bc⟩ ∧
      ∀ x, x ≠ a → x ≠ b → L' x = if bc = some x then { L x with prev := some a } else L x := by
  rw [meld, if_neg (by simp [ha]), if_neg hless]
  have hchild : (setPrev (setPrev L b (L a).prev) a (some b) b).child = bc := by
    simp [setPrev_apply, hb, hab.symm]
  simp only [hchild]
  cases bc with
  | none =>
    refine ⟨_, rfl, ?_, ?_, fun x hxa hxb => ?_⟩
    · simp [setChild_apply, setPrev_apply, hb, ha, hab.symm]
    · simp [setChild_apply, setPrev_apply, ha, hab]
    · simp [setChild_apply, setPrev_apply, hxa, hxb]
  | some c =>
    obtain ⟨hca, hcb⟩ := hbc c rfl
    refine ⟨_, rfl, ?_, ?_, fun x hxa hxb => ?_⟩
    · simp [setChild_apply, setPrev_apply, setNext_apply, hb, ha, hab.symm, hcb.symm]
    · simp [setChild_apply, setPrev_apply, setNext_apply, ha, hab, hca.symm]
    · simp [setChild_apply, setPrev_apply, setNext_apply, hxa, hxb, eq_comm]
variable (less)

/-- Two trees are linked in the place between `a`'s left and `b`'s right sibling. -/
theorem meld_held {s t : Forest.Tree α} {p q n : Option α} (hs : Held L s p none)
    (ht : Held L t q n) (hnodup : (s.nodes ++ t.nodes).Nodup)
    (hn : ∀ x, n = some x → x ∉ s.nodes ++ t.nodes ∧ (L x).prev = some t.value) :
    ∃ L', meld less L s.value t.value = some (L', (Forest.link less s t).value) ∧
      Held L' (Forest.link less s t) p n ∧
      ∀ x, x ∉ s.nodes ++ t.nodes → L' x = if n = some x then
        { L x with prev := some (Forest.link less s t).value } else L x := by
  obtain ⟨a, ca⟩ := s
  obtain ⟨b, cb⟩ := t
  obtain ⟨hsn, htn, hdisj⟩ := List.nodup_append'.1 hnodup
  obtain ⟨haca, hca⟩ := List.nodup_cons.1 hsn
  obtain ⟨hbcb, hcb⟩ := List.nodup_cons.1 htn
  simp only [Forest.Tree.nodes, List.disjoint_cons_left, List.disjoint_cons_right,
    List.mem_cons, not_or] at hdisj haca hbcb
  obtain ⟨⟨hba, hbca⟩, hacb, hcacb⟩ := hdisj
  have hab : a ≠ b := Ne.symm hba
  simp only [Forest.Tree.nodes, List.mem_append, List.mem_cons, not_or] at hn
  have hac : ∀ x, ca.first = some x → x ≠ a ∧ x ≠ b := fun x hx =>
    have hmem := Forest.mem_nodes_of_first hx
    ⟨ne_of_mem_of_not_mem hmem haca, ne_of_mem_of_not_mem hmem hbca⟩
  have hbc : ∀ x, cb.first = some x → x ≠ a ∧ x ≠ b := fun x hx =>
    have hmem := Forest.mem_nodes_of_first hx
    ⟨ne_of_mem_of_not_mem hmem hacb, ne_of_mem_of_not_mem hmem hbcb⟩
  unfold Forest.link
  split
  next hless =>
    obtain ⟨L', hmeld, ha', hb', hrest⟩ := meld_wins hs.field ht.field hab hac
      (fun x hx => ⟨(hn x hx).1.1.1, (hn x hx).1.2.1, Forest.first_ne (hn x hx).1.1.2⟩) hless
    refine ⟨L', hmeld, ⟨ha', hb', ht.children.congr fun x hx => ?_,
      hs.children.reprev hca fun x hx => ?_⟩, fun x hx => ?_⟩
    · have hxn : n ≠ some x := fun h => (hn x h).1.2.2 hx
      rw [hrest x (ne_of_mem_of_not_mem hx hacb) (ne_of_mem_of_not_mem hx hbcb),
        if_neg (Forest.first_ne fun h => hcacb h hx), if_neg hxn]
    · have hxn : n ≠ some x := fun h => (hn x h).1.1.2 hx
      rw [hrest x (ne_of_mem_of_not_mem hx haca) (ne_of_mem_of_not_mem hx hbca), if_neg hxn]
    · simp only [Forest.Tree.nodes, List.mem_append, List.mem_cons, not_or] at hx
      rw [hrest x hx.1.1 hx.2.1, if_neg (Forest.first_ne hx.1.2)]
  next hless =>
    obtain ⟨L', hmeld, hb', ha', hrest⟩ := meld_loses hs.field ht.field hab hbc hless
    refine ⟨L', hmeld, ⟨hb', ha', hs.children.congr fun x hx => ?_,
      ht.children.reprev hcb fun x hx => ?_⟩, fun x hx => ?_⟩
    · rw [hrest x (ne_of_mem_of_not_mem hx haca) (ne_of_mem_of_not_mem hx hbca),
        if_neg (Forest.first_ne fun h => hcacb hx h)]
    · exact hrest x (ne_of_mem_of_not_mem hx hacb) (ne_of_mem_of_not_mem hx hbcb)
    · simp only [Forest.Tree.nodes, List.mem_append, List.mem_cons, not_or] at hx
      rw [hrest x hx.1.1 hx.2.1, if_neg (Forest.first_ne hx.2.2)]
      split
      next hnx =>
        -- the right sibling of `b` already points to it
        rw [← (hn x hnx).2]
      next => rfl

end Meld

/-! ## Combining siblings -/

section Combine
variable [DecidableEq α] (less : α → α → Bool) {L : Links α}

variable {t a : Forest.Tree α} {p : Option α} {K : List (Forest.Tree α)} {fuel : Nat} {c s : Forest α}

theorem Held.setNext {n : Option α} (h : Held L t p n) (ht : t.nodes.Nodup) (n' : Option α) :
    Held (setNext L t.value n') t p n' := by
  obtain ⟨hv, -⟩ := List.nodup_cons.1 ht
  refine ⟨by simp [setNext_apply, h.field], h.children.congr fun x hx => ?_⟩
  rw [setNext_apply, if_neg (ne_of_mem_of_not_mem hx hv)]

/-- The second pass links the stacked trees into one. -/
theorem mergePairsLeft_held (ht : Held L t (top K) none) (hK : Stacked L K)
    (hnodup : (t.nodes ++ Forest.treesNodes K).Nodup) (hfuel : K.length < fuel) :
    ∃ L', mergePairsLeft less fuel L t.value = some (L', (Forest.mergeLeft less t K).value) ∧
      Held L' (Forest.mergeLeft less t K) none none ∧
      ∀ x, x ∉ t.nodes ++ Forest.treesNodes K → L' x = L x := by
  induction K generalizing t fuel L with
  | nil =>
    obtain ⟨fuel, rfl⟩ := Nat.exists_eq_add_of_lt hfuel
    refine ⟨L, ?_, ht, fun x _ => rfl⟩
    simp [mergePairsLeft, ht.field, top, Forest.mergeLeft]
  | cons k K ih =>
    obtain ⟨fuel, rfl⟩ : ∃ n, fuel = n + 1 := ⟨fuel - 1, by omega⟩
    obtain ⟨⟨n, hk⟩, hK⟩ := hK
    obtain ⟨htn, hkK, hdisj⟩ := List.nodup_append'.1 hnodup
    obtain ⟨hkn, -, hkKdisj⟩ := List.nodup_append'.1 hkK
    rw [Forest.treesNodes_cons, List.disjoint_append_right] at hdisj
    have hkmem : k.value ∈ k.nodes := Forest.Tree.mem_nodes.2 (.inl rfl)
    -- clearing the stale link of `k` leaves the other trees alone
    have hframe : ∀ x, x ∉ k.nodes → setNext L k.value none x = L x := fun x hx => by
      rw [setNext_apply, if_neg (ne_of_mem_of_not_mem hkmem hx).symm]
    have ht₁ := ht.congr fun x hx => hframe x (hdisj.1 hx)
    have hK₁ := hK.congr fun x hx => hframe x fun h => hkKdisj h hx
    have hkt : (k.nodes ++ t.nodes).Nodup := List.nodup_append'.2 ⟨hkn, htn, fun x hk ht => hdisj.1 ht hk⟩
    obtain ⟨L₂, hmeld, hlink, hrest⟩ := meld_held less (hk.setNext hkn none) ht₁ hkt
      (fun x h => by simp at h)
    have hperm := (Forest.nodes_link less k t).append_right (Forest.treesNodes K)
    have hall : (k.nodes ++ t.nodes ++ Forest.treesNodes K).Perm
        (t.nodes ++ Forest.treesNodes (k :: K)) := by
      rw [Forest.treesNodes_cons, ← List.append_assoc]
      exact List.perm_append_comm.append_right _
    have hrest' : ∀ x, x ∉ k.nodes → x ∉ t.nodes → L₂ x = setNext L k.value none x :=
      fun x hxk hxt => (hrest x (by simp [hxk, hxt])).trans (by simp)
    have hK₂ : Stacked L₂ K :=
      hK₁.congr fun x hx => hrest' x (fun h => hkKdisj h hx) fun h => hdisj.2 h hx
    obtain ⟨L₃, hleft, hheld, hlast⟩ := ih hlink hK₂
      ((hperm.trans hall).nodup_iff.2 hnodup) (Nat.lt_of_succ_lt_succ hfuel)
    refine ⟨L₃, ?_, hheld, fun x hx => ?_⟩
    · rw [mergePairsLeft, ht.field]
      simp only [top, List.head?_cons, Option.map_some, hmeld, Option.bind_eq_bind,
        Option.bind_some]
      exact hleft
    · have hx' := mt (hperm.trans hall).mem_iff.1 hx
      rw [Forest.treesNodes_cons] at hx
      simp only [List.mem_append, not_or] at hx
      rw [hlast x hx', hrest' x hx.2.1 hx.1, hframe x hx.2.1]

/-- One pair of the first pass: the siblings after it follow the winner. -/
theorem meld_pair {b : α} (ha : Held L a p (some b)) (hs : Linked L (.cons b c s) (some a.value))
    (hnodup : (a.nodes ++ (Forest.cons b c s).nodes).Nodup) :
    ∃ L', meld less (setNext L a.value none) a.value b =
        some (L', (Forest.link less a ⟨b, c⟩).value) ∧
      Held L' (Forest.link less a ⟨b, c⟩) p s.first ∧
      Linked L' s (some (Forest.link less a ⟨b, c⟩).value) ∧
      ∀ x, x ∉ a.nodes ++ (Forest.cons b c s).nodes → L' x = L x := by
  obtain ⟨hb, hc, hs⟩ := hs
  have hsplit : (a.nodes ++ (Forest.cons b c s).nodes) =
      (a.nodes ++ (⟨b, c⟩ : Forest.Tree α).nodes) ++ s.nodes := by simp [Forest.Tree.nodes]
  rw [hsplit] at hnodup ⊢
  obtain ⟨hab, hsn, hdisj⟩ := List.nodup_append'.1 hnodup
  obtain ⟨han, -, habdisj⟩ := List.nodup_append'.1 hab
  have hamem : a.value ∈ a.nodes := Forest.Tree.mem_nodes.2 (.inl rfl)
  have hframe : ∀ x, x ∉ a.nodes → setNext L a.value none x = L x := fun x hx => by
    rw [setNext_apply, if_neg (ne_of_mem_of_not_mem hamem hx).symm]
  have hout : ∀ x, x ∈ s.nodes → x ∉ a.nodes ++ (⟨b, c⟩ : Forest.Tree α).nodes :=
    fun x hx h => hdisj h hx
  have hb₁ : Held (setNext L a.value none) ⟨b, c⟩ (some a.value) s.first :=
    Held.congr ⟨hb, hc⟩ fun x hx => hframe x fun h => habdisj h hx
  have hs₁ : Linked (setNext L a.value none) s (some b) :=
    hs.congr fun x hx => hframe x fun h => hout x hx (List.mem_append_left _ h)
  have hnext : ∀ x, s.first = some x → (setNext L a.value none x).prev = some b := by
    intro x hx
    cases s with
    | nil => simp at hx
    | cons d e s =>
      obtain rfl : d = x := by simpa using hx
      rw [hs₁.1]
  obtain ⟨L', hmeld, hlink, hrest⟩ := meld_held less (ha.setNext han none) hb₁ hab
    fun x hx => ⟨hout x (Forest.mem_nodes_of_first hx), hnext x hx⟩
  refine ⟨L', hmeld, hlink, hs₁.reprev hsn fun x hx => hrest x (hout x hx), fun x hx => ?_⟩
  rw [List.mem_append, not_or] at hx
  rw [hrest x hx.1, if_neg (Forest.first_ne hx.2),
    hframe x fun h => hx.1 (List.mem_append_left _ h)]

/-- The first pass leaves the last pair over the stack of the others. -/
theorem mergePairsRight_held (ha : Held L a (top K) s.first) (hs : Linked L s (some a.value))
    (hK : Stacked L K) (hnodup : (a.nodes ++ s.nodes ++ Forest.treesNodes K).Nodup)
    (hfuel : s.nodes.length < fuel) :
    ∃ L', mergePairsRight less fuel L a.value =
        some (L', (Forest.mergeRight less K a s).1.value) ∧
      Held L' (Forest.mergeRight less K a s).1 (top (Forest.mergeRight less K a s).2) none ∧
      Stacked L' (Forest.mergeRight less K a s).2 ∧
      ∀ x, x ∉ a.nodes ++ s.nodes ++ Forest.treesNodes K → L' x = L x := by
  fun_induction Forest.mergeRight less K a s generalizing L fuel with
  | case1 K a =>
    obtain ⟨fuel, rfl⟩ : ∃ n, fuel = n + 1 := ⟨fuel - 1, by omega⟩
    exact ⟨L, by simp [mergePairsRight, ha.field], ha, hK, fun x _ => rfl⟩
  | case2 K a b c =>
    obtain ⟨fuel, rfl⟩ : ∃ n, fuel = n + 1 := ⟨fuel - 1, by omega⟩
    obtain ⟨has, -, hdisj⟩ := List.nodup_append'.1 hnodup
    obtain ⟨L', hmeld, hlink, -, hrest⟩ := meld_pair less ha hs has
    refine ⟨L', ?_, hlink, hK.congr fun x hx => hrest x fun h => hdisj h hx, fun x hx => ?_⟩
    · rw [mergePairsRight, ha.field]
      simp only [Forest.first_cons, hmeld, Option.bind_eq_bind, Option.bind_some, hlink.field,
        Forest.first_nil]
    · exact hrest x fun h => hx (List.mem_append_left _ h)
  | case3 K a b c d e s ih =>
    obtain ⟨fuel, rfl⟩ : ∃ n, fuel = n + 1 := ⟨fuel - 1, by omega⟩
    obtain ⟨has, -, hdisj⟩ := List.nodup_append'.1 hnodup
    obtain ⟨L', hmeld, hlink, hs', hrest⟩ := meld_pair less ha hs has
    have hfuel' : s.nodes.length < fuel := by
      simp only [Forest.nodes_cons, List.length_cons, List.length_append] at hfuel
      omega
    have hK' : Stacked L' (Forest.link less a ⟨b, c⟩ :: K) :=
      ⟨⟨_, hlink⟩, hK.congr fun x hx => hrest x fun h => hdisj h hx⟩
    have hperm : ((⟨d, e⟩ : Forest.Tree α).nodes ++ s.nodes ++
        Forest.treesNodes (Forest.link less a ⟨b, c⟩ :: K)).Perm
        (a.nodes ++ (Forest.cons b c (.cons d e s)).nodes ++ Forest.treesNodes K) := by
      rw [Forest.treesNodes_cons, ← List.append_assoc]
      refine List.Perm.append_right _ ?_
      refine List.perm_append_comm.trans ?_
      refine ((Forest.nodes_link less a ⟨b, c⟩).append_right _).trans (.of_eq ?_)
      simp [Forest.Tree.nodes]
    obtain ⟨L₂, hright, hheld, hstack, hlast⟩ := ih ⟨hs'.1, hs'.2.1⟩ hs'.2.2 hK'
      (hperm.nodup_iff.2 hnodup) hfuel'
    refine ⟨L₂, ?_, hheld, hstack, fun x hx => ?_⟩
    · rw [mergePairsRight, ha.field]
      simp only [Forest.first_cons, hmeld, Option.bind_eq_bind, Option.bind_some, hlink.field]
      exact hright
    · exact (hlast x (mt hperm.mem_iff.1 hx)).trans
        (hrest x fun h => hx (List.mem_append_left _ h))

/-- Siblings become one tree, out of reach of any other node. -/
theorem combineSiblings_held {v : α} (h : Linked L (.cons v c s) p)
    (hnodup : (Forest.cons v c s).nodes.Nodup) (hfuel : (Forest.cons v c s).nodes.length ≤ fuel) :
    ∃ L', combineSiblings less fuel L v = some (L', (Forest.combine less ⟨v, c⟩ s).value) ∧
      Held L' (Forest.combine less ⟨v, c⟩ s) none none ∧
      ∀ x, x ∉ (Forest.cons v c s).nodes → L' x = L x := by
  have h₁ : Linked (setPrev L v none) (.cons v c s) none :=
    h.reprev hnodup fun x _ => by simp [setPrev_apply, eq_comm]
  have hfuel' : s.nodes.length < fuel := by
    simp only [Forest.nodes_cons, List.length_cons, List.length_append] at hfuel
    omega
  obtain ⟨L₁, hright, hheld, hstack, hrest⟩ := mergePairsRight_held less (K := [])
    (a := ⟨v, c⟩) ⟨h₁.1, h₁.2.1⟩ h₁.2.2 trivial
    (by simpa [Forest.Tree.nodes] using hnodup) hfuel'
  have hperm := Forest.nodes_mergeRight less [] ⟨v, c⟩ s
  have hall : (⟨v, c⟩ : Forest.Tree α).nodes ++ s.nodes ++ Forest.treesNodes [] =
      (Forest.cons v c s).nodes := by simp [Forest.Tree.nodes]
  rw [hall] at hperm
  have hstacked := Forest.length_mergeRight_lt less ⟨v, c⟩ s
  obtain ⟨L₂, hleft, hheld', hlast⟩ := mergePairsLeft_held less hheld hstack
    (hperm.nodup_iff.2 hnodup) (Nat.lt_of_lt_of_le hstacked (by simpa [Forest.Tree.nodes] using hfuel))
  refine ⟨L₂, ?_, hheld', fun x hx => ?_⟩
  · rw [combineSiblings, hright]
    exact hleft
  · rw [hlast x (mt hperm.mem_iff.1 hx), hrest x (by rwa [hall]), setPrev_apply,
      if_neg fun h => hx (by simp [h])]

end Combine

/-! ## Taking a node out -/

section Unlink
variable [DecidableEq α] {L : Links α} {v : α}

/-- What `unlink` does to the fields. -/
theorem unlink_apply {p : α} {vc vp vn : Option α} (hv : L v = ⟨vc, vp, vn⟩) (hpv : p ≠ v)
    (hvn : ∀ x, vn = some x → x ≠ v ∧ x ≠ p) (x : α) :
    unlink L v p x = if x = v then ⟨vc, none, none⟩
      else if x = p then
        (if (L p).child = some v then { L p with child := vn } else { L p with next := vn })
      else if vn = some x then { L x with prev := some p } else L x := by
  rw [unlink, hv]
  cases vn with
  | none =>
    by_cases hp : (L p).child = some v
    · simp only [hp, if_true]
      grind [setChild_apply, setPrev_apply, setNext_apply]
    · simp only [hp, if_false]
      grind [setChild_apply, setPrev_apply, setNext_apply]
  | some n =>
    obtain ⟨hnv, hnp⟩ := hvn n rfl
    have hchild : (setPrev L n (some p) p).child = (L p).child := by
      simp [setPrev_apply, hnp.symm]
    simp only [hchild]
    by_cases hp : (L p).child = some v
    · simp only [hp, if_true]
      grind [setChild_apply, setPrev_apply, setNext_apply]
    · simp only [hp, if_false]
      grind [setChild_apply, setPrev_apply, setNext_apply]

/-- What the links hold after a node was taken out of the siblings under `q`. -/
structure Unlinked (L L' : Links α) (F : Forest α) (v q : α) : Prop where
  rest : Linked L' (F.erase v) (some q)
  field : L' v = ⟨(F.childrenOf v).first, none, none⟩
  children : Linked L' (F.childrenOf v) (some v)
  left : L' q = if F.first = some v then
      (if (L q).child = some v then { L q with child := (F.erase v).first }
      else { L q with next := (F.erase v).first })
    else L q
  frame : ∀ x, x ∉ q :: F.nodes → L' x = L x

theorem Linked.unlink {F : Forest α} {q : α} (hF : Linked L F (some q)) (hv : v ∈ F.nodes)
    (hnodup : (q :: F.nodes).Nodup) :
    ∃ p, (L v).prev = some p ∧ Unlinked L (unlink L v p) F v q := by
  induction F generalizing q with
  | nil => simp at hv
  | cons u c s ihc ihs =>
    obtain ⟨hu, hc, hs⟩ := hF
    obtain ⟨hq, hucs⟩ := List.nodup_cons.1 hnodup
    obtain ⟨hucs', hcs⟩ := List.nodup_cons.1 hucs
    obtain ⟨hcn, hsn, hdisj⟩ := List.nodup_append'.1 hcs
    simp only [Forest.nodes_cons, List.mem_cons, List.mem_append, not_or] at hq hucs'
    by_cases huv : u = v
    · subst huv
      have hsfirst : ∀ x, s.first = some x → x ≠ u ∧ x ≠ q := fun x hx =>
        have hmem := Forest.mem_nodes_of_first hx
        ⟨ne_of_mem_of_not_mem hmem hucs'.2, ne_of_mem_of_not_mem hmem hq.2.2⟩
      have happly := unlink_apply hu hq.1 hsfirst
      have hout : ∀ x, x ≠ u → x ≠ q → s.first ≠ some x → Intrusive.unlink L u q x = L x :=
        fun x hxu hxq hxs => by rw [happly x, if_neg hxu, if_neg hxq, if_neg hxs]
      refine ⟨q, by rw [hu], ?_, ?_, ?_, ?_, fun x hx => ?_⟩
      · rw [Forest.erase, if_pos rfl]
        refine hs.reprev hsn fun x hx => ?_
        rw [happly x, if_neg (ne_of_mem_of_not_mem hx hucs'.2),
          if_neg (ne_of_mem_of_not_mem hx hq.2.2)]
      · rw [happly u, if_pos rfl, Forest.childrenOf, if_pos rfl]
      · rw [Forest.childrenOf, if_pos rfl]
        exact hc.congr fun x hx => hout x (ne_of_mem_of_not_mem hx hucs'.1)
          (ne_of_mem_of_not_mem hx hq.2.1) (Forest.first_ne fun h => hdisj hx h)
      · rw [happly q, if_neg hq.1, if_pos rfl, Forest.first_cons, if_pos rfl, Forest.erase,
          if_pos rfl]
      · simp only [Forest.nodes_cons, List.mem_cons, List.mem_append, not_or] at hx
        exact hout x hx.2.1 hx.1 (Forest.first_ne hx.2.2.2)
    have hfirst : (Forest.cons u c s).first ≠ some v := by simpa using huv
    rw [Forest.nodes_cons, List.mem_cons, List.mem_append] at hv
    by_cases hvc : v ∈ c.nodes
    · have hvs : v ∉ s.nodes := fun h => hdisj hvc h
      obtain ⟨p, hp, hr⟩ := ihc hc hvc (List.nodup_cons.2 ⟨hucs'.1, hcn⟩)
      refine ⟨p, hp, ?_, ?_, ?_, ?_, fun x hx => ?_⟩
      · rw [Forest.erase, if_neg huv, Forest.erase_of_notMem hvs]
        refine ⟨?_, hr.rest, hs.congr fun x hx => hr.frame x ?_⟩
        · rw [hr.left, hu]
          split
          next => rfl
          next hcv => rw [Forest.first_erase hcv]
        · rw [List.mem_cons, not_or]
          exact ⟨ne_of_mem_of_not_mem hx hucs'.2, fun h => hdisj h hx⟩
      · rw [hr.field, Forest.childrenOf, if_neg huv, if_pos hvc]
      · rw [Forest.childrenOf, if_neg huv, if_pos hvc]
        exact hr.children
      · rw [if_neg hfirst]
        exact hr.frame q (by simp [hq])
      · simp only [Forest.nodes_cons, List.mem_cons, List.mem_append, not_or] at hx
        exact hr.frame x (by simp [hx])
    · have hvs : v ∈ s.nodes := by simpa [Ne.symm huv, hvc] using hv
      obtain ⟨p, hp, hr⟩ := ihs hs hvs (List.nodup_cons.2 ⟨hucs'.2, hsn⟩)
      refine ⟨p, hp, ?_, ?_, ?_, ?_, fun x hx => ?_⟩
      · rw [Forest.erase, if_neg huv, Forest.erase_of_notMem hvc]
        refine ⟨?_, hc.congr fun x hx => hr.frame x ?_, hr.rest⟩
        · rw [hr.left, hu, if_neg (Forest.first_ne hvc)]
          split
          next => rfl
          next hsv => rw [Forest.first_erase hsv]
        · rw [List.mem_cons, not_or]
          exact ⟨ne_of_mem_of_not_mem hx hucs'.1, fun h => hdisj hx h⟩
      · rw [hr.field, Forest.childrenOf, if_neg huv, if_neg hvc]
      · rw [Forest.childrenOf, if_neg huv, if_neg hvc]
        exact hr.children
      · rw [if_neg hfirst]
        exact hr.frame q (by simp [hq])
      · simp only [Forest.nodes_cons, List.mem_cons, List.mem_append, not_or] at hx
        exact hr.frame x (by simp [hx])
end Unlink

/-! ## The operations on trees -/

/-- A heap of links holds a pairing heap; the nodes outside of it are in no heap. -/
structure Holds (h : Intrusive α) (P : PairingHeap α) : Prop where
  root : h.root = P.min?
  held : ∀ t ∈ P, Held h.heap t none none
  nodup : P.values.Nodup
  cleared : ∀ x, x ∉ P.values → h.heap x = {}

theorem holds_none {L : Links α} (hL : ∀ x, L x = {}) : Holds ⟨none, L⟩ none :=
  ⟨rfl, fun t ht => by simp at ht, List.nodup_nil, fun x _ => hL x⟩

theorem holds_some {L : Links α} {t : Forest.Tree α} (ht : Held L t none none)
    (hnodup : t.nodes.Nodup) (hL : ∀ x, x ∉ t.nodes → L x = {}) :
    Holds ⟨some t.value, L⟩ (some t) :=
  ⟨rfl, fun s hs => by obtain rfl : t = s := by simpa using hs
                       exact ht, hnodup, hL⟩

theorem holds_empty : Holds (empty : Intrusive α) none := holds_none fun _ => rfl

section Operations
variable [DecidableEq α] (less : α → α → Bool) {h : Intrusive α} {P : PairingHeap α} {v : α}

theorem insert_holds (hh : Holds h P) (hv : v ∉ P.values) :
    ∃ h', insert less h v = some h' ∧ Holds h' (P.insert less v) := by
  have hfield : h.heap v = {} := hh.cleared v hv
  have hheld : Held h.heap ⟨v, .nil⟩ none none := ⟨hfield, trivial⟩
  cases P with
  | none =>
    have hroot : h.root = none := hh.root
    refine ⟨⟨some v, h.heap⟩, by rw [insert, hroot], ?_⟩
    exact holds_some hheld (List.nodup_singleton v) fun x _ => hh.cleared x (by simp)
  | some t =>
    have hroot : h.root = some t.value := hh.root
    have hnodup : ((⟨v, .nil⟩ : Forest.Tree α).nodes ++ t.nodes).Nodup :=
      List.nodup_cons.2 ⟨hv, hh.nodup⟩
    obtain ⟨L, hmeld, hlink, hrest⟩ := meld_held less hheld (hh.held t rfl) hnodup
      (fun x hx => by simp at hx)
    have hperm := Forest.nodes_link less ⟨v, .nil⟩ t
    refine ⟨⟨some (Forest.link less ⟨v, .nil⟩ t).value, L⟩, ?_,
      holds_some hlink (hperm.nodup_iff.2 hnodup) fun x hx => ?_⟩
    · rw [insert, hroot]
      simp only [hmeld, Option.bind_eq_bind, Option.bind_some]
    · have hx' := mt hperm.mem_iff.2 hx
      rw [hrest x hx', if_neg (by simp)]
      exact hh.cleared x fun h => hx' (List.mem_append_right _ h)

theorem deleteMin_holds {fuel : Nat} (hh : Holds h P) (hfuel : P.values.length ≤ fuel) :
    ∃ h', deleteMin less fuel h = some (h', h.peek) ∧ Holds h' (P.deleteMin less) := by
  cases P with
  | none =>
    have hroot : h.root = none := hh.root
    exact ⟨h, by rw [deleteMin, peek, hroot], hh⟩
  | some t =>
    obtain ⟨r, c⟩ := t
    have hroot : h.root = some r := hh.root
    obtain ⟨hfield, hchildren⟩ := hh.held _ rfl
    obtain ⟨hr, hc⟩ := List.nodup_cons.1 hh.nodup
    have hcleared : ∀ x, x ≠ r → x ∉ c.nodes → h.heap x = {} := fun x hxr hxc =>
      hh.cleared x (mt List.mem_cons.1 (not_or.2 ⟨hxr, hxc⟩))
    simp only at hfield hchildren hr hc
    cases c with
    | nil =>
      refine ⟨⟨none, Function.update h.heap r {}⟩, ?_, holds_none fun x => ?_⟩
      · rw [deleteMin, peek, hroot]
        simp only [hfield, Forest.first_nil]
      · rw [Function.update_apply]
        split
        next => rfl
        next hxr => exact hcleared x hxr (by simp)
    | cons v d s =>
      have hlen : (Forest.cons v d s).nodes.length ≤ fuel :=
        Nat.le_trans (Nat.le_succ _) hfuel
      obtain ⟨L, hcombine, htree, hrest⟩ := combineSiblings_held less hchildren hc hlen
      have hperm : (Forest.combine less ⟨v, d⟩ s).nodes.Perm (Forest.cons v d s).nodes :=
        Forest.nodes_combine less ⟨v, d⟩ s
      refine ⟨⟨some (Forest.combine less ⟨v, d⟩ s).value, Function.update L r {}⟩, ?_,
        holds_some (htree.congr fun x hx => ?_) (hperm.nodup_iff.2 hc) fun x hx => ?_⟩
      · rw [deleteMin, peek, hroot]
        simp only [hfield, Forest.first_cons, hcombine, Option.bind_eq_bind,
          Option.bind_some]
      · rw [Function.update_of_ne (ne_of_mem_of_not_mem (hperm.mem_iff.1 hx) hr)]
      · have hx' := mt hperm.mem_iff.2 hx
        rw [Function.update_apply]
        split
        next => rfl
        next hxr => rw [hrest x hx', hcleared x hxr hx']

/-- A node below the root is taken out with its children. -/
theorem unlink_holds {r : α} {c : Forest α} (hh : Holds h (some ⟨r, c⟩)) (hv : v ∈ c.nodes) :
    ∃ p, (h.heap v).prev = some p ∧
      unlink h.heap v p v = ⟨(c.childrenOf v).first, none, none⟩ ∧
      Linked (unlink h.heap v p) (c.childrenOf v) (some v) ∧
      Held (unlink h.heap v p) ⟨r, c.erase v⟩ none none ∧
      ∀ x, x ≠ r → x ∉ c.nodes → unlink h.heap v p x = {} := by
  obtain ⟨hfield, hchildren⟩ := hh.held _ rfl
  obtain ⟨p, hp, hun⟩ := hchildren.unlink hv hh.nodup
  refine ⟨p, hp, hun.field, hun.children, ⟨?_, hun.rest⟩, fun x hxr hxc => ?_⟩
  · simp only at hfield
    rw [hun.left, hfield]
    split
    next => rfl
    next hcv => rw [Forest.first_erase hcv]
  · have hx : x ∉ r :: c.nodes := mt List.mem_cons.1 (not_or.2 ⟨hxr, hxc⟩)
    rw [hun.frame x hx]
    exact hh.cleared x hx

theorem remove_holds {fuel : Nat} (hh : Holds h P) (hv : v ∈ P.values)
    (hfuel : P.values.length ≤ fuel) :
    ∃ h', remove less fuel h v = some h' ∧ Holds h' (P.remove less v) := by
  cases P with
  | none => simp at hv
  | some t =>
    obtain ⟨r, c⟩ := t
    have hroot : h.root = some r := hh.root
    by_cases hrv : r = v
    · subst hrv
      obtain ⟨h', hdelete, hh'⟩ := deleteMin_holds less hh hfuel
      have hfield : h.heap r = ⟨c.first, none, none⟩ := (hh.held _ rfl).field
      refine ⟨h', ?_, by rwa [PairingHeap.remove, if_pos rfl]⟩
      rw [remove, hfield]
      simp only [hroot, if_true, hdelete, Option.map_some]
    rw [PairingHeap.remove, if_neg hrv]
    have hvc : v ∈ c.nodes := (Forest.Tree.mem_nodes.1 hv).resolve_left (Ne.symm hrv)
    obtain ⟨hr, hc⟩ := List.nodup_cons.1 hh.nodup
    obtain ⟨p, hp, hfield, hunder, htree, hcleared⟩ := unlink_holds hh hvc
    have hparts := Forest.parts hvc hc
    have hrc : ¬ (r = v ∨ r ∈ (c.childrenOf v).nodes ∨ r ∈ (c.erase v).nodes) :=
      mt (hparts.mem_iff r).2 hr
    rw [not_or, not_or] at hrc
    have hrest : (⟨r, c.erase v⟩ : Forest.Tree α).nodes.Nodup :=
      List.nodup_cons.2 ⟨hrc.2.2, hparts.rest⟩
    have hlen := (Forest.nodes_erase hvc hc).length_eq
    cases hof : c.childrenOf v with
    | nil =>
      refine ⟨⟨some r, unlink h.heap v p⟩, ?_, holds_some htree hrest fun x hx => ?_⟩
      · rw [remove, hp]
        simp only [hfield, hof, Forest.first_nil, hroot]
      · obtain ⟨hxr, hxc⟩ := not_or.1 (mt List.mem_cons.2 hx)
        by_cases hxv : x = v
        · rw [hxv, hfield, hof]
          rfl
        · exact hcleared x hxr fun h => by simpa [hof, hxv, hxc] using (hparts.mem_iff x).1 h
    | cons w d e =>
      have hmem := hparts.mem_iff
      have hdisj := hparts.disjoint
      have hnotMem := hparts.notMem_under
      have hnodup := hparts.under
      rw [hof] at hfield hunder hrc hlen hdisj hnotMem hnodup
      simp only [hof] at hmem
      -- the children of `v` become one tree, which is melded with the rest
      have hchildren : Linked (setChild (unlink h.heap v p) v none) (.cons w d e) (some v) :=
        hunder.congr fun x hx => by
          rw [setChild_apply, if_neg (ne_of_mem_of_not_mem hx hnotMem)]
      have hfuel' : (Forest.cons w d e).nodes.length ≤ fuel := by
        simp only [PairingHeap.values_some, Forest.Tree.nodes, List.length_cons,
          List.length_append] at hlen hfuel
        omega
      obtain ⟨L₁, hcombine, hx, hframe₁⟩ := combineSiblings_held less hchildren hnodup hfuel'
      have hnodes : (Forest.combine less ⟨w, d⟩ e).nodes.Perm (Forest.cons w d e).nodes :=
        Forest.nodes_combine less ⟨w, d⟩ e
      have hkeep : ∀ x, x ≠ v → x ∉ (Forest.cons w d e).nodes →
          L₁ x = unlink h.heap v p x := fun x hxv hx => by
        rw [hframe₁ x hx, setChild_apply, if_neg hxv]
      have htree₁ : Held L₁ ⟨r, c.erase v⟩ none none := htree.congr fun x hx => by
        obtain rfl | hx := Forest.Tree.mem_nodes.1 hx
        · exact hkeep _ hrv hrc.2.1
        · exact hkeep x (ne_of_mem_of_not_mem hx hparts.notMem_rest) fun h => hdisj h hx
      have htwo : ((Forest.combine less ⟨w, d⟩ e).nodes ++
          (⟨r, c.erase v⟩ : Forest.Tree α).nodes).Nodup := by
        rw [List.nodup_append', hnodes.nodup_iff]
        refine ⟨hnodup, hrest, fun x hx hx' => ?_⟩
        have hx := hnodes.mem_iff.1 hx
        obtain rfl | hx' := Forest.Tree.mem_nodes.1 hx'
        · exact hrc.2.1 hx
        · exact hdisj hx hx'
      obtain ⟨L₂, hmeld, hlink, hframe₂⟩ := meld_held less hx htree₁ htwo
        (fun x hx => by simp at hx)
      have hlinked := Forest.nodes_link less (Forest.combine less ⟨w, d⟩ e) ⟨r, c.erase v⟩
      refine ⟨⟨some (Forest.link less (Forest.combine less ⟨w, d⟩ e) ⟨r, c.erase v⟩).value,
        L₂⟩, ?_, holds_some hlink (hlinked.nodup_iff.2 htwo) fun x hx => ?_⟩
      · rw [remove, hp]
        simp only [hfield, Forest.first_cons, hcombine, hroot, hmeld,
          Option.bind_eq_bind, Option.bind_some]
      · have hx₂ := mt hlinked.mem_iff.2 hx
        obtain ⟨hx₁, hxr⟩ := not_or.1 (mt List.mem_append.2 hx₂)
        obtain ⟨hxr, hxc⟩ := not_or.1 (mt List.mem_cons.2 hxr)
        rw [hnodes.mem_iff] at hx₁
        rw [hframe₂ x hx₂, if_neg (by simp)]
        by_cases hxv : x = v
        · rw [hframe₁ x hx₁, setChild_apply, if_pos hxv, hxv, hfield]
        · rw [hkeep x hxv hx₁]
          exact hcleared x hxr fun h => ((hmem x).1 h).elim hxv fun h => h.elim hx₁ hxc

end Operations

end Intrusive

end OhosBun.Io
