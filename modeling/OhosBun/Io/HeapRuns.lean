/-
# `OhosBun.Io.HeapRuns` — the pairing heap as a priority queue

A priority queue is a set of nodes with a minimum of it (`Queue`); the operations on it
are `Serves`.  The heap of links that has served some operations is `WellFormed` for the
queue that is left: what can be reached from the root are the queue's nodes, each once, in
heap order and with `prev` the way back.

`run_serves_queue`: from the empty heap, inserting only nodes that are not in the heap and
removing only nodes that are, every run returns, and answers as the queue does.
-/
import Mathlib.Data.Finset.Card
import OhosBun.Io.Heap
import OhosBun.Lib.Refinement

namespace OhosBun.Io

open OhosBun.Lib

/-- A set of nodes, and a minimum of it if it has any. -/
structure Queue {α : Type*} (less : α → α → Bool) where
  members : Finset α
  top : Option α
  top_eq_none : top = none → members = ∅
  isMin : ∀ m, top = some m → m ∈ members ∧ ∀ u ∈ members, ¬ less u m

/-- The operations of the heap. -/
inductive HeapOp (α : Type*)
  | insert (v : α)
  | deleteMin
  | remove (v : α)
  | peek

namespace Queue
variable {α : Type*} {less : α → α → Bool}

def empty : Queue less := ⟨∅, none, fun _ => rfl, fun m hm => by simp at hm⟩

/-- What an operation returns, and the queue after it. -/
def Serves [DecidableEq α] (q : Queue less) : HeapOp α → Option α → Queue less → Prop
  | .insert v, reply, q' => reply = none ∧ q'.members = insert v q.members
  | .deleteMin, reply, q' => reply = q.top ∧ q'.members = q.members.filter (some · ≠ reply)
  | .remove v, reply, q' => reply = none ∧ q'.members = q.members.erase v
  | .peek, reply, q' => reply = q.top ∧ q' = q

end Queue

namespace Intrusive
variable {α : Type*}

/-- The nodes reached from a node through its child and its next sibling; `none` when there
is no end to them. -/
def reachable : Nat → Links α → Option α → Option (List α)
  | _, _, none => some []
  | 0, _, some _ => none
  | fuel + 1, L, some v => do
    let children ← reachable fuel L (L v).child
    let siblings ← reachable fuel L (L v).next
    some (v :: (children ++ siblings))

/-- The nodes in the heap. -/
def members (fuel : Nat) (h : Intrusive α) : List α :=
  (reachable fuel h.heap h.root).getD []

section Step
variable [DecidableEq α] (less : α → α → Bool) (fuel : Nat)

/-- An operation, and the node it returns, if any. -/
def step (h : Intrusive α) : HeapOp α → Option (Intrusive α × Option α)
  | .insert v => (insert less h v).map fun h => (h, none)
  | .deleteMin => deleteMin less fuel h
  | .remove v => (remove less fuel h v).map fun h => (h, none)
  | .peek => some (h, peek h)

/-- What callers promise: only nodes outside of the heap are inserted, and only nodes in it
are removed. -/
def Admits (h : Intrusive α) : HeapOp α → Prop
  | .insert v => v ∉ members fuel h
  | .remove v => v ∈ members fuel h
  | _ => True

instance (h : Intrusive α) (op : HeapOp α) : Decidable (Admits fuel h op) :=
  match op with
  | .insert v => inferInstanceAs (Decidable (v ∉ members fuel h))
  | .remove v => inferInstanceAs (Decidable (v ∈ members fuel h))
  | .deleteMin => .isTrue trivial
  | .peek => .isTrue trivial

end Step

/-- The links form a tree of the queue's nodes, in heap order. -/
structure WellFormed {less : α → α → Bool} (fuel : Nat) (h : Intrusive α) (q : Queue less) :
    Prop where
  /-- The nodes of the queue are reached, once each. -/
  reach : ∃ vs, reachable fuel h.heap h.root = some vs ∧ vs.Nodup ∧ ∀ v, v ∈ vs ↔ v ∈ q.members
  peek : h.peek = q.top
  root : ∀ r, h.root = some r → (h.heap r).prev = none ∧ (h.heap r).next = none
  child : ∀ v ∈ q.members, ∀ c, (h.heap v).child = some c → (h.heap c).prev = some v
  next : ∀ v ∈ q.members, ∀ n, (h.heap v).next = some n → (h.heap n).prev = some v
  /-- No node below another is less than it. -/
  ordered : ∀ v ∈ q.members, ∃ under, reachable fuel h.heap (h.heap v).child = some under ∧
    ∀ u ∈ under, ¬ less u v
  /-- The nodes that are in no heap have no links. -/
  cleared : ∀ v, v ∉ q.members → h.heap v = {}

/-! ## Reading the links -/

section Reading
variable {L : Links α} {F : Forest α} {p : Option α} {v : α}

theorem Linked.reachable {fuel : Nat} (h : Linked L F p) (hfuel : F.nodes.length ≤ fuel) :
    reachable fuel L F.first = some F.nodes := by
  induction F generalizing p fuel with
  | nil => cases fuel <;> rfl
  | cons v c s ihc ihs =>
    obtain ⟨hv, hc, hs⟩ := h
    simp only [Forest.nodes_cons, List.length_cons, List.length_append] at hfuel
    obtain ⟨fuel, rfl⟩ : ∃ n, fuel = n + 1 := ⟨fuel - 1, by omega⟩
    rw [Forest.first_cons, Intrusive.reachable, hv]
    simp only [ihc hc (by omega : c.nodes.length ≤ fuel),
      ihs hs (by omega : s.nodes.length ≤ fuel), Option.bind_eq_bind, Option.bind_some,
      Forest.nodes_cons]

theorem Linked.prev_first {n : α} (h : Linked L F p) (hn : F.first = some n) :
    (L n).prev = p := by
  cases F with
  | nil => simp at hn
  | cons v c s =>
    obtain rfl : v = n := by simpa using hn
    rw [h.1]

theorem Linked.prev_next {n : α} (h : Linked L F p) (hv : v ∈ F.nodes)
    (hn : (L v).next = some n) : (L n).prev = some v := by
  induction F generalizing p with
  | nil => simp at hv
  | cons u c s ihc ihs =>
    obtain ⟨hu, hc, hs⟩ := h
    rw [Forest.nodes_cons, List.mem_cons, List.mem_append] at hv
    obtain rfl | hv | hv := hv
    · rw [hu] at hn
      exact hs.prev_first hn
    · exact ihc hc hv
    · exact ihs hs hv

theorem Linked.childrenOf [DecidableEq α] (h : Linked L F p) (hv : v ∈ F.nodes) :
    (L v).child = (F.childrenOf v).first ∧ Linked L (F.childrenOf v) (some v) := by
  induction F generalizing p with
  | nil => simp at hv
  | cons u c s ihc ihs =>
    obtain ⟨hu, hc, hs⟩ := h
    rw [Forest.childrenOf]
    by_cases huv : u = v
    · subst huv
      rw [if_pos rfl, hu]
      exact ⟨rfl, hc⟩
    rw [if_neg huv]
    by_cases hvc : v ∈ c.nodes
    · rw [if_pos hvc]
      exact ihc hc hvc
    · rw [if_neg hvc]
      exact ihs hs (by simpa [Ne.symm huv, hvc] using hv)

end Reading

/-! ## Runs -/

section Runs
variable [DecidableEq α] {less : α → α → Bool} {fuel : Nat}

/-- A heap of links that holds a pairing heap with the queue's nodes, with fuel for some
more operations. -/
structure Shows (fuel n : Nat) (h : Intrusive α) (q : Queue less) (P : PairingHeap α) :
    Prop where
  holds : Holds h P
  ordered : P.Ordered less
  members : ∀ v, v ∈ P.values ↔ v ∈ q.members
  top : P.min? = q.top
  fuel_le : P.values.length + n ≤ fuel

variable {n : Nat} {h : Intrusive α} {q : Queue less} {P : PairingHeap α}

omit [DecidableEq α] in
theorem Holds.linked {t : Forest.Tree α} (hh : Holds h (some t)) :
    Linked h.heap t.toForest none :=
  ⟨(hh.held t rfl).field, (hh.held t rfl).children, trivial⟩

omit [DecidableEq α] in
theorem Holds.reachable (hh : Holds h P) (hfuel : P.values.length ≤ fuel) :
    reachable fuel h.heap h.root = some P.values := by
  rw [hh.root]
  cases P with
  | none => cases fuel <;> rfl
  | some t =>
    rw [PairingHeap.values_some, ← Forest.Tree.nodes_toForest] at hfuel ⊢
    exact hh.linked.reachable hfuel

omit [DecidableEq α] in
theorem Shows.members_eq (hs : Shows fuel n h q P) : Intrusive.members fuel h = P.values := by
  have hlen := hs.fuel_le
  rw [Intrusive.members, hs.holds.reachable (by omega), Option.getD_some]

/-- The queue with the nodes of an ordered pairing heap. -/
def queueOf [IsStrictWeakOrder α fun a b => less a b] (P : PairingHeap α)
    (hP : P.Ordered less) : Queue less where
  members := P.values.toFinset
  top := P.min?
  top_eq_none := fun h => by
    obtain rfl := Option.map_eq_none_iff.1 h
    rfl
  isMin := fun m hm => by
    obtain ⟨hmem, hmin⟩ := hP.isMin hm
    exact ⟨List.mem_toFinset.2 hmem, fun u hu => hmin u (List.mem_toFinset.1 hu)⟩

variable [IsStrictWeakOrder α fun a b => less a b]

theorem shows_queueOf (hh : Holds h P) (hP : P.Ordered less)
    (hfuel : P.values.length + n ≤ fuel) : Shows fuel n h (queueOf P hP) P :=
  ⟨hh, hP, fun _ => List.mem_toFinset.symm, rfl, hfuel⟩

omit [IsStrictWeakOrder α fun a b => less a b] in
/-- What a pairing heap says of the links that hold it. -/
theorem Shows.wellFormed (hs : Shows fuel n h q P) : WellFormed fuel h q := by
  have hfuel : P.values.length ≤ fuel := Nat.le_trans (Nat.le_add_right _ n) hs.fuel_le
  have hpeek : h.peek = q.top := hs.holds.root.trans hs.top
  have hreach : ∃ vs, Intrusive.reachable fuel h.heap h.root = some vs ∧ vs.Nodup ∧
      ∀ v, v ∈ vs ↔ v ∈ q.members :=
    ⟨_, hs.holds.reachable hfuel, hs.holds.nodup, hs.members⟩
  have hcleared : ∀ v, v ∉ q.members → h.heap v = {} := fun v hv =>
    hs.holds.cleared v fun h => hv ((hs.members v).1 h)
  have hmem := hs.members
  cases P with
  | none =>
    have hroot : h.root = none := hs.holds.root
    have hnone : ∀ v, v ∉ q.members := fun v hv => by simpa using (hmem v).2 hv
    exact ⟨hreach, hpeek, fun r hr => by simp [hroot] at hr, fun v hv => absurd hv (hnone v),
      fun v hv => absurd hv (hnone v), fun v hv => absurd hv (hnone v), hcleared⟩
  | some t =>
    have hroot : h.root = some t.value := hs.holds.root
    have hlinked := hs.holds.linked
    have hF : ∀ v ∈ q.members, v ∈ t.toForest.nodes := fun v hv => by
      rw [Forest.Tree.nodes_toForest]
      exact (hmem v).2 hv
    have hnodup : t.toForest.nodes.Nodup := by
      rw [Forest.Tree.nodes_toForest]
      exact hs.holds.nodup
    have hordered := (hs.ordered t rfl).toForest
    refine ⟨hreach, hpeek, fun r hr => ?_, fun v hv c hc => ?_, fun v hv w hw => ?_,
      fun v hv => ?_, hcleared⟩
    · obtain rfl : t.value = r := Option.some.inj (hroot.symm.trans hr)
      rw [(hs.holds.held t rfl).field]
      exact ⟨rfl, rfl⟩
    · obtain ⟨hchild, hunder⟩ := hlinked.childrenOf (hF v hv)
      exact hunder.prev_first (hchild.symm.trans hc)
    · exact hlinked.prev_next (hF v hv) hw
    · obtain ⟨hchild, hunder⟩ := hlinked.childrenOf (hF v hv)
      have hlen := (Forest.nodes_erase (hF v hv) hnodup).length_eq
      rw [List.length_cons, List.length_append, Forest.Tree.nodes_toForest] at hlen
      rw [hchild]
      refine ⟨_, hunder.reachable ?_, hordered.under (hF v hv)⟩
      rw [PairingHeap.values_some] at hfuel
      omega

/-- One operation: the links, the trees and the queue go together. -/
theorem step_shows {op : HeapOp α} (hs : Shows fuel (n + 1) h q P)
    (hop : Admits fuel h op) :
    ∃ h' reply q' P', step less fuel h op = some (h', reply) ∧ q.Serves op reply q' ∧
      Shows fuel n h' q' P' := by
  have hlen := hs.fuel_le
  have hfuel : P.values.length ≤ fuel := by omega
  cases op with
  | insert v =>
    rw [Admits, hs.members_eq] at hop
    obtain ⟨h', hinsert, hh'⟩ := insert_holds less hs.holds hop
    have hperm := PairingHeap.values_insert less v P
    have hlen' := hperm.length_eq
    rw [List.length_cons] at hlen'
    refine ⟨h', none, queueOf _ (hs.ordered.insert v), _, ?_, ⟨rfl, ?_⟩,
      shows_queueOf hh' _ (by omega)⟩
    · rw [step, hinsert, Option.map_some]
    · ext u
      rw [queueOf, List.mem_toFinset, hperm.mem_iff, List.mem_cons, Finset.mem_insert,
        hs.members]
  | deleteMin =>
    obtain ⟨h', hdelete, hh'⟩ := deleteMin_holds less hs.holds hfuel
    have hpeek : h.peek = q.top := hs.holds.root.trans hs.top
    have hvalues : ∀ u, u ∈ (P.deleteMin less).values ↔ u ∈ P.values ∧ some u ≠ q.top := by
      rw [← hs.top]
      exact PairingHeap.mem_values_deleteMin less hs.holds.nodup
    refine ⟨h', h.peek, queueOf _ hs.ordered.deleteMin, _, hdelete, ⟨hpeek, ?_⟩,
      shows_queueOf hh' _ ?_⟩
    · ext u
      rw [queueOf, List.mem_toFinset, hvalues, Finset.mem_filter, hs.members, hpeek]
    · have hle := PairingHeap.length_values_deleteMin_le less P
      omega
  | remove v =>
    rw [Admits, hs.members_eq] at hop
    obtain ⟨h', hremove, hh'⟩ := remove_holds less hs.holds hop hfuel
    have hperm := PairingHeap.values_remove less hop hs.holds.nodup
    have hlen' := hperm.length_eq
    rw [List.length_cons] at hlen'
    obtain ⟨hv, -⟩ := List.nodup_cons.1 (hperm.nodup_iff.2 hs.holds.nodup)
    refine ⟨h', none, queueOf _ (hs.ordered.remove v), _, ?_, ⟨rfl, ?_⟩,
      shows_queueOf hh' _ (by omega)⟩
    · rw [step, hremove, Option.map_some]
    · ext u
      rw [queueOf, List.mem_toFinset, Finset.mem_erase, ← hs.members, ← hperm.mem_iff,
        List.mem_cons]
      constructor
      · exact fun hu => ⟨ne_of_mem_of_not_mem hu hv, .inr hu⟩
      · exact fun hu => hu.2.resolve_left hu.1
  | peek =>
    refine ⟨h, h.peek, q, P, rfl, ⟨hs.holds.root.trans hs.top, rfl⟩, hs.holds, hs.ordered,
      hs.members, hs.top, by omega⟩

omit [DecidableEq α] [IsStrictWeakOrder α fun a b => less a b] in
theorem shows_empty (hn : n ≤ fuel) : Shows fuel n empty (Queue.empty : Queue less) none :=
  ⟨holds_empty, fun t ht => by simp at ht, fun v => by simp [Queue.empty], rfl, by simpa using hn⟩

end Runs

/-- Every run from the empty heap that inserts only nodes that are not in the heap and removes
only nodes that are serves as the priority queue does, and leaves its links well formed. -/
theorem run_serves_queue {α : Type*} [DecidableEq α] (less : α → α → Bool)
    [IsStrictWeakOrder α fun a b => less a b] (ops : List (HeapOp α)) (fuel : Nat)
    (hfuel : ops.length ≤ fuel) (hops : Guarded (step less fuel) (Admits fuel) empty ops) :
    ∃ h replies, ∃ q : Queue less, run (step less fuel) empty ops = some (h, replies) ∧
      Follows Queue.Serves Queue.empty ops replies q ∧ WellFormed fuel h q := by
  obtain ⟨h, replies, q, hrun, hfollows, P, hP⟩ := exists_run_within
    (R := fun n h (q : Queue less) => ∃ P, Shows fuel n h q P)
    (fun n h q op ⟨P, hs⟩ hop =>
      let ⟨h', reply, q', P', hstep, hserves, hs'⟩ := step_shows hs hop
      ⟨h', reply, q', hstep, hserves, P', hs'⟩)
    ops ⟨none, shows_empty hfuel⟩ hops
  exact ⟨h, replies, q, hrun, hfollows, hP.wellFormed⟩

/-- An order with ties: numbers by their halves. -/
def halves (a b : Nat) : Bool := a / 2 < b / 2

instance : IsStrictWeakOrder Nat fun a b => halves a b where
  irrefl a := by simp [halves]
  trans a b c hab hbc := by simp only [halves, decide_eq_true_eq] at *; omega
  incomp_trans a b c hab hbc := by simp only [halves, decide_eq_true_eq] at *; omega

theorem run_serves_halves :
    ∃ h replies, ∃ q : Queue halves,
      run (step halves 9) empty [.insert 5, .insert 4, .insert 9, .insert 2, .insert 3, .peek,
        .deleteMin, .remove 9, .deleteMin] = some (h, replies) ∧
      Follows Queue.Serves Queue.empty [.insert 5, .insert 4, .insert 9, .insert 2, .insert 3,
        .peek, .deleteMin, .remove 9, .deleteMin] replies q ∧ WellFormed 9 h q :=
  run_serves_queue halves _ 9 (by decide) (by decide)

/-! ## Counting, and a maximum -/

/-- `count_internal`; `none` when there is no end to the nodes. -/
def countInternal : Nat → Links α → Option α → Option Nat
  | _, _, none => some 0
  | 0, _, some _ => none
  | fuel + 1, L, some node => do
    let children ← countInternal fuel L (L node).child
    let siblings ← countInternal fuel L (L node).next
    some (1 + children + siblings)

def count (fuel : Nat) (h : Intrusive α) : Option Nat := countInternal fuel h.heap h.root

section Maximum
variable (less : α → α → Bool)

/-- The greater of the maximum so far and a node. -/
def larger (maxSoFar node : α) : α := if less maxSoFar node then node else maxSoFar

def findMaxInternal : Nat → Links α → (node currentMax : α) → Option α
  | 0, _, _, _ => none
  | fuel + 1, L, node, currentMax => do
    let maxSoFar := larger less currentMax node
    let maxSoFar ← match (L node).child with
      | some child => findMaxInternal fuel L child maxSoFar
      | none => some maxSoFar
    match (L node).next with
    | some nextSibling => findMaxInternal fuel L nextSibling maxSoFar
    | none => some maxSoFar

def findMax (fuel : Nat) (h : Intrusive α) : Option (Option α) :=
  match h.root with
  | none => some none
  | some root => (findMaxInternal less fuel h.heap root root).map some

variable {less} {L : Links α} {F : Forest α} {p : Option α}

theorem Linked.count {fuel : Nat} (h : Linked L F p) (hfuel : F.nodes.length ≤ fuel) :
    countInternal fuel L F.first = some F.nodes.length := by
  induction F generalizing p fuel with
  | nil => cases fuel <;> rfl
  | cons v c s ihc ihs =>
    obtain ⟨hv, hc, hs⟩ := h
    rw [Forest.nodes_cons, List.length_cons, List.length_append] at hfuel ⊢
    obtain ⟨fuel, rfl⟩ := Nat.exists_eq_add_of_le' (Nat.lt_of_lt_of_le (Nat.succ_pos _) hfuel)
    rw [Forest.first_cons, countInternal, hv]
    simp only [ihc hc (by omega : c.nodes.length ≤ fuel), ihs hs (by omega : s.nodes.length ≤ fuel),
      Option.bind_eq_bind, Option.bind_some]
    rw [Nat.add_comm 1, Nat.add_right_comm]

variable (less) in
/-- The maximum is looked for in the order the nodes are reached in. -/
theorem Linked.findMax {fuel : Nat} (h : Linked L F p) (hfuel : F.nodes.length ≤ fuel) {node : α}
    (hnode : F.first = some node) (currentMax : α) :
    findMaxInternal less fuel L node currentMax = some (F.nodes.foldl (larger less) currentMax) := by
  induction F generalizing p fuel node currentMax with
  | nil => simp at hnode
  | cons v c s ihc ihs =>
    obtain ⟨hv, hc, hs⟩ := h
    obtain rfl : v = node := Option.some.inj hnode
    rw [Forest.nodes_cons, List.length_cons, List.length_append] at hfuel
    obtain ⟨fuel, rfl⟩ := Nat.exists_eq_add_of_le' (Nat.lt_of_lt_of_le (Nat.succ_pos _) hfuel)
    rw [Forest.nodes_cons, List.foldl_cons, List.foldl_append]
    rw [findMaxInternal, hv]
    cases c with
    | nil =>
      cases s with
      | nil => rfl
      | cons => exact ihs hs (by omega) rfl _
    | cons v' c' s' =>
      have hchildren (maxSoFar : α) : findMaxInternal less fuel L v' maxSoFar =
          some ((Forest.cons v' c' s').nodes.foldl (larger less) maxSoFar) :=
        ihc hc (by omega) rfl maxSoFar
      simp only [Forest.first_cons, hchildren, Option.bind_eq_bind, Option.bind_some]
      cases s with
      | nil => rfl
      | cons => exact ihs hs (by omega) rfl _

variable (less) in
/-- What is kept is one of the nodes, and less than none. -/
theorem foldl_larger [IsStrictWeakOrder α fun a b => less a b] (l : List α) (m : α) :
    l.foldl (larger less) m ∈ m :: l ∧ ∀ u ∈ m :: l, ¬ less (l.foldl (larger less) m) u := by
  induction l generalizing m with
  | nil =>
    refine ⟨List.mem_cons_self, fun u hu => ?_⟩
    obtain rfl := List.mem_singleton.1 hu
    exact Forest.not_less_self u
  | cons a l ih =>
    obtain ⟨hmem, hmax⟩ := ih (larger less m a)
    have hkept := hmax _ List.mem_cons_self
    have hrest := fun u hu => hmax u (List.mem_cons_of_mem _ hu)
    rw [List.foldl_cons]
    by_cases hless : less m a
    · rw [larger, if_pos hless] at hmem hkept hrest ⊢
      have hm := Forest.not_less_trans hkept (Forest.not_less_of_less hless)
      exact ⟨List.mem_cons_of_mem _ hmem, List.forall_mem_cons.2 ⟨hm, List.forall_mem_cons.2 ⟨hkept, hrest⟩⟩⟩
    · rw [larger, if_neg hless] at hmem hkept hrest ⊢
      have ha := Forest.not_less_trans hkept hless
      refine ⟨?_, List.forall_mem_cons.2 ⟨hkept, List.forall_mem_cons.2 ⟨ha, hrest⟩⟩⟩
      rcases List.mem_cons.1 hmem with hm | hl
      · exact List.mem_cons.2 (.inl hm)
      · exact List.mem_cons_of_mem _ (List.mem_cons_of_mem _ hl)

end Maximum

/-- The heap has as many nodes as the queue, and a maximum that is found is one of the queue's. -/
def Measures (less : α → α → Bool) (fuel : Nat) (h : Intrusive α) (members : Finset α) : Prop :=
  count fuel h = some members.card ∧
    ∃ found, findMax less fuel h = some found ∧ (found = none ↔ members = ∅) ∧
      ∀ m, found = some m → m ∈ members ∧ ∀ u ∈ members, ¬ less m u

theorem run_count_findMax {α : Type*} [DecidableEq α] (less : α → α → Bool)
    [IsStrictWeakOrder α fun a b => less a b] (ops : List (HeapOp α)) (fuel : Nat)
    (hfuel : ops.length ≤ fuel) (hops : Guarded (step less fuel) (Admits fuel) empty ops) :
    ∃ h replies, ∃ q : Queue less, run (step less fuel) empty ops = some (h, replies) ∧
      Follows Queue.Serves Queue.empty ops replies q ∧ Measures less fuel h q.members := by
  obtain ⟨h, replies, q, hrun, hfollows, P, hP⟩ := exists_run_within
    (R := fun n h (q : Queue less) => ∃ P, Shows fuel n h q P)
    (fun n h q op hs hop => by
      obtain ⟨P, hs⟩ := hs
      obtain ⟨h', reply, q', P', hstep, hserves, hs'⟩ := step_shows hs hop
      exact ⟨h', reply, q', hstep, hserves, P', hs'⟩)
    ops ⟨none, shows_empty hfuel⟩ hops
  have hmembers : q.members = P.values.toFinset := by
    ext v
    rw [List.mem_toFinset, hP.members]
  refine ⟨h, replies, q, hrun, hfollows, ?_⟩
  rw [Measures, hmembers, List.toFinset_card_of_nodup hP.holds.nodup]
  have hroot := hP.holds.root
  have hlen := hP.fuel_le
  cases P with
  | none =>
    refine ⟨?_, none, ?_, by simp, fun m hm => by simp at hm⟩
    · rw [count, hroot]
      cases fuel <;> rfl
    · rw [findMax, hroot]
      rfl
  | some t =>
    have hnodes := Forest.Tree.nodes_toForest t
    rw [PairingHeap.values_some, Nat.add_zero, ← hnodes] at hlen
    have hcount := hP.holds.linked.count hlen
    have hmax := hP.holds.linked.findMax less hlen rfl t.value
    rw [hnodes] at hcount hmax
    obtain ⟨hmem, hmost⟩ := foldl_larger less t.nodes t.value
    have hself : t.value ∈ t.nodes := List.mem_cons_self
    refine ⟨?_, some (t.nodes.foldl (larger less) t.value), ?_, ?_, fun m hm => ?_⟩
    · rw [count, hroot]
      exact hcount
    · rw [Intrusive.findMax, hroot]
      exact congrArg (Option.map some) hmax
    · refine iff_of_false (by simp) fun hempty => ?_
      exact absurd (List.mem_toFinset.2 hself) (hempty ▸ Finset.notMem_empty _)
    · obtain rfl := Option.some.inj hm
      simp only [PairingHeap.values_some, List.mem_toFinset]
      refine ⟨?_, fun u hu => hmost u (List.mem_cons_of_mem _ hu)⟩
      rcases List.mem_cons.1 hmem with hm | hm
      · rw [hm]
        exact hself
      · exact hm

theorem run_count_findMax_halves :
    ∃ h replies, ∃ q : Queue halves,
      run (step halves 4) empty [.insert 5, .insert 9, .insert 2, .deleteMin] = some (h, replies) ∧
      Follows Queue.Serves Queue.empty [.insert 5, .insert 9, .insert 2, .deleteMin] replies q ∧
      Measures halves 4 h q.members :=
  run_count_findMax halves _ 4 (by decide) (by decide)

end Intrusive

end OhosBun.Io
