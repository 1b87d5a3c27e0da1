/-
# `OhosBun.Collections.IndexSort` — elements are sorted by their indices

`sort_slice_by` sorts the indices of a slice and then moves the elements, in place, along the
cycles of the order.  A place is `DONE` once its element is there.

    walk_settled      a cycle is walked to its end: its places get their elements (`Settled`)
    sortSliceBy_spec  the elements are sorted, stably

An index out of bounds is `none`, and so is a walk that does not end.  The sort of the indices
is that of the standard library; its comparator is called with indices of the slice.
-/
import Mathlib.Algebra.Ring.Nat
import Mathlib.Data.List.Basic
import Mathlib.Data.List.Perm.Basic
import Mathlib.Data.List.Nodup
import Mathlib.Order.Basic

namespace OhosBun.Collections.IndexSort

variable {α : Type}

/-- `u32::MAX` -/
def DONE : Nat := 2 ^ 32 - 1

/-- `0..len`, whose length must fit a `u32`. -/
def identity (len : Nat) : Option (List Nat) := if len < 2 ^ 32 then some (List.range len) else none

def sortIndices (indices : List Nat) (cmp : Nat → Nat → Ordering) : List Nat :=
  indices.mergeSort fun a b => (cmp a b).isLE

def swap (items : List α) (a b : Nat) : Option (List α) := do
  let x ← items[a]?
  let y ← items[b]?
  return (items.set a y).set b x

/-- The cycle that starts at `start`, from `cur` on. -/
def walk (start : Nat) : (fuel : Nat) → (items : List α) → (order : List Nat) → (cur : Nat) →
    Option (List α × List Nat)
  | 0, _, _, _ => none
  | fuel + 1, items, order, cur => do
    let next ← order[cur]?
    let order := order.set cur DONE
    if next = start then return (items, order)
    else walk start fuel (← swap items cur next) order next

/-- A turn of the loop over the places. -/
def settle (s : List α × List Nat) (start : Nat) : Option (List α × List Nat) := do
  if (← s.2[start]?) = DONE then return s else walk start s.2.length s.1 s.2 start

def applyPermutationInPlace (items : List α) (order : List Nat) : Option (List α) := do
  let (items, _) ← (List.range items.length).foldlM settle (items, order)
  return items

/-- The comparator of the indices. -/
def compareAt (items : List α) (cmp : α → α → Ordering) (a b : Nat) : Ordering :=
  match items[a]?, items[b]? with
  | some x, some y => cmp x y
  | _, _ => .eq

def sortSliceBy (items : List α) (cmp : α → α → Ordering) : Option (List α) :=
  if items.length < 2 then some items
  else do
    let order ← identity items.length
    applyPermutationInPlace items (sortIndices order (compareAt items cmp))

/-- The elements in an order. -/
def gather (items : List α) (order : List Nat) : List α := order.filterMap (items[·]?)

/-! ## Cycles -/

section Cycles
variable (items : List α) (order : List Nat)

/-- The place has its element, or is as it was. -/
def Placed (s : List α × List Nat) (i : Nat) : Prop :=
  s.2[i]? = some DONE ∧ s.1[i]? = order[i]?.bind (items[·]?) ∨
    s.2[i]? = order[i]? ∧ s.1[i]? = items[i]?

/-- Whole cycles are done. -/
structure Settled (s : List α × List Nat) : Prop where
  items_length : s.1.length = items.length
  order_length : s.2.length = items.length
  placed : ∀ i : Nat, Placed items order s i
  closed : ∀ i : Nat, s.2[i]? = some DONE → ∃ d : Nat, s.2[d]? = some DONE ∧ order[d]? = some i

/-- In the middle of a cycle: `cur` has the element of `start`. -/
structure Walking (start cur : Nat) (s : List α × List Nat) : Prop where
  items_length : s.1.length = items.length
  order_length : s.2.length = items.length
  cur_lt : cur < items.length
  pending : s.2[cur]? = order[cur]?
  carried : s.1[cur]? = items[start]?
  placed : ∀ i : Nat, i ≠ cur → Placed items order s i
  closed : ∀ i : Nat, i = cur ∨ s.2[i]? = some DONE →
    i = start ∨ ∃ d : Nat, s.2[d]? = some DONE ∧ order[d]? = some i

end Cycles

/-- An order is a permutation of the indices, none of which is the sentinel. -/
structure IsOrder (items : List α) (order : List Nat) : Prop where
  perm : order.Perm (List.range items.length)
  short : items.length < 2 ^ 32 - 1

section Walk
variable {items : List α} {order : List Nat} (h : IsOrder items order)
include h

theorem IsOrder.length : order.length = items.length := by
  rw [h.perm.length_eq, List.length_range]

theorem IsOrder.lt {i n : Nat} (hn : order[i]? = some n) : n < items.length :=
  List.mem_range.mp (h.perm.mem_iff.mp (List.mem_of_getElem? hn))

theorem IsOrder.ne_done {i : Nat} : order[i]? ≠ some DONE := by
  intro hdone
  have hlt := h.lt hdone
  have hshort := h.short
  rw [DONE] at hlt
  omega

theorem IsOrder.inj {i j n : Nat} (hi : order[i]? = some n) (hj : order[j]? = some n) : i = j := by
  have hnodup : order.Nodup := h.perm.nodup_iff.mpr List.nodup_range
  have hlt : i < order.length := (List.getElem?_eq_some_iff.mp hi).1
  exact (List.getElem?_inj hlt hnodup).mp (hi.trans hj.symm)

theorem IsOrder.exists_next {i : Nat} (hi : i < items.length) : ∃ n, order[i]? = some n :=
  ⟨_, List.getElem?_eq_getElem (h.length ▸ hi)⟩

variable {start cur : Nat} {s : List α × List Nat} (hs : Walking items order start cur s)
include hs

omit h in
/-- The end of the cycle. -/
theorem Walking.settled (hnext : order[cur]? = some start) :
    Settled items order (s.1, s.2.set cur DONE) := by
  have hcur : cur < s.2.length := hs.order_length ▸ hs.cur_lt
  have hdone : (s.2.set cur DONE)[cur]? = some DONE := List.getElem?_set_self hcur
  refine ⟨hs.items_length, by rw [List.length_set, hs.order_length], fun i => ?_, fun i hi => ?_⟩
  · rcases eq_or_ne i cur with rfl | hne
    · refine .inl ⟨hdone, ?_⟩
      rw [hnext, Option.bind_some]
      exact hs.carried
    · have hplaced := hs.placed i hne
      rwa [Placed, ← List.getElem?_set_ne hne.symm (a := DONE)] at hplaced
  · have hold : i = cur ∨ s.2[i]? = some DONE := by
      rcases eq_or_ne i cur with heq | hne
      · exact .inl heq
      · rw [List.getElem?_set_ne hne.symm] at hi
        exact .inr hi
    rcases hs.closed i hold with rfl | ⟨d, hd, hdi⟩
    · exact ⟨cur, hdone, hnext⟩
    · refine ⟨d, ?_, hdi⟩
      rcases eq_or_ne d cur with rfl | hne
      · exact hdone
      · rwa [List.getElem?_set_ne hne.symm]

/-- The next place of the cycle has not been visited. -/
theorem Walking.next_pending {next : Nat} (hnext : order[cur]? = some next) (hne : next ≠ start) :
    next ≠ cur ∧ s.2[next]? ≠ some DONE := by
  have hfresh : ¬ (next = cur ∨ s.2[next]? = some DONE) := by
    intro hold
    obtain ⟨d, hd, hdn⟩ := (hs.closed next hold).resolve_left hne
    obtain rfl := h.inj hdn hnext
    rw [hs.pending] at hd
    exact h.ne_done hd
  rw [not_or] at hfresh
  exact hfresh

/-- One swap on. -/
theorem Walking.step {next : Nat} (hnext : order[cur]? = some next) (hne : next ≠ start) :
    ∃ items', swap s.1 cur next = some items' ∧
      Walking items order start next (items', s.2.set cur DONE) := by
  obtain ⟨hnc, hpending⟩ := hs.next_pending h hnext hne
  have hlt := h.lt hnext
  have hcur : cur < s.2.length := hs.order_length ▸ hs.cur_lt
  have hcur' : cur < s.1.length := hs.items_length ▸ hs.cur_lt
  have hlt' : next < s.1.length := hs.items_length ▸ hlt
  have hdone : (s.2.set cur DONE)[cur]? = some DONE := List.getElem?_set_self hcur
  obtain ⟨hsame, hitem⟩ := (hs.placed next hnc).resolve_left fun hplaced => hpending hplaced.1
  refine ⟨(s.1.set cur s.1[next]).set next s.1[cur], ?_, ?_⟩
  · rw [swap, List.getElem?_eq_getElem hcur', List.getElem?_eq_getElem hlt']
    rfl
  · refine ⟨?_, by rw [List.length_set, hs.order_length], hlt, ?_, ?_, fun i hi => ?_, fun i hi => ?_⟩
    · rw [List.length_set, List.length_set, hs.items_length]
    · rw [List.getElem?_set_ne hnc.symm, hsame]
    · rw [List.getElem?_set_self (by rw [List.length_set]; exact hlt'), ← hs.carried,
        List.getElem?_eq_getElem hcur']
    · rw [Placed, List.getElem?_set_ne hi.symm]
      rcases eq_or_ne i cur with rfl | hic
      · rw [List.getElem?_set_self hcur', hnext, Option.bind_some, ← hitem,
          List.getElem?_eq_getElem hlt']
        exact .inl ⟨hdone, rfl⟩
      · rw [List.getElem?_set_ne hic.symm, List.getElem?_set_ne hic.symm]
        exact hs.placed i hic
    · have hlift {d : Nat} (hd : s.2[d]? = some DONE) : (s.2.set cur DONE)[d]? = some DONE := by
        rcases eq_or_ne d cur with rfl | hdc
        · exact hdone
        · rwa [List.getElem?_set_ne hdc.symm]
      rcases hi with rfl | hi
      · exact .inr ⟨cur, hdone, hnext⟩
      · have hold : i = cur ∨ s.2[i]? = some DONE := by
          rcases eq_or_ne i cur with heq | hic
          · exact .inl heq
          · rw [List.getElem?_set_ne hic.symm] at hi
            exact .inr hi
        exact (hs.closed i hold).imp_right fun ⟨d, hd, hdi⟩ => ⟨d, hlift hd, hdi⟩

end Walk

/-- How many places are to be done. -/
def pendings (order : List Nat) : Nat := order.countP (· ≠ DONE)

variable {order : List Nat} {items : List α} {start : Nat}

/-- A place that is done is one less to do. -/
theorem pendings_set {cur n : Nat} (hn : order[cur]? = some n) (hne : n ≠ DONE) :
    pendings (order.set cur DONE) + 1 = pendings order := by
  obtain ⟨hlt, rfl⟩ := List.getElem?_eq_some_iff.mp hn
  have hpos : 0 < order.countP (· ≠ DONE) :=
    List.countP_pos_iff.mpr ⟨_, List.getElem_mem hlt, decide_eq_true hne⟩
  rw [pendings, pendings, List.countP_set hlt, if_pos (decide_eq_true hne),
    if_neg (by simp), Nat.add_zero]
  omega

/-- **A cycle** is walked to its end. -/
theorem walk_settled (h : IsOrder items order) (fuel : Nat) :
    ∀ {cur : Nat} {s : List α × List Nat}, Walking items order start cur s →
    pendings s.2 ≤ fuel →
    ∃ s', walk start fuel s.1 s.2 cur = some s' ∧ Settled items order s' ∧
      (∀ i : Nat, s.2[i]? = some DONE → s'.2[i]? = some DONE) ∧ s'.2[cur]? = some DONE := by
  induction fuel with
  | zero =>
    intro cur s hs hfuel
    obtain ⟨next, hnext⟩ := h.exists_next hs.cur_lt
    have hne : next ≠ DONE := fun heq => h.ne_done (heq ▸ hnext)
    have hless := pendings_set (hs.pending.trans hnext) hne
    omega
  | succ fuel ih =>
    intro cur s hs hfuel
    obtain ⟨next, hnext⟩ := h.exists_next hs.cur_lt
    have hne : next ≠ DONE := fun heq => h.ne_done (heq ▸ hnext)
    have hless := pendings_set (hs.pending.trans hnext) hne
    have hcur : cur < s.2.length := hs.order_length ▸ hs.cur_lt
    have hlift {d : Nat} (hd : s.2[d]? = some DONE ∨ d = cur) :
        (s.2.set cur DONE)[d]? = some DONE := by
      rcases eq_or_ne d cur with rfl | hdc
      · exact List.getElem?_set_self hcur
      · rw [List.getElem?_set_ne hdc.symm]
        exact hd.resolve_right hdc
    rw [walk, hs.pending, hnext]
    by_cases hend : next = start
    · subst hend
      exact ⟨_, if_pos rfl, hs.settled hnext, fun i hi => hlift (.inl hi), hlift (.inr rfl)⟩
    · obtain ⟨items', hswap, hwalking⟩ := hs.step h hnext hend
      obtain ⟨s', hwalk, hsettled, hkept, -⟩ := ih hwalking (by dsimp only; omega)
      refine ⟨s', ?_, hsettled, fun i hi => hkept i (hlift (.inl hi)), hkept cur (hlift (.inr rfl))⟩
      simp only [Option.bind_eq_bind, Option.bind_some, if_neg hend, hswap]
      exact hwalk

/-- A turn of the loop. -/
theorem settle_settled (h : IsOrder items order) {s : List α × List Nat} (hs : Settled items order s)
    (hlt : start < items.length) :
    ∃ s', settle s start = some s' ∧ Settled items order s' ∧
      (∀ i : Nat, s.2[i]? = some DONE → s'.2[i]? = some DONE) ∧ s'.2[start]? = some DONE := by
  have hlt' : start < s.2.length := hs.order_length ▸ hlt
  have hget := List.getElem?_eq_getElem hlt'
  by_cases hdone : s.2[start] = DONE
  · refine ⟨s, ?_, hs, fun i hi => hi, by rw [hget, hdone]⟩
    rw [settle, hget]
    exact if_pos hdone
  · have hpending : s.2[start]? ≠ some DONE := fun heq =>
      hdone (Option.some.inj (hget.symm.trans heq))
    obtain ⟨hsame, hitem⟩ := (hs.placed start).resolve_left fun hplaced => hpending hplaced.1
    have hwalking : Walking items order start start s :=
      ⟨hs.items_length, hs.order_length, hlt, hsame, hitem, fun i _ => hs.placed i,
        fun i hi => hi.imp_right (hs.closed i)⟩
    obtain ⟨s', hwalk, hspec⟩ := walk_settled h s.2.length hwalking List.countP_le_length
    refine ⟨s', ?_, hspec⟩
    rw [settle, hget]
    exact (if_neg hdone).trans hwalk

/-- The loop up to a place. -/
theorem foldlM_settled (h : IsOrder items order) (n : Nat) (hn : n ≤ items.length) :
    ∃ s, (List.range n).foldlM settle (items, order) = some s ∧
      Settled items order s ∧ ∀ i : Nat, i < n → s.2[i]? = some DONE := by
  induction n with
  | zero =>
    refine ⟨_, rfl, ⟨rfl, h.length, fun i => .inr ⟨rfl, rfl⟩, fun i hi => ?_⟩, fun i hi => ?_⟩
    · exact absurd hi h.ne_done
    · exact absurd hi (Nat.not_lt_zero i)
  | succ n ih =>
    obtain ⟨s, hrun, hs, hdone⟩ := ih (Nat.le_of_succ_le hn)
    obtain ⟨s', hturn, hs', hkept, hn'⟩ := settle_settled h hs hn
    refine ⟨s', ?_, hs', fun i hi => ?_⟩
    · rw [List.range_succ, List.foldlM_append, hrun]
      simp [hturn]
    · rcases Nat.lt_or_eq_of_le (Nat.le_of_lt_succ hi) with hlt | rfl
      · exact hkept i (hdone i hlt)
      · exact hn'

/-- **The permutation is applied**: the element at `order[i]` comes to the place `i`. -/
theorem applyPermutationInPlace_spec (h : IsOrder items order) :
    ∃ items', applyPermutationInPlace items order = some items' ∧ items'.length = items.length ∧
      ∀ i : Nat, items'[i]? = order[i]?.bind (items[·]?) := by
  obtain ⟨⟨items', order'⟩, hrun, hs, hdone⟩ := foldlM_settled h items.length (Nat.le_refl _)
  refine ⟨items', by rw [applyPermutationInPlace, hrun]; rfl, hs.items_length, fun i => ?_⟩
  rcases Nat.lt_or_ge i items.length with hi | hi
  · rcases hs.placed i with ⟨-, hitem⟩ | ⟨hsame, -⟩
    · exact hitem
    · exact absurd (hsame.symm.trans (hdone i hi)) h.ne_done
  · rw [List.getElem?_eq_none (show items'.length ≤ i from hs.items_length ▸ hi),
      List.getElem?_eq_none (h.length ▸ hi)]
    rfl

theorem applyPermutationInPlace_eq (h : IsOrder items order) :
    applyPermutationInPlace items order = some (gather items order) := by
  obtain ⟨items', hrun, hlen, hplaced⟩ := applyPermutationInPlace_spec h
  have hgather : items'.map some = order.map (items[·]?) := by
    refine List.ext_getElem? fun i => ?_
    rw [List.getElem?_map, List.getElem?_map, hplaced]
    cases hn : order[i]? with
    | none => rfl
    | some n => rw [Option.bind_some, Option.map_some, List.getElem?_eq_getElem (h.lt hn), Option.map_some]
  have hid := congrArg (List.filterMap id) hgather
  rw [List.filterMap_map, List.filterMap_map] at hid
  rw [hrun, gather]
  exact congrArg some (List.filterMap_some.symm.trans hid)

/-! ## Sorting -/

section Sorting
variable (items : List α) (cmp : α → α → Ordering)

theorem getElem?_range : (List.range items.length).map (items[·]?) = items.map some := by
  refine List.ext_getElem? fun i => ?_
  rw [List.getElem?_map, List.getElem?_map]
  rcases Nat.lt_or_ge i items.length with hi | hi
  · rw [List.getElem?_range hi, Option.map_some, List.getElem?_eq_getElem hi, Option.map_some]
  · rw [List.getElem?_eq_none (by rwa [List.length_range]), List.getElem?_eq_none hi]
    rfl

/-- The comparator of what is at an index. -/
def leAt : Option α → Option α → Bool
  | some x, some y => (cmp x y).isLE
  | _, _ => true

/-- The indices are sorted as their elements are. -/
theorem gather_sortIndices :
    gather items (sortIndices (List.range items.length) (compareAt items cmp)) =
      items.mergeSort fun a b => (cmp a b).isLE := by
  have hindices : (sortIndices (List.range items.length) (compareAt items cmp)).map (items[·]?) =
      (items.map some).mergeSort (leAt cmp) := by
    rw [sortIndices, List.map_mergeSort (s := leAt cmp), getElem?_range]
    intro a ha b hb
    rw [List.mem_range] at ha hb
    rw [compareAt, List.getElem?_eq_getElem ha, List.getElem?_eq_getElem hb]
    rfl
  have helements : (items.mergeSort fun a b => (cmp a b).isLE).map some =
      (items.map some).mergeSort (leAt cmp) := List.map_mergeSort fun a _ b _ => rfl
  have hid := congrArg (List.filterMap id) (hindices.trans helements.symm)
  rw [List.filterMap_map, List.filterMap_map] at hid
  exact hid.trans List.filterMap_some

theorem sortSliceBy_eq (hshort : items.length < 2 ^ 32 - 1) :
    sortSliceBy items cmp = some (items.mergeSort fun a b => (cmp a b).isLE) := by
  rw [sortSliceBy]
  split
  next hone =>
    rcases items with _ | ⟨a, _ | ⟨b, items⟩⟩
    · rw [List.mergeSort_nil]
    · rw [List.mergeSort_singleton]
    · exact absurd hone (by simp)
  next =>
    have horder : IsOrder items (sortIndices (List.range items.length) (compareAt items cmp)) :=
      ⟨List.mergeSort_perm _ _, hshort⟩
    rw [identity, if_pos (by omega), ← gather_sortIndices]
    exact applyPermutationInPlace_eq horder

variable {items cmp} [Std.TransCmp cmp]

theorem isLE_total (cmp : α → α → Ordering) [Std.OrientedCmp cmp] (a b : α) :
    ((cmp a b).isLE || (cmp b a).isLE) = true := by
  have hswap : cmp b a = (cmp a b).swap := Std.OrientedCmp.eq_swap
  rw [hswap]
  cases cmp a b <;> rfl

/-- Equal elements stay in their order. -/
theorem filter_mergeSort (x : α) :
    (items.mergeSort fun a b => (cmp a b).isLE).filter (fun a => cmp x a = .eq) =
      items.filter fun a => cmp x a = .eq := by
  have hequal : (items.filter fun a => cmp x a = .eq).Pairwise fun a b => (cmp a b).isLE = true := by
    refine List.pairwise_of_forall_mem_list fun a ha b hb => ?_
    have hxa : cmp x a = .eq := of_decide_eq_true (List.mem_filter.mp ha).2
    have hxb : cmp x b = .eq := of_decide_eq_true (List.mem_filter.mp hb).2
    refine Std.TransCmp.isLE_trans (b := x) ?_ ?_
    · rw [Std.OrientedCmp.eq_symm hxa]
      rfl
    · rw [hxb]
      rfl
  have hsub := List.sublist_mergeSort (fun a b c => Std.TransCmp.isLE_trans) (isLE_total cmp) hequal
    List.filter_sublist
  have hfilter := hsub.filter fun a => decide (cmp x a = .eq)
  rw [List.filter_filter] at hfilter
  simp only [Bool.and_self] at hfilter
  refine (hfilter.eq_of_length ?_).symm
  exact ((List.mergeSort_perm items _).filter _).length_eq.symm

end Sorting

/-- **A stable sort**: the slice is a permutation of what it was, in order, with equal elements
in their old order; and whatever the permutation, it is applied. -/
theorem sortSliceBy_spec (items : List α) (hshort : items.length < 2 ^ 32 - 1) :
    (∀ (cmp : α → α → Ordering) [Std.TransCmp cmp], ∃ sorted, sortSliceBy items cmp = some sorted ∧
      sorted.Perm items ∧ sorted.Pairwise (fun a b => (cmp a b).isLE = true) ∧
      ∀ x, sorted.filter (fun a => cmp x a = .eq) = items.filter fun a => cmp x a = .eq) ∧
    ∀ order : List Nat, order.Perm (List.range items.length) →
      ∃ items', applyPermutationInPlace items order = some items' ∧
        items'.length = items.length ∧ ∀ i : Nat, items'[i]? = order[i]?.bind (items[·]?) := by
  refine ⟨fun cmp hcmp => ⟨_, sortSliceBy_eq items cmp hshort, List.mergeSort_perm _ _, ?_,
    filter_mergeSort⟩, fun order hperm => ?_⟩
  · exact List.pairwise_mergeSort (fun a b c => Std.TransCmp.isLE_trans) (isLE_total cmp) items
  · exact applyPermutationInPlace_spec ⟨hperm, hshort⟩

/-- Five elements, of which two are equal. -/
theorem sortSliceBy_spec_five :
    ∃ sorted, sortSliceBy [30, 10, 31, 20, 0] (fun a b => compare (a / 10) (b / 10)) = some sorted ∧
      sorted.Perm [30, 10, 31, 20, 0] := by
  have hcmp : Std.TransCmp fun a b : Nat => compare (a / 10) (b / 10) :=
    { eq_swap := Std.OrientedCmp.eq_swap
      isLE_trans := Std.TransCmp.isLE_trans }
  obtain ⟨sorted, hsort, hperm, -⟩ :=
    (sortSliceBy_spec [30, 10, 31, 20, 0] (by decide)).1 fun a b : Nat => compare (a / 10) (b / 10)
  exact ⟨sorted, hsort, hperm⟩

end OhosBun.Collections.IndexSort
