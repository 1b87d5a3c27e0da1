/-
# `OhosBun.Lib.CountingSort` — items in buckets, by key

Counting sort as it is done in one array: how many items there are for each key, the sums of
that, which are the ends of the buckets, and then the items from the last to the first, each
put in front of what its bucket has.  By then each end has become a start (`extract_fill`).
A bucket may be sorted on its own (`extract_sortBuckets`).
-/
import Mathlib.Algebra.Ring.Nat
import Mathlib.Data.List.Basic
import Mathlib.Algebra.BigOperators.Group.List.Basic
import Mathlib.Order.Monotone.Basic
import Mathlib.Order.Nat

namespace OhosBun.Lib

/-! ## The ends of the buckets -/

/-- How many there are of each key, and a zero. -/
def counts (keys : List Nat) (n : Nat) : List Nat :=
  keys.foldl (fun counts key => counts.modify key (· + 1)) (List.replicate (n + 1) 0)

/-- `for i in 1..len { l[i] += l[i - 1] }` -/
def sums : Nat → List Nat → List Nat
  | _, [] => []
  | acc, a :: l => (acc + a) :: sums (acc + a) l

theorem getElem?_foldl_modify (keys l : List Nat) (i : Nat) :
    (keys.foldl (fun counts key => counts.modify key (· + 1)) l)[i]? =
      l[i]?.map (· + keys.count i) := by
  induction keys generalizing l with
  | nil => simp
  | cons key keys ih =>
    rw [List.foldl_cons, ih, List.getElem?_modify, Option.map_eq_map, Option.map_map]
    congr 1
    funext a
    rw [Function.comp_apply, List.count_cons]
    by_cases h : key = i
    · rw [if_pos h, if_pos (beq_iff_eq.mpr h)]
      omega
    · rw [if_neg h, if_neg (mt beq_iff_eq.mp h)]
      rfl

variable {keys : List Nat} {n i : Nat}

theorem getElem?_counts (hi : i ≤ n) :
    (counts keys n)[i]? = some (keys.count i) := by
  rw [counts, getElem?_foldl_modify, List.getElem?_replicate, if_pos (Nat.lt_succ_of_le hi),
    Option.map_some, Nat.zero_add]

theorem getElem?_sums (acc : Nat) (l : List Nat) (i : Nat) :
    (sums acc l)[i]? = l[i]?.map fun _ => acc + (l.take (i + 1)).sum := by
  induction l generalizing acc i with
  | nil => rfl
  | cons a l ih =>
    cases i with
    | zero => simp [sums]
    | succ i =>
      rw [sums, List.getElem?_cons_succ, ih, List.getElem?_cons_succ, List.take_succ_cons,
        List.sum_cons, Nat.add_assoc]

/-- The keys up to one are those up to the one before, and its own. -/
theorem countP_le_succ (keys : List Nat) (i : Nat) :
    keys.countP (· ≤ i + 1) = keys.countP (· ≤ i) + keys.count (i + 1) := by
  induction keys with
  | nil => rfl
  | cons key keys ih =>
    rw [List.countP_cons, List.countP_cons, List.count_cons, ih]
    simp only [decide_eq_true_eq, beq_iff_eq]
    split_ifs
    all_goals omega

theorem sum_take_counts (hi : i ≤ n) :
    ((counts keys n).take (i + 1)).sum = keys.countP (· ≤ i) := by
  induction i with
  | zero =>
    have hcount : keys.count 0 = keys.countP (· ≤ 0) := by
      rw [List.count]
      refine List.countP_congr fun key _ => ?_
      simp
    rw [List.take_add_one, getElem?_counts hi, List.take_zero, List.nil_append, ← hcount]
    simp
  | succ i ih =>
    rw [List.take_add_one, List.sum_append, ih (Nat.le_of_succ_le hi), getElem?_counts hi,
      countP_le_succ]
    simp

/-- An entry is the number of keys up to it. -/
theorem getElem?_ends (hi : i ≤ n) :
    (sums 0 (counts keys n))[i]? = some (keys.countP (· ≤ i)) := by
  rw [getElem?_sums, getElem?_counts hi, Option.map_some, sum_take_counts hi, Nat.zero_add]

/-! ## Filling the buckets -/

section Fill
variable {α β : Type*} (key : α → Nat) (value : α → β)

/-- The items are put in from the last to the first. -/
def fill (items : List α) (offsets : List Nat) (out : List β) : List Nat × List β :=
  items.foldr (fun item s =>
    let place := s.1.getD (key item) 0 - 1
    (s.1.set (key item) place, s.2.set place (value item))) (offsets, out)

theorem extract_set_of_not_mem {l : List β} {lo hi i : Nat} (b : β) (h : i < lo ∨ hi ≤ i) :
    (l.set i b).extract lo hi = l.extract lo hi := by
  refine List.ext_getElem? fun j => ?_
  simp only [List.extract_eq_take_drop, List.getElem?_take, List.getElem?_drop, List.getElem?_set]
  split_ifs
  all_goals first | rfl | omega

theorem extract_set_self {l : List β} {lo hi : Nat} (b : β) (hlo : lo < hi) (hhi : hi ≤ l.length) :
    (l.set lo b).extract lo hi = b :: l.extract (lo + 1) hi := by
  have hget : (l.set lo b)[lo]? = some b :=
    List.getElem?_set_self (Nat.lt_of_lt_of_le hlo hhi)
  obtain ⟨n, rfl⟩ : ∃ n, hi = lo + (n + 1) := ⟨hi - lo - 1, by omega⟩
  have hdrop : (l.set lo b).drop lo = b :: l.drop (lo + 1) := by
    rw [List.drop_eq_getElem?_toList_append, hget, List.drop_set_of_lt (Nat.lt_succ_self lo)]
    rfl
  rw [List.extract_eq_take_drop, List.extract_eq_take_drop, hdrop,
    show lo + (n + 1) - lo = n + 1 by omega, show lo + (n + 1) - (lo + 1) = n by omega,
    List.take_succ_cons]

/-- Buckets that are apart, with room for the items, have the items, each up to its end. -/
theorem fill_spec {items : List α} {offsets : List Nat} {out : List β} {n : Nat}
    (starts ends : Nat → Nat) (hkeys : ∀ item ∈ items, key item < n)
    (hoffsets : ∀ i ≤ n, offsets[i]? = some (ends i))
    (hroom : ∀ i, starts i + items.countP (key · = i) ≤ ends i)
    (hapart : ∀ i j, i < j → ends i ≤ starts j) (hout : ∀ i, ends i ≤ out.length) :
    (fill key value items offsets out).2.length = out.length ∧ ∀ i ≤ n,
      (fill key value items offsets out).1[i]? = some (ends i - items.countP (key · = i)) ∧
      (fill key value items offsets out).2.extract (ends i - items.countP (key · = i)) (ends i) =
        (items.filter (key · = i)).map value := by
  induction items with
  | nil =>
    refine ⟨rfl, fun i hi => ⟨hoffsets i hi, ?_⟩⟩
    simp [List.extract_eq_take_drop]
  | cons item items ih =>
    have hroom' : ∀ i, starts i + items.countP (key · = i) ≤ ends i := by
      intro i
      have hle : items.countP (key · = i) ≤ (item :: items).countP (key · = i) :=
        (List.sublist_cons_self item items).countP_le
      exact Nat.le_trans (Nat.add_le_add_left hle _) (hroom i)
    obtain ⟨hlen, hbuckets⟩ := ih (fun item hitem => hkeys item (List.mem_cons_of_mem _ hitem)) hroom'
    rw [fill, List.foldr_cons, ← fill]
    generalize fill key value items offsets out = s at hlen hbuckets
    have hkey := hkeys item List.mem_cons_self
    have hroomKey := hroom (key item)
    rw [List.countP_cons_of_pos (by simp)] at hroomKey
    have hplace : s.1.getD (key item) 0 - 1 =
        ends (key item) - (items.countP (key · = key item) + 1) := by
      rw [List.getD_eq_getElem?_getD, (hbuckets _ (Nat.le_of_lt hkey)).1, Option.getD_some]
      omega
    dsimp only
    rw [hplace]
    refine ⟨by rw [List.length_set, hlen], fun i hi => ?_⟩
    obtain ⟨hoffset, hbucket⟩ := hbuckets i hi
    by_cases heq : key item = i
    · subst heq
      have hlt : key item < s.1.length := (List.getElem?_eq_some_iff.mp hoffset).1
      have hend := hout (key item)
      rw [List.countP_cons_of_pos (by simp), List.filter_cons_of_pos (by simp), List.map_cons,
        List.getElem?_set_self hlt, extract_set_self _ (by omega) (by omega),
        show ends (key item) - (items.countP (key · = key item) + 1) + 1 =
          ends (key item) - items.countP (key · = key item) by omega, hbucket]
      exact ⟨rfl, rfl⟩
    · rw [List.countP_cons_of_neg (by simpa using heq), List.filter_cons_of_neg (by simpa using heq),
        List.getElem?_set_ne heq, extract_set_of_not_mem]
      · exact ⟨hoffset, hbucket⟩
      · have hroomI := hroom' i
        rcases Nat.lt_or_gt_of_ne heq with hlt | hlt
        · have := hapart _ _ hlt
          omega
        · have := hapart _ _ hlt
          omega

end Fill

/-! ## Sorting each bucket -/

section Buckets
variable {β : Type*} (sort : List β → List β)

/-- `for i in 0..n { out[offsets[i]..offsets[i + 1]].sort() }` -/
def sortBuckets (offsets : List Nat) (n : Nat) (out : List β) : List β :=
  (List.range n).foldl (fun out i =>
    let lo := offsets.getD i 0
    let hi := offsets.getD (i + 1) 0
    out.take lo ++ sort (out.extract lo hi) ++ out.drop hi) out

variable {sort}

/-- What is done to the slice at one place is not seen in front of it or behind it. -/
theorem extract_replace {l l' : List β} {lo hi : Nat} (hlo : lo ≤ hi) (hhi : hi ≤ l.length)
    (hlen : l'.length = hi - lo) :
    (l.take lo ++ l' ++ l.drop hi).length = l.length ∧
      (l.take lo ++ l' ++ l.drop hi).drop hi = l.drop hi ∧
      (l.take lo ++ l' ++ l.drop hi).extract lo hi = l' ∧
      ∀ a b, b ≤ lo → (l.take lo ++ l' ++ l.drop hi).extract a b = l.extract a b := by
  have htake : (l.take lo).length = lo := List.length_take_of_le (Nat.le_trans hlo hhi)
  have hfront : (l.take lo ++ l').length = hi := by
    rw [List.length_append, htake, hlen]
    omega
  refine ⟨?_, ?_, ?_, fun a b hb => ?_⟩
  · rw [List.length_append, hfront, List.length_drop]
    omega
  · rw [List.drop_left' hfront]
  · rw [List.extract_eq_take_drop, List.append_assoc, List.drop_left' htake, List.take_left' hlen]
  · refine List.ext_getElem? fun j => ?_
    simp only [List.extract_eq_take_drop, List.getElem?_take, List.getElem?_drop]
    split_ifs
    next hj =>
      rw [List.append_assoc, List.getElem?_append_left (by omega), List.getElem?_take_of_lt (by omega)]
    next => rfl

theorem extract_sortBuckets {offsets : List Nat} {out : List β} {n : Nat} {starts : Nat → Nat}
    (hoffsets : ∀ i ≤ n, offsets.getD i 0 = starts i) (hmono : Monotone starts)
    (hout : ∀ i ≤ n, starts i ≤ out.length) (hsort : ∀ l, (sort l).length = l.length) :
    (sortBuckets sort offsets n out).length = out.length ∧
      (sortBuckets sort offsets n out).drop (starts n) = out.drop (starts n) ∧
      ∀ i < n, (sortBuckets sort offsets n out).extract (starts i) (starts (i + 1)) =
        sort (out.extract (starts i) (starts (i + 1))) := by
  induction n with
  | zero => exact ⟨rfl, rfl, fun i hi => absurd hi (Nat.not_lt_zero i)⟩
  | succ n ih =>
    obtain ⟨hlen, hdrop, hbuckets⟩ := ih (fun i hi => hoffsets i (Nat.le_succ_of_le hi))
      (fun i hi => hout i (Nat.le_succ_of_le hi))
    have hle : starts n ≤ starts (n + 1) := hmono (Nat.le_succ n)
    have hend := hout (n + 1) (Nat.le_refl _)
    have hslice : (sortBuckets sort offsets n out).extract (starts n) (starts (n + 1)) =
        out.extract (starts n) (starts (n + 1)) := by
      rw [List.extract_eq_take_drop, hdrop, ← List.extract_eq_take_drop]
    have hstep : sortBuckets sort offsets (n + 1) out =
        (sortBuckets sort offsets n out).take (starts n) ++
          sort (out.extract (starts n) (starts (n + 1))) ++
          (sortBuckets sort offsets n out).drop (starts (n + 1)) := by
      rw [sortBuckets, List.range_succ, List.foldl_append, List.foldl_cons, List.foldl_nil,
        ← sortBuckets, hoffsets n (Nat.le_succ n), hoffsets (n + 1) (Nat.le_refl _)]
      dsimp only
      rw [hslice]
    have hlen' : (sort (out.extract (starts n) (starts (n + 1)))).length =
        starts (n + 1) - starts n := by
      rw [hsort, List.extract_eq_take_drop, List.length_take, List.length_drop]
      omega
    obtain ⟨hlength, hbehind, hself, hfront⟩ :=
      extract_replace hle (by rw [hlen]; exact hend) hlen'
    rw [hstep]
    refine ⟨hlength.trans hlen, ?_, fun i hi => ?_⟩
    · have hmore : starts (n + 1) = starts n + (starts (n + 1) - starts n) := by omega
      rw [hbehind, hmore, ← List.drop_drop, hdrop, List.drop_drop]
    · rcases Nat.lt_succ_iff_lt_or_eq.mp hi with hlt | rfl
      · rw [hfront _ _ (hmono hlt)]
        exact hbuckets i hlt
      · exact hself

end Buckets

/-! ## All of it -/

section CountingSort
variable {α β : Type*} [Inhabited β] (key : α → Nat) (value : α → β) (sort : List β → List β)

/-- Where the buckets start, and the sorted buckets one behind the other. -/
def countingSort (items : List α) (n : Nat) : List Nat × List β :=
  let (offsets, out) := fill key value items (sums 0 (counts (items.map key) n))
    (List.replicate items.length default)
  (offsets, sortBuckets sort offsets n out)

variable {sort}

theorem countP_lt_add_countP_eq (items : List α) (i : Nat) :
    items.countP (key · < i) + items.countP (key · = i) = items.countP (key · ≤ i) := by
  induction items with
  | nil => rfl
  | cons item items ih =>
    rw [List.countP_cons, List.countP_cons, List.countP_cons, ← ih]
    simp only [decide_eq_true_eq]
    split_ifs
    all_goals omega

/-- The bucket of a key has the items of that key. -/
theorem extract_countingSort {items : List α} {n i : Nat} (hkeys : ∀ item ∈ items, key item < n)
    (hsort : ∀ l, (sort l).length = l.length) (hi : i < n) :
    (countingSort key value sort items n).2.extract
        ((countingSort key value sort items n).1.getD i 0)
        ((countingSort key value sort items n).1.getD (i + 1) 0) =
      sort ((items.filter (key · = i)).map value) := by
  have hends : ∀ i, (items.map key).countP (· ≤ i) = items.countP (key · ≤ i) := fun i =>
    List.countP_map
  have hlt : ∀ i, items.countP (key · ≤ i) = items.countP (key · < i + 1) := fun i =>
    List.countP_congr fun item _ => by simp [Nat.lt_succ_iff]
  have hmono : Monotone fun i => items.countP (key · < i) := fun i j hij =>
    List.countP_mono_left fun item _ h => by
      simp only [decide_eq_true_eq] at h ⊢
      omega
  have hout : ∀ i, items.countP (key · ≤ i) ≤ (List.replicate items.length (default : β)).length := by
    intro i
    rw [List.length_replicate]
    exact List.countP_le_length
  obtain ⟨hlen, hbuckets⟩ := fill_spec key value (fun i => items.countP (key · < i))
    (fun i => items.countP (key · ≤ i)) hkeys
    (fun i hi => by rw [getElem?_ends hi, hends]) (fun i => (countP_lt_add_countP_eq key items i).le)
    (fun i j hij => by
      rw [hlt]
      exact hmono hij) hout
  have hstart : ∀ i, items.countP (key · ≤ i) - items.countP (key · = i) =
      items.countP (key · < i) := by
    intro i
    rw [← countP_lt_add_countP_eq, Nat.add_sub_cancel]
  rw [countingSort]
  generalize fill key value items (sums 0 (counts (items.map key) n))
    (List.replicate items.length default) = s at hlen hbuckets
  have hoffsets : ∀ i ≤ n, s.1.getD i 0 = items.countP (key · < i) := by
    intro i hi
    rw [List.getD_eq_getElem?_getD, (hbuckets i hi).1, Option.getD_some, hstart]
  obtain ⟨-, -, hsorted⟩ := extract_sortBuckets hoffsets hmono
    (fun i _ => by rw [hlen, ← hstart]; exact Nat.le_trans (Nat.sub_le _ _) (hout i)) hsort
  dsimp only
  rw [hoffsets i (Nat.le_of_lt hi), hoffsets (i + 1) hi, hsorted i hi, ← hlt, ← hstart i,
    (hbuckets i (Nat.le_of_lt hi)).2]

end CountingSort

end OhosBun.Lib
