/-
# `OhosBun.Lib.Search` — binary search

Two loops that look for the place where a predicate turns from true to false: one
with two ends, over reads that may fail, and one with a start and a count.  Both
find it when there is one (`bisect_eq`, `upperBound_eq`).

On a list where the predicate holds of a prefix, that place is the length of
`takeWhile`, and the element before it is the last of those that have it.
-/
import Mathlib.Data.List.Basic
import Mathlib.Data.List.TakeWhile

namespace OhosBun.Lib

/-- `while lo < hi { mid; if p(mid) { lo = mid + 1 } else { hi = mid } }`. -/
def bisect (p : Nat → Option Bool) (lo hi : Nat) : Option Nat :=
  if lo < hi then
    match p (lo + (hi - lo) / 2) with
    | none => none
    | some true => bisect p (lo + (hi - lo) / 2 + 1) hi
    | some false => bisect p lo (lo + (hi - lo) / 2)
  else some lo
termination_by hi - lo
decreasing_by all_goals omega

theorem bisect_eq {p : Nat → Option Bool} {k : Nat} (lo hi : Nat) (hlo : lo ≤ k) (hhi : k ≤ hi)
    (hp : ∀ i, lo ≤ i → i < hi → p i = some (decide (i < k))) : bisect p lo hi = some k := by
  rw [bisect]
  by_cases hlt : lo < hi
  · have hmid := hp (lo + (hi - lo) / 2) (Nat.le_add_right _ _) (by omega)
    rw [if_pos hlt, hmid]
    by_cases hk : lo + (hi - lo) / 2 < k
    · rw [decide_eq_true hk]
      exact bisect_eq _ _ hk hhi fun i hi' => hp i (by omega)
    · rw [decide_eq_false hk]
      exact bisect_eq _ _ hlo (Nat.le_of_not_lt hk) fun i hi' hlt' => hp i hi' (by omega)
  · rw [if_neg hlt, show lo = k by omega]
termination_by hi - lo
decreasing_by all_goals omega

/-- `while count > 0 { step = count / 2; .. }`, with the start in `index`. -/
def upperBound (p : Nat → Bool) (index count : Nat) : Nat :=
  if 0 < count then
    if p (index + count / 2) then upperBound p (index + count / 2 + 1) (count - (count / 2 + 1))
    else upperBound p index (count / 2)
  else index
termination_by count
decreasing_by all_goals omega

theorem upperBound_eq {p : Nat → Bool} {k : Nat} (index count : Nat) (hindex : index ≤ k)
    (hcount : k ≤ index + count)
    (hp : ∀ i, index ≤ i → i < index + count → (p i = true ↔ i < k)) :
    upperBound p index count = k := by
  rw [upperBound]
  by_cases hlt : 0 < count
  · have hmid := hp (index + count / 2) (Nat.le_add_right _ _) (by omega)
    rw [if_pos hlt]
    by_cases hk : index + count / 2 < k
    · rw [if_pos (hmid.mpr hk)]
      exact upperBound_eq _ _ hk (by omega) fun i hi' _ => hp i (by omega) (by omega)
    · rw [if_neg fun h => hk (hmid.mp h)]
      exact upperBound_eq _ _ hindex (Nat.le_of_not_lt hk) fun i hi' _ => hp i hi' (by omega)
  · rw [if_neg hlt]
    omega
termination_by count
decreasing_by all_goals omega

section Prefix
variable {α : Type*} {p : α → Bool}

/-- The predicate holds of a prefix. -/
def Falls (p : α → Bool) (l : List α) : Prop := l.Pairwise fun a b => p b = true → p a = true

theorem Falls.getElem?_iff {l : List α} (h : Falls p l) {i : Nat} {a : α} (ha : l[i]? = some a) :
    p a = true ↔ i < (l.takeWhile p).length := by
  induction l generalizing i with
  | nil => exact absurd ha (by simp)
  | cons b l ih =>
    obtain ⟨hb, hl⟩ := List.pairwise_cons.mp h
    cases hpb : p b with
    | true =>
      rw [List.takeWhile_cons_of_pos hpb, List.length_cons]
      cases i with
      | zero =>
        obtain rfl : b = a := by simpa using ha
        exact ⟨fun _ => Nat.succ_pos _, fun _ => hpb⟩
      | succ i => rw [ih hl (by simpa using ha), Nat.succ_lt_succ_iff]
    | false =>
      rw [List.takeWhile_cons_of_neg (by simp [hpb])]
      have hpa : ¬ p a = true := by
        rcases List.mem_cons.mp (List.mem_of_getElem? ha) with rfl | ha
        · simp [hpb]
        · exact fun hpa => absurd (hb a ha hpa) (by simp [hpb])
      simp [hpa]

/-- The last with the predicate, from a place that has it. -/
theorem Falls.getLast?_takeWhile {pre rest : List α} {a : α} (h : Falls p (pre ++ a :: rest))
    (ha : p a = true) :
    ((pre ++ a :: rest).takeWhile p).getLast? = (a :: rest.takeWhile p).getLast? := by
  have hpre : ∀ b ∈ pre, p b = true := fun b hb =>
    (List.pairwise_append.mp h).2.2 b hb a List.mem_cons_self ha
  rw [List.takeWhile_append_of_pos hpre, List.takeWhile_cons_of_pos ha,
    List.getLast?_append_of_ne_nil _ (List.cons_ne_nil _ _)]

theorem Falls.of_mem_dropWhile {l : List α} (h : Falls p l) : ∀ a ∈ l.dropWhile p, p a = false := by
  induction l with
  | nil => exact fun _ ha => absurd ha (by simp)
  | cons b l ih =>
    obtain ⟨hb, hl⟩ := List.pairwise_cons.mp h
    cases hpb : p b with
    | true =>
      rw [List.dropWhile_cons_of_pos hpb]
      exact ih hl
    | false =>
      rw [List.dropWhile_cons_of_neg (by simp [hpb])]
      intro a ha
      rcases List.mem_cons.mp ha with rfl | ha
      · exact hpb
      · cases hpa : p a with
        | true => exact absurd (hb a ha hpa) (by simp [hpb])
        | false => rfl

end Prefix

end OhosBun.Lib
