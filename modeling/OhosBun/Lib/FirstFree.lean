/-
# `OhosBun.Lib.FirstFree` — counting past what is taken

`while taken(n) { n += 1 }`, with a bound on its turns: the first number from a start on
that is not taken, when there is one in reach (`firstFree_free`).  Numbers that name
different things reach past any finite set of them (`exists_free`).
-/
import Mathlib.Data.Finset.Card
import Mathlib.Data.Nat.Count

namespace OhosBun.Lib

section FirstFree
variable {taken : Nat → Bool}

/-- The first number that is not taken. -/
@[grind] def firstFree (taken : Nat → Bool) : (bound : Nat) → Nat → Nat
  | 0, n => n
  | bound + 1, n => if taken n then firstFree taken bound (n + 1) else n

theorem le_firstFree (bound n : Nat) : n ≤ firstFree taken bound n := by
  induction bound generalizing n with
  | zero => exact Nat.le_refl n
  | succ bound ih =>
    rw [firstFree]
    split
    · exact (Nat.le_succ n).trans (ih (n + 1))
    · exact Nat.le_refl n

variable {bound n j : Nat}

theorem taken_of_lt_firstFree (hj : n ≤ j) (hlt : j < firstFree taken bound n) :
    taken j := by
  induction bound generalizing n with
  | zero => exact absurd hlt (Nat.not_lt.mpr hj)
  | succ bound ih =>
    rw [firstFree] at hlt
    split at hlt
    next htaken =>
      rcases Nat.eq_or_lt_of_le hj with rfl | hlt'
      · exact htaken
      · exact ih hlt' hlt
    next => exact absurd hlt (Nat.not_lt.mpr hj)

theorem firstFree_free (h : ∃ j, n ≤ j ∧ j ≤ n + bound ∧ taken j = false) :
    taken (firstFree taken bound n) = false := by
  induction bound generalizing n with
  | zero =>
    obtain ⟨j, hj, hj', hfree⟩ := h
    obtain rfl : j = n := by omega
    exact hfree
  | succ bound ih =>
    obtain ⟨j, hj, hj', hfree⟩ := h
    rw [firstFree]
    split
    next htaken =>
      refine ih ⟨j, ?_, by omega, hfree⟩
      rcases Nat.eq_or_lt_of_le hj with rfl | hlt
      · rw [htaken] at hfree
        exact absurd hfree (by decide)
      · exact hlt
    next htaken => exact eq_false_of_ne_true htaken

theorem firstFree_le (hj : n ≤ j) (hfree : taken j = false) :
    firstFree taken bound n ≤ j := by
  by_contra hlt
  have htaken := taken_of_lt_firstFree hj (Nat.lt_of_not_le hlt)
  rw [hfree] at htaken
  exact absurd htaken (by decide)

/-- No more numbers than there are names in a finite set come before one that is free. -/
theorem exists_free {α : Type*} [DecidableEq α] {name : Nat → α} (hinj : Function.Injective name)
    (s : Finset α) (n : Nat) : ∃ j, n ≤ j ∧ j ≤ n + s.card ∧ name j ∉ s := by
  by_contra hall
  push Not at hall
  have hsub : ((Finset.range (s.card + 1)).image fun i => name (n + i)) ⊆ s := by
    intro x hx
    obtain ⟨i, hi, rfl⟩ := Finset.mem_image.mp hx
    exact hall (n + i) (Nat.le_add_right n i) (by have := Finset.mem_range.mp hi; omega)
  have hcard := Finset.card_le_card hsub
  rw [Finset.card_image_of_injective _ fun i j hij => Nat.add_left_cancel (hinj hij),
    Finset.card_range] at hcard
  omega

/-- The first free number from `n` on, counted among the free ones. -/
theorem count_firstFree :
    Nat.count (fun j => taken j = false) (firstFree taken bound n) =
      Nat.count (fun j => taken j = false) n := by
  induction bound generalizing n with
  | zero => rfl
  | succ bound ih =>
    rw [firstFree]
    split
    next htaken => rw [ih, Nat.count_succ, if_neg (by rw [htaken]; decide), Nat.add_zero]
    next => rfl

end FirstFree

end OhosBun.Lib
