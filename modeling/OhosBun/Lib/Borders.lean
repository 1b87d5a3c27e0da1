/-
# `OhosBun.Lib.Borders` — the longest beginning at an end

`Longest y w b k`: of the beginnings of `y` with at most `b` elements, the one with `k` is the
longest that stands at the end of `w`.  One element more at the end of `w` makes it longer by
one, or takes it back to a beginning that stood there, too (`Longest.snoc`); and what stands at
the end of a beginning of `y` is found once and for all (`Longest.of_ends`).
-/
import Mathlib.Data.List.Basic
import Mathlib.Data.List.Infix

namespace OhosBun.Lib

section Longest
variable {α : Type*}

/-- The longest beginning of `y`, up to `b` elements, that `w` ends with. -/
structure Longest (y w : List α) (b k : Nat) : Prop where
  ends : y.take k <:+ w
  le : k ≤ b
  max : ∀ j ≤ b, y.take j <:+ w → j ≤ k

variable {y w : List α} {b j k : Nat}

/-- The shorter of two ends is at the end of the longer. -/
theorem take_suffix_take (hj : y.take j <:+ w) (hk : y.take k <:+ w) (hjk : j ≤ k) :
    y.take j <:+ y.take k :=
  List.suffix_of_suffix_length_le hj hk (by rw [List.length_take, List.length_take]; omega)

theorem longest_nil (hb : b ≤ y.length) : Longest y [] b 0 := by
  refine ⟨List.nil_suffix, Nat.zero_le b, fun j hj hends => ?_⟩
  have hlen := congrArg List.length (List.suffix_nil.mp hends)
  rw [List.length_take, List.length_nil] at hlen
  omega

/-- What ends a beginning of `y` is what ends `w`, as long as it is no longer. -/
theorem Longest.of_ends {f : Nat} (hk : y.take k <:+ w) (hb : b ≤ k)
    (h : Longest y (y.take k) b f) : Longest y w b f where
  ends := h.ends.trans hk
  le := h.le
  max j hj hends := h.max j hj (take_suffix_take hends hk (hj.trans hb))

/-- One element more. -/
theorem take_succ_suffix_iff {c : α} (hj : j < y.length) :
    y.take (j + 1) <:+ w ++ [c] ↔ y.take j <:+ w ∧ y[j]? = some c := by
  rw [List.take_succ_eq_append_getElem hj, List.suffix_concat_iff, List.getElem?_eq_getElem hj]
  constructor
  · rintro (hnil | ⟨t, heq, ht⟩)
    · exact absurd (List.append_eq_nil_iff.mp hnil).2 (List.cons_ne_nil _ _)
    · obtain ⟨rfl, hc⟩ := List.append_inj' heq rfl
      exact ⟨ht, congrArg some (List.singleton_inj.mp hc)⟩
  · rintro ⟨hends, hc⟩
    exact .inr ⟨_, by rw [Option.some.inj hc], hends⟩

/-- The longest that is followed by the new element, if there is one, and the element. -/
theorem Longest.snoc [DecidableEq α] {c : α} (h : Longest y w b k) (hb : b < y.length) {k' : Nat} (hle : k' ≤ k)
    (hends : y.take k' <:+ w) (hstop : k' = 0 ∨ y[k']? = some c)
    (hmax : ∀ j ≤ k, y.take j <:+ w → y[j]? = some c → j ≤ k') :
    Longest y (w ++ [c]) (b + 1) (if y[k']? = some c then k' + 1 else k') := by
  have hk' : k' < y.length := (hle.trans h.le).trans_lt hb
  have hgrow {j : Nat} (hj : j ≤ b) (hnext : y.take (j + 1) <:+ w ++ [c]) : j ≤ k' ∧ y[j]? = some c := by
    obtain ⟨hold, hc⟩ := (take_succ_suffix_iff (hj.trans_lt hb)).mp hnext
    exact ⟨hmax j (h.max j hj hold) hold hc, hc⟩
  split
  · rename_i hc
    refine ⟨(take_succ_suffix_iff hk').mpr ⟨hends, hc⟩, by have := h.le; omega, fun j hj hnext => ?_⟩
    cases j with
    | zero => exact Nat.zero_le _
    | succ j => exact Nat.succ_le_succ (hgrow (by omega) hnext).1
  · rename_i hc
    obtain rfl := hstop.resolve_right hc
    refine ⟨List.nil_suffix, Nat.zero_le _, fun j hj hnext => ?_⟩
    cases j with
    | zero => exact le_rfl
    | succ j =>
      obtain ⟨hzero, hj'⟩ := hgrow (by omega) hnext
      obtain rfl := Nat.le_zero.mp hzero
      exact absurd hj' hc

end Longest

end OhosBun.Lib
