/-
# `OhosBun.Lib.Occurrence` — where a list first occurs in another

`findInfix? needle hay` is the first place of `hay` where `needle` stands; there is one when `needle`
is an infix (`findInfix?_append`).
-/
import Mathlib.Data.List.Infix

namespace OhosBun.Lib

variable {α : Type*} [DecidableEq α] {needle hay before after : List α} {i : Nat}

def findInfix? (needle : List α) : List α → Option Nat
  | [] => if needle = [] then some 0 else none
  | a :: rest =>
    if needle <+: a :: rest then some 0 else (findInfix? needle rest).map (· + 1)

theorem findInfix?_eq_some (h : findInfix? needle hay = some i) :
    ∃ before after, hay = before ++ needle ++ after ∧ before.length = i ∧
      ∀ j < i, ¬needle <+: hay.drop j := by
  induction hay generalizing i with
  | nil =>
    rw [findInfix?] at h
    split at h
    · rename_i hnil
      obtain rfl := Option.some.inj h
      exact ⟨[], [], by rw [hnil]; rfl, rfl, by simp⟩
    · exact absurd h (by simp)
  | cons a rest ih =>
    rw [findInfix?] at h
    split at h
    · rename_i hpre
      obtain rfl := Option.some.inj h
      obtain ⟨after, hafter⟩ := hpre
      exact ⟨[], after, hafter.symm, rfl, by simp⟩
    · rename_i hpre
      obtain ⟨j, hj, rfl⟩ := Option.map_eq_some_iff.mp h
      obtain ⟨before, after, rfl, rfl, hfirst⟩ := ih hj
      refine ⟨a :: before, after, rfl, rfl, fun k hk => ?_⟩
      cases k with
      | zero => exact hpre
      | succ k => exact hfirst k (Nat.lt_of_succ_lt_succ hk)

theorem findInfix?_append (before needle after : List α) :
    ∃ i ≤ before.length, findInfix? needle (before ++ needle ++ after) = some i := by
  induction before with
  | nil =>
    refine ⟨0, le_rfl, ?_⟩
    cases hhay : needle ++ after with
    | nil =>
      rw [List.nil_append, hhay, findInfix?, if_pos (List.append_eq_nil_iff.mp hhay).1]
    | cons a rest =>
      rw [List.nil_append, hhay, findInfix?, ← hhay, if_pos (List.prefix_append needle after)]
  | cons a before ih =>
    obtain ⟨i, hi, hfound⟩ := ih
    rw [List.cons_append, List.cons_append, findInfix?, hfound]
    split
    · exact ⟨0, Nat.zero_le _, rfl⟩
    · exact ⟨i + 1, Nat.succ_le_succ hi, rfl⟩

theorem findInfix?_le (h : findInfix? needle hay = some i) : i + needle.length ≤ hay.length := by
  obtain ⟨before, after, rfl, rfl, -⟩ := findInfix?_eq_some h
  rw [List.length_append, List.length_append]
  exact Nat.le_add_right _ _

end OhosBun.Lib
