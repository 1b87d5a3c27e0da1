/-
# `OhosBun.Lib.Split` — the parts of a list between separators

`List.splitOn` and `List.intercalate` are in the library; here is what a part has not, and where
the parts begin.
-/
import Mathlib.Data.List.Basic

namespace OhosBun.Lib

variable {α : Type*} [DecidableEq α] {sep : α}

/-- No part has a separator. -/
theorem notSep_of_mem_splitOnP {isSep : α → Bool} {l part : List α} (h : part ∈ l.splitOnP isSep) :
    ∀ a ∈ part, ¬isSep a = true := by
  induction l generalizing part with
  | nil =>
    obtain rfl := List.mem_singleton.mp h
    exact fun a ha => absurd ha List.not_mem_nil
  | cons b l ih =>
    rw [List.splitOnP_cons_eq_if_modifyHead] at h
    split at h
    · rcases List.mem_cons.mp h with rfl | h
      · exact fun a ha => absurd ha List.not_mem_nil
      · exact ih h
    · rename_i hne
      cases hparts : l.splitOnP isSep with
      | nil => exact absurd hparts (List.splitOnP_ne_nil _ _)
      | cons first rest =>
        rw [hparts] at h ih
        rcases List.mem_cons.mp h with rfl | h
        · intro a ha
          rcases List.mem_cons.mp ha with rfl | ha
          · exact hne
          · exact ih List.mem_cons_self a ha
        · exact ih (List.mem_cons_of_mem _ h)

theorem notMem_of_mem_splitOn {l part : List α} (h : part ∈ l.splitOn sep) : sep ∉ part :=
  fun hsep => notSep_of_mem_splitOnP h sep hsep (beq_self_eq_true sep)

end OhosBun.Lib
