/-
# `OhosBun.Lib.Greatest` — the greatest of a list, by a running best

A scan keeps the best so far and replaces it by what is above it.  Where `above` is
transitive, no element is above itself and of two elements of the list one is above the
other, the scan ends with the one that is above all others, wherever in the list it
stands (`greatest_eq_some`).
-/
import Mathlib.Data.List.Perm.Basic

namespace OhosBun.Lib

section Greatest
variable {α : Type*} (above : α → α → Bool)

/-- What the scan keeps after one more. -/
def keep (best : Option α) (a : α) : Option α :=
  match best with
  | none => some a
  | some b => if above a b then some a else some b

def greatest (l : List α) : Option α := l.foldl (keep above) none

/-- Of two elements of the list one is above the other. -/
structure Ranked (l : List α) : Prop where
  irrefl : ∀ a, above a a = false
  trans : ∀ a b c, above a b → above b c → above a c
  total : ∀ a ∈ l, ∀ b ∈ l, a = b ∨ above a b ∨ above b a

variable {above} {l l' : List α}

/-- Above all the others. -/
def IsGreatestOf (above : α → α → Bool) (l : List α) (m : α) : Prop :=
  m ∈ l ∧ ∀ a ∈ l, a = m ∨ above m a

theorem IsGreatestOf.unique (h : Ranked above l) {m m' : α} (hm : IsGreatestOf above l m)
    (hm' : IsGreatestOf above l m') : m = m' := by
  rcases hm.2 m' hm'.1 with heq | habove
  · exact heq.symm
  · rcases hm'.2 m hm.1 with heq | habove'
    · exact heq
    · have hself := h.trans m m' m habove habove'
      rw [h.irrefl] at hself
      exact absurd hself Bool.false_ne_true

/-- The scan from a best that stands in the list already. -/
theorem foldl_keep (h : Ranked above l) {front : List α} {b : α} {rest : List α}
    (hl : l = front ++ rest) (hb : IsGreatestOf above front b) :
    ∃ m, rest.foldl (keep above) (some b) = some m ∧ IsGreatestOf above l m := by
  induction rest generalizing front b with
  | nil => exact ⟨b, rfl, by rwa [hl, List.append_nil]⟩
  | cons a rest ih =>
    rw [List.foldl_cons, keep]
    have hmem (c : α) (hc : c ∈ front) : c ∈ l := hl ▸ List.mem_append_left _ hc
    have ha : a ∈ l := hl ▸ List.mem_append_right _ List.mem_cons_self
    have hsplit : l = (front ++ [a]) ++ rest := by rw [hl, List.append_assoc]; rfl
    split
    · next habove =>
        refine ih hsplit ⟨by simp, fun c hc => ?_⟩
        rcases List.mem_append.mp hc with hc | hc
        · rcases hb.2 c hc with rfl | hbc
          · exact .inr habove
          · exact .inr (h.trans a b c habove hbc)
        · exact .inl (List.mem_singleton.mp hc)
    · next hnot =>
        refine ih hsplit ⟨List.mem_append_left _ hb.1, fun c hc => ?_⟩
        rcases List.mem_append.mp hc with hc | hc
        · exact hb.2 c hc
        · obtain rfl := List.mem_singleton.mp hc
          rcases h.total c ha b (hmem b hb.1) with heq | hcb | hbc
          · exact .inl heq
          · exact absurd hcb hnot
          · exact .inr hbc

theorem greatest_nil : greatest above [] = none := rfl

theorem exists_greatest (h : Ranked above l) (hne : l ≠ []) :
    ∃ m, greatest above l = some m ∧ IsGreatestOf above l m := by
  obtain ⟨a, rest, rfl⟩ := List.exists_cons_of_ne_nil hne
  have ha : IsGreatestOf above [a] a :=
    ⟨List.mem_singleton_self a, fun c hc => .inl (List.mem_singleton.mp hc)⟩
  exact foldl_keep h rfl ha

/-- The scan ends with the greatest. -/
theorem greatest_eq_some (h : Ranked above l) {m : α} :
    greatest above l = some m ↔ IsGreatestOf above l m := by
  by_cases hne : l = []
  · subst hne
    exact ⟨by intros; contradiction, fun hm => absurd hm.1 List.not_mem_nil⟩
  · obtain ⟨m', hgreatest, hm'⟩ := exists_greatest h hne
    rw [hgreatest, Option.some.injEq]
    exact ⟨fun heq => heq ▸ hm', fun hm => hm'.unique h hm⟩

end Greatest

end OhosBun.Lib
