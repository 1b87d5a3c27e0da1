/-
# `OhosBun.Lib.Scope` — lookup along parent links

Nodes are numbers, each with at most one parent and at most one thing here.  A
lookup climbs until something is here: the shape of a module path, a scope
chain, a directory walk.

    climb     the lookup, with fuel
    Finds     from `i`, the first node with something here is `j`
    Passes    from `i` up to and including `j`, nothing is here

A node that starts to hold something is found by exactly the lookups that passed
it (`Passes.finds`), and every other lookup stays as it was (`Finds.update`).
-/
import Mathlib.Order.Nat

namespace OhosBun.Lib

section Scope
variable {α : Type*}

/-- The lookup: climb from a node until something is here. -/
def climb (parent : Nat → Option Nat) (here : Nat → Option α) : (fuel : Nat) → Nat → Option (Nat × α)
  | 0, _ => none
  | fuel + 1, i =>
    match here i with
    | some a => some (i, a)
    | none =>
      match parent i with
      | some p => climb parent here fuel p
      | none => none

inductive Finds (parent : Nat → Option Nat) (here : Nat → Option α) : Nat → Nat → α → Prop where
  | here {i : Nat} {a : α} : here i = some a → Finds parent here i i a
  | up {i p j : Nat} {a : α} : here i = none → parent i = some p → Finds parent here p j a →
      Finds parent here i j a

inductive Passes (parent : Nat → Option Nat) (here : Nat → Option α) : Nat → Nat → Prop where
  | here {i : Nat} : here i = none → Passes parent here i i
  | up {i p j : Nat} : here i = none → parent i = some p → Passes parent here p j →
      Passes parent here i j

variable {parent parent' : Nat → Option Nat} {here here' : Nat → Option α}

variable {i j x : Nat} {a : α} {stop : Option Nat}

theorem Finds.here_eq (h : Finds parent here i j a) : here j = some a := by
  induction h with
  | here h => exact h
  | up _ _ _ ih => exact ih

theorem Passes.here_eq (h : Passes parent here i j) : here j = none := by
  induction h with
  | here h => exact h
  | up _ _ _ ih => exact ih

/-- A lookup is decided by the nodes up to its start, when parents are smaller. -/
theorem Finds.congr (hparent : ∀ i p, parent i = some p → p < i) (h : Finds parent here i j a)
    (hp : ∀ k ≤ i, parent' k = parent k) (hh : ∀ k ≤ i, here' k = here k) :
    Finds parent' here' i j a := by
  induction h with
  | here h => exact .here ((hh _ le_rfl).trans h)
  | up hn hpar _ ih =>
    have hlt := hparent _ _ hpar
    refine .up ((hh _ le_rfl).trans hn) ((hp _ le_rfl).trans hpar) (ih ?_ ?_)
    · exact fun k hk => hp k (hk.trans hlt.le)
    · exact fun k hk => hh k (hk.trans hlt.le)

/-- Something is found, or the climb passes a node without parent. -/
theorem finds_or_passes (hparent : ∀ i p, parent i = some p → p < i) (i : Nat) :
    (∃ j a, Finds parent here i j a) ∨ ∃ top, Passes parent here i top ∧ parent top = none := by
  induction i using Nat.strong_induction_on with
  | _ i ih =>
    cases hi : here i with
    | some a => exact .inl ⟨i, a, .here hi⟩
    | none =>
      cases hp : parent i with
      | none => exact .inr ⟨i, .here hi, hp⟩
      | some p =>
        rcases ih p (hparent i p hp) with ⟨j, a, h⟩ | ⟨top, h, htop⟩
        · exact .inl ⟨j, a, .up hi hp h⟩
        · exact .inr ⟨top, .up hi hp h, htop⟩

theorem Finds.le (hparent : ∀ i p, parent i = some p → p < i) (h : Finds parent here i j a) : j ≤ i := by
  induction h with
  | here _ => exact le_rfl
  | up _ hp _ ih => exact ih.trans (hparent _ _ hp).le

theorem Passes.le (hparent : ∀ i p, parent i = some p → p < i) (h : Passes parent here i j) : j ≤ i := by
  induction h with
  | here _ => exact le_rfl
  | up _ hp _ ih => exact ih.trans (hparent _ _ hp).le

/-- What is found beyond a passed node is found from its parent. -/
theorem Passes.finds_beyond (h : Passes parent here i x) (hf : Finds parent here i j a) :
    ∃ p, parent x = some p ∧ Finds parent here p j a := by
  induction h with
  | here hn =>
    cases hf with
    | here h' => exact absurd (hn.symm.trans h') (by simp)
    | up _ hp hf => exact ⟨_, hp, hf⟩
  | up hn hp _ ih =>
    cases hf with
    | here h' => exact absurd (hn.symm.trans h') (by simp)
    | up _ hp' hf =>
      obtain rfl := Option.some.inj (hp.symm.trans hp')
      exact ih hf

/-! ## A node that starts to hold something -/

/-- Who passed the node now finds it there. -/
theorem Passes.finds {v : α} (h : Passes parent here i x) (hx : here' x = some v)
    (hother : ∀ k, k ≠ x → here' k = here k) : Finds parent here' i x v := by
  induction h with
  | here _ => exact .here hx
  | @up i p j hn hp _ ih =>
    rcases eq_or_ne i j with rfl | hne
    · exact .here hx
    · exact .up ((hother i hne).trans hn) hp (ih hx hother)

/-- Who did not pass it finds what it found before. -/
theorem Finds.update (h : Finds parent here i j a) (hx : here x = none)
    (hother : ∀ k, k ≠ x → here' k = here k) :
    Passes parent here i x ∨ Finds parent here' i j a := by
  induction h with
  | @here i a h =>
    refine .inr (.here ((hother i ?_).trans h))
    rintro rfl
    exact absurd (hx.symm.trans h) (by simp)
  | @up i p j a hn hp _ ih =>
    rcases eq_or_ne i x with rfl | hne
    · exact .inl (.here hx)
    · rcases ih with h | h
      · exact .inl (.up hn hp h)
      · exact .inr (.up ((hother i hne).trans hn) hp h)

/-! ## A climb that stops early -/

/-- The parent links, cut at `stop`. -/
def cutAt (parent : Nat → Option Nat) (stop : Option Nat) (i : Nat) : Option Nat :=
  if some i = stop then none else parent i

theorem cutAt_eq_some {p : Nat} (h : cutAt parent stop i = some p) :
    parent i = some p := by
  unfold cutAt at h
  split at h
  · exact absurd h (by simp)
  · exact h

theorem Finds.of_cutAt (h : Finds (cutAt parent stop) here i j a) : Finds parent here i j a := by
  induction h with
  | here h => exact .here h
  | up hn hp _ ih => exact .up hn (cutAt_eq_some hp) ih

theorem Passes.of_cutAt (h : Passes (cutAt parent stop) here i j) : Passes parent here i j := by
  induction h with
  | here h => exact .here h
  | up hn hp _ ih => exact .up hn (cutAt_eq_some hp) ih

/-- The lookup with enough fuel finds what there is to find. -/
theorem Finds.climb_eq (hparent : ∀ i p, parent i = some p → p < i) (h : Finds parent here i j a) :
    ∀ {fuel : Nat}, i < fuel →
      climb parent here fuel i = some (j, a) := by
  induction h with
  | here h =>
    intro fuel hf
    cases fuel with
    | zero => exact absurd hf (Nat.not_lt_zero _)
    | succ fuel => rw [climb, h]
  | @up i p j a hn hp _ ih =>
    intro fuel hf
    cases fuel with
    | zero => exact absurd hf (Nat.not_lt_zero _)
    | succ fuel =>
      have := hparent i p hp
      rw [climb, hn, hp]
      exact ih (by omega)

end Scope

end OhosBun.Lib
