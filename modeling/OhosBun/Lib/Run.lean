/-
# `OhosBun.Lib.Run` — a loop with a measure

A loop is a step repeated; it is done in a state that its step leaves as it is.
While an invariant holds and a measure falls with every step, the measure of the
first state is enough turns.

A system takes the steps it is told to.  What a guarded step keeps between a state and
what is noted of the run is kept by a guarded run (`foldl_of_along`).
-/
import Mathlib.Logic.Function.Iterate
import Mathlib.Order.Nat

namespace OhosBun.Lib

section Run
variable {σ : Type*} (step : σ → σ) (Inv Done : σ → Prop) (measure : σ → Nat)

/-- The loop is done after as many turns as the measure says. -/
theorem done_iterate (hdone : ∀ s, Done s → step s = s)
    (hstep : ∀ s, Inv s → ¬ Done s → Inv (step s) ∧ measure (step s) < measure s) :
    ∀ (n : Nat) {s : σ}, Inv s → measure s ≤ n → Inv (step^[n] s) ∧ Done (step^[n] s) := by
  intro n
  induction n with
  | zero =>
    intro s hs hn
    by_cases h : Done s
    · exact ⟨hs, h⟩
    · exact absurd (hstep s hs h).2 (Nat.not_lt.mpr (hn.trans (Nat.zero_le _)))
  | succ n ih =>
    intro s hs hn
    by_cases h : Done s
    · rw [Function.iterate_fixed (hdone s h)]
      exact ⟨hs, h⟩
    · obtain ⟨hs', hlt⟩ := hstep s hs h
      rw [Function.iterate_succ_apply]
      exact ih hs' (Nat.lt_succ_iff.mp (hlt.trans_le hn))

/-- A loop that takes the same steps until this one is done reaches its last state. -/
theorem exists_iterate_eq (step' : σ → σ) (hdone : ∀ s, Done s → step s = s)
    (hstep : ∀ s, Inv s → ¬ Done s → Inv (step s) ∧ step' s = step s) :
    ∀ (n : Nat) {s : σ}, Inv s → ∃ m, step'^[m] s = step^[n] s := by
  intro n
  induction n with
  | zero => exact fun _ => ⟨0, rfl⟩
  | succ n ih =>
    intro s hs
    by_cases h : Done s
    · exact ⟨0, (Function.iterate_fixed (hdone s h) _).symm⟩
    · obtain ⟨hs', heq⟩ := hstep s hs h
      obtain ⟨m, hm⟩ := ih hs'
      refine ⟨m + 1, ?_⟩
      rw [Function.iterate_succ_apply, Function.iterate_succ_apply, heq]
      exact hm

end Run

section Along
variable {σ ι α : Type*} (step : σ → ι → σ) (guard : σ → ι → Prop)

/-- Every step of a run is taken where it may be. -/
def Along : σ → List ι → Prop
  | _, [] => True
  | s, op :: ops => guard s op ∧ Along (step s op) ops

instance Along.decidable [h : ∀ s op, Decidable (guard s op)] :
    ∀ s ops, Decidable (Along step guard s ops)
  | _, [] => .isTrue trivial
  | s, op :: ops =>
    have := Along.decidable (step s op) ops
    inferInstanceAs (Decidable (guard s op ∧ Along step guard (step s op) ops))

variable {step guard} {R : σ → α → Prop} {note : α → ι → α}

theorem foldl_of_along (hstep : ∀ s a op, R s a → guard s op → R (step s op) (note a op)) :
    ∀ (ops : List ι) {s : σ} {a : α}, R s a → Along step guard s ops →
      R (ops.foldl step s) (ops.foldl note a) := by
  intro ops
  induction ops with
  | nil => exact fun hR _ => hR
  | cons op ops ih => exact fun hR hguard => ih (hstep _ _ op hR hguard.1) hguard.2

end Along

end OhosBun.Lib
