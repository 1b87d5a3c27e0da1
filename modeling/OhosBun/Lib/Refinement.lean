/-
# `OhosBun.Lib.Refinement` — runs of an object against its specification

An object answers operations, one after the other; an operation that does not return
is `none`.  A specification relates a value, an operation, a reply and the next value.

Where every step of the object is one of the specification, every run is one too
(`exists_run`).  The steps may be guarded: `Guarded` asks a condition of each state
of a run and the operation that is applied to it.
-/
import Mathlib.Logic.Basic

namespace OhosBun.Lib

section Runs
variable {σ ι ρ : Type*}

/-- The state after a list of operations, and their replies. -/
def run (step : σ → ι → Option (σ × ρ)) : σ → List ι → Option (σ × List ρ)
  | s, [] => some (s, [])
  | s, op :: ops => do
    let (s, reply) ← step s op
    let (s, replies) ← run step s ops
    some (s, reply :: replies)

/-- Each operation of a run meets a condition on the state before it. -/
def Guarded (step : σ → ι → Option (σ × ρ)) (guard : σ → ι → Prop) : σ → List ι → Prop
  | _, [] => True
  | s, op :: ops => guard s op ∧
      match step s op with
      | some (s, _) => Guarded step guard s ops
      | none => True

instance Guarded.decidable (step : σ → ι → Option (σ × ρ)) (guard : σ → ι → Prop)
    [h : ∀ s op, Decidable (guard s op)] : ∀ s ops, Decidable (Guarded step guard s ops)
  | _, [] => .isTrue trivial
  | s, op :: ops =>
    match hstep : step s op with
    | some (s', _) =>
      have := Guarded.decidable step guard s' ops
      decidable_of_iff (guard s op ∧ Guarded step guard s' ops) (by rw [Guarded, hstep])
    | none => decidable_of_iff (guard s op) (by rw [Guarded, hstep, and_true])

/-- The values of a specification along a list of operations and their replies. -/
inductive Follows {α : Type*} (spec : α → ι → ρ → α → Prop) : α → List ι → List ρ → α → Prop
  | nil (a : α) : Follows spec a [] [] a
  | cons {a b c : α} {op : ι} {reply : ρ} {ops : List ι} {replies : List ρ}
      (hstep : spec a op reply b) (hrest : Follows spec b ops replies c) :
      Follows spec a (op :: ops) (reply :: replies) c

variable {α : Type*} {step : σ → ι → Option (σ × ρ)} {guard : σ → ι → Prop}
  {spec : α → ι → ρ → α → Prop}

variable {a b : α} {ops : List ι} {replies : List ρ} {R : σ → α → Prop} {s : σ} {P : ι → Prop}

/-- What the specification says of each reply holds of all of them. -/
theorem Follows.forall_reply {P : ρ → Prop} (h : Follows spec a ops replies b)
    (hspec : ∀ a op reply b, spec a op reply b → P reply) :
    ∀ reply ∈ replies, P reply := by
  induction h with
  | nil => exact fun _ hmem => absurd hmem List.not_mem_nil
  | cons hstep _ ih =>
    intro reply hmem
    rcases List.mem_cons.mp hmem with rfl | hmem
    · exact hspec _ _ _ _ hstep
    · exact ih reply hmem

/-- A guarded run of the object returns, and is one of the specification; what relates the
two may depend on how many operations are left. -/
theorem exists_run_within {R : Nat → σ → α → Prop}
    (hstep : ∀ n s a op, R (n + 1) s a → guard s op →
      ∃ s' reply b, step s op = some (s', reply) ∧ spec a op reply b ∧ R n s' b) :
    ∀ (ops : List ι) {s : σ} {a : α}, R ops.length s a → Guarded step guard s ops →
      ∃ s' replies b, run step s ops = some (s', replies) ∧ Follows spec a ops replies b ∧
        R 0 s' b := by
  intro ops
  induction ops with
  | nil => exact fun {s a} hR _ => ⟨s, [], a, rfl, .nil a, hR⟩
  | cons op ops ih =>
    intro s a hR hguard
    obtain ⟨hop, hops⟩ := hguard
    obtain ⟨s₁, reply, b, hs₁, hb, hR₁⟩ := hstep ops.length s a op hR hop
    rw [hs₁] at hops
    obtain ⟨s₂, replies, c, hs₂, hc, hR₂⟩ := ih hR₁ hops
    refine ⟨s₂, reply :: replies, c, ?_, .cons hb hc, hR₂⟩
    rw [run, hs₁]
    simp only [Option.bind_eq_bind, Option.bind_some, hs₂]

/-- A guarded run of the object returns, and is one of the specification. -/
theorem exists_run (hstep : ∀ s a op, R s a → guard s op →
      ∃ s' reply b, step s op = some (s', reply) ∧ spec a op reply b ∧ R s' b) (ops : List ι) (hR : R s a)
    (hguard : Guarded step guard s ops) :
    ∃ s' replies b, run step s ops = some (s', replies) ∧ Follows spec a ops replies b ∧ R s' b :=
  exists_run_within (R := fun _ => R) (fun _ => hstep) ops hR hguard

/-- What is noted of each operation, in the state it comes in, one after the other. -/
def observe (step : σ → ι → Option (σ × ρ)) (note : σ → ι → α → α) : σ → List ι → α → α
  | _, [], a => a
  | s, op :: ops, a =>
    match step s op with
    | some (s', _) => observe step note s' ops (note s op a)
    | none => note s op a

/-- A guarded run of an object returns, and keeps what every step keeps, of what was noted too. -/
theorem exists_run_observed (note : σ → ι → α → α) {I : σ → α → Prop}
    (hstep : ∀ s op a, I s a → guard s op →
      ∃ s' reply, step s op = some (s', reply) ∧ I s' (note s op a)) (ops : List ι) (hI : I s a)
    (hguard : Guarded step guard s ops) :
    ∃ s' replies, run step s ops = some (s', replies) ∧ I s' (observe step note s ops a) := by
  induction ops generalizing s a with
  | nil => exact ⟨s, [], rfl, hI⟩
  | cons op ops ih =>
    obtain ⟨hop, hops⟩ := hguard
    obtain ⟨s₁, reply, hs₁, hI₁⟩ := hstep s op a hI hop
    rw [hs₁] at hops
    obtain ⟨s₂, replies, hs₂, hI₂⟩ := ih hI₁ hops
    refine ⟨s₂, reply :: replies, ?_, ?_⟩
    · rw [run, hs₁]
      simp only [Option.bind_eq_bind, Option.bind_some, hs₂]
    · rw [observe, hs₁]
      exact hI₂

/-- A guarded run of an object returns, and keeps what every step keeps. -/
theorem exists_run_of_invariant {I : σ → Prop}
    (hstep : ∀ s op, I s → guard s op → ∃ s' reply, step s op = some (s', reply) ∧ I s') (ops : List ι)
    (hI : I s) (hguard : Guarded step guard s ops) :
    ∃ s' replies, run step s ops = some (s', replies) ∧ I s' :=
  exists_run_observed (fun _ _ => id) (a := ()) (I := fun s _ => I s) (fun s op _ => hstep s op) ops
    hI hguard

/-- A condition on the operations alone. -/
theorem Guarded.and_forall (h : Guarded step guard s ops) (hP : ∀ op ∈ ops, P op) :
    Guarded step (fun s op => guard s op ∧ P op) s ops := by
  induction ops generalizing s with
  | nil => exact trivial
  | cons op ops ih =>
    refine ⟨⟨h.1, hP op List.mem_cons_self⟩, ?_⟩
    have hrest := h.2
    split at hrest
    · exact ih hrest fun op' hop' => hP op' (List.mem_cons_of_mem _ hop')
    · exact trivial

theorem Guarded.mono {guard' : σ → ι → Prop} (h : Guarded step guard s ops)
    (himp : ∀ s op, guard s op → guard' s op) : Guarded step guard' s ops := by
  induction ops generalizing s with
  | nil => exact trivial
  | cons op ops ih =>
    refine ⟨himp s op h.1, ?_⟩
    have hrest := h.2
    split at hrest
    · exact ih hrest
    · exact trivial

/-- What is true of each operation whose step is one of the specification is true of all of a run
that is one. -/
theorem forall_of_follows
    (hstep : ∀ s a op s' reply b, R s a → guard s op → step s op = some (s', reply) →
      spec a op reply b → P op ∧ R s' b) {s' : σ} (hR : R s a) (hguard : Guarded step guard s ops)
    (hrun : run step s ops = some (s', replies)) (hfollows : Follows spec a ops replies b) :
    ∀ op ∈ ops, P op := by
  induction hfollows generalizing s with
  | nil => exact fun _ hmem => absurd hmem List.not_mem_nil
  | @cons a b c op reply ops replies hspec hrest ih =>
    rw [run] at hrun
    obtain ⟨⟨s₁, reply₁⟩, hs₁, hrun⟩ := Option.bind_eq_some_iff.mp hrun
    obtain ⟨⟨s₂, replies₂⟩, hs₂, hsome⟩ := Option.bind_eq_some_iff.mp hrun
    obtain ⟨rfl, hreplies⟩ := Prod.mk.inj (Option.some.inj hsome)
    obtain ⟨rfl, rfl⟩ := List.cons.inj hreplies
    have hguard' := hguard.2
    rw [hs₁] at hguard'
    obtain ⟨hop, hR'⟩ := hstep s a op s₁ _ b hR hguard.1 hs₁ hspec
    intro op' hmem
    rcases List.mem_cons.mp hmem with rfl | hmem
    · exact hop
    · exact ih hR' hguard' hs₂ op' hmem

end Runs

end OhosBun.Lib
