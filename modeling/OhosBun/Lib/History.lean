/-
# `OhosBun.Lib.History` — what happened, in order

A history is a list of events, the last one last.  What is asked of each event when it happens is
asked of the history before it (`Always`); to add an event is to ask it of that one
(`always_concat`).  The other functions read a history: a sum over its events (`total`), and the
latest value that an event sets (`latest`).
-/
import Mathlib.Algebra.Order.BigOperators.Group.List
import Mathlib.Algebra.Order.Ring.Nat
import Mathlib.Data.List.Induction

namespace OhosBun.Lib.History

variable {α β : Type*}

/-- Each event, when it happened, was one that may follow what there was. -/
def Always (P : List α → α → Prop) (history : List α) : Prop :=
  ∀ before event after, history = before ++ event :: after → P before event

section Always
variable {P Q : List α → α → Prop} {history : List α}

theorem always_nil : Always P [] := fun before _ _ h =>
  absurd h.symm (List.append_ne_nil_of_right_ne_nil before (List.cons_ne_nil _ _))

theorem always_concat {event : α} :
    Always P (history ++ [event]) ↔ Always P history ∧ P history event := by
  constructor
  · intro h
    refine ⟨fun before event' after heq => h before event' (after ++ [event]) ?_, h history event [] rfl⟩
    rw [heq, List.append_assoc, List.cons_append]
  · rintro ⟨hhistory, hevent⟩ before event' after heq
    rcases List.eq_nil_or_concat' after with rfl | ⟨after, last, rfl⟩
    · obtain ⟨rfl, hlast⟩ := List.append_inj' heq rfl
      obtain rfl := (List.cons.inj hlast).1
      exact hevent
    · rw [← List.cons_append, ← List.append_assoc] at heq
      exact hhistory before event' after (List.append_inj' heq rfl).1

theorem always_append {events : List α} :
    Always P (history ++ events) ↔
      Always P history ∧ Always (fun before event => P (history ++ before) event) events := by
  induction events using List.reverseRecOn with
  | nil => rw [List.append_nil]; exact ⟨fun h => ⟨h, always_nil⟩, And.left⟩
  | append_singleton events event ih =>
    rw [← List.append_assoc, always_concat, ih, always_concat, and_assoc]

end Always

/-! ## Sums, and what is set -/

def total (f : α → Nat) (history : List α) : Nat := (history.map f).sum

@[simp] theorem total_nil (f : α → Nat) : total f [] = 0 := rfl

@[simp] theorem total_append (f : α → Nat) (history events : List α) :
    total f (history ++ events) = total f history + total f events := by
  rw [total, List.map_append, List.sum_append]
  rfl

@[simp] theorem total_singleton (f : α → Nat) (event : α) : total f [event] = f event := by
  rw [total, List.map_singleton, List.sum_singleton]

theorem total_eq_zero {f : α → Nat} {history : List α} (h : ∀ event ∈ history, f event = 0) :
    total f history = 0 := by
  refine List.sum_eq_zero fun n hn => ?_
  obtain ⟨event, hmem, rfl⟩ := List.mem_map.mp hn
  exact h event hmem

/-- The latest value that was set, or the one at first. -/
def latest (set : α → Option β) (first : β) (history : List α) : β :=
  history.foldl (fun b event => (set event).getD b) first

@[simp] theorem latest_nil (set : α → Option β) (first : β) : latest set first [] = first := rfl

@[simp] theorem latest_concat (set : α → Option β) (first : β) (history : List α) (event : α) :
    latest set first (history ++ [event]) = (set event).getD (latest set first history) := by
  rw [latest, List.foldl_concat]
  rfl

theorem latest_append_of_none {set : α → Option β} {first : β} {history events : List α}
    (h : ∀ event ∈ events, set event = none) :
    latest set first (history ++ events) = latest set first history := by
  induction events using List.reverseRecOn with
  | nil => rw [List.append_nil]
  | append_singleton events event ih =>
    rw [← List.append_assoc, latest_concat, h event (List.mem_append_right _ List.mem_cons_self)]
    exact ih fun event' hmem => h event' (List.mem_append_left _ hmem)

end OhosBun.Lib.History
