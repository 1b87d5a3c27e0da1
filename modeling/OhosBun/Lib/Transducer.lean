/-
# `OhosBun.Lib.Transducer` — machines that write while they read

A transducer reads its input item by item, writes some items for each, and may write more
when the input ends.  What it writes for one input behind another is written from the
state that the first one leaves (`run_append`), so an input may be cut anywhere.

An input is pending when nothing has been written for it (`Pending`): a reader that keeps
the pending items themselves, and reads them again, writes the same.
-/
import Mathlib.Data.List.Basic

namespace OhosBun.Lib

structure Transducer (σ α β : Type*) where
  start : σ
  step : σ → α → List β × σ
  finish : σ → List β

namespace Transducer
variable {σ α β : Type*} (m : Transducer σ α β)

/-- What is written for an input, and the state behind it. -/
def run : σ → List α → List β × σ
  | s, [] => ([], s)
  | s, a :: as => ((m.step s a).1 ++ (run (m.step s a).2 as).1, (run (m.step s a).2 as).2)

/-- A piece of the input; behind the last piece the input ends. -/
def read (last : Bool) (s : σ) (as : List α) : List β × σ :=
  if last then ((m.run s as).1 ++ m.finish (m.run s as).2, m.start) else m.run s as

/-- All that is written for an input. -/
def translate (as : List α) : List β := (m.read true m.start as).1

@[simp] theorem run_nil (s : σ) : m.run s [] = ([], s) := rfl

theorem run_cons (s : σ) (a : α) (as : List α) : m.run s (a :: as) =
    ((m.step s a).1 ++ (m.run (m.step s a).2 as).1, (m.run (m.step s a).2 as).2) := rfl

theorem run_append (s : σ) (xs ys : List α) : m.run s (xs ++ ys) =
    ((m.run s xs).1 ++ (m.run (m.run s xs).2 ys).1, (m.run (m.run s xs).2 ys).2) := by
  induction xs generalizing s with
  | nil => rfl
  | cons x xs ih => rw [List.cons_append, run_cons, ih, run_cons, List.append_assoc]

@[simp] theorem read_false (s : σ) (as : List α) : m.read false s as = m.run s as := rfl

@[simp] theorem read_true (s : σ) (as : List α) :
    m.read true s as = ((m.run s as).1 ++ m.finish (m.run s as).2, m.start) := rfl

theorem read_eq (last : Bool) (s : σ) (as : List α) : m.read last s as =
    (if last then (m.run s as).1 ++ m.finish (m.run s as).2 else (m.run s as).1,
      if last then m.start else (m.run s as).2) := by
  cases last <;> rfl

/-- What holds of all that is written at a step and at the end. -/
theorem forall_mem_read {P : β → Prop} (hstep : ∀ s a, ∀ b ∈ (m.step s a).1, P b)
    (hfinish : ∀ s, ∀ b ∈ m.finish s, P b) (last : Bool) (s : σ) (as : List α) :
    ∀ b ∈ (m.read last s as).1, P b := by
  have hrun : ∀ as s, ∀ b ∈ (m.run s as).1, P b := by
    intro as
    induction as with
    | nil => exact fun _ _ hb => absurd hb List.not_mem_nil
    | cons a as ih =>
      intro s b hb
      rw [run_cons] at hb
      exact (List.mem_append.mp hb).elim (hstep s a b) (ih _ b)
  intro b hb
  cases last with
  | false => exact hrun as s b hb
  | true => exact (List.mem_append.mp hb).elim (hrun as s b) (hfinish _ b)

theorem read_append (last : Bool) (s : σ) (xs ys : List α) : m.read last s (xs ++ ys) =
    ((m.run s xs).1 ++ (m.read last (m.run s xs).2 ys).1, (m.read last (m.run s xs).2 ys).2) := by
  cases last with
  | false => exact m.run_append s xs ys
  | true => rw [read_true, read_true, run_append, List.append_assoc]

/-- What is written for an input goes in front of what is written behind it. -/
theorem read_of_run {s t : σ} {xs ys : List α} {out : List β} (h : m.run s xs = (out, t))
    (last : Bool) : m.read last s (xs ++ ys) =
      (out ++ (m.read last t ys).1, (m.read last t ys).2) := by
  rw [read_append, h]

/-- The start of an input for which nothing has been written. -/
def Pending (p : List α) : Prop := (m.run m.start p).1 = []

end Transducer

end OhosBun.Lib
