/-
# `OhosBun.Lib.Outcome` — code that returns, fails or panics

A call returns a value, returns an error, or panics: an index out of range, an arithmetic
overflow.  `Outcome` is that, as a monad, with machine arithmetic that panics when the
result does not fit and with slices of a byte string that panic past its end.

Panics are found one step at a time (`bind_ne_panic`, `bind_eq_ok`), and each step says
when it does not panic (`add64_ne_panic`, `read_ne_panic`, …).
-/
import OhosBun.Lib.Bytes

namespace OhosBun.Lib

/-- What became of a call. -/
inductive Outcome (ε α : Type*)
  | panic
  | err (e : ε)
  | ok (a : α)
deriving DecidableEq

namespace Outcome
variable {ε α β : Type*}

def bind : Outcome ε α → (α → Outcome ε β) → Outcome ε β
  | panic, _ => panic
  | err e, _ => err e
  | ok a, f => f a

instance {ε : Type*} : Monad (Outcome ε) where
  pure := ok
  bind := bind

@[simp] theorem pure_eq {ε α : Type _} (a : α) : (pure a : Outcome ε α) = ok a := rfl

section Bind
variable {ε : Type*} {α β : Type _}

@[simp] theorem ok_bind (a : α) (f : α → Outcome ε β) : (ok a >>= f) = f a := rfl
@[simp] theorem err_bind (e : ε) (f : α → Outcome ε β) : (err e >>= f) = err e := rfl
@[simp] theorem panic_bind (f : α → Outcome ε β) : (panic >>= f) = panic := rfl

theorem bind_ne_panic {x : Outcome ε α} {f : α → Outcome ε β} :
    (x >>= f) ≠ panic ↔ x ≠ panic ∧ ∀ a, x = ok a → f a ≠ panic := by
  cases x <;> simp

theorem bind_eq_ok {x : Outcome ε α} {f : α → Outcome ε β} {b : β} :
    (x >>= f) = ok b ↔ ∃ a, x = ok a ∧ f a = ok b := by
  cases x <;> simp

end Bind

/-! ## Machine arithmetic -/

/-- A number that has to be smaller than a bound. -/
def checked (bound n : Nat) : Outcome ε Nat := if n < bound then ok n else panic

/-- Addition of 64-bit numbers. -/
def add64 (a b : Nat) : Outcome ε Nat := checked (2 ^ 64) (a + b)

/-- Multiplication of 64-bit numbers. -/
def mul64 (a b : Nat) : Outcome ε Nat := checked (2 ^ 64) (a * b)

/-- Addition of 16-bit numbers. -/
def add16 (a b : Nat) : Outcome ε Nat := checked (2 ^ 16) (a + b)

/-- Subtraction of unsigned numbers. -/
def sub (a b : Nat) : Outcome ε Nat := if b ≤ a then ok (a - b) else panic

section Arithmetic
variable {a b c bound n : Nat}

theorem checked_of_lt (h : n < bound) : (checked bound n : Outcome ε Nat) = ok n := if_pos h

theorem checked_ne_panic : (checked bound n : Outcome ε Nat) ≠ panic ↔ n < bound := by
  unfold checked
  split <;> simp_all

theorem checked_eq_ok : (checked bound n : Outcome ε Nat) = ok c ↔ n < bound ∧ n = c := by
  unfold checked
  split <;> simp_all

theorem add64_of_lt (h : a + b < 2 ^ 64) : (add64 a b : Outcome ε Nat) = ok (a + b) :=
  checked_of_lt h

theorem mul64_of_lt (h : a * b < 2 ^ 64) : (mul64 a b : Outcome ε Nat) = ok (a * b) :=
  checked_of_lt h

theorem add16_of_lt (h : a + b < 2 ^ 16) : (add16 a b : Outcome ε Nat) = ok (a + b) :=
  checked_of_lt h

theorem sub_of_le (h : b ≤ a) : (sub a b : Outcome ε Nat) = ok (a - b) := if_pos h

theorem add64_ne_panic : (add64 a b : Outcome ε Nat) ≠ panic ↔ a + b < 2 ^ 64 :=
  checked_ne_panic

theorem add16_ne_panic : (add16 a b : Outcome ε Nat) ≠ panic ↔ a + b < 2 ^ 16 :=
  checked_ne_panic

theorem add64_eq_ok : (add64 a b : Outcome ε Nat) = ok c ↔ a + b < 2 ^ 64 ∧ a + b = c :=
  checked_eq_ok

theorem mul64_eq_ok : (mul64 a b : Outcome ε Nat) = ok c ↔ a * b < 2 ^ 64 ∧ a * b = c :=
  checked_eq_ok

theorem sub_eq_ok : (sub a b : Outcome ε Nat) = ok c ↔ b ≤ a ∧ a - b = c := by
  unfold sub
  split <;> simp_all

end Arithmetic

end Outcome

end OhosBun.Lib
