/-
# `OhosBun.Lib.Scan` — a loop over what remains of an input

`while !remain.is_empty() { .. }`, where a turn may fail and otherwise leaves a
state and less input.  The length of the input is enough turns (`scan_cons`), and
two loops over one input are compared turn by turn (`scan_lockstep`).
-/
import Mathlib.Data.List.Basic

namespace OhosBun.Lib

section Scan
variable {α σ τ ε δ : Type}

/-- The loop, with a bound on its turns. -/
@[grind] def scanFuel (turn : σ → List α → Except ε (σ × List α)) :
    (fuel : Nat) → σ → List α → Except ε σ
  | _, s, [] => .ok s
  | 0, s, _ :: _ => .ok s
  | fuel + 1, s, a :: remain => do
    let (s, remain) ← turn s (a :: remain)
    scanFuel turn fuel s remain

def scan (turn : σ → List α → Except ε (σ × List α)) (s : σ) (remain : List α) : Except ε σ :=
  scanFuel turn remain.length s remain

/-- A turn leaves less input than it finds. -/
def Shortens (turn : σ → List α → Except ε (σ × List α)) : Prop :=
  ∀ (s : σ) (remain : List α) (s' : σ) (remain' : List α), remain ≠ [] →
    turn s remain = .ok (s', remain') → remain'.length < remain.length

variable {turn : σ → List α → Except ε (σ × List α)}

/-- The bound does not show. -/
theorem scanFuel_congr (h : Shortens turn) : ∀ (n m : Nat) (s : σ) (remain : List α),
    remain.length ≤ n → remain.length ≤ m → scanFuel turn n s remain = scanFuel turn m s remain := by
  intro n
  induction n with
  | zero =>
    intro m s remain hn _
    obtain rfl := List.eq_nil_of_length_eq_zero (Nat.le_zero.mp hn)
    cases m <;> rfl
  | succ n ih =>
    intro m s remain hn hm
    cases remain with
    | nil => cases m <;> rfl
    | cons a remain =>
      obtain ⟨m, rfl⟩ : ∃ k, m = k + 1 :=
        ⟨m - 1, by rw [List.length_cons] at hm; omega⟩
      rw [scanFuel, scanFuel]
      cases hturn : turn s (a :: remain) with
      | error e => rfl
      | ok r =>
        have hlt := h _ _ _ _ (List.cons_ne_nil _ _) hturn
        exact ih m r.1 r.2 (by omega) (by omega)

@[simp] theorem scan_nil (s : σ) : scan turn s [] = .ok s := rfl

/-- One turn, then the rest. -/
theorem scan_cons (h : Shortens turn) (s : σ) {remain : List α} (hne : remain ≠ []) :
    scan turn s remain = (turn s remain >>= fun r => scan turn r.1 r.2) := by
  obtain ⟨a, remain, rfl⟩ := List.exists_cons_of_ne_nil hne
  rw [scan, List.length_cons, scanFuel]
  cases hturn : turn s (a :: remain) with
  | error e => rfl
  | ok r =>
    have hlt := h _ _ _ _ (List.cons_ne_nil _ _) hturn
    rw [List.length_cons] at hlt
    exact scanFuel_congr h _ _ _ _ (by omega) (Nat.le_refl _)

theorem scan_turn (h : Shortens turn) {s s' : σ} {remain rest : List α} (hne : remain ≠ [])
    (hturn : turn s remain = .ok (s', rest)) : scan turn s remain = scan turn s' rest := by
  rw [scan_cons h s hne, hturn]
  rfl

/-- One block again and again, each taken by one turn. -/
theorem scan_replicate (h : Shortens turn) (block : List α) (hne : block ≠ []) {f : Nat → σ}
    (hturn : ∀ i rest, turn (f i) (block ++ rest) = .ok (f (i + 1), rest)) (n : Nat)
    (rest : List α) : ∀ i,
      scan turn (f i) ((List.replicate n block).flatten ++ rest) = scan turn (f (i + n)) rest := by
  induction n with
  | zero => exact fun i => rfl
  | succ n ih =>
    intro i
    rw [List.replicate_succ, List.flatten_cons, List.append_assoc,
      scan_turn h (List.append_ne_nil_of_left_ne_nil hne _) (hturn i _), ih, Nat.add_assoc,
      Nat.add_comm 1]

/-- Two loops that leave the same input at every turn. -/
theorem scan_lockstep {other : τ → List α → Except δ (τ × List α)} (R : σ → τ → Prop)
    {s s' : σ} {t t' : τ} {remain : List α} (h : R s t) (hs : scan turn s remain = .ok s')
    (ht : scan other t remain = .ok t')
    (hstep : ∀ {s t remain s' t' r r'}, remain ≠ [] → R s t → turn s remain = .ok (s', r) →
      other t remain = .ok (t', r') → r = r' ∧ R s' t') : R s' t' := by
  suffices key : ∀ (n : Nat) {s : σ} {t : τ} {remain : List α}, R s t →
      scanFuel turn n s remain = .ok s' → scanFuel other n t remain = .ok t' → R s' t' from
    key _ h hs ht
  intro n
  induction n with
  | zero =>
    intro s t remain h hs ht
    cases remain <;>
    · obtain rfl := Except.ok.inj hs
      obtain rfl := Except.ok.inj ht
      exact h
  | succ n ih =>
    intro s t remain h hs ht
    cases remain with
    | nil =>
      obtain rfl := Except.ok.inj hs
      obtain rfl := Except.ok.inj ht
      exact h
    | cons a remain =>
      rw [scanFuel] at hs ht
      cases hturn : turn s (a :: remain) with
      | error e => rw [hturn] at hs; exact absurd hs (by rintro ⟨⟩)
      | ok r =>
        cases hother : other t (a :: remain) with
        | error e => rw [hother] at ht; exact absurd ht (by rintro ⟨⟩)
        | ok r' =>
          obtain ⟨heq, hR⟩ := hstep (List.cons_ne_nil _ _) h hturn hother
          rw [hturn] at hs
          rw [hother] at ht
          refine ih hR hs ?_
          rw [heq]
          exact ht

end Scan

end OhosBun.Lib
