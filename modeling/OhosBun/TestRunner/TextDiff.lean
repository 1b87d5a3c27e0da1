/-
# `OhosBun.TestRunner.TextDiff` — how far two texts overlap

`common_overlap` of the differ: the longest end of one text that the other begins with, up to
`OVERLAP_MAX` bytes.  For short texts every length is tried; for longer ones the failure
function of the second text is built, in a vector that is used again, and the first text is run
through the automaton.  `none` is an index out of bounds, or a loop that does not end.
-/
import OhosBun.Lib.Borders
import OhosBun.Lib.Bytes

namespace OhosBun.TestRunner

open OhosBun.Lib

def OVERLAP_MAX : Nat := 64 * 2 ^ 10

section Automaton
variable (y : Bytes) (fail : List Nat)

/-- `while k > 0 && c != y[k] { k = fail[k - 1] }` -/
def fallBack (c : UInt8) : (fuel : Nat) → (k : Nat) → Option Nat
  | _, 0 => some 0
  | 0, _ + 1 => none
  | fuel + 1, k + 1 => do
    if c ≠ (← y[k + 1]?) then fallBack c fuel (← fail[k]?) else return k + 1

/-- A byte is taken in. -/
def advance (c : UInt8) (k : Nat) : Option Nat := do
  let k ← fallBack y fail c y.length k
  if c = (← y[k]?) then return k + 1 else return k

/-- A turn of the loop that builds the failure function. -/
def buildTurn (s : List Nat × Nat) (i : Nat) : Option (List Nat × Nat) := do
  let k ← advance y s.1 (← y[i]?) s.2
  guard (i < s.1.length)
  return (s.1.set i k, k)

/-- A turn of the loop over the first text. -/
def runTurn (k : Nat) (c : UInt8) : Option Nat := do
  let k ← advance y fail c k
  if k = y.length then fail[k - 1]? else return k

end Automaton

/-- `(1..n).rev().find(..).unwrap_or(0)`, from `n` down. -/
def findDown (p : Nat → Bool) : (n : Nat) → Nat
  | 0 => 0
  | n + 1 => if p (n + 1) then n + 1 else findDown p n

/-- The overlap, and the vector as it is left. -/
def commonOverlap (x y : Bytes) (fail : List Nat) : Option (Nat × List Nat) := do
  let n := min (min x.length y.length) OVERLAP_MAX
  if n = 0 then return (0, fail)
  let x := x.drop (x.length - n)
  let y := y.take n
  if x = y then return (n, fail)
  if n ≤ 16 then return (findDown (fun k => x.drop (n - k) = y.take k) (n - 1), fail)
  let (fail, _) ← (List.range' 1 (n - 1)).foldlM (buildTurn y) (List.replicate n 0, 0)
  let k ← x.foldlM (runTurn y fail) 0
  return (k, fail)

/-! ## The automaton -/

/-- The failure function of the beginnings with up to `n` bytes. -/
structure FailsUpTo (y : Bytes) (fail : List Nat) (n : Nat) : Prop where
  length : fail.length = y.length
  longest : ∀ j < n, ∃ f, fail[j]? = some f ∧ Longest y (y.take (j + 1)) j f

section Automaton
variable {y w : Bytes} {fail : List Nat} {n b k : Nat} {c : UInt8}

/-- The beginnings that end `w` are gone through, from the longest, to one that `c` follows. -/
theorem fallBack_spec (hfail : FailsUpTo y fail n) (fuel : Nat) : ∀ {k : Nat}, k ≤ n →
    k < y.length → k ≤ fuel → y.take k <:+ w →
    ∃ k', fallBack y fail c fuel k = some k' ∧ k' ≤ k ∧ y.take k' <:+ w ∧
      (k' = 0 ∨ y[k']? = some c) ∧
      ∀ j ≤ k, y.take j <:+ w → y[j]? = some c → j ≤ k' := by
  induction fuel with
  | zero =>
    intro k hn hlt hfuel hends
    obtain rfl := Nat.le_zero.mp hfuel
    exact ⟨0, by rw [fallBack], le_rfl, hends, .inl rfl, fun j hj _ _ => hj⟩
  | succ fuel ih =>
    intro k hn hlt hfuel hends
    cases k with
    | zero => exact ⟨0, by rw [fallBack], le_rfl, hends, .inl rfl, fun j hj _ _ => hj⟩
    | succ k =>
      have hget := List.getElem?_eq_getElem hlt
      by_cases hc : c = y[k + 1]
      · refine ⟨k + 1, ?_, le_rfl, hends, .inr (by rw [hget, hc]), fun j hj _ _ => hj⟩
        rw [fallBack, hget]
        exact if_neg (not_not.mpr hc)
      · obtain ⟨f, hf, hlongest⟩ := hfail.longest k hn
        have hfk := hlongest.le
        obtain ⟨k', hrun, hle, hends', hstop, hmax⟩ := ih (k := f) (by omega) (by omega) (by omega)
          (hlongest.ends.trans hends)
        refine ⟨k', ?_, by omega, hends', hstop, fun j hj hj' hcj => ?_⟩
        · rw [fallBack, hget, hf]
          exact (if_pos hc).trans hrun
        · rcases Nat.lt_or_eq_of_le hj with hlt' | rfl
          · have hold := take_suffix_take hj' hends hj
            exact hmax j (hlongest.max j (Nat.le_of_lt_succ hlt') hold) hj' hcj
          · rw [hget] at hcj
            exact absurd (Option.some.inj hcj).symm hc

/-- One byte takes the longest beginning to the longest. -/
theorem advance_spec (hfail : FailsUpTo y fail n) (h : Longest y w b k) (hn : k ≤ n)
    (hb : b < y.length) : ∃ k', advance y fail c k = some k' ∧ Longest y (w ++ [c]) (b + 1) k' := by
  have hlt : k < y.length := h.le.trans_lt hb
  obtain ⟨k', hrun, hle, hends, hstop, hmax⟩ := fallBack_spec (c := c) hfail y.length hn hlt hlt.le h.ends
  refine ⟨_, ?_, h.snoc hb hle hends hstop hmax⟩
  have hget := List.getElem?_eq_getElem (hle.trans_lt hlt)
  by_cases hc : c = y[k']
  · rw [← hc] at hget
    simp [advance, hrun, hget]
  · simp [advance, hrun, hget, hc, Ne.symm hc]

/-- The loop builds the failure function. -/
theorem build_spec (hy : y ≠ []) (m : Nat) (hm : m < y.length) :
    ∃ fail k, (List.range' 1 m).foldlM (buildTurn y) (List.replicate y.length 0, 0) = some (fail, k) ∧
      FailsUpTo y fail (m + 1) ∧ Longest y (y.take (m + 1)) m k := by
  have hpos : 0 < y.length := List.length_pos_iff.mpr hy
  induction m with
  | zero =>
    have hone : Longest y (y.take 1) 0 0 :=
      ⟨List.nil_suffix, le_rfl, fun j hj _ => hj⟩
    refine ⟨_, 0, rfl, ⟨List.length_replicate, fun j hj => ?_⟩, hone⟩
    obtain rfl : j = 0 := Nat.lt_one_iff.mp hj
    exact ⟨0, by rw [List.getElem?_replicate, if_pos hpos], hone⟩
  | succ m ih =>
    obtain ⟨fail, k, hrun, hfail, hlongest⟩ := ih (Nat.lt_of_succ_lt hm)
    have hget := List.getElem?_eq_getElem hm
    obtain ⟨k', hturn, hlongest'⟩ := advance_spec (c := y[m + 1]) hfail hlongest
      (by have := hlongest.le; omega) (Nat.lt_of_succ_lt hm)
    rw [← List.take_succ_eq_append_getElem hm] at hlongest'
    have hlt : m + 1 < fail.length := hfail.length ▸ hm
    refine ⟨fail.set (m + 1) k', k', ?_, ⟨by rw [List.length_set, hfail.length], fun j hj => ?_⟩,
      hlongest'⟩
    · rw [List.range'_concat, List.foldlM_append, hrun]
      simp only [Option.bind_eq_bind, Option.bind_some, List.foldlM_cons, List.foldlM_nil, buildTurn,
        Nat.one_mul, Nat.add_comm 1 m, hget, hturn, hlt, guard_true]
      rfl
    · rcases Nat.lt_or_eq_of_le (Nat.le_of_lt_succ hj) with hlt' | rfl
      · rw [List.getElem?_set_ne (Nat.ne_of_gt hlt')]
        exact hfail.longest j hlt'
      · exact ⟨k', List.getElem?_set_self hlt, hlongest'⟩

/-- The loop over the first text: the whole second text is no overlap yet. -/
theorem run_spec (hfail : FailsUpTo y fail y.length) (hy : y ≠ []) (x : Bytes) :
    ∃ k, x.foldlM (runTurn y fail) 0 = some k ∧ Longest y x (y.length - 1) k := by
  have hpos : 0 < y.length := List.length_pos_iff.mpr hy
  induction x using List.reverseRecOn with
  | nil => exact ⟨0, rfl, longest_nil (Nat.sub_le _ _)⟩
  | append_singleton x c ih =>
    obtain ⟨k, hrun, hlongest⟩ := ih
    have hk := hlongest.le
    obtain ⟨k', hturn, hlongest'⟩ := advance_spec (c := c) hfail hlongest (by omega) (by omega)
    have hle := hlongest'.le
    rw [List.foldlM_append, hrun]
    by_cases hfull : k' = y.length
    · obtain ⟨f, hf, hborder⟩ := hfail.longest (k' - 1) (by omega)
      have hsub : k' - 1 + 1 = k' := by omega
      rw [hsub] at hborder
      refine ⟨f, ?_, hfull ▸ hborder.of_ends hlongest'.ends (Nat.sub_le _ _)⟩
      simp only [Option.bind_eq_bind, Option.bind_some, List.foldlM_cons, List.foldlM_nil, runTurn,
        hturn, if_pos hfull, hf]
      rfl
    · refine ⟨k', ?_, hlongest'.ends, by omega, fun j hj => hlongest'.max j (by omega)⟩
      simp only [Option.bind_eq_bind, Option.bind_some, List.foldlM_cons, List.foldlM_nil, runTurn,
        hturn, if_neg hfull]
      rfl

end Automaton

/-! ## The overlap -/

/-- The last bytes of `x` are the first of `y`. -/
def Overlaps (x y : Bytes) (k : Nat) : Prop := x.drop (x.length - k) = y.take k

theorem findDown_spec (p : Nat → Bool) (n : Nat) : findDown p n ≤ n ∧
    (findDown p n = 0 ∨ p (findDown p n) = true) ∧ ∀ j ≤ n, p j = true → j ≤ findDown p n := by
  induction n with
  | zero => exact ⟨le_rfl, .inl rfl, fun j hj _ => hj⟩
  | succ n ih =>
    obtain ⟨hle, hfound, hmax⟩ := ih
    rw [findDown]
    split
    · rename_i hp
      exact ⟨le_rfl, .inr hp, fun j hj _ => hj⟩
    · rename_i hp
      refine ⟨Nat.le_succ_of_le hle, hfound, fun j hj hj' => ?_⟩
      rcases Nat.lt_or_eq_of_le hj with hlt | rfl
      · exact hmax j (Nat.le_of_lt_succ hlt) hj'
      · exact absurd hj' hp

section Overlap
variable {x y : Bytes} {n k : Nat}

/-- The texts are cut to the bytes that can overlap. -/
theorem overlaps_cut (hx : n ≤ x.length) (hk : k ≤ n) :
    Overlaps x y k ↔ (x.drop (x.length - n)).drop (n - k) = (y.take n).take k := by
  rw [Overlaps, List.drop_drop, List.take_take, Nat.min_eq_left hk]
  have hsum : x.length - n + (n - k) = x.length - k := by omega
  rw [hsum]

theorem suffix_iff_drop {s t : Bytes} : s <:+ t ↔ t.drop (t.length - s.length) = s := by
  rw [List.suffix_iff_eq_drop, eq_comm]

/-- **The longest overlap**, however the vector was filled. -/
theorem commonOverlap_spec (x y : Bytes) (fail : List Nat) :
    ∃ k fail', commonOverlap x y fail = some (k, fail') ∧
      k ≤ min (min x.length y.length) OVERLAP_MAX ∧ Overlaps x y k ∧
      ∀ j ≤ min (min x.length y.length) OVERLAP_MAX, Overlaps x y j → j ≤ k := by
  rw [commonOverlap]
  dsimp only
  have hx : min (min x.length y.length) OVERLAP_MAX ≤ x.length := by omega
  have hy : min (min x.length y.length) OVERLAP_MAX ≤ y.length := by omega
  generalize min (min x.length y.length) OVERLAP_MAX = n at hx hy ⊢
  have hcut {k : Nat} (hk : k ≤ n) := overlaps_cut (y := y) hx hk
  have hxlen : (x.drop (x.length - n)).length = n := by rw [List.length_drop]; omega
  have hylen : (y.take n).length = n := by rw [List.length_take]; omega
  have hzero : Overlaps x y 0 := by
    rw [Overlaps, Nat.sub_zero, List.drop_length, List.take_zero]
  generalize x.drop (x.length - n) = x' at hcut hxlen ⊢
  generalize y.take n = y' at hcut hylen ⊢
  split
  · rename_i hn
    exact ⟨0, fail, rfl, Nat.zero_le n, hzero, fun j hj _ => hn ▸ hj⟩
  rename_i hn
  split
  · rename_i hsame
    refine ⟨n, fail, rfl, le_rfl, (hcut le_rfl).mpr ?_, fun j hj _ => hj⟩
    rw [Nat.sub_self, List.drop_zero, hsame, List.take_of_length_le hylen.le]
  rename_i hdiff
  have hfull : ¬ Overlaps x y n := fun hall => by
    rw [hcut le_rfl, Nat.sub_self, List.drop_zero, List.take_of_length_le hylen.le] at hall
    exact hdiff hall
  have hless {j : Nat} (hj : j ≤ n) (hover : Overlaps x y j) : j ≤ n - 1 := by
    have hne : j ≠ n := fun heq => hfull (heq ▸ hover)
    omega
  split
  · obtain ⟨hle, hfound, hmax⟩ := findDown_spec (fun k => x'.drop (n - k) = y'.take k) (n - 1)
    refine ⟨_, fail, rfl, hle.trans (Nat.sub_le _ _), ?_, fun j hj hover => ?_⟩
    · rcases hfound with heq | hfound
      · rw [heq]
        exact hzero
      · exact (hcut (hle.trans (Nat.sub_le _ _))).mpr (of_decide_eq_true hfound)
    · exact hmax j (hless hj hover) (decide_eq_true ((hcut hj).mp hover))
  · have hne : y' ≠ [] := fun hnil => hn (by rw [← hylen, hnil]; rfl)
    have hends {j : Nat} (hj : j ≤ n) : Overlaps x y j ↔ y'.take j <:+ x' := by
      have hlen : (y'.take j).length = j := by rw [List.length_take]; omega
      rw [hcut hj, suffix_iff_drop, hlen, hxlen]
    obtain ⟨table, k₀, hbuild, hfail, -⟩ := build_spec hne (n - 1) (by omega)
    have hsub : n - 1 + 1 = y'.length := by omega
    obtain ⟨k, hrun, hlongest⟩ := run_spec (hsub ▸ hfail) hne x'
    have hk := hlongest.le
    rw [hylen] at hbuild hk
    refine ⟨k, table, ?_, by omega, (hends (by omega)).mpr hlongest.ends, fun j hj hover => ?_⟩
    · rw [hbuild]
      simp only [Option.bind_eq_bind, Option.bind_some, hrun]
      rfl
    · have hj' := hless hj hover
      exact hlongest.max j (by omega) ((hends hj).mp hover)

end Overlap

end OhosBun.TestRunner
