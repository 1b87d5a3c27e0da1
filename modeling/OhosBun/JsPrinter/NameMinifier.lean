/-
# `OhosBun.JsPrinter.NameMinifier` — short names by number

`NameMinifier` names the numbers: the first character is one of 54, the others are of 64,
each alphabet ordered by how often its characters occur (`CharFreq::compile`).  No two
numbers have one name (`numberToMinifiedName_injective`).
-/
import Mathlib.Data.List.GetD
import Mathlib.Data.List.Sort
import OhosBun.Lib.FirstFree

namespace OhosBun.JsPrinter

abbrev Name := List UInt8

/-- `CHAR_FREQ_COUNT` -/
def charFreqCount : Nat := 64

def lowercase : List UInt8 := (List.range 26).map fun i => (97 + i).toUInt8

def uppercase : List UInt8 := (List.range 26).map fun i => (65 + i).toUInt8

def digits : List UInt8 := (List.range 10).map fun i => (48 + i).toUInt8

/-- `DEFAULT_HEAD` -/
def defaultHead : List UInt8 := lowercase ++ uppercase ++ [95, 36]

/-- `DEFAULT_TAIL` -/
def defaultTail : List UInt8 := lowercase ++ uppercase ++ digits ++ [95, 36]

structure NameMinifier where
  head : List UInt8
  tail : List UInt8
  head_perm : head.Perm defaultHead
  tail_perm : tail.Perm defaultTail

/-! ## The alphabets -/

structure CharAndCount where
  char : UInt8
  count : Int
  index : Nat

/-- Descending by count, then ascending by index and by character. -/
def CharAndCount.order (a b : CharAndCount) : Ordering :=
  (compare b.count a.count).then ((compare a.index b.index).then (compare a.char b.char))

/-- The characters by frequency. -/
def sortedChars (freqs : Nat → Int) : List CharAndCount :=
  (defaultTail.zipIdx.map fun x => ⟨x.1, freqs x.2, x.2⟩).insertionSort fun a b => a.order b ≠ .gt

theorem sortedChars_perm (freqs : Nat → Int) :
    ((sortedChars freqs).map (·.char)).Perm defaultTail := by
  refine ((List.perm_insertionSort _ _).map _).trans (.of_eq ?_)
  rw [List.map_map]
  exact List.zipIdx_map_fst 0 defaultTail

/-- What a name may start with. -/
def isHead (c : UInt8) : Bool := c < 48 || c > 57

theorem filter_defaultTail : defaultTail.filter isHead = defaultHead := by rfl

theorem nodup_defaultTail : defaultTail.Nodup := by decide

theorem filter_sortedChars_perm (freqs : Nat → Int) :
    (((sortedChars freqs).map (·.char)).filter isHead).Perm defaultHead := by
  have h := (sortedChars_perm freqs).filter isHead
  rwa [filter_defaultTail] at h

/-- `CharFreq::compile` -/
def NameMinifier.compile (freqs : Nat → Int) : NameMinifier where
  head := ((sortedChars freqs).map (·.char)).filter isHead
  tail := (sortedChars freqs).map (·.char)
  head_perm := by exact filter_sortedChars_perm freqs
  tail_perm := by exact sortedChars_perm freqs

namespace NameMinifier
variable (m : NameMinifier)

theorem length_head : m.head.length = 54 := m.head_perm.length_eq

theorem length_tail : m.tail.length = 64 := m.tail_perm.length_eq

theorem nodup_head : m.head.Nodup := by
  rw [m.head_perm.nodup_iff, ← filter_defaultTail]
  exact nodup_defaultTail.filter isHead

theorem nodup_tail : m.tail.Nodup := m.tail_perm.nodup_iff.mpr nodup_defaultTail

/-! ## Names -/

/-- The loop of `number_to_minified_name`; the number is enough turns. -/
def tailLoop : (fuel : Nat) → Nat → Name
  | fuel + 1, i + 1 => m.tail.getD (i % charFreqCount) 0 :: tailLoop fuel (i / charFreqCount)
  | _, _ => []

def numberToMinifiedName (i : Nat) : Name := m.head.getD (i % 54) 0 :: m.tailLoop i (i / 54)

theorem tailLoop_inj {i j : Nat} (n k : Nat) (hi : i ≤ n) (hj : j ≤ k)
    (h : m.tailLoop n i = m.tailLoop k j) : i = j := by
  induction n generalizing i j k with
  | zero =>
    obtain rfl := Nat.le_zero.mp hi
    cases k with
    | zero => exact (Nat.le_zero.mp hj).symm
    | succ k =>
      cases j with
      | zero => rfl
      | succ j => simp [tailLoop] at h
  | succ n ih =>
    cases k with
    | zero =>
      obtain rfl := Nat.le_zero.mp hj
      cases i with
      | zero => rfl
      | succ i => simp [tailLoop] at h
    | succ k =>
      cases i with
      | zero =>
        cases j with
        | zero => rfl
        | succ j => simp [tailLoop] at h
      | succ i =>
        cases j with
        | zero => simp [tailLoop] at h
        | succ j =>
          rw [tailLoop, tailLoop, List.cons.injEq] at h
          have hbound : ∀ a, a % charFreqCount < m.tail.length := by
            intro a
            rw [length_tail]
            exact Nat.mod_lt _ (by decide)
          rw [List.getD_eq_getElem _ _ (hbound i), List.getD_eq_getElem _ _ (hbound j)] at h
          have hmod := (m.nodup_tail.getElem_inj_iff).mp h.1
          have hdiv : i / charFreqCount = j / charFreqCount :=
            ih k ((Nat.div_le_self _ _).trans (Nat.le_of_succ_le_succ hi))
              ((Nat.div_le_self _ _).trans (Nat.le_of_succ_le_succ hj)) h.2
          rw [← Nat.div_add_mod i charFreqCount, ← Nat.div_add_mod j charFreqCount, hmod,
            hdiv]

theorem numberToMinifiedName_injective : Function.Injective m.numberToMinifiedName := by
  intro i j h
  rw [numberToMinifiedName, numberToMinifiedName, List.cons.injEq] at h
  have hbound : ∀ a, a % 54 < m.head.length := by
    intro a
    rw [length_head]
    exact Nat.mod_lt _ (by decide)
  rw [List.getD_eq_getElem _ _ (hbound i), List.getD_eq_getElem _ _ (hbound j)] at h
  have hmod := (m.nodup_head.getElem_inj_iff).mp h.1
  have hdiv := m.tailLoop_inj i j (Nat.div_le_self _ _) (Nat.div_le_self _ _) h.2
  rw [← Nat.div_add_mod i 54, ← Nat.div_add_mod j 54, hmod, hdiv]

/-- A name does not start with a capital, `_` or `$`. -/
def startsLower : Name → Bool
  | c :: _ => 97 ≤ c && c ≤ 122
  | [] => false

/-- Among 54 names in a row one starts with a capital. -/
theorem exists_not_startsLower (n : Nat) :
    ∃ j, n ≤ j ∧ j ≤ n + 53 ∧ startsLower (m.numberToMinifiedName j) = false := by
  have hmem : (65 : UInt8) ∈ m.head := m.head_perm.mem_iff.mpr (by decide)
  obtain ⟨k, hk, hget⟩ := List.getElem_of_mem hmem
  have hk' : k < 54 := by rw [← m.length_head]; exact hk
  have hname : ∀ j, j % 54 = k → startsLower (m.numberToMinifiedName j) = false := by
    intro j hj
    rw [numberToMinifiedName, hj, List.getD_eq_getElem _ _ hk, hget]
    rfl
  rcases Nat.lt_or_ge k (n % 54) with hgt | hle
  · exact ⟨n + (54 + k - n % 54), by omega, by omega, hname _ (by omega)⟩
  · exact ⟨n + (k - n % 54), by omega, by omega, hname _ (by omega)⟩

end NameMinifier

end OhosBun.JsPrinter
