/-
# `OhosBun.SourceMap.LineLookup` — three ways to look a line up

The rows of a table start at strictly increasing offsets.  `find_line` finds the last row that is
not behind an offset (`LastBefore`).  `find_line_with_hint` tries three rows first and finds the
same.  `find_index` looks one row ahead, and so it does not find the last row, unless the offset
is its very start.
-/
import Mathlib.Data.List.GetD
import OhosBun.SourceMap.LineOffsetTable

namespace OhosBun.SourceMap.LineOffsetTable

open OhosBun.Lib

/-- The loop of `find_index`. -/
def findIndexLoop (byteOffsetsToStartOfLine : List Nat) (loc originalLine count : Nat) : Option Nat :=
  if 0 < count then
    let i := originalLine + count / 2
    let byteOffset := byteOffsetsToStartOfLine.getD i 0
    if byteOffset = loc then some i
    else if i + 1 < byteOffsetsToStartOfLine.length ∧ byteOffset < loc ∧
        loc < byteOffsetsToStartOfLine.getD (i + 1) 0 then some i
    else if byteOffset < loc then
      findIndexLoop byteOffsetsToStartOfLine loc (i + 1) (count - (count / 2 + 1))
    else findIndexLoop byteOffsetsToStartOfLine loc originalLine (count / 2)
  else none
termination_by count
decreasing_by all_goals omega

def findIndex (byteOffsetsToStartOfLine : List Nat) (loc : Nat) : Option Nat :=
  findIndexLoop byteOffsetsToStartOfLine loc 0 byteOffsetsToStartOfLine.length

/-- Each line starts behind the one before. -/
def Increasing (offsets : List Nat) : Prop := offsets.Pairwise (· < ·)

section Lookup
variable {offsets : List Nat} {loc : Nat}

theorem Increasing.lt (h : Increasing offsets) {i j : Nat} (hij : i < j) (hj : j < offsets.length) :
    offsets.getD i 0 < offsets.getD j 0 := by
  have hi : i < offsets.length := hij.trans hj
  rw [List.getD_eq_getElem _ _ hi, List.getD_eq_getElem _ _ hj]
  exact List.pairwise_iff_getElem.mp h i j hi hj hij

/-- Where one row is not behind the offset, there is a last one. -/
theorem Increasing.exists_lastBefore (h : Increasing offsets) {j : Nat} (hj : j < offsets.length)
    (hle : offsets.getD j 0 ≤ loc) : ∃ i, LastBefore offsets loc i := by
  have hfalls : Falls (fun offset => decide (offset ≤ loc)) offsets :=
    h.imp fun hlt hb => decide_eq_true (hlt.le.trans (of_decide_eq_true hb))
  have hiff {k : Nat} (hk : k < offsets.length) : offsets.getD k 0 ≤ loc ↔
      k < (offsets.takeWhile fun offset => decide (offset ≤ loc)).length := by
    rw [List.getD_eq_getElem _ _ hk, ← hfalls.getElem?_iff (List.getElem?_eq_getElem hk),
      decide_eq_true_iff]
  have hlen := (List.takeWhile_prefix (l := offsets) fun offset => decide (offset ≤ loc)).length_le
  have hpos := (hiff hj).mp hle
  refine ⟨(offsets.takeWhile fun offset => decide (offset ≤ loc)).length - 1, by omega,
    fun k hk => ?_⟩
  rw [hiff hk]
  omega

/-- The hint only saves the search. -/
theorem LastBefore.findLineWithHint {i : Nat} (h : LastBefore offsets loc i) (hint : Nat) :
    findLineWithHint offsets loc hint = i := by
  -- a probe that ends at `k` has found the last offset before `loc`
  have hprobe {k : Nat} (hk : k < offsets.length) (hle : k ≤ i)
      (hnext : k + 1 = offsets.length ∨ loc < offsets.getD (k + 1) 0) : k = i := by
    have hlt := h.lt
    rcases hnext with hlast | hnext
    · omega
    · by_cases hk' : k + 1 < offsets.length
      · have hiff := h.le_iff (k + 1) hk'
        omega
      · omega
  -- and one that does not has the next line in front of it
  have hmore {k : Nat} (hk : k < offsets.length)
      (hnext : ¬ (k + 1 = offsets.length ∨ loc < offsets.getD (k + 1) 0)) :
      k + 1 < offsets.length ∧ k + 1 ≤ i := by
    rw [not_or, Nat.not_lt] at hnext
    have hk' : k + 1 < offsets.length := by omega
    exact ⟨hk', (h.le_iff (k + 1) hk').mp hnext.2⟩
  unfold LineOffsetTable.findLineWithHint
  by_cases hstart : hint < offsets.length ∧ offsets.getD hint 0 ≤ loc
  · rw [if_pos hstart]
    have hle := (h.le_iff hint hstart.1).mp hstart.2
    split
    · rename_i hnext
      rw [hprobe hstart.1 hle hnext]
    · rename_i hnext
      obtain ⟨hlt₁, hle₁⟩ := hmore hstart.1 hnext
      split
      · rename_i hnext
        rw [← hprobe hlt₁ hle₁ hnext]
        rfl
      · rename_i hnext
        obtain ⟨hlt₂, hle₂⟩ := hmore hlt₁ hnext
        split
        · rename_i hnext
          rw [← hprobe hlt₂ hle₂ hnext]
          rfl
        · exact h.findLine
  · rw [if_neg hstart]
    exact h.findLine

/-- **The hint does not matter**, wherever it points. -/
theorem findLineWithHint_eq (h : Increasing offsets) (loc hint : Nat) :
    findLineWithHint offsets loc hint = findLine offsets loc := by
  by_cases hstart : hint < offsets.length ∧ offsets.getD hint 0 ≤ loc
  · obtain ⟨i, hi⟩ := h.exists_lastBefore hstart.1 hstart.2
    rw [hi.findLineWithHint hint, hi.findLine]
  · exact if_neg hstart

/-- A hint at the first line, from the third. -/
theorem findLineWithHint_eq_third : findLineWithHint [0, 4, 9] 12 0 = findLine [0, 4, 9] 12 :=
  findLineWithHint_eq (show List.Pairwise _ _ by decide) 12 0

/-! ## The row with an index -/

/-- The probes close in on a row that ends the search. -/
theorem LastBefore.findIndexLoop (hinc : Increasing offsets) {i : Nat} (h : LastBefore offsets loc i)
    (hnext : offsets.getD i 0 = loc ∨ i + 1 < offsets.length) (originalLine count : Nat)
    (hle : originalLine ≤ i) (hlt : i < originalLine + count)
    (hcount : originalLine + count ≤ offsets.length) :
    LineOffsetTable.findIndexLoop offsets loc originalLine count = some i := by
  have hi := (h.le_iff i h.lt).mpr le_rfl
  have hprobe : originalLine + count / 2 < offsets.length := by omega
  have hiff := h.le_iff _ hprobe
  rw [LineOffsetTable.findIndexLoop, if_pos (by omega)]
  dsimp only
  rcases Nat.lt_trichotomy (originalLine + count / 2) i with hbefore | heq | hbehind
  · have hlt' := hinc.lt hbefore h.lt
    have hahead := h.le_iff (originalLine + count / 2 + 1) (by omega)
    rw [if_neg (by omega), if_neg (by omega), if_pos (by omega)]
    exact LastBefore.findIndexLoop hinc h hnext _ _ hbefore (by omega) (by omega)
  · rw [heq]
    by_cases hstart : offsets.getD i 0 = loc
    · rw [if_pos hstart]
    · have hmore := hnext.resolve_left hstart
      have hahead := h.le_iff (i + 1) hmore
      rw [if_neg hstart, if_pos ⟨hmore, by omega, by omega⟩]
  · rw [if_neg (by omega), if_neg (by omega), if_neg (by omega)]
    exact LastBefore.findIndexLoop hinc h hnext _ _ hle (by omega) (by omega)
termination_by count
decreasing_by all_goals omega

/-- No probe ends the search. -/
theorem findIndexLoop_eq_none (hend : ∀ i, offsets.getD i 0 ≠ loc ∧ ¬ (i + 1 < offsets.length ∧
      offsets.getD i 0 < loc ∧ loc < offsets.getD (i + 1) 0)) (originalLine count : Nat) :
    findIndexLoop offsets loc originalLine count = none := by
  have hprobe := hend (originalLine + count / 2)
  rw [findIndexLoop]
  split
  · dsimp only
    rw [if_neg hprobe.1, if_neg hprobe.2]
    split
    · exact findIndexLoop_eq_none hend _ _
    · exact findIndexLoop_eq_none hend _ _
  · rfl
termination_by count
decreasing_by all_goals omega

/-- **The index is that of the line**, but not for an offset inside of the last line: there is
no next row to look at. -/
theorem findIndex_eq_iff (h : Increasing offsets) (hstart : offsets.head? = some 0) (loc : Nat) :
    (∃ i, findIndex offsets loc = some i ∧ (i : Int) = findLine offsets loc) ↔
      loc ≤ offsets.getLastD 0 := by
  obtain ⟨rest, rfl⟩ : ∃ rest, offsets = 0 :: rest := List.head?_eq_some_iff.mp hstart
  obtain ⟨i, hi⟩ : ∃ i, LastBefore (0 :: rest) loc i :=
    h.exists_lastBefore (Nat.succ_pos rest.length) (Nat.zero_le loc)
  have hlast : (0 :: rest).getLastD 0 = (0 :: rest).getD rest.length 0 := by
    rw [List.getLastD_cons, List.getLastD_eq_getLast?, List.getD_eq_getElem?_getD]
    cases rest with
    | nil => rfl
    | cons a rest => rw [List.getLast?_eq_getElem?]; rfl
  have hlen : (0 :: rest).length = rest.length + 1 := rfl
  have hlt := hi.lt
  have hle := (hi.le_iff i hi.lt).mpr le_rfl
  have hlastRow := hi.le_iff rest.length (Nat.lt_succ_self _)
  rw [hi.findLine, hlast]
  constructor
  · rintro ⟨j, hj, heq⟩
    by_contra hbehind
    have hnone : findIndex (0 :: rest) loc = none := by
      refine findIndexLoop_eq_none (fun k => ?_) 0 _
      have hbefore {k : Nat} (hk : k < (0 :: rest).length) :
          (0 :: rest).getD k 0 ≤ (0 :: rest).getD rest.length 0 := by
        rcases Nat.lt_or_eq_of_le (Nat.le_of_lt_succ hk) with hk | rfl
        · exact (h.lt hk (Nat.lt_succ_self _)).le
        · exact le_rfl
      constructor
      · by_cases hk : k < (0 :: rest).length
        · have hk := hbefore hk
          omega
        · rw [List.getD_eq_default _ _ (Nat.le_of_not_lt hk)]
          omega
      · rintro ⟨hk, -, hahead⟩
        have hk := hbefore hk
        omega
    rw [hnone] at hj
    exact absurd hj (by simp)
  · intro hbefore
    refine ⟨i, hi.findIndexLoop h ?_ 0 _ (Nat.zero_le _) (by omega) (by omega), rfl⟩
    rcases Nat.lt_or_ge (i + 1) (0 :: rest).length with hmore | hend
    · exact .inr hmore
    · obtain rfl : i = rest.length := by omega
      exact .inl (by omega)

/-- A start of a line, the last one. -/
theorem findIndex_eq_iff_start :
    (∃ i, findIndex [0, 4, 9] 9 = some i ∧ (i : Int) = findLine [0, 4, 9] 9) ↔ 9 ≤ [0, 4, 9].getLastD 0 :=
  findIndex_eq_iff (show List.Pairwise _ _ by decide) rfl 9

end Lookup

/-- A source of one line. -/
theorem findIndex_ne : ¬ ∀ offsets : List Nat, offsets ≠ [] → Increasing offsets →
    offsets.head? = some 0 → ∀ loc, ∃ i, findIndex offsets loc = some i ∧
      (i : Int) = findLine offsets loc := by
  intro h
  obtain ⟨i, hi, -⟩ := h [0] (by simp) (List.pairwise_singleton _ _) rfl 5
  have hnone : findIndex [0] 5 = none := by
    simp [findIndex, findIndexLoop]
  rw [hnone] at hi
  exact absurd hi (by simp)

end OhosBun.SourceMap.LineOffsetTable
