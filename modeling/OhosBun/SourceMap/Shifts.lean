/-
# `OhosBun.SourceMap.Shifts` — columns after placeholders are replaced

A chunk is printed with placeholders.  When they are replaced by texts of another
length, every generated column behind one moves; `SourceMapPieces::finalize` moves
the columns in the mappings string that was printed already.

It walks the string once, with the list of shifts beside it, and rewrites the column
of a mapping only where a new shift is crossed: what follows on the line is relative
to that mapping.  So a mapping moves by the last shift crossed on its line
(`decodeMappings_finalize`).

The walk never goes back in the list of shifts.  The mappings of a line have to come
in the order of their columns; behind a column that falls, a shift stays applied to
mappings in front of it (`decodeMappings_finalize_ne`).
-/
import OhosBun.SourceMap.Join

namespace OhosBun.SourceMap

open OhosBun.Lib

/-! ## The source -/

structure SourceMapShifts where
  before : LineColumnOffset
  after : LineColumnOffset
  deriving DecidableEq

/-- The source calls the first field `prefix`. -/
structure SourceMapPieces where
  prefixBytes : Bytes
  mappings : Bytes
  suffix : Bytes

def LineColumnOffset.comesBefore (a b : LineColumnOffset) : Bool :=
  a.lines < b.lines || (a.lines == b.lines && a.columns < b.columns)

/-- Past the fifth field, where there is one. -/
def skipName (mappings : Bytes) (current : Nat) : Nat :=
  match mappings[current]? with
  | some c => if c ≠ comma ∧ c ≠ semicolon then (Vlq.decode mappings current).start else current
  | none => current

/-- Past the fields behind the generated column, and the comma behind them. -/
def segmentEnd (mappings : Bytes) (current : Nat) : Nat :=
  let current := (Vlq.decode mappings current).start
  let current := (Vlq.decode mappings current).start
  let current := (Vlq.decode mappings current).start
  let current := skipName mappings current
  if mappings[current]? = some comma then current + 1 else current

/-- `while shifts.len() > 1 && comes_before(shifts[1].before, generated)`: the shifts left,
and whether a boundary was crossed. -/
def crossShifts (generated : LineColumnOffset) : List SourceMapShifts → List SourceMapShifts × Bool
  | shift :: next :: rest =>
    if next.before.comesBefore generated then ((crossShifts generated (next :: rest)).1, true)
    else (shift :: next :: rest, false)
  | shifts => (shifts, false)

namespace Finalize

/-- The variables of the loop. -/
structure State where
  shifts : List SourceMapShifts
  startOfRun : Nat
  current : Nat
  generated : LineColumnOffset
  prevShiftColumnDelta : Int32
  j : StringJoiner

/-- `mappings[from..to]`. -/
def run (mappings : Bytes) (start stop : Nat) : Bytes := (mappings.drop start).take (stop - start)

def semicolonTurn (s : State) : State :=
  { s with
    generated := { lines := s.generated.lines + 1, columns := 0 }
    prevShiftColumnDelta := 0
    current := s.current + 1 }

/-- `shifts[0]` is there whenever a boundary was crossed. -/
def segmentTurn (mappings : Bytes) (s : State) : State :=
  let decodeResult := Vlq.decode mappings s.current
  let generated := { s.generated with columns := s.generated.columns + decodeResult.value }
  let current := segmentEnd mappings decodeResult.start
  let (shifts, didCrossBoundary) := crossShifts generated s.shifts
  let s' := { s with shifts := shifts, generated := generated, current := current }
  match didCrossBoundary, shifts with
  | true, shift :: _ =>
    if shift.after.lines ≠ generated.lines then s'
    else
      let shiftColumnDelta := shift.after.columns - shift.before.columns
      let vlqValue := decodeResult.value + shiftColumnDelta - s.prevShiftColumnDelta
      { s' with
        j := (s.j.push (run mappings s.startOfRun s.current)).push (Vlq.encode vlqValue)
        prevShiftColumnDelta := shiftColumnDelta
        startOfRun := decodeResult.start }
  | _, _ => s'

/-- The loop; `none` if it does not end, as on a string that is no mappings string. -/
def loop (mappings : Bytes) : (fuel : Nat) → State → Option State
  | 0, s => if s.current < mappings.length then none else some s
  | fuel + 1, s =>
    if s.current < mappings.length then
      loop mappings fuel
        (if mappings[s.current]? = some semicolon then semicolonTurn s else segmentTurn mappings s)
    else some s

def init (pieces : SourceMapPieces) (shifts : List SourceMapShifts) : State where
  shifts := shifts
  startOfRun := 0
  current := 0
  generated := ⟨0, 0⟩
  prevShiftColumnDelta := 0
  j := StringJoiner.push ⟨[], by simp⟩ pieces.prefixBytes

end Finalize

/-- A turn that does not move is never followed by one that does, so that the length of the
string bounds the turns. -/
def SourceMapPieces.finalize (pieces : SourceMapPieces) (shifts : List SourceMapShifts) :
    Option Bytes :=
  if pieces.mappings = [] ∧ pieces.suffix = [] then some pieces.prefixBytes
  else
    (Finalize.loop pieces.mappings pieces.mappings.length (Finalize.init pieces shifts)).map
      fun s => (s.j.push (pieces.mappings.drop s.startOfRun)).text ++ pieces.suffix

/-! ## What it is for -/

namespace SourceMapShifts

/-- By how much a shift moves a column. -/
def delta (shift : SourceMapShifts) : Int :=
  shift.after.columns.toInt - shift.before.columns.toInt

/-- The shift is on the line of the mapping, strictly before it. -/
def AppliesTo (m : TextMapping) (shift : SourceMapShifts) : Prop :=
  shift.before.lines.toInt = m.generatedLine ∧ shift.before.columns.toInt < m.generatedColumn

instance (m : TextMapping) (shift : SourceMapShifts) : Decidable (AppliesTo m shift) :=
  inferInstanceAs (Decidable (_ ∧ _))

end SourceMapShifts

/-- The shift of a mapping: that of the last one that applies to it. -/
def shiftOf (shifts : List SourceMapShifts) (m : TextMapping) : Int :=
  ((shifts.filter fun shift => shift.AppliesTo m).getLast?.map SourceMapShifts.delta).getD 0

def shiftMapping (shifts : List SourceMapShifts) (m : TextMapping) : TextMapping :=
  { m with generatedColumn := m.generatedColumn + shiftOf shifts m }

/-- What is promised of a list of shifts. -/
structure ShiftList (shifts : List SourceMapShifts) : Prop where
  zero : shifts.head? = some ⟨⟨0, 0⟩, ⟨0, 0⟩⟩
  increasing : shifts.Pairwise fun a b => ¬ b.before.comesBefore a.before
  sameLine : ∀ shift ∈ shifts, shift.before.lines = shift.after.lines
  nonneg : ∀ shift ∈ shifts, 0 ≤ shift.before.columns ∧ 0 ≤ shift.after.columns

/-! ## The shift of a mapping -/

/-- A position is strictly before a column of a line. -/
def LineColumnOffset.Before (a : LineColumnOffset) (line : Nat) (column : Int) : Prop :=
  a.lines.toInt < line ∨ (a.lines.toInt = line ∧ a.columns.toInt < column)

theorem LineColumnOffset.comesBefore_iff (a b : LineColumnOffset) : a.comesBefore b ↔
    a.lines.toInt < b.lines.toInt ∨
      (a.lines.toInt = b.lines.toInt ∧ a.columns.toInt < b.columns.toInt) := by
  simp [comesBefore, Int32.lt_iff_toInt_lt, Int32.toInt_inj]

theorem LineColumnOffset.comesBefore_iff_before (a b : LineColumnOffset) {line : Nat} {column : Int}
    (hline : b.lines.toInt = line) (hcolumn : b.columns.toInt = column) :
    a.comesBefore b ↔ a.Before line column := by
  rw [comesBefore_iff, hline, hcolumn]
  rfl

/-- What the shifts crossed so far add on a line. -/
def lineDelta (crossed : List SourceMapShifts) (line : Nat) : Int :=
  match crossed.getLast? with
  | some shift => if shift.before.lines.toInt = line then shift.delta else 0
  | none => 0

/-- The first shift. -/
def zeroShift : SourceMapShifts := ⟨⟨0, 0⟩, ⟨0, 0⟩⟩

theorem zeroShift_delta : zeroShift.delta = 0 := rfl

section shifts

variable {crossed rest : List SourceMapShifts} {m : TextMapping}

variable {last : SourceMapShifts} {line : Nat} {column : Int}

/-- No shift is on a line behind the last one's. -/
theorem lines_le_last
    (hsorted : (crossed ++ [last]).Pairwise fun a b => ¬ b.before.comesBefore a.before) :
    ∀ shift ∈ crossed ++ [last], shift.before.lines.toInt ≤ last.before.lines.toInt := by
  intro shift hshift
  rcases List.mem_append.mp hshift with hmem | hmem
  · have horder := (List.pairwise_append.mp hsorted).2.2 shift hmem last List.mem_cons_self
    rw [LineColumnOffset.comesBefore_iff] at horder
    exact Int.not_lt.mp fun hlt => horder (Or.inl hlt)
  · rw [List.mem_singleton.mp hmem]

/-- Once the shifts before a mapping are crossed, the last of them decides. -/
theorem shiftOf_eq_lineDelta
    (hsorted : crossed.Pairwise fun a b => ¬ b.before.comesBefore a.before)
    (hcrossed : ∀ shift ∈ crossed, shift.before.Before m.generatedLine m.generatedColumn)
    (hrest : ∀ shift ∈ rest, ¬ shift.before.Before m.generatedLine m.generatedColumn) :
    shiftOf (zeroShift :: (crossed ++ rest)) m = lineDelta crossed m.generatedLine := by
  have hnone : rest.filter (fun shift => shift.AppliesTo m) = [] := by
    refine List.filter_eq_nil_iff.mpr fun shift hshift happlies => ?_
    exact hrest shift hshift (Or.inr (of_decide_eq_true happlies))
  have hzero : ((List.filter (fun shift => SourceMapShifts.AppliesTo m shift)
      [zeroShift]).getLast?.map SourceMapShifts.delta).getD 0 = 0 := by
    rw [List.filter_cons]
    split <;> rfl
  rw [shiftOf, ← List.singleton_append, List.filter_append, List.filter_append, hnone,
    List.append_nil]
  rcases List.eq_nil_or_concat crossed with rfl | ⟨crossed, last, rfl⟩
  · rw [List.filter_nil, List.append_nil, hzero]
    rfl
  · rw [List.concat_eq_append] at hcrossed hsorted ⊢
    have hlast := hcrossed last (by simp)
    rw [lineDelta, List.getLast?_concat]
    by_cases hline : last.before.lines.toInt = m.generatedLine
    · have happlies : last.AppliesTo m := by
        rcases hlast with hlt | happlies
        · omega
        · exact happlies
      have hfilter : [last].filter (fun shift => shift.AppliesTo m) = [last] := by
        rw [List.filter_cons, if_pos (decide_eq_true happlies), List.filter_nil]
      rw [List.filter_append, hfilter, ← List.append_assoc, List.getLast?_concat]
      simp only [hline, if_true]
      rfl
    · have hother : (crossed ++ [last]).filter (fun shift => shift.AppliesTo m) = [] := by
        refine List.filter_eq_nil_iff.mpr fun shift hshift happlies => ?_
        have hle := lines_le_last hsorted shift hshift
        rw [(of_decide_eq_true happlies : SourceMapShifts.AppliesTo m shift).1] at hle
        rcases hlast with hlt | ⟨heq, -⟩
        · exact absurd hlt (Int.not_lt.mpr hle)
        · exact hline heq
      rw [hother, List.append_nil, hzero]
      simp only [hline, if_false]

/-- Shifts from another line add nothing. -/
theorem lineDelta_eq_zero (h : ∀ shift ∈ crossed, shift.before.lines.toInt < line) :
    lineDelta crossed line = 0 := by
  unfold lineDelta
  split
  · next shift hlast =>
      have hlt := h shift (List.mem_of_getLast? hlast)
      rw [if_neg (by omega)]
  · rfl

/-- If the last shift is on a line before, so are the others. -/
theorem lines_lt_of_last (hsorted : crossed.Pairwise fun a b => ¬ b.before.comesBefore a.before)
    (hcrossed : ∀ shift ∈ crossed, shift.before.Before line column) (hlast : crossed.getLast? = some last)
    (hline : last.before.lines.toInt ≠ line) :
    ∀ shift ∈ crossed, shift.before.lines.toInt < line := by
  obtain ⟨crossed, rfl⟩ := List.getLast?_eq_some_iff.mp hlast
  intro shift hshift
  have hle := lines_le_last hsorted shift hshift
  rcases hcrossed last (List.mem_append_right _ List.mem_cons_self) with hlt | ⟨heq, -⟩
  · exact Int.lt_of_le_of_lt hle hlt
  · exact absurd heq hline

/-- A shift moves a mapping behind it to a column that there is. -/
theorem lineDelta_nonneg (hcolumn : 0 ≤ column)
    (hcrossed : ∀ shift ∈ crossed, shift.before.Before line column)
    (hafter : ∀ shift ∈ crossed, 0 ≤ shift.after.columns) :
    0 ≤ column + lineDelta crossed line := by
  unfold lineDelta
  split
  · next shift hlast =>
      have hmem := List.mem_of_getLast? hlast
      have hpos : 0 ≤ shift.after.columns.toInt := Int32.le_iff_toInt_le.mp (hafter shift hmem)
      split
      · next hline =>
          rcases hcrossed shift hmem with hlt | ⟨-, hlt⟩
          · omega
          · rw [SourceMapShifts.delta]
            omega
      · exact (Int.add_zero column).symm ▸ hcolumn
  · exact (Int.add_zero column).symm ▸ hcolumn

theorem crossShifts_eq (generated : LineColumnOffset) (rest : List SourceMapShifts) :
    ∀ shift : SourceMapShifts, crossShifts generated (shift :: rest) =
      ((rest.takeWhile fun next => next.before.comesBefore generated).getLast?.getD shift ::
          rest.dropWhile (fun next => next.before.comesBefore generated),
        !(rest.takeWhile fun next => next.before.comesBefore generated).isEmpty) := by
  induction rest with
  | nil => exact fun _ => rfl
  | cons next rest ih =>
    intro shift
    rw [crossShifts]
    by_cases hnext : next.before.comesBefore generated = true
    · rw [if_pos hnext, ih]
      simp only [hnext, List.takeWhile_cons_of_pos, List.dropWhile_cons_of_pos,
        List.getLast?_cons, Option.getD_some, List.isEmpty_cons, Bool.not_false]
    · rw [if_neg hnext]
      simp only [List.takeWhile_cons, List.dropWhile_cons, hnext]
      rfl

end shifts

theorem ShiftList.toInt_sub {all : List SourceMapShifts} (hshifts : ShiftList all)
    {shift : SourceMapShifts} (h : shift ∈ all) :
    (shift.after.columns - shift.before.columns).toInt = shift.delta := by
  obtain ⟨hbefore, hafter⟩ := hshifts.nonneg shift h
  have hbefore : 0 ≤ shift.before.columns.toInt := Int32.le_iff_toInt_le.mp hbefore
  have hafter : 0 ≤ shift.after.columns.toInt := Int32.le_iff_toInt_le.mp hafter
  have hltBefore := shift.before.columns.toInt_lt
  have hltAfter := shift.after.columns.toInt_lt
  rw [Int32.toInt_sub, SourceMapShifts.delta]
  exact Int.bmod_eq_of_le (by simp; omega) (by simp; omega)

/-- The last shift crossed, if one is. -/
theorem ShiftList.last_crossed {all crossed more : List SourceMapShifts} (hshifts : ShiftList all)
    (hmem : ∀ shift ∈ crossed ++ more, shift ∈ all) (hmore : (!more.isEmpty) = true) :
    ∃ shift, (crossed ++ more).getLast? = some shift ∧
      shift.before.lines = shift.after.lines := by
  have hne : crossed ++ more ≠ [] := by
    intro hnil
    rw [(List.append_eq_nil_iff.mp hnil).2] at hmore
    exact Bool.false_ne_true hmore
  refine ⟨(crossed ++ more).getLast hne, List.getLast?_eq_some_getLast hne, ?_⟩
  exact hshifts.sameLine _ (hmem _ (List.getLast_mem hne))

/-! ## The walk -/

namespace Finalize

/-- What is written once the run ends here. -/
def State.written (mappings : Bytes) (s : State) : Bytes :=
  s.j.text ++ run mappings s.startOfRun s.current

theorem run_append (mappings : Bytes) {start current : Nat} (h : start ≤ current) (n : Nat) :
    run mappings start (current + n) =
      run mappings start current ++ (mappings.drop current).take n := by
  obtain ⟨k, rfl⟩ := Nat.exists_eq_add_of_le h
  rw [run, run, Nat.add_assoc, Nat.add_sub_cancel_left, Nat.add_sub_cancel_left, List.take_add,
    List.drop_drop]

/-- The state of the loop in front of a token: `crossed` are the shifts behind it, `rest` those
ahead, and `p` the position in the string as it was. -/
structure Inv (all crossed rest : List SourceMapShifts) (line : Nat) (p : Running) (s : State) :
    Prop where
  eq_all : all = zeroShift :: (crossed ++ rest)
  shifts : s.shifts = crossed.getLast?.getD zeroShift :: rest
  lines : s.generated.lines = Int32.ofNat line
  columns : s.generated.columns.toInt = p.generatedColumn
  behind : ∀ shift ∈ crossed, shift.before.Before line p.generatedColumn
  delta : s.prevShiftColumnDelta.toInt = lineDelta crossed line
  lo : 0 ≤ p.generatedColumn + lineDelta crossed line
  hi : p.generatedColumn + lineDelta crossed line < 2 ^ 31

section turn

variable {all crossed rest : List SourceMapShifts} {line : Nat} {p : Running} {s : State}

theorem Inv.semicolon (h : Inv all crossed rest line p s) :
    Inv all crossed rest (line + 1) p.newLine (semicolonTurn s) := by
  have hlines : ∀ shift ∈ crossed, shift.before.lines.toInt < (line + 1 : Nat) := by
    intro shift hshift
    rcases h.behind shift hshift with hlt | ⟨heq, -⟩
    · omega
    · omega
  have hdelta : lineDelta crossed (line + 1) = 0 := lineDelta_eq_zero hlines
  exact
    { eq_all := h.eq_all
      shifts := h.shifts
      lines := by
        show s.generated.lines + 1 = _
        rw [h.lines, Int32.ofNat_add]
        rfl
      columns := rfl
      behind := fun shift hshift => Or.inl (hlines shift hshift)
      delta := hdelta.symm
      lo := by rw [hdelta]; exact Int.le_refl 0
      hi := by rw [hdelta]; exact Int.pow_pos (by decide) }

/-- In front of a mapping: the shifts that are crossed there. -/
theorem Inv.cross (hshifts : ShiftList all) (h : Inv all crossed rest line p s)
    (generated : LineColumnOffset) (m : TextMapping) (hm : m.generatedLine = line)
    (hline : generated.lines.toInt = line) (hcolumn : generated.columns.toInt = m.generatedColumn)
    (hle : p.generatedColumn ≤ m.generatedColumn) :
    ∃ more rest', rest = more ++ rest' ∧
      crossShifts generated s.shifts =
        ((crossed ++ more).getLast?.getD zeroShift :: rest', !more.isEmpty) ∧
      (∀ shift ∈ crossed ++ more, shift.before.Before line m.generatedColumn) ∧
      shiftOf all m = lineDelta (crossed ++ more) line := by
  have hbefore (shift : SourceMapShifts) := shift.before.comesBefore_iff_before generated hline hcolumn
  have hsorted : (crossed ++ rest).Pairwise fun a b => ¬ b.before.comesBefore a.before := by
    have hall := hshifts.increasing
    rw [h.eq_all] at hall
    exact (List.pairwise_cons.mp hall).2
  have hfalls : Falls (fun next => next.before.comesBefore generated) rest := by
    refine (List.pairwise_append.mp hsorted).2.1.imp fun {a b} hab hb => ?_
    rw [LineColumnOffset.comesBefore_iff] at hab hb ⊢
    omega
  have hsplit : rest = rest.takeWhile (fun next => next.before.comesBefore generated) ++
      rest.dropWhile (fun next => next.before.comesBefore generated) :=
    List.takeWhile_append_dropWhile.symm
  have hbehind : ∀ shift ∈ crossed ++
      rest.takeWhile (fun next => next.before.comesBefore generated),
      shift.before.Before line m.generatedColumn := by
    intro shift hshift
    rcases List.mem_append.mp hshift with hmem | hmem
    · rcases h.behind shift hmem with hlt | ⟨heq, hlt⟩
      · exact Or.inl hlt
      · exact Or.inr ⟨heq, Int.lt_of_lt_of_le hlt hle⟩
    · have hcross := List.mem_takeWhile_imp hmem
      exact (hbefore shift).mp hcross
  refine ⟨_, _, hsplit, ?_, hbehind, ?_⟩
  · rw [h.shifts, crossShifts_eq, List.getLast?_append, Option.getD_or]
  · rw [hsplit, ← List.append_assoc] at hsorted
    have hall := h.eq_all
    rw [hsplit, ← List.append_assoc] at hall
    rw [hall, ← hm]
    rw [← hm] at hbehind
    refine shiftOf_eq_lineDelta (List.pairwise_append.mp hsorted).1 hbehind fun shift hshift => ?_
    have hfalse := hfalls.of_mem_dropWhile shift hshift
    rw [hm, ← hbefore shift, hfalse]
    exact Bool.false_ne_true

/-- The turn at a segment, once the shifts are crossed. -/
theorem segmentTurn_eq {mappings : Bytes} {value : Int32} {next : Nat} {shift : SourceMapShifts}
    {rest' : List SourceMapShifts} {didCross : Bool}
    (hdecode : Vlq.decode mappings s.current = ⟨value, next⟩)
    (hcross : crossShifts { s.generated with columns := s.generated.columns + value } s.shifts =
      (shift :: rest', didCross)) :
    segmentTurn mappings s =
      let s' := { s with
        shifts := shift :: rest'
        generated := { s.generated with columns := s.generated.columns + value }
        current := segmentEnd mappings next }
      if didCross = true ∧ shift.after.lines = s.generated.lines then
        { s' with
          j := (s.j.push (run mappings s.startOfRun s.current)).push (Vlq.encode
            (value + (shift.after.columns - shift.before.columns) - s.prevShiftColumnDelta))
          prevShiftColumnDelta := shift.after.columns - shift.before.columns
          startOfRun := next }
      else s' := by
  unfold segmentTurn
  simp only [hdecode, hcross]
  cases didCross with
  | false => rfl
  | true =>
    by_cases hline : shift.after.lines = s.generated.lines
    · simp only [hline, ne_eq, not_true_eq_false, if_false, and_self, if_true]
    · simp only [hline, ne_eq, not_false_eq_true, if_true, and_false, if_false]

theorem toInt_add_sub_of_lt {a b c : Int32} (hlo : -2 ^ 31 ≤ a.toInt + b.toInt - c.toInt)
    (hhi : a.toInt + b.toInt - c.toInt < 2 ^ 31) :
    (a + b - c).toInt = a.toInt + b.toInt - c.toInt := by
  rw [Int32.toInt_sub, Int32.toInt_add, Int.bmod_sub_bmod]
  exact Int.bmod_eq_of_le (by simpa using hlo) (by simpa using hhi)

/-- **The turn at a segment.**  Its column may be written anew; the position moves on, in the
string as it was and in the string that is written. -/
theorem Inv.segment (hshifts : ShiftList all) (h : Inv all crossed rest line p s) {mappings : Bytes}
    {segment : Segment} {next : Nat}
    (hdecode : Vlq.decode mappings s.current = ⟨segment.generatedColumn.value, next⟩)
    (hline : line < 2 ^ 31)
    (hle : p.generatedColumn ≤ (p.step segment).generatedColumn)
    (hlo : 0 ≤ (p.step segment).generatedColumn) (hhi : (p.step segment).generatedColumn < 2 ^ 31)
    (hshifted : (p.step segment).generatedColumn +
      shiftOf all (segment.mapping line (p.step segment)) < 2 ^ 31) :
    ∃ crossed' rest', ∃ column : Field,
      Inv all crossed' rest' line (p.step segment) (segmentTurn mappings s) ∧
      shiftOf all (segment.mapping line (p.step segment)) = lineDelta crossed' line ∧
      p.generatedColumn + lineDelta crossed line + column.value.toInt =
        (p.step segment).generatedColumn + lineDelta crossed' line ∧
      (segmentTurn mappings s).current = segmentEnd mappings next ∧
      ((segmentTurn mappings s).j = s.j ∧ (segmentTurn mappings s).startOfRun = s.startOfRun ∧
          column = segment.generatedColumn ∨
        (segmentTurn mappings s).j =
            (s.j.push (run mappings s.startOfRun s.current)).push column.bytes ∧
          (segmentTurn mappings s).startOfRun = next) := by
  have hlines : s.generated.lines.toInt = line := by rw [h.lines, Int32.toInt_ofNat_of_lt hline]
  have hstep : (p.step segment).generatedColumn =
      s.generated.columns.toInt + segment.generatedColumn.value.toInt := by
    rw [h.columns]
    rfl
  have hcolumns : (s.generated.columns + segment.generatedColumn.value).toInt =
      (p.step segment).generatedColumn := by
    rw [hstep]
    exact toInt_add_of_lt (by omega) (by omega)
  obtain ⟨more, rest', hrest, hcross, hbehind, hshift⟩ := h.cross hshifts
    { s.generated with columns := s.generated.columns + segment.generatedColumn.value }
    (segment.mapping line (p.step segment)) rfl hlines hcolumns hle
  rw [hshift] at hshifted
  have hall : all = zeroShift :: (crossed ++ more ++ rest') := by
    rw [h.eq_all, hrest, List.append_assoc]
  have hsorted : (crossed ++ more).Pairwise fun a b => ¬ b.before.comesBefore a.before := by
    have hincreasing := hshifts.increasing
    rw [hall] at hincreasing
    exact (List.pairwise_append.mp (List.pairwise_cons.mp hincreasing).2).1
  have hmem : ∀ shift ∈ crossed ++ more, shift ∈ all := by
    intro shift hshift
    rw [hall]
    exact List.mem_cons_of_mem _ (List.mem_append_left _ hshift)
  have hnonneg := lineDelta_nonneg hlo hbehind fun shift hs => (hshifts.nonneg shift (hmem shift hs)).2
  have hturn := segmentTurn_eq hdecode hcross
  by_cases hrewrite : (!more.isEmpty) = true ∧
      ((crossed ++ more).getLast?.getD zeroShift).after.lines = s.generated.lines
  · rw [if_pos hrewrite] at hturn
    obtain ⟨shift, hlast, hsame⟩ := hshifts.last_crossed hmem hrewrite.1
    rw [hlast, Option.getD_some] at hrewrite hturn
    have hdelta : lineDelta (crossed ++ more) line = shift.delta := by
      rw [lineDelta, hlast]
      exact if_pos (by rw [hsame, hrewrite.2, hlines])
    have hsub := hshifts.toInt_sub (hmem shift (List.mem_of_getLast? hlast))
    have hprev := h.delta
    have hlo' := h.lo
    have hhi' := h.hi
    rw [h.columns] at hstep
    -- the difference of two columns that there are
    have hvalue : (segment.generatedColumn.value + (shift.after.columns - shift.before.columns) -
          s.prevShiftColumnDelta).toInt =
        segment.generatedColumn.value.toInt + shift.delta - lineDelta crossed line := by
      rw [toInt_add_sub_of_lt (by omega) (by omega), hsub, hprev]
    obtain ⟨column, hbytes, hcolumn⟩ := Field.exists_encode (v := segment.generatedColumn.value +
      (shift.after.columns - shift.before.columns) - s.prevShiftColumnDelta) (by omega)
    refine ⟨crossed ++ more, rest', column, ?_, hshift, ?_, ?_, Or.inr ⟨?_, ?_⟩⟩
    · rw [hturn]
      exact
        { eq_all := hall
          shifts := by rw [hlast]; rfl
          lines := h.lines
          columns := hcolumns
          behind := hbehind
          delta := hsub.trans hdelta.symm
          lo := hnonneg
          hi := hshifted }
    · rw [hcolumn, hvalue, hdelta]
      omega
    · rw [hturn]
    · rw [hturn, hbytes]
    · rw [hturn]
  · rw [if_neg hrewrite] at hturn
    have hdelta : lineDelta (crossed ++ more) line = lineDelta crossed line := by
      cases hmore : !more.isEmpty with
      | false =>
        rw [Bool.not_eq_false', List.isEmpty_iff] at hmore
        rw [hmore, List.append_nil]
      | true =>
        obtain ⟨shift, hlast, hsame⟩ := hshifts.last_crossed hmem hmore
        rw [hlast, Option.getD_some] at hrewrite
        have hne : shift.before.lines.toInt ≠ line := by
          intro heq
          refine hrewrite ⟨hmore, ?_⟩
          rw [← hsame, ← Int32.toInt_inj, heq, hlines]
        have hlt := lines_lt_of_last hsorted hbehind hlast hne
        rw [lineDelta_eq_zero hlt,
          lineDelta_eq_zero fun shift hshift => hlt shift (List.mem_append_left _ hshift)]
    refine ⟨crossed ++ more, rest', segment.generatedColumn, ?_, hshift, ?_, ?_, Or.inl ?_⟩
    · rw [hturn]
      exact
        { eq_all := hall
          shifts := rfl
          lines := h.lines
          columns := hcolumns
          behind := hbehind
          delta := h.delta.trans hdelta.symm
          lo := hnonneg
          hi := hshifted }
    · rw [hdelta]
      show _ = p.generatedColumn + segment.generatedColumn.value.toInt + _
      exact Int.add_right_comm _ _ _
    · rw [hturn]
    · rw [hturn]
      exact ⟨rfl, rfl, rfl⟩

end turn

/-! ### Behind a segment -/

variable {ts commas : List Token} {mappings : Bytes} {next line : Nat} {segment : Segment}
  {all : List SourceMapShifts} {column : Int} {ms : List TextMapping}

/-- What stands behind a segment: nothing, a semicolon, or a comma that belongs to it. -/
theorem exists_comma (hts : Formed .behindSegment ts) :
    ∃ place commas ts', ts = commas ++ ts' ∧ Formed place ts' ∧ (∀ u, ts' ≠ .comma :: u) ∧
      (place = .behindSegment ∧ commas = [] ∧ (tokensText ts').head? ≠ some comma ∨
        place = .behindComma ∧ commas = [.comma]) := by
  cases ts with
  | nil =>
    exact ⟨.behindSegment, [], [], rfl, hts, fun _ => (absurd · (by simp)),
      Or.inl ⟨rfl, rfl, by decide⟩⟩
  | cons t ts =>
    cases t with
    | semicolon =>
      refine ⟨.behindSegment, [], _, rfl, hts, fun _ => (absurd · (by simp)), Or.inl ⟨rfl, rfl, ?_⟩⟩
      show some semicolon ≠ some comma
      decide
    | comma =>
      refine ⟨.behindComma, [.comma], ts, rfl, hts.2, ?_, Or.inr ⟨rfl, rfl⟩⟩
      rintro u rfl
      exact absurd hts.2.1 (by rintro ⟨⟩)
    | segment s => exact absurd rfl hts.1

theorem head_behindSegment (hts : Formed .behindSegment ts) {c : UInt8}
    (hc : (tokensText ts).head? = some c) : c = comma ∨ c = semicolon := by
  cases ts with
  | nil => exact absurd hc (by rintro ⟨⟩)
  | cons t ts =>
    cases t with
    | semicolon => exact Or.inr (Option.some.inj hc).symm
    | comma => exact Or.inl (Option.some.inj hc).symm
    | segment s => exact absurd rfl hts.1

theorem skipName_eq {k : Nat} {name : Option Field}
    (hdrop : mappings.drop k = (name.map Field.bytes).getD [] ++ tokensText ts)
    (hts : Formed .behindSegment ts) :
    skipName mappings k = k + ((name.map Field.bytes).getD []).length ∧
      mappings.drop (k + ((name.map Field.bytes).getD []).length) = tokensText ts := by
  have hhead := congrArg List.head? hdrop
  rw [List.head?_drop] at hhead
  unfold skipName
  cases name with
  | none =>
    refine ⟨?_, hdrop⟩
    rw [hhead]
    split
    · next c hc =>
        have hsep := head_behindSegment hts hc
        rw [if_neg fun h => hsep.elim h.1 h.2]
        rfl
    · rfl
  | some f =>
    obtain ⟨b, bs, hbytes, hcomma, hsemicolon⟩ := f.exists_head
    obtain ⟨hdecode, hrest⟩ := f.decode_at hdrop
    refine ⟨?_, hrest⟩
    rw [hhead, hdecode]
    simp [hbytes, hcomma, hsemicolon]

/-- The end of a segment, past its comma. -/
theorem segmentEnd_eq (hdrop : mappings.drop next = segment.tailBytes ++ tokensText ts)
    (hts : Formed .behindSegment ts) :
    segmentEnd mappings next = next + segment.tailBytes.length +
      if (tokensText ts).head? = some comma then 1 else 0 := by
  simp only [Segment.tailBytes, List.append_assoc] at hdrop
  obtain ⟨hindex, hdrop⟩ := segment.sourceIndex.decode_at hdrop
  obtain ⟨hline, hdrop⟩ := segment.originalLine.decode_at hdrop
  obtain ⟨hcolumn, hdrop⟩ := segment.originalColumn.decode_at hdrop
  obtain ⟨hname, hdrop⟩ := skipName_eq hdrop hts
  have hhead := congrArg List.head? hdrop
  rw [List.head?_drop] at hhead
  unfold segmentEnd
  simp only [hindex, hline, hcolumn, hname, hhead, Segment.tailBytes, List.length_append]
  split <;> omega

theorem segmentEnd_commas {place : Place}
    (hdrop : mappings.drop next = segment.tailBytes ++ tokensText (commas ++ ts))
    (hts : Formed .behindSegment (commas ++ ts))
    (hcommas : place = .behindSegment ∧ commas = [] ∧ (tokensText ts).head? ≠ some comma ∨
        place = .behindComma ∧ commas = [.comma]) :
    segmentEnd mappings next = next + (segment.tailBytes ++ tokensText commas).length := by
  rw [segmentEnd_eq hdrop hts, List.length_append, ← Nat.add_assoc]
  rcases hcommas with ⟨-, rfl, hhead⟩ | ⟨-, rfl⟩
  · rw [List.nil_append, if_neg hhead]
    rfl
  · rfl

theorem tokenMappings_commas (h : commas = [] ∨ commas = [.comma]) (line : Nat) (p : Running)
    (ts : List Token) :
    tokenMappings line p (commas ++ ts) = tokenMappings line p ts := by
  rcases h with rfl | rfl <;> rfl

/-! ### The loop -/

/-- A position, and by how much the columns moved there. -/
def moved (p : Running) (d : Int) : Running := { p with generatedColumn := p.generatedColumn + d }

theorem moved_zero (p : Running) : moved p 0 = p := by
  rw [moved, Int.add_zero]

/-- A segment with another column. -/
theorem moved_step {p : Running} {column : Field} {d d' : Int}
    (h : p.generatedColumn + d + column.value.toInt = (p.step segment).generatedColumn + d') :
    (moved p d).step { segment with generatedColumn := column } = moved (p.step segment) d' := by
  simp only [moved, Running.step] at h ⊢
  rw [h]

/-- The mappings that are still to come: in order, in range, and not in front of a column of
the line. -/
structure Ahead (all : List SourceMapShifts) (line : Nat) (column : Int) (ms : List TextMapping) :
    Prop where
  lines : ∀ m ∈ ms, m.generatedLine < 2 ^ 31
  columns : ∀ m ∈ ms, 0 ≤ m.generatedColumn ∧ m.generatedColumn < 2 ^ 31
  shifted : ∀ m ∈ ms, m.generatedColumn + shiftOf all m < 2 ^ 31
  ordered : ms.Pairwise fun m m' => m.generatedLine = m'.generatedLine →
    m.generatedColumn ≤ m'.generatedColumn
  ahead : ∀ m ∈ ms, m.generatedLine = line → column ≤ m.generatedColumn

theorem Ahead.newLine (h : Ahead all line column ms) : Ahead all (line + 1) 0 ms :=
  { h with ahead := fun m hm _ => (h.columns m hm).1 }

theorem Ahead.tail {m : TextMapping} (h : Ahead all line column (m :: ms)) (hm : m.generatedLine = line) :
    Ahead all line m.generatedColumn ms where
  lines := fun m' hm' => h.lines m' (List.mem_cons_of_mem _ hm')
  columns := fun m' hm' => h.columns m' (List.mem_cons_of_mem _ hm')
  shifted := fun m' hm' => h.shifted m' (List.mem_cons_of_mem _ hm')
  ordered := (List.pairwise_cons.mp h.ordered).2
  ahead := fun m' hm' hline =>
    (List.pairwise_cons.mp h.ordered).1 m' hm' (hm.trans hline.symm)

section loop

variable {all crossed rest : List SourceMapShifts} {mappings : Bytes} {s : State}

theorem drop_of_append {k : Nat} {a b : Bytes} (h : mappings.drop k = a ++ b) :
    mappings.drop (k + a.length) = b := by
  rw [← List.drop_drop, h, List.drop_left]

variable {segment : Segment} {column : Field} {fuel line : Nat} {p : Running} {d : Int} {place : Place}
  {ts : List Token}

/-- What is written by the turn at a segment. -/
theorem written_segment {next : Nat} {commas rest : Bytes} {s' : State}
    (hnext : next = s.current + segment.generatedColumn.bytes.length)
    (hcurrent : s'.current = next + (segment.tailBytes ++ commas).length)
    (hdrop : mappings.drop s.current =
      segment.generatedColumn.bytes ++ ((segment.tailBytes ++ commas) ++ rest))
    (hstart : s.startOfRun ≤ s.current)
    (hwrites : s'.j = s.j ∧ s'.startOfRun = s.startOfRun ∧ column = segment.generatedColumn ∨
      s'.j = (s.j.push (run mappings s.startOfRun s.current)).push column.bytes ∧
        s'.startOfRun = next) :
    s'.startOfRun ≤ s'.current ∧ mappings.drop s'.current = rest ∧
      s'.written mappings = s.written mappings ++ (column.bytes ++ (segment.tailBytes ++ commas)) := by
  have htail := drop_of_append hdrop
  rw [← hnext] at htail
  have hrest := drop_of_append htail
  rw [← hcurrent] at hrest
  rcases hwrites with ⟨hj, hrun, rfl⟩ | ⟨hj, hrun⟩
  · refine ⟨by rw [hrun]; omega, hrest, ?_⟩
    rw [State.written, hj, hrun, hcurrent, hnext, run_append _ (by omega), run_append _ hstart,
      ← hnext, htail, hdrop, List.take_left, List.take_left, State.written]
    simp only [List.append_assoc]
  · refine ⟨by rw [hrun]; omega, hrest, ?_⟩
    have hrun' : run mappings s'.startOfRun s'.current = segment.tailBytes ++ commas := by
      rw [run, hrun, hcurrent, htail, Nat.add_sub_cancel_left, List.take_left]
    rw [State.written, hrun', hj, StringJoiner.text_push, StringJoiner.text_push, State.written]
    simp only [List.append_assoc]

theorem loop_end (fuel : Nat) (h : mappings.drop s.current = []) : loop mappings fuel s = some s := by
  have hlt : ¬ s.current < mappings.length := Nat.not_lt.mpr (List.drop_eq_nil_iff.mp h)
  cases fuel <;> rw [loop, if_neg hlt]

theorem loop_turn (fuel : Nat) {b : UInt8} {bs : Bytes} (h : mappings.drop s.current = b :: bs) :
    loop mappings (fuel + 1) s = loop mappings fuel
      (if b = semicolon then semicolonTurn s else segmentTurn mappings s) := by
  have hlt : s.current < mappings.length := by
    by_contra hge
    rw [List.drop_eq_nil_of_le (Nat.not_lt.mp hge)] at h
    exact absurd h (by simp)
  have hhead := congrArg List.head? h
  rw [List.head?_drop, List.head?_cons] at hhead
  rw [loop, if_pos hlt, hhead]
  simp only [Option.some.injEq]

/-- What the loop does with tokens in front of it. -/
def Writes (all : List SourceMapShifts) (mappings : Bytes) (fuel : Nat) (s : State) (line : Nat)
    (p : Running) (d : Int) (place : Place) (ts : List Token) : Prop :=
  ∃ s' ts', loop mappings fuel s = some s' ∧
    s'.j.text ++ mappings.drop s'.startOfRun = s.written mappings ++ tokensText ts' ∧
    Formed place ts' ∧
    tokenMappings line (moved p d) ts' = (tokenMappings line p ts).map (shiftMapping all)

theorem writes_nil (hplace : place ≠ .behindComma) (hdrop : mappings.drop s.current = [])
    (hstart : s.startOfRun ≤ s.current) : Writes all mappings fuel s line p d place [] := by
  refine ⟨s, [], loop_end fuel hdrop, ?_, hplace, rfl⟩
  obtain ⟨k, hk⟩ := Nat.exists_eq_add_of_le hstart
  have hlen : (mappings.drop s.startOfRun).length ≤ k := by
    have := List.drop_eq_nil_iff.mp hdrop
    rw [List.length_drop]
    omega
  rw [State.written, run, hk, Nat.add_sub_cancel_left, List.take_of_length_le hlen]
  exact (List.append_nil _).symm

theorem writes_semicolon (hplace : place ≠ .behindComma)
    (hdrop : mappings.drop s.current = semicolon :: tokensText ts) (hstart : s.startOfRun ≤ s.current)
    (h : Writes all mappings fuel (semicolonTurn s) (line + 1) p.newLine 0 .lineStart ts) :
    Writes all mappings (fuel + 1) s line p d place (.semicolon :: ts) := by
  obtain ⟨s', ts', hloop, hwritten, hformed, hmappings⟩ := h
  refine ⟨s', .semicolon :: ts', ?_, ?_, ⟨hplace, hformed⟩, ?_⟩
  · rw [loop_turn fuel hdrop, if_pos rfl]
    exact hloop
  · have hrun : (semicolonTurn s).written mappings = s.written mappings ++ [semicolon] := by
      rw [State.written, State.written, List.append_assoc]
      show s.j.text ++ run mappings s.startOfRun (s.current + 1) = _
      rw [run_append mappings hstart, hdrop]
      rfl
    rw [hwritten, hrun, List.append_assoc]
    rfl
  · rw [moved_zero] at hmappings
    exact hmappings

theorem writes_segment {d' : Int} {place' : Place} {commas : List Token} (hplace : place ≠ .behindSegment)
    (hcommas : place' = .behindSegment ∧ commas = [] ∨ place' = .behindComma ∧ commas = [.comma])
    (hdrop : mappings.drop s.current = segment.bytes ++ tokensText (commas ++ ts))
    (hwritten : (segmentTurn mappings s).written mappings = s.written mappings ++
      (column.bytes ++ (segment.tailBytes ++ tokensText commas)))
    (hcolumn : p.generatedColumn + d + column.value.toInt = (p.step segment).generatedColumn + d')
    (hshift : shiftOf all (segment.mapping line (p.step segment)) = d')
    (h : Writes all mappings fuel (segmentTurn mappings s) line (p.step segment) d' place' ts) :
    Writes all mappings (fuel + 1) s line p d place (.segment segment :: (commas ++ ts)) := by
  obtain ⟨s', ts', hloop, hwritten', hformed, hmappings⟩ := h
  have hbehind : Formed .behindSegment (commas ++ ts') := by
    rcases hcommas with ⟨rfl, rfl⟩ | ⟨rfl, rfl⟩
    · exact hformed
    · exact ⟨rfl, hformed⟩
  have hskip := hcommas.imp And.right And.right
  refine ⟨s', .segment { segment with generatedColumn := column } :: (commas ++ ts'), ?_, ?_,
    ⟨hplace, hbehind⟩, ?_⟩
  · obtain ⟨b, bs, hbytes, hb⟩ := segment.exists_head
    rw [hbytes] at hdrop
    rw [loop_turn fuel hdrop, if_neg hb]
    exact hloop
  · rw [hwritten', hwritten, List.append_assoc]
    rw [tokensText_segment, tokensText_append]
    simp only [List.append_assoc]
    rfl
  · rw [tokenMappings, tokenMappings, moved_step hcolumn, tokenMappings_commas hskip,
      tokenMappings_commas hskip, hmappings, List.map_cons]
    congr 1
    rw [shiftMapping, hshift]
    rfl

/-- **The loop.**  From any state that the invariant holds of, the rest of the string is written
with every mapping shifted. -/
theorem loop_writes (hshifts : ShiftList all) (fuel : Nat) : ∀ {crossed rest : List SourceMapShifts}
    {line : Nat} {p : Running} {s : State} {place : Place} {ts : List Token},
    Inv all crossed rest line p s → Formed place ts → (∀ u, ts ≠ .comma :: u) →
    mappings.drop s.current = tokensText ts → s.startOfRun ≤ s.current →
    (tokensText ts).length ≤ fuel → Ahead all line p.generatedColumn (tokenMappings line p ts) →
    Writes all mappings fuel s line p (lineDelta crossed line) place ts := by
  induction fuel with
  | zero =>
    intro crossed rest line p s place ts hinv hts hcomma hdrop hstart hfuel hahead
    cases ts with
    | nil => exact writes_nil hts hdrop hstart
    | cons t ts =>
      rw [tokensText, List.flatMap_cons, List.length_append] at hfuel
      exact absurd (Nat.eq_zero_of_le_zero (Nat.le_trans (Nat.le_add_right _ _) hfuel))
        (Nat.ne_of_gt (List.length_pos_of_ne_nil t.bytes_ne_nil))
  | succ fuel ih =>
    intro crossed rest line p s place ts hinv hts hcomma hdrop hstart hfuel hahead
    cases ts with
    | nil => exact writes_nil hts hdrop hstart
    | cons t ts =>
      cases t with
      | semicolon =>
        have hnext := hinv.semicolon
        refine writes_semicolon hts.1 hdrop hstart ?_
        have hdelta : lineDelta crossed (line + 1) = 0 := hnext.delta.symm
        have hwrites := ih hnext hts.2 ?_ ?_ ?_ ?_ hahead.newLine
        · rw [hdelta] at hwrites
          exact hwrites
        · rintro u rfl
          exact absurd hts.2.1 (by rintro ⟨⟩)
        · exact drop_of_append (a := [semicolon]) hdrop
        · exact Nat.le_succ_of_le hstart
        · exact Nat.le_of_succ_le_succ hfuel
      | comma => exact absurd rfl (hcomma ts)
      | segment segment =>
        obtain ⟨place', commas, ts, rfl, hts', hcomma', hcommas⟩ := exists_comma hts.2
        have hm := List.mem_cons_self (a := segment.mapping line (p.step segment))
          (l := tokenMappings line (p.step segment) (commas ++ ts))
        rw [tokensText_segment] at hdrop hfuel
        obtain ⟨hdecode, htail⟩ := segment.generatedColumn.decode_at hdrop
        obtain ⟨crossed', rest', column, hinv', hshift, hcolumn, hcurrent, hwrites⟩ :=
          hinv.segment hshifts hdecode (hahead.lines _ hm) (hahead.ahead _ hm rfl)
            (hahead.columns _ hm).1 (hahead.columns _ hm).2 (hahead.shifted _ hm)
        rw [segmentEnd_commas htail hts.2 hcommas] at hcurrent
        rw [tokensText_append, ← List.append_assoc segment.tailBytes] at hdrop
        obtain ⟨hstart', hdrop', hwritten⟩ :=
          written_segment rfl hcurrent hdrop hstart hwrites
        have hnext : Writes all mappings fuel (segmentTurn mappings s) line (p.step segment)
            (lineDelta crossed' line) place' ts := by
          refine ih hinv' hts' hcomma' hdrop' hstart' ?_ ?_
          · rw [tokensText_append] at hfuel
            have hpos := List.length_pos_of_ne_nil segment.generatedColumn.ne_nil
            simp only [List.length_append] at hfuel
            omega
          · have htail := hahead.tail rfl
            rwa [tokenMappings_commas (hcommas.imp (·.2.1) (·.2))] at htail
        refine writes_segment hts.1 (hcommas.imp (fun h => ⟨h.1, h.2.1⟩) id) ?_ hwritten hcolumn
          hshift hnext
        rw [hdrop, Segment.bytes, tokensText_append]
        simp only [List.append_assoc]

theorem written_init (pieces : SourceMapPieces) (shifts : List SourceMapShifts) :
    (init pieces shifts).written pieces.mappings = pieces.prefixBytes := by
  show (StringJoiner.push ⟨[], by simp⟩ pieces.prefixBytes).text ++ run pieces.mappings 0 0 = _
  rw [StringJoiner.text_push, run, Nat.sub_self, List.take_zero, List.append_nil]
  rfl

theorem exists_inv_init (pieces : SourceMapPieces) (hshifts : ShiftList all) :
    ∃ rest, Inv all [] rest 0 Running.zero (init pieces all) := by
  obtain ⟨rest, rfl⟩ := List.head?_eq_some_iff.mp hshifts.zero
  exact ⟨rest,
    { eq_all := rfl
      shifts := rfl
      lines := rfl
      columns := rfl
      behind := fun _ h => absurd h (by simp)
      delta := rfl
      lo := Int.le_refl 0
      hi := by decide }⟩

end loop

end Finalize

/-- **Columns after placeholders.**  The string that is written has the mappings of the string
before, each with its column moved by the last shift that applies to it. -/
theorem decodeMappings_finalize {pieces : SourceMapPieces} {shifts : List SourceMapShifts}
    {ms : List TextMapping} (hshifts : ShiftList shifts)
    (hms : decodeMappings pieces.mappings = some ms)
    (hordered : ms.Pairwise fun m m' => m.generatedLine = m'.generatedLine →
      m.generatedColumn ≤ m'.generatedColumn)
    (hcolumns : ∀ m ∈ ms, 0 ≤ m.generatedColumn ∧ m.generatedColumn < 2 ^ 31)
    (hlines : ∀ m ∈ ms, m.generatedLine < 2 ^ 31)
    (hshifted : ∀ m ∈ ms, (shiftMapping shifts m).generatedColumn < 2 ^ 31) :
    ∃ written, pieces.finalize shifts = some (pieces.prefixBytes ++ written ++ pieces.suffix) ∧
      decodeMappings written = some (ms.map (shiftMapping shifts)) := by
  obtain ⟨ts, hts, htext, rfl⟩ := (decodeMappings_eq_some_iff _ ms).mp hms
  unfold SourceMapPieces.finalize
  split
  · next hempty =>
      obtain ⟨hmappings, hsuffix⟩ := hempty
      rw [hmappings] at htext hms
      have hts : ts = [] := by
        cases ts with
        | nil => rfl
        | cons t ts => exact absurd (List.append_eq_nil_iff.mp htext).1 t.bytes_ne_nil
      refine ⟨[], by rw [hsuffix, List.append_nil, List.append_nil], ?_⟩
      rw [hts] at hms ⊢
      exact hms
  · obtain ⟨rest, hinv⟩ := Finalize.exists_inv_init pieces hshifts
    have hcomma : ∀ u, ts ≠ .comma :: u := by
      rintro u rfl
      exact absurd hts.1 (by rintro ⟨⟩)
    obtain ⟨s', ts', hloop, hwritten, hformed, hmappings⟩ := Finalize.loop_writes hshifts
      pieces.mappings.length hinv hts hcomma htext.symm (Nat.le_refl 0) (Nat.le_of_eq (congrArg _ htext))
      ⟨hlines, hcolumns, hshifted, hordered, fun m hm _ => (hcolumns m hm).1⟩
    refine ⟨tokensText ts', ?_, ?_⟩
    · rw [hloop, Option.map_some, StringJoiner.text_push, hwritten, Finalize.written_init]
    · exact (decodeMappings_eq_some_iff _ _).mpr ⟨ts', hformed, rfl, hmappings⟩

/-- `AAAA,UAAAC;KACA` with a shift at column 5 of the first line. -/
theorem decodeMappings_finalize_shifted :
    ∃ written, SourceMapPieces.finalize ⟨[123], [65, 65, 65, 65, 44, 85, 65, 65, 65, 67, 59, 75, 65,
        67, 65], [125]⟩ [⟨⟨0, 0⟩, ⟨0, 0⟩⟩, ⟨⟨0, 5⟩, ⟨0, 8⟩⟩] = some ([123] ++ written ++ [125]) ∧
      decodeMappings written = some ([⟨0, 0, 0, 0, 0, none⟩, ⟨0, 10, 0, 0, 0, some 1⟩,
        ⟨1, 5, 0, 1, 0, none⟩].map (shiftMapping [⟨⟨0, 0⟩, ⟨0, 0⟩⟩, ⟨⟨0, 5⟩, ⟨0, 8⟩⟩])) :=
  decodeMappings_finalize
    ⟨rfl, by decide, by decide, by decide⟩ (by decide) (by decide) (by decide) (by decide)
    (by decide)

/-- **A column that falls.**  `UAAA,RAAA` has its mappings at columns 10 and 2, and the shift at
column 5 is behind the second; the code shifts it along with the first.  A column that leaves
the `i32`s is lost too: `+/////DAAA` is at the last of them. -/
theorem decodeMappings_finalize_ne :
    decodeMappings [85, 65, 65, 65, 44, 82, 65, 65, 65] =
        some [⟨0, 10, 0, 0, 0, none⟩, ⟨0, 2, 0, 0, 0, none⟩] ∧
    ShiftList [⟨⟨0, 0⟩, ⟨0, 0⟩⟩, ⟨⟨0, 5⟩, ⟨0, 8⟩⟩] ∧
    (∃ written, SourceMapPieces.finalize ⟨[123], [85, 65, 65, 65, 44, 82, 65, 65, 65], [125]⟩
        [⟨⟨0, 0⟩, ⟨0, 0⟩⟩, ⟨⟨0, 5⟩, ⟨0, 8⟩⟩] = some ([123] ++ written ++ [125]) ∧
      decodeMappings written = some [⟨0, 13, 0, 0, 0, none⟩, ⟨0, 5, 0, 0, 0, none⟩]) ∧
    [⟨0, 10, 0, 0, 0, none⟩, ⟨0, 2, 0, 0, 0, none⟩].map
        (shiftMapping [⟨⟨0, 0⟩, ⟨0, 0⟩⟩, ⟨⟨0, 5⟩, ⟨0, 8⟩⟩]) =
      [⟨0, 13, 0, 0, 0, none⟩, ⟨0, 2, 0, 0, 0, none⟩] ∧
    decodeMappings [43, 47, 47, 47, 47, 47, 68, 65, 65, 65] =
        some [⟨0, 2147483647, 0, 0, 0, none⟩] ∧
    (∃ written, SourceMapPieces.finalize ⟨[123], [43, 47, 47, 47, 47, 47, 68, 65, 65, 65], [125]⟩
        [⟨⟨0, 0⟩, ⟨0, 0⟩⟩, ⟨⟨0, 5⟩, ⟨0, 8⟩⟩] = some ([123] ++ written ++ [125]) ∧
      decodeMappings written ≠ some [⟨0, 2147483650, 0, 0, 0, none⟩]) ∧
    [⟨0, 2147483647, 0, 0, 0, none⟩].map (shiftMapping [⟨⟨0, 0⟩, ⟨0, 0⟩⟩, ⟨⟨0, 5⟩, ⟨0, 8⟩⟩]) =
      [⟨0, 2147483650, 0, 0, 0, none⟩] :=
  ⟨by decide, ⟨rfl, by decide, by decide, by decide⟩,
    ⟨[97, 65, 65, 65, 44, 82, 65, 65, 65], by decide, by decide⟩, by decide, by decide,
    ⟨[57, 47, 47, 47, 47, 47, 68, 65, 65, 65], by decide, by decide⟩, by decide⟩

end OhosBun.SourceMap
