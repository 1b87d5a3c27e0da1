/-
# `OhosBun.SourceMap.LineOffsetTable` — from byte offsets to lines and columns

The printer knows an original place by its byte offset.  `generate` reads the source
once and keeps a row for each line: where the line starts, and for a line that is
not ASCII a column for every byte from its first non-ASCII byte on.  `find_line`
looks the row of an offset up, and `add_source_mapping` reads the column off it.

The text is in front of the offset and behind it: `pre ++ post`.  `Rows` says of the
rows what they are for, line by line; the loop makes such rows (`generateLoop_rows`)
and the search in them finds what `positionAfter` counts (`findLine_generate`).
-/
import OhosBun.Lib.Search
import OhosBun.SourceMap.Wtf8

namespace OhosBun.SourceMap

open OhosBun.Lib

/-! ## The table -/

/-- `MAX_PARSEABLE_LEN`: positions are `i32`, and no parser takes a longer source. -/
def maxParseableLen : Nat := 2 ^ 31 - 1

structure LineOffsetTable where
  columnsForNonAscii : List Nat
  byteOffsetToFirstNonAscii : Nat
  byteOffsetToStartOfLine : Nat
  deriving DecidableEq

/-- The offset of the first non-ASCII byte of a line that has none, `i32::MAX`. -/
def noNonAscii : Nat := 2 ^ 31 - 1

namespace LineOffsetTable

/-- The variables of `generate_in`.  They are `u32` and `i32` there; in a source that can be
parsed no count of its bytes wraps. -/
structure Scan where
  list : List LineOffsetTable
  column : Nat
  byteOffsetToFirstNonAscii : Nat
  columnByteOffset : Nat
  lineByteOffset : Nat
  columnsForNonAscii : List Nat
  deriving DecidableEq

namespace Scan

def init : Scan := ⟨[], 0, noNonAscii, 0, 0, []⟩

/-- Update the per-byte column offsets, up to the byte at `offset`. -/
def extend (s : Scan) (offset : Nat) : Scan :=
  let lineBytesSoFar := offset - s.lineByteOffset
  let need := lineBytesSoFar - s.columnByteOffset + 1
  { s with
    columnsForNonAscii := s.columnsForNonAscii ++ List.replicate need s.column
    columnByteOffset := lineBytesSoFar + 1 }

/-- The first half of a turn, at a code point. -/
def enter (s : Scan) (c : Int) (offset : Nat) : Scan :=
  let s := if s.column = 0 then { s with lineByteOffset := offset } else s
  let s := if c > 0x7F ∧ s.byteOffsetToFirstNonAscii = noNonAscii then
      { s with
        columnByteOffset := offset - s.lineByteOffset
        byteOffsetToFirstNonAscii := offset - s.lineByteOffset }
    else s
  if s.byteOffsetToFirstNonAscii ≠ noNonAscii then s.extend offset else s

def row (s : Scan) : LineOffsetTable :=
  ⟨s.columnsForNonAscii, s.byteOffsetToFirstNonAscii, s.lineByteOffset⟩

def endLine (s : Scan) : Scan := { init with list := s.list ++ [s.row] }

/-- Behind the loop: the row of the last line. -/
def finish (s : Scan) (contents : Bytes) : List LineOffsetTable :=
  let s := if s.column = 0 then { s with lineByteOffset := contents.length } else s
  let s := if s.columnsForNonAscii ≠ [] then s.extend contents.length else s
  s.list ++ [s.row]

end Scan

/-- The loop of `generate_in`; every turn takes a byte of `remaining`, and `none` is the panic of
an integer cast. -/
def generateLoop (contents : Bytes) : (fuel : Nat) → (remaining : Bytes) → Scan → Option Scan
  | 0, _, s => some s
  | fuel + 1, remaining, s =>
    if remaining = [] then some s
    else
      let (c, len) := readRune remaining 0
      let cpLen := min len remaining.length
      let s := s.enter c (contents.length - remaining.length)
      if s.byteOffsetToFirstNonAscii = noNonAscii ∧ 14 ≤ c ∧ c ≤ 127 then
        -- skip ahead to the next newline or non-ascii character
        match indexOfNewlineOrNonAscii remaining cpLen with
        | some j =>
          if j < 2 ^ 31 then
            generateLoop contents fuel (remaining.drop j) { s with column := s.column + j }
          else none
        | none =>
          if remaining.length < 2 ^ 31 then some { s with column := s.column + remaining.length }
          else none
      else if c = 0x0D ∨ c = 0x0A ∨ c = 0x2028 ∨ c = 0x2029 then
        -- windows newline
        if c = 0x0D ∧ remaining[1]? = some 10 then
          generateLoop contents fuel (remaining.drop 1) { s with column := s.column + 1 }
        else
          generateLoop contents fuel (remaining.drop cpLen) s.endLine
      else
        generateLoop contents fuel (remaining.drop cpLen)
          { s with column := s.column + (if c > 0xFFFF then 2 else 1) }

def generate (contents : Bytes) : Option (List LineOffsetTable) :=
  (generateLoop contents contents.length contents .init).map (·.finish contents)

/-! ## The lookup -/

/-- `find_line`, −1 in front of the first line. -/
def findLine (byteOffsetsToStartOfLine : List Nat) (loc : Nat) : Int :=
  upperBound (fun i => byteOffsetsToStartOfLine.getD i 0 ≤ loc) 0 byteOffsetsToStartOfLine.length - 1

/-- `find_line_with_hint`: the line of the previous mapping and the two behind it are tried first. -/
def findLineWithHint (offsets : List Nat) (loc hint : Nat) : Int :=
  if hint < offsets.length ∧ offsets.getD hint 0 ≤ loc then
    if hint + 1 = offsets.length ∨ loc < offsets.getD (hint + 1) 0 then hint
    else if hint + 2 = offsets.length ∨ loc < offsets.getD (hint + 2) 0 then hint + 1
    else if hint + 3 = offsets.length ∨ loc < offsets.getD (hint + 3) 0 then hint + 2
    else findLine offsets loc
  else findLine offsets loc

/-- The original column in `add_source_mapping`; `none` is an index out of bounds. -/
def originalColumn (row : LineOffsetTable) (loc : Nat) : Option Int :=
  let originalColumn : Int := loc - row.byteOffsetToStartOfLine
  if originalColumn ≥ row.byteOffsetToFirstNonAscii ∧ row.columnsForNonAscii ≠ [] then
    row.columnsForNonAscii[(originalColumn - row.byteOffsetToFirstNonAscii).toNat]?.map (↑)
  else some originalColumn

/-- The original position that `add_source_mapping` records, from the table and the line of the
previous mapping. -/
def originalPosition (list : List LineOffsetTable) (loc hint : Nat) : Option (Int × Int) := do
  let originalLine := findLineWithHint (list.map (·.byteOffsetToStartOfLine)) loc hint
  let row ← list[originalLine.toNat]?
  let column ← row.originalColumn loc
  some (max originalLine 0, max column 0)

/-! ## Columns -/

/-- UTF-16 code units of a text. -/
def units (cs : List Char) : Nat := (cs.map utf16Length).sum

theorem units_append (a b : List Char) : units (a ++ b) = units a + units b := by
  rw [units, List.map_append, List.sum_append]
  rfl

theorem units_singleton (c : Char) : units [c] = utf16Length c := Nat.add_zero _

theorem utf16Length_pos (c : Char) : 0 < utf16Length c := by
  unfold utf16Length
  split
  · exact Nat.two_pos
  · exact Nat.one_pos

theorem units_eq_zero_iff (cs : List Char) : units cs = 0 ↔ cs = [] := by
  cases cs with
  | nil => exact ⟨fun _ => rfl, fun _ => rfl⟩
  | cons c cs =>
    have hpos := utf16Length_pos c
    rw [units, List.map_cons, List.sum_cons]
    exact ⟨fun h => by omega, fun h => absurd h (by simp)⟩

variable {cs todo post : List Char} {contents : Bytes}

/-- An ASCII text has a byte, and a code unit, for every character. -/
theorem ascii_counts (h : ∀ c ∈ cs, c.toNat ≤ 127) :
    (utf8 cs).length = cs.length ∧ units cs = cs.length := by
  induction cs with
  | nil => exact ⟨rfl, rfl⟩
  | cons c cs ih =>
    obtain ⟨hbytes, hunits⟩ := ih fun d hd => h d (List.mem_cons_of_mem _ hd)
    have hc := h c List.mem_cons_self
    rw [utf8_cons, List.length_append, ← width, width_ascii hc, hbytes, units, List.map_cons,
      List.sum_cons, ← units, hunits, utf16Length_ascii hc, List.length_cons, Nat.add_comm]
    exact ⟨rfl, rfl⟩

/-- The columns behind the bytes of a text: inside a character they are already those of the next. -/
def pads (column : Nat) : List Char → List Nat
  | [] => []
  | c :: cs => List.replicate (width c) (column + utf16Length c) ++ pads (column + utf16Length c) cs

theorem pads_append (a b : List Char) : ∀ column : Nat,
    pads column (a ++ b) = pads column a ++ pads (column + units a) b := by
  induction a with
  | nil => exact fun _ => rfl
  | cons c a ih =>
    intro column
    rw [List.cons_append, pads, ih, pads, List.append_assoc, Nat.add_assoc]
    rfl

/-- The column at the end of a text stands at its last byte. -/
theorem getElem?_pads (a b : List Char) : ∀ column : Nat,
    (column :: pads column (a ++ b))[(utf8 a).length]? = some (column + units a) := by
  induction a with
  | nil => exact fun _ => rfl
  | cons c a ih =>
    intro column
    have hpos := width_pos c
    have hrest := ih (column + utf16Length c)
    rw [Nat.add_assoc] at hrest
    -- the first column behind `c` is the head of the list that the induction is about
    have hsplit : column :: pads column (c :: a ++ b) =
        column :: List.replicate (width c - 1) (column + utf16Length c) ++
          (column + utf16Length c) :: pads (column + utf16Length c) (a ++ b) := by
      rw [List.cons_append, pads]
      conv_lhs => rw [← Nat.sub_add_cancel hpos, List.replicate_succ', List.append_assoc]
      rfl
    have hlen : (column :: List.replicate (width c - 1) (column + utf16Length c)).length = width c := by
      rw [List.length_cons, List.length_replicate, Nat.sub_add_cancel hpos]
    rw [hsplit, utf8_cons, List.length_append, ← width,
      List.getElem?_append_right (by rw [hlen]; exact Nat.le_add_right _ _), hlen,
      Nat.add_sub_cancel_left, hrest]
    rfl

/-! ## A row -/

/-- The row is the one of a line that starts at `start`, as far as the line has been read. -/
structure Describes (row : LineOffsetTable) (start : Nat) (line : List Char) : Prop where
  offset : row.byteOffsetToStartOfLine = start
  column : ∀ a b, line = a ++ b → row.originalColumn (start + (utf8 a).length) = some (units a : Int)

namespace Scan

/-- Nothing but ASCII on the line. -/
structure Ascii (s : Scan) (line : List Char) : Prop where
  first : s.byteOffsetToFirstNonAscii = noNonAscii
  columns : s.columnsForNonAscii = []
  ascii : ∀ c ∈ line, c.toNat ≤ 127

/-- The line has a table, which goes up to its end. -/
structure Tabled (s : Scan) (ascii rest : List Char) : Prop where
  first : s.byteOffsetToFirstNonAscii = (utf8 ascii).length
  first_lt : (utf8 ascii).length < noNonAscii
  columns : s.columnsForNonAscii = units ascii :: pads (units ascii) rest
  columnByteOffset : s.columnByteOffset = (utf8 (ascii ++ rest)).length + 1
  ascii : ∀ c ∈ ascii, c.toNat ≤ 127

/-- In the middle of a turn, behind `enter`. -/
structure Entered (s : Scan) (start : Nat) (line : List Char) : Prop where
  column : s.column = units line
  start : s.lineByteOffset = start
  table : s.Ascii line ∨ ∃ a r, line = a ++ r ∧ s.Tabled a r

variable {s : Scan} {line a r : List Char} {start : Nat}

theorem Ascii.describes (h : s.Ascii line) :
    Describes s.row s.lineByteOffset line := by
  refine ⟨rfl, fun a b hline => ?_⟩
  have ha : ∀ c ∈ a, c.toNat ≤ 127 := fun c hc => h.ascii c (hline ▸ List.mem_append_left b hc)
  rw [originalColumn, if_neg fun hcolumns => hcolumns.2 h.columns, (ascii_counts ha).1,
    (ascii_counts ha).2]
  congr 1
  show ((s.lineByteOffset + a.length : Nat) : Int) - s.lineByteOffset = a.length
  omega

theorem Tabled.describes (h : s.Tabled a r) :
    Describes s.row s.lineByteOffset (a ++ r) := by
  refine ⟨rfl, fun p q hline => ?_⟩
  have hdistance : ((s.lineByteOffset + (utf8 p).length : Nat) : Int) - s.row.byteOffsetToStartOfLine =
      (utf8 p).length := by
    show ((s.lineByteOffset + (utf8 p).length : Nat) : Int) - s.lineByteOffset = (utf8 p).length
    omega
  have hcolumns : s.row.columnsForNonAscii ≠ [] := by
    show s.columnsForNonAscii ≠ []
    rw [h.columns]
    exact List.cons_ne_nil _ _
  have hfirst : s.row.byteOffsetToFirstNonAscii = (utf8 a).length := h.first
  rw [originalColumn]
  simp only [hdistance, hfirst]
  rcases Nat.lt_or_ge (utf8 p).length (utf8 a).length with hlt | hge
  · -- in front of the table
    have hp : ∀ c ∈ p, c.toNat ≤ 127 := by
      rcases List.append_eq_append_iff.mp hline with ⟨x, rfl, -⟩ | ⟨x, rfl, -⟩
      · rw [utf8_append, List.length_append] at hlt
        omega
      · exact fun c hc => h.ascii c (List.mem_append_left x hc)
    rw [if_neg (by omega), (ascii_counts hp).1, (ascii_counts hp).2]
  · obtain ⟨p, rfl, rfl⟩ : ∃ x, p = a ++ x ∧ r = x ++ q := by
      rcases List.append_eq_append_iff.mp hline with ⟨x, rfl, rfl⟩ | ⟨x, rfl, rfl⟩
      · exact ⟨x, rfl, rfl⟩
      · rw [utf8_append, List.length_append] at hge
        have hx := length_le_length_utf8 x
        obtain rfl : x = [] := List.length_eq_zero_iff.mp (by omega)
        exact ⟨[], by rw [List.append_nil, List.append_nil], rfl⟩
    have hindex : (((utf8 (a ++ p)).length : Int) - (utf8 a).length).toNat = (utf8 p).length := by
      rw [utf8_append, List.length_append]
      omega
    rw [if_pos ⟨by omega, hcolumns⟩, hindex]
    show s.columnsForNonAscii[_]?.map _ = _
    rw [h.columns, getElem?_pads, units_append]
    rfl

theorem Entered.describes (h : s.Entered start line) :
    Describes s.row start line := by
  rw [← h.start]
  rcases h.table with hascii | ⟨a, r, rfl, htable⟩
  · exact hascii.describes
  · exact htable.describes

/-! ### A turn -/

/-- Between two turns: a table goes up to the last character. -/
structure Reads (s : Scan) (start : Nat) (line : List Char) : Prop where
  column : s.column = units line
  start : line ≠ [] → s.lineByteOffset = start
  table : s.Ascii line ∨ ∃ a r x, line = a ++ (r ++ [x]) ∧ s.Tabled a r

/-- The offset of the line is known from its first character on, and from its end. -/
theorem Reads.lineByteOffset (h : s.Reads start line) :
    (if s.column = 0 then { s with lineByteOffset := start + (utf8 line).length } else s) =
      { s with lineByteOffset := start } := by
  cases line with
  | nil => exact if_pos h.column
  | cons c line =>
    have hcolumn : s.column ≠ 0 := by
      rw [h.column]
      exact fun hzero => List.cons_ne_nil c line ((units_eq_zero_iff _).mp hzero)
    rw [if_neg hcolumn, ← h.start (List.cons_ne_nil _ _)]

/-- The table is extended by the last character. -/
theorem Tabled.extend {x : Char} (h : s.Tabled a r) (hcolumn : s.column = units (a ++ (r ++ [x]))) :
    (s.extend (s.lineByteOffset + (utf8 (a ++ (r ++ [x]))).length)).Tabled a (r ++ [x]) := by
  have hpos := width_pos x
  have hbytes : (utf8 (a ++ (r ++ [x]))).length = (utf8 (a ++ r)).length + width x := by
    rw [← List.append_assoc, utf8_append, List.length_append]
    congr 1
    rw [utf8_cons, utf8_nil, List.append_nil, width]
  have hsofar : s.lineByteOffset + (utf8 (a ++ (r ++ [x]))).length - s.lineByteOffset =
      (utf8 (a ++ (r ++ [x]))).length := Nat.add_sub_cancel_left _ _
  refine ⟨h.first, h.first_lt, ?_, ?_, h.ascii⟩
  · have hneed : (utf8 (a ++ (r ++ [x]))).length - s.columnByteOffset + 1 = width x := by
      rw [h.columnByteOffset, hbytes]
      omega
    simp only [Scan.extend, hsofar, hneed, h.columns, hcolumn, pads_append, units_append, pads,
      List.append_nil, List.cons_append, units_singleton, Nat.add_assoc]
  · simp only [Scan.extend, hsofar]

/-- **The first half of a turn.** -/
theorem Reads.enter (h : s.Reads start line) (c : Char)
    (hbound : start + (utf8 line).length < noNonAscii) :
    (s.enter c.toNat (start + (utf8 line).length)).list = s.list ∧
    (s.enter c.toNat (start + (utf8 line).length)).Entered start line ∧
    ((s.enter c.toNat (start + (utf8 line).length)).byteOffsetToFirstNonAscii = noNonAscii →
      c.toNat ≤ 127) := by
  have hsofar : start + (utf8 line).length - start = (utf8 line).length := Nat.add_sub_cancel_left _ _
  unfold Scan.enter
  rw [h.lineByteOffset]
  dsimp only
  rcases h.table with hascii | ⟨a, r, x, rfl, htable⟩
  · by_cases hc : c.toNat ≤ 127
    · have hnot : ¬ ((c.toNat : Int) > 0x7F ∧ s.byteOffsetToFirstNonAscii = noNonAscii) := by omega
      rw [if_neg hnot, if_neg (not_not.mpr hascii.first)]
      exact ⟨rfl, ⟨h.column, rfl, Or.inl ⟨hascii.first, hascii.columns, hascii.ascii⟩⟩, fun _ => hc⟩
    · -- the table starts here
      have hpos : (c.toNat : Int) > 0x7F ∧ s.byteOffsetToFirstNonAscii = noNonAscii :=
        ⟨by omega, hascii.first⟩
      have hlt : (utf8 line).length < noNonAscii := Nat.lt_of_le_of_lt (Nat.le_add_left _ _) hbound
      rw [if_pos hpos, hsofar, if_pos (Nat.ne_of_lt hlt)]
      refine ⟨rfl, ⟨h.column, rfl, Or.inr ⟨line, [], (List.append_nil _).symm, ?_⟩⟩, fun hfirst => ?_⟩
      · refine ⟨rfl, hlt, ?_, ?_, hascii.ascii⟩
        · simp only [Scan.extend, hsofar, hascii.columns, h.column, Nat.sub_self]
          rfl
        · simp only [Scan.extend, hsofar, List.append_nil]
      · exact absurd hfirst (Nat.ne_of_lt hlt)
  · have hne : s.byteOffsetToFirstNonAscii ≠ noNonAscii := by
      rw [htable.first]
      exact Nat.ne_of_lt htable.first_lt
    have hnot : ¬ ((c.toNat : Int) > 0x7F ∧ s.byteOffsetToFirstNonAscii = noNonAscii) :=
      fun hc => hne hc.2
    rw [if_neg hnot, if_pos hne]
    refine ⟨rfl, ⟨h.column, rfl, Or.inr ⟨a, r ++ [x], rfl, ?_⟩⟩, fun hfirst => absurd hfirst hne⟩
    have htable' : ({ s with lineByteOffset := start } : Scan).Tabled a r :=
      ⟨htable.first, htable.first_lt, htable.columns, htable.columnByteOffset, htable.ascii⟩
    exact htable'.extend h.column

theorem Entered.ascii (h : s.Entered start line) (hfirst : s.byteOffsetToFirstNonAscii = noNonAscii) :
    s.Ascii line := by
  rcases h.table with hascii | ⟨a, r, -, htable⟩
  · exact hascii
  · rw [htable.first] at hfirst
    exact absurd hfirst (Nat.ne_of_lt htable.first_lt)

/-- ASCII behind ASCII. -/
theorem Entered.skip {run : List Char} (h : s.Entered start line) (hascii : s.Ascii line)
    (hrun : ∀ c ∈ run, c.toNat ≤ 127) :
    ({ s with column := s.column + run.length } : Scan).Reads start (line ++ run) := by
  refine ⟨?_, fun _ => h.start, Or.inl ⟨hascii.first, hascii.columns, fun c hc => ?_⟩⟩
  · rw [units_append, (ascii_counts hrun).2, ← h.column]
  · rcases List.mem_append.mp hc with hc | hc
    · exact hascii.ascii c hc
    · exact hrun c hc

/-- A character that does not end the line. -/
theorem Entered.read {c : Char} (h : s.Entered start line)
    (hc : s.byteOffsetToFirstNonAscii = noNonAscii → c.toNat ≤ 127) :
    ({ s with column := s.column + utf16Length c } : Scan).Reads start (line ++ [c]) := by
  rcases h.table with hascii | ⟨a, r, rfl, htable⟩
  · have hle := hc hascii.first
    rw [utf16Length_ascii hle]
    exact h.skip hascii fun d hd => List.mem_singleton.mp hd ▸ hle
  · refine ⟨?_, fun _ => h.start, Or.inr ⟨a, r, c, List.append_assoc _ _ _, ?_⟩⟩
    · rw [units_append, units_singleton, ← h.column]
    · exact ⟨htable.first, htable.first_lt, htable.columns, htable.columnByteOffset, htable.ascii⟩

/-- **The row of the last line.** -/
theorem Reads.finish (h : s.Reads start line) {contents : Bytes}
    (hcontents : contents.length = start + (utf8 line).length) :
    ∃ row, s.finish contents = s.list ++ [row] ∧ row.Describes start line := by
  unfold Scan.finish
  rw [hcontents, h.lineByteOffset]
  rcases h.table with hascii | ⟨a, r, x, rfl, htable⟩
  · simp only [hascii.columns, ne_eq, not_true_eq_false, if_false]
    have hascii' : ({ s with lineByteOffset := start } : Scan).Ascii line :=
      ⟨hascii.first, hascii.columns, hascii.ascii⟩
    have hrow := hascii'.describes
    simp only [Scan.row, hascii.columns] at hrow
    exact ⟨_, rfl, hrow⟩
  · have hne : s.columnsForNonAscii ≠ [] := by
      rw [htable.columns]
      exact List.cons_ne_nil _ _
    have htable' : ({ s with lineByteOffset := start } : Scan).Tabled a r :=
      ⟨htable.first, htable.first_lt, htable.columns, htable.columnByteOffset, htable.ascii⟩
    simp only [if_pos hne]
    exact ⟨_, rfl, (htable'.extend h.column).describes⟩

/-- In front of a line. -/
theorem fresh_reads (list : List LineOffsetTable) (start : Nat) :
    ({ init with list := list } : Scan).Reads start [] :=
  ⟨rfl, fun h => absurd rfl h, Or.inl ⟨rfl, rfl, fun _ hc => absurd hc (by simp)⟩⟩

end Scan

/-! ## The rows -/

/-- The rows of a text: of the line that has been read up to here and starts at `start`, and of
the lines behind it. -/
def Rows (start : Nat) (line : List Char) : (todo : List Char) → List LineOffsetTable → Prop
  | [], rows => ∃ row, rows = [row] ∧ row.Describes start line
  | c :: todo, rows =>
    if endsLine c todo.head? then
      ∃ row rest, rows = row :: rest ∧ row.Describes start line ∧
        Rows (start + (utf8 (line ++ [c])).length) [] todo rest
    else Rows start (line ++ [c]) todo rows

theorem rows_plain {run : List Char} (hrun : ∀ c ∈ run, plain c = true) {start : Nat}
    {rows : List LineOffsetTable} : ∀ {line : List Char},
    Rows start (line ++ run) todo rows → Rows start line (run ++ todo) rows := by
  induction run with
  | nil =>
    intro line h
    rwa [List.append_nil] at h
  | cons c run ih =>
    intro line h
    have hends := endsLine_plain (hrun c List.mem_cons_self) (run ++ todo).head?
    rw [List.cons_append, Rows, hends, if_neg Bool.false_ne_true]
    refine ih (fun d hd => hrun d (List.mem_cons_of_mem _ hd)) ?_
    rwa [List.append_assoc]

theorem generateLoop_nil (contents : Bytes) (fuel : Nat) (s : Scan) :
    generateLoop contents fuel [] s = some s := by
  cases fuel with
  | zero => rfl
  | succ fuel => rfl

/-- **A turn of the loop**, on a text. -/
theorem generateLoop_turn {fuel : Nat} {s s' : Scan} {c : Char}
    (hs' : s.enter c.toNat (contents.length - (utf8 (c :: cs)).length) = s')
    (hlen : (utf8 (c :: cs)).length < 2 ^ 31) :
    generateLoop contents (fuel + 1) (utf8 (c :: cs)) s =
      if s'.byteOffsetToFirstNonAscii = noNonAscii ∧ 14 ≤ (c.toNat : Int) ∧ (c.toNat : Int) ≤ 127 then
        generateLoop contents fuel (utf8 (cs.dropWhile plain))
          { s' with column := s'.column + (c :: cs.takeWhile plain).length }
      else if endsLine c cs.head? then generateLoop contents fuel (utf8 cs) s'.endLine
      else generateLoop contents fuel (utf8 cs) { s' with column := s'.column + utf16Length c } := by
  have hdrop : (utf8 (c :: cs)).drop (width c) = utf8 cs := by
    rw [utf8_cons, width, List.drop_left]
  have hwidth : width c ≤ (utf8 (c :: cs)).length := by
    rw [utf8_cons, List.length_append]
    exact Nat.le_add_right _ _
  have hne : utf8 (c :: cs) ≠ [] := List.ne_nil_of_length_pos (Nat.lt_of_lt_of_le (width_pos c) hwidth)
  rw [generateLoop, if_neg hne, readRune_utf8]
  simp only [Nat.min_eq_left hwidth, hs']
  by_cases hskip : s'.byteOffsetToFirstNonAscii = noNonAscii ∧ 14 ≤ (c.toNat : Int) ∧
      (c.toNat : Int) ≤ 127
  · rw [if_pos hskip, if_pos hskip]
    have hone : width c = 1 := width_ascii (by exact_mod_cast hskip.2.2)
    rw [hone] at hdrop hwidth ⊢
    rw [indexOfNewlineOrNonAscii_utf8 hdrop hwidth hlen]
    cases hrest : cs.dropWhile plain with
    | nil =>
      have hrun : cs.takeWhile plain = cs := by
        conv_rhs => rw [← List.takeWhile_append_dropWhile (p := plain) (l := cs), hrest,
          List.append_nil]
      have hbytes : (utf8 (c :: cs)).length = (c :: cs).length := by
        rw [utf8_cons, List.length_append, ← width, hone, ← hrun,
          length_utf8_plain plain_of_mem_takeWhile, List.length_cons, Nat.add_comm]
      rw [hbytes] at hlen
      simp only [if_true, hbytes, if_pos hlen, utf8_nil, generateLoop_nil, hrun]
    | cons d ds =>
      have hrun := drop_run hdrop
      rw [hrest] at hrun
      have hle := lt_of_drop_utf8 hrun
      have hj : 1 + (cs.takeWhile plain).length < 2 ^ 31 := by omega
      simp only [reduceCtorEq, if_false, if_pos hj, hrun, List.length_cons,
        Nat.add_comm (cs.takeWhile plain).length]
  · rw [if_neg hskip, if_neg hskip, hdrop]
    by_cases hterm : c = '\r' ∨ c = '\n' ∨ c = '\u2028' ∨ c = '\u2029'
    · rw [if_pos ((terminator_iff c).mpr hterm)]
      by_cases hcrlf : c = '\r' ∧ cs.head? = some '\n'
      · obtain ⟨rfl, hlf⟩ := hcrlf
        have hone : width '\r' = 1 := width_ascii (by decide)
        rw [hone] at hdrop
        rw [if_pos ⟨rfl, (lineFeed_iff (List.drop_zero (l := utf8 ('\r' :: cs)))).mpr hlf⟩, hdrop, hlf]
        rfl
      · have hends : endsLine c cs.head? = true := (endsLine_iff _ _).mpr ⟨hterm, hcrlf⟩
        have hnot : ¬ ((c.toNat : Int) = 0x0D ∧ (utf8 (c :: cs))[1]? = some 10) := by
          rintro ⟨hcr, hlf⟩
          obtain rfl := (carriageReturn_iff c).mp hcr
          exact hcrlf ⟨rfl, (lineFeed_iff (List.drop_zero (l := utf8 ('\r' :: cs)))).mp hlf⟩
        rw [if_neg hnot, if_pos hends]
    · have hends : ¬ endsLine c cs.head? = true := by
        rw [endsLine_iff]
        exact fun h => hterm h.1
      rw [if_neg fun h => hterm ((terminator_iff c).mp h), if_neg hends]
      have hunits : (if (c.toNat : Int) > 0xFFFF then 2 else 1) = utf16Length c :=
        if_congr (by omega) rfl rfl
      rw [hunits]

/-- **The loop makes the rows of the text.** -/
theorem generateLoop_rows (hlen : contents.length ≤ maxParseableLen) (fuel : Nat) :
    ∀ {s : Scan} {start : Nat} {line todo : List Char}, s.Reads start line →
    contents.length = start + (utf8 line).length + (utf8 todo).length → (utf8 todo).length ≤ fuel →
    ∃ rows, (generateLoop contents fuel (utf8 todo) s).map (·.finish contents) = some (s.list ++ rows) ∧
      Rows start line todo rows := by
  induction fuel with
  | zero =>
    intro s start line todo hreads hcontents hfuel
    have hle := length_le_length_utf8 todo
    obtain rfl : todo = [] := List.length_eq_zero_iff.mp (by omega)
    obtain ⟨row, hfinish, hrow⟩ := hreads.finish hcontents
    exact ⟨[row], congrArg some hfinish, row, rfl, hrow⟩
  | succ fuel ih =>
    intro s start line todo hreads hcontents hfuel
    cases todo with
    | nil =>
      obtain ⟨row, hfinish, hrow⟩ := hreads.finish hcontents
      exact ⟨[row], congrArg some hfinish, row, rfl, hrow⟩
    | cons c cs =>
      have hpos := width_pos c
      have hbytes : (utf8 (c :: cs)).length = width c + (utf8 cs).length := by
        rw [utf8_cons, List.length_append, width]
      have hcontents' : contents.length =
          start + (utf8 (line ++ [c])).length + (utf8 cs).length := by
        rw [utf8_append, List.length_append, utf8_cons, utf8_nil, List.append_nil, ← width]
        omega
      have hoffset : contents.length - (utf8 (c :: cs)).length = start + (utf8 line).length := by
        omega
      have hbound : start + (utf8 line).length < noNonAscii := by
        unfold noNonAscii
        unfold maxParseableLen at hlen
        omega
      have hshort : (utf8 (c :: cs)).length < 2 ^ 31 := by
        unfold maxParseableLen at hlen
        omega
      obtain ⟨s', hs'⟩ : ∃ s', s.enter c.toNat (start + (utf8 line).length) = s' := ⟨_, rfl⟩
      obtain ⟨hlist, hentered, hnext⟩ := hreads.enter c hbound
      rw [hs'] at hlist hentered hnext
      rw [← hoffset] at hs'
      rw [generateLoop_turn hs' hshort, ← hlist]
      by_cases hskip : s'.byteOffsetToFirstNonAscii = noNonAscii ∧ 14 ≤ (c.toNat : Int) ∧
          (c.toNat : Int) ≤ 127
      · have hhi : c.toNat ≤ 127 := by exact_mod_cast hskip.2.2
        have hlo : 14 ≤ c.toNat := by exact_mod_cast hskip.2.1
        have hrun : ∀ d ∈ c :: cs.takeWhile plain, d.toNat ≤ 127 :=
          List.forall_mem_cons.mpr ⟨hhi, fun d hd => plain_le (plain_of_mem_takeWhile d hd)⟩
        have hsplit : c :: cs = (c :: cs.takeWhile plain) ++ cs.dropWhile plain := by
          rw [List.cons_append, List.takeWhile_append_dropWhile]
        have hparts := congrArg (fun l => (utf8 l).length) hsplit
        simp only [utf8_append, List.length_append] at hparts
        have hpos' := length_le_length_utf8 (c :: cs.takeWhile plain)
        rw [List.length_cons] at hpos'
        have hcontents'' : contents.length = start + (utf8 (line ++ c :: cs.takeWhile plain)).length +
            (utf8 (cs.dropWhile plain)).length := by
          rw [utf8_append, List.length_append]
          omega
        obtain ⟨rows, hloop, hrows⟩ :=
          ih (hentered.skip (hentered.ascii hskip.1) hrun) hcontents'' (by omega)
        refine ⟨rows, (congrArg _ (if_pos hskip)).trans hloop, ?_⟩
        rw [Rows, endsLine_ascii hlo hhi, if_neg Bool.false_ne_true,
          ← List.takeWhile_append_dropWhile (p := plain) (l := cs)]
        refine rows_plain plain_of_mem_takeWhile ?_
        rwa [List.append_assoc]
      · rw [if_neg hskip]
        by_cases hends : endsLine c cs.head? = true
        · obtain ⟨rows, hloop, hrows⟩ := ih
            (Scan.fresh_reads (s'.list ++ [s'.row]) (start + (utf8 (line ++ [c])).length))
            hcontents' (by omega)
          refine ⟨s'.row :: rows, (congrArg _ (if_pos hends)).trans (hloop.trans ?_), ?_⟩
          · show some (s'.list ++ [s'.row] ++ rows) = _
            rw [List.append_assoc]
            rfl
          · rw [Rows, if_pos hends]
            exact ⟨s'.row, rows, rfl, hentered.describes, hrows⟩
        · obtain ⟨rows, hloop, hrows⟩ := ih (hentered.read hnext) hcontents' (by omega)
          refine ⟨rows, (congrArg _ (if_neg hends)).trans hloop, ?_⟩
          rw [Rows, if_neg hends]
          exact hrows

theorem generate_rows {text : List Char} (hlen : (utf8 text).length ≤ maxParseableLen) :
    ∃ table, generate (utf8 text) = some table ∧ Rows 0 [] text table :=
  generateLoop_rows hlen _ (Scan.fresh_reads [] 0) (by rw [utf8_nil]; simp) (Nat.le_refl _)

/-! ## The search -/

/-- The first row is that of the line that is being read, and the others start behind it. -/
theorem Rows.offset : ∀ {start : Nat} {line : List Char}
    {rows : List LineOffsetTable} {i : Nat} {row : LineOffsetTable}, Rows start line todo rows →
    rows[i]? = some row → (i = 0 ∧ row.byteOffsetToStartOfLine = start) ∨
      (0 < i ∧ start + (utf8 line).length < row.byteOffsetToStartOfLine) := by
  induction todo with
  | nil =>
    rintro start line rows i row ⟨only, rfl, honly⟩ hrow
    cases i with
    | zero =>
      obtain rfl : only = row := by simpa using hrow
      exact Or.inl ⟨rfl, honly.offset⟩
    | succ i => exact absurd hrow (by simp)
  | cons c todo ih =>
    intro start line rows i row h hrow
    have hpos := width_pos c
    have hbytes : (utf8 (line ++ [c])).length = (utf8 line).length + width c := by
      rw [utf8_append, List.length_append, utf8_cons, utf8_nil, List.append_nil, width]
    rw [Rows] at h
    split at h
    · obtain ⟨first, rest, rfl, hfirst, hrest⟩ := h
      cases i with
      | zero =>
        obtain rfl : first = row := by simpa using hrow
        exact Or.inl ⟨rfl, hfirst.offset⟩
      | succ i =>
        rw [List.getElem?_cons_succ] at hrow
        have hoffset := ih hrest hrow
        rw [utf8_nil, List.length_nil] at hoffset
        exact Or.inr ⟨Nat.succ_pos i, by omega⟩
    · have hoffset := ih h hrow
      omega

theorem Rows.head : ∀ {start : Nat} {line : List Char}
    {rows : List LineOffsetTable}, Rows start line todo rows →
    ∃ row rest more, rows = row :: rest ∧ row.Describes start (line ++ more) := by
  induction todo with
  | nil =>
    rintro start line rows ⟨row, rfl, hrow⟩
    exact ⟨row, [], [], rfl, by rwa [List.append_nil]⟩
  | cons c todo ih =>
    intro start line rows h
    rw [Rows] at h
    split at h
    · obtain ⟨row, rest, rfl, hrow, -⟩ := h
      exact ⟨row, rest, [], rfl, by rwa [List.append_nil]⟩
    · obtain ⟨row, rest, more, hrows, hrow⟩ := ih h
      rw [List.append_assoc] at hrow
      exact ⟨row, rest, [c] ++ more, hrows, hrow⟩

/-- **The row of an offset**, and which rows start in front of the offset. -/
theorem Rows.find (pre : List Char) : ∀ {start : Nat} {line : List Char}
    {rows : List LineOffsetTable} {p : TextPosition}, Rows start line (pre ++ post) rows →
    p.column = units line →
    ∃ i row, rows[i]? = some row ∧ (positionAfter p pre post).line = p.line + i ∧
      row.originalColumn (start + (utf8 line).length + (utf8 pre).length) =
        some ((positionAfter p pre post).column : Int) ∧
      ∀ j r, rows[j]? = some r →
        (r.byteOffsetToStartOfLine ≤ start + (utf8 line).length + (utf8 pre).length ↔ j ≤ i) := by
  induction pre with
  | nil =>
    intro start line rows p h hp
    obtain ⟨row, rest, more, hrows, hrow⟩ := h.head
    refine ⟨0, row, by rw [hrows]; rfl, rfl, ?_, fun j r hr => ?_⟩
    · rw [utf8_nil, List.length_nil, Nat.add_zero, hrow.column line more rfl, ← hp]
      rfl
    · have hoffset := h.offset hr
      rw [utf8_nil, List.length_nil]
      omega
  | cons c pre ih =>
    intro start line rows p h hp
    have hloc : start + (utf8 line).length + (utf8 (c :: pre)).length =
        start + (utf8 (line ++ [c])).length + (utf8 pre).length := by
      rw [utf8_cons, List.length_append, utf8_append, List.length_append, utf8_cons, utf8_nil,
        List.append_nil]
      omega
    rw [positionAfter, hloc]
    rw [List.cons_append, Rows] at h
    by_cases hends : endsLine c (pre ++ post).head? = true
    · rw [if_pos hends] at h
      obtain ⟨first, rest, rfl, hfirst, hrest⟩ := h
      rw [step_of_endsLine hends]
      obtain ⟨i, row, hrow, hline, hcolumn, hrows⟩ :=
        ih (p := ⟨p.line + 1, 0⟩) hrest rfl
      rw [utf8_nil, List.length_nil, Nat.add_zero] at hcolumn hrows
      refine ⟨i + 1, row, hrow, ?_, hcolumn, fun j r hr => ?_⟩
      · rw [hline, Nat.add_assoc, Nat.add_comm 1]
      · cases j with
        | zero =>
          obtain rfl : first = r := by simpa using hr
          rw [hfirst.offset, utf8_append, List.length_append]
          omega
        | succ j => rw [hrows j r hr, Nat.add_le_add_iff_right]
    · rw [if_neg hends] at h
      rw [step_of_not_endsLine hends]
      exact ih (p := ⟨p.line, p.column + utf16Length c⟩) h
        (by rw [units_append, units_singleton, hp])

/-- The last offset that is not behind `loc`. -/
structure LastBefore (offsets : List Nat) (loc i : Nat) : Prop where
  lt : i < offsets.length
  le_iff : ∀ j < offsets.length, (offsets.getD j 0 ≤ loc ↔ j ≤ i)

theorem LastBefore.findLine {offsets : List Nat} {loc i : Nat} (h : LastBefore offsets loc i) :
    findLine offsets loc = i := by
  have hsearch : upperBound (fun j => decide (offsets.getD j 0 ≤ loc)) 0 offsets.length = i + 1 := by
    refine upperBound_eq 0 offsets.length (Nat.zero_le _) (by rw [Nat.zero_add]; exact h.lt) ?_
    intro j _ hj
    rw [Nat.zero_add] at hj
    rw [decide_eq_true_iff, h.le_iff j hj, Nat.lt_succ_iff]
  rw [LineOffsetTable.findLine, hsearch]
  exact Int.add_sub_cancel (i : Int) 1

/-- What the table of a text says of an offset in it. -/
theorem generate_find {pre : List Char} (hlen : (utf8 (pre ++ post)).length ≤ maxParseableLen) :
    ∃ table row, generate (utf8 (pre ++ post)) = some table ∧
      LastBefore (table.map (·.byteOffsetToStartOfLine)) (utf8 pre).length
        (positionAfter ⟨0, 0⟩ pre post).line ∧
      table[(positionAfter ⟨0, 0⟩ pre post).line]? = some row ∧
      row.originalColumn (utf8 pre).length = some ((positionAfter ⟨0, 0⟩ pre post).column : Int) := by
  obtain ⟨table, hgenerate, hrows⟩ := generate_rows hlen
  obtain ⟨i, row, hrow, hline, hcolumn, hiff⟩ := hrows.find pre (p := ⟨0, 0⟩) rfl
  rw [utf8_nil, List.length_nil, Nat.zero_add] at hcolumn hiff
  rw [Nat.zero_add] at hline
  rw [hline]
  have hlt : i < table.length := (List.getElem?_eq_some_iff.mp hrow).1
  refine ⟨table, row, hgenerate, ⟨?_, fun j hj => ?_⟩, hrow, hcolumn⟩
  · rw [List.length_map]
    exact hlt
  · rw [List.length_map] at hj
    rw [← hiff j _ (List.getElem?_eq_getElem hj), List.getD_eq_getElem?_getD, List.getElem?_map,
      List.getElem?_eq_getElem hj]
    rfl

/-- **Byte offsets are mapped to lines and columns exactly**, at every character boundary of a
source that can be parsed: `find_line` gives the number of line terminators in front, and the
column read off its row, which is in the table, the number of UTF-16 code units behind the last
of them. -/
theorem findLine_generate {pre post : List Char}
    (hlen : (utf8 (pre ++ post)).length ≤ maxParseableLen) :
    ∃ table row, generate (utf8 (pre ++ post)) = some table ∧
      findLine (table.map (·.byteOffsetToStartOfLine)) (utf8 pre).length =
        (positionAfter ⟨0, 0⟩ pre post).line ∧
      table[(positionAfter ⟨0, 0⟩ pre post).line]? = some row ∧
      row.originalColumn (utf8 pre).length = some ((positionAfter ⟨0, 0⟩ pre post).column : Int) := by
  obtain ⟨table, row, hgenerate, hlast, hrow, hcolumn⟩ := generate_find hlen
  exact ⟨table, row, hgenerate, hlast.findLine, hrow, hcolumn⟩

/-- An offset behind an emoji, on a line behind a CR LF. -/
theorem findLine_generate_emoji :
    (utf8 (['a', '\r', '\n', 'é', '😀'] ++ ['\u2028', 'b'])).length ≤ maxParseableLen ∧
    ∃ table row, generate (utf8 (['a', '\r', '\n', 'é', '😀'] ++ ['\u2028', 'b'])) = some table ∧
      findLine (table.map (·.byteOffsetToStartOfLine))
        (utf8 ['a', '\r', '\n', 'é', '😀']).length = 1 ∧
      table[1]? = some row ∧
      row.originalColumn (utf8 ['a', '\r', '\n', 'é', '😀']).length = some 3 :=
  ⟨by decide, findLine_generate (by decide)⟩

end LineOffsetTable

end OhosBun.SourceMap
