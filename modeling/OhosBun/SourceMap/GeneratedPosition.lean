/-
# `OhosBun.SourceMap.GeneratedPosition` — two trackers of the generated position

While a chunk is printed, its source map builder follows the output with
`update_generated_line_and_column`: it scans what was printed since the last call,
emits a line separator for every line and keeps the column.  `LineColumnOffset::
advance` computes the same two numbers in one scan over a whole text.

They agree only in part, and each has its own slip.

  - The builder looks for the LF of a CR LF one byte too far: the index of the CR
    has been advanced already when it adds one to it.
  - `advance` does not count the plain text that it skips on the way to a byte that
    is not plain and ends no line, such as a tab.

`updates_eq_advance` is what holds in every run that keeps clear of both.
-/
import OhosBun.SourceMap.RoundTrip
import OhosBun.SourceMap.Cursor
import OhosBun.SourceMap.Wtf8

namespace OhosBun.SourceMap

open OhosBun.Lib

/-! ## The builder -/

/-- The part of `NewBuilder` that follows the output; of `source_map`, the calls made to it. -/
structure NewBuilder where
  calls : List Call
  prevState : State
  lastGeneratedUpdate : Nat
  generatedColumn : Int32
  hasPrevState : Bool
  lineStartsWithMapping : Bool
  coverLinesWithoutMappings : Bool
  deriving DecidableEq

namespace NewBuilder

def appendMappingWithoutRemapping (b : NewBuilder) (currentState : State) : NewBuilder :=
  { b with
    calls := b.calls ++ [.mapping ⟨currentState.generatedColumn, currentState.sourceIndex,
      currentState.originalLine, currentState.originalColumn⟩]
    prevState := currentState
    hasPrevState := true }

def needsMapping (b : NewBuilder) : Bool :=
  b.coverLinesWithoutMappings && !b.lineStartsWithMapping && b.hasPrevState

/-- At a line terminator: a mapping at the start of the line that had none, and the separator. -/
def newLine (b : NewBuilder) (needsMapping : Bool) : NewBuilder :=
  let b := if needsMapping then
      b.appendMappingWithoutRemapping { b.prevState with generatedColumn := 0 }
    else b
  { b with
    prevState := { b.prevState with
      generatedLine := b.prevState.generatedLine + 1, generatedColumn := 0 }
    generatedColumn := 0
    calls := b.calls ++ [.lineSeparator]
    lineStartsWithMapping := false }

/-- The loop of `update_generated_line_and_column_slow`; every turn moves `i`. -/
def slowLoop (output slice : Bytes) : (fuel i : Nat) → (needsMapping : Bool) → NewBuilder → NewBuilder
  | 0, _, _, b => b
  | fuel + 1, i, needsMapping, b =>
    if i < slice.length then
      let (c, len) := readRune (slice.drop i) 0xFFFD
      let i := i + len
      if 14 ≤ c ∧ c ≤ 127 then
        match indexOfNewlineOrNonAscii slice (i % 2 ^ 32) with
        | some j =>
          slowLoop output slice fuel j needsMapping
            { b with generatedColumn := b.generatedColumn + Int32.ofNat (j - i + 1) }
        | none =>
          { b with generatedColumn :=
              b.generatedColumn + (Int32.ofNat (slice.drop i).length + 1) }
      else if c = 0x0D ∨ c = 0x0A ∨ c = 0x2028 ∨ c = 0x2029 then
        -- windows newline
        if c = 0x0D ∧ output[b.lastGeneratedUpdate + i + 1]? = some 10 then
          slowLoop output slice fuel i needsMapping b
        else
          let b := b.newLine needsMapping
          slowLoop output slice fuel i b.needsMapping b
      else
        slowLoop output slice fuel i needsMapping
          { b with generatedColumn := b.generatedColumn + (if c > 0xFFFF then 2 else 1) }
    else b

def updateGeneratedLineAndColumnSlow (b : NewBuilder) (output : Bytes) : NewBuilder :=
  let slice := output.drop b.lastGeneratedUpdate
  { slowLoop output slice slice.length 0 b.needsMapping b with
    lastGeneratedUpdate := output.length % 2 ^ 32 }

/-- The test of the fast path; a short window is scanned inline. -/
def pureAscii (slice : Bytes) : Bool :=
  if slice.length < 16 then !slice.any newlineOrNonAscii
  else (indexOfNewlineOrNonAscii slice 0).isNone

def updateGeneratedLineAndColumn (b : NewBuilder) (output : Bytes) : NewBuilder :=
  let slice := output.drop b.lastGeneratedUpdate
  if pureAscii slice then
    { b with
      generatedColumn := b.generatedColumn + Int32.ofNat slice.length
      lastGeneratedUpdate := output.length % 2 ^ 32 }
  else b.updateGeneratedLineAndColumnSlow output

end NewBuilder

/-! ## `LineColumnOffset::advance` -/

/-- `CodepointIterator::next` at an index: the code point and its width. -/
def nextCodePoint (tail : Bytes) : Int × Nat :=
  if tail.getD 0 0 < 0x80 then ((tail.getD 0 0).toNat, 1)
  else
    let (cp, len) := readRune tail (-1)
    if cp = -1 then (0xFFFD, 1) else (cp, len)

/-- The character at `i`, and the offset behind it; its width is never zero. -/
def advanceTurn (input : Bytes) (i : Nat) (this : LineColumnOffset) : LineColumnOffset × Nat :=
  let (c, width) := nextCodePoint (input.drop i)
  let offset := (i + width) % 2 ^ 32
  if c = 0x0D ∨ c = 0x0A ∨ c = 0x2028 ∨ c = 0x2029 then
    -- Windows-specific "\r\n" newlines
    if c = 0x0D ∧ input[i + 1]? = some 10 then
      ({ this with columns := this.columns + 1 }, offset)
    else (⟨this.lines + 1, 0⟩, offset)
  else ({ this with columns := this.columns + (if c > 0xFFFF then 2 else 1) }, offset)

/-- The loop; every turn moves the offset.  `none` is the panic for a rest that is too long for
an `i32`. -/
def advanceLoop (input : Bytes) : (fuel : Nat) → (offset : Nat) → LineColumnOffset →
    Option LineColumnOffset
  | fuel, offset, this =>
    match fuel, indexOfNewlineOrNonAscii input offset with
    | fuel + 1, some i =>
      let (this, offset) := advanceTurn input i this
      advanceLoop input fuel offset this
    | _, _ =>
      if (input.drop offset).length < 2 ^ 31 then
        some { this with columns := this.columns + Int32.ofNat (input.drop offset).length }
      else none

def LineColumnOffset.advance (this : LineColumnOffset) (input : Bytes) : Option LineColumnOffset :=
  advanceLoop input input.length 0 this

/-! ## The builder, character by character -/

/-- UTF-16 code units, as both trackers add them. -/
theorem units_eq (c : Char) :
    (if (c.toNat : Int) > 0xFFFF then (2 : Int32) else 1) = Int32.ofNat (utf16Length c) := by
  unfold utf16Length
  by_cases hbmp : c.toNat > 0xFFFF
  · rw [if_pos hbmp, if_pos (by omega)]
    rfl
  · rw [if_neg hbmp, if_neg (by omega)]
    rfl

namespace NewBuilder

/-- The LF that the builder sees behind a CR, one byte too far, is the one behind it. -/
def LooksRight (window : Bytes) : Prop :=
  ∀ p : Nat, window[p]? = some 13 → (window[p + 1]? = some 10 ↔ window[p + 2]? = some 10)

instance (window : Bytes) : Decidable (LooksRight window) :=
  decidable_of_iff (∀ p < window.length, window[p]? = some 13 →
      (window[p + 1]? = some 10 ↔ window[p + 2]? = some 10))
    ⟨fun h p hp => h p (List.getElem?_eq_some_iff.mp hp).1 hp, fun h p _ hp => h p hp⟩

@[simp] theorem newLine_lastGeneratedUpdate (b : NewBuilder) (needsMapping : Bool) :
    (b.newLine needsMapping).lastGeneratedUpdate = b.lastGeneratedUpdate := by
  unfold newLine
  cases needsMapping <;> rfl

@[simp] theorem newLine_generatedColumn (b : NewBuilder) (needsMapping : Bool) :
    (b.newLine needsMapping).generatedColumn = 0 := rfl

@[simp] theorem newLine_separatorCount (b : NewBuilder) (needsMapping : Bool) :
    separatorCount (b.newLine needsMapping).calls = separatorCount b.calls + 1 := by
  unfold newLine separatorCount
  cases needsMapping
  · simp
  · simp [appendMappingWithoutRemapping]

/-- A builder that has emitted the separators of a position, and is at its column. -/
structure Tracks (b : NewBuilder) (before : Nat) (p : TextPosition) : Prop where
  lines : separatorCount b.calls = before + p.line
  column : b.generatedColumn = Int32.ofNat p.column

section slow

variable {output slice : Bytes} {before i : Nat} {p : TextPosition} {b : NewBuilder}

/-- The state of the loop in front of `todo`: a column that is off stands in front of a line
feed, which starts a new one. -/
structure Scans (output slice : Bytes) (before i : Nat) (p : TextPosition) (todo : List Char)
    (b : NewBuilder) : Prop where
  window : output.drop b.lastGeneratedUpdate = slice
  ahead : slice.drop i = utf8 todo
  lines : separatorCount b.calls = before + p.line
  column : b.generatedColumn = Int32.ofNat p.column ∨ todo.head? = some '\n'

variable {c : Char} {cs : List Char}

theorem Scans.column_of_ne (h : Scans output slice before i p (c :: cs) b) (hc : c ≠ '\n') :
    b.generatedColumn = Int32.ofNat p.column := by
  rcases h.column with hcolumn | hhead
  · exact hcolumn
  · exact absurd (Option.some.inj hhead) hc

/-- The byte that the builder takes for the one behind a CR. -/
theorem Scans.lookahead (h : Scans output slice before i p (c :: cs) b) :
    output[b.lastGeneratedUpdate + (i + width c) + 1]? = (utf8 cs)[1]? := by
  rw [← drop_width h.ahead, ← h.window, List.getElem?_drop, List.getElem?_drop, Nat.add_assoc]

theorem LooksRight.lineFeed_iff (hlook : LooksRight slice) (hdrop : slice.drop i = utf8 ('\r' :: cs)) :
    (utf8 cs)[1]? = some 10 ↔ cs.head? = some '\n' := by
  have hnext := drop_width hdrop
  rw [width_ascii (by decide)] at hnext
  have hcr : slice[i]? = some 13 := by
    have hhead := congrArg List.head? hdrop
    rw [List.head?_drop] at hhead
    exact hhead
  have hlook := hlook i hcr
  have hone : slice[i + 1]? = (utf8 cs).head? := by rw [← hnext, List.head?_drop]
  have htwo : slice[i + 2]? = (utf8 cs)[1]? := by rw [← hnext, List.getElem?_drop]
  rw [hone, htwo] at hlook
  rw [← hlook]
  exact head?_utf8 (c := '\n') (by decide) cs

theorem step_ascii (hlo : 14 ≤ (c.toNat : Int)) (hhi : (c.toNat : Int) ≤ 127) (next : Option Char) :
    p.step c next = ⟨p.line, p.column + 1⟩ := by
  have hends : ¬ endsLine c next = true := by
    rw [endsLine_iff, ← terminator_iff]
    omega
  rw [step_of_not_endsLine hends, utf16Length, if_neg (by omega)]

/-- A printable character, and the plain text behind it. -/
theorem Scans.run (h : Scans output slice before i p (c :: cs) b) (hlo : 14 ≤ (c.toNat : Int))
    (hhi : (c.toNat : Int) ≤ 127) {k : Nat} (hk : k = (cs.takeWhile plain).length) :
    Scans output slice before (i + width c + k)
      (positionAfter p (c :: cs.takeWhile plain) (cs.dropWhile plain)) (cs.dropWhile plain)
      { b with generatedColumn := b.generatedColumn + Int32.ofNat (k + 1) } := by
  have hcolumn := h.column_of_ne (by rintro rfl; exact absurd hlo (by decide))
  have hposition : positionAfter p (c :: cs.takeWhile plain) (cs.dropWhile plain) =
      ⟨p.line, p.column + 1 + k⟩ := by
    rw [positionAfter, step_ascii hlo hhi, positionAfter_plain plain_of_mem_takeWhile, hk]
  rw [hposition]
  refine ⟨h.window, ?_, h.lines, Or.inl ?_⟩
  · rw [hk]
    exact drop_run (drop_width h.ahead)
  · simp only [hcolumn, ← Int32.ofNat_add]
    congr 1
    omega

theorem Scans.newLine (h : Scans output slice before i p (c :: cs) b) (hends : endsLine c cs.head? = true)
    (needsMapping : Bool) :
    Scans output slice before (i + width c) (p.step c (cs ++ []).head?) cs (b.newLine needsMapping) := by
  rw [List.append_nil, step_of_endsLine hends]
  refine ⟨?_, drop_width h.ahead, ?_, Or.inl rfl⟩
  · rw [newLine_lastGeneratedUpdate]
    exact h.window
  · rw [newLine_separatorCount, h.lines, Nat.add_assoc]

/-- A CR in front of its LF. -/
theorem Scans.carriageReturn (h : Scans output slice before i p ('\r' :: cs) b)
    (hhead : cs.head? = some '\n') :
    Scans output slice before (i + width '\r') (p.step '\r' (cs ++ []).head?) cs b := by
  rw [List.append_nil, hhead, step_of_not_endsLine (by decide)]
  exact ⟨h.window, drop_width h.ahead, h.lines, Or.inr hhead⟩

theorem Scans.other (h : Scans output slice before i p (c :: cs) b)
    (hc : ¬ (c = '\r' ∨ c = '\n' ∨ c = '\u2028' ∨ c = '\u2029')) :
    Scans output slice before (i + width c) (p.step c (cs ++ []).head?) cs
      { b with generatedColumn := b.generatedColumn + (if (c.toNat : Int) > 0xFFFF then 2 else 1) } := by
  have hends : ¬ endsLine c (cs ++ []).head? = true := by
    rw [endsLine_iff]
    exact fun hterm => hc hterm.1
  rw [step_of_not_endsLine hends]
  refine ⟨h.window, drop_width h.ahead, h.lines, Or.inl ?_⟩
  rw [h.column_of_ne fun hn => hc (Or.inr (Or.inl hn)), units_eq, Int32.ofNat_add]

theorem Scans.tracks (h : Scans output slice before i p [] b) : b.Tracks before p := by
  refine ⟨h.lines, ?_⟩
  rcases h.column with hcolumn | hhead
  · exact hcolumn
  · exact absurd hhead (by simp)

/-- **The loop of the slow path.** -/
theorem slowLoop_tracks (hlook : LooksRight slice) (hlen : slice.length < 2 ^ 31)
    (fuel : Nat) : ∀ {i : Nat} {needsMapping : Bool} {p : TextPosition} {todo : List Char}
    {b : NewBuilder}, Scans output slice before i p todo b → slice.length - i ≤ fuel →
    (slowLoop output slice fuel i needsMapping b).Tracks before (positionAfter p todo []) := by
  induction fuel with
  | zero =>
    intro i needsMapping p todo b h hfuel
    cases todo with
    | nil => exact h.tracks
    | cons c cs =>
      have hle := lt_of_drop_utf8 h.ahead
      have hpos := width_pos c
      omega
  | succ fuel ih =>
    intro i needsMapping p todo b h hfuel
    cases todo with
    | nil =>
      have hlt : ¬ i < slice.length := Nat.not_lt.mpr (List.drop_eq_nil_iff.mp h.ahead)
      rw [slowLoop, if_neg hlt]
      exact h.tracks
    | cons c cs =>
      have hle := lt_of_drop_utf8 h.ahead
      have hpos := width_pos c
      have hfuel' : slice.length - (i + width c) ≤ fuel := by omega
      rw [slowLoop, if_pos (Nat.lt_of_lt_of_le (Nat.lt_add_of_pos_right hpos) hle), h.ahead,
        readRune_utf8]
      simp only [h.lookahead]
      by_cases hascii : 14 ≤ (c.toNat : Int) ∧ (c.toNat : Int) ≤ 127
      · have hnext := drop_width h.ahead
        have hrun := h.run hascii.1 hascii.2 rfl
        have hsplit := positionAfter_append (c :: cs.takeWhile plain) (cs.dropWhile plain) [] p
        rw [List.append_nil, List.cons_append, List.takeWhile_append_dropWhile] at hsplit
        rw [if_pos hascii, Nat.mod_eq_of_lt (by omega),
          indexOfNewlineOrNonAscii_utf8 hnext hle hlen, hsplit]
        by_cases hend : cs.dropWhile plain = []
        · rw [if_pos hend]
          have hall : ∀ d ∈ cs, plain d = true := List.dropWhile_eq_nil_iff.mp hend
          rw [hend, List.takeWhile_eq_self_iff.mpr hall] at hrun ⊢
          simp only [hnext, length_utf8_plain hall]
          rw [Int32.ofNat_add] at hrun
          exact hrun.tracks
        · rw [if_neg hend]
          simp only [Nat.add_sub_cancel_left]
          exact ih hrun (by omega)
      · rw [if_neg hascii, positionAfter]
        by_cases hterm : c = '\r' ∨ c = '\n' ∨ c = '\u2028' ∨ c = '\u2029'
        · rw [if_pos ((terminator_iff c).mpr hterm)]
          by_cases hcr : c = '\r' ∧ (utf8 cs)[1]? = some 10
          · rw [if_pos ⟨(carriageReturn_iff c).mpr hcr.1, hcr.2⟩]
            obtain ⟨rfl, hlf⟩ := hcr
            exact ih (h.carriageReturn ((hlook.lineFeed_iff h.ahead).mp hlf)) hfuel'
          · rw [if_neg fun hcr' => hcr ⟨(carriageReturn_iff c).mp hcr'.1, hcr'.2⟩]
            have hends : endsLine c cs.head? = true := by
              rw [endsLine_iff]
              refine ⟨hterm, ?_⟩
              rintro ⟨rfl, hlf⟩
              exact hcr ⟨rfl, (hlook.lineFeed_iff h.ahead).mpr hlf⟩
            exact ih (h.newLine hends needsMapping) hfuel'
        · rw [if_neg fun hterm' => hterm ((terminator_iff c).mp hterm')]
          exact ih (h.other hterm) hfuel'

end slow

/-! ### Updates -/

/-- The window of the fast path is plain text. -/
theorem pureAscii_iff {slice : Bytes} {cs : List Char} (hslice : slice = utf8 cs)
    (hlen : slice.length < 2 ^ 31) :
    pureAscii slice = true ↔ ∀ c ∈ cs, plain c = true := by
  have hfind := findIdx?_utf8 cs
  rw [← hslice] at hfind
  have hindex := indexOfNewlineOrNonAscii_utf8 (List.drop_zero.trans hslice) (Nat.zero_le _) hlen
  rw [← List.dropWhile_eq_nil_iff]
  by_cases hend : cs.dropWhile plain = []
  · rw [if_pos hend] at hfind hindex
    have hany : slice.any newlineOrNonAscii = false :=
      List.any_eq_false.mpr fun x hx => by simp [List.findIdx?_eq_none_iff.mp hfind x hx]
    simp [pureAscii, hend, hany, hindex]
  · rw [if_neg hend] at hfind hindex
    have hany : slice.any newlineOrNonAscii = true := by
      cases hany : slice.any newlineOrNonAscii with
      | true => rfl
      | false =>
        have hnone : slice.findIdx? newlineOrNonAscii = none := by
          refine List.findIdx?_eq_none_iff.mpr fun x hx => ?_
          simpa using List.any_eq_false.mp hany x hx
        rw [hnone] at hfind
        exact absurd hfind (by simp)
    simp [pureAscii, hend, hany, hindex]

/-- **One update.**  The builder reads on from where it was. -/
theorem update_tracks {b : NewBuilder} {before : Nat} {p : TextPosition} {text : Bytes}
    {cs : List Char} (h : b.Tracks before p) (hlast : b.lastGeneratedUpdate = text.length)
    (hlen : (text ++ utf8 cs).length < 2 ^ 31) (hlook : LooksRight (utf8 cs)) :
    (b.updateGeneratedLineAndColumn (text ++ utf8 cs)).Tracks before (positionAfter p cs []) ∧
      (b.updateGeneratedLineAndColumn (text ++ utf8 cs)).lastGeneratedUpdate =
        (text ++ utf8 cs).length := by
  have hwindow : (text ++ utf8 cs).drop b.lastGeneratedUpdate = utf8 cs := by
    rw [hlast, List.drop_left]
  have hshort : (utf8 cs).length < 2 ^ 31 := by
    rw [List.length_append] at hlen
    omega
  have hmod : (text ++ utf8 cs).length % 2 ^ 32 = (text ++ utf8 cs).length :=
    Nat.mod_eq_of_lt (by omega)
  unfold updateGeneratedLineAndColumn
  simp only [hwindow, hmod]
  split
  · next hplain =>
      have hplain := (pureAscii_iff rfl hshort).mp hplain
      refine ⟨⟨?_, ?_⟩, rfl⟩
      · rw [positionAfter_plain hplain]
        exact h.lines
      · rw [positionAfter_plain hplain, h.column, length_utf8_plain hplain, Int32.ofNat_add]
  · refine ⟨?_, hmod⟩
    have hscans : Scans (text ++ utf8 cs) (utf8 cs) before 0 p cs b :=
      ⟨hwindow, rfl, h.lines, Or.inl h.column⟩
    unfold updateGeneratedLineAndColumnSlow
    rw [hwindow]
    have htracks : (slowLoop (text ++ utf8 cs) (utf8 cs) (utf8 cs).length 0 b.needsMapping b).Tracks
        before (positionAfter p cs []) := slowLoop_tracks hlook hshort _ hscans (Nat.sub_le _ _)
    exact ⟨htracks.lines, htracks.column⟩

end NewBuilder

/-! ## `advance`, character by character -/

/-- What `advance` counts: `skipped` is the plain text behind the last character that it read,
which only counts if nothing else comes. -/
def advanceChars (p : TextPosition) (skipped : Nat) : List Char → TextPosition
  | [] => ⟨p.line, p.column + skipped⟩
  | c :: cs =>
    if plain c then advanceChars p (skipped + 1) cs else advanceChars (p.step c cs.head?) 0 cs

variable {cs : List Char} {c : Char} {input : Bytes} {P : List Char → List Char → Prop}

theorem advanceChars_plain (h : ∀ c ∈ cs, plain c = true) : ∀ (p : TextPosition)
    (skipped : Nat), advanceChars p skipped cs = ⟨p.line, p.column + (skipped + cs.length)⟩ := by
  induction cs with
  | nil => exact fun _ _ => rfl
  | cons c cs ih =>
    intro p skipped
    rw [advanceChars, if_pos (h c List.mem_cons_self),
      ih fun d hd => h d (List.mem_cons_of_mem _ hd), List.length_cons, Nat.add_assoc skipped,
      Nat.add_comm 1]

theorem advanceChars_run {run : List Char} (h : ∀ c ∈ run, plain c = true) (hc : plain c = false)
    (cs : List Char) : ∀ (p : TextPosition) (skipped : Nat),
    advanceChars p skipped (run ++ c :: cs) = advanceChars (p.step c cs.head?) 0 cs := by
  induction run with
  | nil =>
    intro p skipped
    rw [List.nil_append, advanceChars, hc, if_neg Bool.false_ne_true]
  | cons d run ih =>
    intro p skipped
    rw [List.cons_append, advanceChars, if_pos (h d List.mem_cons_self),
      ih fun e he => h e (List.mem_cons_of_mem _ he)]

theorem nextCodePoint_utf8 (c : Char) (cs : List Char) :
    nextCodePoint (utf8 (c :: cs)) = ((c.toNat : Int), width c) := by
  unfold nextCodePoint
  rw [readRune_utf8]
  by_cases h : c.toNat ≤ 127
  · have hbyte := (ascii_byte h).2.1
    have hlt : UInt8.ofNat c.toNat < 0x80 := by
      rw [UInt8.lt_iff_toNat_lt, hbyte]
      exact Nat.lt_succ_of_le h
    rw [utf8_cons, utf8EncodeChar_ascii h, List.singleton_append, List.getD_cons_zero, if_pos hlt,
      hbyte, width_ascii h]
  · obtain ⟨b, bs, hbytes, -, -, hhigh⟩ := utf8EncodeChar_multibyte (Nat.not_le.mp h)
    have hge : ¬ b < 0x80 := UInt8.not_lt.mpr (hhigh b List.mem_cons_self)
    rw [utf8_cons, hbytes, List.cons_append, List.getD_cons_zero, if_neg hge]
    exact if_neg (by omega)

/-- A position in the 32-bit fields of the source. -/
def TextPosition.offset (p : TextPosition) : LineColumnOffset :=
  ⟨Int32.ofNat p.line, Int32.ofNat p.column⟩

theorem advanceTurn_utf8 {i : Nat} (p : TextPosition) (hdrop : input.drop i = utf8 (c :: cs))
    (hlen : input.length < 2 ^ 31) :
    advanceTurn input i p.offset = ((p.step c cs.head?).offset, i + width c) := by
  have hle := lt_of_drop_utf8 hdrop
  have hmod : (i + width c) % 2 ^ 32 = i + width c := Nat.mod_eq_of_lt (by omega)
  unfold advanceTurn
  rw [hdrop, nextCodePoint_utf8]
  simp only [hmod]
  by_cases hterm : c = '\r' ∨ c = '\n' ∨ c = '\u2028' ∨ c = '\u2029'
  · rw [if_pos ((terminator_iff c).mpr hterm)]
    have hnext (hcr : c = '\r') : input[i + 1]? = some 10 ↔ cs.head? = some '\n' := by
      subst hcr
      exact lineFeed_iff hdrop
    by_cases hcrlf : c = '\r' ∧ input[i + 1]? = some 10
    · obtain ⟨rfl, hlf⟩ := hcrlf
      rw [if_pos ⟨rfl, hlf⟩, (hnext rfl).mp hlf, step_of_not_endsLine (by decide)]
      simp only [TextPosition.offset, Int32.ofNat_add]
      rfl
    · rw [if_neg fun h => hcrlf ⟨(carriageReturn_iff c).mp h.1, h.2⟩]
      have hends : endsLine c cs.head? = true := by
        rw [endsLine_iff]
        exact ⟨hterm, fun h => hcrlf ⟨h.1, (hnext h.1).mpr h.2⟩⟩
      rw [step_of_endsLine hends]
      simp only [TextPosition.offset, Int32.ofNat_add]
      rfl
  · have hends : ¬ endsLine c cs.head? = true := by
      rw [endsLine_iff]
      exact fun h => hterm h.1
    rw [if_neg fun h => hterm ((terminator_iff c).mp h), units_eq, step_of_not_endsLine hends]
    simp only [TextPosition.offset, Int32.ofNat_add]

/-- **The loop of `advance`.** -/
theorem advanceLoop_eq (hlen : input.length < 2 ^ 31) (fuel : Nat) :
    ∀ {offset : Nat} {todo : List Char} (p : TextPosition), input.drop offset = utf8 todo →
    offset ≤ input.length → input.length - offset ≤ fuel →
    advanceLoop input fuel offset p.offset = some (advanceChars p 0 todo).offset := by
  have hend {fuel offset : Nat} {todo : List Char} (p : TextPosition)
      (hdrop : input.drop offset = utf8 todo) (hoffset : offset ≤ input.length)
      (htodo : todo.dropWhile plain = []) :
      advanceLoop input fuel offset p.offset = some (advanceChars p 0 todo).offset := by
    have hplain : ∀ c ∈ todo, plain c = true := List.dropWhile_eq_nil_iff.mp htodo
    have hindex := indexOfNewlineOrNonAscii_utf8 hdrop hoffset hlen
    have hrest : (input.drop offset).length = todo.length := by
      rw [hdrop, length_utf8_plain hplain]
    have hshort : todo.length < 2 ^ 31 := by
      rw [← hrest, List.length_drop]
      omega
    rw [if_pos htodo] at hindex
    unfold advanceLoop
    rw [hindex]
    simp only [hrest, if_pos hshort, advanceChars_plain hplain, Nat.zero_add, TextPosition.offset,
      Int32.ofNat_add]
  induction fuel with
  | zero =>
    intro offset todo p hdrop hoffset hfuel
    refine hend p hdrop hoffset ?_
    cases todo with
    | nil => rfl
    | cons c cs =>
      have hle := lt_of_drop_utf8 hdrop
      have hpos := width_pos c
      omega
  | succ fuel ih =>
    intro offset todo p hdrop hoffset hfuel
    cases hrest : todo.dropWhile plain with
    | nil => exact hend p hdrop hoffset hrest
    | cons c cs =>
      have hc : plain c = false := by
        have hhead := List.head?_dropWhile_not plain todo
        rw [hrest] at hhead
        exact hhead
      have htodo : todo.takeWhile plain ++ c :: cs = todo := by
        rw [← hrest, List.takeWhile_append_dropWhile]
      have hindex := indexOfNewlineOrNonAscii_utf8 hdrop hoffset hlen
      rw [if_neg (by rw [hrest]; exact List.cons_ne_nil _ _)] at hindex
      have hdrop' := drop_run hdrop
      rw [hrest] at hdrop'
      have hle := lt_of_drop_utf8 hdrop'
      have hpos := width_pos c
      have hread : advanceChars p 0 (todo.takeWhile plain ++ c :: cs) =
          advanceChars (p.step c cs.head?) 0 cs :=
        advanceChars_run plain_of_mem_takeWhile hc cs p 0
      rw [htodo] at hread
      unfold advanceLoop
      rw [hindex]
      simp only [advanceTurn_utf8 p hdrop' hlen]
      rw [hread]
      exact ih _ (drop_width hdrop') hle (by omega)

/-! ### What `advance` misses -/

/-- What stands behind the last line terminator; `line` is what stands in front of the text on
its first line. -/
def lastLine (line : List Char) : List Char → List Char
  | [] => line
  | c :: cs => if endsLine c cs.head? then lastLine [] cs else lastLine (line ++ [c]) cs

/-- No plain character of a line stands in front of one that is not plain. -/
def PlainAtEnd (line : List Char) : Prop :=
  line.Pairwise fun a b => plain a = true → plain b = true

instance (line : List Char) : Decidable (PlainAtEnd line) :=
  inferInstanceAs (Decidable (List.Pairwise _ _))

/-- `advance` has counted a line: what it skipped is the plain text at its end. -/
structure Counted (line : List Char) (p : TextPosition) (skipped : Nat) (q : TextPosition) : Prop where
  column : q.column = p.column + skipped
  split : ∃ read run, line = read ++ run ∧ (∀ c ∈ run, plain c = true) ∧ run.length = skipped

theorem not_plainAtEnd_append {line : List Char} (h : ¬ PlainAtEnd line) (c : Char) :
    ¬ PlainAtEnd (line ++ [c]) := fun hline => h (List.pairwise_append.mp hline).1

/-- `advance` is right on a text whose last line is plain at its end: where it is wrong on a
line, another line follows. -/
theorem advanceChars_eq (cs : List Char) : ∀ {line : List Char} {p q : TextPosition} {skipped : Nat},
    p.line = q.line → Counted line p skipped q ∨ ¬ PlainAtEnd line →
    PlainAtEnd (lastLine line cs) → advanceChars p skipped cs = positionAfter q cs [] := by
  induction cs with
  | nil =>
    intro line p q skipped hline hcounted hlast
    rcases hcounted with hcounted | hnot
    · rw [advanceChars, ← hcounted.column, hline]
      rfl
    · exact absurd hlast hnot
  | cons c cs ih =>
    intro line p q skipped hline hcounted hlast
    rw [lastLine] at hlast
    rw [advanceChars, positionAfter, List.append_nil]
    by_cases hplain : plain c = true
    · have hends := endsLine_plain hplain cs.head?
      rw [hends, if_neg Bool.false_ne_true] at hlast
      rw [if_pos hplain, step_of_not_endsLine (by rw [hends]; exact Bool.false_ne_true),
        utf16Length_plain hplain]
      refine ih hline ?_ hlast
      rcases hcounted with ⟨hcolumn, read, run, rfl, hrun, hskipped⟩ | hnot
      · refine Or.inl ⟨?_, read, run ++ [c], by rw [List.append_assoc], ?_, ?_⟩
        · simp only [hcolumn, Nat.add_assoc]
        · intro d hd
          rcases List.mem_append.mp hd with hd | hd
          · exact hrun d hd
          · rw [List.mem_singleton.mp hd]
            exact hplain
        · rw [List.length_append, hskipped]
          rfl
      · exact Or.inr (not_plainAtEnd_append hnot c)
    · rw [if_neg hplain]
      by_cases hends : endsLine c cs.head? = true
      · rw [if_pos hends] at hlast
        rw [step_of_endsLine hends, step_of_endsLine hends]
        refine ih (by simp only [hline]) (Or.inl ⟨rfl, [], [], rfl, ?_, rfl⟩) hlast
        exact fun d hd => absurd hd (by simp)
      · rw [if_neg hends] at hlast
        rw [step_of_not_endsLine hends, step_of_not_endsLine hends]
        refine ih hline ?_ hlast
        rcases hcounted with ⟨hcolumn, read, run, rfl, hrun, hskipped⟩ | hnot
        · cases run with
          | nil =>
            refine Or.inl ⟨?_, read ++ [c], [], by simp, fun d hd => (absurd hd (by simp)), rfl⟩
            rw [List.length_nil] at hskipped
            simp only [hcolumn, ← hskipped, Nat.add_zero]
          | cons d run =>
            refine Or.inr fun hline => hplain ?_
            refine (List.pairwise_append.mp hline).2.2 d ?_ c (by simp) (hrun d List.mem_cons_self)
            simp
        · exact Or.inr (not_plainAtEnd_append hnot c)

/-! ## Runs -/

/-- A call after each step by which the output grows. -/
def NewBuilder.updates (b : NewBuilder) (output : Bytes) : List Bytes → NewBuilder
  | [] => b
  | step :: steps =>
    (b.updateGeneratedLineAndColumn (output ++ step)).updates (output ++ step) steps

/-- Something holds of each step, and of the text in front of it. -/
def EachStep (P : (text step : List Char) → Prop) : (text : List Char) → List (List Char) → Prop
  | _, [] => True
  | text, step :: steps => P text step ∧ EachStep P (text ++ step) steps

/-- The step does not split a CR LF. -/
def KeepsPairs (text step : List Char) : Prop :=
  ¬ (text.getLast? = some '\r' ∧ step.head? = some '\n')

instance (text step : List Char) : Decidable (KeepsPairs text step) :=
  inferInstanceAs (Decidable (¬ _))

/-- The step keeps clear of what the two trackers get wrong. -/
structure Clear (text step : List Char) : Prop where
  short : (utf8 (text ++ step)).length < 2 ^ 31
  lookahead : NewBuilder.LooksRight (utf8 step)
  counted : PlainAtEnd (lastLine [] (text ++ step))

theorem EachStep.left (a b : List (List Char)) : ∀ {text : List Char},
    EachStep P text (a ++ b) → EachStep P text a := by
  induction a with
  | nil => exact fun _ => trivial
  | cons step a ih => exact fun h => ⟨h.1, ih h.2⟩

theorem EachStep.last (a : List (List Char)) (step : List Char) :
    ∀ {text : List Char}, EachStep P text (a ++ [step]) → P (text ++ a.flatten) step := by
  induction a with
  | nil =>
    intro text h
    rw [List.flatten_nil, List.append_nil]
    exact h.1
  | cons first a ih =>
    intro text h
    rw [List.flatten_cons, ← List.append_assoc]
    exact ih h.2

/-- What holds behind every step holds of the text that a run ends with. -/
theorem Clear.of_run {steps : List (List Char)} (h : EachStep Clear [] steps) :
    (utf8 steps.flatten).length < 2 ^ 31 ∧ PlainAtEnd (lastLine [] steps.flatten) := by
  rcases List.eq_nil_or_concat steps with rfl | ⟨steps, step, rfl⟩
  · exact ⟨by decide, List.Pairwise.nil⟩
  · rw [List.concat_eq_append] at h ⊢
    have hlast := h.last steps step
    rw [List.flatten_append, List.flatten_singleton]
    exact ⟨hlast.short, hlast.counted⟩

/-- **The builder over a run.** -/
theorem updates_tracks {before : Nat} (steps : List (List Char)) : ∀ {b : NewBuilder} {text : List Char},
    EachStep KeepsPairs text steps → EachStep Clear text steps →
    b.Tracks before (positionAfter ⟨0, 0⟩ text []) → b.lastGeneratedUpdate = (utf8 text).length →
    (b.updates (utf8 text) (steps.map utf8)).Tracks before
      (positionAfter ⟨0, 0⟩ (text ++ steps.flatten) []) := by
  induction steps with
  | nil =>
    intro b text _ _ h _
    rw [List.flatten_nil, List.append_nil]
    exact h
  | cons step steps ih =>
    intro b text hpairs hclear h hlast
    have hshort := hclear.1.short
    rw [utf8_append] at hshort
    obtain ⟨htracks, hlast'⟩ := NewBuilder.update_tracks h hlast hshort hclear.1.lookahead
    rw [← positionAfter_ahead hpairs.1] at htracks
    rw [← utf8_append] at htracks hlast'
    have hsplit := positionAfter_append text step [] ⟨0, 0⟩
    rw [List.append_nil] at hsplit
    rw [← hsplit] at htracks
    have hrest := ih hpairs.2 hclear.2 htracks hlast'
    rw [List.map_cons, NewBuilder.updates, List.flatten_cons, ← List.append_assoc, ← utf8_append]
    exact hrest

/-- **`advance` over a text.** -/
theorem advance_eq {text : List Char} (hlen : (utf8 text).length < 2 ^ 31)
    (hcounted : PlainAtEnd (lastLine [] text)) :
    LineColumnOffset.advance ⟨0, 0⟩ (utf8 text) = some (positionAfter ⟨0, 0⟩ text []).offset := by
  have hloop := advanceLoop_eq hlen (utf8 text).length ⟨0, 0⟩ (List.drop_zero (l := utf8 text))
    (Nat.zero_le _) (Nat.sub_le _ _)
  have hchars : advanceChars ⟨0, 0⟩ 0 text = positionAfter ⟨0, 0⟩ text [] :=
    advanceChars_eq text rfl (Or.inl ⟨rfl, [], [], rfl, fun c hc => (absurd hc (by simp)), rfl⟩) hcounted
  rw [hchars] at hloop
  exact hloop

theorem positionAfter_line_le (cs ahead : List Char) : ∀ p : TextPosition,
    (positionAfter p cs ahead).line ≤ p.line + cs.length := by
  induction cs with
  | nil => exact fun p => Nat.le_refl _
  | cons c cs ih =>
    intro p
    have hstep : (p.step c (cs ++ ahead).head?).line ≤ p.line + 1 := by
      unfold TextPosition.step
      split
      · exact Nat.le_refl _
      · exact Nat.le_succ _
    have hrest := ih (p.step c (cs ++ ahead).head?)
    rw [positionAfter, List.length_cons]
    omega

/-- **The two trackers agree in every run that keeps clear of their slips**, in every state that
the run goes through. -/
theorem updates_eq_advance {b : NewBuilder} {steps : List (List Char)}
    (hlast : b.lastGeneratedUpdate = 0) (hcolumn : b.generatedColumn = 0)
    (hpairs : EachStep KeepsPairs [] steps) (hclear : EachStep Clear [] steps)
    {done : List (List Char)} (hdone : done <+: steps) :
    ∃ p, LineColumnOffset.advance ⟨0, 0⟩ (utf8 done.flatten) = some p ∧
      separatorCount (b.updates [] (done.map utf8)).calls = separatorCount b.calls + p.lines.toInt ∧
      (b.updates [] (done.map utf8)).generatedColumn = p.columns := by
  obtain ⟨todo, rfl⟩ := hdone
  have hclear := hclear.left done todo
  have htracks : (b.updates (utf8 []) (done.map utf8)).Tracks (separatorCount b.calls)
      (positionAfter ⟨0, 0⟩ ([] ++ done.flatten) []) :=
    updates_tracks done (hpairs.left done todo) hclear ⟨rfl, hcolumn⟩ hlast
  rw [List.nil_append] at htracks
  obtain ⟨hshort, hcounted⟩ := Clear.of_run hclear
  have hlines : (positionAfter ⟨0, 0⟩ done.flatten []).line ≤ 0 + done.flatten.length :=
    positionAfter_line_le done.flatten [] ⟨0, 0⟩
  have hle := length_le_length_utf8 done.flatten
  refine ⟨_, advance_eq hshort hcounted, ?_, htracks.column⟩
  have htoInt : (Int32.ofNat (positionAfter ⟨0, 0⟩ done.flatten []).line).toInt =
      (positionAfter ⟨0, 0⟩ done.flatten []).line := Int32.toInt_ofNat_of_lt (by omega)
  rw [TextPosition.offset, htoInt]
  exact_mod_cast htracks.lines

/-- `NewBuilder::default`. -/
def NewBuilder.init : NewBuilder := ⟨[], ⟨0, 0, 0, 0, 0⟩, 0, 0, false, false, false⟩

/-- A CR at the end of a step, and a line that starts with a character that is not plain. -/
theorem updates_eq_advance_three_steps :
    ∃ p, LineColumnOffset.advance ⟨0, 0⟩ (utf8 ['a', '\r', 'b', '\n', 'é', 'x']) = some p ∧
      separatorCount (NewBuilder.init.updates []
        ([['a', '\r'], ['b', '\n', 'é'], ['x']].map utf8)).calls =
          separatorCount NewBuilder.init.calls + p.lines.toInt ∧
      (NewBuilder.init.updates []
        ([['a', '\r'], ['b', '\n', 'é'], ['x']].map utf8)).generatedColumn = p.columns := by
  have hpairs : EachStep KeepsPairs [] [['a', '\r'], ['b', '\n', 'é'], ['x']] :=
    ⟨by decide, by decide, by decide, trivial⟩
  have hclear : EachStep Clear [] [['a', '\r'], ['b', '\n', 'é'], ['x']] :=
    ⟨⟨by decide, by decide, by decide⟩,
      ⟨by decide, by decide, by decide⟩,
      ⟨by decide, by decide, by decide⟩, trivial⟩
  exact updates_eq_advance rfl rfl hpairs hclear (List.prefix_refl _)

/-- **The slips.**  For a CR LF in front of anything but an LF the builder emits two separators,
where `advance` counts one line; on `a`, a tab and `b` the builder is at column 3, and `advance`
at column 2. -/
theorem updates_ne_advance :
    EachStep KeepsPairs [] [['a', '\r', '\n', 'b']] ∧
    LineColumnOffset.advance ⟨0, 0⟩ (utf8 ['a', '\r', '\n', 'b']) = some ⟨1, 1⟩ ∧
    separatorCount (NewBuilder.init.updates [] [utf8 ['a', '\r', '\n', 'b']]).calls = 2 ∧
    EachStep KeepsPairs [] [['a', '\t', 'b']] ∧
    LineColumnOffset.advance ⟨0, 0⟩ (utf8 ['a', '\t', 'b']) = some ⟨0, 2⟩ ∧
    (NewBuilder.init.updates [] [utf8 ['a', '\t', 'b']]).generatedColumn = 3 :=
  ⟨⟨by decide, trivial⟩, by decide, by decide, ⟨by decide, trivial⟩,
    by decide, by decide⟩

end OhosBun.SourceMap
