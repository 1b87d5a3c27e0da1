/-
# `OhosBun.SourceMap.Join` — joining the chunks of a source map

Every chunk of a bundle is printed with mappings relative to the zero state.
`append_source_map_chunk` joins one to the text of those before it: it breaks the
lines in between, rewrites the chunk's first mapping to be relative to the end of
that text, and copies the rest as it is.

Why this is enough is a telescoping sum.  Behind the first mapping every position
is that of the mapping before plus a difference, so moving the first moves them all
by as much (`Moved`), but for the generated columns, which only the chunk's first
line takes from its start.

The text is moved in 32-bit arithmetic.  The first mapping is added to the start
with a wrapping sum and its differences saturate, so both must be 32-bit numbers;
`decodeMappings_appendSourceMapChunk_ne` is what happens if they are not.
-/
import OhosBun.SourceMap.MappingsText

namespace OhosBun.SourceMap

open OhosBun.Lib

/-! ## `StringJoiner` -/

/-- The pieces of a text; an empty piece is never pushed. -/
structure StringJoiner where
  nodes : List Bytes
  nonempty : ∀ node ∈ nodes, node ≠ []

namespace StringJoiner

def push (j : StringJoiner) (data : Bytes) : StringJoiner :=
  if h : data = [] then j
  else
    { nodes := j.nodes ++ [data]
      nonempty := by
        intro node hnode
        rcases List.mem_append.mp hnode with hnode | hnode
        · exact j.nonempty node hnode
        · rw [List.mem_singleton.mp hnode]
          exact h }

def lastByte (j : StringJoiner) : UInt8 :=
  match j.nodes.getLast? with
  | none => 0
  | some tail => tail.getLast?.getD 0

/-- What `done` returns. -/
def text (j : StringJoiner) : Bytes := j.nodes.flatten

@[simp] theorem text_push (j : StringJoiner) (data : Bytes) : (j.push data).text = j.text ++ data := by
  unfold push
  split
  · next h => rw [h, List.append_nil]
  · rw [text, List.flatten_append, List.flatten_singleton]
    rfl

theorem lastByte_eq (j : StringJoiner) : j.lastByte = j.text.getLast?.getD 0 := by
  obtain ⟨nodes, nonempty⟩ := j
  rcases List.eq_nil_or_concat nodes with rfl | ⟨nodes, tail, rfl⟩
  · rfl
  · have htail : tail ≠ [] := nonempty tail (by simp)
    simp only [lastByte, text, List.concat_eq_append, List.getLast?_append, List.flatten_append,
      List.flatten_singleton, List.getLast?_singleton, Option.some_or]
    rw [List.getLast?_eq_some_getLast htail]
    rfl

end StringJoiner

/-! ## The source -/

/-- `i32::saturating_sub`. -/
def saturatingSub (a b : Int32) : Int32 :=
  if a.toInt - b.toInt < -2 ^ 31 then Int32.minValue
  else if 2 ^ 31 ≤ a.toInt - b.toInt then Int32.maxValue
  else a - b

/-- `b'"'`. -/
def quote : UInt8 := 34

/-- What `append_mapping_to_buffer` writes. -/
def appendMappingToBuffer (lastByte : UInt8) (prevState currentState : State) : Bytes :=
  let needsComma := lastByte != 0 && lastByte != semicolon && lastByte != quote
  (if needsComma then [comma] else []) ++
    (Vlq.encode (saturatingSub currentState.generatedColumn prevState.generatedColumn) ++
      (Vlq.encode (saturatingSub currentState.sourceIndex prevState.sourceIndex) ++
        (Vlq.encode (saturatingSub currentState.originalLine prevState.originalLine) ++
          Vlq.encode (saturatingSub currentState.originalColumn prevState.originalColumn))))

/-- `index_of_not_char`, whose result is cast to `u32`. -/
def indexOfNotChar (slice : Bytes) (char : UInt8) : Option Nat :=
  (slice.findIdx? (· != char)).map (· % 2 ^ 32)

/-- The line breaks in between this mapping and the previous one; `none` is the panic
at a negative line. -/
def lineBreaks (j : StringJoiner) (prevEndState startState : State) :
    Option (StringJoiner × State) :=
  if startState.generatedLine ≠ 0 then
    if startState.generatedLine < 0 then none
    else some (j.push (List.replicate startState.generatedLine.toInt.toNat semicolon),
      { prevEndState with generatedColumn := 0 })
  else some (j, prevEndState)

/-- Past any leading semicolons. -/
def leadingSemicolons (j : StringJoiner) (prevEndState startState : State) (sourceMap : Bytes) :
    StringJoiner × State × State × Bytes :=
  match indexOfNotChar sourceMap semicolon with
  | some semicolons =>
    if semicolons > 0 then
      (j.push (sourceMap.take semicolons), { prevEndState with generatedColumn := 0 },
        { startState with generatedColumn := 0 }, sourceMap.drop semicolons)
    else (j, prevEndState, startState, sourceMap)
  | none => (j, prevEndState, startState, sourceMap)

/-- The first mapping, moved by the start, and what follows it. -/
def firstMapping (startState : State) (sourceMap : Bytes) : State × Bytes :=
  let generatedColumn := Vlq.decode sourceMap 0
  let sourceIndex := Vlq.decode sourceMap generatedColumn.start
  let originalLine := Vlq.decode sourceMap sourceIndex.start
  let originalColumn := Vlq.decode sourceMap originalLine.start
  ({ startState with
      generatedColumn := startState.generatedColumn + generatedColumn.value
      sourceIndex := startState.sourceIndex + sourceIndex.value
      originalLine := startState.originalLine + originalLine.value
      originalColumn := startState.originalColumn + originalColumn.value },
    sourceMap.drop originalColumn.start)

def appendSourceMapChunk (j : StringJoiner) (prevEndState startState : State) (sourceMap : Bytes) :
    Option StringJoiner :=
  (lineBreaks j prevEndState startState).map fun (j, prevEndState) =>
    let (j, prevEndState, startState, sourceMap) :=
      leadingSemicolons j prevEndState startState sourceMap
    let (startState, rest) := firstMapping startState sourceMap
    (j.push (appendMappingToBuffer j.lastByte prevEndState startState)).push rest

/-! ## The text of the result -/

variable {k : Nat} {s : Segment} {startState : State} {a b previous : Int32} {ts : List Token}

/-- What `decode_assume_valid` reads at a field. -/
theorem Field.decode_at (f : Field) {bs : Bytes} {rest : Bytes} (h : bs.drop k = f.bytes ++ rest) :
    Vlq.decode bs k = ⟨f.value, k + f.bytes.length⟩ ∧ bs.drop (k + f.bytes.length) = rest := by
  refine ⟨?_, ?_⟩
  · rw [Vlq.decode_drop, h, f.decode_append]
  · rw [← List.drop_drop, h, List.drop_left]

/-- The start moved to a segment. -/
def movedBy (startState : State) (s : Segment) : State :=
  { startState with
    generatedColumn := startState.generatedColumn + s.generatedColumn.value
    sourceIndex := startState.sourceIndex + s.sourceIndex.value
    originalLine := startState.originalLine + s.originalLine.value
    originalColumn := startState.originalColumn + s.originalColumn.value }

theorem firstMapping_segment (hname : s.name = none) (startState : State) (rest : Bytes) :
    firstMapping startState (s.bytes ++ rest) = (movedBy startState s, rest) := by
  obtain ⟨c, i, l, o, n⟩ := s
  simp only at hname
  subst hname
  have htext : (c.bytes ++ (i.bytes ++ (l.bytes ++ (o.bytes ++ rest)))) =
      (Segment.mk c i l o none).bytes ++ rest := by
    simp [Segment.bytes, Segment.tailBytes]
  rw [← htext]
  obtain ⟨hc, hdrop⟩ := c.decode_at (k := 0) (List.drop_zero
    (l := c.bytes ++ (i.bytes ++ (l.bytes ++ (o.bytes ++ rest)))))
  obtain ⟨hi, hdrop⟩ := i.decode_at hdrop
  obtain ⟨hl, hdrop⟩ := l.decode_at hdrop
  obtain ⟨ho, hdrop⟩ := o.decode_at hdrop
  simp only [firstMapping, hc, hi, hl, ho, hdrop]
  rfl

theorem indexOfNotChar_replicate (hk : k < 2 ^ 32) {c b : UInt8} (hb : b ≠ c) (rest : Bytes) :
    indexOfNotChar (List.replicate k c ++ b :: rest) c = some k := by
  have hfind : (List.replicate k c ++ b :: rest).findIdx? (· != c) = some k := by
    rw [List.findIdx?_eq_some_iff_getElem]
    refine ⟨by simp, ?_, ?_⟩
    · simp [List.getElem_append_right, hb]
    · intro i hi
      simp [List.getElem_append_left, hi]
  rw [indexOfNotChar, hfind, Option.map_some, Nat.mod_eq_of_lt hk]

theorem Segment.exists_head (s : Segment) : ∃ b bs, s.bytes = b :: bs ∧ b ≠ semicolon := by
  obtain ⟨b, bs, hbytes, -, hb⟩ := s.generatedColumn.exists_head
  exact ⟨b, bs ++ s.tailBytes, by rw [Segment.bytes, hbytes, List.cons_append], hb⟩

/-- The end of the text before, on the line of the chunk's first mapping. -/
def onLine (breaks : Nat) (prevEndState : State) : State :=
  if breaks = 0 then prevEndState else { prevEndState with generatedColumn := 0 }

@[simp] theorem onLine_sourceIndex (n : Nat) (p : State) : (onLine n p).sourceIndex = p.sourceIndex := by
  unfold onLine
  split <;> rfl

@[simp] theorem onLine_originalLine (n : Nat) (p : State) :
    (onLine n p).originalLine = p.originalLine := by
  unfold onLine
  split <;> rfl

@[simp] theorem onLine_originalColumn (n : Nat) (p : State) :
    (onLine n p).originalColumn = p.originalColumn := by
  unfold onLine
  split <;> rfl

theorem onLine_generatedColumn (n : Nat) (p : State) : (onLine n p).generatedColumn.toInt =
    if n = 0 then p.generatedColumn.toInt else 0 := by
  unfold onLine
  split <;> rfl

theorem lineBreaks_eq (j : StringJoiner) (prevEndState : State)
    (hline : 0 ≤ startState.generatedLine.toInt) :
    ∃ j', lineBreaks j prevEndState startState =
        some (j', onLine startState.generatedLine.toInt.toNat prevEndState) ∧
      j'.text = j.text ++ List.replicate startState.generatedLine.toInt.toNat semicolon := by
  unfold lineBreaks
  by_cases hzero : startState.generatedLine = 0
  · refine ⟨j, ?_, ?_⟩
    · rw [if_neg (not_not.mpr hzero), hzero]
      rfl
    · simp [hzero]
  · have hne : startState.generatedLine.toInt ≠ 0 := fun h => hzero (Int32.toInt_inj.mp h)
    have hneg : ¬ startState.generatedLine < 0 := by
      rw [Int32.lt_iff_toInt_lt]
      exact Int.not_lt.mpr hline
    have hlines : startState.generatedLine.toInt.toNat ≠ 0 := by omega
    rw [if_pos hzero, if_neg hneg, onLine, if_neg hlines]
    exact ⟨_, rfl, StringJoiner.text_push j _⟩

theorem leadingSemicolons_eq (j : StringJoiner) (prevEndState startState : State) (hk : k < 2 ^ 32)
    (s : Segment) (rest : Bytes) :
    ∃ j', leadingSemicolons j prevEndState startState
          (List.replicate k semicolon ++ (s.bytes ++ rest)) =
        (j', onLine k prevEndState, onLine k startState, s.bytes ++ rest) ∧
      j'.text = j.text ++ List.replicate k semicolon := by
  obtain ⟨b, bs, hbytes, hb⟩ := s.exists_head
  have hindex := indexOfNotChar_replicate hk hb (bs ++ rest)
  rw [hbytes, List.cons_append]
  unfold leadingSemicolons
  rw [hindex]
  cases k with
  | zero => exact ⟨j, rfl, (List.append_nil _).symm⟩
  | succ k =>
    have htake : (List.replicate (k + 1) semicolon ++ b :: (bs ++ rest)).take (k + 1) =
        List.replicate (k + 1) semicolon := List.take_left' List.length_replicate
    have hdrop : (List.replicate (k + 1) semicolon ++ b :: (bs ++ rest)).drop (k + 1) =
        b :: (bs ++ rest) := List.drop_left' List.length_replicate
    simp only [gt_iff_lt, Nat.zero_lt_succ, if_true, htake, hdrop]
    exact ⟨_, rfl, StringJoiner.text_push j _⟩

theorem onLine_onLine (a b : Nat) (p : State) : onLine b (onLine a p) = onLine (a + b) p := by
  unfold onLine
  cases a with
  | zero => rw [if_pos rfl, Nat.zero_add]
  | succ a =>
    have hne : a + 1 + b ≠ 0 := by omega
    rw [if_neg (Nat.succ_ne_zero a), if_neg hne]
    split <;> rfl

/-- The result, in pieces: the text before, the line breaks, the first mapping, the rest. -/
theorem appendSourceMapChunk_text (j : StringJoiner) (prevEndState : State)
    (hline : 0 ≤ startState.generatedLine.toInt) (hk : k < 2 ^ 32) (hname : s.name = none) (rest : Bytes)
    {breaks : Nat} (hbreaks : breaks = startState.generatedLine.toInt.toNat + k) :
    ∃ j', appendSourceMapChunk j prevEndState startState
        (List.replicate k semicolon ++ (s.bytes ++ rest)) = some j' ∧
      j'.text = j.text ++ List.replicate breaks semicolon ++
        appendMappingToBuffer
          ((j.text ++ List.replicate breaks semicolon).getLast?.getD 0)
          (onLine breaks prevEndState) (movedBy (onLine k startState) s) ++ rest := by
  obtain ⟨j₁, hbreak, htext₁⟩ := lineBreaks_eq j prevEndState hline
  obtain ⟨j₂, hleading, htext₂⟩ := leadingSemicolons_eq j₁
    (onLine startState.generatedLine.toInt.toNat prevEndState) startState hk s rest
  have htext : j₂.text = j.text ++ List.replicate breaks semicolon := by
    rw [htext₂, htext₁, List.append_assoc, List.replicate_append_replicate, hbreaks]
  rw [onLine_onLine, ← hbreaks] at hleading
  refine ⟨(j₂.push (appendMappingToBuffer j₂.lastByte (onLine breaks prevEndState)
    (movedBy (onLine k startState) s))).push rest, ?_, ?_⟩
  · unfold appendSourceMapChunk
    rw [hbreak, Option.map_some]
    simp only [hleading, firstMapping_segment hname]
  · rw [StringJoiner.text_push, StringJoiner.text_push, StringJoiner.lastByte_eq, htext]

/-! ## Moved positions -/

/-- A mapping of the chunk, as it stands behind a text whose last line is `line`. -/
def translate (line : Nat) (startState : State) (r : TextMapping) : TextMapping where
  generatedLine := line + startState.generatedLine.toInt.toNat + r.generatedLine
  generatedColumn :=
    r.generatedColumn + if r.generatedLine = 0 then startState.generatedColumn.toInt else 0
  sourceIndex := r.sourceIndex + startState.sourceIndex.toInt
  originalLine := r.originalLine + startState.originalLine.toInt
  originalColumn := r.originalColumn + startState.originalColumn.toInt
  name := r.name

/-- A position of the chunk on one of its lines, and where it is in the joined text. -/
structure Moved (startState : State) (line : Nat) (p q : Running) : Prop where
  generatedColumn : q.generatedColumn =
    p.generatedColumn + if line = 0 then startState.generatedColumn.toInt else 0
  sourceIndex : q.sourceIndex = p.sourceIndex + startState.sourceIndex.toInt
  originalLine : q.originalLine = p.originalLine + startState.originalLine.toInt
  originalColumn : q.originalColumn = p.originalColumn + startState.originalColumn.toInt

namespace Moved

variable {startState : State} {line : Nat} {p q : Running}

theorem newLine (h : Moved startState line p q) : Moved startState (line + 1) p.newLine q.newLine where
  generatedColumn := rfl
  sourceIndex := h.sourceIndex
  originalLine := h.originalLine
  originalColumn := h.originalColumn

theorem step (h : Moved startState line p q) (s : Segment) :
    Moved startState line (p.step s) (q.step s) where
  generatedColumn := by
    rw [Running.step, Running.step, h.generatedColumn, Int.add_right_comm]
  sourceIndex := by rw [Running.step, Running.step, h.sourceIndex, Int.add_right_comm]
  originalLine := by rw [Running.step, Running.step, h.originalLine, Int.add_right_comm]
  originalColumn := by rw [Running.step, Running.step, h.originalColumn, Int.add_right_comm]

theorem mapping (h : Moved startState line p q) {s s' : Segment} (hname : s.name = none)
    (hname' : s'.name = none) (base : Nat) :
    s'.mapping (base + startState.generatedLine.toInt.toNat + line) q =
      translate base startState (s.mapping line p) := by
  simp only [Segment.mapping, translate, h.generatedColumn, h.sourceIndex, h.originalLine,
    h.originalColumn, hname, hname', Option.map_none]

theorem tokenMappings (base : Nat) (ts : List Token) : ∀ {line : Nat} {p q : Running},
    Moved startState line p q → (∀ r ∈ tokenMappings line p ts, r.name = none) →
    tokenMappings (base + startState.generatedLine.toInt.toNat + line) q ts =
      (tokenMappings line p ts).map (translate base startState) := by
  induction ts with
  | nil => exact fun _ _ => rfl
  | cons t ts ih =>
    intro line p q h hnames
    cases t with
    | semicolon => exact ih h.newLine hnames
    | comma => exact ih h hnames
    | segment s =>
      rw [SourceMap.tokenMappings] at hnames ⊢
      have hname : s.name = none := by
        have hfirst := hnames _ List.mem_cons_self
        exact Option.map_eq_none_iff.mp hfirst
      have hstep := h.step s
      rw [hstep.mapping hname hname, ih hstep fun r hr => hnames r (List.mem_cons_of_mem _ hr)]
      rfl

end Moved

/-! ## The tokens of the result -/

theorem toInt_add_of_lt (hlo : -2 ^ 31 ≤ a.toInt + b.toInt) (hhi : a.toInt + b.toInt < 2 ^ 31) :
    (a + b).toInt = a.toInt + b.toInt := by
  rw [Int32.toInt_add]
  exact Int.bmod_eq_of_le (by simpa using hlo) (by simpa using hhi)

theorem saturatingSub_toInt (hlo : -2 ^ 31 ≤ a.toInt - b.toInt) (hhi : a.toInt - b.toInt < 2 ^ 31) :
    (saturatingSub a b).toInt = a.toInt - b.toInt := by
  rw [saturatingSub, if_neg (Int.not_lt.mpr hlo), if_neg (Int.not_le.mpr hhi), Int32.toInt_sub]
  exact Int.bmod_eq_of_le (by simpa using hlo) (by simpa using hhi)

/-- A position and its difference to the one before it are 32-bit numbers; `i32::MIN` is
no difference, as it has no VLQ. -/
def Fits (position before : Int) : Prop :=
  -2 ^ 31 ≤ position ∧ position < 2 ^ 31 ∧ -2 ^ 31 < position - before ∧ position - before < 2 ^ 31

/-- The field that is written for a difference. -/
def deltaField (current previous : Int32) : Field := Field.encode (saturatingSub current previous)

theorem Fits.deltaField {current : Int32} (h : Fits current.toInt previous.toInt) :
    (deltaField current previous).bytes = Vlq.encode (saturatingSub current previous) ∧
      (deltaField current previous).value.toInt = current.toInt - previous.toInt := by
  obtain ⟨-, -, hlo, hhi⟩ := h
  have hsub := saturatingSub_toInt (Int.le_of_lt hlo) hhi
  have hmin : saturatingSub current previous ≠ Int32.minValue := by
    intro hmin
    rw [hmin] at hsub
    have : Int32.minValue.toInt = -2 ^ 31 := by decide
    omega
  exact ⟨Field.encode_bytes hmin, by rw [SourceMap.deltaField, Field.encode_value hmin, hsub]⟩

/-- The rewritten first mapping. -/
def rewritten (previous current : State) : Segment where
  generatedColumn := deltaField current.generatedColumn previous.generatedColumn
  sourceIndex := deltaField current.sourceIndex previous.sourceIndex
  originalLine := deltaField current.originalLine previous.originalLine
  originalColumn := deltaField current.originalColumn previous.originalColumn
  name := none

/-- All four fields of a state fit. -/
structure StateFits (previous current : State) : Prop where
  generatedColumn : Fits current.generatedColumn.toInt previous.generatedColumn.toInt
  sourceIndex : Fits current.sourceIndex.toInt previous.sourceIndex.toInt
  originalLine : Fits current.originalLine.toInt previous.originalLine.toInt
  originalColumn : Fits current.originalColumn.toInt previous.originalColumn.toInt

theorem StateFits.appendMappingToBuffer {previous current : State} (h : StateFits previous current)
    (lastByte : UInt8) : appendMappingToBuffer lastByte previous current =
      (if lastByte != 0 && lastByte != semicolon && lastByte != quote then [comma] else []) ++
        (rewritten previous current).bytes := by
  rw [SourceMap.appendMappingToBuffer, Segment.bytes, Segment.tailBytes]
  simp only [rewritten, h.generatedColumn.deltaField.1, h.sourceIndex.deltaField.1,
    h.originalLine.deltaField.1, h.originalColumn.deltaField.1, Option.map_none, Option.getD_none,
    List.append_nil]

/-- The position behind line breaks. -/
def behindBreaks (n : Nat) (p : Running) : Running := if n = 0 then p else p.newLine

@[simp] theorem behindBreaks_sourceIndex (n : Nat) (p : Running) :
    (behindBreaks n p).sourceIndex = p.sourceIndex := by
  unfold behindBreaks
  split <;> rfl

@[simp] theorem behindBreaks_originalLine (n : Nat) (p : Running) :
    (behindBreaks n p).originalLine = p.originalLine := by
  unfold behindBreaks
  split <;> rfl

@[simp] theorem behindBreaks_originalColumn (n : Nat) (p : Running) :
    (behindBreaks n p).originalColumn = p.originalColumn := by
  unfold behindBreaks
  split <;> rfl

theorem behindBreaks_generatedColumn (n : Nat) (p : Running) :
    (behindBreaks n p).generatedColumn = if n = 0 then p.generatedColumn else 0 := by
  unfold behindBreaks
  split <;> rfl

theorem tokenMappings_replicate (n : Nat) (rest : List Token) : ∀ (line : Nat) (p : Running),
    tokenMappings line p (List.replicate n .semicolon ++ rest) =
      tokenMappings (line + n) (behindBreaks n p) rest := by
  induction n with
  | zero => exact fun _ _ => rfl
  | succ n ih =>
    intro line p
    have hbreaks : behindBreaks n p.newLine = behindBreaks (n + 1) p := by
      unfold behindBreaks
      rw [if_neg (Nat.succ_ne_zero n)]
      split <;> rfl
    rw [List.replicate_succ, List.cons_append, tokenMappings, ih, hbreaks, Nat.add_assoc,
      Nat.add_comm 1]

theorem tokensText_replicate (n : Nat) :
    tokensText (List.replicate n .semicolon) = List.replicate n semicolon := by
  induction n with
  | zero => rfl
  | succ n ih => rw [List.replicate_succ, tokensText, List.flatMap_cons, ← tokensText, ih]; rfl

/-- A chunk with mappings starts with semicolons and a segment. -/
theorem exists_first_segment (ts : List Token) : ∀ {line : Nat} {p : Running},
    Formed .lineStart ts → tokenMappings line p ts ≠ [] →
    ∃ k s rest, ts = List.replicate k .semicolon ++ .segment s :: rest ∧
      Formed .behindSegment rest := by
  induction ts with
  | nil => exact fun _ hne => absurd rfl hne
  | cons t ts ih =>
    intro line p hts hne
    cases t with
    | semicolon =>
      obtain ⟨k, s, rest, rfl, hrest⟩ := ih hts.2 hne
      exact ⟨k + 1, s, rest, rfl, hrest⟩
    | comma => exact absurd hts.1 (by rintro ⟨⟩)
    | segment s => exact ⟨0, s, ts, rfl, hts.2⟩

theorem endPlace_concat (ts : List Token) (t : Token) (place : Place) :
    endPlace place (ts ++ [t]) = t.behind := by
  induction ts generalizing place with
  | nil => rfl
  | cons u ts ih => exact ih u.behind

theorem Formed.endPlace_ne : ∀ {place : Place}, Formed place ts →
    endPlace place ts ≠ .behindComma := by
  induction ts with
  | nil => exact fun h => h
  | cons t ts ih => exact fun h => ih h.2

/-- A comma is needed behind a segment. -/
theorem needsComma_iff {head : Bytes} (hhead : head = [] ∨ head.getLast? = some quote)
    (hts : Formed .lineStart ts) {lastByte : UInt8}
    (hlast : lastByte = (head ++ tokensText ts).getLast?.getD 0) :
    (lastByte != 0 && lastByte != semicolon && lastByte != quote) =
      decide (endPlace .lineStart ts = .behindSegment) := by
  rcases List.eq_nil_or_concat ts with rfl | ⟨ts, t, rfl⟩
  · rcases hhead with rfl | hhead
    · rw [hlast]
      rfl
    · rw [hlast, tokensText, List.flatMap_nil, List.append_nil, hhead]
      rfl
  · rw [List.concat_eq_append] at hts hlast ⊢
    rw [endPlace_concat]
    have hcomma := hts.endPlace_ne
    rw [endPlace_concat] at hcomma
    cases t with
    | semicolon =>
      rw [hlast, tokensText_append, ← List.append_assoc, List.getLast?_append]
      rfl
    | comma => exact absurd rfl hcomma
    | segment s =>
      have hmem : lastByte ∈ Vlq.base64 := by
        have hlast' : (head ++ tokensText (ts ++ [Token.segment s])).getLast? =
            some (s.bytes.getLast s.bytes_ne_nil) := by
          rw [tokensText_append, ← List.append_assoc, List.getLast?_append]
          show Option.or ([Token.segment s].flatMap Token.bytes).getLast? _ = _
          rw [List.flatMap_singleton, Token.bytes, List.getLast?_eq_some_getLast s.bytes_ne_nil]
          rfl
        rw [hlast, hlast']
        exact s.digits _ (List.getLast_mem _)
      have hdigits : Vlq.base64.all (fun b => b != 0 && b != semicolon && b != quote) = true := by
        decide
      rw [List.all_eq_true.mp hdigits lastByte hmem]
      rfl

/-! ## Joining -/

/-- A state is the position at the end of a text. -/
structure State.EndsAt (state : State) (e : Running) : Prop where
  generatedColumn : state.generatedColumn.toInt = e.generatedColumn
  sourceIndex : state.sourceIndex.toInt = e.sourceIndex
  originalLine : state.originalLine.toInt = e.originalLine
  originalColumn : state.originalColumn.toInt = e.originalColumn

/-- The mapping that comes first behind a text that ends at `e` on `line` fits there. -/
structure TextMapping.FitsBehind (first : TextMapping) (line : Nat) (e : Running) : Prop where
  generatedColumn : Fits first.generatedColumn
    (if first.generatedLine = line then e.generatedColumn else 0)
  sourceIndex : Fits first.sourceIndex e.sourceIndex
  originalLine : Fits first.originalLine e.originalLine
  originalColumn : Fits first.originalColumn e.originalColumn

/-- One field of the first mapping: no overflow, and the difference leads to it. -/
theorem Fits.moved {start delta : Int32} {before : Int} (h : Fits (delta.toInt + start.toInt) before)
    (hprevious : previous.toInt = before) :
    Fits (start + delta).toInt previous.toInt ∧
      before + (SourceMap.deltaField (start + delta) previous).value.toInt =
        delta.toInt + start.toInt := by
  have hadd : (start + delta).toInt = delta.toInt + start.toInt := by
    rw [toInt_add_of_lt (Int.add_comm start.toInt _ ▸ h.1) (Int.add_comm start.toInt _ ▸ h.2.1)]
    exact Int.add_comm _ _
  have hfits : Fits (start + delta).toInt previous.toInt := by
    rw [hadd, hprevious]
    exact h
  refine ⟨hfits, ?_⟩
  rw [hfits.deltaField.2, hadd, hprevious]
  omega

section first

variable {startState prevEndState : State} {line k breaks : Nat} {e : Running} {s : Segment}

/-- The rewritten first mapping is the first mapping, moved. -/
theorem TextMapping.FitsBehind.rewritten (hprev : prevEndState.EndsAt e)
    (hbreaks : breaks = startState.generatedLine.toInt.toNat + k)
    (h : (translate line startState (s.mapping k (Running.zero.step s))).FitsBehind line e) :
    StateFits (onLine breaks prevEndState) (movedBy (onLine k startState) s) ∧
      Moved startState k (Running.zero.step s) ((behindBreaks breaks e).step
        (rewritten (onLine breaks prevEndState) (movedBy (onLine k startState) s))) := by
  have hbefore : (onLine breaks prevEndState).generatedColumn.toInt =
      (behindBreaks breaks e).generatedColumn := by
    rw [onLine_generatedColumn, behindBreaks_generatedColumn, hprev.generatedColumn]
  obtain ⟨hc, hi, hl, ho⟩ := h
  simp only [translate, Segment.mapping, Running.step, Running.zero, Int.zero_add] at hc hi hl ho
  have hline : (line + startState.generatedLine.toInt.toNat + k = line) = (breaks = 0) := by
    rw [hbreaks]
    exact propext (by omega)
  simp only [hline, ← behindBreaks_generatedColumn, ← onLine_generatedColumn] at hc
  obtain ⟨hcFits, hcMoved⟩ := hc.moved hbefore
  obtain ⟨hiFits, hiMoved⟩ := hi.moved hprev.sourceIndex
  obtain ⟨hlFits, hlMoved⟩ := hl.moved hprev.originalLine
  obtain ⟨hoFits, hoMoved⟩ := ho.moved hprev.originalColumn
  refine ⟨⟨hcFits, ?_, ?_, ?_⟩, ?_, ?_, ?_, ?_⟩
  · simpa [movedBy] using hiFits
  · simpa [movedBy] using hlFits
  · simpa [movedBy] using hoFits
  · simpa [Running.step, Running.zero, SourceMap.rewritten, movedBy, onLine_generatedColumn]
      using hcMoved
  · simpa [Running.step, Running.zero, SourceMap.rewritten, movedBy] using hiMoved
  · simpa [Running.step, Running.zero, SourceMap.rewritten, movedBy] using hlMoved
  · simpa [Running.step, Running.zero, SourceMap.rewritten, movedBy] using hoMoved

end first

/-- The tokens of the joined text. -/
def joinedTokens (ts : List Token) (breaks : Nat) (s : Segment) (rest : List Token) : List Token :=
  ts ++ (List.replicate breaks .semicolon ++
    ((if endPlace .lineStart (ts ++ List.replicate breaks .semicolon) = .behindSegment then [.comma]
      else []) ++ .segment s :: rest))

section joined

variable {ts rest : List Token} {breaks : Nat} {s : Segment}

theorem formed_breaks (hts : Formed .lineStart ts) (breaks : Nat) :
    Formed .lineStart (ts ++ List.replicate breaks .semicolon) := by
  have hsemicolons (n : Nat) : ∀ {place : Place}, place ≠ .behindComma →
      Formed place (List.replicate n .semicolon) := by
    induction n with
    | zero => exact fun h => h
    | succ n ih => exact fun h => ⟨h, ih Place.noConfusion⟩
  exact hts.append (hsemicolons breaks hts.endPlace_ne)

theorem formed_joinedTokens (hts : Formed .lineStart ts) (hrest : Formed .behindSegment rest) :
    Formed .lineStart (joinedTokens ts breaks s rest) := by
  have hbreaks := formed_breaks hts breaks
  rw [joinedTokens, ← List.append_assoc]
  refine hbreaks.append ?_
  split
  · next hplace => exact ⟨hplace, Place.noConfusion, hrest⟩
  · next hplace => exact ⟨hplace, hrest⟩

theorem tokenMappings_joinedTokens (line : Nat) (p : Running) :
    tokenMappings line p (joinedTokens ts breaks s rest) =
      tokenMappings line p ts ++ tokenMappings (line + tokenLines ts + breaks)
        (behindBreaks breaks (tokenEnd p ts)) (.segment s :: rest) := by
  rw [joinedTokens, tokenMappings_append, tokenMappings_replicate]
  split <;> rfl

theorem tokensText_joinedTokens :
    tokensText (joinedTokens ts breaks s rest) =
      tokensText ts ++ (List.replicate breaks semicolon ++
        ((if endPlace .lineStart (ts ++ List.replicate breaks .semicolon) = .behindSegment
          then [comma] else []) ++ (s.bytes ++ tokensText rest))) := by
  rw [joinedTokens, tokensText_append, tokensText_append, tokensText_append, tokensText_replicate]
  split <;> rfl

end joined

/-- **Joining a chunk.**  The mappings of the text before stay, and those of the chunk
follow, moved by the start. -/
theorem decodeMappings_appendSourceMapChunk {j : StringJoiner} {head text chunk : Bytes}
    {prevEndState startState : State} {line : Nat} {e : Running} {rows : List TextMapping}
    {first : TextMapping} {more : List TextMapping}
    (hj : j.text = head ++ text) (hhead : head = [] ∨ head.getLast? = some quote)
    (htext : decodeMappings text = some rows) (hend : decodeEnd text = some (line, e))
    (hprev : prevEndState.EndsAt e) (hstart : 0 ≤ startState.generatedLine)
    (hchunk : decodeMappings chunk = some (first :: more))
    (hnames : ∀ r ∈ first :: more, r.name = none) (hlines : first.generatedLine < 2 ^ 32)
    (hfits : (translate line startState first).FitsBehind line e) :
    ∃ j' joined, appendSourceMapChunk j prevEndState startState chunk = some j' ∧
      j'.text = head ++ joined ∧
      decodeMappings joined = some (rows ++ (first :: more).map (translate line startState)) := by
  obtain ⟨ts, hts, rfl, rfl⟩ := (decodeMappings_eq_some_iff text rows).mp htext
  rw [decodeEnd_tokensText hts] at hend
  obtain ⟨rfl, rfl⟩ := Prod.mk.inj (Option.some.inj hend)
  obtain ⟨cs, hcs, rfl, hrows⟩ := (decodeMappings_eq_some_iff chunk (first :: more)).mp hchunk
  obtain ⟨k, s, rest, rfl, hrest⟩ := exists_first_segment cs hcs (hrows ▸ List.cons_ne_nil _ _)
  have hzero : behindBreaks k Running.zero = Running.zero := by
    unfold behindBreaks
    split <;> rfl
  rw [tokenMappings_replicate, hzero, Nat.zero_add, tokenMappings, List.cons.injEq] at hrows
  obtain ⟨rfl, rfl⟩ := hrows
  have hname : s.name = none := Option.map_eq_none_iff.mp (hnames _ List.mem_cons_self)
  have hstart' : 0 ≤ startState.generatedLine.toInt := Int32.le_iff_toInt_le.mp hstart
  obtain ⟨breaks, hbreaks⟩ : ∃ n, n = startState.generatedLine.toInt.toNat + k := ⟨_, rfl⟩
  obtain ⟨hstate, hmoved⟩ := hfits.rewritten hprev hbreaks
  obtain ⟨j', happend, hj'⟩ := appendSourceMapChunk_text (k := k) j prevEndState hstart' hlines
    hname (tokensText rest) hbreaks
  refine ⟨j', tokensText (joinedTokens ts breaks
    (rewritten (onLine breaks prevEndState) (movedBy (onLine k startState) s)) rest), ?_, ?_, ?_⟩
  · rw [← happend, tokensText_append, tokensText_replicate]
    rfl
  · have hlast := needsComma_iff hhead
      (formed_breaks hts breaks) rfl
    rw [tokensText_append, tokensText_replicate, ← List.append_assoc, ← hj] at hlast
    rw [hj', hstate.appendMappingToBuffer, hlast, hj, tokensText_joinedTokens]
    simp only [decide_eq_true_eq, List.append_assoc]
  · rw [decodeMappings_eq_some_iff]
    refine ⟨_, formed_joinedTokens hts hrest, rfl, ?_⟩
    have hrewritten : (rewritten (onLine breaks prevEndState)
        (movedBy (onLine k startState) s)).name = none := rfl
    rw [tokenMappings_joinedTokens, Nat.zero_add, tokenMappings, List.map_cons,
      ← hmoved.mapping hname hrewritten, ← hmoved.tokenMappings _ rest fun r hr =>
        hnames r (List.mem_cons_of_mem _ hr), hbreaks, ← Nat.add_assoc]

/-- A text of one line, and a chunk of two. -/
theorem decodeMappings_appendSourceMapChunk_two_lines :
    ∃ j' joined, appendSourceMapChunk (StringJoiner.push ⟨[], by simp⟩ [65, 65, 65, 65])
        ⟨0, 0, 0, 0, 0⟩ ⟨2, 5, 1, 0, 0⟩ [67, 65, 65, 65, 59, 65, 65, 67, 65] = some j' ∧
      j'.text = [] ++ joined ∧
      decodeMappings joined = some ([⟨0, 0, 0, 0, 0, none⟩] ++
        [⟨0, 1, 0, 0, 0, none⟩, ⟨1, 0, 0, 1, 0, none⟩].map (translate 0 ⟨2, 5, 1, 0, 0⟩)) :=
  decodeMappings_appendSourceMapChunk (e := Running.zero) rfl (Or.inl rfl) (by decide)
    (by decide) ⟨rfl, rfl, rfl, rfl⟩ (by decide) (by decide) (by decide) (by decide)
    ⟨⟨by decide, by decide, by decide, by decide⟩, ⟨by decide, by decide, by decide, by decide⟩,
      ⟨by decide, by decide, by decide, by decide⟩, ⟨by decide, by decide, by decide, by decide⟩⟩

/-- **Overflow.**  A chunk whose first mapping is on its second original line, at the last
line that an `i32` has: the sum wraps to `i32::MIN`, which is written as `B`, a zero. -/
theorem decodeMappings_appendSourceMapChunk_ne :
    decodeMappings [65, 65, 67, 65] = some [⟨0, 0, 0, 1, 0, none⟩] ∧
    ∃ j', appendSourceMapChunk ⟨[], by simp⟩ ⟨0, 0, 0, 0, 0⟩ ⟨0, 0, 0, Int32.maxValue, 0⟩
        [65, 65, 67, 65] = some j' ∧
      decodeMappings j'.text = some [⟨0, 0, 0, 0, 0, none⟩] ∧
      decodeMappings j'.text ≠ some ([] ++
        [⟨0, 0, 0, 1, 0, none⟩].map (translate 0 ⟨0, 0, 0, Int32.maxValue, 0⟩)) :=
  ⟨by decide, _, rfl, by decide, by decide⟩

end OhosBun.SourceMap
