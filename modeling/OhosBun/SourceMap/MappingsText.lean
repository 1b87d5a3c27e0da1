/-
# `OhosBun.SourceMap.MappingsText` — what a mappings string says

The format itself, apart from the code that writes and reads it: lines between
semicolons, on each line segments between commas, in each segment four or five
VLQs.  Every field is a difference to the segment before; the generated column
starts again at each line.

`decodeMappings` splits a string along that grammar and adds the differences up, in
the integers.  It is the yardstick for the functions that rewrite mappings strings:
what they do is said as what their output decodes to.

For proofs about such functions a string is a list of tokens (`Token`), and the
grammar a state machine on them (`Formed`); `decodeMappings_eq_some_iff` goes from one
view to the other.
-/
import OhosBun.SourceMap.Mapping

namespace OhosBun.SourceMap

open OhosBun.Lib

/-! ## Fields and segments -/

/-- A VLQ as it stands in a string. -/
structure Field where
  bytes : Bytes
  value : Int32
  decodes : Vlq.decode bytes 0 = ⟨value, bytes.length⟩
  ne_nil : bytes ≠ []
  digits : ∀ b ∈ bytes, b ∈ Vlq.base64

namespace Field

/-- A field is read from in front of anything. -/
theorem decode_append (f : Field) (rest : Bytes) :
    Vlq.decode (f.bytes ++ rest) 0 = ⟨f.value, f.bytes.length⟩ := by
  have hlen := List.length_pos_of_ne_nil f.ne_nil
  have hstart : (Vlq.decode f.bytes 0).start ≠ 0 := by
    rw [f.decodes]
    exact Nat.ne_of_gt hlen
  obtain ⟨pre, post, hbytes, -, hpre⟩ := Vlq.decode_prefix hstart
  have hdecode := hpre post
  rw [← hbytes, f.decodes] at hdecode
  have hpost : post = [] := by
    have h₁ := congrArg Vlq.VLQResult.start hdecode
    have h₂ := congrArg List.length hbytes
    rw [List.length_append] at h₂
    exact List.eq_nil_of_length_eq_zero (by simp only at h₁; omega)
  rw [hpost, List.append_nil] at hbytes
  have hrest := hpre rest
  rw [f.decodes, ← hbytes] at hrest
  exact hrest

/-- `VLQ::encode`; `i32::MIN` has no field. -/
def encode (v : Int32) : Field :=
  if h : v = Int32.minValue then
    { bytes := [65], value := 0, decodes := by decide, ne_nil := by simp
      digits := by decide +kernel }
  else
    { bytes := Vlq.encode v
      value := v
      decodes := by
        have hdecode := Vlq.decode_encode h []
        rwa [List.append_nil] at hdecode
      ne_nil := (Vlq.encode_subset v).1
      digits := (Vlq.encode_subset v).2 }

theorem encode_bytes {v : Int32} (h : v ≠ Int32.minValue) : (encode v).bytes = Vlq.encode v := by
  rw [encode, dif_neg h]

theorem encode_value {v : Int32} (h : v ≠ Int32.minValue) : (encode v).value = v := by
  rw [encode, dif_neg h]

theorem exists_encode {v : Int32} (h : -2 ^ 31 < v.toInt) :
    ∃ f : Field, f.bytes = Vlq.encode v ∧ f.value = v := by
  have hmin : v ≠ Int32.minValue := by
    rintro rfl
    exact absurd h (by decide)
  exact ⟨encode v, encode_bytes hmin, encode_value hmin⟩

end Field

structure Segment where
  generatedColumn : Field
  sourceIndex : Field
  originalLine : Field
  originalColumn : Field
  name : Option Field

namespace Segment

/-- The fields behind the generated column. -/
def tailBytes (s : Segment) : Bytes :=
  s.sourceIndex.bytes ++ (s.originalLine.bytes ++ (s.originalColumn.bytes ++
    (s.name.map Field.bytes).getD []))

def bytes (s : Segment) : Bytes := s.generatedColumn.bytes ++ s.tailBytes

end Segment

/-! ## Reading -/

/-- A test of all characters of a text goes through the text, not through all bytes. -/
local instance {p : UInt8 → Prop} [DecidablePred p] (l : Bytes) : Decidable (∀ c ∈ l, p c) :=
  List.decidableBAll p l

/-- The VLQs that a string consists of. -/
def readFields : (fuel : Nat) → Bytes → Option (List Field)
  | _, [] => some []
  | 0, _ :: _ => none
  | fuel + 1, b :: bs =>
    let r := Vlq.decode (b :: bs) 0
    if h : r.start ≠ 0 ∧ ∀ c ∈ (b :: bs).take r.start, c ∈ Vlq.base64 then
      (readFields fuel ((b :: bs).drop r.start)).map fun rest =>
        { bytes := (b :: bs).take r.start
          value := r.value
          decodes := by
            obtain ⟨pre, post, hbs, hne, hpre⟩ := Vlq.decode_prefix h.1
            have hstart : r.start = pre.length := by
              have hr := hpre post
              rw [← hbs] at hr
              exact congrArg Vlq.VLQResult.start hr
            have htake : (b :: bs).take r.start = pre := by rw [hstart, hbs, List.take_left]
            rw [htake]
            have hdecode := hpre []
            rwa [List.append_nil] at hdecode
          ne_nil := by
            intro hnil
            rcases List.take_eq_nil_iff.mp hnil with hzero | hnil
            · exact h.1 hzero
            · exact absurd hnil (by simp)
          digits := h.2 } :: rest
    else none

def readSegment (bs : Bytes) : Option Segment :=
  match readFields bs.length bs with
  | some [c, s, l, o] => some ⟨c, s, l, o, none⟩
  | some [c, s, l, o, n] => some ⟨c, s, l, o, some n⟩
  | _ => none

def readLine (line : Bytes) : Option (List Segment) :=
  if line = [] then some [] else (line.splitOn comma).mapM readSegment

def readLines (text : Bytes) : Option (List (List Segment)) :=
  (text.splitOn semicolon).mapM readLine

/-! ## Positions -/

/-- The position reached, in the integers. -/
structure Running where
  generatedColumn : Int
  sourceIndex : Int
  originalLine : Int
  originalColumn : Int
  name : Int
  deriving DecidableEq

namespace Running

def zero : Running := ⟨0, 0, 0, 0, 0⟩

/-- The next line. -/
def newLine (p : Running) : Running := { p with generatedColumn := 0 }

/-- The position of a segment, from that of the segment before. -/
def step (p : Running) (s : Segment) : Running where
  generatedColumn := p.generatedColumn + s.generatedColumn.value.toInt
  sourceIndex := p.sourceIndex + s.sourceIndex.value.toInt
  originalLine := p.originalLine + s.originalLine.value.toInt
  originalColumn := p.originalColumn + s.originalColumn.value.toInt
  name := p.name + ((s.name.map fun f => f.value.toInt).getD 0)

end Running

/-- A mapping of a string; the name of a segment with four fields is `none`. -/
structure TextMapping where
  generatedLine : Nat
  generatedColumn : Int
  sourceIndex : Int
  originalLine : Int
  originalColumn : Int
  name : Option Int
  deriving DecidableEq

/-- The mapping of a segment at its position. -/
def Segment.mapping (s : Segment) (line : Nat) (p : Running) : TextMapping where
  generatedLine := line
  generatedColumn := p.generatedColumn
  sourceIndex := p.sourceIndex
  originalLine := p.originalLine
  originalColumn := p.originalColumn
  name := s.name.map fun _ => p.name

/-- The mappings of a line, and the position behind it. -/
def lineMappings (line : Nat) : Running → List Segment → List TextMapping
  | _, [] => []
  | p, s :: segments => s.mapping line (p.step s) :: lineMappings line (p.step s) segments

def lineEnd (p : Running) (segments : List Segment) : Running := segments.foldl Running.step p

def linesMappings : (line : Nat) → Running → List (List Segment) → List TextMapping
  | _, _, [] => []
  | line, p, l :: lines =>
    lineMappings line p l ++ linesMappings (line + 1) (lineEnd p l).newLine lines

/-- What a mappings string says; `none` where it is not one of segments with four or
five fields. -/
def decodeMappings (text : Bytes) : Option (List TextMapping) :=
  (readLines text).map (linesMappings 0 Running.zero)

/-- The last line and the position behind it. -/
def linesEnd : (line : Nat) → Running → List (List Segment) → Nat × Running
  | line, p, [] => (line, p)
  | line, p, [l] => (line, lineEnd p l)
  | line, p, l :: l' :: lines => linesEnd (line + 1) (lineEnd p l).newLine (l' :: lines)

/-- Where a mappings string ends. -/
def decodeEnd (text : Bytes) : Option (Nat × Running) :=
  (readLines text).map (linesEnd 0 Running.zero)

/-! ## Tokens -/

inductive Token where
  | semicolon
  | comma
  | segment (s : Segment)

namespace Token

def bytes : Token → Bytes
  | semicolon => [SourceMap.semicolon]
  | comma => [SourceMap.comma]
  | segment s => s.bytes

end Token

/-- Where in the grammar: at the start of a line, behind a segment, behind a comma. -/
inductive Place where
  | lineStart
  | behindSegment
  | behindComma
  deriving DecidableEq

/-- The place behind a token. -/
def Token.behind : Token → Place
  | .semicolon => .lineStart
  | .comma => .behindComma
  | .segment _ => .behindSegment

/-- A token may stand at a place. -/
def Token.Fits (place : Place) : Token → Prop
  | .semicolon => place ≠ .behindComma
  | .comma => place = .behindSegment
  | .segment _ => place ≠ .behindSegment

/-- The tokens follow the grammar. -/
def Formed : Place → List Token → Prop
  | place, [] => place ≠ .behindComma
  | place, t :: ts => t.Fits place ∧ Formed t.behind ts

def tokensText (ts : List Token) : Bytes := ts.flatMap Token.bytes

/-- The mappings of tokens. -/
def tokenMappings : (line : Nat) → Running → List Token → List TextMapping
  | _, _, [] => []
  | line, p, .semicolon :: ts => tokenMappings (line + 1) p.newLine ts
  | line, p, .comma :: ts => tokenMappings line p ts
  | line, p, .segment s :: ts => s.mapping line (p.step s) :: tokenMappings line (p.step s) ts

/-- The position behind tokens. -/
def tokenEnd : Running → List Token → Running
  | p, [] => p
  | p, .semicolon :: ts => tokenEnd p.newLine ts
  | p, .comma :: ts => tokenEnd p ts
  | p, .segment s :: ts => tokenEnd (p.step s) ts

/-! ## Reading and writing are inverse -/

/-- Over a list, as over its elements. -/
theorem mapM_eq_some_iff {α β : Type} {f : α → Option β} {g : β → α}
    (hfg : ∀ a b, f a = some b ↔ g b = a) (l : List α) : ∀ l', l.mapM f = some l' ↔ l'.map g = l := by
  induction l with
  | nil => intro l'; simp [eq_comm]
  | cons a l ih =>
    intro l'
    rw [List.mapM_cons]
    cases l' with
    | nil => simp [Option.bind_eq_some_iff]
    | cons b l' =>
      simp only [Option.bind_eq_bind, Option.bind_eq_some_iff, Option.pure_def,
        Option.some.injEq, List.map_cons, List.cons.injEq]
      constructor
      · rintro ⟨b', hb, l₂, hl, rfl, rfl⟩
        exact ⟨(hfg a b').mp hb, (ih l₂).mp hl⟩
      · rintro ⟨hb, hl⟩
        exact ⟨b, (hfg a b).mpr hb, l', (ih l').mpr hl, rfl, rfl⟩

theorem Field.ext_bytes {f g : Field} (h : f.bytes = g.bytes) : f = g := by
  have hvalue : f.value = g.value := by
    have hf := f.decodes
    rw [h, g.decodes] at hf
    exact (congrArg Vlq.VLQResult.value hf).symm
  cases f
  cases g
  simp only at h hvalue
  subst h hvalue
  rfl

theorem readFields_eq_some (fuel : Nat) : ∀ {bs : Bytes} {fs : List Field},
    readFields fuel bs = some fs → fs.flatMap Field.bytes = bs := by
  induction fuel with
  | zero =>
    intro bs fs h
    cases bs with
    | nil => rw [← Option.some.inj h]; rfl
    | cons b bs => exact absurd h (by rintro ⟨⟩)
  | succ fuel ih =>
    intro bs fs h
    cases bs with
    | nil => rw [← Option.some.inj h]; rfl
    | cons b bs =>
      simp only [readFields] at h
      split at h
      · obtain ⟨rest, hrest, rfl⟩ := Option.map_eq_some_iff.mp h
        rw [List.flatMap_cons, ih hrest, List.take_append_drop]
      · exact absurd h (by simp)

theorem readFields_flatMap (fs : List Field) : ∀ {fuel : Nat},
    (fs.flatMap Field.bytes).length ≤ fuel → readFields fuel (fs.flatMap Field.bytes) = some fs := by
  induction fs with
  | nil => intro fuel _; cases fuel <;> rfl
  | cons f fs ih =>
    intro fuel hfuel
    rw [List.flatMap_cons] at hfuel ⊢
    obtain ⟨b, bs, hbs⟩ := List.exists_cons_of_ne_nil f.ne_nil
    rw [List.length_append] at hfuel
    obtain ⟨fuel, rfl⟩ : ∃ n, fuel = n + 1 := by
      have := congrArg List.length hbs
      rw [List.length_cons] at this
      exact ⟨fuel - 1, by omega⟩
    have hdecode := f.decode_append (fs.flatMap Field.bytes)
    have hlen : 0 < f.bytes.length := List.length_pos_of_ne_nil f.ne_nil
    have hcons : f.bytes ++ fs.flatMap Field.bytes = b :: (bs ++ fs.flatMap Field.bytes) := by
      rw [hbs]
      rfl
    have htake : (f.bytes ++ fs.flatMap Field.bytes).take f.bytes.length = f.bytes := List.take_left
    rw [hcons] at hdecode htake ⊢
    simp only [readFields]
    have hcond : (Vlq.decode (b :: (bs ++ fs.flatMap Field.bytes)) 0).start ≠ 0 ∧
        ∀ c ∈ (b :: (bs ++ fs.flatMap Field.bytes)).take
          (Vlq.decode (b :: (bs ++ fs.flatMap Field.bytes)) 0).start, c ∈ Vlq.base64 := by
      rw [hdecode]
      simp only [htake]
      exact ⟨Nat.ne_of_gt hlen, f.digits⟩
    rw [dif_pos hcond]
    have hdrop : (b :: (bs ++ fs.flatMap Field.bytes)).drop
        (Vlq.decode (b :: (bs ++ fs.flatMap Field.bytes)) 0).start = fs.flatMap Field.bytes := by
      rw [hdecode, ← hcons]
      exact List.drop_left
    rw [hdrop, ih (by omega), Option.map_some, Option.some.injEq, List.cons.injEq]
    refine ⟨Field.ext_bytes ?_, rfl⟩
    simp only [hdecode]
    exact htake

theorem readSegment_eq_some_iff (bs : Bytes) (s : Segment) :
    readSegment bs = some s ↔ s.bytes = bs := by
  constructor
  · intro h
    unfold readSegment at h
    split at h
    · next hfs =>
        rw [← Option.some.inj h, ← readFields_eq_some _ hfs]
        simp [Segment.bytes, Segment.tailBytes]
    · next hfs =>
        rw [← Option.some.inj h, ← readFields_eq_some _ hfs]
        simp [Segment.bytes, Segment.tailBytes]
    · exact absurd h (by simp)
  · rintro rfl
    obtain ⟨c, i, l, o, n⟩ := s
    unfold readSegment
    cases n with
    | none =>
      have hfs := readFields_flatMap [c, i, l, o] (Nat.le_refl _)
      simp only [List.flatMap_cons, List.flatMap_nil, List.append_nil] at hfs
      simp only [Segment.bytes, Segment.tailBytes, Option.map_none, Option.getD_none,
        List.append_nil, hfs]
    | some n =>
      have hfs := readFields_flatMap [c, i, l, o, n] (Nat.le_refl _)
      simp only [List.flatMap_cons, List.flatMap_nil, List.append_nil] at hfs
      simp only [Segment.bytes, Segment.tailBytes, Option.map_some, Option.getD_some, hfs]

/-! ### Delimiters are not digits -/

theorem not_mem_of_digits {bs : Bytes} (h : ∀ b ∈ bs, b ∈ Vlq.base64) {c : UInt8}
    (hc : c ∉ Vlq.base64) : c ∉ bs := fun hmem => hc (h c hmem)

theorem comma_not_mem_base64 : comma ∉ Vlq.base64 := by decide

theorem semicolon_not_mem_base64 : semicolon ∉ Vlq.base64 := by decide

theorem Field.exists_head (f : Field) : ∃ b bs, f.bytes = b :: bs ∧ b ≠ comma ∧ b ≠ semicolon := by
  obtain ⟨b, bs, hbytes⟩ := List.exists_cons_of_ne_nil f.ne_nil
  have hdigit : b ∈ Vlq.base64 := f.digits b (hbytes ▸ List.mem_cons_self)
  refine ⟨b, bs, hbytes, ?_, ?_⟩
  · rintro rfl
    exact comma_not_mem_base64 hdigit
  · rintro rfl
    exact semicolon_not_mem_base64 hdigit

theorem Segment.digits (s : Segment) : ∀ b ∈ s.bytes, b ∈ Vlq.base64 := by
  obtain ⟨c, i, l, o, n⟩ := s
  intro b hb
  simp only [Segment.bytes, Segment.tailBytes, List.mem_append] at hb
  rcases hb with hb | hb | hb | hb | hb
  · exact c.digits b hb
  · exact i.digits b hb
  · exact l.digits b hb
  · exact o.digits b hb
  · cases n with
    | none => exact absurd hb (by simp)
    | some n => exact n.digits b hb

theorem Segment.bytes_ne_nil (s : Segment) : s.bytes ≠ [] :=
  List.append_ne_nil_of_left_ne_nil s.generatedColumn.ne_nil _

theorem Token.bytes_ne_nil (t : Token) : t.bytes ≠ [] := by
  cases t with
  | semicolon => exact List.cons_ne_nil _ _
  | comma => exact List.cons_ne_nil _ _
  | segment s => exact s.bytes_ne_nil

/-! ### Lines -/

/-- The tokens of a line. -/
def lineTokens : List Segment → List Token
  | [] => []
  | s :: segments => .segment s :: segments.flatMap fun s => [.comma, .segment s]

def linesTokens : List (List Segment) → List Token
  | [] => []
  | l :: lines => lineTokens l ++ lines.flatMap fun l => .semicolon :: lineTokens l

theorem intercalate_singleton_cons {α : Type} (x : α) (a : List α) (l : List (List α)) :
    [x].intercalate (a :: l) = a ++ l.flatMap (x :: ·) := by
  induction l generalizing a with
  | nil => simp [List.intercalate]
  | cons b l ih => rw [List.intercalate_cons_cons, ih, List.flatMap_cons]; simp

theorem tokensText_append (a b : List Token) :
    tokensText (a ++ b) = tokensText a ++ tokensText b := List.flatMap_append

theorem tokensText_segment (s : Segment) (ts : List Token) : tokensText (.segment s :: ts) =
    s.generatedColumn.bytes ++ (s.tailBytes ++ tokensText ts) := List.append_assoc _ _ _

theorem tokensText_lineTokens {segments : List Segment} (h : segments ≠ []) :
    tokensText (lineTokens segments) = [comma].intercalate (segments.map Segment.bytes) := by
  obtain ⟨s, segments, rfl⟩ := List.exists_cons_of_ne_nil h
  rw [List.map_cons, intercalate_singleton_cons, lineTokens, tokensText, List.flatMap_cons,
    List.flatMap_assoc, List.flatMap_map]
  simp [Token.bytes]

theorem tokensText_linesTokens {lines : List (List Segment)} (h : lines ≠ []) :
    tokensText (linesTokens lines) =
      [semicolon].intercalate (lines.map fun l => tokensText (lineTokens l)) := by
  obtain ⟨l, lines, rfl⟩ := List.exists_cons_of_ne_nil h
  rw [List.map_cons, intercalate_singleton_cons, linesTokens, tokensText_append,
    List.flatMap_map]
  congr 1
  rw [tokensText, List.flatMap_assoc]
  simp only [List.flatMap_cons]
  rfl

theorem not_semicolon_of_mem_line (segments : List Segment) :
    semicolon ∉ tokensText (lineTokens segments) := by
  intro hmem
  obtain ⟨t, ht, hb⟩ := List.mem_flatMap.mp hmem
  have hsegment (s : Segment) (hb : semicolon ∈ s.bytes) : False :=
    not_mem_of_digits s.digits semicolon_not_mem_base64 hb
  cases t with
  | semicolon =>
    cases segments with
    | nil => exact absurd ht (by rintro ⟨⟩)
    | cons s segments => simp [lineTokens] at ht
  | comma => exact absurd hb (by decide)
  | segment s => exact hsegment s hb

theorem readLine_eq_some_iff (line : Bytes) (segments : List Segment) :
    readLine line = some segments ↔ tokensText (lineTokens segments) = line := by
  unfold readLine
  split
  · next hnil =>
      subst hnil
      constructor
      · rintro ⟨⟩
        rfl
      · intro h
        cases segments with
        | nil => rfl
        | cons s segments =>
          rw [lineTokens, tokensText, List.flatMap_cons] at h
          exact absurd (List.append_eq_nil_iff.mp h).1 s.bytes_ne_nil
  · next hne =>
      rw [mapM_eq_some_iff readSegment_eq_some_iff]
      constructor
      · intro h
        have hsegments : segments ≠ [] := by
          rintro rfl
          exact absurd h.symm (List.splitOn_ne_nil _ _)
        rw [tokensText_lineTokens hsegments, h, List.intercalate_splitOn]
      · rintro rfl
        have hsegments : segments ≠ [] := by
          rintro rfl
          exact hne rfl
        rw [tokensText_lineTokens hsegments, List.splitOn_intercalate]
        · intro bs hbs
          obtain ⟨s, -, rfl⟩ := List.mem_map.mp hbs
          exact not_mem_of_digits s.digits comma_not_mem_base64
        · simpa using hsegments

theorem readLines_eq_some_iff (text : Bytes) (lines : List (List Segment)) :
    readLines text = some lines ↔ lines ≠ [] ∧ tokensText (linesTokens lines) = text := by
  unfold readLines
  rw [mapM_eq_some_iff readLine_eq_some_iff]
  constructor
  · intro h
    have hlines : lines ≠ [] := by
      rintro rfl
      exact absurd h.symm (List.splitOn_ne_nil _ _)
    refine ⟨hlines, ?_⟩
    rw [tokensText_linesTokens hlines, h, List.intercalate_splitOn]
  · rintro ⟨hlines, rfl⟩
    rw [tokensText_linesTokens hlines, List.splitOn_intercalate]
    · intro bs hbs
      obtain ⟨l, -, rfl⟩ := List.mem_map.mp hbs
      exact not_semicolon_of_mem_line l
    · simpa using hlines

/-! ### Tokens -/

/-- Semicolons among tokens. -/
def tokenLines : List Token → Nat
  | [] => 0
  | .semicolon :: ts => tokenLines ts + 1
  | .comma :: ts => tokenLines ts
  | .segment _ :: ts => tokenLines ts

theorem tokenMappings_append (a b : List Token) : ∀ (line : Nat) (p : Running),
    tokenMappings line p (a ++ b) =
      tokenMappings line p a ++ tokenMappings (line + tokenLines a) (tokenEnd p a) b := by
  induction a with
  | nil => exact fun _ _ => rfl
  | cons t a ih =>
    intro line p
    cases t with
    | semicolon =>
      rw [List.cons_append, tokenMappings, ih, tokenMappings, tokenLines, tokenEnd,
        Nat.add_assoc, Nat.add_comm 1]
    | comma => rw [List.cons_append, tokenMappings, ih, tokenMappings, tokenLines, tokenEnd]
    | segment s =>
      rw [List.cons_append, tokenMappings, ih, tokenMappings, tokenLines, tokenEnd]
      rfl

theorem tokenLines_append (a b : List Token) :
    tokenLines (a ++ b) = tokenLines a + tokenLines b := by
  induction a with
  | nil => exact (Nat.zero_add _).symm
  | cons t a ih =>
    cases t with
    | semicolon => rw [List.cons_append, tokenLines, ih, tokenLines, Nat.add_right_comm]
    | comma => exact ih
    | segment s => exact ih

theorem tokenEnd_append (a b : List Token) : ∀ p : Running,
    tokenEnd p (a ++ b) = tokenEnd (tokenEnd p a) b := by
  induction a with
  | nil => exact fun _ => rfl
  | cons t a ih =>
    intro p
    cases t with
    | semicolon => exact ih _
    | comma => exact ih _
    | segment s => exact ih _

/-- The place behind tokens. -/
def endPlace : Place → List Token → Place
  | place, [] => place
  | _, t :: ts => endPlace t.behind ts

theorem Formed.append {a b : List Token} : ∀ {place : Place}, Formed place a →
    Formed (endPlace place a) b → Formed place (a ++ b) := by
  induction a with
  | nil => exact fun _ hb => hb
  | cons t a ih => exact fun ha hb => ⟨ha.1, ih ha.2 hb⟩

/-- The segments of a line behind its first. -/
def moreTokens (segments : List Segment) : List Token :=
  segments.flatMap fun s => [.comma, .segment s]

/-- The lines behind the first. -/
def moreLines (lines : List (List Segment)) : List Token :=
  lines.flatMap fun l => .semicolon :: lineTokens l

theorem lineTokens_cons (s : Segment) (segments : List Segment) :
    lineTokens (s :: segments) = .segment s :: moreTokens segments := rfl

theorem linesTokens_cons (l : List Segment) (lines : List (List Segment)) :
    linesTokens (l :: lines) = lineTokens l ++ moreLines lines := rfl

theorem moreLines_cons (l : List Segment) (lines : List (List Segment)) :
    moreLines (l :: lines) = .semicolon :: linesTokens (l :: lines) := rfl

/-- Tokens that follow the grammar are those of lines. -/
theorem Formed.exists_lines (ts : List Token) :
    (Formed .lineStart ts → ∃ l lines, ts = lineTokens l ++ moreLines lines) ∧
    (Formed .behindSegment ts → ∃ l lines, ts = moreTokens l ++ moreLines lines) ∧
    (Formed .behindComma ts → ∃ s l lines, ts = .segment s :: (moreTokens l ++ moreLines lines)) := by
  induction ts with
  | nil => exact ⟨fun _ => ⟨[], [], rfl⟩, fun _ => ⟨[], [], rfl⟩, fun h => absurd rfl h⟩
  | cons t ts ih =>
    obtain ⟨ihStart, ihSegment, ihComma⟩ := ih
    cases t with
    | semicolon =>
      have hlines (h : Formed .lineStart ts) :
          ∃ lines, Token.semicolon :: ts = moreLines lines := by
        obtain ⟨l, lines, rfl⟩ := ihStart h
        exact ⟨l :: lines, rfl⟩
      refine ⟨fun h => ?_, fun h => ?_, fun h => absurd rfl h.1⟩
      · obtain ⟨lines, hl⟩ := hlines h.2
        exact ⟨[], lines, hl⟩
      · obtain ⟨lines, hl⟩ := hlines h.2
        exact ⟨[], lines, hl⟩
    | comma =>
      refine ⟨fun h => (absurd h.1 (by rintro ⟨⟩)), fun h => ?_, fun h => (absurd h.1 (by rintro ⟨⟩))⟩
      obtain ⟨s, l, lines, rfl⟩ := ihComma h.2
      exact ⟨s :: l, lines, rfl⟩
    | segment s =>
      refine ⟨fun h => ?_, fun h => absurd rfl h.1, fun h => ?_⟩
      · obtain ⟨l, lines, rfl⟩ := ihSegment h.2
        exact ⟨s :: l, lines, rfl⟩
      · obtain ⟨l, lines, rfl⟩ := ihSegment h.2
        exact ⟨s, l, lines, rfl⟩

theorem formed_moreTokens (segments : List Segment) {rest : List Token}
    (h : Formed .behindSegment rest) : Formed .behindSegment (moreTokens segments ++ rest) := by
  induction segments with
  | nil => exact h
  | cons s segments ih => exact ⟨rfl, Place.noConfusion, ih⟩

theorem formed_lineTokens (segments : List Segment) {rest : List Token}
    (h : Formed .lineStart rest) (h' : Formed .behindSegment rest) :
    Formed .lineStart (lineTokens segments ++ rest) := by
  cases segments with
  | nil => exact h
  | cons s segments => exact ⟨Place.noConfusion, formed_moreTokens segments h'⟩

theorem formed_moreLines (lines : List (List Segment)) :
    Formed .lineStart (moreLines lines) ∧ Formed .behindSegment (moreLines lines) := by
  induction lines with
  | nil => exact ⟨Place.noConfusion, Place.noConfusion⟩
  | cons l lines ih =>
    have hrest := formed_lineTokens l ih.1 ih.2
    exact ⟨⟨Place.noConfusion, hrest⟩, ⟨Place.noConfusion, hrest⟩⟩

theorem formed_linesTokens (l : List Segment) (lines : List (List Segment)) :
    Formed .lineStart (linesTokens (l :: lines)) :=
  formed_lineTokens l (formed_moreLines lines).1 (formed_moreLines lines).2

/-! ### The mappings of lines and of their tokens -/

theorem tokenMappings_moreTokens (segments : List Segment) (line : Nat) : ∀ (p : Running),
    tokenMappings line p (moreTokens segments) = lineMappings line p segments ∧
      tokenEnd p (moreTokens segments) = lineEnd p segments ∧
      tokenLines (moreTokens segments) = 0 := by
  induction segments with
  | nil => exact fun _ => ⟨rfl, rfl, rfl⟩
  | cons s segments ih =>
    intro p
    obtain ⟨hmappings, hend, hlines⟩ := ih (p.step s)
    refine ⟨?_, hend, hlines⟩
    show s.mapping line (p.step s) :: tokenMappings line (p.step s) (moreTokens segments) = _
    rw [hmappings]
    rfl

theorem tokenMappings_lineTokens (segments : List Segment) (line : Nat) (p : Running) :
    tokenMappings line p (lineTokens segments) = lineMappings line p segments ∧
      tokenEnd p (lineTokens segments) = lineEnd p segments ∧
      tokenLines (lineTokens segments) = 0 := by
  cases segments with
  | nil => exact ⟨rfl, rfl, rfl⟩
  | cons s segments =>
    obtain ⟨hmappings, hend, hlines⟩ := tokenMappings_moreTokens segments line (p.step s)
    refine ⟨?_, hend, hlines⟩
    rw [lineTokens_cons, tokenMappings, hmappings]
    rfl

theorem tokenMappings_linesTokens (lines : List (List Segment)) : ∀ (line : Nat) (p : Running)
    (l : List Segment), tokenMappings line p (linesTokens (l :: lines)) =
      linesMappings line p (l :: lines) := by
  induction lines with
  | nil =>
    intro line p l
    rw [linesTokens_cons, linesMappings, linesMappings, List.append_nil]
    show tokenMappings line p (lineTokens l ++ []) = _
    rw [List.append_nil]
    exact (tokenMappings_lineTokens l line p).1
  | cons l' lines ih =>
    intro line p l
    obtain ⟨hmappings, hend, hlines⟩ := tokenMappings_lineTokens l line p
    rw [linesTokens_cons, moreLines_cons, tokenMappings_append, hmappings, hend, hlines,
      Nat.add_zero, tokenMappings, ih]
    rfl

/-- **A string is its tokens.** -/
theorem decodeMappings_eq_some_iff (text : Bytes) (mappings : List TextMapping) :
    decodeMappings text = some mappings ↔ ∃ ts, Formed .lineStart ts ∧ tokensText ts = text ∧
      tokenMappings 0 Running.zero ts = mappings := by
  rw [decodeMappings, Option.map_eq_some_iff]
  constructor
  · rintro ⟨lines, hlines, rfl⟩
    obtain ⟨hne, htext⟩ := (readLines_eq_some_iff text lines).mp hlines
    obtain ⟨l, lines, rfl⟩ := List.exists_cons_of_ne_nil hne
    exact ⟨linesTokens (l :: lines), formed_linesTokens l lines, htext,
      tokenMappings_linesTokens lines 0 _ l⟩
  · rintro ⟨ts, hts, rfl, rfl⟩
    obtain ⟨l, lines, rfl⟩ := (Formed.exists_lines ts).1 hts
    refine ⟨l :: lines, (readLines_eq_some_iff _ _).mpr ⟨List.cons_ne_nil _ _, rfl⟩, ?_⟩
    exact (tokenMappings_linesTokens lines 0 _ l).symm

theorem linesEnd_linesTokens (lines : List (List Segment)) : ∀ (line : Nat) (p : Running)
    (l : List Segment), linesEnd line p (l :: lines) =
      (line + tokenLines (linesTokens (l :: lines)), tokenEnd p (linesTokens (l :: lines))) := by
  induction lines with
  | nil =>
    intro line p l
    obtain ⟨-, hend, hlines⟩ := tokenMappings_lineTokens l line p
    show (line, lineEnd p l) =
      (line + tokenLines (lineTokens l ++ []), tokenEnd p (lineTokens l ++ []))
    rw [List.append_nil, hend, hlines, Nat.add_zero]
  | cons l' lines ih =>
    intro line p l
    obtain ⟨-, hend, hlines⟩ := tokenMappings_lineTokens l line p
    rw [linesEnd, ih, linesTokens_cons l, moreLines_cons, tokenLines_append, tokenEnd_append, hend,
      hlines, tokenLines, tokenEnd, Nat.zero_add, Nat.add_assoc, Nat.add_comm 1]

theorem decodeEnd_tokensText {ts : List Token} (h : Formed .lineStart ts) :
    decodeEnd (tokensText ts) = some (tokenLines ts, tokenEnd Running.zero ts) := by
  obtain ⟨l, lines, rfl⟩ := (Formed.exists_lines ts).1 h
  have hread : readLines (tokensText (lineTokens l ++ moreLines lines)) = some (l :: lines) :=
    (readLines_eq_some_iff _ _).mpr ⟨List.cons_ne_nil _ _, rfl⟩
  rw [decodeEnd, hread, Option.map_some, linesEnd_linesTokens, Nat.zero_add]
  rfl

end OhosBun.SourceMap
