/-
# `OhosBun.SourceMap.Wtf8` — code points, lines and columns of a text

What the position trackers of the source map crate share: the WTF-8 decoder of
`bun_core`, and the search for a byte that is not printable ASCII.  They are byte
functions; the second half of the module says what they do on valid UTF-8, which is
a list of characters written out (`utf8`).

`positionAfter` is the yardstick: lines and columns as the source-map format counts
them, line terminators being LF, CR, CR LF as one, U+2028 and U+2029, and columns
UTF-16 code units.
-/
import Mathlib.Data.List.TakeWhile
import OhosBun.Lib.Bytes

namespace OhosBun.SourceMap

open OhosBun.Lib

/-! ## The decoder -/

/-- `wtf8_byte_sequence_length`, 1 for a byte that leads nothing. -/
def wtf8ByteSequenceLength (firstByte : UInt8) : Nat :=
  if firstByte ≤ 0x7F then 1
  else if 0xC0 ≤ firstByte ∧ firstByte ≤ 0xDF then 2
  else if 0xE0 ≤ firstByte ∧ firstByte ≤ 0xEF then 3
  else if 0xF0 ≤ firstByte ∧ firstByte ≤ 0xF7 then 4
  else 1

/-- The payload of a continuation byte. -/
def payload (b : UInt8) : Nat := (b &&& 0x3F).toNat

/-- `decode_wtf8_rune_t_multibyte`; the array has zeros behind its bytes. -/
def decodeWtf8RuneMultibyte (p : Bytes) (len : Nat) (zero : Int) : Int :=
  let s1 := p.getD 1 0
  let s2 := p.getD 2 0
  let s3 := p.getD 3 0
  if s1 &&& 0xC0 ≠ 0x80 then zero
  else if len = 2 then
    let cp := ((p.getD 0 0 &&& 0x1F).toNat <<< 6) ||| payload s1
    if cp < 0x80 then zero else cp
  else if s2 &&& 0xC0 ≠ 0x80 then zero
  else if len = 3 then
    let cp := ((p.getD 0 0 &&& 0x0F).toNat <<< 12) ||| (payload s1 <<< 6) ||| payload s2
    if cp < 0x800 then zero else cp
  else if s3 &&& 0xC0 ≠ 0x80 then zero
  else
    let cp := ((p.getD 0 0 &&& 0x07).toNat <<< 18) ||| (payload s1 <<< 12) |||
      (payload s2 <<< 6) ||| payload s3
    if cp < 0x10000 ∨ cp > 0x10FFFF then zero else cp

/-- `decode_wtf8_rune_t`. -/
def decodeWtf8Rune (p : Bytes) (len : Nat) (zero : Int) : Int :=
  if len = 0 then zero
  else if len = 1 then (p.getD 0 0).toNat
  else decodeWtf8RuneMultibyte p len zero

/-- The code point at the start of a text, and its declared width. -/
def readRune (remaining : Bytes) (zero : Int) : Int × Nat :=
  let len := wtf8ByteSequenceLength (remaining.getD 0 0)
  (decodeWtf8Rune (remaining.take len) len zero, len)

/-- A byte that the search stops at. -/
def newlineOrNonAscii (b : UInt8) : Bool := b > 127 || b < 0x20

/-- `index_of_newline_or_non_ascii`, with and without the check of the first byte, which only
saves a call; the result is cast to `u32`. -/
def indexOfNewlineOrNonAscii (slice : Bytes) (offset : Nat) : Option Nat :=
  ((slice.drop offset).findIdx? newlineOrNonAscii).map fun i => (i % 2 ^ 32 + offset) % 2 ^ 32

/-! ## Text -/

/-- UTF-8. -/
def utf8 (cs : List Char) : Bytes := cs.flatMap String.utf8EncodeChar

/-- Printable ASCII, and DEL. -/
def plain (c : Char) : Bool := 0x20 ≤ c.toNat && c.toNat ≤ 127

/-- A character that ends its line, where `next` is the one behind it. -/
def endsLine (c : Char) (next : Option Char) : Bool :=
  c = '\n' || c = '\u2028' || c = '\u2029' || (c = '\r' && next ≠ some '\n')

/-- UTF-16 code units of a character. -/
def utf16Length (c : Char) : Nat := if c.toNat > 0xFFFF then 2 else 1

structure TextPosition where
  line : Nat
  column : Nat
  deriving DecidableEq

/-- Behind one more character. -/
def TextPosition.step (p : TextPosition) (c : Char) (next : Option Char) : TextPosition :=
  if endsLine c next then ⟨p.line + 1, 0⟩ else ⟨p.line, p.column + utf16Length c⟩

/-- Behind a text, in front of another. -/
@[grind] def positionAfter (p : TextPosition) : (text ahead : List Char) → TextPosition
  | [], _ => p
  | c :: text, ahead => positionAfter (p.step c (text ++ ahead).head?) text ahead

/-! ## The bytes of a character -/

variable {n b a i : Nat} {c : Char} {cs : List Char} {slice : Bytes} {next : Option Char}

theorem continuation_byte (h : n < 64) :
    UInt8.ofNat (n + 0x80) &&& 0xC0 = 0x80 ∧ payload (UInt8.ofNat (n + 0x80)) = n ∧
      128 ≤ UInt8.ofNat (n + 0x80) := by
  have key : ∀ i : Fin 64, UInt8.ofNat (i + 0x80) &&& 0xC0 = 0x80 ∧
      payload (UInt8.ofNat (i + 0x80)) = i ∧ 128 ≤ UInt8.ofNat (i + 0x80) := by decide
  exact key ⟨n, h⟩

theorem lead_byte_two (h : n < 32) :
    wtf8ByteSequenceLength (UInt8.ofNat (n + 0xC0)) = 2 ∧
      (UInt8.ofNat (n + 0xC0) &&& 0x1F).toNat = n ∧ 128 ≤ UInt8.ofNat (n + 0xC0) := by
  have key : ∀ i : Fin 32, wtf8ByteSequenceLength (UInt8.ofNat (i + 0xC0)) = 2 ∧
      (UInt8.ofNat (i + 0xC0) &&& 0x1F).toNat = i ∧ 128 ≤ UInt8.ofNat (i + 0xC0) := by
    decide
  exact key ⟨n, h⟩

theorem lead_byte_three (h : n < 16) :
    wtf8ByteSequenceLength (UInt8.ofNat (n + 0xE0)) = 3 ∧
      (UInt8.ofNat (n + 0xE0) &&& 0x0F).toNat = n ∧ 128 ≤ UInt8.ofNat (n + 0xE0) := by
  have key : ∀ i : Fin 16, wtf8ByteSequenceLength (UInt8.ofNat (i + 0xE0)) = 3 ∧
      (UInt8.ofNat (i + 0xE0) &&& 0x0F).toNat = i ∧ 128 ≤ UInt8.ofNat (i + 0xE0) := by
    decide
  exact key ⟨n, h⟩

theorem lead_byte_four (h : n < 8) :
    wtf8ByteSequenceLength (UInt8.ofNat (n + 0xF0)) = 4 ∧
      (UInt8.ofNat (n + 0xF0) &&& 0x07).toNat = n ∧ 128 ≤ UInt8.ofNat (n + 0xF0) := by
  have key : ∀ i : Fin 8, wtf8ByteSequenceLength (UInt8.ofNat (i + 0xF0)) = 4 ∧
      (UInt8.ofNat (i + 0xF0) &&& 0x07).toNat = i ∧ 128 ≤ UInt8.ofNat (i + 0xF0) := by
    decide
  exact key ⟨n, h⟩

theorem utf8EncodeChar_ascii (h : c.toNat ≤ 127) :
    String.utf8EncodeChar c = [UInt8.ofNat c.toNat] := by
  rw [String.utf8EncodeChar]
  exact if_pos h

theorem ascii_byte (h : c.toNat ≤ 127) :
    wtf8ByteSequenceLength (UInt8.ofNat c.toNat) = 1 ∧
      (UInt8.ofNat c.toNat).toNat = c.toNat ∧
      newlineOrNonAscii (UInt8.ofNat c.toNat) = !plain c := by
  have key : ∀ i : Fin 128, wtf8ByteSequenceLength (UInt8.ofNat i) = 1 ∧
      (UInt8.ofNat i).toNat = i ∧
      newlineOrNonAscii (UInt8.ofNat i) = !(decide (0x20 ≤ i.val) && decide (i.val ≤ 127)) := by
    decide
  exact key ⟨c.toNat, Nat.lt_succ_of_le h⟩

theorem shift_or (a : Nat) {k : Nat} (h : b < 2 ^ k) : (a <<< k) ||| b = a * 2 ^ k + b := by
  rw [← Nat.shiftLeft_add_eq_or_of_lt h, Nat.shiftLeft_eq]

theorem decode_two (ha : a < 32) (hb : b < 64) (hcp : 0x80 ≤ a * 64 + b) (zero : Int) :
    decodeWtf8Rune [UInt8.ofNat (a + 0xC0), UInt8.ofNat (b + 0x80)] 2 zero = (a * 64 + b : Nat) := by
  obtain ⟨hmask, hb', -⟩ := continuation_byte hb
  have hor : (a <<< 6) ||| b = a * 64 + b := shift_or a hb
  simp only [decodeWtf8Rune, decodeWtf8RuneMultibyte, List.getD_cons_zero, List.getD_cons_succ, hmask,
    (lead_byte_two ha).2.1, hb', hor, ne_eq, not_true_eq_false, if_false, if_true, OfNat.ofNat_ne_zero,
    OfNat.ofNat_ne_one, Nat.not_lt.mpr hcp]

theorem decode_three {c : Nat} (ha : a < 16) (hb : b < 64) (hc : c < 64)
    (hcp : 0x800 ≤ a * 4096 + b * 64 + c) (zero : Int) :
    decodeWtf8Rune [UInt8.ofNat (a + 0xE0), UInt8.ofNat (b + 0x80), UInt8.ofNat (c + 0x80)] 3 zero =
      (a * 4096 + b * 64 + c : Nat) := by
  obtain ⟨hmaskB, hb', -⟩ := continuation_byte hb
  obtain ⟨hmaskC, hc', -⟩ := continuation_byte hc
  have hor : (a <<< 12) ||| (b <<< 6) ||| c = a * 4096 + b * 64 + c := by
    have hbc : (b <<< 6) ||| c = b * 64 + c := shift_or b hc
    have habc : (a <<< 12) ||| (b * 64 + c) = a * 4096 + (b * 64 + c) := shift_or a (by omega)
    rw [Nat.or_assoc, hbc, habc, Nat.add_assoc]
  simp only [decodeWtf8Rune, decodeWtf8RuneMultibyte, List.getD_cons_zero, List.getD_cons_succ, hmaskB,
    hmaskC, (lead_byte_three ha).2.1, hb', hc', hor, ne_eq, not_true_eq_false, if_false, if_true,
    OfNat.ofNat_ne_zero, OfNat.ofNat_ne_one, Nat.not_lt.mpr hcp, Nat.reduceEqDiff]

theorem decode_four {c d : Nat} (ha : a < 8) (hb : b < 64) (hc : c < 64) (hd : d < 64)
    (hlo : 0x10000 ≤ a * 262144 + b * 4096 + c * 64 + d)
    (hhi : a * 262144 + b * 4096 + c * 64 + d ≤ 0x10FFFF) (zero : Int) :
    decodeWtf8Rune [UInt8.ofNat (a + 0xF0), UInt8.ofNat (b + 0x80), UInt8.ofNat (c + 0x80),
      UInt8.ofNat (d + 0x80)] 4 zero = (a * 262144 + b * 4096 + c * 64 + d : Nat) := by
  obtain ⟨hmaskB, hb', -⟩ := continuation_byte hb
  obtain ⟨hmaskC, hc', -⟩ := continuation_byte hc
  obtain ⟨hmaskD, hd', -⟩ := continuation_byte hd
  have hor : (a <<< 18) ||| (b <<< 12) ||| (c <<< 6) ||| d =
      a * 262144 + b * 4096 + c * 64 + d := by
    have hcd : (c <<< 6) ||| d = c * 64 + d := shift_or c hd
    have hbcd : (b <<< 12) ||| (c * 64 + d) = b * 4096 + (c * 64 + d) := shift_or b (by omega)
    have habcd : (a <<< 18) ||| (b * 4096 + (c * 64 + d)) = a * 262144 + (b * 4096 + (c * 64 + d)) :=
      shift_or a (by omega)
    rw [Nat.or_assoc, Nat.or_assoc, hcd, hbcd, habcd]
    omega
  have hrange : ¬ (a * 262144 + b * 4096 + c * 64 + d < 0x10000 ∨
      a * 262144 + b * 4096 + c * 64 + d > 0x10FFFF) := by omega
  simp only [decodeWtf8Rune, decodeWtf8RuneMultibyte, List.getD_cons_zero, List.getD_cons_succ, hmaskB,
    hmaskC, hmaskD, (lead_byte_four ha).2.1, hb', hc', hd', hor, ne_eq, not_true_eq_false, if_false,
    OfNat.ofNat_ne_zero, OfNat.ofNat_ne_one, hrange, Nat.reduceEqDiff]

theorem char_toNat_le (c : Char) : c.toNat ≤ 0x10FFFF := by
  rcases c.valid with h | h
  · exact Nat.le_of_lt (Nat.lt_trans h (by decide))
  · exact Nat.le_of_lt_succ h.2

/-- The decoder on a character of more than one byte. -/
theorem utf8EncodeChar_multibyte (h : 127 < c.toNat) :
    ∃ b bs, String.utf8EncodeChar c = b :: bs ∧ wtf8ByteSequenceLength b = bs.length + 1 ∧
      (∀ zero, decodeWtf8Rune (b :: bs) (bs.length + 1) zero = c.toNat) ∧
      ∀ x ∈ b :: bs, 128 ≤ x := by
  obtain ⟨v, hv⟩ : ∃ v, v = c.val.toNat := ⟨_, rfl⟩
  have hvalid := char_toNat_le c
  have hc : c.toNat = v := hv.symm
  rw [hc] at h hvalid ⊢
  unfold String.utf8EncodeChar
  rw [← hv]
  have hmod (n : Nat) : n % 64 < 64 := Nat.mod_lt _ (by decide)
  by_cases htwo : v ≤ 0x7ff
  · have ha : v / 64 % 32 < 32 := Nat.mod_lt _ (by decide)
    refine ⟨_, _, (if_neg (Nat.not_le.mpr h)).trans (if_pos htwo), (lead_byte_two ha).1, ?_, ?_⟩
    · intro zero
      refine (decode_two ha (hmod v) (by omega) zero).trans ?_
      congr 1
      omega
    · simp only [List.mem_cons, List.not_mem_nil, or_false, forall_eq_or_imp, forall_eq]
      exact ⟨(lead_byte_two ha).2.2, (continuation_byte (hmod v)).2.2⟩
  · by_cases hthree : v ≤ 0xffff
    · have ha : v / 4096 % 16 < 16 := Nat.mod_lt _ (by decide)
      refine ⟨_, _, (if_neg (Nat.not_le.mpr h)).trans ((if_neg htwo).trans (if_pos hthree)),
        (lead_byte_three ha).1, ?_, ?_⟩
      · intro zero
        refine (decode_three ha (hmod _) (hmod v) (by omega) zero).trans ?_
        congr 1
        omega
      · simp only [List.mem_cons, List.not_mem_nil, or_false, forall_eq_or_imp, forall_eq]
        exact ⟨(lead_byte_three ha).2.2, (continuation_byte (hmod _)).2.2,
          (continuation_byte (hmod v)).2.2⟩
    · have ha : v / 262144 % 8 < 8 := Nat.mod_lt _ (by decide)
      refine ⟨_, _, (if_neg (Nat.not_le.mpr h)).trans ((if_neg htwo).trans (if_neg hthree)),
        (lead_byte_four ha).1, ?_, ?_⟩
      · intro zero
        refine (decode_four ha (hmod _) (hmod _) (hmod v) (by omega) (by omega) zero).trans ?_
        congr 1
        omega
      · simp only [List.mem_cons, List.not_mem_nil, or_false, forall_eq_or_imp, forall_eq]
        exact ⟨(lead_byte_four ha).2.2, (continuation_byte (hmod _)).2.2,
          (continuation_byte (hmod _)).2.2, (continuation_byte (hmod v)).2.2⟩

/-! ## The bytes of a text -/

@[simp] theorem utf8_nil : utf8 [] = [] := rfl

theorem utf8_cons (c : Char) (cs : List Char) : utf8 (c :: cs) = String.utf8EncodeChar c ++ utf8 cs :=
  List.flatMap_cons

theorem utf8_append (a b : List Char) : utf8 (a ++ b) = utf8 a ++ utf8 b := List.flatMap_append

/-- Bytes of a character. -/
def width (c : Char) : Nat := (String.utf8EncodeChar c).length

theorem width_pos (c : Char) : 0 < width c :=
  List.length_pos_of_ne_nil String.utf8EncodeChar_ne_nil

theorem width_ascii (h : c.toNat ≤ 127) : width c = 1 := by
  rw [width, utf8EncodeChar_ascii h]
  rfl

/-- The decoder reads back the first character. -/
theorem readRune_utf8 (c : Char) (cs : List Char) (zero : Int) :
    readRune (utf8 (c :: cs)) zero = ((c.toNat : Int), width c) := by
  rw [utf8_cons, width]
  by_cases h : c.toNat ≤ 127
  · obtain ⟨hlen, hbyte, -⟩ := ascii_byte h
    rw [utf8EncodeChar_ascii h, readRune]
    simp only [List.singleton_append, List.getD_cons_zero, hlen]
    refine Prod.ext ?_ rfl
    show ((UInt8.ofNat c.toNat).toNat : Int) = _
    rw [hbyte]
  · obtain ⟨b, bs, hbytes, hlen, hdecode, -⟩ := utf8EncodeChar_multibyte (Nat.not_le.mp h)
    rw [hbytes, readRune]
    simp only [List.cons_append, List.getD_cons_zero, hlen]
    rw [← List.cons_append, List.take_left' (List.length_cons), hdecode]
    rfl

theorem plain_le (h : plain c = true) : c.toNat ≤ 127 := by
  rw [plain, Bool.and_eq_true] at h
  exact of_decide_eq_true h.2

/-- The search stops at the characters that are not plain, on their first byte. -/
theorem exists_head_utf8EncodeChar (c : Char) :
    ∃ b bs, String.utf8EncodeChar c = b :: bs ∧ newlineOrNonAscii b = !plain c := by
  by_cases h : c.toNat ≤ 127
  · exact ⟨_, [], utf8EncodeChar_ascii h, (ascii_byte h).2.2⟩
  · obtain ⟨b, bs, hbytes, -, -, hhigh⟩ := utf8EncodeChar_multibyte (Nat.not_le.mp h)
    refine ⟨b, bs, hbytes, ?_⟩
    have hb : (128 : UInt8) ≤ b := hhigh b List.mem_cons_self
    have hplain : plain c = false := by
      cases hp : plain c with
      | true => exact absurd (plain_le hp) h
      | false => rfl
    have hgt : b > 127 := UInt8.lt_iff_toNat_lt.mpr (UInt8.le_iff_toNat_le.mp hb)
    rw [hplain, newlineOrNonAscii, decide_eq_true hgt]
    rfl

/-- Where the search stops in a text. -/
theorem findIdx?_utf8 (cs : List Char) : (utf8 cs).findIdx? newlineOrNonAscii =
    if cs.dropWhile plain = [] then none else some (cs.takeWhile plain).length := by
  induction cs with
  | nil => rfl
  | cons c cs ih =>
    obtain ⟨b, bs, hbytes, hb⟩ := exists_head_utf8EncodeChar c
    rw [utf8_cons]
    cases hplain : plain c with
    | true =>
      rw [utf8EncodeChar_ascii (plain_le hplain)] at hbytes ⊢
      obtain ⟨rfl, rfl⟩ := List.cons.inj hbytes
      rw [hplain] at hb
      rw [List.singleton_append, List.findIdx?_cons, hb, ih, List.dropWhile_cons_of_pos hplain,
        List.takeWhile_cons_of_pos hplain, if_neg (by decide)]
      split <;> rfl
    | false =>
      rw [hplain] at hb
      have hneg : ¬ plain c = true := by rw [hplain]; exact Bool.false_ne_true
      rw [hbytes, List.cons_append, List.findIdx?_cons, hb, List.dropWhile_cons_of_neg hneg,
        List.takeWhile_cons_of_neg hneg]
      rfl

/-- Plain text has one byte a character. -/
theorem length_utf8_plain (h : ∀ c ∈ cs, plain c = true) :
    (utf8 cs).length = cs.length := by
  induction cs with
  | nil => rfl
  | cons c cs ih =>
    rw [utf8_cons, List.length_append, ih fun d hd => h d (List.mem_cons_of_mem _ hd),
      utf8EncodeChar_ascii (plain_le (h c List.mem_cons_self)), List.length_cons, Nat.add_comm]
    rfl

/-- A byte that is a character of its own. -/
theorem head?_utf8 (hc : c.toNat ≤ 127) (cs : List Char) :
    (utf8 cs).head? = some (UInt8.ofNat c.toNat) ↔ cs.head? = some c := by
  cases cs with
  | nil => simp
  | cons d cs =>
    rw [utf8_cons, List.head?_cons]
    by_cases hd : d.toNat ≤ 127
    · rw [utf8EncodeChar_ascii hd, List.singleton_append, List.head?_cons, Option.some.injEq,
        Option.some.injEq, ← UInt8.toNat_inj, (ascii_byte hd).2.1, (ascii_byte hc).2.1]
      exact ⟨fun h => Char.ext (UInt32.toNat_inj.mp h), congrArg Char.toNat⟩
    · obtain ⟨b, bs, hbytes, -, -, hhigh⟩ := utf8EncodeChar_multibyte (Nat.not_le.mp hd)
      have hb : (128 : UInt8) ≤ b := hhigh b List.mem_cons_self
      rw [hbytes, List.cons_append, List.head?_cons, Option.some.injEq, Option.some.injEq]
      constructor
      · rintro rfl
        have := UInt8.le_iff_toNat_le.mp hb
        rw [(ascii_byte hc).2.1] at this
        exact absurd hc (Nat.not_le.mpr this)
      · rintro rfl
        exact absurd hc hd

theorem length_le_length_utf8 (cs : List Char) : cs.length ≤ (utf8 cs).length := by
  induction cs with
  | nil => exact Nat.le_refl 0
  | cons c cs ih =>
    have hpos := width_pos c
    rw [utf8_cons, List.length_append, List.length_cons]
    rw [width] at hpos
    omega

/-- Where the search stops, from inside a text. -/
theorem indexOfNewlineOrNonAscii_utf8 (hdrop : slice.drop i = utf8 cs) (hi : i ≤ slice.length)
    (hlen : slice.length < 2 ^ 31) :
    indexOfNewlineOrNonAscii slice i =
      if cs.dropWhile plain = [] then none else some (i + (cs.takeWhile plain).length) := by
  rw [indexOfNewlineOrNonAscii, hdrop, findIdx?_utf8]
  split
  · rfl
  · have hrun : (cs.takeWhile plain).length ≤ slice.length - i := by
      rw [← List.length_drop, hdrop]
      exact Nat.le_trans (List.takeWhile_sublist plain).length_le (length_le_length_utf8 cs)
    rw [Option.map_some, Nat.mod_eq_of_lt (by omega), Nat.mod_eq_of_lt (by omega), Nat.add_comm]

/-- The text behind a character. -/
theorem drop_width (hdrop : slice.drop i = utf8 (c :: cs)) : slice.drop (i + width c) = utf8 cs := by
  rw [← List.drop_drop, hdrop, utf8_cons, width, List.drop_left]

theorem plain_of_mem_takeWhile : ∀ c ∈ cs.takeWhile plain, plain c = true :=
  fun _ hc => List.mem_takeWhile_imp hc

/-- The text behind a plain run. -/
theorem drop_run (hdrop : slice.drop i = utf8 cs) :
    slice.drop (i + (cs.takeWhile plain).length) = utf8 (cs.dropWhile plain) := by
  have hsplit : utf8 cs = utf8 (cs.takeWhile plain) ++ utf8 (cs.dropWhile plain) := by
    rw [← utf8_append, List.takeWhile_append_dropWhile]
  rw [← List.drop_drop, hdrop, hsplit, ← length_utf8_plain plain_of_mem_takeWhile, List.drop_left]

theorem lt_of_drop_utf8 (hdrop : slice.drop i = utf8 (c :: cs)) : i + width c ≤ slice.length := by
  have hlen := congrArg List.length hdrop
  have hpos := width_pos c
  rw [List.length_drop, utf8_cons, List.length_append, ← width] at hlen
  omega

/-- The byte behind a CR. -/
theorem lineFeed_iff (hdrop : slice.drop i = utf8 ('\r' :: cs)) :
    slice[i + 1]? = some 10 ↔ cs.head? = some '\n' := by
  have hdrop' := drop_width hdrop
  rw [width_ascii (by decide)] at hdrop'
  rw [← List.head?_drop, hdrop']
  exact head?_utf8 (c := '\n') (by decide) cs

/-! ## Positions -/

theorem positionAfter_append (a b ahead : List Char) : ∀ p : TextPosition,
    positionAfter p (a ++ b) ahead =
      positionAfter (positionAfter p a (b ++ ahead)) b ahead := by
  induction a with
  | nil => exact fun _ => rfl
  | cons c a ih =>
    intro p
    rw [List.cons_append, positionAfter, ih, positionAfter, List.append_assoc]

/-- ASCII behind the control characters that end a line. -/
theorem endsLine_ascii (hlo : 14 ≤ c.toNat) (hhi : c.toNat ≤ 127) (next : Option Char) :
    endsLine c next = false := by
  have hne {d : Char} (hd : d.toNat < 14 ∨ 127 < d.toNat) : c ≠ d := by
    rintro rfl
    omega
  simp [endsLine, hne (d := '\n') (by decide), hne (d := '\u2028') (by decide),
    hne (d := '\u2029') (by decide), hne (d := '\r') (by decide)]

theorem endsLine_plain (h : plain c = true) (next : Option Char) :
    endsLine c next = false := by
  rw [plain, Bool.and_eq_true, decide_eq_true_iff, decide_eq_true_iff] at h
  exact endsLine_ascii (Nat.le_trans (by decide) h.1) h.2 next

theorem utf16Length_ascii (h : c.toNat ≤ 127) : utf16Length c = 1 :=
  if_neg (Nat.not_lt.mpr (Nat.le_trans h (by decide)))

theorem utf16Length_plain (h : plain c = true) : utf16Length c = 1 :=
  utf16Length_ascii (plain_le h)

/-- Plain text stays on its line. -/
theorem positionAfter_plain (h : ∀ c ∈ cs, plain c = true) (ahead : List Char) :
    ∀ p : TextPosition, positionAfter p cs ahead = ⟨p.line, p.column + cs.length⟩ := by
  induction cs with
  | nil => exact fun _ => rfl
  | cons c cs ih =>
    intro p
    have hc := h c List.mem_cons_self
    rw [positionAfter, ih fun d hd => h d (List.mem_cons_of_mem _ hd), TextPosition.step,
      endsLine_plain hc, utf16Length_plain hc, List.length_cons]
    simp only [Bool.false_eq_true, if_false, TextPosition.mk.injEq, true_and]
    omega

/-- A character is its code point. -/
theorem toNat_eq_iff (c d : Char) {n : Int} (hd : (d.toNat : Int) = n) :
    (c.toNat : Int) = n ↔ c = d := by
  rw [← hd, Int.ofNat_inj]
  exact ⟨fun h => Char.ext (UInt32.toNat_inj.mp h), congrArg Char.toNat⟩

theorem carriageReturn_iff (c : Char) : (c.toNat : Int) = 0x0D ↔ c = '\r' :=
  toNat_eq_iff c '\r' rfl

/-- The code points of the line terminators. -/
theorem terminator_iff (c : Char) :
    ((c.toNat : Int) = 0x0D ∨ (c.toNat : Int) = 0x0A ∨ (c.toNat : Int) = 0x2028 ∨
      (c.toNat : Int) = 0x2029) ↔ c = '\r' ∨ c = '\n' ∨ c = '\u2028' ∨ c = '\u2029' :=
  or_congr (toNat_eq_iff c '\r' rfl) (or_congr (toNat_eq_iff c '\n' rfl)
    (or_congr (toNat_eq_iff c '\u2028' rfl) (toNat_eq_iff c '\u2029' rfl)))

/-- A terminator ends its line, but for a CR in front of an LF. -/
theorem endsLine_iff (c : Char) (next : Option Char) : endsLine c next = true ↔
    (c = '\r' ∨ c = '\n' ∨ c = '\u2028' ∨ c = '\u2029') ∧ ¬ (c = '\r' ∧ next = some '\n') := by
  simp only [endsLine, Bool.or_eq_true, decide_eq_true_iff, Bool.and_eq_true]
  constructor
  · rintro (((rfl | rfl) | rfl) | ⟨rfl, hnext⟩)
    · simp
    · simp
    · simp
    · simp [hnext]
  · rintro ⟨rfl | rfl | rfl | rfl, hnext⟩
    · exact Or.inr ⟨rfl, fun h => hnext ⟨rfl, h⟩⟩
    · simp
    · simp
    · simp

/-- What a step does, by the code point. -/
theorem step_of_endsLine (h : endsLine c next = true) (p : TextPosition) :
    p.step c next = ⟨p.line + 1, 0⟩ := if_pos h

theorem step_of_not_endsLine (h : ¬ endsLine c next = true) (p : TextPosition) :
    p.step c next = ⟨p.line, p.column + utf16Length c⟩ := if_neg h

/-- What stands ahead matters only where it would split a CR LF. -/
theorem positionAfter_ahead {text ahead : List Char}
    (h : ¬ (text.getLast? = some '\r' ∧ ahead.head? = some '\n')) : ∀ p : TextPosition,
    positionAfter p text ahead = positionAfter p text [] := by
  induction text with
  | nil => exact fun _ => rfl
  | cons c text ih =>
    intro p
    rw [positionAfter, positionAfter]
    cases text with
    | nil =>
      have hends : endsLine c ahead.head? = endsLine c none := by
        rw [Bool.eq_iff_iff, endsLine_iff, endsLine_iff]
        refine and_congr_right fun _ => ?_
        simpa using fun hc => by simpa [hc] using h
      rw [List.nil_append, List.nil_append, List.head?_nil, TextPosition.step, TextPosition.step,
        hends]
      rfl
    | cons d text => exact ih (by rwa [List.getLast?_cons_cons] at h) _

end OhosBun.SourceMap
