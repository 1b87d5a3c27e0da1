/-
# `OhosBun.Lib.Utf8` — the UTF-8 decoder of the Encoding Standard

The decoder reads bytes and writes code points, and an error for each maximal part of an
ill-formed sequence.  It writes no error exactly for the bytes of a text, for which it writes
the characters (`error_notMem_translate_iff`).
-/
import OhosBun.Lib.Bytes
import OhosBun.Lib.Transducer

namespace OhosBun.Lib

/-- What a decoder of Unicode text writes. -/
inductive Decoded
  | scalar (c : Nat)
  | error
  deriving DecidableEq

/-- UTF-16 code units, with U+FFFD for an error. -/
def Decoded.units : Decoded → List UInt16
  | .scalar c =>
    if c ≤ 0xFFFF then [UInt16.ofNat c]
    else [UInt16.ofNat (0xD800 + (c - 0x10000) / 0x400), UInt16.ofNat (0xDC00 + c % 0x400)]
  | .error => [0xFFFD]

/-- The code units of what a decoder has written. -/
def units (out : List Decoded) : List UInt16 := out.flatMap Decoded.units

@[simp] theorem units_nil : units [] = [] := rfl

theorem units_cons (d : Decoded) (out : List Decoded) : units (d :: out) = d.units ++ units out :=
  List.flatMap_cons

theorem units_append (a b : List Decoded) : units (a ++ b) = units a ++ units b :=
  List.flatMap_append

namespace Utf8

/-- A sequence that has begun: its bits so far, the bounds of its next byte, and how many
bytes it has behind that one. -/
structure Sequence where
  codePoint : Nat
  lower : Nat
  upper : Nat
  more : Nat
  deriving DecidableEq

/-- The sequence that a byte leads. -/
def lead (b : Nat) : Option Sequence :=
  if 0xC2 ≤ b ∧ b ≤ 0xDF then some ⟨b % 32, 0x80, 0xBF, 0⟩
  else if 0xE0 ≤ b ∧ b ≤ 0xEF then
    some ⟨b % 16, if b = 0xE0 then 0xA0 else 0x80, if b = 0xED then 0x9F else 0xBF, 1⟩
  else if 0xF0 ≤ b ∧ b ≤ 0xF4 then
    some ⟨b % 8, if b = 0xF0 then 0x90 else 0x80, if b = 0xF4 then 0x8F else 0xBF, 2⟩
  else none

/-- A byte between two sequences. -/
def first (b : UInt8) : List Decoded × Option Sequence :=
  if b.toNat < 0x80 then ([.scalar b.toNat], none)
  else match lead b.toNat with
    | some q => ([], some q)
    | none => ([.error], none)

/-- The byte that a sequence waits for. -/
def Sequence.Continues (q : Sequence) (b : UInt8) : Prop := q.lower ≤ b.toNat ∧ b.toNat ≤ q.upper

instance (q : Sequence) (b : UInt8) : Decidable (q.Continues b) := instDecidableAnd

/-- A byte that continues any sequence behind its second byte. -/
def Tail (b : UInt8) : Prop := 0x80 ≤ b.toNat ∧ b.toNat ≤ 0xBF

instance : DecidablePred Tail := fun _ => instDecidableAnd

variable {b a : UInt8} {c n : Nat} {q : Sequence} {last : Bool} {out : List Decoded} {bs : Bytes}

theorem Tail.continues (h : Tail b) :
    Sequence.Continues ⟨c, 0x80, 0xBF, n⟩ b := h

/-- The bits of a sequence with those of one more byte. -/
def Sequence.extend (q : Sequence) (b : UInt8) : Nat := q.codePoint * 64 + b.toNat % 64

/-- A byte inside a sequence; one that it does not wait for is read again behind the error. -/
def Sequence.step (q : Sequence) (b : UInt8) : List Decoded × Option Sequence :=
  if q.Continues b then
    match q.more with
    | 0 => ([.scalar (q.extend b)], none)
    | more + 1 => ([], some ⟨q.extend b, 0x80, 0xBF, more⟩)
  else (.error :: (first b).1, (first b).2)

def decoder : Transducer (Option Sequence) UInt8 Decoded where
  start := none
  step
    | none, b => first b
    | some q, b => q.step b
  finish
    | none => []
    | some _ => [.error]

/-! ## Steps -/

theorem first_ascii (h : b.toNat < 0x80) : first b = ([.scalar b.toNat], none) :=
  if_pos h

theorem first_lead (h : lead b.toNat = some q) :
    first b = ([], some q) := by
  have hb : ¬ b.toNat < 0x80 := by
    intro hlt
    rw [lead, if_neg (by omega), if_neg (by omega), if_neg (by omega)] at h
    exact absurd h (by simp)
  rw [first, if_neg hb, h]

theorem first_invalid (hb : ¬ b.toNat < 0x80) (h : lead b.toNat = none) :
    first b = ([.error], none) := by
  rw [first, if_neg hb, h]

theorem step_last (h : q.Continues b) (hmore : q.more = 0) :
    q.step b = ([.scalar (q.extend b)], none) := by
  rw [Sequence.step, if_pos h, hmore]

theorem step_next (h : q.Continues b) (hmore : q.more = n + 1) :
    q.step b = ([], some ⟨q.extend b, 0x80, 0xBF, n⟩) := by
  rw [Sequence.step, if_pos h, hmore]

theorem step_error (h : ¬ q.Continues b) :
    q.step b = (.error :: (first b).1, (first b).2) := if_neg h

section Run
variable {q : Sequence} {b : UInt8} (bs : Bytes)

theorem run_ascii (h : b.toNat < 0x80) : decoder.run none (b :: bs) =
    (.scalar b.toNat :: (decoder.run none bs).1, (decoder.run none bs).2) := by
  have hstep : decoder.step none b = ([.scalar b.toNat], none) := first_ascii h
  rw [Transducer.run_cons, hstep]
  rfl

theorem run_lead (h : lead b.toNat = some q) :
    decoder.run none (b :: bs) = decoder.run (some q) bs := by
  have hstep : decoder.step none b = ([], some q) := first_lead h
  rw [Transducer.run_cons, hstep]
  rfl

theorem run_invalid (hb : ¬ b.toNat < 0x80) (h : lead b.toNat = none) : decoder.run none (b :: bs) =
    (.error :: (decoder.run none bs).1, (decoder.run none bs).2) := by
  have hstep : decoder.step none b = ([.error], none) := first_invalid hb h
  rw [Transducer.run_cons, hstep]
  rfl

theorem run_last (h : q.Continues b) (hmore : q.more = 0) : decoder.run (some q) (b :: bs) =
    (.scalar (q.extend b) :: (decoder.run none bs).1, (decoder.run none bs).2) := by
  have hstep : decoder.step (some q) b = ([.scalar (q.extend b)], none) := step_last h hmore
  rw [Transducer.run_cons, hstep]
  rfl

theorem run_next {n : Nat} (h : q.Continues b) (hmore : q.more = n + 1) :
    decoder.run (some q) (b :: bs) = decoder.run (some ⟨q.extend b, 0x80, 0xBF, n⟩) bs := by
  have hstep : decoder.step (some q) b = ([], some ⟨q.extend b, 0x80, 0xBF, n⟩) :=
    step_next h hmore
  rw [Transducer.run_cons, hstep]
  rfl

/-- A byte that a sequence does not wait for ends it. -/
theorem run_error (h : ¬ q.Continues b) : decoder.run (some q) (b :: bs) =
    (.error :: (decoder.run none (b :: bs)).1, (decoder.run none (b :: bs)).2) := by
  have hstep : decoder.step (some q) b = (.error :: (first b).1, (first b).2) := step_error h
  rw [Transducer.run_cons, hstep]
  rfl

end Run

/-! ## Texts -/

theorem toNat_ofNat (h : n < 256) : (UInt8.ofNat n).toNat = n := by
  rw [UInt8.toNat_ofNat', Nat.mod_eq_of_lt h]

theorem lead_two {b : Nat} (h : 0xC2 ≤ b ∧ b ≤ 0xDF) : lead b = some ⟨b % 32, 0x80, 0xBF, 0⟩ :=
  if_pos h

theorem lead_three {b : Nat} (h : 0xE0 ≤ b ∧ b ≤ 0xEF) : lead b = some ⟨b % 16,
    if b = 0xE0 then 0xA0 else 0x80, if b = 0xED then 0x9F else 0xBF, 1⟩ := by
  rw [lead, if_neg (by omega), if_pos h]

theorem lead_four {b : Nat} (h : 0xF0 ≤ b ∧ b ≤ 0xF4) : lead b = some ⟨b % 8,
    if b = 0xF0 then 0x90 else 0x80, if b = 0xF4 then 0x8F else 0xBF, 2⟩ := by
  rw [lead, if_neg (by omega), if_neg (by omega), if_pos h]

theorem lead_eq_none {b : Nat} (h : b < 0xC2 ∨ 0xF4 < b) : lead b = none := by
  rw [lead, if_neg (by omega), if_neg (by omega), if_neg (by omega)]

/-- A second byte is a tail, too. -/
theorem lead_bounds {b : Nat} (h : lead b = some q) :
    0x80 ≤ q.lower ∧ q.upper ≤ 0xBF := by
  rw [lead] at h
  split at h
  · cases h
    exact ⟨Nat.le_refl _, Nat.le_refl _⟩
  · split at h
    · cases h
      constructor <;> dsimp only <;> split <;> decide
    · split at h
      · cases h
        constructor <;> dsimp only <;> split <;> decide
      · cases h

theorem Sequence.Continues.tail {b : Nat} {c : UInt8} (h : q.Continues c) (hlead : lead b = some q) :
    Tail c :=
  ⟨Nat.le_trans (lead_bounds hlead).1 h.1, Nat.le_trans h.2 (lead_bounds hlead).2⟩

section Run
variable {q : Sequence} {a b c d : UInt8} (bs : Bytes)

theorem run_two (ha : lead a.toNat = some q) (hb : q.Continues b) (hmore : q.more = 0) :
    decoder.run none (a :: b :: bs) =
      (.scalar (q.extend b) :: (decoder.run none bs).1, (decoder.run none bs).2) := by
  rw [run_lead _ ha, run_last _ hb hmore]

theorem run_three (ha : lead a.toNat = some q) (hb : q.Continues b) (hmore : q.more = 1)
    (hc : Tail c) : decoder.run none (a :: b :: c :: bs) =
      (.scalar (q.extend b * 64 + c.toNat % 64) :: (decoder.run none bs).1,
        (decoder.run none bs).2) := by
  rw [run_lead _ ha, run_next _ hb hmore, run_last _ hc.continues rfl]
  rfl

theorem run_four (ha : lead a.toNat = some q) (hb : q.Continues b) (hmore : q.more = 2)
    (hc : Tail c) (hd : Tail d) :
    decoder.run none (a :: b :: c :: d :: bs) =
      (.scalar ((q.extend b * 64 + c.toNat % 64) * 64 + d.toNat % 64) :: (decoder.run none bs).1,
        (decoder.run none bs).2) := by
  rw [run_lead _ ha, run_next _ hb hmore, run_next _ hc.continues rfl, run_last _ hd.continues rfl]
  rfl

end Run

section Encoded
variable {v : Nat} (bs : Bytes)

theorem tail_digit {b : UInt8} {n : Nat} (hb : b.toNat = n % 64 + 0x80) : Tail b :=
  ⟨by omega, by omega⟩

theorem run_encoded_two (hone : ¬ v ≤ 0x7F) (htwo : v ≤ 0x7FF) :
    decoder.run none ([.ofNat (v / 64 % 32 + 0xC0), .ofNat (v % 64 + 0x80)] ++ bs) =
      (.scalar v :: (decoder.run none bs).1, (decoder.run none bs).2) := by
  have hlow := toNat_ofNat (show v % 64 + 0x80 < 256 by omega)
  have hlead := toNat_ofNat (show v / 64 % 32 + 0xC0 < 256 by omega)
  have hcode : (v / 64 % 32 + 0xC0) % 32 * 64 + (v % 64 + 0x80) % 64 = v := by omega
  refine (run_two bs (lead_two (by omega)) (by simp only [Sequence.Continues]; omega) rfl).trans ?_
  rw [Sequence.extend, hlead, hlow, hcode]

theorem run_encoded_three (htwo : ¬ v ≤ 0x7FF) (hthree : v ≤ 0xFFFF)
    (hvalid : v < 0xD800 ∨ 0xDFFF < v) :
    decoder.run none
        ([.ofNat (v / 4096 % 16 + 0xE0), .ofNat (v / 64 % 64 + 0x80), .ofNat (v % 64 + 0x80)] ++ bs) =
      (.scalar v :: (decoder.run none bs).1, (decoder.run none bs).2) := by
  have hlow := toNat_ofNat (show v % 64 + 0x80 < 256 by omega)
  have hmid := toNat_ofNat (show v / 64 % 64 + 0x80 < 256 by omega)
  have hlead := toNat_ofNat (show v / 4096 % 16 + 0xE0 < 256 by omega)
  have hcode : ((v / 4096 % 16 + 0xE0) % 16 * 64 + (v / 64 % 64 + 0x80) % 64) * 64 +
      (v % 64 + 0x80) % 64 = v := by omega
  refine (run_three bs (lead_three (by omega)) ?_ rfl (tail_digit hlow)).trans ?_
  · simp only [Sequence.Continues, hlead, hmid]
    constructor <;> split <;> omega
  · rw [Sequence.extend, hlead, hmid, hlow, hcode]

theorem run_encoded_four (hthree : ¬ v ≤ 0xFFFF) (hvalid : v < 0x110000) :
    decoder.run none ([.ofNat (v / 262144 % 8 + 0xF0), .ofNat (v / 4096 % 64 + 0x80),
        .ofNat (v / 64 % 64 + 0x80), .ofNat (v % 64 + 0x80)] ++ bs) =
      (.scalar v :: (decoder.run none bs).1, (decoder.run none bs).2) := by
  have hlow := toNat_ofNat (show v % 64 + 0x80 < 256 by omega)
  have hmid := toNat_ofNat (show v / 64 % 64 + 0x80 < 256 by omega)
  have hhigh := toNat_ofNat (show v / 4096 % 64 + 0x80 < 256 by omega)
  have hlead := toNat_ofNat (show v / 262144 % 8 + 0xF0 < 256 by omega)
  have hcode : (((v / 262144 % 8 + 0xF0) % 8 * 64 + (v / 4096 % 64 + 0x80) % 64) * 64 +
      (v / 64 % 64 + 0x80) % 64) * 64 + (v % 64 + 0x80) % 64 = v := by omega
  refine (run_four bs (lead_four (by omega)) ?_ rfl (tail_digit hmid) (tail_digit hlow)).trans ?_
  · simp only [Sequence.Continues, hlead, hhigh]
    constructor <;> split <;> omega
  · rw [Sequence.extend, hlead, hhigh, hmid, hlow, hcode]

end Encoded

/-- The decoder on the bytes of a character. -/
theorem run_encodeChar (c : Char) (bs : Bytes) : decoder.run none (String.utf8EncodeChar c ++ bs) =
    (.scalar c.toNat :: (decoder.run none bs).1, (decoder.run none bs).2) := by
  obtain ⟨v, hv⟩ : ∃ v, v = c.val.toNat := ⟨_, rfl⟩
  have hvalid : v < 0xD800 ∨ 0xDFFF < v ∧ v < 0x110000 := hv ▸ c.valid
  rw [show c.toNat = v from hv.symm]
  unfold String.utf8EncodeChar
  rw [← hv]
  by_cases hone : v ≤ 0x7F
  · have hbyte := toNat_ofNat (show v < 256 by omega)
    rw [if_pos hone, List.singleton_append, run_ascii _ (by omega), hbyte]
  rw [if_neg hone]
  by_cases htwo : v ≤ 0x7FF
  · rw [if_pos htwo]
    exact run_encoded_two bs hone htwo
  rw [if_neg htwo]
  by_cases hthree : v ≤ 0xFFFF
  · rw [if_pos hthree]
    exact run_encoded_three bs htwo hthree (hvalid.imp_right (·.1))
  · rw [if_neg hthree]
    exact run_encoded_four bs hthree (by omega)

/-- The bytes that a sequence waits for, all of them. -/
inductive Completes : Sequence → Bytes → Prop
  | last {q : Sequence} {b : UInt8} (hmore : q.more = 0) (hb : q.Continues b) : Completes q [b]
  | next {q : Sequence} {b : UInt8} {bs : Bytes} {n : Nat} (hmore : q.more = n + 1)
      (hb : q.Continues b) (hbs : Completes ⟨q.extend b, 0x80, 0xBF, n⟩ bs) : Completes q (b :: bs)

/-- A sequence for which a code point is written is complete. -/
theorem exists_completes :
    ∀ {q : Sequence}, (decoder.read last (some q) bs).1 = .scalar c :: out →
      ∃ tail rest, bs = tail ++ rest ∧ Completes q tail := by
  induction bs with
  | nil => cases last <;> exact fun h => absurd h (by rintro ⟨⟩)
  | cons b bs ih =>
    intro q h
    rw [Transducer.read_eq] at h
    by_cases hb : q.Continues b
    · cases hmore : q.more with
      | zero => exact ⟨[b], bs, rfl, .last hmore hb⟩
      | succ n =>
        rw [run_next _ hb hmore, ← Transducer.read_eq] at h
        obtain ⟨tail, rest, rfl, htail⟩ := ih h
        exact ⟨b :: tail, rest, rfl, .next hmore hb htail⟩
    · rw [run_error _ hb] at h
      cases last <;> exact absurd h (by simp)

theorem ofNat_toNat (h : n = b.toNat) : UInt8.ofNat n = b := by
  rw [h, UInt8.ofNat_toNat]

/-- A code point that is no surrogate is a character. -/
theorem exists_char {v : Nat} (h : v < 0xD800 ∨ 0xDFFF < v ∧ v < 0x110000) :
    ∃ c : Char, c.val.toNat = v := ⟨Char.ofNatAux v h, rfl⟩

theorem encodeChar_two (ha : 0xC2 ≤ a.toNat ∧ a.toNat ≤ 0xDF) (hb : Tail b) :
    ∃ c, String.utf8EncodeChar c = [a, b] := by
  obtain ⟨hlo, hhi⟩ := hb
  obtain ⟨c, hc⟩ := exists_char (v := a.toNat % 32 * 64 + b.toNat % 64) (by omega)
  refine ⟨c, ?_⟩
  unfold String.utf8EncodeChar
  rw [hc, if_neg (by omega), if_pos (by omega), ofNat_toNat (b := a) (by omega),
    ofNat_toNat (b := b) (by omega)]

theorem encodeChar_three {c : UInt8} (ha : 0xE0 ≤ a.toNat ∧ a.toNat ≤ 0xEF)
    (hlo : (if a.toNat = 0xE0 then 0xA0 else 0x80) ≤ b.toNat)
    (hhi : b.toNat ≤ if a.toNat = 0xED then 0x9F else 0xBF) (hc : Tail c) :
    ∃ char, String.utf8EncodeChar char = [a, b, c] := by
  obtain ⟨hcLo, hcHi⟩ := hc
  have hb : 0x80 ≤ b.toNat ∧ b.toNat ≤ 0xBF := by split at hlo <;> split at hhi <;> omega
  have hmin : a.toNat = 0xE0 → 0xA0 ≤ b.toNat := fun h => by rwa [if_pos h] at hlo
  have hmax : a.toNat = 0xED → b.toNat ≤ 0x9F := fun h => by rwa [if_pos h] at hhi
  obtain ⟨char, hchar⟩ := exists_char
    (v := (a.toNat % 16 * 64 + b.toNat % 64) * 64 + c.toNat % 64) (by omega)
  refine ⟨char, ?_⟩
  unfold String.utf8EncodeChar
  rw [hchar, if_neg (by omega), if_neg (by omega), if_pos (by omega), ofNat_toNat (b := a) (by omega),
    ofNat_toNat (b := b) (by omega), ofNat_toNat (b := c) (by omega)]

theorem encodeChar_four {c d : UInt8} (ha : 0xF0 ≤ a.toNat ∧ a.toNat ≤ 0xF4)
    (hlo : (if a.toNat = 0xF0 then 0x90 else 0x80) ≤ b.toNat)
    (hhi : b.toNat ≤ if a.toNat = 0xF4 then 0x8F else 0xBF) (hc : Tail c) (hd : Tail d) :
    ∃ char, String.utf8EncodeChar char = [a, b, c, d] := by
  obtain ⟨hcLo, hcHi⟩ := hc
  obtain ⟨hdLo, hdHi⟩ := hd
  have hb : 0x80 ≤ b.toNat ∧ b.toNat ≤ 0xBF := by split at hlo <;> split at hhi <;> omega
  have hmin : a.toNat = 0xF0 → 0x90 ≤ b.toNat := fun h => by rwa [if_pos h] at hlo
  have hmax : a.toNat = 0xF4 → b.toNat ≤ 0x8F := fun h => by rwa [if_pos h] at hhi
  obtain ⟨char, hchar⟩ := exists_char
    (v := ((a.toNat % 8 * 64 + b.toNat % 64) * 64 + c.toNat % 64) * 64 + d.toNat % 64) (by omega)
  refine ⟨char, ?_⟩
  unfold String.utf8EncodeChar
  rw [hchar, if_neg (by omega), if_neg (by omega), if_neg (by omega), ofNat_toNat (b := a) (by omega),
    ofNat_toNat (b := b) (by omega), ofNat_toNat (b := c) (by omega), ofNat_toNat (b := d) (by omega)]

/-- A complete sequence is a character. -/
theorem exists_encodeChar {tail : Bytes} (ha : lead a.toNat = some q) (h : Completes q tail) :
    ∃ c, String.utf8EncodeChar c = a :: tail := by
  by_cases htwo : 0xC2 ≤ a.toNat ∧ a.toNat ≤ 0xDF
  · obtain rfl := Option.some.inj ((lead_two htwo).symm.trans ha)
    cases h with
    | last _ hb => exact encodeChar_two htwo hb
    | next hmore => exact absurd hmore (Nat.succ_ne_zero _).symm
  · by_cases hthree : 0xE0 ≤ a.toNat ∧ a.toNat ≤ 0xEF
    · obtain rfl := Option.some.inj ((lead_three hthree).symm.trans ha)
      cases h with
      | last hmore => exact absurd hmore Nat.one_ne_zero
      | next hmore hb htail =>
        obtain rfl := Nat.succ.inj hmore
        cases htail with
        | last _ hc => exact encodeChar_three hthree hb.1 hb.2 hc
        | next hmore => exact absurd hmore (Nat.succ_ne_zero _).symm
    · by_cases hfour : 0xF0 ≤ a.toNat ∧ a.toNat ≤ 0xF4
      · obtain rfl := Option.some.inj ((lead_four hfour).symm.trans ha)
        cases h with
        | last hmore => exact absurd hmore (Nat.succ_ne_zero _)
        | next hmore hb htail =>
          obtain rfl := Nat.succ.inj hmore
          cases htail with
          | last hmore => exact absurd hmore Nat.one_ne_zero
          | next hmore hc htail =>
            obtain rfl := Nat.succ.inj hmore
            cases htail with
            | last _ hd => exact encodeChar_four hfour hb.1 hb.2 hc hd
            | next hmore => exact absurd hmore (Nat.succ_ne_zero _).symm
      · rw [lead, if_neg htwo, if_neg hthree, if_neg hfour] at ha
        exact absurd ha (by simp)

/-- The decoder on ASCII. -/
theorem run_ascii_append {ascii : Bytes} (h : ∀ b ∈ ascii, b.toNat < 0x80) (bs : Bytes) :
    decoder.run none (ascii ++ bs) =
      (ascii.map (.scalar ·.toNat) ++ (decoder.run none bs).1, (decoder.run none bs).2) := by
  induction ascii with
  | nil => rfl
  | cons b ascii ih =>
    rw [List.cons_append, run_ascii _ (h b List.mem_cons_self),
      ih fun c hc => h c (List.mem_cons_of_mem _ hc)]
    rfl

/-- The decoder on the bytes of a text. -/
theorem run_encode (cs : List Char) (bs : Bytes) :
    decoder.run none (cs.flatMap String.utf8EncodeChar ++ bs) =
      (cs.map (.scalar ·.toNat) ++ (decoder.run none bs).1, (decoder.run none bs).2) := by
  induction cs with
  | nil => rfl
  | cons c cs ih =>
    rw [List.flatMap_cons, List.append_assoc, run_encodeChar, ih]
    rfl

theorem translate_encode (cs : List Char) :
    decoder.translate (cs.flatMap String.utf8EncodeChar) = cs.map (.scalar ·.toNat) := by
  have h := run_encode cs []
  rw [List.append_nil] at h
  rw [Transducer.translate, Transducer.read_true, show decoder.start = none from rfl, h]
  simp [decoder]

theorem encodeChar_one (ha : a.toNat < 0x80) :
    ∃ c, String.utf8EncodeChar c = [a] := by
  obtain ⟨c, hc⟩ := exists_char (v := a.toNat) (by omega)
  refine ⟨c, ?_⟩
  unfold String.utf8EncodeChar
  rw [hc, if_pos (by omega), ofNat_toNat rfl]

/-- A code point is written first for a character in front. -/
theorem exists_encodeChar_append (h : (decoder.read last none bs).1 = .scalar c :: out) :
    ∃ char rest, bs = String.utf8EncodeChar char ++ rest ∧ char.toNat = c := by
  obtain ⟨char, rest, rfl⟩ : ∃ char rest, bs = String.utf8EncodeChar char ++ rest := by
    cases bs with
    | nil => cases last <;> exact absurd h (by rintro ⟨⟩)
    | cons a bs =>
      by_cases hascii : a.toNat < 0x80
      · obtain ⟨char, hchar⟩ := encodeChar_one hascii
        exact ⟨char, bs, by rw [hchar]; rfl⟩
      · rw [Transducer.read_eq] at h
        cases hlead : lead a.toNat with
        | none =>
          rw [run_invalid _ hascii hlead] at h
          cases last <;> exact absurd h (by simp)
        | some q =>
          rw [run_lead _ hlead, ← Transducer.read_eq] at h
          obtain ⟨tail, rest, rfl, htail⟩ := exists_completes h
          obtain ⟨char, hchar⟩ := exists_encodeChar hlead htail
          exact ⟨char, rest, by rw [hchar]; rfl⟩
  refine ⟨char, rest, rfl, ?_⟩
  rw [Transducer.read_eq, run_encodeChar] at h
  cases last <;> exact Decoded.scalar.inj (List.cons.inj h).1

/-- A sequence that ends without an error is a code point. -/
theorem exists_scalar : ∀ {q : Sequence}, .error ∉ (decoder.read true (some q) bs).1 →
    ∃ c out, (decoder.read true (some q) bs).1 = .scalar c :: out := by
  induction bs with
  | nil => exact fun h => absurd (List.mem_singleton_self Decoded.error) h
  | cons b bs ih =>
    intro q h
    rw [Transducer.read_true] at h ⊢
    by_cases hb : q.Continues b
    · cases hmore : q.more with
      | zero =>
        rw [run_last _ hb hmore]
        exact ⟨_, _, rfl⟩
      | succ n =>
        rw [run_next _ hb hmore] at h ⊢
        exact ih h
    · rw [run_error _ hb] at h
      exact absurd List.mem_cons_self h

/-- An input without an error starts with a code point. -/
theorem exists_scalar_cons (h : .error ∉ decoder.translate (a :: bs)) :
    ∃ c out, (decoder.read true none (a :: bs)).1 = .scalar c :: out := by
  change Decoded.error ∉ (decoder.read true none (a :: bs)).1 at h
  rw [Transducer.read_true] at h ⊢
  by_cases hascii : a.toNat < 0x80
  · rw [run_ascii _ hascii]
    exact ⟨_, _, rfl⟩
  · cases hlead : lead a.toNat with
    | none =>
      rw [run_invalid _ hascii hlead] at h
      exact absurd List.mem_cons_self h
    | some q =>
      rw [run_lead _ hlead] at h ⊢
      exact exists_scalar h

/-- The decoder finds no error exactly in the bytes of a text. -/
theorem error_notMem_translate_iff (bs : Bytes) :
    .error ∉ decoder.translate bs ↔ ∃ cs : List Char, bs = cs.flatMap String.utf8EncodeChar := by
  constructor
  · intro h
    induction hn : bs.length using Nat.strong_induction_on generalizing bs with
    | _ n ih =>
      cases bs with
      | nil => exact ⟨[], rfl⟩
      | cons a bs =>
        obtain ⟨c, out, hout⟩ := exists_scalar_cons h
        obtain ⟨char, rest, hbytes, -⟩ := exists_encodeChar_append hout
        have hlen := congrArg List.length hbytes
        have hpos := List.length_pos_of_ne_nil (String.utf8EncodeChar_ne_nil (c := char))
        rw [List.length_append] at hlen
        change Decoded.error ∉ (decoder.read true none (a :: bs)).1 at h
        rw [hbytes, Transducer.read_true, run_encodeChar] at h
        have hrest : Decoded.error ∉ decoder.translate rest :=
          fun hmem => h (List.mem_cons_of_mem _ hmem)
        obtain ⟨cs, rfl⟩ := ih rest.length (by omega) rest hrest rfl
        exact ⟨char :: cs, hbytes⟩
  · rintro ⟨cs, rfl⟩ hmem
    rw [translate_encode] at hmem
    obtain ⟨c, -, hc⟩ := List.mem_map.mp hmem
    exact absurd hc (by simp)

end Utf8

end OhosBun.Lib
