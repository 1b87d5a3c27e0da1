/-
# `OhosBun.Lib.Utf16` — the UTF-16 decoder of the Encoding Standard

The decoder keeps half a code unit, and half a surrogate pair; at the end of the input the
two halves are one error.
-/
import OhosBun.Lib.Utf8

namespace OhosBun.Lib.Utf16

/-- The first code unit of a pair. -/
def Lead (unit : UInt16) : Prop := 0xD800 ≤ unit.toNat ∧ unit.toNat ≤ 0xDBFF

/-- The second code unit of a pair. -/
def Trail (unit : UInt16) : Prop := 0xDC00 ≤ unit.toNat ∧ unit.toNat ≤ 0xDFFF

instance : DecidablePred Lead := fun _ => instDecidableAnd

instance : DecidablePred Trail := fun _ => instDecidableAnd

structure State where
  leadByte : Option UInt8
  leadSurrogate : Option {unit : UInt16 // Lead unit}
  deriving DecidableEq

/-- The code unit of two bytes. -/
def unitOf (bigEndian : Bool) (a b : UInt8) : UInt16 :=
  UInt16.ofNat (if bigEndian then a.toNat * 256 + b.toNat else a.toNat + b.toNat * 256)

/-- The code point of a pair. -/
def pair (lead trail : UInt16) : Nat :=
  0x10000 + (lead.toNat - 0xD800) * 0x400 + (trail.toNat - 0xDC00)

/-- A code unit behind which no pair is open. -/
def first (unit : UInt16) : List Decoded × Option {unit : UInt16 // Lead unit} :=
  if h : Lead unit then ([], some ⟨unit, h⟩)
  else if Trail unit then ([.error], none)
  else ([.scalar unit.toNat], none)

/-- A code unit; one that does not end the open pair is read again behind the error. -/
def next : Option {unit : UInt16 // Lead unit} → UInt16 →
    List Decoded × Option {unit : UInt16 // Lead unit}
  | none, unit => first unit
  | some lead, unit =>
    if Trail unit then ([.scalar (pair lead unit)], none)
    else (.error :: (first unit).1, (first unit).2)

def decoder (bigEndian : Bool) : Transducer State UInt8 Decoded where
  start := ⟨none, none⟩
  step s b :=
    match s.leadByte with
    | none => ([], { s with leadByte := some b })
    | some a =>
      ((next s.leadSurrogate (unitOf bigEndian a b)).1,
        ⟨none, (next s.leadSurrogate (unitOf bigEndian a b)).2⟩)
  finish s := if s.leadByte.isSome || s.leadSurrogate.isSome then [.error] else []

/-! ## Code units -/

theorem units_scalar (unit : UInt16) : (Decoded.scalar unit.toNat).units = [unit] := by
  have h := unit.toNat_lt
  rw [Decoded.units, if_pos (by omega), UInt16.ofNat_toNat]

theorem ofNat_toNat {n : Nat} {unit : UInt16} (h : n = unit.toNat) : UInt16.ofNat n = unit := by
  rw [h, UInt16.ofNat_toNat]

/-- A pair is written as it was read. -/
theorem units_pair {lead trail : UInt16} (hlead : Lead lead) (htrail : Trail trail) :
    (Decoded.scalar (pair lead trail)).units = [lead, trail] := by
  obtain ⟨hl, hl'⟩ := hlead
  obtain ⟨ht, ht'⟩ := htrail
  have hfirst : 0xD800 + (pair lead trail - 0x10000) / 0x400 = lead.toNat := by
    unfold pair
    omega
  have hsecond : 0xDC00 + pair lead trail % 0x400 = trail.toNat := by
    unfold pair
    omega
  have hbig : ¬ pair lead trail ≤ 0xFFFF := by
    unfold pair
    omega
  rw [Decoded.units, if_neg hbig, ofNat_toNat hfirst, ofNat_toNat hsecond]

theorem pair_le {lead trail : UInt16} (hlead : Lead lead) (htrail : Trail trail) :
    pair lead trail ≤ 0x10FFFF := by
  obtain ⟨hl, hl'⟩ := hlead
  obtain ⟨ht, ht'⟩ := htrail
  unfold pair
  omega

/-! ## Runs -/

section Run
variable {bigEndian : Bool} (ls : Option {unit : UInt16 // Lead unit}) (a b : UInt8) (bs : Bytes)

/-- Two bytes are a code unit. -/
theorem run_unit : (decoder bigEndian).run ⟨none, ls⟩ (a :: b :: bs) =
    ((next ls (unitOf bigEndian a b)).1 ++
        ((decoder bigEndian).run ⟨none, (next ls (unitOf bigEndian a b)).2⟩ bs).1,
      ((decoder bigEndian).run ⟨none, (next ls (unitOf bigEndian a b)).2⟩ bs).2) := rfl

/-- The second byte of a code unit. -/
theorem run_carried : (decoder bigEndian).run ⟨some a, ls⟩ (b :: bs) =
    (decoder bigEndian).run ⟨none, ls⟩ (a :: b :: bs) := rfl

end Run

end OhosBun.Lib.Utf16
