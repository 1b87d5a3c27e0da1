/-
# `OhosBun.Webcore.CodeUnits` — the UTF-16 decoder is that of the Encoding Standard

What the decoder carries between chunks is the state of the standard's decoder
(`TextDecoder.carry`), and a chunk is decoded as the standard decodes it (`decodeUtf16_carry`).
-/
import OhosBun.Webcore.TextDecoder
import OhosBun.Lib.Utf16

namespace OhosBun.Webcore

open OhosBun.Lib
open OhosBun.Lib.Utf16 (Lead Trail State unitOf decoder)

/-! ## Code units -/

/-- The upper six bits. -/
theorem mask_toNat (c : UInt16) : (c &&& 0xFC00).toNat = c.toNat / 1024 * 1024 := by
  have hlt := c.toNat_lt
  have hmod : (c.toNat &&& 0xFC00) % 2 ^ 10 = 0 := by
    rw [Nat.and_mod_two_pow]
    exact Nat.and_zero _
  have hdiv : (c.toNat &&& 0xFC00) / 2 ^ 10 = c.toNat / 1024 := by
    rw [Nat.and_div_two_pow, show (0xFC00 / 2 ^ 10 : Nat) = 2 ^ 6 - 1 from rfl,
      Nat.and_two_pow_sub_one_eq_mod]
    omega
  rw [UInt16.toNat_and]
  change c.toNat &&& 0xFC00 = _
  omega

theorem u16IsLead_iff (c : UInt16) : u16IsLead c = true ↔ Lead c := by
  have hmask := mask_toNat c
  rw [u16IsLead, beq_iff_eq, ← UInt16.toNat_inj, hmask, Lead,
    show (0xD800 : UInt16).toNat = 0xD800 from rfl]
  omega

theorem u16IsTrail_iff (c : UInt16) : u16IsTrail c = true ↔ Trail c := by
  have hmask := mask_toNat c
  rw [u16IsTrail, beq_iff_eq, ← UInt16.toNat_inj, hmask, Trail,
    show (0xDC00 : UInt16).toNat = 0xDC00 from rfl]
  omega

theorem shift_or_toNat (a b : UInt8) :
    ((a.toUInt16 <<< 8) ||| b.toUInt16).toNat = a.toNat * 256 + b.toNat := by
  have ha := a.toNat_lt
  have hb := b.toNat_lt
  have hor := Nat.shiftLeft_add_eq_or_of_lt (i := 8) hb a.toNat
  rw [Nat.shiftLeft_eq] at hor
  rw [UInt16.toNat_or, UInt16.toNat_shiftLeft, UInt8.toNat_toUInt16, UInt8.toNat_toUInt16,
    show (8 : UInt16).toNat % 16 = 8 from rfl, Nat.shiftLeft_eq, Nat.mod_eq_of_lt (by omega)]
  exact hor.symm

theorem codeUnitFromBytesUtf16_eq (bigEndian : Bool) (a b : UInt8) :
    TextDecoder.codeUnitFromBytesUtf16 bigEndian a.toUInt16 b.toUInt16 = unitOf bigEndian a b := by
  cases bigEndian with
  | true => exact (Utf16.ofNat_toNat (shift_or_toNat a b).symm).symm
  | false =>
    refine (Utf16.ofNat_toNat ?_).symm
    change a.toNat + b.toNat * 256 = (a.toUInt16 ||| (b.toUInt16 <<< 8)).toNat
    rw [UInt16.or_comm, shift_or_toNat]
    exact Nat.add_comm _ _

namespace TextDecoder

/-- The decoder with the state of the standard's decoder. -/
def carry (d : TextDecoder) (s : State) : TextDecoder :=
  { d with leadByte := s.leadByte, leadSurrogate := s.leadSurrogate.map (·.1) }

variable {bigEndian : Bool} {d : TextDecoder}

@[simp] theorem carry_carry (s t : State) : (d.carry s).carry t = d.carry t := rfl

theorem unpaired_carry (leadByte : Option UInt8) (output : List UInt16) (sawError : Bool)
    (unit : UInt16) :
    processCodeUnitUtf16.unpaired unit (d.carry ⟨leadByte, none⟩) output sawError =
      (d.carry ⟨leadByte, (Utf16.first unit).2⟩, output ++ units (Utf16.first unit).1,
        sawError || decide (.error ∈ (Utf16.first unit).1)) := by
  rw [processCodeUnitUtf16.unpaired, Utf16.first]
  by_cases hlead : Lead unit
  · rw [if_pos ((u16IsLead_iff unit).mpr hlead), dif_pos hlead]
    simp [carry]
  · rw [if_neg (mt (u16IsLead_iff unit).mp hlead), dif_neg hlead]
    by_cases htrail : Trail unit
    · rw [if_pos ((u16IsTrail_iff unit).mpr htrail), if_pos htrail]
      simp [units_cons, Decoded.units]
    · rw [if_neg (mt (u16IsTrail_iff unit).mp htrail), if_neg htrail]
      simp [units_cons, Utf16.units_scalar]

theorem processCodeUnitUtf16_carry (s : State) (output : List UInt16) (sawError : Bool)
    (unit : UInt16) :
    (d.carry s).processCodeUnitUtf16 output sawError unit =
      (d.carry ⟨s.leadByte, (Utf16.next s.leadSurrogate unit).2⟩,
        output ++ units (Utf16.next s.leadSurrogate unit).1,
        sawError || decide (.error ∈ (Utf16.next s.leadSurrogate unit).1)) := by
  obtain ⟨leadByte, leadSurrogate⟩ := s
  cases leadSurrogate with
  | none => exact unpaired_carry leadByte output sawError unit
  | some lead =>
    change (if u16IsTrail unit then _ else _) = _
    rw [Utf16.next]
    by_cases htrail : Trail unit
    · rw [if_pos ((u16IsTrail_iff unit).mpr htrail), if_pos htrail]
      simp [units_cons, Utf16.units_pair lead.2 htrail, carry]
    · rw [if_neg (mt (u16IsTrail_iff unit).mp htrail), if_neg htrail]
      refine (unpaired_carry leadByte (output ++ [0xFFFD]) true unit).trans ?_
      simp [units_cons, Decoded.units]

/-- The whole code units of a chunk. -/
theorem decodeUnits_carry : ∀ (bytes : Bytes) (leadSurrogate : Option {unit : UInt16 // Lead unit})
    (output : List UInt16) (sawError : Bool), ∃ leadSurrogate' remain,
      ((decoder bigEndian).run ⟨none, leadSurrogate⟩ bytes).2 = ⟨remain.head?, leadSurrogate'⟩ ∧
      decodeUnits bigEndian (d.carry ⟨none, leadSurrogate⟩) output sawError bytes =
        (d.carry ⟨none, leadSurrogate'⟩,
          output ++ units ((decoder bigEndian).run ⟨none, leadSurrogate⟩ bytes).1,
          sawError || decide (.error ∈ ((decoder bigEndian).run ⟨none, leadSurrogate⟩ bytes).1),
          remain)
  | [], ls, output, sawError => ⟨ls, [], rfl, by simp [decodeUnits]⟩
  | [a], ls, output, sawError =>
    ⟨ls, [a], rfl, by simp [decodeUnits, Transducer.run_cons, decoder]⟩
  | a :: b :: bytes, ls, output, sawError => by
    obtain ⟨ls', remain, hstate, hunits⟩ := decodeUnits_carry bytes
      (Utf16.next ls (unitOf bigEndian a b)).2
      (output ++ units (Utf16.next ls (unitOf bigEndian a b)).1)
      (sawError || decide (.error ∈ (Utf16.next ls (unitOf bigEndian a b)).1))
    rw [Utf16.run_unit]
    refine ⟨ls', remain, hstate, ?_⟩
    rw [decodeUnits, codeUnitFromBytesUtf16_eq, processCodeUnitUtf16_carry]
    refine hunits.trans ?_
    simp only [units_append, List.append_assoc, List.mem_append, Bool.decide_or, Bool.or_assoc]

/-- The end of a chunk. -/
theorem flushCarried_carry {flush : Bool} {s : State} (out : List Decoded) :
    flushCarried flush (d.carry s) (units out) (decide (.error ∈ out)) =
      (d.carry (if flush then (decoder bigEndian).start else s),
        units (if flush then out ++ (decoder bigEndian).finish s else out),
        decide (.error ∈ if flush then out ++ (decoder bigEndian).finish s else out)) := by
  rw [flushCarried]
  have hsurrogate : (d.carry s).leadSurrogate.isSome = s.leadSurrogate.isSome :=
    Option.isSome_map
  rw [show (d.carry s).leadByte = s.leadByte from rfl, hsurrogate]
  cases flush with
  | false => rfl
  | true =>
    have hfinish : (decoder bigEndian).finish s =
      if s.leadByte.isSome || s.leadSurrogate.isSome then [.error] else [] := rfl
    rw [Bool.true_and, if_pos rfl, if_pos rfl, hfinish]
    cases hpending : s.leadByte.isSome || s.leadSurrogate.isSome with
    | true =>
      rw [if_pos rfl, if_pos rfl, units_append]
      simp [decoder, carry, units_cons, Decoded.units]
    | false =>
      obtain ⟨hbyte, hunit⟩ := Bool.or_eq_false_iff.mp hpending
      rw [Option.isSome_eq_false_iff, Option.isNone_iff_eq_none] at hbyte hunit
      obtain ⟨leadByte, leadSurrogate⟩ := s
      obtain rfl : leadByte = none := hbyte
      obtain rfl : leadSurrogate = none := hunit
      rw [if_neg Bool.false_ne_true, if_neg Bool.false_ne_true, List.append_nil]
      rfl

/-- A chunk is decoded as the standard's decoder does. -/
theorem decodeUtf16_carry (flush : Bool) (s : State) (bytes : Bytes) :
    decodeUtf16 bigEndian flush (d.carry s) bytes =
      (d.carry ((decoder bigEndian).read flush s bytes).2,
        units ((decoder bigEndian).read flush s bytes).1,
        decide (.error ∈ ((decoder bigEndian).read flush s bytes).1)) := by
  have hwhole (bytes : Bytes) (leadSurrogate : Option {unit : UInt16 // Lead unit}) :
      decodeUtf16 bigEndian flush (d.carry ⟨none, leadSurrogate⟩) bytes =
        (d.carry ((decoder bigEndian).read flush ⟨none, leadSurrogate⟩ bytes).2,
          units ((decoder bigEndian).read flush ⟨none, leadSurrogate⟩ bytes).1,
          decide (.error ∈ ((decoder bigEndian).read flush ⟨none, leadSurrogate⟩ bytes).1)) := by
    obtain ⟨leadSurrogate', remain, hstate, hunits⟩ :=
      decodeUnits_carry (d := d) bytes leadSurrogate [] false
    have hcarried : decodeCarried bigEndian (d.carry ⟨none, leadSurrogate⟩) bytes =
      (d.carry ⟨none, leadSurrogate⟩, [], false, bytes) := rfl
    rw [decodeUtf16, hcarried]
    dsimp only
    have hremain : (d.carry ⟨none, leadSurrogate'⟩).carryRemain remain =
        d.carry ⟨remain.head?, leadSurrogate'⟩ := by
      cases remain <;> rfl
    rw [hunits, Transducer.read_eq, hstate, List.nil_append, Bool.false_or, hremain]
    exact flushCarried_carry _
  obtain ⟨leadByte, leadSurrogate⟩ := s
  cases leadByte with
  | none => exact hwhole bytes leadSurrogate
  | some a =>
    cases bytes with
    | nil =>
      rw [Transducer.read_eq]
      exact flushCarried_carry []
    | cons b bytes =>
      have hread : (decoder bigEndian).read flush ⟨some a, leadSurrogate⟩ (b :: bytes) =
          (decoder bigEndian).read flush ⟨none, leadSurrogate⟩ (a :: b :: bytes) := by
        rw [Transducer.read_eq, Transducer.read_eq, Utf16.run_carried]
      rw [hread]
      exact hwhole (a :: b :: bytes) leadSurrogate

end TextDecoder

end OhosBun.Webcore
