/-
# `OhosBun.Webcore.Chunks` — one chunk of a stream

After a part of a stream the decoder holds what the decoder of the Encoding Standard is
still reading, and knows whether the stream's first code point has been seen.  `Stands` is
that, with the part of the stream as a ghost; it says of one more chunk what is decoded
(`Decodes`), and holds behind the chunk.
-/
import OhosBun.Webcore.Conversion
import OhosBun.Webcore.CodeUnits

namespace OhosBun.Webcore

open OhosBun.Lib

/-! ## The text of a stream -/

/-- What the standard's decoder of an encoding writes for its input. -/
def EncodingLabel.decoded : EncodingLabel → Bytes → List Decoded
  | .utf8, bytes => Utf8.decoder.translate bytes
  | .utf16Le, bytes => (Utf16.decoder false).translate bytes
  | .utf16Be, bytes => (Utf16.decoder true).translate bytes

/-- The input is ill-formed. -/
def EncodingLabel.IllFormed (encoding : EncodingLabel) (bytes : Bytes) : Prop :=
  .error ∈ encoding.decoded bytes

instance (encoding : EncodingLabel) (bytes : Bytes) : Decidable (encoding.IllFormed bytes) :=
  inferInstanceAs (Decidable (.error ∈ encoding.decoded bytes))

/-- One byte order mark in front is dropped. -/
def dropBom : List Decoded → List Decoded
  | .scalar 0xFEFF :: out => out
  | out => out

/-- The code units of a stream. -/
def EncodingLabel.text (encoding : EncodingLabel) (ignoreBom : Bool) (bytes : Bytes) :
    List UInt16 :=
  units (if ignoreBom then encoding.decoded bytes else dropBom (encoding.decoded bytes))

/-- The name of an encoding in what is thrown. -/
def EncodingLabel.label : EncodingLabel → String
  | .utf8 => "utf-8"
  | .utf16Le => "utf-16le"
  | .utf16Be => "utf-16be"

/-- What is shown of the items behind others. -/
def shown (ignoreBom : Bool) (before out : List Decoded) : List Decoded :=
  if ignoreBom ∨ before ≠ [] then out else dropBom out

@[simp] theorem shown_ignore (before out : List Decoded) : shown true before out = out :=
  if_pos (.inl rfl)

theorem shown_behind (ignoreBom : Bool) {before : List Decoded} (h : before ≠ [])
    (out : List Decoded) : shown ignoreBom before out = out := if_pos (.inr h)

@[simp] theorem shown_first (out : List Decoded) : shown false [] out = dropBom out := rfl

theorem dropBom_cons_append (d : Decoded) (a b : List Decoded) :
    dropBom (d :: a ++ b) = dropBom (d :: a) ++ b := by
  by_cases h : d = .scalar 0xFEFF
  · subst h
    rfl
  · have hkeep (out : List Decoded) : dropBom (d :: out) = d :: out := by
      rw [dropBom]
      rintro _ hd
      exact absurd (List.cons.inj hd).1 h
    rw [List.cons_append, hkeep, hkeep, List.cons_append]

theorem shown_append (ignoreBom : Bool) (before a b : List Decoded) :
    shown ignoreBom before (a ++ b) =
      shown ignoreBom before a ++ shown ignoreBom (before ++ a) b := by
  unfold shown
  by_cases h : ignoreBom = true ∨ before ≠ []
  · rw [if_pos h, if_pos h, if_pos (h.imp_right fun h => List.append_ne_nil_of_left_ne_nil h a)]
  · obtain ⟨hignore, hbefore⟩ := not_or.mp h
    obtain rfl := not_not.mp hbefore
    rw [if_neg h, if_neg h, List.nil_append]
    cases a with
    | nil =>
      rw [if_neg h]
      rfl
    | cons d a => rw [if_pos (.inr (List.cons_ne_nil d a)), dropBom_cons_append]

/-- What one chunk has to give, for a relation `R` of decoders and what they have read. -/
def Decodes {σ : Type} (simdutf : Simdutf) (m : Transducer σ UInt8 Decoded)
    (R : Bytes → TextDecoder → Prop) : Prop :=
  ∀ before d flush chunk, R before d →
    if d.fatal ∧ .error ∈ (m.read flush (m.run m.start before).2 chunk).1 then
      (d.decodeSlice simdutf flush chunk).1 = .err (TextDecoder.invalidData d.encoding.label)
    else
      (d.decodeSlice simdutf flush chunk).1 = .ok (units (shown d.ignoreBom
        (m.run m.start before).1 (m.read flush (m.run m.start before).2 chunk).1)) ∧
      (flush = false → R (before ++ chunk) (d.decodeSlice simdutf flush chunk).2)

/-! ## UTF-16 -/

/-- An item that is a code point. -/
def Decoded.InRange (d : Decoded) : Prop := ∀ c, d = .scalar c → c ≤ 0x10FFFF

theorem inRange_read_utf16 (bigEndian last : Bool) (s : Utf16.State) (bytes : Bytes) :
    ∀ d ∈ ((Utf16.decoder bigEndian).read last s bytes).1, Decoded.InRange d := by
  have herror : Decoded.InRange .error := fun _ h => absurd h (by simp)
  have hfirst (unit : UInt16) : ∀ d ∈ (Utf16.first unit).1, Decoded.InRange d := by
    intro d hd
    rw [Utf16.first] at hd
    split at hd
    · exact absurd hd List.not_mem_nil
    · split at hd
      · exact List.mem_singleton.mp hd ▸ herror
      · rintro c rfl
        have hc := Decoded.scalar.inj (List.mem_singleton.mp hd)
        have hlt := unit.toNat_lt
        omega
  refine Transducer.forall_mem_read _ ?_ ?_ last s bytes
  · rintro ⟨leadByte, leadSurrogate⟩ b d hd
    cases leadByte with
    | none => exact absurd hd List.not_mem_nil
    | some a =>
      change d ∈ (Utf16.next leadSurrogate (Utf16.unitOf bigEndian a b)).1 at hd
      cases leadSurrogate with
      | none => exact hfirst _ d hd
      | some lead =>
        rw [Utf16.next] at hd
        split at hd
        · next htrail =>
            rintro c rfl
            rw [Decoded.scalar.inj (List.mem_singleton.mp hd)]
            exact Utf16.pair_le lead.2 htrail
        · exact (List.mem_cons.mp hd).elim (fun h => h ▸ herror) (hfirst _ d)
  · intro s d hd
    change d ∈ (if s.leadByte.isSome || s.leadSurrogate.isSome then [Decoded.error] else []) at hd
    split at hd
    · exact List.mem_singleton.mp hd ▸ herror
    · exact absurd hd List.not_mem_nil

variable {out : List Decoded} {bytes : Bytes}

theorem units_eq_nil : units out = [] ↔ out = [] := by
  cases out with
  | nil => simp
  | cons d out =>
    rw [units_cons]
    cases d with
    | error => simp [Decoded.units]
    | scalar c =>
      rw [Decoded.units]
      split <;> simp

theorem head_units {d : Decoded} (hd : Decoded.InRange d) :
    d.units.head? = some 0xFEFF ↔ d = .scalar 0xFEFF := by
  cases d with
  | error => simp [Decoded.units]
  | scalar c =>
    have hc := hd c rfl
    rw [Decoded.units, Decoded.scalar.injEq]
    split
    · rw [List.head?_cons, Option.some.injEq, ← UInt16.toNat_inj, UInt16.toNat_ofNat',
        show (0xFEFF : UInt16).toNat = 0xFEFF from rfl]
      omega
    · rw [List.head?_cons, Option.some.injEq, ← UInt16.toNat_inj, UInt16.toNat_ofNat',
        show (0xFEFF : UInt16).toNat = 0xFEFF from rfl]
      omega

/-- The byte order mark among the code units. -/
theorem units_dropBom (h : ∀ d ∈ out, Decoded.InRange d) :
    units (dropBom out) =
      if (units out).head? = some 0xFEFF then (units out).tail else units out := by
  cases out with
  | nil => rfl
  | cons d out =>
    have hd := head_units (h d List.mem_cons_self)
    have hne : d.units ≠ [] := by
      cases d with
      | error => exact List.cons_ne_nil _ _
      | scalar c =>
        rw [Decoded.units]
        split <;> exact List.cons_ne_nil _ _
    rw [units_cons, List.head?_append_of_ne_nil _ hne]
    by_cases hbom : d = .scalar 0xFEFF
    · subst hbom
      rfl
    · rw [if_neg (mt hd.mp hbom), ← units_cons, dropBom]
      rintro _ hcons
      exact hbom (List.cons.inj hcons).1

/-- The decoder behind a part of a stream in UTF-16. -/
structure StandsUtf16 (bigEndian : Bool) (before : Bytes) (d : TextDecoder) : Prop where
  encoding : d.encoding = if bigEndian then .utf16Be else .utf16Le
  carried : d.carry ((Utf16.decoder bigEndian).run ⟨none, none⟩ before).2 = d
  bomSeen : d.ignoreBom = false →
    (d.bomSeen = true ↔ ((Utf16.decoder bigEndian).run ⟨none, none⟩ before).1 ≠ [])

theorem read_utf16Bom (bigEndian last : Bool) (rest : Bytes) :
    (Utf16.decoder bigEndian).read last ⟨none, none⟩ (TextDecoder.utf16Bom bigEndian ++ rest) =
      (.scalar 0xFEFF :: ((Utf16.decoder bigEndian).read last ⟨none, none⟩ rest).1,
        ((Utf16.decoder bigEndian).read last ⟨none, none⟩ rest).2) := by
  have hrun : (Utf16.decoder bigEndian).run ⟨none, none⟩ (TextDecoder.utf16Bom bigEndian) =
      ([.scalar 0xFEFF], ⟨none, none⟩) := by
    cases bigEndian <;> decide
  rw [Transducer.read_append, hrun]
  rfl

section Utf16
variable {simdutf : Simdutf} {bigEndian flush : Bool} {chunk : Bytes} {d : TextDecoder}
  {s : Utf16.State}

/-- What a call does with a chunk. -/
theorem decodeUtf16Slice_eq (hd : d.carry s = d) {w : List Decoded × Utf16.State}
    (hw : (Utf16.decoder bigEndian).read flush s
      (if d.preStripped bigEndian chunk then chunk.drop 2 else chunk) = w) :
    d.decodeUtf16Slice bigEndian flush chunk =
      if decide (.error ∈ w.1) && d.fatal then
        (.err (TextDecoder.invalidData (if bigEndian then "utf-16be" else "utf-16le")), d.carry w.2)
      else if d.preStripped bigEndian chunk then
        (.ok (units w.1), { d.carry w.2 with bomSeen := true })
      else if !d.ignoreBom && !d.bomSeen && !(units w.1).isEmpty then
        (.ok (if (units w.1).head? = some 0xFEFF then (units w.1).tail else units w.1),
          { d.carry w.2 with bomSeen := true })
      else (.ok (units w.1), d.carry w.2) := by
  have hdecode := @TextDecoder.decodeUtf16_carry bigEndian d flush s
    (if d.preStripped bigEndian chunk then chunk.drop 2 else chunk)
  rw [hd, hw] at hdecode
  rw [TextDecoder.decodeUtf16Slice, hdecode]
  rfl

theorem of_preStripped (h : d.preStripped bigEndian chunk = true) :
    d.ignoreBom = false ∧ d.bomSeen = false ∧ d.leadByte = none ∧ d.leadSurrogate = none ∧
      ∃ rest, chunk = TextDecoder.utf16Bom bigEndian ++ rest := by
  simp only [TextDecoder.preStripped, Bool.and_eq_true, Bool.not_eq_true', Option.isNone_iff_eq_none,
    List.isPrefixOf_iff_prefix] at h
  obtain ⟨⟨⟨⟨hignore, hseen⟩, hbyte⟩, hunit⟩, rest, hrest⟩ := h
  exact ⟨hignore, hseen, hbyte, hunit, rest, hrest.symm⟩

/-- What stands behind a chunk. -/
theorem StandsUtf16.behind {before : Bytes} {d' : TextDecoder} (h : StandsUtf16 bigEndian before d)
    (hencoding : d'.encoding = d.encoding) {w : List Decoded × Utf16.State}
    (hw : (Utf16.decoder bigEndian).run ((Utf16.decoder bigEndian).run ⟨none, none⟩ before).2 chunk =
      w) (hcarried : d'.carry w.2 = d') (hignore : d'.ignoreBom = d.ignoreBom)
    (hseen : d.ignoreBom = false → (d'.bomSeen = true ↔
      ((Utf16.decoder bigEndian).run ⟨none, none⟩ before).1 ++ w.1 ≠ [])) :
    StandsUtf16 bigEndian (before ++ chunk) d' where
  encoding := hencoding.trans h.encoding
  carried := by
    rw [Transducer.run_append, hw]
    exact hcarried
  bomSeen h' := by
    rw [Transducer.run_append, hw]
    exact hseen (hignore.symm.trans h')

/-- A chunk of a stream in UTF-16. -/
theorem decodes_utf16 : Decodes simdutf (Utf16.decoder bigEndian) (StandsUtf16 bigEndian) := by
  intro before d flush chunk h
  have hslice : d.decodeSlice simdutf flush chunk = d.decodeUtf16Slice bigEndian flush chunk := by
    rw [TextDecoder.decodeSlice, h.encoding]
    cases bigEndian <;> rfl
  have hlabel : (if bigEndian then "utf-16be" else "utf-16le") = d.encoding.label := by
    rw [h.encoding]
    cases bigEndian <;> rfl
  rw [hslice, show (Utf16.decoder bigEndian).start = ⟨none, none⟩ from rfl]
  cases hpre : d.preStripped bigEndian chunk with
  | true =>
    obtain ⟨hignore, hseen, hbyte, hunit, rest, rfl⟩ := of_preStripped hpre
    have hnothing : ((Utf16.decoder bigEndian).run ⟨none, none⟩ before).1 = [] := by
      by_contra hne
      rw [(h.bomSeen hignore).mpr hne] at hseen
      exact Bool.noConfusion hseen
    have hstart : ((Utf16.decoder bigEndian).run ⟨none, none⟩ before).2 = ⟨none, none⟩ := by
      have hcarried := h.carried
      generalize ((Utf16.decoder bigEndian).run ⟨none, none⟩ before).2 = s at hcarried
      obtain ⟨leadByte, leadSurrogate⟩ := s
      obtain rfl : leadByte = none := (congrArg TextDecoder.leadByte hcarried).trans hbyte
      have hnone := (congrArg TextDecoder.leadSurrogate hcarried).trans hunit
      obtain rfl : leadSurrogate = none := Option.map_eq_none_iff.mp hnone
      rfl
    obtain ⟨w, hw⟩ : ∃ w, (Utf16.decoder bigEndian).read flush ⟨none, none⟩ rest = w := ⟨_, rfl⟩
    have hwhole := read_utf16Bom bigEndian flush rest
    rw [hw] at hwhole
    have hinput : (Utf16.decoder bigEndian).read flush ⟨none, none⟩
        (if d.preStripped bigEndian (TextDecoder.utf16Bom bigEndian ++ rest) then
          (TextDecoder.utf16Bom bigEndian ++ rest).drop 2
        else TextDecoder.utf16Bom bigEndian ++ rest) = w := by
      rw [hpre, if_pos rfl, ← hw]
      cases bigEndian <;> rfl
    have hcarried := h.carried
    rw [hstart] at hcarried
    have hmem : .error ∈ Decoded.scalar 0xFEFF :: w.1 ↔ .error ∈ w.1 := by simp
    rw [hnothing, hstart, hwhole, decodeUtf16Slice_eq hcarried hinput, hpre, hlabel]
    by_cases hbad : d.fatal ∧ .error ∈ w.1
    · rw [if_pos ⟨hbad.1, hmem.mpr hbad.2⟩, if_pos (by simp [hbad])]
    · rw [if_neg fun h => hbad ⟨h.1, hmem.mp h.2⟩, if_neg (by simpa [and_comm] using hbad),
        if_pos rfl]
      refine ⟨?_, ?_⟩
      · rw [hignore]
        rfl
      · rintro rfl
        rw [← hstart] at hwhole
        refine h.behind rfl hwhole rfl rfl fun _ => ?_
        simp
  | false =>
    obtain ⟨w, hw⟩ : ∃ w, (Utf16.decoder bigEndian).read flush
      ((Utf16.decoder bigEndian).run ⟨none, none⟩ before).2 chunk = w := ⟨_, rfl⟩
    have hinput := hw
    rw [← if_neg (c := d.preStripped bigEndian chunk = true) (by simp [hpre])
      (t := chunk.drop 2) (e := chunk)] at hinput
    rw [hw, decodeUtf16Slice_eq h.carried hinput, hpre, hlabel]
    by_cases hbad : d.fatal ∧ .error ∈ w.1
    · rw [if_pos hbad, if_pos (by simp [hbad])]
    · rw [if_neg hbad, if_neg (by simpa [and_comm] using hbad), if_neg Bool.false_ne_true]
      cases hignore : d.ignoreBom with
      | true =>
        refine ⟨?_, ?_⟩
        · simp
        · rintro rfl
          exact h.behind rfl hw rfl rfl fun h' => Bool.noConfusion (hignore.symm.trans h')
      | false =>
        have hiff := h.bomSeen hignore
        cases hseen : d.bomSeen with
        | true =>
          rw [hseen] at hiff
          refine ⟨?_, ?_⟩
          · rw [shown_behind _ (hiff.mp rfl)]
            simp
          · rintro rfl
            refine h.behind rfl hw rfl rfl fun _ => ?_
            exact iff_of_true hseen (List.append_ne_nil_of_left_ne_nil (hiff.mp rfl) _)
        | false =>
          rw [hseen] at hiff
          have hnothing : ((Utf16.decoder bigEndian).run ⟨none, none⟩ before).1 = [] := by
            by_contra hne
            exact Bool.false_ne_true (hiff.mpr hne)
          by_cases hempty : w.1 = []
          · have hcond : ¬ (!false && !false && !(units w.1).isEmpty) = true := by simp [hempty]
            rw [if_neg hcond, hnothing]
            refine ⟨?_, ?_⟩
            · rw [hempty]
              rfl
            · rintro rfl
              refine h.behind rfl hw rfl rfl fun _ => ?_
              exact iff_of_false (by simp [TextDecoder.carry, hseen]) (by simp [hnothing, hempty])
          · have hrange := inRange_read_utf16 bigEndian flush
              ((Utf16.decoder bigEndian).run ⟨none, none⟩ before).2 chunk
            rw [hw] at hrange
            have hcond : (!false && !false && !(units w.1).isEmpty) = true := by
              simp [hempty, units_eq_nil]
            rw [if_pos hcond, hnothing]
            refine ⟨?_, ?_⟩
            · rw [shown_first, units_dropBom hrange]
            · rintro rfl
              refine h.behind rfl hw rfl rfl fun _ => ?_
              exact iff_of_true rfl (List.append_ne_nil_of_right_ne_nil _ hempty)

end Utf16

/-! ## UTF-8 -/

/-- A part of a stream that may be the start of a byte order mark. -/
def Ambiguous (before : Bytes) : Prop :=
  before <+: TextDecoder.utf8Bom ∧ before ≠ TextDecoder.utf8Bom

/-- The decoder behind a part of a stream in UTF-8. -/
structure StandsUtf8 (before : Bytes) (d : TextDecoder) : Prop where
  encoding : d.encoding = .utf8
  pending : Utf8.decoder.run none d.buffered.1 = ([], (Utf8.decoder.run none before).2)
  seen : d.ignoreBom = false → d.bomSeen = true → ¬ Ambiguous before
  ahead : d.ignoreBom = false → d.bomSeen = false → Ambiguous before ∧ d.buffered.1 = before

theorem encode_bom : String.utf8EncodeChar (Char.ofNat 0xFEFF) = TextDecoder.utf8Bom := by decide

theorem run_bom (rest : Bytes) : Utf8.decoder.run none (TextDecoder.utf8Bom ++ rest) =
    (.scalar 0xFEFF :: (Utf8.decoder.run none rest).1, (Utf8.decoder.run none rest).2) := by
  rw [← encode_bom]
  exact Utf8.run_encodeChar _ rest

/-- The byte order mark is read from its bytes only. -/
theorem prefix_bom {last : Bool} (h : (Utf8.decoder.read last none bytes).1 = .scalar 0xFEFF :: out) :
    TextDecoder.utf8Bom <+: bytes := by
  obtain ⟨char, rest, rfl, hchar⟩ := Utf8.exists_encodeChar_append h
  obtain rfl : char = Char.ofNat 0xFEFF := Char.ext (UInt32.toNat_inj.mp hchar)
  rw [encode_bom]
  exact List.prefix_append _ _

theorem dropBom_eq_self (h : ∀ rest, out ≠ .scalar 0xFEFF :: rest) :
    dropBom out = out := by
  rw [dropBom]
  exact h

theorem Ambiguous.of_append {before chunk : Bytes} (h : Ambiguous (before ++ chunk)) :
    Ambiguous before := by
  obtain ⟨hpre, hne⟩ := h
  refine ⟨(List.prefix_append before chunk).trans hpre, ?_⟩
  rintro rfl
  have hlen := hpre.length_le
  rw [List.length_append] at hlen
  obtain rfl : chunk = [] := List.eq_nil_of_length_eq_zero (by omega)
  exact hne (List.append_nil _)

/-- Of a part that may start the mark, all is still being read. -/
theorem Ambiguous.eq_of_suffix {left : Bytes} (h : Ambiguous bytes) (hsuffix : left <:+ bytes)
    (hleft : Utf8.decoder.run none left = ([], (Utf8.decoder.run none bytes).2)) : left = bytes := by
  obtain ⟨hpre, hne⟩ := h
  have hlen := hpre.length_le
  have htake := List.prefix_iff_eq_take.mp hpre
  have hdrop := List.suffix_iff_eq_drop.mp hsuffix
  generalize hn : bytes.length = n at hlen htake hdrop
  generalize hk : n - left.length = k at hdrop
  have hlt : n < 3 := by
    refine Nat.lt_of_le_of_ne hlen ?_
    rintro rfl
    exact hne htake
  have hall : ∀ n < 3, ∀ k ≤ n, k = 0 ∨ Utf8.decoder.run none ((TextDecoder.utf8Bom.take n).drop k) ≠
      ([], (Utf8.decoder.run none (TextDecoder.utf8Bom.take n)).2) := by
    decide
  rcases hall n hlt k (by omega) with rfl | hrun
  · rw [hdrop, List.drop_zero]
  · subst hdrop
    subst htake
    exact absurd hleft hrun

section Utf8
variable {simdutf : Simdutf} {flush : Bool} {chunk : Bytes} {d : TextDecoder}

variable {setBomSeen : Bool} {input : Bytes} {w : List Decoded × Option Utf8.Sequence}

/-- What a call does with a chunk. -/
theorem decodeUtf8_eq (hsound : simdutf.Sound)
    (hbom : d.bomInput (d.buffered.1 ++ chunk) = (setBomSeen, input))
    (hw : Utf8.decoder.read flush none input = w) :
    if d.fatal ∧ .error ∈ w.1 then
      (d.decodeUtf8 simdutf flush chunk).1 = .err (TextDecoder.invalidData "utf-8")
    else (d.decodeUtf8 simdutf flush chunk).1 = .ok (units w.1) ∧
      (flush = false → ∃ left : Buffered, left.1 <:+ input ∧ Utf8.decoder.run none left.1 = ([], w.2) ∧
        (d.decodeUtf8 simdutf flush chunk).2 =
          { d with buffered := left, bomSeen := setBomSeen || d.bomSeen }) := by
  have hconverts := @converts_toUtf16AllocMaybeBuffered d.fatal flush input _ hsound
  unfold Converts at hconverts
  rw [hw] at hconverts
  have hbom' : { d with buffered := default }.bomInput (d.buffered.1 ++ chunk) =
    (setBomSeen, input) := hbom
  unfold TextDecoder.decodeUtf8
  dsimp only
  rw [hbom']
  dsimp only
  by_cases hbad : d.fatal ∧ .error ∈ w.1
  · rw [if_pos hbad] at hconverts ⊢
    rw [hconverts]
  · rw [if_neg hbad] at hconverts ⊢
    obtain ⟨r, hr, htext, hsuffix, hleft⟩ := hconverts
    rw [hr]
    cases r with
    | none =>
      refine ⟨congrArg Outcome.ok htext, ?_⟩
      rintro rfl
      refine ⟨default, hsuffix, hleft, ?_⟩
      cases setBomSeen <;> rfl
    | some r =>
      refine ⟨congrArg Outcome.ok htext, ?_⟩
      rintro rfl
      refine ⟨r.2, hsuffix, hleft, ?_⟩
      cases setBomSeen <;> rfl

variable {before : Bytes}

/-- The bytes that have been buffered are read again with the chunk. -/
theorem StandsUtf8.read_joined (h : StandsUtf8 before d) :
    Utf8.decoder.read flush none (d.buffered.1 ++ chunk) =
      Utf8.decoder.read flush (Utf8.decoder.run none before).2 chunk := by
  have hread := @Transducer.read_of_run _ _ _ Utf8.decoder _ _ _ chunk _ h.pending flush
  rw [hread]
  rfl

/-- A part of the stream that does not start with the mark shows no mark behind it. -/
theorem StandsUtf8.shown_behind (h : ¬ Ambiguous before) (ignoreBom : Bool) :
    shown ignoreBom (Utf8.decoder.run none before).1
        (Utf8.decoder.read flush (Utf8.decoder.run none before).2 chunk).1 =
      (Utf8.decoder.read flush (Utf8.decoder.run none before).2 chunk).1 := by
  by_cases hnone : (Utf8.decoder.run none before).1 = []
  · cases ignoreBom with
    | true => exact shown_ignore _ _
    | false =>
      rw [hnone, shown_first]
      refine dropBom_eq_self fun out hout => ?_
      have hwhole : (Utf8.decoder.read flush none (before ++ chunk)).1 = .scalar 0xFEFF :: out := by
        rw [Transducer.read_append, hnone, hout]
        rfl
      have hpre : TextDecoder.utf8Bom <+: before → False := by
        rintro ⟨rest, rfl⟩
        rw [run_bom] at hnone
        exact List.cons_ne_nil _ _ hnone
      rcases List.prefix_or_prefix_of_prefix (prefix_bom hwhole) (List.prefix_append before chunk)
        with hbom | hbefore
      · exact hpre hbom
      · refine h ⟨hbefore, ?_⟩
        rintro rfl
        exact hpre (List.prefix_refl _)
  · exact OhosBun.Webcore.shown_behind ignoreBom hnone _

/-- What stands behind a chunk. -/
theorem StandsUtf8.behind (h : StandsUtf8 before d) {left : Buffered} {bomSeen : Bool}
    (hleft : Utf8.decoder.run none left.1 =
      ([], (Utf8.decoder.run (Utf8.decoder.run none before).2 chunk).2))
    (hseen : d.ignoreBom = false → bomSeen = true → ¬ Ambiguous (before ++ chunk))
    (hahead : d.ignoreBom = false → bomSeen = false →
      Ambiguous (before ++ chunk) ∧ left.1 = before ++ chunk) :
    StandsUtf8 (before ++ chunk) { d with buffered := left, bomSeen := bomSeen } where
  encoding := h.encoding
  pending := by
    rw [Transducer.run_append]
    exact hleft
  seen := hseen
  ahead := hahead

/-- A chunk is decoded as its input is, which has the mark taken off. -/
theorem StandsUtf8.decodes (h : StandsUtf8 before d) (hsound : simdutf.Sound)
    (hbom : d.bomInput (d.buffered.1 ++ chunk) = (setBomSeen, input))
    (hw : Utf8.decoder.read flush (Utf8.decoder.run none before).2 chunk = w) {out : List Decoded}
    (hinput : Utf8.decoder.read flush none input = (out, w.2)) (herror : .error ∈ out ↔ .error ∈ w.1)
    (hshown : shown d.ignoreBom (Utf8.decoder.run none before).1 w.1 = out)
    (hseen : d.ignoreBom = false → (setBomSeen || d.bomSeen) = true → ¬ Ambiguous (before ++ chunk))
    (hahead : d.ignoreBom = false → (setBomSeen || d.bomSeen) = false →
      Ambiguous (before ++ chunk) ∧ input = before ++ chunk) :
    if d.fatal ∧ .error ∈ w.1 then
      (d.decodeUtf8 simdutf flush chunk).1 = .err (TextDecoder.invalidData "utf-8")
    else
      (d.decodeUtf8 simdutf flush chunk).1 =
        .ok (units (shown d.ignoreBom (Utf8.decoder.run none before).1 w.1)) ∧
      (flush = false → StandsUtf8 (before ++ chunk) (d.decodeUtf8 simdutf flush chunk).2) := by
  have hresult := decodeUtf8_eq hsound hbom hinput
  by_cases hbad : d.fatal ∧ .error ∈ w.1
  · rw [if_pos hbad]
    rwa [if_pos ⟨hbad.1, herror.mpr hbad.2⟩] at hresult
  · rw [if_neg hbad]
    rw [if_neg fun h => hbad ⟨h.1, herror.mp h.2⟩] at hresult
    refine ⟨by rw [hresult.1, hshown], ?_⟩
    rintro rfl
    obtain ⟨left, hsuffix, hleft, hstate⟩ := hresult.2 rfl
    rw [Transducer.read_false] at hw hinput
    rw [hstate]
    refine h.behind ?_ hseen fun hignore hnot => ?_
    · rw [hw]
      exact hleft
    · obtain ⟨hambiguous, rfl⟩ := hahead hignore hnot
      refine ⟨hambiguous, hambiguous.eq_of_suffix hsuffix ?_⟩
      rw [hinput]
      exact hleft

/-- A chunk of a stream in UTF-8. -/
theorem decodes_utf8 (hsound : simdutf.Sound) : Decodes simdutf Utf8.decoder StandsUtf8 := by
  intro before d flush chunk h
  have hslice : d.decodeSlice simdutf flush chunk = d.decodeUtf8 simdutf flush chunk := by
    rw [TextDecoder.decodeSlice, h.encoding]
  have hlabel : d.encoding.label = "utf-8" := by
    rw [h.encoding]
    rfl
  rw [hslice, hlabel, show Utf8.decoder.start = none from rfl]
  have hjoined := @StandsUtf8.read_joined flush chunk _ _ h
  by_cases hdecided : (d.ignoreBom || d.bomSeen) = true
  · refine h.decodes hsound (if_pos hdecided) rfl hjoined Iff.rfl ?_ ?_ ?_
    · cases hignore : d.ignoreBom with
      | true => exact shown_ignore _ _
      | false =>
        rw [hignore, Bool.false_or] at hdecided
        exact StandsUtf8.shown_behind (h.seen hignore hdecided) false
    · intro hignore hseen hambiguous
      rw [Bool.false_or] at hseen
      exact h.seen hignore hseen hambiguous.of_append
    · intro hignore hseen
      rw [hignore, Bool.false_or] at hdecided
      rw [Bool.false_or, hdecided] at hseen
      exact Bool.noConfusion hseen
  · obtain ⟨hignore, hseen⟩ := Bool.or_eq_false_iff.mp (Bool.eq_false_iff.mpr hdecided)
    obtain ⟨hambiguous, hbuffered⟩ := h.ahead hignore hseen
    have hnothing : (Utf8.decoder.run none before).1 = [] := by
      have hpending := h.pending
      rw [hbuffered] at hpending
      exact congrArg Prod.fst hpending
    have hinput : d.bomInput (d.buffered.1 ++ chunk) =
        if TextDecoder.utf8Bom.isPrefixOf (before ++ chunk) then
          (true, (before ++ chunk).drop TextDecoder.utf8Bom.length)
        else if (before ++ chunk).isPrefixOf TextDecoder.utf8Bom then (false, before ++ chunk)
        else (true, before ++ chunk) := by
      rw [hbuffered]
      exact if_neg hdecided
    rw [hbuffered] at hjoined
    by_cases hbom : TextDecoder.utf8Bom.isPrefixOf (before ++ chunk) = true
    · rw [if_pos hbom] at hinput
      obtain ⟨rest, hrest⟩ := List.isPrefixOf_iff_prefix.mp hbom
      rw [← hrest, List.drop_left] at hinput
      have hwhole : Utf8.decoder.read flush none (before ++ chunk) =
          (.scalar 0xFEFF :: (Utf8.decoder.read flush none rest).1,
            (Utf8.decoder.read flush none rest).2) := by
        rw [← hrest, Transducer.read_eq, run_bom, Transducer.read_eq]
        cases flush <;> rfl
      rw [hwhole] at hjoined
      rw [← hjoined]
      have hrestRead : Utf8.decoder.read flush none rest =
        ((Utf8.decoder.read flush none rest).1, (Utf8.decoder.read flush none rest).2) := rfl
      refine h.decodes hsound hinput hjoined.symm hrestRead ?_ ?_ ?_ ?_
      · simp
      · rw [hignore, hnothing]
        rfl
      · rintro _ _ ⟨hpre, hne⟩
        exact hne (hpre.eq_of_length_le (List.isPrefixOf_iff_prefix.mp hbom).length_le)
      · exact fun _ h' => Bool.noConfusion h'
    · have hplain : dropBom (Utf8.decoder.read flush (Utf8.decoder.run none before).2 chunk).1 =
          (Utf8.decoder.read flush (Utf8.decoder.run none before).2 chunk).1 := by
        refine dropBom_eq_self fun out hout => hbom ?_
        rw [← hjoined] at hout
        exact List.isPrefixOf_iff_prefix.mpr (prefix_bom hout)
      have hsame : Utf8.decoder.read flush none (before ++ chunk) =
          ((Utf8.decoder.read flush (Utf8.decoder.run none before).2 chunk).1,
            (Utf8.decoder.read flush (Utf8.decoder.run none before).2 chunk).2) := hjoined
      rw [if_neg hbom] at hinput
      by_cases hstart : (before ++ chunk).isPrefixOf TextDecoder.utf8Bom = true
      · rw [if_pos hstart] at hinput
        refine h.decodes hsound hinput rfl hsame Iff.rfl ?_ ?_ ?_
        · rw [hignore, hnothing, shown_first, hplain]
        · intro _ h'
          rw [hseen] at h'
          exact Bool.noConfusion h'
        · intro _ _
          refine ⟨⟨List.isPrefixOf_iff_prefix.mp hstart, fun heq => hbom ?_⟩, rfl⟩
          rw [heq]
          decide
      · rw [if_neg hstart] at hinput
        refine h.decodes hsound hinput rfl hsame Iff.rfl ?_ ?_ ?_
        · rw [hignore, hnothing, shown_first, hplain]
        · exact fun _ _ h' => hstart (List.isPrefixOf_iff_prefix.mpr h'.1)
        · exact fun _ h' => Bool.noConfusion h'

end Utf8

end OhosBun.Webcore
