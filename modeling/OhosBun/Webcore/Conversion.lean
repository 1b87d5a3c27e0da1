/-
# `OhosBun.Webcore.Conversion` — the conversion writes what the UTF-8 decoder writes

One turn of the loop takes off what the decoder of the Encoding Standard writes one item
for: a character, or the maximal part of an ill-formed sequence (`conversion`).  The loop
does so for all of its input (`replaceInvalid_eq`); what it hands back is what the decoder
is still reading.
-/
import OhosBun.Webcore.Unicode
import OhosBun.Lib.Utf8

namespace OhosBun.Webcore

open OhosBun.Lib
open OhosBun.Lib.Utf8 (decoder lead Tail)

/-! ## Bytes -/

theorem lt_iff {a b : UInt8} : a < b ↔ a.toNat < b.toNat := UInt8.lt_iff_toNat_lt

theorem le_iff {a b : UInt8} : a ≤ b ↔ a.toNat ≤ b.toNat := UInt8.le_iff_toNat_le

theorem nonAsciiSequenceLength_eq (b : UInt8) : nonAsciiSequenceLength b =
    if b.toNat ≤ 193 then 0 else if b.toNat ≤ 223 then 2 else if b.toNat ≤ 239 then 3
    else if b.toNat ≤ 244 then 4 else 0 := by
  simp only [nonAsciiSequenceLength, le_iff]
  rfl

/-- A byte behind the second one is checked as the decoder checks it. -/
theorem notTail_iff (b : UInt8) : (b < 0x80 ∨ b > 0xBF) ↔ ¬ Tail b := by
  simp only [lt_iff, gt_iff_lt, Tail, show (0x80 : UInt8).toNat = 0x80 from rfl,
    show (0xBF : UInt8).toNat = 0xBF from rfl]
  omega

theorem not_tail_zero : ¬ Tail 0 := fun h => absurd h.1 (by decide)

theorem eq_iff {a b : UInt8} : a = b ↔ a.toNat = b.toNat := UInt8.toNat_inj.symm

/-- The second byte of three is checked as the decoder checks it. -/
theorem second_three (a b : UInt8) (c : Nat) : (if a = 0xE0 then b < 0xA0 ∨ b > 0xBF
      else if a = 0xED then b < 0x80 ∨ b > 0x9F else b < 0x80 ∨ b > 0xBF) ↔
    ¬ Utf8.Sequence.Continues ⟨c, if a.toNat = 0xE0 then 0xA0 else 0x80,
      if a.toNat = 0xED then 0x9F else 0xBF, 1⟩ b := by
  simp only [Utf8.Sequence.Continues, lt_iff, gt_iff_lt, eq_iff, UInt8.reduceToNat]
  by_cases h : a.toNat = 0xE0
  · simp only [h, if_true, if_false, Nat.reduceEqDiff]
    omega
  · by_cases h' : a.toNat = 0xED
    · simp only [h', if_true, if_false, Nat.reduceEqDiff]
      omega
    · simp only [h, h', if_false]
      omega

/-- The second byte of four is checked as the decoder checks it. -/
theorem second_four (a b : UInt8) (c : Nat) : (if a = 0xF0 then b < 0x90 ∨ b > 0xBF
      else if a = 0xF4 then b < 0x80 ∨ b > 0x8F else b < 0x80 ∨ b > 0xBF) ↔
    ¬ Utf8.Sequence.Continues ⟨c, if a.toNat = 0xF0 then 0x90 else 0x80,
      if a.toNat = 0xF4 then 0x8F else 0xBF, 2⟩ b := by
  simp only [Utf8.Sequence.Continues, lt_iff, gt_iff_lt, eq_iff, UInt8.reduceToNat]
  by_cases h : a.toNat = 0xF0
  · simp only [h, if_true, if_false, Nat.reduceEqDiff]
    omega
  · by_cases h' : a.toNat = 0xF4
    · simp only [h', if_true, if_false, Nat.reduceEqDiff]
      omega
    · simp only [h, h', if_false]
      omega

/-! ## One turn -/

/-- What is taken off the front of the input, against what the decoder does there. -/
inductive Conversion (bytes : Bytes) (length : Nat) (r : Utf16Replacement) : Prop
  /-- A character. -/
  | scalar (hfail : r.fail = false) (hlen : 1 ≤ r.len)
      (hrun : decoder.run none bytes = (.scalar r.codePoint :: (decoder.run none (bytes.drop r.len)).1,
        (decoder.run none (bytes.drop r.len)).2))
  /-- All that is left, a sequence that is cut off. -/
  | short (q : Utf8.Sequence) (hfail : r.fail = true) (hcode : r.codePoint = 0xFFFD)
      (hbuffer : r.canBuffer = true) (hlong : bytes.length < length) (hlen : r.len = bytes.length)
      (hrun : decoder.run none bytes = ([], some q))
  /-- An ill-formed sequence. -/
  | error (hfail : r.fail = true) (hcode : r.codePoint = 0xFFFD)
      (hbuffer : ¬ (r.canBuffer = true ∧ bytes.length < length)) (hlen : 1 ≤ r.len)
      (hrun : decoder.run none bytes = (.error :: (decoder.run none (bytes.drop r.len)).1,
        (decoder.run none (bytes.drop r.len)).2))

variable {b : UInt8} {tail : Bytes}

theorem conversion_invalid (hb : ¬ b.toNat < 0x80) (hlead : lead b.toNat = none) (n : Nat) :
    Conversion (b :: tail) 0 (convertUtf8BytesIntoUtf16WithLength (sequenceOf (b :: tail)) 0 n) := by
  refine .error rfl rfl ?_ (Nat.le_refl 1) ?_
  · rintro ⟨-, h⟩
    exact absurd h (Nat.not_lt_zero _)
  · exact Utf8.run_invalid _ hb hlead

section Convert
variable {s : Fin 4 → UInt8} {n : Nat}

/-- The conversion of two bytes. -/
theorem convert_two : convertUtf8BytesIntoUtf16WithLength s 2 n =
    if Tail (s 1) then
      ({ len := 2, codePoint := ((s 0).toNat <<< 6) + (s 1).toNat - 0x3080 } : Utf16Replacement)
    else { len := 1, fail := true, canBuffer := n < 2 } := by
  rw [← ite_not, ← if_congr (notTail_iff (s 1)) rfl rfl]
  rfl

/-- The conversion of three bytes. -/
theorem convert_three : convertUtf8BytesIntoUtf16WithLength s 3 n =
    if Utf8.Sequence.Continues ⟨(s 0).toNat % 16, if (s 0).toNat = 0xE0 then 0xA0 else 0x80,
      if (s 0).toNat = 0xED then 0x9F else 0xBF, 1⟩ (s 1) then
      if Tail (s 2) then
        ({ len := 3, codePoint := ((s 0).toNat <<< 12) + ((s 1).toNat <<< 6) + (s 2).toNat -
            0xE2080 } : Utf16Replacement)
      else { len := 2, fail := true, canBuffer := n < 3 }
    else { len := 1, fail := true, canBuffer := n < 2 } := by
  rw [← ite_not, ← if_congr (second_three (s 0) (s 1) _) rfl rfl, ← ite_not (p := Tail (s 2)),
    ← if_congr (notTail_iff (s 2)) rfl rfl]
  rfl

/-- The conversion of four bytes. -/
theorem convert_four (hs : 0xF0 ≤ (s 0).toNat ∧ (s 0).toNat ≤ 0xF4) :
    convertUtf8BytesIntoUtf16WithLength s 4 n =
    if Utf8.Sequence.Continues ⟨(s 0).toNat % 8, if (s 0).toNat = 0xF0 then 0x90 else 0x80,
      if (s 0).toNat = 0xF4 then 0x8F else 0xBF, 2⟩ (s 1) then
      if Tail (s 2) then
        if Tail (s 3) then
          ({ len := 4, codePoint := ((s 0).toNat <<< 18) + ((s 1).toNat <<< 12) +
              ((s 2).toNat <<< 6) + (s 3).toNat - 0x3C82080 } : Utf16Replacement)
        else { len := 3, fail := true, canBuffer := n < 4 }
      else { len := 2, fail := true, canBuffer := n < 3 }
    else { len := 1, fail := true, canBuffer := n < 2 } := by
  have hlead : ¬ (s 0 ≤ 0xEF ∨ 0xF5 ≤ s 0) := by
    simp only [le_iff, UInt8.reduceToNat]
    omega
  rw [← ite_not, ← if_congr (second_four (s 0) (s 1) _) rfl rfl, ← ite_not (p := Tail (s 2)),
    ← if_congr (notTail_iff (s 2)) rfl rfl, ← ite_not (p := Tail (s 3)),
    ← if_congr (notTail_iff (s 3)) rfl rfl]
  exact if_neg hlead

end Convert

theorem conversion_two (hb : 0xC2 ≤ b.toNat ∧ b.toNat ≤ 0xDF) : Conversion (b :: tail) 2
    (convertUtf8BytesIntoUtf16WithLength (sequenceOf (b :: tail)) 2 (b :: tail).length) := by
  have hlead := Utf8.lead_two hb
  rw [convert_two]
  cases tail with
  | nil =>
    rw [if_neg (show ¬ Tail (sequenceOf [b] 1) from not_tail_zero)]
    exact .short _ rfl rfl rfl (Nat.lt_succ_self 1) rfl (Utf8.run_lead _ hlead)
  | cons c rest =>
    change Conversion _ _ (if Tail c then _ else _)
    by_cases hc : Tail c
    · have hcode : (b.toNat <<< 6) + c.toNat - 0x3080 = b.toNat % 32 * 64 + c.toNat % 64 := by
        obtain ⟨hlo, hhi⟩ := hc
        rw [Nat.shiftLeft_eq]
        omega
      rw [if_pos hc]
      refine .scalar rfl (Nat.le_succ 1) ?_
      rw [Utf8.run_two rest hlead hc rfl]
      exact congrArg (fun c => (Decoded.scalar c :: _, _)) hcode.symm
    · rw [if_neg hc]
      refine .error rfl rfl ?_ (Nat.le_refl 1) ?_
      · simp
      · rw [Utf8.run_lead _ hlead]
        exact Utf8.run_error _ hc

theorem not_continues_zero {q : Utf8.Sequence} {n : Nat} (h : lead n = some q) : ¬ q.Continues 0 :=
  fun hq => not_tail_zero (hq.tail h)

theorem conversion_three (hb : 0xE0 ≤ b.toNat ∧ b.toNat ≤ 0xEF) : Conversion (b :: tail) 3
    (convertUtf8BytesIntoUtf16WithLength (sequenceOf (b :: tail)) 3 (b :: tail).length) := by
  have hlead := Utf8.lead_three hb
  generalize hq : (⟨b.toNat % 16, if b.toNat = 0xE0 then 0xA0 else 0x80,
    if b.toNat = 0xED then 0x9F else 0xBF, 1⟩ : Utf8.Sequence) = q at hlead
  have hmore : q.more = 1 := by rw [← hq]
  have hbits : q.codePoint = b.toNat % 16 := by rw [← hq]
  rw [convert_three, show (sequenceOf (b :: tail) 0) = b from rfl, hq]
  cases tail with
  | nil =>
    rw [if_neg (show ¬ q.Continues (sequenceOf [b] 1) from not_continues_zero hlead)]
    exact .short _ rfl rfl rfl (Nat.le_succ 2) rfl (Utf8.run_lead _ hlead)
  | cons c rest =>
    rw [show sequenceOf (b :: c :: rest) 1 = c from rfl]
    by_cases hc : q.Continues c
    · rw [if_pos hc]
      have hrun (bs : Bytes) := (Utf8.run_lead (c :: bs) hlead).trans (Utf8.run_next bs hc hmore)
      cases rest with
      | nil =>
        rw [if_neg (show ¬ Tail (sequenceOf [b, c] 2) from not_tail_zero)]
        exact .short _ rfl rfl rfl (Nat.le_refl 3) rfl (hrun [])
      | cons d rest =>
        rw [show sequenceOf (b :: c :: d :: rest) 2 = d from rfl]
        by_cases hd : Tail d
        · have hcode : (b.toNat <<< 12) + (c.toNat <<< 6) + d.toNat - 0xE2080 =
              q.extend c * 64 + d.toNat % 64 := by
            obtain ⟨hlo, hhi⟩ := hc.tail hlead
            obtain ⟨hlo', hhi'⟩ := hd
            rw [Utf8.Sequence.extend, hbits, Nat.shiftLeft_eq, Nat.shiftLeft_eq]
            omega
          rw [if_pos hd, hcode]
          exact .scalar rfl (Nat.le_add_left 1 2) (Utf8.run_three rest hlead hc hmore hd)
        · rw [if_neg hd]
          refine .error rfl rfl ?_ (Nat.le_succ 1) ?_
          · simp
          · rw [hrun]
            exact Utf8.run_error _ hd
    · rw [if_neg hc]
      refine .error rfl rfl ?_ (Nat.le_refl 1) ?_
      · simp
      · rw [Utf8.run_lead _ hlead]
        exact Utf8.run_error _ hc

theorem conversion_four (hb : 0xF0 ≤ b.toNat ∧ b.toNat ≤ 0xF4) : Conversion (b :: tail) 4
    (convertUtf8BytesIntoUtf16WithLength (sequenceOf (b :: tail)) 4 (b :: tail).length) := by
  have hlead := Utf8.lead_four hb
  generalize hq : (⟨b.toNat % 8, if b.toNat = 0xF0 then 0x90 else 0x80,
    if b.toNat = 0xF4 then 0x8F else 0xBF, 2⟩ : Utf8.Sequence) = q at hlead
  have hmore : q.more = 2 := by rw [← hq]
  have hbits : q.codePoint = b.toNat % 8 := by rw [← hq]
  rw [convert_four (s := sequenceOf (b :: tail)) hb, show (sequenceOf (b :: tail) 0) = b from rfl, hq]
  cases tail with
  | nil =>
    rw [if_neg (show ¬ q.Continues (sequenceOf [b] 1) from not_continues_zero hlead)]
    exact .short _ rfl rfl rfl (Nat.le_add_left 2 2) rfl (Utf8.run_lead _ hlead)
  | cons c rest =>
    rw [show sequenceOf (b :: c :: rest) 1 = c from rfl]
    by_cases hc : q.Continues c
    · rw [if_pos hc]
      have hrun (bs : Bytes) := (Utf8.run_lead (c :: bs) hlead).trans (Utf8.run_next bs hc hmore)
      cases rest with
      | nil =>
        rw [if_neg (show ¬ Tail (sequenceOf [b, c] 2) from not_tail_zero)]
        exact .short _ rfl rfl rfl (Nat.le_succ 3) rfl (hrun [])
      | cons d rest =>
        rw [show sequenceOf (b :: c :: d :: rest) 2 = d from rfl]
        by_cases hd : Tail d
        · rw [if_pos hd]
          have hrun' (bs : Bytes) := (hrun (d :: bs)).trans (Utf8.run_next bs hd.continues rfl)
          cases rest with
          | nil =>
            rw [if_neg (show ¬ Tail (sequenceOf [b, c, d] 3) from not_tail_zero)]
            exact .short _ rfl rfl rfl (Nat.le_refl 4) rfl (hrun' [])
          | cons e rest =>
            rw [show sequenceOf (b :: c :: d :: e :: rest) 3 = e from rfl]
            by_cases he : Tail e
            · have hcode : (b.toNat <<< 18) + (c.toNat <<< 12) + (d.toNat <<< 6) + e.toNat -
                  0x3C82080 = (q.extend c * 64 + d.toNat % 64) * 64 + e.toNat % 64 := by
                obtain ⟨hlo, hhi⟩ := hc.tail hlead
                obtain ⟨hlo', hhi'⟩ := hd
                obtain ⟨hlo'', hhi''⟩ := he
                rw [Utf8.Sequence.extend, hbits, Nat.shiftLeft_eq, Nat.shiftLeft_eq,
                  Nat.shiftLeft_eq]
                omega
              rw [if_pos he, hcode]
              exact .scalar rfl (Nat.le_add_left 1 3) (Utf8.run_four rest hlead hc hmore hd he)
            · rw [if_neg he]
              refine .error rfl rfl ?_ (Nat.le_add_left 1 2) ?_
              · simp
              · rw [hrun']
                exact Utf8.run_error _ he
        · rw [if_neg hd]
          refine .error rfl rfl ?_ (Nat.le_succ 1) ?_
          · simp
          · rw [hrun]
            exact Utf8.run_error _ hd
    · rw [if_neg hc]
      refine .error rfl rfl ?_ (Nat.le_refl 1) ?_
      · simp
      · rw [Utf8.run_lead _ hlead]
        exact Utf8.run_error _ hc

/-- What one turn takes off. -/
theorem conversion (hb : ¬ b.toNat < 0x80) : Conversion (b :: tail) (nonAsciiSequenceLength b)
    (convertUtf8BytesIntoUtf16WithLength (sequenceOf (b :: tail)) (nonAsciiSequenceLength b)
      (b :: tail).length) := by
  rw [nonAsciiSequenceLength_eq]
  split
  · exact conversion_invalid hb (Utf8.lead_eq_none (by omega)) _
  · split
    · exact conversion_two (by omega)
    · split
      · exact conversion_three (by omega)
      · split
        · exact conversion_four (by omega)
        · exact conversion_invalid hb (Utf8.lead_eq_none (by omega)) _

/-! ## Code units -/

theorem u16Lead_eq {c : Nat} (h : 0xFFFF < c) :
    u16Lead c = UInt16.ofNat (0xD800 + (c - 0x10000) / 0x400) := by
  rw [u16Lead, Nat.shiftRight_eq_div_pow]
  congr 1
  omega

theorem u16Trail_eq (c : Nat) : u16Trail c = UInt16.ofNat (0xDC00 + c % 0x400) := by
  have hlow : c &&& 0x3FF = c % 0x400 := Nat.and_two_pow_sub_one_eq_mod c 10
  have hhigh := Nat.shiftLeft_add_eq_or_of_lt (a := 55) (Nat.mod_lt c (show 0 < 2 ^ 10 by decide))
  rw [u16Trail, hlow, Nat.or_comm]
  exact congrArg UInt16.ofNat hhigh.symm

theorem push_scalar (c : Nat) : pushCodepointUtf16 c = units [.scalar c] := by
  rw [units_cons, units_nil, List.append_nil]
  by_cases h : c ≤ 0xFFFF
  · rw [pushCodepointUtf16, Decoded.units, if_pos h, if_pos h]
  · rw [pushCodepointUtf16, Decoded.units, if_neg h, if_neg h, u16Lead_eq (Nat.not_le.mp h),
      u16Trail_eq]

theorem push_error : pushCodepointUtf16 0xFFFD = units [.error] := rfl

theorem units_ascii {ascii : Bytes} (h : ∀ b ∈ ascii, b.toNat < 0x80) :
    units (ascii.map (.scalar ·.toNat)) = widen ascii := by
  induction ascii with
  | nil => rfl
  | cons b ascii ih =>
    have hb := h b List.mem_cons_self
    rw [List.map_cons, units_cons, ih fun c hc => h c (List.mem_cons_of_mem _ hc), Decoded.units,
      if_pos (by omega), UInt16.ofNat_uInt8ToNat]
    rfl

theorem error_notMem_ascii (ascii : Bytes) : .error ∉ ascii.map (Decoded.scalar ·.toNat) := by
  intro hmem
  obtain ⟨b, -, hb⟩ := List.mem_map.mp hmem
  exact absurd hb (by simp)

/-! ## The search -/

theorem firstNonAscii_eq_none {bs : Bytes} (h : firstNonAscii bs = none) :
    ∀ b ∈ bs, b.toNat < 0x80 := by
  intro b hb
  have hle := List.findIdx?_eq_none_iff.mp h b hb
  simp only [gt_iff_lt, lt_iff, UInt8.reduceToNat, decide_eq_false_iff_not] at hle
  omega

theorem firstNonAscii_eq_some {bs : Bytes} {i : Nat} (h : firstNonAscii bs = some i) :
    ∃ b tail, bs.drop i = b :: tail ∧ ¬ b.toNat < 0x80 ∧ ∀ c ∈ bs.take i, c.toNat < 0x80 := by
  obtain ⟨hi, hb, hbelow⟩ := List.findIdx?_eq_some_iff_getElem.mp h
  refine ⟨bs[i], bs.drop (i + 1), List.drop_eq_getElem_cons hi, ?_, ?_⟩
  · simp only [gt_iff_lt, lt_iff, UInt8.reduceToNat, decide_eq_true_iff] at hb
    omega
  · intro c hc
    obtain ⟨j, hj, rfl⟩ := List.getElem_of_mem hc
    rw [List.length_take] at hj
    have hle := hbelow j (by omega)
    simp only [gt_iff_lt, lt_iff, UInt8.reduceToNat, decide_eq_true_iff] at hle
    rw [List.getElem_take]
    omega

/-! ## The loop -/

/-- What the loop returns for its input, behind what has been written. -/
def Replaced (failIfInvalid flush : Bool) (output : List UInt16) (remaining : Bytes)
    (result : Outcome ToUtf16Error (List UInt16 × Buffered)) : Prop :=
  if failIfInvalid ∧ .error ∈ (decoder.read flush none remaining).1 then
    result = .err .invalidByteSequence
  else ∃ left : Buffered,
    result = .ok (output ++ units (decoder.read flush none remaining).1, left) ∧
      left.1 <:+ remaining ∧ decoder.run none left.1 = ([], (decoder.read flush none remaining).2)

section Loop
variable {failIfInvalid flush : Bool} {output : List UInt16} {remaining rest : Bytes}
  {written : List Decoded} {result : Outcome ToUtf16Error (List UInt16 × Buffered)}

/-- What is written for the front of the input. -/
theorem Replaced.prepend (h : Replaced failIfInvalid flush (output ++ units written) rest result)
    (hread : decoder.read flush none remaining =
      (written ++ (decoder.read flush none rest).1, (decoder.read flush none rest).2))
    (herror : failIfInvalid = true → .error ∉ written) (hrest : rest <:+ remaining) :
    Replaced failIfInvalid flush output remaining result := by
  unfold Replaced at h ⊢
  rw [hread]
  by_cases hbad : failIfInvalid ∧ .error ∈ (decoder.read flush none rest).1
  · rw [if_pos hbad] at h
    rw [if_pos ⟨hbad.1, List.mem_append_right _ hbad.2⟩]
    exact h
  · rw [if_neg hbad] at h
    rw [if_neg fun hmem => (List.mem_append.mp hmem.2).elim (herror hmem.1) fun h => hbad ⟨hmem.1, h⟩,
      units_append, ← List.append_assoc]
    obtain ⟨left, hresult, hsuffix, hleft⟩ := h
    exact ⟨left, hresult, hsuffix.trans hrest, hleft⟩

theorem Replaced.refuse (hfail : failIfInvalid = true)
    (hmem : .error ∈ (decoder.read flush none remaining).1) :
    Replaced failIfInvalid flush output remaining (.err .invalidByteSequence) := by
  rw [Replaced, if_pos ⟨hfail, hmem⟩]

theorem Replaced.keep (left : Buffered) (hread : decoder.read flush none remaining =
      (written, (decoder.run none left.1).2)) (hleft : (decoder.run none left.1).1 = [])
    (herror : .error ∉ written) (hsuffix : left.1 <:+ remaining) :
    Replaced failIfInvalid flush output remaining (.ok (output ++ units written, left)) := by
  rw [Replaced, hread, if_neg fun h => herror h.2]
  exact ⟨left, rfl, hsuffix, Prod.ext hleft rfl⟩

theorem read_ascii_append {ascii : Bytes} (h : ∀ b ∈ ascii, b.toNat < 0x80) (bs : Bytes) :
    decoder.read flush none (ascii ++ bs) = (ascii.map (.scalar ·.toNat) ++
      (decoder.read flush none bs).1, (decoder.read flush none bs).2) := by
  have hrun := Utf8.run_ascii_append h []
  rw [List.append_nil] at hrun
  rw [Transducer.read_append, hrun]
  simp

/-- A turn of the loop. -/
theorem replaceInvalid_some {i : Nat} (hdrop : remaining.drop i = b :: tail) {r : Utf16Replacement}
    (hr : convertUtf8BytesIntoUtf16WithLength (sequenceOf (b :: tail))
      (nonAsciiSequenceLength b) (b :: tail).length = r) :
    replaceInvalid failIfInvalid flush output remaining (some i) =
      if hbuffer : flush = false ∧ r.fail ∧ r.canBuffer ∧
          nonAsciiSequenceLength b > (b :: tail).length then
        .ok (output ++ widen (remaining.take i), ⟨b :: tail, Nat.le_of_lt_succ
          (Nat.lt_of_lt_of_le hbuffer.2.2.2 (nonAsciiSequenceLength_le b))⟩)
      else if failIfInvalid ∧ r.fail then .err .invalidByteSequence
      else
        replaceInvalid failIfInvalid flush
          (output ++ widen (remaining.take i) ++ pushCodepointUtf16 r.codePoint)
          ((b :: tail).drop (max r.len 1)) (firstNonAscii ((b :: tail).drop (max r.len 1))) := by
  subst hr
  rw [replaceInvalid]
  split
  · next h =>
      rw [hdrop] at h
      exact absurd h (by simp)
  · next h =>
      rw [hdrop] at h
      obtain ⟨rfl, rfl⟩ := List.cons.inj h
      rfl

/-- The ASCII in front of a byte to replace. -/
theorem replaceInvalid_ascii {i : Nat} (hdrop : remaining.drop i = b :: tail) :
    replaceInvalid failIfInvalid flush output remaining (some i) =
      replaceInvalid failIfInvalid flush (output ++ widen (remaining.take i)) (b :: tail)
        (some 0) := by
  rw [replaceInvalid_some hdrop rfl, replaceInvalid_some (List.drop_zero (l := b :: tail)) rfl]
  simp only [List.take_zero, widen, List.map_nil, List.append_nil]

theorem read_nil : decoder.read flush none [] = ([], none) := by
  cases flush <;> rfl

/-- A run that writes one item first. -/
theorem read_of_run {d : Decoded} (hrun : decoder.run none remaining =
      (d :: (decoder.run none rest).1, (decoder.run none rest).2)) :
    decoder.read flush none remaining =
      ([d] ++ (decoder.read flush none rest).1, (decoder.read flush none rest).2) := by
  cases flush with
  | false => exact hrun
  | true =>
    rw [Transducer.read_true, hrun]
    rfl

/-- A turn of the loop writes what the decoder writes, if the turns behind it do. -/
theorem replaced_turn (hb : ¬ b.toNat < 0x80) (hrest : ∀ output k, 1 ≤ k →
      Replaced failIfInvalid flush output ((b :: tail).drop k)
        (replaceInvalid failIfInvalid flush output ((b :: tail).drop k)
          (firstNonAscii ((b :: tail).drop k)))) :
    Replaced failIfInvalid flush output (b :: tail)
      (replaceInvalid failIfInvalid flush output (b :: tail) (some 0)) := by
  have hconv := @conversion _ tail hb
  generalize hr : convertUtf8BytesIntoUtf16WithLength (sequenceOf (b :: tail))
    (nonAsciiSequenceLength b) (b :: tail).length = r at hconv
  rw [replaceInvalid_some (List.drop_zero (l := b :: tail)) hr]
  simp only [List.take_zero, widen, List.map_nil, List.append_nil]
  cases hconv with
  | scalar hfail hpos hrun =>
    rw [dif_neg (by simp [hfail]), if_neg (by simp [hfail]), Nat.max_eq_left hpos, push_scalar]
    refine .prepend (hrest _ r.len hpos) (read_of_run hrun) ?_ (List.drop_suffix _ _)
    exact fun _ hmem => absurd (List.mem_singleton.mp hmem) (by simp)
  | error hfail hcode hbuffer hpos hrun =>
    rw [dif_neg fun h => hbuffer h.2.2]
    cases failIfInvalid with
    | true =>
      rw [if_pos ⟨rfl, hfail⟩]
      refine .refuse rfl ?_
      rw [read_of_run hrun]
      exact List.mem_cons_self
    | false =>
      rw [if_neg (by simp), Nat.max_eq_left hpos, hcode, push_error]
      exact .prepend (hrest _ r.len hpos) (read_of_run hrun) (fun h => absurd h (by simp))
        (List.drop_suffix _ _)
  | short q hfail hcode hbuffer hlong hshort hrun =>
    cases flush with
    | false =>
      have hleft : (b :: tail).length ≤ 3 :=
        Nat.le_of_lt_succ (Nat.lt_of_lt_of_le hlong (nonAsciiSequenceLength_le b))
      have hnone : (decoder.run none (b :: tail)).1 = [] := congrArg Prod.fst hrun
      have hkeep : Replaced failIfInvalid false output (b :: tail)
          (.ok (output ++ units [], ⟨b :: tail, hleft⟩)) :=
        .keep ⟨b :: tail, hleft⟩ (Prod.ext hnone rfl) hnone List.not_mem_nil (List.suffix_refl _)
      rw [dif_pos ⟨rfl, hfail, hbuffer, hlong⟩]
      rwa [units_nil, List.append_nil] at hkeep
    | true =>
      -- Nothing is behind the sequence that is cut off, and its error is the last item.
      have hread : decoder.read true none (b :: tail) =
          ([Decoded.error] ++ (decoder.read true none []).1, (decoder.read true none []).2) := by
        rw [Transducer.read_true, hrun]
        rfl
      rw [dif_neg fun h => absurd h.1 (by simp)]
      cases failIfInvalid with
      | true =>
        rw [if_pos ⟨rfl, hfail⟩]
        refine .refuse rfl ?_
        rw [hread]
        exact List.mem_cons_self
      | false =>
        have hpos : 1 ≤ r.len := by
          rw [hshort]
          exact Nat.le_add_left 1 _
        have hend := hrest (output ++ units [.error]) r.len hpos
        rw [if_neg (by simp), Nat.max_eq_left hpos, hcode, push_error]
        rw [hshort, List.drop_length] at hend ⊢
        exact .prepend hend hread (fun h => absurd h (by simp)) List.nil_suffix

/-- The loop writes what the decoder writes. -/
theorem replaced_replaceInvalid : Replaced failIfInvalid flush output remaining
    (replaceInvalid failIfInvalid flush output remaining (firstNonAscii remaining)) := by
  induction hn : remaining.length using Nat.strong_induction_on generalizing remaining output with
  | _ n ih =>
    cases hidx : firstNonAscii remaining with
    | none =>
      have hascii := firstNonAscii_eq_none hidx
      have hread := @read_ascii_append flush _ hascii []
      rw [List.append_nil, read_nil, List.append_nil] at hread
      rw [replaceInvalid, ← units_ascii hascii]
      exact .keep default hread rfl (error_notMem_ascii remaining) List.nil_suffix
    | some i =>
      obtain ⟨b, tail, hdrop, hb, hascii⟩ := firstNonAscii_eq_some hidx
      have hsplit : remaining = remaining.take i ++ b :: tail := by
        rw [← hdrop, List.take_append_drop]
      have hread := @read_ascii_append flush _ hascii (b :: tail)
      rw [← hsplit] at hread
      have hlen := congrArg List.length hsplit
      rw [List.length_append, List.length_cons, hn] at hlen
      rw [replaceInvalid_ascii hdrop, ← units_ascii hascii]
      refine .prepend (replaced_turn hb ?_) hread (fun _ => error_notMem_ascii _) ⟨_, hsplit.symm⟩
      intro output k hk
      refine ih _ ?_ rfl
      rw [List.length_drop, List.length_cons]
      omega

/-- The loop from a byte to replace. -/
theorem replaced_replaceInvalid_zero (hb : ¬ b.toNat < 0x80) :
    Replaced failIfInvalid flush output (b :: tail)
      (replaceInvalid failIfInvalid flush output (b :: tail) (some 0)) :=
  replaced_turn hb fun _ _ _ => replaced_replaceInvalid

end Loop

/-! ## The whole conversion -/

/-- What simdutf does: it converts UTF-8 and reports what is not UTF-8, having written the
ASCII in front of it. -/
structure Simdutf.Sound (simdutf : Simdutf) : Prop where
  valid (cs : List Char) : simdutf.convertUtf8ToUtf16leWithErrors
    (cs.flatMap String.utf8EncodeChar) = (true, units (cs.map (.scalar ·.toNat)))
  validLength (cs : List Char) : simdutf.utf16LengthFromUtf8
    (cs.flatMap String.utf8EncodeChar) = (units (cs.map (.scalar ·.toNat))).length
  invalid (bytes : Bytes) (h : ∀ cs : List Char, bytes ≠ cs.flatMap String.utf8EncodeChar) :
    (simdutf.convertUtf8ToUtf16leWithErrors bytes).1 = false
  ascii (ascii rest : Bytes) (h : ∀ b ∈ ascii, b.toNat < 0x80) :
    (simdutf.convertUtf8ToUtf16leWithErrors (ascii ++ rest)).2.take ascii.length = widen ascii
  asciiLength (ascii rest : Bytes) (h : ∀ b ∈ ascii, b.toNat < 0x80) :
    ascii.length ≤ simdutf.utf16LengthFromUtf8 (ascii ++ rest)

/-- The code units that a conversion gives for its input. -/
def converted (input : Bytes) : Option (List UInt16 × Buffered) → List UInt16
  | none => widen input
  | some (decoded, _) => decoded

/-- The bytes that a conversion hands back. -/
def leftover : Option (List UInt16 × Buffered) → Buffered
  | none => default
  | some (_, left) => left

/-- What a conversion returns for its input. -/
def Converts (failIfInvalid flush : Bool) (bytes : Bytes)
    (result : Outcome ToUtf16Error (Option (List UInt16 × Buffered))) : Prop :=
  if failIfInvalid ∧ .error ∈ (decoder.read flush none bytes).1 then
    result = .err .invalidByteSequence
  else ∃ r, result = .ok r ∧ converted bytes r = units (decoder.read flush none bytes).1 ∧
    (leftover r).1 <:+ bytes ∧
    decoder.run none (leftover r).1 = ([], (decoder.read flush none bytes).2)

section Whole
variable {failIfInvalid flush : Bool} {bytes : Bytes} {simdutf : Simdutf}

theorem read_encode (cs : List Char) :
    decoder.read flush none (cs.flatMap String.utf8EncodeChar) =
      (cs.map (.scalar ·.toNat), none) := by
  have hrun := Utf8.run_encode cs []
  rw [List.append_nil, Transducer.run_nil, List.append_nil] at hrun
  cases flush with
  | false => exact hrun
  | true =>
    rw [Transducer.read_true, hrun]
    exact congrArg (·, none) (List.append_nil _)

theorem Converts.intro {r : Option (List UInt16 × Buffered)} {written : List Decoded}
    (hread : decoder.read flush none bytes = (written, none)) (herror : .error ∉ written)
    (htext : converted bytes r = units written) (hleft : leftover r = default) :
    Converts failIfInvalid flush bytes (.ok r) := by
  rw [Converts, hread, if_neg fun h => herror h.2]
  refine ⟨r, rfl, htext, ?_⟩
  rw [hleft]
  exact ⟨List.nil_suffix, rfl⟩

/-- A conversion by the loop. -/
theorem Replaced.converts {result : Outcome ToUtf16Error (List UInt16 × Buffered)}
    (h : Replaced failIfInvalid flush [] bytes result) :
    Converts failIfInvalid flush bytes (result >>= fun out => pure (some out)) := by
  unfold Replaced at h
  unfold Converts
  by_cases hbad : failIfInvalid ∧ .error ∈ (decoder.read flush none bytes).1
  · rw [if_pos hbad] at h ⊢
    rw [h]
    rfl
  · rw [if_neg hbad] at h ⊢
    obtain ⟨left, rfl, hleft⟩ := h
    exact ⟨_, rfl, rfl, hleft⟩

theorem units_ne_nil {c : Char} {cs : List Char} :
    (units ((c :: cs).map (.scalar ·.toNat))).length ≠ 0 := by
  rw [List.map_cons, units_cons, Decoded.units]
  split <;> simp

/-- The conversion writes what the decoder writes. -/
theorem converts_toUtf16AllocMaybeBuffered (hsound : simdutf.Sound) :
    Converts failIfInvalid flush bytes
      (toUtf16AllocMaybeBuffered simdutf failIfInvalid flush bytes) := by
  rw [toUtf16AllocMaybeBuffered]
  split
  · next hidx =>
      have hascii := firstNonAscii_eq_none hidx
      have hread := @read_ascii_append flush _ hascii []
      rw [List.append_nil, read_nil, List.append_nil] at hread
      exact .intro hread (error_notMem_ascii bytes) (units_ascii hascii).symm rfl
  · next idx hidx =>
      obtain ⟨b, tail, hdrop, hb, hascii⟩ := firstNonAscii_eq_some hidx
      have hsplit : bytes.take idx ++ b :: tail = bytes := by rw [← hdrop, List.take_append_drop]
      dsimp only
      by_cases hvalid : ∃ cs : List Char, bytes = cs.flatMap String.utf8EncodeChar
      · obtain ⟨cs, rfl⟩ := hvalid
        cases cs with
        | nil => exact absurd hidx (by rintro ⟨⟩)
        | cons c cs =>
          rw [hsound.valid, hsound.validLength, if_pos ⟨units_ne_nil, rfl⟩, List.take_length]
          refine .intro (read_encode (c :: cs)) ?_ rfl rfl
          intro hmem
          obtain ⟨d, -, hd⟩ := List.mem_map.mp hmem
          exact absurd hd (by simp)
      · -- What has been written and where the loop starts agree: behind the ASCII.
        have hinvalid := hsound.invalid bytes fun cs hcs => hvalid ⟨cs, hcs⟩
        have hwritten := hsound.ascii _ (b :: tail) hascii
        have hlength := hsound.asciiLength _ (b :: tail) hascii
        have hidxLen : (bytes.take idx).length = idx := by
          have hlen := congrArg List.length hdrop
          rw [List.length_drop, List.length_cons] at hlen
          rw [List.length_take]
          omega
        rw [hsplit, hidxLen] at hwritten hlength
        have houtput : (if simdutf.utf16LengthFromUtf8 bytes = 0 then [] else
            (simdutf.convertUtf8ToUtf16leWithErrors bytes).2.take idx) = widen (bytes.take idx) := by
          split
          · next hzero =>
              obtain rfl : idx = 0 := by omega
              rfl
          · exact hwritten
        have hstart : (if widen (bytes.take idx) ≠ [] then idx else 0) = idx := by
          split
          · rfl
          · next hnil =>
              rw [not_not, widen, List.map_eq_nil_iff] at hnil
              rw [← hidxLen, hnil]
              rfl
        have hread := @read_ascii_append flush _ hascii (b :: tail)
        rw [hsplit] at hread
        rw [if_neg (by simp [hinvalid]), houtput, hstart, hdrop, ← units_ascii hascii]
        refine Replaced.converts (.prepend ?_ hread (fun _ => error_notMem_ascii _) ⟨_, hsplit⟩)
        exact replaced_replaceInvalid_zero hb

/-- The conversion by the standard's decoder. -/
def Simdutf.standard : Simdutf where
  utf16LengthFromUtf8 bytes := (units (decoder.translate bytes)).length
  convertUtf8ToUtf16leWithErrors bytes :=
    (decide (.error ∉ decoder.translate bytes), units (decoder.translate bytes))

theorem units_translate_ascii {ascii : Bytes} (h : ∀ b ∈ ascii, b.toNat < 0x80) (rest : Bytes) :
    units (decoder.translate (ascii ++ rest)) = widen ascii ++ units (decoder.translate rest) := by
  rw [Transducer.translate, show decoder.start = none from rfl, read_ascii_append h, units_append,
    units_ascii h]
  rfl

theorem Simdutf.standard_sound : Simdutf.standard.Sound where
  valid cs := by
    have herror := (Utf8.error_notMem_translate_iff _).mpr ⟨cs, rfl⟩
    exact Prod.ext (decide_eq_true herror) (congrArg units (Utf8.translate_encode cs))
  validLength cs := congrArg (fun out => (units out).length) (Utf8.translate_encode cs)
  invalid bytes h := by
    refine decide_eq_false fun herror => ?_
    obtain ⟨cs, hcs⟩ := (Utf8.error_notMem_translate_iff bytes).mp herror
    exact h cs hcs
  ascii ascii rest h := by
    change (units (decoder.translate (ascii ++ rest))).take ascii.length = widen ascii
    rw [units_translate_ascii h]
    exact List.take_left' (List.length_map _)
  asciiLength ascii rest h := by
    change ascii.length ≤ (units (decoder.translate (ascii ++ rest))).length
    rw [units_translate_ascii h, List.length_append, widen, List.length_map]
    exact Nat.le_add_right _ _

end Whole

end OhosBun.Webcore
