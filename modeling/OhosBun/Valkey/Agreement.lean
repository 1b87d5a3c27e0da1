/-
# `OhosBun.Valkey.Agreement` — the scanner and the reader agree

The scanner takes off a buffer what the reader takes off (`skips_readValue`): for each of
the types the reader's part and the scanner's are the same up to where the reader makes a
value, and what the reader rejects there it rejects for good.

`scan_prefixes`, `scan_of_readValue` and `readValue_of_scan` are put together in
`scanner_agrees`.
-/
import OhosBun.Valkey.ReplyScanner

namespace OhosBun.Valkey

open OhosBun.Lib

/-! ## Blobs -/

theorem parseInt64_lt {buf : Bytes} {n : Int} (h : parseInt64 buf = some n) : n < 2 ^ 63 := by
  have hpos : ∀ digits, ((Semver.parseWithSign 10 digits).bind fun k =>
      if k < 2 ^ 63 then some (k : Int) else none) = some n → n < 2 ^ 63 := by
    intro digits hdigits
    obtain ⟨k, -, hk⟩ := Option.bind_eq_some_iff.mp hdigits
    split at hk
    next hlt =>
      obtain rfl := Option.some.inj hk
      exact_mod_cast hlt
    next => simp at hk
  unfold parseInt64 at h
  split at h
  · simp at h
  · exact hpos _ h
  · obtain ⟨k, -, hk⟩ := Option.bind_eq_some_iff.mp h
    split at hk
    · obtain rfl := Option.some.inj hk
      omega
    · simp at hk
  · exact hpos _ h

variable {buffer left : Bytes} {invalid : RedisError} {len : Nat}

theorem readInteger_lt {len : Int} (h : readInteger 0 buffer = (.ok len, left)) :
    len < 2 ^ 63 := by
  obtain ⟨str, mid, -, hstr⟩ := Reader.bind_eq_ok.1 h
  cases hparse : parseInt64 str with
  | none =>
    rw [hparse] at hstr
    exact absurd (Prod.mk.inj hstr).1 (by simp)
  | some n =>
    rw [hparse] at hstr
    rw [← Except.ok.inj (Prod.mk.inj hstr).1]
    exact parseInt64_lt hparse

/-- What the line end after a blob is. -/
theorem readBlob_eq_ok {blob : Bytes} :
    readBlob invalid len buffer = (.ok blob, left) ↔ buffer[len]? = some 13 ∧
      buffer[len + 1]? = some 10 ∧ blob = buffer.take len ∧ left = buffer.drop (len + 2) := by
  have hcrlf : crlfAt (buffer.drop len) 0 ↔ buffer[len]? = some 13 ∧ buffer[len + 1]? = some 10 := by
    rw [crlfAt, Bool.and_eq_true, decide_eq_true_eq, decide_eq_true_eq, List.getElem?_drop,
      List.getElem?_drop]
    exact Iff.rfl
  rw [readBlob]
  constructor
  · intro h
    split at h
    · simp at h
    next hlen =>
      obtain ⟨line, mid, hline, hmid⟩ := Reader.bind_eq_ok.1 h
      obtain ⟨i, _, hi, _, rfl, rfl⟩ := readUntilCrlf_eq_ok.1 hline
      split at hmid
      · exact absurd (Prod.mk.inj hmid).1 (by simp)
      next hempty =>
        have hlt := lt_of_crlfAt hi
        have hzero : i = 0 := by
          have hnil := congrArg List.length (not_not.mp hempty)
          rw [List.length_take, List.length_nil] at hnil
          omega
        subst hzero
        obtain ⟨hblob, hleft⟩ := Prod.mk.inj hmid
        obtain ⟨hcr, hlf⟩ := hcrlf.mp hi
        exact ⟨hcr, hlf, (Except.ok.inj hblob).symm, by rw [← hleft, List.drop_drop]⟩
  · rintro ⟨hcr, hlf, rfl, rfl⟩
    have hlt := (List.getElem?_eq_some_iff.mp hlf).1
    rw [if_neg (by omega)]
    refine Reader.bind_eq_ok.2 ⟨[], buffer.drop (len + 2), ?_, rfl⟩
    refine readUntilCrlf_eq_ok.2 ⟨0, Nat.zero_le _, hcrlf.mpr ⟨hcr, hlf⟩, .zero _, rfl, ?_⟩
    rw [List.drop_drop]

theorem skipBlob_eq_ok {children : Option Nat} : skipBlob invalid len buffer = (.ok children, left) ↔
      buffer[len]? = some 13 ∧ buffer[len + 1]? = some 10 ∧ children = none ∧
        left = buffer.drop (len + 2) := by
  rw [skipBlob]
  constructor
  · intro h
    split_ifs at h with hlen hcrlf
    · simp at h
    · simp at h
    · rw [not_or, not_not, not_not] at hcrlf
      obtain ⟨hnone, hleft⟩ := Prod.mk.inj h
      exact ⟨hcrlf.1, hcrlf.2, (Except.ok.inj hnone).symm, hleft.symm⟩
  · rintro ⟨hcr, hlf, rfl, rfl⟩
    have hlt := (List.getElem?_eq_some_iff.mp hlf).1
    rw [if_neg (by omega), if_neg (by simp [hcr, hlf])]

/-- A blob is skipped as it is read. -/
theorem skips_readBlob (invalid invalid' : RedisError) (len : Nat) :
    Reader.Skips RedisError.invalidResponse (readBlob invalid len) (skipBlob invalid' len) where
  of_ok h := by
    obtain ⟨hcr, hlf, -, rfl⟩ := readBlob_eq_ok.1 h
    exact ⟨none, skipBlob_eq_ok.2 ⟨hcr, hlf, rfl, rfl⟩⟩
  ok_or h := by
    obtain ⟨hcr, hlf, -, rfl⟩ := skipBlob_eq_ok.1 h
    exact .inl ⟨_, readBlob_eq_ok.2 ⟨hcr, hlf, rfl, rfl⟩⟩

/-! ## Elements -/

section Elements
variable {F64 : Type} (floats : Floats F64)

/-- What the scanner does after an element: its children. -/
def skipChildren (skip : ValkeyReader Unit) (children : Option Nat) : ValkeyReader Unit :=
  (skip.many (children.getD 0)).map fun _ => ()

theorem skipBlob_bind (invalid : RedisError) (len : Nat) (skip : ValkeyReader Unit) :
    (skipBlob invalid len).bind (skipChildren skip) = (skipBlob invalid len).map fun _ => () := by
  funext buffer
  rw [Reader.map, Reader.bind, Reader.bind]
  cases h : skipBlob invalid len buffer with
  | mk r left =>
    cases r with
    | error err => rfl
    | ok children =>
      obtain ⟨-, -, rfl, -⟩ := skipBlob_eq_ok.1 h
      rfl

variable {α : Type} {skip : ValkeyReader Unit} {depth : Nat} {len : Int}
  {child : Option (ValkeyReader (RESPValue F64))}

/-- A line, and what is made of it. -/
theorem skips_line {f : Bytes → ValkeyReader α} (skip : ValkeyReader Unit)
    (hf : ∀ line, (∃ a, f line = .pure a) ∨ ∃ e, e ≠ .invalidResponse ∧ f line = .fail e) :
    Reader.Skips .invalidResponse ((readUntilCrlf 0).bind f)
      (((readUntilCrlf 0).bind fun _ => .pure none).bind (skipChildren skip)) := by
  rw [Reader.bind_bind]
  exact ((Reader.Skips.refl _).bind_check hf).map_right _

/-- A length and its blob. -/
theorem skips_blob {read : Int → ValkeyReader α} {null : Bool} {invalid : RedisError}
    (skip : ValkeyReader Unit) (hneg : ∀ len : Int, len < 0 → Reader.Skips .invalidResponse (read len)
      (if null then .pure () else .fail invalid : ValkeyReader Unit))
    (hmax : ∀ len : Int, ¬ len < 0 → len > maxBulkLen → ∃ e, read len = .fail e)
    (hread : ∀ len : Int, ¬ len < 0 → ¬ len > maxBulkLen →
      Reader.Skips .invalidResponse (read len) (skipBlob invalid len.toNat)) :
    Reader.Skips .invalidResponse ((readInteger 0).bind read)
      ((scanBlob 0 null invalid).bind (skipChildren skip)) := by
  rw [scanBlob, Reader.bind_bind]
  refine .bind_left fun {len rest left} _ => ?_
  split_ifs with hlt hnull hgt
  · have h := hneg len hlt
    rw [hnull] at h
    exact h
  · have h := hneg len hlt
    rw [if_neg hnull] at h
    exact h
  · obtain ⟨e, he⟩ := hmax len hlt hgt
    rw [he]
    exact .fail_fail _ _
  · rw [skipBlob_bind]
    exact (hread len hlt hgt).map_right _

/-- An aggregate: its length, and its children as they are counted. -/
theorem skips_aggregate {β : Type} {child : Option (ValkeyReader α)} {invalid : Int → Bool}
    {error : RedisError} {read : ValkeyReader α → Int → ValkeyReader β} {children : Int → Nat}
    (hdepth : child = none ↔ maxNestingDepth ≤ depth)
    (h : ∀ c ∈ child, ∀ len : Int, len < 2 ^ 63 → ¬ invalid len →
      Reader.Skips .invalidResponse (read c len) (skip.many (children len))) :
    Reader.Skips .invalidResponse (readAggregate child invalid error read)
      ((scanAggregate 0 depth invalid error children).bind (skipChildren skip)) := by
  rw [scanAggregate]
  cases child with
  | none =>
    rw [if_pos (hdepth.mp rfl)]
    exact .fail_fail _ _
  | some c =>
    rw [if_neg fun hle => absurd (hdepth.mpr hle) (by simp), Reader.bind_bind]
    refine .bind_left fun {len rest left} hlen => ?_
    split
    · exact .fail_fail _ _
    next hvalid => exact (h c rfl len (readInteger_lt hlen) hvalid).map_right _

theorem skips_readEntry {c : ValkeyReader α} (h : Reader.Skips RedisError.invalidResponse c skip) :
    Reader.Skips .invalidResponse (readEntry c) (skip.many 2) :=
  h.bind fun _ _ => ((h.bind fun _ _ => .pure _ _).map_right _)

theorem saturatingMul_toNat (h : len < 2 ^ 63) :
    saturatingMul len.toNat 2 = 2 * len.toNat := by
  rw [saturatingMul]
  omega

theorem saturatingAdd_toNat (h : len < 2 ^ 63) :
    saturatingAdd (saturatingMul len.toNat 2) 1 = 2 * len.toNat + 1 := by
  rw [saturatingMul_toNat h, saturatingAdd]
  omega

/-- What comes after a type is skipped as it is read, if the children are. -/
theorem skips_readOfType (hdepth : child = none ↔ maxNestingDepth ≤ depth)
    (h : ∀ c ∈ child, Reader.Skips .invalidResponse c skip) (type : RESPType) :
    Reader.Skips .invalidResponse (readOfType floats child type)
      ((scanOfType 0 depth type).bind (skipChildren skip)) := by
  match type with
  | .simpleString | .error | .bigNumber => exact skips_line skip fun _ => .inl ⟨_, rfl⟩
  | .integer =>
    rw [readOfType, readInteger, Reader.map, Reader.bind_bind]
    refine skips_line skip fun line => ?_
    cases parseInt64 line with
    | some int => exact .inl ⟨_, rfl⟩
    | none => exact .inr ⟨.invalidInteger, by decide, rfl⟩
  | .double =>
    rw [readOfType, readDouble, Reader.map, Reader.bind_bind]
    refine skips_line skip fun line => ?_
    split_ifs
    · exact .inl ⟨_, rfl⟩
    · exact .inl ⟨_, rfl⟩
    · exact .inl ⟨_, rfl⟩
    · cases floats.parseF64 line with
      | some d => exact .inl ⟨_, rfl⟩
      | none => exact .inr ⟨.invalidDouble, by decide, rfl⟩
  | .boolean =>
    rw [readOfType, readBoolean, Reader.map, Reader.bind_bind]
    refine skips_line skip fun line => ?_
    split
    · exact .inl ⟨_, rfl⟩
    · exact .inl ⟨_, rfl⟩
    · exact .inr ⟨.invalidBoolean, by decide, rfl⟩
  | .null =>
    rw [readOfType, scanOfType, Reader.bind_bind]
    refine .bind_left fun {line rest left} _ => ?_
    split
    · exact .fail (by decide) _
    · exact .pure _ _
  | .bulkString =>
    refine skips_blob skip (fun len hlt => ?_) (fun len hlt hgt => ?_) fun len hlt hgt => ?_
    · rw [if_pos hlt]
      exact .pure _ _
    · rw [if_neg hlt, if_pos hgt]
      exact ⟨_, rfl⟩
    · rw [if_neg hlt, if_neg hgt]
      exact (skips_readBlob _ _ _).map_left _
  | .blobError =>
    rw [readOfType, readCounted, Reader.map, Reader.bind_bind]
    refine skips_blob skip (fun len hlt => ?_) (fun len hlt hgt => ?_) fun len hlt hgt => ?_
    · rw [if_pos (.inl hlt)]
      exact .fail_fail _ _
    · rw [if_pos (.inr hgt)]
      exact ⟨_, rfl⟩
    · rw [if_neg (not_or.mpr ⟨hlt, hgt⟩)]
      exact (skips_readBlob _ _ _).map_left _
  | .verbatimString =>
    rw [readOfType, readVerbatimString, readCounted, Reader.map, Reader.bind_bind,
      Reader.bind_bind]
    refine skips_blob skip (fun len hlt => ?_) (fun len hlt hgt => ?_) fun len hlt hgt => ?_
    · rw [if_pos (.inl hlt)]
      exact .fail_fail _ _
    · rw [if_pos (.inr hgt)]
      exact ⟨_, rfl⟩
    · rw [if_neg (not_or.mpr ⟨hlt, hgt⟩)]
      refine (skips_readBlob _ _ _).bind_check fun contentWithFormat => ?_
      split
      · exact .inr ⟨.invalidVerbatimString, by decide, rfl⟩
      · exact .inl ⟨_, rfl⟩
  | .array =>
    refine skips_aggregate hdepth fun c hc len hlen _ => ?_
    split
    next hneg =>
      rw [Int.toNat_of_nonpos (le_of_lt hneg)]
      exact .pure _ _
    next => exact ((h c hc).many _).map_left _
  | .set => exact skips_aggregate hdepth fun c hc len hlen _ => ((h c hc).many _).map_left _
  | .map =>
    refine skips_aggregate hdepth fun c hc len hlen _ => ?_
    rw [saturatingMul_toNat hlen]
    exact ((skips_readEntry (h c hc)).many_mul _).map_left _
  | .attribute =>
    refine skips_aggregate hdepth fun c hc len hlen _ => ?_
    rw [saturatingAdd_toNat hlen, Reader.many_add]
    exact ((skips_readEntry (h c hc)).many_mul _).bind fun _ _ =>
      ((h c hc).many_one.map_left _).map_right _
  | .push =>
    refine skips_aggregate hdepth fun c hc len hlen hvalid => ?_
    have hlen' : len.toNat = 1 + (len - 1).toNat := by
      simp only [decide_eq_true_eq] at hvalid
      omega
    rw [hlen', Nat.add_comm]
    refine (h c hc).bind fun kind _ => ?_
    cases pushType kind with
    | none => exact .fail (by decide) _
    | some kind => exact (((h c hc).many _).map_left _).map_right _

theorem skips_readWith (hdepth : child = none ↔ maxNestingDepth ≤ depth)
    (h : ∀ c ∈ child, Reader.Skips .invalidResponse c skip) :
    Reader.Skips .invalidResponse (readWith floats child)
      (ReplyScanner.skipWith depth skip) := by
  rw [ReplyScanner.skipWith, scanOne, Reader.bind_bind]
  refine .bind_left fun {byte rest left} _ => ?_
  cases RESPType.fromByte byte with
  | none => exact .fail_fail _ _
  | some type => exact skips_readOfType floats hdepth h type

/-- A value is skipped as it is read. -/
theorem skips_readValueAt {levels : Nat} (hlevels : levels ≤ maxNestingDepth) :
    Reader.Skips .invalidResponse (readValueAt floats levels) (ReplyScanner.skipAt levels) := by
  induction levels with
  | zero => exact skips_readWith floats (by simp) fun c hc => absurd hc (by simp)
  | succ levels ih =>
    refine skips_readWith floats ?_ fun c hc => ?_
    · simp only [reduceCtorEq, false_iff, Nat.not_le]
      omega
    · rw [← Option.some.inj hc]
      exact ih (Nat.le_of_succ_le hlevels)

theorem skips_readValue :
    Reader.Skips .invalidResponse (readValue floats) (ReplyScanner.skipAt maxNestingDepth) :=
  skips_readValueAt floats (Nat.le_refl _)

end Elements

/-! ## Scans and values -/

namespace ReplyScanner
variable {F64 : Type} (floats : Floats F64) {buffer : Bytes}

theorem scan_prefixes {prefixes : List Bytes} (hchain : (prefixes ++ [buffer]).IsChain (· <+: ·))
    (hopen : ∀ p ∈ prefixes, ∀ n, outcome (scan {} p) ≠ .ok (some n)) :
    outcome ((feed {} prefixes).scan buffer) = outcome (scan {} buffer) := by
  refine AsFresh.init.feed prefixes ?_ hopen
  rw [List.cons_append]
  cases prefixes with
  | nil => exact List.isChain_cons_cons.mpr ⟨List.nil_prefix, hchain⟩
  | cons p prefixes => exact List.isChain_cons_cons.mpr ⟨List.nil_prefix, hchain⟩

theorem scan_of_readValue {value : RESPValue F64} {left : Bytes}
    (h : readValue floats buffer = (.ok value, left)) :
    outcome (scan {} buffer) = .ok (some (buffer.length - left.length)) := by
  obtain ⟨⟨⟩, hskip⟩ := (skips_readValue floats).of_ok h
  rw [scan_outcome, hskip]

/-- The end of the reply that was scanned. -/
theorem skipAt_of_scan {n : Nat} (h : outcome (scan {} buffer) = .ok (some n)) :
    skipAt maxNestingDepth buffer = (.ok (), buffer.drop n) := by
  rw [scan_outcome] at h
  split at h
  next left hskip =>
    obtain rfl := Option.some.inj (Except.ok.inj h)
    obtain ⟨front, hfront⟩ := (stable_skipAt maxNestingDepth).suffix buffer
    rw [hskip] at hfront
    rw [hskip, ← hfront, List.length_append, Nat.add_sub_cancel, List.drop_left]
  next => split at h <;> simp at h

theorem readValue_of_scan {n : Nat} (h : outcome (scan {} buffer) = .ok (some n)) :
    (∃ value, readValue floats buffer = (.ok value, buffer.drop n)) ∨
      ∃ err left, readValue floats buffer = (.error err, left) ∧ err ≠ .invalidResponse :=
  (skips_readValue floats).ok_or (skipAt_of_scan h)

/-- A scanner that was fed prefixes without a complete reply comes to the end that a fresh
one does, and that end is where the reader stops, unless it rejects the reply for good. -/
theorem scanner_agrees (buffer : Bytes) :
    (∀ prefixes : List Bytes, (prefixes ++ [buffer]).IsChain (· <+: ·) →
      (∀ p ∈ prefixes, ∀ n, outcome (scan {} p) ≠ .ok (some n)) →
      outcome ((feed {} prefixes).scan buffer) = outcome (scan {} buffer)) ∧
    (∀ value left, readValue floats buffer = (.ok value, left) →
      outcome (scan {} buffer) = .ok (some (buffer.length - left.length))) ∧
    (∀ n, outcome (scan {} buffer) = .ok (some n) →
      (∃ value, readValue floats buffer = (.ok value, buffer.drop n)) ∨
        ∃ err left, readValue floats buffer = (.error err, left) ∧ err ≠ .invalidResponse) :=
  ⟨fun _ hchain hopen => scan_prefixes hchain hopen, fun _ _ h => scan_of_readValue floats h,
    fun _ h => readValue_of_scan floats h⟩

theorem scanner_agrees_ok :
    outcome ((feed {} [[43, 79], [43, 79, 75, 13]]).scan [43, 79, 75, 13, 10]) = .ok (some 5) ∧
      outcome (scan {} [43, 79, 75, 13, 10]) = .ok (some 5) := by
  have hagrees := scanner_agrees (⟨(), (), (), fun _ => none⟩ : Floats Unit) [43, 79, 75, 13, 10]
  have hfed := hagrees.1 [[43, 79], [43, 79, 75, 13]] (by decide) fun p hp n => by
    have hnone : ∀ p ∈ ([[43, 79], [43, 79, 75, 13]] : List Bytes),
        outcome (scan {} p) = .ok none := by decide
    rw [hnone p hp]
    simp
  have hfresh := hagrees.2.1 (.simpleString [79, 75]) [] rfl
  exact ⟨hfed.trans hfresh, hfresh⟩

/-- `+OK` and `+A`: what follows a complete reply is the next one. -/
theorem scan_after_complete :
    ¬ ∀ (buffer : Bytes) (prefixes : List Bytes), (prefixes ++ [buffer]).IsChain (· <+: ·) →
      outcome ((feed {} prefixes).scan buffer) = outcome (scan {} buffer) := by
  intro h
  have hsame := h [43, 79, 75, 13, 10, 43, 65, 13, 10] [[43, 79, 75, 13, 10]] (by decide)
  exact absurd hsame (by decide)

end ReplyScanner

end OhosBun.Valkey
