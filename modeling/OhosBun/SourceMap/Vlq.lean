/-
# `OhosBun.SourceMap.Vlq` — the base64 VLQs of a mappings string

`vlq` of the `base64` crate.  A value is folded to sign and magnitude, the sign
in the low bit, and written in groups of five bits, low group first, as base64
digits whose sixth bit says that another group follows.

`i32::MIN` has no representation: its magnitude does not fit beside the sign bit
and it is written as minus zero.  Every other value is read back
(`decode_encode`).

The decoder looks at eight bytes at most, takes a byte outside the alphabet for
the digit 127 (whose continuation bit is set), and reports failure by not moving.
-/
import OhosBun.SourceMap.Varint

namespace OhosBun.SourceMap.Vlq

open OhosBun.Lib

/-! ## The alphabet -/

/-- `STANDARD_ALPHABET_CHARS`: `A`–`Z`, `a`–`z`, `0`–`9`, `+`, `/`. -/
def base64 : Bytes :=
  (List.range' 65 26 ++ List.range' 97 26 ++ List.range' 48 10 ++ [43, 47]).map UInt8.ofNat

/-- `BASE64_LUT`, with 127 for what is not in the alphabet. -/
def base64Lut (index : UInt8) : UInt32 := UInt32.ofNat ((base64.idxOf? index).getD 127)

/-- `BASE64[digit]`. -/
def base64Digit (digit : UInt32) : UInt8 := base64.getD digit.toNat 0

/-! ## Encoding -/

/-- `VLQ_MAX_IN_BYTES`. -/
def vlqMaxInBytes : Nat := 7

/-- The loop of `encode_slow_path`; it falls out when the digits do not suffice. -/
def encodeLoop : (fuel : Nat) → UInt32 → Option Bytes
  | 0, _ => none
  | fuel + 1, vlq =>
    let digit := vlq &&& 31
    let vlq := vlq >>> 5
    if vlq = 0 then some [base64Digit digit]
    else (encodeLoop fuel vlq).map (base64Digit (digit ||| 32) :: ·)

/-- Sign and magnitude in one word. -/
def fold (value : Int32) : UInt32 :=
  if value ≥ 0 then (value <<< 1).toUInt32 else (value.toInt.natAbs.toUInt32 <<< 1) ||| 1

def encodeSlowPath (value : Int32) : Bytes := (encodeLoop vlqMaxInBytes (fold value)).getD []

/-- `VLQ_LOOKUP_TABLE`. -/
def vlqLookupTable : List Bytes :=
  (List.range 256).map fun i => encodeSlowPath (Int32.ofNat i)

/-- The bytes of `VLQ::encode(value)`. -/
def encode (value : Int32) : Bytes :=
  if value ≥ 0 ∧ value ≤ 255 then vlqLookupTable.getD value.toInt.toNat []
  else encodeSlowPath value

/-! ## Decoding -/

structure VLQResult where
  value : Int32
  start : Nat
  deriving DecidableEq

/-- The loop of `decode_impl`: the word and the number of bytes read. -/
def decodeLoop : Bytes → (i shift : Nat) → UInt32 → Option (UInt32 × Nat)
  | [], _, _, _ => none
  | byte :: rest, i, shift, vlq =>
    let index := base64Lut (byte &&& 0x7f)
    let vlq := vlq ||| ((index &&& 31) <<< UInt32.ofNat (shift % 32))
    if index &&& 32 = 0 then some (vlq, i + 1) else decodeLoop rest (i + 1) (shift + 5) vlq

/-- The value of a word. -/
def unfold (vlq : UInt32) : Int32 :=
  if vlq &&& 1 = 0 then (vlq >>> 1).toInt32 else -(vlq >>> 1).toInt32

/-- `decode`, and `decode_assume_valid` without its assertions. -/
def decode (encoded : Bytes) (start : Nat) : VLQResult :=
  match decodeLoop ((encoded.drop start).take (vlqMaxInBytes + 1)) 0 0 0 with
  | some (vlq, n) => ⟨unfold vlq, start + n⟩
  | none => ⟨0, start⟩

/-! ## Digits -/

variable {d : UInt32} {v : Int32}

theorem base64Lut_base64Digit (h : d.toNat < 64) :
    base64Lut (base64Digit d &&& 0x7f) = d := by
  have key : ∀ i : Fin 64, base64Lut (base64Digit (UInt32.ofNat i) &&& 0x7f) = UInt32.ofNat i := by
    decide
  have hd := key ⟨d.toNat, h⟩
  rwa [UInt32.ofNat_toNat] at hd

theorem low5_toNat (v : UInt32) : (v &&& 31).toNat = v.toNat % 32 := by
  have h5 : (31 : UInt32).toNat = 2 ^ 5 - 1 := rfl
  rw [UInt32.toNat_and, h5, Nat.and_two_pow_sub_one_eq_mod]

theorem shr5_toNat (v : UInt32) : (v >>> 5).toNat = v.toNat / 32 := by
  rw [UInt32.toNat_shiftRight]
  simp [Nat.shiftRight_eq_div_pow]

theorem or32_toNat (h : d.toNat < 32) : (d ||| 32).toNat = d.toNat + 32 := by
  have h32 : (32 : UInt32).toNat = 2 ^ 5 * 1 := rfl
  rw [UInt32.toNat_or, h32, Nat.or_comm, ← Nat.two_pow_add_eq_or_of_lt h]
  omega

/-- The continuation bit of a digit. -/
theorem bit5_clear (h : d.toNat < 64) : d &&& 32 = 0 ↔ d.toNat < 32 := by
  have key : ∀ i : Fin 64, i.val &&& 32 = 0 ↔ i.val < 32 := by decide
  rw [← UInt32.toNat_inj, UInt32.toNat_and]
  exact key ⟨d.toNat, h⟩

/-! ## The decoder on the encoder's digits -/

/-- The loops meet: `acc` holds the groups below `5 * k`, `v` the ones to come. -/
theorem decodeLoop_encodeLoop (fuel : Nat) : ∀ (k i : Nat) (v acc : UInt32) (post : Bytes),
    v.toNat < 2 ^ (5 * fuel) → acc.toNat < 2 ^ (5 * k) →
    acc.toNat + v.toNat * 2 ^ (5 * k) < 2 ^ 32 → k + fuel ≤ 7 → 0 < fuel →
    ∃ bs, encodeLoop fuel v = some bs ∧ bs.length ≤ fuel ∧ bs ≠ [] ∧ (∀ b ∈ bs, b ∈ base64) ∧
      decodeLoop (bs ++ post) i (5 * k) acc =
        some (UInt32.ofNat (acc.toNat + v.toNat * 2 ^ (5 * k)), i + bs.length) := by
  induction fuel with
  | zero => intro _ _ _ _ _ _ _ _ _ h; exact absurd h (Nat.lt_irrefl 0)
  | succ fuel ih =>
    intro k i v acc post hv hacc hsum hk _
    have hlow := low5_toNat v
    have hmod : v.toNat % 32 < 32 := Nat.mod_lt _ (by decide)
    have hpow : (2 : Nat) ^ (5 * (k + 1)) = 32 * 2 ^ (5 * k) := by
      rw [Nat.mul_add, Nat.pow_add]
      ring
    have hsplit : v.toNat * 2 ^ (5 * k) =
        v.toNat % 32 * 2 ^ (5 * k) + v.toNat / 32 * 2 ^ (5 * (k + 1)) := by
      rw [hpow]
      nth_rewrite 1 [← Nat.mod_add_div v.toNat 32]
      ring
    have hmem : ∀ {d : UInt32}, d.toNat < 64 → base64Digit d ∈ base64 := by
      intro d hd
      rw [base64Digit, List.getD_eq_getElem?_getD,
        List.getElem?_eq_getElem (show d.toNat < base64.length from hd)]
      exact List.getElem_mem _
    -- one digit, whatever its continuation bit
    have hgroup : ∀ d : UInt32, d.toNat % 32 = v.toNat % 32 →
        (acc ||| ((d &&& 31) <<< UInt32.ofNat (5 * k % 32))).toNat =
          acc.toNat + v.toNat % 32 * 2 ^ (5 * k) := by
      intro d hd
      rw [Nat.mod_eq_of_lt (by omega : 5 * k < 32),
        or_group_toNat (by omega) hacc (by rw [low5_toNat, hd]; omega), low5_toNat, hd]
    by_cases hz : v >>> 5 = 0
    · have hsmall : v.toNat / 32 = 0 := by rw [← shr5_toNat, hz]; rfl
      have hlt : (v &&& 31).toNat < 64 := by omega
      refine ⟨[base64Digit (v &&& 31)], by simp only [encodeLoop, hz, if_true], by simp,
        by simp, by simpa using hmem hlt, ?_⟩
      simp only [List.singleton_append, decodeLoop, base64Lut_base64Digit hlt,
        (bit5_clear hlt).mpr (by omega), if_true, List.length_singleton, Option.some.injEq,
        Prod.mk.injEq, and_true]
      apply UInt32.toNat_inj.mp
      rw [hgroup _ (by omega), UInt32.toNat_ofNat', Nat.mod_eq_of_lt hsum, hsplit, hsmall]
      omega
    · have hbig : v.toNat / 32 ≠ 0 := by
        intro h
        exact hz (UInt32.toNat_inj.mp (by rw [shr5_toNat, h]; rfl))
      have hdigit := or32_toNat (d := v &&& 31) (by omega)
      have hlt : ((v &&& 31) ||| 32).toNat < 64 := by omega
      have hnext := hgroup ((v &&& 31) ||| 32) (by omega)
      have hfuel : 0 < fuel := by
        rcases Nat.eq_zero_or_pos fuel with rfl | h
        · norm_num at hv
          omega
        · exact h
      have hv' : (v >>> 5).toNat < 2 ^ (5 * fuel) := by
        rw [shr5_toNat, Nat.div_lt_iff_lt_mul (by decide)]
        calc v.toNat < 2 ^ (5 * (fuel + 1)) := hv
          _ = 2 ^ (5 * fuel) * 32 := by rw [Nat.mul_add, Nat.pow_add]
      have hacc' : acc.toNat + v.toNat % 32 * 2 ^ (5 * k) < 2 ^ (5 * (k + 1)) := by
        have := Nat.mul_le_mul_right (2 ^ (5 * k)) (show v.toNat % 32 ≤ 31 by omega)
        rw [hpow]
        omega
      obtain ⟨bs, hbs, hlen, -, hall, hdec⟩ := ih (k + 1) (i + 1) (v >>> 5) _ post hv'
        (by rw [hnext]; exact hacc') (by rw [hnext, shr5_toNat]; omega) (by omega) hfuel
      refine ⟨base64Digit ((v &&& 31) ||| 32) :: bs, ?_, by simpa using hlen, by simp, ?_, ?_⟩
      · simp only [encodeLoop, hz, if_false, hbs, Option.map_some]
      · rintro b hb
        rcases List.mem_cons.mp hb with rfl | hb
        · exact hmem hlt
        · exact hall b hb
      · have hcont : ¬ ((v &&& 31) ||| 32) &&& 32 = 0 := by
          rw [bit5_clear hlt]
          omega
        simp only [List.cons_append, decodeLoop, base64Lut_base64Digit hlt, hcont, if_false]
        rw [show 5 * k + 5 = 5 * (k + 1) by ring, hdec, hnext, shr5_toNat, List.length_cons]
        rw [Nat.add_assoc, ← hsplit, Nat.add_right_comm]
        rfl

/-! ## Sign and magnitude -/

theorem toInt_eq (v : Int32) : v.toInt =
    if 2 * v.toBitVec.toNat < 2 ^ 32 then (v.toBitVec.toNat : Int) else v.toBitVec.toNat - 2 ^ 32 := by
  have h := BitVec.toInt_eq_toNat_cond v.toBitVec
  simpa using h

theorem fold_of_nonneg (h : 0 ≤ v) : (fold v).toNat = 2 * v.toInt.toNat := by
  have hv := toInt_eq v
  have h0 : (0 : Int) ≤ v.toInt := by simpa using Int32.le_iff_toInt_le.mp h
  have hlt := v.toBitVec.isLt
  rw [fold, if_pos h]
  show (v.toBitVec <<< 1).toNat = _
  rw [BitVec.toNat_shiftLeft, Nat.shiftLeft_eq]
  split at hv <;> omega

theorem fold_of_neg (h : ¬ 0 ≤ v) (hmin : v ≠ Int32.minValue) :
    (fold v).toNat = 2 * v.toInt.natAbs + 1 := by
  have hle := Int32.minValue_le_toInt v
  have hneg : v.toInt < 0 := by simpa [Int32.le_iff_toInt_le] using h
  have hne : v.toInt ≠ -2147483648 := fun heq => hmin (Int32.toInt_inj.mp (by rw [heq]; rfl))
  have hmag : (v.toInt.natAbs.toUInt32 <<< 1).toNat = 2 * v.toInt.natAbs := by
    rw [UInt32.toNat_shiftLeft, Nat.toUInt32_eq, UInt32.toNat_ofNat', Nat.shiftLeft_eq,
      show (1 : UInt32).toNat % 32 = 1 from rfl]
    simp at hle
    omega
  rw [fold, if_neg h, UInt32.toNat_or, hmag]
  exact (Nat.two_pow_add_eq_or_of_lt (show 1 < 2 ^ 1 by decide) _).symm

theorem toInt_toInt32 {w : UInt32} (h : w.toNat < 2 ^ 31) : w.toInt32.toInt = w.toNat := by
  rw [toInt_eq]
  show (if 2 * w.toNat < _ then (w.toNat : Int) else _) = _
  rw [if_pos (by omega)]

theorem shr1_toNat (w : UInt32) : (w >>> 1).toNat = w.toNat / 2 := by
  rw [UInt32.toNat_shiftRight]
  simp [Nat.shiftRight_eq_div_pow]

theorem bit0_clear (w : UInt32) : w &&& 1 = 0 ↔ w.toNat % 2 = 0 := by
  have h1 : (1 : UInt32).toNat = 2 ^ 1 - 1 := rfl
  rw [← UInt32.toNat_inj, UInt32.toNat_and, h1, Nat.and_two_pow_sub_one_eq_mod]
  rfl

/-- Sign and magnitude are recovered, but for `i32::MIN`. -/
theorem unfold_fold (h : v ≠ Int32.minValue) : unfold (fold v) = v := by
  have hhalf : (fold v >>> 1).toNat < 2 ^ 31 := by
    have := (fold v).toNat_lt
    rw [shr1_toNat]
    omega
  have hint := toInt_toInt32 hhalf
  rw [shr1_toNat] at hint
  apply Int32.toInt_inj.mp
  by_cases hv : 0 ≤ v
  · have hfold := fold_of_nonneg hv
    have h0 : (0 : Int) ≤ v.toInt := by simpa using Int32.le_iff_toInt_le.mp hv
    rw [unfold, if_pos ((bit0_clear _).mpr (by omega)), hint]
    omega
  · have hfold := fold_of_neg hv h
    have hneg : v.toInt < 0 := by simpa [Int32.le_iff_toInt_le] using hv
    rw [unfold, if_neg (by rw [bit0_clear]; omega), Int32.toInt_neg, hint]
    have hmag : -(((2 * v.toInt.natAbs + 1) / 2 : Nat) : Int) = v.toInt := by omega
    rw [hfold, hmag]
    exact Int32.toInt_bmod_size v

/-! ## The round trip -/

theorem encode_eq (v : Int32) : encode v = encodeSlowPath v := by
  rw [encode]
  split
  · next h =>
      have h0 : (0 : Int) ≤ v.toInt := by simpa using Int32.le_iff_toInt_le.mp h.1
      have h255 : v.toInt ≤ 255 := by simpa using Int32.le_iff_toInt_le.mp h.2
      have hlt : v.toInt.toNat < 256 := by omega
      have hv : Int32.ofNat v.toInt.toNat = v := by
        apply Int32.toInt_inj.mp
        rw [Int32.toInt_ofNat_of_lt (by omega)]
        omega
      rw [vlqLookupTable, List.getD_eq_getElem?_getD, List.getElem?_map, List.getElem?_range hlt,
        Option.map_some, Option.getD_some, hv]
  · rfl

/-- What `decode` reads is its first bytes, at least one. -/
theorem decodeLoop_prefix (bs : Bytes) : ∀ {i shift : Nat} {acc w : UInt32} {n : Nat},
    decodeLoop bs i shift acc = some (w, n) →
      ∃ pre rest, bs = pre ++ rest ∧ pre ≠ [] ∧ n = i + pre.length ∧
        ∀ rest', decodeLoop (pre ++ rest') i shift acc = some (w, n) := by
  induction bs with
  | nil => exact fun h => absurd h (by rintro ⟨⟩)
  | cons b bs ih =>
    intro i shift acc w n h
    simp only [decodeLoop] at h
    split at h
    · next hstop =>
        obtain ⟨rfl, rfl⟩ := Prod.mk.inj (Option.some.inj h)
        refine ⟨[b], bs, rfl, by simp, rfl, fun rest' => ?_⟩
        simp only [List.singleton_append, decodeLoop, hstop, if_true]
    · next hcont =>
        obtain ⟨pre, rest, rfl, -, rfl, hpre⟩ := ih h
        refine ⟨b :: pre, rest, rfl, by simp, by rw [List.length_cons]; omega, fun rest' => ?_⟩
        simp only [List.cons_append, decodeLoop, hcont, if_false, hpre rest']

/-- A VLQ ends where its own digits say, whatever follows. -/
theorem decode_prefix {bs : Bytes} (h : (decode bs 0).start ≠ 0) :
    ∃ pre rest, bs = pre ++ rest ∧ pre ≠ [] ∧
      ∀ rest', decode (pre ++ rest') 0 = ⟨(decode bs 0).value, pre.length⟩ := by
  unfold decode at h ⊢
  rw [List.drop_zero] at h ⊢
  cases hloop : decodeLoop (bs.take (vlqMaxInBytes + 1)) 0 0 0 with
  | none => rw [hloop] at h; exact absurd rfl h
  | some r =>
    obtain ⟨w, n⟩ := r
    obtain ⟨pre, rest, htake, hne, rfl, hpre⟩ := decodeLoop_prefix _ hloop
    have hlen : pre.length ≤ vlqMaxInBytes + 1 := by
      have h₁ := congrArg List.length htake
      have h₂ := List.length_take_le (vlqMaxInBytes + 1) bs
      rw [List.length_append] at h₁
      omega
    refine ⟨pre, rest ++ bs.drop (vlqMaxInBytes + 1), ?_, hne, fun rest' => ?_⟩
    · rw [← List.append_assoc, ← htake, List.take_append_drop]
    · rw [List.drop_zero, List.take_append, List.take_of_length_le hlen, hpre]
      simp only [Nat.zero_add]

theorem decode_drop (bs : Bytes) (k : Nat) :
    decode bs k = ⟨(decode (bs.drop k) 0).value, k + (decode (bs.drop k) 0).start⟩ := by
  unfold decode
  rw [List.drop_zero]
  split
  · rw [Nat.zero_add]
  · rfl

/-- **The round trip.** -/
theorem decode_encode (h : v ≠ Int32.minValue) (post : Bytes) :
    decode (encode v ++ post) 0 = ⟨v, (encode v).length⟩ := by
  obtain ⟨bs, hbs, hlen, -, -, hdec⟩ := decodeLoop_encodeLoop vlqMaxInBytes 0 0 (fold v) 0
    (post.take (vlqMaxInBytes + 1 - (encode v).length)) (by have := (fold v).toNat_lt; simp [vlqMaxInBytes]; omega)
    (by decide) (by simpa using (fold v).toNat_lt) (by decide) (by decide)
  have hencode : encode v = bs := by rw [encode_eq, encodeSlowPath, hbs, Option.getD_some]
  rw [hencode] at hdec ⊢
  simp only [Nat.mul_zero, UInt32.toNat_zero, Nat.zero_add, Nat.pow_zero, Nat.mul_one,
    UInt32.ofNat_toNat] at hdec
  rw [decode, List.drop_zero, List.take_append, List.take_of_length_le (by omega), hdec]
  simp only [unfold_fold h, Nat.zero_add]

/-- The digits of a VLQ are in the alphabet. -/
theorem encode_subset (v : Int32) : encode v ≠ [] ∧ ∀ b ∈ encode v, b ∈ base64 := by
  obtain ⟨bs, hbs, -, hne, hall, -⟩ := decodeLoop_encodeLoop vlqMaxInBytes 0 0 (fold v) 0 []
    (by have := (fold v).toNat_lt; simp [vlqMaxInBytes]; omega) (by decide)
    (by simpa using (fold v).toNat_lt) (by decide) (by decide)
  rw [encode_eq, encodeSlowPath, hbs, Option.getD_some]
  exact ⟨hne, hall⟩

end OhosBun.SourceMap.Vlq
