/-
# `OhosBun.SourceMap.Varint` — the zig-zag varints of the internal source map

`write_varint` / `read_varint` of `InternalSourceMap.rs`: a signed 32-bit delta
is folded to an unsigned one by zig-zag and then written in groups of seven
bits, low group first, with the high bit set on every byte but the last.  The
reader takes one byte on a fast path and loops over the rest; it stops at the
end of the slice or after five bytes, whatever the continuation bits say.

The one result the window codec uses is `readVarint_writeVarint`: reading at
the place a varint was written gives the value back and the position just
after it, with anything before and behind it.
-/
import OhosBun.Lib.Bytes
import Mathlib.Data.Nat.Bitwise

namespace OhosBun.SourceMap

open OhosBun.Lib

/-! ## Zig-zag -/

/-- `((value << 1) ^ (value >> 31)) as u32`, on `i32`. -/
def zigzagEncode (value : Int32) : UInt32 :=
  ((value <<< 1) ^^^ (value >>> 31)).toUInt32

/-- `(value >> 1) as i32 ^ (-((value & 1) as i32))`. -/
def zigzagDecode (value : UInt32) : Int32 :=
  (value >>> 1).toInt32 ^^^ (-((value &&& 1).toInt32))

/-- Shifting a word right by all but one of its bits spreads its sign bit. -/
theorem sshiftRight_last (x : BitVec 32) :
    x.sshiftRight 31 = if x.msb then ~~~0#32 else 0#32 := by
  ext i hi
  have hlast : x.msb = x[31] := by simp [BitVec.msb_eq_getLsbD_last]
  by_cases h : 31 + i < 32
  · obtain rfl : i = 0 := by omega
    cases hm : x.msb <;> simp_all [BitVec.getElem_sshiftRight]
  · cases hm : x.msb <;>
      simp only [BitVec.getElem_sshiftRight, h, hm, Bool.false_eq_true, if_false, if_true,
        dite_false, BitVec.getElem_not, BitVec.getElem_zero, Bool.not_false]

/-- Zig-zag on words: the low bit carries the sign, the others the magnitude. -/
theorem zigzag_word (x : BitVec 32) :
    ((x <<< 1 ^^^ x.sshiftRight 31) >>> 1) ^^^
      (-((x <<< 1 ^^^ x.sshiftRight 31) &&& 1#32)) = x := by
  have hlast : x.msb = x[31] := by simp [BitVec.msb_eq_getLsbD_last]
  have hzero : x <<< 1 &&& 1#32 = 0#32 := by
    ext i hi
    by_cases h0 : i = 0 <;> simp [h0]
  have hone : ~~~(x <<< 1) &&& 1#32 = 1#32 := by
    ext i hi
    by_cases h0 : i = 0 <;> simp [h0]
  rw [sshiftRight_last]
  cases hm : x.msb with
  | false =>
    simp only [Bool.false_eq_true, if_false, BitVec.xor_zero, hzero, BitVec.neg_zero]
    ext i hi
    rcases Nat.lt_or_ge i 31 with h | h
    · simp [show 1 + i < 32 by omega]
    · obtain rfl : i = 31 := by omega
      simp_all
  | true =>
    have hxor : x <<< 1 ^^^ ~~~0#32 = ~~~(x <<< 1) := by
      ext i hi
      simp only [BitVec.getElem_xor, BitVec.getElem_not]
      simp
    have hneg : -(1#32) = ~~~0#32 := by decide
    simp only [if_true, hxor, hone, hneg]
    ext i hi
    simp only [BitVec.getElem_xor, BitVec.getElem_not, BitVec.getElem_ushiftRight]
    rcases Nat.lt_or_ge i 31 with h | h
    · simp [show 1 + i < 32 by omega]
    · obtain rfl : i = 31 := by omega
      simp_all

theorem zigzagDecode_zigzagEncode (v : Int32) : zigzagDecode (zigzagEncode v) = v := by
  apply Int32.toBitVec_inj.mp
  simp only [zigzagDecode, zigzagEncode]
  exact zigzag_word v.toBitVec

/-! ## Varints -/

/-- `MAX_VARINT_LEN`: five groups of seven bits hold a `u32`. -/
def maxVarintLen : Nat := 5

/-- The loop of `write_varint`: at most `fuel` bytes of `v`. -/
def varintBytes : Nat → UInt32 → Bytes
  | 0, _ => []
  | fuel + 1, v =>
    let byte := (v &&& 0x7f).toUInt8
    let v' := v >>> 7
    if v' = 0 then [byte] else (byte ||| 0x80) :: varintBytes fuel v'

/-- The bytes `write_varint` stores; the number it returns is their count. -/
def writeVarint (signed : Int32) : Bytes :=
  varintBytes maxVarintLen (zigzagEncode signed)

/-- The loop of `read_varint` behind the first byte: it ends at the end of the
slice, after the group at shift 28, or at a byte without continuation bit. -/
def readVarintLoop (bytes : Bytes) : Nat → (i : Nat) → (shift : Nat) → UInt32 → UInt32 × Nat
  | 0, i, _, result => (result, i)
  | fuel + 1, i, shift, result =>
    if shift > 28 then (result, i)
    else
      match bytes[i]? with
      | none => (result, i)
      | some byte =>
        let result := result ||| ((byte &&& 0x7f).toUInt32 <<< UInt32.ofNat shift)
        if byte &&& 0x80 = 0 then (result, i + 1)
        else readVarintLoop bytes fuel (i + 1) (shift + 7) result

/-- `read_varint`: the value and the new position; `none` is the panic of
`bytes[i]` at the end of the slice. -/
def readVarint (bytes : Bytes) (pos : Nat) : Option (Int32 × Nat) := do
  let first ← bytes[pos]?
  if first < 0x80 then
    return (zigzagDecode first.toUInt32, pos + 1)
  let (result, i) := readVarintLoop bytes maxVarintLen (pos + 1) 7 (first &&& 0x7f).toUInt32
  return (zigzagDecode result, i)

/-! ### The writer's bytes, as numbers -/

theorem low7_toNat (v : UInt32) : ((v &&& 0x7f).toUInt8).toNat = v.toNat % 128 := by
  have h7 : (0x7f : UInt32).toNat = 2 ^ 7 - 1 := rfl
  rw [UInt32.toNat_toUInt8, UInt32.toNat_and, h7, Nat.and_two_pow_sub_one_eq_mod]
  omega

theorem shr7_toNat (v : UInt32) : (v >>> 7).toNat = v.toNat / 128 := by
  rw [UInt32.toNat_shiftRight]
  simp [Nat.shiftRight_eq_div_pow]

theorem shr7_eq_zero (v : UInt32) : v >>> 7 = 0 ↔ v.toNat < 128 := by
  rw [← UInt32.toNat_inj, shr7_toNat]
  simp only [UInt32.toNat_zero]
  omega

theorem or80_toNat {b : UInt8} (h : b.toNat < 128) : (b ||| 0x80).toNat = b.toNat + 128 := by
  have h80 : (0x80 : UInt8).toNat = 2 ^ 7 * 1 := rfl
  rw [UInt8.toNat_or, h80, Nat.or_comm, ← Nat.two_pow_add_eq_or_of_lt h]
  omega

theorem varintBytes_length_le (fuel : Nat) (v : UInt32) : (varintBytes fuel v).length ≤ fuel := by
  induction fuel generalizing v with
  | zero => simp [varintBytes]
  | succ fuel ih =>
    simp only [varintBytes]
    split
    · simp
    · simpa using ih (v >>> 7)

theorem writeVarint_length_le (d : Int32) : (writeVarint d).length ≤ maxVarintLen :=
  varintBytes_length_le _ _

/-! ### The reader on the writer's bytes -/

theorem byte_low7 (b : UInt8) : ((b &&& 0x7f).toUInt32).toNat = b.toNat % 128 := by
  have h7 : (0x7f : UInt8).toNat = 2 ^ 7 - 1 := rfl
  rw [UInt8.toNat_toUInt32, UInt8.toNat_and, h7, Nat.and_two_pow_sub_one_eq_mod]

theorem byte_high_clear (b : UInt8) : b &&& 0x80 = 0 ↔ b.toNat < 128 := by
  have h80 : (0x80 : UInt8).toNat = 2 ^ 7 := rfl
  have hlt := b.toNat_lt
  rw [← UInt8.toNat_inj, UInt8.toNat_and, h80, Nat.and_two_pow, Nat.testBit_eq_decide_div_mod_eq]
  simp only [UInt8.toNat_zero, mul_eq_zero, Bool.toNat_eq_zero, decide_eq_false_iff_not]
  omega

/-- OR-ing in a group above the bits already read is addition. -/
theorem or_group_toNat {result g : UInt32} {k : Nat} (hk : k < 32)
    (hr : result.toNat < 2 ^ k) (hfit : g.toNat * 2 ^ k < 2 ^ 32) :
    (result ||| g <<< UInt32.ofNat k).toNat = result.toNat + g.toNat * 2 ^ k := by
  have hshift : (g <<< UInt32.ofNat k).toNat = 2 ^ k * g.toNat := by
    rw [UInt32.toNat_shiftLeft]
    have hmod : (UInt32.ofNat k).toNat % 32 = k := by
      rw [UInt32.toNat_ofNat', Nat.mod_eq_of_lt (by omega : k < 2 ^ 32)]
      omega
    rw [hmod, Nat.shiftLeft_eq, Nat.mod_eq_of_lt hfit, Nat.mul_comm]
  rw [UInt32.toNat_or, hshift, Nat.or_comm, ← Nat.two_pow_add_eq_or_of_lt hr]
  ring

/-- The loop consumes exactly the remaining groups of a varint: `result` holds
the groups below `7 * k`, `v` the ones still to come. -/
theorem readVarintLoop_varintBytes (fuel : Nat) :
    ∀ (k rf : Nat) (v result : UInt32) (pre post : Bytes),
      v.toNat < 2 ^ (7 * fuel) → result.toNat < 2 ^ (7 * k) →
      result.toNat + v.toNat * 2 ^ (7 * k) < 2 ^ 32 → k + fuel ≤ 5 → 0 < fuel → fuel ≤ rf →
      readVarintLoop (pre ++ (varintBytes fuel v ++ post)) rf pre.length (7 * k) result =
        (UInt32.ofNat (result.toNat + v.toNat * 2 ^ (7 * k)),
          pre.length + (varintBytes fuel v).length) := by
  induction fuel with
  | zero => intro _ _ _ _ _ _ _ _ _ _ h; exact absurd h (Nat.lt_irrefl 0)
  | succ fuel ih =>
    intro k rf v result pre post hv hr hsum hk _ hrf
    obtain ⟨rf, rfl⟩ : ∃ rf', rf = rf' + 1 := ⟨rf - 1, by omega⟩
    have hshift : ¬ (7 * k > 28) := by omega
    have hlow := low7_toNat v
    have hpow : (2 : Nat) ^ (7 * (k + 1)) = 128 * 2 ^ (7 * k) := by
      rw [show 7 * (k + 1) = 7 * k + 7 by ring, Nat.pow_add]; ring
    -- the value splits into this group and the groups above it
    have hsplit : v.toNat * 2 ^ (7 * k) =
        v.toNat % 128 * 2 ^ (7 * k) + v.toNat / 128 * 2 ^ (7 * (k + 1)) := by
      rw [hpow]
      nth_rewrite 1 [← Nat.mod_add_div v.toNat 128]
      ring
    have hgroup : ∀ b : UInt8, b.toNat % 128 = v.toNat % 128 →
        (result ||| ((b &&& 0x7f).toUInt32 <<< UInt32.ofNat (7 * k))).toNat =
          result.toNat + v.toNat % 128 * 2 ^ (7 * k) := by
      intro b hb
      rw [or_group_toNat (by omega) hr (by rw [byte_low7, hb]; omega), byte_low7, hb]
    by_cases hz : v >>> 7 = 0
    · have hsmall := (shr7_eq_zero v).mp hz
      have hbyte : (v &&& 0x7f).toUInt8 &&& 0x80 = 0 := by
        rw [byte_high_clear, hlow]; omega
      simp only [varintBytes, hz, if_true, readVarintLoop, hshift, if_false,
        List.length_cons, List.length_nil, List.singleton_append]
      simp only [List.getElem?_append_right (Nat.le_refl _), Nat.sub_self,
        List.getElem?_cons_zero, hbyte, if_true, Prod.mk.injEq, and_true]
      apply UInt32.toNat_inj.mp
      rw [hgroup _ (by rw [hlow]; omega), UInt32.toNat_ofNat', Nat.mod_eq_of_lt hsum,
        Nat.mod_eq_of_lt hsmall]
    · have hbig : 128 ≤ v.toNat := by
        have := mt (shr7_eq_zero v).mpr hz
        omega
      have hb := or80_toNat (b := (v &&& 0x7f).toUInt8) (by rw [hlow]; omega)
      have hbyte : ¬ ((v &&& 0x7f).toUInt8 ||| 0x80) &&& 0x80 = 0 := by
        rw [byte_high_clear, hb]; omega
      have hmod : ((v &&& 0x7f).toUInt8 ||| 0x80).toNat % 128 = v.toNat % 128 := by
        rw [hb, hlow]; omega
      have hnext := hgroup _ hmod
      have hfuel : 0 < fuel := by
        rcases Nat.eq_zero_or_pos fuel with h0 | h0
        · subst h0; norm_num at hv; omega
        · exact h0
      have hv' : (v >>> 7).toNat < 2 ^ (7 * fuel) := by
        rw [shr7_toNat, Nat.div_lt_iff_lt_mul (by decide)]
        calc v.toNat < 2 ^ (7 * (fuel + 1)) := hv
          _ = 2 ^ (7 * fuel) * 128 := by rw [show 7 * (fuel + 1) = 7 * fuel + 7 by ring, Nat.pow_add]
      have hr' : result.toNat + v.toNat % 128 * 2 ^ (7 * k) < 2 ^ (7 * (k + 1)) := by
        have hm : v.toNat % 128 ≤ 127 := by omega
        have := Nat.mul_le_mul_right (2 ^ (7 * k)) hm
        rw [hpow]; omega
      have hrec := ih (k + 1) rf (v >>> 7)
        (result ||| ((((v &&& 0x7f).toUInt8 ||| 0x80) &&& 0x7f).toUInt32 <<< UInt32.ofNat (7 * k)))
        (pre ++ [(v &&& 0x7f).toUInt8 ||| 0x80]) post hv' (by rw [hnext]; exact hr')
        (by rw [hnext, shr7_toNat]; omega) (by omega) hfuel (by omega)
      simp only [hnext, shr7_toNat, List.length_append, List.length_singleton,
        List.append_assoc, List.singleton_append, show 7 * (k + 1) = 7 * k + 7 by ring] at hrec
      simp only [varintBytes, hz, if_false, readVarintLoop, hshift, List.cons_append,
        List.getElem?_append_right (Nat.le_refl _), Nat.sub_self, List.getElem?_cons_zero, hbyte,
        List.length_cons]
      rw [hrec]
      rw [show 7 * (k + 1) = 7 * k + 7 by ring] at hsplit
      simp only [Prod.mk.injEq]
      refine ⟨by rw [hsplit, Nat.add_assoc], by omega⟩

/-- Reading where a varint was written gives it back, with the position after it. -/
theorem readVarint_writeVarint (d : Int32) (pre post : Bytes) :
    readVarint (pre ++ (writeVarint d ++ post)) pre.length =
      some (d, pre.length + (writeVarint d).length) := by
  set u := zigzagEncode d with hu
  have hlt := u.toNat_lt
  by_cases hz : u >>> 7 = 0
  · have hsmall := (shr7_eq_zero u).mp hz
    have hbytes : writeVarint d = [(u &&& 0x7f).toUInt8] := by
      simp [writeVarint, maxVarintLen, varintBytes, ← hu, hz]
    have hfirst : (u &&& 0x7f).toUInt8 < 0x80 := by
      rw [UInt8.lt_iff_toNat_lt, low7_toNat]
      exact Nat.mod_lt _ (by decide)
    have hval : ((u &&& 0x7f).toUInt8).toUInt32 = u := by
      apply UInt32.toNat_inj.mp
      rw [UInt8.toNat_toUInt32, low7_toNat]; omega
    have hnth : (pre ++ (writeVarint d ++ post))[pre.length]? = some (u &&& 0x7f).toUInt8 := by
      rw [hbytes]; simp
    simp only [readVarint, hnth, Option.bind_eq_bind, Option.bind_some, hfirst, if_true, hval,
      Option.pure_def]
    rw [hbytes, hu, zigzagDecode_zigzagEncode]
    rfl
  · have hbig : 128 ≤ u.toNat := by
      have := mt (shr7_eq_zero u).mpr hz
      omega
    have hlow := low7_toNat u
    have hb := or80_toNat (b := (u &&& 0x7f).toUInt8) (by rw [hlow]; omega)
    have hbytes : writeVarint d = ((u &&& 0x7f).toUInt8 ||| 0x80) :: varintBytes 4 (u >>> 7) := by
      simp only [writeVarint, maxVarintLen, varintBytes, ← hu, hz, if_false]
    have hfirst : ¬ (u &&& 0x7f).toUInt8 ||| 0x80 < 0x80 := by
      rw [UInt8.lt_iff_toNat_lt, hb]
      have : (0x80 : UInt8).toNat = 128 := rfl
      omega
    have hg : ((((u &&& 0x7f).toUInt8 ||| 0x80) &&& 0x7f).toUInt32).toNat = u.toNat % 128 := by
      rw [byte_low7, hb, hlow]; omega
    have hloop := readVarintLoop_varintBytes 4 1 maxVarintLen (u >>> 7)
      ((((u &&& 0x7f).toUInt8 ||| 0x80) &&& 0x7f).toUInt32)
      (pre ++ [(u &&& 0x7f).toUInt8 ||| 0x80]) post
      (by rw [shr7_toNat]; omega) (by rw [hg]; omega) (by rw [hg, shr7_toNat]; omega)
      (by decide) (by decide) (by decide)
    simp only [hg, shr7_toNat, List.length_append, List.length_singleton, List.append_assoc,
      List.singleton_append] at hloop
    have hval : UInt32.ofNat (u.toNat % 128 + u.toNat / 128 * 2 ^ (7 * 1)) = u := by
      apply UInt32.toNat_inj.mp
      rw [UInt32.toNat_ofNat']
      omega
    have hnth : (pre ++ (writeVarint d ++ post))[pre.length]? =
        some ((u &&& 0x7f).toUInt8 ||| 0x80) := by
      rw [hbytes]; simp
    simp only [readVarint, hnth, Option.bind_eq_bind, Option.bind_some, hfirst, if_false,
      Option.pure_def]
    rw [hbytes, List.cons_append, hloop, hval, hu, zigzagDecode_zigzagEncode]
    simp only [List.length_cons, Option.some.injEq, Prod.mk.injEq, true_and]
    omega

end OhosBun.SourceMap
