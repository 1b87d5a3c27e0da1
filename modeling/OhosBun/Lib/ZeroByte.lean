/-
# `OhosBun.Lib.ZeroByte` — the first zero byte of a word

A word of `n` little-endian bytes has a zero byte where `(x - 0x01…01) & !x & 0x80…80` has its
lowest bit (`trailingZeros_zeroBytes`).  Above that bit the subtraction may have borrowed, and
the other bits say nothing.
-/
import Mathlib.Data.Nat.Bitwise
import OhosBun.Lib.Buffer

namespace OhosBun.Lib

/-- The zeros below the lowest bit of a word of that many bits. -/
def trailingZeros : (width : Nat) → Nat → Nat
  | 0, _ => 0
  | width + 1, x => if x % 2 = 1 then 0 else trailingZeros width (x / 2) + 1

/-- The word of `n` bytes that are all the same. -/
def splat (c : Nat) : Nat → Nat
  | 0 => 0
  | n + 1 => c + 256 * splat c n

def zeroBytes (n x : Nat) : Nat :=
  (x + 256 ^ n - splat 1 n) % 256 ^ n &&& (256 ^ n - 1 - x) &&& splat 128 n

/-! ## Words -/

theorem splat_lt {c : Nat} (h : c < 256) (n : Nat) : splat c n < 256 ^ n := by
  induction n with
  | zero => exact Nat.one_pos
  | succ n ih =>
    rw [splat, Nat.pow_succ]
    omega

theorem and_add_mul {a b x y : Nat} (ha : a < 256) (hb : b < 256) :
    (a + 256 * x) &&& (b + 256 * y) = (a &&& b) + 256 * (x &&& y) := by
  have hab : a &&& b < 256 := (Nat.and_le_left).trans_lt ha
  have hmod := Nat.and_mod_two_pow (a := a + 256 * x) (b := b + 256 * y) (n := 8)
  have hdiv := Nat.and_div_two_pow (a := a + 256 * x) (b := b + 256 * y) (n := 8)
  rw [show (a + 256 * x) % 2 ^ 8 = a by omega, show (b + 256 * y) % 2 ^ 8 = b by omega] at hmod
  rw [show (a + 256 * x) / 2 ^ 8 = x by omega, show (b + 256 * y) / 2 ^ 8 = y by omega] at hdiv
  omega

theorem add_mul_mod {a : Nat} (ha : a < 256) (x m : Nat) :
    (a + 256 * x) % (256 * m) = a + 256 * (x % m) := by
  rw [Nat.mod_mul, show (a + 256 * x) % 256 = a by omega, show (a + 256 * x) / 256 = x by omega]

theorem and_high_of_lt {a : Nat} (ha : a < 128) : a &&& 128 = 0 := by
  have hbit : a.testBit 7 = false := Nat.testBit_lt_two_pow ha
  rw [show 128 = 2 ^ 7 from rfl, Nat.and_two_pow, hbit]
  rfl

theorem trailingZeros_add (k width x : Nat) :
    trailingZeros (k + width) (2 ^ k * x) = k + trailingZeros width x := by
  induction k with
  | zero => rw [Nat.pow_zero, Nat.one_mul, Nat.zero_add, Nat.zero_add]
  | succ k ih =>
    have heven : ¬ 2 ^ (k + 1) * x % 2 = 1 := by
      rw [Nat.pow_succ, Nat.mul_right_comm]
      omega
    have hhalf : 2 ^ (k + 1) * x / 2 = 2 ^ k * x := by
      rw [Nat.pow_succ, Nat.mul_right_comm]
      omega
    rw [Nat.succ_add, trailingZeros, if_neg heven, hhalf, ih]
    omega

/-! ## Bytes -/

theorem ofLe_append (as bs : Bytes) : ofLe (as ++ bs) = ofLe as + 256 ^ as.length * ofLe bs := by
  induction as with
  | nil => simp [ofLe]
  | cons a as ih =>
    rw [List.cons_append, ofLe, ih, ofLe, List.length_cons, Nat.pow_succ]
    ring

/-- The bytes of a number of a known size are determined. -/
theorem ofLe_inj {as bs : Bytes} (hlen : as.length = bs.length) (h : ofLe as = ofLe bs) :
    as = bs := by
  induction as generalizing bs with
  | nil => exact (List.eq_nil_of_length_eq_zero hlen.symm).symm
  | cons a as ih =>
    cases bs with
    | nil => exact absurd hlen (by simp)
    | cons b bs =>
      have ha := a.toNat_lt
      have hb := b.toNat_lt
      rw [ofLe, ofLe] at h
      have hhead : a = b := UInt8.toNat_inj.mp (by omega)
      rw [hhead, ih (Nat.succ.inj hlen) (by omega)]

theorem leBytes_add (m n v : Nat) : leBytes (m + n) v = leBytes m v ++ leBytes n (v / 256 ^ m) := by
  induction m generalizing v with
  | zero => simp [leBytes]
  | succ m ih => rw [Nat.succ_add, leBytes, ih, leBytes, Nat.div_div_eq_div_mul, Nat.pow_succ',
      List.cons_append]

/-- A byte that is not zero leaves no mark, and there is no borrow. -/
theorem zeroBytes_of_pos {n b x : Nat} (hpos : 0 < b) (hb : b < 256) (hx : x < 256 ^ n) :
    zeroBytes (n + 1) (b + 256 * x) = 256 * zeroBytes n x := by
  have hone := splat_lt (c := 1) (by decide) n
  have hlow : (b - 1) &&& (255 - b) &&& 128 = 0 := by
    refine and_high_of_lt ?_
    rcases Nat.lt_or_ge b 129 with hlt | hge
    · exact (Nat.and_le_left).trans_lt (by omega)
    · exact (Nat.and_le_right).trans_lt (by omega)
  have hsub : (b + 256 * x + 256 ^ (n + 1) - splat 1 (n + 1)) % 256 ^ (n + 1) =
      (b - 1) + 256 * ((x + 256 ^ n - splat 1 n) % 256 ^ n) := by
    have hsplit : b + 256 * x + 256 ^ (n + 1) - splat 1 (n + 1) =
        (b - 1) + 256 * (x + 256 ^ n - splat 1 n) := by
      rw [splat, Nat.pow_succ]
      omega
    rw [hsplit, Nat.pow_succ, Nat.mul_comm (256 ^ n) 256, add_mul_mod (by omega)]
  have hnot : 256 ^ (n + 1) - 1 - (b + 256 * x) = (255 - b) + 256 * (256 ^ n - 1 - x) := by
    rw [Nat.pow_succ]
    omega
  have hand : (b - 1) &&& (255 - b) < 256 := (Nat.and_le_left).trans_lt (by omega)
  rw [zeroBytes, hsub, hnot, splat, and_add_mul (by omega) (by omega), and_add_mul hand (by decide),
    hlow, Nat.zero_add, zeroBytes]

/-- The mark of a first zero byte. -/
theorem zeroBytes_of_zero {n x : Nat} (hx : x < 256 ^ n) :
    ∃ y, zeroBytes (n + 1) (256 * x) = 2 ^ 7 * (1 + 2 * y) := by
  have hone := splat_lt (c := 1) (by decide) n
  have hsub : ∃ z, (256 * x + 256 ^ (n + 1) - splat 1 (n + 1)) % 256 ^ (n + 1) = 255 + 256 * z := by
    refine ⟨(x + 256 ^ n - splat 1 n - 1) % 256 ^ n, ?_⟩
    have hsplit : 256 * x + 256 ^ (n + 1) - splat 1 (n + 1) =
        255 + 256 * (x + 256 ^ n - splat 1 n - 1) := by
      rw [splat, Nat.pow_succ]
      omega
    rw [hsplit, Nat.pow_succ, Nat.mul_comm (256 ^ n) 256, add_mul_mod (by decide)]
  obtain ⟨z, hz⟩ := hsub
  have hnot : 256 ^ (n + 1) - 1 - 256 * x = 255 + 256 * (256 ^ n - 1 - x) := by
    rw [Nat.pow_succ]
    omega
  refine ⟨z &&& (256 ^ n - 1 - x) &&& splat 128 n, ?_⟩
  rw [zeroBytes, hz, hnot, splat, and_add_mul (by decide) (by decide),
    and_add_mul (by decide) (by decide), show 255 &&& 255 &&& 128 = 128 by decide]
  omega

/-- **The first zero byte**: eight zeros for each byte before it, and seven more; without a zero
byte there is no mark. -/
theorem trailingZeros_zeroBytes (bs : Bytes) :
    trailingZeros (8 * bs.length) (zeroBytes bs.length (ofLe bs)) / 8 = bs.findIdx (· = 0) := by
  induction bs with
  | nil => rfl
  | cons b bs ih =>
    have hlt := ofLe_lt bs
    have hwidth : 8 * (b :: bs).length = 8 + 8 * bs.length := by
      rw [List.length_cons]
      omega
    rw [hwidth, List.length_cons, ofLe, List.findIdx_cons]
    rcases Nat.eq_zero_or_pos b.toNat with hzero | hpos
    · obtain ⟨y, hy⟩ := zeroBytes_of_zero hlt
      have hb : b = 0 := UInt8.toNat_inj.mp hzero
      have hodd : trailingZeros (1 + 8 * bs.length) (1 + 2 * y) = 0 := by
        rw [Nat.add_comm 1 (8 * bs.length), trailingZeros, if_pos (by omega)]
      rw [hzero, Nat.zero_add, hy, show 8 + 8 * bs.length = 7 + (1 + 8 * bs.length) by omega,
        trailingZeros_add, hodd, hb]
      rfl
    · have hb : (b = 0) = False := by
        refine eq_false fun h => ?_
        rw [h] at hpos
        exact absurd hpos (by decide)
      rw [zeroBytes_of_pos hpos b.toNat_lt hlt, show 256 = 2 ^ 8 from rfl, trailingZeros_add,
        decide_eq_false (of_eq_false hb), cond_false, ← ih]
      omega

end OhosBun.Lib
