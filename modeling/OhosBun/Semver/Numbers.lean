/-
# `OhosBun.Semver.Numbers` — digits and their value

What `parseAscii` reads, and that `decimal` writes it: a string of digits has a
value of any size; `parseAscii` returns it below `2 ^ 64` and rejects every other
string without underscores.
-/
import Mathlib.Data.List.Induction
import OhosBun.Semver.Version

namespace OhosBun.Semver

/-- The value of a string of digits. -/
def digitsValue (acc : Nat) (s : List UInt8) : Nat :=
  s.foldl (fun acc c => acc * 10 + (c.toNat - 48)) acc

/-- The value of a numeric identifier. -/
def value (s : List UInt8) : Nat := digitsValue 0 s

theorem le_digitsValue (acc : Nat) (s : List UInt8) : acc ≤ digitsValue acc s := by
  induction s generalizing acc with
  | nil => exact le_rfl
  | cons c s ih =>
    refine le_trans ?_ (ih (acc * 10 + (c.toNat - 48)))
    omega

variable {c : UInt8} {s : List UInt8} {d n : Nat}

theorem isDigit_iff : isDigit c = true ↔ 48 ≤ c.toNat ∧ c.toNat ≤ 57 := by
  simp [isDigit, UInt8.le_iff_toNat_le]

/-- The digit loop in radix ten: digits only, and no overflow of `u128`. -/
theorem parseDigits_eq {acc : Nat} (hs : 95 ∉ s) (hacc : acc < 2 ^ 128) :
    parseDigits 10 acc s =
      if s.all isDigit ∧ digitsValue acc s < 2 ^ 128 then some (digitsValue acc s) else none := by
  induction s generalizing acc with
  | nil => exact (if_pos ⟨rfl, hacc⟩).symm
  | cons c s ih =>
    obtain ⟨hc, hs⟩ := List.ne_and_not_mem_of_not_mem_cons hs
    rw [parseDigits, if_neg hc.symm]
    by_cases hd : isDigit c = true
    · obtain ⟨hlo, hhi⟩ := isDigit_iff.1 hd
      have hlt : ¬ 10 ≤ c.toNat - 48 := by omega
      simp only [hd, if_true, if_neg hlt]
      by_cases hsum : acc * 10 + (c.toNat - 48) < 2 ^ 128
      · rw [if_pos hsum, ih hs hsum]
        simp [hd, digitsValue]
      · rw [if_neg hsum, if_neg]
        rintro ⟨-, hbig⟩
        exact hsum ((le_digitsValue _ s).trans_lt hbig)
    · have hall : ¬ ((c :: s).all isDigit = true ∧ digitsValue acc (c :: s) < 2 ^ 128) := by
        rintro ⟨hall, -⟩
        exact hd (List.all_eq_true.mp hall c List.mem_cons_self)
      rw [if_neg hall]
      simp only [hd, Bool.false_eq_true, if_false]
      by_cases hlow : 97 ≤ c ∧ c ≤ 122
      · simp [hlow]
      · by_cases hup : 65 ≤ c ∧ c ≤ 90
        · simp [hlow, hup]
        · simp [hlow, hup]

/-- What `u64::parse_ascii` accepts. -/
theorem parseAscii_eq (hne : s ≠ []) (hs : 95 ∉ s) :
    parseAscii s = if s.all isDigit ∧ value s < 2 ^ 64 then some (value s) else none := by
  have hhead : ¬ (s.isEmpty || s.head? = some 95 || s.getLast? = some 95) = true := by
    simp only [Bool.or_eq_true, List.isEmpty_iff, decide_eq_true_eq, not_or]
    exact ⟨⟨hne, fun h => hs (List.mem_of_mem_head? h)⟩, fun h => hs (List.mem_of_getLast? h)⟩
  rw [parseAscii, parseWithSign, if_neg hhead, parseDigits_eq hs (by decide)]
  by_cases hall : s.all isDigit = true
  · by_cases hbig : digitsValue 0 s < 2 ^ 128
    · rw [if_pos ⟨hall, hbig⟩, value]
      simp only [hall, true_and]
    · have hbig' : ¬ value s < 2 ^ 64 := fun h => hbig (h.trans (by decide))
      rw [if_neg fun h => hbig h.2, if_neg fun h => hbig' h.2]
  · rw [if_neg fun h => hall h.1, if_neg fun h => hall h.1]

/-! ## Decimal -/

theorem toNat_digit (hd : d < 10) : (48 + UInt8.ofNat d).toNat = 48 + d := by
  rw [UInt8.toNat_add, UInt8.toNat_ofNat']
  have : UInt8.toNat 48 = 48 := rfl
  rw [this]
  omega

theorem decimal_of_lt (hd : d < 10) : decimal d = [48 + UInt8.ofNat d] := by
  unfold decimal
  by_cases h : d = 0
  · subst h
    rfl
  · rw [if_neg h, Nat.digits_of_lt 10 d h hd]
    rfl

theorem decimal_snoc (hn : n ≠ 0) (hd : d < 10) :
    decimal (n * 10 + d) = decimal n ++ [48 + UInt8.ofNat d] := by
  have hpos : 0 < n * 10 + d := by omega
  have hdigits : Nat.digits 10 (n * 10 + d) = d :: Nat.digits 10 n := by
    rw [Nat.digits_def' (by decide) hpos]
    congr 1
    · omega
    · congr 1
      omega
  rw [decimal, if_neg hpos.ne', hdigits, decimal, if_neg hn, List.map_cons, List.reverse_cons]

/-- Induction on the last digit. -/
theorem decimal_induction {P : Nat → Prop} (hlast : ∀ d < 10, P d)
    (hsnoc : ∀ n d, n ≠ 0 → d < 10 → P n → P (n * 10 + d)) (n : Nat) : P n := by
  induction n using Nat.strong_induction_on with
  | _ n ih =>
    rcases Nat.lt_or_ge n 10 with hn | hn
    · exact hlast n hn
    · have hsplit : n = n / 10 * 10 + n % 10 := by omega
      rw [hsplit]
      exact hsnoc _ _ (by omega) (by omega) (ih _ (by omega))

theorem value_decimal (n : Nat) : value (decimal n) = n := by
  induction n using decimal_induction with
  | hlast d hd => simp [decimal_of_lt hd, value, digitsValue, toNat_digit hd]
  | hsnoc n d hn hd ih =>
    rw [decimal_snoc hn hd, value, digitsValue, List.foldl_append]
    simp only [List.foldl_cons, List.foldl_nil, toNat_digit hd]
    rw [← digitsValue, ← value, ih]
    omega

theorem decimal_digits (n : Nat) : ∀ c ∈ decimal n, isDigit c = true := by
  induction n using decimal_induction with
  | hlast d hd =>
    intro c hc
    rw [decimal_of_lt hd] at hc
    obtain rfl := List.mem_singleton.mp hc
    rw [isDigit_iff, toNat_digit hd]
    omega
  | hsnoc n d hn hd ih =>
    intro c hc
    rw [decimal_snoc hn hd] at hc
    rcases List.mem_append.mp hc with hc | hc
    · exact ih c hc
    · obtain rfl := List.mem_singleton.mp hc
      rw [isDigit_iff, toNat_digit hd]
      omega

theorem decimal_ne_nil (n : Nat) : decimal n ≠ [] := by
  induction n using decimal_induction with
  | hlast d hd => simp [decimal_of_lt hd]
  | hsnoc n d hn hd _ => simp [decimal_snoc hn hd]

theorem not_mem_of_digits (hs : ∀ c ∈ s, isDigit c = true) (hc : isDigit c = false) : c ∉ s :=
  fun h => absurd (hs c h) (by simp [hc])

theorem parseAscii_decimal (hn : n < 2 ^ 64) : parseAscii (decimal n) = some n := by
  have hall : (decimal n).all isDigit = true := List.all_eq_true.mpr (decimal_digits n)
  rw [parseAscii_eq (decimal_ne_nil n) (not_mem_of_digits (decimal_digits n) (by decide)),
    value_decimal, if_pos ⟨hall, hn⟩]

/-- A string of digits without a leading zero is the decimal of its value. -/
theorem decimal_value (hne : s ≠ []) (hs : ∀ c ∈ s, isDigit c = true)
    (hzero : s.head? = some 48 → s = [48]) : decimal (value s) = s := by
  induction s using List.reverseRecOn with
  | nil => exact absurd rfl hne
  | append_singleton s c ih =>
    obtain ⟨hlo, hhi⟩ := isDigit_iff.1 (hs c (by simp))
    have hdigit : (48 : UInt8) + UInt8.ofNat (c.toNat - 48) = c := by
      refine UInt8.toNat_inj.mp ?_
      rw [toNat_digit (by omega)]
      omega
    have hvalue : value (s ++ [c]) = value s * 10 + (c.toNat - 48) := by
      simp [value, digitsValue]
    rw [hvalue]
    cases s with
    | nil =>
      have h0 : value [] = 0 := rfl
      rw [h0, Nat.zero_mul, Nat.zero_add, decimal_of_lt (by omega), hdigit, List.nil_append]
    | cons b s =>
      have hb : b ≠ 48 := by
        rintro rfl
        have := hzero rfl
        simp at this
      have hs' : ∀ c ∈ b :: s, isDigit c = true := fun c hc => hs c (List.mem_append_left _ hc)
      have hrest := ih (List.cons_ne_nil b s) hs' fun h => absurd (Option.some.inj h) hb
      have hpos : value (b :: s) ≠ 0 := by
        intro h0
        rw [h0] at hrest
        have hhead : (48 : UInt8) = b := (List.cons.inj hrest).1
        exact hb hhead.symm
      rw [decimal_snoc hpos (by omega), hrest, hdigit]

end OhosBun.Semver
