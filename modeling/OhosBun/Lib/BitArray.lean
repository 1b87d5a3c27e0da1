/-
# `OhosBun.Lib.BitArray` — a set of numbers in an array of words

A word of `w` bits holds numbers below `w`, a list of words those below `w` times
its length (`bitAt`).  The members are listed in increasing order, of one word by
`ones` and of a list by `onesFrom`; taking the lowest or the highest bit of a word
takes the first or the last member.
-/
import Mathlib.Data.List.Sort
import OhosBun.Lib.Ring

namespace OhosBun.Lib

/-- Strictly increasing lists with the same members are the same. -/
theorem eq_of_increasing {l l' : List Nat} (h : l.Pairwise (· < ·)) (h' : l'.Pairwise (· < ·))
    (hmem : ∀ i, i ∈ l ↔ i ∈ l') : l = l' := by
  have hnodup {l : List Nat} (h : l.Pairwise (· < ·)) : l.Nodup := h.imp Nat.ne_of_lt
  refine List.Perm.eq_of_pairwise (fun a b _ _ hab hba => absurd hab (Nat.lt_asymm hba)) h h' ?_
  exact (List.perm_ext_iff_of_nodup (hnodup h) (hnodup h')).mpr hmem

variable {w : Nat}

/-! ## The members of a word -/

/-- The bits of a word that are set, from the lowest one on. -/
def ones (x : BitVec w) : List Nat := (List.range w).filter x.getLsbD

variable {x : BitVec w}

theorem mem_ones {i : Nat} : i ∈ ones x ↔ x.getLsbD i = true := by
  rw [ones, List.mem_filter, List.mem_range]
  exact ⟨And.right, fun h => ⟨BitVec.lt_of_getLsbD h, h⟩⟩

theorem increasing_ones (x : BitVec w) : (ones x).Pairwise (· < ·) := List.pairwise_lt_range.filter _

theorem ones_zero : ones (0 : BitVec w) = [] := by
  refine List.eq_nil_iff_forall_not_mem.mpr fun i hi => ?_
  rw [mem_ones] at hi
  simp at hi

theorem length_ones (x : BitVec w) : (ones x).length = x.cpop.toNat := by
  have hcount : ∀ n, ((List.range n).filter x.getLsbD).length = x.cpopNatRec n 0 := by
    intro n
    induction n with
    | zero => rfl
    | succ n ih =>
      rw [List.range_succ, List.filter_append, List.length_append, ih, BitVec.cpopNatRec_succ,
        BitVec.cpopNatRec_add]
      cases hbit : x.getLsbD n <;> simp [hbit]
  rw [BitVec.toNat_cpop]
  exact hcount w

theorem toNat_one (hw : 0 < w) : (1 : BitVec w).toNat = 1 :=
  Nat.mod_eq_of_lt (Nat.one_lt_two_pow (Nat.pos_iff_ne_zero.mp hw))

/-- `x & (x - 1)` has all bits but the lowest one. -/
theorem getLsbD_and_pred (hx : x ≠ 0) (i : Nat) :
    (x &&& (x - 1)).getLsbD i = (x.getLsbD i && decide (i ≠ x.ctz.toNat)) := by
  obtain ⟨k, hk⟩ : ∃ k, x.ctz.toNat = k := ⟨_, rfl⟩
  have hlow : ∀ j < k, x.toNat.testBit j = false := fun j hj =>
    BitVec.getLsbD_false_of_lt_ctz (hk.symm ▸ hj)
  have hset : x.toNat.testBit k = true := hk ▸ BitVec.getLsbD_true_ctz_of_ne_zero hx
  have hkw : k < w := BitVec.lt_of_getLsbD (x := x) hset
  -- the word is an odd number times a power of two
  have hmod : x.toNat % 2 ^ k = 0 := by
    refine Nat.eq_of_testBit_eq fun j => ?_
    rw [Nat.testBit_mod_two_pow, Nat.zero_testBit]
    by_cases hj : j < k
    · rw [hlow j hj, Bool.and_false]
    · rw [decide_eq_false hj, Bool.false_and]
  obtain ⟨q, hq⟩ := Nat.dvd_of_mod_eq_zero hmod
  have hodd : q % 2 = 1 := by
    rw [hq, Nat.testBit_two_pow_mul, Nat.sub_self, decide_eq_true (Nat.le_refl k), Bool.true_and,
      Nat.testBit_zero, decide_eq_true_eq] at hset
    exact hset
  have hpos : 0 < 2 ^ k := Nat.two_pow_pos k
  have hpred : x.toNat - 1 = 2 ^ k * (q - 1) + (2 ^ k - 1) := by
    obtain ⟨m, rfl⟩ : ∃ m, q = m + 1 := ⟨q - 1, by omega⟩
    rw [hq, Nat.mul_succ, Nat.add_sub_cancel]
    omega
  have hsub : (x - 1).toNat = x.toNat - 1 := by
    have hle : (1 : BitVec w) ≤ x := by
      rw [BitVec.le_def, toNat_one (by omega)]
      exact Nat.pos_of_ne_zero fun hzero => hx (BitVec.eq_of_toNat_eq hzero)
    rw [BitVec.toNat_sub_of_le hle, toNat_one (by omega)]
  rw [BitVec.getLsbD_and, hk, ← BitVec.testBit_toNat, ← BitVec.testBit_toNat, hsub, hpred,
    Nat.testBit_two_pow_mul_add _ (Nat.sub_lt hpos Nat.one_pos)]
  rcases Nat.lt_trichotomy i k with hlt | rfl | hgt
  · rw [hlow i hlt, Bool.false_and, Bool.false_and]
  · rw [if_neg (Nat.lt_irrefl i), Nat.sub_self, Nat.testBit_zero]
    simp
    omega
  · -- above, the word and the number before it agree
    obtain ⟨m, rfl⟩ : ∃ m, q = 2 * m + 1 := ⟨q / 2, by omega⟩
    obtain ⟨j, hj⟩ : ∃ j, i - k = j + 1 := ⟨i - k - 1, by omega⟩
    rw [if_neg (by omega), hq, Nat.testBit_two_pow_mul, hj, decide_eq_true (by omega : i ≥ k),
      decide_eq_true (Nat.ne_of_gt hgt), Nat.add_sub_cancel, Nat.testBit_succ, Nat.testBit_succ,
      show (2 * m + 1) / 2 = m by omega, show 2 * m / 2 = m by omega, Bool.true_and, Bool.and_true,
      Bool.and_self]

theorem ones_eq_cons (hx : x ≠ 0) :
    ones x = x.ctz.toNat :: ones (x &&& (x - 1)) := by
  have hset := BitVec.getLsbD_true_ctz_of_ne_zero hx
  refine eq_of_increasing (increasing_ones x) (List.pairwise_cons.mpr ⟨fun i hi => ?_, increasing_ones _⟩)
    fun i => ?_
  · rw [mem_ones, getLsbD_and_pred hx, Bool.and_eq_true, decide_eq_true_eq] at hi
    refine Nat.lt_of_le_of_ne (Nat.not_lt.mp fun hlt => ?_) hi.2.symm
    rw [BitVec.getLsbD_false_of_lt_ctz hlt] at hi
    exact Bool.false_ne_true hi.1
  · rw [List.mem_cons, mem_ones, mem_ones, getLsbD_and_pred hx, Bool.and_eq_true, decide_eq_true_eq]
    by_cases hi : i = x.ctz.toNat
    · subst hi
      simp [hset]
    · simp [hi]

/-- The bits below one. -/
theorem getLsbD_shiftLeft_sub_one {k : Nat} (hk : k < w) (i : Nat) :
    ((1 : BitVec w) <<< k - 1).getLsbD i = decide (i < k) := by
  have hpow : 2 ^ k < 2 ^ w := Nat.pow_lt_pow_right Nat.one_lt_two hk
  have hone : (1 : BitVec w).toNat = 1 := toNat_one (by omega)
  have hshift : ((1 : BitVec w) <<< k).toNat = 2 ^ k := by
    rw [BitVec.toNat_shiftLeft, hone, Nat.one_shiftLeft, Nat.mod_eq_of_lt hpow]
  have hle : (1 : BitVec w) ≤ (1 : BitVec w) <<< k := by
    rw [BitVec.le_def, hshift, hone]
    exact Nat.two_pow_pos k
  rw [← BitVec.testBit_toNat, BitVec.toNat_sub_of_le hle, hshift, hone, Nat.testBit_two_pow_sub_one]

theorem ones_eq_append (hx : x ≠ 0) :
    ones x = ones (x &&& ((1 : BitVec w) <<< (w - 1 - x.clz.toNat) - 1)) ++ [w - 1 - x.clz.toNat] := by
  have hlt : x.clz.toNat < w := by
    have hclz := BitVec.clz_lt_iff_ne_zero.mpr hx
    rw [BitVec.lt_def, BitVec.natCast_eq_ofNat, BitVec.toNat_ofNat, Nat.mod_eq_of_lt Nat.lt_two_pow_self] at hclz
    exact hclz
  have hset : x.getLsbD (w - 1 - x.clz.toNat) = true := BitVec.getLsbD_true_clz_of_ne_zero (by omega) hx
  have hhigh : ∀ i, x.getLsbD i = true → i ≤ w - 1 - x.clz.toNat := by
    intro i hi
    have hbound : 2 ^ i < 2 ^ (w - x.clz.toNat) :=
      Nat.lt_of_le_of_lt (Nat.ge_two_pow_of_testBit hi) BitVec.toNat_lt_two_pow_sub_clz
    have := (Nat.pow_lt_pow_iff_right Nat.one_lt_two).mp hbound
    omega
  have hmem : ∀ i, i ∈ ones (x &&& ((1 : BitVec w) <<< (w - 1 - x.clz.toNat) - 1)) ↔
      x.getLsbD i = true ∧ i < w - 1 - x.clz.toNat := by
    intro i
    rw [mem_ones, BitVec.getLsbD_and, getLsbD_shiftLeft_sub_one (by omega), Bool.and_eq_true,
      decide_eq_true_eq]
  refine eq_of_increasing (increasing_ones x) ?_ fun i => ?_
  · refine List.pairwise_append.mpr ⟨increasing_ones _, List.pairwise_singleton _ _, fun i hi j hj => ?_⟩
    rw [List.mem_singleton.mp hj]
    exact ((hmem i).mp hi).2
  · rw [List.mem_append, mem_ones, hmem, List.mem_singleton]
    constructor
    · intro hi
      rcases Nat.eq_or_lt_of_le (hhigh i hi) with heq | hless
      · exact Or.inr heq
      · exact Or.inl ⟨hi, hless⟩
    · rintro (⟨hi, -⟩ | rfl)
      · exact hi
      · exact hset

/-! ## Lists of words -/

/-- Whether a number is in the set. -/
def bitAt (ws : List (BitVec w)) (i : Nat) : Bool := (ws[i / w]?.getD 0).getLsbD (i % w)

variable {ws ws' : List (BitVec w)} {i n : Nat}

theorem bitAt_of_getElem? (h : ws[i / w]? = some x) : bitAt ws i = x.getLsbD (i % w) := by
  rw [bitAt, h, Option.getD_some]

theorem div_lt_length (h : i < ws.length * w) : i / w < ws.length :=
  Nat.div_lt_of_lt_mul (Nat.mul_comm w _ ▸ h)

theorem bitAt_of_le (hw : 0 < w) (h : ws.length * w ≤ i) : bitAt ws i = false := by
  rw [bitAt, List.getElem?_eq_none ((Nat.le_div_iff_mul_le hw).mpr h), Option.getD_none]
  exact BitVec.getLsbD_zero

theorem bitAt_cons (hw : 0 < w) (x : BitVec w) (ws : List (BitVec w)) (i : Nat) :
    bitAt (x :: ws) i = if i < w then x.getLsbD i else bitAt ws (i - w) := by
  by_cases hi : i < w
  · rw [if_pos hi, bitAt, Nat.div_eq_of_lt hi, Nat.mod_eq_of_lt hi]
    rfl
  · obtain ⟨j, rfl⟩ := Nat.exists_eq_add_of_le (Nat.le_of_not_lt hi)
    rw [if_neg hi, bitAt, bitAt, Nat.add_sub_cancel_left, Nat.add_mod_left, Nat.add_div_left j hw]
    rfl

theorem bitAt_take (hw : 0 < w) (ws : List (BitVec w)) (n i : Nat) :
    bitAt (ws.take n) i = (decide (i < n * w) && bitAt ws i) := by
  rw [bitAt, bitAt, List.getElem?_take]
  by_cases hi : i < n * w
  · rw [if_pos ((Nat.div_lt_iff_lt_mul hw).mpr hi), decide_eq_true hi, Bool.true_and]
  · rw [if_neg (fun h => hi ((Nat.div_lt_iff_lt_mul hw).mp h)), decide_eq_false hi, Bool.false_and]
    exact BitVec.getLsbD_zero

theorem bitAt_append_left (h : i < ws.length * w) : bitAt (ws ++ ws') i = bitAt ws i := by
  rw [bitAt, bitAt, List.getElem?_append_left (div_lt_length h)]

theorem bitAt_overwrite (hw : 0 < w) {a : Nat} (h : a + ws'.length ≤ ws.length) (i : Nat) :
    bitAt (overwrite ws a ws') i =
      if a * w ≤ i ∧ i < (a + ws'.length) * w then bitAt ws' (i - a * w) else bitAt ws i := by
  have hiff : a ≤ i / w ∧ i / w < a + ws'.length ↔ a * w ≤ i ∧ i < (a + ws'.length) * w :=
    and_congr (Nat.le_div_iff_mul_le hw) (Nat.div_lt_iff_lt_mul hw)
  rw [bitAt, getElem?_overwrite h]
  by_cases hi : a ≤ i / w ∧ i / w < a + ws'.length
  · have hle : a * w ≤ i := (hiff.mp hi).1
    rw [if_pos hi, if_pos (hiff.mp hi), bitAt]
    obtain ⟨j, rfl⟩ := Nat.exists_eq_add_of_le hle
    rw [Nat.add_sub_cancel_left, Nat.mul_add_mod', Nat.add_comm, Nat.add_mul_div_right _ _ hw,
      Nat.add_sub_cancel]
  · rw [if_neg hi, if_neg fun h => hi (hiff.mpr h), bitAt]

theorem bitAt_modify {j : Nat} (hj : j < ws.length) (f : BitVec w → BitVec w) (i : Nat) :
    bitAt (ws.modify j f) i = if i / w = j then (f ws[j]).getLsbD (i % w) else bitAt ws i := by
  rw [bitAt, List.getElem?_modify]
  by_cases hi : i / w = j
  · subst hi
    rw [if_pos rfl, List.getElem?_eq_getElem hj]
    simp
  · rw [if_neg hi, bitAt]
    simp [Ne.symm hi]

theorem bitAt_getElem (ws : List (BitVec w)) (i : Nat) (hi : i / w < ws.length) :
    ws[i / w].getLsbD (i % w) = bitAt ws i :=
  (bitAt_of_getElem? (List.getElem?_eq_getElem hi)).symm

theorem mod_lt_of_lt (h : i < n * w) : i % w < w :=
  Nat.mod_lt i (Nat.pos_of_ne_zero fun hzero => by simp [hzero] at h)

theorem bitAt_replicate (h : i < n * w) : bitAt (List.replicate n x) i = x.getLsbD (i % w) := by
  have hlt : i / w < n := Nat.div_lt_of_lt_mul (Nat.mul_comm w _ ▸ h)
  refine bitAt_of_getElem? ?_
  rw [List.getElem?_replicate, if_pos hlt]

theorem bitAt_map {f : BitVec w → BitVec w} {g : Bool → Bool}
    (hf : ∀ x k, k < w → (f x).getLsbD k = g (x.getLsbD k)) (h : i < ws.length * w) :
    bitAt (ws.map f) i = g (bitAt ws i) := by
  have hget := List.getElem?_eq_getElem (div_lt_length h)
  rw [bitAt_of_getElem? hget, ← hf _ _ (mod_lt_of_lt h)]
  refine bitAt_of_getElem? ?_
  rw [List.getElem?_map, hget]
  rfl

theorem bitAt_zipWith {f : BitVec w → BitVec w → BitVec w} {g : Bool → Bool → Bool}
    (hf : ∀ x y k, k < w → (f x y).getLsbD k = g (x.getLsbD k) (y.getLsbD k))
    (h : i < ws.length * w) (h' : i < ws'.length * w) :
    bitAt (List.zipWith f ws ws') i = g (bitAt ws i) (bitAt ws' i) := by
  have hget := List.getElem?_eq_getElem (div_lt_length h)
  have hget' := List.getElem?_eq_getElem (div_lt_length h')
  rw [bitAt_of_getElem? hget, bitAt_of_getElem? hget', ← hf _ _ _ (mod_lt_of_lt h)]
  refine bitAt_of_getElem? ?_
  rw [List.getElem?_zipWith, hget, hget']

/-- The words of a set are determined by it. -/
theorem eq_of_bitAt (hlen : ws.length = ws'.length) (h : ∀ i < ws.length * w, bitAt ws i = bitAt ws' i) :
    ws = ws' := by
  refine List.ext_getElem hlen fun n hn hn' => BitVec.eq_of_getLsbD_eq fun k hk => ?_
  have hdiv : (n * w + k) / w = n := by
    rw [Nat.mul_comm, Nat.mul_add_div (by omega), Nat.div_eq_of_lt hk, Nat.add_zero]
  have hmod : (n * w + k) % w = k := by
    rw [Nat.mul_comm, Nat.mul_add_mod, Nat.mod_eq_of_lt hk]
  have hlt : n * w + k < ws.length * w := by
    refine Nat.lt_of_lt_of_le (Nat.add_lt_add_left hk _) ?_
    rw [← Nat.succ_mul]
    exact Nat.mul_le_mul_right w hn
  have hbit := h _ hlt
  rw [bitAt, bitAt, hdiv, hmod, List.getElem?_eq_getElem hn, List.getElem?_eq_getElem hn'] at hbit
  exact hbit

/-! ## The members of a list of words -/

/-- The members, if the first word is that of `off`. -/
@[grind] def onesFrom : (off : Nat) → List (BitVec w) → List Nat
  | _, [] => []
  | off, x :: ws => (ones x).map (off + ·) ++ onesFrom (off + w) ws

theorem onesFrom_eq (hw : 0 < w) (ws : List (BitVec w)) : ∀ off,
    onesFrom off ws = ((List.range (ws.length * w)).filter (bitAt ws)).map (off + ·) := by
  induction ws with
  | nil =>
    intro off
    rw [onesFrom, List.length_nil, Nat.zero_mul]
    rfl
  | cons x ws ih =>
    intro off
    have hlow : (List.range w).filter (bitAt (x :: ws)) = ones x := by
      refine List.filter_congr fun i hi => ?_
      rw [bitAt_cons hw, if_pos (List.mem_range.mp hi)]
    have hhigh : bitAt (x :: ws) ∘ (w + ·) = bitAt ws := by
      funext i
      rw [Function.comp_apply, bitAt_cons hw, if_neg (by omega), Nat.add_sub_cancel_left]
    rw [onesFrom, ih, List.length_cons, Nat.succ_mul, Nat.add_comm (ws.length * w), List.range_add,
      List.filter_append, List.map_append, hlow, List.filter_map, hhigh, List.map_map]
    congr 1
    refine List.map_congr_left fun i _ => ?_
    rw [Function.comp_apply, Nat.add_assoc]

theorem onesFrom_append (ws ws' : List (BitVec w)) : ∀ off,
    onesFrom off (ws ++ ws') = onesFrom off ws ++ onesFrom (off + ws.length * w) ws' := by
  induction ws with
  | nil =>
    intro off
    rw [List.length_nil, Nat.zero_mul]
    rfl
  | cons x ws ih =>
    intro off
    rw [List.cons_append, onesFrom, onesFrom, ih, List.append_assoc, List.length_cons, Nat.succ_mul,
      Nat.add_comm (ws.length * w) w, Nat.add_assoc]

theorem onesFrom_singleton (off : Nat) (x : BitVec w) : onesFrom off [x] = (ones x).map (off + ·) := by
  rw [onesFrom, onesFrom, List.append_nil]

end OhosBun.Lib
