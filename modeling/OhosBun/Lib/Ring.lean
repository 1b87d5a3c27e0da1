/-
# `OhosBun.Lib.Ring` — a list in a circular buffer

`Ring buf head xs` says that the buffer shows the list `xs` from `head` on, going
round at its end.  The rules are about what queues do with such a buffer: overwrite
a stretch of it, move the head, rotate it.

Everything is said slot by slot (`slot`), so that each rule comes down to linear
arithmetic about indices.
-/
import Mathlib.Data.List.Basic

namespace OhosBun.Lib

variable {α : Type*}

/-! ## Overwriting -/

/-- `buf[start..][..ys.len()].copy_from_slice(ys)`, inside the buffer. -/
def overwrite (buf : List α) (start : Nat) (ys : List α) : List α :=
  buf.take start ++ ys ++ buf.drop (start + ys.length)

theorem overwrite_nil (buf : List α) (start : Nat) : overwrite buf start [] = buf := by
  rw [overwrite, List.append_nil, List.length_nil, Nat.add_zero, List.take_append_drop]

variable {buf ys : List α} {start src n dst cap head i : Nat}

theorem length_overwrite (h : start + ys.length ≤ buf.length) :
    (overwrite buf start ys).length = buf.length := by
  simp only [overwrite, List.length_append, List.length_take, List.length_drop]
  omega

theorem getElem?_overwrite (h : start + ys.length ≤ buf.length) (i : Nat) : (overwrite buf start ys)[i]? =
      if start ≤ i ∧ i < start + ys.length then ys[i - start]? else buf[i]? := by
  have hstart : (buf.take start).length = start := by
    rw [List.length_take]
    omega
  rw [overwrite, List.append_assoc, List.getElem?_append, hstart]
  by_cases hi : i < start
  · rw [if_pos hi, if_neg (by omega), List.getElem?_take_of_lt hi]
  · rw [if_neg hi, List.getElem?_append]
    by_cases hi' : i < start + ys.length
    · rw [if_pos (by omega), if_pos (by omega)]
    · rw [if_neg (by omega), if_neg (by omega), List.getElem?_drop]
      congr 1
      omega

/-- `ptr::copy`, which allows for an overlap. -/
def copyWithin (buf : List α) (src dst n : Nat) : List α := overwrite buf dst ((buf.drop src).take n)

theorem length_extract (h : src + n ≤ buf.length) :
    ((buf.drop src).take n).length = n := by
  rw [List.length_take, List.length_drop]
  omega

theorem length_copyWithin (hsrc : src + n ≤ buf.length) (hdst : dst + n ≤ buf.length) :
    (copyWithin buf src dst n).length = buf.length := by
  refine length_overwrite ?_
  rw [length_extract hsrc]
  exact hdst

theorem getElem?_copyWithin (hsrc : src + n ≤ buf.length) (hdst : dst + n ≤ buf.length) (i : Nat) :
    (copyWithin buf src dst n)[i]? =
      if dst ≤ i ∧ i < dst + n then buf[i - dst + src]? else buf[i]? := by
  have hlen := length_extract hsrc
  rw [copyWithin, getElem?_overwrite (by rw [hlen]; exact hdst), hlen]
  by_cases hi : dst ≤ i ∧ i < dst + n
  · rw [if_pos hi, if_pos hi, List.getElem?_take_of_lt (by omega), List.getElem?_drop, Nat.add_comm]
  · rw [if_neg hi, if_neg hi]

/-! ## Slots -/

/-- The `i`th slot from `head` on. -/
def slot (cap head i : Nat) : Nat := if head + i < cap then head + i else head + i - cap

theorem slot_eq_mod (hhead : head < cap) (hi : i ≤ cap) :
    slot cap head i = (head + i) % cap := by
  unfold slot
  split
  · next h => exact (Nat.mod_eq_of_lt h).symm
  · next h => rw [Nat.mod_eq_sub_mod (by omega), Nat.mod_eq_of_lt (by omega)]

theorem slot_zero (hhead : head < cap) : slot cap head 0 = head := if_pos hhead

theorem slot_lt (hhead : head < cap) (hi : i ≤ cap) : slot cap head i < cap := by
  unfold slot
  split <;> omega

/-- The buffer shows the list from `head` on. -/
structure Ring (buf : List α) (head : Nat) (xs : List α) : Prop where
  head_le : head < buf.length ∨ (buf.length = 0 ∧ head = 0)
  length_le : xs.length ≤ buf.length
  get : ∀ i < xs.length, buf[slot buf.length head i]? = xs[i]?

namespace Ring
variable {buf buf' xs ys : List α} {head head' : Nat}

theorem empty (buf : List α) : Ring buf 0 ([] : List α) :=
  ⟨by omega, Nat.zero_le _, fun _ hi => absurd hi (Nat.not_lt_zero _)⟩

theorem head_lt (h : Ring buf head xs) (hpos : 0 < buf.length) : head < buf.length := by
  rcases h.head_le with hlt | hzero
  · exact hlt
  · omega

/-- A stretch in front of the end of the buffer. -/
theorem extract (h : Ring buf head xs) {n : Nat} (hn : n ≤ xs.length) (hend : head + n ≤ buf.length) :
    (buf.drop head).take n = xs.take n := by
  refine List.ext_getElem? fun i => ?_
  by_cases hi : i < n
  · have hslot : slot buf.length head i = head + i := if_pos (by omega)
    rw [List.getElem?_take_of_lt hi, List.getElem?_take_of_lt hi, List.getElem?_drop,
      ← h.get i (by omega), hslot]
  · have hlen := length_extract hend
    rw [List.getElem?_eq_none (by omega), List.getElem?_eq_none (by rw [List.length_take]; omega)]

/-- Written behind the list. -/
theorem append (h : Ring buf head xs) (hspace : xs.length + ys.length ≤ buf.length)
    (hend : slot buf.length head xs.length + ys.length ≤ buf.length) :
    Ring (overwrite buf (slot buf.length head xs.length) ys) head (xs ++ ys) := by
  have hlen := length_overwrite hend
  refine ⟨by rw [hlen]; exact h.head_le, by rw [hlen, List.length_append]; exact hspace, ?_⟩
  intro i hi
  rw [List.length_append] at hi
  have hhead := h.head_lt (by omega)
  rw [hlen, getElem?_overwrite hend, List.getElem?_append]
  by_cases hold : i < xs.length
  · have hout : ¬ (slot buf.length head xs.length ≤ slot buf.length head i ∧
        slot buf.length head i < slot buf.length head xs.length + ys.length) := by
      unfold slot at hend ⊢
      split_ifs at hend ⊢ <;> omega
    rw [if_neg hout, if_pos hold, h.get i hold]
  · have hin : slot buf.length head xs.length ≤ slot buf.length head i ∧
        slot buf.length head i - slot buf.length head xs.length = i - xs.length := by
      unfold slot at hend ⊢
      split_ifs at hend ⊢ <;> omega
    rw [if_pos ⟨hin.1, by omega⟩, if_neg hold, hin.2]

/-- Without its first items. -/
theorem drop (h : Ring buf head xs) (hpos : 0 < buf.length) {n : Nat} (hn : n ≤ xs.length) :
    Ring buf (slot buf.length head n) (xs.drop n) := by
  have hhead := h.head_lt hpos
  have hle := h.length_le
  refine ⟨Or.inl (slot_lt hhead (by omega)), by rw [List.length_drop]; omega, fun i hi => ?_⟩
  rw [List.length_drop] at hi
  have hslot : slot buf.length (slot buf.length head n) i = slot buf.length head (n + i) := by
    unfold slot
    split_ifs <;> omega
  rw [List.getElem?_drop, ← h.get (n + i) (by omega), hslot]

/-- A buffer that shows what is put in front, and otherwise what it did. -/
theorem prepend (h : Ring buf head xs) (hspace : ys.length + xs.length ≤ buf.length)
    (hpos : 0 < buf.length) (hhead' : slot buf.length head (buf.length - ys.length) = head')
    (hlen : buf'.length = buf.length)
    (hnew : ∀ i < ys.length, buf'[slot buf.length head' i]? = ys[i]?)
    (hold : ∀ i < xs.length, buf'[slot buf.length head i]? = buf[slot buf.length head i]?) :
    Ring buf' head' (ys ++ xs) := by
  have hhead := h.head_lt hpos
  refine ⟨Or.inl (by rw [hlen, ← hhead']; exact slot_lt hhead (Nat.sub_le _ _)),
    by rw [hlen, List.length_append]; exact hspace, fun i hi => ?_⟩
  rw [List.length_append] at hi
  rw [hlen, List.getElem?_append]
  by_cases hi' : i < ys.length
  · rw [if_pos hi', hnew i hi']
  · have hslot : slot buf.length head' i = slot buf.length head (i - ys.length) := by
      rw [← hhead']
      unfold slot
      split_ifs <;> omega
    rw [if_neg hi', hslot, hold _ (by omega), h.get _ (by omega)]

/-- The buffer turned towards its head. -/
theorem rotate (h : Ring buf head xs) {n : Nat} (hn : n ≤ head) (hlen : buf'.length = buf.length)
    (hget : ∀ i < buf.length, buf'[i]? = buf[slot buf.length n i]?) : Ring buf' (head - n) xs := by
  have hle := h.length_le
  rcases h.head_le with hhead | ⟨hzero, rfl⟩
  · refine ⟨Or.inl (by omega), by rw [hlen]; exact hle, fun i hi => ?_⟩
    have hslot : slot buf.length n (slot buf.length (head - n) i) = slot buf.length head i := by
      unfold slot
      split_ifs <;> omega
    rw [hlen, hget _ (slot_lt (by omega) (by omega)), hslot, h.get i hi]
  · refine ⟨Or.inr ⟨by omega, by omega⟩, by omega, fun i hi => ?_⟩
    omega

/-- Another buffer that starts with the list. -/
theorem of_front (hle : xs.length ≤ buf'.length) (hget : ∀ i < xs.length, buf'[i]? = xs[i]?) :
    Ring buf' 0 xs := by
  refine ⟨by omega, hle, fun i hi => ?_⟩
  have hslot : slot buf'.length 0 i = i := by
    unfold slot
    split <;> omega
  rw [hslot, hget i hi]

/-- Without one item: those behind it have moved up by one. -/
theorem eraseIdx (h : Ring buf head xs) {n : Nat} (hn : n < xs.length) (hlen : buf'.length = buf.length)
    (hbefore : ∀ i < n, buf'[slot buf.length head i]? = buf[slot buf.length head i]?)
    (hbehind : ∀ i, n ≤ i → i + 1 < xs.length →
      buf'[slot buf.length head i]? = buf[slot buf.length head (i + 1)]?) :
    Ring buf' head (xs.eraseIdx n) := by
  have hle := h.length_le
  have hlength : (xs.eraseIdx n).length = xs.length - 1 := List.length_eraseIdx_of_lt hn
  refine ⟨by rw [hlen]; exact h.head_le, by omega, fun i hi => ?_⟩
  rw [hlen, List.getElem?_eraseIdx]
  by_cases hi' : i < n
  · rw [if_pos hi', hbefore i hi', h.get i (by omega)]
  · rw [if_neg hi', hbehind i (by omega) (by omega), h.get (i + 1) (by omega)]

end Ring

end OhosBun.Lib
