/-
# `OhosBun.Lib.Probing` — ordered linear probing

A table of slots, some of which hold an item.  An item has a key, and its key a home,
which grows with the key.  The table is in order (`Placed`) if each item is at or
behind its home, with smaller items only in between; then the items are sorted, and
the first slot from the home of a key on that does not hold a smaller item decides
whether the key is there.

An item is put into the table by moving those from its slot to the next free one up
(`Placed.shiftUp`), and taken out by moving those behind it down, as far as they can
(`Placed.shiftDown`).
-/
import Mathlib.Order.Monotone.Basic
import Mathlib.Order.Lattice
import Mathlib.Data.List.Basic

namespace OhosBun.Lib

section Probing
variable {σ H : Type*} [LinearOrder H] (held : σ → Prop) (key : σ → H) (home : H → Nat)

/-- A slot holds an item that is smaller. -/
def HoldsLess (slots : List σ) (k : H) (q : Nat) : Prop :=
  ∃ y, slots[q]? = some y ∧ held y ∧ key y < k

/-- The items are behind their homes, and in order. -/
structure Placed (slots : List σ) : Prop where
  home_le : ∀ p x, slots[p]? = some x → held x → home (key x) ≤ p
  passes : ∀ p x, slots[p]? = some x → held x →
    ∀ q, home (key x) ≤ q → q < p → HoldsLess held key slots (key x) q

variable {held key home} {slots slots' : List σ} {i m : Nat} {x e : σ} {k : H}

namespace Placed

theorem of_free (h : ∀ x ∈ slots, ¬ held x) : Placed held key home slots :=
  ⟨fun _ x hx hheld => absurd hheld (h x (List.mem_of_getElem? hx)),
    fun _ x hx hheld => absurd hheld (h x (List.mem_of_getElem? hx))⟩

/-- What is done to one slot leaves the table in order, if it leaves its key. -/
theorem modify (h : Placed held key home slots) {f : σ → σ} (hkey : ∀ x, key (f x) = key x)
    (hheld : ∀ x, held (f x) ↔ held x) (i : Nat) : Placed held key home (slots.modify i f) := by
  have hback : ∀ (q : Nat) (y : σ), (slots.modify i f)[q]? = some y →
      ∃ z, slots[q]? = some z ∧ key y = key z ∧ (held y ↔ held z) := by
    intro q y hy
    rw [List.getElem?_modify] at hy
    obtain ⟨z, hz, rfl⟩ := Option.map_eq_some_iff.mp hy
    refine ⟨z, hz, ?_⟩
    split
    · exact ⟨hkey z, hheld z⟩
    · exact ⟨rfl, Iff.rfl⟩
  refine ⟨fun p x hx hx' => ?_, fun p x hx hx' q hq hqp => ?_⟩
  · obtain ⟨z, hz, hkz, hhz⟩ := hback p x hx
    rw [hkz]
    exact h.home_le p z hz (hhz.mp hx')
  · obtain ⟨z, hz, hkz, hhz⟩ := hback p x hx
    rw [hkz] at hq ⊢
    obtain ⟨w, hw, hheldw, hless⟩ := h.passes p z hz (hhz.mp hx') q hq hqp
    refine ⟨if i = q then f w else w, ?_, ?_⟩
    · rw [List.getElem?_modify, hw]
      rfl
    · split
      · rw [hkey, hheld]
        exact ⟨hheldw, hless⟩
      · exact ⟨hheldw, hless⟩

variable {p q : Nat} {y : σ}

theorem sorted (h : Placed held key home slots) (hmono : Monotone home) (hx : slots[p]? = some x)
    (hheld : held x) (hy : slots[q]? = some y) (hheld' : held y) (hlt : p < q) : key x < key y := by
  by_cases hhome : home (key y) ≤ p
  · obtain ⟨x', hx', -, hless⟩ := h.passes q y hy hheld' p hhome hlt
    obtain rfl := Option.some.inj (hx.symm.trans hx')
    exact hless
  · refine Std.not_le.mp fun hle => hhome ?_
    exact (hmono hle).trans (h.home_le p x hx hheld)

theorem key_inj (h : Placed held key home slots) (hmono : Monotone home) (hx : slots[p]? = some x)
    (hheld : held x) (hy : slots[q]? = some y) (hheld' : held y) (hkey : key x = key y) : p = q := by
  rcases Nat.lt_trichotomy p q with hlt | rfl | hgt
  · exact absurd hkey (h.sorted hmono hx hheld hy hheld' hlt).ne
  · rfl
  · exact absurd hkey (h.sorted hmono hy hheld' hx hheld hgt).ne'

/-- The slot where probing stops is the one of the key, if there is one. -/
theorem at_stop (h : Placed held key home slots) (hhome : home k ≤ i)
    (hpass : ∀ q, home k ≤ q → q < i → HoldsLess held key slots k q)
    (hstop : ¬ HoldsLess held key slots k i) (hx : slots[p]? = some x) (hheld : held x)
    (hkey : key x = k) : p = i := by
  subst hkey
  rcases Nat.lt_trichotomy p i with hlt | rfl | hgt
  · obtain ⟨y, hy, -, hless⟩ := hpass p (h.home_le p x hx hheld) hlt
    obtain rfl := Option.some.inj (hx.symm.trans hy)
    exact absurd hless (lt_irrefl _)
  · rfl
  · exact absurd (h.passes p x hx hheld i hhome hgt) hstop

/-! ## Putting an item in -/

/-- The items from a slot to the next free one have moved up, and the slot holds the new item. -/
structure ShiftUp (held : σ → Prop) (x : σ) (i m : Nat) (slots slots' : List σ) : Prop where
  le : i ≤ m
  free : ∃ y, slots[m]? = some y ∧ ¬ held y
  cluster : ∀ q, i ≤ q → q < m → ∃ y, slots[q]? = some y ∧ held y
  before : ∀ q < i, slots'[q]? = slots[q]?
  new : slots'[i]? = some x
  moved : ∀ q, i < q → q ≤ m → slots'[q]? = slots[q - 1]?
  behind : ∀ q, m < q → slots'[q]? = slots[q]?

theorem ShiftUp.mem (s : ShiftUp held x i m slots slots') (hy : y ∈ slots') :
    y = x ∨ y ∈ slots := by
  obtain ⟨q, hq⟩ := List.mem_iff_getElem?.mp hy
  rcases Nat.lt_trichotomy q i with hlt | rfl | hgt
  · exact Or.inr (List.mem_of_getElem? (s.before q hlt ▸ hq))
  · exact Or.inl (Option.some.inj (hq.symm.trans s.new))
  · by_cases hm : q ≤ m
    · exact Or.inr (List.mem_of_getElem? (s.moved q hgt hm ▸ hq))
    · exact Or.inr (List.mem_of_getElem? (s.behind q (Nat.not_le.mp hm) ▸ hq))

theorem ShiftUp.mem_iff (s : ShiftUp held x i m slots slots') (hx : held x) (y : σ) :
    y ∈ slots' ∧ held y ↔ y = x ∨ (y ∈ slots ∧ held y) := by
  constructor
  · rintro ⟨hy, hheld⟩
    exact (s.mem hy).imp_right fun hold => ⟨hold, hheld⟩
  · rintro (rfl | ⟨hy, hheld⟩)
    · exact ⟨List.mem_of_getElem? s.new, hx⟩
    · refine ⟨?_, hheld⟩
      obtain ⟨q, hq⟩ := List.mem_iff_getElem?.mp hy
      by_cases hlt : q < i
      · rw [← s.before q hlt] at hq
        exact List.mem_of_getElem? hq
      · by_cases hm : q < m
        · have hmoved := s.moved (q + 1) (by omega) hm
          rw [Nat.add_sub_cancel, hq] at hmoved
          exact List.mem_of_getElem? hmoved
        · obtain ⟨z, hz, hfree⟩ := s.free
          rcases Nat.eq_or_lt_of_le (Nat.not_lt.mp hm) with rfl | hgt
          · obtain rfl := Option.some.inj (hq.symm.trans hz)
            exact absurd hheld hfree
          · rw [← s.behind q hgt] at hq
            exact List.mem_of_getElem? hq

/-- The smaller items stay, or the slot has a smaller one now. -/
theorem ShiftUp.passes (h : Placed held key home slots) (hmono : Monotone home)
    (s : ShiftUp held x i m slots slots') (hx : held x)
    (hnext : ∀ y, slots[i]? = some y → held y → key x < key y) (hy : slots[p]? = some y) (hheld : held y)
    (hip : i ≤ p) (hq : q ≤ p) (hpm : p < m) (hpass : q < p → HoldsLess held key slots (key y) q) :
    HoldsLess held key slots' (key y) q := by
  rcases Nat.lt_trichotomy q i with hlt | rfl | hgt
  · obtain ⟨z, hz, hrest⟩ := hpass (by omega)
    exact ⟨z, by rw [s.before q hlt, hz], hrest⟩
  · refine ⟨x, s.new, hx, ?_⟩
    obtain ⟨z, hz, hheld'⟩ := s.cluster q (Nat.le_refl q) (by omega)
    refine (hnext z hz hheld').trans_le ?_
    rcases Nat.eq_or_lt_of_le hq with rfl | hlt
    · exact le_of_eq (congrArg key (Option.some.inj (hz.symm.trans hy)))
    · exact (h.sorted hmono hz hheld' hy hheld hlt).le
  · obtain ⟨z, hz, hheld'⟩ := s.cluster (q - 1) (by omega) (by omega)
    exact ⟨z, by rw [s.moved q hgt (by omega), hz], hheld',
      h.sorted hmono hz hheld' hy hheld (by omega)⟩

theorem shiftUp (h : Placed held key home slots) (hmono : Monotone home)
    (s : ShiftUp held x i m slots slots') (hx : held x) (hhome : home (key x) ≤ i)
    (hpass : ∀ q, home (key x) ≤ q → q < i → HoldsLess held key slots (key x) q)
    (hnext : ∀ y, slots[i]? = some y → held y → key x < key y) : Placed held key home slots' := by
  constructor
  · intro p y hy hheld
    rcases Nat.lt_trichotomy p i with hlt | rfl | hgt
    · rw [s.before p hlt] at hy
      exact h.home_le p y hy hheld
    · obtain rfl := Option.some.inj (hy.symm.trans s.new)
      exact hhome
    · by_cases hm : p ≤ m
      · rw [s.moved p hgt hm] at hy
        exact (h.home_le _ y hy hheld).trans (Nat.sub_le p 1)
      · rw [s.behind p (Nat.not_le.mp hm)] at hy
        exact h.home_le p y hy hheld
  · intro p y hy hheld q hq hqp
    rcases Nat.lt_trichotomy p i with hlt | rfl | hgt
    · rw [s.before p hlt] at hy
      obtain ⟨z, hz, hrest⟩ := h.passes p y hy hheld q hq hqp
      exact ⟨z, by rw [s.before q (by omega), hz], hrest⟩
    · obtain rfl := Option.some.inj (hy.symm.trans s.new)
      obtain ⟨z, hz, hrest⟩ := hpass q hq hqp
      exact ⟨z, by rw [s.before q hqp, hz], hrest⟩
    · by_cases hm : p ≤ m
      · rw [s.moved p hgt hm] at hy
        exact s.passes h hmono hx hnext hy hheld (by omega) (by omega) (by omega)
          (h.passes _ y hy hheld q hq)
      · -- an item behind the free slot has its home behind it too
        rw [s.behind p (Nat.not_le.mp hm)] at hy
        have hfar : m < q := by
          refine Nat.not_le.mp fun hle => ?_
          obtain ⟨z, hz, hfree⟩ := s.free
          obtain ⟨z', hz', hheld', -⟩ := h.passes p y hy hheld m (hq.trans hle) (Nat.not_le.mp hm)
          obtain rfl := Option.some.inj (hz.symm.trans hz')
          exact hfree hheld'
        obtain ⟨z, hz, hrest⟩ := h.passes p y hy hheld q hq hqp
        exact ⟨z, by rw [s.behind q hfar, hz], hrest⟩

/-! ## Taking an item out -/

/-- The items behind a slot have moved down, up to one that is at home, or to a free slot. -/
structure ShiftDown (held : σ → Prop) (key : σ → H) (home : H → Nat) (e : σ) (i m : Nat)
    (slots slots' : List σ) : Prop where
  le : i ≤ m
  before : ∀ q < i, slots'[q]? = slots[q]?
  moved : ∀ q, i ≤ q → q < m → slots'[q]? = slots[q + 1]?
  away : ∀ q, i ≤ q → q < m → ∃ y, slots[q + 1]? = some y ∧ held y ∧ home (key y) ≤ q
  free : slots'[m]? = some e
  stop : ∀ y, slots[m + 1]? = some y → held y → m < home (key y)
  behind : ∀ q, m < q → slots'[q]? = slots[q]?

omit [LinearOrder H] in
theorem ShiftDown.mem (s : ShiftDown held key home e i m slots slots') (hy : y ∈ slots') :
    y = e ∨ y ∈ slots := by
  obtain ⟨q, hq⟩ := List.mem_iff_getElem?.mp hy
  by_cases hlt : q < i
  · exact Or.inr (List.mem_of_getElem? (s.before q hlt ▸ hq))
  · rcases Nat.lt_trichotomy q m with hqm | rfl | hgt
    · exact Or.inr (List.mem_of_getElem? (s.moved q (by omega) hqm ▸ hq))
    · exact Or.inl (Option.some.inj (hq.symm.trans s.free))
    · exact Or.inr (List.mem_of_getElem? (s.behind q hgt ▸ hq))

theorem ShiftDown.mem_iff (s : ShiftDown held key home e i m slots slots') (he : ¬ held e)
    (h : Placed held key home slots) (hmono : Monotone home) (hx : slots[i]? = some x) (hheld : held x)
    (y : σ) : y ∈ slots' ∧ held y ↔ key y ≠ key x ∧ y ∈ slots ∧ held y := by
  constructor
  · rintro ⟨hy, hheld'⟩
    obtain ⟨q, hq⟩ := List.mem_iff_getElem?.mp hy
    have hne : ∀ p, p ≠ i → slots[p]? = some y → key y ≠ key x ∧ y ∈ slots ∧ held y :=
      fun p hp hyp => ⟨fun hkey => hp (h.key_inj hmono hyp hheld' hx hheld hkey),
        List.mem_of_getElem? hyp, hheld'⟩
    by_cases hlt : q < i
    · exact hne q hlt.ne (s.before q hlt ▸ hq)
    · rcases Nat.lt_trichotomy q m with hqm | rfl | hgt
      · exact hne (q + 1) (by omega) (s.moved q (by omega) hqm ▸ hq)
      · obtain rfl := Option.some.inj (hq.symm.trans s.free)
        exact absurd hheld' he
      · exact hne q (by have := s.le; omega) (s.behind q hgt ▸ hq)
  · rintro ⟨hkey, hy, hheld'⟩
    refine ⟨?_, hheld'⟩
    obtain ⟨q, hq⟩ := List.mem_iff_getElem?.mp hy
    have hqi : q ≠ i := by
      rintro rfl
      exact hkey (congrArg key (Option.some.inj (hq.symm.trans hx)))
    by_cases hlt : q < i
    · exact List.mem_of_getElem? ((s.before q hlt).trans hq)
    · by_cases hqm : q ≤ m
      · have hmoved := s.moved (q - 1) (by omega) (by omega)
        rw [show q - 1 + 1 = q by omega, hq] at hmoved
        exact List.mem_of_getElem? hmoved
      · exact List.mem_of_getElem? ((s.behind q (Nat.not_le.mp hqm)).trans hq)

theorem shiftDown (h : Placed held key home slots) (hmono : Monotone home)
    (s : ShiftDown held key home e i m slots slots') (he : ¬ held e) : Placed held key home slots' := by
  have hle := s.le
  constructor
  · intro p y hy hheld
    by_cases hlt : p < i
    · exact h.home_le p y (s.before p hlt ▸ hy) hheld
    · rcases Nat.lt_trichotomy p m with hpm | rfl | hgt
      · obtain ⟨z, hz, -, hhome⟩ := s.away p (by omega) hpm
        rw [s.moved p (by omega) hpm] at hy
        obtain rfl := Option.some.inj (hy.symm.trans hz)
        exact hhome
      · obtain rfl := Option.some.inj (hy.symm.trans s.free)
        exact absurd hheld he
      · exact h.home_le p y (s.behind p hgt ▸ hy) hheld
  · intro p y hy hheld q hq hqp
    by_cases hlt : p < i
    · obtain ⟨z, hz, hrest⟩ := h.passes p y (s.before p hlt ▸ hy) hheld q hq hqp
      exact ⟨z, by rw [s.before q (by omega), hz], hrest⟩
    · -- where the item was, and that it was behind the free slot only if its home is
      obtain ⟨p', hp', hyp, hback⟩ : ∃ p', p ≤ p' ∧ slots[p']? = some y ∧
          (p' = p + 1 ∧ p < m ∨ p' = p ∧ m < p ∧ m < home (key y)) := by
        rcases Nat.lt_trichotomy p m with hpm | rfl | hgt
        · exact ⟨p + 1, Nat.le_succ p, s.moved p (by omega) hpm ▸ hy, Or.inl ⟨rfl, hpm⟩⟩
        · obtain rfl := Option.some.inj (hy.symm.trans s.free)
          exact absurd hheld he
        · have hyp := s.behind p hgt ▸ hy
          refine ⟨p, Nat.le_refl p, hyp, Or.inr ⟨rfl, hgt, Nat.not_le.mp fun hhome => ?_⟩⟩
          rcases Nat.eq_or_lt_of_le (Nat.succ_le_of_lt hgt) with rfl | hfar
          · exact absurd (s.stop y hyp hheld) (Nat.not_lt.mpr hhome)
          · obtain ⟨z, hz, hheld', hless⟩ := h.passes p y hyp hheld (m + 1) (hhome.trans (Nat.le_succ m)) hfar
            have hstop := s.stop z hz hheld'
            have hhomes := hmono hless.le
            omega
      by_cases hqi : q < i
      · obtain ⟨z, hz, hrest⟩ := h.passes p' y hyp hheld q hq (by omega)
        exact ⟨z, by rw [s.before q hqi, hz], hrest⟩
      · by_cases hqm : q < m
        · obtain ⟨z, hz, hrest⟩ := h.passes p' y hyp hheld (q + 1) (by omega) (by omega)
          exact ⟨z, by rw [s.moved q (by omega) hqm, hz], hrest⟩
        · have hmq : m < q := by omega
          obtain ⟨z, hz, hrest⟩ := h.passes p' y hyp hheld q hq (by omega)
          exact ⟨z, by rw [s.behind q hmq, hz], hrest⟩

end Placed

end Probing

end OhosBun.Lib
