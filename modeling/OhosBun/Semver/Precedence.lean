/-
# `OhosBun.Semver.Precedence` — the orders of versions

    order_totalPreorder   `order` and `order_without_build` are total preorders
    itemElevenOrder       item 11 of SemVer 2.0.0 on prereleases, in its own words
    orderPre_eq_iff       where `order_pre` follows it

Both orders are chains of comparisons, and `Std`'s classes of comparisons close
under chains.  Item 11 fails where a numeric identifier does not fit `u64`: such
an identifier is then compared byte by byte.
-/
import Mathlib.Data.Set.Basic
import OhosBun.Semver.Numbers

namespace OhosBun.Semver

/-! ## Chains of comparisons -/

/-- A comparison that is a total preorder on a set. -/
structure TotalPreorder {α : Type} (cmp : α → α → Ordering) (s : Set α) : Prop where
  refl : ∀ a ∈ s, cmp a a = .eq
  swap : ∀ a ∈ s, ∀ b ∈ s, cmp b a = (cmp a b).swap
  trans : ∀ a ∈ s, ∀ b ∈ s, ∀ c ∈ s, (cmp a b).isLE → (cmp b c).isLE → (cmp a c).isLE
  congr : ∀ a ∈ s, ∀ b ∈ s, ∀ c ∈ s, cmp a b = .eq → cmp a c = cmp b c

variable {α : Type} {l r : Version} {ls rs : List (List UInt8)}

/-- A comparison that agrees on the set with a transitive one. -/
theorem TotalPreorder.of_transCmp {cmp cmp' : α → α → Ordering} [Std.TransCmp cmp'] {s : Set α}
    (h : ∀ a ∈ s, ∀ b ∈ s, cmp a b = cmp' a b) : TotalPreorder cmp s where
  refl := by
    intro a ha
    rw [h a ha a ha]
    exact Std.ReflCmp.compare_self
  swap := by
    intro a ha b hb
    rw [h a ha b hb, h b hb a ha]
    exact Std.OrientedCmp.eq_swap
  trans := by
    intro a ha b hb c hc
    rw [h a ha b hb, h b hb c hc, h a ha c hc]
    exact Std.TransCmp.isLE_trans
  congr := by
    intro a ha b hb c hc
    rw [h a ha b hb, h b hb c hc, h a ha c hc]
    exact Std.TransCmp.congr_left

/-- Comparison through a function. -/
theorem transCmp_on {β : Type} (f : α → β) (cmp : β → β → Ordering) [Std.TransCmp cmp] :
    Std.TransCmp fun a b => cmp (f a) (f b) where
  eq_swap := Std.OrientedCmp.eq_swap
  isLE_trans := Std.TransCmp.isLE_trans

instance : Std.TransCmp orderPart where
  eq_swap := by
    intro a b
    unfold orderPart
    cases parseAscii a with
    | none =>
      cases parseAscii b with
      | none => exact Std.OrientedOrd.eq_swap (α := List UInt8)
      | some _ => rfl
    | some _ =>
      cases parseAscii b with
      | none => rfl
      | some _ => exact Std.OrientedOrd.eq_swap (α := Nat)
  isLE_trans := by
    intro a b c hab hbc
    unfold orderPart at *
    cases ha : parseAscii a with
    | none =>
      cases hb : parseAscii b with
      | none =>
        rw [ha, hb] at hab
        rw [hb] at hbc
        cases hc : parseAscii c with
        | none =>
          rw [hc] at hbc
          exact Std.TransOrd.isLE_trans (α := List UInt8) hab hbc
        | some _ =>
          rw [hc] at hbc
          exact hbc
      | some _ =>
        rw [ha, hb] at hab
        exact absurd hab (by simp)
    | some _ =>
      cases hc : parseAscii c with
      | none => rfl
      | some _ =>
        cases hb : parseAscii b with
        | none =>
          rw [hb, hc] at hbc
          exact absurd hbc (by simp)
        | some _ =>
          rw [ha, hb] at hab
          rw [hb, hc] at hbc
          exact Std.TransOrd.isLE_trans (α := Nat) hab hbc

theorem orderParts_eq (ls rs : List (List UInt8)) :
    orderParts ls rs = List.compareLex orderPart ls rs := by
  induction ls generalizing rs with
  | nil =>
    cases rs with
    | nil => rfl
    | cons r rs => rfl
  | cons l ls ih =>
    cases rs with
    | nil => rfl
    | cons r rs =>
      rw [orderParts, List.compareLex_cons_cons, ih]
      cases orderPart l r with
      | lt => rfl
      | eq => rfl
      | gt => rfl

/-! ## The orders of versions -/

/-- The numbers, then a prerelease before its release. -/
def coreOrder : Version → Version → Ordering :=
  compareLex (compareOn (·.major)) <| compareLex (compareOn (·.minor)) <|
    compareLex (compareOn (·.patch)) (compareOn fun v => !v.tag.hasPre)

def preOrder (l r : Version) : Ordering :=
  List.compareLex orderPart (l.tag.pre.value.splitOn 46) (r.tag.pre.value.splitOn 46)

/-- What `order` looks at of a build: nothing, next to a prerelease. -/
def releaseBuild (v : Version) : List UInt8 := if v.tag.hasPre then [] else v.tag.build.value

instance : Std.TransCmp coreOrder := by
  unfold coreOrder
  infer_instance

instance : Std.TransCmp preOrder :=
  transCmp_on (fun v : Version => v.tag.pre.value.splitOn 46) (List.compareLex orderPart)

theorem orderWithoutTag_eq (l r : Version) : l.orderWithoutTag r = coreOrder l r := by
  unfold Version.orderWithoutTag coreOrder
  rcases Nat.lt_trichotomy l.major r.major with h | h | h
  · simp [compareLex, compareOn, h, Nat.compare_eq_lt.mpr h]
  · rcases Nat.lt_trichotomy l.minor r.minor with h' | h' | h'
    · simp [compareLex, compareOn, h, h', Nat.compare_eq_lt.mpr h']
    · rcases Nat.lt_trichotomy l.patch r.patch with h'' | h'' | h''
      · simp [compareLex, compareOn, h, h', h'', Nat.compare_eq_lt.mpr h'']
      · cases hl : l.tag.hasPre with
        | true =>
          cases hr : r.tag.hasPre with
          | true => simp [compareLex, compareOn, h, h', h'', hl, hr]
          | false => simp [compareLex, compareOn, h, h', h'', hl, hr]; rfl
        | false =>
          cases hr : r.tag.hasPre with
          | true => simp [compareLex, compareOn, h, h', h'', hl, hr]; rfl
          | false => simp [compareLex, compareOn, h, h', h'', hl, hr]
      · simp [compareLex, compareOn, h, h', h'', h''.not_gt, Nat.compare_eq_gt.mpr h'']
    · simp [compareLex, compareOn, h, h', h'.not_gt, Nat.compare_eq_gt.mpr h']
  · simp [compareLex, compareOn, h, h.not_gt, Nat.compare_eq_gt.mpr h]

/-- Versions that the core does not tell apart both have a prerelease or both have
none. -/
theorem hasPre_eq_of_coreOrder (h : coreOrder l r = .eq) :
    l.tag.hasPre = r.tag.hasPre := by
  simp only [coreOrder, compareLex_eq_eq, compareOn] at h
  have hflag := Std.LawfulEqCmp.eq_of_compare h.2.2.2
  simpa using hflag

theorem value_eq_nil_of_hasPre {t : Tag} (h : t.hasPre = false) : t.pre.value = [] := by
  simpa [Tag.hasPre, ExternalString.isEmpty] using h

theorem preOrder_of_not_hasPre (hl : l.tag.hasPre = false) (hr : r.tag.hasPre = false) :
    preOrder l r = .eq := by
  rw [preOrder, value_eq_nil_of_hasPre hl, value_eq_nil_of_hasPre hr]
  exact Std.ReflCmp.compare_self

/-- Two empty strings are equal, with or without the shortcut. -/
theorem order_eq_of_not_hasPre {l r : Tag} (hl : l.hasPre = false) (hr : r.hasPre = false) :
    l.pre.order r.pre = .eq := by
  unfold ExternalString.order
  split
  · rfl
  · rw [value_eq_nil_of_hasPre hl, value_eq_nil_of_hasPre hr]
    rfl

theorem orderPre_eq (l r : Version) : l.tag.orderPre r.tag = preOrder l r := orderParts_eq _ _

theorem orderWithoutBuild_eq (l r : Version) :
    l.orderWithoutBuild r = compareLex coreOrder preOrder l r := by
  rw [Version.orderWithoutBuild, orderWithoutTag_eq, compareLex]
  cases hcore : coreOrder l r with
  | lt => rfl
  | gt => rfl
  | eq =>
    show l.tag.orderWithoutBuild r.tag = preOrder l r
    have hsame := hasPre_eq_of_coreOrder hcore
    unfold Tag.orderWithoutBuild
    cases hr : r.tag.hasPre with
    | true =>
      rw [if_pos, orderPre_eq]
      have hl := hsame.trans hr
      unfold Tag.hasPre at hl hr
      rw [hl, hr]
      rfl
    | false =>
      have hl := hsame.trans hr
      rw [if_neg, order_eq_of_not_hasPre hl hr, preOrder_of_not_hasPre hl hr]
      unfold Tag.hasPre at hr
      simp [hr]

/-- Equal hashes of builds mean equal builds. -/
def DistinctBuilds (s : Set Version) : Prop :=
  ∀ a ∈ s, ∀ b ∈ s, a.tag.build.hash = b.tag.build.hash → 0 < a.tag.build.hash →
    a.tag.build.value = b.tag.build.value

/-- The chain behind `order`. -/
def fullOrder : Version → Version → Ordering :=
  compareLex (compareLex coreOrder preOrder) (compareOn releaseBuild)

instance : Std.TransCmp fullOrder := by
  unfold fullOrder
  infer_instance

theorem buildOrder_eq {l r : ExternalString}
    (h : l.hash = r.hash → 0 < l.hash → l.value = r.value) :
    l.order r = compare l.value r.value := by
  unfold ExternalString.order
  split
  · next hhash =>
      rw [h hhash.1 hhash.2]
      exact Std.ReflOrd.compare_self.symm
  · rfl

theorem order_eq {s : Set Version} (hs : DistinctBuilds s) (hl : l ∈ s) (hr : r ∈ s) :
    l.order r = fullOrder l r := by
  rw [Version.order, orderWithoutTag_eq, fullOrder]
  cases hcore : coreOrder l r with
  | lt => simp [compareLex, hcore]
  | gt => simp [compareLex, hcore]
  | eq =>
    have hsame := hasPre_eq_of_coreOrder hcore
    simp only [compareLex, compareOn, hcore, Ordering.eq_then, Tag.order, releaseBuild]
    cases hpre : r.tag.hasPre with
    | true =>
      have hpre' := hsame.trans hpre
      rw [hpre', orderPre_eq]
      unfold Tag.hasPre at hpre hpre'
      simp [hpre, hpre']
    | false =>
      have hpre' := hsame.trans hpre
      rw [hpre', order_eq_of_not_hasPre hpre' hpre, preOrder_of_not_hasPre hpre' hpre,
        buildOrder_eq (hs l hl r hr)]
      unfold Tag.hasPre at hpre
      simp [hpre]

/-- **Total preorders**: both orders are, and `order` refines the one without the
build. -/
theorem order_totalPreorder {s : Set Version} (hs : DistinctBuilds s) :
    TotalPreorder Version.order s ∧ TotalPreorder Version.orderWithoutBuild s ∧
      ∀ a ∈ s, ∀ b ∈ s, a.orderWithoutBuild b ≠ .eq → a.order b = a.orderWithoutBuild b := by
  refine ⟨.of_transCmp fun a ha b hb => order_eq hs ha hb,
    .of_transCmp fun a _ b _ => orderWithoutBuild_eq a b, fun a ha b hb hne => ?_⟩
  rw [orderWithoutBuild_eq] at hne ⊢
  rw [order_eq hs ha hb, fullOrder, compareLex]
  cases h : compareLex coreOrder preOrder a b with
  | lt => rfl
  | gt => rfl
  | eq => exact absurd h hne

/-- `1.0.0` with a build, hashed to a number of its bytes. -/
def buildVersion (build : List UInt8) : Version :=
  ⟨1, 0, 0, ⟨default, external (fun s => s.foldl (fun h c => h * 256 + c.toUInt64) 1) build⟩⟩

/-- `1.0.0+a` comes before `1.0.0+b`. -/
theorem order_totalPreorder_builds :
    (buildVersion [97]).order (buildVersion [98]) = .lt ∧
      TotalPreorder Version.order {buildVersion [97], buildVersion [98]} := by
  refine ⟨by decide, (order_totalPreorder ?_).1⟩
  rintro a (rfl | rfl) b (rfl | rfl)
  · exact fun _ _ => rfl
  · exact fun h => absurd h (by decide)
  · exact fun h => absurd h (by decide)
  · exact fun _ _ => rfl

/-! ## Item 11 -/

def isAlphanumeric (c : UInt8) : Bool := isAsciiAlphabetic c || isDigit c || c = 45

/-- A prerelease identifier of the SemVer grammar: no leading zero in a number. -/
structure IsIdentifier (s : List UInt8) : Prop where
  ne_nil : s ≠ []
  alphanumeric : ∀ c ∈ s, isAlphanumeric c = true
  leadingZero : s.all isDigit = true → s.head? = some 48 → s = [48]

instance (s : List UInt8) : Decidable (IsIdentifier s) :=
  decidable_of_iff (s ≠ [] ∧ s.all isAlphanumeric = true ∧
      (s.all isDigit = true → s.head? = some 48 → s = [48]))
    ⟨fun h => ⟨h.1, List.all_eq_true.mp h.2.1, h.2.2⟩,
      fun h => ⟨h.ne_nil, List.all_eq_true.mpr h.alphanumeric, h.leadingZero⟩⟩

/-- Numbers by value and before words, words in ASCII order. -/
def itemElevenPart (l r : List UInt8) : Ordering :=
  match l.all isDigit, r.all isDigit with
  | true, true => compare (value l) (value r)
  | true, false => .lt
  | false, true => .gt
  | false, false => compare l r

/-- Identifier by identifier, and a proper prefix is lower. -/
def itemElevenOrder (l r : List UInt8) : Ordering :=
  List.compareLex itemElevenPart (l.splitOn 46) (r.splitOn 46)

/-- The first position where two lists differ. -/
def firstDifference : List (List UInt8) → List (List UInt8) → Option (List UInt8 × List UInt8)
  | l :: ls, r :: rs => if l = r then firstDifference ls rs else some (l, r)
  | _, _ => none

/-- A number that does not fit `u64`. -/
def overflows (s : List UInt8) : Bool := s.all isDigit && 2 ^ 64 ≤ value s

/-- Two identifiers that are compared byte by byte and come out wrong: two large
numbers whose byte order is not their numeric one, or a large number that is not
before a word. -/
def Misordered (l r : List UInt8) : Prop :=
  overflows l ∧ overflows r ∧ compare l r ≠ compare (value l) (value r) ∨
    overflows l ∧ ¬ r.all isDigit ∧ compare l r ≠ .lt ∨
    ¬ l.all isDigit ∧ overflows r ∧ compare l r ≠ .gt

namespace IsIdentifier
variable {l r : List UInt8}

theorem parseAscii_eq (h : IsIdentifier l) :
    parseAscii l = if l.all isDigit ∧ value l < 2 ^ 64 then some (value l) else none := by
  refine Semver.parseAscii_eq h.ne_nil fun hmem => ?_
  exact absurd (h.alphanumeric 95 hmem) (by decide)

/-- Numbers of the grammar are told apart by their values. -/
theorem eq_of_value (hl : IsIdentifier l) (hr : IsIdentifier r) (hld : l.all isDigit = true)
    (hrd : r.all isDigit = true) (h : value l = value r) : l = r := by
  rw [← decimal_value hl.ne_nil (List.all_eq_true.mp hld) (hl.leadingZero hld), h,
    decimal_value hr.ne_nil (List.all_eq_true.mp hrd) (hr.leadingZero hrd)]

theorem itemElevenPart_eq (hl : IsIdentifier l) (hr : IsIdentifier r)
    (h : itemElevenPart l r = .eq) : l = r := by
  unfold itemElevenPart at h
  cases hld : l.all isDigit with
  | true =>
    cases hrd : r.all isDigit with
    | true =>
      rw [hld, hrd] at h
      exact hl.eq_of_value hr hld hrd (Nat.compare_eq_eq.mp h)
    | false => simp [hld, hrd] at h
  | false =>
    cases hrd : r.all isDigit with
    | true => simp [hld, hrd] at h
    | false =>
      rw [hld, hrd] at h
      exact Std.LawfulEqOrd.eq_of_compare h

/-- A small number, a large one or a word. -/
theorem kinds (h : IsIdentifier l) :
    (l.all isDigit = true ∧ value l < 2 ^ 64 ∧ overflows l = false ∧ parseAscii l = some (value l)) ∨
    (l.all isDigit = true ∧ 2 ^ 64 ≤ value l ∧ overflows l = true ∧ parseAscii l = none) ∨
    (l.all isDigit = false ∧ overflows l = false ∧ parseAscii l = none) := by
  rw [h.parseAscii_eq]
  cases hd : l.all isDigit with
  | true =>
    rcases Nat.lt_or_ge (value l) (2 ^ 64) with hlt | hge
    · refine .inl ⟨rfl, hlt, ?_, if_pos ⟨rfl, hlt⟩⟩
      rw [overflows, hd, Bool.true_and]
      exact decide_eq_false (Nat.not_le.mpr hlt)
    · refine .inr (.inl ⟨rfl, hge, ?_, if_neg fun h => Nat.not_lt.mpr hge h.2⟩)
      rw [overflows, hd, Bool.true_and]
      exact decide_eq_true hge
  | false => exact .inr (.inr ⟨rfl, by simp [overflows, hd], if_neg fun h => absurd h.1 (by simp)⟩)

theorem orderPart_eq (hl : IsIdentifier l) (hr : IsIdentifier r) (h : orderPart l r = .eq) :
    l = r := by
  unfold orderPart at h
  rcases hl.kinds with ⟨hld, -, -, hlp⟩ | ⟨-, -, -, hlp⟩ | ⟨-, -, hlp⟩
  · rcases hr.kinds with ⟨hrd, -, -, hrp⟩ | ⟨-, -, -, hrp⟩ | ⟨-, -, hrp⟩
    · rw [hlp, hrp] at h
      exact hl.eq_of_value hr hld hrd (Nat.compare_eq_eq.mp h)
    · simp [hlp, hrp] at h
    · simp [hlp, hrp] at h
  · cases hrp : parseAscii r with
    | some _ => simp [hlp, hrp] at h
    | none =>
      rw [hlp, hrp] at h
      exact Std.LawfulEqOrd.eq_of_compare h
  · cases hrp : parseAscii r with
    | some _ => simp [hlp, hrp] at h
    | none =>
      rw [hlp, hrp] at h
      exact Std.LawfulEqOrd.eq_of_compare h

/-- Where one comparison differs from the other. -/
theorem orderPart_eq_iff (hl : IsIdentifier l) (hr : IsIdentifier r) :
    orderPart l r = itemElevenPart l r ↔ ¬ Misordered l r := by
  unfold orderPart itemElevenPart Misordered
  rcases hl.kinds with ⟨hld, hlv, hlo, hlp⟩ | ⟨hld, hlv, hlo, hlp⟩ | ⟨hld, hlo, hlp⟩
  · rcases hr.kinds with ⟨hrd, hrv, hro, hrp⟩ | ⟨hrd, hrv, hro, hrp⟩ | ⟨hrd, hro, hrp⟩
    · simp [hld, hlo, hlp, hrd, hro, hrp]
    · have hlt : compare (value l) (value r) = .lt := Nat.compare_eq_lt.mpr (hlv.trans_le hrv)
      simp [hld, hlo, hlp, hrd, hro, hrp, hlt]
    · simp [hld, hlo, hlp, hrd, hro, hrp]
  · rcases hr.kinds with ⟨hrd, hrv, hro, hrp⟩ | ⟨hrd, hrv, hro, hrp⟩ | ⟨hrd, hro, hrp⟩
    · have hgt : compare (value l) (value r) = .gt := Nat.compare_eq_gt.mpr (hrv.trans_le hlv)
      simp [hld, hlo, hlp, hrd, hro, hrp, hgt]
    · simp [hld, hlo, hlp, hrd, hro, hrp, order]
    · simp [hld, hlo, hlp, hrd, hro, hrp, order]
  · rcases hr.kinds with ⟨hrd, hrv, hro, hrp⟩ | ⟨hrd, hrv, hro, hrp⟩ | ⟨hrd, hro, hrp⟩
    · simp [hld, hlo, hlp, hrd, hro, hrp]
    · simp [hld, hlo, hlp, hrd, hro, hrp, order]
    · simp [hld, hlo, hlp, hrd, hro, hrp, order]

end IsIdentifier

/-- Both comparisons are decided at the first difference. -/
theorem compareLex_firstDifference {cmp : List UInt8 → List UInt8 → Ordering} (hrefl : ∀ l, cmp l l = .eq)
    (heq : ∀ l ∈ ls, ∀ r ∈ rs, cmp l r = .eq → l = r) : List.compareLex cmp ls rs =
      match firstDifference ls rs with
      | some (l, r) => cmp l r
      | none => compare ls.length rs.length := by
  induction ls generalizing rs with
  | nil =>
    cases rs with
    | nil => rfl
    | cons r rs => exact (Nat.compare_eq_lt.mpr (Nat.succ_pos _)).symm
  | cons l ls ih =>
    cases rs with
    | nil => exact (Nat.compare_eq_gt.mpr (Nat.succ_pos _)).symm
    | cons r rs =>
      rw [List.compareLex_cons_cons, firstDifference]
      by_cases hlr : l = r
      · subst hlr
        rw [hrefl, if_pos rfl, Ordering.eq_then, ih fun l hl r hr =>
          heq l (List.mem_cons_of_mem _ hl) r (List.mem_cons_of_mem _ hr)]
        have hlen : compare ls.length rs.length = compare (ls.length + 1) (rs.length + 1) := by
          simp [Nat.compare_eq_ite_lt]
        rw [List.length_cons, List.length_cons, hlen]
      · rw [if_neg hlr]
        cases hcmp : cmp l r with
        | lt => simp [hcmp]
        | gt => simp [hcmp]
        | eq => exact absurd (heq l List.mem_cons_self r List.mem_cons_self hcmp) hlr

theorem firstDifference_mem {l r : List UInt8} (h : firstDifference ls rs = some (l, r)) :
    l ∈ ls ∧ r ∈ rs := by
  induction ls generalizing rs with
  | nil => exact absurd h (by simp [firstDifference])
  | cons a ls ih =>
    cases rs with
    | nil => exact absurd h (by simp [firstDifference])
    | cons b rs =>
      rw [firstDifference] at h
      split at h
      · exact ⟨List.mem_cons_of_mem _ (ih h).1, List.mem_cons_of_mem _ (ih h).2⟩
      · obtain ⟨rfl, rfl⟩ := Prod.mk.inj (Option.some.inj h)
        exact ⟨List.mem_cons_self, List.mem_cons_self⟩

/-- A prerelease of the SemVer grammar. -/
def IsPrerelease (s : List UInt8) : Prop := ∀ id ∈ s.splitOn 46, IsIdentifier id

instance (s : List UInt8) : Decidable (IsPrerelease s) :=
  inferInstanceAs (Decidable (∀ id ∈ s.splitOn 46, IsIdentifier id))

theorem itemElevenPart_self (l : List UInt8) : itemElevenPart l l = .eq := by
  unfold itemElevenPart
  cases l.all isDigit with
  | true => exact Std.ReflOrd.compare_self
  | false => exact Std.ReflOrd.compare_self

/-- **Item 11**: `order_pre` follows it unless the first identifiers that differ
are misordered. -/
theorem orderPre_eq_iff {l r : Tag} (hl : IsPrerelease l.pre.value) (hr : IsPrerelease r.pre.value) :
    l.orderPre r = itemElevenOrder l.pre.value r.pre.value ↔
      ∀ a b, firstDifference (l.pre.value.splitOn 46) (r.pre.value.splitOn 46) = some (a, b) →
        ¬ Misordered a b := by
  rw [Tag.orderPre, orderParts_eq, itemElevenOrder,
    compareLex_firstDifference (fun _ => Std.ReflCmp.compare_self)
      fun a ha b hb => (hl a ha).orderPart_eq (hr b hb),
    compareLex_firstDifference itemElevenPart_self
      fun a ha b hb => (hl a ha).itemElevenPart_eq (hr b hb)]
  cases hdiff : firstDifference (l.pre.value.splitOn 46) (r.pre.value.splitOn 46) with
  | none => simp
  | some pair =>
    obtain ⟨a, b⟩ := pair
    obtain ⟨ha, hb⟩ := firstDifference_mem hdiff
    rw [(hl a ha).orderPart_eq_iff (hr b hb)]
    constructor
    · intro h a' b' heq
      obtain ⟨rfl, rfl⟩ := Prod.mk.inj (Option.some.inj heq)
      exact h
    · exact fun h => h a b rfl

/-- A tag with a prerelease and no build. -/
def preTag (pre : List UInt8) : Tag := ⟨⟨pre, 0⟩, default⟩

/-- `a.2` and `a.10`. -/
theorem orderPre_eq_iff_numbers : (preTag [97, 46, 50]).orderPre (preTag [97, 46, 49, 48]) = .lt ∧
    (preTag [97, 46, 50]).orderPre (preTag [97, 46, 49, 48]) =
      itemElevenOrder [97, 46, 50] [97, 46, 49, 48] := by
  refine ⟨by decide, (orderPre_eq_iff (by decide) (by decide)).mpr ?_⟩
  intro a b h
  have hdiff : firstDifference ([97, 46, 50].splitOn 46) ([97, 46, 49, 48].splitOn 46) =
      some ([50], [49, 48]) := by decide
  obtain ⟨rfl, rfl⟩ := Prod.mk.inj (Option.some.inj (hdiff.symm.trans h))
  unfold Misordered
  decide

/-- `100000000000000000000` is after `99999999999999999999`, but not for `order_pre`. -/
theorem orderPre_large_ne :
    IsPrerelease (49 :: List.replicate 20 48) ∧ IsPrerelease (List.replicate 20 57) ∧
    (preTag (49 :: List.replicate 20 48)).orderPre (preTag (List.replicate 20 57)) = .lt ∧
    itemElevenOrder (49 :: List.replicate 20 48) (List.replicate 20 57) = .gt := by
  decide

end OhosBun.Semver
