/-
# `OhosBun.Install.OverrideChoice` — the override that applies

Of the scoped rules that match a dependency the one that comes first by `precedence`
applies: a rule with a ranged parent before one with a parent before one without, a rule
with a target range before one without, and then by the texts of the ranges.  Where no
two rules have the same selector one of them comes first (`ranked`), and the lookup is a
scan that ends with it (`foldl_turn`).
-/
import OhosBun.Install.OverrideMap
import OhosBun.Lib.Greatest
import OhosBun.Semver.Precedence

namespace OhosBun.Install.Overrides

open OhosBun.Lib
open OhosBun.Semver (Group Version)

/-! ## Precedence -/

/-- A dependency, as the rules see it. -/
structure Asker where
  nameHash : UInt64
  declared : DependencyVersion
  owner : Option (UInt64 × Option Version)

namespace ScopedOverride

/-- The owner of the dependency is the parent, in its range if it has one. -/
def MatchesParent (rule : ScopedOverride) (asker : Asker) (parent : Dependency) : Prop :=
  ∃ version, asker.owner = some (parent.nameHash, version) ∧
    (rule.parentHasRange → ∃ v, version = some v ∧ parent.version.npm.satisfies v)

/-- The rule is one for this dependency. -/
structure Matches (rule : ScopedOverride) (asker : Asker) : Prop where
  target : rule.dep.nameHash = asker.nameHash
  parent : ∀ p ∈ rule.parent, rule.MatchesParent asker p
  range : rule.hasTargetRange → asker.declared.tag = .npm ∧
    rule.targetRange.npm.intersects asker.declared.npm

/-- A ranged parent, a parent, none. -/
def parentClass (rule : ScopedOverride) : Nat :=
  match rule.parent with
  | some _ => if rule.parentHasRange then 0 else 1
  | none => 2

def parentText (rule : ScopedOverride) : List UInt8 :=
  match rule.parent with
  | some parent => parent.version.literal
  | none => []

def targetText (rule : ScopedOverride) : List UInt8 := rule.targetRange.literal

/-- The rule that comes first takes precedence. -/
def precedence : ScopedOverride → ScopedOverride → Ordering :=
  compareLex (compareOn parentClass) <| compareLex (compareOn fun r => !r.hasTargetRange) <|
    compareLex (compareOn parentText) (compareOn targetText)

instance : Std.TransCmp precedence := by
  unfold precedence
  infer_instance

def outranks (a b : ScopedOverride) : Bool := precedence a b = .lt

/-- The tier that the lookup gives a rule that matches. -/
def tier (rule : ScopedOverride) : Nat :=
  2 * (2 - rule.parentClass) + if rule.hasTargetRange then 1 else 0

end ScopedOverride

open ScopedOverride

section Order
variable {a b : ScopedOverride}

/-- A parent that has no range has no range text. -/
theorem parentText_eq_nil (h : a.parentHasRange = false) : a.parentText = [] := by
  unfold parentText
  split
  · next parent hparent =>
      rcases a.parent_isRange parent hparent with hnpm | hdefault
      · rw [parentHasRange, hparent] at h
        simp [hnpm] at h
      · rw [hdefault]
        rfl
  · rfl

theorem parentClass_eq_iff (h : a.parentClass = b.parentClass) :
    a.parentHasRange = b.parentHasRange ∧ a.parent.isSome = b.parent.isSome := by
  unfold parentClass at h
  have hnone {r : ScopedOverride} (hr : r.parent = none) : r.parentHasRange = false := by
    rw [parentHasRange, hr]
    rfl
  cases ha : a.parent with
  | none =>
    cases hb : b.parent with
    | none => exact ⟨by rw [hnone ha, hnone hb], rfl⟩
    | some q =>
      rw [ha, hb] at h
      simp only at h
      split at h <;> omega
  | some p =>
    cases hb : b.parent with
    | none =>
      rw [ha, hb] at h
      simp only at h
      split at h <;> omega
    | some q =>
      rw [ha, hb] at h
      simp only at h
      refine ⟨?_, rfl⟩
      cases hra : a.parentHasRange <;> cases hrb : b.parentHasRange <;> simp_all

/-- In one class the texts are compared as the lookup compares them. -/
theorem cmpRangeText_eq (h : a.parentClass = b.parentClass) :
    cmpRangeText a b =
      (compare a.parentText b.parentText).then (compare a.targetText b.targetText) := by
  obtain ⟨hrange, hsome⟩ := parentClass_eq_iff h
  have hself : compare ([] : List UInt8) [] = .eq := Std.ReflCmp.compare_self
  unfold cmpRangeText
  cases hr : a.parentHasRange with
  | false =>
    rw [parentText_eq_nil hr, parentText_eq_nil (hrange ▸ hr), hself]
    cases ha : a.parent <;> cases hb : b.parent <;> simp [Semver.order, targetText]
  | true =>
    cases ha : a.parent with
    | none =>
      rw [parentHasRange, ha] at hr
      exact absurd hr Bool.false_ne_true
    | some p =>
      cases hb : b.parent with
      | none => simp [ha, hb] at hsome
      | some q =>
        simp [parentText, ha, hb, hr, ← hrange, Semver.order, targetText]

theorem parentClass_le : a.parentClass ≤ 2 := by
  unfold parentClass
  split
  · split <;> omega
  · exact le_rfl

/-- The lookup's comparison is that of the precedence. -/
theorem outranks_iff : outranks a b ↔
    b.tier < a.tier ∨ a.tier = b.tier ∧ cmpRangeText a b = .lt := by
  have hale := parentClass_le (a := a)
  have hble := parentClass_le (a := b)
  rw [outranks, decide_eq_true_iff]
  simp only [precedence, compareLex, compareOn, Ordering.then_eq_lt, Nat.compare_eq_lt,
    Nat.compare_eq_eq]
  unfold tier
  by_cases hclass : a.parentClass = b.parentClass
  · rw [cmpRangeText_eq hclass, hclass]
    simp only [Ordering.then_eq_lt]
    cases ha : a.hasTargetRange <;> cases hb : b.hasTargetRange <;> simp [compare]
  · rcases Nat.lt_or_ge a.parentClass b.parentClass with hlt | hge
    · refine iff_of_true (.inl hlt) (.inl ?_)
      split <;> split <;> omega
    · refine iff_of_false ?_ ?_
      · rintro (hlt | ⟨heq, -⟩) <;> omega
      · split <;> split <;> omega

theorem outranks_trans {c : ScopedOverride} (hab : outranks a b) (hbc : outranks b c) :
    outranks a c := by
  rw [outranks, decide_eq_true_iff] at hab hbc ⊢
  exact Std.TransCmp.lt_trans hab hbc

theorem outranks_self : outranks a a = false := by
  have hself : precedence a a = .eq := Std.ReflCmp.compare_self
  rw [outranks, decide_eq_false_iff_not, hself]
  simp

theorem outranks_total : outranks a b ∨ outranks b a ∨ precedence a b = .eq := by
  have hswap : precedence b a = (precedence a b).swap := Std.OrientedCmp.eq_swap
  rw [outranks, outranks, decide_eq_true_iff, decide_eq_true_iff, hswap]
  cases precedence a b <;> simp

end Order

/-! ## Rules with different selectors -/

/-- What a rule is replaced by: the target, the parent with its range and the target
range. -/
def ScopedOverride.selector (rule : ScopedOverride) :
    UInt64 × Option (UInt64 × List UInt8) × List UInt8 :=
  (rule.dep.nameHash, rule.parent.map fun p => (p.nameHash, p.version.literal), rule.targetText)

/-- No two rules have the same selector. -/
def DistinctSelectors (rules : List ScopedOverride) : Prop := (rules.map selector).Nodup

theorem sameSelector_iff {a b : ScopedOverride} :
    OverrideMap.sameSelector a b ↔ a.selector = b.selector := by
  unfold OverrideMap.sameSelector selector targetText
  cases ha : a.parent <;> cases hb : b.parent <;> simp [and_assoc]

section Matching
variable {asker : Asker} {a b : ScopedOverride}

/-- Two rules that match and that the precedence does not tell apart have the same
selector. -/
theorem selector_eq_of_matches (ha : a.Matches asker) (hb : b.Matches asker)
    (h : precedence a b = .eq) : a.selector = b.selector := by
  simp only [precedence, compareLex, compareOn, Ordering.then_eq_eq,
    Std.compare_eq_iff_eq] at h
  obtain ⟨hclass, -, hparent, htarget⟩ := h
  obtain ⟨-, hsome⟩ := parentClass_eq_iff hclass
  rw [selector, selector, ha.target, hb.target, htarget]
  cases hpa : a.parent with
  | none =>
    rw [hpa] at hsome
    rw [Option.isSome_eq_false_iff.mp hsome.symm |> Option.isNone_iff_eq_none.mp]
  | some p =>
    obtain ⟨q, hpb⟩ := Option.isSome_iff_exists.mp (by rw [← hsome, hpa]; rfl : b.parent.isSome)
    obtain ⟨v, howner, -⟩ := ha.parent p hpa
    obtain ⟨w, howner', -⟩ := hb.parent q hpb
    rw [howner, Option.some.injEq, Prod.mk.injEq] at howner'
    simp only [parentText, hpa, hpb] at hparent
    rw [hpb, Option.map_some, Option.map_some, howner'.1, hparent]

variable {rules : List ScopedOverride}

/-- The rules that match are ranked. -/
theorem ranked (h : DistinctSelectors rules) {l : List ScopedOverride}
    (hl : ∀ r ∈ l, r ∈ rules ∧ r.Matches asker) : Ranked outranks l where
  irrefl := fun _ => outranks_self
  trans := fun _ _ _ => outranks_trans
  total := by
    intro a ha b hb
    obtain ⟨hamem, hamatch⟩ := hl a ha
    obtain ⟨hbmem, hbmatch⟩ := hl b hb
    rcases outranks_total (a := a) (b := b) with hab | hba | heq
    · exact .inr (.inl hab)
    · exact .inr (.inr hba)
    · exact .inl (List.inj_on_of_nodup_map h hamem hbmem
        (selector_eq_of_matches hamatch hbmatch heq))

end Matching

/-! ## One turn of the lookup -/

section Turn
variable {s : OverrideMap.Lookup} {rule : ScopedOverride} {asker : Asker}
  {best : Option ScopedOverride} {lockfile : OverrideLockfile} {dependencyId : Nat}

open OverrideMap (Lookup parentTier)

/-- The best rule so far is kept with its tier. -/
def Tiered (best : Option ScopedOverride) : Option (ScopedOverride × Nat) :=
  best.map fun rule => (rule, rule.tier)

theorem consider_best (h : s.best = Tiered best) :
    (s.consider rule rule.tier).best = Tiered (keep outranks best rule) := by
  rw [Lookup.consider, h]
  cases best with
  | none => rfl
  | some r =>
    have hkeep : (decide (rule.tier > r.tier) ||
        decide (rule.tier = r.tier) && decide (cmpRangeText rule r = .lt)) = outranks rule r := by
      rw [Bool.eq_iff_iff, outranks_iff]
      simp
    simp only [Tiered, Option.map_some, keep, hkeep]
    split
    · rfl
    · exact h

/-- What the parent asks for is in the tier. -/
theorem parentTier_eq (asker : Asker) (parent : Dependency) (hparent : rule.parent = some parent) :
    (rule.MatchesParent asker parent ∧
      parentTier rule parent asker.owner = some (2 * (2 - rule.parentClass))) ∨
    (¬ rule.MatchesParent asker parent ∧ parentTier rule parent asker.owner = none) := by
  unfold parentTier MatchesParent parentClass
  rw [hparent]
  cases howner : asker.owner with
  | none => exact .inr ⟨fun ⟨_, h, _⟩ => (absurd h (by simp)), rfl⟩
  | some owner =>
    obtain ⟨ownerNameHash, ownerVersion⟩ := owner
    dsimp only
    by_cases hname : ownerNameHash = parent.nameHash
    · rw [if_neg (not_not.mpr hname)]
      cases hrange : rule.parentHasRange with
      | false => exact .inl ⟨⟨ownerVersion, by rw [hname], by simp⟩, rfl⟩
      | true =>
        cases ownerVersion with
        | none =>
          refine .inr ⟨?_, rfl⟩
          rintro ⟨version, heq, h⟩
          obtain ⟨v, hv, -⟩ := h rfl
          rw [hv] at heq
          simp at heq
        | some version =>
          simp only [if_true]
          split
          · next hin => exact .inl ⟨⟨some version, by rw [hname], fun _ => ⟨version, rfl, hin⟩⟩, rfl⟩
          · next hout =>
              refine .inr ⟨?_, rfl⟩
              rintro ⟨version', heq, h⟩
              obtain ⟨v, hv, hin⟩ := h trivial
              rw [hv] at heq
              simp only [Option.some.injEq, Prod.mk.injEq] at heq
              exact hout (heq.2 ▸ hin)
    · rw [if_pos hname]
      refine .inr ⟨?_, rfl⟩
      rintro ⟨version, heq, -⟩
      exact hname (Prod.mk.inj (Option.some.inj heq)).1

/-- The target range of the rule holds of what the dependency declares. -/
def ScopedOverride.InTargetRange (rule : ScopedOverride) (asker : Asker) : Prop :=
  rule.hasTargetRange → asker.declared.tag = .npm ∧
    rule.targetRange.npm.intersects asker.declared.npm

/-- A rule of a higher tier stays. -/
theorem keep_of_tier_lt {r : ScopedOverride} (h : rule.tier < r.tier) :
    keep outranks (some r) rule = some r := by
  rw [keep, if_neg]
  rw [outranks_iff]
  rintro (hlt | ⟨heq, -⟩) <;> omega

open Classical in
theorem atTier_best (h : s.best = Tiered best) :
    (s.atTier asker.declared rule (2 * (2 - rule.parentClass))).best =
      Tiered (if rule.InTargetRange asker then keep outranks best rule else best) := by
  rw [Lookup.atTier]
  cases hrange : rule.hasTargetRange with
  | false =>
    have htier : rule.tier = 2 * (2 - rule.parentClass) := by simp [tier, hrange]
    have hin : rule.InTargetRange asker := fun h => absurd (hrange ▸ h) Bool.false_ne_true
    rw [if_neg Bool.false_ne_true, if_pos hin, ← htier]
    exact consider_best h
  | true =>
    have htier : rule.tier = 2 * (2 - rule.parentClass) + 1 := by simp [tier, hrange]
    rw [if_pos rfl, ← htier]
    split
    · next hhigher =>
        obtain ⟨⟨r, t⟩, hbest, hlt⟩ := (Option.any_eq_true _ _).mp hhigher
        rw [h] at hbest
        obtain ⟨r', rfl, heq⟩ := Option.map_eq_some_iff.mp hbest
        obtain ⟨rfl, rfl⟩ := Prod.mk.inj heq
        rw [h, keep_of_tier_lt (of_decide_eq_true hlt), ite_self]
    · split
      · next hout =>
          rw [if_neg, h]
          intro hin
          obtain ⟨htag, hinter⟩ := hin hrange
          rcases hout with hout | hout
          · exact hout htag
          · rw [hinter] at hout
            exact absurd hout (by decide)
      · next hin =>
          rw [not_or, not_not, Bool.not_eq_true, Bool.not_eq_false'] at hin
          have hin' : rule.InTargetRange asker := fun _ => hin
          rw [if_pos hin']
          exact consider_best h

/-- Nobody has asked for the owner yet, or the answer is kept with the index it is
from. -/
def Asked (index : OwnerIndex) (lockfile : OverrideLockfile) (dependencyId : Nat)
    (s : Lookup) : Prop :=
  s.owner = none ∧ s.ownerIndex = index ∨
    s.owner = some ((index.refresh lockfile).ownerOf lockfile dependencyId) ∧
      s.ownerIndex = index.refresh lockfile

variable {index : OwnerIndex} {declared : DependencyVersion} {nameHash : UInt64}

theorem askOwner_spec (h : Asked index lockfile dependencyId s) :
    (s.askOwner lockfile dependencyId).1 =
        (index.refresh lockfile).ownerOf lockfile dependencyId ∧
      (s.askOwner lockfile dependencyId).2.best = s.best ∧
      Asked index lockfile dependencyId (s.askOwner lockfile dependencyId).2 := by
  unfold Lookup.askOwner
  rcases h with ⟨hnone, hindex⟩ | ⟨hsome, hindex⟩
  · rw [hnone, hindex]
    exact ⟨rfl, rfl, .inr ⟨rfl, rfl⟩⟩
  · rw [hsome]
    exact ⟨rfl, rfl, .inr ⟨hsome, hindex⟩⟩

theorem atTier_asked {tier : Nat} (h : Asked index lockfile dependencyId s) :
    Asked index lockfile dependencyId (s.atTier declared rule tier) := by
  unfold Lookup.atTier Lookup.consider
  dsimp only
  repeat' split
  all_goals exact h

open Classical in
/-- One turn of the lookup is one of the scan over the rules that match. -/
theorem turn_spec (rule : ScopedOverride) (hasked : Asked index lockfile dependencyId s)
    (hbest : s.best = Tiered best) (hasker : asker =
      ⟨nameHash, declared, (index.refresh lockfile).ownerOf lockfile dependencyId⟩) :
    Asked index lockfile dependencyId (s.turn lockfile dependencyId declared nameHash rule) ∧
      (s.turn lockfile dependencyId declared nameHash rule).best =
        Tiered (if rule.Matches asker then keep outranks best rule else best) := by
  have hiff (hname : rule.dep.nameHash = nameHash)
      (hparent : ∀ p ∈ rule.parent, rule.MatchesParent asker p) :
      rule.Matches asker ↔ rule.InTargetRange asker :=
    ⟨fun h => h.range, fun h => ⟨hasker ▸ hname, hparent, h⟩⟩
  have hdeclared : declared = asker.declared := by rw [hasker]
  unfold Lookup.turn
  by_cases hname : rule.dep.nameHash = nameHash
  · rw [if_neg (not_not.mpr hname)]
    cases hparent : rule.parent with
    | none =>
      have hclass : 0 = 2 * (2 - rule.parentClass) := by simp [parentClass, hparent]
      refine ⟨atTier_asked hasked, ?_⟩
      rw [hclass, hdeclared, atTier_best hbest, if_congr (hiff hname _) rfl rfl]
      rw [hparent]
      exact fun p hp => absurd hp (by simp)
    | some parent =>
      obtain ⟨howner, hkept, hasked'⟩ := askOwner_spec hasked
      have howner' : (s.askOwner lockfile dependencyId).1 = asker.owner := by
        rw [howner, hasker]
      dsimp only
      rw [howner']
      rcases parentTier_eq asker parent hparent with ⟨hmatch, htier⟩ | ⟨hmiss, htier⟩
      · rw [htier]
        refine ⟨atTier_asked hasked', ?_⟩
        dsimp only
        rw [hdeclared, atTier_best (hkept.trans hbest), if_congr (hiff hname _) rfl rfl]
        rw [hparent]
        exact fun p hp => Option.mem_some.mp hp ▸ hmatch
      · rw [htier]
        refine ⟨hasked', ?_⟩
        dsimp only
        rw [hkept, hbest, if_neg]
        exact fun h => hmiss (h.parent parent (by rw [hparent]; rfl))
  · rw [if_pos hname]
    refine ⟨hasked, ?_⟩
    rw [hbest, if_neg]
    intro h
    have htarget := h.target
    rw [hasker] at htarget
    exact hname htarget

open Classical in
theorem foldl_turn (hasker : asker =
      ⟨nameHash, declared, (index.refresh lockfile).ownerOf lockfile dependencyId⟩)
    (rules : List ScopedOverride) (hasked : Asked index lockfile dependencyId s)
    (hbest : s.best = Tiered best) :
    (rules.foldl (Lookup.turn lockfile dependencyId declared nameHash) s).best =
      Tiered ((rules.filter fun r => r.Matches asker).foldl (keep outranks) best) := by
  induction rules generalizing s best with
  | nil => exact hbest
  | cons rule rules ih =>
    obtain ⟨hasked', hbest'⟩ := turn_spec rule hasked hbest hasker
    rw [List.foldl_cons, ih hasked' hbest', List.filter_cons]
    by_cases hmatch : rule.Matches asker
    · rw [if_pos hmatch, if_pos (decide_eq_true hmatch), List.foldl_cons]
    · rw [if_neg hmatch, if_neg (by simpa using hmatch)]

end Turn

end OhosBun.Install.Overrides
