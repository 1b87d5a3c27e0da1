/-
# `OhosBun.Semver.UpperBound` — prereleases of the release after a range

`^1.2.3`, `~1.2`, `1.2.x` and `1.0.0 - 1.2` end before a release, the first that they leave
out.  Its prereleases come before it, so they are in the range when prereleases are included
like other versions (`satisfiesIncludingPrerelease_iff`).  Only the right side of a hyphen
range may have a prerelease of its own, and only its left side may come after the bound.
-/
import OhosBun.Semver.Completions

namespace OhosBun.Semver

/-- A range with an upper bound that is left out. -/
inductive Bounded
  | desugared (tag : TokenTag) (p : PartialVersion)
  /-- `version - second` -/
  | hyphen (version : Version) (second : ParseResult)

namespace Bounded

def range : Bounded → Range
  | desugared tag p => (⟨tag, p.wildcard⟩ : Token).toRange p
  | hyphen version second => QueryState.hyphenRange version second

/-- The parts that bound the range. -/
def bounding : Bounded → List Nat
  | desugared tag p => fixedParts tag p.given
  | hyphen _ second => second.version.given

/-- A caret, a tilde, an x-range, or a hyphen range with a partial version on the right. -/
def Formed : Bounded → Prop
  | desugared tag p => Desugared tag ∧ p.Release ∧ p.given ≠ [] ∧
      (tag = .version → p.given.length ≤ 2)
  | hyphen _ second => (∀ n ∈ second.version.given, n ≤ maxU64) ∧ second.version.given ≠ [] ∧
      second.version.given.length ≤ 2 ∧ second.wildcard = second.version.wildcard

/-- The group of the range alone. -/
def group (b : Bounded) (pre build : Bool) : Group := ⟨⟨b.range, []⟩, [], pre, build⟩

end Bounded

/-- The first release after all that begin with some parts. -/
structure FirstExcluded (parts : List Nat) (u : Version) : Prop where
  release : u.Release
  above : ∀ w : Version, w.Release → parts <+: w.numbers → w.numbers < u.numbers
  least : ∀ u' : Version, u'.Release →
    (∀ w : Version, w.Release → parts <+: w.numbers → w.numbers < u'.numbers) →
      u.numbers ≤ u'.numbers

/-- Where a prerelease of that release is left out after all. -/
def Bounded.Excludes (b : Bounded) (v : Version) : Prop :=
  b.bounding.getLast? = some maxU64 ∨
    match b with
    | .desugared _ _ => False
    | .hyphen version second => v.orderWithoutBuild version = .lt ∨
        second.version.tag.hasPre = true ∧ v.tag.orderPre second.version.tag ≠ .lt

/-! ## The first release that is left out -/

theorem firstExcluded_one {a : Nat} (ha : a < maxU64) :
    FirstExcluded [a] ⟨a + 1, 0, 0, default⟩ where
  release := release_mk ha (Nat.zero_le _) (Nat.zero_le _)
  above w _ hw := by
    rw [prefix_one] at hw
    rw [numbers_lt_iff]
    exact .inl (hw ▸ Nat.lt_succ_self _)
  least u' hu' h := by
    have hle := Comparator.release_le hu'
    have hlt := h _ (release_mk ha.le le_rfl le_rfl) (prefix_one.mpr rfl)
    rw [numbers_lt_iff] at hlt
    rw [mk_numbers_le_iff]
    simp only at hlt
    omega

/-- The comparator that ends with the parts compares with that release, or is at the ceiling. -/
theorem FirstExcluded.upTo_cases {parts : List Nat} (h : Parts parts) {u : Version}
    (hu : FirstExcluded parts u) :
    (parts.getLast? = some maxU64 ∧ ∃ x : Version, x.tag.hasPre = false ∧
      Comparator.upTo parts = ⟨.lte, x⟩ ∧ x.numbers < u.numbers) ∨
    (parts.getLast? ≠ some maxU64 ∧ ∃ w : Version, w.tag.hasPre = false ∧
      Comparator.upTo parts = ⟨.lt, w⟩ ∧ u.numbers = w.numbers) := by
  obtain ⟨x, hx, hl, hmax, ⟨hlast, heq⟩ | ⟨hlast, w, hw, heq, hlt⟩⟩ := h.upTo_cases
  · exact .inl ⟨hlast, x, hx.hasPre, heq, hu.above x hx hl⟩
  · have hle := hu.least w hw fun v hv hstart => (hlt v hv).mpr (hmax v hv hstart)
    have hge : ¬ u.numbers < w.numbers := fun h =>
      (hu.above x hx hl).not_ge ((hlt u hu.release).mp h)
    exact .inr ⟨hlast, w, hw.hasPre, heq, le_antisymm hle (not_lt.mp hge)⟩

/-! ## Its prereleases -/

section Prerelease
variable {v w : Version}

theorem lt_satisfies_iff (hv : v.tag.hasPre = true) (hnumbers : v.numbers = w.numbers) :
    (⟨.lt, w⟩ : Comparator).satisfies v = true ↔
      ¬ (w.tag.hasPre = true ∧ v.tag.orderPre w.tag ≠ .lt) := by
  have hsat : (⟨.lt, w⟩ : Comparator).satisfies v = true ↔ v.orderWithoutBuild w = .lt := by
    rw [Comparator.satisfies]
    cases v.orderWithoutBuild w with
    | lt => simp
    | eq => simp
    | gt => simp
  rw [hsat]
  cases hw : w.tag.hasPre with
  | false =>
    rw [orderWithoutBuild_eq_lt hw]
    simp [hnumbers, hv]
  | true =>
    obtain ⟨hmajor, hminor, hpatch⟩ := numbers_eq_iff.mp hnumbers
    have hcore : coreOrder v w = .eq := by
      simp [coreOrder, compareLex, compareOn, hmajor, hminor, hpatch, hv, hw]
    rw [orderWithoutBuild_eq, compareLex, hcore, Ordering.eq_then, ← orderPre_eq]
    simp

theorem gte_satisfies_iff : (⟨.gte, w⟩ : Comparator).satisfies v = true ↔
    v.orderWithoutBuild w ≠ .lt := by
  rw [Comparator.satisfies]
  cases v.orderWithoutBuild w with
  | lt => simp
  | eq => simp
  | gt => simp

/-- A prerelease of a later release is above a bound from below. -/
theorem gte_satisfies_of_lt (hw : w.tag.hasPre = false) (hlt : w.numbers < v.numbers) :
    (⟨.gte, w⟩ : Comparator).satisfies v = true := by
  have horder := (orderWithoutBuild_eq_gt hw).mpr hlt
  rw [gte_satisfies_iff, horder]
  exact fun h => Ordering.noConfusion h

theorem lte_not_satisfies_of_lt (hw : w.tag.hasPre = false) (hlt : w.numbers < v.numbers) :
    (⟨.lte, w⟩ : Comparator).satisfies v = false := by
  have horder := (orderWithoutBuild_eq_gt hw).mpr hlt
  rw [Comparator.satisfies, horder]
  rfl

end Prerelease

/-- A prerelease of the first release that is left out is below the bound, if there is one. -/
theorem upTo_prerelease {parts : List Nat} (h : Parts parts) {u v : Version}
    (hu : FirstExcluded parts u) (hv : v.tag.hasPre = true) (hn : v.numbers = u.numbers) :
    (Comparator.upTo parts).satisfies v = true ↔ parts.getLast? ≠ some maxU64 := by
  rcases hu.upTo_cases h with ⟨hlast, x, hx, heq, hlt⟩ | ⟨hlast, w, hw, heq, hnumbers⟩
  · rw [heq, lte_not_satisfies_of_lt hx (hn ▸ hlt)]
    simp [hlast]
  · rw [heq, lt_satisfies_iff hv (hn.trans hnumbers), hw]
    simp [hlast]

/-! ## The ranges -/

section Ranges
variable {u v : Version} (hv : v.tag.hasPre = true) (hn : v.numbers = u.numbers)
include hn

variable {parts : List Nat} {w : Version} {c : Comparator} {second : ParseResult}

/-- The lower bound of a desugared range is a release that begins with the bounding parts. -/
theorem window_prerelease (hu : FirstExcluded parts u) (hw : w.Release) (hparts : parts <+: w.numbers)
    (hc : c.op ≠ .unset) :
    (⟨⟨.gte, w⟩, c⟩ : Range).satisfies v = true ↔ c.satisfies v = true := by
  have hlt := hu.above w hw hparts
  rw [← hn] at hlt
  rw [Range.satisfies_both (fun h => Op.noConfusion h) hc, gte_satisfies_of_lt hw.hasPre hlt]
  simp

theorem window_swap_prerelease (hu : FirstExcluded parts u) (hw : w.Release)
    (hparts : parts <+: w.numbers) (hc : c.op ≠ .unset) :
    (⟨c, ⟨.gte, w⟩⟩ : Range).satisfies v = true ↔ c.satisfies v = true := by
  rw [Range.satisfies_both hc (fun h => Op.noConfusion h), and_comm,
    ← Range.satisfies_both (fun h => Op.noConfusion h) hc]
  exact window_prerelease hn hu hw hparts hc

include hv

/-- The desugared ranges take every such prerelease below the ceiling. -/
theorem toRange_prerelease {tag : TokenTag} {p : PartialVersion} (htag : Desugared tag)
    (hp : p.Release) (hgiven : p.given ≠ []) (hshort : tag = .version → p.given.length ≤ 2)
    (hu : FirstExcluded (fixedParts tag p.given) u) :
    ((⟨tag, p.wildcard⟩ : Token).toRange p).satisfies v = true ↔
      (fixedParts tag p.given).getLast? ≠ some maxU64 := by
  have hparts := parts_fixedParts htag hp hgiven
  have hlower := PartialVersion.release_lower hp
  have hstart := fixedParts_prefix_lower htag hp
  refine Iff.trans ?_ (upTo_prerelease hparts hu hv hn)
  rcases toRange_cases htag hgiven with heq | heq | ⟨rfl, hthree, -⟩
  · rw [heq]
    exact window_prerelease hn hu hlower hstart hparts.upTo_op
  · rw [heq]
    exact window_swap_prerelease hn hu hlower hstart hparts.upTo_op
  · exact absurd (hshort rfl) (by omega)

omit hv hn in
theorem hyphenRange_one (version : Version) (valid : Bool) (a : Nat) (patch : Option Nat)
    (tag : Tag) (len : Nat) :
    QueryState.hyphenRange version ⟨PartialVersion.wildcard ⟨some a, none, patch, tag⟩, valid,
      ⟨some a, none, patch, tag⟩, len⟩ =
      ⟨⟨.gte, version⟩, match checkedSucc a with
        | some m => ⟨.lt, ⟨m, 0, 0, tag⟩⟩
        | none => Comparator.ltNextMajor a⟩ := rfl

omit hv hn in
theorem hyphenRange_two (version : Version) (valid : Bool) (a b : Nat) (tag : Tag) (len : Nat) :
    QueryState.hyphenRange version ⟨PartialVersion.wildcard ⟨some a, some b, none, tag⟩, valid,
      ⟨some a, some b, none, tag⟩, len⟩ =
      ⟨⟨.gte, version⟩, match checkedSucc b with
        | some m => ⟨.lt, ⟨a, m, 0, tag⟩⟩
        | none => Comparator.ltNextMinor a b⟩ := rfl

omit hv hn in
/-- The right side of a hyphen range gives its tag to the bound. -/
theorem hyphenRange_eq (version : Version) (hgiven : second.version.given ≠ [])
    (hshort : second.version.given.length ≤ 2) (hwildcard : second.wildcard = second.version.wildcard) :
    let c := Comparator.upTo second.version.given
    QueryState.hyphenRange version second = ⟨⟨.gte, version⟩,
      ⟨c.op, { c.version with tag := if c.op = .lt then second.version.tag else default }⟩⟩ := by
  obtain ⟨wildcard, valid, ⟨major, minor, patch, tag⟩, len⟩ := second
  dsimp only at hwildcard
  subst hwildcard
  cases major with
  | none => exact absurd rfl hgiven
  | some a =>
    cases minor with
    | none =>
      rw [hyphenRange_one, PartialVersion.given, Comparator.upTo, Comparator.ltNextMajor]
      cases checkedSucc a <;> rfl
    | some b =>
      cases patch with
      | none =>
        rw [hyphenRange_two, PartialVersion.given, Comparator.upTo, Comparator.ltNextMinor]
        cases checkedSucc b <;> rfl
      | some c => exact absurd hshort (by simp [PartialVersion.given])

/-- A hyphen range takes it if it is not below the left side, nor at or above the tag that the
right side gives the bound. -/
theorem hyphenRange_prerelease {version : Version} (hle : ∀ n ∈ second.version.given, n ≤ maxU64)
    (hgiven : second.version.given ≠ []) (hshort : second.version.given.length ≤ 2)
    (hwildcard : second.wildcard = second.version.wildcard) (hu : FirstExcluded second.version.given u) :
    (QueryState.hyphenRange version second).satisfies v = true ↔
      v.orderWithoutBuild version ≠ .lt ∧ second.version.given.getLast? ≠ some maxU64 ∧
        ¬ (second.version.tag.hasPre = true ∧ v.tag.orderPre second.version.tag ≠ .lt) := by
  have hparts : Parts second.version.given := ⟨hgiven, hshort.trans (by decide), hle⟩
  have hgte : (⟨.gte, version⟩ : Comparator).op ≠ .unset := fun h => Op.noConfusion h
  rw [hyphenRange_eq version hgiven hshort hwildcard]
  rcases hu.upTo_cases hparts with ⟨hlast, x, hx, heq, hlt⟩ | ⟨hlast, w, hw, heq, hnumbers⟩
  · have hlte := lte_not_satisfies_of_lt (v := v) (w := { x with tag := default }) rfl (hn ▸ hlt)
    rw [heq, Range.satisfies_both hgte (fun h => Op.noConfusion h), if_neg (fun h => Op.noConfusion h), hlte]
    simp [hlast]
  · have hlt := lt_satisfies_iff (w := { w with tag := second.version.tag }) hv
      (hn.trans hnumbers)
    rw [heq, Range.satisfies_both hgte (fun h => Op.noConfusion h), if_pos rfl, hlt,
      gte_satisfies_iff]
    simp [hlast]

end Ranges

/-- `^1.2.3`. -/
def caretBounded : Bounded := .desugared .caret ⟨some 1, some 2, some 3, default⟩

theorem caretBounded_formed : caretBounded.Formed :=
  ⟨.inl rfl, ⟨rfl, by decide⟩, List.cons_ne_nil _ _, fun h => absurd h (by simp)⟩

theorem caretBounded_firstExcluded : FirstExcluded caretBounded.bounding ⟨2, 0, 0, default⟩ := by
  show FirstExcluded [1] ⟨2, 0, 0, default⟩
  exact firstExcluded_one (by decide)

/-- `2.0.0-a`. -/
def nextMajorPrerelease : Version := ⟨2, 0, 0, preTag [97]⟩

end OhosBun.Semver
