/-
# `OhosBun.Semver.Completions` — what a partial version stands for

A partial version stands for the releases that have the parts it gives (`Completion`).

    toRange_exact           `^`, `~` and a bare version fix some of the parts that are given
    boundRange_exact        `<`, `<=`, `>` and `>=` compare with all completions, or with one

The row of `to_range` for a wildcard in place of the major does not look at the operator: `<*`
and `>*` accept every release, and there is none that is less, or greater, than all of them.
-/
import Mathlib.Data.List.Lex
import OhosBun.Semver.Alternatives

namespace OhosBun.Semver

/-! ## Partial versions -/

def Version.numbers (v : Version) : List Nat := [v.major, v.minor, v.patch]

/-- A release with numbers of 64 bits. -/
structure Version.Release (v : Version) : Prop where
  hasPre : v.tag.hasPre = false
  le : ∀ n ∈ v.numbers, n ≤ maxU64

namespace PartialVersion

/-- The parts before the first that is missing. -/
def given (p : PartialVersion) : List Nat :=
  match p.major, p.minor, p.patch with
  | none, _, _ => []
  | some major, none, _ => [major]
  | some major, some minor, none => [major, minor]
  | some major, some minor, some patch => [major, minor, patch]

/-- The wildcard of a version that ends there. -/
def wildcard (p : PartialVersion) : Wildcard := wildcardAt p.given.length

/-- The parts with zeros for those that are missing. -/
def filled (p : PartialVersion) : List Nat := (p.given ++ [0, 0, 0]).take 3

/-- A part of a release. -/
structure Release (p : PartialVersion) : Prop where
  hasPre : p.tag.hasPre = false
  le : ∀ n ∈ p.given, n ≤ maxU64

/-- A release that has the parts that are given. -/
structure Completion (p : PartialVersion) (w : Version) : Prop where
  release : w.Release
  given : p.given <+: w.numbers

end PartialVersion

/-! ## The order of releases -/

section Order
variable {v w : Version}

theorem numbers_lt_iff : v.numbers < w.numbers ↔ v.major < w.major ∨
    v.major = w.major ∧ (v.minor < w.minor ∨ v.minor = w.minor ∧ v.patch < w.patch) := by
  simp [Version.numbers, List.cons_lt_cons_iff]

theorem numbers_eq_iff : v.numbers = w.numbers ↔
    v.major = w.major ∧ v.minor = w.minor ∧ v.patch = w.patch := by
  simp [Version.numbers]

theorem numbers_le_iff : v.numbers ≤ w.numbers ↔ v.major < w.major ∨
    v.major = w.major ∧ (v.minor < w.minor ∨ v.minor = w.minor ∧ v.patch ≤ w.patch) := by
  rw [le_iff_lt_or_eq, numbers_lt_iff, numbers_eq_iff]
  omega

theorem mk_numbers_le_iff {a b c : Nat} {tag : Tag} :
    (⟨a, b, c, tag⟩ : Version).numbers ≤ v.numbers ↔ a < v.major ∨
      a = v.major ∧ (b < v.minor ∨ b = v.minor ∧ c ≤ v.patch) := numbers_le_iff

/-- Next to a release the tag does not count further. -/
theorem orderWithoutBuild_release (hw : w.tag.hasPre = false) :
    v.orderWithoutBuild w = v.orderWithoutTag w := by
  rw [orderWithoutBuild_eq, orderWithoutTag_eq, compareLex]
  cases hcore : coreOrder v w with
  | lt => rfl
  | gt => rfl
  | eq =>
    have hv := (hasPre_eq_of_coreOrder hcore).trans hw
    exact preOrder_of_not_hasPre hv hw

theorem orderWithoutBuild_numbers (hw : w.tag.hasPre = false) : v.orderWithoutBuild w =
    if v.numbers < w.numbers then .lt else if w.numbers < v.numbers then .gt
    else if v.tag.hasPre then .lt else .eq := by
  rw [orderWithoutBuild_release hw, Version.orderWithoutTag, hw]
  simp only [numbers_lt_iff]
  rcases Nat.lt_trichotomy v.major w.major with h | h | h
  · simp [h]
  · rcases Nat.lt_trichotomy v.minor w.minor with h' | h' | h'
    · simp [h, h']
    · rcases Nat.lt_trichotomy v.patch w.patch with h'' | h'' | h''
      · simp [h, h', h'']
      · simp [h, h', h'']
      · simp [h, h', h'', h''.not_gt]
    · simp [h, h', h'.not_gt, h'.ne']
  · simp [h, h.not_gt, h.ne']

theorem orderWithoutBuild_eq_lt (hw : w.tag.hasPre = false) :
    v.orderWithoutBuild w = .lt ↔
      v.numbers < w.numbers ∨ v.numbers = w.numbers ∧ v.tag.hasPre = true := by
  rw [orderWithoutBuild_numbers hw]
  rcases lt_trichotomy v.numbers w.numbers with h | h | h
  · simp [h]
  · simp [h]
  · simp [h, h.not_gt, h.ne']

theorem orderWithoutBuild_eq_gt (hw : w.tag.hasPre = false) :
    v.orderWithoutBuild w = .gt ↔ w.numbers < v.numbers := by
  rw [orderWithoutBuild_numbers hw]
  rcases lt_trichotomy v.numbers w.numbers with h | h | h
  · simp [h, h.not_gt]
  · cases hpre : v.tag.hasPre <;> simp [h]
  · simp [h, h.not_gt]

theorem orderWithoutBuild_eq_eq (hw : w.tag.hasPre = false) :
    v.orderWithoutBuild w = .eq ↔ v.numbers = w.numbers ∧ v.tag.hasPre = false := by
  rw [orderWithoutBuild_numbers hw]
  rcases lt_trichotomy v.numbers w.numbers with h | h | h
  · simp [h, h.ne]
  · simp [h]
  · simp [h, h.not_gt, h.ne']

end Order

/-! ## Comparators -/

namespace Comparator
variable {v w : Version}

/-- A comparator with a release, asked for a release. -/
theorem satisfies_release {op : Op} (hw : w.tag.hasPre = false) (hv : v.tag.hasPre = false) :
    satisfies ⟨op, w⟩ v = true ↔
      match op with
      | .unset => False
      | .eql => v.numbers = w.numbers
      | .lt => v.numbers < w.numbers
      | .lte => v.numbers ≤ w.numbers
      | .gt => w.numbers < v.numbers
      | .gte => w.numbers ≤ v.numbers := by
  unfold satisfies
  cases horder : v.orderWithoutBuild w with
  | lt =>
    have hlt := (orderWithoutBuild_eq_lt hw).1 horder
    simp only [hv, Bool.false_eq_true, and_false, or_false, numbers_lt_iff] at hlt
    cases op <;> simp [numbers_lt_iff, numbers_le_iff, numbers_eq_iff] <;> omega
  | eq =>
    have heq := ((orderWithoutBuild_eq_eq hw).1 horder).1
    rw [numbers_eq_iff] at heq
    cases op <;> simp [numbers_lt_iff, numbers_le_iff, numbers_eq_iff] <;> omega
  | gt =>
    have hgt := (orderWithoutBuild_eq_gt hw).1 horder
    rw [numbers_lt_iff] at hgt
    cases op <;> simp [numbers_lt_iff, numbers_le_iff, numbers_eq_iff] <;> omega

variable (hv : v.Release)
include hv

theorem release_le : v.major ≤ maxU64 ∧ v.minor ≤ maxU64 ∧ v.patch ≤ maxU64 := by
  have hle := hv.le
  simpa [Version.numbers] using hle

end Comparator

/-! ## Windows -/

section Window
variable {v w : Version} {c : Comparator} (hc : c.op ≠ .unset) (hw : w.tag.hasPre = false)
include hc

theorem Range.satisfies_both {d : Comparator} (hd : d.op ≠ .unset) :
    (⟨c, d⟩ : Range).satisfies v = true ↔ c.satisfies v = true ∧ d.satisfies v = true := by
  have hleft : Range.hasLeft ⟨c, d⟩ = true := decide_eq_true hc
  have hright : Range.hasRight ⟨c, d⟩ = true := decide_eq_true hd
  rw [Range.satisfies, hleft, hright]
  cases c.satisfies v with
  | false => simp
  | true => simp

include hw

/-- From a release on, up to a bound. -/
theorem satisfies_window (hv : v.tag.hasPre = false) :
    (⟨⟨.gte, w⟩, c⟩ : Range).satisfies v = true ↔
      w.numbers ≤ v.numbers ∧ c.satisfies v = true := by
  rw [Range.satisfies_both (fun h => Op.noConfusion h) hc, Comparator.satisfies_release hw hv]

theorem satisfies_window_swap (hv : v.tag.hasPre = false) :
    (⟨c, ⟨.gte, w⟩⟩ : Range).satisfies v = true ↔
      w.numbers ≤ v.numbers ∧ c.satisfies v = true := by
  rw [Range.satisfies_both hc (fun h => Op.noConfusion h), Comparator.satisfies_release hw hv,
    and_comm]

end Window

theorem satisfies_single {op : Op} {v w : Version} (hop : op ≠ .unset) :
    (Range.single op w).satisfies v = true ↔ (⟨op, w⟩ : Comparator).satisfies v = true := by
  have hleft : Range.hasLeft (Range.single op w) = true := decide_eq_true hop
  rw [Range.satisfies, hleft]
  simp [Range.single, Range.hasRight, show (default : Comparator).op = .unset from rfl]

/-! ## Carets, tildes and bare versions -/

/-- The parts that a version of the range has in common with the partial version. -/
@[grind]
def fixedParts (tag : TokenTag) (given : List Nat) : List Nat :=
  match tag with
  | .caret => given.take ((given.takeWhile (· = 0)).length + 1)
  | .tilda => given.take 2
  | _ => given

/-- `^`, `~` and nothing. -/
def Desugared (tag : TokenTag) : Prop := tag = .caret ∨ tag = .tilda ∨ tag = .version

section Prefix
variable {v : Version} {a b c : Nat}

theorem prefix_one : [a] <+: v.numbers ↔ v.major = a := by
  simp [Version.numbers, eq_comm]

theorem prefix_two : [a, b] <+: v.numbers ↔ v.major = a ∧ v.minor = b := by
  simp [Version.numbers, eq_comm]

theorem prefix_three : [a, b, c] <+: v.numbers ↔ v.major = a ∧ v.minor = b ∧ v.patch = c := by
  simp [Version.numbers, eq_comm]

theorem fixedParts_caret_one : fixedParts .caret [a] = [a] := by
  by_cases ha : a = 0 <;> simp [fixedParts, ha]

theorem fixedParts_caret_two : fixedParts .caret [a, b] = if a = 0 then [a, b] else [a] := by
  by_cases ha : a = 0 <;> by_cases hb : b = 0 <;> simp [fixedParts, ha, hb]

theorem fixedParts_caret_three : fixedParts .caret [a, b, c] =
    if a = 0 then if b = 0 then [a, b, c] else [a, b] else [a] := by
  by_cases ha : a = 0 <;> by_cases hb : b = 0 <;> by_cases hc : c = 0 <;>
    simp [fixedParts, ha, hb, hc]

end Prefix

/-- Every number fits `u64`. -/
def Range.Fits (r : Range) : Prop :=
  (∀ n ∈ r.left.version.numbers, n ≤ maxU64) ∧ ∀ n ∈ r.right.version.numbers, n ≤ maxU64

namespace PartialVersion
variable {p : PartialVersion}

/-- The completion with one number for the parts that are missing. -/
def fill (p : PartialVersion) (full : Nat) : Version :=
  ⟨p.given[0]?.getD full, p.given[1]?.getD full, p.given[2]?.getD full, default⟩

theorem given_cases (p : PartialVersion) : p.given = [] ∨ (∃ a, p.given = [a]) ∨
    (∃ a b, p.given = [a, b]) ∨ ∃ a b c, p.given = [a, b, c] := by
  obtain ⟨major, minor, patch, tag⟩ := p
  cases major with
  | none => exact .inl rfl
  | some a =>
    cases minor with
    | none => exact .inr (.inl ⟨a, rfl⟩)
    | some b =>
      cases patch with
      | none => exact .inr (.inr (.inl ⟨a, b, rfl⟩))
      | some c => exact .inr (.inr (.inr ⟨a, b, c, rfl⟩))

theorem completion_fill (hp : p.Release) {full : Nat} (hfull : full ≤ maxU64) :
    p.Completion (p.fill full) := by
  have hle := hp.le
  have hfits : (p.fill full).tag.hasPre = false := rfl
  rcases p.given_cases with h | ⟨a, h⟩ | ⟨a, b, h⟩ | ⟨a, b, c, h⟩
  · exact ⟨⟨hfits, by simp [Version.numbers, fill, h, hfull]⟩, by simp [h]⟩
  all_goals
    rw [h] at hle
    refine ⟨⟨hfits, ?_⟩, ?_⟩
    · simpa [Version.numbers, fill, h, hfull] using hle
    · simp [Version.numbers, fill, h]

theorem filled_eq (p : PartialVersion) : p.filled = (p.fill 0).numbers := by
  rcases p.given_cases with h | ⟨a, h⟩ | ⟨a, b, h⟩ | ⟨a, b, c, h⟩
  all_goals simp [filled, Version.numbers, fill, h]

/-- The least completion and the greatest. -/
theorem Completion.bounds {w : Version} (hw : p.Completion w) :
    (p.fill 0).numbers ≤ w.numbers ∧ w.numbers ≤ (p.fill maxU64).numbers := by
  have hle := Comparator.release_le hw.release
  have hgiven := hw.given
  simp only [numbers_le_iff, fill]
  rcases p.given_cases with h | ⟨a, h⟩ | ⟨a, b, h⟩ | ⟨a, b, c, h⟩
  · rw [h]
    simp
    omega
  · rw [h, prefix_one] at hgiven
    rw [h]
    simp
    omega
  · rw [h, prefix_two] at hgiven
    rw [h]
    simp
    omega
  · rw [h, prefix_three] at hgiven
    rw [h]
    simp
    omega

end PartialVersion

/-! ## Ceilings -/

/-- One part to three, which fit `u64`. -/
structure Parts (l : List Nat) : Prop where
  ne_nil : l ≠ []
  length_le : l.length ≤ 3
  le : ∀ n ∈ l, n ≤ maxU64

/-- The comparator that ends with the releases that begin with some parts. -/
def Comparator.upTo : List Nat → Comparator
  | [major] => ltNextMajor major
  | [major, minor] => ltNextMinor major minor
  | [major, minor, patch] => ltNextPatch major minor patch
  | _ => default

theorem release_mk {a b c : Nat} (ha : a ≤ maxU64) (hb : b ≤ maxU64) (hc : c ≤ maxU64) :
    (⟨a, b, c, default⟩ : Version).Release := ⟨rfl, by simp [Version.numbers, ha, hb, hc]⟩

namespace Parts
variable {l : List Nat} {u v w : Version}

theorem cases (h : Parts l) : (∃ a, l = [a] ∧ a ≤ maxU64) ∨
    (∃ a b, l = [a, b] ∧ a ≤ maxU64 ∧ b ≤ maxU64) ∨
    ∃ a b c, l = [a, b, c] ∧ a ≤ maxU64 ∧ b ≤ maxU64 ∧ c ≤ maxU64 := by
  obtain ⟨hne, hlen, hle⟩ := h
  rcases l with _ | ⟨a, _ | ⟨b, _ | ⟨c, _ | ⟨d, l⟩⟩⟩⟩
  · exact absurd rfl hne
  · exact .inl ⟨a, rfl, by simpa using hle⟩
  · exact .inr (.inl ⟨a, b, rfl, by simpa using hle⟩)
  · exact .inr (.inr ⟨a, b, c, rfl, by simpa using hle⟩)
  · exact absurd hlen (by simp)

theorem of_isPrefix {l' : List Nat} (h : Parts l) (hl : l' <+: l) (hne : l' ≠ []) : Parts l' :=
  ⟨hne, hl.length_le.trans h.length_le, fun n hn => h.le n (hl.subset hn)⟩

/-- What lies between two versions with some parts has them, too. -/
theorem between (h : Parts l) (hu : l <+: u.numbers) (hw : l <+: w.numbers)
    (huv : u.numbers ≤ v.numbers) (hvw : v.numbers ≤ w.numbers) : l <+: v.numbers := by
  rw [numbers_le_iff] at huv hvw
  rcases h.cases with ⟨a, rfl, -⟩ | ⟨a, b, rfl, -⟩ | ⟨a, b, c, rfl, -⟩
  · rw [prefix_one] at *
    omega
  · rw [prefix_two] at *
    omega
  · rw [prefix_three] at *
    omega

/-- The comparator is with the last release that begins with the parts or, where the last part
is not the greatest, with the next release. -/
theorem upTo_cases (h : Parts l) : ∃ x : Version, x.Release ∧ l <+: x.numbers ∧
    (∀ v : Version, v.Release → l <+: v.numbers → v.numbers ≤ x.numbers) ∧
    (l.getLast? = some maxU64 ∧ Comparator.upTo l = ⟨.lte, x⟩ ∨
      l.getLast? ≠ some maxU64 ∧ ∃ w : Version, w.Release ∧ Comparator.upTo l = ⟨.lt, w⟩ ∧
        ∀ v : Version, v.Release → (v.numbers < w.numbers ↔ v.numbers ≤ x.numbers)) := by
  have hle {v : Version} (hv : v.Release) := Comparator.release_le hv
  rcases h.cases with ⟨a, rfl, ha⟩ | ⟨a, b, rfl, ha, hb⟩ | ⟨a, b, c, rfl, ha, hb, hc⟩
  · refine ⟨⟨a, maxU64, maxU64, default⟩, release_mk ha le_rfl le_rfl, prefix_one.mpr rfl,
      fun v hv hl => ?_, ?_⟩
    · have hfits := hle hv
      rw [prefix_one] at hl
      simp only [numbers_le_iff]
      omega
    · rcases ha.lt_or_eq with hlt | rfl
      · refine .inr ⟨by simp [hlt.ne], ⟨a + 1, 0, 0, default⟩,
          release_mk hlt (Nat.zero_le _) (Nat.zero_le _), ?_, fun v hv => ?_⟩
        · rw [Comparator.upTo, Comparator.ltNextMajor, checkedSucc, if_pos hlt]
          rfl
        · have hfits := hle hv
          simp only [numbers_lt_iff, numbers_le_iff]
          omega
      · exact .inl ⟨rfl, rfl⟩
  · refine ⟨⟨a, b, maxU64, default⟩, release_mk ha hb le_rfl, prefix_two.mpr ⟨rfl, rfl⟩,
      fun v hv hl => ?_, ?_⟩
    · have hfits := hle hv
      rw [prefix_two] at hl
      simp only [numbers_le_iff]
      omega
    · rcases hb.lt_or_eq with hlt | rfl
      · refine .inr ⟨by simp [hlt.ne], ⟨a, b + 1, 0, default⟩,
          release_mk ha hlt (Nat.zero_le _), ?_, fun v hv => ?_⟩
        · rw [Comparator.upTo, Comparator.ltNextMinor, checkedSucc, if_pos hlt]
          rfl
        · have hfits := hle hv
          simp only [numbers_lt_iff, numbers_le_iff]
          omega
      · exact .inl ⟨rfl, rfl⟩
  · refine ⟨⟨a, b, c, default⟩, release_mk ha hb hc, prefix_three.mpr ⟨rfl, rfl, rfl⟩,
      fun v hv hl => ?_, ?_⟩
    · rw [prefix_three] at hl
      simp only [numbers_le_iff]
      omega
    · rcases hc.lt_or_eq with hlt | rfl
      · refine .inr ⟨by simp [hlt.ne], ⟨a, b, c + 1, default⟩, release_mk ha hb hlt, ?_,
          fun v hv => ?_⟩
        · rw [Comparator.upTo, Comparator.ltNextPatch, checkedSucc, if_pos hlt]
        · simp only [numbers_lt_iff, numbers_le_iff]
          omega
      · exact .inl ⟨rfl, rfl⟩

theorem upTo_op (h : Parts l) : (Comparator.upTo l).op ≠ .unset := by
  obtain ⟨x, -, -, -, ⟨-, heq⟩ | ⟨-, w, -, heq, -⟩⟩ := h.upTo_cases
  · rw [heq]
    exact fun h => Op.noConfusion h
  · rw [heq]
    exact fun h => Op.noConfusion h

theorem upTo_le (h : Parts l) : ∀ n ∈ (Comparator.upTo l).version.numbers, n ≤ maxU64 := by
  obtain ⟨x, hx, -, -, ⟨-, heq⟩ | ⟨-, w, hw, heq, -⟩⟩ := h.upTo_cases
  · exact heq ▸ hx.le
  · exact heq ▸ hw.le

theorem upTo_satisfies (h : Parts l) (hv : v.Release) (hw : l <+: w.numbers) :
    w.numbers ≤ v.numbers ∧ (Comparator.upTo l).satisfies v = true ↔
      l <+: v.numbers ∧ w.numbers ≤ v.numbers := by
  obtain ⟨x, hx, hl, hmax, hupTo⟩ := h.upTo_cases
  have hsat : (Comparator.upTo l).satisfies v = true ↔ v.numbers ≤ x.numbers := by
    rcases hupTo with ⟨-, heq⟩ | ⟨-, w, hw, heq, hlt⟩
    · rw [heq, Comparator.satisfies_release hx.hasPre hv.hasPre]
    · rw [heq, Comparator.satisfies_release hw.hasPre hv.hasPre]
      exact hlt v hv
  rw [hsat]
  constructor
  · rintro ⟨hle, hvx⟩
    exact ⟨h.between hw hl hle hvx, hle⟩
  · rintro ⟨hstart, hle⟩
    exact ⟨hle, hmax v hv hstart⟩

end Parts

namespace PartialVersion

/-- The least version of a range: its tag counts where no part is missing. -/
def lower (p : PartialVersion) : Version :=
  { p.fill 0 with tag := if p.given.length = 3 then p.tag else default }

theorem release_lower {p : PartialVersion} (hp : p.Release) : p.lower.Release := by
  refine ⟨?_, (completion_fill hp (Nat.zero_le _)).release.le⟩
  rw [lower]
  dsimp only
  split
  · exact hp.hasPre
  · rfl

theorem parts_given {p : PartialVersion} (hp : p.Release) (hmajor : p.given ≠ []) :
    Parts p.given := by
  refine ⟨hmajor, ?_, hp.le⟩
  rcases p.given_cases with h | ⟨a, h⟩ | ⟨a, b, h⟩ | ⟨a, b, c, h⟩
  all_goals simp [h]

end PartialVersion

theorem fixedParts_isPrefix {tag : TokenTag} (htag : Desugared tag) (given : List Nat) :
    fixedParts tag given <+: given := by
  rcases htag with rfl | rfl | rfl
  · exact List.take_prefix _ _
  · exact List.take_prefix _ _
  · exact List.prefix_refl _

section Desugar
variable {tag : TokenTag} (htag : Desugared tag) {p : PartialVersion} (hp : p.Release)
  (hmajor : p.given ≠ [])
include htag hp

theorem fixedParts_prefix_lower : fixedParts tag p.given <+: p.lower.numbers :=
  (fixedParts_isPrefix htag _).trans (PartialVersion.completion_fill hp (Nat.zero_le _)).given

include hmajor

theorem parts_fixedParts : Parts (fixedParts tag p.given) := by
  refine (PartialVersion.parts_given hp hmajor).of_isPrefix (fixedParts_isPrefix htag _) ?_
  rcases htag with rfl | rfl | rfl <;> simp [fixedParts, hmajor]

omit hp in
/-- A desugared range goes from the least version up to the fixed parts. -/
theorem toRange_cases :
    let range := (⟨tag, p.wildcard⟩ : Token).toRange p
    range = ⟨⟨.gte, p.lower⟩, .upTo (fixedParts tag p.given)⟩ ∨
    range = ⟨.upTo (fixedParts tag p.given), ⟨.gte, p.lower⟩⟩ ∨
    tag = .version ∧ p.given.length = 3 ∧ range = Range.single .eql p.lower := by
  obtain ⟨major, minor, patch, versionTag⟩ := p
  cases major with
  | none => exact absurd rfl hmajor
  | some a =>
    rcases htag with rfl | rfl | rfl
    · left
      cases minor with
      | none =>
        rw [PartialVersion.given, fixedParts_caret_one]
        rfl
      | some b =>
        cases patch with
        | none =>
          rw [PartialVersion.given, fixedParts_caret_two]
          by_cases ha : a = 0
          · subst ha
            rfl
          · rw [if_neg ha]
            exact congrArg (Range.mk _) (if_neg ha)
        | some c =>
          rw [PartialVersion.given, fixedParts_caret_three]
          by_cases ha : a = 0
          · subst ha
            by_cases hb : b = 0
            · subst hb
              rfl
            · rw [if_pos rfl, if_neg hb]
              exact congrArg (Range.mk _) (if_neg hb)
          · rw [if_neg ha]
            exact congrArg (Range.mk _) (if_neg ha)
    · left
      cases minor with
      | none => rfl
      | some b => cases patch <;> rfl
    · right
      cases minor with
      | none => exact .inl rfl
      | some b =>
        cases patch with
        | none => exact .inl rfl
        | some c => exact .inr ⟨rfl, rfl, rfl⟩

theorem toRange_satisfies {v : Version} (hv : v.Release) :
    ((⟨tag, p.wildcard⟩ : Token).toRange p).satisfies v = true ↔
      fixedParts tag p.given <+: v.numbers ∧ p.filled ≤ v.numbers := by
  have hparts := parts_fixedParts htag hp hmajor
  have hlower := PartialVersion.release_lower hp
  have hstart := fixedParts_prefix_lower htag hp
  rw [p.filled_eq]
  rcases toRange_cases htag hmajor with heq | heq | ⟨rfl, hthree, heq⟩
  · rw [heq, satisfies_window hparts.upTo_op hlower.hasPre hv.hasPre]
    exact hparts.upTo_satisfies hv hstart
  · rw [heq, satisfies_window_swap hparts.upTo_op hlower.hasPre hv.hasPre]
    exact hparts.upTo_satisfies hv hstart
  · have hnumbers : fixedParts .version p.given = p.lower.numbers :=
      hstart.eq_of_length hthree
    rw [heq, satisfies_single (fun h => Op.noConfusion h),
      Comparator.satisfies_release hlower.hasPre hv.hasPre, hnumbers]
    constructor
    · intro h
      rw [h]
      exact ⟨List.prefix_refl _, le_rfl⟩
    · exact fun h => (h.1.eq_of_length rfl).symm

theorem toRange_fits : ((⟨tag, p.wildcard⟩ : Token).toRange p).Fits := by
  have hparts := parts_fixedParts htag hp hmajor
  have hlower := PartialVersion.release_lower hp
  rcases toRange_cases htag hmajor with heq | heq | ⟨-, -, heq⟩
  · exact heq ▸ ⟨hlower.le, hparts.upTo_le⟩
  · exact heq ▸ ⟨hparts.upTo_le, hlower.le⟩
  · have hright : ∀ n ∈ (default : Comparator).version.numbers, n ≤ maxU64 := by decide
    exact heq ▸ ⟨hlower.le, hright⟩

end Desugar

/-- **Exact ranges**: a caret, a tilde or a bare version takes the releases that have the fixed
parts and are not less than the partial version with zeros.  Every number fits, and the range
is not empty. -/
theorem toRange_exact {tag : TokenTag} (htag : Desugared tag) {p : PartialVersion}
    (hp : p.Release) (hmajor : p.given ≠ []) :
    (∀ v : Version, v.Release → (((⟨tag, p.wildcard⟩ : Token).toRange p).satisfies v = true ↔
      fixedParts tag p.given <+: v.numbers ∧ p.filled ≤ v.numbers)) ∧
    ((⟨tag, p.wildcard⟩ : Token).toRange p).Fits ∧
    ∃ v : Version, v.Release ∧ ((⟨tag, p.wildcard⟩ : Token).toRange p).satisfies v = true := by
  have hzero := PartialVersion.completion_fill hp (Nat.zero_le maxU64)
  refine ⟨fun v hv => toRange_satisfies htag hp hmajor hv, toRange_fits htag hp hmajor, p.fill 0,
    hzero.release, ?_⟩
  rw [toRange_satisfies htag hp hmajor hzero.release, p.filled_eq]
  exact ⟨(fixedParts_isPrefix htag _).trans hzero.given, le_rfl⟩

/-- `^0.18446744073709551615`. -/
theorem toRange_exact_full : ∃ v : Version, v.Release ∧
    ((⟨.caret, .patch⟩ : Token).toRange ⟨some 0, some maxU64, none, default⟩).satisfies v = true :=
  (@toRange_exact .caret (.inl rfl) ⟨some 0, some maxU64, none, default⟩
    ⟨rfl, by decide⟩ (by decide)).2.2

/-! ## Comparators with a partial version -/

/-- The four operators. -/
def Relational (tag : TokenTag) : Prop := tag = .lt ∨ tag = .lte ∨ tag = .gt ∨ tag = .gte

/-- What an operator says of a version and the completions. -/
def Relates (tag : TokenTag) (p : PartialVersion) (v : Version) : Prop :=
  match tag with
  | .lt => ∀ w, p.Completion w → v.numbers < w.numbers
  | .lte => ∃ w, p.Completion w ∧ v.numbers ≤ w.numbers
  | .gt => ∀ w, p.Completion w → w.numbers < v.numbers
  | .gte => ∃ w, p.Completion w ∧ w.numbers ≤ v.numbers
  | _ => False

section Relation
variable {p : PartialVersion} {v : Version} (hp : p.Release)
include hp

theorem relates_lt_iff : Relates .lt p v ↔ v.numbers < (p.fill 0).numbers := by
  constructor
  · exact fun h => h _ (PartialVersion.completion_fill hp (Nat.zero_le _))
  · intro h w hw
    have hle := hw.bounds.1
    rw [numbers_lt_iff] at h ⊢
    rw [numbers_le_iff] at hle
    omega

theorem relates_lte_iff : Relates .lte p v ↔ v.numbers ≤ (p.fill maxU64).numbers := by
  constructor
  · rintro ⟨w, hw, h⟩
    have hle := hw.bounds.2
    rw [numbers_le_iff] at h hle ⊢
    omega
  · exact fun h => ⟨_, PartialVersion.completion_fill hp le_rfl, h⟩

theorem relates_gt_iff : Relates .gt p v ↔ (p.fill maxU64).numbers < v.numbers := by
  constructor
  · exact fun h => h _ (PartialVersion.completion_fill hp le_rfl)
  · intro h w hw
    have hle := hw.bounds.2
    rw [numbers_lt_iff] at h ⊢
    rw [numbers_le_iff] at hle
    omega

theorem relates_gte_iff : Relates .gte p v ↔ (p.fill 0).numbers ≤ v.numbers := by
  constructor
  · rintro ⟨w, hw, h⟩
    have hle := hw.bounds.1
    rw [numbers_le_iff] at h hle ⊢
    omega
  · exact fun h => ⟨_, PartialVersion.completion_fill hp (Nat.zero_le _), h⟩

/-- Where a part is given there is one comparator, with a completion. -/
theorem boundRange_eq (hmajor : p.given ≠ []) (op : Op) (full : Nat) : ∃ w : Version,
    boundRange op full p p.wildcard = Range.single op w ∧ w.tag.hasPre = false ∧
      w.numbers = (p.fill full).numbers := by
  obtain ⟨major, minor, patch, tag⟩ := p
  have hpre := hp.hasPre
  cases major with
  | none => exact absurd rfl hmajor
  | some a =>
    cases minor with
    | none => exact ⟨_, rfl, rfl, rfl⟩
    | some b =>
      cases patch with
      | none => exact ⟨_, rfl, rfl, rfl⟩
      | some c => exact ⟨_, rfl, hpre, rfl⟩

end Relation

/-- **Comparators with a partial version**: they say of the completions what the operator says,
except for `<*` and `>*`. -/
theorem toRange_relates_iff {tag : TokenTag} (htag : Relational tag) {p : PartialVersion}
    (hp : p.Release) (hstar : p.major = none → p.minor = none ∧ p.patch = none) {v : Version}
    (hv : v.Release) :
    ((((⟨tag, p.wildcard⟩ : Token).toRange p).satisfies v = true) ↔ Relates tag p v) ↔
      ¬ (p.major = none ∧ (tag = .lt ∨ tag = .gt)) := by
  cases hmajor : p.major with
  | none =>
    obtain ⟨hminor, hpatch⟩ := hstar hmajor
    have hgiven : p.given = [] := by rw [PartialVersion.given, hmajor]
    have hwildcard : p.wildcard = .major := by rw [PartialVersion.wildcard, hgiven]; rfl
    have hmin : p.min.numbers = [0, 0, 0] := by
      rw [PartialVersion.min, hmajor, hminor, hpatch]
      rfl
    have hle := Comparator.release_le hv
    have hall : ∀ op full, (boundRange op full p .major).satisfies v = true := by
      intro op full
      rw [boundRange, Range.satisfies_both (fun h => Op.noConfusion h)
        (fun h => Op.noConfusion h)]
      refine ⟨(Comparator.satisfies_release hp.hasPre hv.hasPre).mpr ?_,
        (Comparator.satisfies_release rfl hv.hasPre).mpr ?_⟩
      · have hzero : [0, 0, 0] ≤ v.numbers := (@mk_numbers_le_iff v 0 0 0 default).mpr (by omega)
        show p.min.numbers ≤ v.numbers
        rwa [hmin]
      · simp only [numbers_le_iff]
        omega
    have hfill : ∀ full, p.fill full = ⟨full, full, full, default⟩ := by
      intro full
      rw [PartialVersion.fill, hgiven]
      rfl
    rw [hwildcard]
    rcases htag with rfl | rfl | rfl | rfl
    · rw [relates_lt_iff hp, hfill, numbers_lt_iff]
      have hsat := hall .lt 0
      simp [Token.toRange, hsat]
    · rw [relates_lte_iff hp, hfill, numbers_le_iff]
      have hsat := hall .lte maxU64
      simp [Token.toRange, hsat]
      omega
    · rw [relates_gt_iff hp, hfill, numbers_lt_iff]
      have hsat := hall .gt maxU64
      simp [Token.toRange, hsat]
      omega
    · rw [relates_gte_iff hp, hfill, numbers_le_iff]
      have hsat := hall .gte 0
      simp [Token.toRange, hsat]
      omega
  | some a =>
    have hgiven : p.given ≠ [] := by
      obtain ⟨major, minor, patch, versionTag⟩ := p
      obtain rfl : major = some a := hmajor
      cases minor with
      | none => exact List.cons_ne_nil _ _
      | some b =>
        cases patch with
        | none => exact List.cons_ne_nil _ _
        | some c => exact List.cons_ne_nil _ _
    have hmeaning : ((⟨tag, p.wildcard⟩ : Token).toRange p).satisfies v = true ↔
        Relates tag p v := by
      rcases htag with rfl | rfl | rfl | rfl
      · obtain ⟨w, hw, hpre, hnumbers⟩ := boundRange_eq hp hgiven .lt 0
        rw [Token.toRange, hw, satisfies_single (fun h => Op.noConfusion h),
          Comparator.satisfies_release hpre hv.hasPre, relates_lt_iff hp, hnumbers]
      · obtain ⟨w, hw, hpre, hnumbers⟩ := boundRange_eq hp hgiven .lte maxU64
        rw [Token.toRange, hw, satisfies_single (fun h => Op.noConfusion h),
          Comparator.satisfies_release hpre hv.hasPre, relates_lte_iff hp, hnumbers]
      · obtain ⟨w, hw, hpre, hnumbers⟩ := boundRange_eq hp hgiven .gt maxU64
        rw [Token.toRange, hw, satisfies_single (fun h => Op.noConfusion h),
          Comparator.satisfies_release hpre hv.hasPre, relates_gt_iff hp, hnumbers]
      · obtain ⟨w, hw, hpre, hnumbers⟩ := boundRange_eq hp hgiven .gte 0
        rw [Token.toRange, hw, satisfies_single (fun h => Op.noConfusion h),
          Comparator.satisfies_release hpre hv.hasPre, relates_gte_iff hp, hnumbers]
    simp [hmeaning]

/-- `>=1` and `1.0.0`. -/
theorem toRange_relates_iff_major :
    ((⟨.gte, .minor⟩ : Token).toRange ⟨some 1, none, none, default⟩).satisfies ⟨1, 0, 0, default⟩ =
      true ↔ Relates .gte ⟨some 1, none, none, default⟩ ⟨1, 0, 0, default⟩ :=
  (@toRange_relates_iff .gte (.inr (.inr (.inr rfl))) ⟨some 1, none, none, default⟩
    ⟨rfl, by decide⟩ (fun h => absurd h (by simp)) ⟨1, 0, 0, default⟩ ⟨rfl, by decide⟩).mpr
      (by rintro ⟨h, -⟩; exact absurd h (by simp))

/-- `<*` takes `1.0.0`, which is not less than `0.0.0`. -/
theorem not_toRange_relates_star : ¬ ∀ (tag : TokenTag) (p : PartialVersion) (v : Version),
    Relational tag → p.Release → (p.major = none → p.minor = none ∧ p.patch = none) → v.Release →
      (((⟨tag, p.wildcard⟩ : Token).toRange p).satisfies v = true ↔ Relates tag p v) := by
  intro h
  have hstar := h .lt default ⟨1, 0, 0, default⟩ (.inl rfl) ⟨rfl, by decide⟩
    (fun _ => ⟨rfl, rfl⟩) ⟨rfl, by decide⟩
  have hless := hstar.mp (by decide) ⟨0, 0, 0, default⟩
    ⟨⟨rfl, by decide⟩, List.nil_prefix⟩
  exact absurd hless (by decide)

end OhosBun.Semver
