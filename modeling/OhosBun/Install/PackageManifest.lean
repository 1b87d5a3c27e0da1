/-
# `OhosBun.Install.PackageManifest` — the best version in a manifest

A manifest lists the releases and the prereleases of a package, each sorted, and its
dist-tags.  `findBestVersion` looks for the version to install for a range: `latest` if
it will do, else the last in the lists that satisfies the range.

Before that it takes a shortcut.  Where the range starts with an exact version, that
version is looked up and nothing else is, whether more comparators or alternatives follow
or not.  `findBestVersion_iff` says when the shortcut finds what there is to find.

A string's bytes are its own here, so there are no buffers.  What a manifest knows of a
version besides is a parameter.
-/
import OhosBun.Lib.Bytes
import OhosBun.Semver.Alternatives
import OhosBun.Semver.PreFlag

namespace OhosBun.Install

open OhosBun.Lib OhosBun.Semver

/-! ## Manifests -/

section Manifests
variable {PackageVersion : Type}

structure FindResult (PackageVersion : Type) where
  version : Version
  package : PackageVersion

/-- The slices `keys` and `values`. -/
abbrev ExternVersionMap (PackageVersion : Type) := List (FindResult PackageVersion)

/-- `find_key_index`, with what is at the index. -/
def ExternVersionMap.find (map : ExternVersionMap PackageVersion) (version : Version) :
    Option (FindResult PackageVersion) :=
  map.find? fun key => key.version.eql version

/-- The list is sorted at serialization time. -/
def ExternVersionMap.Sorted (map : ExternVersionMap PackageVersion) : Prop :=
  map.Pairwise fun l r => (l.version.order r.version).isLE

structure PackageManifest (PackageVersion : Type) where
  releases : ExternVersionMap PackageVersion
  prereleases : ExternVersionMap PackageVersion
  distTags : List (Bytes × Version)
  releases_sorted : releases.Sorted
  prereleases_sorted : prereleases.Sorted
  not_hasPre : ∀ key ∈ releases, key.version.tag.hasPre = false
  hasPre : ∀ key ∈ prereleases, key.version.tag.hasPre = true

namespace PackageManifest
variable (m : PackageManifest PackageVersion) (g : Group)

def findByVersion (version : Version) : Option (FindResult PackageVersion) :=
  (if !version.tag.hasPre then m.releases else m.prereleases).find version

def findByDistTag (tag : Bytes) : Option (FindResult PackageVersion) :=
  match m.distTags.find? fun entry => entry.1 = tag with
  | some (_, version) => m.findByVersion version
  | none => none

/-- The `latest` version, where it will do. -/
def findLatest : Option (FindResult PackageVersion) :=
  match m.findByDistTag (ascii "latest") with
  | some result =>
    if g.satisfies result.version then
      if g.pre then
        -- if prerelease, use latest if semver+tag match range exactly
        if g.head.range.left.version.order result.version = .eq then some result else none
      else some result
    else none
  | none => none

/-- The loop from the end of a list. -/
def findLast (map : ExternVersionMap PackageVersion) : Option (FindResult PackageVersion) :=
  map.reverse.find? fun key => g.satisfies key.version

def findBestVersion : Option (FindResult PackageVersion) :=
  -- Fast path: exact version
  if g.head.range.left.op = .eql then m.findByVersion g.head.range.left.version
  else
    match m.findLatest g with
    | some result => some result
    | none =>
      match findLast g m.releases with
      | some result => some result
      | none => if g.pre then findLast g m.prereleases else none

/-! ## What there is to find -/

/-- The versions that the group can take. -/
def candidates : List (FindResult PackageVersion) :=
  m.releases ++ if g.pre then m.prereleases else []

/-- A version is found if there is one, and it satisfies the group. -/
structure FindsMatch : Prop where
  isSome_iff : (m.findBestVersion g).isSome ↔ ∃ key ∈ m.candidates g, g.satisfies key.version
  satisfies : ∀ key ∈ m.findBestVersion g, g.satisfies key.version

variable {key : FindResult PackageVersion} {version : Version} {map : ExternVersionMap PackageVersion}

theorem mem_candidates :
    key ∈ m.candidates g ↔ key ∈ m.releases ∨ g.pre ∧ key ∈ m.prereleases := by
  rw [candidates, List.mem_append]
  cases g.pre with
  | true => simp
  | false => simp

variable {m g}

/-- What is found is of the list that its prerelease says. -/
theorem mem_of_findByVersion (h : m.findByVersion version = some key) :
    version.tag.hasPre = false ∧ key ∈ m.releases ∨
      version.tag.hasPre = true ∧ key ∈ m.prereleases := by
  rw [findByVersion, ExternVersionMap.find] at h
  have hmem := List.mem_of_find?_eq_some h
  cases hpre : version.tag.hasPre with
  | false =>
    rw [hpre] at hmem
    exact .inl ⟨rfl, hmem⟩
  | true =>
    rw [hpre] at hmem
    exact .inr ⟨rfl, hmem⟩

theorem mem_candidates_of_noted (h : g.Noted) (hfind : m.findByVersion version = some key)
    (hsat : g.satisfies key.version) :
    key ∈ m.candidates g := by
  rw [mem_candidates]
  rcases mem_of_findByVersion hfind with ⟨_, hmem⟩ | ⟨_, hmem⟩
  · exact .inl hmem
  · exact .inr ⟨h.pre_of_satisfies (m.hasPre key hmem) hsat, hmem⟩

theorem findLatest_spec (h : g.Noted) (hfind : m.findLatest g = some key) :
    g.satisfies key.version ∧ key ∈ m.candidates g := by
  rw [findLatest] at hfind
  split at hfind
  next result htag =>
    have hkey : result = key ∧ g.satisfies result.version := by
      split_ifs at hfind with hsat
      · exact ⟨Option.some.inj hfind, hsat⟩
      · exact ⟨Option.some.inj hfind, hsat⟩
    obtain ⟨rfl, hsat⟩ := hkey
    rw [findByDistTag] at htag
    split at htag
    · exact ⟨hsat, mem_candidates_of_noted h htag hsat⟩
    · exact absurd htag (by simp)
  next => exact absurd hfind (by simp)

theorem findLast_spec (hfind : findLast g map = some key) : g.satisfies key.version ∧ key ∈ map := by
  have hsat := List.find?_some hfind
  exact ⟨hsat, List.mem_reverse.mp (List.mem_of_find?_eq_some hfind)⟩

theorem findLast_eq_none (hfind : findLast g map = none) :
    ∀ key ∈ map, ¬ g.satisfies key.version := by
  intro key hkey
  exact List.find?_eq_none.mp hfind key (List.mem_reverse.mpr hkey)

/-- Without the shortcut what there is to find is found. -/
theorem findsMatch_of_ne_eql (h : g.Noted) (hop : g.head.range.left.op ≠ .eql) :
    m.FindsMatch g := by
  have hfound : ∀ key ∈ m.findBestVersion g, g.satisfies key.version ∧ key ∈ m.candidates g := by
    intro key hkey
    rw [findBestVersion, if_neg hop] at hkey
    split at hkey
    next result hlatest =>
      obtain rfl := Option.some.inj hkey
      exact findLatest_spec h hlatest
    next =>
      split at hkey
      next result hrelease =>
        obtain rfl := Option.some.inj hkey
        obtain ⟨hsat, hmem⟩ := findLast_spec hrelease
        exact ⟨hsat, (mem_candidates m g).mpr (.inl hmem)⟩
      next =>
        split at hkey
        next hpre =>
          obtain ⟨hsat, hmem⟩ := findLast_spec hkey
          exact ⟨hsat, (mem_candidates m g).mpr (.inr ⟨hpre, hmem⟩)⟩
        next => exact absurd hkey (by simp)
  refine ⟨⟨fun hsome => ?_, fun ⟨key, hkey, hsat⟩ => ?_⟩, fun key hkey => (hfound key hkey).1⟩
  · obtain ⟨key, hkey⟩ := Option.isSome_iff_exists.mp hsome
    exact ⟨key, (hfound key hkey).2, (hfound key hkey).1⟩
  · by_contra hnone
    rw [Option.not_isSome_iff_eq_none, findBestVersion, if_neg hop] at hnone
    split at hnone
    next => exact absurd hnone (by simp)
    next =>
      split at hnone
      next => exact absurd hnone (by simp)
      next hrelease =>
        rcases (mem_candidates m g).mp hkey with hmem | ⟨hpre, hmem⟩
        · exact findLast_eq_none hrelease key hmem hsat
        · rw [if_pos hpre] at hnone
          exact findLast_eq_none hnone key hmem hsat

/-! ## The shortcut -/

end PackageManifest

end Manifests

/-- The other comparators of the first alternative. -/
def restSatisfies (g : Group) (version : Version) : Bool :=
  (!g.head.range.hasRight || g.head.range.right.satisfies version) &&
    g.head.next.all (·.satisfies version)

/-- The other alternatives. -/
def othersAccept (g : Group) (version : Version) : Bool := g.next.any (·.accepts version)

/-- A component that leaves the order open is shared. -/
theorem unsettled {a b : Nat} {rest : Ordering}
    (h : (if a < b then .lt else if b < a then .gt else rest) = Ordering.eq) :
    a = b ∧ rest = .eq := by
  by_cases hlt : a < b
  · rw [if_pos hlt] at h
    exact absurd h (by simp)
  · rw [if_neg hlt] at h
    by_cases hgt : b < a
    · rw [if_pos hgt] at h
      exact absurd h (by simp)
    · rw [if_neg hgt] at h
      exact ⟨Nat.le_antisymm (Nat.le_of_not_lt hgt) (Nat.le_of_not_lt hlt), h⟩

theorem orderWithoutTag_eq_eq {l r : Version} (h : l.orderWithoutTag r = .eq) :
    l.major = r.major ∧ l.minor = r.minor ∧ l.patch = r.patch ∧ l.tag.hasPre = r.tag.hasPre := by
  rw [Version.orderWithoutTag] at h
  obtain ⟨hmajor, h⟩ := unsettled h
  obtain ⟨hminor, h⟩ := unsettled h
  obtain ⟨hpatch, h⟩ := unsettled h
  refine ⟨hmajor, hminor, hpatch, ?_⟩
  cases hl : l.tag.hasPre with
  | false =>
    cases hr : r.tag.hasPre with
    | false => rfl
    | true =>
      rw [hl, hr] at h
      exact absurd h (by simp)
  | true =>
    cases hr : r.tag.hasPre with
    | true => rfl
    | false =>
      rw [hl, hr] at h
      exact absurd h (by simp)

theorem orderWithoutBuild_eq_eq {l r : Version} (h : l.orderWithoutBuild r = .eq) :
    l.major = r.major ∧ l.minor = r.minor ∧ l.patch = r.patch ∧ l.tag.hasPre = r.tag.hasPre := by
  rw [Version.orderWithoutBuild] at h
  split at h
  next heq => exact orderWithoutTag_eq_eq heq
  next hne => exact absurd h hne

theorem range_satisfies_iff {r : Range} (hleft : r.hasLeft = true) (version : Version) :
    r.satisfies version ↔
      r.left.satisfies version ∧ (!r.hasRight || r.right.satisfies version) := by
  rw [Range.satisfies, hleft]
  cases r.left.satisfies version with
  | false => simp
  | true =>
    cases r.hasRight with
    | false => simp
    | true => simp

/-- What the first alternative takes, where it starts with an exact version. -/
theorem head_accepts_iff {g : Group} (hop : g.head.range.left.op = .eql) (version : Version) :
    g.head.accepts version ↔
      version.orderWithoutBuild g.head.range.left.version = .eq ∧ restSatisfies g version := by
  have hleft : g.head.range.hasLeft = true := by
    rw [Range.hasLeft, hop]
    rfl
  have hsat : g.head.range.left.satisfies version ↔
      version.orderWithoutBuild g.head.range.left.version = .eq := by
    rw [Comparator.satisfies, hop]
    cases version.orderWithoutBuild g.head.range.left.version with
    | lt => simp
    | eq => simp
    | gt => simp
  rw [Query.accepts_iff, List.forall_mem_cons, range_satisfies_iff hleft, restSatisfies,
    Bool.and_eq_true, List.all_eq_true, ← hsat]
  constructor
  · rintro ⟨⟨⟨hl, hr⟩, hnext⟩, -⟩
    exact ⟨hl, hr, hnext⟩
  · rintro ⟨hl, hr, hnext⟩
    refine ⟨⟨⟨hl, hr⟩, hnext⟩, fun hpre => ⟨_, List.mem_cons_self, ?_⟩⟩
    obtain ⟨hmajor, hminor, hpatch, htag⟩ := orderWithoutBuild_eq_eq (hsat.mp hl)
    rw [Range.matchesSide, hleft, Range.matchesPre, ← htag, hpre]
    simp [hmajor, hminor, hpatch]

/-- The shortcut finds what there is to find.  The version that is found is level with the
exact one and suits the other comparators, or it suits another alternative; where none is
found, no candidate would do. -/
structure ShortcutSound {PackageVersion : Type} (m : PackageManifest PackageVersion) (g : Group) :
    Prop where
  listed : ∀ key ∈ m.findByVersion g.head.range.left.version,
    key.version.orderWithoutBuild g.head.range.left.version = .eq ∧ restSatisfies g key.version ∨
      othersAccept g key.version
  unlisted : m.findByVersion g.head.range.left.version = none → ∀ key ∈ m.candidates g,
    othersAccept g key.version = false ∧
      (key.version.orderWithoutBuild g.head.range.left.version = .eq →
        restSatisfies g key.version = false)

section Exact
variable {PackageVersion : Type} {m : PackageManifest PackageVersion} {g : Group}

theorem satisfies_iff (hop : g.head.range.left.op = .eql) (version : Version) :
    g.satisfies version ↔
      version.orderWithoutBuild g.head.range.left.version = .eq ∧ restSatisfies g version ∨
        othersAccept g version := by
  rw [Group.satisfies_eq, List.any_cons, Bool.or_eq_true, head_accepts_iff hop, othersAccept]

theorem findsMatch_iff_shortcutSound (h : g.Noted) (hop : g.head.range.left.op = .eql) :
    m.FindsMatch g ↔ ShortcutSound m g := by
  have hbest : m.findBestVersion g = m.findByVersion g.head.range.left.version := by
    rw [PackageManifest.findBestVersion, if_pos hop]
  constructor
  · rintro ⟨hsome, hsat⟩
    rw [hbest] at hsome hsat
    refine ⟨fun key hkey => (satisfies_iff hop _).mp (hsat key hkey), fun hnone key hkey => ?_⟩
    have hnot : ¬ g.satisfies key.version := by
      intro hkey'
      have hfound := hsome.mpr ⟨key, hkey, hkey'⟩
      rw [hnone] at hfound
      exact absurd hfound Bool.false_ne_true
    rw [satisfies_iff hop, not_or, not_and] at hnot
    exact ⟨eq_false_of_ne_true hnot.2, fun heq => eq_false_of_ne_true (hnot.1 heq)⟩
  · rintro ⟨hlisted, hunlisted⟩
    have hsat : ∀ key ∈ m.findBestVersion g, g.satisfies key.version := by
      rw [hbest]
      exact fun key hkey => (satisfies_iff hop _).mpr (hlisted key hkey)
    refine ⟨⟨fun hsome => ?_, fun ⟨key, hkey, hkey'⟩ => ?_⟩, hsat⟩
    · obtain ⟨key, hkey⟩ := Option.isSome_iff_exists.mp hsome
      have hkey' := hsat key hkey
      rw [hbest] at hkey
      exact ⟨key, PackageManifest.mem_candidates_of_noted h hkey hkey', hkey'⟩
    · by_contra hnone
      rw [Option.not_isSome_iff_eq_none, hbest] at hnone
      obtain ⟨hothers, hrest⟩ := hunlisted hnone key hkey
      rcases (satisfies_iff hop _).mp hkey' with ⟨heq, hsat'⟩ | hother
      · rw [hrest heq] at hsat'
        exact absurd hsat' (by decide)
      · rw [hothers] at hother
        exact absurd hother (by decide)

end Exact

/-- `1.0.0 || 2.0.0` -/
def eitherOne : RangeText := ⟨0, ⟨none, RangeText.numbers 1 0 0⟩, [(.or 1 1, ⟨none, RangeText.numbers 2 0 0⟩)], 0⟩

/-- A package whose only version is 2.0.0. -/
def onlyTwo : PackageManifest Unit where
  releases := [⟨⟨2, 0, 0, default⟩, ()⟩]
  prereleases := []
  distTags := [(ascii "latest", ⟨2, 0, 0, default⟩)]
  releases_sorted := by exact List.pairwise_singleton _ _
  prereleases_sorted := by exact List.Pairwise.nil
  not_hasPre := by decide
  hasPre := by decide

end OhosBun.Install
