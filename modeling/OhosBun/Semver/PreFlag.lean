/-
# `OhosBun.Semver.PreFlag` — prereleases in a range are flagged

`query::parse` sets the flag `PRE` of a group at a version that has a prerelease, before
it makes a comparator of it.  So a group where some comparator has a prerelease has the
flag (`parseQuery_noted`), and only such a group takes prereleases
(`pre_of_satisfies`).
-/
import OhosBun.Semver.Query

namespace OhosBun.Semver

/-- A side of the range has a prerelease. -/
def Range.hasPre (r : Range) : Bool := r.left.version.tag.hasPre || r.right.version.tag.hasPre

/-- A prerelease in a comparator is flagged. -/
def Query.Noted (pre : Bool) (q : Query) : Prop := ∀ r ∈ q.range :: q.next, r.hasPre → pre

def Group.Noted (g : Group) : Prop := ∀ q ∈ g.head :: g.next, q.Noted g.pre

/-! ## Ranges -/

section Ranges

@[simp]
theorem ltNextMajor_hasPre (major : Nat) :
    (Comparator.ltNextMajor major).version.tag.hasPre = false := by
  rw [Comparator.ltNextMajor]
  split <;> rfl

@[simp]
theorem ltNextMinor_hasPre (major minor : Nat) :
    (Comparator.ltNextMinor major minor).version.tag.hasPre = false := by
  rw [Comparator.ltNextMinor]
  split <;> rfl

@[simp]
theorem ltNextPatch_hasPre (major minor patch : Nat) :
    (Comparator.ltNextPatch major minor patch).version.tag.hasPre = false := by
  rw [Comparator.ltNextPatch]
  split <;> rfl

@[simp]
theorem default_hasPre : (default : Version).tag.hasPre = false := rfl

variable {version : PartialVersion} (h : version.tag.hasPre = false)
include h

theorem caretRange_hasPre : (caretRange version).hasPre = false := by
  rw [Range.hasPre, Bool.or_eq_false_iff, caretRange]
  split
  · exact ⟨rfl, rfl⟩
  · exact ⟨rfl, ltNextMajor_hasPre _⟩
  · refine ⟨rfl, ?_⟩
    split <;> simp
  · refine ⟨h, ?_⟩
    split_ifs <;> simp

theorem tildaRange_hasPre : (tildaRange version).hasPre = false := by
  rw [Range.hasPre, Bool.or_eq_false_iff, tildaRange]
  split
  · exact ⟨rfl, rfl⟩
  · exact ⟨rfl, ltNextMajor_hasPre _⟩
  · exact ⟨rfl, ltNextMinor_hasPre _ _⟩
  · exact ⟨h, ltNextMinor_hasPre _ _⟩

theorem boundRange_hasPre (op : Op) (full : Nat) (wildcard : Wildcard) :
    (boundRange op full version wildcard).hasPre = false := by
  rw [Range.hasPre, Bool.or_eq_false_iff]
  cases wildcard with
  | none => exact ⟨h, rfl⟩
  | major => exact ⟨h, rfl⟩
  | minor => exact ⟨rfl, rfl⟩
  | patch => exact ⟨rfl, rfl⟩

theorem initWildcard_hasPre (wildcard : Wildcard) :
    (Range.initWildcard version.min wildcard).hasPre = false := by
  rw [Range.hasPre, Bool.or_eq_false_iff]
  cases wildcard with
  | none => exact ⟨h, rfl⟩
  | major => exact ⟨rfl, rfl⟩
  | minor => exact ⟨ltNextMajor_hasPre _, rfl⟩
  | patch => exact ⟨ltNextMinor_hasPre _ _, rfl⟩

/-- A token makes no prerelease. -/
theorem toRange_hasPre (token : Token) : (token.toRange version).hasPre = false := by
  obtain ⟨tag, wildcard⟩ := token
  cases tag with
  | none => rfl
  | gt => exact boundRange_hasPre h _ _ _
  | gte => exact boundRange_hasPre h _ _ _
  | lt => exact boundRange_hasPre h _ _ _
  | lte => exact boundRange_hasPre h _ _ _
  | version => exact initWildcard_hasPre h _
  | tilda => exact tildaRange_hasPre h
  | caret => exact caretRange_hasPre h

end Ranges

theorem hyphenRange_hasPre {version : Version} {second : ParseResult}
    (h : version.tag.hasPre = false) (hsecond : second.version.min.tag.hasPre = false) :
    (QueryState.hyphenRange version second).hasPre = false := by
  rw [Range.hasPre, Bool.or_eq_false_iff, QueryState.hyphenRange]
  cases second.wildcard with
  | none => exact ⟨h, hsecond⟩
  | major => exact ⟨h, rfl⟩
  | minor =>
    refine ⟨h, ?_⟩
    dsimp only
    split
    · exact hsecond
    · exact ltNextMajor_hasPre _
  | patch =>
    refine ⟨h, ?_⟩
    dsimp only
    split
    · exact hsecond
    · exact ltNextMinor_hasPre _ _

/-! ## Groups -/

namespace Group
variable {g : Group} {r : Range} {version : Version}

theorem Noted.note (h : g.Noted) (version : Version) : (g.note version).Noted := by
  intro q hq r hr hpre
  change (g.pre || version.tag.hasPre) = true
  rw [Bool.or_eq_true]
  exact .inl (h q hq r hr hpre)

theorem note_pre (g : Group) (version : Version) :
    (g.note version).pre = (g.pre || version.tag.hasPre) := rfl

/-- A property of every range of the group. -/
def Each (P : Range → Prop) (g : Group) : Prop :=
  ∀ q ∈ g.head :: g.next, ∀ r ∈ q.range :: q.next, P r

section Each
variable {P : Range → Prop}

theorem Each.concat (h : g.Each P) {q : Query} (hq : ∀ r ∈ q.range :: q.next, P r) :
    Each P { g with next := g.next ++ [q] } := by
  intro q' hq'
  rw [List.mem_cons, List.mem_append, List.mem_singleton] at hq'
  obtain rfl | hmem | rfl := hq'
  · exact h _ List.mem_cons_self
  · exact h q' (List.mem_cons_of_mem _ hmem)
  · exact hq

theorem Each.setHead (h : g.Each P) {q : Query} (hq : ∀ r ∈ q.range :: q.next, P r) :
    Each P { g with head := q } := by
  intro q' hq'
  obtain rfl | hmem := List.mem_cons.mp hq'
  · exact hq
  · exact h q' (List.mem_cons_of_mem _ hmem)

theorem Each.orRange (h : g.Each P) (hr : P r) : (g.orRange r).Each P := by
  rw [Group.orRange]
  split
  · refine h.setHead fun r' hr' => ?_
    obtain rfl | hmem := List.mem_cons.mp hr'
    · exact hr
    · exact h g.head List.mem_cons_self r' (List.mem_cons_of_mem _ hmem)
  · exact h.concat (List.forall_mem_singleton.mpr hr)

theorem Each.orVersion (h : g.Each P) (hsingle : P (Range.single .eql version))
    (hleft : ∀ r, P r → P { r with left := ⟨.eql, version⟩ }) : (g.orVersion version).Each P := by
  rw [Group.orVersion]
  split
  · refine h.setHead fun r' hr' => ?_
    obtain rfl | hmem := List.mem_cons.mp hr'
    · exact hleft _ (h g.head List.mem_cons_self g.head.range List.mem_cons_self)
    · exact h g.head List.mem_cons_self r' (List.mem_cons_of_mem _ hmem)
  · exact h.concat (List.forall_mem_singleton.mpr hsingle)

theorem each_query_andRange {q : Query} (h : ∀ r ∈ q.range :: q.next, P r) (hr : P r) :
    ∀ r' ∈ (q.andRange r).range :: (q.andRange r).next, P r' := by
  rw [Query.andRange]
  split
  · intro r' hr'
    obtain rfl | hmem := List.mem_cons.mp hr'
    · exact hr
    · exact h r' (List.mem_cons_of_mem _ hmem)
  · intro r' hr'
    rw [List.mem_cons, List.mem_append, List.mem_singleton] at hr'
    obtain rfl | hmem | rfl := hr'
    · exact h _ List.mem_cons_self
    · exact h r' (List.mem_cons_of_mem _ hmem)
    · exact hr

theorem Each.andRange (h : g.Each P) (hr : P r) : (g.andRange r).Each P := by
  rw [Group.andRange]
  split
  · exact h.setHead (each_query_andRange (h _ List.mem_cons_self) hr)
  · next last hlast =>
      have hmem := List.mem_of_getLast? hlast
      intro q hq
      rw [List.mem_cons, List.mem_append, List.mem_singleton] at hq
      obtain rfl | hmem' | rfl := hq
      · exact h _ List.mem_cons_self
      · exact h q (List.mem_cons_of_mem _ (List.dropLast_subset _ hmem'))
      · exact each_query_andRange (h last (List.mem_cons_of_mem _ hmem)) hr

end Each

@[simp]
theorem pre_orRange (g : Group) (r : Range) : (g.orRange r).pre = g.pre := by
  rw [Group.orRange]
  split <;> rfl

@[simp]
theorem pre_orVersion (g : Group) (version : Version) : (g.orVersion version).pre = g.pre := by
  rw [Group.orVersion]
  split <;> rfl

@[simp]
theorem pre_andRange (g : Group) (r : Range) : (g.andRange r).pre = g.pre := by
  rw [Group.andRange]
  split <;> rfl

theorem Noted.orRange (h : g.Noted) (hr : r.hasPre → g.pre) : (g.orRange r).Noted := by
  have heach : (g.orRange r).Each fun r => r.hasPre → g.pre := Each.orRange h hr
  rw [Noted, pre_orRange]
  exact heach

theorem Noted.orVersion (h : g.Noted) (hv : version.tag.hasPre → g.pre) :
    (g.orVersion version).Noted := by
  have heach : (g.orVersion version).Each fun r => r.hasPre → g.pre := by
    refine Each.orVersion h (fun hpre => hv ?_) fun r hr hpre => ?_
    · rwa [Range.hasPre, show (Range.single .eql version).right = default from rfl,
        show (default : Comparator).version.tag.hasPre = false from rfl, Bool.or_false] at hpre
    · rw [Range.hasPre, Bool.or_eq_true] at hpre
      rcases hpre with hpre | hpre
      · exact hv hpre
      · refine hr ?_
        rw [Range.hasPre, hpre, Bool.or_true]
  rw [Noted, pre_orVersion]
  exact heach

theorem Noted.andRange (h : g.Noted) (hr : r.hasPre → g.pre) : (g.andRange r).Noted := by
  have heach : (g.andRange r).Each fun r => r.hasPre → g.pre := Each.andRange h hr
  rw [Noted, pre_andRange]
  exact heach

end Group

/-! ## The loop -/

namespace QueryState
variable (hash : List UInt8 → UInt64) {s : QueryState}

theorem noted_join {list : Group} (h : list.Noted) {parsed : ParseResult}
    (hpre : parsed.version.tag.hasPre → list.pre) : (s.join parsed list).Noted := by
  have hrange : ∀ token : Token, (token.toRange parsed.version).hasPre → list.pre := by
    intro token hr
    cases htag : parsed.version.tag.hasPre with
    | true => exact hpre htag
    | false =>
      rw [toRange_hasPre htag] at hr
      exact absurd hr (by decide)
  rw [join]
  split_ifs
  · split
    · exact h.orVersion hpre
    · exact h.orRange (hrange _)
  · exact h.andRange (hrange _)
  · exact h.orRange (hrange _)
  · exact h.andRange (hrange _)

theorem noted_round (h : s.list.Noted) (rest : List UInt8) : (s.round hash rest).2.list.Noted := by
  have hnoted := h.note (Version.parse hash rest).version.min
  rw [round]
  dsimp only
  split
  next rest' _ =>
    have hnoted' := hnoted.note (Version.parse hash rest').version.min
    have hrange : (hyphenRange (Version.parse hash rest).version.min
        (Version.parse hash rest')).hasPre →
        ((s.list.note (Version.parse hash rest).version.min).note
          (Version.parse hash rest').version.min).pre := by
      intro hr
      by_contra hpre
      rw [Bool.not_eq_true, Group.note_pre, Group.note_pre, Bool.or_eq_false_iff,
        Bool.or_eq_false_iff] at hpre
      rw [hyphenRange_hasPre hpre.1.2 hpre.2] at hr
      exact absurd hr (by decide)
    rw [close]
    split
    · exact hnoted'.orRange hrange
    · exact hnoted'.andRange hrange
  next =>
    split
    · exact hnoted
    · refine noted_join hnoted fun hpre => ?_
      rw [Group.note_pre, Bool.or_eq_true]
      exact .inr hpre

theorem noted_turn (h : s.list.Noted) (c : UInt8) (cs : List UInt8) :
    (s.turn hash c cs).2.list.Noted := by
  have hlist := (s.lexed_lex c cs).list
  rw [turn]
  split
  next hlex =>
    rw [hlex] at hlist
    exact hlist ▸ h
  next hlex =>
    rw [hlex] at hlist
    exact noted_round hash (hlist ▸ h) _

theorem noted_run (h : s.list.Noted) (input : List UInt8) : (s.run hash input).list.Noted := by
  induction input using (measure List.length).wf.induction generalizing s with
  | h input ih =>
    cases input with
    | nil => rwa [run]
    | cons c cs =>
      rw [run]
      exact ih _ (s.turn_length hash c cs) (noted_turn hash h c cs)

end QueryState

/-- A prerelease in a parsed range is flagged. -/
theorem parseQuery_noted (hash : List UInt8 → UInt64) (input : List UInt8) :
    (parseQuery hash input).Noted := by
  refine QueryState.noted_run hash ?_ input
  intro q hq r hr hpre
  obtain rfl := List.mem_singleton.mp hq
  obtain rfl := List.mem_singleton.mp hr
  exact absurd hpre (by decide)

/-! ## What a group takes -/

/-- `Group::satisfies`, for one of the alternatives. -/
def Query.accepts (q : Query) (version : Version) : Bool :=
  if version.tag.hasPre then
    match Query.satisfiesPreLoop version (q.range :: q.next) false with
    | (satisfied, preMatched) => satisfied && preMatched
  else q.satisfies version

theorem Group.satisfies_eq (g : Group) (version : Version) :
    g.satisfies version = (g.head :: g.next).any (·.accepts version) := by
  cases hpre : version.tag.hasPre with
  | true => simp only [Group.satisfies, Query.accepts, hpre, if_true]
  | false => simp only [Group.satisfies, Query.accepts, hpre, Bool.false_eq_true, if_false]

/-- A side that is set has a prerelease of the same numbers. -/
def Range.matchesSide (r : Range) (version : Version) : Bool :=
  r.hasLeft && (Range.matchesPre r.left version || r.hasRight && Range.matchesPre r.right version)

theorem Range.satisfiesPre_eq (r : Range) (version : Version) (preMatched : Bool) :
    r.satisfiesPre version preMatched =
      (r.satisfies version, preMatched || r.matchesSide version) := by
  rw [Range.satisfiesPre, Range.satisfies, Range.matchesSide]
  cases r.hasLeft with
  | false => simp
  | true =>
    simp only [Bool.not_true, Bool.false_eq_true, if_false, Bool.true_and, Bool.or_assoc]
    split_ifs <;> rfl

theorem Query.satisfiesPreLoop_iff (version : Version) (rs : List Range) (preMatched : Bool) :
    ((Query.satisfiesPreLoop version rs preMatched).1 &&
        (Query.satisfiesPreLoop version rs preMatched).2) = true ↔
      (∀ r ∈ rs, r.satisfies version) ∧ (preMatched ∨ ∃ r ∈ rs, r.matchesSide version) := by
  induction rs generalizing preMatched with
  | nil => simp [Query.satisfiesPreLoop]
  | cons r rs ih =>
    rw [Query.satisfiesPreLoop, Range.satisfiesPre_eq, List.forall_mem_cons]
    cases hr : r.satisfies version with
    | false => simp
    | true =>
      dsimp only
      rw [ih, Bool.or_eq_true]
      simp [or_assoc]

/-- An alternative takes a version that satisfies its comparators; one of them has a
prerelease of the same numbers, if the version is one. -/
theorem Query.accepts_iff (q : Query) (version : Version) :
    q.accepts version ↔ (∀ r ∈ q.range :: q.next, r.satisfies version) ∧
      (version.tag.hasPre → ∃ r ∈ q.range :: q.next, r.matchesSide version) := by
  rw [Query.accepts]
  cases hpre : version.tag.hasPre with
  | true =>
    rw [if_pos rfl]
    have h := Query.satisfiesPreLoop_iff version (q.range :: q.next) false
    simpa using h
  | false => simp [Query.satisfies]

theorem Range.hasPre_of_matchesSide {r : Range} {version : Version}
    (h : r.matchesSide version) : r.hasPre := by
  rw [Range.matchesSide, Range.matchesPre, Range.matchesPre] at h
  rw [Range.hasPre]
  grind

/-- Only a group with the flag takes a prerelease. -/
theorem Group.Noted.pre_of_satisfies {g : Group} (h : g.Noted) {version : Version}
    (hpre : version.tag.hasPre) (hsat : g.satisfies version) : g.pre := by
  rw [Group.satisfies_eq, List.any_eq_true] at hsat
  obtain ⟨q, hq, haccepts⟩ := hsat
  obtain ⟨r, hr, hmatch⟩ := (q.accepts_iff version).mp haccepts |>.2 hpre
  exact h q hq r hr (Range.hasPre_of_matchesSide hmatch)

end OhosBun.Semver
