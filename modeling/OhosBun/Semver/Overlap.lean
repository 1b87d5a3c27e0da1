/-
# `OhosBun.Semver.Overlap` — no common version is missed

    isNonEmpty_foldl      an interval is narrowed to the room that its comparators leave
    intersects_iff        so two groups intersect where two alternatives leave room
    intersects_spec       every version that satisfies both is in that room

The order of versions is a total preorder, and it is not dense: an interval may be taken for
non-empty that no version is in.  A range without a left side is satisfied whatever its right
side says; `query::parse` makes no such range (`parseQuery_each`).
-/
import OhosBun.Semver.Alternatives
import OhosBun.Semver.Intersects
import OhosBun.Semver.PreFlag

namespace OhosBun.Semver

instance : Std.TransCmp Version.orderWithoutBuild := by
  have hchain : Version.orderWithoutBuild = compareLex coreOrder preOrder :=
    funext₂ orderWithoutBuild_eq
  rw [hchain]
  infer_instance

/-! ## Bounds -/

namespace Bound
variable {l l' u u' : Bound}

/-- There is room between a lower bound and an upper one. -/
def Meets (l u : Bound) : Prop :=
  l.version.orderWithoutBuild u.version = .lt ∨
    l.version.orderWithoutBuild u.version = .eq ∧ l.inclusive ∧ u.inclusive

theorem Meets.of_lt (hlt : l.version.orderWithoutBuild l'.version = .lt) (h : l'.Meets u) :
    l.Meets u := by
  rcases h with h | ⟨h, -, -⟩
  · exact .inl (Std.TransCmp.lt_trans hlt h)
  · exact .inl (Std.TransCmp.lt_of_lt_of_eq hlt h)

theorem Meets.of_eq (heq : l.version.orderWithoutBuild l'.version = .eq)
    (hincl : l'.inclusive → l.inclusive) (h : l'.Meets u) : l.Meets u := by
  rcases h with h | ⟨h, hl, hu⟩
  · exact .inl (Std.TransCmp.lt_of_eq_of_lt heq h)
  · exact .inr ⟨Std.TransCmp.eq_trans heq h, hincl hl, hu⟩

theorem Meets.trans_lt (h : l.Meets u) (hlt : u.version.orderWithoutBuild u'.version = .lt) :
    l.Meets u' := by
  rcases h with h | ⟨h, -, -⟩
  · exact .inl (Std.TransCmp.lt_trans h hlt)
  · exact .inl (Std.TransCmp.lt_of_eq_of_lt h hlt)

theorem Meets.trans_eq (h : l.Meets u) (heq : u.version.orderWithoutBuild u'.version = .eq)
    (hincl : u.inclusive → u'.inclusive) : l.Meets u' := by
  rcases h with h | ⟨h, hl, hu⟩
  · exact .inl (Std.TransCmp.lt_of_lt_of_eq h heq)
  · exact .inr ⟨Std.TransCmp.eq_trans h heq, hl, hincl hu⟩

/-- There is room around a version. -/
theorem Meets.trans {version : Version} (hl : l.Meets ⟨version, true⟩)
    (hu : Meets ⟨version, true⟩ u) : l.Meets u := by
  rcases hl with hl | ⟨hl, hincl, -⟩
  · exact .of_lt hl hu
  · exact .of_eq hl (fun _ => hincl) hu

end Bound

/-! ## Intervals -/

namespace Comparator

/-- What the comparator leaves out below. -/
def lower (c : Comparator) : Option Bound :=
  match c.op with
  | .eql | .gte => some ⟨c.version, true⟩
  | .gt => some ⟨c.version, false⟩
  | .unset | .lt | .lte => none

/-- What the comparator leaves out above. -/
def upper (c : Comparator) : Option Bound :=
  match c.op with
  | .eql | .lte => some ⟨c.version, true⟩
  | .lt => some ⟨c.version, false⟩
  | .unset | .gt | .gte => none

/-- A version that satisfies a comparator is between its bounds. -/
theorem meets_of_satisfies {c : Comparator} {version : Version}
    (h : c.op ≠ .unset → c.satisfies version) :
    (∀ l ∈ c.lower, l.Meets ⟨version, true⟩) ∧ ∀ u ∈ c.upper, Bound.Meets ⟨version, true⟩ u := by
  obtain ⟨op, bound⟩ := c
  have hswap : bound.orderWithoutBuild version = (version.orderWithoutBuild bound).swap :=
    Std.OrientedCmp.eq_swap
  unfold satisfies at h
  cases horder : version.orderWithoutBuild bound with
  | lt =>
    rw [horder] at h hswap
    cases op <;> simp_all [lower, upper, Bound.Meets]
  | eq =>
    rw [horder] at h hswap
    cases op <;> simp_all [lower, upper, Bound.Meets]
  | gt =>
    rw [horder] at h hswap
    cases op <;> simp_all [lower, upper, Bound.Meets]

/-- Every lower bound leaves room below every upper bound. -/
def Room (cs : List Comparator) : Prop :=
  ∀ c ∈ cs, ∀ d ∈ cs, ∀ l ∈ c.lower, ∀ u ∈ d.upper, l.Meets u

theorem Room.mono {cs ds : List Comparator} (hsub : ∀ c ∈ ds, c ∈ cs) (h : Room cs) : Room ds :=
  fun c hc d hd => h c (hsub c hc) d (hsub d hd)

/-- A version that satisfies all of the comparators is in the room. -/
theorem room_of_satisfies {cs : List Comparator} {version : Version}
    (h : ∀ c ∈ cs, c.op ≠ .unset → c.satisfies version) : Room cs :=
  fun c hc d hd l hl u hu =>
    ((meets_of_satisfies (h c hc)).1 l hl).trans ((meets_of_satisfies (h d hd)).2 u hu)

end Comparator

namespace Interval
variable {i : Interval}

/-- An upper bound leaves room above a raised bound if it leaves room above both. -/
theorem forall_lower_raise (i : Interval) (b u : Bound) :
    (∀ l ∈ (i.raise b).lower, l.Meets u) ↔ (∀ l ∈ i.lower, l.Meets u) ∧ b.Meets u := by
  obtain ⟨lower, upper⟩ := i
  cases lower with
  | none => simp [raise]
  | some cur =>
    have hswap : cur.version.orderWithoutBuild b.version =
        (b.version.orderWithoutBuild cur.version).swap := Std.OrientedCmp.eq_swap
    cases horder : b.version.orderWithoutBuild cur.version with
    | lt =>
      have hkept : cur.Meets u → b.Meets u := .of_lt horder
      simp only [raise, horder, Bool.false_eq_true, if_false, Option.mem_def,
        Option.some.injEq, forall_eq']
      exact ⟨fun h => ⟨h, hkept h⟩, And.left⟩
    | eq =>
      rw [horder] at hswap
      cases hincl : b.inclusive with
      | true =>
        have hkept : cur.Meets u → b.Meets u := .of_eq horder fun _ => hincl
        simp only [raise, horder, hincl, Bool.not_true, Bool.false_eq_true, if_false,
          Option.mem_def, Option.some.injEq, forall_eq']
        exact ⟨fun h => ⟨h, hkept h⟩, And.left⟩
      | false =>
        have hreplaced : b.Meets u → cur.Meets u := by
          refine .of_eq hswap fun h => ?_
          rw [hincl] at h
          exact absurd h (by decide)
        simp only [raise, horder, hincl, Bool.not_false, if_true, Option.mem_def,
          Option.some.injEq, forall_eq']
        exact ⟨fun h => ⟨hreplaced h, h⟩, And.right⟩
    | gt =>
      rw [horder] at hswap
      have hreplaced : b.Meets u → cur.Meets u := .of_lt hswap
      simp only [raise, horder, if_true, Option.mem_def, Option.some.injEq, forall_eq']
      exact ⟨fun h => ⟨hreplaced h, h⟩, And.right⟩

theorem forall_upper_cap (i : Interval) (b l : Bound) :
    (∀ u ∈ (i.cap b).upper, l.Meets u) ↔ (∀ u ∈ i.upper, l.Meets u) ∧ l.Meets b := by
  obtain ⟨lower, upper⟩ := i
  cases upper with
  | none => simp [cap]
  | some cur =>
    have hswap : cur.version.orderWithoutBuild b.version =
        (b.version.orderWithoutBuild cur.version).swap := Std.OrientedCmp.eq_swap
    cases horder : b.version.orderWithoutBuild cur.version with
    | lt =>
      have hreplaced : l.Meets b → l.Meets cur := fun h => h.trans_lt horder
      simp only [cap, horder, if_true, Option.mem_def, Option.some.injEq, forall_eq']
      exact ⟨fun h => ⟨hreplaced h, h⟩, And.right⟩
    | eq =>
      rw [horder] at hswap
      cases hincl : b.inclusive with
      | true =>
        have hkept : l.Meets cur → l.Meets b := fun h => h.trans_eq hswap fun _ => hincl
        simp only [cap, horder, hincl, Bool.not_true, Bool.false_eq_true, if_false,
          Option.mem_def, Option.some.injEq, forall_eq']
        exact ⟨fun h => ⟨h, hkept h⟩, And.left⟩
      | false =>
        have hreplaced : l.Meets b → l.Meets cur := by
          refine fun h => h.trans_eq horder fun hb => ?_
          rw [hincl] at hb
          exact absurd hb (by decide)
        simp only [cap, horder, hincl, Bool.not_false, if_true, Option.mem_def,
          Option.some.injEq, forall_eq']
        exact ⟨fun h => ⟨hreplaced h, h⟩, And.right⟩
    | gt =>
      rw [horder] at hswap
      have hkept : l.Meets cur → l.Meets b := fun h => h.trans_lt hswap
      simp only [cap, horder, Bool.false_eq_true, if_false, Option.mem_def,
        Option.some.injEq, forall_eq']
      exact ⟨fun h => ⟨h, hkept h⟩, And.left⟩

/-- The bounds of an interval stand for those of some comparators. -/
structure Narrowed (i : Interval) (cs : List Comparator) : Prop where
  lower : ∀ u : Bound, (∀ l ∈ i.lower, l.Meets u) ↔ ∀ c ∈ cs, ∀ l ∈ c.lower, l.Meets u
  upper : ∀ l : Bound, (∀ u ∈ i.upper, l.Meets u) ↔ ∀ c ∈ cs, ∀ u ∈ c.upper, l.Meets u

theorem Narrowed.nil : Narrowed {} [] where
  lower u := by simp
  upper l := by simp

@[simp]
theorem upper_raise (i : Interval) (b : Bound) : (i.raise b).upper = i.upper := by
  rw [raise, apply_ite Interval.upper, ite_self]

@[simp]
theorem lower_cap (i : Interval) (b : Bound) : (i.cap b).lower = i.lower := by
  rw [cap, apply_ite Interval.lower, ite_self]

theorem forall_lower_narrow (i : Interval) (c : Comparator) (u : Bound) :
    (∀ l ∈ (i.narrow c).lower, l.Meets u) ↔
      (∀ l ∈ i.lower, l.Meets u) ∧ ∀ l ∈ c.lower, l.Meets u := by
  obtain ⟨op, version⟩ := c
  cases op with
  | unset | lt | lte => simp [narrow, Comparator.lower]
  | eql | gt | gte =>
    simp only [narrow, Comparator.lower, lower_cap, forall_lower_raise]
    simp

theorem forall_upper_narrow (i : Interval) (c : Comparator) (l : Bound) :
    (∀ u ∈ (i.narrow c).upper, l.Meets u) ↔
      (∀ u ∈ i.upper, l.Meets u) ∧ ∀ u ∈ c.upper, l.Meets u := by
  obtain ⟨op, version⟩ := c
  cases op with
  | unset | gt | gte => simp [narrow, Comparator.upper]
  | eql | lt | lte =>
    simp only [narrow, Comparator.upper, upper_raise, forall_upper_cap]
    simp

theorem Narrowed.narrow {cs : List Comparator} (h : i.Narrowed cs) (c : Comparator) :
    (i.narrow c).Narrowed (cs ++ [c]) where
  lower u := by
    rw [forall_lower_narrow, h.lower, List.forall_mem_append, List.forall_mem_singleton]
  upper l := by
    rw [forall_upper_narrow, h.upper, List.forall_mem_append, List.forall_mem_singleton]

theorem Narrowed.foldl {cs : List Comparator} (h : i.Narrowed cs) (ds : List Comparator) :
    (ds.foldl Interval.narrow i).Narrowed (cs ++ ds) := by
  induction ds generalizing i cs with
  | nil => rwa [List.append_nil]
  | cons d ds ih =>
    have hall := ih (h.narrow d)
    rwa [List.append_assoc] at hall

theorem isNonEmpty_eq (i : Interval) :
    i.isNonEmpty = true ↔ ∀ l ∈ i.lower, ∀ u ∈ i.upper, l.Meets u := by
  obtain ⟨lower, upper⟩ := i
  rw [isNonEmpty]
  cases lower with
  | none => simp
  | some l =>
    cases upper with
    | none => simp
    | some u =>
      simp only [Option.mem_def, Option.some.injEq, forall_eq', Bound.Meets]
      cases l.version.orderWithoutBuild u.version with
      | lt => simp
      | eq => simp
      | gt => simp

/-- An interval is non-empty where its comparators leave room. -/
theorem Narrowed.isNonEmpty_iff {cs : List Comparator} (h : i.Narrowed cs) :
    i.isNonEmpty = true ↔ Comparator.Room cs := by
  rw [isNonEmpty_eq]
  constructor
  · intro hmeets c hc d hd l hl u hu
    refine (h.lower u).mp (fun l' hl' => ?_) c hc l hl
    exact (h.upper l').mp (hmeets l' hl') d hd u hu
  · intro hroom l hl u hu
    refine (h.lower u).mpr (fun c hc l' hl' => ?_) l hl
    exact (h.upper l').mpr (fun d hd u' hu' => hroom c hc d hd l' hl' u' hu') u hu

end Interval

/-! ## Groups -/

/-- The comparators of an alternative. -/
def Query.comparators (q : Query) : List Comparator :=
  (q.range :: q.next).flatMap fun r => [r.left, r.right]

theorem Interval.andQuery_eq (i : Interval) (q : Query) :
    i.andQuery q = q.comparators.foldl Interval.narrow i := by
  rw [andQuery, Query.comparators, List.foldl_flatMap]
  rfl

theorem Group.intersects_iff (a b : Group) :
    a.intersects b = true ↔ ∃ p ∈ a.head :: a.next, ∃ q ∈ b.head :: b.next,
      Comparator.Room (p.comparators ++ q.comparators) := by
  have hbase (p : Query) : (Interval.andQuery {} p).Narrowed p.comparators := by
    rw [Interval.andQuery_eq]
    exact Interval.Narrowed.nil.foldl p.comparators
  have hboth (p q : Query) :
      ((Interval.andQuery {} p).andQuery q).Narrowed (p.comparators ++ q.comparators) := by
    rw [Interval.andQuery_eq (Interval.andQuery {} p)]
    exact (hbase p).foldl q.comparators
  simp only [intersects, List.any_eq_true, Bool.and_eq_true, (hbase _).isNonEmpty_iff,
    (hboth _ _).isNonEmpty_iff]
  constructor
  · rintro ⟨p, hp, -, q, hq, hroom⟩
    exact ⟨p, hp, q, hq, hroom⟩
  · rintro ⟨p, hp, q, hq, hroom⟩
    exact ⟨p, hp, hroom.mono fun c hc => List.mem_append_left _ hc, q, hq, hroom⟩

/-- A right side comes with a left one. -/
def Range.Sided (r : Range) : Prop := r.hasRight → r.hasLeft

theorem Query.satisfies_comparators {q : Query} {version : Version}
    (hsided : ∀ r ∈ q.range :: q.next, r.Sided) (h : q.satisfies version = true) :
    ∀ c ∈ q.comparators, c.op ≠ .unset → c.satisfies version := by
  intro c hc hset
  obtain ⟨r, hr, hside⟩ := List.mem_flatMap.mp hc
  have hsat := List.all_eq_true.mp h r hr
  have hleft : r.hasLeft = true := by
    rcases List.mem_pair.mp hside with rfl | rfl
    · exact decide_eq_true hset
    · exact hsided r hr (decide_eq_true hset)
  rw [Range.satisfies, hleft] at hsat
  rcases List.mem_pair.mp hside with rfl | rfl
  · by_contra hno
    rw [Bool.not_eq_true] at hno
    simp [hno] at hsat
  · have hright : r.hasRight = true := decide_eq_true hset
    by_contra hno
    rw [Bool.not_eq_true] at hno
    simp [hno, hright] at hsat

/-! ## Parsed ranges -/

@[simp]
theorem Range.sided_of_left {left right : Comparator} (h : left.op ≠ .unset) :
    Range.Sided ⟨left, right⟩ := fun _ => decide_eq_true h

theorem sided_default : Range.Sided default := fun h => absurd h (by decide)

theorem sided_toRange (token : Token) (version : PartialVersion) :
    (token.toRange version).Sided := by
  cases hleft : (token.toRange version).hasLeft with
  | true => exact fun _ => hleft
  | false =>
    rw [toRange_eq_default hleft]
    exact sided_default

namespace QueryState
variable (hash : List UInt8 → UInt64) {s : QueryState}

theorem sided_hyphenRange (version : Version) (second : ParseResult) :
    (hyphenRange version second).Sided := by
  rw [hyphenRange]
  split <;> exact Range.sided_of_left (fun h => Op.noConfusion h)

theorem sided_join {list : Group} (h : list.Each Range.Sided) (parsed : ParseResult) :
    (s.join parsed list).Each Range.Sided := by
  rw [join]
  split_ifs
  · split
    · exact h.orVersion (Range.sided_of_left (fun h => Op.noConfusion h)) fun r _ => Range.sided_of_left (fun h => Op.noConfusion h)
    · exact h.orRange (sided_toRange _ _)
  · exact h.andRange (sided_toRange _ _)
  · exact h.orRange (sided_toRange _ _)
  · exact h.andRange (sided_toRange _ _)

theorem sided_round (h : s.list.Each Range.Sided) (rest : List UInt8) :
    (s.round hash rest).2.list.Each Range.Sided := by
  rw [round]
  dsimp only
  split
  next rest' _ =>
    rw [close]
    split
    · exact Group.Each.orRange h (sided_hyphenRange _ _)
    · exact Group.Each.andRange h (sided_hyphenRange _ _)
  next =>
    split
    · exact h
    · exact @sided_join s (s.list.note _) h _

theorem sided_turn (h : s.list.Each Range.Sided) (c : UInt8) (cs : List UInt8) :
    (s.turn hash c cs).2.list.Each Range.Sided := by
  have hlist := (s.lexed_lex c cs).list
  rw [turn]
  split
  next hlex =>
    rw [hlex] at hlist
    exact hlist ▸ h
  next hlex =>
    rw [hlex] at hlist
    exact sided_round hash (hlist ▸ h) _

theorem sided_run (h : s.list.Each Range.Sided) (input : List UInt8) :
    (s.run hash input).list.Each Range.Sided := by
  induction input using (measure List.length).wf.induction generalizing s with
  | h input ih =>
    cases input with
    | nil => rwa [run]
    | cons c cs =>
      rw [run]
      exact ih _ (s.turn_length hash c cs) (sided_turn hash h c cs)

end QueryState

theorem parseQuery_sided (hash : List UInt8 → UInt64) (input : List UInt8) :
    (parseQuery hash input).Each Range.Sided := by
  refine QueryState.sided_run hash ?_ input
  intro q hq r hr
  obtain rfl := List.mem_singleton.mp hq
  obtain rfl := List.mem_singleton.mp hr
  exact sided_default

/-- **Overlaps**: two parsed groups that a version satisfies intersect, and it does not matter
which of two groups is asked. -/
theorem intersects_spec :
    (∀ (hash : List UInt8 → UInt64) (input input' : List UInt8) (version : Version),
      (parseQuery hash input).satisfiesIncludingPrerelease version = true →
      (parseQuery hash input').satisfiesIncludingPrerelease version = true →
      (parseQuery hash input).intersects (parseQuery hash input') = true) ∧
    ∀ a b : Group, a.intersects b = b.intersects a := by
  refine ⟨fun hash input input' version h h' => ?_, fun a b => ?_⟩
  · obtain ⟨p, hp, hsat⟩ := List.any_eq_true.mp h
    obtain ⟨q, hq, hsat'⟩ := List.any_eq_true.mp h'
    have hall := Query.satisfies_comparators (parseQuery_sided hash input p hp) hsat
    have hall' := Query.satisfies_comparators (parseQuery_sided hash input' q hq) hsat'
    refine (Group.intersects_iff _ _).mpr ⟨p, hp, q, hq, ?_⟩
    exact Comparator.room_of_satisfies (List.forall_mem_append.mpr ⟨hall, hall'⟩)
  · have hswap (a b : Group) (h : a.intersects b = true) : b.intersects a = true := by
      obtain ⟨p, hp, q, hq, hroom⟩ := (Group.intersects_iff a b).mp h
      refine (Group.intersects_iff b a).mpr ⟨q, hq, p, hp, hroom.mono fun c hc => ?_⟩
      exact List.mem_append.mpr (List.mem_append.mp hc).symm
    exact Bool.eq_iff_iff.mpr ⟨hswap a b, hswap b a⟩

/-- `1` and `^1.2.0`, and `1.2.0`. -/
theorem intersects_spec_caret :
    (parseQuery (fun _ => 0) [49]).intersects
      (parseQuery (fun _ => 0) [94, 49, 46, 50, 46, 48]) = true :=
  intersects_spec.1 (fun _ => 0) _ _ ⟨1, 2, 0, default⟩ (by with_unfolding_all decide)
    (by with_unfolding_all decide)

end OhosBun.Semver
