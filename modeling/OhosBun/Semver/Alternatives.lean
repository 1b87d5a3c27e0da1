/-
# `OhosBun.Semver.Alternatives` — which comparators are ANDed

The alternatives of a range text are cut at `||`.  The parser cuts at more places:
also before a comparator that is bare or has `=`.  The pieces it makes are the
stretches of the text, and a version satisfies the query when it satisfies all of
one stretch.  Leading comparators that leave their range unset (`^x`, `~x`) are
overwritten by what comes next.
-/
import OhosBun.Semver.RangeText

namespace OhosBun.Semver

/-! ## Cutting a list -/

section Segments
variable {α : Type*}

/-- A list in pieces; a new piece starts at a flag. -/
def segments (a : α) : List (Bool × α) → List (List α)
  | [] => [[a]]
  | (true, b) :: rest => [a] :: segments b rest
  | (false, b) :: rest => (segments b rest).modifyHead (a :: ·)

/-- Some piece holds of `P` throughout; `now` is what the piece has so far. -/
def SomePiece (P : α → Prop) (now : Prop) : List (Bool × α) → Prop
  | [] => now
  | (true, b) :: rest => now ∨ SomePiece P (P b) rest
  | (false, b) :: rest => SomePiece P (now ∧ P b) rest

theorem segments_ne_nil (a : α) (rest : List (Bool × α)) : segments a rest ≠ [] := by
  induction rest generalizing a with
  | nil => exact List.cons_ne_nil _ _
  | cons item rest ih =>
    obtain ⟨cut, b⟩ := item
    cases cut with
    | true => exact List.cons_ne_nil _ _
    | false =>
      obtain ⟨first, others, hsegments⟩ := List.exists_cons_of_ne_nil (ih b)
      rw [segments, hsegments]
      exact List.cons_ne_nil _ _

theorem somePiece_iff {P : α → Prop} (rest : List (Bool × α)) :
    ∀ (a : α) (before : Prop) (first : List α) (others : List (List α)),
      segments a rest = first :: others →
      (SomePiece P (before ∧ P a) rest ↔
        (before ∧ ∀ b ∈ first, P b) ∨ ∃ piece ∈ others, ∀ b ∈ piece, P b) := by
  induction rest with
  | nil =>
    intro a before first others hsegments
    obtain ⟨rfl, rfl⟩ := List.cons.inj hsegments
    simp [SomePiece]
  | cons item rest ih =>
    intro a before first others hsegments
    obtain ⟨cut, b⟩ := item
    obtain ⟨first', others', hrest⟩ := List.exists_cons_of_ne_nil (segments_ne_nil b rest)
    cases cut with
    | true =>
      rw [segments, hrest] at hsegments
      obtain ⟨rfl, rfl⟩ := List.cons.inj hsegments
      have hb := ih b True first' others' hrest
      rw [true_and, true_and] at hb
      rw [SomePiece, hb]
      simp
    | false =>
      rw [segments, hrest, List.modifyHead_cons] at hsegments
      obtain ⟨rfl, rfl⟩ := List.cons.inj hsegments
      rw [SomePiece, ih b (before ∧ P a) first' others' hrest]
      simp [and_assoc]

/-- The pieces of a list. -/
theorem somePiece_segments {P : α → Prop} (a : α) (rest : List (Bool × α)) :
    SomePiece P (P a) rest ↔ ∃ piece ∈ segments a rest, ∀ b ∈ piece, P b := by
  obtain ⟨first, others, hsegments⟩ := List.exists_cons_of_ne_nil (segments_ne_nil a rest)
  have h := somePiece_iff (P := P) rest a True first others hsegments
  rw [true_and, true_and] at h
  rw [h, hsegments, List.exists_mem_cons_iff]

/-- More cuts make it weaker. -/
theorem SomePiece.mono {P : α → Prop} {β : Type*} (f : β → α) (cut cut' : β → Bool)
    (hcut : ∀ b, cut b = true → cut' b = true) (rest : List β) :
    ∀ {now now' : Prop}, (now → now') → SomePiece P now (rest.map fun b => (cut b, f b)) →
      SomePiece P now' (rest.map fun b => (cut' b, f b)) := by
  induction rest with
  | nil => exact fun hnow h => hnow h
  | cons b rest ih =>
    intro now now' hnow h
    rw [List.map_cons] at h ⊢
    cases hb : cut b with
    | true =>
      rw [hb, SomePiece] at h
      rw [hcut b hb, SomePiece]
      rcases h with h | h
      · exact .inl (hnow h)
      · exact .inr (ih id h)
    | false =>
      rw [hb, SomePiece] at h
      cases hb' : cut' b with
      | true => exact .inr (ih And.right h)
      | false => exact ih (And.imp_left hnow) h

end Segments

/-! ## The group -/

namespace Group

/-- The OR chain. -/
def queries (g : Group) : List Query := g.head :: g.next

/-- Nothing in it but an unset range. -/
def isBlank (g : Group) : Bool := g.next.isEmpty && g.head.next.isEmpty && !g.head.range.hasLeft

theorem satisfies_iff {g : Group} {v : Version} (hv : v.tag.hasPre = false) :
    g.satisfies v = true ↔ ∃ q ∈ g.queries, q.satisfies v = true := by
  rw [Group.satisfies, if_neg (by simp [hv]), List.any_eq_true]
  rfl

theorem queries_orRange {g : Group} (hg : g.isBlank = false) (range : Range) :
    (g.orRange range).queries = g.queries ++ [⟨range, []⟩] := by
  have hcond : ¬ (g.next.isEmpty && g.head.next.isEmpty && !g.head.range.hasLeft) = true := by
    rw [show (g.next.isEmpty && g.head.next.isEmpty && !g.head.range.hasLeft) = false from hg]
    exact Bool.false_ne_true
  rw [orRange, if_neg hcond]
  rfl

theorem queries_andRange {g : Group} {others : List Query} {last : Query}
    (hg : g.queries = others ++ [last]) (range : Range) :
    (g.andRange range).queries = others ++ [last.andRange range] := by
  obtain ⟨head, next, pre, build⟩ := g
  unfold andRange
  cases others with
  | nil =>
    obtain ⟨rfl, rfl⟩ : head = last ∧ next = [] := by simpa [queries] using hg
    rfl
  | cons q others =>
    obtain ⟨rfl, rfl⟩ : head = q ∧ next = others ++ [last] := by simpa [queries] using hg
    simp [queries]

theorem isBlank_orRange {g : Group} (hg : g.isBlank = false) (range : Range) :
    (g.orRange range).isBlank = false := by
  have hqueries := queries_orRange hg range
  have hnext : (g.orRange range).next = g.next ++ [⟨range, []⟩] := (List.cons.inj hqueries).2
  rw [isBlank, hnext]
  simp

theorem isBlank_andRange {g : Group} (hg : g.isBlank = false) (range : Range) :
    (g.andRange range).isBlank = false := by
  obtain ⟨head, next, pre, build⟩ := g
  unfold andRange
  split
  · next hlast =>
      obtain rfl : next = [] := List.getLast?_eq_none_iff.mp hlast
      unfold Query.andRange
      split_ifs with hunset
      · -- the head is unset, so its chain is not empty
        have hleft : head.range.hasLeft = false := by simpa using (Bool.and_eq_true_iff.mp hunset).1
        have hchain : head.next.isEmpty = false := by simpa [isBlank, hleft] using hg
        simp [isBlank, hchain]
      · simp [isBlank]
  · simp [isBlank]

end Group

theorem Query.satisfies_iff {q : Query} {v : Version} :
    q.satisfies v = true ↔ q.range.satisfies v = true ∧ ∀ r ∈ q.next, r.satisfies v = true := by
  rw [Query.satisfies, List.all_eq_true, List.forall_mem_cons]

/-- An unset range is satisfied by all. -/
theorem Range.satisfies_of_unset {r : Range} {v : Version} (h : r.hasLeft = false) :
    r.satisfies v = true := by
  rw [Range.satisfies, h]
  rfl

/-- A range that is ANDed. -/
theorem Query.satisfies_andRange {q : Query} {range : Range} {v : Version} :
    (q.andRange range).satisfies v = true ↔ q.satisfies v = true ∧ range.satisfies v = true := by
  unfold Query.andRange
  split_ifs with hunset
  · have hleft : q.range.hasLeft = false := by simpa using (Bool.and_eq_true_iff.mp hunset).1
    rw [Query.satisfies_iff, Query.satisfies_iff, Range.satisfies_of_unset hleft]
    exact ⟨fun h => ⟨⟨rfl, h.2⟩, h.1⟩, fun h => ⟨h.2, h.1.2⟩⟩
  · rw [Query.satisfies_iff, Query.satisfies_iff]
    simp only [List.forall_mem_append, List.forall_mem_singleton]
    exact and_assoc.symm

section Fold
variable (hash : List UInt8 → UInt64) {v : Version}

/-- The version is in the comparator's range. -/
def Comp.Holds (v : Version) (c : Comp) : Prop := (c.range hash).satisfies v = true

/-- Its range is unset, as for `^x` and `~x`. -/
def Comp.isUnset (c : Comp) : Bool := !(c.range hash).hasLeft

/-- The group that a list of comparators makes. -/
def pushAll (g : Group) (cuts : List (Bool × Comp)) : Group :=
  cuts.foldl (fun list item => item.2.push hash item.1 list) g

/-- A group with a query in it grows piece by piece. -/
theorem satisfies_pushAll (hv : v.tag.hasPre = false) (cuts : List (Bool × Comp)) :
    ∀ {g : Group} {others : List Query} {last : Query}, g.isBlank = false →
      g.queries = others ++ [last] →
      ((pushAll hash g cuts).satisfies v = true ↔ (∃ q ∈ others, q.satisfies v = true) ∨
        SomePiece (Comp.Holds hash v) (last.satisfies v = true) cuts) := by
  induction cuts with
  | nil =>
    intro g others last _ hqueries
    rw [pushAll, List.foldl_nil, Group.satisfies_iff hv, hqueries]
    simp [SomePiece, or_and_right, exists_or]
  | cons item cuts ih =>
    intro g others last hblank hqueries
    obtain ⟨cut, c⟩ := item
    cases cut with
    | true =>
      have hnew : ((⟨c.range hash, []⟩ : Query).satisfies v = true) = c.Holds hash v := by
        rw [Query.satisfies_iff]
        simp [Comp.Holds]
      have hpush := ih (Group.isBlank_orRange hblank (c.range hash))
        (Group.queries_orRange hblank (c.range hash))
      rw [hqueries, hnew] at hpush
      refine hpush.trans ?_
      rw [SomePiece]
      simp [or_assoc, or_and_right, exists_or]
    | false =>
      have hpush := ih (Group.isBlank_andRange hblank (c.range hash))
        (Group.queries_andRange hqueries (c.range hash))
      rw [Query.satisfies_andRange] at hpush
      exact hpush

theorem hasLeft_of_op {r : Range} (h : r.left.op ≠ .unset) : r.hasLeft = true := decide_eq_true h

theorem ltNextMajor_op (major : Nat) : (Comparator.ltNextMajor major).op ≠ .unset := by
  unfold Comparator.ltNextMajor
  split <;> exact fun h => absurd h (by simp)

theorem ltNextMinor_op (major minor : Nat) : (Comparator.ltNextMinor major minor).op ≠ .unset := by
  unfold Comparator.ltNextMinor
  split <;> exact fun h => absurd h (by simp)

theorem hasLeft_initWildcard (v : Version) (w : Wildcard) :
    (Range.initWildcard v w).hasLeft = true := by
  cases w with
  | none => rfl
  | major => rfl
  | minor => exact hasLeft_of_op (ltNextMajor_op _)
  | patch => exact hasLeft_of_op (ltNextMinor_op _ _)

theorem hasLeft_boundRange {op : Op} (hop : op ≠ .unset) (full : Nat) (v : PartialVersion)
    (w : Wildcard) : (boundRange op full v w).hasLeft = true := by
  cases w with
  | major => rfl
  | none => exact hasLeft_of_op hop
  | minor => exact hasLeft_of_op hop
  | patch => exact hasLeft_of_op hop

/-- Only `^x` and `~x` leave a side unset, and then both. -/
theorem toRange_eq_default {token : Token} {version : PartialVersion}
    (h : (token.toRange version).hasLeft = false) : token.toRange version = default := by
  obtain ⟨tag, wildcard⟩ := token
  have hno {r : Range} (hr : r.hasLeft = true) (hr' : r.hasLeft = false) : r = default :=
    absurd (hr.symm.trans hr') Bool.true_eq_false.mp
  cases tag with
  | none => rfl
  | caret =>
    simp only [Token.toRange, caretRange] at h ⊢
    split at h
    · rfl
    · exact hno rfl h
    · exact hno rfl h
    · exact hno rfl h
  | tilda =>
    simp only [Token.toRange, tildaRange] at h ⊢
    split at h
    · rfl
    · exact hno rfl h
    · exact hno rfl h
    · exact hno rfl h
  | version => exact hno (hasLeft_initWildcard _ _) h
  | lte => exact hno (hasLeft_boundRange (by decide) _ _ _) h
  | lt => exact hno (hasLeft_boundRange (by decide) _ _ _) h
  | gt => exact hno (hasLeft_boundRange (by decide) _ _ _) h
  | gte => exact hno (hasLeft_boundRange (by decide) _ _ _) h

/-- **The group from the start**: leading unset ranges are overwritten. -/
theorem satisfies_pushAll_default (hv : v.tag.hasPre = false) (cuts : List (Bool × Comp)) :
    (pushAll hash default cuts).satisfies v = true ↔
      match cuts.dropWhile fun item => item.2.isUnset hash with
      | [] => True
      | (_, c) :: cuts => SomePiece (Comp.Holds hash v) (c.Holds hash v) cuts := by
  induction cuts with
  | nil =>
    rw [pushAll, List.foldl_nil, Group.satisfies_iff hv, List.dropWhile_nil]
    simp only [iff_true]
    exact ⟨default, List.mem_cons_self, rfl⟩
  | cons item cuts ih =>
    obtain ⟨cut, c⟩ := item
    have hpush : pushAll hash default ((cut, c) :: cuts) =
        pushAll hash ⟨⟨c.range hash, []⟩, [], false, false⟩ cuts := by
      rw [pushAll, List.foldl_cons, c.push_default]
      rfl
    rw [hpush]
    cases hunset : c.isUnset hash with
    | true =>
      have hleft : (c.range hash).hasLeft = false := by simpa [Comp.isUnset] using hunset
      have hrange : c.range hash = default := toRange_eq_default hleft
      have hdrop : ((cut, c) :: cuts).dropWhile (fun item => item.2.isUnset hash) =
          cuts.dropWhile fun item => item.2.isUnset hash := List.dropWhile_cons_of_pos hunset
      rw [hrange, hdrop]
      exact ih
    | false =>
      have hblank : (⟨⟨c.range hash, []⟩, [], false, false⟩ : Group).isBlank = false := by
        simpa [Group.isBlank, Comp.isUnset] using hunset
      have hlast : ((⟨c.range hash, []⟩ : Query).satisfies v = true) = c.Holds hash v := by
        rw [Query.satisfies_iff]
        simp [Comp.Holds]
      have hqueries : (⟨⟨c.range hash, []⟩, [], false, false⟩ : Group).queries =
          [] ++ [⟨c.range hash, []⟩] := rfl
      rw [List.dropWhile_cons_of_neg (by simp [hunset]),
        satisfies_pushAll hash hv cuts hblank hqueries, hlast]
      simp

end Fold

/-! ## The text -/

namespace RangeText
variable (hash : List UInt8 → UInt64) (r : RangeText) {v : Version}

/-- The alternatives: the text is cut at `||`. -/
def alternatives : List (List Comp) :=
  segments r.first (r.rest.map fun item => (item.1.isOr, item.2))

/-- Where the parser cuts: also before a bare comparator. -/
def cuts : List (Bool × Comp) := r.rest.map fun item => (item.1.isOr || item.2.isBare, item.2)

/-- The stretches that the parser makes of the text, without its leading unset
ranges. -/
@[grind]
def stretches : List (List Comp) :=
  match ((true, r.first) :: r.cuts).dropWhile fun item => item.2.isUnset hash with
  | [] => [[]]
  | (_, c) :: cuts => segments c cuts

/-- **The meaning of a text**: a version satisfies the query when it satisfies every
comparator of a stretch. -/
theorem satisfies_parse (hv : v.tag.hasPre = false) :
    (parseQuery hash r.text).satisfies v = true ↔
      ∃ stretch ∈ r.stretches hash, ∀ c ∈ stretch, c.Holds hash v := by
  have hparse : parseQuery hash r.text = pushAll hash default ((true, r.first) :: r.cuts) := by
    rw [r.parse_text hash, pushAll, List.foldl_cons, r.first.push_default, cuts, List.foldl_map]
  rw [hparse, satisfies_pushAll_default hash hv, stretches]
  split
  · simp
  · exact somePiece_segments _ _

theorem satisfies_alone (hv : v.tag.hasPre = false) (c : Comp) :
    (parseQuery hash c.text).satisfies v = true ↔ c.Holds hash v := by
  rw [c.parseQuery_text hash, Group.satisfies_iff hv]
  simp [Group.queries, Query.satisfies_iff, Comp.Holds]

theorem holds_of_isUnset {c : Comp} (h : c.isUnset hash = true) : c.Holds hash v :=
  Range.satisfies_of_unset (by simpa [Comp.isUnset] using h)

variable {first : Comp} {major minor patch : Nat}

theorem stretches_of_set (h : first.isUnset hash = false) (leading trailing : Nat)
    (rest : List (Sep × Comp)) :
    stretches hash ⟨leading, first, rest, trailing⟩ =
      segments first (rest.map fun item => (item.1.isOr || item.2.isBare, item.2)) := by
  rw [stretches, List.dropWhile_cons_of_neg (by simp [h])]
  rfl

theorem stretches_of_unset (h : first.isUnset hash = true) (leading trailing : Nat) (sep : Sep) (c : Comp)
    (rest : List (Sep × Comp)) :
    stretches hash ⟨leading, first, (sep, c) :: rest, trailing⟩ =
      stretches hash ⟨leading, c, rest, trailing⟩ := by
  have hdrop : ((true, first) :: cuts ⟨leading, first, (sep, c) :: rest, trailing⟩).dropWhile
      (fun item => item.2.isUnset hash) =
        (cuts ⟨leading, first, (sep, c) :: rest, trailing⟩).dropWhile
          fun item => item.2.isUnset hash := List.dropWhile_cons_of_pos h
  rw [stretches, hdrop, cuts, List.map_cons]
  cases hc : c.isUnset hash with
  | true =>
    have hskip (cut : Bool) (rest : List (Bool × Comp)) :
        ((cut, c) :: rest).dropWhile (fun item => item.2.isUnset hash) =
          rest.dropWhile fun item => item.2.isUnset hash := List.dropWhile_cons_of_pos hc
    rw [hskip, stretches, hskip]
    rfl
  | false =>
    rw [stretches_of_set hash hc, List.dropWhile_cons_of_neg (by simp [hc])]

/-- A satisfied alternative has a satisfied stretch, unless the first alternative is
unset throughout. -/
theorem stretch_of_alternative (leading trailing : Nat) (rest : List (Sep × Comp)) :
    ∀ {first : Comp},
      (¬ ∀ a ∈ (alternatives ⟨leading, first, rest, trailing⟩).head?,
        ∀ c ∈ a, c.isUnset hash = true) →
      SomePiece (Comp.Holds hash v) (first.Holds hash v)
        (rest.map fun item => (item.1.isOr, item.2)) →
      ∃ stretch ∈ stretches hash ⟨leading, first, rest, trailing⟩,
        ∀ c ∈ stretch, c.Holds hash v := by
  induction rest with
  | nil =>
    intro first hset hpiece
    cases hfirst : first.isUnset hash with
    | true => exact absurd (by rintro a ⟨⟩ c hc; rwa [List.mem_singleton.mp hc]) hset
    | false =>
      rw [stretches_of_set hash hfirst]
      exact (somePiece_segments _ _).mp hpiece
  | cons item rest ih =>
    intro first hset hpiece
    obtain ⟨sep, c⟩ := item
    cases hfirst : first.isUnset hash with
    | false =>
      rw [stretches_of_set hash hfirst, ← somePiece_segments]
      exact SomePiece.mono (fun item : Sep × Comp => item.2) _ _
        (fun item h => by simp [h]) _ id hpiece
    | true =>
      rw [stretches_of_unset hash hfirst]
      obtain ⟨first', others, hsegments⟩ := List.exists_cons_of_ne_nil
        (segments_ne_nil c (rest.map fun item => (item.1.isOr, item.2)))
      cases hsep : sep.isOr with
      | true =>
        -- the first alternative is the first comparator alone
        refine absurd ?_ hset
        rw [alternatives, List.map_cons, hsep, segments]
        rintro a ⟨⟩ d hd
        rwa [List.mem_singleton.mp hd]
      | false =>
        rw [List.map_cons, hsep, SomePiece] at hpiece
        rw [alternatives, List.map_cons, hsep, segments, hsegments, List.modifyHead_cons] at hset
        refine ih (fun hunset => hset ?_) ?_
        · rw [alternatives, hsegments] at hunset
          rintro a ⟨⟩ d hd
          rcases List.mem_cons.mp hd with rfl | hd
          · exact hfirst
          · exact hunset first' rfl d hd
        · exact SomePiece.mono (fun item : Sep × Comp => item.2) _ _ (fun _ h => h) _ And.right
            hpiece

/-- Three numbers. -/
def numbers (major minor patch : Nat) : PartialText where
  parts := [decimal major, decimal minor, decimal patch]
  ne_nil := List.cons_ne_nil _ _
  length_le := le_rfl
  isPart := by
    have hpart (n : Nat) : IsPart (decimal n) := .inl ⟨decimal_ne_nil n, decimal_digits n⟩
    simp only [List.forall_mem_cons]
    exact ⟨hpart major, hpart minor, hpart patch, fun p hp => absurd hp (by simp)⟩

/-- `>=1.2.1 1.2.3` -/
def spaced : RangeText := ⟨0, ⟨some .gte, numbers 1 2 1⟩, [(.and 0, ⟨none, numbers 1 2 3⟩)], 0⟩

theorem parse_numbers (hmajor : major < 2 ^ 64) (hminor : minor < 2 ^ 64) (hpatch : patch < 2 ^ 64) :
    (Version.parse hash (numbers major minor patch).text).wildcard = .none ∧
      (Version.parse hash (numbers major minor patch).text).version =
        ⟨some major, some minor, some patch, default⟩ := by
  have htext : (numbers major minor patch).text =
      (SemVer.mk major minor patch none none hmajor hminor hpatch (by simp) (by simp)).text := by
    simp [numbers, PartialText.text, dotted, SemVer.text, preText, buildText]
  rw [htext, SemVer.parse_text]
  exact ⟨rfl, rfl⟩

theorem range_gte (hmajor : major < 2 ^ 64) (hminor : minor < 2 ^ 64) (hpatch : patch < 2 ^ 64) :
    Comp.range hash ⟨some .gte, numbers major minor patch⟩ =
      Range.single .gte ⟨major, minor, patch, default⟩ := by
  obtain ⟨hwildcard, hversion⟩ := parse_numbers hash hmajor hminor hpatch
  rw [Comp.range, hwildcard, hversion]
  rfl

theorem range_bare (hmajor : major < 2 ^ 64) (hminor : minor < 2 ^ 64) (hpatch : patch < 2 ^ 64) :
    Comp.range hash ⟨none, numbers major minor patch⟩ =
      Range.single .eql ⟨major, minor, patch, default⟩ := by
  obtain ⟨hwildcard, hversion⟩ := parse_numbers hash hmajor hminor hpatch
  rw [Comp.range, hwildcard, hversion]
  rfl

end RangeText

end OhosBun.Semver
