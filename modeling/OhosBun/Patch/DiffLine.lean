/-
# `OhosBun.Patch.DiffLine` — the two names of a diff line

The scan takes the first ` b/` for the border of the names.  It is the one between them when the path
has none (`FilePath.border_diffNames`).
-/
import OhosBun.Patch.ParseLines

namespace OhosBun.Patch

open OhosBun.Lib

/-- ` b/` -/
def border : Bytes := [32, 98, 47]

section Scan
variable {rest before after : Bytes}

theorem prefix_border {j : Nat} (h₀ : rest[j]? = some 32) (h₁ : rest[j + 1]? = some 98)
    (h₂ : rest[j + 2]? = some 47) : border <+: rest.drop j := by
  obtain ⟨hj₀, h₀⟩ := List.getElem?_eq_some_iff.mp h₀
  obtain ⟨hj₁, h₁⟩ := List.getElem?_eq_some_iff.mp h₁
  obtain ⟨hj₂, h₂⟩ := List.getElem?_eq_some_iff.mp h₂
  rw [List.drop_eq_getElem_cons hj₀, List.drop_eq_getElem_cons hj₁, List.drop_eq_getElem_cons hj₂, h₀, h₁, h₂]
  exact List.prefix_append border _

/-- The scan finds the first border, from any place before it. -/
theorem startOfBPart_first (hlt : (before ++ border ++ after).length < 2 ^ 32)
    (hfirst : ∀ j < before.length, ¬border <+: (before ++ border ++ after).drop j) {i : Nat}
    (hi : i ≤ before.length + 1) : startOfBPart (before ++ border ++ after) i = some (before.length + 1) := by
  have hget : ∀ k, (before ++ border ++ after)[before.length + k]? = (border ++ after)[k]? := fun k => by
    rw [List.append_assoc, List.getElem?_append_right (Nat.le_add_right _ _), Nat.add_sub_cancel_left]
  induction hn : before.length + 1 - i using Nat.strong_induction_on generalizing i with
  | _ n ih =>
    subst hn
    have hb : ((before ++ border ++ after).drop i)[before.length + 1 - i]? = some 98 := by
      rw [List.getElem?_drop, Nat.add_sub_cancel' hi, hget]
      rfl
    obtain ⟨hbound, hb⟩ := List.getElem?_eq_some_iff.mp hb
    obtain ⟨s, hs⟩ : ∃ s, ((before ++ border ++ after).drop i).findIdx? (· = 98) = some s := by
      rw [← Option.isSome_iff_exists, List.findIdx?_isSome, List.any_eq_true]
      exact ⟨98, List.mem_iff_getElem.mpr ⟨_, hbound, hb⟩, decide_eq_true rfl⟩
    obtain ⟨hslt, hs98, hmin⟩ := List.findIdx?_eq_some_iff_getElem.mp hs
    have hle : s ≤ before.length + 1 - i := by
      by_contra hgt
      exact hmin _ (Nat.lt_of_not_le hgt) (decide_eq_true hb)
    have hchar : indexOfChar ((before ++ border ++ after).drop i) 98 = some s := by
      rw [indexOfChar, hs, Option.map_some, Nat.mod_eq_of_lt]
      rw [List.length_drop] at hslt
      omega
    rw [startOfBPart]
    split
    · rename_i hnone
      exact absurd (hchar.symm.trans hnone) (by simp)
    · rename_i start hstart
      obtain rfl := Option.some.inj (hchar.symm.trans hstart)
      dsimp only
      by_cases hend : i + s = before.length + 1
      · rw [hend, if_pos]
        exact ⟨Nat.succ_pos _, (hget 0).trans rfl, (hget 2).trans rfl⟩
      · rw [if_neg, ih (before.length + 1 - (i + s + 1)) (by omega) (by omega) rfl]
        rintro ⟨hpos, h₀, h₂⟩
        have h₁ : (before ++ border ++ after)[i + s]? = some 98 := by
          rw [← List.getElem?_drop, List.getElem?_eq_getElem hslt, of_decide_eq_true hs98]
        refine hfirst (i + s - 1) (by omega) (prefix_border h₀ ?_ ?_)
        · rwa [Nat.sub_add_cancel hpos]
        · rwa [show i + s - 1 + 2 = i + s + 1 by omega]

end Scan

/-- Where the names of a diff line are parted. -/
structure FilePath.Border (path : FilePath) (before after : Bytes) : Prop where
  text : path.bytes ++ border ++ path.bytes = before ++ border ++ after
  first : ∀ j < before.length, ¬border <+: (before ++ border ++ after).drop j
  before_ne_nil : before ≠ []
  after_ne_nil : after ≠ []
  last : after.getLast? = path.bytes.getLast?
  before_eq_iff : before = path.bytes ↔ ¬border <:+: path.bytes
  after_eq_iff : after = path.bytes ↔ ¬border <:+: path.bytes

/-- The names that the diff line of a path gives: what is around the first border. -/
def FilePath.diffNames (path : FilePath) : Bytes × Bytes :=
  let rest := path.bytes ++ border ++ path.bytes
  let i := (findInfix? border rest).getD path.bytes.length
  (rest.take i, rest.drop (i + border.length))

theorem FilePath.border_diffNames (path : FilePath) : path.Border path.diffNames.1 path.diffNames.2 := by
  obtain ⟨k, hk, hfound⟩ := findInfix?_append path.bytes border path.bytes
  obtain ⟨before, after, htext, rfl, hfirst⟩ := findInfix?_eq_some hfound
  have hnames : path.diffNames = (before, after) := by
    rw [diffNames, hfound, Option.getD_some, htext, ← List.length_append, List.drop_left, List.append_assoc,
      List.take_left]
  rw [hnames]
  rw [htext] at hfirst
  have hget : ∀ k, (before ++ border ++ after)[before.length + k]? = (border ++ after)[k]? := fun k => by
    rw [List.append_assoc, List.getElem?_append_right (Nat.le_add_right _ _), Nat.add_sub_cancel_left]
  have hlength := congrArg List.length htext
  simp only [List.length_append] at hlength
  have hsuffix : path.bytes <:+ after := by
    have hsuffix : path.bytes <:+ before ++ border ++ after := htext ▸ List.suffix_append _ _
    refine List.suffix_of_suffix_length_le hsuffix (List.suffix_append _ _) ?_
    omega
  -- a border that is not the one between the names is in the first of them
  have hcase : before = path.bytes ∧ after = path.bytes ∨ border <:+: path.bytes ∧ before.length < path.bytes.length := by
    rcases Nat.lt_or_eq_of_le hk with hlt | heq
    · have hpath : ∀ i, before.length + i < path.bytes.length →
          path.bytes[before.length + i]? = (border ++ after)[i]? := fun i hi => by
        rw [← hget, ← htext, List.append_assoc, List.getElem?_append_left hi]
      have h₁ : before.length + 1 ≠ path.bytes.length := by
        intro heq
        have hlast := hpath 0 hlt
        refine path.last_not_whitespace 32 ?_ (by decide)
        rw [List.getLast?_eq_getElem?, ← heq]
        exact hlast
      have h₂ : before.length + 2 ≠ path.bytes.length := by
        intro heq
        have hborder := hget 2
        rw [← htext, heq, List.append_assoc, List.getElem?_append_right le_rfl, Nat.sub_self] at hborder
        exact absurd (Option.some.inj hborder : (32 : UInt8) = 47) (by decide)
      refine .inr ⟨?_, hlt⟩
      have hpre : border <+: path.bytes.drop before.length :=
        prefix_border (hpath 0 (by omega)) (hpath 1 (by omega)) (hpath 2 (by omega))
      exact hpre.isInfix.trans (List.drop_suffix _ _).isInfix
    · rw [List.append_assoc, List.append_assoc] at htext
      obtain ⟨hbefore, hrest⟩ := List.append_inj htext heq.symm
      exact .inl ⟨hbefore.symm, (List.append_cancel_left hrest).symm⟩
  have hnot : before = path.bytes → ¬border <:+: path.bytes := by
    rintro rfl ⟨x, y, hxy⟩
    have hlt : x.length < path.bytes.length := by
      rw [← hxy, List.length_append, List.length_append]
      exact Nat.lt_add_right _ (Nat.lt_add_of_pos_right (by decide))
    refine hfirst x.length hlt ?_
    rw [← hxy, List.append_assoc, List.append_assoc, List.append_assoc, List.drop_left]
    exact List.prefix_append _ _
  have hiff : before = path.bytes ↔ ¬border <:+: path.bytes := by
    refine ⟨hnot, fun hno => ?_⟩
    exact (hcase.resolve_right fun h => hno h.1).1
  refine ⟨htext, hfirst, ?_, ?_, ?_, hiff, ?_⟩
  · rintro rfl
    have hhead : ([] ++ border ++ after)[0]? = some 32 := hget 0
    rw [← htext, List.append_assoc, List.getElem?_append_left (List.length_pos_of_ne_nil path.ne_nil)] at hhead
    refine path.head_not_whitespace 32 ?_ (by decide)
    rw [List.head?_eq_getElem?]
    exact hhead
  · rintro rfl
    exact path.ne_nil (List.suffix_nil.mp hsuffix)
  · obtain ⟨t, rfl⟩ := hsuffix
    exact List.getLast?_append_of_ne_nil _ path.ne_nil
  · rw [← hiff]
    constructor
    · intro hafter
      by_contra hne
      obtain ⟨-, hlt⟩ := hcase.resolve_left fun h => hne h.1
      have hsame := congrArg List.length hafter
      dsimp only at hsame
      omega
    · intro hbefore
      exact (hcase.resolve_right fun h => hnot hbefore h.1).2

/-- The names that the diff line gives. -/
theorem parseDiffLinePaths_diffLine {f : GitFile} {before after : Bytes} (h : f.path.Border before after) :
    parseDiffLinePaths f.diffLine = some (before, after) := by
  have hopening : (ascii "diff --git a/").length = 13 := by decide
  have hborder : ascii " b/" = border := by decide
  have hpath := f.path.length_lt
  have hlt : (before ++ border ++ after).length < 2 ^ 32 := by
    have hlength : border.length = 3 := rfl
    rw [← h.text, List.length_append, List.length_append, hlength]
    omega
  have hrest : f.diffLine.drop 13 = before ++ border ++ after := by
    rw [GitFile.diffLine, ← hopening, List.drop_left, hborder, ← List.append_assoc]
    exact h.text
  have hlast : ∀ c ∈ after.getLast?, c ∉ whitespace := by
    rw [h.last]
    exact f.path.last_not_whitespace
  have hafter : (before ++ border ++ after).drop (before.length + 1 + 2) = after := by
    rw [List.append_assoc, Nat.add_assoc, List.drop_length_add_append]
    rfl
  have hpre : (ascii "diff --git a/").isPrefixOf f.diffLine = true :=
    List.isPrefixOf_iff_prefix.mpr (List.prefix_append _ _)
  rw [parseDiffLinePaths, if_pos hpre]
  dsimp only
  rw [hrest, startOfBPart_first hlt h.first (Nat.zero_le _), Option.map_some, hafter, trimRight_eq_self hlast,
    Nat.add_sub_cancel, List.append_assoc, List.take_left]

end OhosBun.Patch
