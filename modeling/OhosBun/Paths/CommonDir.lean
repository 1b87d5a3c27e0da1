/-
# `OhosBun.Paths.CommonDir` — which directory paths have in common

The longest directory that is a prefix of all paths, or is one of them without its last separator
(`IsLongestCommonDir`).  It is read off the longest common prefix: that and a separator, when every
path that goes on goes on with one (`GoesOn`), else what of it ends in its last separator.
-/
import OhosBun.Lib.Bytes
import Mathlib.Data.List.Infix

namespace OhosBun.Paths

open OhosBun.Lib

/-- A directory that paths have in common, with its separator; a path can be the directory. -/
structure IsCommonDir (input : List Bytes) (dir : Bytes) : Prop where
  ends : ∃ name, dir = name ++ [47]
  of_path : ∃ path ∈ input, dir <+: path
  all : ∀ path ∈ input, dir <+: path ∨ dir = path ++ [47]

structure IsLongestCommonDir (input : List Bytes) (dir : Bytes) : Prop extends IsCommonDir input dir where
  longest : ∀ dir', IsCommonDir input dir' → dir'.length ≤ dir.length

/-- The longest common prefix: a path ends where it ends, or two go on differently. -/
structure IsCommonPrefix (input : List Bytes) (p : Bytes) : Prop where
  all : ∀ path ∈ input, p <+: path
  stop : p ∈ input ∨ ∃ a ∈ input, ∃ b ∈ input, ∃ c d, c ≠ d ∧ p ++ [c] <+: a ∧ p ++ [d] <+: b

/-- A path goes on with a separator behind `p`, and none with anything else. -/
def GoesOn (input : List Bytes) (p : Bytes) : Prop :=
  (∃ path ∈ input, p ++ [47] <+: path) ∧ ∀ path ∈ input, path = p ∨ p ++ [47] <+: path

section Prefix
variable {input : List Bytes} {p q path dir : Bytes} {c d : UInt8}

theorem concat_prefix_inj (hc : p ++ [c] <+: path) (hd : p ++ [d] <+: path) : c = d := by
  have hpre := List.prefix_of_prefix_length_le hc hd (by rw [List.length_append, List.length_append]; rfl)
  have heq := hpre.eq_of_length (by rw [List.length_append, List.length_append]; rfl)
  exact List.singleton_inj.mp (List.append_cancel_left heq)

theorem concat_prefix_iff : p ++ [c] <+: path ↔ p <+: path ∧ path[p.length]? = some c := by
  constructor
  · rintro ⟨rest, rfl⟩
    refine ⟨(List.prefix_append p [c]).trans (List.prefix_append _ _), ?_⟩
    rw [List.append_assoc, List.getElem?_append_right le_rfl, Nat.sub_self]
    rfl
  · rintro ⟨⟨rest, rfl⟩, hc⟩
    rw [List.getElem?_append_right le_rfl, Nat.sub_self] at hc
    obtain ⟨rest, rfl⟩ : ∃ rest', rest = c :: rest' := by
      cases rest with
      | nil => exact absurd hc (by simp)
      | cons b rest => exact ⟨rest, by rw [Option.some.inj hc]⟩
    exact ⟨rest, by rw [List.append_assoc]; rfl⟩

theorem eq_of_prefix_of_getElem?_none (h : p <+: path) (hnone : path[p.length]? = none) : path = p := by
  exact (h.eq_of_length_le (List.getElem?_eq_none_iff.mp hnone)).symm

/-- Longer than `p`, and one more byte of it. -/
theorem exists_concat_prefix (h : p <+: q) (hne : q ≠ p) : ∃ c, p ++ [c] <+: q := by
  cases hc : q[p.length]? with
  | none => exact absurd (eq_of_prefix_of_getElem?_none h hc) hne
  | some c => exact ⟨c, concat_prefix_iff.2 ⟨h, hc⟩⟩

/-- Paths do not all go on with the same byte. -/
theorem IsCommonPrefix.not_all_concat (h : IsCommonPrefix input p) (c : UInt8) :
    ¬∀ path ∈ input, p ++ [c] <+: path := by
  intro hall
  rcases h.stop with hp | ⟨a, ha, b, hb, x, y, hne, hx, hy⟩
  · have hle := (hall p hp).length_le
    rw [List.length_append, List.length_singleton] at hle
    omega
  · exact hne ((concat_prefix_inj hx (hall a ha)).trans (concat_prefix_inj hy (hall b hb)).symm)

theorem IsCommonPrefix.prefix_of_all (h : IsCommonPrefix input p) (hne : input ≠ [])
    (hq : ∀ path ∈ input, q <+: path) : q <+: p := by
  obtain ⟨path, hpath⟩ := List.exists_mem_of_ne_nil _ hne
  rcases List.prefix_or_prefix_of_prefix (hq path hpath) (h.all path hpath) with hqp | hpq
  · exact hqp
  · by_cases heq : q = p
    · rw [heq]
    · obtain ⟨c, hc⟩ := exists_concat_prefix hpq heq
      exact absurd (fun b hb => hc.trans (hq b hb)) (h.not_all_concat c)

/-- A common directory is a prefix of the common prefix, or goes on behind it. -/
theorem IsCommonPrefix.dir_cases (h : IsCommonPrefix input p) (hdir : IsCommonDir input dir) :
    dir <+: p ∨ dir = p ++ [47] ∧ GoesOn input p := by
  obtain ⟨a, ha, hda⟩ := hdir.of_path
  by_cases hall : ∀ path ∈ input, dir <+: path
  · exact .inl (h.prefix_of_all (List.ne_nil_of_mem ha) hall)
  · simp only [not_forall, exists_prop] at hall
    obtain ⟨b, hb, hnot⟩ := hall
    obtain rfl := (hdir.all b hb).resolve_left hnot
    by_cases heq : b = p
    · subst heq
      refine .inr ⟨rfl, ⟨a, ha, hda⟩, fun path hpath => ?_⟩
      rcases hdir.all path hpath with hpre | hsame
      · exact .inr hpre
      · exact .inl (List.append_cancel_right hsame).symm
    · obtain ⟨c, hc⟩ := exists_concat_prefix (h.all b hb) heq
      refine absurd (fun path hpath => ?_) (h.not_all_concat c)
      rcases hdir.all path hpath with hpre | hsame
      · exact (hc.trans (List.prefix_append _ _)).trans hpre
      · rwa [← List.append_cancel_right hsame]

theorem IsCommonPrefix.longest_of_goesOn (h : IsCommonPrefix input p) (hgoes : GoesOn input p) :
    IsLongestCommonDir input (p ++ [47]) where
  ends := ⟨p, rfl⟩
  of_path := hgoes.1
  all path hpath := (hgoes.2 path hpath).elim (fun heq => .inr (by rw [heq])) .inl
  longest dir hdir := by
    rcases h.dir_cases hdir with hpre | ⟨rfl, -⟩
    · exact hpre.length_le.trans (by rw [List.length_append]; exact Nat.le_add_right _ _)
    · exact le_rfl

/-- The last separator of `p` is at `sep`. -/
def LastSep (p : Bytes) (sep : Nat) : Prop := p[sep]? = some 47 ∧ ∀ j, sep < j → p[j]? ≠ some 47

theorem IsCommonPrefix.longest_of_not_goesOn (h : IsCommonPrefix input p) (hne : input ≠ [])
    (hgoes : ¬GoesOn input p) {sep : Nat} (hsep : LastSep p sep) :
    IsLongestCommonDir input (p.take (sep + 1)) where
  ends := ⟨p.take sep, by rw [List.take_add_one, hsep.1]; rfl⟩
  of_path := by
    obtain ⟨path, hpath⟩ := List.exists_mem_of_ne_nil _ hne
    exact ⟨path, hpath, (List.take_prefix _ _).trans (h.all path hpath)⟩
  all path hpath := .inl ((List.take_prefix _ _).trans (h.all path hpath))
  longest dir hdir := by
    have hpre := (h.dir_cases hdir).resolve_right fun hgo => hgoes hgo.2
    obtain ⟨name, rfl⟩ := hdir.ends
    have hlt := (List.getElem?_eq_some_iff.mp hsep.1).1
    have hname := (concat_prefix_iff.1 hpre).2
    have hle : name.length ≤ sep := Nat.le_of_not_lt fun hlt => hsep.2 _ hlt hname
    rw [List.length_append, List.length_singleton, List.length_take]
    omega

end Prefix

end OhosBun.Paths
