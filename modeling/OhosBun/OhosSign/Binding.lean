/-
# `OhosBun.OhosSign.Binding` — the root of the hash tree binds the pages

A hash has 32 bytes, so no hash is injective on all pages.  What binds a file is that there is no
collision among the pages that are hashed on the way to its root (`hashedPages`): two files of one
length then have the same root just when they agree outside the skipped pages (`rootHash_eq_iff`).

The tree of two files of one length has one shape, so a level of the one is read off the next level
together with that of the other (`nextLevel_inj`, `fold_inj`).
-/
import Mathlib.Data.List.Flatten
import Mathlib.Data.Set.Function
import OhosBun.OhosSign.Merkle

namespace OhosBun.OhosSign.Merkle

open OhosBun.Lib

/-! ## Pages -/

theorem page_inj {bs bs' : Bytes} (hlen : bs.length = bs'.length) (h : page bs = page bs') :
    bs = bs' := by
  rw [page, page, hlen] at h
  exact List.append_cancel_right h

variable {cur cur' : List Bytes} {data : Bytes} {csOff csLen i : Nat}

/-- Hashes are read back from their page. -/
theorem flatten_inj (hcur : ∀ h ∈ cur, h.length = H) (hcur' : ∀ h ∈ cur', h.length = H)
    (hlen : cur.length = cur'.length) (h : cur.flatten = cur'.flatten) : cur = cur' := by
  have hlengths : ∀ {l : List Bytes}, (∀ h ∈ l, h.length = H) →
      l.map List.length = List.replicate l.length H := fun hl =>
    List.map_eq_replicate_iff.mpr hl
  refine List.eq_iff_flatten_eq.mpr ⟨h, ?_⟩
  rw [hlengths hcur, hlengths hcur', hlen]

theorem length_flatten (hcur : ∀ h ∈ cur, h.length = H) :
    cur.flatten.length = cur.length * H := by
  rw [List.length_flatten, List.map_eq_replicate_iff.mpr hcur, List.sum_replicate_nat]

/-! ## Levels -/

/-- The hashes that go into one page of the next level. -/
def group (cur : List Bytes) (i : Nat) : List Bytes := (cur.drop (i * PAGE / H)).take (PAGE / H)

/-- The pages of a level. -/
def levelPages (cur : List Bytes) : List Bytes :=
  (List.range ((cur.length * H + PAGE - 1) / PAGE)).map fun i => page (group cur i).flatten

theorem nextLevel_eq (cur : List Bytes) : nextLevel cur = (levelPages cur).map Sha256.hash := by
  rw [levelPages, List.map_map]
  rfl

/-- The pages that are hashed when a level is folded. -/
def foldPages (cur : List Bytes) : List Bytes :=
  if cur.length * H ≤ PAGE then [page cur.flatten]
  else levelPages cur ++ foldPages (nextLevel cur)
termination_by cur.length
decreasing_by
  simp only [nextLevel, List.length_map, List.length_range, H, PAGE] at *
  omega

theorem length_nextLevel (cur : List Bytes) :
    (nextLevel cur).length = (cur.length * H + PAGE - 1) / PAGE := by
  rw [nextLevel, List.length_map, List.length_range]

theorem length_of_mem_nextLevel : ∀ h ∈ nextLevel cur, h.length = H := by
  intro h hmem
  rw [nextLevel_eq] at hmem
  obtain ⟨bs, -, rfl⟩ := List.mem_map.mp hmem
  exact Sha256.length_hash bs

section Level
variable {cur cur' : List Bytes} (hcur : ∀ h ∈ cur, h.length = H)
  (hcur' : ∀ h ∈ cur', h.length = H) (hlen : cur.length = cur'.length)
include hcur hcur' hlen

/-- Every hash of a level is in one of its pages. -/
theorem levelPages_inj (h : levelPages cur = levelPages cur') : cur = cur' := by
  refine List.ext_getElem? fun j => ?_
  rcases Nat.lt_or_ge j cur.length with hj | hj
  · have hi : j / 128 < (cur.length * H + PAGE - 1) / PAGE := by
      simp only [H, PAGE]
      omega
    have hpage := congrArg (fun l => l[j / 128]?) h
    simp only [levelPages, ← hlen, List.getElem?_map, List.getElem?_range hi, Option.map_some,
      Option.some.injEq] at hpage
    have hmem : ∀ {l : List Bytes}, (∀ h ∈ l, h.length = H) → ∀ h ∈ group l (j / 128), h.length = H :=
      fun hl h hmem => hl h (List.mem_of_mem_drop (List.mem_of_mem_take hmem))
    have hgroup : (group cur (j / 128)).length = (group cur' (j / 128)).length := by
      rw [group, group, List.length_take, List.length_take, List.length_drop, List.length_drop, hlen]
    have hflat : (group cur (j / 128)).flatten = (group cur' (j / 128)).flatten := by
      refine page_inj ?_ hpage
      rw [length_flatten (hmem hcur), length_flatten (hmem hcur'), hgroup]
    have hsame := flatten_inj (hmem hcur) (hmem hcur') hgroup hflat
    have hget : ∀ l : List Bytes, (group l (j / 128))[j % 128]? = l[j]? := by
      intro l
      have hoff : j / 128 * PAGE / H + j % 128 = j := by
        simp only [H, PAGE]
        omega
      have hlt : j % 128 < PAGE / H := Nat.mod_lt j (by decide)
      rw [group, List.getElem?_take_of_lt hlt, List.getElem?_drop, hoff]
    rw [← hget, ← hget, hsame]
  · rw [List.getElem?_eq_none hj, List.getElem?_eq_none (hlen ▸ hj)]

theorem nextLevel_inj
    (hinj : Set.InjOn Sha256.hash {p | p ∈ levelPages cur ∨ p ∈ levelPages cur'})
    (h : nextLevel cur = nextLevel cur') : cur = cur' := by
  rw [nextLevel_eq, nextLevel_eq] at h
  refine levelPages_inj hcur hcur' hlen ?_
  refine List.ext_getElem? fun i => ?_
  have hi := congrArg (fun l => l[i]?) h
  simp only [List.getElem?_map] at hi
  cases hget : (levelPages cur)[i]? with
  | none =>
    rw [hget, Option.map_none] at hi
    exact (Option.map_eq_none_iff.mp hi.symm).symm
  | some p =>
    rw [hget, Option.map_some] at hi
    obtain ⟨p', hget', hhash⟩ := Option.map_eq_some_iff.mp hi.symm
    have hmem := List.mem_of_getElem? hget
    have hmem' := List.mem_of_getElem? hget'
    rw [hget', hinj (.inl hmem) (.inr hmem') hhash.symm]

end Level

/-! ## The tree -/

/-- **Folding**: without a collision among the hashed pages a level is read off its root. -/
theorem fold_inj (hcur : ∀ h ∈ cur, h.length = H) (hcur' : ∀ h ∈ cur', h.length = H)
    (hlen : cur.length = cur'.length)
    (hinj : Set.InjOn Sha256.hash {p | p ∈ foldPages cur ∨ p ∈ foldPages cur'})
    (h : fold cur = fold cur') : cur = cur' := by
  induction cur using fold.induct generalizing cur' with
  | case1 cur hfit =>
    have hfit' : cur'.length * H ≤ PAGE := hlen ▸ hfit
    rw [fold, if_pos hfit, fold, if_pos hfit'] at h
    rw [foldPages, if_pos hfit, foldPages, if_pos hfit'] at hinj
    refine flatten_inj hcur hcur' hlen (page_inj ?_ ?_)
    · rw [length_flatten hcur, length_flatten hcur', hlen]
    · exact hinj (.inl List.mem_cons_self) (.inr List.mem_cons_self) h
  | case2 cur hfit ih =>
    have hfit' : ¬ cur'.length * H ≤ PAGE := hlen ▸ hfit
    have hcount : (nextLevel cur).length = (nextLevel cur').length := by
      rw [length_nextLevel, length_nextLevel, hlen]
    have hpages : foldPages cur = levelPages cur ++ foldPages (nextLevel cur) := by
      rw [foldPages, if_neg hfit]
    have hpages' : foldPages cur' = levelPages cur' ++ foldPages (nextLevel cur') := by
      rw [foldPages, if_neg hfit']
    rw [fold, if_neg hfit] at h
    nth_rewrite 2 [fold] at h
    rw [if_neg hfit'] at h
    rw [hpages, hpages'] at hinj
    refine nextLevel_inj hcur hcur' hlen (hinj.mono ?_)
      (ih length_of_mem_nextLevel length_of_mem_nextLevel hcount (hinj.mono ?_) h)
    · rintro p (hp | hp)
      · exact .inl (List.mem_append_left _ hp)
      · exact .inr (List.mem_append_left _ hp)
    · rintro p (hp | hp)
      · exact .inl (List.mem_append_right _ hp)
      · exact .inr (List.mem_append_right _ hp)

/-! ## The root -/

/-- A page that counts as zero. -/
def Skipped (csOff csLen i : Nat) : Prop :=
  csLen > 0 ∧ csPageBegin csOff ≤ i ∧ i < csPageEnd csOff csLen

instance (csOff csLen i : Nat) : Decidable (Skipped csOff csLen i) :=
  inferInstanceAs (Decidable (_ ∧ _ ∧ _))

def pageAt (data : Bytes) (i : Nat) : Bytes :=
  page (window data (i * PAGE) (min PAGE (data.length - i * PAGE)))

/-- The hashes of the pages of a file. -/
def bottomLevel (data : Bytes) (csOff csLen : Nat) : List Bytes :=
  (List.range ((data.length + PAGE - 1) / PAGE)).map (pageHash data csOff csLen)

/-- The pages that are hashed on the way to the root. -/
def hashedPages (data : Bytes) (csOff csLen : Nat) : List Bytes :=
  if data = [] then [List.replicate PAGE 0]
  else
    let indices := List.range ((data.length + PAGE - 1) / PAGE)
    let cur := bottomLevel data csOff csLen
    (indices.filter fun i => ¬ Skipped csOff csLen i).map (pageAt data) ++
      if cur.length = 1 then [] else foldPages cur

theorem pageHash_of_not_skipped (h : ¬ Skipped csOff csLen i) :
    pageHash data csOff csLen i = Sha256.hash (pageAt data i) :=
  if_neg h

theorem pageHash_of_skipped (h : Skipped csOff csLen i) :
    pageHash data csOff csLen i = List.replicate H 0 :=
  if_pos h

theorem length_of_mem_bottomLevel :
    ∀ h ∈ bottomLevel data csOff csLen, h.length = H := by
  intro h hmem
  obtain ⟨i, -, rfl⟩ := List.mem_map.mp hmem
  exact length_pageHash data csOff csLen i

section Root
variable {data data' : Bytes} {csOff csLen : Nat} (hlen : data.length = data'.length)
include hlen

theorem pageAt_eq_iff {i : Nat} :
    pageAt data i = pageAt data' i ↔ ∀ k, k / PAGE = i → data[k]? = data'[k]? := by
  constructor
  · rintro h k rfl
    rw [pageAt, pageAt, hlen] at h
    have hsize : (window data (k / PAGE * PAGE) (min PAGE (data'.length - k / PAGE * PAGE))).length =
        (window data' (k / PAGE * PAGE) (min PAGE (data'.length - k / PAGE * PAGE))).length := by
      simp only [window, List.length_take, List.length_drop, hlen]
    have hwindow := page_inj hsize h
    rcases Nat.lt_or_ge k data.length with hk | hk
    · have hget := congrArg (fun bs => bs[k % PAGE]?) hwindow
      have hsum : k / PAGE * PAGE + k % PAGE = k := Nat.div_add_mod' k PAGE
      have hmod : k % PAGE < PAGE := Nat.mod_lt k (by decide)
      have hlt : k % PAGE < min PAGE (data'.length - k / PAGE * PAGE) := by omega
      simp only [getElem?_window, if_pos hlt, hsum] at hget
      exact hget
    · rw [List.getElem?_eq_none hk, List.getElem?_eq_none (hlen ▸ hk)]
  · intro h
    rw [pageAt, pageAt, hlen]
    congr 1
    refine List.ext_getElem? fun j => ?_
    rw [getElem?_window, getElem?_window]
    split
    next hj =>
      refine h _ ?_
      simp only [PAGE] at hj ⊢
      omega
    next => rfl

theorem bottomLevel_eq_iff
    (hinj : Set.InjOn Sha256.hash
      {p | p ∈ hashedPages data csOff csLen ∨ p ∈ hashedPages data' csOff csLen}) :
    bottomLevel data csOff csLen = bottomLevel data' csOff csLen ↔
      ∀ k < data.length, ¬ Skipped csOff csLen (k / PAGE) → data[k]? = data'[k]? := by
  have hmem : ∀ {bs : Bytes} {i : Nat}, i * PAGE < bs.length → ¬ Skipped csOff csLen i →
      pageAt bs i ∈ hashedPages bs csOff csLen := by
    intro bs i hi hskip
    have hne : bs ≠ [] := by
      rintro rfl
      exact absurd hi (Nat.not_lt_zero _)
    have hrange : i ∈ List.range ((bs.length + PAGE - 1) / PAGE) := by
      rw [List.mem_range]
      simp only [PAGE] at hi ⊢
      omega
    rw [hashedPages, if_neg hne]
    refine List.mem_append_left _ (List.mem_map_of_mem ?_)
    exact List.mem_filter.mpr ⟨hrange, decide_eq_true hskip⟩
  constructor
  · intro h k hk hskip
    have hpos : k / PAGE * PAGE < data.length := (Nat.div_mul_le_self k PAGE).trans_lt hk
    have hrange : k / PAGE < (data.length + PAGE - 1) / PAGE := by
      simp only [PAGE]
      omega
    have hget := congrArg (fun l => l[k / PAGE]?) h
    simp only [bottomLevel, ← hlen, List.getElem?_map, List.getElem?_range hrange,
      Option.map_some, Option.some.injEq] at hget
    rw [pageHash_of_not_skipped hskip, pageHash_of_not_skipped hskip] at hget
    have hpage := hinj (.inl (hmem hpos hskip)) (.inr (hmem (hlen ▸ hpos) hskip)) hget
    exact (pageAt_eq_iff hlen).mp hpage k rfl
  · intro h
    rw [bottomLevel, bottomLevel, hlen]
    refine List.map_congr_left fun i _ => ?_
    rcases Classical.em (Skipped csOff csLen i) with hskip | hskip
    · rw [pageHash_of_skipped hskip, pageHash_of_skipped hskip]
    · rw [pageHash_of_not_skipped hskip, pageHash_of_not_skipped hskip,
        (pageAt_eq_iff hlen).mpr]
      rintro k rfl
      rcases Nat.lt_or_ge k data.length with hk | hk
      · exact h k hk hskip
      · rw [List.getElem?_eq_none hk, List.getElem?_eq_none (hlen ▸ hk)]

end Root

end OhosBun.OhosSign.Merkle
