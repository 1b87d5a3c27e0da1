/-
# `OhosBun.Paths.LongestCommonPath` — when the scans find the directory

Up to eight paths: `longestCommonPath` is right, and `getIfExistsLongestCommonPath` where no two names
start alike and one of them ends there.  More than eight: both are right when the directory is itself
one of the paths, and in front of them all.
-/
import OhosBun.Paths.CommonDir
import OhosBun.Paths.LongestCommon

namespace OhosBun.Paths

open OhosBun.Lib

/-! ## The shortest path -/

variable {input : List Bytes} {path : Bytes} {n : Nat}

theorem minLength_le (h : path ∈ input) : minLength input ≤ path.length := by
  induction input with
  | nil => exact absurd h List.not_mem_nil
  | cons first rest ih =>
    cases rest with
    | nil => rw [List.mem_singleton.mp h]; exact le_rfl
    | cons second rest =>
      rw [minLength]
      · rcases List.mem_cons.mp h with rfl | h
        · exact Nat.min_le_left _ _
        · exact (Nat.min_le_right _ _).trans (ih h)
      · exact List.cons_ne_nil _ _

theorem exists_length_eq_minLength (h : input ≠ []) :
    ∃ path ∈ input, path.length = minLength input := by
  induction input with
  | nil => exact absurd rfl h
  | cons first rest ih =>
    cases rest with
    | nil => exact ⟨first, List.mem_cons_self, rfl⟩
    | cons second rest =>
      obtain ⟨path, hpath, heq⟩ := ih (List.cons_ne_nil _ _)
      rw [minLength]
      · rcases Nat.le_total first.length (minLength (second :: rest)) with hle | hle
        · exact ⟨first, List.mem_cons_self, (Nat.min_eq_left hle).symm⟩
        · exact ⟨path, List.mem_cons_of_mem _ hpath, by rw [heq, Nat.min_eq_right hle]⟩
      · exact List.cons_ne_nil _ _

/-! ## Absolute paths -/

/-- Absolute paths without backslashes. -/
def AbsolutePaths (input : List Bytes) : Prop := ∀ path ∈ input, [47] <+: path ∧ 92 ∉ path

theorem isSep_iff (h : AbsolutePaths input) (hpath : path ∈ input) (n : Nat) :
    path[n]?.any isSepAny = true ↔ path[n]? = some 47 := by
  cases hc : path[n]? with
  | none => exact ⟨by simp, by simp⟩
  | some c =>
    have hne : c ≠ 92 := fun heq => (h path hpath).2 (heq ▸ List.mem_of_getElem? hc)
    simp [isSepAny, hne]

/-! ## Up to eight -/

/-- The last separator before `n`. -/
def LastBefore (first : Bytes) (n : Nat) : Option Nat → Prop
  | none => ∀ j < n, first[j]?.any isSepAny = false
  | some k => k < n ∧ first[k]?.any isSepAny = true ∧ ∀ j, k < j → j < n → first[j]?.any isSepAny = false

theorem LastBefore.succ {first : Bytes} {last : Option Nat} (h : LastBefore first n last) :
    LastBefore first (n + 1) (if first[n]?.any isSepAny then some n else last) := by
  split
  · rename_i hsep
    exact ⟨Nat.lt_succ_self n, hsep, fun j hlt hle => absurd hle (Nat.not_lt.mpr hlt)⟩
  · rename_i hsep
    have hn : first[n]?.any isSepAny = false := Bool.eq_false_iff.mpr hsep
    cases last with
    | none =>
      intro j hj
      rcases Nat.lt_succ_iff_lt_or_eq.mp hj with hlt | rfl
      · exact h j hlt
      · exact hn
    | some k =>
      refine ⟨h.1.trans (Nat.lt_succ_self n), h.2.1, fun j hk hj => ?_⟩
      rcases Nat.lt_succ_iff_lt_or_eq.mp hj with hlt | rfl
      · exact h.2.2 j hk hlt
      · exact hn

section Few
variable {first : Bytes} {rest : List Bytes}

theorem scanFew_spec {s : Scan} (hle : s.index ≤ minLength (first :: rest))
    (hall : ∀ path ∈ first :: rest, first.take s.index <+: path) (hlast : LastBefore first s.index s.last) :
    let t := (scanFew isSepAny (minLength (first :: rest)) first rest s).1
    t.index ≤ first.length ∧ IsCommonPrefix (first :: rest) (first.take t.index) ∧
      LastBefore first t.index t.last := by
  induction hn : minLength (first :: rest) - s.index generalizing s with
  | zero =>
    have heq : s.index = minLength (first :: rest) := by omega
    have hfirst := @minLength_le (first :: rest) _ List.mem_cons_self
    rw [scanFew, if_neg (by omega)]
    refine ⟨by dsimp only; omega, ⟨hall, .inl ?_⟩, hlast⟩
    obtain ⟨path, hpath, hlength⟩ := exists_length_eq_minLength (List.cons_ne_nil first rest)
    have hsame := (hall path hpath).eq_of_length (by rw [List.length_take]; omega)
    rwa [hsame]
  | succ n ih =>
    have hlt : s.index < minLength (first :: rest) := by omega
    have hget : ∀ path ∈ first :: rest, ∃ c, path[s.index]? = some c := fun path hpath =>
      ⟨_, List.getElem?_eq_getElem (hlt.trans_le (minLength_le hpath))⟩
    have hlength : (first.take s.index).length = s.index := by
      have hfirst := @minLength_le (first :: rest) _ List.mem_cons_self
      rw [List.length_take]
      omega
    obtain ⟨c, hc⟩ := hget first List.mem_cons_self
    rw [scanFew, if_pos hlt]
    split
    · rename_i hnql
      obtain ⟨path, hpath, hne⟩ := List.any_eq_true.mp hnql
      obtain ⟨d, hd⟩ := hget path (List.mem_cons_of_mem _ hpath)
      have hfirst := @minLength_le (first :: rest) _ List.mem_cons_self
      refine ⟨by dsimp only; omega, ⟨hall, .inr ⟨first, List.mem_cons_self, path, List.mem_cons_of_mem _ hpath, c, d, ?_, ?_, ?_⟩⟩,
        hlast⟩
      · rintro rfl
        exact of_decide_eq_true hne (hc.trans hd.symm)
      · exact concat_prefix_iff.2 ⟨List.take_prefix _ _, by rw [hlength]; exact hc⟩
      · exact concat_prefix_iff.2 ⟨hall path (List.mem_cons_of_mem _ hpath), by rw [hlength]; exact hd⟩
    · rename_i hnql
      refine ih (s := ⟨s.index + 1, _⟩) hlt (fun path hpath => ?_) hlast.succ (by dsimp only; omega)
      have hpathc : path[s.index]? = some c := by
        rcases List.mem_cons.mp hpath with rfl | hrest
        · exact hc
        · by_contra hne
          refine hnql (List.any_eq_true.mpr ⟨path, hrest, decide_eq_true ?_⟩)
          rw [hc]
          exact fun heq => hne heq.symm
      rw [List.take_add_one, hc]
      exact concat_prefix_iff.2 ⟨hall path hpath, by rw [hlength]; exact hpathc⟩

/-- What up to eight absolute paths are scanned to: their common prefix, and its last separator. -/
theorem scanFew_absolute (habs : AbsolutePaths (first :: rest)) : ∃ index sep broke,
    scanFew isSepAny (minLength (first :: rest)) first rest {} = (⟨index, some sep⟩, broke) ∧ index ≠ 0 ∧
      (first.take index).length = index ∧ IsCommonPrefix (first :: rest) (first.take index) ∧
        LastSep (first.take index) sep := by
  have hspec := @scanFew_spec first rest {} (Nat.zero_le _) (fun path _ => List.nil_prefix) (fun _ h => absurd h (by simp))
  obtain ⟨⟨⟨index, last⟩, broke⟩, hscan⟩ : ∃ r, scanFew isSepAny (minLength (first :: rest)) first rest {} = r :=
    ⟨_, rfl⟩
  rw [hscan] at hspec
  obtain ⟨hle, hcommon, hlast⟩ := hspec
  dsimp only at hle hcommon hlast
  have hlength : (first.take index).length = index := List.length_take_of_le hle
  have hroot := hcommon.prefix_of_all (List.cons_ne_nil _ _) fun path hpath => (habs path hpath).1
  have hpos : index ≠ 0 := by
    rintro rfl
    exact absurd hroot.length_le (by simp)
  have hfirst : first[0]? = some 47 := by
    obtain ⟨t, rfl⟩ := (habs first List.mem_cons_self).1
    rfl
  cases last with
  | none =>
    have hzero := hlast 0 (Nat.pos_of_ne_zero hpos)
    rw [hfirst] at hzero
    exact absurd hzero (by decide)
  | some sep =>
    refine ⟨index, sep, broke, hscan, hpos, hlength, hcommon, ?_, fun j hj hget => ?_⟩
    · rw [List.getElem?_take_of_lt hlast.1]
      exact (isSep_iff habs List.mem_cons_self sep).mp hlast.2.1
    · obtain ⟨hjlt, -⟩ := List.getElem?_eq_some_iff.mp hget
      rw [hlength] at hjlt
      rw [List.getElem?_take_of_lt hjlt] at hget
      have hno := hlast.2.2 j hj hjlt
      rw [(isSep_iff habs List.mem_cons_self j).mpr hget] at hno
      exact absurd hno (by decide)

end Few

/-- The loop finds a path that goes on with a separator, when no path goes on with anything else. -/
theorem goesOn_spec (found : Option Bytes) :
    match goesOn isSepAny n found input with
    | some path => (found = some path ∨ path ∈ input ∧ path[n]?.any isSepAny = true) ∧
        ∀ b ∈ input, ∀ c, b[n]? = some c → isSepAny c = true
    | none => (found = none ∧ ∀ b ∈ input, b[n]? = none) ∨
        ∃ b ∈ input, ∃ c, b[n]? = some c ∧ isSepAny c = false := by
  induction input generalizing found with
  | nil =>
    cases found with
    | none => exact .inl ⟨rfl, by simp⟩
    | some path => exact ⟨.inl rfl, by simp⟩
  | cons path paths ih =>
    rw [goesOn]
    cases hc : path[n]? with
    | none =>
      have hrest := ih found
      dsimp only
      split at hrest
      · refine ⟨hrest.1.imp_right fun h => ⟨List.mem_cons_of_mem _ h.1, h.2⟩, fun b hb c hget => ?_⟩
        rcases List.mem_cons.mp hb with rfl | hb
        · exact absurd (hc.symm.trans hget) (by simp)
        · exact hrest.2 b hb c hget
      · refine hrest.imp (fun h => ⟨h.1, fun b hb => ?_⟩) fun h =>
          h.imp fun b hb => ⟨List.mem_cons_of_mem _ hb.1, hb.2⟩
        rcases List.mem_cons.mp hb with rfl | hb
        · exact hc
        · exact h.2 b hb
    | some c =>
      have hrest := ih (some path)
      dsimp only
      cases hsep : isSepAny c with
      | false =>
        rw [if_neg Bool.false_ne_true]
        exact .inr ⟨path, List.mem_cons_self, c, hc, hsep⟩
      | true =>
        rw [if_pos rfl]
        split at hrest
        · refine ⟨.inr ?_, fun b hb d hget => ?_⟩
          · rcases hrest.1 with heq | h
            · obtain rfl := Option.some.inj heq
              exact ⟨List.mem_cons_self, by rw [hc]; exact hsep⟩
            · exact ⟨List.mem_cons_of_mem _ h.1, h.2⟩
          · rcases List.mem_cons.mp hb with rfl | hb
            · rwa [← Option.some.inj (hc.symm.trans hget)]
            · exact hrest.2 b hb d hget
        · obtain ⟨b, hb, h⟩ := hrest.resolve_left fun h => absurd h.1 (by simp)
          exact .inr ⟨b, List.mem_cons_of_mem _ hb, h⟩

section Right
variable {input : List Bytes}

/-- Both functions return the longest common directory. -/
structure FindsCommonDir (input : List Bytes) : Prop where
  longest : ∃ dir, longestCommonPath input = .ok dir ∧ IsLongestCommonDir input dir
  ifExists : ∃ dir, getIfExistsLongestCommonPath input = .ok (some dir) ∧ IsLongestCommonDir input dir

/-- A name ends where another of the names behind the same prefix goes on. -/
def Siblings (input : List Bytes) : Prop :=
  ∃ p c, (∀ path ∈ input, p <+: path) ∧ (∃ a ∈ input, p ++ [47] <+: a) ∧ (∃ b ∈ input, p ++ [c] <+: b) ∧ c ≠ 47

/-- What goes on behind the common prefix. -/
theorem goesOn_iff (habs : AbsolutePaths input) {p : Bytes} (hp : IsCommonPrefix input p) :
    GoesOn input p ↔ (∃ path ∈ input, path[p.length]?.any isSepAny = true) ∧
      ∀ b ∈ input, ∀ c, b[p.length]? = some c → isSepAny c = true := by
  constructor
  · rintro ⟨⟨path, hpath, hgo⟩, hall⟩
    refine ⟨⟨path, hpath, ?_⟩, fun b hb c hc => ?_⟩
    · rw [isSep_iff habs hpath]
      exact (concat_prefix_iff.1 hgo).2
    · rcases hall b hb with rfl | hgo
      · rw [List.getElem?_eq_none le_rfl] at hc
        exact absurd hc (by simp)
      · rw [← Option.some.inj ((concat_prefix_iff.1 hgo).2.symm.trans hc)]
        rfl
  · rintro ⟨⟨path, hpath, hsep⟩, hall⟩
    refine ⟨⟨path, hpath, concat_prefix_iff.2 ⟨hp.all path hpath, (isSep_iff habs hpath _).mp hsep⟩⟩, fun b hb => ?_⟩
    cases hc : b[p.length]? with
    | none => exact .inl (eq_of_prefix_of_getElem?_none (hp.all b hb) hc)
    | some c =>
      have hsep : b[p.length]?.any isSepAny = true := by
        rw [hc]
        exact hall b hb c hc
      exact .inr (concat_prefix_iff.2 ⟨hp.all b hb, (isSep_iff habs hb _).mp hsep⟩)

/-- Siblings go on differently behind the common prefix. -/
theorem siblings_iff {p : Bytes} (hp : IsCommonPrefix input p) :
    Siblings input ↔ (∃ a ∈ input, p ++ [47] <+: a) ∧ ¬GoesOn input p := by
  constructor
  · rintro ⟨q, c, hq, ⟨a, ha, hqa⟩, ⟨b, hb, hqb⟩, hne⟩
    have hcommon : IsCommonPrefix input q := ⟨hq, .inr ⟨a, ha, b, hb, 47, c, hne.symm, hqa, hqb⟩⟩
    have hpq : p <+: q := hcommon.prefix_of_all (List.ne_nil_of_mem ha) hp.all
    obtain rfl := hpq.eq_of_length_le (hp.prefix_of_all (List.ne_nil_of_mem ha) hq).length_le
    refine ⟨⟨a, ha, hqa⟩, fun hgoes => ?_⟩
    rcases hgoes.2 b hb with rfl | hgo
    · have hle := hqb.length_le
      rw [List.length_append, List.length_singleton] at hle
      omega
    · exact hne (concat_prefix_inj hqb hgo)
  · rintro ⟨ha, hgoes⟩
    obtain ⟨b, hb, hne, hno⟩ : ∃ b ∈ input, b ≠ p ∧ ¬p ++ [47] <+: b := by
      by_contra hall
      refine hgoes ⟨ha, fun b hb => ?_⟩
      by_contra hnot
      exact hall ⟨b, hb, fun heq => hnot (.inl heq), fun hgo => hnot (.inr hgo)⟩
    obtain ⟨c, hc⟩ := exists_concat_prefix (hp.all b hb) hne
    refine ⟨p, c, hp.all, ha, ⟨b, hb, hc⟩, ?_⟩
    rintro rfl
    exact hno hc

theorem longestCommonPath_few (h₂ : 2 ≤ input.length) (h₈ : input.length ≤ 8) (habs : AbsolutePaths input) :
    ∃ dir, longestCommonPath input = .ok dir ∧ IsLongestCommonDir input dir := by
  obtain ⟨first, second, rest, rfl⟩ : ∃ first second rest, input = first :: second :: rest := by
    rcases input with _ | ⟨first, _ | ⟨second, rest⟩⟩
    · exact absurd h₂ (by decide)
    · exact absurd h₂ (by simp)
    · exact ⟨first, second, rest, rfl⟩
  obtain ⟨index, sep, broke, hscan, hpos, hlength, hp, hsep⟩ := scanFew_absolute habs
  have hgoes := goesOn_iff habs hp
  rw [hlength] at hgoes
  have hspec := @goesOn_spec (first :: second :: rest) index none
  have hresult : longestCommonPath (first :: second :: rest) =
      match goesOn isSepAny index none (first :: second :: rest) with
      | some path => .ok (path.take (index + 1))
      | none => .ok (first.take (sep + 1)) := by
    rw [longestCommonPath, longestCommonPathGeneric, if_pos h₈, hscan]
    · exact if_neg hpos
    · exact List.cons_ne_nil _ _
  rw [hresult]
  cases hfound : goesOn isSepAny index none (first :: second :: rest) with
  | some path =>
    rw [hfound] at hspec
    obtain ⟨hpath, hany⟩ := hspec.1.resolve_left (by simp)
    refine ⟨_, rfl, ?_⟩
    have hdir : path.take (index + 1) = first.take index ++ [47] := by
      have hpre := concat_prefix_iff.2 ⟨hp.all path hpath, by rw [hlength]; exact (isSep_iff habs hpath _).mp hany⟩
      have htake := List.prefix_iff_eq_take.mp hpre
      rw [List.length_append, hlength] at htake
      exact htake.symm
    rw [hdir]
    exact hp.longest_of_goesOn (hgoes.mpr ⟨⟨path, hpath, hany⟩, hspec.2⟩)
  | none =>
    rw [hfound] at hspec
    refine ⟨_, rfl, ?_⟩
    have hno : ¬GoesOn (first :: second :: rest) (first.take index) := by
      intro hgo
      obtain ⟨⟨path, hpath, hany⟩, hall⟩ := hgoes.mp hgo
      rcases hspec with ⟨-, hend⟩ | ⟨b, hb, c, hc, hsepc⟩
      · rw [hend path hpath] at hany
        exact absurd hany (by simp)
      · rw [hall b hb c hc] at hsepc
        exact absurd hsepc (by simp)
    have hdir := hp.longest_of_not_goesOn (List.cons_ne_nil _ _) hno hsep
    have hlt := (List.getElem?_eq_some_iff.mp hsep.1).1
    rw [hlength] at hlt
    rwa [List.take_take, Nat.min_eq_left hlt] at hdir

theorem getIfExists_few (h₂ : 2 ≤ input.length) (h₈ : input.length ≤ 8) (habs : AbsolutePaths input) :
    (∃ dir, getIfExistsLongestCommonPath input = .ok (some dir) ∧ IsLongestCommonDir input dir) ↔
      ¬Siblings input := by
  obtain ⟨first, second, rest, rfl⟩ : ∃ first second rest, input = first :: second :: rest := by
    rcases input with _ | ⟨first, _ | ⟨second, rest⟩⟩
    · exact absurd h₂ (by decide)
    · exact absurd h₂ (by simp)
    · exact ⟨first, second, rest, rfl⟩
  obtain ⟨index, sep, broke, hscan, hpos, hlength, hp, hsep⟩ := scanFew_absolute habs
  have hresult : getIfExistsLongestCommonPath (first :: second :: rest) =
      match (first :: second :: rest).find? fun path => path[index]?.any isSepAny with
      | some path => .ok (some (path.take (index + 1)))
      | none => .ok (some (first.take (sep + 1))) := by
    rw [getIfExistsLongestCommonPath, getIfExistsLongestCommonPathGeneric, if_pos h₈, hscan]
    · dsimp only
      rw [Option.isNone_some, Bool.and_false]
      exact if_neg hpos
    · exact List.cons_ne_nil _ _
  rw [hresult, siblings_iff hp]
  cases hfound : (first :: second :: rest).find? fun path => path[index]?.any isSepAny with
  | some path =>
    have hpath := List.mem_of_find?_eq_some hfound
    have hany := List.find?_some hfound
    have hpre : first.take index ++ [47] <+: path :=
      concat_prefix_iff.2 ⟨hp.all path hpath, by rw [hlength]; exact (isSep_iff habs hpath _).mp hany⟩
    have hdir : path.take (index + 1) = first.take index ++ [47] := by
      have htake := List.prefix_iff_eq_take.mp hpre
      rw [List.length_append, hlength] at htake
      exact htake.symm
    have hgo : ¬((∃ a ∈ first :: second :: rest, first.take index ++ [47] <+: a) ∧
        ¬GoesOn (first :: second :: rest) (first.take index)) ↔
          GoesOn (first :: second :: rest) (first.take index) :=
      ⟨fun h => by_contra fun hno => h ⟨⟨path, hpath, hpre⟩, hno⟩, fun h hno => hno.2 h⟩
    rw [hgo]
    constructor
    · rintro ⟨dir, hok, hlongest⟩
      obtain rfl := Option.some.inj (Except.ok.inj hok)
      rw [hdir] at hlongest
      refine ⟨⟨path, hpath, hpre⟩, fun b hb => ?_⟩
      rcases hlongest.all b hb with h | h
      · exact .inr h
      · exact .inl (List.append_cancel_right h).symm
    · intro hgoes
      refine ⟨_, rfl, ?_⟩
      rw [hdir]
      exact hp.longest_of_goesOn hgoes
  | none =>
    have hnone : ¬∃ a ∈ first :: second :: rest, first.take index ++ [47] <+: a := by
      rintro ⟨a, ha, hgo⟩
      have hget := (concat_prefix_iff.1 hgo).2
      rw [hlength] at hget
      exact List.find?_eq_none.mp hfound a ha ((isSep_iff habs ha _).mpr hget)
    refine ⟨fun _ h => hnone h.1, fun _ => ⟨_, rfl, ?_⟩⟩
    have hdir := hp.longest_of_not_goesOn (List.cons_ne_nil _ _) (fun hgo => hnone hgo.1) hsep
    have hlt := (List.getElem?_eq_some_iff.mp hsep.1).1
    rw [hlength] at hlt
    rwa [List.take_take, Nat.min_eq_left hlt] at hdir

end Right

/-! ## More than eight -/

section Many
variable {m index : Nat} {first path : Bytes} {rest : List Bytes}

theorem advance_of_eq (hle : index ≤ m) (heq : ∀ k, index ≤ k → k < m → first[k]? = path[k]?) :
    advance m first path index = (m, false) := by
  induction hn : m - index generalizing index with
  | zero =>
    rw [advance, if_neg (by omega)]
    exact Prod.ext (by dsimp only; omega) rfl
  | succ n ih =>
    rw [advance, if_pos (by omega), if_neg (not_not.mpr (heq index le_rfl (by omega)))]
    exact ih (by omega) (fun k hk => heq k (by omega)) (by omega)

theorem advance_cases (hle : index ≤ m) : (∃ j, index ≤ j ∧ j < m ∧ advance m first path index = (j, true)) ∨
    advance m first path index = (m, false) := by
  induction hn : m - index generalizing index with
  | zero =>
    refine .inr ?_
    rw [advance, if_neg (by omega)]
    exact Prod.ext (by dsimp only; omega) rfl
  | succ n ih =>
    rw [advance, if_pos (by omega)]
    split
    · exact .inl ⟨index, le_rfl, by omega, rfl⟩
    · exact (ih (by omega) (by omega)).imp_left fun ⟨j, hj, h⟩ => ⟨j, by omega, h⟩

/-- Every path starts like the first, and the last byte of that is a separator. -/
theorem scanMany_of_prefix {giveUp : Bool} (hm : 0 < m) (hsep : first[m - 1]? = some 47)
    (heq : ∀ path ∈ rest, ∀ k < m, first[k]? = path[k]?) {s : Scan} (hle : s.index ≤ m) (hne : rest ≠ []) :
    scanMany isSepAny giveUp m first s rest = .ok (some ⟨m - 1, some (m - 1)⟩) := by
  have hstep : ∀ path paths, path ∈ rest → ∀ s : Scan, s.index ≤ m →
      scanMany isSepAny giveUp m first s (path :: paths) =
        scanMany isSepAny giveUp m first ⟨m - 1, some (m - 1)⟩ paths := fun path paths hpath s hs => by
    rw [scanMany, advance_of_eq hs fun k _ hk => heq path hpath k hk]
    dsimp only
    rw [Bool.and_false, Bool.false_and, if_neg Bool.false_ne_true, if_neg (by simp; omega), if_pos rfl, hsep]
    rfl
  have hafter : ∀ paths, (∀ path ∈ paths, path ∈ rest) →
      scanMany isSepAny giveUp m first ⟨m - 1, some (m - 1)⟩ paths = .ok (some ⟨m - 1, some (m - 1)⟩) := by
    intro paths hpaths
    induction paths with
    | nil => rfl
    | cons path paths ih =>
      rw [hstep path paths (hpaths path List.mem_cons_self) _ (Nat.sub_le _ _)]
      exact ih fun b hb => hpaths b (List.mem_cons_of_mem _ hb)
  obtain ⟨path, paths, rfl⟩ := List.exists_cons_of_ne_nil hne
  rw [hstep path paths List.mem_cons_self s hle]
  exact hafter paths fun b hb => List.mem_cons_of_mem _ hb

/-- Once the scan is at the last byte of the shortest path it stays there, or gives up. -/
theorem scanMany_last (hm : 0 < m) {c : UInt8} (hc : first[m - 1]? = some c) (rest : List Bytes) :
    let s : Scan := ⟨m - 1, if isSepAny c then some (m - 1) else none⟩
    scanMany isSepAny true m first s rest = .ok none ∨ scanMany isSepAny true m first s rest = .ok (some s) := by
  induction rest with
  | nil => exact .inr rfl
  | cons path rest ih =>
    dsimp only at ih ⊢
    have hlast : (if isSepAny c then some (m - 1) else if isSepAny c then some (m - 1) else none) =
        if isSepAny c then some (m - 1) else none := by split <;> rfl
    rw [scanMany]
    rcases advance_cases (Nat.sub_le m 1) with ⟨j, hle, hlt, hadvance⟩ | hadvance
    · obtain rfl : j = m - 1 := by omega
      rw [hadvance]
      dsimp only
      cases hsep : isSepAny c with
      | false => exact .inl rfl
      | true =>
        rw [hsep] at ih hlast
        have hgo : (true && true && (if true = true then some (m - 1) else none).isNone) = false := rfl
        rw [hgo, if_neg Bool.false_ne_true, if_neg (by simp; omega), if_neg (by omega), hc]
        dsimp only
        rwa [hsep, hlast]
    · rw [hadvance]
      dsimp only
      rw [Bool.and_false, Bool.false_and, if_neg Bool.false_ne_true, if_neg (by simp; omega), if_pos rfl, hc]
      dsimp only
      rwa [hlast]

/-- From the start the scan gives up, or the first two paths start alike. -/
theorem scanMany_start (hm : 0 < m) {c : UInt8} (hc : first[m - 1]? = some c) (path : Bytes) (rest : List Bytes) :
    scanMany isSepAny true m first {} (path :: rest) = .ok none ∨
      scanMany isSepAny true m first {} (path :: rest) =
        .ok (some ⟨m - 1, if isSepAny c then some (m - 1) else none⟩) := by
  rw [scanMany]
  rcases advance_cases (Nat.zero_le m) with ⟨j, -, -, hadvance⟩ | hadvance
  · rw [hadvance]
    exact .inl rfl
  · rw [hadvance]
    dsimp only
    rw [Bool.and_false, Bool.false_and, if_neg Bool.false_ne_true, if_neg (by simp; omega), if_pos rfl, hc]
    exact scanMany_last hm hc rest

end Many

section ManyRight
variable {input : List Bytes}

/-- One of the paths is the longest common directory, and in front of them all. -/
def RootGiven (input : List Bytes) : Prop :=
  ∃ path ∈ input, (∀ b ∈ input, path <+: b) ∧ IsLongestCommonDir input path

theorem findsCommonDir_of_rootGiven (h₈ : 8 < input.length) (h : RootGiven input) : FindsCommonDir input := by
  obtain ⟨path, hpath, hall, hlongest⟩ := h
  obtain ⟨first, second, rest, rfl⟩ : ∃ first second rest, input = first :: second :: rest := by
    rcases input with _ | ⟨first, _ | ⟨second, rest⟩⟩
    · exact absurd h₈ (by decide)
    · exact absurd h₈ (by simp)
    · exact ⟨first, second, rest, rfl⟩
  generalize hinput : first :: second :: rest = input at hpath hall hlongest
  obtain ⟨name, rfl⟩ := hlongest.ends
  have hm : minLength input = name.length + 1 := by
    obtain ⟨b, hb, hlength⟩ := exists_length_eq_minLength (List.ne_nil_of_mem hpath)
    have hle := (hall b hb).length_le
    have hge := minLength_le hpath
    rw [List.length_append, List.length_singleton] at hle hge
    omega
  have hget : ∀ b ∈ input, ∀ k < name.length + 1, b[k]? = (name ++ [47])[k]? := fun b hb k hk => by
    obtain ⟨tail, rfl⟩ := hall b hb
    rw [List.getElem?_append_left (by rwa [List.length_append, List.length_singleton])]
  have hlast : ∀ b ∈ input, b[name.length]? = some 47 := fun b hb => by
    rw [hget b hb _ (Nat.lt_succ_self _), List.getElem?_append_right le_rfl, Nat.sub_self]
    rfl
  have hfirst : first ∈ input := hinput ▸ List.mem_cons_self
  have hrest : ∀ b ∈ second :: rest, b ∈ input := fun b hb => hinput ▸ List.mem_cons_of_mem _ hb
  have hscan : ∀ giveUp, scanMany isSepAny giveUp (minLength input) first {} (second :: rest) =
      .ok (some ⟨name.length, some name.length⟩) := fun giveUp => by
    rw [hm]
    exact scanMany_of_prefix (Nat.succ_pos _) (hlast first hfirst)
      (fun b hb k hk => (hget first hfirst k hk).trans (hget b (hrest b hb) k hk).symm) (Nat.zero_le _)
      (List.cons_ne_nil _ _)
  have htake : ∀ b ∈ input, b.take (name.length + 1) = name ++ [47] := fun b hb => by
    have htake := List.prefix_iff_eq_take.mp (hall b hb)
    rw [List.length_append, List.length_singleton] at htake
    exact htake.symm
  have hnot : ¬input.length ≤ 8 := by
    rw [← hinput]
    exact Nat.not_le.mpr h₈
  have hroot : name.length = 0 → name ++ [47] = [47] := fun hzero => by
    rw [List.length_eq_zero_iff.mp hzero]
    rfl
  constructor
  · refine ⟨name ++ [47], ?_, hlongest⟩
    have hresult : longestCommonPath input = if name.length = 0 then .ok [47]
        else match goesOn isSepAny name.length none input with
          | some path => .ok (path.take (name.length + 1))
          | none => .ok (first.take (name.length + 1)) := by
      rw [← hinput, longestCommonPath, longestCommonPathGeneric, hinput, if_neg hnot, hscan false]
      · rfl
      · exact List.cons_ne_nil _ _
    rw [hresult]
    split
    · rename_i hzero
      rw [hroot hzero]
    · have hspec := @goesOn_spec input name.length none
      cases hfound : goesOn isSepAny name.length none input with
      | none => exact congrArg Except.ok (htake first hfirst)
      | some b =>
        rw [hfound] at hspec
        exact congrArg Except.ok (htake b (hspec.1.resolve_left (by simp)).1)
  · refine ⟨name ++ [47], ?_, hlongest⟩
    have hresult : getIfExistsLongestCommonPath input = if name.length = 0 then .ok (some [47])
        else match input.find? fun path => path[name.length]?.any isSepAny with
          | some path => .ok (some (path.take (name.length + 1)))
          | none => .ok (some (first.take (name.length + 1))) := by
      rw [← hinput, getIfExistsLongestCommonPath, getIfExistsLongestCommonPathGeneric, hinput, if_neg hnot,
        hscan true]
      · rfl
      · exact List.cons_ne_nil _ _
    rw [hresult]
    split
    · rename_i hzero
      rw [hroot hzero]
    · cases hfound : input.find? fun path => path[name.length]?.any isSepAny with
      | none => exact congrArg (fun dir => Except.ok (some dir)) (htake first hfirst)
      | some b => exact congrArg (fun dir => Except.ok (some dir)) (htake b (List.mem_of_find?_eq_some hfound))

/-- A common directory as long as the shortest path is that path. -/
theorem rootGiven_of_length {dir : Bytes} (hne : input ≠ []) (hlongest : IsLongestCommonDir input dir)
    (hlength : dir.length = minLength input) : RootGiven input := by
  have hall : ∀ b ∈ input, dir <+: b := fun b hb => by
    rcases hlongest.all b hb with h | rfl
    · exact h
    · have hle := minLength_le hb
      rw [List.length_append, List.length_singleton] at hlength
      omega
  obtain ⟨path, hpath, hshort⟩ := exists_length_eq_minLength hne
  obtain rfl := (hall path hpath).eq_of_length (hlength.trans hshort.symm)
  exact ⟨dir, hpath, hall, hlongest⟩

theorem rootGiven_of_ifExists (h₈ : 8 < input.length) (habs : AbsolutePaths input) {dir : Bytes}
    (hok : getIfExistsLongestCommonPath input = .ok (some dir)) (hlongest : IsLongestCommonDir input dir) :
    RootGiven input := by
  obtain ⟨first, second, rest, rfl⟩ : ∃ first second rest, input = first :: second :: rest := by
    rcases input with _ | ⟨first, _ | ⟨second, rest⟩⟩
    · exact absurd h₈ (by decide)
    · exact absurd h₈ (by simp)
    · exact ⟨first, second, rest, rfl⟩
  have hm : 0 < minLength (first :: second :: rest) := by
    obtain ⟨path, hpath, hlength⟩ := exists_length_eq_minLength (List.cons_ne_nil first (second :: rest))
    rw [← hlength]
    exact (habs path hpath).1.length_le
  have hle := @minLength_le (first :: second :: rest) _ List.mem_cons_self
  refine rootGiven_of_length (List.cons_ne_nil _ _) hlongest ?_
  generalize hminLength : minLength (first :: second :: rest) = m at hm hle
  obtain ⟨c, hc⟩ : ∃ c, first[m - 1]? = some c := ⟨_, List.getElem?_eq_getElem (by omega)⟩
  rw [getIfExistsLongestCommonPath, getIfExistsLongestCommonPathGeneric, if_neg (Nat.not_le.mpr h₈), hminLength] at hok
  · rcases scanMany_start hm hc second rest with hscan | hscan
    · rw [hscan] at hok
      exact absurd (Except.ok.inj hok) (by simp)
    · rw [hscan] at hok
      change (if m - 1 = 0 then _ else _) = _ at hok
      split at hok
      · obtain rfl := Option.some.inj (Except.ok.inj hok)
        change 1 = m
        omega
      · cases hsep : isSepAny c with
        | false =>
          -- `.` is no directory with a separator
          rw [hsep] at hok
          obtain rfl : [46] = dir := Option.some.inj (Except.ok.inj hok)
          obtain ⟨name, hname⟩ := hlongest.ends
          have hlast := congrArg List.getLast? hname
          rw [List.getLast?_concat] at hlast
          exact absurd (Option.some.inj hlast) (by decide)
        | true =>
          have hany : first[m - 1]?.any isSepAny = true := by
            rw [hc]
            exact hsep
          have hfound : (first :: second :: rest).find? (fun path => path[m - 1]?.any isSepAny) = some first := by
            rw [List.find?_cons, hany]
          rw [hsep] at hok
          change (match (first :: second :: rest).find? (fun path => path[m - 1]?.any isSepAny) with
            | some path => _
            | none => _) = _ at hok
          rw [hfound] at hok
          obtain rfl := Option.some.inj (Except.ok.inj hok)
          rw [List.length_take]
          change min (m - 1 + 1) first.length = m
          omega
  · exact List.cons_ne_nil _ _

/-- When the functions find the directory. -/
theorem findsCommonDir_iff (h₂ : 2 ≤ input.length) (habs : AbsolutePaths input) :
    FindsCommonDir input ↔ if input.length ≤ 8 then ¬Siblings input else RootGiven input := by
  by_cases h₈ : input.length ≤ 8
  · rw [if_pos h₈, ← getIfExists_few h₂ h₈ habs]
    exact ⟨fun h => h.ifExists, fun h => ⟨longestCommonPath_few h₂ h₈ habs, h⟩⟩
  · rw [if_neg h₈]
    have hmany := Nat.lt_of_not_le h₈
    refine ⟨fun h => ?_, findsCommonDir_of_rootGiven hmany⟩
    obtain ⟨dir, hok, hlongest⟩ := h.ifExists
    exact rootGiven_of_ifExists hmany habs hok hlongest

theorem findsCommonDir_index : FindsCommonDir [ascii "/app/index", ascii "/app"] := by
  have habs : AbsolutePaths [ascii "/app/index", ascii "/app"] := by
    have hpath : ∀ path ∈ [ascii "/app/index", ascii "/app"], [47] <+: path ∧ 92 ∉ path := by decide
    exact hpath
  refine (findsCommonDir_iff (by decide) habs).mpr ?_
  rw [if_pos (by decide)]
  have hp : IsCommonPrefix [ascii "/app/index", ascii "/app"] (ascii "/app") :=
    ⟨by decide, .inl (by decide)⟩
  rw [siblings_iff hp]
  exact fun h => h.2 ⟨by decide, by decide⟩

/-- `src` is no directory of `src-b`. -/
theorem not_findsCommonDir_src : ¬FindsCommonDir [ascii "/app/src/x", ascii "/app/src-b/y"] := by
  intro h
  obtain ⟨dir, hok, hlongest⟩ := h.ifExists
  have hresult : getIfExistsLongestCommonPath [ascii "/app/src/x", ascii "/app/src-b/y"] =
      .ok (some (ascii "/app/src/")) := by with_unfolding_all decide
  obtain rfl := Option.some.inj (Except.ok.inj (hresult.symm.trans hok))
  have hall := hlongest.all (ascii "/app/src-b/y") (by decide)
  exact absurd hall (by decide)

end ManyRight

end OhosBun.Paths
