/-
# `OhosBun.Install.OverrideAnswer` — the override of a dependency

A rule that is inserted takes the place of the one with its selector, so the rules of a
map have different selectors (`OverrideMap.Sound`) and are the last ones inserted with
theirs (`insertScoped_spec`).  The override of a dependency is then a function of the set
of the rules (`Sound.answer_congr`): inserting them in another order, or sorting them,
gives the same (`answer_insertScoped`).
-/
import OhosBun.Install.OverrideChoice

namespace OhosBun.Install.Overrides

open OhosBun.Lib
open ScopedOverride

/-! ## The rules of a map -/

namespace OverrideMap

section Push
variable {m : OverrideMap} {rule r : ScopedOverride} {rules : List ScopedOverride}

/-- The rules have different selectors, and the names of their targets are listed. -/
structure Sound (m : OverrideMap) : Prop where
  distinct : DistinctSelectors m.scopedRules
  listed : ∀ r ∈ m.scopedRules, r.dep.nameHash ∈ m.scopedNames

theorem replaceFirst_eq_none (h : ∀ r ∈ rules, r.selector ≠ rule.selector) :
    replaceFirst rule rules = none := by
  induction rules with
  | nil => rfl
  | cons existing rest ih =>
    have hne : sameSelector existing rule = false :=
      Bool.eq_false_iff.mpr fun hsame =>
        h existing List.mem_cons_self (sameSelector_iff.1 hsame)
    rw [replaceFirst, hne, ih fun r hr => h r (List.mem_cons_of_mem _ hr)]
    rfl

/-- The rule stands where one with its selector stood. -/
theorem replaceFirst_spec (h : DistinctSelectors rules) (hold : ∃ r ∈ rules, r.selector = rule.selector) :
    ∃ rules', replaceFirst rule rules = some rules' ∧ rules'.map selector = rules.map selector ∧
      ∀ r, r ∈ rules' ↔ r = rule ∨ r ∈ rules ∧ r.selector ≠ rule.selector := by
  induction rules with
  | nil =>
    obtain ⟨r, hr, -⟩ := hold
    exact absurd hr List.not_mem_nil
  | cons existing rest ih =>
    obtain ⟨hother, hrest⟩ := List.nodup_cons.mp h
    rw [replaceFirst]
    by_cases hsame : existing.selector = rule.selector
    · rw [if_pos (sameSelector_iff.2 hsame)]
      refine ⟨rule :: rest, rfl, by rw [List.map_cons, List.map_cons, hsame], fun r => ?_⟩
      rw [List.mem_cons, List.mem_cons]
      refine or_congr_right ⟨fun hr => ⟨.inr hr, fun heq => ?_⟩, fun ⟨hr, hne⟩ => ?_⟩
      · exact hother (hsame.trans heq.symm ▸ List.mem_map_of_mem hr)
      · exact hr.resolve_left fun heq => hne (heq ▸ hsame)
    · rw [if_neg fun h => hsame (sameSelector_iff.1 h)]
      obtain ⟨r₀, hr₀, heq₀⟩ := hold
      have hr₀' : r₀ ∈ rest :=
        (List.mem_cons.mp hr₀).resolve_left fun heq => hsame (heq ▸ heq₀)
      obtain ⟨rules', hreplace, hmap, hmem⟩ := ih hrest ⟨r₀, hr₀', heq₀⟩
      refine ⟨existing :: rules', by rw [hreplace]; rfl,
        by rw [List.map_cons, List.map_cons, hmap], fun r => ?_⟩
      rw [List.mem_cons, List.mem_cons, hmem]
      constructor
      · rintro (rfl | rfl | ⟨hr, hne⟩)
        · exact .inr ⟨.inl rfl, hsame⟩
        · exact .inl rfl
        · exact .inr ⟨.inr hr, hne⟩
      · rintro (rfl | ⟨rfl | hr, hne⟩)
        · exact .inr (.inl rfl)
        · exact .inl rfl
        · exact .inr (.inr ⟨hr, hne⟩)

/-- A rule takes the place of one with its selector, or goes to the end. -/
theorem Sound.pushScoped (h : m.Sound) (rule : ScopedOverride) :
    (m.pushScoped rule).Sound ∧ ∀ r, r ∈ (m.pushScoped rule).scopedRules ↔
      r = rule ∨ r ∈ m.scopedRules ∧ r.selector ≠ rule.selector := by
  have happend (hnew : ∀ r ∈ m.scopedRules, r.selector ≠ rule.selector) :
      DistinctSelectors (m.scopedRules ++ [rule]) ∧ ∀ r, r ∈ m.scopedRules ++ [rule] ↔
        r = rule ∨ r ∈ m.scopedRules ∧ r.selector ≠ rule.selector := by
    refine ⟨?_, fun r => ?_⟩
    · rw [DistinctSelectors, List.map_append, List.nodup_append]
      refine ⟨h.distinct, List.nodup_singleton _, ?_⟩
      rintro _ hold _ hlast rfl
      obtain ⟨r, hr, heq⟩ := List.mem_map.mp hold
      exact hnew r hr (heq.trans (List.mem_singleton.mp hlast))
    · rw [List.mem_append, List.mem_singleton, or_comm]
      exact or_congr_right ⟨fun hr => ⟨hr, hnew r hr⟩, And.left⟩
  rw [OverrideMap.pushScoped]
  split
  · next hnamed =>
      have hname : rule.dep.nameHash ∈ m.scopedNames := List.contains_iff_mem.mp hnamed
      by_cases hold : ∃ r ∈ m.scopedRules, r.selector = rule.selector
      · obtain ⟨rules', hreplace, hmap, hmem⟩ := replaceFirst_spec h.distinct hold
        rw [hreplace]
        refine ⟨⟨?_, fun r hr => ?_⟩, hmem⟩
        · rw [DistinctSelectors, hmap]
          exact h.distinct
        · rcases (hmem r).mp hr with rfl | ⟨hr, -⟩
          · exact hname
          · exact h.listed r hr
      · push Not at hold
        obtain ⟨hdistinct, hmem⟩ := happend hold
        rw [replaceFirst_eq_none hold]
        refine ⟨⟨hdistinct, fun r hr => ?_⟩, hmem⟩
        rcases (hmem r).mp hr with rfl | ⟨hr, -⟩
        · exact hname
        · exact h.listed r hr
  · next hunnamed =>
      obtain ⟨hdistinct, hmem⟩ := happend fun r hr heq => by
        have hname : r.dep.nameHash = rule.dep.nameHash := congrArg Prod.fst heq
        exact hunnamed (List.contains_iff_mem.mpr (hname ▸ h.listed r hr))
      refine ⟨⟨hdistinct, fun r hr => ?_⟩, hmem⟩
      rcases (hmem r).mp hr with rfl | ⟨hr, -⟩
      · exact List.mem_append_right _ (List.mem_singleton_self _)
      · exact List.mem_append_left _ (h.listed r hr)

/-- The rule is the last one inserted with its selector. -/
def Effective (rules : List ScopedOverride) (rule : ScopedOverride) : Prop :=
  ∃ before after, rules = before ++ rule :: after ∧ ∀ r ∈ after, r.selector ≠ rule.selector

theorem effective_concat : Effective (rules ++ [rule]) r ↔
    r = rule ∨ Effective rules r ∧ r.selector ≠ rule.selector := by
  constructor
  · rintro ⟨before, after, heq, hlast⟩
    rcases List.eq_nil_or_concat after with rfl | ⟨after', last, rfl⟩
    · exact .inl (List.append_inj_right' heq rfl |> List.singleton_inj.mp).symm
    · rw [List.concat_eq_append, ← List.cons_append, ← List.append_assoc] at heq
      have hinj := List.append_inj' heq rfl
      obtain rfl := List.singleton_inj.mp hinj.2
      refine .inr ⟨⟨before, after', hinj.1, fun r hr => hlast r ?_⟩, fun h => hlast rule ?_ h.symm⟩
      · rw [List.concat_eq_append]
        exact List.mem_append_left _ hr
      · rw [List.concat_eq_append]
        exact List.mem_append_right _ (List.mem_singleton_self _)
  · rintro (rfl | ⟨⟨before, after, rfl, hlast⟩, hne⟩)
    · exact ⟨rules, [], rfl, fun r hr => absurd hr List.not_mem_nil⟩
    · refine ⟨before, after ++ [rule], by rw [List.append_assoc, List.cons_append], fun r hr => ?_⟩
      rcases List.mem_append.mp hr with hr | hr
      · exact hlast r hr
      · exact List.mem_singleton.mp hr ▸ hne.symm

theorem effective_of_distinct (h : DistinctSelectors rules) : Effective rules r ↔ r ∈ rules := by
  constructor
  · rintro ⟨before, after, rfl, -⟩
    exact List.mem_append_right _ List.mem_cons_self
  · intro hr
    obtain ⟨before, after, rfl⟩ := List.append_of_mem hr
    refine ⟨before, after, rfl, fun r' hr' heq => ?_⟩
    rw [DistinctSelectors, List.map_append, List.map_cons, List.nodup_append] at h
    exact (List.nodup_cons.mp h.2.1).1 (heq ▸ List.mem_map_of_mem hr')

/-- The rules that were inserted one after the other. -/
theorem foldl_pushScoped (h : m.Sound) (hempty : m.scopedRules = []) (rules : List ScopedOverride) :
    (rules.foldl OverrideMap.pushScoped m).Sound ∧
      ∀ r, r ∈ (rules.foldl OverrideMap.pushScoped m).scopedRules ↔ Effective rules r := by
  induction rules using List.reverseRecOn with
  | nil =>
    refine ⟨h, fun r => ?_⟩
    rw [List.foldl_nil, hempty]
    refine iff_of_false List.not_mem_nil ?_
    rintro ⟨before, after, heq, -⟩
    exact List.append_ne_nil_of_right_ne_nil _ (List.cons_ne_nil _ _) heq.symm
  | append_singleton rules rule ih =>
    obtain ⟨hsound, hmem⟩ := ih
    rw [List.foldl_append, List.foldl_cons, List.foldl_nil]
    obtain ⟨hsound', hmem'⟩ := hsound.pushScoped rule
    exact ⟨hsound', fun r => by rw [hmem', hmem, effective_concat]⟩

end Push

/-! ## The rule that applies -/

/-- The dependency as `get` sees it, with the owner that an index that is up to date
gives it. -/
def asker (m : OverrideMap) (lockfile : OverrideLockfile)
    (dependencyId : Fin lockfile.dependencies.length) (nameHash : UInt64) : Asker where
  nameHash := nameHash
  declared := (lockfile.dependencies.get dependencyId).version
  owner := (m.ownerIndex.refresh lockfile).ownerOf lockfile dependencyId

/-- What `get` answers. -/
def answer (m : OverrideMap) (lockfile : OverrideLockfile)
    (dependencyId : Fin lockfile.dependencies.length) (nameHash : UInt64) :
    Option (Option DependencyVersion) :=
  (m.get lockfile dependencyId nameHash).map Prod.fst

section Answer
variable {m m' : OverrideMap} {lockfile : OverrideLockfile}
  {dependencyId : Fin lockfile.dependencies.length} {nameHash : UInt64} {rule : ScopedOverride}

open Classical in
theorem Sound.answer_eq (h : m.Sound) :
    m.answer lockfile dependencyId nameHash =
      match greatest outranks
        (m.scopedRules.filter fun r => r.Matches (m.asker lockfile dependencyId nameHash)) with
      | some rule => some (some rule.dep.version)
      | none => some (m.getFlat nameHash) := by
  have hnone (hunnamed : nameHash ∉ m.scopedNames) : m.scopedRules.filter
      (fun r => r.Matches (m.asker lockfile dependencyId nameHash)) = [] := by
    refine List.filter_eq_nil_iff.mpr fun r hr hmatch => hunnamed ?_
    have htarget : r.dep.nameHash = nameHash := (of_decide_eq_true hmatch).target
    exact htarget ▸ h.listed r hr
  rw [answer, OverrideMap.get]
  split
  · next hempty =>
      rw [List.isEmpty_iff.mp hempty]
      rfl
  · split
    · next hnamed =>
        have hstart : (⟨m.ownerIndex, none, none⟩ : Lookup).best = Tiered none := rfl
        have hbest := foldl_turn
          (rfl : m.asker lockfile dependencyId nameHash = ⟨nameHash, _, _⟩) m.scopedRules
          (.inl ⟨rfl, rfl⟩ : Asked m.ownerIndex lockfile dependencyId ⟨m.ownerIndex, none, none⟩)
          hstart
        rw [scopedRuleFor, List.getElem?_eq_getElem dependencyId.isLt, Option.map_some,
          Option.map_some, Option.map_some]
        dsimp only
        rw [List.get_eq_getElem] at hbest
        rw [hbest, greatest]
        cases List.foldl (keep outranks) none (m.scopedRules.filter fun r =>
          r.Matches (m.asker lockfile dependencyId nameHash)) <;> rfl
    · next hunnamed =>
        rw [hnone fun hmem => hunnamed (List.contains_iff_mem.mpr hmem)]
        rfl

/-- The rule is one of the map, matches and comes before all others that do. -/
structure Leads (m : OverrideMap) (asker : Asker) (rule : ScopedOverride) : Prop where
  mem : rule ∈ m.scopedRules
  isMatch : rule.Matches asker
  first : ∀ other ∈ m.scopedRules, other.Matches asker → other = rule ∨ outranks rule other

open Classical in
theorem leads_iff {asker : Asker} : m.Leads asker rule ↔
    IsGreatestOf outranks (m.scopedRules.filter fun r => r.Matches asker) rule := by
  have hmem {r : ScopedOverride} : r ∈ m.scopedRules.filter (fun r => r.Matches asker) ↔
      r ∈ m.scopedRules ∧ r.Matches asker := by
    rw [List.mem_filter, decide_eq_true_iff]
  rw [IsGreatestOf, hmem]
  constructor
  · exact fun h => ⟨⟨h.mem, h.isMatch⟩, fun r hr => h.first r (hmem.mp hr).1 (hmem.mp hr).2⟩
  · exact fun h => ⟨h.1.1, h.1.2, fun r hr hmatch => h.2 r (hmem.mpr ⟨hr, hmatch⟩)⟩

open Classical in
theorem Sound.ranked (h : m.Sound) (asker : Asker) :
    Ranked outranks (m.scopedRules.filter fun r => r.Matches asker) := by
  refine @Overrides.ranked asker m.scopedRules h.distinct _ fun r hr => ?_
  rwa [List.mem_filter, decide_eq_true_iff] at hr

theorem Sound.answer_leads (h : m.Sound)
    (hleads : m.Leads (m.asker lockfile dependencyId nameHash) rule) :
    m.answer lockfile dependencyId nameHash = some (some rule.dep.version) := by
  rw [h.answer_eq, (greatest_eq_some (h.ranked _)).mpr (leads_iff.1 hleads)]

theorem Sound.answer_flat (h : m.Sound) (hnone : ∀ rule ∈ m.scopedRules,
      ¬ rule.Matches (m.asker lockfile dependencyId nameHash)) :
    m.answer lockfile dependencyId nameHash = some (m.getFlat nameHash) := by
  classical
  have hnil : m.scopedRules.filter
      (fun r => r.Matches (m.asker lockfile dependencyId nameHash)) = [] :=
    List.filter_eq_nil_iff.mpr fun r hr hmatch => hnone r hr (of_decide_eq_true hmatch)
  rw [h.answer_eq]
  simp only [hnil]
  rfl

theorem Sound.exists_leads (h : m.Sound) (asker : Asker) :
    (∃ rule, m.Leads asker rule) ∨ ∀ rule ∈ m.scopedRules, ¬ rule.Matches asker := by
  classical
  by_cases hne : (m.scopedRules.filter fun r => r.Matches asker) = []
  · refine .inr fun rule hrule hmatch => ?_
    exact List.filter_eq_nil_iff.mp hne rule hrule (decide_eq_true hmatch)
  · obtain ⟨rule, -, hgreatest⟩ := exists_greatest (h.ranked asker) hne
    exact .inl ⟨rule, leads_iff.2 hgreatest⟩

/-- The order of the rules does not change the answer. -/
theorem Sound.answer_congr (h : m.Sound) (h' : m'.Sound)
    (hrules : ∀ r, r ∈ m.scopedRules ↔ r ∈ m'.scopedRules)
    (hflat : m.getFlat nameHash = m'.getFlat nameHash) (hindex : m.ownerIndex = m'.ownerIndex) :
    m.answer lockfile dependencyId nameHash = m'.answer lockfile dependencyId nameHash := by
  have hasker : m.asker lockfile dependencyId nameHash = m'.asker lockfile dependencyId nameHash := by
    rw [asker, asker, hindex]
  rcases h.exists_leads (m.asker lockfile dependencyId nameHash) with ⟨rule, hleads⟩ | hnone
  · have hleads' : m'.Leads (m'.asker lockfile dependencyId nameHash) rule :=
      hasker ▸ ⟨(hrules rule).mp hleads.mem, hleads.isMatch,
        fun other hother => hleads.first other ((hrules other).mpr hother)⟩
    rw [h.answer_leads hleads, h'.answer_leads hleads']
  · rw [h.answer_flat hnone, hflat, h'.answer_flat]
    exact fun rule hrule => hasker ▸ hnone rule ((hrules rule).mpr hrule)

theorem Sound.sort (h : m.Sound) : m.sort.Sound where
  distinct := ((List.mergeSort_perm m.scopedRules _).map selector).nodup_iff.mpr h.distinct
  listed r hr := h.listed r ((List.mergeSort_perm m.scopedRules _).mem_iff.mp hr)

theorem Sound.answer_sort (h : m.Sound) : m.sort.answer lockfile dependencyId nameHash =
    m.answer lockfile dependencyId nameHash := by
  refine h.sort.answer_congr h (fun _ => (List.mergeSort_perm m.scopedRules _).mem_iff) ?_ rfl
  rw [getFlat, getFlat, OverrideMap.sort, ArrayMap.get?_sort]

/-! ## The rules as they were inserted -/

/-- A map with its flat rules, into which scoped rules are inserted one after the
other. -/
def insertScoped (map : ArrayMap UInt64 Dependency) (ownerIndex : OwnerIndex)
    (rules : List ScopedOverride) : OverrideMap :=
  rules.foldl pushScoped { map := map, ownerIndex := ownerIndex }

theorem pushScoped_kept : (m.pushScoped rule).map = m.map ∧
    (m.pushScoped rule).ownerIndex = m.ownerIndex := by
  rw [pushScoped]
  split
  · split <;> exact ⟨rfl, rfl⟩
  · exact ⟨rfl, rfl⟩

theorem foldl_pushScoped_kept (rules : List ScopedOverride) :
    (rules.foldl pushScoped m).map = m.map ∧
      (rules.foldl pushScoped m).ownerIndex = m.ownerIndex := by
  induction rules generalizing m with
  | nil => exact ⟨rfl, rfl⟩
  | cons rule rules ih =>
    rw [List.foldl_cons, ih.1, ih.2]
    exact pushScoped_kept

variable {map : ArrayMap UInt64 Dependency} {ownerIndex : OwnerIndex}
  {rules rules' : List ScopedOverride}

theorem insertScoped_spec : (insertScoped map ownerIndex rules).Sound ∧
    ∀ r, r ∈ (insertScoped map ownerIndex rules).scopedRules ↔ Effective rules r :=
  foldl_pushScoped (m := { map := map, ownerIndex := ownerIndex })
    ⟨List.nodup_nil, fun _ hr => absurd hr List.not_mem_nil⟩ rfl rules

theorem answer_insertScoped_congr (h : ∀ r, Effective rules r ↔ Effective rules' r) :
    (insertScoped map ownerIndex rules).answer lockfile dependencyId nameHash =
      (insertScoped map ownerIndex rules').answer lockfile dependencyId nameHash := by
  obtain ⟨hsound, hmem⟩ := @insertScoped_spec map ownerIndex rules
  obtain ⟨hsound', hmem'⟩ := @insertScoped_spec map ownerIndex rules'
  refine hsound.answer_congr hsound' (fun r => by rw [hmem, hmem', h]) ?_ ?_
  · rw [getFlat, getFlat, insertScoped, insertScoped, (foldl_pushScoped_kept rules).1,
      (foldl_pushScoped_kept rules').1]
  · rw [insertScoped, insertScoped, (foldl_pushScoped_kept rules).2,
      (foldl_pushScoped_kept rules').2]

/-- The rule matches, no later one replaces it, and it comes before all others of which
this holds. -/
structure Applies (rules : List ScopedOverride) (asker : Asker) (rule : ScopedOverride) : Prop where
  effective : Effective rules rule
  isMatch : rule.Matches asker
  first : ∀ other, Effective rules other → other.Matches asker →
    other = rule ∨ outranks rule other

end Answer

/-- The override of a dependency is the scoped rule that applies, or the flat rule when no
scoped rule matches; it does not depend on the order of the rules. -/
theorem answer_insertScoped (map : ArrayMap UInt64 Dependency) (ownerIndex : OwnerIndex)
    (rules : List ScopedOverride) (lockfile : OverrideLockfile)
    (dependencyId : Fin lockfile.dependencies.length) (nameHash : UInt64) :
    let m := insertScoped map ownerIndex rules
    let asker := m.asker lockfile dependencyId nameHash
    ((∃ rule, Applies rules asker rule ∧
        m.answer lockfile dependencyId nameHash = some (some rule.dep.version)) ∨
      (∀ rule, Effective rules rule → ¬ rule.Matches asker) ∧
        m.answer lockfile dependencyId nameHash =
          some ((map.get? nameHash).map Dependency.version)) ∧
    m.sort.answer lockfile dependencyId nameHash = m.answer lockfile dependencyId nameHash ∧
    (DistinctSelectors rules → ∀ rules', rules.Perm rules' →
      (insertScoped map ownerIndex rules').answer lockfile dependencyId nameHash =
        m.answer lockfile dependencyId nameHash) := by
  intro m asker
  obtain ⟨hsound, hmem⟩ := @insertScoped_spec map ownerIndex rules
  refine ⟨?_, hsound.answer_sort, fun hdistinct rules' hperm => ?_⟩
  · rcases hsound.exists_leads asker with ⟨rule, hleads⟩ | hnone
    · refine .inl ⟨rule, ⟨(hmem rule).mp hleads.mem, hleads.isMatch,
        fun other hother => hleads.first other ((hmem other).mpr hother)⟩, hsound.answer_leads hleads⟩
    · refine .inr ⟨fun rule hrule => hnone rule ((hmem rule).mpr hrule), ?_⟩
      rw [hsound.answer_flat hnone, getFlat, insertScoped, (foldl_pushScoped_kept rules).1]
  · have hdistinct' : DistinctSelectors rules' := (hperm.map selector).nodup_iff.mp hdistinct
    refine answer_insertScoped_congr fun r => ?_
    rw [effective_of_distinct hdistinct, effective_of_distinct hdistinct', hperm.mem_iff]

end OverrideMap
end OhosBun.Install.Overrides
