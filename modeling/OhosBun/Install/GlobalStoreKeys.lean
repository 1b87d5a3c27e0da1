/-
# `OhosBun.Install.GlobalStoreKeys` — what the three passes compute

    Hashed           what an entry's hasher has read of its dependencies
    DfsInv           the first pass, kept by every turn
    dfsPass_spec     its result
    sccPass_spec     the hash of a component, from the hashes of the components
                     it leads to
    entryHash_eq     an entry that reaches no ineligible one keeps that hash
-/
import OhosBun.Install.GlobalStore

namespace OhosBun.Install

open OhosBun.Lib

/-! ## The first pass -/

/-- What the hasher of entry `x` has read after `ds`: the name and the hash of a
dependency that was done, the name of one that was in progress and so leads to
`x`. -/
inductive Hashed (S : Store) (s : Dfs) (x : Nat) : List EntryDependency → List HashInput → Prop where
  | nil : Hashed S s x [] []
  | done {ds : List EntryDependency} {inputs : List HashInput} {d : EntryDependency} :
      Hashed S s x ds inputs → s.states d.entryId = .done → d.entryId ≠ x →
      Hashed S s x (ds ++ [d])
        (inputs ++ [.nameHash d.nameHash, .hash (s.hashes d.entryId)])
  | back {ds : List EntryDependency} {inputs : List HashInput} {d : EntryDependency} :
      Hashed S s x ds inputs → S.graph.Reach d.entryId x →
      Hashed S s x (ds ++ [d]) (inputs ++ [.nameHash d.nameHash])

/-- What is done stays as it is. -/
theorem Hashed.mono {S : Store} {s s' : Dfs} {x : Nat} {ds : List EntryDependency}
    {inputs : List HashInput} (h : Hashed S s x ds inputs)
    (hdone : ∀ y, s.states y = .done → s'.states y = .done ∧ s'.hashes y = s.hashes y) :
    Hashed S s' x ds inputs := by
  induction h with
  | nil => exact .nil
  | done _ hd hne ih =>
    obtain ⟨hd', hh⟩ := hdone _ hd
    rw [← hh]
    exact .done ih hd' hne
  | back _ hr ih => exact .back ih hr

namespace Store
variable (S : Store)

/-- The entry leads to one that cannot live in the global store. -/
def Poisoned (x : Nat) : Prop := ∃ y, S.graph.Reach x y ∧ (S.entry y).eligible = false

variable {S}

theorem edge_of_mem {x : Nat} {d : EntryDependency} (h : d ∈ S.deps x) :
    S.graph.Edge x d.entryId :=
  List.mem_map_of_mem h

theorem Poisoned.of_edge {x y : Nat} (h : S.Poisoned y) (hedge : S.graph.Edge x y) :
    S.Poisoned x := by
  obtain ⟨z, hz, hbad⟩ := h
  exact ⟨z, .head hedge hz, hbad⟩

end Store

section First
variable (wyhash : UInt64 → List HashInput → Nat) (S : Store)

/-- The hash of an entry that is done. -/
def DoneHash (s : Dfs) (x : Nat) : Prop :=
  ∃ inputs, Hashed S s x (S.deps x) inputs ∧
    s.hashes x = nonZero (wyhash 0x9E3779B97F4A7C15 (S.ownInputs x ++ inputs))

/-- Only the top of the stack may be unvisited; the others are in progress, each
leading to those above it. -/
structure DfsInv (s : Dfs) : Prop where
  lt : ∀ f ∈ s.stack, f.id < S.entries.length
  nodup : (s.stack.map (·.id)).Nodup
  tail : ∀ f ∈ s.stack.tail, s.states f.id = .inProgress
  live : ∀ f ∈ s.stack, s.states f.id = .unvisited ∨ s.states f.id = .inProgress
  fresh : ∀ f ∈ s.stack, s.states f.id = .unvisited → f.nextDep = 0
  inProgress : ∀ x, s.states x = .inProgress → x ∈ s.stack.map (·.id)
  reach : (s.stack.map (·.id)).Pairwise fun a b => S.graph.Reach b a
  hasher : ∀ f ∈ s.stack, s.states f.id = .inProgress →
    ∃ inputs, f.hasher = S.ownInputs f.id ++ inputs ∧
      Hashed S s f.id ((S.deps f.id).take f.nextDep) inputs
  done : ∀ x, s.states x = .done → DoneHash wyhash S s x
  ineligible : ∀ x, s.states x = .ineligible → s.hashes x = 0 ∧ S.Poisoned x
  eligible : ∀ x, s.states x = .inProgress ∨ s.states x = .done → (S.entry x).eligible = true
  roots : ∀ x < s.root, s.states x ≠ .unvisited ∨ x ∈ s.stack.map (·.id)

variable {wyhash S} {s : Dfs} {top : StackFrame} {rest : List StackFrame}

theorem DfsInv.rest_inProgress (h : DfsInv wyhash S s) (hstack : s.stack = top :: rest) :
    ∀ f ∈ rest, s.states f.id = .inProgress := by
  intro f hf
  exact h.tail f (by rw [hstack]; exact hf)

theorem DfsInv.top_not_mem (h : DfsInv wyhash S s) (hstack : s.stack = top :: rest) :
    top.id ∉ rest.map (·.id) := by
  have hnodup := h.nodup
  rw [hstack] at hnodup
  exact (List.nodup_cons.mp hnodup).1

variable {s' : Dfs} {x : Nat} {dep : EntryDependency}

/-- A change that keeps what is done, ineligible or in progress. -/
theorem DoneHash.mono (h : DoneHash wyhash S s x) (hx : s'.hashes x = s.hashes x)
    (hdone : ∀ y, s.states y = .done → s'.states y = .done ∧ s'.hashes y = s.hashes y) :
    DoneHash wyhash S s' x := by
  obtain ⟨inputs, hin, hh⟩ := h
  exact ⟨inputs, hin.mono hdone, hx.trans hh⟩

/-- The top is entered. -/
theorem DfsInv.enter (h : DfsInv wyhash S s) (hstack : s.stack = top :: rest)
    (hnew : s.states top.id = .unvisited) (heligible : (S.entry top.id).eligible = true)
    (hself : s'.states top.id = .inProgress) (hold : ∀ x ≠ top.id, s'.states x = s.states x)
    (hhashes : s'.hashes = s.hashes)
    (hstack' : s'.stack = { top with hasher := S.ownInputs top.id } :: rest) (hroot : s'.root = s.root) :
    DfsInv wyhash S s' := by
  have hids : s'.stack.map (·.id) = s.stack.map (·.id) := by rw [hstack, hstack']; rfl
  have htop := h.top_not_mem hstack
  have hrest := h.rest_inProgress hstack
  have hmem : top ∈ s.stack := hstack ▸ List.mem_cons_self
  have hfresh := h.fresh top hmem hnew
  have hne {f : StackFrame} (hf : f ∈ rest) : f.id ≠ top.id :=
    fun he => htop (he ▸ List.mem_map_of_mem hf)
  have hprog {f : StackFrame} (hf : f ∈ rest) : s'.states f.id = .inProgress :=
    (hold f.id (hne hf)).trans (hrest f hf)
  have hdone (y : Nat) (hy : s.states y = .done) :
      s'.states y = .done ∧ s'.hashes y = s.hashes y := by
    refine ⟨(hold y ?_).trans hy, by rw [hhashes]⟩
    rintro rfl
    exact absurd (hnew.symm.trans hy) (by simp)
  have hne_of {x : Nat} {st : EntryState} (hx : s'.states x = st) (hst : st ≠ .inProgress) :
      x ≠ top.id := by
    rintro rfl
    exact hst (hx.symm.trans hself)
  refine ⟨?_, hids ▸ h.nodup, ?_, ?_, ?_, ?_, hids ▸ h.reach, ?_, ?_, ?_, ?_, ?_⟩
  · intro f hf
    rw [hstack'] at hf
    rcases List.mem_cons.mp hf with rfl | hf
    · exact h.lt top hmem
    · exact h.lt f (hstack ▸ List.mem_cons_of_mem _ hf)
  · intro f hf
    rw [hstack'] at hf
    exact hprog hf
  · intro f hf
    rw [hstack'] at hf
    rcases List.mem_cons.mp hf with rfl | hf
    · exact .inr hself
    · exact .inr (hprog hf)
  · intro f hf hun
    rw [hstack'] at hf
    rcases List.mem_cons.mp hf with rfl | hf
    · exact hfresh
    · exact absurd (hun.symm.trans (hprog hf)) (by simp)
  · intro x hx
    rw [hids]
    by_cases hxt : x = top.id
    · exact hxt ▸ List.mem_map_of_mem hmem
    · exact h.inProgress x ((hold x hxt).symm.trans hx)
  · intro f hf hp
    rw [hstack'] at hf
    rcases List.mem_cons.mp hf with rfl | hf
    · refine ⟨[], (List.append_nil _).symm, ?_⟩
      show Hashed S _ top.id ((S.deps top.id).take top.nextDep) []
      rw [hfresh, List.take_zero]
      exact .nil
    · obtain ⟨inputs, hin, hh⟩ := h.hasher f (hstack ▸ List.mem_cons_of_mem _ hf) (hrest f hf)
      exact ⟨inputs, hin, hh.mono hdone⟩
  · intro x hx
    exact (h.done x ((hold x (hne_of hx (by simp))).symm.trans hx)).mono (by rw [hhashes]) hdone
  · intro x hx
    rw [hhashes]
    exact h.ineligible x ((hold x (hne_of hx (by simp))).symm.trans hx)
  · intro x hx
    by_cases hxt : x = top.id
    · exact hxt ▸ heligible
    · rw [hold x hxt] at hx
      exact h.eligible x hx
  · intro x hx
    rw [hroot] at hx
    rw [hids]
    by_cases hxt : x = top.id
    · exact .inr (hxt ▸ List.mem_map_of_mem hmem)
    · rw [hold x hxt]
      exact h.roots x hx

/-- The top is settled, as done or as ineligible, and leaves the stack. -/
theorem DfsInv.settle (h : DfsInv wyhash S s) (hstack : s.stack = top :: rest)
    (hlive : s.states top.id ≠ .done) (hold : ∀ x ≠ top.id, s'.states x = s.states x)
    (hhashes : ∀ x ≠ top.id, s'.hashes x = s.hashes x) (hstack' : s'.stack = rest)
    (hroot : s'.root = s.root) (hself : s'.states top.id = .done ∧ s.states top.id = .inProgress ∧
        DoneHash wyhash S s' top.id ∨
      s'.states top.id = .ineligible ∧ s'.hashes top.id = 0 ∧ S.Poisoned top.id) :
    DfsInv wyhash S s' := by
  have htop := h.top_not_mem hstack
  have hrest := h.rest_inProgress hstack
  have hsub {f : StackFrame} (hf : f ∈ s'.stack) : f ∈ s.stack :=
    hstack ▸ List.mem_cons_of_mem _ (hstack' ▸ hf)
  have hne {f : StackFrame} (hf : f ∈ rest) : f.id ≠ top.id :=
    fun he => htop (he ▸ List.mem_map_of_mem hf)
  have hprog {f : StackFrame} (hf : f ∈ s'.stack) : s'.states f.id = .inProgress := by
    rw [hstack'] at hf
    exact (hold f.id (hne hf)).trans (hrest f hf)
  have hnodup := h.nodup
  have hreach := h.reach
  rw [hstack, List.map_cons] at hnodup hreach
  have hdone (y : Nat) (hy : s.states y = .done) :
      s'.states y = .done ∧ s'.hashes y = s.hashes y := by
    have hyt : y ≠ top.id := by
      rintro rfl
      exact hlive hy
    exact ⟨(hold y hyt).trans hy, hhashes y hyt⟩
  refine ⟨fun f hf => h.lt f (hsub hf), ?_, fun f hf => hprog (List.mem_of_mem_tail hf),
    fun f hf => .inr (hprog hf), ?_, ?_, ?_, ?_, ?_, ?_, ?_, ?_⟩
  · rw [hstack']
    exact (List.nodup_cons.mp hnodup).2
  · intro f hf hun
    exact absurd (hun.symm.trans (hprog hf)) (by simp)
  · intro x hx
    have hxt : x ≠ top.id := by
      rintro rfl
      rcases hself with ⟨hd, -⟩ | ⟨hd, -⟩
      · exact absurd (hd.symm.trans hx) (by simp)
      · exact absurd (hd.symm.trans hx) (by simp)
    have hmem := h.inProgress x ((hold x hxt).symm.trans hx)
    rw [hstack, List.map_cons] at hmem
    rw [hstack']
    exact (List.mem_cons.mp hmem).resolve_left hxt
  · rw [hstack']
    exact (List.pairwise_cons.mp hreach).2
  · intro f hf _
    have hf' : f ∈ rest := hstack' ▸ hf
    obtain ⟨inputs, hin, hh⟩ := h.hasher f (hsub hf) (hrest f hf')
    exact ⟨inputs, hin, hh.mono hdone⟩
  · intro x hx
    by_cases hxt : x = top.id
    · subst hxt
      rcases hself with ⟨-, -, hd⟩ | ⟨hd, -⟩
      · exact hd
      · exact absurd (hd.symm.trans hx) (by simp)
    · exact (h.done x ((hold x hxt).symm.trans hx)).mono (hhashes x hxt) hdone
  · intro x hx
    by_cases hxt : x = top.id
    · subst hxt
      rcases hself with ⟨hd, -⟩ | ⟨-, hd⟩
      · exact absurd (hd.symm.trans hx) (by simp)
      · exact hd
    · rw [hhashes x hxt]
      exact h.ineligible x ((hold x hxt).symm.trans hx)
  · intro x hx
    by_cases hxt : x = top.id
    · subst hxt
      rcases hself with ⟨-, hp, -⟩ | ⟨hd, -⟩
      · exact h.eligible _ (.inl hp)
      · rw [hd] at hx
        exact absurd hx (by simp)
    · rw [hold x hxt] at hx
      exact h.eligible x hx
  · intro x hx
    rw [hroot] at hx
    by_cases hxt : x = top.id
    · subst hxt
      rcases hself with ⟨hd, -⟩ | ⟨hd, -⟩
      · exact .inl (by rw [hd]; simp)
      · exact .inl (by rw [hd]; simp)
    · rw [hold x hxt, hstack']
      rcases h.roots x hx with hx | hx
      · exact .inl hx
      · rw [hstack, List.map_cons] at hx
        exact .inr ((List.mem_cons.mp hx).resolve_left hxt)

theorem DfsInv.reject (h : DfsInv wyhash S s) (hstack : s.stack = top :: rest)
    (hlive : s.states top.id ≠ .done) (hpoisoned : S.Poisoned top.id) :
    DfsInv wyhash S (s.reject top.id rest) := by
  refine h.settle hstack hlive (fun x hx => ?_) (fun x hx => ?_) rfl rfl (.inr ⟨?_, ?_, hpoisoned⟩)
  · exact Function.update_of_ne hx _ _
  · exact Function.update_of_ne hx _ _
  · exact Function.update_self _ _ _
  · exact Function.update_self _ _ _

theorem DfsInv.finish (h : DfsInv wyhash S s) (hstack : s.stack = top :: rest)
    (hlive : s.states top.id = .inProgress) (hend : (S.deps top.id)[top.nextDep]? = none) :
    DfsInv wyhash S (dfsFinish wyhash s top rest) := by
  have hmem : top ∈ s.stack := hstack ▸ List.mem_cons_self
  obtain ⟨inputs, hin, hh⟩ := h.hasher top hmem hlive
  have hdone (y : Nat) (hy : s.states y = .done) :
      (dfsFinish wyhash s top rest).states y = .done ∧
        (dfsFinish wyhash s top rest).hashes y = s.hashes y := by
    have hyt : y ≠ top.id := by
      rintro rfl
      exact absurd (hlive.symm.trans hy) (by simp)
    exact ⟨(Function.update_of_ne hyt _ _).trans hy, Function.update_of_ne hyt _ _⟩
  refine h.settle hstack (by rw [hlive]; simp) (fun x hx => ?_) (fun x hx => ?_) rfl rfl
    (.inl ⟨?_, hlive, inputs, ?_, ?_⟩)
  · exact Function.update_of_ne hx _ _
  · exact Function.update_of_ne hx _ _
  · exact Function.update_self _ _ _
  · rw [List.take_of_length_le (List.getElem?_eq_none_iff.mp hend)] at hh
    exact hh.mono hdone
  · rw [← hin]
    exact Function.update_self _ _ _

/-- The hasher has read one more dependency. -/
theorem DfsInv.next (h : DfsInv wyhash S s) (hstack : s.stack = top :: rest)
    (hlive : s.states top.id = .inProgress) (hdep : (S.deps top.id)[top.nextDep]? = some dep)
    {inputs : List HashInput}
    (hread : ∀ {ds ins}, Hashed S s top.id ds ins → Hashed S s top.id (ds ++ [dep]) (ins ++ inputs)) :
    DfsInv wyhash S (s.next top inputs rest) := by
  have hids : (s.next top inputs rest).stack.map (·.id) = s.stack.map (·.id) := by
    rw [hstack]; rfl
  have hmem : top ∈ s.stack := hstack ▸ List.mem_cons_self
  have hrest := h.rest_inProgress hstack
  have hframe {P : StackFrame → Prop} (htop : P { top with nextDep := top.nextDep + 1, hasher := top.hasher ++ inputs })
      (hP : ∀ f ∈ rest, P f) : ∀ f ∈ (s.next top inputs rest).stack, P f := by
    intro f hf
    have hf : f ∈ _ :: rest := hf
    rcases List.mem_cons.mp hf with rfl | hf
    · exact htop
    · exact hP f hf
  refine ⟨?_, hids ▸ h.nodup, hrest, ?_, ?_, hids ▸ h.inProgress, hids ▸ h.reach, ?_, ?_,
    h.ineligible, h.eligible, hids ▸ h.roots⟩
  · exact hframe (h.lt top hmem) fun f hf => h.lt f (hstack ▸ List.mem_cons_of_mem _ hf)
  · exact hframe (.inr hlive) fun f hf => .inr (hrest f hf)
  · refine hframe (fun hun => absurd (hun.symm.trans hlive) (by simp)) fun f hf hun => ?_
    exact absurd (hun.symm.trans (hrest f hf)) (by simp)
  · refine hframe (fun _ => ?_) fun f hf _ => ?_
    · obtain ⟨ins, hin, hh⟩ := h.hasher top hmem hlive
      refine ⟨ins ++ inputs, by rw [hin, List.append_assoc], ?_⟩
      show Hashed S _ top.id ((S.deps top.id).take (top.nextDep + 1)) _
      rw [List.take_add_one, hdep]
      exact (hread hh).mono fun _ hy => ⟨hy, rfl⟩
    · obtain ⟨ins, hin, hh⟩ := h.hasher f (hstack ▸ List.mem_cons_of_mem _ hf) (hrest f hf)
      exact ⟨ins, hin, hh.mono fun _ hy => ⟨hy, rfl⟩⟩
  · exact fun x hx => (h.done x hx).mono rfl fun _ hy => ⟨hy, rfl⟩

/-- An unvisited dependency goes on the stack. -/
theorem DfsInv.push (h : DfsInv wyhash S s) (hstack : s.stack = top :: rest)
    (hlive : s.states top.id = .inProgress) (hdep : dep ∈ S.deps top.id)
    (hnew : s.states dep.entryId = .unvisited) :
    DfsInv wyhash S { s with stack := ⟨dep.entryId, 0, []⟩ :: top :: rest } := by
  have hrest := h.rest_inProgress hstack
  have hprog : ∀ f ∈ top :: rest, s.states f.id = .inProgress := by
    intro f hf
    rcases List.mem_cons.mp hf with rfl | hf
    · exact hlive
    · exact hrest f hf
  have hlt := h.lt
  have hlives := h.live
  have hfresh := h.fresh
  have hnodup := h.nodup
  have hreach := h.reach
  have hinProgress := h.inProgress
  have hroots := h.roots
  have hhasher := h.hasher
  rw [hstack] at hlt hlives hfresh hnodup hreach hinProgress hroots hhasher
  refine ⟨?_, ?_, hprog, ?_, ?_, ?_, ?_, ?_, ?_, h.ineligible, h.eligible, ?_⟩
  · intro f hf
    rcases List.mem_cons.mp hf with rfl | hf
    · exact (S.deps_lt hdep).2
    · exact hlt f hf
  · refine List.nodup_cons.mpr ⟨fun hm => ?_, hnodup⟩
    obtain ⟨f, hf, he⟩ := List.mem_map.mp hm
    exact absurd ((he ▸ hprog f hf).symm.trans hnew) (by simp)
  · intro f hf
    rcases List.mem_cons.mp hf with rfl | hf
    · exact .inl hnew
    · exact hlives f hf
  · intro f hf hun
    rcases List.mem_cons.mp hf with rfl | hf
    · rfl
    · exact hfresh f hf hun
  · exact fun x hx => List.mem_cons_of_mem _ (hinProgress x hx)
  · refine List.pairwise_cons.mpr ⟨?_, hreach⟩
    intro x hx
    rcases List.mem_cons.mp hx with rfl | hx
    · exact .single (S.edge_of_mem hdep)
    · exact ((List.pairwise_cons.mp hreach).1 x hx).tail (S.edge_of_mem hdep)
  · intro f hf hp
    rcases List.mem_cons.mp hf with rfl | hf
    · exact absurd (hnew.symm.trans hp) (by simp)
    · obtain ⟨ins, hin, hh⟩ := hhasher f hf hp
      exact ⟨ins, hin, hh.mono fun _ hy => ⟨hy, rfl⟩⟩
  · exact fun x hx => (h.done x hx).mono rfl fun _ hy => ⟨hy, rfl⟩
  · intro x hx
    rcases hroots x hx with hx | hx
    · exact .inl hx
    · exact .inr (List.mem_cons_of_mem _ hx)

theorem DfsInv.link (h : DfsInv wyhash S s) (hstack : s.stack = top :: rest)
    (hlive : s.states top.id = .inProgress) (hdep : (S.deps top.id)[top.nextDep]? = some dep) :
    DfsInv wyhash S (dfsLink s top rest dep) := by
  have hmem : dep ∈ S.deps top.id := List.mem_of_getElem? hdep
  unfold dfsLink
  split
  · next hd =>
      refine h.next hstack hlive hdep fun hh => .done hh hd ?_
      intro he
      exact absurd ((he ▸ hd).symm.trans hlive) (by simp)
  · next hd =>
      refine h.reject hstack (by rw [hlive]; simp) ?_
      exact (h.ineligible _ hd).2.of_edge (S.edge_of_mem hmem)
  · next hd =>
      refine h.next hstack hlive hdep fun hh => .back hh ?_
      -- what is in progress is on the stack, and leads to its top
      have hin := h.inProgress _ hd
      have hreach := h.reach
      rw [hstack, List.map_cons] at hin hreach
      rcases List.mem_cons.mp hin with he | hin
      · rw [he]
        exact .refl
      · exact (List.pairwise_cons.mp hreach).1 _ hin
  · next hd => exact h.push hstack hlive hmem hd

theorem DfsInv.step (h : DfsInv wyhash S s) : DfsInv wyhash S (dfsStep wyhash S s) := by
  unfold dfsStep
  split
  · next hstack =>
      split
      · next hroot =>
          have hnone : ∀ x, s.states x ≠ .inProgress := by
            intro x hx
            have hmem := h.inProgress x hx
            rw [hstack] at hmem
            exact absurd hmem List.not_mem_nil
          have hroots (stack : List StackFrame) (hlast : s.states s.root ≠ .unvisited ∨
              s.root ∈ stack.map (·.id)) : ∀ x < s.root + 1, s.states x ≠ .unvisited ∨
                x ∈ stack.map (·.id) := by
            intro x hx
            rcases Nat.lt_succ_iff_lt_or_eq.mp hx with hx | rfl
            · rcases h.roots x hx with hx | hx
              · exact .inl hx
              · rw [hstack] at hx
                exact absurd hx List.not_mem_nil
            · exact hlast
          split
          · next hnew =>
              refine ⟨by simpa using hroot, by simp, by simp, by simpa using .inl hnew, by simp,
                fun x hx => absurd hx (hnone x), by simp, ?_, ?_, h.ineligible,
                h.eligible, hroots _ (.inr (by simp))⟩
              · intro f hf hp
                exact absurd hp (hnone f.id)
              · exact fun x hx => (h.done x hx).mono rfl fun _ hy => ⟨hy, rfl⟩
          · next hold =>
              refine { h with
                roots := hroots s.stack (.inl hold)
                hasher := ?_
                done := ?_ }
              · intro f hf
                rw [hstack] at hf
                exact absurd hf List.not_mem_nil
              · exact fun x hx => (h.done x hx).mono rfl fun _ hy => ⟨hy, rfl⟩
      · exact h
  · next top rest hstack =>
      have hmem : top ∈ s.stack := hstack ▸ List.mem_cons_self
      split
      · next hnew =>
          split
          · next heligible =>
              exact h.enter hstack hnew heligible (Function.update_self _ _ _)
                (fun x hx => Function.update_of_ne hx _ _) rfl rfl rfl
          · next hbad =>
              refine h.reject hstack (by rw [hnew]; simp) ⟨top.id, .refl, ?_⟩
              simpa using hbad
      · next hbad =>
          rcases h.live top hmem with hl | hl
          · exact absurd (hl.symm.trans hbad) (by simp)
          · exact absurd (hl.symm.trans hbad) (by simp)
      · next hlive =>
          split
          · next dep hdep => exact h.link hstack hlive hdep
          · next hend => exact h.finish hstack hlive hend
      · next hbad =>
          rcases h.live top hmem with hl | hl
          · exact absurd (hl.symm.trans hbad) (by simp)
          · exact absurd (hl.symm.trans hbad) (by simp)

theorem dfsInv_start : DfsInv wyhash S .start := by
  refine ⟨?_, ?_, ?_, ?_, ?_, ?_, ?_, ?_, ?_, ?_, ?_, ?_⟩ <;> simp [Dfs.start]

/-! ### It ends -/

theorem sum_dfsFrameTurns_congr {l : List StackFrame} (h : ∀ f ∈ l, s'.states f.id = s.states f.id) :
    (l.map (dfsFrameTurns S s')).sum = (l.map (dfsFrameTurns S s)).sum :=
  congrArg List.sum (List.map_congr_left fun f hf => by simp [dfsFrameTurns, h f hf])

/-- One entry changes its state. -/
theorem sum_dfsNewTurns (hx : x < S.entries.length) (hold : ∀ y ≠ x, s'.states y = s.states y) :
    ∑ i ∈ Finset.range S.entries.length, dfsNewTurns S s' i + dfsNewTurns S s x =
      ∑ i ∈ Finset.range S.entries.length, dfsNewTurns S s i + dfsNewTurns S s' x := by
  have hmem := Finset.mem_range.mpr hx
  have hrest : ∑ i ∈ (Finset.range S.entries.length).erase x, dfsNewTurns S s' i =
      ∑ i ∈ (Finset.range S.entries.length).erase x, dfsNewTurns S s i := by
    refine Finset.sum_congr rfl fun y hy => ?_
    rw [dfsNewTurns, hold y (Finset.ne_of_mem_erase hy), dfsNewTurns]
  rw [← Finset.add_sum_erase _ _ hmem, ← Finset.add_sum_erase _ (dfsNewTurns S s) hmem, hrest]
  omega

theorem dfsTopTurn_le (s : Dfs) : dfsTopTurn s ≤ 1 := by
  unfold dfsTopTurn
  split
  · exact Nat.zero_le 1
  · split
    · exact Nat.zero_le 1
    · exact le_rfl

theorem dfsTurns_settle_lt (h : DfsInv wyhash S s) (hstack : s.stack = top :: rest)
    (hold : ∀ x ≠ top.id, s'.states x = s.states x) (hself : s'.states top.id ≠ .unvisited)
    (hstack' : s'.stack = rest) (hroot : s'.root = s.root) : dfsTurns S s' < dfsTurns S s := by
  have htop := h.top_not_mem hstack
  have hsum := sum_dfsNewTurns (S := S) (h.lt top (hstack ▸ List.mem_cons_self)) hold
  have hframes : (rest.map (dfsFrameTurns S s')).sum = (rest.map (dfsFrameTurns S s)).sum :=
    sum_dfsFrameTurns_congr fun f hf => hold f.id fun he => htop (he ▸ List.mem_map_of_mem hf)
  have hle := dfsTopTurn_le s'
  have hnew : dfsNewTurns S s' top.id = 0 := by rw [dfsNewTurns, if_neg hself]
  have htopTurn : dfsTopTurn s = if s.states top.id = .unvisited then 0 else 1 := by
    rw [dfsTopTurn, hstack]
  rw [dfsTurns, dfsTurns, hstack, hstack', hroot, hframes, List.map_cons, List.sum_cons, htopTurn]
  rw [hnew] at hsum
  by_cases hun : s.states top.id = .unvisited
  · simp only [dfsFrameTurns, dfsNewTurns, hun, if_true] at hsum ⊢
    omega
  · simp only [dfsFrameTurns, dfsNewTurns, hun, if_false] at hsum ⊢
    omega

theorem dfsTurns_enter_lt (h : DfsInv wyhash S s) (hstack : s.stack = top :: rest)
    (hnew : s.states top.id = .unvisited) (hself : s'.states top.id = .inProgress)
    (hold : ∀ x ≠ top.id, s'.states x = s.states x)
    (hstack' : s'.stack = { top with hasher := S.ownInputs top.id } :: rest) (hroot : s'.root = s.root) :
    dfsTurns S s' < dfsTurns S s := by
  have hmem : top ∈ s.stack := hstack ▸ List.mem_cons_self
  have htop := h.top_not_mem hstack
  have hsum := sum_dfsNewTurns (S := S) (h.lt top hmem) hold
  have hframes : (rest.map (dfsFrameTurns S s')).sum = (rest.map (dfsFrameTurns S s)).sum :=
    sum_dfsFrameTurns_congr fun f hf => hold f.id fun he => htop (he ▸ List.mem_map_of_mem hf)
  rw [dfsTurns, dfsTurns, hroot, dfsTopTurn, dfsTopTurn, hstack, hstack', List.map_cons,
    List.map_cons, List.sum_cons, List.sum_cons, hframes]
  simp only [dfsFrameTurns, dfsNewTurns, hself, hnew, h.fresh top hmem hnew, reduceCtorEq, if_false,
    if_true] at hsum ⊢
  omega

/-- The turns of a state that differs in its stack only. -/
theorem dfsTurns_stack_lt (hstates : s'.states = s.states) (hroot : s'.root = s.root)
    (hlt : dfsTopTurn s' + (s'.stack.map (dfsFrameTurns S s)).sum <
      dfsTopTurn s + (s.stack.map (dfsFrameTurns S s)).sum) : dfsTurns S s' < dfsTurns S s := by
  have hnew : dfsNewTurns S s' = dfsNewTurns S s := by
    funext i
    rw [dfsNewTurns, dfsNewTurns, hstates]
  have hframes : (s'.stack.map (dfsFrameTurns S s')).sum = (s'.stack.map (dfsFrameTurns S s)).sum :=
    sum_dfsFrameTurns_congr fun f _ => by rw [hstates]
  rw [dfsTurns, dfsTurns, hnew, hframes, hroot]
  omega

theorem dfsTurns_link_lt (h : DfsInv wyhash S s) (hstack : s.stack = top :: rest)
    (hlive : s.states top.id = .inProgress) (hdep : (S.deps top.id)[top.nextDep]? = some dep) :
    dfsTurns S (dfsLink s top rest dep) < dfsTurns S s := by
  have hlt : top.nextDep < (S.deps top.id).length := (List.getElem?_eq_some_iff.mp hdep).1
  have hnext (inputs : List HashInput) : dfsTurns S (s.next top inputs rest) < dfsTurns S s := by
    refine dfsTurns_stack_lt rfl rfl ?_
    rw [hstack]
    simp only [dfsTopTurn, Dfs.next, hstack, hlive, List.map_cons, List.sum_cons, dfsFrameTurns,
      reduceCtorEq, if_false]
    omega
  unfold dfsLink
  split
  · exact hnext _
  · exact dfsTurns_settle_lt h hstack (fun x hx => Function.update_of_ne hx _ _)
      (by simp [Dfs.reject]) rfl rfl
  · exact hnext _
  · next hnew =>
      refine dfsTurns_stack_lt rfl rfl ?_
      rw [hstack]
      simp only [dfsTopTurn, hstack, hlive, hnew, List.map_cons, List.sum_cons, dfsFrameTurns,
        reduceCtorEq, if_false, if_true]
      omega

def DfsDone (S : Store) (s : Dfs) : Prop := s.stack = [] ∧ S.entries.length ≤ s.root

theorem dfsTurns_step_lt (h : DfsInv wyhash S s) (hnot : ¬ DfsDone S s) :
    dfsTurns S (dfsStep wyhash S s) < dfsTurns S s := by
  unfold dfsStep
  split
  · next hstack =>
      have hroot : s.root < S.entries.length := by
        by_contra hge
        exact hnot ⟨hstack, Nat.not_lt.mp hge⟩
      rw [if_pos hroot]
      split
      · next hnew =>
          simp only [dfsTurns, dfsTopTurn, hstack, hnew, List.map_cons, List.map_nil, List.sum_cons,
            List.sum_nil, dfsFrameTurns, if_true, dfsNewTurns]
          omega
      · simp only [dfsTurns, dfsTopTurn, hstack, List.map_nil, List.sum_nil, dfsNewTurns]
        omega
  · next top rest hstack =>
      have hmem : top ∈ s.stack := hstack ▸ List.mem_cons_self
      have hreject : dfsTurns S (s.reject top.id rest) < dfsTurns S s :=
        dfsTurns_settle_lt h hstack (fun x hx => Function.update_of_ne hx _ _)
          (by simp [Dfs.reject]) rfl rfl
      split
      · next hnew =>
          split
          · exact dfsTurns_enter_lt h hstack hnew (Function.update_self _ _ _)
              (fun x hx => Function.update_of_ne hx _ _) rfl rfl
          · exact hreject
      · next hbad =>
          rcases h.live top hmem with hl | hl
          · exact absurd (hl.symm.trans hbad) (by simp)
          · exact absurd (hl.symm.trans hbad) (by simp)
      · next hlive =>
          split
          · next dep hdep => exact dfsTurns_link_lt h hstack hlive hdep
          · exact dfsTurns_settle_lt h hstack (fun x hx => Function.update_of_ne hx _ _)
              (by simp [dfsFinish]) rfl rfl
      · next hbad =>
          rcases h.live top hmem with hl | hl
          · exact absurd (hl.symm.trans hbad) (by simp)
          · exact absurd (hl.symm.trans hbad) (by simp)

theorem dfsStep_of_done (h : DfsDone S s) : dfsStep wyhash S s = s := by
  unfold dfsStep
  rw [h.1]
  simp [Nat.not_lt.mpr h.2]

variable (wyhash S)

theorem dfsPass_inv : DfsInv wyhash S (dfsPass wyhash S) ∧ DfsDone S (dfsPass wyhash S) :=
  done_iterate (dfsStep wyhash S) (DfsInv wyhash S) (DfsDone S) (dfsTurns S)
    (fun _ => dfsStep_of_done) (fun _ h hnot => ⟨h.step, dfsTurns_step_lt h hnot⟩) _ dfsInv_start
    le_rfl

/-- **The first pass**: an entry has no hash when it leads to an ineligible one
and the pass has seen it; else its hash is that of its own data and of what was
read of its dependencies. -/
theorem dfsPass_spec (hx : x < S.entries.length) :
    (dfsPass wyhash S).hashes x = 0 ∧ S.Poisoned x ∨
      (dfsPass wyhash S).states x = .done ∧ (S.entry x).eligible = true ∧
        DoneHash wyhash S (dfsPass wyhash S) x := by
  obtain ⟨h, hstack, hroot⟩ := dfsPass_inv wyhash S
  have hempty {y : Nat} : y ∉ (dfsPass wyhash S).stack.map (·.id) := by
    rw [hstack]
    exact List.not_mem_nil
  cases hs : (dfsPass wyhash S).states x with
  | unvisited =>
    rcases h.roots x (hx.trans_le hroot) with hu | hmem
    · exact absurd hs hu
    · exact absurd hmem hempty
  | inProgress => exact absurd (h.inProgress x hs) hempty
  | ineligible => exact .inl (h.ineligible x hs)
  | done => exact .inr ⟨rfl, h.eligible x (.inr hs), h.done x hs⟩

end First

/-! ## The last pass -/

section Close
variable (S : Store) {h g : Nat → Nat}

/-- The hashes of `g` are those of `h`, some of them taken away. -/
def Fewer (h g : Nat → Nat) : Prop := ∀ x, g x = h x ∨ g x = 0

theorem Fewer.trans {f : Nat → Nat} (hf : Fewer f h) (hg : Fewer h g) : Fewer f g := by
  intro x
  rcases hg x with hx | hx
  · rw [hx]
    exact hf x
  · exact .inr hx

theorem Fewer.zero (hg : Fewer h g) {x : Nat} (hx : h x = 0) : g x = 0 := by
  rcases hg x with hx' | hx'
  · exact hx'.trans hx
  · exact hx'

theorem closeEntry_fewer (i : Nat) : Fewer h (closeEntry S h i) := by
  intro x
  unfold closeEntry
  split
  · exact .inl rfl
  · split
    · by_cases hx : x = i
      · exact .inr (by rw [hx, Function.update_self])
      · exact .inl (Function.update_of_ne hx _ _)
    · exact .inl rfl

theorem foldl_closeEntry_fewer (l : List Nat) : Fewer h (l.foldl (closeEntry S) h) := by
  induction l generalizing h with
  | nil => exact fun x => .inl rfl
  | cons i l ih => exact (closeEntry_fewer S i).trans ih

/-- An entry in the sweep that links to one without a hash has none after it. -/
theorem foldl_closeEntry_eq_zero {l : List Nat} {i : Nat} (hi : i ∈ l) {d : EntryDependency}
    (hd : d ∈ S.deps i) (hzero : h d.entryId = 0) : l.foldl (closeEntry S) h i = 0 := by
  induction l generalizing h with
  | nil => exact absurd hi List.not_mem_nil
  | cons j l ih =>
    rw [List.foldl_cons]
    rcases List.mem_cons.mp hi with rfl | hi
    · refine (foldl_closeEntry_fewer S l).zero ?_
      unfold closeEntry
      split
      · assumption
      · rw [if_pos (List.any_eq_true.mpr ⟨d, hd, by simpa using hzero⟩), Function.update_self]
    · exact ih hi ((closeEntry_fewer S j).zero hzero)

/-- Only entries that lead to one without a hash lose theirs. -/
theorem closeSweep_sound {k : Nat → Nat}
    (hk : ∀ x, h x = k x ∨ h x = 0 ∧ ∃ y, S.graph.Reach x y ∧ k y = 0) (x : Nat) :
    closeSweep S h x = k x ∨ closeSweep S h x = 0 ∧ ∃ y, S.graph.Reach x y ∧ k y = 0 := by
  unfold closeSweep
  generalize List.range S.entries.length = l
  induction l generalizing h with
  | nil => exact hk x
  | cons i l ih =>
    rw [List.foldl_cons]
    refine ih fun x => ?_
    unfold closeEntry
    split
    · exact hk x
    · split
      · next hany =>
          by_cases hx : x = i
          · subst hx
            obtain ⟨d, hd, hzero⟩ := List.any_eq_true.mp hany
            have hzero : h d.entryId = 0 := by simpa using hzero
            refine .inr ⟨Function.update_self _ _ _, ?_⟩
            rcases hk d.entryId with hd' | ⟨-, y, hy, hky⟩
            · exact ⟨d.entryId, .single (S.edge_of_mem hd), hd'.symm.trans hzero⟩
            · exact ⟨y, .head (S.edge_of_mem hd) hy, hky⟩
          · rw [Function.update_of_ne hx]
            exact hk x
      · exact hk x

/-- The entries that have a hash. -/
def hashed (h : Nat → Nat) : Finset Nat :=
  (Finset.range S.entries.length).filter fun i => h i ≠ 0

theorem closeSweep_of_ge {x : Nat} (hx : S.entries.length ≤ x) : closeSweep S h x = h x := by
  unfold closeSweep
  have hl : ∀ i ∈ List.range S.entries.length, i ≠ x := by
    intro i hi
    exact ((List.mem_range.mp hi).trans_le hx).ne
  generalize List.range S.entries.length = l at hl
  induction l generalizing h with
  | nil => rfl
  | cons i l ih =>
    rw [List.foldl_cons, ih fun j hj => hl j (List.mem_cons_of_mem _ hj)]
    unfold closeEntry
    split
    · rfl
    · split
      · exact Function.update_of_ne (hl i List.mem_cons_self).symm _ _
      · rfl

theorem hashed_closeSweep_lt (hne : closeSweep S h ≠ h) :
    (hashed S (closeSweep S h)).card < (hashed S h).card := by
  have hfewer : Fewer h (closeSweep S h) := foldl_closeEntry_fewer S _
  obtain ⟨x, hx⟩ := Function.ne_iff.mp hne
  have hlt : x < S.entries.length := by
    by_contra hge
    exact hx (closeSweep_of_ge S (Nat.not_lt.mp hge))
  have hzero : closeSweep S h x = 0 := (hfewer x).resolve_left hx
  refine Finset.card_lt_card (Finset.ssubset_iff_of_subset ?_ |>.mpr ⟨x, ?_, ?_⟩)
  · intro y hy
    obtain ⟨hyn, hy⟩ := Finset.mem_filter.mp hy
    exact Finset.mem_filter.mpr ⟨hyn, fun h0 => hy (hfewer.zero h0)⟩
  · exact Finset.mem_filter.mpr ⟨Finset.mem_range.mpr hlt, fun h0 => hx (hzero.trans h0.symm)⟩
  · exact fun hmem => (Finset.mem_filter.mp hmem).2 hzero

/-- The last pass ends, as every sweep but the last takes a hash away; it takes the
hashes of entries that lead to one without. -/
theorem closePass_inv (k : Nat → Nat) :
    (Fewer k (closePass S k) ∧
      ∀ x, closePass S k x = k x ∨ closePass S k x = 0 ∧ ∃ y, S.graph.Reach x y ∧ k y = 0) ∧
    closeSweep S (closePass S k) = closePass S k := by
  have hcard : (hashed S k).card ≤ S.entries.length := by
    have hle := Finset.card_filter_le (Finset.range S.entries.length) fun i => k i ≠ 0
    rwa [Finset.card_range] at hle
  exact done_iterate (closeSweep S)
    (fun h => Fewer k h ∧ ∀ x, h x = k x ∨ h x = 0 ∧ ∃ y, S.graph.Reach x y ∧ k y = 0)
    (fun h => closeSweep S h = h) (fun h => (hashed S h).card) (fun _ h => h)
    (fun h hh hne => ⟨⟨hh.1.trans (foldl_closeEntry_fewer S _), closeSweep_sound S hh.2⟩,
      hashed_closeSweep_lt S hne⟩)
    S.entries.length ⟨fun x => .inl rfl, fun x => .inl rfl⟩ hcard

/-- **The last pass**: an entry keeps its hash unless it leads to one without. -/
theorem closePass_spec (k : Nat → Nat) (x : Nat) :
    ((∃ y, S.graph.Reach x y ∧ k y = 0) → closePass S k x = 0) ∧
      ((∀ y, S.graph.Reach x y → k y ≠ 0) → closePass S k x = k x) := by
  obtain ⟨⟨hfewer, hsound⟩, hdone⟩ := closePass_inv S k
  have hclosed (i : Nat) (d : EntryDependency) (hd : d ∈ S.deps i)
      (hzero : closePass S k d.entryId = 0) : closePass S k i = 0 := by
    rw [← hdone]
    exact foldl_closeEntry_eq_zero S (List.mem_range.mpr (S.deps_lt hd).1) hd hzero
  constructor
  · rintro ⟨y, hy, hky⟩
    induction hy using Relation.ReflTransGen.head_induction_on with
    | refl => exact hfewer.zero hky
    | head hedge _ ih =>
      obtain ⟨d, hd, rfl⟩ := List.mem_map.mp hedge
      exact hclosed _ d hd ih
  · intro hall
    rcases hsound x with hx | ⟨-, y, hy, hky⟩
    · exact hx
    · exact absurd hky (hall y hy)

end Close

/-! ## The components -/

theorem nonZero_ne_zero (h : Nat) : nonZero h ≠ 0 := by
  unfold nonZero
  split
  · exact Nat.one_ne_zero
  · assumption

namespace Store
variable {S : Store}

theorem Poisoned.of_reach {x y : Nat} (h : S.Poisoned y) (hr : S.graph.Reach x y) :
    S.Poisoned x := by
  obtain ⟨z, hz, hbad⟩ := h
  exact ⟨z, hr.trans hz, hbad⟩

/-- Entries out of range are poisoned, so the others stay in range. -/
theorem lt_of_not_poisoned {x : Nat} (h : ¬ S.Poisoned x) : x < S.entries.length := by
  by_contra hge
  refine h ⟨x, .refl, ?_⟩
  rw [entry, List.getD_eq_default _ _ (Nat.not_lt.mp hge)]
  rfl

end Store

section Components
variable (wyhash : UInt64 → List HashInput → Nat) (S : Store)

/-- The hash of an entry after the first pass. -/
def firstHash (x : Nat) : Nat := (dfsPass wyhash S).hashes x

/-- The hash of an entry after the second. -/
def secondHash (x : Nat) : Nat := sccPass wyhash S (dfsPass wyhash S).hashes x

theorem firstHash_ne_zero {x : Nat} (hx : ¬ S.Poisoned x) : firstHash wyhash S x ≠ 0 := by
  rcases dfsPass_spec wyhash S (S.lt_of_not_poisoned hx) with ⟨-, hp⟩ | ⟨-, -, inputs, -, hh⟩
  · exact absurd hp hx
  · rw [firstHash, hh]
    exact nonZero_ne_zero _

theorem firstHash_eq_zero {x : Nat} (hlt : x < S.entries.length)
    (hx : (S.entry x).eligible = false) : firstHash wyhash S x = 0 := by
  rcases dfsPass_spec wyhash S hlt with ⟨h0, -⟩ | ⟨-, hel, -⟩
  · exact h0
  · exact absurd (hx.symm.trans hel) (by simp)

/-- The components in the order the second pass takes them. -/
structure Ordered (sccs : List (List Nat)) : Prop where
  topological : S.graph.Topological sccs
  covers : ∀ x < S.entries.length, x ∈ sccs.flatten
  hash_eq : ∀ pre C post, sccs = pre ++ C :: post → ∃ h : Nat → Nat,
    (∀ x ∈ C, secondHash wyhash S x = componentHash wyhash S h C) ∧
    (∀ y ∈ pre.flatten, h y = secondHash wyhash S y) ∧
    ∀ y ∉ pre.flatten, h y = firstHash wyhash S y

theorem exists_ordered : ∃ sccs, Ordered wyhash S sccs := by
  obtain ⟨sccs, hout, htop, hcover⟩ := Tarjan.exists_components S.graph
    (emitHashes wyhash S) (dfsPass wyhash S).hashes
  have hsecond (x : Nat) : secondHash wyhash S x =
      sccs.foldl (emitHashes wyhash S) (dfsPass wyhash S).hashes x := by
    rw [secondHash, sccPass, hout]
  refine ⟨sccs, htop, hcover, ?_⟩
  intro pre C post hsplit
  obtain ⟨hC, hpre, hrest⟩ := Tarjan.foldl_write (componentHash wyhash S) htop
    (dfsPass wyhash S).hashes hsplit
  refine ⟨_, fun x hx => (hsecond x).trans (hC x hx), fun y hy => ?_, hrest⟩
  rw [hsecond y]
  exact hpre y hy

variable {wyhash S} {sccs : List (List Nat)}

/-- An ineligible entry has no hash after the second pass. -/
theorem secondHash_eq_zero {x : Nat} (hlt : x < S.entries.length)
    (hx : (S.entry x).eligible = false) : secondHash wyhash S x = 0 := by
  obtain ⟨sccs, ho⟩ := exists_ordered wyhash S
  obtain ⟨C, hC, hxC⟩ := List.mem_flatten.mp (ho.covers x hlt)
  obtain ⟨pre, post, hsplit⟩ := List.append_of_mem hC
  obtain ⟨h, hh, -, hrest⟩ := ho.hash_eq pre C post hsplit
  have hzero : h x = 0 := by
    rw [hrest x ((ho.topological pre C post hsplit).2.1 x hxC)]
    exact firstHash_eq_zero wyhash S hlt hx
  rw [hh x hxC]
  unfold componentHash
  split
  · next m =>
      obtain rfl := List.mem_singleton.mp hxC
      rw [singletonHash, if_pos hzero]
  · have hany : C.any (fun m => h m = 0) = true :=
      List.any_eq_true.mpr ⟨x, hxC, by simpa using hzero⟩
    simp [sccHash, hany]

variable (wyhash S)

/-- What an entry alone in its component reads of a link: of a link to itself it
reads what the first pass left. -/
def linkHash (x y : Nat) : Nat := if y = x then firstHash wyhash S x else secondHash wyhash S y

def singleInputs (x : Nat) : List HashInput :=
  S.ownInputs x ++
    (S.deps x).flatMap fun d => [.nameHash d.nameHash, .hash (linkHash wyhash S x d.entryId)]

/-- The hashes of the members' own data. -/
def memberSubs (C : List Nat) : List Nat := C.map fun m => wyhash 0 (S.ownInputs m)

/-- The hashes of the links that leave a component. -/
def externalSubs (C : List Nat) : List Nat :=
  (externalDeps S C).map fun d =>
    wyhash 0 [.nameHash d.nameHash, .hash (secondHash wyhash S d.entryId)]

def sccInputs (C : List Nat) : List HashInput :=
  ((memberSubs wyhash S C).insertionSort (· ≤ ·) ++
    (externalSubs wyhash S C).dedup.insertionSort (· ≤ ·)).map .hash

variable {wyhash S}

section Split
variable (ho : Ordered wyhash S sccs) {pre : List (List Nat)} {C : List Nat}
  {post : List (List Nat)} (hsplit : sccs = pre ++ C :: post)
include ho hsplit

/-- A component is poisoned as a whole. -/
theorem not_poisoned_of_mem {x : Nat} (hx : x ∈ C) (hclean : ¬ S.Poisoned x) :
    ∀ m ∈ C, ¬ S.Poisoned m := by
  intro m hm hbad
  exact hclean (hbad.of_reach (((ho.topological pre C post hsplit).1.mem_iff x hx m).mp hm).1)

theorem secondHash_of_mem {x : Nat} (hx : x ∈ C) (hclean : ¬ S.Poisoned x)
    (hpre : ∀ y ∈ pre.flatten, ¬ S.Poisoned y → secondHash wyhash S y ≠ 0) :
    (C = [x] ∧ secondHash wyhash S x =
      nonZero (wyhash 0x9E3779B97F4A7C15 (singleInputs wyhash S x))) ∨
    C.length ≠ 1 ∧ secondHash wyhash S x =
      nonZero (wyhash 0x42A7C15F9E3779B9 (sccInputs wyhash S C)) := by
  obtain ⟨h, hh, hdone, hrest⟩ := ho.hash_eq pre C post hsplit
  obtain ⟨-, hfresh, hedge⟩ := ho.topological pre C post hsplit
  have hall := not_poisoned_of_mem ho hsplit hx hclean
  have hmember (m : Nat) (hm : m ∈ C) : h m = firstHash wyhash S m := hrest m (hfresh m hm)
  have hlink {m : Nat} (hm : m ∈ C) {d : EntryDependency} (hd : d ∈ S.deps m)
      (hout : d.entryId ∉ C) : h d.entryId = secondHash wyhash S d.entryId ∧
        secondHash wyhash S d.entryId ≠ 0 := by
    have hmem := (hedge m hm d.entryId (S.edge_of_mem hd)).resolve_left hout
    refine ⟨hdone _ hmem, hpre _ hmem fun hbad => hall m hm ?_⟩
    exact hbad.of_edge (S.edge_of_mem hd)
  rw [hh x hx]
  unfold componentHash
  split
  · next m =>
      obtain rfl := List.mem_singleton.mp hx
      refine .inl ⟨rfl, ?_⟩
      have hread {d : EntryDependency} (hd : d ∈ S.deps x) :
          h d.entryId = linkHash wyhash S x d.entryId ∧ h d.entryId ≠ 0 := by
        unfold linkHash
        split
        · next he =>
            rw [he, hmember x hx]
            exact ⟨rfl, firstHash_ne_zero wyhash S hclean⟩
        · next hne =>
            obtain ⟨hl, hnz⟩ := hlink hx hd (by simpa using hne)
            exact ⟨hl, hl ▸ hnz⟩
      have hown : h x ≠ 0 := hmember x hx ▸ firstHash_ne_zero wyhash S hclean
      have hnone : (S.deps x).any (fun d => h d.entryId = 0) = false := by
        rw [List.any_eq_false]
        intro d hd
        simpa using (hread hd).2
      rw [singletonHash, if_neg hown, if_neg (by simp [hnone]), singleInputs]
      congr 3
      exact List.flatMap_congr fun d hd => by rw [(hread hd).1]
  · next hne =>
      have hexternal {d : EntryDependency} (hd : d ∈ externalDeps S C) :
          h d.entryId = secondHash wyhash S d.entryId ∧ h d.entryId ≠ 0 := by
        obtain ⟨hd, hout⟩ := List.mem_filter.mp hd
        obtain ⟨m, hm, hd⟩ := List.mem_flatMap.mp hd
        obtain ⟨hl, hnz⟩ := hlink hm hd (by simpa using hout)
        exact ⟨hl, hl ▸ hnz⟩
      have hmembers : C.any (fun m => h m = 0) = false := by
        rw [List.any_eq_false]
        intro m hm
        rw [hmember m hm]
        simpa using firstHash_ne_zero wyhash S (hall m hm)
      have hexternals : (externalDeps S C).any (fun d => h d.entryId = 0) = false := by
        rw [List.any_eq_false]
        intro d hd
        simpa using (hexternal hd).2
      have hsubs : ((externalDeps S C).map fun d =>
          wyhash 0 [.nameHash d.nameHash, .hash (h d.entryId)]) = externalSubs wyhash S C :=
        List.map_congr_left fun d hd => by rw [(hexternal hd).1]
      refine .inr ⟨?_, ?_⟩
      · intro hlen
        obtain ⟨m, rfl⟩ := List.length_eq_one_iff.mp hlen
        exact hne m rfl
      · simp only [sccHash, hmembers, hexternals, Bool.or_self, Bool.false_eq_true, if_false, hsubs]
        rfl

end Split

/-- An entry that leads to no ineligible one has a hash after the second pass. -/
theorem Ordered.secondHash_ne_zero (ho : Ordered wyhash S sccs) {pre post : List (List Nat)}
    (hsplit : sccs = pre ++ post) : ∀ x ∈ pre.flatten, ¬ S.Poisoned x →
      secondHash wyhash S x ≠ 0 := by
  induction pre using List.reverseRecOn generalizing post with
  | nil => exact fun x hx => absurd hx List.not_mem_nil
  | append_singleton pre C ih =>
    have hsplit' : sccs = pre ++ C :: post := by rw [hsplit]; simp
    intro x hx hclean
    rw [List.flatten_append] at hx
    rcases List.mem_append.mp hx with hx | hx
    · exact ih hsplit' x hx hclean
    · rcases secondHash_of_mem ho hsplit' (by simpa using hx) hclean (ih hsplit') with
        ⟨-, hh⟩ | ⟨-, hh⟩
      · rw [hh]
        exact nonZero_ne_zero _
      · rw [hh]
        exact nonZero_ne_zero _

/-- **The keys**: an entry that leads to no ineligible one keeps the hash of the
second pass, the others have none. -/
theorem entryHash_eq (wyhash : UInt64 → List HashInput → Nat) (S : Store) {x : Nat}
    (hx : x < S.entries.length) :
    (S.Poisoned x → entryHash wyhash S x = 0) ∧
      (¬ S.Poisoned x → entryHash wyhash S x = secondHash wyhash S x ∧
        entryHash wyhash S x ≠ 0) := by
  obtain ⟨hzero, hkeep⟩ := closePass_spec S (secondHash wyhash S) x
  obtain ⟨sccs, ho⟩ := exists_ordered wyhash S
  have hclean {y : Nat} (hy : ¬ S.Poisoned y) : secondHash wyhash S y ≠ 0 :=
    ho.secondHash_ne_zero (List.append_nil sccs).symm y (ho.covers y (S.lt_of_not_poisoned hy)) hy
  constructor
  · rintro ⟨y, hy, hbad⟩
    refine hzero ⟨y, hy, secondHash_eq_zero ?_ hbad⟩
    rcases Relation.ReflTransGen.cases_tail hy with rfl | ⟨z, -, hedge⟩
    · exact hx
    · exact S.graph.succ_lt z y hedge
  · intro hx
    have heq : entryHash wyhash S x = secondHash wyhash S x :=
      hkeep fun y hy => hclean fun hbad => hx (hbad.of_reach hy)
    exact ⟨heq, heq ▸ hclean hx⟩

end Components

end OhosBun.Install
