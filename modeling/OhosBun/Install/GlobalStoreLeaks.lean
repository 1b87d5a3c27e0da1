/-
# `OhosBun.Install.GlobalStoreLeaks` — only closed entries are shared

An entry of the global store links to its dependencies by their paths in the
global store, so nothing that is local to the project may be reached from it.
Here: whatever the graph and whatever entries are eligible, the three passes end
and an entry has a hash exactly when all it leads to, itself included, is
eligible.
-/
import OhosBun.Install.GlobalStoreKeys

namespace OhosBun.Install

open OhosBun.Lib

section Leaks
variable (wyhash : UInt64 → List HashInput → Nat) (S : Store)

/-- All that an entry leads to may live in the global store. -/
def Store.Closed (x : Nat) : Prop := ∀ y, S.graph.Reach x y → (S.entry y).eligible = true

theorem Store.closed_iff_not_poisoned (x : Nat) : S.Closed x ↔ ¬ S.Poisoned x := by
  constructor
  · rintro h ⟨y, hy, hbad⟩
    exact absurd ((h y hy).symm.trans hbad) (by decide)
  · intro h y hy
    by_contra hbad
    exact h ⟨y, hy, Bool.eq_false_of_not_eq_true hbad⟩

/-- The component pass over the hashes of the first. -/
def Store.FindsComponents : Prop :=
  Tarjan.Done S.graph (Tarjan.run S.graph (emitHashes wyhash S) (firstHash wyhash S)) ∧
    (Tarjan.run S.graph (emitHashes wyhash S) (firstHash wyhash S)).sccStack = [] ∧
    Tarjan.FindsRoots S.graph (emitHashes wyhash S) (firstHash wyhash S)

/-- **No leak**: the passes end, the second finds the root of every component on
its stack, and the entries that have a hash are those that lead to eligible
entries only. -/
theorem entryHash_ne_zero_iff :
    DfsDone S (dfsPass wyhash S) ∧ S.FindsComponents wyhash ∧
      closeSweep S (entryHash wyhash S) = entryHash wyhash S ∧
      ∀ x < S.entries.length, entryHash wyhash S x ≠ 0 ↔ S.Closed x := by
  refine ⟨(dfsPass_inv wyhash S).2, ⟨Tarjan.run_done _ _ _, Tarjan.sccStack_run _ _ _,
    Tarjan.findsRoots _ _ _⟩, (closePass_inv S _).2, ?_⟩
  intro x hx
  obtain ⟨hpoisoned, hclean⟩ := entryHash_eq wyhash S hx
  rw [S.closed_iff_not_poisoned]
  constructor
  · exact fun hne hbad => hne (hpoisoned hbad)
  · exact fun hgood => (hclean hgood).2

end Leaks

end OhosBun.Install
