/-
# `OhosBun.Lib.Tarjan` — strongly connected components, without recursion

Tarjan's algorithm with an explicit work stack, over the vertices below a size,
with an action on each component as it is found.

    visit, scan, push, close     the four things a turn does
    step                         one turn
    run                          turns until the work is done
    Component                    a class of mutual reachability
    Topological                  components in an order in which every edge goes back
    write                        an action that gives each component a value

The result of a run is the action folded over the components in such an order
(`exists_components`).  A turn here looks at one successor; a loop that looks at
successors until one is new does several turns at once.
-/
import Mathlib.Algebra.BigOperators.Group.Finset.Basic
import Mathlib.Algebra.Ring.Nat
import Mathlib.Logic.Relation
import Mathlib.Logic.Function.Basic
import Mathlib.Data.List.Basic
import OhosBun.Lib.Run

namespace OhosBun.Lib.Tarjan

structure Graph where
  size : Nat
  succ : Nat → List Nat
  succ_lt : ∀ v, ∀ w ∈ succ v, w < size

namespace Graph
variable (G : Graph)

def Edge (v w : Nat) : Prop := w ∈ G.succ v

instance (v w : Nat) : Decidable (G.Edge v w) := inferInstanceAs (Decidable (w ∈ G.succ v))

def Reach : Nat → Nat → Prop := Relation.ReflTransGen G.Edge

def Mutual (v w : Nat) : Prop := G.Reach v w ∧ G.Reach w v

/-- A class of mutual reachability. -/
structure Component (C : List Nat) : Prop where
  ne_nil : C ≠ []
  nodup : C.Nodup
  mem_iff : ∀ x ∈ C, ∀ y, y ∈ C ↔ G.Mutual x y

/-- Components, each after those its edges lead to. -/
def Topological (sccs : List (List Nat)) : Prop :=
  ∀ pre C post, sccs = pre ++ C :: post →
    G.Component C ∧ (∀ x ∈ C, x ∉ pre.flatten) ∧
      ∀ x ∈ C, ∀ w ∈ G.succ x, w ∈ C ∨ w ∈ pre.flatten

variable {G}

theorem topological_nil : G.Topological [] := by
  intro pre C post h
  exact absurd h (by simp)

theorem Topological.concat {sccs : List (List Nat)} {C : List Nat} (h : G.Topological sccs)
    (hC : G.Component C) (hnew : ∀ x ∈ C, x ∉ sccs.flatten)
    (hedge : ∀ x ∈ C, ∀ w ∈ G.succ x, w ∈ C ∨ w ∈ sccs.flatten) : G.Topological (sccs ++ [C]) := by
  intro pre D post hD
  rcases List.eq_nil_or_concat post with rfl | ⟨post, E, rfl⟩
  · obtain ⟨rfl, hCD⟩ := List.append_inj' hD rfl
    obtain rfl := List.singleton_inj.mp hCD
    exact ⟨hC, hnew, hedge⟩
  · rw [List.concat_eq_append, ← List.cons_append, ← List.append_assoc] at hD
    exact h pre D post (List.append_inj' hD rfl).1

end Graph

/-! ## The algorithm -/

structure State (σ : Type*) where
  index : Nat → Option Nat
  lowlink : Nat → Nat
  onStack : Nat → Bool
  /-- The top of the stack is first. -/
  sccStack : List Nat
  /-- The vertices in work, the last one first, each with its next successor. -/
  work : List (Nat × Nat)
  indexCounter : Nat
  root : Nat
  out : σ

section Algorithm
variable {σ : Type*} (G : Graph) (emit : σ → List Nat → σ)

namespace State

def start (out : σ) : State σ where
  index := fun _ => none
  lowlink := fun _ => 0
  onStack := fun _ => false
  sccStack := []
  work := []
  indexCounter := 0
  root := 0
  out := out

def visit (s : State σ) (v : Nat) : State σ :=
  { s with
    index := Function.update s.index v (some s.indexCounter)
    lowlink := Function.update s.lowlink v s.indexCounter
    onStack := Function.update s.onStack v true
    sccStack := v :: s.sccStack
    indexCounter := s.indexCounter + 1 }

/-- A successor that has been visited. -/
def scan (s : State σ) (v child w : Nat) (rest : List (Nat × Nat)) : State σ :=
  { s with
    lowlink :=
      if s.onStack w then
        Function.update s.lowlink v (min (s.lowlink v) ((s.index w).getD 0))
      else s.lowlink
    work := (v, child + 1) :: rest }

/-- A successor that has not. -/
def push (s : State σ) (v child w : Nat) (rest : List (Nat × Nat)) : State σ :=
  { s with work := (w, 0) :: (v, child + 1) :: rest }

/-- The stack down to `v`, in the order of the pushes. -/
def members (s : State σ) (v : Nat) : List Nat :=
  (s.sccStack.takeWhile (· ≠ v) ++ [v]).reverse

/-- Take the component of `v` off the stack. -/
def emitComponent (s : State σ) (v : Nat) : State σ :=
  { s with
    onStack := fun x => if x ∈ s.members v then false else s.onStack x
    sccStack := (s.sccStack.dropWhile (· ≠ v)).tail
    out := emit s.out (s.members v) }

/-- Leave `v`; its parent sees what it saw. -/
def pop (s : State σ) (v : Nat) (rest : List (Nat × Nat)) : State σ :=
  match rest with
  | [] => { s with work := [] }
  | (p, _) :: _ =>
    { s with
      lowlink := Function.update s.lowlink p (min (s.lowlink p) (s.lowlink v))
      work := rest }

def close (s : State σ) (v : Nat) (rest : List (Nat × Nat)) : State σ :=
  (if s.index v = some (s.lowlink v) then s.emitComponent emit v else s).pop v rest

end State

/-- A vertex in work that has been entered. -/
def advance (s : State σ) (v child : Nat) (rest : List (Nat × Nat)) : State σ :=
  match (G.succ v)[child]? with
  | some w => if s.index w = none then s.push v child w rest else s.scan v child w rest
  | none => s.close emit v rest

def step (s : State σ) : State σ :=
  match s.work with
  | [] =>
    if s.root < G.size then
      if s.index s.root = none then { s with work := [(s.root, 0)], root := s.root + 1 }
      else { s with root := s.root + 1 }
    else s
  | (v, child) :: rest =>
    advance G emit (if child = 0 then s.visit v else s) v child rest

end Algorithm

/-! ## The invariant -/

namespace State
variable {σ : Type*} (s : State σ)

def Visited (x : Nat) : Prop := s.index x ≠ none

def idx (x : Nat) : Nat := (s.index x).getD 0

/-- The vertices in work. -/
def gray : List Nat := s.work.map Prod.fst

/-- The edge from `x` to `w` has been looked at: all edges of a vertex out of
work have. -/
def Examined (G : Graph) (x w : Nat) : Prop :=
  w ∈ G.succ x ∧ ∀ c, (x, c) ∈ s.work → w ∈ (G.succ x).take c

end State

section Invariant
variable {σ : Type*} (G : Graph) (emit : σ → List Nat → σ) (out₀ : σ)

/-- What holds between the parts of a turn.  The head of the work may be new; the
other vertices in work are visited, and on the stack. -/
structure Core (s : State σ) (sccs : List (List Nat)) : Prop where
  counter : ∀ x, s.Visited x → s.idx x < s.indexCounter
  visited_lt : ∀ x, s.Visited x → x < G.size
  stack_iff : ∀ x, s.onStack x = true ↔ x ∈ s.sccStack
  stack_visited : ∀ x ∈ s.sccStack, s.Visited x
  stack_sorted : s.sccStack.Pairwise fun a b => s.idx b < s.idx a
  gray_lt : ∀ f ∈ s.gray, f < G.size
  gray_nodup : s.gray.Nodup
  gray_tail : ∀ f ∈ s.gray.tail, s.Visited f
  gray_stack : ∀ f ∈ s.gray, s.Visited f → f ∈ s.sccStack
  gray_sorted : s.gray.Pairwise fun f g => s.Visited f → s.idx g < s.idx f
  gray_reach : s.gray.Pairwise fun f g => G.Reach g f
  /-- A vertex in work reaches what is above it on the stack. -/
  reach_above : ∀ f ∈ s.gray, s.Visited f → ∀ x ∈ s.sccStack, s.idx f ≤ s.idx x → G.Reach f x
  /-- A low link is the index of a vertex on the stack that is reached. -/
  low_reach : ∀ x ∈ s.sccStack, ∃ w ∈ s.sccStack, s.idx w = s.lowlink x ∧ G.Reach x w
  low_le : ∀ x ∈ s.sccStack, s.lowlink x ≤ s.idx x
  low_lt : ∀ x ∈ s.sccStack, x ∉ s.gray → s.lowlink x < s.idx x
  examined_visited : ∀ x w, s.Visited x → s.Examined G x w → s.Visited w ∨ s.gray.head? = some w
  done_closed : ∀ x w, s.Visited x → x ∉ s.sccStack → w ∈ G.succ x →
    s.Visited w ∧ w ∉ s.sccStack
  /-- Edges back into the stack are seen by the low link of a vertex in work. -/
  low_examined : ∀ f ∈ s.gray, s.Visited f → ∀ x ∈ s.sccStack, s.idx f ≤ s.idx x →
    ∀ w ∈ s.sccStack, s.Examined G x w →
      ∃ q ∈ s.gray, s.Visited q ∧ s.idx f ≤ s.idx q ∧ s.lowlink q ≤ s.idx w
  roots : ∀ v < s.root, s.Visited v ∨ v ∈ s.gray
  out_eq : s.out = sccs.foldl emit out₀
  sccs_iff : ∀ x, x ∈ sccs.flatten ↔ s.Visited x ∧ x ∉ s.sccStack
  sccs_topological : G.Topological sccs

/-- Before a turn: exactly the frames at their first successor are new. -/
structure Inv (s : State σ) (sccs : List (List Nat)) : Prop extends Core G emit out₀ s sccs where
  work_fresh : ∀ f ∈ s.work, f.2 = 0 ↔ ¬ s.Visited f.1

end Invariant

section Visit
variable {σ : Type*} {G : Graph} {emit : σ → List Nat → σ} {out₀ : σ} {s : State σ}
  {sccs : List (List Nat)} {v : Nat} {rest : List (Nat × Nat)}

theorem visited_visit {x : Nat} : (s.visit v).Visited x ↔ x = v ∨ s.Visited x := by
  unfold State.Visited State.visit
  by_cases hx : x = v
  · simp [hx]
  · simp [hx]

theorem idx_visit_self : (s.visit v).idx v = s.indexCounter := by
  simp [State.idx, State.visit]

theorem idx_visit_of_ne {x : Nat} (hx : x ≠ v) : (s.visit v).idx x = s.idx x := by
  simp [State.idx, State.visit, hx]

theorem lowlink_visit_of_ne {x : Nat} (hx : x ≠ v) : (s.visit v).lowlink x = s.lowlink x := by
  simp [State.visit, hx]

theorem examined_visit {x w : Nat} : (s.visit v).Examined G x w ↔ s.Examined G x w := Iff.rfl

/-- Entering the head of the work. -/
theorem Core.visit (h : Core G emit out₀ s sccs) (hwork : s.work = (v, 0) :: rest)
    (hv : ¬ s.Visited v) : Core G emit out₀ (s.visit v) sccs := by
  have hgray : s.gray = v :: rest.map Prod.fst := by simp [State.gray, hwork]
  have hmem : v ∈ s.gray := hgray ▸ List.mem_cons_self
  have hne {x : Nat} (hx : s.Visited x) : x ≠ v := fun he => hv (he ▸ hx)
  have hidx {x : Nat} (hx : s.Visited x) : (s.visit v).idx x = s.idx x := idx_visit_of_ne (hne hx)
  have hlow {x : Nat} (hx : s.Visited x) : (s.visit v).lowlink x = s.lowlink x :=
    lowlink_visit_of_ne (hne hx)
  have hnone {w : Nat} : ¬ s.Examined G v w := fun hex => by
    simpa using hex.2 0 (hwork ▸ List.mem_cons_self)
  have hrest : ∀ f ∈ rest.map Prod.fst, s.Visited f := by
    intro f hf
    exact h.gray_tail f (by rw [hgray]; exact hf)
  refine ⟨?_, ?_, ?_, ?_, ?_, h.gray_lt, h.gray_nodup, ?_, ?_, ?_, h.gray_reach, ?_, ?_, ?_, ?_, ?_,
    ?_, ?_, ?_, h.out_eq, ?_, h.sccs_topological⟩
  · intro x hx
    rcases visited_visit.1 hx with rfl | hx
    · rw [idx_visit_self]
      exact Nat.lt_succ_self _
    · rw [hidx hx]
      exact (h.counter x hx).trans (Nat.lt_succ_self _)
  · intro x hx
    rcases visited_visit.1 hx with rfl | hx
    · exact h.gray_lt _ hmem
    · exact h.visited_lt x hx
  · intro x
    show Function.update s.onStack v true x = true ↔ x ∈ v :: s.sccStack
    by_cases hx : x = v
    · simp [hx]
    · simp [hx, h.stack_iff x]
  · intro x hx
    rcases List.mem_cons.mp hx with rfl | hx
    · exact visited_visit.2 (.inl rfl)
    · exact visited_visit.2 (.inr (h.stack_visited x hx))
  · refine List.pairwise_cons.mpr ⟨?_, ?_⟩
    · intro x hx
      rw [idx_visit_self, hidx (h.stack_visited x hx)]
      exact h.counter x (h.stack_visited x hx)
    · refine h.stack_sorted.imp_of_mem fun {a b} ha hb hab => ?_
      rw [hidx (h.stack_visited a ha), hidx (h.stack_visited b hb)]
      exact hab
  · exact fun f hf => visited_visit.2 (.inr (h.gray_tail f hf))
  · intro f hf hvis
    rcases visited_visit.1 hvis with hfv | hvis
    · exact List.mem_cons.mpr (.inl hfv)
    · exact List.mem_cons_of_mem _ (h.gray_stack f hf hvis)
  · show s.gray.Pairwise _
    have hsorted := h.gray_sorted
    rw [hgray] at hsorted ⊢
    refine List.pairwise_cons.mpr ⟨?_, ?_⟩
    · intro g hg _
      rw [idx_visit_self, hidx (hrest g hg)]
      exact h.counter _ (hrest g hg)
    · refine (List.pairwise_cons.mp hsorted).2.imp_of_mem fun {f g} hf hg hfg _ => ?_
      rw [hidx (hrest f hf), hidx (hrest g hg)]
      exact hfg (hrest f hf)
  · intro f hf hvis x hx hle
    rcases visited_visit.1 hvis with hfv | hold
    · rcases List.mem_cons.mp hx with rfl | hx
      · rw [hfv]
        exact .refl
      · rw [hfv, idx_visit_self, hidx (h.stack_visited x hx)] at hle
        exact absurd (h.counter x (h.stack_visited x hx)) (Nat.not_lt.mpr hle)
    · rcases List.mem_cons.mp hx with rfl | hx
      · have hreach := h.gray_reach
        rw [hgray] at hreach
        have hf' : f ∈ s.gray := hf
        rw [hgray] at hf'
        rcases List.mem_cons.mp hf' with rfl | hf'
        · exact absurd hold hv
        · exact (List.pairwise_cons.mp hreach).1 f hf'
      · rw [hidx hold, hidx (h.stack_visited x hx)] at hle
        exact h.reach_above f hf hold x hx hle
  · intro x hx
    rcases List.mem_cons.mp hx with rfl | hx
    · refine ⟨x, List.mem_cons_self, ?_, .refl⟩
      rw [idx_visit_self]
      simp [State.visit]
    · obtain ⟨w, hw, hwx, hr⟩ := h.low_reach x hx
      refine ⟨w, List.mem_cons_of_mem _ hw, ?_, hr⟩
      rw [hidx (h.stack_visited w hw), hlow (h.stack_visited x hx), hwx]
  · intro x hx
    rcases List.mem_cons.mp hx with rfl | hx
    · rw [idx_visit_self]
      simp [State.visit]
    · rw [hidx (h.stack_visited x hx), hlow (h.stack_visited x hx)]
      exact h.low_le x hx
  · intro x hx hnot
    rcases List.mem_cons.mp hx with rfl | hx
    · exact absurd hmem hnot
    · rw [hidx (h.stack_visited x hx), hlow (h.stack_visited x hx)]
      exact h.low_lt x hx hnot
  · intro x w hx hex
    rcases visited_visit.1 hx with rfl | hx
    · exact absurd (examined_visit.1 hex) hnone
    · rcases h.examined_visited x w hx hex with hw | hw
      · exact .inl (visited_visit.2 (.inr hw))
      · rw [hgray] at hw
        exact .inl (visited_visit.2 (.inl (Option.some.inj hw).symm))
  · intro x w hx hnot hw
    rcases visited_visit.1 hx with rfl | hx
    · exact absurd List.mem_cons_self hnot
    · obtain ⟨hw, hnotw⟩ := h.done_closed x w hx (fun hm => hnot (List.mem_cons_of_mem _ hm)) hw
      refine ⟨visited_visit.2 (.inr hw), fun hm => ?_⟩
      rcases List.mem_cons.mp hm with rfl | hm
      · exact hv hw
      · exact hnotw hm
  · intro f hf hvis x hx hle w hw hex
    rcases List.mem_cons.mp hw with rfl | hw
    · refine ⟨w, hmem, visited_visit.2 (.inl rfl), ?_, ?_⟩
      · rcases visited_visit.1 hvis with hfv | hvis
        · rw [hfv]
        · rw [hidx hvis, idx_visit_self]
          exact (h.counter _ hvis).le
      · rw [idx_visit_self]
        simp [State.visit]
    · rcases List.mem_cons.mp hx with rfl | hx
      · exact absurd (examined_visit.1 hex) hnone
      · rcases visited_visit.1 hvis with hfv | hvis
        · rw [hfv, idx_visit_self, hidx (h.stack_visited x hx)] at hle
          exact absurd (h.counter x (h.stack_visited x hx)) (Nat.not_lt.mpr hle)
        · rw [hidx hvis, hidx (h.stack_visited x hx)] at hle
          obtain ⟨q, hq, hqv, hfq, hqw⟩ := h.low_examined f hf hvis x hx hle w hw hex
          refine ⟨q, hq, visited_visit.2 (.inr hqv), ?_, ?_⟩
          · rw [hidx hvis, hidx hqv]
            exact hfq
          · rw [hlow hqv, hidx (h.stack_visited w hw)]
            exact hqw
  · intro x hx
    rcases h.roots x hx with hx | hx
    · exact .inl (visited_visit.2 (.inr hx))
    · exact .inr hx
  · intro x
    rw [h.sccs_iff x]
    constructor
    · rintro ⟨hx, hnot⟩
      refine ⟨visited_visit.2 (.inr hx), fun hm => ?_⟩
      rcases List.mem_cons.mp hm with rfl | hm
      · exact hv hx
      · exact hnot hm
    · rintro ⟨hx, hnot⟩
      rcases visited_visit.1 hx with rfl | hx
      · exact absurd List.mem_cons_self hnot
      · exact ⟨hx, fun hm => hnot (List.mem_cons_of_mem _ hm)⟩

end Visit

section Scan
variable {σ : Type*} {G : Graph} {emit : σ → List Nat → σ} {out₀ : σ} {s : State σ}
  {sccs : List (List Nat)} {v c w : Nat} {rest : List (Nat × Nat)}

/-- With the next successor of the head, one more edge is examined. -/
theorem Core.examined_succ (h : Core G emit out₀ s sccs) (hwork : s.work = (v, c) :: rest)
    (hw : (G.succ v)[c]? = some w) {s' : State σ} (pre : List (Nat × Nat))
    (hwork' : s'.work = pre ++ (v, c + 1) :: rest)
    {x y : Nat} (hex : s'.Examined G x y) : s.Examined G x y ∨ x = v ∧ y = w := by
  obtain ⟨hy, hex⟩ := hex
  by_cases hx : x = v
  · subst hx
    have hmem := hex (c + 1) (by rw [hwork']; simp)
    rw [List.take_add_one, hw] at hmem
    rcases List.mem_append.mp hmem with hmem | hmem
    · refine .inl ⟨hy, fun c' hc' => ?_⟩
      have hnodup := h.gray_nodup
      rw [State.gray, hwork] at hnodup
      rw [hwork] at hc'
      rcases List.mem_cons.mp hc' with he | hc'
      · obtain ⟨-, rfl⟩ := Prod.mk.inj he
        exact hmem
      · exact absurd (List.mem_map_of_mem hc') (List.nodup_cons.mp hnodup).1
    · exact .inr ⟨rfl, by simpa using hmem⟩
  · refine .inl ⟨hy, fun c' hc' => hex c' ?_⟩
    rw [hwork] at hc'
    rcases List.mem_cons.mp hc' with he | hc'
    · exact absurd (Prod.mk.inj he).1 hx
    · rw [hwork']
      exact List.mem_append_right _ (List.mem_cons_of_mem _ hc')

theorem lowlink_scan_of_ne {x : Nat} (hx : x ≠ v) :
    (s.scan v c w rest).lowlink x = s.lowlink x := by
  unfold State.scan
  split <;> simp [hx]

/-- The low link of the head falls to the index of a successor on the stack. -/
theorem lowlink_scan (hstack : s.onStack w = true) :
    (s.scan v c w rest).lowlink v = min (s.lowlink v) (s.idx w) := by
  simp [State.scan, hstack, State.idx]

theorem lowlink_scan_of_not_onStack (hstack : s.onStack w ≠ true) :
    (s.scan v c w rest).lowlink v = s.lowlink v := by
  simp [State.scan, hstack]

theorem lowlink_scan_le (x : Nat) : (s.scan v c w rest).lowlink x ≤ s.lowlink x := by
  by_cases hx : x = v
  · subst hx
    by_cases hstack : s.onStack w = true
    · rw [lowlink_scan hstack]
      exact Nat.min_le_left _ _
    · rw [lowlink_scan_of_not_onStack hstack]
  · rw [lowlink_scan_of_ne hx]

theorem Core.scan (h : Core G emit out₀ s sccs) (hwork : s.work = (v, c) :: rest)
    (hv : s.Visited v) (hw : (G.succ v)[c]? = some w) (hvw : s.Visited w) :
    Core G emit out₀ (s.scan v c w rest) sccs := by
  have hgray : (s.scan v c w rest).gray = s.gray := by
    simp [State.gray, State.scan, hwork]
  have hhead : s.gray = v :: rest.map Prod.fst := by simp [State.gray, hwork]
  have hmem : v ∈ s.gray := hhead ▸ List.mem_cons_self
  have hedge : G.Edge v w := List.mem_of_getElem? hw
  have hex {x y : Nat} (hex : (s.scan v c w rest).Examined G x y) :
      s.Examined G x y ∨ x = v ∧ y = w :=
    h.examined_succ hwork hw [] rfl hex
  refine ⟨h.counter, h.visited_lt, h.stack_iff, h.stack_visited, h.stack_sorted,
    hgray ▸ h.gray_lt, hgray ▸ h.gray_nodup, hgray ▸ h.gray_tail, hgray ▸ h.gray_stack,
    hgray ▸ h.gray_sorted, hgray ▸ h.gray_reach, hgray ▸ h.reach_above, ?_, ?_, ?_, ?_,
    h.done_closed, ?_, hgray ▸ h.roots, h.out_eq, h.sccs_iff, h.sccs_topological⟩
  · intro x hx
    by_cases hxv : x = v
    · subst hxv
      by_cases hstack : s.onStack w = true
      · rw [lowlink_scan hstack]
        rcases Nat.le_total (s.lowlink x) (s.idx w) with hle | hle
        · rw [Nat.min_eq_left hle]
          exact h.low_reach x hx
        · rw [Nat.min_eq_right hle]
          exact ⟨w, (h.stack_iff w).mp hstack, rfl, .single hedge⟩
      · rw [lowlink_scan_of_not_onStack hstack]
        exact h.low_reach x hx
    · rw [lowlink_scan_of_ne hxv]
      exact h.low_reach x hx
  · exact fun x hx => (lowlink_scan_le x).trans (h.low_le x hx)
  · intro x hx hnot
    rw [hgray] at hnot
    exact (lowlink_scan_le x).trans_lt (h.low_lt x hx hnot)
  · intro x y hx hxy
    rcases hex hxy with hxy | ⟨rfl, rfl⟩
    · rw [hgray]
      exact h.examined_visited x y hx hxy
    · exact .inl hvw
  · intro f hf hvis x hx hle y hy hxy
    rw [hgray] at hf ⊢
    rcases hex hxy with hxy | ⟨rfl, rfl⟩
    · obtain ⟨q, hq, hqv, hfq, hqy⟩ := h.low_examined f hf hvis x hx hle y hy hxy
      exact ⟨q, hq, hqv, hfq, (lowlink_scan_le q).trans hqy⟩
    · refine ⟨x, hmem, hv, hle, ?_⟩
      rw [lowlink_scan ((h.stack_iff y).mpr hy)]
      exact Nat.min_le_right _ _

/-- A new vertex on the work. -/
theorem Core.push (h : Core G emit out₀ s sccs) (hwork : s.work = (v, c) :: rest)
    (hv : s.Visited v) (hw : (G.succ v)[c]? = some w) (hvw : ¬ s.Visited w) :
    Core G emit out₀ (s.push v c w rest) sccs := by
  have hhead : s.gray = v :: rest.map Prod.fst := by simp [State.gray, hwork]
  have hgray : (s.push v c w rest).gray = w :: s.gray := by
    simp [State.gray, State.push, hwork]
  have hedge : G.Edge v w := List.mem_of_getElem? hw
  have hvisited : ∀ f ∈ s.gray, s.Visited f := by
    intro f hf
    have hf' := hf
    rw [hhead] at hf'
    rcases List.mem_cons.mp hf' with rfl | hf'
    · exact hv
    · exact h.gray_tail f (by rw [hhead]; exact hf')
  have hmem {f : Nat} (hf : f ∈ (s.push v c w rest).gray) (hvis : s.Visited f) : f ∈ s.gray := by
    rw [hgray] at hf
    rcases List.mem_cons.mp hf with rfl | hf
    · exact absurd hvis hvw
    · exact hf
  have hex {x y : Nat} (hex : (s.push v c w rest).Examined G x y) :
      s.Examined G x y ∨ x = v ∧ y = w :=
    h.examined_succ hwork hw [(w, 0)] rfl hex
  refine ⟨h.counter, h.visited_lt, h.stack_iff, h.stack_visited, h.stack_sorted,
    ?_, ?_, ?_, ?_, ?_, ?_, ?_, h.low_reach, h.low_le, ?_, ?_, h.done_closed, ?_, ?_, h.out_eq,
    h.sccs_iff, h.sccs_topological⟩
  · intro f hf
    rw [hgray] at hf
    rcases List.mem_cons.mp hf with rfl | hf
    · exact G.succ_lt v f hedge
    · exact h.gray_lt f hf
  · rw [hgray]
    exact List.nodup_cons.mpr ⟨fun hm => hvw (hvisited w hm), h.gray_nodup⟩
  · rw [hgray]
    exact hvisited
  · exact fun f hf hvis => h.gray_stack f (hmem hf hvis) hvis
  · rw [hgray]
    exact List.pairwise_cons.mpr ⟨fun g _ hvis => absurd hvis hvw, h.gray_sorted⟩
  · rw [hgray]
    refine List.pairwise_cons.mpr ⟨?_, h.gray_reach⟩
    have hreach := h.gray_reach
    rw [hhead] at hreach ⊢
    intro g hg
    rcases List.mem_cons.mp hg with rfl | hg
    · exact .single hedge
    · exact ((List.pairwise_cons.mp hreach).1 g hg).tail hedge
  · exact fun f hf hvis => h.reach_above f (hmem hf hvis) hvis
  · intro x hx hnot
    rw [hgray] at hnot
    exact h.low_lt x hx fun hm => hnot (List.mem_cons_of_mem _ hm)
  · intro x y hx hxy
    rw [hgray]
    rcases hex hxy with hxy | ⟨rfl, rfl⟩
    · rcases h.examined_visited x y hx hxy with hy | hy
      · exact .inl hy
      · exact .inl (hvisited y (List.mem_of_mem_head? hy))
    · exact .inr rfl
  · intro f hf hvis x hx hle y hy hxy
    rcases hex hxy with hxy | ⟨rfl, rfl⟩
    · obtain ⟨q, hq, hq'⟩ := h.low_examined f (hmem hf hvis) hvis x hx hle y hy hxy
      rw [hgray]
      exact ⟨q, List.mem_cons_of_mem _ hq, hq'⟩
    · exact absurd (h.stack_visited y hy) hvw
  · intro x hx
    rw [hgray]
    rcases h.roots x hx with hx | hx
    · exact .inl hx
    · exact .inr (List.mem_cons_of_mem _ hx)

end Scan

section Close
variable {σ : Type*} {G : Graph} {emit : σ → List Nat → σ} {out₀ : σ} {s : State σ}
  {sccs : List (List Nat)} {v : Nat} {rest : List (Nat × Nat)}

theorem exists_eq_append {l : List Nat} (hv : v ∈ l) : ∃ pre post, l = pre ++ v :: post ∧
    l.takeWhile (· ≠ v) = pre ∧ (l.dropWhile (· ≠ v)).tail = post := by
  induction l with
  | nil => exact absurd hv List.not_mem_nil
  | cons x l ih =>
    by_cases hx : x = v
    · subst hx
      exact ⟨[], l, rfl, by simp, by simp⟩
    · obtain ⟨pre, post, hl, htake, hdrop⟩ := ih ((List.mem_cons.mp hv).resolve_left (Ne.symm hx))
      refine ⟨x :: pre, post, by rw [hl, List.cons_append], ?_, ?_⟩
      · rw [List.takeWhile_cons_of_pos (by simpa using hx), htake]
      · rw [List.dropWhile_cons_of_pos (by simpa using hx), hdrop]

theorem exists_stack_eq (hv : v ∈ s.sccStack) : ∃ pre post, s.sccStack = pre ++ v :: post ∧
    s.members v = (pre ++ [v]).reverse ∧ (s.sccStack.dropWhile (· ≠ v)).tail = post := by
  obtain ⟨pre, post, hl, htake, hdrop⟩ := exists_eq_append hv
  exact ⟨pre, post, hl, by rw [State.members, htake], hdrop⟩

section Segment
variable (h : Core G emit out₀ s sccs) (hstack : v ∈ s.sccStack)
include h hstack

theorem mem_members {x : Nat} : x ∈ s.members v ↔ x ∈ s.sccStack ∧ s.idx v ≤ s.idx x := by
  obtain ⟨pre, post, hs, hm, -⟩ := exists_stack_eq hstack
  have hsorted := h.stack_sorted
  rw [hs] at hsorted
  obtain ⟨-, hpost, hpre⟩ := List.pairwise_append.mp hsorted
  rw [hm, hs]
  simp only [List.mem_reverse, List.mem_append, List.mem_cons, List.not_mem_nil, or_false]
  constructor
  · rintro (hx | rfl)
    · exact ⟨.inl hx, (hpre x hx v List.mem_cons_self).le⟩
    · exact ⟨.inr (.inl rfl), le_rfl⟩
  · rintro ⟨hx | rfl | hx, hle⟩
    · exact .inl hx
    · exact .inr rfl
    · exact absurd ((List.pairwise_cons.mp hpost).1 x hx) (Nat.not_lt.mpr hle)

theorem mem_below {x : Nat} :
    x ∈ (s.sccStack.dropWhile (· ≠ v)).tail ↔ x ∈ s.sccStack ∧ s.idx x < s.idx v := by
  obtain ⟨pre, post, hs, -, ht⟩ := exists_stack_eq hstack
  have hsorted := h.stack_sorted
  rw [hs] at hsorted
  obtain ⟨-, hpost, hpre⟩ := List.pairwise_append.mp hsorted
  rw [ht, hs]
  simp only [List.mem_append, List.mem_cons]
  constructor
  · exact fun hx => ⟨.inr (.inr hx), (List.pairwise_cons.mp hpost).1 x hx⟩
  · rintro ⟨hx | rfl | hx, hlt⟩
    · exact absurd (hpre x hx v List.mem_cons_self) (Nat.not_lt.mpr hlt.le)
    · exact absurd hlt (Nat.lt_irrefl _)
    · exact hx

theorem members_nodup : (s.members v).Nodup := by
  obtain ⟨pre, post, hs, hm, -⟩ := exists_stack_eq hstack
  have hnodup : s.sccStack.Nodup := h.stack_sorted.imp fun hlt he => by
    rw [he] at hlt
    exact Nat.lt_irrefl _ hlt
  rw [hs] at hnodup
  rw [hm, List.nodup_reverse]
  exact hnodup.sublist (List.Sublist.append (List.Sublist.refl _) (by simp))

end Segment

/-- What a closing turn knows: the head is visited and all its edges examined. -/
structure Closing (G : Graph) (s : State σ) (v : Nat) (rest : List (Nat × Nat)) : Prop where
  work_eq : ∃ c, s.work = (v, c) :: rest ∧ (G.succ v).length ≤ c
  visited : s.Visited v

namespace Closing
variable (hc : Closing G s v rest) (h : Core G emit out₀ s sccs)
include hc

theorem gray_eq : s.gray = v :: rest.map Prod.fst := by
  obtain ⟨c, hwork, -⟩ := hc.work_eq
  simp [State.gray, hwork]

/-- Out of work, the head has all its edges examined. -/
theorem examined {s' : State σ} (hwork : s'.work = rest) {x w : Nat} (hex : s'.Examined G x w) :
    s.Examined G x w := by
  obtain ⟨c, hs, hlen⟩ := hc.work_eq
  refine ⟨hex.1, fun c' hc' => ?_⟩
  rw [hs] at hc'
  rcases List.mem_cons.mp hc' with he | hc'
  · obtain ⟨rfl, rfl⟩ := Prod.mk.inj he
    rw [List.take_of_length_le hlen]
    exact hex.1
  · exact hex.2 c' (hwork ▸ hc')

include h

theorem mem_stack : v ∈ s.sccStack :=
  h.gray_stack v (hc.gray_eq ▸ List.mem_cons_self) hc.visited

theorem rest_visited {f : Nat} (hf : f ∈ rest.map Prod.fst) : s.Visited f :=
  h.gray_tail f (by rw [hc.gray_eq]; exact hf)

theorem rest_lt {f : Nat} (hf : f ∈ rest.map Prod.fst) : s.idx f < s.idx v := by
  have hsorted := h.gray_sorted
  rw [hc.gray_eq] at hsorted
  exact (List.pairwise_cons.mp hsorted).1 f hf hc.visited

theorem visited_of_examined {x w : Nat} (hx : s.Visited x) (hex : s.Examined G x w) :
    s.Visited w := by
  rcases h.examined_visited x w hx hex with hw | hw
  · exact hw
  · rw [hc.gray_eq] at hw
    obtain rfl := Option.some.inj hw
    exact hc.visited

end Closing

theorem pop_eq (s : State σ) (v : Nat) (rest : List (Nat × Nat)) :
    s.pop v rest = { s with lowlink := (s.pop v rest).lowlink, work := rest } := by
  unfold State.pop
  split <;> rfl

theorem lowlink_pop_of_ne {x : Nat} (hx : (rest.map Prod.fst).head? ≠ some x) :
    (s.pop v rest).lowlink x = s.lowlink x := by
  unfold State.pop
  split
  · rfl
  · next p c rest =>
      have hxp : x ≠ p := fun he => hx (by simp [he])
      simp [hxp]

theorem lowlink_pop_head {p : Nat} (hp : (rest.map Prod.fst).head? = some p) :
    (s.pop v rest).lowlink p = min (s.lowlink p) (s.lowlink v) := by
  unfold State.pop
  split
  · simp at hp
  · next q c rest =>
      obtain rfl : q = p := by simpa using hp
      simp

theorem lowlink_pop_le (x : Nat) : (s.pop v rest).lowlink x ≤ s.lowlink x := by
  by_cases hx : (rest.map Prod.fst).head? = some x
  · rw [lowlink_pop_head hx]
    exact Nat.min_le_left _ _
  · rw [lowlink_pop_of_ne hx]

/-- The head leaves the work and stays on the stack. -/
theorem Core.pop (h : Core G emit out₀ s sccs) (hc : Closing G s v rest)
    (hlow : s.lowlink v < s.idx v) : Core G emit out₀ (s.pop v rest) sccs := by
  have hgray := hc.gray_eq
  have hwork : (s.pop v rest).work = rest := by rw [pop_eq]
  have hgray' : (s.pop v rest).gray = rest.map Prod.fst := by rw [State.gray, hwork]
  have hsub {f : Nat} (hf : f ∈ (s.pop v rest).gray) : f ∈ s.gray := by
    rw [hgray]
    exact List.mem_cons_of_mem _ (hgray' ▸ hf)
  have hidx (x : Nat) : (s.pop v rest).idx x = s.idx x := by rw [State.idx, pop_eq]; rfl
  have hvis (x : Nat) : (s.pop v rest).Visited x ↔ s.Visited x := by rw [State.Visited, pop_eq]; rfl
  have hstack : (s.pop v rest).sccStack = s.sccStack := by rw [pop_eq]
  have hsorted := h.gray_sorted
  have hreach := h.gray_reach
  have hnodup := h.gray_nodup
  rw [hgray] at hsorted hreach hnodup
  have hvv : v ∉ rest.map Prod.fst := (List.nodup_cons.mp hnodup).1
  refine ⟨?_, ?_, ?_, ?_, ?_, ?_, ?_, ?_, ?_, ?_, ?_, ?_, ?_, ?_, ?_, ?_, ?_, ?_, ?_, ?_, ?_,
    h.sccs_topological⟩
  · intro x hx
    have hcounter : (s.pop v rest).indexCounter = s.indexCounter := by rw [pop_eq]
    rw [hidx, hcounter]
    exact h.counter x ((hvis x).mp hx)
  · exact fun x hx => h.visited_lt x ((hvis x).mp hx)
  · intro x
    have honStack : (s.pop v rest).onStack = s.onStack := by rw [pop_eq]
    rw [honStack, hstack]
    exact h.stack_iff x
  · intro x hx
    rw [hstack] at hx
    exact (hvis x).mpr (h.stack_visited x hx)
  · rw [hstack]
    exact h.stack_sorted.imp fun hab => by rwa [hidx, hidx]
  · exact fun f hf => h.gray_lt f (hsub hf)
  · rw [hgray']
    exact (List.nodup_cons.mp hnodup).2
  · intro f hf
    rw [hgray'] at hf
    exact (hvis f).mpr (hc.rest_visited h (List.mem_of_mem_tail hf))
  · intro f hf hfv
    rw [hstack]
    exact h.gray_stack f (hsub hf) ((hvis f).mp hfv)
  · rw [hgray']
    refine (List.pairwise_cons.mp hsorted).2.imp fun {f g} hfg hf => ?_
    rw [hidx, hidx]
    exact hfg ((hvis f).mp hf)
  · rw [hgray']
    exact (List.pairwise_cons.mp hreach).2
  · intro f hf hfv x hx hle
    rw [hstack] at hx
    rw [hidx, hidx] at hle
    exact h.reach_above f (hsub hf) ((hvis f).mp hfv) x hx hle
  · intro x hx
    rw [hstack] at hx ⊢
    by_cases hp : (rest.map Prod.fst).head? = some x
    · rw [lowlink_pop_head hp]
      have hpv : G.Reach x v := (List.pairwise_cons.mp hreach).1 x (List.mem_of_mem_head? hp)
      rcases Nat.le_total (s.lowlink x) (s.lowlink v) with hle | hle
      · rw [Nat.min_eq_left hle]
        obtain ⟨w, hw, hwx, hr⟩ := h.low_reach x hx
        exact ⟨w, hw, (hidx w).trans hwx, hr⟩
      · rw [Nat.min_eq_right hle]
        obtain ⟨w, hw, hwv, hr⟩ := h.low_reach v (hc.mem_stack h)
        exact ⟨w, hw, (hidx w).trans hwv, hpv.trans hr⟩
    · rw [lowlink_pop_of_ne hp]
      obtain ⟨w, hw, hwx, hr⟩ := h.low_reach x hx
      exact ⟨w, hw, (hidx w).trans hwx, hr⟩
  · intro x hx
    rw [hidx]
    exact (lowlink_pop_le x).trans (h.low_le x (hstack ▸ hx))
  · intro x hx hnot
    rw [hidx]
    by_cases hxv : x = v
    · rw [hxv]
      exact (lowlink_pop_le v).trans_lt hlow
    · refine (lowlink_pop_le x).trans_lt (h.low_lt x (hstack ▸ hx) ?_)
      rw [hgray]
      rw [hgray'] at hnot
      exact List.not_mem_cons_of_ne_of_not_mem hxv hnot
  · intro x w hx hex
    exact .inl ((hvis w).mpr (hc.visited_of_examined h ((hvis x).mp hx) (hc.examined hwork hex)))
  · intro x w hx hnot hw
    rw [hstack] at hnot ⊢
    obtain ⟨hwv, hw⟩ := h.done_closed x w ((hvis x).mp hx) hnot hw
    exact ⟨(hvis w).mpr hwv, hw⟩
  · intro f hf hfv x hx hle w hw hex
    rw [hstack] at hx hw
    rw [hidx, hidx] at hle
    obtain ⟨q, hq, hqv, hfq, hqw⟩ := h.low_examined f (hsub hf) ((hvis f).mp hfv) x hx hle w hw
      (hc.examined hwork hex)
    rw [hgray] at hq
    rcases List.mem_cons.mp hq with rfl | hq
    · -- the parent has taken over the low link of the head
      rw [hgray'] at hf ⊢
      obtain ⟨p, ps, hps⟩ := List.exists_cons_of_ne_nil (List.ne_nil_of_mem hf)
      have hp : (rest.map Prod.fst).head? = some p := by rw [hps]; rfl
      have hmem : p ∈ rest.map Prod.fst := List.mem_of_mem_head? hp
      refine ⟨p, hmem, (hvis p).mpr (hc.rest_visited h hmem), ?_, ?_⟩
      · rw [hidx, hidx]
        have hsorted' := (List.pairwise_cons.mp hsorted).2
        rw [hps] at hf hsorted'
        rcases List.mem_cons.mp hf with rfl | hf
        · exact le_rfl
        · exact ((List.pairwise_cons.mp hsorted').1 f hf (hc.rest_visited h hmem)).le
      · rw [lowlink_pop_head hp, hidx]
        exact (Nat.min_le_right _ _).trans hqw
    · refine ⟨q, hgray' ▸ hq, (hvis q).mpr hqv, ?_, ?_⟩
      · rw [hidx, hidx]
        exact hfq
      · rw [hidx]
        exact (lowlink_pop_le q).trans hqw
  · intro x hx
    have hroot : (s.pop v rest).root = s.root := by rw [pop_eq]
    rw [hroot] at hx
    rcases h.roots x hx with hx | hx
    · exact .inl ((hvis x).mpr hx)
    · rw [hgray] at hx
      rcases List.mem_cons.mp hx with rfl | hx
      · exact .inl ((hvis x).mpr hc.visited)
      · exact .inr (hgray' ▸ hx)
  · have hout : (s.pop v rest).out = s.out := by rw [pop_eq]
    rw [hout]
    exact h.out_eq
  · intro x
    rw [hstack, hvis]
    exact h.sccs_iff x

/-! ### A component -/

namespace Closing
variable (hc : Closing G s v rest) (h : Core G emit out₀ s sccs) (hlow : s.lowlink v = s.idx v)
include hc h

theorem examined_of_member {x w : Nat} (hx : x ∈ s.members v) (hw : w ∈ G.succ x) :
    s.Examined G x w := by
  obtain ⟨c, hs, hlen⟩ := hc.work_eq
  refine ⟨hw, fun c' hc' => ?_⟩
  rw [hs] at hc'
  rcases List.mem_cons.mp hc' with he | hc'
  · obtain ⟨rfl, rfl⟩ := Prod.mk.inj he
    rw [List.take_of_length_le hlen]
    exact hw
  · have hle := ((mem_members h (hc.mem_stack h)).mp hx).2
    exact absurd (hc.rest_lt h (List.mem_map_of_mem hc')) (Nat.not_lt.mpr hle)

include hlow

/-- An edge of a member stays in the segment or leads to what is done. -/
theorem edge_of_member {x w : Nat} (hx : x ∈ s.members v) (hw : w ∈ G.succ x) :
    w ∈ s.members v ∨ s.Visited w ∧ w ∉ s.sccStack := by
  have hv := hc.mem_stack h
  obtain ⟨hxs, hle⟩ := (mem_members h hv).mp hx
  have hex := hc.examined_of_member h hx hw
  have hvw := hc.visited_of_examined h (h.stack_visited x hxs) hex
  by_cases hws : w ∈ s.sccStack
  · obtain ⟨q, hq, -, hvq, hqw⟩ := h.low_examined v (hc.gray_eq ▸ List.mem_cons_self) hc.visited
      x hxs hle w hws hex
    rw [hc.gray_eq] at hq
    rcases List.mem_cons.mp hq with rfl | hq
    · exact .inl ((mem_members h hv).mpr ⟨hws, hlow ▸ hqw⟩)
    · exact absurd (hc.rest_lt h hq) (Nat.not_lt.mpr hvq)
  · exact .inr ⟨hvw, hws⟩

theorem reach_of_member {x y : Nat} (hx : x ∈ s.members v) (hr : G.Reach x y) :
    y ∈ s.members v ∨ s.Visited y ∧ y ∉ s.sccStack := by
  induction hr with
  | refl => exact .inl hx
  | tail _ hedge ih =>
    rcases ih with ih | ⟨hvis, hnot⟩
    · exact hc.edge_of_member h hlow ih hedge
    · exact .inr (h.done_closed _ _ hvis hnot hedge)

/-- Members reach the head: each has a low link below it in the segment. -/
theorem reach_head {x : Nat} (hx : x ∈ s.members v) : G.Reach x v := by
  have hv := hc.mem_stack h
  induction hn : s.idx x using Nat.strong_induction_on generalizing x with
  | _ n ih =>
    obtain ⟨hxs, hle⟩ := (mem_members h hv).mp hx
    by_cases hxv : x = v
    · rw [hxv]
      exact .refl
    · have hgray : x ∉ s.gray := by
        rw [hc.gray_eq]
        refine List.not_mem_cons_of_ne_of_not_mem hxv fun hm => ?_
        exact absurd (hc.rest_lt h hm) (Nat.not_lt.mpr hle)
      obtain ⟨w, hws, hwx, hr⟩ := h.low_reach x hxs
      rcases hc.reach_of_member h hlow hx hr with hw | ⟨-, hnot⟩
      · refine hr.trans (ih (s.idx w) ?_ hw rfl)
        rw [hwx, ← hn]
        exact h.low_lt x hxs hgray
      · exact absurd hws hnot

theorem component : G.Component (s.members v) := by
  have hv := hc.mem_stack h
  have hmem : v ∈ s.members v := (mem_members h hv).mpr ⟨hv, le_rfl⟩
  have hdown {x : Nat} (hx : x ∈ s.members v) : G.Reach v x := by
    obtain ⟨hxs, hle⟩ := (mem_members h hv).mp hx
    exact h.reach_above v (hc.gray_eq ▸ List.mem_cons_self) hc.visited x hxs hle
  refine ⟨List.ne_nil_of_mem hmem, members_nodup h hv, ?_⟩
  intro x hx y
  have hxv := hc.reach_head h hlow hx
  constructor
  · intro hy
    exact ⟨hxv.trans (hdown hy), (hc.reach_head h hlow hy).trans (hdown hx)⟩
  · rintro ⟨hxy, hyx⟩
    rcases hc.reach_of_member h hlow hx hxy with hy | ⟨hvis, hnot⟩
    · exact hy
    · -- what is done does not lead back
      have hback : ∀ z, G.Reach y z → s.Visited z ∧ z ∉ s.sccStack := by
        intro z hz
        induction hz with
        | refl => exact ⟨hvis, hnot⟩
        | tail _ hedge ih => exact h.done_closed _ _ ih.1 ih.2 hedge
      exact absurd ((mem_members h hv).mp hx).1 (hback x hyx).2

end Closing

/-- The component of the head leaves the stack. -/
theorem Core.emitComponent (h : Core G emit out₀ s sccs) (hc : Closing G s v rest)
    (hlow : s.lowlink v = s.idx v) :
    Core G emit out₀ ((s.emitComponent emit v).pop v rest) (sccs ++ [s.members v]) := by
  have hv := hc.mem_stack h
  have hgray := hc.gray_eq
  have hlowlink : ((s.emitComponent emit v).pop v rest).lowlink = s.lowlink := by
    funext x
    by_cases hx : (rest.map Prod.fst).head? = some x
    · rw [lowlink_pop_head hx]
      have hmem : x ∈ rest.map Prod.fst := List.mem_of_mem_head? hx
      have hxs : x ∈ s.sccStack :=
        h.gray_stack x (hgray ▸ List.mem_cons_of_mem _ hmem) (hc.rest_visited h hmem)
      refine Nat.min_eq_left ?_
      calc s.lowlink x ≤ s.idx x := h.low_le x hxs
        _ ≤ s.idx v := (hc.rest_lt h hmem).le
        _ = s.lowlink v := hlow.symm
    · exact lowlink_pop_of_ne hx
  have heq : (s.emitComponent emit v).pop v rest =
      { s.emitComponent emit v with lowlink := s.lowlink, work := rest } := by
    rw [pop_eq, hlowlink]
  rw [heq]
  have hsorted := h.gray_sorted
  have hreach := h.gray_reach
  have hnodup := h.gray_nodup
  rw [hgray] at hsorted hreach hnodup
  have hbelow {x : Nat} : x ∈ (s.sccStack.dropWhile (· ≠ v)).tail ↔
      x ∈ s.sccStack ∧ s.idx x < s.idx v := mem_below h hv
  have hsub {f : Nat} (hf : f ∈ rest.map Prod.fst) : f ∈ s.gray :=
    hgray ▸ List.mem_cons_of_mem _ hf
  have hdone {x : Nat} : x ∉ (s.sccStack.dropWhile (· ≠ v)).tail ↔
      x ∉ s.sccStack ∨ x ∈ s.members v := by
    rw [hbelow, mem_members h hv]
    by_cases hx : x ∈ s.sccStack
    · simp [hx]
    · simp [hx]
  refine ⟨h.counter, h.visited_lt, ?_, ?_, ?_, ?_, ?_, ?_, ?_, ?_, ?_, ?_, ?_, ?_, ?_, ?_, ?_, ?_,
    ?_, ?_, ?_, ?_⟩
  · intro x
    show (if x ∈ s.members v then false else s.onStack x) = true ↔
      x ∈ (s.sccStack.dropWhile (· ≠ v)).tail
    rw [← not_iff_not, hdone]
    by_cases hx : x ∈ s.members v
    · simp [hx]
    · simp only [hx, if_false, or_false]
      exact not_congr (h.stack_iff x)
  · exact fun x hx => h.stack_visited x (hbelow.mp hx).1
  · exact h.stack_sorted.sublist ((List.tail_sublist _).trans (List.dropWhile_sublist _))
  · exact fun f hf => h.gray_lt f (hsub hf)
  · exact (List.nodup_cons.mp hnodup).2
  · exact fun f hf => hc.rest_visited h (List.mem_of_mem_tail hf)
  · exact fun f hf hvis => hbelow.mpr ⟨h.gray_stack f (hsub hf) hvis, hc.rest_lt h hf⟩
  · exact (List.pairwise_cons.mp hsorted).2
  · exact (List.pairwise_cons.mp hreach).2
  · exact fun f hf hvis x hx hle => h.reach_above f (hsub hf) hvis x (hbelow.mp hx).1 hle
  · intro x hx
    obtain ⟨hxs, hlt⟩ := hbelow.mp hx
    obtain ⟨w, hw, hwx, hr⟩ := h.low_reach x hxs
    refine ⟨w, hbelow.mpr ⟨hw, ?_⟩, hwx, hr⟩
    calc s.idx w = s.lowlink x := hwx
      _ ≤ s.idx x := h.low_le x hxs
      _ < s.idx v := hlt
  · exact fun x hx => h.low_le x (hbelow.mp hx).1
  · intro x hx hnot
    obtain ⟨hxs, hlt⟩ := hbelow.mp hx
    refine h.low_lt x hxs ?_
    rw [hgray]
    exact List.not_mem_cons_of_ne_of_not_mem (fun he => Nat.lt_irrefl _ (he ▸ hlt)) hnot
  · intro x w hx hex
    exact .inl (hc.visited_of_examined h hx (hc.examined rfl hex))
  · intro x w hx hnot hw
    rcases hdone.mp hnot with hnot | hmem
    · obtain ⟨hwv, hws⟩ := h.done_closed x w hx hnot hw
      exact ⟨hwv, hdone.mpr (.inl hws)⟩
    · rcases hc.edge_of_member h hlow hmem hw with hw | ⟨hwv, hws⟩
      · exact ⟨h.stack_visited w ((mem_members h hv).mp hw).1, hdone.mpr (.inr hw)⟩
      · exact ⟨hwv, hdone.mpr (.inl hws)⟩
  · intro f hf hvis x hx hle w hw hex
    obtain ⟨hws, hlt⟩ := hbelow.mp hw
    obtain ⟨q, hq, hqv, hfq, hqw⟩ := h.low_examined f (hsub hf) hvis x (hbelow.mp hx).1 hle w hws
      (hc.examined rfl hex)
    rw [hgray] at hq
    rcases List.mem_cons.mp hq with rfl | hq
    · exact absurd (hlow ▸ hqw) (Nat.not_le.mpr hlt)
    · exact ⟨q, hq, hqv, hfq, hqw⟩
  · intro x hx
    rcases h.roots x hx with hx | hx
    · exact .inl hx
    · rw [hgray] at hx
      rcases List.mem_cons.mp hx with rfl | hx
      · exact .inl hc.visited
      · exact .inr hx
  · show emit s.out (s.members v) = _
    rw [List.foldl_append, ← h.out_eq]
    rfl
  · intro x
    show _ ↔ s.Visited x ∧ x ∉ (s.sccStack.dropWhile (· ≠ v)).tail
    rw [List.flatten_append, List.mem_append, h.sccs_iff, hdone]
    simp only [List.flatten_cons, List.flatten_nil, List.append_nil]
    constructor
    · rintro (⟨hx, hnot⟩ | hx)
      · exact ⟨hx, .inl hnot⟩
      · exact ⟨h.stack_visited x ((mem_members h hv).mp hx).1, .inr hx⟩
    · rintro ⟨hx, hnot | hm⟩
      · exact .inl ⟨hx, hnot⟩
      · exact .inr hm
  · refine h.sccs_topological.concat (hc.component h hlow) ?_ ?_
    · intro x hx hm
      exact ((h.sccs_iff x).mp hm).2 ((mem_members h hv).mp hx).1
    · intro x hx w hw
      rcases hc.edge_of_member h hlow hx hw with hw | hw
      · exact .inl hw
      · exact .inr ((h.sccs_iff w).mpr hw)

end Close

/-! ## A turn -/

section Step
variable {σ : Type*} {G : Graph} {emit : σ → List Nat → σ} {out₀ : σ} {s : State σ}
  {sccs : List (List Nat)}

/-- A turn whose head has been entered. -/
theorem Core.advance (h : Core G emit out₀ s sccs) {v c : Nat} {rest : List (Nat × Nat)}
    (hwork : s.work = (v, c) :: rest) (hv : s.Visited v) (hrest : ∀ f ∈ rest, f.2 ≠ 0) :
    ∃ sccs, Inv G emit out₀ (advance G emit s v c rest) sccs := by
  have hgray : s.gray = v :: rest.map Prod.fst := by simp [State.gray, hwork]
  have hvis : ∀ f ∈ rest, s.Visited f.1 := by
    intro f hf
    exact h.gray_tail f.1 (by rw [hgray]; exact List.mem_map_of_mem hf)
  have hfresh : ∀ f ∈ rest, f.2 = 0 ↔ ¬ s.Visited f.1 := fun f hf =>
    ⟨fun h0 => absurd h0 (hrest f hf), fun hnot => absurd (hvis f hf) hnot⟩
  unfold Tarjan.advance
  split
  · next w hw =>
      split
      · next hnone =>
          have hnew : ¬ s.Visited w := fun hw' => hw' hnone
          refine ⟨sccs, h.push hwork hv hw hnew, ?_⟩
          intro f hf
          have hf : f ∈ (w, 0) :: (v, c + 1) :: rest := hf
          rcases List.mem_cons.mp hf with rfl | hf
          · exact ⟨fun _ => hnew, fun _ => rfl⟩
          · rcases List.mem_cons.mp hf with rfl | hf
            · exact ⟨fun h0 => absurd h0 (Nat.succ_ne_zero c), fun hnot => absurd hv hnot⟩
            · exact hfresh f hf
      · next hsome =>
          refine ⟨sccs, h.scan hwork hv hw hsome, ?_⟩
          intro f hf
          have hf : f ∈ (v, c + 1) :: rest := hf
          rcases List.mem_cons.mp hf with rfl | hf
          · exact ⟨fun h0 => absurd h0 (Nat.succ_ne_zero c), fun hnot => absurd hv hnot⟩
          · exact hfresh f hf
  · next hnone =>
      have hc : Closing G s v rest :=
        ⟨⟨c, hwork, List.getElem?_eq_none_iff.mp hnone⟩, hv⟩
      have hidx : s.index v = some (s.idx v) := by
        unfold State.idx
        cases hi : s.index v with
        | none => exact absurd hi hv
        | some i => rfl
      unfold State.close
      split
      · next hlow =>
          rw [hidx] at hlow
          refine ⟨_, h.emitComponent hc (Option.some.inj hlow).symm, ?_⟩
          intro f hf
          rw [pop_eq] at hf ⊢
          exact hfresh f hf
      · next hlow =>
          rw [hidx] at hlow
          have hle := h.low_le v (hc.mem_stack h)
          have hne : s.lowlink v ≠ s.idx v := fun he => hlow (congrArg some he.symm)
          refine ⟨_, h.pop hc (lt_of_le_of_ne hle hne), ?_⟩
          intro f hf
          rw [pop_eq] at hf ⊢
          exact hfresh f hf

/-- The head of the work once it has been entered. -/
theorem Inv.entered (h : Inv G emit out₀ s sccs) {v c : Nat} {rest : List (Nat × Nat)}
    (hwork : s.work = (v, c) :: rest) :
    Core G emit out₀ (if c = 0 then s.visit v else s) sccs ∧
      (if c = 0 then s.visit v else s).work = (v, c) :: rest ∧
      (if c = 0 then s.visit v else s).Visited v := by
  have hhead := h.work_fresh (v, c) (hwork ▸ List.mem_cons_self)
  split
  · next hc =>
      subst hc
      exact ⟨h.toCore.visit hwork (hhead.mp rfl), hwork, visited_visit.2 (.inl rfl)⟩
  · next hc =>
      refine ⟨h.toCore, hwork, ?_⟩
      by_contra hnot
      exact hc (hhead.mpr hnot)

theorem Inv.step (h : Inv G emit out₀ s sccs) : ∃ sccs, Inv G emit out₀ (step G emit s) sccs := by
  unfold Tarjan.step
  split
  · next hwork =>
      have hgray : s.gray = [] := by simp [State.gray, hwork]
      split
      · next hroot =>
          split
          · next hnone =>
              refine ⟨sccs, ⟨h.counter, h.visited_lt, h.stack_iff, h.stack_visited, h.stack_sorted,
                by simpa [State.gray] using hroot, by simp [State.gray], by simp [State.gray], ?_,
                by simp [State.gray], by simp [State.gray], ?_, h.low_reach, h.low_le, ?_, ?_,
                h.done_closed, ?_, ?_, h.out_eq, h.sccs_iff, h.sccs_topological⟩, ?_⟩
              · intro f hf hvis
                obtain rfl : f = s.root := by simpa [State.gray] using hf
                exact absurd hnone hvis
              · intro f hf hvis
                obtain rfl : f = s.root := by simpa [State.gray] using hf
                exact absurd hnone hvis
              · exact fun x hx _ => h.low_lt x hx (by simp [hgray])
              · intro x w hx hex
                have hex' : s.Examined G x w := ⟨hex.1, fun c hc => by simp [hwork] at hc⟩
                rcases h.examined_visited x w hx hex' with hw | hw
                · exact .inl hw
                · simp [hgray] at hw
              · intro f hf hvis
                obtain rfl : f = s.root := by simpa [State.gray] using hf
                exact absurd hnone hvis
              · intro x hx
                rcases Nat.lt_succ_iff_lt_or_eq.mp hx with hx | rfl
                · rcases h.roots x hx with hx | hx
                  · exact .inl hx
                  · simp [hgray] at hx
                · exact .inr (by simp [State.gray])
              · intro f hf
                obtain rfl := List.mem_singleton.mp hf
                exact ⟨fun _ hvis => hvis hnone, fun _ => rfl⟩
          · next hsome =>
              refine ⟨sccs, { h with roots := ?_ }⟩
              intro x hx
              rcases Nat.lt_succ_iff_lt_or_eq.mp hx with hx | rfl
              · exact h.roots x hx
              · exact .inl hsome
      · exact ⟨sccs, h⟩
  · next v c rest hwork =>
      have hrest : ∀ f ∈ rest, f.2 ≠ 0 := by
        intro f hf h0
        have hmem : f ∈ s.work := hwork ▸ List.mem_cons_of_mem _ hf
        refine (h.work_fresh f hmem).mp h0 (h.gray_tail f.1 ?_)
        simpa [State.gray, hwork] using ⟨f.2, hf⟩
      obtain ⟨hcore, hwork', hv⟩ := h.entered hwork
      exact hcore.advance hwork' hv hrest

theorem inv_start : Inv G emit out₀ (.start out₀) [] := by
  refine ⟨⟨?_, ?_, ?_, ?_, ?_, ?_, ?_, ?_, ?_, ?_, ?_, ?_, ?_, ?_, ?_, ?_, ?_, ?_, ?_, rfl, ?_,
    Graph.topological_nil⟩, ?_⟩ <;> simp [State.start, State.Visited, State.gray]

end Step

/-! ## The whole run -/

section Measure
variable {σ : Type*} (G : Graph)

/-- The turns a vertex in work still takes. -/
def frameTurns (s : State σ) (f : Nat × Nat) : Nat :=
  if s.index f.1 = none then 0 else (G.succ f.1).length - f.2 + 1

/-- The turns a vertex that is not visited will take. -/
def newTurns (s : State σ) (v : Nat) : Nat :=
  if s.index v = none then (G.succ v).length + 1 else 0

def turns (s : State σ) : Nat :=
  (G.size - s.root) + (s.work.map (frameTurns G s)).sum +
    ∑ v ∈ Finset.range G.size, newTurns G s v

variable {G} {emit : σ → List Nat → σ} {out₀ : σ} {s : State σ} {sccs : List (List Nat)}
  {v c : Nat} {rest : List (Nat × Nat)}

theorem sum_frameTurns_congr {s' : State σ} {l : List (Nat × Nat)}
    (h : ∀ f ∈ l, s'.index f.1 = s.index f.1) :
    (l.map (frameTurns G s')).sum = (l.map (frameTurns G s)).sum :=
  congrArg List.sum (List.map_congr_left fun f hf => by simp [frameTurns, h f hf])

/-- Entering a vertex costs no turn. -/
theorem turns_visit (h : Core G emit out₀ s sccs) (hwork : s.work = (v, 0) :: rest)
    (hv : ¬ s.Visited v) : turns G (s.visit v) = turns G s := by
  have hnone : s.index v = none := not_not.mp hv
  have hgray : s.gray = v :: rest.map Prod.fst := by simp [State.gray, hwork]
  have hmem : v ∈ Finset.range G.size :=
    Finset.mem_range.mpr (h.gray_lt v (hgray ▸ List.mem_cons_self))
  have hnodup := h.gray_nodup
  rw [hgray] at hnodup
  have hindex (x : Nat) (hx : x ≠ v) : (s.visit v).index x = s.index x := by
    simp [State.visit, hx]
  have hself : (s.visit v).index v = some s.indexCounter := by simp [State.visit]
  have hrest : (rest.map (frameTurns G (s.visit v))).sum = (rest.map (frameTurns G s)).sum := by
    refine sum_frameTurns_congr fun f hf => hindex f.1 fun he => ?_
    exact (List.nodup_cons.mp hnodup).1 (he ▸ List.mem_map_of_mem hf)
  have hsum : ∑ x ∈ (Finset.range G.size).erase v, newTurns G (s.visit v) x =
      ∑ x ∈ (Finset.range G.size).erase v, newTurns G s x := by
    refine Finset.sum_congr rfl fun x hx => ?_
    rw [newTurns, hindex x (Finset.ne_of_mem_erase hx), newTurns]
  have hwork' : (s.visit v).work = (v, 0) :: rest := hwork
  have hroot : (s.visit v).root = s.root := rfl
  rw [turns, turns, hwork, hwork', hroot, ← Finset.add_sum_erase _ _ hmem,
    ← Finset.add_sum_erase _ (newTurns G s) hmem, hsum]
  simp only [List.map_cons, List.sum_cons, hrest]
  simp only [frameTurns, newTurns, hself, hnone, if_true, reduceCtorEq, if_false]
  omega

theorem turns_advance_lt (hwork : s.work = (v, c) :: rest) (hv : s.Visited v) :
    turns G (advance G emit s v c rest) < turns G s := by
  have hhead : frameTurns G s (v, c) = (G.succ v).length - c + 1 := by
    rw [frameTurns, if_neg hv]
  have hnext : frameTurns G s (v, c + 1) = (G.succ v).length - (c + 1) + 1 := by
    rw [frameTurns, if_neg hv]
  have hpop (s' : State σ) (hindex : s'.index = s.index) (hroot : s'.root = s.root) :
      turns G (s'.pop v rest) < turns G s := by
    have hnew : newTurns G (s'.pop v rest) = newTurns G s := by
      funext x
      rw [newTurns, newTurns, pop_eq, hindex]
    have hframes : (rest.map (frameTurns G (s'.pop v rest))).sum =
        (rest.map (frameTurns G s)).sum :=
      sum_frameTurns_congr fun f _ => by rw [pop_eq, hindex]
    have hroot' : (s'.pop v rest).root = s.root := by rw [pop_eq, hroot]
    have hwork' : (s'.pop v rest).work = rest := by rw [pop_eq]
    rw [turns, turns, hnew, hwork, hwork', hroot', hframes]
    simp only [List.map_cons, List.sum_cons, hhead]
    omega
  unfold advance
  split
  · next w hw =>
      have hc : c < (G.succ v).length := (List.getElem?_eq_some_iff.mp hw).1
      have hturns (work : List (Nat × Nat)) (s' : State σ) (hindex : s'.index = s.index)
          (hroot : s'.root = s.root) (hwork' : s'.work = work)
          (hlt : (work.map (frameTurns G s)).sum < (s.work.map (frameTurns G s)).sum) :
          turns G s' < turns G s := by
        have hnew : newTurns G s' = newTurns G s := by
          funext x
          rw [newTurns, newTurns, hindex]
        rw [turns, turns, hnew, hroot, hwork', sum_frameTurns_congr (s := s) fun f _ => by
          rw [hindex]]
        omega
      split
      · next hnone =>
          refine hturns ((w, 0) :: (v, c + 1) :: rest) _ rfl rfl rfl ?_
          rw [hwork]
          simp only [List.map_cons, List.sum_cons, hhead, hnext]
          simp only [frameTurns, hnone, if_true]
          omega
      · refine hturns ((v, c + 1) :: rest) _ rfl rfl rfl ?_
        rw [hwork]
        simp only [List.map_cons, List.sum_cons, hhead, hnext]
        omega
  · unfold State.close
    split
    · exact hpop _ rfl rfl
    · exact hpop _ rfl rfl

end Measure

section Run
variable {σ : Type*} (G : Graph) (emit : σ → List Nat → σ) (out₀ : σ)

def Done (s : State σ) : Prop := s.work = [] ∧ G.size ≤ s.root

/-- The loop over all vertices. -/
def run : State σ := (step G emit)^[turns G (State.start out₀)] (.start out₀)

variable {G emit}

variable {s : State σ} {sccs : List (List Nat)}

theorem step_of_done (h : Done G s) : step G emit s = s := by
  unfold step
  rw [h.1]
  simp [Nat.not_lt.mpr h.2]

theorem turns_step_lt (h : Inv G emit out₀ s sccs) (hnot : ¬ Done G s) :
    turns G (step G emit s) < turns G s := by
  unfold step
  split
  · next hwork =>
      have hroot : s.root < G.size := by
        by_contra hge
        exact hnot ⟨hwork, Nat.not_lt.mp hge⟩
      rw [if_pos hroot]
      split
      · next hnone =>
          simp only [turns, hwork, List.map_cons, List.map_nil, List.sum_cons, List.sum_nil,
            frameTurns, hnone, if_true, newTurns]
          omega
      · simp only [turns, hwork, List.map_nil, List.sum_nil, newTurns]
        omega
  · next v c rest hwork =>
      have hhead := h.work_fresh (v, c) (hwork ▸ List.mem_cons_self)
      split
      · next hc =>
          subst hc
          have hnew : ¬ s.Visited v := hhead.mp rfl
          rw [← turns_visit h.toCore hwork hnew]
          exact turns_advance_lt hwork (visited_visit.2 (.inl rfl))
      · next hc =>
          refine turns_advance_lt hwork ?_
          by_contra hv
          exact hc (hhead.mpr hv)

/-- Without work the stack is empty: low links would go down for ever. -/
theorem Core.not_mem_stack (h : Core G emit out₀ s sccs) (hgray : s.gray = []) (x : Nat) :
    x ∉ s.sccStack := by
  induction hn : s.idx x using Nat.strong_induction_on generalizing x with
  | _ n ih =>
    intro hx
    obtain ⟨w, hw, hwx, -⟩ := h.low_reach x hx
    have hlt := h.low_lt x hx (by rw [hgray]; exact List.not_mem_nil)
    exact ih (s.idx w) (by rw [hwx, ← hn]; exact hlt) w rfl hw

variable (G emit)

theorem inv_iterate (k : Nat) : ∃ sccs, Inv G emit out₀ ((step G emit)^[k] (.start out₀)) sccs := by
  induction k with
  | zero => exact ⟨[], inv_start⟩
  | succ k ih =>
    obtain ⟨sccs, h⟩ := ih
    rw [Function.iterate_succ_apply']
    exact h.step

/-- The run ends: no vertex is in work and all have been roots. -/
theorem run_done : Done G (run G emit out₀) :=
  (done_iterate (step G emit) (fun s => ∃ sccs, Inv G emit out₀ s sccs) (Done G) (turns G)
    (fun s hs => step_of_done hs) (fun s hs hnot => by
      obtain ⟨sccs, hs⟩ := hs
      exact ⟨hs.step, turns_step_lt out₀ hs hnot⟩)
    (turns G (State.start out₀)) ⟨[], inv_start⟩ le_rfl).2

theorem gray_run : (run G emit out₀).gray = [] := by
  rw [State.gray, (run_done G emit out₀).1, List.map_nil]

/-- The run leaves nothing on the stack. -/
theorem sccStack_run : (run G emit out₀).sccStack = [] := by
  obtain ⟨sccs, hinv⟩ := inv_iterate G emit out₀ (turns G (State.start out₀))
  exact List.eq_nil_iff_forall_not_mem.mpr
    (hinv.toCore.not_mem_stack out₀ (gray_run G emit out₀))

/-- The head of the work closes its component: its edges are examined and its low
link is its own index. -/
def Closes (s : State σ) (v child : Nat) : Prop :=
  (G.succ v)[child]? = none ∧ s.index v = some (s.lowlink v)

/-- At every turn a vertex that closes its component is found on the stack, and what
lies from it to the top is a component. -/
def FindsRoots : Prop :=
  ∀ k v child rest, ((step G emit)^[k] (.start out₀)).work = (v, child) :: rest →
    let s := (step G emit)^[k] (.start out₀)
    let entered := if child = 0 then s.visit v else s
    Closes G entered v child → v ∈ entered.sccStack ∧ G.Component (entered.members v)

theorem findsRoots : FindsRoots G emit out₀ := by
  intro k v child rest hwork s entered hcloses
  obtain ⟨sccs, hinv⟩ := inv_iterate G emit out₀ k
  obtain ⟨hcore, hwork, hv⟩ := hinv.entered hwork
  have hc : Closing G entered v rest :=
    ⟨⟨child, hwork, List.getElem?_eq_none_iff.mp hcloses.1⟩, hv⟩
  refine ⟨hc.mem_stack hcore, hc.component hcore ?_⟩
  rw [State.idx, hcloses.2, Option.getD_some]

/-- **The run**: the action is folded over all components, in an order in which
every edge goes back. -/
theorem exists_components : ∃ sccs, (run G emit out₀).out = sccs.foldl emit out₀ ∧
    G.Topological sccs ∧ ∀ v < G.size, v ∈ sccs.flatten := by
  obtain ⟨sccs, hinv⟩ := inv_iterate G emit out₀ (turns G (State.start out₀))
  have hgray := gray_run G emit out₀
  refine ⟨sccs, hinv.out_eq, hinv.sccs_topological, ?_⟩
  intro v hv
  refine (hinv.sccs_iff v).mpr ⟨?_, hinv.toCore.not_mem_stack out₀ hgray v⟩
  rcases hinv.roots v (hv.trans_le (run_done G emit out₀).2) with hv | hv
  · exact hv
  · exact absurd (hgray ▸ hv) List.not_mem_nil

end Run

/-! ## Writing a value for each component -/

section Write
variable {α : Type*} (value : (Nat → α) → List Nat → α)

/-- Give every vertex of a component the component's value. -/
def write (h : Nat → α) (C : List Nat) : Nat → α :=
  fun x => if x ∈ C then value h C else h x

theorem foldl_write_of_not_mem {sccs : List (List Nat)} (h : Nat → α) {x : Nat}
    (hx : x ∉ sccs.flatten) : sccs.foldl (write value) h x = h x := by
  induction sccs generalizing h with
  | nil => rfl
  | cons C sccs ih =>
    rw [List.flatten_cons, List.mem_append, not_or] at hx
    rw [List.foldl_cons, ih _ hx.2, write, if_neg hx.1]

/-- A component is written once, when those it leads to are and nothing else
that it reads is. -/
theorem foldl_write {G : Graph} {sccs : List (List Nat)} (htop : G.Topological sccs)
    (h : Nat → α) {pre : List (List Nat)} {C : List Nat} {post : List (List Nat)}
    (hsplit : sccs = pre ++ C :: post) :
    (∀ x ∈ C, sccs.foldl (write value) h x = value (pre.foldl (write value) h) C) ∧
      (∀ y ∈ pre.flatten, pre.foldl (write value) h y = sccs.foldl (write value) h y) ∧
      ∀ y ∉ pre.flatten, pre.foldl (write value) h y = h y := by
  have hlater (l₁ l₂ : List (List Nat)) (hl : sccs = l₁ ++ l₂) (x : Nat) (hx : x ∈ l₁.flatten) :
      x ∉ l₂.flatten := by
    intro hx₂
    obtain ⟨D, hD, hxD⟩ := List.mem_flatten.mp hx₂
    obtain ⟨l₃, l₄, rfl⟩ := List.append_of_mem hD
    have hD' := (htop (l₁ ++ l₃) D l₄ (by rw [hl, List.append_assoc])).2.1 x hxD
    exact hD' (by rw [List.flatten_append]; exact List.mem_append_left _ hx)
  refine ⟨?_, ?_, fun y hy => foldl_write_of_not_mem value h hy⟩
  · intro x hx
    have hpost : x ∉ post.flatten := by
      refine hlater (pre ++ [C]) post (by rw [hsplit]; simp) x ?_
      rw [List.flatten_append]
      exact List.mem_append_right _ (by simpa using hx)
    rw [hsplit, List.foldl_append, List.foldl_cons, foldl_write_of_not_mem value _ hpost, write,
      if_pos hx]
  · intro y hy
    have hy' : y ∉ (C :: post).flatten := hlater pre (C :: post) hsplit y hy
    rw [hsplit, List.foldl_append, foldl_write_of_not_mem value _ hy']

end Write

end OhosBun.Lib.Tarjan
