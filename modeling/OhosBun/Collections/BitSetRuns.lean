/-
# `OhosBun.Collections.BitSetRuns` — runs over several bit sets

The sets of a run are kept in variables, each of which is a bit set of some length
(`step`), and stands for a length and a finite set of numbers (`Serves`).  An
operation that is refused memory leaves its set as it is.

After every run the sets show what their finite sets are (`run_observes`).  Two sets
compare as equal, or as subset and superset, only if they have the same length.
-/
import Mathlib.Data.Finset.Max
import OhosBun.Collections.BitSetIterator
import OhosBun.Lib.Refinement

namespace OhosBun.Collections.DynamicBitSetUnmanaged

open OhosBun.Lib

/-! ## What can be seen of a set -/

section Observations
variable {s other : DynamicBitSetUnmanaged} {n m : Nat} {S T : Finset Nat}

theorem mem_listed (hS : ∀ i ∈ S, i < n) {i : Nat} : i ∈ listed true n S ↔ i ∈ S := by
  rw [listed, List.mem_filter, List.mem_range, beq_true, decide_eq_true_eq]
  exact ⟨And.right, fun hi => ⟨hS i hi, hi⟩⟩

theorem onesFrom_masksSlice (h : s.Shows n S) : onesFrom 0 s.masksSlice = listed true n S := by
  rw [← onesFrom_shown h, BitSetIterator.shown_eq, if_pos rfl]

theorem count_eq (h : s.Shows n S) : s.count = S.card := by
  have hfold : ∀ (masks : List (BitVec 64)) (total off : Nat),
      masks.foldl (fun total mask => total + mask.cpop.toNat) total = total + (onesFrom off masks).length := by
    intro masks
    induction masks with
    | nil => exact fun _ _ => rfl
    | cons mask masks ih =>
      intro total off
      rw [List.foldl_cons, ih _ (off + 64), onesFrom, List.length_append, List.length_map, length_ones,
        Nat.add_assoc]
  have hset : S = (listed true n S).toFinset := by
    ext i
    rw [List.mem_toFinset, mem_listed h.subset]
  have hnodup : (listed true n S).Nodup := List.nodup_range.filter _
  rw [count, hfold _ 0 0, Nat.zero_add, onesFrom_masksSlice h, hset, List.toFinset_card_of_nodup (hset ▸ hnodup),
    ← hset]

theorem findFirstSetFrom_eq (masks : List (BitVec 64)) : ∀ off,
    findFirstSetFrom off masks = (onesFrom off masks).head? := by
  induction masks with
  | nil => exact fun _ => rfl
  | cons mask masks ih =>
    intro off
    rw [findFirstSetFrom, onesFrom]
    by_cases hmask : mask = 0
    · subst hmask
      rw [if_neg (not_not_intro rfl), ones_zero, ih]
      rfl
    · rw [if_pos hmask, ones_eq_cons hmask]
      rfl

/-- The least member. -/
theorem findFirstSet_eq (h : s.Shows n S) (i : Nat) :
    s.findFirstSet = some i ↔ i ∈ S ∧ ∀ j ∈ S, i ≤ j := by
  rw [findFirstSet, findFirstSetFrom_eq, onesFrom_masksSlice h]
  have hmem {i : Nat} := mem_listed h.subset (i := i)
  have hincreasing : (listed true n S).Pairwise (· < ·) := List.pairwise_lt_range.filter _
  cases hlist : listed true n S with
  | nil =>
    simp only [hlist, List.not_mem_nil, false_iff] at hmem
    exact ⟨(fun hnone => absurd hnone (by simp)), fun hi => absurd hi.1 hmem⟩
  | cons a l =>
    rw [hlist, List.pairwise_cons] at hincreasing
    simp only [hlist, List.mem_cons] at hmem
    have hleast : ∀ j ∈ S, a ≤ j := fun j hj => by
      rcases hmem.mpr hj with rfl | hl
      · exact Nat.le_refl _
      · exact (hincreasing.1 j hl).le
    rw [List.head?_cons, Option.some.injEq]
    constructor
    · rintro rfl
      exact ⟨hmem.mp (Or.inl rfl), hleast⟩
    · rintro ⟨hi, hall⟩
      exact Nat.le_antisymm (hleast i hi) (hall a (hmem.mp (Or.inl rfl)))

theorem findFirstSet_eq_none (h : s.Shows n S) : s.findFirstSet = none ↔ S = ∅ := by
  constructor
  · intro hnone
    rw [findFirstSet, findFirstSetFrom_eq, onesFrom_masksSlice h, List.head?_eq_none_iff] at hnone
    refine Finset.eq_empty_of_forall_notMem fun i hi => ?_
    rw [← mem_listed h.subset, hnone] at hi
    exact List.not_mem_nil hi
  · rintro rfl
    cases hfirst : s.findFirstSet with
    | none => rfl
    | some i => exact absurd ((findFirstSet_eq h i).mp hfirst).1 (Finset.notMem_empty i)

/-- Sets of one length have equal words if they are equal. -/
theorem masksSlice_eq_iff (h : s.Shows n S) (h' : other.Shows n T) :
    s.masksSlice = other.masksSlice ↔ S = T := by
  constructor
  · intro heq
    ext i
    rw [← decide_eq_decide, ← h.bitAt_masksSlice, ← h'.bitAt_masksSlice, heq]
  · rintro rfl
    refine eq_of_bitAt (h.length_masksSlice.trans h'.length_masksSlice.symm) fun i _ => ?_
    rw [h.bitAt_masksSlice, h'.bitAt_masksSlice]

theorem eql_eq (h : s.Shows n S) (h' : other.Shows m T) : s.eql other = decide (n = m ∧ S = T) := by
  rw [eql, h.length, h'.length]
  by_cases hlen : n = m
  · subst hlen
    rw [if_neg (not_not_intro rfl), Bool.eq_iff_iff, beq_iff_eq, decide_eq_true_eq, masksSlice_eq_iff h h']
    exact ⟨fun heq => ⟨rfl, heq⟩, And.right⟩
  · rw [if_pos hlen, decide_eq_false fun hand => hlen hand.1]

theorem all_zip_and_eq (as : List (BitVec 64)) : ∀ bs : List (BitVec 64), as.length = bs.length →
    (((as.zip bs).all fun (a, b) => a &&& b == a) = true ↔ List.zipWith (fun a b => a &&& b) as bs = as) := by
  induction as with
  | nil => exact fun _ _ => ⟨fun _ => rfl, fun _ => rfl⟩
  | cons a as ih =>
    intro bs hlen
    cases bs with
    | nil => exact absurd hlen (Nat.succ_ne_zero _)
    | cons b bs =>
      rw [List.zip_cons_cons, List.all_cons, Bool.and_eq_true, beq_iff_eq, List.zipWith_cons_cons,
        List.cons.injEq, ih bs (Nat.succ.inj hlen)]

theorem subsetOf_eq (h : s.Shows n S) (h' : other.Shows m T) :
    s.subsetOf other = decide (n = m ∧ S ⊆ T) := by
  rw [subsetOf, h.length, h'.length]
  by_cases hlen : n = m
  swap
  · rw [if_pos hlen, decide_eq_false fun hand => hlen hand.1]
  subst hlen
  have hlength := h.length_masksSlice.trans h'.length_masksSlice.symm
  have hzip : (List.zipWith (fun a b => a &&& b) s.masksSlice other.masksSlice).length =
      s.masksSlice.length := by
    rw [List.length_zipWith, ← hlength, Nat.min_self]
  have hbit : ∀ i < s.masksSlice.length * 64,
      bitAt (List.zipWith (fun a b => a &&& b) s.masksSlice other.masksSlice) i =
        (decide (i ∈ S) && decide (i ∈ T)) := by
    intro i hi
    rw [bitAt_zipWith (g := fun a b => a && b) (fun _ _ _ _ => BitVec.getLsbD_and) hi (by rw [← hlength]; exact hi),
      h.bitAt_masksSlice, h'.bitAt_masksSlice]
  rw [if_neg (not_not_intro rfl), Bool.eq_iff_iff, all_zip_and_eq _ _ hlength, decide_eq_true_eq]
  constructor
  · refine fun heq => ⟨rfl, fun i hi => ?_⟩
    have hlt : i < s.masksSlice.length * 64 := by
      rw [h.length_masksSlice]
      exact Nat.lt_of_lt_of_le (h.subset i hi) (numMasks_mul_ge n)
    have hand := hbit i hlt
    rw [heq, h.bitAt_masksSlice, decide_eq_true hi, Bool.true_and] at hand
    exact of_decide_eq_true hand.symm
  · rintro ⟨-, hsub⟩
    refine eq_of_bitAt hzip fun i hi => ?_
    rw [hzip] at hi
    rw [hbit i hi, h.bitAt_masksSlice]
    by_cases hmem : i ∈ S
    · rw [decide_eq_true (hsub hmem), Bool.and_true]
    · rw [decide_eq_false hmem, Bool.false_and]

/-- A set shows its length and its members, and nothing else. -/
structure Observes (s : DynamicBitSetUnmanaged) (n : Nat) (S : Finset Nat) : Prop where
  capacity : s.bitLength = n
  subset : ∀ i ∈ S, i < n
  padding : ∀ i, n ≤ i → bitAt s.masksSlice i = false
  isSet : ∀ i < n, s.isSet i = some (decide (i ∈ S))
  count : s.count = S.card
  findFirstSet : ∀ i, s.findFirstSet = some i ↔ i ∈ S ∧ ∀ j ∈ S, i ≤ j
  findFirstSet_none : s.findFirstSet = none ↔ S = ∅
  iterator : ∀ kindSet dirFwd i, (s.iterator kindSet dirFwd).nth kindSet dirFwd i =
    (if dirFwd then listed kindSet n S else (listed kindSet n S).reverse)[i]?

theorem Shows.observes (h : s.Shows n S) : s.Observes n S where
  capacity := h.length
  subset := h.subset
  padding i hi := by
    rw [h.bitAt_masksSlice]
    exact decide_eq_false fun hmem => absurd (h.subset i hmem) (Nat.not_lt.mpr hi)
  isSet i hi := h.isSet hi
  count := count_eq h
  findFirstSet := findFirstSet_eq h
  findFirstSet_none := findFirstSet_eq_none h
  iterator := nth_listed h

end Observations

/-! ## Operations -/

/-- An operation on the set of a variable, with what the allocator will answer. -/
inductive Op
  | initEmpty (dst bitLength : Nat) (heap : Heap)
  | resize (dst newLen : Nat) (fill : Bool) (heap : Heap)
  | set (dst index : Nat)
  | unset (dst index : Nat)
  | setRangeValue (dst : Nat) (range : Range) (value : Bool)
  | setAll (dst : Nat) (value : Bool)
  | toggleAll (dst : Nat)
  | setUnion (dst src : Nat)
  | setIntersection (dst src : Nat)
  | setExclude (dst src : Nat)
  | clone (dst src : Nat) (heap : Heap)
  | fromBytes (dst bitLength : Nat) (bytes : List (BitVec 8)) (heap : Heap)
  deriving DecidableEq

inductive Reply
  | done
  | error (e : AllocError)
  /-- `Ok(None)` -/
  | refused
  deriving DecidableEq

section Runs

/-- The sets of the variables. -/
abbrev Sets := Nat → DynamicBitSetUnmanaged

def put (sets : Sets) (dst : Nat) (s : DynamicBitSetUnmanaged) : Sets × Reply :=
  (Function.update sets dst s, .done)

def tryPut (sets : Sets) (dst : Nat) : Except AllocError DynamicBitSetUnmanaged → Sets × Reply
  | .ok s => put sets dst s
  | .error e => (sets, .error e)

def step (sets : Sets) : Op → Option (Sets × Reply)
  | .initEmpty dst bitLength heap => some (tryPut sets dst (initEmpty heap bitLength))
  | .resize dst newLen fill heap => some (tryPut sets dst ((sets dst).resize heap newLen fill))
  | .set dst index => ((sets dst).set index).map (put sets dst)
  | .unset dst index => ((sets dst).unset index).map (put sets dst)
  | .setRangeValue dst range value => ((sets dst).setRangeValue range value).map (put sets dst)
  | .setAll dst value => some (put sets dst ((sets dst).setAll value))
  | .toggleAll dst => some (put sets dst (sets dst).toggleAll)
  | .setUnion dst src => ((sets dst).setUnion (sets src)).map (put sets dst)
  | .setIntersection dst src => ((sets dst).setIntersection (sets src)).map (put sets dst)
  | .setExclude dst src => ((sets dst).setExclude (sets src)).map (put sets dst)
  | .clone dst src heap => some (tryPut sets dst ((sets src).clone heap))
  | .fromBytes dst bitLength bytes heap =>
    match fromBytes heap bitLength bytes with
    | .ok none => some (sets, .refused)
    | .ok (some s) => some (put sets dst s)
    | .error e => some (sets, .error e)

def Op.heap : Op → Option Heap
  | .initEmpty _ _ heap | .resize _ _ _ heap | .clone _ _ heap | .fromBytes _ _ _ heap => some heap
  | _ => none

/-- The length and the finite set of a variable. -/
abbrev Values := Nat → Nat × Finset Nat

inductive Serves : Values → Op → Reply → Values → Prop
  | initEmpty (v : Values) (dst n : Nat) (heap : Heap) :
      Serves v (.initEmpty dst n heap) .done (Function.update v dst (n, ∅))
  | resize (v : Values) (dst n : Nat) (fill : Bool) (heap : Heap) :
      Serves v (.resize dst n fill heap) .done (Function.update v dst
        (n, (v dst).2 ∩ Finset.range n ∪ if fill then Finset.Ico (v dst).1 n else ∅))
  | set (v : Values) (dst index : Nat) :
      Serves v (.set dst index) .done (Function.update v dst ((v dst).1, insert index (v dst).2))
  | unset (v : Values) (dst index : Nat) :
      Serves v (.unset dst index) .done (Function.update v dst ((v dst).1, (v dst).2.erase index))
  | setRangeValue (v : Values) (dst : Nat) (range : Range) (value : Bool) :
      Serves v (.setRangeValue dst range value) .done (Function.update v dst
        ((v dst).1, if value then (v dst).2 ∪ Finset.Ico range.start range.stop
          else (v dst).2 \ Finset.Ico range.start range.stop))
  | setAll (v : Values) (dst : Nat) (value : Bool) :
      Serves v (.setAll dst value) .done (Function.update v dst
        ((v dst).1, if value then Finset.range (v dst).1 else ∅))
  | toggleAll (v : Values) (dst : Nat) :
      Serves v (.toggleAll dst) .done (Function.update v dst ((v dst).1, Finset.range (v dst).1 \ (v dst).2))
  | setUnion (v : Values) (dst src : Nat) :
      Serves v (.setUnion dst src) .done (Function.update v dst ((v dst).1, (v dst).2 ∪ (v src).2))
  | setIntersection (v : Values) (dst src : Nat) :
      Serves v (.setIntersection dst src) .done (Function.update v dst ((v dst).1, (v dst).2 ∩ (v src).2))
  | setExclude (v : Values) (dst src : Nat) :
      Serves v (.setExclude dst src) .done (Function.update v dst ((v dst).1, (v dst).2 \ (v src).2))
  | clone (v : Values) (dst src : Nat) (heap : Heap) :
      Serves v (.clone dst src heap) .done (Function.update v dst (v src))
  | fromBytes (v : Values) (dst n : Nat) {bytes : List (BitVec 8)} (heap : Heap)
      (hlen : bytes.length = numMasks n * 8) :
      Serves v (.fromBytes dst n bytes heap) .done (Function.update v dst
        (n, (Finset.range n).filter fun i => bitAt bytes i = true))
  | refused (v : Values) (dst n : Nat) {bytes : List (BitVec 8)} (heap : Heap)
      (hlen : bytes.length ≠ numMasks n * 8) : Serves v (.fromBytes dst n bytes heap) .refused v
  | error (v : Values) {op : Op} {heap : Heap} (hheap : op.heap = some heap) (hgrants : heap.grants = false) :
      Serves v op (.error .allocError) v

/-- What the callers promise: an index or a range is within the length, and two sets have the same. -/
def Allowed (sets : Sets) : Op → Prop
  | .set dst index | .unset dst index => index < (sets dst).bitLength
  | .setRangeValue dst range _ => range.start ≤ range.stop ∧ range.stop ≤ (sets dst).bitLength
  | .setUnion dst src | .setIntersection dst src | .setExclude dst src =>
    (sets src).bitLength = (sets dst).bitLength
  | _ => True

instance (sets : Sets) : (op : Op) → Decidable (Allowed sets op)
  | .set _ _ | .unset _ _ => Nat.decLt _ _
  | .setRangeValue _ _ _ => inferInstanceAs (Decidable (_ ∧ _))
  | .setUnion _ _ | .setIntersection _ _ | .setExclude _ _ => inferInstanceAs (Decidable (_ = _))
  | .initEmpty _ _ _ | .resize _ _ _ _ | .setAll _ _ | .toggleAll _ | .clone _ _ _ | .fromBytes _ _ _ _ =>
    .isTrue trivial

/-- Every variable stands for its value. -/
def AllShow (sets : Sets) (v : Values) : Prop := ∀ i, (sets i).Shows (v i).1 (v i).2

variable {sets : Sets} {v : Values}

variable {n dst : Nat} {S : Finset Nat} {op : Op}

theorem AllShow.update (h : AllShow sets v) (dst : Nat) {s : DynamicBitSetUnmanaged} (hs : s.Shows n S) :
    AllShow (Function.update sets dst s) (Function.update v dst (n, S)) := by
  intro i
  by_cases hi : i = dst
  · subst hi
    rw [Function.update_self, Function.update_self]
    exact hs
  · rw [Function.update_of_ne hi, Function.update_of_ne hi]
    exact h i

/-- A call that succeeds assigns its result. -/
theorem map_put_serves (h : AllShow sets v) {r : Option DynamicBitSetUnmanaged}
    (hserves : Serves v op .done (Function.update v dst (n, S))) (hr : ∃ s, r = some s ∧ s.Shows n S) :
    ∃ sets' reply v', r.map (put sets dst) = some (sets', reply) ∧ Serves v op reply v' ∧
      AllShow sets' v' := by
  obtain ⟨s, rfl, hs⟩ := hr
  exact ⟨_, .done, _, rfl, hserves, h.update dst hs⟩

/-- A call that may be refused memory assigns its result, or nothing. -/
theorem tryPut_serves (h : AllShow sets v) {heap : Heap} {r : Except AllocError DynamicBitSetUnmanaged}
    (hserves : Serves v op .done (Function.update v dst (n, S))) (hheap : op.heap = some heap)
    (hr : (r = .error .allocError ∧ heap.grants = false) ∨ ∃ s, r = .ok s ∧ s.Shows n S) :
    ∃ sets' reply v', some (tryPut sets dst r) = some (sets', reply) ∧ Serves v op reply v' ∧
      AllShow sets' v' := by
  rcases hr with ⟨rfl, hgrants⟩ | ⟨s, rfl, hs⟩
  · exact ⟨sets, .error .allocError, v, rfl, .error v hheap hgrants, h⟩
  · exact ⟨_, .done, _, rfl, hserves, h.update dst hs⟩

theorem step_serves (h : AllShow sets v) (hallowed : Allowed sets op) :
    ∃ sets' reply v', step sets op = some (sets', reply) ∧ Serves v op reply v' ∧ AllShow sets' v' := by
  cases op with
  | initEmpty dst n heap => exact tryPut_serves h (.initEmpty v dst n heap) rfl (Shows.initEmpty heap n)
  | resize dst n fill heap => exact tryPut_serves h (.resize v dst n fill heap) rfl ((h dst).resize heap n fill)
  | set dst index =>
    exact map_put_serves h (.set v dst index) ((h dst).set ((h dst).length ▸ hallowed))
  | unset dst index =>
    exact map_put_serves h (.unset v dst index) ((h dst).unset ((h dst).length ▸ hallowed))
  | setRangeValue dst range value =>
    exact map_put_serves h (.setRangeValue v dst range value)
      ((h dst).setRangeValue value hallowed.1 ((h dst).length ▸ hallowed.2))
  | setAll dst value => exact ⟨_, .done, _, rfl, .setAll v dst value, h.update dst ((h dst).setAll value)⟩
  | toggleAll dst => exact ⟨_, .done, _, rfl, .toggleAll v dst, h.update dst (h dst).toggleAll⟩
  | setUnion dst src =>
    have hlen : (v src).1 = (v dst).1 := by rw [← (h src).length, ← (h dst).length, hallowed]
    exact map_put_serves h (.setUnion v dst src) ((h dst).setUnion (hlen ▸ h src))
  | setIntersection dst src =>
    have hlen : (v src).1 = (v dst).1 := by rw [← (h src).length, ← (h dst).length, hallowed]
    exact map_put_serves h (.setIntersection v dst src) ((h dst).setIntersection (hlen ▸ h src))
  | setExclude dst src =>
    have hlen : (v src).1 = (v dst).1 := by rw [← (h src).length, ← (h dst).length, hallowed]
    exact map_put_serves h (.setExclude v dst src) ((h dst).setExclude (hlen ▸ h src))
  | clone dst src heap => exact tryPut_serves h (.clone v dst src heap) rfl ((h src).clone heap)
  | fromBytes dst n bytes heap =>
    rw [step]
    rcases fromBytes_shows heap n bytes with ⟨herror, hgrants⟩ | ⟨hnone, hlen⟩ | ⟨hlen, s, hok, hs⟩
    · rw [herror]
      exact ⟨sets, .error .allocError, v, rfl, .error v rfl hgrants, h⟩
    · rw [hnone]
      exact ⟨sets, .refused, v, rfl, .refused v dst n heap hlen, h⟩
    · rw [hok]
      exact ⟨_, .done, _, rfl, .fromBytes v dst n heap hlen, h.update dst hs⟩

/-- After every run, the sets show what their values are. -/
theorem run_observes (ops : List Op) (hallowed : Guarded step Allowed (fun _ => empty) ops) :
    ∃ sets replies v, run step (fun _ => empty) ops = some (sets, replies) ∧
      Follows Serves (fun _ => (0, ∅)) ops replies v ∧ (∀ i, (sets i).Observes (v i).1 (v i).2) ∧
      ∀ i j, (sets i).eql (sets j) = decide ((v i).1 = (v j).1 ∧ (v i).2 = (v j).2) ∧
        (sets i).subsetOf (sets j) = decide ((v i).1 = (v j).1 ∧ (v i).2 ⊆ (v j).2) := by
  have hstep : ∀ (sets : Sets) (v : Values) (op : Op), AllShow sets v → Allowed sets op →
      ∃ sets' reply v', step sets op = some (sets', reply) ∧ Serves v op reply v' ∧ AllShow sets' v' :=
    fun _ _ _ h hop => step_serves h hop
  obtain ⟨sets, replies, v, hrun, hfollows, h⟩ :=
    exists_run (R := AllShow) hstep ops (s := fun _ => empty) (a := fun _ => (0, ∅)) (fun _ => empty_shows)
      hallowed
  exact ⟨sets, replies, v, hrun, hfollows, fun i => (h i).observes,
    fun i j => ⟨eql_eq (h i) (h j), subsetOf_eq (h i) (h j)⟩⟩

/-- A range across two words, in a set that was filled as it grew. -/
theorem run_observes_words :
    ∃ sets replies v, run step (fun _ => empty)
        [.resize 0 70 true ⟨true, 0⟩, .setRangeValue 0 ⟨60, 68⟩ false, .clone 1 0 ⟨true, 0⟩, .toggleAll 1,
          .set 1 3, .setUnion 0 1] = some (sets, replies) ∧
      Follows Serves (fun _ => (0, ∅))
        [.resize 0 70 true ⟨true, 0⟩, .setRangeValue 0 ⟨60, 68⟩ false, .clone 1 0 ⟨true, 0⟩, .toggleAll 1,
          .set 1 3, .setUnion 0 1] replies v ∧ (∀ i, (sets i).Observes (v i).1 (v i).2) ∧
      ∀ i j, (sets i).eql (sets j) = decide ((v i).1 = (v j).1 ∧ (v i).2 = (v j).2) ∧
        (sets i).subsetOf (sets j) = decide ((v i).1 = (v j).1 ∧ (v i).2 ⊆ (v j).2) :=
  run_observes _ (by decide)

/-- Two sets with the one member, of which neither is said to be equal to the other or in it. -/
theorem run_lengths :
    Guarded step Allowed (fun _ => empty)
      [.initEmpty 0 1 ⟨true, 0⟩, .initEmpty 1 2 ⟨true, 0⟩, .set 0 0, .set 1 0] ∧
    (run step (fun _ => empty)
      [.initEmpty 0 1 ⟨true, 0⟩, .initEmpty 1 2 ⟨true, 0⟩, .set 0 0, .set 1 0]).map
        (fun r => (r.1 0, r.1 1)) = some (⟨1, [1]⟩, ⟨2, [1]⟩) ∧
    (⟨1, [1]⟩ : DynamicBitSetUnmanaged).Shows 1 {0} ∧ (⟨2, [1]⟩ : DynamicBitSetUnmanaged).Shows 2 {0} ∧
    eql ⟨1, [1]⟩ ⟨2, [1]⟩ = false ∧ subsetOf ⟨1, [1]⟩ ⟨2, [1]⟩ = false := by
  refine ⟨by decide, by decide, ⟨rfl, by decide, by decide, by decide⟩, ⟨rfl, by decide, by decide, by decide⟩,
    by decide, by decide⟩

end Runs

end OhosBun.Collections.DynamicBitSetUnmanaged
