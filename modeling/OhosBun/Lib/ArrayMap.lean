/-
# `OhosBun.Lib.ArrayMap` — a map in the order of its insertions

The entries of the map are an array, and each key is in it once.  A new key goes to the end; the
last entry takes the place of one that is removed.  Apart from the order, a map is what it has for
each key (`get?_eq_some`), and each operation is known by that (`get?_modify`, `get?_push`,
`get?_swapRemove`).
-/
import Mathlib.Data.List.Nodup
import Mathlib.Data.List.Perm.Basic

namespace OhosBun.Lib

/-- The last of some, and then the others. -/
def lastFirst {α : Type*} (l : List α) : List α := l.getLast?.toList ++ l.dropLast

theorem lastFirst_perm {α : Type*} (l : List α) : (lastFirst l).Perm l := by
  rcases List.eq_nil_or_concat' l with rfl | ⟨front, last, rfl⟩
  · exact .refl _
  · rw [lastFirst, List.getLast?_append, List.dropLast_concat]
    exact List.perm_append_comm

section Entries
variable {K V : Type*} [DecidableEq K]

/-- The last entry takes the place of the one of a key. -/
def swapErase (k : K) : List (K × V) → List (K × V)
  | [] => []
  | e :: entries => if e.1 = k then lastFirst entries else e :: swapErase k entries

theorem swapErase_perm (k : K) (entries : List (K × V)) :
    (swapErase k entries).Perm (entries.eraseP fun e => e.1 = k) := by
  induction entries with
  | nil => exact .refl _
  | cons e entries ih =>
    rw [swapErase, List.eraseP_cons]
    by_cases h : e.1 = k
    · simpa only [h, if_true, decide_true, cond_true] using lastFirst_perm entries
    · simpa only [h, if_false, decide_false, cond_false] using ih.cons e

theorem nodup_swapErase {k : K} {entries : List (K × V)} (h : (entries.map Prod.fst).Nodup) :
    ((swapErase k entries).map Prod.fst).Nodup :=
  (((swapErase_perm k entries).map Prod.fst).nodup_iff).mpr
    (h.sublist (List.eraseP_sublist.map Prod.fst))

theorem mem_swapErase {k : K} {entries : List (K × V)} (h : (entries.map Prod.fst).Nodup)
    {e : K × V} : e ∈ swapErase k entries ↔ e ∈ entries ∧ e.1 ≠ k := by
  induction entries with
  | nil => exact ⟨by intros; contradiction, by simp⟩
  | cons e' entries ih =>
    obtain ⟨hnotin, hnodup⟩ := List.nodup_cons.mp h
    rw [swapErase, List.mem_cons]
    split_ifs with heq
    · rw [(lastFirst_perm entries).mem_iff]
      constructor
      · intro hmem
        refine ⟨.inr hmem, fun hk => hnotin ?_⟩
        rw [heq, ← hk]
        exact List.mem_map_of_mem hmem
      · rintro ⟨rfl | hmem, hne⟩
        · exact absurd heq hne
        · exact hmem
    · rw [List.mem_cons, ih hnodup]
      constructor
      · rintro (rfl | ⟨hmem, hne⟩)
        · exact ⟨.inl rfl, heq⟩
        · exact ⟨.inr hmem, hne⟩
      · rintro ⟨rfl | hmem, hne⟩
        · exact .inl rfl
        · exact .inr ⟨hmem, hne⟩

end Entries

@[ext] structure ArrayMap (K V : Type*) where
  entries : List (K × V) := []
  nodup : (entries.map Prod.fst).Nodup := by exact List.nodup_nil

namespace ArrayMap
variable {K V : Type*}

section Operations
variable (m : ArrayMap K V)

def count : Nat := m.entries.length

def keys : List K := m.entries.map Prod.fst

def values : List V := m.entries.map Prod.snd

/-- Each value is replaced by one that may depend on its key. -/
def mapValues (f : K → V → V) : ArrayMap K V where
  entries := m.entries.map fun e => (e.1, f e.1 e.2)
  nodup := by
    rw [List.map_map]
    exact m.nodup

variable [DecidableEq K]

def get? (k : K) : Option V := (m.entries.find? fun e => e.1 = k).map Prod.snd

def modify (k : K) (f : V → V) : ArrayMap K V := m.mapValues fun k' v => if k' = k then f v else v

/-- A key that is not in the map, with its value. -/
def push (k : K) (v : V) (h : k ∉ m.keys) : ArrayMap K V where
  entries := m.entries ++ [(k, v)]
  nodup := by
    rw [List.map_append, List.nodup_append]
    refine ⟨m.nodup, List.nodup_singleton k, ?_⟩
    rintro a ha b hb rfl
    obtain rfl : a = k := List.mem_singleton.mp hb
    exact h ha

def put (k : K) (v : V) : ArrayMap K V :=
  if h : k ∈ m.keys then m.modify k fun _ => v else m.push k v h

/-- The entries in another order. -/
def sort (le : K × V → K × V → Bool) : ArrayMap K V where
  entries := m.entries.mergeSort le
  nodup := (((m.entries.mergeSort_perm le).map Prod.fst).nodup_iff).mpr m.nodup

def swapRemove (k : K) : ArrayMap K V where
  entries := swapErase k m.entries
  nodup := nodup_swapErase m.nodup

end Operations

section Modify
variable {m : ArrayMap K V}

theorem mapValues_mapValues (f g : K → V → V) :
    (m.mapValues f).mapValues g = m.mapValues fun k v => g k (f k v) := by
  refine ArrayMap.ext ?_
  simp only [mapValues, List.map_map]
  rfl

theorem modify_modify [DecidableEq K] (k : K) (f g : V → V) :
    (m.modify k f).modify k g = m.modify k fun v => g (f v) := by
  rw [modify, modify, mapValues_mapValues, modify]
  congr 1
  funext k' v
  split_ifs <;> rfl

theorem modify_eq_self [DecidableEq K] {k : K} {f : V → V} (h : ∀ v, f v = v) :
    m.modify k f = m := by
  refine ArrayMap.ext ?_
  simp only [modify, mapValues, h, ite_self]
  exact List.map_id' m.entries

@[simp] theorem keys_mapValues (f : K → V → V) : (m.mapValues f).keys = m.keys := by
  simp only [keys, mapValues, List.map_map]
  rfl

@[simp] theorem keys_modify [DecidableEq K] (k : K) (f : V → V) : (m.modify k f).keys = m.keys :=
  keys_mapValues _

end Modify

/-! ## What a map has for a key -/

section Lookup
variable [DecidableEq K] {m : ArrayMap K V} {k k' : K} {v : V}

theorem get?_eq_some : m.get? k = some v ↔ (k, v) ∈ m.entries := by
  obtain ⟨entries, nodup⟩ := m
  simp only [get?]
  induction entries with
  | nil => exact ⟨by simp, by simp⟩
  | cons e entries ih =>
    obtain ⟨hnotin, hnodup⟩ := List.nodup_cons.mp nodup
    obtain ⟨k', v'⟩ := e
    rw [List.mem_cons]
    by_cases heq : k' = k
    · subst heq
      rw [List.find?_cons_of_pos (by simp), Option.map_some]
      constructor
      · intro h
        obtain rfl := Option.some.inj h
        exact .inl rfl
      · rintro (h | h)
        · exact congrArg some (Prod.mk.inj h).2.symm
        · exact absurd (List.mem_map_of_mem h) hnotin
    · rw [List.find?_cons_of_neg (by simpa using heq), ih hnodup]
      refine ⟨.inr, fun h => h.resolve_left fun h => heq (Prod.mk.inj h).1.symm⟩

theorem get?_sort (le : K × V → K × V → Bool) : (m.sort le).get? k = m.get? k := by
  refine Option.ext fun v => ?_
  rw [get?_eq_some, get?_eq_some, sort, (m.entries.mergeSort_perm le).mem_iff]

theorem mem_keys : k ∈ m.keys ↔ ∃ v, m.get? k = some v := by
  simp only [get?_eq_some, keys, List.mem_map, Prod.exists, exists_and_right, exists_eq_right]

theorem get?_mapValues (f : K → V → V) : (m.mapValues f).get? k = (m.get? k).map (f k) := by
  refine Option.ext fun v => ?_
  rw [get?_eq_some, mapValues, List.mem_map, Option.map_eq_some_iff]
  constructor
  · rintro ⟨⟨k', v'⟩, hmem, heq⟩
    obtain ⟨rfl, rfl⟩ := Prod.mk.inj heq
    exact ⟨v', get?_eq_some.mpr hmem, rfl⟩
  · rintro ⟨v', hget, rfl⟩
    exact ⟨(k, v'), get?_eq_some.mp hget, rfl⟩

theorem get?_modify (f : V → V) :
    (m.modify k f).get? k' = if k' = k then (m.get? k').map f else m.get? k' := by
  rw [modify, get?_mapValues]
  split_ifs
  · rfl
  · exact Option.map_id'

theorem get?_push (h : k ∉ m.keys) :
    (m.push k v h).get? k' = if k' = k then some v else m.get? k' := by
  refine Option.ext fun v' => ?_
  rw [get?_eq_some, push, List.mem_append, List.mem_singleton]
  split_ifs with heq
  · subst heq
    constructor
    · rintro (hmem | heq)
      · exact absurd (List.mem_map_of_mem (f := Prod.fst) hmem) h
      · exact congrArg some (Prod.mk.inj heq).2.symm
    · intro heq
      obtain rfl := Option.some.inj heq
      exact .inr rfl
  · rw [get?_eq_some]
    exact ⟨fun hmem => hmem.resolve_right fun h => heq (Prod.mk.inj h).1, .inl⟩

theorem get?_put : (m.put k v).get? k' = if k' = k then some v else m.get? k' := by
  rw [put]
  split_ifs with hmem heq heq
  · subst heq
    obtain ⟨v', hv'⟩ := mem_keys.1 hmem
    rw [get?_modify, if_pos rfl, hv', Option.map_some]
  · rw [get?_modify, if_neg heq]
  · rw [get?_push, if_pos heq]
  · rw [get?_push, if_neg heq]

theorem get?_swapRemove : (m.swapRemove k).get? k' = if k' = k then none else m.get? k' := by
  refine Option.ext fun v' => ?_
  rw [get?_eq_some, swapRemove, mem_swapErase m.nodup]
  split_ifs with heq
  · exact ⟨fun h => absurd heq h.2, by simp⟩
  · rw [get?_eq_some]
    exact ⟨And.left, fun hmem => ⟨hmem, heq⟩⟩

end Lookup

end ArrayMap

end OhosBun.Lib
