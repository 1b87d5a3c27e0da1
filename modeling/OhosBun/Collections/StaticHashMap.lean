/-
# `OhosBun.Collections.StaticHashMap` — the hash map in a fixed array

The map keeps its entries in an array, sorted by hash, with linear probing: an
insertion moves the entries from its slot to the next empty one up, a deletion moves
those behind it down again.  A slot that is empty is an entry as well, with the
largest hash and the default key.

`Panic` tells the ways in which a call does not return apart; the one that a caller
has to expect is a probe that runs off the end of the array.
-/
import Mathlib.Data.Finmap
import OhosBun.Lib.Probing
import OhosBun.Lib.Refinement

namespace OhosBun.Collections

open OhosBun.Lib

/-! ## The table -/

/-- `HashContext`: equal keys have equal hashes. -/
structure HashContext (K : Type) where
  hash : K → UInt64
  eql : K → K → Bool
  eql_self : ∀ key, eql key key = true
  hash_eq_of_eql : ∀ {a b}, eql a b = true → hash a = hash b

def emptyHash : UInt64 := 0xFFFFFFFFFFFFFFFF

structure Entry (K V : Type) where
  hash : UInt64
  key : K
  value : V
  deriving DecidableEq

namespace Entry
variable {K V : Type}

def isEmpty (e : Entry K V) : Bool := e.hash == emptyHash

def empty [Inhabited K] [Inhabited V] : Entry K V := ⟨emptyHash, default, default⟩

end Entry

/-- How a call may fail to return. -/
inductive Panic
  /-- an index past the end of the array -/
  | offEnd
  /-- `debug_assert!(hash != EMPTY_HASH)` -/
  | assertion
  /-- `len` counted below zero -/
  | underflow
  deriving DecidableEq

def computeShift (capacity : Nat) : Nat := 63 - capacity.log2 + 1

def computeOverflow (capacity shift : Nat) : Nat := (capacity / 10 + (63 - shift + 1)) <<< 1

/-- Total backing-array length for a `StaticHashMap` of the given capacity. -/
def staticSlots (capacity : Nat) : Nat := capacity + computeOverflow capacity (computeShift capacity)

structure StaticHashMap (K V : Type) where
  entries : List (Entry K V)
  len : Nat
  shift : Nat
  deriving DecidableEq

namespace StaticHashMap

section Operations
variable {K V : Type} [Inhabited K] [Inhabited V] (ctx : HashContext K)

/-- `Default::default`. -/
def new (K V : Type) [Inhabited K] [Inhabited V] (capacity : Nat) : StaticHashMap K V :=
  ⟨List.replicate (staticSlots capacity) Entry.empty, 0, computeShift capacity⟩

/-- Where the probe for a hash starts. -/
def home (t : StaticHashMap K V) (hash : UInt64) : Nat := hash.toNat >>> t.shift

/-- The loop of `get_or_put_assume_capacity`: whether the key was found, and the slot whose value is
pointed to. -/
def getOrPutLoop (key : K) : (fuel : Nat) → StaticHashMap K V → (it : Entry K V) → (i : Nat) →
    (insertedAt : Option Nat) → Except Panic (StaticHashMap K V × Bool × Nat)
  -- as many turns as there are slots take the index past them
  | 0, _, _, _, _ => .error .offEnd
  | fuel + 1, t, it, i, insertedAt =>
    match t.entries[i]? with
    | none => .error .offEnd
    | some entry =>
      if entry.hash ≥ it.hash then
        if ctx.eql entry.key key then .ok (t, true, i)
        else if entry.isEmpty then
          .ok ({ t with entries := t.entries.set i it, len := t.len + 1 }, false, insertedAt.getD i)
        else
          getOrPutLoop key fuel { t with entries := t.entries.set i it } entry (i + 1)
            (some (insertedAt.getD i))
      else getOrPutLoop key fuel t it (i + 1) insertedAt

def getOrPutAssumeCapacity (t : StaticHashMap K V) (key : K) :
    Except Panic (StaticHashMap K V × Bool × Nat) :=
  let it : Entry K V := ⟨ctx.hash key, key, default⟩
  if it.hash = emptyHash then .error .assertion
  else t.getOrPutLoop ctx key t.entries.length it (t.home it.hash) none

/-- A write through `value_ptr`. -/
def setValue (t : StaticHashMap K V) (i : Nat) (value : V) : StaticHashMap K V :=
  { t with entries := t.entries.modify i fun e => { e with value := value } }

def putAssumeCapacity (t : StaticHashMap K V) (key : K) (value : V) :
    Except Panic (StaticHashMap K V) := do
  let (t, foundExisting, i) ← t.getOrPutAssumeCapacity ctx key
  if !foundExisting then .ok (t.setValue i value) else .ok t

/-- The entry where a probe for a hash stops. -/
def probe (t : StaticHashMap K V) (hash : UInt64) : Option (Entry K V) :=
  (t.entries.drop (t.home hash)).find? fun entry => entry.hash ≥ hash

def get (t : StaticHashMap K V) (key : K) : Except Panic (Option V) :=
  let hash := ctx.hash key
  if hash = emptyHash then .error .assertion
  else
    match t.probe hash with
    | none => .error .offEnd
    | some entry => if !ctx.eql entry.key key then .ok none else .ok (some entry.value)

def hasWithHash (t : StaticHashMap K V) (keyHash : UInt64) : Except Panic Bool :=
  if keyHash = emptyHash then .error .assertion
  else if t.entries.length < t.home keyHash then .error .offEnd
  else
    match t.probe keyHash with
    | none => .ok false
    | some entry => .ok (entry.hash == keyHash)

/-- The first loop of `delete`: the slot of the key. -/
def deleteProbe (key : K) : (fuel : Nat) → StaticHashMap K V → (hash : UInt64) → (i : Nat) →
    Except Panic (Option Nat)
  | 0, _, _, _ => .error .offEnd
  | fuel + 1, t, hash, i =>
    match t.entries[i]? with
    | none => .error .offEnd
    | some entry =>
      if entry.hash ≥ hash then
        if !ctx.eql entry.key key then .ok none else .ok (some i)
      else deleteProbe key fuel t hash (i + 1)

/-- The second loop of `delete`: the slot that becomes empty. -/
def deleteShift : (fuel : Nat) → StaticHashMap K V → (i : Nat) →
    Except Panic (StaticHashMap K V × Nat)
  | 0, _, _ => .error .offEnd
  | fuel + 1, t, i =>
    match t.entries[i + 1]? with
    | none => .error .offEnd
    | some next =>
      let j := t.home next.hash
      if i < j || next.isEmpty then .ok (t, i)
      else deleteShift fuel { t with entries := t.entries.set i next } (i + 1)

def delete (t : StaticHashMap K V) (key : K) : Except Panic (StaticHashMap K V × Option V) :=
  let hash := ctx.hash key
  if hash = emptyHash then .error .assertion
  else do
    match ← t.deleteProbe ctx key t.entries.length hash (t.home hash) with
    | none => .ok (t, none)
    | some i =>
      let value := (t.entries[i]?).map (·.value)
      let (t, i) ← t.deleteShift t.entries.length i
      let entries := t.entries.set i Entry.empty
      if t.len = 0 then .error .underflow
      else .ok ({ t with entries := entries, len := t.len - 1 }, value)

end Operations

/-! ## The finite map of a table -/

section Refinement
variable {K V : Type} {ctx : HashContext K} {S : Set K} {t t' : StaticHashMap K V}

/-- The keys of a set are told apart by their hashes, which no empty slot has. -/
structure Keys (ctx : HashContext K) (S : Set K) : Prop where
  inj : ∀ a ∈ S, ∀ b ∈ S, ctx.hash a = ctx.hash b → a = b
  ne_empty : ∀ a ∈ S, ctx.hash a ≠ emptyHash

/-- An entry that is stored. -/
def Held (e : Entry K V) : Prop := e.isEmpty = false

instance (e : Entry K V) : Decidable (Held e) := inferInstanceAs (Decidable (_ = _))

theorem held_iff (e : Entry K V) : Held e ↔ e.hash ≠ emptyHash := by
  rw [Held, Entry.isEmpty, beq_eq_false_iff_ne]

variable {hash : UInt64} {i : Nat} {entry : Entry K V}

theorem held_of_lt {e : Entry K V} (h : e.hash < hash) : Held e := by
  rw [held_iff]
  intro hempty
  rw [hempty, UInt64.lt_iff_toNat_lt] at h
  exact absurd hash.toNat_lt (Nat.not_lt.mpr h)

/-- The stored entries are in order. -/
def Sorted (t : StaticHashMap K V) : Prop :=
  Placed Held (fun e => e.hash.toNat) (fun hash => hash >>> t.shift) t.entries

theorem monotone_shiftRight (shift : Nat) : Monotone fun hash : Nat => hash >>> shift := by
  intro a b hab
  simp only [Nat.shiftRight_eq_div_pow]
  exact Nat.div_le_div_right hab

/-- The table stands for the map. -/
structure Refines [Inhabited K] [DecidableEq K] (ctx : HashContext K) (S : Set K) (t : StaticHashMap K V)
    (m : Finmap fun _ : K => V) : Prop where
  sorted : t.Sorted
  keys : ∀ e ∈ t.entries, Held e → e.key ∈ S ∧ e.hash = ctx.hash e.key
  free : ∀ e ∈ t.entries, ¬ Held e → e.key = default
  lookup : ∀ key value, m.lookup key = some value ↔
    ∃ e ∈ t.entries, Held e ∧ e.key = key ∧ e.value = value
  len : t.len = m.keys.card

theorem new_refines [Inhabited K] [Inhabited V] [DecidableEq K] (ctx : HashContext K) (S : Set K) (capacity : Nat) :
    (new K V capacity).Refines ctx S ∅ := by
  have hempty : ∀ e ∈ (new K V capacity).entries, e = Entry.empty := fun e he => List.eq_of_mem_replicate he
  have hfree : ∀ e ∈ (new K V capacity).entries, ¬ Held e := by
    intro e he
    rw [hempty e he, held_iff]
    exact not_not_intro rfl
  refine ⟨Placed.of_free hfree, fun e he hheld => absurd hheld (hfree e he), fun e he _ => ?_, ?_, rfl⟩
  · rw [hempty e he]
    rfl
  · intro key value
    rw [Finmap.lookup_empty]
    constructor
    · exact fun h => absurd h (by simp)
    · rintro ⟨e, he, hheld, -⟩
      exact absurd hheld (hfree e he)

/-! ### Probing -/

/-- A probe passes smaller hashes and stops at this slot. -/
structure StopsAt (t : StaticHashMap K V) (hash : UInt64) (i : Nat) (entry : Entry K V) : Prop where
  here : t.entries[i]? = some entry
  home_le : t.home hash ≤ i
  passes : ∀ q, t.home hash ≤ q → q < i → ∃ e, t.entries[q]? = some e ∧ e.hash < hash
  le : hash ≤ entry.hash

theorem StopsAt.unique {j : Nat} {entry' : Entry K V} (s : t.StopsAt hash i entry)
    (s' : t.StopsAt hash j entry') : i = j ∧ entry = entry' := by
  have hle {i j : Nat} {entry entry' : Entry K V} (s : t.StopsAt hash i entry)
      (s' : t.StopsAt hash j entry') : i ≤ j := by
    refine Nat.not_lt.mp fun hlt => ?_
    obtain ⟨e, he, hless⟩ := s.passes j s'.home_le hlt
    obtain rfl := Option.some.inj (he.symm.trans s'.here)
    exact absurd s'.le (UInt64.not_le.mpr hless)
  obtain rfl := Nat.le_antisymm (hle s s') (hle s' s)
  exact ⟨rfl, Option.some.inj (s.here.symm.trans s'.here)⟩

theorem StopsAt.passes_lt (s : t.StopsAt hash i entry) :
    ∀ q, t.home hash ≤ q → q < i → HoldsLess Held (fun e => e.hash.toNat) t.entries hash.toNat q := by
  intro q hq hqi
  obtain ⟨e, he, hlt⟩ := s.passes q hq hqi
  exact ⟨e, he, held_of_lt hlt, UInt64.lt_iff_toNat_lt.mp hlt⟩

theorem StopsAt.not_passes (s : t.StopsAt hash i entry) :
    ¬ HoldsLess Held (fun e => e.hash.toNat) t.entries hash.toNat i := by
  rintro ⟨e, he, -, hlt⟩
  obtain rfl := Option.some.inj (he.symm.trans s.here)
  exact absurd (UInt64.le_iff_toNat_le.mp s.le) (Nat.not_le.mpr hlt)

theorem probe_stops (h : t.probe hash = some entry) :
    ∃ i, t.StopsAt hash i entry := by
  rw [probe, List.find?_eq_some_iff_getElem] at h
  obtain ⟨hle, i, hi, hentry, hbefore⟩ := h
  refine ⟨t.home hash + i, ?_, Nat.le_add_right _ _, fun q hq hqi => ?_, of_decide_eq_true hle⟩
  · rw [← List.getElem?_drop, List.getElem?_eq_getElem hi, hentry]
  · obtain ⟨j, rfl⟩ := Nat.exists_eq_add_of_le hq
    have hj : j < (t.entries.drop (t.home hash)).length := by omega
    refine ⟨(t.entries.drop (t.home hash))[j], ?_, ?_⟩
    · rw [← List.getElem?_drop, List.getElem?_eq_getElem hj]
    · have hnot := hbefore j (by omega)
      rw [Bool.not_eq_true', decide_eq_false_iff_not] at hnot
      exact UInt64.not_le.mp hnot

section Map
variable [Inhabited K] [DecidableEq K] {m : Finmap fun _ : K => V}

namespace Refines

variable {key : K} {i : Nat} {entry : Entry K V}

/-- The entry where the probe stops is the key's. -/
theorem lookup_of_eql (h : t.Refines ctx S m) (hS : Keys ctx S) (hkey : key ∈ S)
    (s : t.StopsAt (ctx.hash key) i entry) (heql : ctx.eql entry.key key = true) (hheld : Held entry) :
    entry.key = key ∧ m.lookup key = some entry.value := by
  have hmem := List.mem_of_getElem? s.here
  have hkey' := hS.inj _ (h.keys entry hmem hheld).1 key hkey (ctx.hash_eq_of_eql heql)
  exact ⟨hkey', (h.lookup key entry.value).mpr ⟨entry, hmem, hheld, hkey', rfl⟩⟩

/-- It is not, and then no entry is. -/
theorem lookup_of_not_eql (h : t.Refines ctx S m) (s : t.StopsAt (ctx.hash key) i entry)
    (heql : ctx.eql entry.key key = false) :
    m.lookup key = none := by
  cases hlookup : m.lookup key with
  | none => rfl
  | some value =>
    exfalso
    obtain ⟨e, he, hheld, rfl, -⟩ := (h.lookup key value).mp hlookup
    obtain ⟨p, hp⟩ := List.mem_iff_getElem?.mp he
    have hhash := (h.keys e he hheld).2
    obtain rfl := h.sorted.at_stop (k := (ctx.hash e.key).toNat) s.home_le s.passes_lt s.not_passes hp
      hheld (congrArg UInt64.toNat hhash)
    obtain rfl := Option.some.inj (hp.symm.trans s.here)
    exact absurd (ctx.eql_self e.key) (by rw [heql]; exact Bool.false_ne_true)

theorem get (h : t.Refines ctx S m) (hS : Keys ctx S) (hkey : key ∈ S)
    (hclear : ctx.eql default key = false ∨ ∀ e, t.probe (ctx.hash key) = some e → Held e) :
    t.get ctx key = .error .offEnd ∨ t.get ctx key = .ok (m.lookup key) := by
  rw [StaticHashMap.get]
  simp only [if_neg (hS.ne_empty key hkey)]
  cases hprobe : t.probe (ctx.hash key) with
  | none => exact Or.inl rfl
  | some entry =>
    right
    obtain ⟨i, s⟩ := probe_stops hprobe
    cases heql : ctx.eql entry.key key with
    | false =>
      rw [h.lookup_of_not_eql s heql]
      simp only [heql, Bool.not_false, if_true]
    | true =>
      have hheld : Held entry := by
        rcases hclear with hdefault | hheld
        · by_contra hfree
          rw [h.free entry (List.mem_of_getElem? s.here) hfree, hdefault] at heql
          exact Bool.false_ne_true heql
        · exact hheld entry hprobe
      rw [(h.lookup_of_eql hS hkey s heql hheld).2]
      simp only [heql, Bool.not_true, Bool.false_eq_true, if_false]

theorem hasWithHash (h : t.Refines ctx S m) {hash : UInt64} (hne : hash ≠ emptyHash) :
    t.hasWithHash hash = .error .offEnd ∨
      ∃ has, t.hasWithHash hash = .ok has ∧ (has = true ↔ ∃ key ∈ m, ctx.hash key = hash) := by
  rw [StaticHashMap.hasWithHash, if_neg hne]
  by_cases hfar : t.entries.length < t.home hash
  · exact Or.inl (if_pos hfar)
  rw [if_neg hfar]
  right
  -- the keys of the map are those of the entries
  have hiff : (∃ key ∈ m, ctx.hash key = hash) ↔ ∃ e ∈ t.entries, Held e ∧ e.hash = hash := by
    constructor
    · rintro ⟨key, hmem, rfl⟩
      obtain ⟨value, hlookup⟩ := Finmap.mem_iff.1 hmem
      obtain ⟨e, he, hheld, rfl, -⟩ := (h.lookup key value).mp hlookup
      exact ⟨e, he, hheld, (h.keys e he hheld).2⟩
    · rintro ⟨e, he, hheld, rfl⟩
      exact ⟨e.key, Finmap.mem_iff.2 ⟨e.value, (h.lookup _ _).mpr ⟨e, he, hheld, rfl, rfl⟩⟩,
        (h.keys e he hheld).2.symm⟩
  rw [hiff]
  cases hprobe : t.probe hash with
  | none =>
    refine ⟨false, rfl, fun hfalse => absurd hfalse Bool.false_ne_true, ?_⟩
    rintro ⟨e, he, hheld, rfl⟩
    obtain ⟨p, hp⟩ := List.mem_iff_getElem?.mp he
    obtain ⟨j, rfl⟩ := Nat.exists_eq_add_of_le (h.sorted.home_le p e hp hheld)
    rw [← List.getElem?_drop] at hp
    have hnot := List.find?_eq_none.mp hprobe e (List.mem_of_getElem? hp)
    exact absurd (decide_eq_true (UInt64.le_refl e.hash)) hnot
  | some entry =>
    obtain ⟨i, s⟩ := probe_stops hprobe
    refine ⟨entry.hash == hash, rfl, fun heq => ?_, ?_⟩
    · have heq := eq_of_beq heq
      exact ⟨entry, List.mem_of_getElem? s.here, (held_iff entry).mpr (heq ▸ hne), heq⟩
    · rintro ⟨e, he, hheld, rfl⟩
      obtain ⟨p, hp⟩ := List.mem_iff_getElem?.mp he
      obtain rfl := h.sorted.at_stop (k := e.hash.toNat) s.home_le s.passes_lt s.not_passes hp hheld rfl
      obtain rfl := Option.some.inj (hp.symm.trans s.here)
      exact beq_self_eq_true _

end Refines

/-! ### Insertion -/

omit [Inhabited K] [DecidableEq K] in
/-- The entries from a slot to the next empty one move up. -/
theorem getOrPutLoop_shift (key : K) (fuel : Nat) : ∀ (t : StaticHashMap K V) (it : Entry K V) (i : Nat)
    (insertedAt : Option Nat),
    (∀ p e e', i ≤ p → t.entries[p]? = some e → t.entries[p + 1]? = some e' → Held e → e.hash ≤ e'.hash) →
    (∀ e, t.entries[i]? = some e → it.hash ≤ e.hash) →
    (∀ p e, i ≤ p → t.entries[p]? = some e → ctx.eql e.key key = false) →
    t.getOrPutLoop ctx key fuel it i insertedAt = .error .offEnd ∨
      ∃ m t', t.getOrPutLoop ctx key fuel it i insertedAt = .ok (t', false, insertedAt.getD i) ∧
        Placed.ShiftUp Held it i m t.entries t'.entries ∧ t'.len = t.len + 1 ∧ t'.shift = t.shift := by
  induction fuel with
  | zero => exact fun _ _ _ _ _ _ _ => Or.inl rfl
  | succ fuel ih =>
    intro t it i insertedAt hsorted hnext hneq
    rw [getOrPutLoop]
    cases hentry : t.entries[i]? with
    | none => exact Or.inl rfl
    | some entry =>
      have hi : i < t.entries.length := (List.getElem?_eq_some_iff.mp hentry).1
      have hset : ∀ q, q ≠ i → (t.entries.set i it)[q]? = t.entries[q]? :=
        fun q hq => List.getElem?_set_ne hq.symm
      have hself : (t.entries.set i it)[i]? = some it := List.getElem?_set_self hi
      simp only [if_pos (hnext entry hentry), hneq i entry (Nat.le_refl i) hentry, Bool.false_eq_true,
        if_false]
      cases hempty : entry.isEmpty with
      | true =>
        refine Or.inr ⟨i, { t with entries := t.entries.set i it, len := t.len + 1 }, if_pos rfl,
          ⟨Nat.le_refl i, ⟨entry, hentry, ?_⟩, ?_, ?_, hself, ?_, ?_⟩, rfl, rfl⟩
        · rw [Held, hempty]
          exact Bool.true_eq_false_eq_False
        · exact fun q hq hqi => absurd hqi (Nat.not_lt.mpr hq)
        · exact fun q hq => hset q hq.ne
        · exact fun q hq hqi => absurd hqi (Nat.not_le.mpr hq)
        · exact fun q hq => hset q hq.ne'
      | false =>
        simp only [Bool.false_eq_true, if_false]
        have hfar {p : Nat} (hp : i + 1 ≤ p) : p ≠ i := by omega
        rcases ih { t with entries := t.entries.set i it } entry (i + 1)
            (some (insertedAt.getD i))
            (fun p e e' hp he he' => hsorted p e e' (by omega) (hset p (hfar hp) ▸ he)
              (hset (p + 1) (by omega) ▸ he'))
            (fun e he => hsorted i entry e (Nat.le_refl i) hentry (hset (i + 1) (by omega) ▸ he) hempty)
            (fun p e hp he => hneq p e (by omega) (hset p (hfar hp) ▸ he)) with
          hoff | ⟨m, t', hloop, s, hlen, hshift⟩
        · exact Or.inl hoff
        · have hle := s.le
          refine Or.inr ⟨m, t', hloop, ⟨by omega, ?_, ?_, ?_, ?_, ?_, ?_⟩, hlen, hshift⟩
          · obtain ⟨y, hy, hfree⟩ := s.free
            exact ⟨y, hset m (by omega) ▸ hy, hfree⟩
          · intro q hq hqm
            rcases Nat.eq_or_lt_of_le hq with rfl | hlt
            · exact ⟨entry, hentry, hempty⟩
            · obtain ⟨y, hy, hheld⟩ := s.cluster q hlt hqm
              exact ⟨y, hset q hlt.ne' ▸ hy, hheld⟩
          · exact fun q hq => (s.before q (by omega)).trans (hset q hq.ne)
          · exact (s.before i (Nat.lt_succ_self i)).trans hself
          · intro q hq hqm
            rcases Nat.eq_or_lt_of_le hq with rfl | hlt
            · rw [s.new, Nat.succ_eq_add_one, Nat.add_sub_cancel, hentry]
            · exact (s.moved q hlt hqm).trans (hset (q - 1) (by omega))
          · exact fun q hq => (s.behind q hq).trans (hset q (by omega))

omit [Inhabited K] [DecidableEq K] in
/-- Smaller hashes are passed first. -/
theorem getOrPutLoop_probe (ctx : HashContext K) (key : K) (fuel : Nat) : ∀ (t : StaticHashMap K V)
    (it : Entry K V) (i : Nat),
    t.getOrPutLoop ctx key fuel it i none = .error .offEnd ∨
      ∃ j entry fuel', i ≤ j ∧ (∀ q, i ≤ q → q < j → ∃ e, t.entries[q]? = some e ∧ e.hash < it.hash) ∧
        t.entries[j]? = some entry ∧ it.hash ≤ entry.hash ∧
        t.getOrPutLoop ctx key fuel it i none = t.getOrPutLoop ctx key (fuel' + 1) it j none := by
  induction fuel with
  | zero => exact fun _ _ _ => Or.inl rfl
  | succ fuel ih =>
    intro t it i
    cases hentry : t.entries[i]? with
    | none =>
      left
      rw [getOrPutLoop, hentry]
    | some entry =>
      by_cases hle : it.hash ≤ entry.hash
      · exact Or.inr ⟨i, entry, fuel, Nat.le_refl i, fun q hq hqi => absurd hqi (Nat.not_lt.mpr hq),
          hentry, hle, rfl⟩
      · have hstep : t.getOrPutLoop ctx key (fuel + 1) it i none =
            t.getOrPutLoop ctx key fuel it (i + 1) none := by
          conv_lhs => rw [getOrPutLoop, hentry]
          exact if_neg hle
        rw [hstep]
        rcases ih t it (i + 1) with hoff | ⟨j, e, fuel', hij, hpass, he, hle', hloop⟩
        · exact Or.inl hoff
        · refine Or.inr ⟨j, e, fuel', by omega, fun q hq hqj => ?_, he, hle', hloop⟩
          rcases Nat.eq_or_lt_of_le hq with rfl | hlt
          · exact ⟨entry, hentry, UInt64.not_le.mp hle⟩
          · exact hpass q hlt hqj

/-- The slot whose value the caller may write. -/
def Points (t : StaticHashMap K V) (key : K) (i : Nat) : Prop :=
  ∃ e, t.entries[i]? = some e ∧ Held e ∧ e.key = key

omit [Inhabited K] in
theorem keys_insert (m : Finmap fun _ : K => V) (key : K) (value : V) :
    (m.insert key value).keys = insert key m.keys := by
  ext key'
  rw [Finmap.mem_keys, Finmap.mem_insert, Finset.mem_insert, Finmap.mem_keys]

namespace Refines

theorem eql_eq_false (h : t.Refines ctx S m) (hS : Keys ctx S) {key : K} (hkey : key ∈ S)
    (hdefault : ctx.eql default key = false) (habsent : m.lookup key = none) {e : Entry K V}
    (he : e ∈ t.entries) : ctx.eql e.key key = false := by
  refine Bool.eq_false_of_not_eq_true fun heql => ?_
  by_cases hheld : Held e
  · obtain ⟨hmem, -⟩ := h.keys e he hheld
    obtain rfl := hS.inj _ hmem _ hkey (ctx.hash_eq_of_eql heql)
    rw [(h.lookup _ _).mpr ⟨e, he, hheld, rfl, rfl⟩] at habsent
    exact absurd habsent (by simp)
  · rw [h.free e he hheld, hdefault] at heql
    exact Bool.false_ne_true heql

/-- A new key, with its entry put in front of those that are greater. -/
theorem insert (h : t.Refines ctx S m) (hS : Keys ctx S) {it : Entry K V} (hkey : it.key ∈ S)
    (hhash : it.hash = ctx.hash it.key) (habsent : m.lookup it.key = none) {i j : Nat}
    {entry : Entry K V} (s : t.StopsAt (ctx.hash it.key) i entry)
    (hup : Placed.ShiftUp Held it i j t.entries t'.entries) (hlen : t'.len = t.len + 1)
    (hshift : t'.shift = t.shift) : t'.Refines ctx S (m.insert it.key it.value) := by
  have hheld : Held it := by
    rw [held_iff, hhash]
    exact hS.ne_empty _ hkey
  have hother : ∀ e ∈ t.entries, Held e → e.key ≠ it.key := by
    intro e he hheld' heq
    rw [← heq, (h.lookup _ _).mpr ⟨e, he, hheld', rfl, rfl⟩] at habsent
    exact absurd habsent (by simp)
  refine ⟨?_, fun e he hheld' => ?_, fun e he hfree => ?_, fun key value => ?_, ?_⟩
  · rw [Sorted, hshift]
    refine h.sorted.shiftUp (monotone_shiftRight _) hup hheld ?_ ?_ fun y hy hheld' => ?_
    · rw [hhash]
      exact s.home_le
    · rw [hhash]
      exact s.passes_lt
    · obtain rfl := Option.some.inj (hy.symm.trans s.here)
      have hmem := List.mem_of_getElem? hy
      refine lt_of_le_of_ne (hhash ▸ UInt64.le_iff_toNat_le.mp s.le) fun heq => ?_
      obtain ⟨hin, hyhash⟩ := h.keys y hmem hheld'
      have heq' := UInt64.toNat_inj.mp heq
      rw [hhash, hyhash] at heq'
      exact hother y hmem hheld' (hS.inj _ hin _ hkey heq'.symm)
  · rcases (hup.mem_iff hheld e).mp ⟨he, hheld'⟩ with rfl | ⟨hold, -⟩
    · exact ⟨hkey, hhash⟩
    · exact h.keys e hold hheld'
  · rcases hup.mem he with rfl | hold
    · exact absurd hheld hfree
    · exact h.free e hold hfree
  · by_cases heq : key = it.key
    · subst heq
      rw [Finmap.lookup_insert, Option.some.injEq]
      constructor
      · rintro rfl
        obtain ⟨hmem, -⟩ := (hup.mem_iff hheld it).mpr (Or.inl rfl)
        exact ⟨it, hmem, hheld, rfl, rfl⟩
      · rintro ⟨e, he, hheld', hekey, rfl⟩
        rcases (hup.mem_iff hheld e).mp ⟨he, hheld'⟩ with rfl | ⟨hold, -⟩
        · rfl
        · exact absurd hekey (hother e hold hheld')
    · rw [Finmap.lookup_insert_of_ne _ heq, h.lookup]
      constructor
      · rintro ⟨e, he, hheld', hrest⟩
        exact ⟨e, ((hup.mem_iff hheld e).mpr (Or.inr ⟨he, hheld'⟩)).1, hheld', hrest⟩
      · rintro ⟨e, he, hheld', rfl, rfl⟩
        rcases (hup.mem_iff hheld e).mp ⟨he, hheld'⟩ with rfl | ⟨hold, -⟩
        · exact absurd rfl heq
        · exact ⟨e, hold, hheld', rfl, rfl⟩
  · have hnotMem : it.key ∉ m.keys := by
      rw [Finmap.mem_keys]
      exact Finmap.lookup_eq_none.mp habsent
    rw [hlen, h.len, keys_insert, Finset.card_insert_of_notMem hnotMem]

theorem getOrPutAssumeCapacity [Inhabited V] (h : t.Refines ctx S m) (hS : Keys ctx S) {key : K}
    (hkey : key ∈ S) (hdefault : ctx.eql default key = false) :
    t.getOrPutAssumeCapacity ctx key = .error .offEnd ∨
      ∃ t' found i, t.getOrPutAssumeCapacity ctx key = .ok (t', found, i) ∧ (found = true ↔ key ∈ m) ∧
        t'.Points key i ∧ t'.Refines ctx S (if key ∈ m then m else m.insert key default) := by
  rw [StaticHashMap.getOrPutAssumeCapacity]
  simp only [if_neg (hS.ne_empty key hkey)]
  rcases getOrPutLoop_probe ctx key t.entries.length t ⟨ctx.hash key, key, default⟩
      (t.home (ctx.hash key)) with
    hoff | ⟨i, entry, fuel, hle, hpass, hentry, hhash, hloop⟩
  · exact Or.inl hoff
  have s : t.StopsAt (ctx.hash key) i entry := ⟨hentry, hle, hpass, hhash⟩
  have hmem := List.mem_of_getElem? hentry
  rw [hloop]
  cases heql : ctx.eql entry.key key with
  | true =>
    have hheld : Held entry := by
      by_contra hfree
      rw [h.free entry hmem hfree, hdefault] at heql
      exact Bool.false_ne_true heql
    obtain ⟨hentrykey, hlookup⟩ := h.lookup_of_eql hS hkey s heql hheld
    have hin : key ∈ m := Finmap.mem_of_lookup_eq_some hlookup
    refine Or.inr ⟨t, true, i, ?_, ⟨fun _ => hin, fun _ => rfl⟩, ⟨entry, hentry, hheld, hentrykey⟩, ?_⟩
    · rw [getOrPutLoop, hentry]
      simp only [ge_iff_le, if_pos hhash, heql, if_true]
    · rw [if_pos hin]
      exact h
  | false =>
    have habsent := h.lookup_of_not_eql s heql
    have hout : key ∉ m := Finmap.lookup_eq_none.mp habsent
    rcases getOrPutLoop_shift key (fuel + 1) t ⟨ctx.hash key, key, default⟩ i none
        (fun p e e' hp he he' hheld => by
          by_cases hheld' : Held e'
          · exact UInt64.le_iff_toNat_le.mpr
              (h.sorted.sorted (monotone_shiftRight _) he hheld he' hheld' (Nat.lt_succ_self p)).le
          · rw [held_iff, not_not] at hheld'
            rw [hheld']
            exact UInt64.le_iff_toNat_le.mpr (Nat.le_of_lt_succ e.hash.toNat_lt))
        (fun e he => Option.some.inj (hentry.symm.trans he) ▸ hhash)
        (fun p e _ he => h.eql_eq_false hS hkey hdefault habsent (List.mem_of_getElem? he)) with
      hoff | ⟨j, t', hresult, hup, hlen, hshift⟩
    · exact Or.inl hoff
    · refine Or.inr ⟨t', false, i, hresult, ⟨fun hfalse => absurd hfalse Bool.false_ne_true,
        fun hin => absurd hin hout⟩, ⟨_, hup.new, (held_iff _).mpr (hS.ne_empty key hkey), rfl⟩, ?_⟩
      rw [if_neg hout]
      exact h.insert hS hkey rfl habsent s hup hlen hshift

/-- What a caller writes becomes the value of the key. -/
theorem setValue (h : t.Refines ctx S m) {key : K} {i : Nat} (hp : t.Points key i) (value : V) :
    (t.setValue i value).Refines ctx S (m.insert key value) := by
  obtain ⟨e₀, he₀, hheld₀, rfl⟩ := hp
  -- the entries of the new table
  have hget : ∀ (q : Nat) (e : Entry K V), (t.setValue i value).entries[q]? = some e ↔
      ∃ e', t.entries[q]? = some e' ∧ (if i = q then { e' with value := value } else e') = e := by
    intro q e
    rw [StaticHashMap.setValue, List.getElem?_modify]
    exact Option.map_eq_some_iff
  have hmem : ∀ e ∈ (t.setValue i value).entries,
      ∃ e' ∈ t.entries, e.hash = e'.hash ∧ e.key = e'.key := by
    intro e he
    obtain ⟨q, hq⟩ := List.mem_iff_getElem?.mp he
    obtain ⟨e', he', rfl⟩ := (hget q e).mp hq
    refine ⟨e', List.mem_of_getElem? he', ?_⟩
    split
    · exact ⟨rfl, rfl⟩
    · exact ⟨rfl, rfl⟩
  refine ⟨h.sorted.modify (f := fun e => { e with value := value }) (fun _ => rfl) (fun _ => Iff.rfl) i,
    fun e he hheld => ?_,
    fun e he hfree => ?_, fun key value' => ?_, ?_⟩
  · obtain ⟨e', he', hhash, hkey⟩ := hmem e he
    rw [held_iff, hhash, ← held_iff] at hheld
    rw [hhash, hkey]
    exact h.keys e' he' hheld
  · obtain ⟨e', he', hhash, hkey⟩ := hmem e he
    rw [held_iff, hhash, ← held_iff] at hfree
    rw [hkey]
    exact h.free e' he' hfree
  · by_cases heq : key = e₀.key
    · subst heq
      rw [Finmap.lookup_insert, Option.some.injEq]
      constructor
      · rintro rfl
        refine ⟨{ e₀ with value := value }, List.mem_of_getElem? ((hget i _).mpr ⟨e₀, he₀, if_pos rfl⟩),
          hheld₀, rfl, rfl⟩
      · rintro ⟨e, he, hheld, hkey, rfl⟩
        obtain ⟨q, hq⟩ := List.mem_iff_getElem?.mp he
        obtain ⟨e', he', rfl⟩ := (hget q e).mp hq
        by_cases hqi : i = q
        · rw [if_pos hqi]
        · rw [if_neg hqi] at hheld hkey
          -- an entry of the same key is in the same slot
          refine absurd (h.sorted.key_inj (monotone_shiftRight _) he₀ hheld₀ he' hheld ?_) hqi
          simp only [(h.keys e₀ (List.mem_of_getElem? he₀) hheld₀).2,
            (h.keys e' (List.mem_of_getElem? he') hheld).2, hkey]
    · rw [Finmap.lookup_insert_of_ne _ heq, h.lookup]
      constructor
      · rintro ⟨e, he, hheld, rfl, rfl⟩
        obtain ⟨q, hq⟩ := List.mem_iff_getElem?.mp he
        have hqi : i ≠ q := by
          rintro rfl
          exact heq (congrArg Entry.key (Option.some.inj (hq.symm.trans he₀)))
        exact ⟨e, List.mem_of_getElem? ((hget q e).mpr ⟨e, hq, if_neg hqi⟩), hheld, rfl, rfl⟩
      · rintro ⟨e, he, hheld, rfl, rfl⟩
        obtain ⟨q, hq⟩ := List.mem_iff_getElem?.mp he
        obtain ⟨e', he', rfl⟩ := (hget q e).mp hq
        have hqi : i ≠ q := by
          rintro rfl
          rw [if_pos rfl, Option.some.inj (he'.symm.trans he₀)] at heq
          exact heq rfl
        rw [if_neg hqi] at hheld ⊢
        exact ⟨e', List.mem_of_getElem? he', hheld, rfl, rfl⟩
  · have hin : e₀.key ∈ m.keys := by
      rw [Finmap.mem_keys]
      exact Finmap.mem_of_lookup_eq_some
        ((h.lookup _ _).mpr ⟨e₀, List.mem_of_getElem? he₀, hheld₀, rfl, rfl⟩)
    rw [keys_insert, Finset.insert_eq_self.mpr hin]
    exact h.len

theorem putAssumeCapacity [Inhabited V] (h : t.Refines ctx S m) (hS : Keys ctx S) {key : K}
    (hkey : key ∈ S) (hdefault : ctx.eql default key = false) (value : V) :
    t.putAssumeCapacity ctx key value = .error .offEnd ∨
      ∃ t', t.putAssumeCapacity ctx key value = .ok t' ∧
        t'.Refines ctx S (if key ∈ m then m else m.insert key value) := by
  rw [StaticHashMap.putAssumeCapacity]
  rcases h.getOrPutAssumeCapacity hS hkey hdefault with hoff | ⟨t', found, i, hget, hfound, hp, h'⟩
  · rw [hoff]
    exact Or.inl rfl
  · rw [hget]
    right
    cases found with
    | true =>
      refine ⟨t', rfl, ?_⟩
      rwa [if_pos (hfound.mp rfl)] at h' ⊢
    | false =>
      have hout : key ∉ m := fun hin => Bool.false_ne_true (hfound.mpr hin)
      rw [if_neg hout] at h' ⊢
      refine ⟨t'.setValue i value, rfl, ?_⟩
      have hset := h'.setValue hp value
      rwa [Finmap.insert_insert] at hset

end Refines

/-! ### Deletion -/

omit [Inhabited K] [DecidableEq K] in
theorem deleteProbe_stops (ctx : HashContext K) (t : StaticHashMap K V) (key : K) (fuel : Nat) :
    ∀ (hash : UInt64) (i : Nat),
    t.deleteProbe ctx key fuel hash i = .error .offEnd ∨
      ∃ j entry, i ≤ j ∧ (∀ q, i ≤ q → q < j → ∃ e, t.entries[q]? = some e ∧ e.hash < hash) ∧
        t.entries[j]? = some entry ∧ hash ≤ entry.hash ∧
        t.deleteProbe ctx key fuel hash i = .ok (if !ctx.eql entry.key key then none else some j) := by
  induction fuel with
  | zero => exact fun _ _ => Or.inl rfl
  | succ fuel ih =>
    intro hash i
    rw [deleteProbe]
    cases hentry : t.entries[i]? with
    | none => exact Or.inl rfl
    | some entry =>
      by_cases hle : hash ≤ entry.hash
      · refine Or.inr ⟨i, entry, Nat.le_refl i, fun q hq hqi => absurd hqi (Nat.not_lt.mpr hq), hentry,
          hle, ?_⟩
        simp only [ge_iff_le, if_pos hle]
        split <;> rfl
      · simp only [ge_iff_le, if_neg hle]
        rcases ih hash (i + 1) with hoff | ⟨j, e, hij, hpass, hrest⟩
        · exact Or.inl hoff
        · refine Or.inr ⟨j, e, by omega, fun q hq hqj => ?_, hrest⟩
          rcases Nat.eq_or_lt_of_le hq with rfl | hlt
          · exact ⟨entry, hentry, UInt64.not_le.mp hle⟩
          · exact hpass q hlt hqj

omit [Inhabited K] [DecidableEq K] in
/-- The entries behind a slot move down, as far as they can. -/
theorem deleteShift_shiftDown (e : Entry K V) (fuel : Nat) : ∀ {t : StaticHashMap K V} {i : Nat},
    t.deleteShift fuel i = .error .offEnd ∨
      ∃ j t', t.deleteShift fuel i = .ok (t', j) ∧ t'.len = t.len ∧ t'.shift = t.shift ∧
        Placed.ShiftDown Held (fun e => e.hash.toNat) (fun hash => hash >>> t.shift) e i j t.entries
          (t'.entries.set j e) := by
  induction fuel with
  | zero => exact Or.inl rfl
  | succ fuel ih =>
    intro t i
    rw [deleteShift]
    cases hnext : t.entries[i + 1]? with
    | none => exact Or.inl rfl
    | some next =>
      have hi : i + 1 < t.entries.length := (List.getElem?_eq_some_iff.mp hnext).1
      have hset (e : Entry K V) (q : Nat) (hq : q ≠ i) : (t.entries.set i e)[q]? = t.entries[q]? :=
        List.getElem?_set_ne hq.symm
      by_cases hstop : (decide (i < t.home next.hash) || next.isEmpty) = true
      · simp only [if_pos hstop]
        refine Or.inr ⟨i, t, rfl, rfl, rfl, ⟨Nat.le_refl i, fun q hq => hset e q hq.ne, ?_, ?_,
          List.getElem?_set_self (by omega), fun y hy hheld => ?_, fun q hq => hset e q hq.ne'⟩⟩
        · exact fun q hq hqi => absurd hqi (Nat.not_lt.mpr hq)
        · exact fun q hq hqi => absurd hqi (Nat.not_lt.mpr hq)
        · obtain rfl := Option.some.inj (hnext.symm.trans hy)
          rw [Held] at hheld
          rwa [hheld, Bool.or_false, decide_eq_true_eq] at hstop
      · simp only [if_neg hstop]
        rw [Bool.or_eq_true, not_or, decide_eq_true_eq, Bool.not_eq_true] at hstop
        rcases ih (t := { t with entries := t.entries.set i next }) (i := i + 1) with
          hoff | ⟨j, t', hloop, hlen, hshift, s⟩
        · exact Or.inl hoff
        · have hle := s.le
          refine Or.inr ⟨j, t', hloop, hlen, hshift, ⟨by omega, ?_, ?_, ?_, s.free, ?_, ?_⟩⟩
          · exact fun q hq => (s.before q (by omega)).trans (hset next q hq.ne)
          · intro q hq hqj
            rcases Nat.eq_or_lt_of_le hq with rfl | hlt
            · rw [s.before i (Nat.lt_succ_self i), hnext]
              exact List.getElem?_set_self (by omega)
            · exact (s.moved q hlt hqj).trans (hset next (q + 1) (by omega))
          · intro q hq hqj
            rcases Nat.eq_or_lt_of_le hq with rfl | hlt
            · exact ⟨next, hnext, hstop.2, Nat.not_lt.mp hstop.1⟩
            · obtain ⟨y, hy, hrest⟩ := s.away q hlt hqj
              exact ⟨y, (hset next (q + 1) (by omega)).symm.trans hy, hrest⟩
          · exact fun y hy hheld => s.stop y ((hset next (j + 1) (by omega)).trans hy) hheld
          · exact fun q hq => (s.behind q hq).trans (hset next q (by omega))

namespace Refines

theorem delete [Inhabited V] (h : t.Refines ctx S m) (hS : Keys ctx S) {key : K} (hkey : key ∈ S)
    (hclear : ctx.eql default key = false ∨ ∀ e, t.probe (ctx.hash key) = some e → Held e) :
    t.delete ctx key = .error .offEnd ∨
      ∃ t', t.delete ctx key = .ok (t', m.lookup key) ∧ t'.Refines ctx S (m.erase key) := by
  rw [StaticHashMap.delete]
  simp only [if_neg (hS.ne_empty key hkey)]
  rcases deleteProbe_stops ctx t key t.entries.length (ctx.hash key)
      (t.home (ctx.hash key)) with hoff | ⟨i, entry, hle, hpass, hentry, hhash, hprobe⟩
  · rw [hoff]
    exact Or.inl rfl
  have s : t.StopsAt (ctx.hash key) i entry := ⟨hentry, hle, hpass, hhash⟩
  have hmem := List.mem_of_getElem? hentry
  rw [hprobe]
  cases heql : ctx.eql entry.key key with
  | false =>
    have habsent := h.lookup_of_not_eql s heql
    have hout : key ∉ m := Finmap.lookup_eq_none.mp habsent
    refine Or.inr ⟨t, ?_, ?_⟩
    · rw [habsent]
      rfl
    · have herase : m.erase key = m := Finmap.ext_lookup fun key' => by
        by_cases heq : key' = key
        · rw [heq, Finmap.lookup_erase, habsent]
        · exact Finmap.lookup_erase_ne heq
      rwa [herase]
  | true =>
    have hheld : Held entry := by
      rcases hclear with hdefault | hheld
      · by_contra hfree
        rw [h.free entry hmem hfree, hdefault] at heql
        exact Bool.false_ne_true heql
      · cases hfind : t.probe (ctx.hash key) with
        | none =>
          -- the probe stops, since that of the loop does
          obtain ⟨d, rfl⟩ := Nat.exists_eq_add_of_le hle
          rw [← List.getElem?_drop] at hentry
          exact absurd (decide_eq_true hhash)
            (List.find?_eq_none.mp hfind entry (List.mem_of_getElem? hentry))
        | some e =>
          obtain ⟨j, s'⟩ := probe_stops hfind
          rw [(s.unique s').2]
          exact hheld e hfind
    obtain ⟨hentrykey, hlookup⟩ := h.lookup_of_eql hS hkey s heql hheld
    have hfree : ¬ Held (Entry.empty : Entry K V) := by
      rw [held_iff]
      exact not_not_intro rfl
    rcases deleteShift_shiftDown (Entry.empty : Entry K V) t.entries.length (t := t) (i := i) with
      hoff | ⟨j, t', hshiftDown, hlen, hshift, hdown⟩
    · left
      simp only [Bool.not_true, Bool.false_eq_true, if_false, bind, Except.bind, hoff]
    have hin : key ∈ m.keys := by
      rw [Finmap.mem_keys]
      exact Finmap.mem_of_lookup_eq_some hlookup
    have hpos : t'.len ≠ 0 := by
      rw [hlen, h.len]
      exact (Finset.card_pos.mpr ⟨key, hin⟩).ne'
    refine Or.inr ⟨{ t' with entries := t'.entries.set j Entry.empty, len := t'.len - 1 }, ?_, ?_⟩
    · simp only [Bool.not_true, Bool.false_eq_true, if_false, bind, Except.bind, hshiftDown, if_neg hpos,
        hentry, Option.map_some, hlookup]
    · have hiff := hdown.mem_iff hfree h.sorted (monotone_shiftRight _) hentry hheld
      -- the entries of other keys are those of other hashes
      have hother : ∀ e ∈ t.entries, Held e → (e.hash.toNat ≠ entry.hash.toNat ↔ e.key ≠ key) := by
        intro e he hheld'
        rw [ne_eq, UInt64.toNat_inj, (h.keys e he hheld').2, (h.keys entry hmem hheld).2, hentrykey]
        refine not_congr ⟨fun heq => ?_, fun heq => congrArg ctx.hash heq⟩
        exact hS.inj _ (h.keys e he hheld').1 _ hkey heq
      refine ⟨?_, fun e he hheld' => h.keys e ((hiff e).mp ⟨he, hheld'⟩).2.1 hheld', fun e he hfree' => ?_,
        fun key' value => ?_, ?_⟩
      · rw [Sorted]
        simp only [hshift]
        exact h.sorted.shiftDown (monotone_shiftRight _) hdown hfree
      · rcases hdown.mem he with rfl | hold
        · rfl
        · exact h.free e hold hfree'
      · by_cases heq : key' = key
        · subst heq
          rw [Finmap.lookup_erase]
          constructor
          · exact fun hnone => absurd hnone (by simp)
          · rintro ⟨e, he, hheld', hekey, -⟩
            obtain ⟨hne, hold, -⟩ := (hiff e).mp ⟨he, hheld'⟩
            exact absurd hekey ((hother e hold hheld').mp hne)
        · rw [Finmap.lookup_erase_ne heq, h.lookup]
          constructor
          · rintro ⟨e, he, hheld', rfl, rfl⟩
            exact ⟨e, ((hiff e).mpr ⟨(hother e he hheld').mpr heq, he, hheld'⟩).1, hheld', rfl, rfl⟩
          · rintro ⟨e, he, hheld', hrest⟩
            exact ⟨e, ((hiff e).mp ⟨he, hheld'⟩).2.1, hheld', hrest⟩
      · rw [Finmap.keys_erase, Finset.card_erase_of_mem hin, ← h.len, ← hlen]

/-- The stored entries, in the order of the table, are sorted by hash. -/
theorem pairwise (h : t.Refines ctx S m) :
    (t.entries.filter fun e => !e.isEmpty).Pairwise fun e e' => e.hash < e'.hash := by
  have hall : t.entries.Pairwise fun e e' => Held e → Held e' → e.hash < e'.hash := by
    rw [List.pairwise_iff_getElem]
    intro p q hp hq hpq hheld hheld'
    exact UInt64.lt_iff_toNat_lt.mpr (h.sorted.sorted (monotone_shiftRight _)
      (List.getElem?_eq_getElem hp) hheld (List.getElem?_eq_getElem hq) hheld' hpq)
  have hfilter := hall.filter fun e => !e.isEmpty
  have hheld {e : Entry K V} (he : e ∈ t.entries.filter fun e => !e.isEmpty) : Held e := by
    simpa [Held] using (List.mem_filter.mp he).2
  exact hfilter.imp_of_mem fun he he' hlt => hlt (hheld he) (hheld he')

end Refines

end Map

end Refinement

end StaticHashMap

end OhosBun.Collections
