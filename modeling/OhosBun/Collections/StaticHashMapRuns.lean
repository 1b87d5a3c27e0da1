/-
# `OhosBun.Collections.StaticHashMapRuns` — runs of the hash map

An operation of the table with its reply (`step`), and what it should do to a finite
map (`Serves`).  A key keeps the value of its first put.

A run whose probes stay in the table is one of the finite map (`run_serves`), as long
as no probe takes an empty slot for an entry, which has the default key (`Clear`).
-/
import OhosBun.Collections.StaticHashMap

namespace OhosBun.Collections.StaticHashMap

open OhosBun.Lib

/-! ## Operations -/

inductive Op (K V : Type)
  | putAssumeCapacity (key : K) (value : V)
  /-- with what the caller writes to `value_ptr`, if anything -/
  | getOrPutAssumeCapacity (key : K) (written : Option V)
  | get (key : K)
  | hasWithHash (keyHash : UInt64)
  | delete (key : K)
  deriving DecidableEq

inductive Reply (V : Type)
  | done
  /-- `found_existing`, and what `value_ptr` points to -/
  | entry (foundExisting : Bool) (value : Option V)
  | value (value : Option V)
  | has (has : Bool)
  deriving DecidableEq

section Runs
variable {K V : Type} [Inhabited K] [Inhabited V] (ctx : HashContext K)

def step (t : StaticHashMap K V) : Op K V → Except Panic (StaticHashMap K V × Reply V)
  | .putAssumeCapacity key value => (t.putAssumeCapacity ctx key value).map fun t => (t, .done)
  | .getOrPutAssumeCapacity key written =>
    (t.getOrPutAssumeCapacity ctx key).map fun (t, found, i) =>
      let reply := .entry found (t.entries[i]?.map (·.value))
      match written with
      | none => (t, reply)
      | some value => (t.setValue i value, reply)
  | .get key => (t.get ctx key).map fun value => (t, .value value)
  | .hasWithHash keyHash => (t.hasWithHash keyHash).map fun has => (t, .has has)
  | .delete key => (t.delete ctx key).map fun (t, value) => (t, .value value)

/-- A finite map: what is put for a key that is there is dropped. -/
inductive Serves [DecidableEq K] : (Finmap fun _ : K => V) → Op K V → Reply V →
    (Finmap fun _ : K => V) → Prop
  | put (m : Finmap fun _ : K => V) (key : K) (value : V) :
      Serves m (.putAssumeCapacity key value) .done (if key ∈ m then m else m.insert key value)
  | found (m : Finmap fun _ : K => V) {key : K} {value : V} (hvalue : m.lookup key = some value)
      (written : Option V) :
      Serves m (.getOrPutAssumeCapacity key written) (.entry true (some value))
        (m.insert key (written.getD value))
  | new (m : Finmap fun _ : K => V) {key : K} (hvalue : m.lookup key = none) (written : Option V) :
      Serves m (.getOrPutAssumeCapacity key written) (.entry false (some default))
        (m.insert key (written.getD default))
  | get (m : Finmap fun _ : K => V) (key : K) : Serves m (.get key) (.value (m.lookup key)) m
  | hasWithHash (m : Finmap fun _ : K => V) {keyHash : UInt64} {has : Bool}
      (hhas : has = true ↔ ∃ key ∈ m, ctx.hash key = keyHash) : Serves m (.hasWithHash keyHash) (.has has) m
  | delete (m : Finmap fun _ : K => V) (key : K) :
      Serves m (.delete key) (.value (m.lookup key)) (m.erase key)

/-- The keys of a set, and no hash that an empty slot has. -/
def Op.Over (S : Set K) : Op K V → Prop
  | .putAssumeCapacity key _ | .getOrPutAssumeCapacity key _ | .get key | .delete key => key ∈ S
  | .hasWithHash keyHash => keyHash ≠ emptyHash

/-- No probe runs off the end of the table. -/
def Fits (t : StaticHashMap K V) (op : Op K V) : Prop := t.step ctx op ≠ .error .offEnd

/-- No key is compared with that of an empty slot and found equal. -/
def Clear (t : StaticHashMap K V) : Op K V → Prop
  | .putAssumeCapacity key _ | .getOrPutAssumeCapacity key _ => ctx.eql default key = false
  | .get key | .delete key =>
    ctx.eql default key = false ∨ ∀ e, t.probe (ctx.hash key) = some e → Held e
  | .hasWithHash _ => True

instance (S : Set K) [DecidablePred (· ∈ S)] : (op : Op K V) → Decidable (op.Over S)
  | .putAssumeCapacity key _ | .getOrPutAssumeCapacity key _ | .get key | .delete key =>
    inferInstanceAs (Decidable (key ∈ S))
  | .hasWithHash _ => inferInstanceAs (Decidable (_ ≠ _))

instance [DecidableEq K] [DecidableEq V] (t : StaticHashMap K V) (op : Op K V) :
    Decidable (t.Fits ctx op) := inferInstanceAs (Decidable (_ ≠ _))

instance (t : StaticHashMap K V) : (op : Op K V) → Decidable (t.Clear ctx op)
  | .putAssumeCapacity _ _ | .getOrPutAssumeCapacity _ _ => inferInstanceAs (Decidable (_ = _))
  | .get key | .delete key =>
    inferInstanceAs (Decidable (_ ∨ ∀ e ∈ t.probe (ctx.hash key), Held e))
  | .hasWithHash _ => .isTrue trivial

variable [DecidableEq K] {ctx} {S : Set K} {t : StaticHashMap K V} {m : Finmap fun _ : K => V}

theorem getOrPut_serves (h : t.Refines ctx S m) (hS : Keys ctx S) {key : K} (hkey : key ∈ S)
    (hdefault : ctx.eql default key = false) (written : Option V) :
    t.step ctx (.getOrPutAssumeCapacity key written) = .error .offEnd ∨
      ∃ t' reply m', t.step ctx (.getOrPutAssumeCapacity key written) = .ok (t', reply) ∧
        Serves ctx m (.getOrPutAssumeCapacity key written) reply m' ∧ t'.Refines ctx S m' := by
  rcases h.getOrPutAssumeCapacity hS hkey hdefault with hoff | ⟨t', found, i, hstep, hfound, hp, h'⟩
  · left
    rw [step, hoff]
    rfl
  right
  obtain ⟨e, he, hheld, hekey⟩ := id hp
  -- what the pointer points to is the value of the key
  obtain ⟨m', hm', hserves⟩ : ∃ m', (if key ∈ m then m else m.insert key default) = m' ∧
      ∀ value, m'.lookup key = some value → Serves ctx m (.getOrPutAssumeCapacity key written)
        (.entry found (some value)) (m'.insert key (written.getD value)) := by
    refine ⟨_, rfl, fun value hvalue => ?_⟩
    by_cases hin : key ∈ m
    · rw [if_pos hin] at hvalue ⊢
      rw [hfound.mpr hin]
      exact .found m hvalue written
    · rw [if_neg hin] at hvalue ⊢
      rw [Finmap.lookup_insert, Option.some.injEq] at hvalue
      subst hvalue
      rw [Bool.eq_false_of_not_eq_true fun hfalse => hin (hfound.mp hfalse), Finmap.insert_insert]
      exact .new m (Finmap.lookup_eq_none.mpr hin) written
  rw [hm'] at h'
  have hlookup : m'.lookup key = some e.value :=
    (h'.lookup key e.value).mpr ⟨e, List.mem_of_getElem? he, hheld, hekey, rfl⟩
  have hserves := hserves e.value hlookup
  cases written with
  | none =>
    refine ⟨t', .entry found (some e.value), _, ?_, hserves, ?_⟩
    · rw [step, hstep]
      simp only [Except.map, he, Option.map_some]
    · have hsame : m'.insert key ((none : Option V).getD e.value) = m' := Finmap.ext_lookup fun key' => by
        by_cases heq : key' = key
        · rw [heq, Finmap.lookup_insert, hlookup]
          rfl
        · exact Finmap.lookup_insert_of_ne _ heq
      rwa [hsame]
  | some value =>
    refine ⟨t'.setValue i value, .entry found (some e.value), _, ?_, hserves, h'.setValue hp value⟩
    rw [step, hstep]
    simp only [Except.map, he, Option.map_some]

/-- Every operation is the map's, or runs off the end of the table. -/
theorem step_serves (h : t.Refines ctx S m) (hS : Keys ctx S) {op : Op K V} (hover : op.Over S)
    (hclear : t.Clear ctx op) : t.step ctx op = .error .offEnd ∨
      ∃ t' reply m', t.step ctx op = .ok (t', reply) ∧ Serves ctx m op reply m' ∧ t'.Refines ctx S m' := by
  cases op with
  | putAssumeCapacity key value =>
    rw [step]
    rcases h.putAssumeCapacity hS hover hclear value with hoff | ⟨t', hput, h'⟩
    · rw [hoff]
      exact Or.inl rfl
    · rw [hput]
      exact Or.inr ⟨t', .done, _, rfl, .put m key value, h'⟩
  | getOrPutAssumeCapacity key written => exact getOrPut_serves h hS hover hclear written
  | get key =>
    rw [step]
    rcases h.get hS hover hclear with hoff | hget
    · rw [hoff]
      exact Or.inl rfl
    · rw [hget]
      exact Or.inr ⟨t, _, m, rfl, .get m key, h⟩
  | hasWithHash keyHash =>
    rw [step]
    rcases h.hasWithHash hover with hoff | ⟨has, hhas, hiff⟩
    · rw [hoff]
      exact Or.inl rfl
    · rw [hhas]
      exact Or.inr ⟨t, _, m, rfl, .hasWithHash m hiff, h⟩
  | delete key =>
    rw [step]
    rcases h.delete hS hover hclear with hoff | ⟨t', hdelete, h'⟩
    · rw [hoff]
      exact Or.inl rfl
    · rw [hdelete]
      exact Or.inr ⟨t', _, _, rfl, .delete m key, h'⟩

/-- Every run is the map's.  The length is the number of keys, and the stored entries are sorted and
are those of the map. -/
theorem run_serves (ctx : HashContext K) (capacity : Nat) {S : Set K} (hS : Keys ctx S) (ops : List (Op K V))
    (hrun : Guarded (fun t op => (step ctx t op).toOption)
      (fun t op => op.Over S ∧ t.Fits ctx op ∧ t.Clear ctx op) (new K V capacity) ops) :
    ∃ t replies m, run (fun t op => (step ctx t op).toOption) (new K V capacity) ops = some (t, replies) ∧
      Follows (Serves ctx) ∅ ops replies m ∧ t.len = m.keys.card ∧
      (t.entries.filter fun e => !e.isEmpty).Pairwise (fun e e' => e.hash < e'.hash) ∧
      ∀ key value, m.lookup key = some value ↔
        ∃ e ∈ t.entries.filter (fun e => !e.isEmpty), e.key = key ∧ e.value = value := by
  have hstep : ∀ (t : StaticHashMap K V) (m : Finmap fun _ : K => V) (op : Op K V), t.Refines ctx S m →
      op.Over S ∧ t.Fits ctx op ∧ t.Clear ctx op →
      ∃ t' reply m', (step ctx t op).toOption = some (t', reply) ∧ Serves ctx m op reply m' ∧
        t'.Refines ctx S m' := by
    rintro t m op h ⟨hover, hfits, hclear⟩
    rcases step_serves h hS hover hclear with hoff | ⟨t', reply, m', hok, hrest⟩
    · exact absurd hoff hfits
    · exact ⟨t', reply, m', by rw [hok]; rfl, hrest⟩
  obtain ⟨t, replies, m, hreturns, hfollows, h⟩ :=
    exists_run (R := fun t m => t.Refines ctx S m) hstep ops (new_refines ctx S capacity) hrun
  refine ⟨t, replies, m, hreturns, hfollows, h.len, h.pairwise, fun key value => ?_⟩
  rw [h.lookup]
  simp only [List.mem_filter, Bool.not_eq_true', Held, and_assoc]

end Runs

/-- The context of keys that are their own hashes. -/
def identityContext : HashContext UInt64 where
  hash key := key
  eql a b := a == b
  eql_self _ := beq_self_eq_true _
  hash_eq_of_eql h := eq_of_beq h

theorem keys_identity (S : Set UInt64) (hS : emptyHash ∉ S) : Keys identityContext S :=
  ⟨fun _ _ _ _ h => h, fun _ ha h => hS (h ▸ ha)⟩

/-- Keys other than the default, which share a slot. -/
theorem run_serves_identity :
    Guarded (fun t op => (step identityContext t op).toOption)
      (fun t op => op.Over {1, 2, 3} ∧ t.Fits identityContext op ∧ t.Clear identityContext op)
      (new UInt64 Nat 2)
      [.putAssumeCapacity 3 7, .getOrPutAssumeCapacity 1 (some 8), .putAssumeCapacity 3 9,
        .hasWithHash 3, .delete 1, .get 3, .get 2] ∧
    ∃ t replies m, run (fun t op => (step identityContext t op).toOption) (new UInt64 Nat 2)
        [.putAssumeCapacity 3 7, .getOrPutAssumeCapacity 1 (some 8), .putAssumeCapacity 3 9,
          .hasWithHash 3, .delete 1, .get 3, .get 2] = some (t, replies) ∧
      Follows (Serves identityContext) ∅
        [.putAssumeCapacity 3 7, .getOrPutAssumeCapacity 1 (some 8), .putAssumeCapacity 3 9,
          .hasWithHash 3, .delete 1, .get 3, .get 2] replies m ∧ t.len = m.keys.card ∧
      (t.entries.filter fun e => !e.isEmpty).Pairwise (fun e e' => e.hash < e'.hash) ∧
      ∀ key value, m.lookup key = some value ↔
        ∃ e ∈ t.entries.filter (fun e => !e.isEmpty), e.key = key ∧ e.value = value :=
  have h : Guarded (fun t op => (step identityContext t op).toOption)
      (fun t op => op.Over {1, 2, 3} ∧ t.Fits identityContext op ∧ t.Clear identityContext op)
      (new UInt64 Nat 2)
      [.putAssumeCapacity 3 7, .getOrPutAssumeCapacity 1 (some 8), .putAssumeCapacity 3 9,
        .hasWithHash 3, .delete 1, .get 3, .get 2] := by
    decide
  ⟨h, run_serves identityContext 2 (keys_identity {1, 2, 3} (by decide)) _ h⟩

/-- The default key is found in a table that was just made, and what is put for it is dropped. -/
theorem run_default_key :
    Keys identityContext {0} ∧
    Guarded (fun t op => (step identityContext t op).toOption)
      (fun t op => op.Over {0} ∧ t.Fits identityContext op) (new UInt64 Nat 2)
      [.putAssumeCapacity 0 7, .get 0] ∧
    (run (fun t op => (step identityContext t op).toOption) (new UInt64 Nat 2)
      [.putAssumeCapacity 0 7, .get 0]).map (·.2) = some [.done, .value (some 0)] ∧
    (∀ m, ¬ Follows (Serves identityContext) (∅ : Finmap fun _ : UInt64 => Nat)
      [.putAssumeCapacity 0 7, .get 0] [.done, .value (some 0)] m) ∧
    step identityContext (new UInt64 Nat 2) (.delete 0) = .error .underflow := by
  refine ⟨keys_identity {0} (by decide), by decide, by decide, fun m h => ?_, by decide⟩
  cases h with
  | cons hput hrest =>
    cases hput with
    | put =>
      cases hrest with
      | cons hget _ =>
        generalize hreply : Reply.value (some 0) = reply at hget
        cases hget with
        | get =>
          rw [if_neg (Finmap.notMem_empty), Finmap.lookup_insert] at hreply
          exact absurd hreply (by decide)

end OhosBun.Collections.StaticHashMap
