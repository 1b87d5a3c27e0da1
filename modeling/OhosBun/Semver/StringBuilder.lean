/-
# `OhosBun.Semver.StringBuilder` — one buffer for many strings

`semver_string::Builder`: the strings are counted, a buffer is allocated, and they are appended.
A string that does not fit in a handle is written once for its hash, unless the one in the pool
is another string; then it is written again each time.

    append_holds      the handle of an appended string, and of those before, stays good
    append_isSome     there is room for a string that was counted

The hash function is a parameter, and may collide.  `none` is a panic.
-/
import Mathlib.Algebra.Order.BigOperators.Group.List
import Mathlib.Data.List.Perm.Subperm
import Mathlib.Logic.Function.Basic
import OhosBun.Semver.SemverString

namespace OhosBun.Semver

open OhosBun.Lib
open SemverString (canInline init Holds NulFree)

/-- What `append` returns: a handle, alone or with its hash. -/
class BuilderStringType (T : Type) where
  fromInit (off : Nat) (slice : Bytes) (hash : Nat) : T
  fromPooled (value : SemverString) (hash : Nat) : T

structure ExternalSemverString where
  value : SemverString
  hash : Nat
deriving DecidableEq

instance : BuilderStringType SemverString where
  fromInit off slice _ := init off slice
  fromPooled value _ := value

instance : BuilderStringType ExternalSemverString where
  fromInit off slice hash := ⟨init off slice, hash⟩
  fromPooled value hash := ⟨value, hash⟩

structure StringBuilder where
  len : Nat
  cap : Nat
  ptr : Option Bytes
  stringPool : Nat → Option SemverString

namespace StringBuilder

def default : StringBuilder := ⟨0, 0, none, fun _ => none⟩

section Counting
variable (stringHash : Bytes → Nat) (b : StringBuilder)

def countWithHash (slice : Bytes) (hash : Nat) : StringBuilder :=
  if canInline slice then b
  else if (b.stringPool hash).isSome then b
  else { b with cap := b.cap + slice.length }

def count (slice : Bytes) : StringBuilder :=
  b.countWithHash slice (if canInline slice then 2 ^ 64 - 1 else stringHash slice)

def allocate : StringBuilder := { b with ptr := some (List.replicate b.cap 0) }

end Counting

section Appending
variable (stringHash : Bytes → Nat) (b : StringBuilder)

def allocatedSlice : Option Bytes :=
  if b.cap > 0 then do Lib.slice (← b.ptr) 0 b.cap else some []

/-- Copies to `ptr[len..cap][..slice.len()]`. -/
def write (slice : Bytes) : Option StringBuilder := do
  let ptr ← b.ptr
  guard (b.len ≤ b.cap ∧ b.cap ≤ ptr.length)
  guard (slice.length ≤ b.cap - b.len)
  return { b with
    ptr := some (ptr.take b.len ++ slice ++ ptr.drop (b.len + slice.length))
    len := b.len + slice.length }

variable {T : Type} [BuilderStringType T]

def appendWithoutPool (slice : Bytes) (hash : Nat) : Option (T × StringBuilder) :=
  if canInline slice then do
    let _ ← b.allocatedSlice
    return (BuilderStringType.fromInit 0 slice hash, b)
  else do
    let start := b.len
    let b ← b.write slice
    let allocated ← Lib.slice (← b.ptr) 0 b.cap
    let finalSlice ← Lib.slice allocated start slice.length
    return (BuilderStringType.fromInit start finalSlice hash, b)

def appendWithHash (slice : Bytes) (hash : Nat) : Option (T × StringBuilder) :=
  if canInline slice then do
    let _ ← b.allocatedSlice
    return (BuilderStringType.fromInit 0 slice hash, b)
  else match b.stringPool hash with
    | some value => do
      let allocated ← Lib.slice (← b.ptr) 0 b.cap
      if value.slice allocated = slice then return (BuilderStringType.fromPooled value hash, b)
      else b.appendWithoutPool slice hash
    | none => do
      let start := b.len
      let b ← b.write slice
      let allocated ← Lib.slice (← b.ptr) 0 b.cap
      let finalSlice ← Lib.slice allocated start slice.length
      let value := init start finalSlice
      let pool := Function.update b.stringPool hash (some value)
      return (BuilderStringType.fromPooled value hash, { b with stringPool := pool })

def append (slice : Bytes) : Option (T × StringBuilder) :=
  b.appendWithHash slice (stringHash slice)

end Appending

/-! ## Runs -/

section Runs
variable (stringHash : Bytes → Nat)

/-- A builder after all the counting. -/
def counted (slices : List Bytes) : StringBuilder :=
  (slices.foldl (count stringHash) default).allocate

def appendAll (T : Type) [BuilderStringType T] :
    StringBuilder → List Bytes → Option (List T × StringBuilder)
  | b, [] => some ([], b)
  | b, slice :: slices => do
    let (handle, b) ← append stringHash b slice
    let (handles, b) ← appendAll T b slices
    return (handle :: handles, b)

end Runs

/-! ## The buffer -/

/-- The buffer has the size that was counted. -/
structure Sized (b : StringBuilder) (buf : Bytes) : Prop where
  ptr : b.ptr = some buf
  length : buf.length = b.cap
  len_le : b.len ≤ b.cap

/-- What a string takes of the buffer, at most. -/
def room (s : Bytes) : Nat := if canInline s then 0 else s.length

theorem slice_all (buf : Bytes) : Lib.slice buf 0 buf.length = some buf := by
  simp [Lib.slice]

section Write
variable {b : StringBuilder} {buf s : Bytes} (hb : b.Sized buf)
include hb

theorem allocatedSlice_eq : b.allocatedSlice = some buf := by
  unfold allocatedSlice
  split
  · rw [hb.ptr, ← hb.length]
    exact slice_all buf
  · rename_i hcap
    have hnil : buf = [] := List.eq_nil_of_length_eq_zero (by rw [hb.length]; omega)
    rw [hnil]

theorem write_of_le (hroom : b.len + s.length ≤ b.cap) : b.write s = some
    { b with
      ptr := some (buf.take b.len ++ s ++ buf.drop (b.len + s.length))
      len := b.len + s.length } := by
  unfold write
  rw [hb.ptr]
  have hguard : b.len ≤ b.cap ∧ b.cap ≤ buf.length := ⟨hb.len_le, hb.length.ge⟩
  have hguard' : s.length ≤ b.cap - b.len := by omega
  simp [hguard, hguard']

theorem write_of_not_le (hroom : ¬ b.len + s.length ≤ b.cap) : b.write s = none := by
  have hle := hb.len_le
  unfold write
  rw [hb.ptr]
  have hguard' : ¬ s.length ≤ b.cap - b.len := by omega
  simp [hguard']

end Write

/-! ## Appending one string -/

/-- The part of the buffer that is written. -/
def Written (b : StringBuilder) (buf : Bytes) : Bytes := buf.take b.len

/-- The handles of the pool are those of long strings that are written. -/
structure Good (b : StringBuilder) (buf : Bytes) : Prop extends b.Sized buf where
  pool : ∀ hash value, b.stringPool hash = some value →
    ∃ s, canInline s = false ∧ Holds (b.Written buf) s value

/-- A string is put after those that are written. -/
structure Wrote (b : StringBuilder) (buf s : Bytes) (b' : StringBuilder) (buf' : Bytes) : Prop where
  sized : b'.Sized buf'
  written : b'.Written buf' = b.Written buf ++ s
  slice : Lib.slice buf' b.len s.length = some s
  cap : b'.cap = b.cap
  len : b'.len = b.len + s.length
  stringPool : b'.stringPool = b.stringPool

variable {b b' : StringBuilder} {buf s buf' : Bytes} {slices : List Bytes}

theorem wrote_write (hb : b.Sized buf) (h : b.write s = some b') : ∃ buf', Wrote b buf s b' buf' := by
  by_cases hroom : b.len + s.length ≤ b.cap
  · rw [write_of_le hb hroom, Option.some.injEq] at h
    obtain rfl := h
    have htake : (buf.take b.len).length = b.len := by
      rw [List.length_take, hb.length]
      exact Nat.min_eq_left hb.len_le
    have hfront : (buf.take b.len ++ s).length = b.len + s.length := by
      rw [List.length_append, htake]
    refine ⟨_, ⟨⟨rfl, ?_, hroom⟩, ?_, ?_, rfl, rfl, rfl⟩⟩
    · rw [List.length_append, hfront, List.length_drop, hb.length]
      show b.len + s.length + (b.cap - (b.len + s.length)) = b.cap
      omega
    · exact List.take_left' hfront
    · rw [List.append_assoc]
      exact slice_append htake.symm rfl
  · rw [write_of_not_le hb hroom] at h
    exact absurd h (by simp)

theorem write_isSome (hb : b.Sized buf) (hroom : b.len + s.length ≤ b.cap) :
    ∃ b' buf', b.write s = some b' ∧ Wrote b buf s b' buf' := by
  obtain ⟨buf', hwrote⟩ := wrote_write hb (write_of_le hb hroom)
  exact ⟨_, buf', write_of_le hb hroom, hwrote⟩

theorem good_of_wrote (hb : b.Good buf) (h : Wrote b buf s b' buf') : b'.Good buf' := by
  refine ⟨h.sized, fun hash value hvalue => ?_⟩
  rw [h.stringPool] at hvalue
  obtain ⟨t, hlong, hholds⟩ := hb.pool hash value hvalue
  rw [h.written]
  exact ⟨t, hlong, SemverString.holds_append hholds s⟩

/-- The handle of what has just been written. -/
theorem holds_of_wrote (hb : b.Sized buf) (h : Wrote b buf s b' buf') (hlong : canInline s = false) :
    Holds (b'.Written buf') s (init b.len s) := by
  have hlen : b.len = (b.Written buf).length := by
    rw [Written, List.length_take, hb.length]
    exact (Nat.min_eq_left hb.len_le).symm
  have hslice : Lib.slice (b.Written buf ++ s) b.len s.length = some s := by
    have happend : Lib.slice (b.Written buf ++ (s ++ [])) b.len s.length = some s :=
      slice_append hlen rfl
    rwa [List.append_nil] at happend
  rw [h.written, SemverString.init_eq, hlong, if_neg (by decide)]
  exact .packed hlong hslice

/-- What `append` does with a string. -/
structure Appended (b : StringBuilder) (buf s : Bytes) (h : SemverString) (b' : StringBuilder)
    (buf' : Bytes) : Prop where
  good : b'.Good buf'
  holds : Holds (b'.Written buf') s h
  grows : b.Written buf <+: b'.Written buf'
  cap : b'.cap = b.cap
  len : b'.len ≤ b.len + room s

theorem room_of_long (hlong : canInline s = false) : room s = s.length := by
  rw [room, hlong]
  rfl

theorem appended_of_wrote (hb : b.Good buf) (h : Wrote b buf s b' buf') (hlong : canInline s = false) :
    Appended b buf s (init b.len s) b' buf' := by
  refine ⟨good_of_wrote hb h, holds_of_wrote hb.toSized h hlong, ?_, h.cap, ?_⟩
  · rw [h.written]
    exact List.prefix_append _ s
  · rw [h.len, room_of_long hlong]

/-- The pool gets the handle of what has just been written. -/
theorem appended_update {h : SemverString} (ha : Appended b buf s h b' buf') (hlong : canInline s = false)
    (hash : Nat) :
    Appended b buf s h
      { b' with stringPool := Function.update b'.stringPool hash (some h) } buf' := by
  refine ⟨⟨⟨ha.good.ptr, ha.good.length, ha.good.len_le⟩, fun hash' value hvalue => ?_⟩, ha.holds,
    ha.grows, ha.cap, ha.len⟩
  dsimp only at hvalue
  rcases eq_or_ne hash' hash with rfl | hne
  · rw [Function.update_self, Option.some.injEq] at hvalue
    exact ⟨s, hlong, hvalue ▸ ha.holds⟩
  · rw [Function.update_of_ne hne] at hvalue
    exact ha.good.pool hash' value hvalue

section Long
variable {b : StringBuilder} {buf s : Bytes} (hb : b.Good buf) (hlong : canInline s = false)
include hb hlong

theorem write_cases : (b.cap < b.len + room s ∧ b.write s = none) ∨
    ∃ b' buf', Wrote b buf s b' buf' ∧ b.write s = some b' := by
  by_cases hroom : b.len + s.length ≤ b.cap
  · obtain ⟨b', buf', hwrite, hwrote⟩ := write_isSome hb.toSized hroom
    exact .inr ⟨b', buf', hwrote, hwrite⟩
  · refine .inl ⟨?_, write_of_not_le hb.toSized hroom⟩
    rw [room_of_long hlong]
    omega

theorem appendWithoutPool_cases (hash : Nat) :
    (b.cap < b.len + room s ∧ b.appendWithoutPool (T := SemverString) s hash = none) ∨
    ∃ h b' buf', Appended b buf s h b' buf' ∧
      b.appendWithoutPool s hash = some (h, b') := by
  rcases write_cases hb hlong with ⟨hroom, hwrite⟩ | ⟨b', buf', hwrote, hwrite⟩
  · refine .inl ⟨hroom, ?_⟩
    rw [appendWithoutPool, hlong, if_neg (by decide), hwrite]
    rfl
  · refine .inr ⟨init b.len s, b', buf', appended_of_wrote hb hwrote hlong, ?_⟩
    have hall : Lib.slice buf' 0 b'.cap = some buf' := hwrote.sized.length ▸ slice_all buf'
    rw [appendWithoutPool, hlong, if_neg (by decide), hwrite]
    simp only [Option.bind_eq_bind, Option.bind_some, hwrote.sized.ptr, hall, hwrote.slice]
    rfl

/-- A new hash. -/
theorem appendWithHash_new {hash : Nat} (hnew : b.stringPool hash = none) :
    (b.cap < b.len + room s ∧ b.appendWithHash (T := SemverString) s hash = none) ∨
    ∃ h b' buf', Appended b buf s h b' buf' ∧ b.appendWithHash s hash = some (h, b') := by
  rcases write_cases hb hlong with ⟨hroom, hwrite⟩ | ⟨b', buf', hwrote, hwrite⟩
  · refine .inl ⟨hroom, ?_⟩
    rw [appendWithHash, hlong, if_neg (by decide), hnew]
    simp only [hwrite]
    rfl
  · have happended := appended_update (appended_of_wrote hb hwrote hlong) hlong hash
    refine .inr ⟨init b.len s, _, buf', happended, ?_⟩
    have hall : Lib.slice buf' 0 b'.cap = some buf' := hwrote.sized.length ▸ slice_all buf'
    rw [appendWithHash, hlong, if_neg (by decide), hnew]
    simp only [hwrite, Option.bind_eq_bind, Option.bind_some, hwrote.sized.ptr, hall, hwrote.slice]
    rfl

/-- A hash that is in the pool: of this string, or of another one. -/
theorem appendWithHash_found (hcap : b.cap < 2 ^ 31) {hash : Nat} {value : SemverString}
    (hfound : b.stringPool hash = some value) :
    (b.cap < b.len + room s ∧ b.appendWithHash (T := SemverString) s hash = none) ∨
    ∃ h b' buf', Appended b buf s h b' buf' ∧ b.appendWithHash s hash = some (h, b') := by
  have hall : Lib.slice buf 0 b.cap = some buf := hb.length ▸ slice_all buf
  by_cases hsame : value.slice buf = s
  · refine .inr ⟨value, b, buf, ⟨hb, ?_, List.prefix_refl _, rfl, Nat.le_add_right _ _⟩, ?_⟩
    · obtain ⟨t, ht, hholds⟩ := hb.pool hash value hfound
      have hbuf := SemverString.holds_append hholds (buf.drop b.len)
      rw [Written, List.take_append_drop] at hbuf
      have hslice := SemverString.slice_of_holds (hb.length ▸ hcap)
        (fun h => absurd (ht.symm.trans h) (by decide)) hbuf
      rwa [← hsame, hslice]
    · rw [appendWithHash, hlong, if_neg (by decide), hfound]
      simp only [Option.bind_eq_bind, Option.bind_some, hb.ptr, hall, if_pos hsame]
      rfl
  · have heq : b.appendWithHash (T := SemverString) s hash = b.appendWithoutPool s hash := by
      rw [appendWithHash, hlong, if_neg (by decide), hfound]
      simp only [Option.bind_eq_bind, Option.bind_some, hb.ptr, hall, if_neg hsame]
    rw [heq]
    exact appendWithoutPool_cases hb hlong hash

end Long

variable {stringHash : Bytes → Nat}

variable (stringHash) in
/-- **One string**: it is appended, or there is no room for it. -/
theorem append_cases (hb : b.Good buf) (hcap : b.cap < 2 ^ 31) (s : Bytes) :
    (b.cap < b.len + room s ∧ append (T := SemverString) stringHash b s = none) ∨
    ∃ h b' buf', Appended b buf s h b' buf' ∧ append stringHash b s = some (h, b') := by
  cases hlong : canInline s with
  | false =>
    cases hpool : b.stringPool (stringHash s) with
    | none => exact appendWithHash_new hb hlong hpool
    | some value => exact appendWithHash_found hb hlong hcap hpool
  | true =>
    refine .inr ⟨init 0 s, b, buf, ⟨hb, ?_, List.prefix_refl _, rfl, Nat.le_add_right _ _⟩, ?_⟩
    · rw [SemverString.init_eq, if_pos hlong]
      exact .inline hlong
    · rw [append, appendWithHash, if_pos hlong, allocatedSlice_eq hb.toSized]
      rfl

/-! ## Appending all -/

theorem appendAll_cons (b : StringBuilder) (s : Bytes) (slices : List Bytes) :
    appendAll stringHash SemverString b (s :: slices) =
      (append stringHash b s).bind fun r => (appendAll stringHash SemverString r.2 slices).bind
        fun rs => some (r.1 :: rs.1, rs.2) := rfl

/-- **A run**: every handle is good for the buffer at the end. -/
theorem appendAll_holds (hb : b.Good buf) (hcap : b.cap < 2 ^ 31) {handles : List SemverString}
    (h : appendAll stringHash SemverString b slices = some (handles, b')) :
    ∃ buf', b'.Good buf' ∧ b'.cap = b.cap ∧ b.Written buf <+: b'.Written buf' ∧
      List.Forall₂ (Holds (b'.Written buf')) slices handles := by
  induction slices generalizing b buf handles with
  | nil =>
    obtain ⟨rfl, rfl⟩ := Prod.mk.inj (Option.some.inj h)
    exact ⟨buf, hb, rfl, List.prefix_refl _, .nil⟩
  | cons s slices ih =>
    rw [appendAll_cons] at h
    rcases append_cases stringHash hb hcap s with
      ⟨-, hnone⟩ | ⟨handle, b₁, buf₁, happended, hsome⟩
    · rw [hnone] at h
      exact absurd h (by simp)
    · rw [hsome, Option.bind_some] at h
      obtain ⟨⟨rest, b₂⟩, hrest, heq⟩ := Option.bind_eq_some_iff.mp h
      obtain ⟨rfl, rfl⟩ := Prod.mk.inj (Option.some.inj heq)
      obtain ⟨buf', hgood, hcap', hgrows, hall⟩ := ih happended.good (happended.cap ▸ hcap) hrest
      obtain ⟨more, hmore⟩ := hgrows
      refine ⟨buf', hgood, hcap'.trans happended.cap,
        happended.grows.trans ⟨more, hmore⟩, .cons ?_ hall⟩
      exact hmore ▸ SemverString.holds_append happended.holds more

/-- **Enough room**: a run that takes no more than was counted does not panic. -/
theorem appendAll_isSome (hb : b.Good buf) (hcap : b.cap < 2 ^ 31)
    (hroom : b.len + (slices.map room).sum ≤ b.cap) :
    (appendAll stringHash SemverString b slices).isSome = true := by
  induction slices generalizing b buf with
  | nil => rfl
  | cons s slices ih =>
    rw [List.map_cons, List.sum_cons] at hroom
    rw [appendAll_cons]
    rcases append_cases stringHash hb hcap s with
      ⟨hfull, -⟩ | ⟨handle, b₁, buf₁, happended, hsome⟩
    · omega
    · have hlen := happended.len
      have hcap₁ := happended.cap
      have hrest := ih happended.good (hcap₁ ▸ hcap) (by omega)
      obtain ⟨rs, hrs⟩ := Option.isSome_iff_exists.mp hrest
      rw [hsome, Option.bind_some, hrs]
      rfl

/-! ## Counting -/

theorem foldl_count (hpool : b.stringPool = fun _ => none) (slices : List Bytes) :
    slices.foldl (count stringHash) b = { b with cap := b.cap + (slices.map room).sum } := by
  induction slices generalizing b with
  | nil => rfl
  | cons s slices ih =>
    have hcount : count stringHash b s = { b with cap := b.cap + room s } := by
      unfold count countWithHash room
      cases canInline s with
      | true => rfl
      | false =>
        rw [hpool]
        rfl
    have hrest := @ih { b with cap := b.cap + room s } hpool
    rw [List.foldl_cons, hcount, hrest, List.map_cons, List.sum_cons]
    dsimp only
    rw [Nat.add_assoc]

theorem counted_cap (slices : List Bytes) :
    (counted stringHash slices).cap = (slices.map room).sum := by
  rw [counted, foldl_count rfl]
  exact Nat.zero_add _

variable (stringHash) in
theorem counted_good (slices : List Bytes) : ∃ buf, (counted stringHash slices).Good buf := by
  refine ⟨_, ⟨rfl, ?_, ?_⟩, ?_⟩
  · rw [List.length_replicate]
    rfl
  · rw [counted, foldl_count rfl]
    exact Nat.zero_le _
  · intro hash value hvalue
    rw [counted, foldl_count rfl] at hvalue
    exact absurd hvalue (by simp [allocate, default])

/-- **Counting**: whatever the hashes, strings that were counted, each as often as it is appended,
have their room. -/
theorem appendAll_counted {counts : List Bytes} (hsub : slices.Subperm counts)
    (hcap : (counted stringHash counts).cap < 2 ^ 31) :
    (appendAll stringHash SemverString (counted stringHash counts) slices).isSome = true := by
  obtain ⟨buf, hgood⟩ := counted_good stringHash counts
  refine appendAll_isSome hgood hcap ?_
  have hlen : (counted stringHash counts).len = 0 := by
    rw [counted, foldl_count rfl]
    rfl
  have hle : (slices.map room).sum ≤ (counts.map room).sum := by
    obtain ⟨mid, hperm, hsublist⟩ := hsub
    rw [← (hperm.map room).sum_eq]
    exact (hsublist.map room).sum_le_sum fun _ _ => Nat.zero_le _
  rw [hlen, counted_cap, Nat.zero_add]
  exact hle

/-! ## Handles with a hash -/

theorem value_fromInit (off : Nat) (slice : Bytes) (hash : Nat) :
    (BuilderStringType.fromInit off slice hash : ExternalSemverString).value =
      BuilderStringType.fromInit off slice hash := rfl

theorem value_fromPooled (value : SemverString) (hash : Nat) :
    (BuilderStringType.fromPooled value hash : ExternalSemverString).value =
      BuilderStringType.fromPooled value hash := rfl

theorem appendWithoutPool_external (b : StringBuilder) (s : Bytes) (hash : Nat) :
    (b.appendWithoutPool (T := ExternalSemverString) s hash).map (fun r => (r.1.value, r.2)) =
      b.appendWithoutPool s hash := by
  unfold appendWithoutPool
  split <;> simp [Option.map_bind, value_fromInit]

/-- A handle with a hash is the handle without. -/
theorem append_external (b : StringBuilder) (s : Bytes) :
    (append (T := ExternalSemverString) stringHash b s).map (fun r => (r.1.value, r.2)) =
      append stringHash b s := by
  unfold append appendWithHash
  split
  · simp [Option.map_bind, value_fromInit]
  · split
    · simp [Option.map_bind, value_fromPooled, apply_ite (Option.map _),
        appendWithoutPool_external]
    · simp [Option.map_bind, value_fromPooled]

variable (stringHash) in
theorem appendAll_external (b : StringBuilder) (slices : List Bytes) :
    (appendAll stringHash ExternalSemverString b slices).map
        (fun r => (r.1.map ExternalSemverString.value, r.2)) =
      appendAll stringHash SemverString b slices := by
  induction slices generalizing b with
  | nil => rfl
  | cons s slices ih =>
    rw [appendAll_cons, ← append_external]
    show ((append stringHash b s).bind fun r =>
      (appendAll stringHash ExternalSemverString r.2 slices).bind fun rs => some (r.1 :: rs.1, rs.2)).map _ = _
    cases append (T := ExternalSemverString) stringHash b s with
    | none => rfl
    | some r =>
      rw [Option.map_some, Option.bind_some, Option.bind_some, ← ih r.2]
      cases appendAll stringHash ExternalSemverString r.2 slices with
      | none => rfl
      | some rs => rfl

end StringBuilder

/-! ## Interned strings -/

open StringBuilder

/-- How a string of a buffer below 2^31 bytes gets its handle. -/
inductive Interned : (buf s : Bytes) → SemverString → Prop
  | init {buf s : Bytes} {off : Nat} : buf.length < 2 ^ 31 →
      Lib.slice buf off s.length = some s → Interned buf s (SemverString.init off s)
  /-- The buffer may have got more strings since. -/
  | initAppendIfNeeded {buf s more : Bytes} {r : SemverString × Bytes} :
      (r.2 ++ more).length < 2 ^ 31 → SemverString.initAppendIfNeeded buf s = r →
      Interned (r.2 ++ more) s r.1
  | builder {stringHash : Bytes → Nat} {counts slices : List Bytes} {handles : List SemverString}
      {b : StringBuilder} {buf s : Bytes} {h : SemverString} :
      (counted stringHash counts).cap < 2 ^ 31 →
      appendAll stringHash SemverString (counted stringHash counts) slices = some (handles, b) →
      b.allocatedSlice = some buf → (s, h) ∈ slices.zip handles → Interned buf s h
  | external {stringHash : Bytes → Nat} {counts slices : List Bytes}
      {handles : List ExternalSemverString} {b : StringBuilder} {buf s : Bytes} {h : ExternalSemverString} :
      (counted stringHash counts).cap < 2 ^ 31 →
      appendAll stringHash ExternalSemverString (counted stringHash counts) slices = some (handles, b) →
      b.allocatedSlice = some buf → (s, h) ∈ slices.zip handles → Interned buf s h.value

theorem holds_builder {stringHash : Bytes → Nat} {counts slices : List Bytes}
    {handles : List SemverString} {b : StringBuilder} {buf s : Bytes} {h : SemverString}
    (hcap : (counted stringHash counts).cap < 2 ^ 31)
    (hrun : appendAll stringHash SemverString (counted stringHash counts) slices =
      some (handles, b)) (hbuf : b.allocatedSlice = some buf) (hmem : (s, h) ∈ slices.zip handles) :
    buf.length < 2 ^ 31 ∧ Holds buf s h := by
  obtain ⟨start, hgood⟩ := counted_good stringHash counts
  obtain ⟨buf', hgood', hcap', -, hall⟩ := appendAll_holds hgood hcap hrun
  obtain rfl : buf' = buf := Option.some.inj ((allocatedSlice_eq hgood'.toSized).symm.trans hbuf)
  have hholds := List.forall₂_iff_zip.mp hall |>.2 hmem
  have hsplit := SemverString.holds_append hholds (buf'.drop b.len)
  rw [Written, List.take_append_drop] at hsplit
  exact ⟨by rw [hgood'.length, hcap']; exact hcap, hsplit⟩

theorem holds_of_interned {buf s : Bytes} {h : SemverString} (hi : Interned buf s h) :
    buf.length < 2 ^ 31 ∧ Holds buf s h := by
  cases hi with
  | init hbuf hslice =>
    refine ⟨hbuf, ?_⟩
    rw [SemverString.init_eq]
    split
    · rename_i hin
      exact .inline hin
    · rename_i hin
      exact .packed (Bool.eq_false_iff.mpr hin) hslice
  | @initAppendIfNeeded front _ _ _ hbuf hr =>
    refine ⟨hbuf, SemverString.holds_append ?_ _⟩
    rw [SemverString.initAppendIfNeeded_eq] at hr
    split at hr
    · rename_i hin
      obtain rfl := hr
      exact .inline hin
    · rename_i hin
      obtain rfl := hr
      refine .packed (Bool.eq_false_iff.mpr hin) ?_
      have hoff : (front ++ s).length - s.length = front.length := by
        rw [List.length_append]
        omega
      have happend : Lib.slice (front ++ (s ++ [])) ((front ++ s).length - s.length) s.length =
          some s := slice_append hoff rfl
      rwa [List.append_nil] at happend
  | builder hcap hrun hbuf hmem => exact holds_builder hcap hrun hbuf hmem
  | @external stringHash counts slices handles b _ _ h hcap hrun hbuf hmem =>
    have hext := appendAll_external stringHash (counted stringHash counts) slices
    rw [hrun, Option.map_some] at hext
    refine holds_builder hcap hext.symm hbuf ?_
    rw [List.zip_map_right]
    exact List.mem_map_of_mem (f := Prod.map id ExternalSemverString.value) hmem

/-- **Interned strings are canonical**: the handle of a string without zero bytes says which
string it is, and two handles are equal when their strings are.  A builder that counted the
strings, each as often as it is appended, has room for them; and it does not write where it
has no room. -/
theorem interned_canonical :
    (∀ buf s h, Interned buf s h → NulFree s →
      h.slice buf = s ∧ h.len = s.length ∧ (h.isEmpty = true ↔ s = [])) ∧
    (∀ buf s h buf' s' h', Interned buf s h → Interned buf' s' h' → NulFree s → NulFree s' →
      (h.eql h' buf buf' = true ↔ s = s')) ∧
    (∀ stringHash counts slices, (counted stringHash counts).cap < 2 ^ 31 →
      (slices.Subperm counts →
        (appendAll stringHash SemverString (counted stringHash counts) slices).isSome = true) ∧
      ∀ handles b,
        appendAll stringHash SemverString (counted stringHash counts) slices = some (handles, b) →
        handles.length = slices.length ∧ b.len ≤ (counted stringHash counts).cap ∧
          b.allocatedSlice.map List.length = some (counted stringHash counts).cap) := by
  refine ⟨?_, ?_, ?_⟩
  · intro buf s h hi hs
    obtain ⟨hbuf, hholds⟩ := holds_of_interned hi
    exact ⟨SemverString.slice_of_holds hbuf (fun _ => hs) hholds,
      SemverString.len_of_holds hbuf hs hholds, SemverString.isEmpty_of_holds hbuf hs hholds⟩
  · intro buf s h buf' s' h' hi hi' hs hs'
    obtain ⟨hbuf, hholds⟩ := holds_of_interned hi
    obtain ⟨hbuf', hholds'⟩ := holds_of_interned hi'
    exact SemverString.eql_iff hbuf hbuf' hs hs' hholds hholds'
  · intro stringHash counts slices hcap
    refine ⟨fun hsub => appendAll_counted hsub hcap, fun handles b hrun => ?_⟩
    obtain ⟨start, hgood⟩ := counted_good stringHash counts
    obtain ⟨buf', hgood', hcap', -, hall⟩ := appendAll_holds hgood hcap hrun
    refine ⟨hall.length_eq.symm, hcap' ▸ hgood'.len_le, ?_⟩
    rw [allocatedSlice_eq hgood'.toSized, Option.map_some, hgood'.length, hcap']

/-- Eight bytes of which the last is no ASCII, and the same in another buffer. -/
theorem interned_canonical_accent :
    let s : Bytes := [99, 97, 102, 101, 45, 49, 195, 169]
    (SemverString.init 0 s).eql (SemverString.init 2 s) s (45 :: 45 :: s) = true ↔ s = s :=
  interned_canonical.2.1 _ _ _ _ _ _ (.init (by decide) (by decide)) (.init (by decide) (by decide))
    (by simp [NulFree]) (by simp [NulFree])

end OhosBun.Semver
