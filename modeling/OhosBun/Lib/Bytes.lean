/-
# `OhosBun.Lib.Bytes` — byte strings, little-endian words, a flat memory

Three small things that every binary format of the repository needs and that
name none of them:

  * `leBytes n v`, the `n` little-endian bytes of `v`, and `ofLe`, the reader;
    `ofLe (leBytes n v) = v % 256 ^ n`; and the same in network order
    (`beBytes`, `ofBe`);
  * `slice bs off len`, the checked sub-slice `bs[off..off + len]`: `none` when
    it would run past the end, which is where the Rust code panics;
  * `Mem`, a memory addressed by `Nat`, with `writeAt` and `readAt` and the two
    frame rules.  Code that fills a spare buffer through several cursors and
    then moves the pieces together is modelled over `Mem`, so that overlapping
    writes would really overlap.
-/
import Mathlib.Data.List.Basic
import Mathlib.Tactic.Ring

namespace OhosBun.Lib

abbrev Bytes := List UInt8

/-- The bytes of an ASCII text. -/
def ascii (s : String) : Bytes := s.toList.map fun c => c.val.toUInt8

/-- The bytes of a literal, without a run of the decoder. -/
theorem ascii_ofList (cs : List Char) :
    ascii (String.ofList cs) = cs.map fun c => c.val.toUInt8 := by
  rw [ascii, String.toList_ofList]

/-! ## Little-endian words -/

/-- The `n` little-endian bytes of `v`. -/
def leBytes : Nat → Nat → Bytes
  | 0, _ => []
  | n + 1, v => UInt8.ofNat v :: leBytes n (v / 256)

/-- The number whose little-endian bytes are given. -/
def ofLe : Bytes → Nat
  | [] => 0
  | b :: bs => b.toNat + 256 * ofLe bs

@[simp] theorem leBytes_length (n v : Nat) : (leBytes n v).length = n := by
  induction n generalizing v with
  | zero => rfl
  | succ n ih => simp [leBytes, ih]

theorem ofLe_leBytes (n v : Nat) : ofLe (leBytes n v) = v % 256 ^ n := by
  induction n generalizing v with
  | zero => simp [leBytes, ofLe, Nat.mod_one]
  | succ n ih =>
    have hb : (UInt8.ofNat v).toNat = v % 256 := by simp
    rw [leBytes, ofLe, ih, hb, Nat.pow_succ, Nat.mul_comm (256 ^ n) 256, Nat.mod_mul]

variable {n v off len : Nat} {bs : Bytes}

theorem ofLe_leBytes_of_lt (h : v < 256 ^ n) : ofLe (leBytes n v) = v := by
  rw [ofLe_leBytes, Nat.mod_eq_of_lt h]

/-! ## Network order -/

/-- The `n` bytes of `v` in network order. -/
def beBytes (n v : Nat) : Bytes := (leBytes n v).reverse

/-- The number whose bytes are given in network order. -/
def ofBe (bs : Bytes) : Nat := ofLe bs.reverse

theorem beBytes_length (n v : Nat) : (beBytes n v).length = n := by
  simp [beBytes]

theorem ofBe_beBytes (h : v < 256 ^ n) : ofBe (beBytes n v) = v := by
  rw [ofBe, beBytes, List.reverse_reverse, ofLe_leBytes_of_lt h]

/-! ## Checked slices -/

/-- `bs[off..off + len]`, or `none` when it runs past the end. -/
def slice (bs : Bytes) (off len : Nat) : Option Bytes :=
  if off + len ≤ bs.length then some ((bs.drop off).take len) else none

/-- The slice that starts where a known piece starts is that piece. -/
theorem slice_append {pre mid post : Bytes} (hoff : off = pre.length) (hlen : len = mid.length) :
    slice (pre ++ (mid ++ post)) off len = some mid := by
  subst hoff; subst hlen
  simp [slice]

/-! ## A flat memory -/

/-- Memory: a byte at every address. -/
structure Mem where
  get : Nat → UInt8

/-- Store `bs` from address `off` on. -/
def Mem.writeAt (m : Mem) (off : Nat) (bs : Bytes) : Mem where
  get i := if off ≤ i then (bs[i - off]?).getD (m.get i) else m.get i

/-- The `len` bytes from address `off` on. -/
def Mem.readAt (m : Mem) (off len : Nat) : Bytes :=
  (List.range len).map fun i => m.get (off + i)

/-- Move `len` bytes from `src` to `dst` (`memmove`). -/
def Mem.copy (m : Mem) (src dst len : Nat) : Mem := m.writeAt dst (m.readAt src len)

@[simp] theorem Mem.readAt_length (m : Mem) (off len : Nat) :
    (m.readAt off len).length = len := by
  simp [Mem.readAt]

theorem Mem.readAt_append (m : Mem) (off a b : Nat) :
    m.readAt off (a + b) = m.readAt off a ++ m.readAt (off + a) b := by
  simp [Mem.readAt, List.range_add, Function.comp_def, Nat.add_assoc]

/-- A write is not seen below or above the written range. -/
theorem Mem.get_writeAt_of_disjoint (m : Mem) {i : Nat} (h : i < off ∨ off + bs.length ≤ i) :
    (m.writeAt off bs).get i = m.get i := by
  simp only [Mem.writeAt]
  by_cases hle : off ≤ i
  · rw [if_pos hle, List.getElem?_eq_none (by omega)]
    rfl
  · rw [if_neg hle]

/-- Frame rule: reading a range that a write does not touch. -/
theorem Mem.readAt_writeAt_of_disjoint (m : Mem) {o : Nat} (h : o + len ≤ off ∨ off + bs.length ≤ o) :
    (m.writeAt off bs).readAt o len = m.readAt o len := by
  apply List.map_congr_left
  intro i hi
  have hlt : i < len := List.mem_range.mp hi
  exact m.get_writeAt_of_disjoint (by omega)

/-- Reading back exactly what was written. -/
theorem Mem.readAt_writeAt (m : Mem) (off : Nat) (bs : Bytes) :
    (m.writeAt off bs).readAt off bs.length = bs := by
  apply List.ext_getElem
  · simp
  · intro i _ h₂
    simp [Mem.readAt, Mem.writeAt, h₂]

/-! ### Assertions: these bytes stand at this address -/

/-- The memory holds `bs` from `off` on. -/
def Mem.Holds (m : Mem) (off : Nat) (bs : Bytes) : Prop := m.readAt off bs.length = bs

namespace Mem.Holds
variable {m : Mem} {off : Nat} {bs cs : Bytes}

theorem nil : m.Holds off [] := rfl

theorem write (m : Mem) (off : Nat) (bs : Bytes) : (m.writeAt off bs).Holds off bs :=
  m.readAt_writeAt off bs

/-- A write elsewhere keeps an assertion. -/
theorem frame (h : m.Holds off bs) {o : Nat} {ws : Bytes}
    (hd : off + bs.length ≤ o ∨ o + ws.length ≤ off) : (m.writeAt o ws).Holds off bs := by
  unfold Mem.Holds
  rw [m.readAt_writeAt_of_disjoint (by omega)]
  exact h

theorem append (h : m.Holds off bs) {o : Nat} (ho : o = off + bs.length) (h' : m.Holds o cs) :
    m.Holds off (bs ++ cs) := by
  subst ho
  unfold Mem.Holds at *
  rw [List.length_append, Mem.readAt_append, h, h']

theorem left (h : m.Holds off (bs ++ cs)) : m.Holds off bs := by
  have hs : m.readAt off (bs ++ cs).length = bs ++ cs := h
  rw [List.length_append, Mem.readAt_append] at hs
  exact (List.append_inj hs (by simp)).1

theorem right (h : m.Holds off (bs ++ cs)) : m.Holds (off + bs.length) cs := by
  have hs : m.readAt off (bs ++ cs).length = bs ++ cs := h
  rw [List.length_append, Mem.readAt_append] at hs
  exact (List.append_inj hs (by simp)).2

/-- Writing at a cursor extends the lane behind it. -/
theorem snoc (h : m.Holds off bs) {o : Nat} (ho : o = off + bs.length) (ws : Bytes) :
    (m.writeAt o ws).Holds off (bs ++ ws) :=
  (h.frame (by omega)).append ho (write m o ws)

theorem get (h : m.Holds off bs) {i : Nat} (hi : i < bs.length) : m.get (off + i) = bs[i] := by
  have := congrArg (·[i]?) (show m.readAt off bs.length = bs from h)
  simpa [Mem.readAt, hi] using this

/-- Updating one byte of what is held. -/
theorem modify (h : m.Holds off bs) (i : Nat) (f : UInt8 → UInt8) :
    (m.writeAt (off + i) [f (m.get (off + i))]).Holds off (bs.modify i f) := by
  apply List.ext_getElem
  · simp
  · intro j hj hj'
    have hlen : j < bs.length := by simpa using hj'
    have hget := h.get hlen
    simp only [Mem.readAt, List.getElem_map, List.getElem_range, List.getElem_modify]
    by_cases hji : i = j
    · subst hji
      simp [Mem.writeAt, hget]
    · rw [m.get_writeAt_of_disjoint (by simp only [List.length_singleton]; omega), hget,
        if_neg hji]

end Mem.Holds

/-! ## Standing at a position -/

/-- The bytes `rest` stand at position `pos` of `bs`. -/
def StandsAt (bs : Bytes) (pos : Nat) (rest : Bytes) : Prop :=
  ∃ pre post, bs = pre ++ (rest ++ post) ∧ pos = pre.length

namespace StandsAt
variable {bs : Bytes} {pos : Nat} {xs ys : Bytes}

theorem left (h : StandsAt bs pos (xs ++ ys)) : StandsAt bs pos xs := by
  obtain ⟨pre, post, rfl, rfl⟩ := h
  exact ⟨pre, ys ++ post, by simp, rfl⟩

theorem right (h : StandsAt bs pos (xs ++ ys)) : StandsAt bs (pos + xs.length) ys := by
  obtain ⟨pre, post, rfl, rfl⟩ := h
  exact ⟨pre ++ xs, post, by simp, by simp⟩

theorem slice (h : StandsAt bs pos xs) : Lib.slice bs pos xs.length = some xs := by
  obtain ⟨pre, post, rfl, rfl⟩ := h
  exact slice_append rfl rfl

theorem getElem? (h : StandsAt bs pos xs) {i : Nat} (hi : i < xs.length) :
    bs[pos + i]? = xs[i]? := by
  obtain ⟨pre, post, rfl, rfl⟩ := h
  rw [List.getElem?_append_right (by omega), Nat.add_sub_cancel_left,
    List.getElem?_append_left hi]

theorem head {x : UInt8} (h : StandsAt bs pos (x :: xs)) : bs[pos]? = some x :=
  h.getElem? (i := 0) (by simp)

theorem tail {x : UInt8} (h : StandsAt bs pos (x :: xs)) : StandsAt bs (pos + 1) xs := by
  have h' : StandsAt bs pos ([x] ++ xs) := h
  exact h'.right

theorem length_le (h : StandsAt bs pos xs) : pos + xs.length ≤ bs.length := by
  obtain ⟨pre, post, rfl, rfl⟩ := h
  simp only [List.length_append]
  omega

/-- What stands in a piece stands in the whole. -/
theorem trans (h : StandsAt bs pos xs) {o : Nat} (h' : StandsAt xs o ys) :
    StandsAt bs (pos + o) ys := by
  obtain ⟨pre, post, rfl, rfl⟩ := h
  obtain ⟨pre', post', rfl, rfl⟩ := h'
  exact ⟨pre ++ pre', post' ++ post, by simp, by simp⟩

/-- A whole string stands at its own front. -/
theorem refl (bs : Bytes) : StandsAt bs 0 bs := ⟨[], [], by simp, rfl⟩

/-- The piece of the `i`-th element, in the pieces of a list. -/
theorem flatMap {α : Type*} {l : List α} {i : Nat} {a : α} (hi : l[i]? = some a) (f : α → Bytes) :
    StandsAt (l.flatMap f) ((l.take i).flatMap f).length (f a) := by
  obtain ⟨hlt, rfl⟩ := List.getElem?_eq_some_iff.mp hi
  refine ⟨(l.take i).flatMap f, (l.drop (i + 1)).flatMap f, ?_, rfl⟩
  conv_lhs => rw [← List.take_append_drop i l, List.drop_eq_getElem_cons hlt]
  simp only [List.flatMap_append, List.flatMap_cons]

end StandsAt

end OhosBun.Lib
