/-
# `OhosBun.Lib.Buffer` — reading and writing inside a byte string

`window bs off len` is what stands in `bs` from `off` on, `patch bs off new` is `bs` with
`new` written over it there.  Both are total; `read` and `write` are the checked forms,
which panic past the end.

A buffer that is filled piece by piece is read through `window_append_left`,
`window_append_right` and `window_patch`, `window_patch_of_disjoint`.
-/
import OhosBun.Lib.Outcome

namespace OhosBun.Lib

/-- What stands in a byte string from an offset on. -/
def window (bs : Bytes) (off len : Nat) : Bytes := (bs.drop off).take len

/-- A byte string with some bytes written over it. -/
def patch (bs : Bytes) (off : Nat) (new : Bytes) : Bytes :=
  bs.take off ++ new ++ bs.drop (off + new.length)

section Window
variable {as bs : Bytes} {off len : Nat}

theorem window_zero_length (bs : Bytes) : window bs 0 bs.length = bs := by
  simp [window]

theorem length_window (h : off + len ≤ bs.length) : (window bs off len).length = len := by
  simp only [window, List.length_take, List.length_drop]
  omega

theorem getElem?_window (bs : Bytes) (off len i : Nat) :
    (window bs off len)[i]? = if i < len then bs[off + i]? else none := by
  rw [window, List.getElem?_take]
  simp [List.getElem?_drop]

theorem window_append_left (h : off + len ≤ as.length) :
    window (as ++ bs) off len = window as off len := by
  rw [window, window, List.drop_append_of_le_length (by omega),
    List.take_append_of_le_length (by simp only [List.length_drop]; omega)]

theorem window_append_right (h : as.length ≤ off) :
    window (as ++ bs) off len = window bs (off - as.length) len := by
  rw [window, window, List.drop_append, List.drop_eq_nil_of_le h, List.nil_append]

/-- A window into a piece in the middle. -/
theorem window_middle {pre mid post : Bytes} {o : Nat} (hoff : off = pre.length + o)
    (h : o + len ≤ mid.length) : window (pre ++ mid ++ post) off len = window mid o len := by
  subst hoff
  rw [window_append_left (by rw [List.length_append]; omega),
    window_append_right (Nat.le_add_right _ _), Nat.add_sub_cancel_left]

/-- A window in two parts. -/
theorem window_add {rest : Nat} :
    window bs off (len + rest) = window bs off len ++ window bs (off + len) rest := by
  rw [window, window, window, List.take_add, List.drop_drop]

/-- A window of a window. -/
theorem window_window {o l : Nat} (h : off + len ≤ l) :
    window (window bs o l) off len = window bs (o + off) len := by
  apply List.ext_getElem?
  intro i
  simp only [getElem?_window]
  split
  next hi => rw [if_pos (by omega), Nat.add_assoc]
  next => rfl

end Window

section Patch
variable {as bs new : Bytes} {o off len : Nat}

theorem length_patch (off : Nat) (new : Bytes) {n : Nat} (hbs : bs.length = n) (h : off + new.length ≤ n) :
    (patch bs off new).length = n := by
  simp only [patch, List.length_append, List.length_take, List.length_drop]
  omega

theorem getElem?_patch (h : off + new.length ≤ bs.length) (i : Nat) :
    (patch bs off new)[i]? = if off ≤ i ∧ i < off + new.length then new[i - off]? else bs[i]? := by
  have htake : (bs.take off).length = off := by
    rw [List.length_take]
    omega
  rw [patch, List.append_assoc, List.getElem?_append, List.getElem?_append, htake]
  split
  next hi => rw [List.getElem?_take, if_pos hi, if_neg (by omega)]
  next hi =>
    split
    next hlt => rw [if_pos (by omega)]
    next hlt =>
      rw [if_neg (by omega), List.getElem?_drop]
      congr 1
      omega

/-- What was written is read back. -/
theorem window_patch {len : Nat} (hnew : new.length = len) (h : off + len ≤ bs.length) :
    window (patch bs off new) off len = new := by
  subst hnew
  apply List.ext_getElem?
  intro i
  rw [getElem?_window, getElem?_patch h]
  split
  next hi => rw [if_pos (by omega), Nat.add_sub_cancel_left]
  next hi => rw [List.getElem?_eq_none (by omega)]

/-- The rest is read as before. -/
theorem window_patch_of_disjoint (h : o + new.length ≤ bs.length)
    (hdisj : off + len ≤ o ∨ o + new.length ≤ off) :
    window (patch bs o new) off len = window bs off len := by
  apply List.ext_getElem?
  intro i
  rw [getElem?_window, getElem?_window, getElem?_patch h]
  split
  next hi => rw [if_neg (by omega)]
  next => rfl

/-- Writing twice over the same bytes. -/
theorem patch_patch {new' : Bytes} (hnew : new'.length = new.length)
    (h : off + new.length ≤ bs.length) : patch (patch bs off new) off new' = patch bs off new' := by
  have hlen := length_patch off new rfl h
  apply List.ext_getElem?
  intro i
  rw [getElem?_patch (by omega), getElem?_patch h, getElem?_patch (by omega), hnew]
  split <;> rfl

/-- Writing in two places, in either order. -/
theorem patch_comm {new' : Bytes} {o' : Nat} (h : o + new.length ≤ bs.length)
    (h' : o' + new'.length ≤ bs.length)
    (hdisj : o + new.length ≤ o' ∨ o' + new'.length ≤ o) :
    patch (patch bs o new) o' new' = patch (patch bs o' new') o new := by
  have hlen := length_patch o new rfl h
  have hlen' := length_patch o' new' rfl h'
  apply List.ext_getElem?
  intro i
  rw [getElem?_patch (by omega), getElem?_patch h, getElem?_patch (by omega), getElem?_patch h']
  split
  next hi => rw [if_neg (by omega)]
  next => rfl

theorem patch_append_left (h : off + new.length ≤ as.length) :
    patch (as ++ bs) off new = patch as off new ++ bs := by
  rw [patch, patch, List.take_append_of_le_length (by omega),
    List.drop_append_of_le_length h, List.append_assoc, List.append_assoc, List.append_assoc]

theorem patch_append_right (h : as.length ≤ off) :
    patch (as ++ bs) off new = as ++ patch bs (off - as.length) new := by
  have hoff : off + new.length - as.length = off - as.length + new.length := by omega
  rw [patch, patch, List.take_append, List.drop_append, List.take_of_length_le h,
    List.drop_eq_nil_of_le (by omega), List.nil_append, hoff]
  simp only [List.append_assoc]

/-- A write into a piece in the middle. -/
theorem patch_middle {pre mid post : Bytes} (hoff : off = pre.length + o)
    (h : o + new.length ≤ mid.length) :
    patch (pre ++ mid ++ post) off new = pre ++ patch mid o new ++ post := by
  subst hoff
  rw [patch_append_left (by rw [List.length_append]; omega),
    patch_append_right (Nat.le_add_right _ _), Nat.add_sub_cancel_left]

/-- A whole piece is written over. -/
theorem patch_self (h : new.length = bs.length) : patch bs 0 new = new := by
  simp [patch, h]

end Patch

/-! ## Checked access -/

section Checked
variable {ε : Type} {bs new : Bytes} {off len : Nat}

/-- `bs[off..off + len]`. -/
def read (bs : Bytes) (off len : Nat) : Outcome ε Bytes :=
  if off + len ≤ bs.length then .ok (window bs off len) else .panic

/-- Copies some bytes into `bs[off..]`. -/
def write (bs : Bytes) (off : Nat) (new : Bytes) : Outcome ε Bytes :=
  if off + new.length ≤ bs.length then .ok (patch bs off new) else .panic

/-- The little-endian number of `len` bytes. -/
def leAt (bs : Bytes) (off len : Nat) : Nat := ofLe (window bs off len)

/-- Reads a little-endian number of `len` bytes. -/
def readLe (bs : Bytes) (off len : Nat) : Outcome ε Nat := do
  let word ← read bs off len
  .ok (ofLe word)

theorem read_of_le (h : off + len ≤ bs.length) :
    (read bs off len : Outcome ε Bytes) = .ok (window bs off len) := if_pos h

theorem write_of_le (h : off + new.length ≤ bs.length) :
    (write bs off new : Outcome ε Bytes) = .ok (patch bs off new) := if_pos h

theorem write_eq_ok {bs' : Bytes} : (write bs off new : Outcome ε Bytes) = .ok bs' ↔
    off + new.length ≤ bs.length ∧ patch bs off new = bs' := by
  unfold write
  split <;> simp_all

theorem readLe_of_le (h : off + len ≤ bs.length) :
    (readLe bs off len : Outcome ε Nat) = .ok (leAt bs off len) := by
  rw [readLe, read_of_le h, Outcome.ok_bind, leAt]

theorem ofLe_lt (bs : Bytes) : ofLe bs < 256 ^ bs.length := by
  induction bs with
  | nil => simp [ofLe]
  | cons b bs ih =>
    have hb := b.toNat_lt
    rw [ofLe, List.length_cons, Nat.pow_succ]
    omega

theorem leAt_lt (bs : Bytes) (off len : Nat) : leAt bs off len < 256 ^ len := by
  have hlen : (window bs off len).length ≤ len := by simp [window]
  exact (ofLe_lt _).trans_le (Nat.pow_le_pow_right (by decide) hlen)

end Checked

end OhosBun.Lib
