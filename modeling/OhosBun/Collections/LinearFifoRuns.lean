/-
# `OhosBun.Collections.LinearFifoRuns` — runs of the ring queue

An operation of the queue with its reply (`step`), and what it should do to a list
(`Serves`).  A call that fails leaves the list as it is, and fails for the room.

Every run from a queue that was just made is a run of the list (`run_refines`), as
long as no call of it is one that does not return (`Clear`).
-/
import OhosBun.Collections.LinearFifo
import OhosBun.Lib.Refinement

namespace OhosBun.Collections.LinearFifo

open OhosBun.Lib

/-! ## Operations -/

inductive Op (α : Type)
  | write (src : List α)
  | writeItem (item : α)
  | read (dst : Nat)
  | readItem
  | discard (count : Nat)
  | unget (src : List α)
  | orderedRemoveItem (offset : Nat)
  | peekItem (offset : Nat)
  | ensureTotalCapacity (size : UInt64)
  | ensureUnusedCapacity (size : UInt64)
  deriving DecidableEq

inductive Reply (α : Type)
  | done
  | items (xs : List α)
  | item (x : Option α)
  | error (e : AllocError)
  deriving DecidableEq

section Runs
variable {α : Type} (k : Storage α)

def Reply.ofExcept : Except AllocError Unit → Reply α
  | .ok () => .done
  | .error e => .error e

def step (f : LinearFifo α) : Op α → Option (LinearFifo α × Reply α)
  | .write src => (f.write k src).map fun (f, reply) => (f, .ofExcept reply)
  | .writeItem item => (f.writeItem k item).map fun (f, reply) => (f, .ofExcept reply)
  | .read dst => (f.read k dst).map fun (f, xs) => (f, .items xs)
  | .readItem => (f.readItem k).map fun (f, x) => (f, .item x)
  | .discard count => (f.discard k count).map fun f => (f, .done)
  | .unget src => (f.unget k src).map fun (f, reply) => (f, .ofExcept reply)
  | .orderedRemoveItem offset => (f.orderedRemoveItem k offset).map fun f => (f, .done)
  | .peekItem offset => (f.peekItem k offset).map fun x => (f, .item (some x))
  | .ensureTotalCapacity size =>
    (f.ensureTotalCapacity k size.toNat).map fun (f, reply) => (f, .ofExcept reply)
  | .ensureUnusedCapacity size =>
    (f.ensureUnusedCapacity k size.toNat).map fun (f, reply) => (f, .ofExcept reply)

/-- How many items there must be room for, of so many that are there. -/
def Op.needs (count : Nat) : Op α → Option Nat
  | .write src => some (count + src.length)
  | .writeItem _ => some (count + 1)
  | .unget src => some (count + src.length)
  | .ensureTotalCapacity size => some size.toNat
  | .ensureUnusedCapacity size => some (count + size.toNat)
  | _ => none

/-- A queue that is a list. -/
inductive Serves : List α → Op α → Reply α → List α → Prop
  | write (xs src : List α) : Serves xs (.write src) .done (xs ++ src)
  | writeItem (xs : List α) (item : α) : Serves xs (.writeItem item) .done (xs ++ [item])
  | read (xs : List α) (dst : Nat) : Serves xs (.read dst) (.items (xs.take dst)) (xs.drop dst)
  | readItem (xs : List α) : Serves xs .readItem (.item xs.head?) (xs.drop 1)
  | discard (xs : List α) (count : Nat) : Serves xs (.discard count) .done (xs.drop count)
  | unget (xs src : List α) : Serves xs (.unget src) .done (src ++ xs)
  | orderedRemoveItem (xs : List α) (offset : Nat) :
      Serves xs (.orderedRemoveItem offset) .done (xs.eraseIdx offset)
  | peekItem (xs : List α) (offset : Nat) : Serves xs (.peekItem offset) (.item xs[offset]?) xs
  | ensureTotalCapacity (xs : List α) (size : UInt64) : Serves xs (.ensureTotalCapacity size) .done xs
  | ensureUnusedCapacity (xs : List α) (size : UInt64) : Serves xs (.ensureUnusedCapacity size) .done xs
  | full (xs : List α) {op : Op α} {size : Nat} (hneeds : op.needs xs.length = some size)
      (hroom : Refines.NoRoom k size) : Serves xs op (.error .allocError) xs

/-- What the callers promise: an item that is discarded, removed or peeked at is there. -/
def Allowed (f : LinearFifo α) : Op α → Prop
  | .discard count => count ≤ f.readableLength
  | .orderedRemoveItem offset => offset < f.readableLength
  | .peekItem offset => offset < f.readableLength
  | _ => True

/-- A buffer that has to grow is turned to its end. -/
def Turned (f : LinearFifo α) (op : Op α) : Prop :=
  match op.needs f.count with
  | some size => Refines.Grows k f size
  | none => True

/-- No remainder modulo a capacity of zero. -/
def Divides (f : LinearFifo α) : Op α → Prop
  | .discard _ => f.buf.length = 0 → k.buffer.powersOfTwo = true
  | .unget src => src = [] → 0 < f.buf.length
  | _ => True

/-- The call returns. -/
def Clear (f : LinearFifo α) (op : Op α) : Prop := Turned k f op ∧ Divides k f op

instance (f : LinearFifo α) : (op : Op α) → Decidable (Allowed f op)
  | .discard _ => Nat.decLe _ _
  | .orderedRemoveItem _ => Nat.decLt _ _
  | .peekItem _ => Nat.decLt _ _
  | .write _ | .writeItem _ | .read _ | .readItem | .unget _ | .ensureTotalCapacity _
  | .ensureUnusedCapacity _ => .isTrue trivial

instance (f : LinearFifo α) (op : Op α) : Decidable (Turned k f op) :=
  match hneeds : op.needs f.count with
  | some size =>
    decidable_of_iff (k.buffer = .dynamic → f.buf.length < size → size < 2 ^ 64 →
      f.head + f.count ≤ f.buf.length ∨ (0 < k.sizeOf ∧ k.sizeOf ≤ pageSizeMin / 2))
      (by rw [Turned, hneeds]; rfl)
  | none => .isTrue (by rw [Turned, hneeds]; trivial)

instance (f : LinearFifo α) : (op : Op α) → Decidable (Divides k f op)
  | .discard _ => inferInstanceAs (Decidable (_ → _))
  | .unget src =>
    match src with
    | [] => decidable_of_iff (0 < f.buf.length) (by simp [Divides])
    | _ :: _ => .isTrue (by simp [Divides])
  | .write _ | .writeItem _ | .read _ | .readItem | .orderedRemoveItem _ | .peekItem _
  | .ensureTotalCapacity _ | .ensureUnusedCapacity _ => .isTrue trivial

instance (f : LinearFifo α) (op : Op α) : Decidable (Clear k f op) :=
  inferInstanceAs (Decidable (_ ∧ _))

variable {k} {f : LinearFifo α} {xs : List α}

theorem map_serves {r : Option (LinearFifo α × Except AllocError Unit)} {op : Op α} {ys : List α}
    {size : Nat} (hneeds : op.needs xs.length = some size) (hdone : Serves k xs op .done ys)
    (h : ∃ f' reply, r = some (f', reply) ∧
      ((reply = .ok () ∧ f'.Refines k ys) ∨
        (reply = .error .allocError ∧ f'.Refines k xs ∧ Refines.NoRoom k size))) :
    ∃ f' reply zs, r.map (fun (f, reply) => (f, .ofExcept reply)) = some (f', reply) ∧
      Serves k xs op reply zs ∧ f'.Refines k zs := by
  obtain ⟨f', reply, rfl, ⟨rfl, h'⟩ | ⟨rfl, h', hroom⟩⟩ := h
  · exact ⟨f', .done, ys, rfl, hdone, h'⟩
  · exact ⟨f', .error .allocError, xs, rfl, .full xs hneeds hroom, h'⟩

/-- Every operation is the list's. -/
theorem step_refines (h : f.Refines k xs) {op : Op α} (hallowed : Allowed f op) (hclear : Clear k f op) :
    ∃ f' reply ys, step k f op = some (f', reply) ∧ Serves k xs op reply ys ∧ f'.Refines k ys := by
  have hcount := h.count
  obtain ⟨hgrows, hreturns⟩ := hclear
  cases op with
  | write src =>
    exact map_serves rfl (.write xs src) (h.write src hgrows)
  | writeItem item =>
    exact map_serves rfl (.writeItem xs item) (h.writeItem item hgrows)
  | read dst =>
    obtain ⟨f', hf', h'⟩ := h.read dst
    exact ⟨f', _, _, by rw [step, hf']; rfl, .read xs dst, h'⟩
  | readItem =>
    obtain ⟨f', hf', h'⟩ := h.readItem
    exact ⟨f', _, _, by rw [step, hf']; rfl, .readItem xs, h'⟩
  | discard count =>
    obtain ⟨f', hf', h', -⟩ := h.discard (n := count) (hcount ▸ hallowed) hreturns
    exact ⟨f', _, _, by rw [step, hf']; rfl, .discard xs count, h'⟩
  | unget src =>
    exact map_serves rfl (.unget xs src) (h.unget src hgrows hreturns)
  | orderedRemoveItem offset =>
    obtain ⟨f', hf', h'⟩ := h.orderedRemoveItem offset (hcount ▸ hallowed)
    exact ⟨f', _, _, by rw [step, hf']; rfl, .orderedRemoveItem xs offset, h'⟩
  | peekItem offset =>
    have hoffset : offset < xs.length := hcount ▸ hallowed
    refine ⟨f, .item xs[offset]?, xs, ?_, .peekItem xs offset, h⟩
    rw [step, h.peekItem hoffset, List.getElem?_eq_getElem hoffset]
    rfl
  | ensureTotalCapacity size =>
    obtain ⟨f', reply, hf', h', hreply⟩ := h.ensureTotalCapacity size.toNat_lt hgrows
    refine map_serves rfl (.ensureTotalCapacity xs size) ⟨f', reply, hf', ?_⟩
    rcases hreply with ⟨rfl, -⟩ | ⟨rfl, hroom⟩
    · exact Or.inl ⟨rfl, h'⟩
    · exact Or.inr ⟨rfl, h', hroom⟩
  | ensureUnusedCapacity size =>
    obtain ⟨f', reply, hf', h', hreply⟩ := h.ensureUnusedCapacity hgrows
    refine map_serves rfl (.ensureUnusedCapacity xs size) ⟨f', reply, hf', ?_⟩
    rcases hreply with ⟨rfl, -⟩ | ⟨rfl, hroom⟩
    · exact Or.inl ⟨rfl, h'⟩
    · exact Or.inr ⟨rfl, h', hroom⟩

/-- Every run that returns is the list's, and what can be peeked at is the list. -/
theorem run_refines (k : Storage α) (ops : List (Op α))
    (hclear : Guarded (step k) (fun f op => Allowed f op ∧ Clear k f op) (init k) ops) :
    ∃ f replies xs, run (step k) (init k) ops = some (f, replies) ∧
      Follows (Serves k) [] ops replies xs ∧ f.items k = xs := by
  have hstep : ∀ (f : LinearFifo α) (xs : List α) (op : Op α), f.Refines k xs →
      Allowed f op ∧ Clear k f op →
      ∃ f' reply ys, step k f op = some (f', reply) ∧ Serves k xs op reply ys ∧ f'.Refines k ys :=
    fun _ _ _ h hop => step_refines h hop.1 hop.2
  obtain ⟨f, replies, xs, hrun, hfollows, h⟩ :=
    exists_run (R := fun f xs => f.Refines k xs) (s := init k) hstep ops (init_refines k) hclear
  exact ⟨f, replies, xs, hrun, hfollows, h.items⟩

/-- A queue that wraps, is added to in front, and is full. -/
theorem run_refines_static :
    Guarded (step ⟨.static 3, 1, 0⟩)
      (fun f op => Allowed f op ∧ Clear (⟨.static 3, 1, 0⟩ : Storage Nat) f op) (init ⟨.static 3, 1, 0⟩)
      [.write [1, 2, 3], .readItem, .writeItem 4, .orderedRemoveItem 1, .unget [5], .writeItem 6] ∧
    ∃ f replies xs, run (step ⟨.static 3, 1, 0⟩) (init (⟨.static 3, 1, 0⟩ : Storage Nat))
        [.write [1, 2, 3], .readItem, .writeItem 4, .orderedRemoveItem 1, .unget [5], .writeItem 6] =
          some (f, replies) ∧
      Follows (Serves ⟨.static 3, 1, 0⟩) []
        [.write [1, 2, 3], .readItem, .writeItem 4, .orderedRemoveItem 1, .unget [5], .writeItem 6]
        replies xs ∧ f.items ⟨.static 3, 1, 0⟩ = xs :=
  have h : Guarded (step ⟨.static 3, 1, 0⟩)
      (fun f op => Allowed f op ∧ Clear (⟨.static 3, 1, 0⟩ : Storage Nat) f op) (init ⟨.static 3, 1, 0⟩)
      [.write [1, 2, 3], .readItem, .writeItem 4, .orderedRemoveItem 1, .unget [5], .writeItem 6] := by
    decide
  ⟨h, run_refines _ _ h⟩

/-- Nothing is discarded of an array without slots; nothing is put back into a queue that was just
made; and a queue of items of a page each has wrapped when it has to grow. -/
theorem run_stuck :
    (Guarded (step ⟨.static 0, 8, 0⟩) Allowed (init (⟨.static 0, 8, 0⟩ : Storage Nat)) [.discard 0] ∧
      run (step ⟨.static 0, 8, 0⟩) (init (⟨.static 0, 8, 0⟩ : Storage Nat)) [.discard 0] = none) ∧
    (Guarded (step ⟨.dynamic, 8, 0⟩) Allowed (init (⟨.dynamic, 8, 0⟩ : Storage Nat)) [.unget []] ∧
      run (step ⟨.dynamic, 8, 0⟩) (init (⟨.dynamic, 8, 0⟩ : Storage Nat)) [.unget []] = none) ∧
    (Guarded (step ⟨.dynamic, 4096, 0⟩) Allowed (init (⟨.dynamic, 4096, 0⟩ : Storage Nat))
        [.write [1, 2], .readItem, .writeItem 3, .writeItem 4] ∧
      run (step ⟨.dynamic, 4096, 0⟩) (init (⟨.dynamic, 4096, 0⟩ : Storage Nat))
        [.write [1, 2], .readItem, .writeItem 3, .writeItem 4] = none) := by
  decide

end Runs

end OhosBun.Collections.LinearFifo
