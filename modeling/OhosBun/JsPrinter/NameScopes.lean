/-
# `OhosBun.JsPrinter.NameScopes` — taking a name in a scope

The name table that a binding is checked against keeps, for each name, only the innermost
scope that holds it (`NameSlot`).  A name is unused if no scope holds it, or if its holder is
further out and is not seen from the scope that is being named.

A table is known here by what it says of each name (`held`), and by what its operations do to
that (`NameScopes.Lawful`).  Taking a name gives the current scope one that was unused, and
changes no other but the one that was asked for, by a counter (`findUnusedName_spec`).

Ids and counters are `u32` in the source and numbers here.
-/
import OhosBun.JsPrinter.Identifier
import OhosBun.JsPrinter.ScopeUses
import OhosBun.Semver.Numbers

namespace OhosBun.JsPrinter

open OhosBun.Lib

structure NameSlot where
  /-- The scope holding this name, or `noScope`. -/
  scope : Nat
  /-- Next collision counter for the name in that scope. -/
  count : Nat
  /-- The symbol holding the name, if it is one that may be shadowed. -/
  owner : Option Ast.Ref
deriving DecidableEq

/-- `NO_SCOPE` -/
def noScope : Nat := 0

/-- `ROOT_SCOPE` -/
def rootScope : Nat := 1

/-- `NameSlot::EMPTY` -/
def NameSlot.empty : NameSlot := ⟨noScope, 0, none⟩

inductive NameUse
  | unused
  | sameScope (count : Nat)
  | used
deriving DecidableEq

/-- The name table a binding is checked against; `interned` has the names that have ids. -/
class NameScopes (σ : Type) where
  /-- Serial number of the scope being named. -/
  scope : σ → Nat
  idOf : σ → Name → Option Nat
  intern : σ → Name → Nat × σ
  slot : σ → Nat → NameSlot
  /-- Give a name to the current scope. -/
  setSlot : σ → Nat → NameSlot → σ
  /-- Whether the scope being named references a symbol. -/
  sees : σ → Ast.Ref → Bool
  interned : σ → List Name

namespace NameScopes
variable {σ : Type} [NameScopes σ] (unicode : UnicodeTables)

def find (s : σ) (id : Option Nat) : NameUse :=
  match id with
  | none => .unused
  | some id =>
    let slot := slot s id
    if slot.scope = noScope then .unused
    else if slot.scope = scope s then .sameScope slot.count
    else if slot.owner.all (sees s) then .used
    else .unused

/-- `name` followed by `n`. -/
def numberedName (name : Name) (n : Nat) : Name := name ++ Semver.decimal n

/-- A name goes to a symbol of the current scope. -/
def giveName (s : σ) (id : Option Nat) (name : Name) (owner : Ast.Ref) : σ :=
  let (id, s) := match id with
    | some id => (id, s)
    | none => intern s name
  setSlot s id ⟨scope s, 1, some owner⟩

def numberTaken (s : σ) (name : Name) (n : Nat) : Bool :=
  find s (idOf s (numberedName name n)) ≠ .unused

/-- The first of the numbers from a start on whose name is free. -/
def freeNumber (s : σ) (name : Name) (start : Nat) : Nat :=
  firstFree (numberTaken s name) (interned s).length start

/-- Takes a name for `owner` in the current scope if free, else the first free `name2`,
`name3`, …. `none`: the name itself was free. -/
def findUnusedName (s : σ) (inputName : Name) (owner : Ast.Ref) : Option Name × σ :=
  let name := normalized unicode inputName
  let id := idOf s name
  let use := find s id
  if use = .unused then
    (if name = inputName then none else some name, giveName s id name owner)
  else
    let prefixId := id.getD 0
    -- sibling scopes can reuse the same numbers
    let tries := freeNumber s name ((match use with | .sameScope count => count | _ => 1) + 1)
    let candidate := numberedName name tries
    let candidateId := idOf s candidate
    let prefixSlot := slot s prefixId
    -- Where to resume for the next collision in this scope.
    let s := setSlot s prefixId
      ⟨scope s, tries, if prefixSlot.scope = scope s then prefixSlot.owner else none⟩
    (some candidate, giveName s candidateId candidate owner)

/-! ## What a table says -/

/-- Who holds a name. -/
def held (s : σ) (name : Name) : NameSlot :=
  match idOf s name with
  | none => .empty
  | some id => slot s id

/-- A binding of the current scope may have the name. -/
def Free (s : σ) (slot : NameSlot) : Prop :=
  slot.scope = noScope ∨ slot.scope ≠ scope s ∧ ∃ owner, slot.owner = some owner ∧ sees s owner = false

/-- What the operations do to a table that is in order. -/
structure Lawful (Valid : σ → Prop) : Prop where
  intern {s : σ} {name : Name} (h : Valid s) (hnone : idOf s name = none) :
    Valid (intern s name).2 ∧ idOf (intern s name).2 name = some (intern s name).1 ∧
      held (intern s name).2 = held s ∧ scope (intern s name).2 = scope s
  setSlot {s : σ} {name : Name} {id : Nat} (slot : NameSlot) (h : Valid s)
    (hid : idOf s name = some id) (hslot : slot.scope = scope s) :
    Valid (setSlot s id slot) ∧ idOf (setSlot s id slot) = idOf s ∧
      held (setSlot s id slot) = Function.update (held s) name slot ∧
      scope (setSlot s id slot) = scope s
  interned {s : σ} {name : Name} {id : Nat} (h : Valid s) (hid : idOf s name = some id) :
    name ∈ interned s

/-- A name was taken for a symbol in the current scope. -/
structure Taken (s : σ) (owner : Ast.Ref) (name : Name) (s' : σ) : Prop where
  ne_nil : name ≠ []
  free : Free s (held s name)
  scope : scope s' = scope s
  held_self : held s' name = ⟨NameScopes.scope s, 1, some owner⟩
  /-- Another name is as it was, or was asked for in vain. -/
  held_other : ∀ other ≠ name, held s' other = held s other ∨ ∃ count, held s' other =
    ⟨NameScopes.scope s, count,
      if (held s other).scope = NameScopes.scope s then (held s other).owner else none⟩

/-! ## Taking a name -/

theorem find_idOf (s : σ) (name : Name) : find s (idOf s name) = .unused ↔ Free s (held s name) := by
  rw [held]
  cases idOf s name with
  | none => exact ⟨fun _ => .inl rfl, fun _ => rfl⟩
  | some id =>
    rw [find, Free]
    dsimp only
    by_cases hnone : (slot s id).scope = noScope
    · simp [hnone]
    · by_cases hsame : (slot s id).scope = scope s
      · simp [hsame]
      · cases howner : (slot s id).owner with
        | none => simp [hnone, hsame]
        | some owner => simp [hnone, hsame]

theorem numberedName_ne_nil (name : Name) (n : Nat) : numberedName name n ≠ [] :=
  List.append_ne_nil_of_right_ne_nil _ (Semver.decimal_ne_nil n)

theorem numberedName_ne (name : Name) (n : Nat) : numberedName name n ≠ name := by
  intro h
  have hlen := congrArg List.length h
  rw [numberedName, List.length_append] at hlen
  exact Semver.decimal_ne_nil n (List.length_eq_zero_iff.mp (Nat.add_eq_left.mp hlen))

theorem numberedName_injective (name : Name) : Function.Injective (numberedName name) := by
  intro n m h
  rw [← Semver.value_decimal n, List.append_cancel_left h, Semver.value_decimal]

/-- What the operations do not touch stays as it is. -/
theorem Lawful.and {Valid P : σ → Prop} (hlaw : Lawful Valid)
    (hintern : ∀ (s : σ) (name : Name), P s → P (NameScopes.intern s name).2)
    (hsetSlot : ∀ (s : σ) (id : Nat) (slot : NameSlot), P s → P (NameScopes.setSlot s id slot)) :
    Lawful fun s => Valid s ∧ P s where
  intern h hnone := by
    obtain ⟨hvalid, hrest⟩ := hlaw.intern h.1 hnone
    exact ⟨⟨hvalid, hintern _ _ h.2⟩, hrest⟩
  setSlot slot h hid hslot := by
    obtain ⟨hvalid, hrest⟩ := hlaw.setSlot slot h.1 hid hslot
    exact ⟨⟨hvalid, hsetSlot _ _ _ h.2⟩, hrest⟩
  interned h hid := hlaw.interned h.1 hid

section Lawful
variable {Valid : σ → Prop} {s : σ} (hlaw : Lawful Valid)
include hlaw

/-- There are more numbers than names. -/
theorem free_freeNumber (h : Valid s) (name : Name) (start : Nat) :
    Free s (held s (numberedName name (freeNumber s name start))) := by
  obtain ⟨j, hj, hj', hfree⟩ := exists_free (numberedName_injective name) (interned s).toFinset start
  have hfree' : numberTaken s name j = false := by
    rw [numberTaken]
    cases hid : idOf s (numberedName name j) with
    | none => exact decide_eq_false (not_not.mpr rfl)
    | some id => exact absurd (List.mem_toFinset.mpr (hlaw.interned h hid)) hfree
  have hcard := List.toFinset_card_le (interned s)
  have hfound : numberTaken s name (freeNumber s name start) = false :=
    firstFree_free ⟨j, hj, by omega, hfree'⟩
  exact (find_idOf s _).mp (not_not.mp (of_decide_eq_false hfound))

theorem giveName_spec (h : Valid s) (name : Name) (owner : Ast.Ref) :
    Valid (giveName s (idOf s name) name owner) ∧
      scope (giveName s (idOf s name) name owner) = scope s ∧
      held (giveName s (idOf s name) name owner) =
        Function.update (held s) name ⟨scope s, 1, some owner⟩ := by
  cases hid : idOf s name with
  | some id =>
    obtain ⟨hvalid, -, hheld, hscope⟩ := hlaw.setSlot ⟨scope s, 1, some owner⟩ h hid rfl
    exact ⟨hvalid, hscope, hheld⟩
  | none =>
    obtain ⟨hvalid, hid', hheld, hscope⟩ := hlaw.intern h hid
    obtain ⟨hvalid', -, hheld', hscope'⟩ :=
      hlaw.setSlot ⟨scope (intern s name).2, 1, some owner⟩ hvalid hid' rfl
    rw [hheld, hscope] at hheld'
    rw [giveName]
    dsimp only
    rw [hscope] at hvalid' hscope' ⊢
    exact ⟨hvalid', hscope', hheld'⟩

/-- The name that is found was unused, and the symbol has it then. -/
theorem findUnusedName_spec (unicode : UnicodeTables) (h : Valid s) (inputName : Name)
    (owner : Ast.Ref) :
    let r := findUnusedName unicode s inputName owner
    Valid r.2 ∧ Taken s owner (r.1.getD inputName) r.2 := by
  rw [findUnusedName]
  dsimp only
  split
  next hunused =>
    obtain ⟨hvalid, hscope, hheld⟩ := giveName_spec hlaw h (normalized unicode inputName) owner
    have hname : (if normalized unicode inputName = inputName then none
        else some (normalized unicode inputName)).getD inputName = normalized unicode inputName := by
      split
      next heq => exact heq.symm
      next => rfl
    rw [hname]
    refine ⟨hvalid, normalized_ne_nil unicode inputName, (find_idOf s _).mp hunused, hscope, ?_, ?_⟩
    · rw [hheld, Function.update_self]
    · intro other hother
      exact .inl (by rw [hheld, Function.update_of_ne hother])
  next hused =>
    obtain ⟨prefixId, hid⟩ : ∃ prefixId, idOf s (normalized unicode inputName) = some prefixId := by
      cases hid : idOf s (normalized unicode inputName) with
      | some id => exact ⟨id, rfl⟩
      | none =>
        rw [hid] at hused
        exact absurd rfl hused
    have hslot : slot s prefixId = held s (normalized unicode inputName) := by
      rw [held, hid]
    generalize hstart : (match find s (idOf s (normalized unicode inputName)) with
      | .sameScope count => count
      | _ => 1) + 1 = start
    have hfree := free_freeNumber hlaw h (normalized unicode inputName) start
    have hne := numberedName_ne (normalized unicode inputName)
      (freeNumber s (normalized unicode inputName) start)
    have hne_nil := numberedName_ne_nil (normalized unicode inputName)
      (freeNumber s (normalized unicode inputName) start)
    generalize freeNumber s (normalized unicode inputName) start = tries at *
    generalize numberedName (normalized unicode inputName) tries = candidate at *
    rw [hid, Option.getD_some, Option.getD_some, hslot]
    obtain ⟨hvalid, hids, hheld, hscope⟩ := hlaw.setSlot ⟨scope s, tries,
      if (held s (normalized unicode inputName)).scope = scope s then
        (held s (normalized unicode inputName)).owner else none⟩ h hid rfl
    obtain ⟨hvalid', hscope', hheld'⟩ := giveName_spec hlaw hvalid candidate owner
    rw [hids, hscope, hheld] at hheld'
    rw [hids] at hvalid' hscope'
    refine ⟨hvalid', hne_nil, hfree, hscope'.trans hscope, ?_, fun other hother => ?_⟩
    · rw [hheld', Function.update_self]
    · rw [hheld', Function.update_of_ne hother]
      by_cases heq : other = normalized unicode inputName
      · rw [heq, Function.update_self]
        exact .inr ⟨tries, rfl⟩
      · rw [Function.update_of_ne heq]
        exact .inl rfl

end Lawful

end NameScopes

end OhosBun.JsPrinter
