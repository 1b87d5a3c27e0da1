/-
# `OhosBun.JsPrinter.NestedRenamer` — the names of nested scopes

The nested scopes of one file are named over the root scope, each when the walk enters it.
What a scope takes goes into an overlay on the root's table, with an undo log; when the walk
leaves it the log is run backwards, and the table is what it was (`Within.leaveScope`).
-/
import OhosBun.JsPrinter.NumberRenamer

namespace OhosBun.JsPrinter

open OhosBun.Lib

/-- The undo log has its last entry first. -/
structure NestedRenamer where
  root : NumberRenamer
  uses : ScopeUses
  sourceIndex : Nat
  /-- This file's names; starts as the top-level ones. -/
  names : Nat → Name
  /-- Name id to the index in `slots` of the innermost enclosing scope's slot for that name. -/
  overlay : Nat → Option Nat := fun _ => none
  nextLocalId : Nat
  slots : List NameSlot := []
  /-- Names first seen in this file's nested scopes. -/
  localIds : List (Name × Nat) := []
  /-- `(id, 0)` for an id the scope added to `overlay`, else `(id, 1 + the index it mapped to)`. -/
  undo : List (Nat × Nat) := []
  scope : Nat := rootScope
  nextScope : Nat := rootScope + 1
  /-- The scope being named, and the one its parent pointer leads to. -/
  astScope : Option Ast.ScopeHead := none
  astParent : Option Ast.ScopeHead := none

namespace NestedRenamer

def new (root : NumberRenamer) (uses : ScopeUses) (sourceIndex : Nat) : NestedRenamer where
  root
  uses
  sourceIndex
  names inner := root.names ⟨sourceIndex, inner⟩
  nextLocalId := root.slots.length

/-- The current scope gets a slot of its own for an id. -/
def pushSlot (r : NestedRenamer) (id prev : Nat) (slot : NameSlot) : NestedRenamer :=
  { r with
    undo := (id, prev) :: r.undo
    overlay := Function.update r.overlay id (some r.slots.length)
    slots := r.slots ++ [slot] }

instance : NameScopes NestedRenamer where
  scope r := r.scope
  idOf r name := (r.root.ids.lookup name).or (r.localIds.lookup name)
  intern r name :=
    let (id, localIds, isNew) := internInto r.localIds r.nextLocalId name
    (id, { r with localIds, nextLocalId := if isNew then r.nextLocalId + 1 else r.nextLocalId })
  slot r id :=
    match r.overlay id with
    | none => r.root.slots.getD id .empty
    | some place => r.slots.getD place .empty
  setSlot r id slot :=
    match r.overlay id with
    | some place =>
      if (r.slots.getD place .empty).scope = r.scope then { r with slots := r.slots.set place slot }
      else r.pushSlot id (place + 1) slot
    | none => r.pushSlot id 0 slot
  sees r owner :=
    match r.astScope with
    | some scope => r.uses.sees owner scope r.astParent
    | none => true
  interned r := r.root.ids.map (·.1) ++ r.localIds.map (·.1)

variable (unicode : UnicodeTables)

def assignName (r : NestedRenamer) (inputRef : Ast.Ref) : NestedRenamer :=
  let ref := r.root.symbols.follow inputRef
  -- A link out of the file leads to a top-level symbol, already named.
  if ref.sourceIndex ≠ r.sourceIndex then r
  -- Don't rename the same symbol more than once
  else if r.names ref.innerIndex ≠ [] then r
  else
    match r.root.symbols.getConst ref with
    | none => r
    | some symbol =>
      -- Don't rename unbound symbols, symbols marked as reserved names, labels, or private names
      if symbol.slotNamespace ≠ .default then r
      else
        let (renamed, r) := NameScopes.findUnusedName unicode r symbol.originalName ref
        { r with
          names := Function.update r.names ref.innerIndex (renamed.getD symbol.originalName) }

def enterScope (r : NestedRenamer) (scope : Ast.ScopeHead) (parent : Option Ast.ScopeHead) :
    NestedRenamer :=
  { r with
    scope := r.nextScope
    nextScope := r.nextScope + 1
    astScope := some scope
    astParent := parent }

/-- The symbols of a scope, in the order that they are named. -/
def inOrder (sourceIndex : Nat) (scope : Ast.ScopeHead) : List Ast.Ref :=
  (sortNumbers (scope.members.map (·.innerIndex))).map (fun inner => ⟨sourceIndex, inner⟩) ++
    scope.generated

def assignDeclared (r : NestedRenamer) (scope : Ast.ScopeHead) : NestedRenamer :=
  (inOrder r.sourceIndex scope).foldl (assignName unicode) r

/-- What the overlay was before the entries of a log. -/
def restore (log : List (Nat × Nat)) (overlay : Nat → Option Nat) : Nat → Option Nat :=
  log.foldl (fun overlay entry =>
    Function.update overlay entry.1 (match entry.2 with | 0 => none | place + 1 => some place)) overlay

/-- Back to the scope that was being named before. -/
def leaveScope (before r : NestedRenamer) : NestedRenamer :=
  let count := r.undo.length - before.undo.length
  { r with
    overlay := restore (r.undo.take count) r.overlay
    undo := r.undo.drop count
    slots := r.slots.take before.slots.length
    scope := before.scope
    astScope := before.astScope
    astParent := before.astParent }

mutual

/-- Names `scope` and everything below it. -/
def assignNamesRecursive (r : NestedRenamer) (parent : Option Ast.ScopeHead) :
    Ast.Scope → NestedRenamer
  | .node head children =>
    leaveScope r
      (assignNamesOfChildren ((r.enterScope head parent).assignDeclared unicode head) head children)

def assignNamesOfChildren (r : NestedRenamer) (parent : Ast.ScopeHead) :
    List Ast.Scope → NestedRenamer
  | [] => r
  | child :: children =>
    assignNamesOfChildren (assignNamesRecursive r (some parent) child) parent children

end

/-- The names of this file's symbols are taken over by the root. -/
def absorb (root : NumberRenamer) (nested : NestedRenamer) : NumberRenamer :=
  { root with
    names := fun ref =>
      if ref.sourceIndex = nested.sourceIndex then nested.names ref.innerIndex else root.names ref }

/-! ## The table -/

/-- Each name has an id of its own, and each id of the overlay a slot of its own. -/
structure Valid (r : NestedRenamer) : Prop where
  root : NumberRenamer.Valid r.root
  local_ids : ∀ {name id}, r.localIds.lookup name = some id →
    r.root.slots.length ≤ id ∧ id < r.nextLocalId
  local_injective : ∀ {name other id}, r.localIds.lookup name = some id →
    r.localIds.lookup other = some id → name = other
  root_le : r.root.slots.length ≤ r.nextLocalId
  overlay_lt : ∀ {id place}, r.overlay id = some place → id < r.nextLocalId ∧ place < r.slots.length
  overlay_injective : ∀ {id other place}, r.overlay id = some place →
    r.overlay other = some place → id = other
  slots_lt : ∀ slot ∈ r.slots, slot.scope < r.nextScope
  scope_lt : rootScope < r.nextScope ∧ r.scope < r.nextScope

variable {unicode} {r : NestedRenamer}

theorem valid_new {root : NumberRenamer} (h : NumberRenamer.Valid root) (uses : ScopeUses)
    (sourceIndex : Nat) : Valid (new root uses sourceIndex) where
  root := h
  local_ids h := absurd h (by simp [new])
  local_injective h := absurd h (by simp [new])
  root_le := Nat.le_refl _
  overlay_lt h := absurd h (by simp [new])
  overlay_injective h := absurd h (by simp [new])
  slots_lt _ h := absurd h List.not_mem_nil
  scope_lt := ⟨Nat.lt_succ_self _, Nat.lt_succ_self _⟩

namespace Valid

theorem idOf_lt (h : Valid r) {name : Name} {id : Nat} (hid : NameScopes.idOf r name = some id) :
    id < r.nextLocalId := by
  rcases Option.or_eq_some_iff.mp hid with hroot | ⟨-, hlocal⟩
  · exact Nat.lt_of_lt_of_le (h.root.ids_lt hroot) h.root_le
  · exact (h.local_ids hlocal).2

theorem idOf_injective (h : Valid r) {name other : Name} {id : Nat}
    (hid : NameScopes.idOf r name = some id) (hother : NameScopes.idOf r other = some id) :
    name = other := by
  rcases Option.or_eq_some_iff.mp hid with hroot | ⟨-, hlocal⟩
  · rcases Option.or_eq_some_iff.mp hother with hroot' | ⟨-, hlocal'⟩
    · exact h.root.ids_injective hroot hroot'
    · exact absurd (h.root.ids_lt hroot) (Nat.not_lt.mpr (h.local_ids hlocal').1)
  · rcases Option.or_eq_some_iff.mp hother with hroot' | ⟨-, hlocal'⟩
    · exact absurd (h.root.ids_lt hroot') (Nat.not_lt.mpr (h.local_ids hlocal).1)
    · exact h.local_injective hlocal hlocal'

/-- No name is held by a scope that has not been entered. -/
theorem held_lt (h : Valid r) (name : Name) : (NameScopes.held r name).scope < r.nextScope := by
  have hempty : NameSlot.empty.scope < r.nextScope := Nat.lt_of_le_of_lt (Nat.zero_le _) h.scope_lt.1
  rw [NameScopes.held]
  split
  · exact hempty
  next id hid =>
    change NameSlot.scope (match r.overlay id with
      | none => r.root.slots.getD id .empty
      | some place => r.slots.getD place .empty) < r.nextScope
    split
    · rw [List.getD_eq_getElem?_getD]
      cases hslot : r.root.slots[id]? with
      | none => exact hempty
      | some slot =>
        exact Nat.lt_of_le_of_lt (h.root.slots slot (List.mem_of_getElem? hslot)) h.scope_lt.1
    next place _ =>
      rw [List.getD_eq_getElem?_getD]
      cases hslot : r.slots[place]? with
      | none => exact hempty
      | some slot => exact h.slots_lt slot (List.mem_of_getElem? hslot)

end Valid

theorem held_mk (r : NestedRenamer) (name : Name) : NameScopes.held r name =
    match (r.root.ids.lookup name).or (r.localIds.lookup name) with
    | none => .empty
    | some id =>
      match r.overlay id with
      | none => r.root.slots.getD id .empty
      | some place => r.slots.getD place .empty := rfl

theorem sees_mk (r : NestedRenamer) (owner : Ast.Ref) : NameScopes.sees r owner =
    match r.astScope with
    | some scope => r.uses.sees owner scope r.astParent
    | none => true := rfl

variable {name : Name} {id : Nat}

theorem intern_of_none (h : r.localIds.lookup name = none) :
    NameScopes.intern r name = (r.nextLocalId,
      { r with localIds := (name, r.nextLocalId) :: r.localIds, nextLocalId := r.nextLocalId + 1 }) := by
  change (let (id, localIds, isNew) := internInto r.localIds r.nextLocalId name
    (id, { r with localIds, nextLocalId := if isNew then r.nextLocalId + 1 else r.nextLocalId })) = _
  rw [internInto, h]
  rfl

theorem lawful_intern (h : Valid r) (hnone : NameScopes.idOf r name = none) :
    Valid (NameScopes.intern r name).2 ∧
      NameScopes.idOf (NameScopes.intern r name).2 name = some (NameScopes.intern r name).1 ∧
      NameScopes.held (NameScopes.intern r name).2 = NameScopes.held r ∧
      NameScopes.scope (NameScopes.intern r name).2 = NameScopes.scope r := by
  obtain ⟨hroot, hlocal⟩ := Option.or_eq_none_iff.mp hnone
  rw [intern_of_none hlocal]
  refine ⟨{ h with
    local_ids := fun {other id} hother => ?_
    local_injective := NumberRenamer.lookup_cons_injective (fun h' => (h.local_ids h').2) h.local_injective
    root_le := Nat.le_succ_of_le h.root_le
    overlay_lt := fun hplace =>
      ⟨Nat.lt_succ_of_lt (h.overlay_lt hplace).1, (h.overlay_lt hplace).2⟩ }, ?_, funext fun other => ?_, rfl⟩
  · dsimp only at hother ⊢
    rw [NumberRenamer.lookup_cons] at hother
    split at hother
    · obtain rfl := Option.some.inj hother
      exact ⟨h.root_le, Nat.lt_succ_self _⟩
    · exact ⟨(h.local_ids hother).1, Nat.lt_succ_of_lt (h.local_ids hother).2⟩
  · change (r.root.ids.lookup name).or (((name, r.nextLocalId) :: r.localIds).lookup name) = _
    rw [hroot, NumberRenamer.lookup_cons, if_pos rfl]
    rfl
  · rw [held_mk, held_mk, NumberRenamer.lookup_cons]
    by_cases heq : other = name
    · have hoverlay : r.overlay r.nextLocalId = none := by
        cases hplace : r.overlay r.nextLocalId with
        | none => rfl
        | some place => exact absurd (h.overlay_lt hplace).1 (Nat.lt_irrefl _)
      rw [if_pos heq, heq, hroot, hlocal, Option.none_or, Option.none_or]
      dsimp only
      rw [hoverlay]
      dsimp only
      rw [List.getD_eq_default _ _ h.root_le]
    · rw [if_neg heq]

/-- A slot of the current scope is changed in place, and another gets one in front of it. -/
theorem setSlot_cases (r : NestedRenamer) (id : Nat) (slot : NameSlot) :
    (∃ place, r.overlay id = some place ∧ (r.slots.getD place .empty).scope = r.scope ∧
      NameScopes.setSlot r id slot = { r with slots := r.slots.set place slot }) ∨
    NameScopes.setSlot r id slot =
      r.pushSlot id (match r.overlay id with | none => 0 | some place => place + 1) slot := by
  change (∃ place, _ ∧ _ ∧ (match r.overlay id with
    | some place =>
      if (r.slots.getD place .empty).scope = r.scope then { r with slots := r.slots.set place slot }
      else r.pushSlot id (place + 1) slot
    | none => r.pushSlot id 0 slot) = _) ∨ (match r.overlay id with
    | some place =>
      if (r.slots.getD place .empty).scope = r.scope then { r with slots := r.slots.set place slot }
      else r.pushSlot id (place + 1) slot
    | none => r.pushSlot id 0 slot) = _
  cases hplace : r.overlay id with
  | none => exact .inr rfl
  | some place =>
    dsimp only
    split
    next hscope => exact .inl ⟨place, rfl, hscope, rfl⟩
    next => exact .inr rfl

/-- A table that differs from another in the slot of one id differs in one name. -/
theorem held_update (h : Valid r) {r' : NestedRenamer} {slot : NameSlot}
    (hid : NameScopes.idOf r name = some id) (hids : NameScopes.idOf r' = NameScopes.idOf r)
    (hself : NameScopes.slot r' id = slot)
    (hother : ∀ other ≠ id, NameScopes.slot r' other = NameScopes.slot r other) :
    NameScopes.held r' = Function.update (NameScopes.held r) name slot := by
  funext other
  by_cases heq : other = name
  · subst heq
    rw [Function.update_self, NameScopes.held, hids, hid]
    exact hself
  · rw [Function.update_of_ne heq, NameScopes.held, NameScopes.held, hids]
    cases hid' : NameScopes.idOf r other with
    | none => rfl
    | some id' =>
      refine hother id' ?_
      rintro rfl
      exact heq (h.idOf_injective hid' hid)

theorem slot_mk (r : NestedRenamer) (id : Nat) : NameScopes.slot r id =
    match r.overlay id with
    | none => r.root.slots.getD id .empty
    | some place => r.slots.getD place .empty := rfl

theorem lawful_pushSlot (prev : Nat) (slot : NameSlot) (h : Valid r)
    (hid : NameScopes.idOf r name = some id) (hslot : slot.scope = r.scope) :
    Valid (r.pushSlot id prev slot) ∧ NameScopes.held (r.pushSlot id prev slot) =
      Function.update (NameScopes.held r) name slot := by
  have hnew : ∀ {other place}, (r.pushSlot id prev slot).overlay other = some place →
      other = id ∧ place = r.slots.length ∨ other ≠ id ∧ r.overlay other = some place := by
    intro other place hplace
    rw [pushSlot] at hplace
    dsimp only at hplace
    by_cases heq : other = id
    · rw [heq, Function.update_self] at hplace
      exact .inl ⟨heq, (Option.some.inj hplace).symm⟩
    · rw [Function.update_of_ne heq] at hplace
      exact .inr ⟨heq, hplace⟩
  have hlen : (r.pushSlot id prev slot).slots.length = r.slots.length + 1 := by
    rw [pushSlot, List.length_append]
    rfl
  refine ⟨{ h with
    overlay_lt := fun hplace => ?_
    overlay_injective := fun hplace hplace' => ?_
    slots_lt := fun other hother => ?_ }, held_update h hid rfl ?_ fun other hother => ?_⟩
  · rw [hlen]
    rcases hnew hplace with ⟨rfl, rfl⟩ | ⟨-, hold⟩
    · exact ⟨h.idOf_lt hid, Nat.lt_succ_self _⟩
    · exact ⟨(h.overlay_lt hold).1, Nat.lt_succ_of_lt (h.overlay_lt hold).2⟩
  · rcases hnew hplace with ⟨rfl, rfl⟩ | ⟨-, hold⟩
    · rcases hnew hplace' with ⟨rfl, -⟩ | ⟨-, hold'⟩
      · rfl
      · exact absurd (h.overlay_lt hold').2 (Nat.lt_irrefl _)
    · rcases hnew hplace' with ⟨-, rfl⟩ | ⟨-, hold'⟩
      · exact absurd (h.overlay_lt hold).2 (Nat.lt_irrefl _)
      · exact h.overlay_injective hold hold'
  · rcases List.mem_append.mp hother with hmem | hmem
    · exact h.slots_lt other hmem
    · rw [List.mem_singleton.mp hmem, hslot]
      exact h.scope_lt.2
  · rw [slot_mk, pushSlot]
    dsimp only
    rw [Function.update_self]
    simp
  · rw [slot_mk, slot_mk, pushSlot]
    dsimp only
    rw [Function.update_of_ne hother]
    cases hplace : r.overlay other with
    | none => rfl
    | some place =>
      dsimp only
      rw [List.getD_append _ _ _ _ (h.overlay_lt hplace).2]

theorem lawful_setSlot (slot : NameSlot) (h : Valid r) (hid : NameScopes.idOf r name = some id)
    (hslot : slot.scope = NameScopes.scope r) :
    Valid (NameScopes.setSlot r id slot) ∧
      NameScopes.idOf (NameScopes.setSlot r id slot) = NameScopes.idOf r ∧
      NameScopes.held (NameScopes.setSlot r id slot) =
        Function.update (NameScopes.held r) name slot ∧
      NameScopes.scope (NameScopes.setSlot r id slot) = NameScopes.scope r := by
  rcases setSlot_cases r id slot with ⟨place, hplace, -, heq⟩ | heq
  · rw [heq]
    refine ⟨{ h with
      overlay_lt := fun hother => ?_
      slots_lt := fun other hother => ?_ }, rfl, held_update h hid rfl ?_ fun other hother => ?_, rfl⟩
    · dsimp only
      rw [List.length_set]
      exact h.overlay_lt hother
    · rcases List.mem_or_eq_of_mem_set hother with hmem | rfl
      · exact h.slots_lt other hmem
      · rw [hslot]
        exact h.scope_lt.2
    · rw [slot_mk]
      dsimp only
      rw [hplace]
      dsimp only
      rw [List.getD_eq_getElem?_getD, List.getElem?_set_self (h.overlay_lt hplace).2, Option.getD_some]
    · rw [slot_mk, slot_mk]
      dsimp only
      cases hplace' : r.overlay other with
      | none => rfl
      | some place' =>
        have hne : place ≠ place' := by
          rintro rfl
          exact hother (h.overlay_injective hplace' hplace)
        dsimp only
        rw [List.getD_eq_getElem?_getD, List.getElem?_set_ne hne, ← List.getD_eq_getElem?_getD]
  · rw [heq]
    obtain ⟨hvalid, hheld⟩ := lawful_pushSlot _ slot h hid hslot
    exact ⟨hvalid, rfl, hheld, rfl⟩

theorem lawful : NameScopes.Lawful Valid where
  intern := lawful_intern
  setSlot := lawful_setSlot
  interned {r name id} _ hid := by
    rcases Option.or_eq_some_iff.mp hid with hroot | ⟨-, hlocal⟩
    · exact List.mem_append_left _ (NumberRenamer.mem_of_lookup hroot)
    · exact List.mem_append_right _ (NumberRenamer.mem_of_lookup hlocal)

/-! ## Entering and leaving -/

/-- More names have ids. -/
structure Grown (before r : NestedRenamer) : Prop where
  root : r.root = before.root
  uses : r.uses = before.uses
  sourceIndex : r.sourceIndex = before.sourceIndex
  nextScope : before.nextScope ≤ r.nextScope
  nextLocalId : before.nextLocalId ≤ r.nextLocalId
  locals : ∀ {name id}, before.localIds.lookup name = some id → r.localIds.lookup name = some id
  locals_new : ∀ {name id}, r.localIds.lookup name = some id →
    before.localIds.lookup name = some id ∨ before.nextLocalId ≤ id

/-- In a scope, with what is needed to leave it. -/
structure Within (before : NestedRenamer) (head : Ast.ScopeHead) (parent : Option Ast.ScopeHead)
    (r : NestedRenamer) : Prop extends Grown before r where
  scope : r.scope = before.nextScope
  entered : before.nextScope < r.nextScope
  astScope : r.astScope = some head
  astParent : r.astParent = parent
  undo : ∃ log, r.undo = log ++ before.undo ∧ restore log r.overlay = before.overlay
  slots : r.slots.take before.slots.length = before.slots

/-- Out of a scope again. -/
structure Back (before r : NestedRenamer) : Prop extends Grown before r where
  overlay : r.overlay = before.overlay
  undo : r.undo = before.undo
  slots : r.slots = before.slots
  scope : r.scope = before.scope
  astScope : r.astScope = before.astScope
  astParent : r.astParent = before.astParent

section Frames
variable {before r' : NestedRenamer} {head : Ast.ScopeHead} {parent : Option Ast.ScopeHead}

theorem Grown.refl (r : NestedRenamer) : Grown r r :=
  ⟨rfl, rfl, rfl, Nat.le_refl _, Nat.le_refl _, fun h => h, fun h => .inl h⟩

theorem Grown.trans (h : Grown before r) (h' : Grown r r') : Grown before r' where
  root := h'.root.trans h.root
  uses := h'.uses.trans h.uses
  sourceIndex := h'.sourceIndex.trans h.sourceIndex
  nextScope := h.nextScope.trans h'.nextScope
  nextLocalId := h.nextLocalId.trans h'.nextLocalId
  locals hid := h'.locals (h.locals hid)
  locals_new hid := by
    rcases h'.locals_new hid with hold | hnew
    · exact h.locals_new hold
    · exact .inr (h.nextLocalId.trans hnew)

theorem Back.refl (r : NestedRenamer) : Back r r where
  toGrown := .refl r
  overlay := rfl
  undo := rfl
  slots := rfl
  scope := rfl
  astScope := rfl
  astParent := rfl

theorem Back.trans (h : Back before r) (h' : Back r r') : Back before r' where
  toGrown := h.toGrown.trans h'.toGrown
  overlay := h'.overlay.trans h.overlay
  undo := h'.undo.trans h.undo
  slots := h'.slots.trans h.slots
  scope := h'.scope.trans h.scope
  astScope := h'.astScope.trans h.astScope
  astParent := h'.astParent.trans h.astParent

theorem Within.back (h : Within before head parent r) (h' : Back r r') :
    Within before head parent r' where
  toGrown := h.toGrown.trans h'.toGrown
  scope := h'.scope.trans h.scope
  entered := h.entered.trans_le h'.nextScope
  astScope := h'.astScope.trans h.astScope
  astParent := h'.astParent.trans h.astParent
  undo := by
    rw [h'.undo, h'.overlay]
    exact h.undo
  slots := by
    rw [h'.slots]
    exact h.slots

theorem within_enterScope (r : NestedRenamer) (head : Ast.ScopeHead)
    (parent : Option Ast.ScopeHead) : Within r head parent (r.enterScope head parent) where
  root := rfl
  uses := rfl
  sourceIndex := rfl
  nextScope := Nat.le_succ _
  nextLocalId := Nat.le_refl _
  locals h := h
  locals_new h := .inl h
  scope := rfl
  entered := Nat.lt_succ_self _
  astScope := rfl
  astParent := rfl
  undo := ⟨[], rfl, rfl⟩
  slots := List.take_length

theorem Within.intern (h : Within before head parent r) (name : Name) :
    Within before head parent (NameScopes.intern r name).2 := by
  cases hid : r.localIds.lookup name with
  | some id =>
    have hsome : NameScopes.intern r name = (id, r) := by
      change (let (id, localIds, isNew) := internInto r.localIds r.nextLocalId name
        (id, { r with
          localIds, nextLocalId := if isNew then r.nextLocalId + 1 else r.nextLocalId })) = _
      rw [internInto, hid]
      rfl
    rw [hsome]
    exact h
  | none =>
    rw [intern_of_none hid]
    refine { h with
      nextLocalId := Nat.le_succ_of_le h.nextLocalId
      locals := fun {other id} hother => ?_
      locals_new := fun {other id} hother => ?_ }
    · have hold := h.locals hother
      dsimp only
      rw [NumberRenamer.lookup_cons, if_neg]
      · exact hold
      · rintro rfl
        rw [hid] at hold
        exact absurd hold (by simp)
    · dsimp only at hother
      rw [NumberRenamer.lookup_cons] at hother
      split at hother
      · obtain rfl := Option.some.inj hother
        exact .inr h.nextLocalId
      · exact h.locals_new hother

theorem Within.setSlot (hbefore : Valid before) (h : Within before head parent r) (id : Nat)
    (slot : NameSlot) : Within before head parent (NameScopes.setSlot r id slot) := by
  have hlen : before.slots.length ≤ r.slots.length := by
    have htake := congrArg List.length h.slots
    rw [List.length_take] at htake
    omega
  rcases setSlot_cases r id slot with ⟨place, hplace, hscope, heq⟩ | heq
  · -- the slots that were there before are of other scopes
    have hnew : before.slots.length ≤ place := by
      by_contra hlt
      have hget : r.slots[place]? = before.slots[place]? := by
        rw [← h.slots, List.getElem?_take_of_lt (Nat.lt_of_not_le hlt)]
      rw [List.getD_eq_getElem?_getD, hget, List.getElem?_eq_getElem (Nat.lt_of_not_le hlt),
        Option.getD_some, h.scope] at hscope
      exact absurd hscope (Nat.ne_of_lt (hbefore.slots_lt _ (List.getElem_mem _)))
    rw [heq]
    refine { h with slots := ?_ }
    rw [List.take_set_of_le hnew]
    exact h.slots
  · rw [heq]
    obtain ⟨log, hundo, hrestore⟩ := h.undo
    refine { h with
      undo := ⟨(id, match r.overlay id with | none => 0 | some place => place + 1) :: log, ?_, ?_⟩
      slots := ?_ }
    · rw [pushSlot, hundo]
      rfl
    · rw [← hrestore, restore, List.foldl_cons, ← restore, pushSlot]
      dsimp only
      rw [Function.update_idem]
      congr 1
      have hprev : (match (match r.overlay id with | none => 0 | some place => place + 1) with
          | 0 => none
          | place + 1 => some place) = r.overlay id := by
        cases r.overlay id with
        | none => rfl
        | some place => rfl
      rw [hprev, Function.update_eq_self]
    · rw [pushSlot]
      dsimp only
      rw [List.take_append_of_le_length hlen]
      exact h.slots

/-- A scope is left as it was entered. -/
theorem Within.leaveScope (hbefore : Valid before) (h : Within before head parent r)
    (hvalid : Valid r) :
    Back before (NestedRenamer.leaveScope before r) ∧ Valid (NestedRenamer.leaveScope before r) ∧
      NameScopes.held (NestedRenamer.leaveScope before r) = NameScopes.held before := by
  obtain ⟨log, hundo, hrestore⟩ := h.undo
  have hcount : r.undo.length - before.undo.length = log.length := by
    rw [hundo, List.length_append, Nat.add_sub_cancel]
  have hleave : NestedRenamer.leaveScope before r = { r with
      overlay := before.overlay
      undo := before.undo
      slots := before.slots
      scope := before.scope
      astScope := before.astScope
      astParent := before.astParent } := by
    rw [NestedRenamer.leaveScope, hcount, h.slots, hundo, List.take_left, List.drop_left, hrestore]
  rw [hleave]
  refine ⟨{ h.toGrown with
    overlay := rfl
    undo := rfl
    slots := rfl
    scope := rfl
    astScope := rfl
    astParent := rfl }, { hvalid with
    overlay_lt := fun hplace =>
      ⟨(hbefore.overlay_lt hplace).1.trans_le h.nextLocalId, (hbefore.overlay_lt hplace).2⟩
    overlay_injective := hbefore.overlay_injective
    slots_lt := fun slot hslot => (hbefore.slots_lt slot hslot).trans_le h.nextScope
    scope_lt := ⟨hvalid.scope_lt.1, hbefore.scope_lt.2.trans_le h.nextScope⟩ }, funext fun name => ?_⟩
  rw [held_mk, held_mk]
  dsimp only
  rw [h.root]
  cases hroot : before.root.ids.lookup name with
  | some id => rfl
  | none =>
    rw [Option.none_or, Option.none_or]
    cases hlocal : before.localIds.lookup name with
    | some id => rw [h.locals hlocal]
    | none =>
      cases hid : r.localIds.lookup name with
      | none => rfl
      | some id =>
        have hnew : before.nextLocalId ≤ id := by
          refine (h.locals_new hid).resolve_left fun hold => ?_
          rw [hlocal] at hold
          exact absurd hold (by simp)
        have hoverlay : before.overlay id = none := by
          cases hplace : before.overlay id with
          | none => rfl
          | some place => exact absurd (hbefore.overlay_lt hplace).1 (Nat.not_lt.mpr hnew)
        dsimp only
        rw [hoverlay]
        dsimp only
        rw [List.getD_eq_default _ _ (hbefore.root_le.trans hnew)]

end Frames

end NestedRenamer

end OhosBun.JsPrinter
