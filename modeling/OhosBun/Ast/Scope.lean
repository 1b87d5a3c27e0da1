/-
# `OhosBun.Ast.Scope` — symbols, scopes and what is used where

A file's scopes form a tree; `visitSpan` has a scope's number in the pre-order walk and that of
the last scope inside it.  The parser notes in which scope each symbol is used
(`ScopeUseList`), and what the linker adds later is not noted (`Use.unscoped`).

A symbol's links are followed to their end, as far as there are symbols.
-/
import OhosBun.JsPrinter.MinifyRenamer

namespace OhosBun.Ast

open OhosBun.Lib OhosBun.JsPrinter

/-! ## Symbols -/

/-- A reference to a symbol. -/
@[ext]
structure Ref where
  sourceIndex : Nat
  innerIndex : Nat
deriving DecidableEq

/-- With the tag of a symbol. -/
def Ref.toRawBits (ref : Ref) : Nat := ref.innerIndex + 3 * 2 ^ 31 + ref.sourceIndex * 2 ^ 33

/-- What the number renamer reads of a symbol; `namespaceAlias` is the namespace that it is
printed as a property of. -/
structure Symbol where
  originalName : Bytes
  slotNamespace : SlotNamespace := .default
  link : Option Ref := none
  namespaceAlias : Option Ref := none

structure SymbolMap where
  symbolsForSource : List (List Symbol)

namespace SymbolMap
variable (symbols : SymbolMap)

def getConst (ref : Ref) : Option Symbol :=
  (symbols.symbolsForSource.getD ref.sourceIndex [])[ref.innerIndex]?

def size : Nat := (symbols.symbolsForSource.map List.length).sum

def followLinks : (fuel : Nat) → Ref → Ref
  | 0, ref => ref
  | fuel + 1, ref =>
    match (symbols.getConst ref).bind (·.link) with
    | some link => followLinks fuel link
    | none => ref

def follow (ref : Ref) : Ref := symbols.followLinks symbols.size ref

def followAliases : (fuel : Nat) → Ref → Ref
  | 0, ref => ref
  | fuel + 1, ref =>
    match (symbols.getConst ref).bind (·.namespaceAlias) with
    | some namespaceRef =>
      let next := symbols.follow namespaceRef
      if next = ref then ref else followAliases fuel next
    | none => ref

/-- The symbol whose name is printed. -/
def followPrinted (ref : Ref) : Ref := symbols.followAliases symbols.size (symbols.follow ref)

/-- No symbol stands for another. -/
def Unlinked : Prop := ∀ list ∈ symbols.symbolsForSource, ∀ symbol ∈ list, symbol.link = none

variable {symbols}

theorem Unlinked.follow (h : symbols.Unlinked) (ref : Ref) : symbols.follow ref = ref := by
  have hlink : (symbols.getConst ref).bind (·.link) = none := by
    cases hget : symbols.getConst ref with
    | none => rfl
    | some symbol =>
      rw [getConst] at hget
      have hmem := List.mem_of_getElem? hget
      rw [List.getD_eq_getElem?_getD] at hmem
      cases hlist : symbols.symbolsForSource[ref.sourceIndex]? with
      | none =>
        rw [hlist] at hmem
        exact absurd hmem List.not_mem_nil
      | some list =>
        rw [hlist] at hmem
        exact h list (List.mem_of_getElem? hlist) symbol hmem
  rw [SymbolMap.follow]
  cases symbols.size with
  | zero => rfl
  | succ n => rw [followLinks, hlink]

end SymbolMap

/-! ## Scopes -/

inductive ScopeKind
  | block
  | withStmt
  | label
  | className
  | classBody
  | catchBinding
  | entry
  | functionArgs
  | functionBody
  | classStaticInit
deriving DecidableEq

/-- A scope without what is inside it. -/
structure ScopeHead where
  kind : ScopeKind
  members : List Ref := []
  generated : List Ref := []
  visitSpan : Nat × Nat

/-- `u32::MAX` for a scope that was never entered or left. -/
def ScopeHead.span (scope : ScopeHead) : Option (Nat × Nat) :=
  if scope.visitSpan.1 ≠ 2 ^ 32 - 1 ∧ scope.visitSpan.1 ≤ scope.visitSpan.2 then
    some scope.visitSpan
  else none

inductive Scope
  | node (head : ScopeHead) (children : List Scope)

namespace Scope

def head : Scope → ScopeHead
  | node head _ => head

def children : Scope → List Scope
  | node _ children => children

def declared (scope : Scope) : List Ref := scope.head.members ++ scope.head.generated

/-- A scope is inside another, or is it. -/
inductive Inside : Scope → Scope → Prop
  | refl (scope : Scope) : Inside scope scope
  | child {scope inner outer : Scope} (hchild : inner ∈ outer.children)
      (h : Inside scope inner) : Inside scope outer

theorem Inside.trans {a b c : Scope} (h : Inside a b) (h' : Inside b c) : Inside a c := by
  induction h' with
  | refl => exact h
  | child hchild _ ih => exact .child hchild ih

/-- Scopes are numbered in pre-order from a number on, up to another. -/
inductive Numbered : Nat → List Scope → Nat → Prop
  | nil (n : Nat) : Numbered n [] n
  | cons {n m k : Nat} {head : ScopeHead} {children rest : List Scope}
      (hspan : head.visitSpan = (n, m - 1)) (hchildren : Numbered (n + 1) children m)
      (hrest : Numbered m rest k) : Numbered n (node head children :: rest) k

variable {n k : Nat} {scopes : List Scope} {scope outer inner : Scope}

theorem Numbered.le (h : Numbered n scopes k) : n ≤ k := by
  induction h with
  | nil => exact Nat.le_refl _
  | cons _ _ _ hchildren hrest => exact (Nat.le_of_succ_le hchildren).trans hrest

/-- A scope has a number, and its span is up to the last number inside it. -/
theorem Numbered.span (h : Numbered n scopes k) :
    ∀ scope ∈ scopes, ∃ m, Numbered scope.head.visitSpan.1 [scope] m ∧ n ≤ scope.head.visitSpan.1 ∧
      m ≤ k ∧ scope.head.visitSpan.2 = m - 1 := by
  induction h with
  | nil => exact fun _ hscope => absurd hscope List.not_mem_nil
  | @cons n m k head children rest hspan hchildren hrest _ ih =>
    intro scope hscope
    rcases List.mem_cons.mp hscope with rfl | hscope
    · refine ⟨m, ?_, ?_, hrest.le, ?_⟩
      · rw [Scope.head, hspan]
        exact .cons hspan hchildren (.nil m)
      · rw [Scope.head, hspan]
      · rw [Scope.head, hspan]
    · obtain ⟨m', hscope', hle, hle', hend⟩ := ih scope hscope
      exact ⟨m', hscope', ((Nat.le_of_succ_le hchildren.le).trans hle), hle', hend⟩

/-- What is inside a scope has numbers in its span. -/
theorem Numbered.inside (hinside : Inside scope outer) (h : Numbered n [outer] k) :
    n ≤ scope.head.visitSpan.1 ∧
      scope.head.visitSpan.1 ≤ scope.head.visitSpan.2 ∧ scope.head.visitSpan.2 ≤ k - 1 ∧
      ∃ m, Numbered scope.head.visitSpan.1 [scope] m := by
  induction hinside generalizing n k with
  | refl =>
    cases h with
    | @cons _ m _ head children _ hspan hchildren hrest =>
      cases hrest with
      | nil =>
        have hle := hchildren.le
        rw [Scope.head, hspan]
        exact ⟨Nat.le_refl _, Nat.le_sub_one_of_lt hle, Nat.le_refl _, k,
          .cons hspan hchildren (.nil k)⟩
  | @child inner outer hchild _ ih =>
    cases h with
    | @cons _ m _ head children _ hspan hchildren hrest =>
      cases hrest with
      | nil =>
        obtain ⟨m', hinner, hle, hle', -⟩ := hchildren.span inner hchild
        obtain ⟨hfirst, hspan', hlast, hscope⟩ := ih hinner
        exact ⟨(Nat.le_of_succ_le hle).trans hfirst, hspan',
          hlast.trans (Nat.sub_le_sub_right hle' 1), hscope⟩

theorem Numbered.bounds (h : Numbered n scopes k) (hscope : scope ∈ scopes)
    (hinside : Inside inner scope) :
    n ≤ inner.head.visitSpan.1 ∧ inner.head.visitSpan.1 < k := by
  obtain ⟨m, hnumbered, hle, hle', -⟩ := h.span scope hscope
  obtain ⟨hfirst, hspan, hlast, -⟩ := hnumbered.inside hinside
  have hpos : 0 < m := by
    cases hnumbered with
    | cons _ hchildren hrest => exact Nat.lt_of_lt_of_le (Nat.succ_pos _) (hchildren.le.trans hrest.le)
  exact ⟨hle.trans hfirst, (Nat.lt_of_le_pred hpos (hspan.trans hlast)).trans_le hle'⟩

theorem Numbered.lt_below {child : Scope} (h : Numbered n [outer] k) (hchild : child ∈ outer.children)
    (hinside : Inside inner child) :
    outer.head.visitSpan.1 < inner.head.visitSpan.1 := by
  cases h with
  | cons hspan hchildren _ =>
    rw [head, hspan]
    exact (hchildren.bounds hchild hinside).1

end Scope

/-! ## Uses -/

/-- The symbol is used in the scope of that number. -/
structure ScopeUse where
  scope : Nat
  symbol : Nat
deriving DecidableEq

/-- The symbol may be used from any scope of these numbers. -/
structure ScopeUseSpan where
  symbol : Nat
  first : Nat
  last : Nat
deriving DecidableEq

structure ScopeUseList where
  /-- `false`: nothing was recorded. -/
  tracked : Bool
  points : List ScopeUse
  spans : List ScopeUseSpan
  /-- Sorted. -/
  spans_sorted : spans.Pairwise fun a b => a.symbol ≤ b.symbol

/-- `unscoped`: for some use the scope is not on record. -/
structure Use where
  unscoped : Bool

structure Part where
  symbolUses : List (Ref × Use)

/-- A use of a symbol in the scope of a number is on record. -/
def ScopeUseList.Records (list : ScopeUseList) (symbol scope : Nat) : Prop :=
  ⟨scope, symbol⟩ ∈ list.points ∨
    ∃ span ∈ list.spans, span.symbol = symbol ∧ span.first ≤ scope ∧ scope ≤ span.last

end OhosBun.Ast
