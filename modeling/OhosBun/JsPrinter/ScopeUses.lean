/-
# `OhosBun.JsPrinter.ScopeUses` — whether a binding would capture a use

What the parser recorded of one file's uses, indexed by symbol: the scopes that use a symbol
are one bucket of a counting sort.  A scope sees a symbol when a number in its span is among
them, when a recorded span meets its own, and also where nothing is known for sure.  So a use
on record inside a scope is seen from it (`sees_of_records`).
-/
import OhosBun.Ast.Scope
import OhosBun.Lib.CountingSort
import OhosBun.Lib.Search

namespace OhosBun.JsPrinter

open OhosBun.Lib

/-- One file's uses. -/
structure ScopeUses where
  sourceIndex : Nat
  list : Ast.ScopeUseList
  parts : List Ast.Part
  partsLive : Nat → Bool
  symbols : Ast.SymbolMap

structure ScopeUseIndex where
  /-- `scopeIndices[offsets[i]..offsets[i + 1]]`: the scopes that use symbol `i`, ascending. -/
  offsets : List Nat
  scopeIndices : List Nat
  /-- Printed symbols with uses that are not on record. -/
  everywhere : List Ast.Ref
  /-- A printed symbol's bits and a symbol of this file that prints as it, sorted. -/
  aliases : List (Nat × Nat)

/-- `partition_point` of a slice that is partitioned. -/
def partitionPoint {α : Type} (p : α → Bool) (l : List α) : Nat := (l.takeWhile p).length

theorem drop_partitionPoint {α : Type} (p : α → Bool) (l : List α) :
    l.drop (partitionPoint p l) = l.dropWhile p := by
  rw [partitionPoint]
  induction l with
  | nil => rfl
  | cons a l ih =>
    cases h : p a with
    | true =>
      rw [List.takeWhile_cons_of_pos h, List.dropWhile_cons_of_pos h, List.length_cons,
        List.drop_succ_cons, ih]
    | false =>
      have hneg : ¬ p a = true := by rw [h]; decide
      rw [List.takeWhile_cons_of_neg hneg, List.dropWhile_cons_of_neg hneg]
      rfl

/-! ## The index -/

section Index
variable (file : ScopeUses)

def ScopeUses.fileSymbols : List Ast.Symbol :=
  file.symbols.symbolsForSource.getD file.sourceIndex []

def ScopeUses.everywhere : List Ast.Ref :=
  (file.parts.zipIdx.filter fun part => file.partsLive part.2).flatMap fun part =>
    (part.1.symbolUses.filter (·.2.unscoped)).map fun use => file.symbols.followPrinted use.1

def ScopeUses.aliases : List (Nat × Nat) :=
  (file.fileSymbols.zipIdx.filterMap fun (symbol, inner) =>
    if symbol.link.isNone && symbol.namespaceAlias.isNone then none
    else
      let own : Ast.Ref := ⟨file.sourceIndex, inner⟩
      let printed := file.symbols.followPrinted own
      if printed ≠ own then some (printed.toRawBits, inner) else none).insertionSort
    fun a b => a.1 < b.1 ∨ a.1 = b.1 ∧ a.2 ≤ b.2

/-- `sort_unstable` of numbers. -/
def sortNumbers (l : List Nat) : List Nat := l.insertionSort (· ≤ ·)

def ScopeUseIndex.build : ScopeUseIndex where
  offsets := (countingSort Ast.ScopeUse.symbol Ast.ScopeUse.scope sortNumbers file.list.points
    file.fileSymbols.length).1
  scopeIndices := (countingSort Ast.ScopeUse.symbol Ast.ScopeUse.scope sortNumbers file.list.points
    file.fileSymbols.length).2
  everywhere := file.everywhere
  aliases := file.aliases

/-! ## Looking up -/

/-- For a symbol of this file, by inner index. -/
def ScopeUses.seesOwn (index : ScopeUseIndex) (symbol : Nat) (span : Nat × Nat) : Bool :=
  let scopes := index.scopeIndices.extract (index.offsets.getD symbol 0)
    (index.offsets.getD (symbol + 1) 0)
  let i := partitionPoint (· < span.1) scopes
  scopes[i]?.any (· ≤ span.2) ||
    let spans := file.list.spans
    let i := partitionPoint (·.symbol < symbol) spans
    ((spans.drop i).takeWhile (·.symbol = symbol)).any fun s => s.first ≤ span.2 && span.1 ≤ s.last

/-- A function body or catch block also sees its parameter scope. -/
def seenFrom (scope : Ast.ScopeHead) (parent : Option Ast.ScopeHead) : Ast.ScopeHead :=
  match scope.kind, parent with
  | .functionBody, some parent => parent
  | .block, some parent => if parent.kind = .catchBinding then parent else scope
  | _, _ => scope

theorem seenFrom_some (scope parent : Ast.ScopeHead) :
    seenFrom scope (some parent) = scope ∨ seenFrom scope (some parent) = parent := by
  unfold seenFrom
  cases scope.kind with
  | functionBody => exact .inr rfl
  | block =>
    dsimp only
    split
    · exact .inr rfl
    · exact .inl rfl
  | _ => exact .inl rfl

/-- Whether a binding in a scope would capture a use of a symbol. -/
def ScopeUses.sees (symbol : Ast.Ref) (scope : Ast.ScopeHead) (parent : Option Ast.ScopeHead) :
    Bool :=
  match (seenFrom scope parent).span with
  | none => true
  | some span =>
    if !file.list.tracked then true
    else
      let index := ScopeUseIndex.build file
      if index.everywhere.contains symbol then true
      else if symbol.sourceIndex = file.sourceIndex ∧ file.seesOwn index symbol.innerIndex span then
        true
      else
        let key := symbol.toRawBits
        let i := partitionPoint (·.1 < key) index.aliases
        ((index.aliases.drop i).takeWhile (·.1 = key)).any fun printed =>
          file.seesOwn index printed.2 span

/-! ## What is seen -/

theorem length_sortNumbers (l : List Nat) : (sortNumbers l).length = l.length :=
  List.length_insertionSort _ _

theorem pairwise_sortNumbers (l : List Nat) : (sortNumbers l).Pairwise (· ≤ ·) :=
  List.pairwise_insertionSort _ _

variable {l : List Nat} {a first last : Nat} {span : Ast.ScopeUseSpan}

theorem mem_sortNumbers : a ∈ sortNumbers l ↔ a ∈ l :=
  List.mem_insertionSort _

/-- The points are about symbols of the file. -/
def ScopeUses.InFile : Prop := ∀ point ∈ file.list.points, point.symbol < file.fileSymbols.length

variable {file}

/-- The first that is not below a bound is not above any other one. -/
theorem any_partitionPoint (hsorted : l.Pairwise (· ≤ ·)) (ha : a ∈ l) (hfirst : first ≤ a)
    (hlast : a ≤ last) :
    (l[partitionPoint (· < first) l]?).any (· ≤ last) = true := by
  have hmem : a ∈ l.dropWhile (· < first) := by
    rw [← List.takeWhile_append_dropWhile (p := (· < first)) (l := l)] at ha
    refine (List.mem_append.mp ha).resolve_left fun hlt => ?_
    have := List.mem_takeWhile_imp hlt
    simp only [decide_eq_true_eq] at this
    omega
  have hdrop := drop_partitionPoint (· < first) l
  have hsorted' := hsorted.sublist (List.dropWhile_sublist (· < first))
  have hget : l[partitionPoint (· < first) l]? = (l.dropWhile (· < first))[0]? := by
    rw [← hdrop, List.getElem?_drop, Nat.add_zero]
  rw [hget]
  cases hrest : l.dropWhile (· < first) with
  | nil =>
    rw [hrest] at hmem
    exact absurd hmem List.not_mem_nil
  | cons b rest =>
    rw [hrest] at hmem hsorted'
    have hb : b ≤ a := by
      rcases List.mem_cons.mp hmem with rfl | hmem
      · exact Nat.le_refl _
      · exact (List.pairwise_cons.mp hsorted').1 a hmem
    simpa using hb.trans hlast

/-- In a sorted list that has none below a symbol, those of the symbol come first. -/
theorem mem_takeWhile_symbol {l : List Ast.ScopeUseSpan}
    (hsorted : l.Pairwise fun a b => a.symbol ≤ b.symbol) (hle : ∀ a ∈ l, span.symbol ≤ a.symbol)
    (hmem : span ∈ l) : span ∈ l.takeWhile (·.symbol = span.symbol) := by
  induction l with
  | nil => exact absurd hmem List.not_mem_nil
  | cons a l ih =>
    obtain ⟨ha, hsorted'⟩ := List.pairwise_cons.mp hsorted
    have heq : a.symbol = span.symbol := by
      refine Nat.le_antisymm ?_ (hle a List.mem_cons_self)
      rcases List.mem_cons.mp hmem with rfl | hmem
      · exact Nat.le_refl _
      · exact ha span hmem
    rw [List.takeWhile_cons_of_pos (by simpa using heq)]
    rcases List.mem_cons.mp hmem with rfl | hmem
    · exact List.mem_cons_self
    · exact List.mem_cons_of_mem _ (ih hsorted' (fun b hb => hle b (List.mem_cons_of_mem _ hb)) hmem)

/-- In a sorted list those of one symbol are found. -/
theorem any_spans {spans : List Ast.ScopeUseSpan}
    (hsorted : spans.Pairwise fun a b => a.symbol ≤ b.symbol) (hspan : span ∈ spans)
    {p : Ast.ScopeUseSpan → Bool} (hp : p span = true) :
    ((spans.drop (partitionPoint (·.symbol < span.symbol) spans)).takeWhile
      (·.symbol = span.symbol)).any p = true := by
  rw [drop_partitionPoint]
  induction spans with
  | nil => exact absurd hspan List.not_mem_nil
  | cons head spans ih =>
    obtain ⟨hhead, hsorted'⟩ := List.pairwise_cons.mp hsorted
    by_cases hlt : head.symbol < span.symbol
    · rw [List.dropWhile_cons_of_pos (by simpa using hlt)]
      refine ih hsorted' ((List.mem_cons.mp hspan).resolve_left ?_)
      rintro rfl
      exact absurd hlt (Nat.lt_irrefl _)
    · rw [List.dropWhile_cons_of_neg (by simpa using hlt)]
      refine List.any_eq_true.mpr ⟨span, mem_takeWhile_symbol hsorted (fun a ha => ?_) hspan, hp⟩
      rcases List.mem_cons.mp ha with rfl | ha
      · exact Nat.le_of_not_lt hlt
      · exact (Nat.le_of_not_lt hlt).trans (hhead a ha)

theorem seesOwn_of_records (hfile : file.InFile) {symbol scope : Nat} (h : file.list.Records symbol scope)
    (hfirst : first ≤ scope) (hlast : scope ≤ last) :
    file.seesOwn (ScopeUseIndex.build file) symbol (first, last) = true := by
  rw [ScopeUses.seesOwn]
  refine Bool.or_eq_true_iff.mpr ?_
  rcases h with hpoint | ⟨span, hspan, rfl, hspanFirst, hspanLast⟩
  · refine .inl ?_
    have hbucket := extract_countingSort Ast.ScopeUse.symbol Ast.ScopeUse.scope
      hfile length_sortNumbers (hfile _ hpoint)
    dsimp only [ScopeUseIndex.build]
    rw [hbucket]
    refine any_partitionPoint (pairwise_sortNumbers _) (mem_sortNumbers.2 ?_) hfirst hlast
    exact List.mem_map.mpr ⟨⟨scope, symbol⟩, List.mem_filter.mpr ⟨hpoint, by simp⟩, rfl⟩
  · refine .inr (any_spans file.list.spans_sorted hspan ?_)
    simp only [Bool.and_eq_true, decide_eq_true_eq]
    omega

/-- A use that is on record is seen from a scope whose span has its number. -/
theorem sees_of_records (hfile : file.InFile) {symbol : Ast.Ref} {scope : Ast.ScopeHead}
    {parent : Option Ast.ScopeHead} {number : Nat} (hsource : symbol.sourceIndex = file.sourceIndex)
    (h : file.list.Records symbol.innerIndex number)
    (hfirst : (seenFrom scope parent).visitSpan.1 ≤ number)
    (hlast : number ≤ (seenFrom scope parent).visitSpan.2) : file.sees symbol scope parent = true := by
  rw [ScopeUses.sees]
  split
  · rfl
  next span hspan =>
    have heq : (seenFrom scope parent).visitSpan = span := by
      rw [Ast.ScopeHead.span] at hspan
      split at hspan
      · exact Option.some.inj hspan
      · exact absurd hspan (by simp)
    rw [heq] at hfirst hlast
    have hown := seesOwn_of_records hfile h hfirst hlast
    split
    · rfl
    · dsimp only
      split
      · rfl
      · rw [if_pos ⟨hsource, hown⟩]

end Index

end OhosBun.JsPrinter
