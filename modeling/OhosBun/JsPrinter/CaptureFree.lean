/-
# `OhosBun.JsPrinter.CaptureFree` — no use is captured

What the names of one file's scopes owe each other.  A binding may shadow a name only where
its holder is not used from there on inwards; that is enough for all the holders further out,
which the table has forgotten, because the holder itself took the name under the same rule
(`Sound.node`).

So however scopes nest, a use of a symbol finds no other symbol of its name on the way out to
where it is declared (`capture_free`).
-/
import OhosBun.JsPrinter.NestedRenamer

namespace OhosBun.JsPrinter

open OhosBun.Lib
open OhosBun.Ast.Scope (Inside)

/-- A use of a symbol is on record in a scope or inside it. -/
def UsedIn (file : ScopeUses) (symbol : Ast.Ref) (scope : Ast.Scope) : Prop :=
  symbol.sourceIndex = file.sourceIndex ∧ ∃ inner, Inside inner scope ∧
    file.list.Records symbol.innerIndex inner.head.visitSpan.1

theorem UsedIn.mono {file : ScopeUses} {symbol : Ast.Ref} {scope outer : Ast.Scope}
    (hinside : Inside scope outer) (h : UsedIn file symbol scope) :
    UsedIn file symbol outer := by
  obtain ⟨hsource, inner, hinner, hrecords⟩ := h
  exact ⟨hsource, inner, hinner.trans hinside, hrecords⟩

/-! ## Names that go together -/

/-- The names of a scope and of all inside it, where a table says who holds a name outside. -/
structure Sound (file : ScopeUses) (table : Name → NameSlot) (names : Ast.Ref → Name)
    (scope : Ast.Scope) : Prop where
  named : ∀ inner, Inside inner scope → ∀ symbol ∈ inner.declared, names symbol ≠ []
  distinct : ∀ inner, Inside inner scope → ∀ symbol ∈ inner.declared,
    ∀ other ∈ inner.declared, names symbol = names other → symbol = other
  /-- The holder of a name that is taken again is not used below. -/
  outer : ∀ inner, Inside inner scope → ∀ symbol ∈ inner.declared,
    (table (names symbol)).scope ≠ noScope →
    ∃ owner, (table (names symbol)).owner = some owner ∧ ¬ UsedIn file owner inner
  within : ∀ outer, Inside outer scope → ∀ symbol ∈ outer.declared,
    ∀ child ∈ outer.children, ∀ inner, Inside inner child → ∀ other ∈ inner.declared,
    names other = names symbol → ¬ UsedIn file symbol inner

namespace Sound
variable {file : ScopeUses} {table : Name → NameSlot} {names : Ast.Ref → Name} {scope : Ast.Scope}

theorem congr {names' : Ast.Ref → Name} (h : Sound file table names scope)
    (heq : ∀ inner, Inside inner scope → ∀ symbol ∈ inner.declared,
      names' symbol = names symbol) : Sound file table names' scope where
  named inner hinner symbol hsymbol := by
    rw [heq inner hinner symbol hsymbol]
    exact h.named inner hinner symbol hsymbol
  distinct inner hinner symbol hsymbol other hother := by
    rw [heq inner hinner symbol hsymbol, heq inner hinner other hother]
    exact h.distinct inner hinner symbol hsymbol other hother
  outer inner hinner symbol hsymbol := by
    rw [heq inner hinner symbol hsymbol]
    exact h.outer inner hinner symbol hsymbol
  within outer houter symbol hsymbol child hchild inner hinner other hother := by
    rw [heq outer houter symbol hsymbol,
      heq inner (hinner.trans (.trans (.child hchild (.refl child)) houter)) other hother]
    exact h.within outer houter symbol hsymbol child hchild inner hinner other hother

/-- A scope's own names over those of the scopes in it.  What it changed of the table, it holds
itself or leaves to nobody. -/
theorem node (table' : Name → NameSlot) {serial : Nat} (hserial : serial ≠ noScope)
    (hnamed : ∀ symbol ∈ scope.declared, names symbol ≠ [])
    (hheld : ∀ symbol ∈ scope.declared, ∃ count,
      table' (names symbol) = ⟨serial, count, some symbol⟩)
    (hfree : ∀ symbol ∈ scope.declared, (table (names symbol)).scope = noScope ∨
      ∃ owner, (table (names symbol)).owner = some owner ∧ ¬ UsedIn file owner scope)
    (htable : ∀ name, table' name = table name ∨ (table' name).scope = serial ∧
      ∀ owner, (table' name).owner = some owner → owner ∈ scope.declared ∧ names owner = name)
    (hchildren : ∀ child ∈ scope.children, Sound file table' names child) :
    Sound file table names scope where
  named inner hinner := by
    cases hinner with
    | refl => exact hnamed
    | child hchild hinner => exact (hchildren _ hchild).named inner hinner
  distinct inner hinner symbol hsymbol other hother heq := by
    cases hinner with
    | refl =>
      obtain ⟨count, hself⟩ := hheld symbol hsymbol
      obtain ⟨count', hself'⟩ := hheld other hother
      rw [heq, hself'] at hself
      exact (Option.some.inj (congrArg NameSlot.owner hself)).symm
    | child hchild hinner => exact (hchildren _ hchild).distinct inner hinner symbol hsymbol other hother heq
  outer inner hinner symbol hsymbol htaken := by
    cases hinner with
    | refl => exact (hfree symbol hsymbol).resolve_left htaken
    | @child child _ hchild hinner =>
      have htaken' : (table' (names symbol)).scope ≠ noScope := by
        rcases htable (names symbol) with heq | ⟨heq, -⟩
        · rwa [heq]
        · rwa [heq]
      obtain ⟨owner, howner, hunused⟩ := (hchildren _ hchild).outer inner hinner symbol hsymbol htaken'
      rcases htable (names symbol) with heq | ⟨-, hself⟩
      · exact ⟨owner, heq ▸ howner, hunused⟩
      · -- this scope shadows a holder that nothing in it uses
        obtain ⟨hdeclared, heq⟩ := hself owner howner
        rw [← heq] at htaken ⊢
        obtain ⟨owner', howner', hunused'⟩ := (hfree owner hdeclared).resolve_left htaken
        exact ⟨owner', howner', fun hused => hunused' (hused.mono (.child hchild hinner))⟩
  within outer houter symbol hsymbol child hchild inner hinner other hother heq := by
    cases houter with
    | refl =>
      obtain ⟨count, hself⟩ := hheld symbol hsymbol
      have htaken : (table' (names other)).scope ≠ noScope := by
        rwa [heq, hself]
      obtain ⟨owner, howner, hunused⟩ := (hchildren _ hchild).outer inner hinner other hother htaken
      rw [heq, hself] at howner
      obtain rfl := Option.some.inj howner
      exact hunused
    | child hchild' houter =>
      exact (hchildren _ hchild').within outer houter symbol hsymbol child hchild inner hinner other
        hother heq

end Sound

/-! ## One scope -/

namespace NestedRenamer
variable {unicode : UnicodeTables} {before r : NestedRenamer} {head : Ast.ScopeHead}
  {parent : Option Ast.ScopeHead}

/-- A symbol of the file that is to be named. -/
def ToName (r : NestedRenamer) (symbol : Ast.Ref) : Prop :=
  symbol.sourceIndex = r.sourceIndex ∧ ∃ data, r.root.symbols.getConst symbol = some data ∧
    data.slotNamespace = .default

/-- In a scope some of whose symbols have been named. -/
structure Declaring (before : NestedRenamer) (head : Ast.ScopeHead) (parent : Option Ast.ScopeHead)
    (done : List Ast.Ref) (r : NestedRenamer) : Prop where
  valid : Valid r
  within : Within before head parent r
  named : ∀ symbol ∈ done, r.names symbol.innerIndex ≠ [] ∧ ∃ count,
    NameScopes.held r (r.names symbol.innerIndex) = ⟨before.nextScope, count, some symbol⟩
  free : ∀ symbol ∈ done,
    (NameScopes.held before (r.names symbol.innerIndex)).scope = noScope ∨
    ∃ owner, (NameScopes.held before (r.names symbol.innerIndex)).owner = some owner ∧
      before.uses.sees owner head parent = false
  table : ∀ name, NameScopes.held r name = NameScopes.held before name ∨
    (NameScopes.held r name).scope = before.nextScope ∧
      ∀ owner, (NameScopes.held r name).owner = some owner →
        owner ∈ done ∧ r.names owner.innerIndex = name
  names : ∀ inner, r.names inner = before.names inner ∨ before.names inner = [] ∧
    ∃ symbol ∈ done, symbol.innerIndex = inner

theorem declaring_enterScope (h : Valid before) (head : Ast.ScopeHead)
    (parent : Option Ast.ScopeHead) :
    Declaring before head parent [] (before.enterScope head parent) where
  valid := { h with
    slots_lt := fun slot hslot => Nat.lt_succ_of_lt (h.slots_lt slot hslot)
    scope_lt := ⟨Nat.lt_succ_of_lt h.scope_lt.1, Nat.lt_succ_self _⟩ }
  within := within_enterScope before head parent
  named _ h := absurd h List.not_mem_nil
  free _ h := absurd h List.not_mem_nil
  table _ := .inl rfl
  names _ := .inl rfl

variable {done : List Ast.Ref} {name : Name} {symbol : Ast.Ref} {r' : NestedRenamer}
  {scopes : List Ast.Scope} {n m k : Nat} {scope : Ast.Scope}

/-- What is free in the current scope was free when it was entered. -/
theorem Declaring.free_before (h : Declaring before head parent done r) (hbefore : Valid before)
    (hfree : NameScopes.Free r (NameScopes.held r name)) :
    NameScopes.held r name = NameScopes.held before name ∧
      ((NameScopes.held before name).scope = noScope ∨
        ∃ owner, (NameScopes.held before name).owner = some owner ∧
          before.uses.sees owner head parent = false) := by
  have hpos : before.nextScope ≠ noScope := Nat.ne_of_gt (Nat.lt_of_le_of_lt (Nat.zero_le _) hbefore.scope_lt.1)
  have hscope : NameScopes.scope r = before.nextScope := h.within.scope
  have hsees : ∀ owner, NameScopes.sees r owner = before.uses.sees owner head parent := by
    intro owner
    rw [NestedRenamer.sees_mk, h.within.astScope, h.within.astParent, h.within.uses]
  have heq : NameScopes.held r name = NameScopes.held before name := by
    refine (h.table name).resolve_right fun hcurrent => ?_
    rcases hfree with hnone | ⟨hne, -⟩
    · exact hpos (hcurrent.1.symm.trans hnone)
    · exact hne (hcurrent.1.trans hscope.symm)
  refine ⟨heq, ?_⟩
  rw [← heq]
  rcases hfree with hnone | ⟨-, owner, howner, hunseen⟩
  · exact .inl hnone
  · exact .inr ⟨owner, howner, (hsees owner).symm.trans hunseen⟩

theorem Declaring.take (h : Declaring before head parent done r) (hbefore : Valid before)
    (hunnamed : r.names symbol.innerIndex = []) (hvalid : Valid r')
    (hwithin : Within before head parent r') (hnames : r'.names = r.names)
    (htaken : NameScopes.Taken r symbol name r') :
    Declaring before head parent (done ++ [symbol])
      { r' with names := Function.update r'.names symbol.innerIndex name } := by
  obtain ⟨heq, hfree⟩ := h.free_before hbefore htaken.free
  have hscope : NameScopes.scope r = before.nextScope := h.within.scope
  have hlt : (NameScopes.held r name).scope ≠ before.nextScope := by
    rw [heq]
    exact Nat.ne_of_lt (hbefore.held_lt name)
  have hself : Function.update r'.names symbol.innerIndex name symbol.innerIndex = name :=
    Function.update_self ..
  have hold : ∀ inner ≠ symbol.innerIndex,
      Function.update r'.names symbol.innerIndex name inner = r.names inner := by
    intro inner hne
    rw [Function.update_of_ne hne, hnames]
  have hdone : ∀ other ∈ done,
      Function.update r'.names symbol.innerIndex name other.innerIndex = r.names other.innerIndex := by
    intro other hother
    refine hold _ fun hinner => (h.named other hother).1 ?_
    rw [hinner]
    exact hunnamed
  exact {
    valid := { hvalid with }
    within := { hwithin with }
    named := fun other hother => by
      change Function.update r'.names symbol.innerIndex name other.innerIndex ≠ [] ∧ ∃ count,
        NameScopes.held r' (Function.update r'.names symbol.innerIndex name other.innerIndex) = _
      rcases List.mem_append.mp hother with hother | hother
      · obtain ⟨hne, count, hheld⟩ := h.named other hother
        rw [hdone other hother]
        refine ⟨hne, ?_⟩
        have hname : r.names other.innerIndex ≠ name := by
          intro hname
          rw [← hname, hheld] at hlt
          exact hlt rfl
        rcases htaken.held_other _ hname with hsame | ⟨count', hcounted⟩
        · exact ⟨count, hsame.trans hheld⟩
        · rw [hheld, hscope, if_pos rfl] at hcounted
          exact ⟨count', hcounted⟩
      · rw [List.mem_singleton.mp hother, hself]
        refine ⟨htaken.ne_nil, 1, ?_⟩
        rw [htaken.held_self, hscope]
    free := fun other hother => by
      dsimp only
      rcases List.mem_append.mp hother with hother | hother
      · rw [hdone other hother]
        exact h.free other hother
      · rw [List.mem_singleton.mp hother, hself]
        exact hfree
    table := fun other => by
      change NameScopes.held r' other = _ ∨ (NameScopes.held r' other).scope = _ ∧ ∀ owner,
        (NameScopes.held r' other).owner = some owner → _ ∧
          Function.update r'.names symbol.innerIndex name owner.innerIndex = other
      by_cases hother : other = name
      · refine .inr ?_
        rw [hother, htaken.held_self]
        refine ⟨hscope, fun owner howner => ?_⟩
        obtain rfl := Option.some.inj howner
        exact ⟨List.mem_append_right _ List.mem_cons_self, hself⟩
      · have hkeep : ∀ owner, owner ∈ done ∧ r.names owner.innerIndex = other →
            owner ∈ done ++ [symbol] ∧
              Function.update r'.names symbol.innerIndex name owner.innerIndex = other := by
          rintro owner ⟨hdone', hname⟩
          exact ⟨List.mem_append_left _ hdone', (hdone owner hdone').trans hname⟩
        rcases htaken.held_other other hother with hsame | ⟨count, hcounted⟩
        · rw [hsame]
          rcases h.table other with hbefore' | ⟨hcurrent, howners⟩
          · exact .inl hbefore'
          · exact .inr ⟨hcurrent, fun owner howner => hkeep owner (howners owner howner)⟩
        · refine .inr ?_
          rw [hcounted]
          refine ⟨hscope, fun owner howner => ?_⟩
          dsimp only at howner
          split at howner
          next hcurrent =>
            rcases h.table other with hbefore' | ⟨-, howners⟩
            · rw [hbefore', hscope] at hcurrent
              exact absurd hcurrent (Nat.ne_of_lt (hbefore.held_lt other))
            · exact hkeep owner (howners owner howner)
          next => exact absurd howner (by simp)
    names := fun inner => by
      dsimp only
      by_cases hinner : inner = symbol.innerIndex
      · refine .inr ⟨?_, symbol, List.mem_append_right _ List.mem_cons_self, hinner.symm⟩
        rcases h.names inner with hsame | ⟨hnil, -⟩
        · rw [← hsame, hinner]
          exact hunnamed
        · exact hnil
      · rw [hold inner hinner]
        rcases h.names inner with hsame | ⟨hnil, other, hother, heq⟩
        · exact .inl hsame
        · exact .inr ⟨hnil, other, List.mem_append_left _ hother, heq⟩ }

theorem Declaring.of_mem_iff {done' : List Ast.Ref} (h : Declaring before head parent done r)
    (hmem : ∀ symbol, symbol ∈ done ↔ symbol ∈ done') : Declaring before head parent done' r where
  valid := h.valid
  within := h.within
  named symbol hsymbol := h.named symbol ((hmem symbol).mpr hsymbol)
  free symbol hsymbol := h.free symbol ((hmem symbol).mpr hsymbol)
  table name := by
    refine (h.table name).imp_right fun ⟨hscope, howners⟩ => ⟨hscope, fun owner howner => ?_⟩
    exact ⟨(hmem owner).mp (howners owner howner).1, (howners owner howner).2⟩
  names inner := by
    refine (h.names inner).imp_right fun ⟨hnil, symbol, hsymbol, hinner⟩ => ⟨hnil, symbol, ?_, hinner⟩
    exact (hmem symbol).mp hsymbol

/-- What taking a name leaves alone. -/
theorem lawful_within (hbefore : Valid before) (names : Nat → Name) :
    NameScopes.Lawful fun r => Valid r ∧ Within before head parent r ∧ r.names = names := by
  refine lawful.and (fun r name h => ⟨h.1.intern name, h.2⟩) fun r id slot h =>
    ⟨h.1.setSlot hbefore id slot, ?_⟩
  rcases setSlot_cases r id slot with ⟨place, -, -, heq⟩ | heq
  · rw [heq]
    exact h.2
  · rw [heq]
    exact h.2

/-- One symbol is named. -/
theorem Declaring.assignName (h : Declaring before head parent done r) (hbefore : Valid before)
    (hlink : before.root.symbols.Unlinked) (hsymbol : before.ToName symbol)
    (hunnamed : before.names symbol.innerIndex = [])
    (hdone : ∀ other ∈ done, other.sourceIndex = symbol.sourceIndex) :
    Declaring before head parent (done ++ [symbol]) (r.assignName unicode symbol) := by
  obtain ⟨hsource, data, hdata, hdefault⟩ := hsymbol
  rw [NestedRenamer.assignName, h.within.root, hlink.follow, h.within.sourceIndex]
  dsimp only
  rw [if_neg (not_not.mpr hsource)]
  split
  next hne =>
    -- it has been named before
    have hmem : symbol ∈ done := by
      rcases h.names symbol.innerIndex with hsame | ⟨-, other, hother, hinner⟩
      · exact absurd (hsame.trans hunnamed) hne
      · have heq : other = symbol := Ast.Ref.ext (hdone other hother) hinner
        exact heq ▸ hother
    refine h.of_mem_iff fun other => ⟨List.mem_append_left _, fun hother => ?_⟩
    exact (List.mem_append.mp hother).elim id fun hother => List.mem_singleton.mp hother ▸ hmem
  next hnil =>
    rw [hdata]
    dsimp only
    rw [if_neg (not_not.mpr hdefault)]
    obtain ⟨⟨hvalid, hwithin, hnames⟩, htaken⟩ := NameScopes.findUnusedName_spec
      (lawful_within hbefore r.names) unicode ⟨h.valid, h.within, rfl⟩ data.originalName symbol
    exact h.take hbefore (not_not.mp hnil) hvalid hwithin hnames htaken

/-- The symbols of a scope are named one after the other. -/
theorem Declaring.foldl (unicode : UnicodeTables) (hbefore : Valid before) (hlink : before.root.symbols.Unlinked)
    (symbols : List Ast.Ref) : ∀ {done : List Ast.Ref} {r : NestedRenamer},
      Declaring before head parent done r →
      (∀ symbol ∈ done ++ symbols, before.ToName symbol ∧ before.names symbol.innerIndex = []) →
      Declaring before head parent (done ++ symbols) (symbols.foldl (NestedRenamer.assignName unicode) r) := by
  induction symbols with
  | nil =>
    intro done r h _
    rw [List.append_nil]
    exact h
  | cons symbol symbols ih =>
    intro done r h hall
    obtain ⟨hsymbol, hunnamed⟩ := hall symbol (List.mem_append_right _ List.mem_cons_self)
    rw [List.append_cons, List.foldl_cons]
    refine ih (h.assignName hbefore hlink hsymbol hunnamed fun other hother => ?_) fun other hother => ?_
    · exact (hall other (List.mem_append_left _ hother)).1.1.trans hsymbol.1.symm
    · rw [← List.append_cons] at hother
      exact hall other hother

theorem mem_inOrder {sourceIndex : Nat} {head : Ast.ScopeHead}
    (h : ∀ symbol ∈ head.members, symbol.sourceIndex = sourceIndex) (symbol : Ast.Ref) :
    symbol ∈ inOrder sourceIndex head ↔ symbol ∈ head.members ++ head.generated := by
  rw [inOrder, List.mem_append, List.mem_append]
  refine or_congr_left ?_
  constructor
  · intro hmem
    obtain ⟨inner, hinner, rfl⟩ := List.mem_map.mp hmem
    obtain ⟨member, hmember, rfl⟩ := List.mem_map.mp (mem_sortNumbers.1 hinner)
    rw [← h member hmember]
    exact hmember
  · intro hmem
    rw [← h symbol hmem]
    exact List.mem_map.mpr ⟨symbol.innerIndex,
      mem_sortNumbers.2 (List.mem_map_of_mem hmem), rfl⟩

/-- All symbols of a scope are named. -/
theorem declaring_assignDeclared {children : List Ast.Scope} (hbefore : Valid before)
    (hlink : before.root.symbols.Unlinked)
    (hsymbols : ∀ symbol ∈ (Ast.Scope.node head children).declared,
      before.ToName symbol ∧ before.names symbol.innerIndex = []) :
    Declaring before head parent (Ast.Scope.node head children).declared
      ((before.enterScope head parent).assignDeclared unicode head) := by
  have hmem : ∀ symbol, symbol ∈ inOrder before.sourceIndex head ↔
      symbol ∈ head.members ++ head.generated := mem_inOrder fun symbol hsymbol =>
    (hsymbols symbol (List.mem_append_left _ hsymbol)).1.1
  have hall := Declaring.foldl unicode hbefore hlink (inOrder before.sourceIndex head)
    (declaring_enterScope hbefore head parent) fun symbol hsymbol =>
      hsymbols symbol ((hmem symbol).mp hsymbol)
  exact hall.of_mem_iff hmem

/-! ## The walk -/

/-- The scopes of one parent are to be named. -/
structure Ready (r : NestedRenamer) (parent : Ast.ScopeHead) (scopes : List Ast.Scope) : Prop where
  valid : Valid r
  unlinked : r.root.symbols.Unlinked
  toName : ∀ scope ∈ scopes, ∀ inner, Inside inner scope → ∀ symbol ∈ inner.declared,
    r.ToName symbol ∧ r.names symbol.innerIndex = []
  /-- What a scope does not see is not used in it. -/
  sees : ∀ scope ∈ scopes, ∀ owner,
    r.uses.sees owner scope.head (some parent) = false → ¬ UsedIn r.uses owner scope
  seesBelow : ∀ scope ∈ scopes, ∀ outer, Inside outer scope → ∀ child ∈ outer.children, ∀ owner,
    r.uses.sees owner child.head (some outer.head) = false → ¬ UsedIn r.uses owner child
  /-- Each symbol is declared in one scope. -/
  once : ∀ scope ∈ scopes, ∀ scope' ∈ scopes, ∀ inner, Inside inner scope → ∀ inner',
    Inside inner' scope' → ∀ symbol ∈ inner.declared, symbol ∈ inner'.declared →
      inner.head.visitSpan.1 = inner'.head.visitSpan.1

/-- Symbols that had no name and are declared in some scopes have been named. -/
def Renamed (scopes : List Ast.Scope) (r r' : NestedRenamer) : Prop :=
  ∀ index, r'.names index = r.names index ∨ r.names index = [] ∧
    ∃ scope ∈ scopes, ∃ inner, Inside inner scope ∧ ∃ symbol ∈ inner.declared,
      symbol.innerIndex = index

theorem Renamed.unnamed (h : Renamed scopes r r') (hunnamed : r.names symbol.innerIndex = [])
    (hother : ∀ scope ∈ scopes, ∀ inner, Inside inner scope → ∀ other ∈ inner.declared,
      other.sourceIndex = symbol.sourceIndex ∧ other ≠ symbol) :
    r'.names symbol.innerIndex = [] := by
  rcases h symbol.innerIndex with hsame | ⟨-, scope, hscope, inner, hinner, other, hdeclared, heq⟩
  · exact hsame.trans hunnamed
  · obtain ⟨hsource, hne⟩ := hother scope hscope inner hinner other hdeclared
    exact absurd (Ast.Ref.ext hsource heq) hne

theorem Renamed.eq_of_ne (h : Renamed scopes r r') {index : Nat} (hne : r.names index ≠ []) :
    r'.names index = r.names index :=
  (h index).resolve_right fun hnil => hne hnil.1

/-- Naming the scopes of one parent: the table is as before, and the names are sound over it. -/
structure Walked (scopes : List Ast.Scope) (r r' : NestedRenamer) : Prop where
  valid : Valid r'
  back : Back r r'
  held : NameScopes.held r' = NameScopes.held r
  renamed : Renamed scopes r r'
  sound : ∀ scope ∈ scopes, Sound r.uses (NameScopes.held r)
    (fun symbol => r'.names symbol.innerIndex) scope

/-- In a scope whose symbols have been named, its children are ready. -/
theorem Ready.children {parent : Ast.ScopeHead} {children rest : List Ast.Scope}
    (h : Ready r parent (.node head children :: rest)) (hspan : head.visitSpan = (n, m - 1))
    (hchildren : Ast.Scope.Numbered (n + 1) children m)
    (hdeclaring : Declaring r head (some parent) (Ast.Scope.node head children).declared r') :
    Ready r' head children := by
  have hinside : ∀ child ∈ children, ∀ inner, Inside inner child →
      Inside inner (.node head children) := fun child hchild inner hinner => .child hchild hinner
  have hwithin := hdeclaring.within
  refine ⟨hdeclaring.valid, hwithin.root ▸ h.unlinked, fun child hchild inner hinner symbol hsymbol => ?_,
    fun child hchild owner => ?_, fun child hchild outer houter child' hchild' owner => ?_,
    fun child hchild child' hchild' inner hinner inner' hinner' => ?_⟩
  · obtain ⟨⟨hsource, hdata⟩, hunnamed⟩ :=
      h.toName _ List.mem_cons_self inner (hinside child hchild inner hinner) symbol hsymbol
    refine ⟨⟨hsource.trans hwithin.sourceIndex.symm, hwithin.root ▸ hdata⟩, ?_⟩
    rcases hdeclaring.names symbol.innerIndex with hsame | ⟨-, other, hother, heq⟩
    · exact hsame.trans hunnamed
    · have hsource' := (h.toName _ List.mem_cons_self _ (.refl _) other hother).1.1
      have hsymbol' : other = symbol := Ast.Ref.ext (hsource'.trans hsource.symm) heq
      have hnumber := h.once _ List.mem_cons_self _ List.mem_cons_self _ (.refl _) inner
        (hinside child hchild inner hinner) other hother (hsymbol' ▸ hsymbol)
      have hbounds := (hchildren.bounds hchild hinner).1
      rw [← hnumber, Ast.Scope.head, hspan] at hbounds
      exact absurd hbounds (Nat.not_succ_le_self n)
  · rw [hwithin.uses]
    exact h.seesBelow _ List.mem_cons_self _ (.refl _) child hchild owner
  · rw [hwithin.uses]
    exact h.seesBelow _ List.mem_cons_self outer (hinside child hchild outer houter) child' hchild' owner
  · exact h.once _ List.mem_cons_self _ List.mem_cons_self inner (hinside child hchild inner hinner) inner'
      (hinside child' hchild' inner' hinner')

/-- A scope is left, and it and what is inside it have their names. -/
theorem walked_node {parent : Ast.ScopeHead} {children rest : List Ast.Scope} {declared inner : NestedRenamer}
    (h : Ready r parent (.node head children :: rest))
    (hdeclaring : Declaring r head (some parent) (Ast.Scope.node head children).declared declared)
    (hchildren : Walked children declared inner) :
    Walked [.node head children] r (leaveScope r inner) := by
  obtain ⟨hback, hvalid, hheld⟩ := (hdeclaring.within.back hchildren.back).leaveScope h.valid hchildren.valid
  have hsame : ∀ symbol ∈ (Ast.Scope.node head children).declared,
      inner.names symbol.innerIndex = declared.names symbol.innerIndex := fun symbol hsymbol =>
    hchildren.renamed.eq_of_ne (hdeclaring.named symbol hsymbol).1
  refine ⟨hvalid, hback, hheld, fun index => ?_, fun scope hscope => ?_⟩
  · rcases hchildren.renamed index with hinner | ⟨hnil, child, hchild, scope, hscope, symbol, hsymbol, hindex⟩
    · rcases hdeclaring.names index with hdeclared | ⟨hnil, symbol, hsymbol, hindex⟩
      · exact .inl (hinner.trans hdeclared)
      · exact .inr ⟨hnil, _, List.mem_cons_self, _, .refl _, symbol, hsymbol, hindex⟩
    · refine .inr ⟨?_, _, List.mem_cons_self, scope, .child hchild hscope, symbol, hsymbol, hindex⟩
      rcases hdeclaring.names index with hdeclared | ⟨hnil', -⟩
      · exact hdeclared.symm.trans hnil
      · exact hnil'
  · obtain rfl := List.mem_singleton.mp hscope
    have huses := hdeclaring.within.uses
    have hserial : r.nextScope ≠ noScope :=
      Nat.ne_of_gt (Nat.lt_of_le_of_lt (Nat.zero_le _) h.valid.scope_lt.1)
    change Sound r.uses (NameScopes.held r) (fun symbol => inner.names symbol.innerIndex) _
    refine Sound.node (NameScopes.held declared) hserial (fun symbol hsymbol => ?_)
      (fun symbol hsymbol => ?_) (fun symbol hsymbol => ?_) (fun name => ?_) (fun child hchild => ?_)
    · rw [hsame symbol hsymbol]
      exact (hdeclaring.named symbol hsymbol).1
    · rw [hsame symbol hsymbol]
      exact (hdeclaring.named symbol hsymbol).2
    · rw [hsame symbol hsymbol]
      refine (hdeclaring.free symbol hsymbol).imp_right fun ⟨owner, howner, hunseen⟩ => ?_
      exact ⟨owner, howner, h.sees _ List.mem_cons_self owner hunseen⟩
    · refine (hdeclaring.table name).imp_right fun ⟨hscope, howners⟩ => ⟨hscope, fun owner howner => ?_⟩
      obtain ⟨hdeclared, hname⟩ := howners owner howner
      exact ⟨hdeclared, (hsame owner hdeclared).trans hname⟩
    · rw [← huses]
      exact hchildren.sound child hchild

/-- The first of some scopes is named, and then the rest. -/
theorem Walked.cons {rest : List Ast.Scope} {r₁ r₂ : NestedRenamer} (h : Walked [scope] r r₁)
    (h' : Walked rest r₁ r₂) : Walked (scope :: rest) r r₂ where
  valid := h'.valid
  back := h.back.trans h'.back
  held := h'.held.trans h.held
  renamed index := by
    rcases h'.renamed index with hsame | ⟨hnil, scope', hscope', hrest⟩
    · rcases h.renamed index with hsame' | ⟨hnil, scope', hscope', hrest⟩
      · exact .inl (hsame.trans hsame')
      · exact .inr ⟨hnil, scope', List.mem_singleton.mp hscope' ▸ List.mem_cons_self, hrest⟩
    · refine .inr ⟨?_, scope', List.mem_cons_of_mem _ hscope', hrest⟩
      rcases h.renamed index with hsame' | ⟨hnil', -⟩
      · exact hsame'.symm.trans hnil
      · exact hnil'
  sound scope' hscope' := by
    rcases List.mem_cons.mp hscope' with rfl | hscope'
    · refine (h.sound scope' List.mem_cons_self).congr fun inner hinner symbol hsymbol => ?_
      exact h'.renamed.eq_of_ne ((h.sound scope' List.mem_cons_self).named inner hinner symbol hsymbol)
    · have hsound := h'.sound scope' hscope'
      rwa [h.back.uses, h.held] at hsound

/-- After the first scope the rest are ready. -/
theorem Ready.rest {parent : Ast.ScopeHead} {rest : List Ast.Scope} (h : Ready r parent (scope :: rest))
    (hscope : Ast.Scope.Numbered n [scope] m) (hrest : Ast.Scope.Numbered m rest k)
    (hwalked : Walked [scope] r r') : Ready r' parent rest := by
  have hback := hwalked.back
  refine ⟨hwalked.valid, hback.root ▸ h.unlinked, fun sibling hsibling inner hinner symbol hsymbol => ?_,
    fun sibling hsibling => ?_, fun sibling hsibling => ?_,
    fun sibling hsibling sibling' hsibling' =>
      h.once sibling (List.mem_cons_of_mem _ hsibling) sibling' (List.mem_cons_of_mem _ hsibling')⟩
  · obtain ⟨⟨hsource, hdata⟩, hunnamed⟩ :=
      h.toName sibling (List.mem_cons_of_mem _ hsibling) inner hinner symbol hsymbol
    refine ⟨⟨hsource.trans hback.sourceIndex.symm, hback.root ▸ hdata⟩, hwalked.renamed.unnamed hunnamed ?_⟩
    intro scope' hscope' inner' hinner' other hother
    obtain rfl := List.mem_singleton.mp hscope'
    refine ⟨(h.toName _ List.mem_cons_self inner' hinner' other hother).1.1.trans hsource.symm, ?_⟩
    rintro rfl
    have hnumber := h.once _ List.mem_cons_self sibling (List.mem_cons_of_mem _ hsibling) inner' hinner' inner
      hinner other hother hsymbol
    have hlt := (hscope.bounds List.mem_cons_self hinner').2
    rw [hnumber] at hlt
    exact absurd (hrest.bounds hsibling hinner).1 (Nat.not_le.mpr hlt)
  · rw [hback.uses]
    exact h.sees sibling (List.mem_cons_of_mem _ hsibling)
  · rw [hback.uses]
    exact h.seesBelow sibling (List.mem_cons_of_mem _ hsibling)

theorem walked_assignNamesOfChildren (unicode : UnicodeTables) (h : Ast.Scope.Numbered n scopes k) :
    ∀ {r : NestedRenamer} {parent : Ast.ScopeHead},
      Ready r parent scopes → Walked scopes r (assignNamesOfChildren unicode r parent scopes) := by
  induction h with
  | nil =>
    intro r parent hready
    exact ⟨hready.valid, .refl r, rfl, fun _ => .inl rfl, fun _ hscope => absurd hscope List.not_mem_nil⟩
  | @cons n m k head children rest hspan hchildren hrest ihChildren ihRest =>
    intro r parent hready
    have hdeclaring : Declaring r head (some parent) (Ast.Scope.node head children).declared
        ((r.enterScope head (some parent)).assignDeclared unicode head) :=
      declaring_assignDeclared hready.valid hready.unlinked
        (hready.toName _ List.mem_cons_self _ (.refl _))
    have hnode := walked_node hready hdeclaring (ihChildren (hready.children hspan hchildren hdeclaring))
    rw [assignNamesOfChildren, assignNamesRecursive]
    exact hnode.cons (ihRest (hready.rest (.cons hspan hchildren (.nil m)) hrest hnode))

end NestedRenamer

/-! ## A file -/

/-- A file's symbols, scopes and uses. -/
structure File where
  uses : ScopeUses
  module : Ast.Scope
  /-- The symbols of the module scope, in the order that they are added. -/
  topLevel : List Ast.Ref
  unlinked : uses.symbols.Unlinked
  numbered : ∃ last, Ast.Scope.Numbered 0 [module] last
  mem_topLevel : ∀ symbol, symbol ∈ topLevel ↔ symbol ∈ module.declared
  declared : ∀ scope, Inside scope module → ∀ symbol ∈ scope.declared,
    symbol.sourceIndex = uses.sourceIndex ∧ ∃ data, uses.symbols.getConst symbol = some data ∧
      data.slotNamespace = .default
  /-- Each symbol is declared in one scope. -/
  once : ∀ scope, Inside scope module → ∀ other, Inside other module →
    ∀ symbol ∈ scope.declared, symbol ∈ other.declared → scope = other
  uses_inFile : uses.InFile

namespace File
variable (unicode : UnicodeTables) (file : File) (rootNames : List (Name × Nat))

/-- All top-level symbols are added. -/
def root : NumberRenamer :=
  file.topLevel.foldl (NumberRenamer.addTopLevelSymbol unicode)
    (NumberRenamer.init file.uses.symbols rootNames)

/-- The top level is named, and then each child scope of the module. -/
def rename : NumberRenamer :=
  let root := file.root unicode rootNames
  let nested := NestedRenamer.new root file.uses file.uses.sourceIndex
  NestedRenamer.absorb root
    (nested.assignNamesOfChildren unicode file.module.head file.module.children)

variable {file}

/-- What a scope does not see is not used in it. -/
theorem unused_of_sees {outer child : Ast.Scope} (houter : Inside outer file.module)
    (hchild : child ∈ outer.children) {owner : Ast.Ref}
    (h : file.uses.sees owner child.head (some outer.head) = false) :
    ¬ UsedIn file.uses owner child := by
  rintro ⟨hsource, inner, hinner, hrecords⟩
  obtain ⟨last, hnumbered⟩ := file.numbered
  obtain ⟨-, -, -, k, houterNumbered⟩ := hnumbered.inside houter
  obtain ⟨-, -, -, m, hchildNumbered⟩ := houterNumbered.inside (.child hchild (.refl child))
  have hspans : ∀ {scope : Ast.Scope} {k : Nat},
      Ast.Scope.Numbered scope.head.visitSpan.1 [scope] k → Inside inner scope →
      scope.head.visitSpan.1 ≤ inner.head.visitSpan.1 ∧
        inner.head.visitSpan.1 ≤ scope.head.visitSpan.2 := by
    intro scope k hscope hinside
    obtain ⟨hfirst, hspan, hlast, -⟩ := hscope.inside hinside
    refine ⟨hfirst, hspan.trans (hlast.trans (Nat.le_of_eq ?_))⟩
    cases hscope with
    | cons hspan _ hrest =>
      cases hrest
      exact (congrArg Prod.snd hspan).symm
  have hbounds : (seenFrom child.head (some outer.head)).visitSpan.1 ≤ inner.head.visitSpan.1 ∧
      inner.head.visitSpan.1 ≤ (seenFrom child.head (some outer.head)).visitSpan.2 := by
    have hchildSpan := hspans hchildNumbered hinner
    have houterSpan := hspans houterNumbered (.child hchild hinner)
    rcases seenFrom_some child.head outer.head with heq | heq
    · rw [heq]
      exact hchildSpan
    · rw [heq]
      exact houterSpan
  have hsees := sees_of_records file.uses_inFile hsource hrecords hbounds.1 hbounds.2
  rw [h] at hsees
  exact absurd hsees (by decide)

/-- The root scope after some of the top-level symbols. -/
theorem named_foldl (hlink : file.uses.symbols.Unlinked) {reserved : List Name}
    (symbols : List Ast.Ref) : ∀ {r : NumberRenamer} {done : List Ast.Ref},
      NumberRenamer.Named file.uses.symbols reserved r →
      (∀ symbol ∈ done, r.names symbol ≠ []) → (∀ symbol, r.names symbol ≠ [] → symbol ∈ done) →
      (∀ symbol ∈ symbols, ∃ data, file.uses.symbols.getConst symbol = some data ∧
        data.slotNamespace = .default) →
      let r' := symbols.foldl (NumberRenamer.addTopLevelSymbol unicode) r
      NumberRenamer.Named file.uses.symbols reserved r' ∧
        ∀ symbol, r'.names symbol ≠ [] ↔ symbol ∈ done ++ symbols := by
  induction symbols with
  | nil =>
    intro r done h hdone honly _
    rw [List.append_nil]
    exact ⟨h, fun symbol => ⟨honly symbol, hdone symbol⟩⟩
  | cons symbol symbols ih =>
    intro r done h hdone honly hdata
    obtain ⟨hnamed, hkeep, hothers, hself⟩ := h.addTopLevelSymbol unicode hlink symbol
    obtain ⟨data, hget, hdefault⟩ := hdata symbol List.mem_cons_self
    rw [List.append_cons, List.foldl_cons]
    refine ih hnamed (fun other hother => ?_) (fun other hother => ?_)
      (fun other hother => hdata other (List.mem_cons_of_mem _ hother))
    · rcases List.mem_append.mp hother with hother | hother
      · rw [hkeep other (hdone other hother)]
        exact hdone other hother
      · rw [List.mem_singleton.mp hother]
        exact hself data hget hdefault
    · by_cases heq : other = symbol
      · exact List.mem_append_right _ (List.mem_singleton.mpr heq)
      · rw [hothers other heq] at hother
        exact List.mem_append_left _ (honly other hother)

theorem named_root (file : File) (rootNames : List (Name × Nat)) :
    NumberRenamer.Named file.uses.symbols (rootNames.map (·.1)) (file.root unicode rootNames) ∧
    ∀ symbol, (file.root unicode rootNames).names symbol ≠ [] ↔ symbol ∈ file.module.declared := by
  obtain ⟨hnamed, hnames⟩ := NumberRenamer.Named.of_init file.uses.symbols rootNames
  have hdone : ∀ symbol ∈ ([] : List Ast.Ref),
      (NumberRenamer.init file.uses.symbols rootNames).names symbol ≠ [] :=
    fun _ h => absurd h List.not_mem_nil
  obtain ⟨hroot, hiff⟩ := named_foldl unicode file.unlinked file.topLevel hnamed hdone
    (fun symbol hne => absurd (congrFun hnames symbol) hne)
    (fun symbol hsymbol => (file.declared _ (.refl _) symbol ((file.mem_topLevel symbol).mp hsymbol)).2)
  exact ⟨hroot, fun symbol => (hiff symbol).trans (file.mem_topLevel symbol)⟩

theorem ready_new (file : File) (rootNames : List (Name × Nat)) :
    NestedRenamer.Ready
      (NestedRenamer.new (file.root unicode rootNames) file.uses file.uses.sourceIndex)
      file.module.head file.module.children := by
  obtain ⟨hnamed, hnames⟩ := named_root unicode file rootNames
  have hinside : ∀ child ∈ file.module.children, ∀ inner, Inside inner child →
      Inside inner file.module := fun child hchild inner hinner => .child hchild hinner
  refine ⟨NestedRenamer.valid_new hnamed.valid _ _, hnamed.symbols ▸ file.unlinked,
    fun child hchild inner hinner symbol hsymbol => ?_, fun child hchild owner => ?_,
    fun child hchild outer houter child' hchild' owner => ?_,
    fun child hchild child' hchild' inner hinner inner' hinner' symbol hsymbol hsymbol' => ?_⟩
  · obtain ⟨hsource, hdata⟩ := file.declared inner (hinside child hchild inner hinner) symbol hsymbol
    refine ⟨⟨hsource, hnamed.symbols ▸ hdata⟩, ?_⟩
    have hunnamed : ¬ (file.root unicode rootNames).names symbol ≠ [] := by
      rw [hnames]
      intro hmodule
      obtain ⟨last, hnumbered⟩ := file.numbered
      have hlt := hnumbered.lt_below hchild hinner
      rw [file.once _ (.refl _) inner (hinside child hchild inner hinner) symbol hmodule hsymbol] at hlt
      exact absurd hlt (Nat.lt_irrefl _)
    have heq : symbol = ⟨file.uses.sourceIndex, symbol.innerIndex⟩ := Ast.Ref.ext hsource rfl
    change (file.root unicode rootNames).names ⟨file.uses.sourceIndex, symbol.innerIndex⟩ = []
    rw [← heq]
    exact not_not.mp hunnamed
  · exact unused_of_sees (.refl _) hchild
  · exact unused_of_sees (hinside child hchild outer houter) hchild'
  · rw [file.once inner (hinside child hchild inner hinner) inner' (hinside child' hchild' inner' hinner')
      symbol hsymbol hsymbol']

/-- A table over the root's says what the root's says. -/
theorem held_new {root : NumberRenamer} (uses : ScopeUses) (sourceIndex : Nat) :
    NameScopes.held (NestedRenamer.new root uses sourceIndex) = NameScopes.held root := by
  funext name
  have hlookup : (root.ids.lookup name).or none = root.ids.lookup name := Option.or_none
  rw [NestedRenamer.held_mk, NumberRenamer.held_mk, ← hlookup]
  rfl

/-- What the file's names are over the root's table. -/
theorem sound_rename (file : File) (rootNames : List (Name × Nat)) :
    (∀ symbol ∈ file.module.declared,
      (file.rename unicode rootNames).nameForSymbol symbol = (file.root unicode rootNames).names symbol) ∧
    ∀ child ∈ file.module.children, Sound file.uses (NameScopes.held (file.root unicode rootNames))
      (file.rename unicode rootNames).nameForSymbol child := by
  obtain ⟨hnamed, hnames⟩ := named_root unicode file rootNames
  obtain ⟨last, hnumbered⟩ := file.numbered
  obtain ⟨n, m, hchildren⟩ : ∃ n m, Ast.Scope.Numbered n file.module.children m := by
    cases hmodule : file.module with
    | node head children =>
      rw [hmodule] at hnumbered
      cases hnumbered with
      | cons _ hchildren _ => exact ⟨_, _, hchildren⟩
  have hwalked := NestedRenamer.walked_assignNamesOfChildren unicode hchildren
    (ready_new unicode file rootNames)
  have hsymbols : (file.root unicode rootNames).symbols.Unlinked := hnamed.symbols ▸ file.unlinked
  generalize hnested : NestedRenamer.assignNamesOfChildren unicode (NestedRenamer.new
    (file.root unicode rootNames) file.uses file.uses.sourceIndex) file.module.head file.module.children =
      nested at hwalked
  have hrename : file.rename unicode rootNames =
      NestedRenamer.absorb (file.root unicode rootNames) nested := by
    rw [rename, ← hnested]
  have hname : ∀ symbol : Ast.Ref, symbol.sourceIndex = file.uses.sourceIndex →
      nested.names symbol.innerIndex ≠ [] →
      (file.rename unicode rootNames).nameForSymbol symbol = nested.names symbol.innerIndex := by
    intro symbol hsource hne
    have hnames' : (NestedRenamer.absorb (file.root unicode rootNames) nested).names symbol =
        nested.names symbol.innerIndex :=
      if_pos (hsource.trans hwalked.back.sourceIndex.symm)
    have hfollow : (NestedRenamer.absorb (file.root unicode rootNames) nested).symbols.follow symbol =
        symbol := hsymbols.follow symbol
    rw [hrename, NumberRenamer.nameForSymbol, hfollow, hnames', if_pos hne]
  refine ⟨fun symbol hsymbol => ?_, fun child hchild => ?_⟩
  · have hsource := (file.declared _ (.refl _) symbol hsymbol).1
    have hnew : (NestedRenamer.new (file.root unicode rootNames) file.uses file.uses.sourceIndex).names
        symbol.innerIndex = (file.root unicode rootNames).names symbol :=
      congrArg (file.root unicode rootNames).names (Ast.Ref.ext hsource.symm rfl)
    have hne : (file.root unicode rootNames).names symbol ≠ [] := (hnames symbol).mpr hsymbol
    have hsame := hwalked.renamed.eq_of_ne (by rw [hnew]; exact hne)
    rw [hname symbol hsource (by rw [hsame, hnew]; exact hne), hsame, hnew]
  · have hsound := hwalked.sound child hchild
    rw [held_new] at hsound
    refine hsound.congr fun inner hinner symbol hsymbol => ?_
    exact hname symbol (file.declared inner (.child hchild hinner) symbol hsymbol).1
      (hsound.named inner hinner symbol hsymbol)

/-- Renaming is capture-free.  At the top level no name is used twice or reserved, and in a
nested scope none is used twice; on the way from a use of a symbol to the scope that declares
it no scope declares another of its name, and no nested symbol has a reserved name. -/
theorem capture_free (file : File) (rootNames : List (Name × Nat)) :
    let name := (file.rename unicode rootNames).nameForSymbol
    (∀ symbol ∈ file.topLevel, name symbol ∉ rootNames.map (·.1) ∧
      ∀ other ∈ file.topLevel, name symbol = name other → symbol = other) ∧
    (∀ child ∈ file.module.children, ∀ scope, Inside scope child → ∀ symbol ∈ scope.declared,
      name symbol ∉ rootNames.map (·.1) ∧
      ∀ other ∈ scope.declared, name symbol = name other → symbol = other) ∧
    ∀ outer, Inside outer file.module → ∀ symbol ∈ outer.declared,
      ∀ child ∈ outer.children, ∀ between, Inside between child → ∀ scope, Inside scope between →
      file.uses.list.Records symbol.innerIndex scope.head.visitSpan.1 →
      ∀ other ∈ between.declared, name other ≠ name symbol := by
  obtain ⟨hnamed, hnames⟩ := named_root unicode file rootNames
  obtain ⟨htop, hsound⟩ := sound_rename unicode file rootNames
  generalize (file.rename unicode rootNames).nameForSymbol = name at htop hsound
  have hne : ∀ symbol ∈ file.module.declared, (file.root unicode rootNames).names symbol ≠ [] :=
    fun symbol hsymbol => (hnames symbol).mpr hsymbol
  refine ⟨fun symbol hsymbol => ?_, fun child hchild scope hscope symbol hsymbol => ?_,
    fun outer houter symbol hsymbol child hchild between hbetween scope hscope hused other hother heq => ?_⟩
  · have hsymbol' := (file.mem_topLevel symbol).mp hsymbol
    rw [htop symbol hsymbol']
    refine ⟨hnamed.not_mem_reserved (hne symbol hsymbol'), fun other hother heq => ?_⟩
    rw [htop other ((file.mem_topLevel other).mp hother)] at heq
    exact hnamed.injective (hne symbol hsymbol') heq
  · refine ⟨fun hreserved => ?_, (hsound child hchild).distinct scope hscope symbol hsymbol⟩
    obtain ⟨count, hheld⟩ := hnamed.reserved _ hreserved
    obtain ⟨owner, howner, -⟩ := (hsound child hchild).outer scope hscope symbol hsymbol
      (by rw [hheld]; exact Nat.one_ne_zero)
    rw [hheld] at howner
    exact absurd howner (by simp)
  · have hsource := (file.declared outer houter symbol hsymbol).1
    have husedIn : UsedIn file.uses symbol between := ⟨hsource, scope, hscope, hused⟩
    cases houter with
    | refl =>
      obtain ⟨count, hheld⟩ := hnamed.named symbol (hne symbol hsymbol)
      rw [← htop symbol hsymbol, ← heq] at hheld
      obtain ⟨owner, howner, hunused⟩ := (hsound child hchild).outer between hbetween other hother
        (by rw [hheld]; exact Nat.one_ne_zero)
      rw [hheld] at howner
      obtain rfl := Option.some.inj howner
      exact hunused husedIn
    | child hchild' houter =>
      exact (hsound _ hchild').within outer houter symbol hsymbol child hchild between hbetween other
        hother heq husedIn

/-- A function with an `x` of its own that also uses the `x` of the module. -/
def shadowing : File where
  uses := {
    sourceIndex := 0
    list := { tracked := true, points := [⟨1, 0⟩], spans := [], spans_sorted := .nil }
    parts := []
    partsLive := fun _ => true
    symbols := ⟨[[{ originalName := ascii "x" }, { originalName := ascii "x" }]]⟩ }
  module := .node { kind := .entry, members := [⟨0, 0⟩], visitSpan := (0, 1) }
    [.node { kind := .functionArgs, members := [⟨0, 1⟩], visitSpan := (1, 1) } []]
  topLevel := [⟨0, 0⟩]
  unlinked := by
    intro list hlist symbol hsymbol
    obtain rfl := List.mem_singleton.mp hlist
    simp only [List.mem_cons, List.not_mem_nil, or_false, or_self] at hsymbol
    rw [hsymbol]
  numbered := ⟨2, .cons rfl (.cons rfl (.nil 2) (.nil 2)) (.nil 2)⟩
  mem_topLevel := fun symbol => Iff.rfl
  declared := by
    intro scope hscope symbol hsymbol
    cases hscope with
    | refl =>
      obtain rfl := List.mem_singleton.mp hsymbol
      exact ⟨rfl, _, rfl, rfl⟩
    | child hchild hscope =>
      obtain rfl := List.mem_singleton.mp hchild
      cases hscope with
      | refl =>
        obtain rfl := List.mem_singleton.mp hsymbol
        exact ⟨rfl, _, rfl, rfl⟩
      | child hchild _ => exact absurd hchild List.not_mem_nil
  once := by
    intro scope hscope scope' hscope' symbol hsymbol hsymbol'
    cases hscope with
    | refl =>
      cases hscope' with
      | refl => rfl
      | child hchild hscope' =>
        obtain rfl := List.mem_singleton.mp hchild
        cases hscope' with
        | refl =>
          obtain rfl := List.mem_singleton.mp hsymbol
          exact absurd (List.mem_singleton.mp hsymbol') (by decide)
        | child hchild _ => exact absurd hchild List.not_mem_nil
    | child hchild hscope =>
      obtain rfl := List.mem_singleton.mp hchild
      cases hscope with
      | refl =>
        obtain rfl := List.mem_singleton.mp hsymbol
        cases hscope' with
        | refl => exact absurd (List.mem_singleton.mp hsymbol') (by decide)
        | child hchild hscope' =>
          obtain rfl := List.mem_singleton.mp hchild
          cases hscope' with
          | refl => rfl
          | child hchild _ => exact absurd hchild List.not_mem_nil
      | child hchild _ => exact absurd hchild List.not_mem_nil
  uses_inFile := by
    intro point hpoint
    obtain rfl := List.mem_singleton.mp hpoint
    decide

/-- The function's own `x` is not called what the module's is. -/
theorem shadowing_renamed :
    (shadowing.rename ⟨fun _ => false, fun _ => false⟩ []).nameForSymbol ⟨0, 1⟩ ≠
      (shadowing.rename ⟨fun _ => false, fun _ => false⟩ []).nameForSymbol ⟨0, 0⟩ :=
  (capture_free ⟨fun _ => false, fun _ => false⟩ shadowing []).2.2 _ (.refl _) _ List.mem_cons_self _
    List.mem_cons_self _ (.refl _) _ (.refl _) (.inl List.mem_cons_self) _ List.mem_cons_self

end File

end OhosBun.JsPrinter
