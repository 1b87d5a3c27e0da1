/-
# `OhosBun.JsPrinter.NumberRenamer` — the names of the top level

The root scope of a chunk: reserved names are held by nobody, and each top-level symbol takes
a name that nobody holds.  So no two of them have one name, and none has a reserved one
(`Named.injective`, `Named.reserved`).
-/
import OhosBun.JsPrinter.NameScopes

namespace OhosBun.JsPrinter

open OhosBun.Lib

/-- `names` is empty for a symbol that has not been named. -/
structure NumberRenamer where
  symbols : Ast.SymbolMap
  names : Ast.Ref → Name := fun _ => []
  /-- Every name seen in the chunk's root scope, with its index into `slots`. -/
  ids : List (Name × Nat) := []
  /-- By name id: who holds that name in the root scope. -/
  slots : List NameSlot := []

/-- `intern_into`: the id of a name, `nextId` if it had none, and whether it had none. -/
def internInto (ids : List (Name × Nat)) (nextId : Nat) (name : Name) :
    Nat × List (Name × Nat) × Bool :=
  match ids.lookup name with
  | some id => (id, ids, false)
  | none => (nextId, (name, nextId) :: ids, true)

namespace NumberRenamer

def intern (r : NumberRenamer) (name : Name) : Nat × NumberRenamer :=
  let (id, ids, isNew) := internInto r.ids r.slots.length name
  (id, { r with ids, slots := if isNew then r.slots ++ [.empty] else r.slots })

instance : NameScopes NumberRenamer where
  scope _ := rootScope
  idOf r name := r.ids.lookup name
  intern := intern
  slot r id := r.slots.getD id .empty
  setSlot r id slot := { r with slots := r.slots.set id slot }
  -- Top-level symbols of the whole chunk share one scope.
  sees _ _ := true
  interned r := r.ids.map (·.1)

variable (unicode : UnicodeTables)

def init (symbols : Ast.SymbolMap) (rootNames : List (Name × Nat)) : NumberRenamer :=
  rootNames.foldl (fun r key =>
    let (id, r) := r.intern key.1
    { r with slots := r.slots.set id ⟨rootScope, key.2, none⟩ }) { symbols }

def addTopLevelSymbol (r : NumberRenamer) (inputRef : Ast.Ref) : NumberRenamer :=
  let ref := r.symbols.follow inputRef
  -- Don't rename the same symbol more than once
  if r.names ref ≠ [] then r
  else
    match r.symbols.getConst ref with
    | none => r
    | some symbol =>
      -- Don't rename unbound symbols, symbols marked as reserved names, labels, or private names
      if symbol.slotNamespace ≠ .default then r
      else
        let (renamed, r) := NameScopes.findUnusedName unicode r symbol.originalName ref
        { r with names := Function.update r.names ref (renamed.getD symbol.originalName) }

def nameForSymbol (r : NumberRenamer) (ref : Ast.Ref) : Name :=
  let resolved := r.symbols.follow ref
  if r.names resolved ≠ [] then r.names resolved
  else ((r.symbols.getConst resolved).map (·.originalName)).getD []

/-! ## The table -/

/-- Each name has an id of its own, and each id a slot; no scope but the root has been named. -/
structure Valid (r : NumberRenamer) : Prop where
  ids_lt : ∀ {name id}, r.ids.lookup name = some id → id < r.slots.length
  ids_injective : ∀ {name other id}, r.ids.lookup name = some id → r.ids.lookup other = some id →
    name = other
  slots : ∀ slot ∈ r.slots, slot.scope ≤ rootScope

theorem valid_init (symbols : Ast.SymbolMap) : Valid { symbols } where
  ids_lt h := absurd h (by simp)
  ids_injective h := absurd h (by simp)
  slots _ h := absurd h List.not_mem_nil

variable {unicode} {r : NumberRenamer}

variable {ids : List (Name × Nat)} {name other : Name} {id : Nat}

theorem lookup_cons :
    ((name, id) :: ids).lookup other = if other = name then some id else ids.lookup other := by
  rw [List.lookup_cons]
  by_cases h : other = name
  · rw [if_pos h, beq_iff_eq.mpr h]
  · rw [if_neg h, beq_eq_false_iff_ne.mpr h]

/-- A new name with a new id leaves each id to one name. -/
theorem lookup_cons_injective {nextId : Nat}
    (hlt : ∀ {other id}, ids.lookup other = some id → id < nextId)
    (hinjective : ∀ {other other' id}, ids.lookup other = some id → ids.lookup other' = some id →
      other = other') {other' : Name} (h : ((name, nextId) :: ids).lookup other = some id)
    (h' : ((name, nextId) :: ids).lookup other' = some id) : other = other' := by
  rw [lookup_cons] at h h'
  split at h
  next heq =>
    split at h'
    next heq' => rw [heq, heq']
    next =>
      obtain rfl := Option.some.inj h
      exact absurd (hlt h') (Nat.lt_irrefl _)
  next =>
    split at h'
    next =>
      obtain rfl := Option.some.inj h'
      exact absurd (hlt h) (Nat.lt_irrefl _)
    next => exact hinjective h h'

theorem mem_of_lookup (h : ids.lookup name = some id) : name ∈ ids.map (·.1) := by
  obtain ⟨front, rest, heq, -⟩ := List.lookup_eq_some_iff.mp h
  exact List.mem_map.mpr ⟨(name, id), by rw [heq]; simp, rfl⟩

theorem intern_of_none (h : r.ids.lookup name = none) : r.intern name =
    (r.slots.length, { r with ids := (name, r.slots.length) :: r.ids, slots := r.slots ++ [.empty] }) := by
  rw [intern, internInto, h]
  rfl

theorem held_mk (r : NumberRenamer) (name : Name) : NameScopes.held r name =
    match r.ids.lookup name with
    | none => .empty
    | some id => r.slots.getD id .empty := rfl

theorem lawful : NameScopes.Lawful Valid where
  intern {r name} h hnone := by
    have hintern : NameScopes.intern r name = _ := intern_of_none hnone
    rw [hintern]
    refine ⟨⟨fun {other id} hother => ?_, lookup_cons_injective h.ids_lt h.ids_injective, ?_⟩, ?_, ?_,
      rfl⟩
    · rw [lookup_cons] at hother
      rw [List.length_append]
      split at hother
      · obtain rfl := Option.some.inj hother
        exact Nat.lt_succ_self _
      · exact Nat.lt_succ_of_lt (h.ids_lt hother)
    · intro slot hslot
      rcases List.mem_append.mp hslot with hslot | hslot
      · exact h.slots slot hslot
      · rw [List.mem_singleton.mp hslot]
        exact Nat.zero_le _
    · exact lookup_cons.trans (if_pos rfl)
    · funext other
      rw [held_mk, lookup_cons, held_mk]
      by_cases heq : other = name
      · have hnone' : r.ids.lookup name = none := hnone
        rw [if_pos heq, heq, hnone']
        simp
      · rw [if_neg heq]
        cases hother : r.ids.lookup other with
        | none => rfl
        | some id =>
          dsimp only
          rw [List.getD_append _ _ _ _ (h.ids_lt hother)]
  setSlot {r name id} slot h hid hslot := by
    have hset : NameScopes.setSlot r id slot = { r with slots := r.slots.set id slot } := rfl
    rw [hset]
    refine ⟨⟨fun hother => ?_, h.ids_injective, fun other hother => ?_⟩, rfl, funext fun other => ?_, rfl⟩
    · rw [List.length_set]
      exact h.ids_lt hother
    · rcases List.mem_or_eq_of_mem_set hother with hmem | rfl
      · exact h.slots other hmem
      · exact Nat.le_of_eq hslot
    · have hid' : r.ids.lookup name = some id := hid
      by_cases heq : other = name
      · subst heq
        rw [Function.update_self, held_mk, hid']
        dsimp only
        rw [List.getD_eq_getElem?_getD, List.getElem?_set_self (h.ids_lt hid'), Option.getD_some]
      · rw [Function.update_of_ne heq, held_mk, held_mk]
        cases hother : r.ids.lookup other with
        | none => rfl
        | some id' =>
          have hne : id ≠ id' := by
            rintro rfl
            exact heq (h.ids_injective hother hid')
          dsimp only
          rw [List.getD_eq_getElem?_getD, List.getElem?_set_ne hne, ← List.getD_eq_getElem?_getD]
  interned _ hid := mem_of_lookup hid

/-! ## Top-level names -/

/-- A name that is held at the top level stays with its holder. -/
theorem held_of_taken {r' : NumberRenamer} {ref : Ast.Ref} {count : Nat} {owner : Option Ast.Ref}
    (h : NameScopes.Taken r ref name r') (hheld : NameScopes.held r other = ⟨rootScope, count, owner⟩) :
    ∃ count', NameScopes.held r' other = ⟨rootScope, count', owner⟩ := by
  have hne : other ≠ name := by
    rintro rfl
    rcases h.free with hnone | ⟨-, _, _, hsees⟩
    · rw [hheld] at hnone
      exact absurd hnone Nat.one_ne_zero
    · exact absurd hsees (by simp [NameScopes.sees])
  rcases h.held_other other hne with heq | ⟨count', heq⟩
  · exact ⟨count, heq.trans hheld⟩
  · rw [hheld] at heq
    exact ⟨count', heq⟩

/-- The root scope after some reserved names and some symbols. -/
structure Named (symbols : Ast.SymbolMap) (reserved : List Name) (r : NumberRenamer) : Prop where
  valid : Valid r
  symbols : r.symbols = symbols
  named : ∀ ref, r.names ref ≠ [] →
    ∃ count, NameScopes.held r (r.names ref) = ⟨rootScope, count, some ref⟩
  reserved : ∀ name ∈ reserved, ∃ count, NameScopes.held r name = ⟨rootScope, count, none⟩

namespace Named
variable {symbols : Ast.SymbolMap} {reserved : List Name}

theorem injective (h : Named symbols reserved r) {ref ref' : Ast.Ref} (hne : r.names ref ≠ [])
    (heq : r.names ref = r.names ref') : ref = ref' := by
  obtain ⟨count, hheld⟩ := h.named ref hne
  obtain ⟨count', hheld'⟩ := h.named ref' (heq ▸ hne)
  rw [heq, hheld'] at hheld
  exact (Option.some.inj (congrArg NameSlot.owner hheld)).symm

theorem not_mem_reserved (h : Named symbols reserved r) {ref : Ast.Ref} (hne : r.names ref ≠ []) :
    r.names ref ∉ reserved := by
  intro hmem
  obtain ⟨count, hheld⟩ := h.named ref hne
  obtain ⟨count', hheld'⟩ := h.reserved _ hmem
  rw [hheld] at hheld'
  exact absurd (congrArg NameSlot.owner hheld') (by simp)

/-- A reserved name goes to nobody. -/
theorem reserve (h : Named symbols reserved r) (hnames : r.names = fun _ => []) (name : Name)
    (count : Nat) :
    let s := r.intern name
    let r' : NumberRenamer := { s.2 with slots := s.2.slots.set s.1 ⟨rootScope, count, none⟩ }
    Named symbols (reserved ++ [name]) r' ∧ r'.names = fun _ => [] := by
  have hintern : Valid (r.intern name).2 ∧ (r.intern name).2.ids.lookup name = some (r.intern name).1 ∧
      NameScopes.held (r.intern name).2 = NameScopes.held r ∧ (r.intern name).2.names = r.names ∧
      (r.intern name).2.symbols = r.symbols := by
    cases hid : r.ids.lookup name with
    | some id =>
      have hsome : r.intern name = (id, r) := by
        rw [NumberRenamer.intern, internInto, hid]
        rfl
      rw [hsome]
      exact ⟨h.valid, hid, rfl, rfl, rfl⟩
    | none =>
      obtain ⟨hvalid, hid', hheld, -⟩ := lawful.intern h.valid hid
      refine ⟨hvalid, hid', hheld, ?_⟩
      rw [intern_of_none hid]
      exact ⟨rfl, rfl⟩
  obtain ⟨hvalid, hid, hheld, hnames', hsymbols⟩ := hintern
  obtain ⟨hvalid', -, hheld', -⟩ := lawful.setSlot ⟨rootScope, count, none⟩ hvalid hid rfl
  refine ⟨⟨hvalid', hsymbols.trans h.symbols, fun ref hne => ?_, fun other hother => ?_⟩,
    hnames'.trans hnames⟩
  · refine absurd ?_ hne
    exact congrFun (hnames'.trans hnames) ref
  · have heq := congrFun hheld' other
    rcases List.mem_append.mp hother with hmem | hmem
    · by_cases hname : other = name
      · rw [hname, Function.update_self] at heq
        exact ⟨count, hname ▸ heq⟩
      · rw [Function.update_of_ne hname, hheld] at heq
        obtain ⟨count', hreserved⟩ := h.reserved other hmem
        exact ⟨count', heq.trans hreserved⟩
    · rw [List.mem_singleton.mp hmem] at heq ⊢
      rw [Function.update_self] at heq
      exact ⟨count, heq⟩

theorem of_init (symbols : Ast.SymbolMap) (rootNames : List (Name × Nat)) :
    Named symbols (rootNames.map (·.1)) (init symbols rootNames) ∧
      (init symbols rootNames).names = fun _ => [] := by
  have hrun : ∀ (keys : List (Name × Nat)) {reserved : List Name} {r : NumberRenamer},
      Named symbols reserved r → (r.names = fun _ => []) →
      let r' := keys.foldl (fun r key =>
        let (id, r) := r.intern key.1
        { r with slots := r.slots.set id ⟨rootScope, key.2, none⟩ }) r
      Named symbols (reserved ++ keys.map (·.1)) r' ∧ r'.names = fun _ => [] := by
    intro keys
    induction keys with
    | nil =>
      intro reserved r h hnames
      rw [List.map_nil, List.append_nil]
      exact ⟨h, hnames⟩
    | cons key keys ih =>
      intro reserved r h hnames
      obtain ⟨hnamed, hnames'⟩ := h.reserve hnames key.1 key.2
      rw [List.map_cons, List.append_cons]
      exact ih hnamed hnames'
  have hinit : Named symbols [] { symbols } :=
    ⟨valid_init symbols, rfl, fun _ h => absurd rfl h, fun _ h => absurd h List.not_mem_nil⟩
  exact hrun rootNames hinit rfl

theorem take {r' : NumberRenamer} {ref : Ast.Ref} {name : Name} (h : Named symbols reserved r)
    (hvalid : Valid r') (hsymbols : r'.symbols = symbols) (hnames : r'.names = r.names)
    (htaken : NameScopes.Taken r ref name r') :
    Named symbols reserved { r' with names := Function.update r'.names ref name } := by
  refine ⟨⟨hvalid.ids_lt, hvalid.ids_injective, hvalid.slots⟩, hsymbols, fun other hne => ?_,
    fun other hother => ?_⟩
  · change Function.update r'.names ref name other ≠ [] at hne
    change ∃ count, NameScopes.held r' (Function.update r'.names ref name other) = _
    by_cases heq : other = ref
    · rw [heq, Function.update_self]
      exact ⟨1, htaken.held_self⟩
    · rw [Function.update_of_ne heq, hnames] at hne ⊢
      obtain ⟨count, hheld⟩ := h.named other hne
      exact held_of_taken htaken hheld
  · obtain ⟨count, hheld⟩ := h.reserved other hother
    change ∃ count, NameScopes.held r' other = _
    exact held_of_taken htaken hheld

/-- A symbol that is named keeps its name, and another takes one that nobody holds. -/
theorem addTopLevelSymbol (unicode : UnicodeTables) (h : Named symbols reserved r)
    (hlink : symbols.Unlinked) (ref : Ast.Ref) :
    Named symbols reserved (r.addTopLevelSymbol unicode ref) ∧
      (∀ other, r.names other ≠ [] →
        (r.addTopLevelSymbol unicode ref).names other = r.names other) ∧
      (∀ other ≠ ref, (r.addTopLevelSymbol unicode ref).names other = r.names other) ∧
      ∀ symbol, symbols.getConst ref = some symbol → symbol.slotNamespace = .default →
        (r.addTopLevelSymbol unicode ref).names ref ≠ [] := by
  rw [NumberRenamer.addTopLevelSymbol, h.symbols, hlink.follow]
  dsimp only
  split
  next hne => exact ⟨h, fun _ _ => rfl, fun _ _ => rfl, fun _ _ _ => hne⟩
  next hempty =>
    rw [not_not] at hempty
    split
    next hnone =>
      refine ⟨h, fun _ _ => rfl, fun _ _ => rfl, fun symbol hsymbol => ?_⟩
      rw [hnone] at hsymbol
      exact absurd hsymbol (by simp)
    next symbol hsymbol =>
      split
      next hspace =>
        refine ⟨h, fun _ _ => rfl, fun _ _ => rfl, fun symbol' hsymbol' hdefault => ?_⟩
        obtain rfl := Option.some.inj (hsymbol.symm.trans hsymbol')
        exact absurd hdefault hspace
      next =>
        have hlaw : NameScopes.Lawful fun r' : NumberRenamer =>
            Valid r' ∧ r'.names = r.names ∧ r'.symbols = symbols :=
          lawful.and (fun _ _ h => h) (fun _ _ _ h => h)
        obtain ⟨⟨hvalid, hnames, hsymbols⟩, htaken⟩ := NameScopes.findUnusedName_spec hlaw unicode
          ⟨h.valid, rfl, h.symbols⟩ symbol.originalName ref
        generalize NameScopes.findUnusedName unicode r symbol.originalName ref = s at *
        have hself : Function.update s.2.names ref (s.1.getD symbol.originalName) ref =
          s.1.getD symbol.originalName := Function.update_self ..
        have hothers : ∀ other ≠ ref, Function.update s.2.names ref
            (s.1.getD symbol.originalName) other = r.names other := by
          intro other hother
          rw [Function.update_of_ne hother, hnames]
        refine ⟨h.take hvalid hsymbols hnames htaken, fun other hne => hothers other ?_, hothers,
          fun _ _ _ hnil => htaken.ne_nil (hself.symm.trans hnil)⟩
        rintro rfl
        exact hne hempty

end Named

end NumberRenamer

end OhosBun.JsPrinter
