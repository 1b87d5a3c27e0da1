/-
# `OhosBun.JsPrinter.MinifyRenamer` — names by frequency

Symbols share slots, one list of them for each namespace.  A slot may be pinned to a name
that is fixed ahead; `assignNamesByFrequency` names the others, the most used first, by
counting through the minified names and past those it must not give out.

For a slot of a JSX component it first counts past the reserved names and then past the
names that do not start with a capital, and does not look at the reserved names again.  So
a component can be given a reserved name, and `assign_sound_iff` says when none is.
-/
import OhosBun.JsPrinter.NameMinifier
import OhosBun.Lib.Bytes

namespace OhosBun.JsPrinter

open OhosBun.Lib

/-! ## Slots -/

inductive SlotNamespace
  | mustNotBeRenamed
  | default
  | label
  | privateName
  | mangledProp
deriving DecidableEq

/-- `SLOT_NAMESPACES` -/
def slotNamespaces : List SlotNamespace := [.default, .label, .privateName, .mangledProp]

structure SymbolSlot where
  name : Name := []
  count : Nat := 0
  needsCapitalForJsx : Bool := false
  pinned : Bool := false
deriving DecidableEq

abbrev SymbolSlotList := SlotNamespace → List SymbolSlot

abbrev Ref := Nat

/-- What the renamer reads of a symbol. -/
structure Symbol where
  slotNamespace : SlotNamespace
  mustStartWithCapitalLetterForJsx : Bool

/-- The symbols, and the one at the end of the links from each. -/
structure SymbolMap where
  follow : Ref → Ref
  get : Ref → Symbol

/-- The renamer; the names of pinned slots are reserved. -/
structure MinifyRenamer where
  reservedNames : Finset Name
  slots : SymbolSlotList
  topLevelSymbolToSlot : Ref → Option Nat
  symbols : SymbolMap
  pinned_reserved : ∀ ns, ∀ s ∈ slots ns, s.pinned → s.name ∈ reservedNames

structure StableSymbolCount where
  stableSourceIndex : Nat
  ref : Ref
  count : Nat

namespace MinifyRenamer

def init (symbols : SymbolMap) (firstTopLevelSlots : SlotNamespace → Nat)
    (reservedNames : Finset Name) : MinifyRenamer where
  reservedNames := insert (ascii "$") reservedNames
  slots ns := List.replicate (firstTopLevelSlots ns) {}
  topLevelSymbolToSlot _ := none
  symbols
  pinned_reserved := by
    intro ns s hs hpinned
    obtain rfl := List.eq_of_mem_replicate hs
    exact absurd hpinned (by decide)

/-- The slots of one namespace are changed. -/
def setSlots (slots : SymbolSlotList) (ns : SlotNamespace) (list : List SymbolSlot) :
    SymbolSlotList :=
  Function.update slots ns list

section Pinned
variable {slots : SymbolSlotList} {names : Finset Name} {ns : SlotNamespace}

theorem pinned_setSlots {list : List SymbolSlot}
    (h : ∀ ns, ∀ s ∈ slots ns, s.pinned → s.name ∈ names)
    (hlist : ∀ s ∈ list, s.pinned → s.name ∈ names) :
    ∀ ns', ∀ s ∈ setSlots slots ns list ns', s.pinned → s.name ∈ names := by
  intro ns' s hs
  by_cases hns : ns' = ns
  · subst hns
    rw [setSlots, Function.update_self] at hs
    exact hlist s hs
  · rw [setSlots, Function.update_of_ne hns] at hs
    exact h ns' s hs

theorem mem_modify {α : Type*} {l : List α} {i : Nat} {f : α → α} {x : α}
    (hx : x ∈ l.modify i f) : x ∈ l ∨ ∃ y ∈ l, x = f y := by
  obtain ⟨j, hj⟩ := List.mem_iff_getElem?.mp hx
  rw [List.getElem?_modify] at hj
  obtain ⟨y, hy, rfl⟩ := Option.map_eq_some_iff.mp hj
  split
  · exact .inr ⟨y, List.mem_of_getElem? hy, rfl⟩
  · exact .inl (List.mem_of_getElem? hy)

theorem pinned_modify {i : Nat} {f : SymbolSlot → SymbolSlot}
    (h : ∀ ns, ∀ s ∈ slots ns, s.pinned → s.name ∈ names)
    (hf : ∀ s, (s.pinned → s.name ∈ names) → (f s).pinned → (f s).name ∈ names) :
    ∀ s ∈ (slots ns).modify i f, s.pinned → s.name ∈ names := by
  intro s hs
  obtain hs | ⟨t, ht, rfl⟩ := mem_modify hs
  · exact h ns s hs
  · exact hf t (h ns t ht)

theorem pinned_append {slot : SymbolSlot}
    (h : ∀ ns, ∀ s ∈ slots ns, s.pinned → s.name ∈ names) (hslot : ¬ slot.pinned) :
    ∀ s ∈ slots ns ++ [slot], s.pinned → s.name ∈ names := by
  intro s hs hpinned
  obtain hs | hs := List.mem_append.mp hs
  · exact h ns s hs hpinned
  · obtain rfl := List.mem_singleton.mp hs
    exact absurd hpinned hslot

end Pinned

/-- A turn of `allocate_top_level_symbol_slots`. -/
def allocateTopLevelSymbolSlot (r : MinifyRenamer) (stable : StableSymbolCount) : MinifyRenamer :=
  let symbol := r.symbols.get stable.ref
  let ns := symbol.slotNamespace
  let capital := symbol.mustStartWithCapitalLetterForJsx
  match r.topLevelSymbolToSlot stable.ref with
  | some slot =>
    { r with
      slots := setSlots r.slots ns ((r.slots ns).modify slot fun s => { s with
        count := s.count + stable.count
        needsCapitalForJsx := s.needsCapitalForJsx || capital })
      pinned_reserved := pinned_setSlots r.pinned_reserved
        (pinned_modify r.pinned_reserved fun _ hs => hs) }
  | none =>
    { r with
      topLevelSymbolToSlot :=
        Function.update r.topLevelSymbolToSlot stable.ref (some (r.slots ns).length)
      slots := setSlots r.slots ns
        (r.slots ns ++ [{ count := stable.count, needsCapitalForJsx := capital }])
      pinned_reserved := pinned_setSlots r.pinned_reserved
        (pinned_append r.pinned_reserved Bool.false_ne_true) }

def allocateTopLevelSymbolSlots (r : MinifyRenamer) (topLevelSymbols : List StableSymbolCount) :
    MinifyRenamer :=
  topLevelSymbols.foldl allocateTopLevelSymbolSlot r

/-- Gives a top-level symbol a name ahead, if it has a slot. -/
def pin (r : MinifyRenamer) (ref : Ref) (name : Name) : MinifyRenamer :=
  let ref := r.symbols.follow ref
  match r.topLevelSymbolToSlot ref with
  | none => r
  | some slot =>
    let ns := (r.symbols.get ref).slotNamespace
    have hpinned : ∀ ns, ∀ s ∈ r.slots ns, s.pinned → s.name ∈ insert name r.reservedNames :=
      fun ns s hs hs' => Finset.mem_insert_of_mem (r.pinned_reserved ns s hs hs')
    { r with
      slots := setSlots r.slots ns
        ((r.slots ns).modify slot fun s => { s with name, pinned := true })
      reservedNames := insert name r.reservedNames
      pinned_reserved := pinned_setSlots hpinned
        (pinned_modify hpinned fun _ _ _ => Finset.mem_insert_self _ _) }

/-! ## Names -/

structure SlotAndCount where
  slot : Nat
  count : Nat
deriving DecidableEq

/-- Descending by count, then ascending by slot. -/
def SlotAndCount.lessThan (a b : SlotAndCount) : Ordering :=
  (compare b.count a.count).then (compare a.slot b.slot)

/-- The slots to be named, the most used first. -/
def sorted (slots : List SymbolSlot) : List SlotAndCount :=
  ((slots.zipIdx.filter fun x => !x.1.pinned).map fun x => ⟨x.2, x.1.count⟩).insertionSort
    fun a b => a.lessThan b ≠ .gt

/-- `KEYWORDS` -/
def keywords : List Name :=
  [ascii "break", ascii "case", ascii "catch", ascii "class", ascii "const", ascii "continue",
    ascii "debugger", ascii "default", ascii "delete", ascii "do", ascii "else", ascii "enum",
    ascii "export", ascii "extends", ascii "false", ascii "finally", ascii "for",
    ascii "function", ascii "if", ascii "import", ascii "in", ascii "instanceof", ascii "new",
    ascii "null", ascii "return", ascii "super", ascii "switch", ascii "this", ascii "throw",
    ascii "true", ascii "try", ascii "typeof", ascii "var", ascii "void", ascii "while",
    ascii "with"]

section Naming
variable (m : NameMinifier) (reserved : Finset Name)

/-- A number whose name the first loop counts past. -/
def skipped (ns : SlotNamespace) (n : Nat) : Bool :=
  match ns with
  | .default => m.numberToMinifiedName n ∈ reserved
  | .label => m.numberToMinifiedName n ∈ keywords
  | _ => false

/-- The number the first loop ends at; there are no more turns than names to skip. -/
def unskipped (ns : SlotNamespace) (next : Nat) : Nat :=
  firstFree (skipped m reserved ns) (reserved.card + keywords.length) next

/-- The number the second loop ends at. -/
def capitalFrom (n : Nat) : Nat :=
  firstFree (fun n => NameMinifier.startsLower (m.numberToMinifiedName n)) 53 n

/-- The number of a slot's name. -/
def numberFor (ns : SlotNamespace) (needsCapital : Bool) (next : Nat) : Nat :=
  if ns = .default ∧ needsCapital then capitalFrom m (unskipped m reserved ns next)
  else unskipped m reserved ns next

def nameFor (ns : SlotNamespace) (n : Nat) : Name :=
  match ns with
  | .privateName => ascii "#" ++ m.numberToMinifiedName n
  | _ => m.numberToMinifiedName n

/-- Whether a slot needs a capital. -/
def needsCapital (slots : List SymbolSlot) (slot : Nat) : Bool :=
  slots[slot]?.any (·.needsCapitalForJsx)

/-- The loop over the sorted slots, with the number to go on from. -/
def nameSlots (ns : SlotNamespace) : List SlotAndCount → Nat → List SymbolSlot → List SymbolSlot
  | [], _, slots => slots
  | data :: sorted, next, slots =>
    let n := numberFor m reserved ns (needsCapital slots data.slot) next
    nameSlots ns sorted (n + 1)
      (slots.modify data.slot fun s => { s with name := nameFor m ns n })

end Naming

/-- The slots after `assign_names_by_frequency`. -/
def assignNamesByFrequency (r : MinifyRenamer) (m : NameMinifier) : SymbolSlotList := fun ns =>
  if ns ∈ slotNamespaces then
    nameSlots m r.reservedNames ns (sorted (r.slots ns)) 0 (r.slots ns)
  else r.slots ns

/-! ## Numbers

The names come from one number after another. -/

section Numbers
variable (m : NameMinifier) (reserved : Finset Name) (ns : SlotNamespace)

/-- The numbers of the slots' names, given which slots need a capital. -/
def numbers : List Bool → Nat → List Nat
  | [], _ => []
  | capital :: flags, next =>
    numberFor m reserved ns capital next ::
      numbers flags (numberFor m reserved ns capital next + 1)

theorem length_numbers (flags : List Bool) (next : Nat) :
    (numbers m reserved ns flags next).length = flags.length := by
  induction flags generalizing next with
  | nil => rfl
  | cons capital flags ih => rw [numbers, List.length_cons, ih, List.length_cons]

theorem le_numberFor (capital : Bool) (next : Nat) :
    next ≤ numberFor m reserved ns capital next := by
  rw [numberFor]
  split
  · exact (le_firstFree _ _).trans (le_firstFree _ _)
  · exact le_firstFree _ _

theorem le_of_mem_numbers {flags : List Bool} {next n : Nat}
    (hn : n ∈ numbers m reserved ns flags next) : next ≤ n := by
  induction flags generalizing next with
  | nil => exact absurd hn (List.not_mem_nil)
  | cons capital flags ih =>
    have hle := le_numberFor m reserved ns capital next
    obtain rfl | hn := List.mem_cons.mp hn
    · exact hle
    · exact hle.trans ((Nat.le_succ _).trans (ih hn))

theorem nodup_numbers (flags : List Bool) (next : Nat) :
    (numbers m reserved ns flags next).Nodup := by
  induction flags generalizing next with
  | nil => exact List.nodup_nil
  | cons capital flags ih =>
    refine List.nodup_cons.mpr ⟨fun hmem => ?_, ih _⟩
    exact absurd (le_of_mem_numbers m reserved ns hmem) (Nat.not_succ_le_self _)

theorem unskipped_spec (next : Nat) :
    skipped m reserved ns (unskipped m reserved ns next) = false := by
  apply firstFree_free
  cases ns with
  | default =>
    obtain ⟨j, hj, hj', hfree⟩ := exists_free m.numberToMinifiedName_injective reserved next
    exact ⟨j, hj, hj'.trans (by omega), decide_eq_false hfree⟩
  | label =>
    obtain ⟨j, hj, hj', hfree⟩ :=
      exists_free m.numberToMinifiedName_injective keywords.toFinset next
    refine ⟨j, hj, hj'.trans ?_, decide_eq_false fun hmem => hfree (List.mem_toFinset.mpr hmem)⟩
    have := List.toFinset_card_le keywords
    omega
  | _ => exact ⟨next, Nat.le_refl next, Nat.le_add_right next _, rfl⟩

theorem capitalFrom_spec (n : Nat) :
    NameMinifier.startsLower (m.numberToMinifiedName (capitalFrom m n)) = false :=
  firstFree_free (m.exists_not_startsLower n)

/-- Outside the default namespace the numbers are those not skipped, in order. -/
theorem mem_numbers_iff (hns : ns ≠ .default) {flags : List Bool} {next n : Nat} :
    n ∈ numbers m reserved ns flags next ↔ next ≤ n ∧ skipped m reserved ns n = false ∧
      Nat.count (fun j => skipped m reserved ns j = false) n <
        Nat.count (fun j => skipped m reserved ns j = false) next + flags.length := by
  induction flags generalizing next with
  | nil =>
    rw [numbers, List.length_nil, Nat.add_zero]
    refine ⟨fun h => absurd h List.not_mem_nil, fun ⟨hle, _, hlt⟩ => ?_⟩
    exact absurd (Nat.count_monotone _ hle) (Nat.not_le.mpr hlt)
  | cons capital flags ih =>
    have hnumber : numberFor m reserved ns capital next = unskipped m reserved ns next :=
      if_neg fun h => hns h.1
    have hfree := unskipped_spec m reserved ns next
    have hcount : Nat.count (fun j => skipped m reserved ns j = false)
        (unskipped m reserved ns next + 1) =
        Nat.count (fun j => skipped m reserved ns j = false) next + 1 := by
      rw [Nat.count_succ, if_pos hfree, unskipped, count_firstFree]
    have hle : next ≤ unskipped m reserved ns next := le_firstFree _ _
    rw [numbers, hnumber, List.mem_cons, ih, hcount, List.length_cons]
    constructor
    · rintro (rfl | ⟨hn, hskip, hlt⟩)
      · refine ⟨hle, hfree, ?_⟩
        rw [unskipped, count_firstFree]
        omega
      · exact ⟨hle.trans ((Nat.le_succ _).trans hn), hskip, by omega⟩
    · rintro ⟨hn, hskip, hlt⟩
      rcases Nat.eq_or_lt_of_le (firstFree_le hn hskip : unskipped m reserved ns next ≤ n) with
        rfl | hgt
      · exact .inl rfl
      · exact .inr ⟨hgt, hskip, by omega⟩

/-- Where the second loop ends no name is reserved. -/
def CapitalsFree : List Bool → Nat → Prop
  | [], _ => True
  | capital :: flags, next =>
    (capital → m.numberToMinifiedName (capitalFrom m (unskipped m reserved .default next)) ∉
      reserved) ∧
    CapitalsFree flags (numberFor m reserved .default capital next + 1)

theorem capitalsFree_iff (flags : List Bool) (next : Nat) :
    CapitalsFree m reserved flags next ↔
      ∀ n ∈ numbers m reserved .default flags next, m.numberToMinifiedName n ∉ reserved := by
  induction flags generalizing next with
  | nil => exact ⟨fun _ n hn => absurd hn List.not_mem_nil, fun _ => trivial⟩
  | cons capital flags ih =>
    rw [CapitalsFree, numbers, List.forall_mem_cons, ih]
    refine and_congr_left fun _ => ?_
    cases capital with
    | true => exact ⟨fun h => h rfl, fun h _ => h⟩
    | false =>
      refine ⟨fun _ => ?_, fun _ h => absurd h Bool.false_ne_true⟩
      exact of_decide_eq_false (unskipped_spec m reserved .default next)

end Numbers

/-! ## The slots after naming -/

section Slots
variable (m : NameMinifier) (reserved : Finset Name) (ns : SlotNamespace)

/-- Which of the slots to be named need a capital. -/
def flags (slots : List SymbolSlot) : List Bool :=
  (sorted slots).map fun d => needsCapital slots d.slot

theorem sorted_perm (slots : List SymbolSlot) :
    ((sorted slots).map (·.slot)).Perm
      ((slots.zipIdx.filter fun x => !x.1.pinned).map (·.2)) := by
  refine ((List.perm_insertionSort _ _).map _).trans (.of_eq ?_)
  rw [List.map_map]
  rfl

theorem nodup_sorted (slots : List SymbolSlot) : ((sorted slots).map (·.slot)).Nodup := by
  refine (sorted_perm slots).nodup_iff.mpr ?_
  refine (List.filter_sublist.map _).nodup ?_
  rw [List.zipIdx_map_snd]
  exact List.nodup_range'

variable {slots : List SymbolSlot} {i next n : Nat} {list : List SlotAndCount}

theorem mem_sorted_iff :
    i ∈ (sorted slots).map (·.slot) ↔ ∃ s, slots[i]? = some s ∧ s.pinned = false := by
  rw [(sorted_perm slots).mem_iff, List.mem_map]
  constructor
  · rintro ⟨⟨s, j⟩, hmem, rfl⟩
    obtain ⟨hmem, hpinned⟩ := List.mem_filter.mp hmem
    exact ⟨s, List.mk_mem_zipIdx_iff_getElem?.mp hmem, by simpa using hpinned⟩
  · rintro ⟨s, hget, hpinned⟩
    refine ⟨(s, i), List.mem_filter.mpr ⟨List.mk_mem_zipIdx_iff_getElem?.mpr hget, ?_⟩, rfl⟩
    simp [hpinned]

/-- The number of slots to be named. -/
theorem length_flags (slots : List SymbolSlot) :
    (flags slots).length = slots.countP fun s => !s.pinned := by
  have h := (sorted_perm slots).length_eq
  rw [List.length_map, List.length_map] at h
  rw [flags, List.length_map, h, ← List.countP_eq_length_filter]
  conv_rhs => rw [← List.zipIdx_map_fst 0 slots, List.countP_map]
  rfl

theorem needsCapital_modify (i j : Nat) (name : Name) :
    needsCapital (slots.modify i fun s => { s with name }) j = needsCapital slots j := by
  rw [needsCapital, needsCapital, List.getElem?_modify]
  cases slots[j]? with
  | none => rfl
  | some s =>
    change (if i = j then _ else s).needsCapitalForJsx = _
    split <;> rfl

/-- What naming leaves of a slot. -/
theorem nameSlots_of_not_mem (hi : i ∉ list.map (·.slot)) :
    (nameSlots m reserved ns list next slots)[i]? = slots[i]? := by
  induction list generalizing next slots with
  | nil => rfl
  | cons data list ih =>
    rw [List.map_cons, List.mem_cons, not_or] at hi
    rw [nameSlots, ih hi.2, List.getElem?_modify_ne _ _ (Ne.symm hi.1)]

/-- What naming makes of a slot. -/
theorem nameSlots_of_mem (hnodup : (list.map (·.slot)).Nodup) {data : SlotAndCount} (hmem : (data, n) ∈
      list.zip (numbers m reserved ns (list.map fun d => needsCapital slots d.slot) next)) :
    (nameSlots m reserved ns list next slots)[data.slot]? =
      slots[data.slot]?.map fun s => { s with name := nameFor m ns n } := by
  induction list generalizing next slots with
  | nil => exact absurd hmem List.not_mem_nil
  | cons head list ih =>
    rw [List.map_cons, List.nodup_cons] at hnodup
    rw [List.map_cons, numbers, List.zip_cons_cons, List.mem_cons] at hmem
    rw [nameSlots]
    obtain heq | hmem := hmem
    · obtain ⟨rfl, rfl⟩ := Prod.mk.inj heq
      rw [nameSlots_of_not_mem m reserved ns hnodup.1, List.getElem?_modify_eq]
      rfl
    · have hne : head.slot ≠ data.slot := by
        rintro heq
        exact hnodup.1 (heq ▸ List.mem_map_of_mem (List.of_mem_zip hmem).1)
      rw [ih hnodup.2 (by simpa only [needsCapital_modify] using hmem),
        List.getElem?_modify_ne _ _ hne]

theorem capital_of_mem_numbers {flags : List Bool}
    (hmem : (true, n) ∈ flags.zip (numbers m reserved .default flags next)) :
    NameMinifier.startsLower (m.numberToMinifiedName n) = false := by
  induction flags generalizing next with
  | nil => exact absurd hmem List.not_mem_nil
  | cons capital flags ih =>
    rw [numbers, List.zip_cons_cons, List.mem_cons] at hmem
    obtain heq | hmem := hmem
    · obtain ⟨rfl, rfl⟩ := Prod.mk.inj heq
      rw [numberFor, if_pos ⟨rfl, rfl⟩]
      exact capitalFrom_spec m _
    · exact ih hmem

/-- The numbers the slots of a namespace are named from. -/
abbrev numbersOf (slots : List SymbolSlot) : List Nat := numbers m reserved ns (flags slots) 0

/-- The number a slot is named from. -/
def numberOf (slots : List SymbolSlot) (i : Nat) : Nat :=
  (numbersOf m reserved ns slots).getD (((sorted slots).map (·.slot)).idxOf i) 0

section NumberOf
variable {slots : List SymbolSlot} {i : Nat} {s : SymbolSlot}
variable (hget : slots[i]? = some s) (hpinned : s.pinned = false)
include hget hpinned

theorem idxOf_lt : ((sorted slots).map (·.slot)).idxOf i < (sorted slots).length := by
  have hlt := List.idxOf_lt_length_of_mem (mem_sorted_iff.2 ⟨s, hget, hpinned⟩)
  rwa [List.length_map] at hlt

theorem numberOf_mem_zip : ∃ data : SlotAndCount, data.slot = i ∧
    (data, numberOf m reserved ns slots i) ∈ (sorted slots).zip (numbersOf m reserved ns slots) := by
  have hlt := idxOf_lt hget hpinned
  have hlt' : ((sorted slots).map (·.slot)).idxOf i < (numbersOf m reserved ns slots).length := by
    rwa [length_numbers, flags, List.length_map]
  refine ⟨(sorted slots)[((sorted slots).map (·.slot)).idxOf i], ?_, ?_⟩
  · have hlt'' : ((sorted slots).map (·.slot)).idxOf i < ((sorted slots).map (·.slot)).length := by
      rwa [List.length_map]
    exact (List.getElem_map SlotAndCount.slot).symm.trans (List.getElem_idxOf hlt'')
  · rw [numberOf, List.getD_eq_getElem _ _ hlt']
    exact List.mem_iff_getElem.mpr ⟨_, by rw [List.length_zip]; exact lt_min hlt hlt',
      List.getElem_zip⟩

theorem numberOf_mem : numberOf m reserved ns slots i ∈ numbersOf m reserved ns slots := by
  obtain ⟨_, _, hmem⟩ := numberOf_mem_zip m reserved ns hget hpinned
  exact (List.of_mem_zip hmem).2

theorem getElem?_nameSlots_unpinned :
    (nameSlots m reserved ns (sorted slots) 0 slots)[i]? =
      some { s with name := nameFor m ns (numberOf m reserved ns slots i) } := by
  obtain ⟨data, rfl, hmem⟩ := numberOf_mem_zip m reserved ns hget hpinned
  rw [nameSlots_of_mem m reserved ns (nodup_sorted slots) hmem, hget, Option.map_some]

theorem numberOf_inj {j : Nat} {t : SymbolSlot} (hget' : slots[j]? = some t)
    (hpinned' : t.pinned = false)
    (h : numberOf m reserved ns slots i = numberOf m reserved ns slots j) : i = j := by
  have hlt := idxOf_lt hget hpinned
  have hlt' := idxOf_lt hget' hpinned'
  have hlen : (numbersOf m reserved ns slots).length = (sorted slots).length := by
    rw [length_numbers, flags, List.length_map]
  rw [numberOf, numberOf, List.getD_eq_getElem _ _ (hlen ▸ hlt),
    List.getD_eq_getElem _ _ (hlen ▸ hlt')] at h
  have hidx := (nodup_numbers m reserved ns _ _).getElem_inj_iff.mp h
  exact (List.idxOf_inj (mem_sorted_iff.2 ⟨s, hget, hpinned⟩)).mp hidx

theorem numberOf_capital (hcapital : s.needsCapitalForJsx) :
    NameMinifier.startsLower
      (m.numberToMinifiedName (numberOf m reserved .default slots i)) = false := by
  obtain ⟨data, rfl, hmem⟩ := numberOf_mem_zip m reserved .default hget hpinned
  have hneeds : needsCapital slots data.slot = true := by
    rw [needsCapital, hget]
    exact hcapital
  have hzip := List.mem_map_of_mem (f := Prod.map (fun d => needsCapital slots d.slot) id) hmem
  rw [← List.zip_map_left, Prod.map_apply, hneeds] at hzip
  exact capital_of_mem_numbers m reserved hzip

end NumberOf

theorem getElem?_nameSlots_pinned {s : SymbolSlot} (hget : slots[i]? = some s)
    (hpinned : s.pinned = true) :
    (nameSlots m reserved ns (sorted slots) 0 slots)[i]? = some s := by
  rw [nameSlots_of_not_mem m reserved ns, hget]
  rintro hmem
  obtain ⟨t, ht, hunpinned⟩ := mem_sorted_iff.1 hmem
  rw [hget, Option.some.injEq] at ht
  rw [← ht, hpinned] at hunpinned
  exact absurd hunpinned (by decide)

/-- Every number in turn names a slot. -/
theorem exists_numberOf (hn : n ∈ numbersOf m reserved ns slots) :
    ∃ i s, slots[i]? = some s ∧ s.pinned = false ∧ numberOf m reserved ns slots i = n := by
  obtain ⟨k, hk, rfl⟩ := List.getElem_of_mem hn
  have hk' : k < ((sorted slots).map (·.slot)).length := by
    rwa [length_numbers, flags, List.length_map, ← List.length_map] at hk
  obtain ⟨s, hget, hpinned⟩ := mem_sorted_iff.1 (List.getElem_mem hk')
  refine ⟨_, s, hget, hpinned, ?_⟩
  rw [numberOf, (nodup_sorted slots).idxOf_getElem, List.getD_eq_getElem _ _ hk]

end Slots

/-! ## When the names are sound -/

/-- No two pinned slots of a namespace have one name. -/
def PinnedDistinct (slots : SymbolSlotList) : Prop :=
  ∀ ns ∈ slotNamespaces, (((slots ns).filter (·.pinned)).map (·.name)).Nodup

instance (slots : SymbolSlotList) : Decidable (PinnedDistinct slots) :=
  inferInstanceAs (Decidable (∀ ns ∈ slotNamespaces, _))

/-- What is expected of the slots once they are named. -/
structure Sound (reserved : Finset Name) (slots : SymbolSlotList) : Prop where
  distinct : ∀ ns ∈ slotNamespaces, ((slots ns).map (·.name)).Nodup
  unreserved : ∀ s ∈ slots .default, s.pinned = false → s.name ∉ reserved
  unpinned : ∀ s ∈ slots .default, s.pinned = false →
    ∀ ns, ∀ t ∈ slots ns, t.pinned → s.name ≠ t.name
  capital : ∀ s ∈ slots .default, s.needsCapitalForJsx → NameMinifier.startsLower s.name = false

/-- The slots as they are before they are named, with nothing in the way of the names: a
pinned slot's name has the capital it needs, the loop past the names without a capital
does not end at a reserved name, and no pinned slot outside the default namespace has one
of the names that will be handed out there. -/
structure Clear (r : MinifyRenamer) (m : NameMinifier) : Prop where
  pinned_capital : ∀ s ∈ r.slots .default, s.pinned → s.needsCapitalForJsx →
    NameMinifier.startsLower s.name = false
  capitalsFree : CapitalsFree m r.reservedNames (flags (r.slots .default)) 0
  pinned_apart : ∀ ns ∈ slotNamespaces, ns ≠ .default → ∀ s ∈ r.slots ns, s.pinned →
    ∀ n, skipped m r.reservedNames ns n = false →
      Nat.count (fun j => skipped m r.reservedNames ns j = false) n <
        (r.slots ns).countP (fun s => !s.pinned) →
      s.name ≠ nameFor m ns n

theorem nameFor_injective (m : NameMinifier) (ns : SlotNamespace) :
    Function.Injective (nameFor m ns) := by
  intro i j h
  cases ns with
  | privateName => exact m.numberToMinifiedName_injective (List.append_cancel_left h)
  | _ => exact m.numberToMinifiedName_injective h

section Assign
variable (r : MinifyRenamer) (m : NameMinifier)

variable {ns : SlotNamespace} {i n : Nat} {s : SymbolSlot}

theorem assign_apply (hns : ns ∈ slotNamespaces) :
    r.assignNamesByFrequency m ns =
      nameSlots m r.reservedNames ns (sorted (r.slots ns)) 0 (r.slots ns) := if_pos hns

theorem length_nameSlots (reserved : Finset Name) (ns : SlotNamespace) (list : List SlotAndCount)
    (next : Nat) (slots : List SymbolSlot) :
    (nameSlots m reserved ns list next slots).length = slots.length := by
  induction list generalizing next slots with
  | nil => rfl
  | cons data list ih => rw [nameSlots, ih, List.length_modify]

/-- A slot after naming is a pinned one as it was, or one with a number's name. -/
theorem getElem?_assign (hns : ns ∈ slotNamespaces) {t : SymbolSlot}
    (hget : (r.assignNamesByFrequency m ns)[i]? = some t) :
    (r.slots ns)[i]? = some t ∧ t.pinned = true ∨
      ∃ s, (r.slots ns)[i]? = some s ∧ s.pinned = false ∧
        t = { s with name := nameFor m ns (numberOf m r.reservedNames ns (r.slots ns) i) } := by
  rw [assign_apply r m hns] at hget
  have hlt : i < (r.slots ns).length := by
    rw [← length_nameSlots m r.reservedNames ns]
    exact (List.getElem?_eq_some_iff.mp hget).1
  cases hpinned : (r.slots ns)[i].pinned with
  | true =>
    rw [getElem?_nameSlots_pinned m r.reservedNames ns (List.getElem?_eq_getElem hlt) hpinned]
      at hget
    obtain rfl := Option.some.inj hget
    exact .inl ⟨List.getElem?_eq_getElem hlt, hpinned⟩
  | false =>
    rw [getElem?_nameSlots_unpinned m r.reservedNames ns (List.getElem?_eq_getElem hlt) hpinned]
      at hget
    exact .inr ⟨_, List.getElem?_eq_getElem hlt, hpinned, (Option.some.inj hget).symm⟩

theorem getElem?_assign_pinned (hns : ns ∈ slotNamespaces) (hget : (r.slots ns)[i]? = some s)
    (hpinned : s.pinned = true) :
    (r.assignNamesByFrequency m ns)[i]? = some s := by
  rw [assign_apply r m hns]
  exact getElem?_nameSlots_pinned m r.reservedNames ns hget hpinned

/-- A number's name is had by a slot that was not pinned. -/
theorem exists_assign (hns : ns ∈ slotNamespaces) (hn : n ∈ numbersOf m r.reservedNames ns (r.slots ns)) :
    ∃ t ∈ r.assignNamesByFrequency m ns, t.pinned = false ∧ t.name = nameFor m ns n := by
  obtain ⟨i, s, hget, hpinned, rfl⟩ := exists_numberOf m r.reservedNames ns hn
  have hget' := getElem?_nameSlots_unpinned m r.reservedNames ns hget hpinned
  rw [← assign_apply r m hns] at hget'
  exact ⟨_, List.mem_of_getElem? hget', hpinned, rfl⟩

/-- Outside the default namespace, which numbers name slots. -/
theorem mem_numbersOf_iff (hns : ns ≠ .default) :
    n ∈ numbersOf m r.reservedNames ns (r.slots ns) ↔
      skipped m r.reservedNames ns n = false ∧
      Nat.count (fun j => skipped m r.reservedNames ns j = false) n <
        (r.slots ns).countP (fun s => !s.pinned) := by
  rw [mem_numbers_iff m r.reservedNames ns hns, length_flags, Nat.count_zero, Nat.zero_add]
  exact and_iff_right (Nat.zero_le n)

variable {r m}

/-- The name of a pinned slot is not that of a number in turn. -/
theorem Clear.ne_nameFor (h : Clear r m) (hns : ns ∈ slotNamespaces) (hs : s ∈ r.slots ns)
    (hpinned : s.pinned = true) (hn : n ∈ numbersOf m r.reservedNames ns (r.slots ns)) :
    s.name ≠ nameFor m ns n := by
  by_cases hdefault : ns = .default
  · subst hdefault
    intro heq
    refine (capitalsFree_iff m r.reservedNames _ 0).mp h.capitalsFree n hn ?_
    change nameFor m .default n ∈ r.reservedNames
    rw [← heq]
    exact r.pinned_reserved _ s hs hpinned
  · obtain ⟨hskip, hcount⟩ := (mem_numbersOf_iff r m hdefault).mp hn
    exact h.pinned_apart ns hns hdefault s hs hpinned n hskip hcount

theorem Clear.distinct (h : Clear r m) (hdistinct : PinnedDistinct r.slots) (hns : ns ∈ slotNamespaces) :
    ((r.assignNamesByFrequency m ns).map (·.name)).Nodup := by
  have hpairs := hdistinct ns hns
  rw [List.Nodup, List.pairwise_map, List.pairwise_filter, List.pairwise_iff_getElem] at hpairs
  rw [List.Nodup, List.pairwise_map, List.pairwise_iff_getElem]
  intro i j hi hj hij heq
  rcases getElem?_assign r m hns (List.getElem?_eq_getElem hi) with
    ⟨hget, hpinned⟩ | ⟨s, hget, hpinned, hname⟩ <;>
  rcases getElem?_assign r m hns (List.getElem?_eq_getElem hj) with
    ⟨hget', hpinned'⟩ | ⟨t, hget', hpinned', hname'⟩
  · obtain ⟨hi', hs⟩ := List.getElem?_eq_some_iff.mp hget
    obtain ⟨hj', ht⟩ := List.getElem?_eq_some_iff.mp hget'
    refine hpairs i j hi' hj' hij ?_ ?_ ?_
    · rw [hs, hpinned]
    · rw [ht, hpinned']
    · rw [hs, ht, heq]
  · refine h.ne_nameFor hns (List.mem_of_getElem? hget) hpinned
      (numberOf_mem m r.reservedNames ns hget' hpinned') ?_
    rw [heq, hname']
  · refine h.ne_nameFor hns (List.mem_of_getElem? hget') hpinned'
      (numberOf_mem m r.reservedNames ns hget hpinned) ?_
    rw [← heq, hname]
  · rw [hname, hname'] at heq
    have hnumber := nameFor_injective m ns heq
    have hindex := numberOf_inj m r.reservedNames ns hget hpinned hget' hpinned' hnumber
    exact absurd hindex (Nat.ne_of_lt hij)

theorem Clear.sound (h : Clear r m) (hdistinct : PinnedDistinct r.slots) :
    Sound r.reservedNames (r.assignNamesByFrequency m) := by
  have hdefault : SlotNamespace.default ∈ slotNamespaces := by decide
  have hunreserved : ∀ t ∈ r.assignNamesByFrequency m .default, t.pinned = false →
      t.name ∉ r.reservedNames := by
    intro t ht hpinned
    obtain ⟨i, hget⟩ := List.mem_iff_getElem?.mp ht
    rcases getElem?_assign r m hdefault hget with ⟨_, hpinned'⟩ | ⟨s, hget', hpinned', rfl⟩
    · rw [hpinned] at hpinned'
      exact absurd hpinned' (by decide)
    · exact (capitalsFree_iff m r.reservedNames _ 0).mp h.capitalsFree _
        (numberOf_mem m r.reservedNames _ hget' hpinned')
  refine ⟨fun ns hns => h.distinct hdistinct hns, hunreserved, ?_, ?_⟩
  · intro s hs hpinned ns t ht hpinned' heq
    refine hunreserved s hs hpinned (heq ▸ ?_)
    by_cases hns : ns ∈ slotNamespaces
    · obtain ⟨i, hget⟩ := List.mem_iff_getElem?.mp ht
      rcases getElem?_assign r m hns hget with ⟨hget', _⟩ | ⟨u, _, hu, rfl⟩
      · exact r.pinned_reserved ns t (List.mem_of_getElem? hget') hpinned'
      · rw [hu] at hpinned'
        exact absurd hpinned' (by decide)
    · rw [assignNamesByFrequency, if_neg hns] at ht
      exact r.pinned_reserved ns t ht hpinned'
  · intro t ht hcapital
    obtain ⟨i, hget⟩ := List.mem_iff_getElem?.mp ht
    rcases getElem?_assign r m hdefault hget with ⟨hget', hpinned⟩ | ⟨s, hget', hpinned, rfl⟩
    · exact h.pinned_capital t (List.mem_of_getElem? hget') hpinned hcapital
    · exact numberOf_capital m r.reservedNames hget' hpinned hcapital

theorem Sound.clear (h : Sound r.reservedNames (r.assignNamesByFrequency m)) : Clear r m := by
  have hdefault : SlotNamespace.default ∈ slotNamespaces := by decide
  refine ⟨?_, ?_, ?_⟩
  · intro s hs hpinned hcapital
    obtain ⟨i, hget⟩ := List.mem_iff_getElem?.mp hs
    exact h.capital s (List.mem_of_getElem? (getElem?_assign_pinned r m hdefault hget hpinned))
      hcapital
  · refine (capitalsFree_iff m r.reservedNames _ 0).mpr fun n hn => ?_
    obtain ⟨t, ht, hpinned, hname⟩ := exists_assign r m hdefault hn
    change nameFor m .default n ∉ r.reservedNames
    rw [← hname]
    exact h.unreserved t ht hpinned
  · intro ns hns hne s hs hpinned n hskip hcount heq
    obtain ⟨t, ht, hpinned', hname⟩ :=
      exists_assign r m hns ((mem_numbersOf_iff r m hne).mpr ⟨hskip, hcount⟩)
    obtain ⟨i, hget⟩ := List.mem_iff_getElem?.mp hs
    have hs' := List.mem_of_getElem? (getElem?_assign_pinned r m hns hget hpinned)
    obtain rfl := List.inj_on_of_nodup_map (h.distinct ns hns) hs' ht (heq.trans hname.symm)
    rw [hpinned] at hpinned'
    exact absurd hpinned' (by decide)

end Assign

/-- The minifier with every character as frequent as the next. -/
def plainMinifier : NameMinifier := .compile fun _ => 0

/-- One top-level symbol, a JSX component, where `A` is a name that is taken. -/
def component : MinifyRenamer :=
  (init ⟨id, fun _ => ⟨.default, true⟩⟩ (fun _ => 0) {ascii "A"}).allocateTopLevelSymbolSlots
    [⟨0, 0, 1⟩]

/-- A component that may be called `A`, beside one pinned to another name. -/
def twoComponents : MinifyRenamer :=
  ((init ⟨id, fun _ => ⟨.default, true⟩⟩ (fun _ => 0) ∅).allocateTopLevelSymbolSlots
    [⟨0, 0, 1⟩, ⟨0, 1, 1⟩]).pin 1 (ascii "App")

end MinifyRenamer

end OhosBun.JsPrinter
