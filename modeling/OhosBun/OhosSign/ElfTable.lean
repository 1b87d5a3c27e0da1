/-
# `OhosBun.OhosSign.ElfTable` — the section-header table of a parsed file

`Parsed elf h` is what a header that was accepted promises: the table is inside the file.
The fields of its entries are then read without a panic (`readField_entry`), and searching
for a name panics only when the string table's offset and size overflow
(`findSectionByName_eq`).
-/
import OhosBun.OhosSign.Elf

namespace OhosBun.OhosSign

open OhosBun.Lib Outcome Merkle

/-- A header that was accepted. -/
structure Parsed (elf : Bytes) (h : Header) : Prop where
  elf64 : isElf64 elf = true
  shoff : leAt elf E_SHOFF 8 = h.shoff
  shentsize : leAt elf E_SHENTSIZE 2 = 64
  shnum : leAt elf E_SHNUM 2 = h.shnum
  shstrndx : leAt elf E_SHSTRNDX 2 = h.shstrndx
  shoff_pos : 0 < h.shoff
  shstrndx_lt : h.shstrndx < h.shnum
  table : h.shoff + h.shnum * 64 ≤ elf.length

section Header
variable {elf : Bytes} {h : Header}

theorem length_of_isElf64 (h : isElf64 elf = true) : 64 ≤ elf.length := by
  simp only [isElf64, decide_eq_true_eq] at h
  exact h.1

theorem Parsed.length (hp : Parsed elf h) : 64 ≤ elf.length := length_of_isElf64 hp.elf64

/-- The header's fields, and what is asked of them. -/
theorem parseHeader_of_isElf64 (helf : isElf64 elf = true) :
    parseHeader elf =
      let h : Header := ⟨leAt elf E_SHOFF 8, leAt elf E_SHNUM 2, leAt elf E_SHSTRNDX 2⟩
      if leAt elf E_SHENTSIZE 2 ≠ 64 ∨ h.shoff = 0 ∨ h.shnum = 0 ∨ h.shnum ≤ h.shstrndx ∨
        2 ^ 64 ≤ h.shoff + h.shnum * 64 ∨ elf.length < h.shoff + h.shnum * 64
      then .err .noSectionHeaders else .ok h := by
  have hlen := length_of_isElf64 helf
  have hshnum : leAt elf E_SHNUM 2 * 64 < 2 ^ 64 := by
    have hlt := leAt_lt elf E_SHNUM 2
    omega
  rw [parseHeader, if_neg (by simp [helf]), readLe_of_le (by simp only [E_SHOFF]; omega),
    ok_bind, readLe_of_le (by simp only [E_SHENTSIZE]; omega), ok_bind,
    readLe_of_le (by simp only [E_SHNUM]; omega), ok_bind,
    readLe_of_le (by simp only [E_SHSTRNDX]; omega), ok_bind, mul64_of_lt hshnum, ok_bind]
  split
  next hbad => rw [if_pos (by tauto)]
  next hgood =>
    split
    next hbad => rw [if_pos (by tauto)]
    next => rw [if_neg (by tauto)]

theorem parseHeader_ne_panic (elf : Bytes) : parseHeader elf ≠ .panic := by
  by_cases helf : isElf64 elf = true
  · rw [parseHeader_of_isElf64 helf]
    dsimp only
    split <;> simp
  · rw [parseHeader, if_pos (by simpa using helf)]
    simp

theorem parseHeader_eq_ok (hlen : elf.length < maxLen) :
    parseHeader elf = .ok h ↔ Parsed elf h := by
  constructor
  · intro hparse
    by_cases helf : isElf64 elf = true
    · rw [parseHeader_of_isElf64 helf] at hparse
      dsimp only at hparse
      split at hparse
      next => simp at hparse
      next hgood =>
        simp only [not_or] at hgood
        obtain rfl := Outcome.ok.inj hparse
        refine ⟨helf, rfl, by tauto, rfl, rfl, ?_, ?_, ?_⟩
        all_goals simp only; omega
    · rw [parseHeader, if_pos (by simpa using helf)] at hparse
      simp at hparse
  · intro hp
    have htable := hp.table
    have hpos := hp.shoff_pos
    have hlt := hp.shstrndx_lt
    simp only [maxLen] at hlen
    rw [parseHeader_of_isElf64 hp.elf64]
    dsimp only
    rw [hp.shoff, hp.shnum, hp.shstrndx, hp.shentsize, if_neg (by omega)]

end Header

/-! ## Entries -/

section Entries
variable (elf : Bytes) (h : Header)

def shName (i : Nat) : Nat := leAt elf (h.shoff + i * 64) 4
def shType (i : Nat) : Nat := leAt elf (h.shoff + i * 64 + 4) 4
def shOffset (i : Nat) : Nat := leAt elf (h.shoff + i * 64 + 24) 8
def shSize (i : Nat) : Nat := leAt elf (h.shoff + i * 64 + 32) 8

/-- The bytes that a section has in the file. -/
def fileSize (i : Nat) : Nat := if shType elf h i = 8 then 0 else shSize elf h i

def strtabOff : Nat := shOffset elf h h.shstrndx
def strtabSize : Nat := shSize elf h h.shstrndx

/-- The section names. -/
def strtab : Bytes := window elf (strtabOff elf h) (strtabSize elf h)

/-- The first entry with a name. -/
def sectionNamed (name : Bytes) : Option Nat :=
  (List.range h.shnum).find? fun i => window (strtab elf h) (shName elf h i) name.length = name

variable {elf h} (hp : Parsed elf h) (hlen : elf.length < maxLen)
include hp hlen

theorem entryAt_eq {i : Nat} (hi : i ≤ h.shnum) : entryAt h.shoff i = .ok (h.shoff + i * 64) := by
  have htable := hp.table
  simp only [maxLen] at hlen
  have hle : i * 64 ≤ h.shnum * 64 := Nat.mul_le_mul_right 64 hi
  rw [entryAt, mul64_of_lt (by omega), ok_bind, add64_of_lt (by omega)]

omit hlen in
theorem entry_le {i : Nat} (hi : i < h.shnum) : h.shoff + i * 64 + 64 ≤ elf.length := by
  have htable := hp.table
  have hle : (i + 1) * 64 ≤ h.shnum * 64 := Nat.mul_le_mul_right 64 hi
  omega

/-- A field of an entry is inside the file. -/
theorem readField_entry {i off len : Nat} (hi : i < h.shnum) (hoff : off + len ≤ 64) :
    readField elf (h.shoff + i * 64) off len = .ok (leAt elf (h.shoff + i * 64 + off) len) := by
  have hle := entry_le hp hi
  simp only [maxLen] at hlen
  rw [readField, add64_of_lt (by omega), ok_bind, readLe_of_le (by omega)]

omit hlen in
theorem readLe_name {i : Nat} (hi : i < h.shnum) :
    readLe elf (h.shoff + i * 64) 4 = (.ok (shName elf h i) : Res Nat) :=
  have hle := entry_le hp hi
  readLe_of_le (by omega)

theorem findLoop_eq {name : Bytes} (hname : 0 < name.length) (hname' : name.length < 2 ^ 32)
    (hstr : strtabOff elf h + strtabSize elf h ≤ elf.length) (i k : Nat) (hk : i + k = h.shnum) :
    findLoop elf h (strtabOff elf h) (strtabSize elf h) name i k =
      .ok (((List.range' i k).find? fun i =>
        window (strtab elf h) (shName elf h i) name.length = name).map (h.shoff + · * 64)) := by
  induction k generalizing i with
  | zero => rfl
  | succ k ih =>
    have hoff := leAt_lt elf (h.shoff + i * 64) 4
    have hwindow : shName elf h i + name.length ≤ strtabSize elf h →
        window (strtab elf h) (shName elf h i) name.length =
          window elf (strtabOff elf h + shName elf h i) name.length := window_window
    have hshort : ¬ shName elf h i + name.length ≤ strtabSize elf h →
        window (strtab elf h) (shName elf h i) name.length ≠ name := by
      intro hlt heq
      have hle := congrArg List.length heq
      simp only [window, strtab, List.length_take, List.length_drop] at hle
      omega
    have hlen' := hlen
    simp only [maxLen] at hlen'
    rw [findLoop, entryAt_eq hp hlen (by omega), ok_bind, readLe_name hp (by omega),
      ok_bind, add64_of_lt (by simp only [shName]; omega), ok_bind, List.range'_succ,
      List.find?_cons]
    split
    next hle =>
      rw [add64_of_lt (by omega), ok_bind, read_of_le (by omega), ok_bind, hwindow hle]
      split
      next heq => simp [heq]
      next hne => simp [hne, ih (i + 1) (by omega)]
    next hle => simp [hshort hle, ih (i + 1) (by omega)]

/-- A search panics when the string table's end overflows, and finds nothing when the
table is not inside the file. -/
theorem findSectionByName_eq {name : Bytes} (hname : 0 < name.length)
    (hname' : name.length < 2 ^ 32) :
    findSectionByName elf h name =
      if 2 ^ 64 ≤ strtabOff elf h + strtabSize elf h then .panic
      else if elf.length < strtabOff elf h + strtabSize elf h then .ok none
      else .ok ((sectionNamed elf h name).map (h.shoff + · * 64)) := by
  have hndx := hp.shstrndx_lt
  rw [findSectionByName, entryAt_eq hp hlen hndx.le, ok_bind,
    readField_entry hp hlen hndx (by decide), ok_bind, readField_entry hp hlen hndx (by decide),
    ok_bind]
  change (add64 (strtabOff elf h) (strtabSize elf h) >>= _) = _
  by_cases hfits : strtabOff elf h + strtabSize elf h < 2 ^ 64
  · have hno : ¬ 2 ^ 64 ≤ strtabOff elf h + strtabSize elf h := by omega
    rw [add64_of_lt hfits, ok_bind, if_neg hno]
    split
    next => rfl
    next hle =>
      rw [sectionNamed, List.range_eq_range']
      exact findLoop_eq hp hlen hname hname' (by omega) 0 h.shnum (by omega)
  · rw [if_pos (by omega), add64, checked, if_neg hfits, panic_bind]

end Entries

/-! ## Small files -/

/-- A header whose section-header table follows it. -/
def elfHeader (shnum shstrndx : Nat) : Bytes :=
  [0x7f, 0x45, 0x4c, 0x46, 2, 1, 1] ++ List.replicate 33 0 ++ leBytes 8 64 ++
    List.replicate 10 0 ++ leBytes 2 64 ++ leBytes 2 shnum ++ leBytes 2 shstrndx

/-- The entry of a section. -/
def sectionHeader (name type off size : Nat) : Bytes :=
  leBytes 4 name ++ leBytes 4 type ++ List.replicate 16 0 ++ leBytes 8 off ++ leBytes 8 size ++
    List.replicate 24 0

end OhosBun.OhosSign
