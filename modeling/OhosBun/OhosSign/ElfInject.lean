/-
# `OhosBun.OhosSign.ElfInject` — the file with the section put in

`injected` is the layout that the signer builds, piece by piece: the file up to the
section's offset with two header fields changed, an empty page, the string table with the
section's name, and the section-header table with one more entry.

`injectCodesignSection_eq`: the code writes exactly that when its sizes fit
(`InjectFits`), and panics otherwise (`injectFits_of_ne_panic`).
-/
import OhosBun.OhosSign.ElfTable

namespace OhosBun.OhosSign

open OhosBun.Lib Outcome Merkle

/-- Up to the next multiple. -/
def roundUp (v a : Nat) : Nat := (v + a - 1) / a * a

theorem le_roundUp (v : Nat) {a : Nat} (ha : 0 < a) : v ≤ roundUp v a := by
  have hdiv := Nat.div_add_mod (v + a - 1) a
  have hlt := Nat.mod_lt (v + a - 1) ha
  rw [roundUp, Nat.mul_comm]
  omega

theorem roundUp_lt (v : Nat) {a : Nat} (ha : 0 < a) : roundUp v a < v + a := by
  have hle := Nat.div_mul_le_self (v + a - 1) a
  rw [roundUp]
  omega

theorem roundUp_mod (v a : Nat) : roundUp v a % a = 0 := Nat.mul_mod_left _ a

theorem alignUp_eq_ok {v a w : Nat} (ha : 0 < a) :
    alignUp v a = .ok w ↔ v + a < 2 ^ 64 ∧ roundUp v a = w := by
  have hlt := roundUp_lt v ha
  simp only [alignUp, bind_eq_ok, add64_eq_ok, sub_eq_ok, mul64_eq_ok]
  constructor
  · rintro ⟨_, ⟨hsum, rfl⟩, _, ⟨-, rfl⟩, -, rfl⟩
    exact ⟨hsum, rfl⟩
  · rintro ⟨hsum, rfl⟩
    exact ⟨_, ⟨hsum, rfl⟩, _, ⟨by omega, rfl⟩, by unfold roundUp at hlt; omega, rfl⟩

theorem alignUp_ne_panic {v a : Nat} (ha : 0 < a) : alignUp v a ≠ .panic ↔ v + a < 2 ^ 64 := by
  constructor
  · intro h
    rw [alignUp, bind_ne_panic] at h
    exact add64_ne_panic.1 h.1
  · intro h
    rw [(alignUp_eq_ok ha).2 ⟨h, rfl⟩]
    simp

theorem alloc_of_lt {bs : Bytes} (h : bs.length < maxLen) : alloc bs = .ok bs := if_pos h

theorem length_of_alloc {bs bs' : Bytes} (h : alloc bs = .ok bs') : bs'.length < maxLen := by
  unfold alloc at h
  split at h
  next hlt => exact Outcome.ok.inj h ▸ hlt
  next => simp at h

theorem alloc_ne_panic {bs : Bytes} : alloc bs ≠ .panic ↔ bs.length < maxLen := by
  unfold alloc
  split <;> simp_all

/-! ## The layout -/

section Layout
variable (elf : Bytes) (h : Header)

/-- The end of entry `i`'s section. -/
def shEnd (i : Nat) : Nat := shOffset elf h i + fileSize elf h i

/-- The last end of a section from entry `i` on. -/
def endFrom (i k curEnd : Nat) : Nat :=
  (List.range' i k).foldl (fun m i => max m (shEnd elf h i)) curEnd

/-- The end of the section-header table and of the sections. -/
def sectionsEnd : Nat := endFrom elf h 0 h.shnum (h.shoff + h.shnum * 64)

/-- The offset of the section. -/
def csOffset : Nat := roundUp (sectionsEnd elf h) PAGE

def newShstr : Bytes := strtab elf h ++ CODESIGN_NAME

def newShstrOff : Nat := csOffset elf h + PAGE

def newShtOff : Nat := roundUp (newShstrOff elf h + (newShstr elf h).length) 8

def newTotal : Nat := newShtOff elf h + (h.shnum + 1) * 64

/-- The file up to the section's offset. -/
def original : Bytes :=
  elf.take (csOffset elf h) ++ List.replicate (csOffset elf h - elf.length) 0

/-- The file up to the section, with the changes to its header. -/
def front : Bytes :=
  patch (patch (original elf h) E_SHOFF (leBytes 8 (newShtOff elf h)))
    E_SHNUM (leBytes 2 (h.shnum + 1))

/-- The entries that were there, with the new place of the string table. -/
def oldEntries : Bytes :=
  patch (patch (window elf h.shoff (h.shnum * 64))
    (h.shstrndx * 64 + 24) (leBytes 8 (newShstrOff elf h)))
    (h.shstrndx * 64 + 32) (leBytes 8 (newShstr elf h).length)

/-- The entry of the section. -/
def csEntry : Bytes :=
  patch (patch (patch (patch (patch (List.replicate 64 0)
    0 (leBytes 4 (strtabSize elf h % 2 ^ 32))) 4 (leBytes 4 1)) 24 (leBytes 8 (csOffset elf h)))
    32 (leBytes 8 PAGE)) 48 (leBytes 8 PAGE)

/-- The length of what is left free between the tables. -/
def padding : Nat := newShtOff elf h - (newShstrOff elf h + (newShstr elf h).length)

/-- The pieces of a signed file: the original, the section, the string table, free space
and the entries. -/
def assemble (front page strs pad entries last : Bytes) : Bytes :=
  front ++ page ++ strs ++ pad ++ entries ++ last

/-- The file with the section put in, `page` being the section. -/
def layout (page : Bytes) : Bytes :=
  assemble (front elf h) page (newShstr elf h) (List.replicate (padding elf h) 0)
    (oldEntries elf h) (csEntry elf h)

/-- The file with an empty section put in. -/
def injected : Bytes := layout elf h (List.replicate PAGE 0)

/-- The sizes that putting the section in computes with. -/
structure InjectFits : Prop where
  shEnd_lt : ∀ i < h.shnum, shEnd elf h i < 2 ^ 64
  shnum_lt : h.shnum + 1 < 2 ^ 16
  total_lt : newTotal elf h < maxLen

end Layout

section Bounds
variable {elf : Bytes} {h : Header}

theorem le_endFrom (i k curEnd : Nat) : curEnd ≤ endFrom elf h i k curEnd := by
  induction k generalizing i curEnd with
  | zero => exact Nat.le_refl _
  | succ k ih => exact (Nat.le_max_left _ _).trans (ih (i + 1) _)

theorem shEnd_le_endFrom {i k curEnd j : Nat} (hi : i ≤ j) (hj : j < i + k) :
    shEnd elf h j ≤ endFrom elf h i k curEnd := by
  induction k generalizing i curEnd with
  | zero => omega
  | succ k ih =>
    by_cases hij : i = j
    · subst hij
      exact (Nat.le_max_right _ _).trans (le_endFrom (i + 1) k _)
    · exact ih (by omega) (by omega)

theorem shEnd_le_csOffset {i : Nat} (hi : i < h.shnum) : shEnd elf h i ≤ csOffset elf h :=
  (shEnd_le_endFrom (Nat.zero_le i) (by omega)).trans (le_roundUp _ (by decide))

theorem table_le_csOffset (elf : Bytes) (h : Header) : h.shoff + h.shnum * 64 ≤ csOffset elf h :=
  (le_endFrom 0 h.shnum _).trans (le_roundUp _ (by decide))

theorem csOffset_mod (elf : Bytes) (h : Header) : csOffset elf h % PAGE = 0 := roundUp_mod _ _

theorem page_le_csOffset (hp : Parsed elf h) : PAGE ≤ csOffset elf h := by
  have htable := table_le_csOffset elf h
  have hpos := hp.shoff_pos
  have hmod := csOffset_mod elf h
  simp only [PAGE] at *
  omega

theorem length_original (elf : Bytes) (h : Header) : (original elf h).length = csOffset elf h := by
  rw [original, List.length_append, List.length_take, List.length_replicate]
  omega

theorem length_front (hp : Parsed elf h) : (front elf h).length = csOffset elf h := by
  have hpage := page_le_csOffset hp
  simp only [PAGE] at hpage
  refine length_patch _ _ (length_patch _ _ (length_original elf h) ?_) ?_
  · simp only [leBytes_length, E_SHOFF]
    omega
  · simp only [leBytes_length, E_SHNUM]
    omega

theorem length_entries (hp : Parsed elf h) :
    (window elf h.shoff (h.shnum * 64)).length = h.shnum * 64 := length_window hp.table

theorem shstrndx_entry_le (hp : Parsed elf h) : h.shstrndx * 64 + 64 ≤ h.shnum * 64 := by
  have hlt := hp.shstrndx_lt
  omega

theorem length_oldEntries (hp : Parsed elf h) : (oldEntries elf h).length = h.shnum * 64 := by
  have hlen := length_entries hp
  have hle := shstrndx_entry_le hp
  refine length_patch _ _ (length_patch _ _ hlen ?_) ?_
  · rw [leBytes_length]
    omega
  · rw [leBytes_length]
    omega

theorem length_csEntry : (csEntry elf h).length = 64 := by
  refine length_patch _ _ (length_patch _ _ (length_patch _ _ (length_patch _ _ (length_patch _ _
    (List.length_replicate ..) ?_) ?_) ?_) ?_) ?_ <;> simp

theorem newShtOff_eq (elf : Bytes) (h : Header) : newShtOff elf h =
    csOffset elf h + PAGE + (newShstr elf h).length + padding elf h := by
  have hle := le_roundUp (newShstrOff elf h + (newShstr elf h).length) (a := 8) (by decide)
  rw [padding, newShtOff]
  rw [newShstrOff] at *
  omega

theorem length_layout (hp : Parsed elf h) {page : Bytes} (hpage : page.length = PAGE) :
    (layout elf h page).length = newTotal elf h := by
  simp only [layout, assemble, List.length_append, length_front hp, hpage, List.length_replicate,
    length_oldEntries hp, length_csEntry, newTotal, newShtOff_eq]
  omega

end Bounds

/-! ## Writing the pieces -/

section Pieces
variable {front page strs pad entries last new : Bytes} {off o : Nat}

theorem write_front (h : off + new.length ≤ front.length) :
    (write (assemble front page strs pad entries last) off new : Res Bytes) =
      .ok (assemble (patch front off new) page strs pad entries last) := by
  have hassoc (front : Bytes) : assemble front page strs pad entries last =
      [] ++ front ++ (page ++ strs ++ pad ++ entries ++ last) := by simp [assemble]
  rw [write_of_le (by simp only [assemble, List.length_append]; omega), hassoc, hassoc,
    patch_middle (o := off) (by simp) h]

theorem write_page (hoff : off = front.length + o) (h : o + new.length ≤ page.length) :
    (write (assemble front page strs pad entries last) off new : Res Bytes) =
      .ok (assemble front (patch page o new) strs pad entries last) := by
  have hassoc (page : Bytes) : assemble front page strs pad entries last =
      front ++ page ++ (strs ++ pad ++ entries ++ last) := by simp [assemble]
  rw [write_of_le (by simp only [assemble, List.length_append]; omega), hassoc, hassoc,
    patch_middle hoff h]

theorem write_strs (hoff : off = front.length + page.length) (h : new.length = strs.length) :
    (write (assemble front page strs pad entries last) off new : Res Bytes) =
      .ok (assemble front page new pad entries last) := by
  have hassoc (strs : Bytes) : assemble front page strs pad entries last =
      (front ++ page) ++ strs ++ (pad ++ entries ++ last) := by simp [assemble]
  rw [write_of_le (by simp only [assemble, List.length_append]; omega), hassoc, hassoc,
    patch_middle (o := 0) (by simpa using hoff) (by omega), patch_self h]

theorem write_entries
    (hoff : off = front.length + page.length + strs.length + pad.length + o)
    (h : o + new.length ≤ entries.length) :
    (write (assemble front page strs pad entries last) off new : Res Bytes) =
      .ok (assemble front page strs pad (patch entries o new) last) := by
  rw [write_of_le (by simp only [assemble, List.length_append]; omega), assemble,
    patch_middle (by simpa [Nat.add_assoc] using hoff) h, assemble]

theorem write_last
    (hoff : off = front.length + page.length + strs.length + pad.length + entries.length + o)
    (h : o + new.length ≤ last.length) :
    (write (assemble front page strs pad entries last) off new : Res Bytes) =
      .ok (assemble front page strs pad entries (patch last o new)) := by
  have hassoc (last : Bytes) : assemble front page strs pad entries last =
      (front ++ page ++ strs ++ pad ++ entries) ++ last ++ [] := by simp [assemble]
  rw [write_of_le (by simp only [assemble, List.length_append]; omega), hassoc, hassoc,
    patch_middle (by simpa [Nat.add_assoc] using hoff) h]

theorem length_of_write {buf buf' : Bytes} (h : (write buf off new : Res Bytes) = .ok buf') :
    buf'.length = buf.length := by
  obtain ⟨hle, rfl⟩ := write_eq_ok.1 h
  exact length_patch _ _ rfl hle

theorem length_of_writeField {buf buf' : Bytes} {e : Nat} (h : writeField buf e off new = .ok buf') :
    buf'.length = buf.length := by
  obtain ⟨_, -, h⟩ := bind_eq_ok.1 h
  exact length_of_write h

theorem writeField_of {buf buf' : Bytes} {e off : Nat} (hlen : e + off < 2 ^ 64)
    (h : (write buf (e + off) new : Res Bytes) = .ok buf') :
    writeField buf e off new = .ok buf' := by
  rw [writeField, add64_of_lt hlen, ok_bind, h]

theorem patch_zeros (bs : Bytes) (n : Nat) :
    patch (List.replicate n 0) 0 bs = bs ++ List.replicate (n - bs.length) 0 := by
  simp [patch, List.drop_replicate]

end Pieces

/-! ## What the code computes -/

section Inject
variable {elf : Bytes} {h : Header} (hp : Parsed elf h) (hlen : elf.length < maxLen)
include hp hlen

theorem sectionSize_eq {i : Nat} (hi : i < h.shnum) :
    sectionSize elf (h.shoff + i * 64) (leAt elf (h.shoff + i * 64 + 4) 4) =
      .ok (fileSize elf h i) := by
  rw [sectionSize, fileSize, shType]
  split
  next => rfl
  next => exact readField_entry hp hlen hi (by decide)

theorem sectionEnd_eq {i k : Nat} (hk : i + k ≤ h.shnum) (curEnd : Nat)
    (hfits : ∀ j, i ≤ j → j < i + k → shEnd elf h j < 2 ^ 64) :
    sectionEnd elf h.shoff i k curEnd = .ok (endFrom elf h i k curEnd) := by
  induction k generalizing i curEnd with
  | zero => rfl
  | succ k ih =>
    have hi : i < h.shnum := by omega
    have hmax : (if curEnd < shEnd elf h i then shEnd elf h i else curEnd) =
        max curEnd (shEnd elf h i) := by
      split <;> omega
    have hadd : (add64 (leAt elf (h.shoff + i * 64 + 24) 8) (fileSize elf h i) : Res Nat) =
        .ok (shEnd elf h i) := add64_of_lt (hfits i (Nat.le_refl i) (by omega))
    rw [sectionEnd, entryAt_eq hp hlen hi.le, ok_bind, readField_entry hp hlen hi (by decide),
      ok_bind, readField_entry hp hlen hi (by decide), ok_bind, sectionSize_eq hp hlen hi, ok_bind, hadd, ok_bind,
      hmax, ih (by omega) _ fun j hj hj' => hfits j (by omega) (by omega)]
    rfl

theorem shEnd_lt_of_ne_panic {i k curEnd : Nat} (hk : i + k ≤ h.shnum)
    (hne : sectionEnd elf h.shoff i k curEnd ≠ .panic) :
    ∀ j, i ≤ j → j < i + k → shEnd elf h j < 2 ^ 64 := by
  induction k generalizing i curEnd with
  | zero => omega
  | succ k ih =>
    have hi : i < h.shnum := by omega
    rw [sectionEnd, entryAt_eq hp hlen hi.le, ok_bind, readField_entry hp hlen hi (by decide),
      ok_bind, readField_entry hp hlen hi (by decide), ok_bind, sectionSize_eq hp hlen hi, ok_bind,
      bind_ne_panic] at hne
    obtain ⟨hadd, hrest⟩ := hne
    have hfits : shEnd elf h i < 2 ^ 64 := add64_ne_panic.1 hadd
    have hne := hrest _ (add64_of_lt hfits)
    intro j hj hj'
    by_cases hij : i = j
    · exact hij ▸ hfits
    · exact ih (by omega) hne j (by omega) (by omega)

end Inject

section Fill
variable {elf : Bytes} {h : Header}

/-- The empty buffer, in pieces. -/
theorem zeros_eq_assemble : List.replicate (newTotal elf h) 0 =
    assemble (List.replicate (csOffset elf h) 0) (List.replicate PAGE 0)
      (List.replicate (newShstr elf h).length 0) (List.replicate (padding elf h) 0)
      (List.replicate (h.shnum * 64) 0) (List.replicate 64 0) := by
  simp only [assemble, List.replicate_append_replicate]
  congr 1
  rw [newTotal, newShtOff_eq]
  omega

theorem front_window (hcs : csOffset elf h ≤ newTotal elf h) :
    window elf 0 (min (min elf.length (newTotal elf h)) (csOffset elf h)) =
      elf.take (csOffset elf h) := by
  rw [window, List.drop_zero, List.take_eq_take_iff]
  omega

variable (hp : Parsed elf h)
include hp

/-- The sizes of the layout, one after the other. -/
theorem InjectFits.bounds (hfits : InjectFits elf h) :
    sectionsEnd elf h + PAGE < 2 ^ 64 ∧ csOffset elf h + PAGE < 2 ^ 64 ∧
      newShstrOff elf h + (newShstr elf h).length + 8 < 2 ^ 64 ∧
      newShtOff elf h + (h.shnum + 1) * 64 < 2 ^ 64 ∧ csOffset elf h ≤ newTotal elf h := by
  have htotal := hfits.total_lt
  have hcs := le_roundUp (sectionsEnd elf h) (a := PAGE) (by decide)
  have hsht := newShtOff_eq elf h
  have hround := roundUp_lt (newShstrOff elf h + (newShstr elf h).length) (a := 8) (by decide)
  have hle := le_roundUp (newShstrOff elf h + (newShstr elf h).length) (a := 8) (by decide)
  have hpos := hp.shstrndx_lt
  simp only [newTotal, newShtOff, newShstrOff, csOffset, maxLen] at *
  omega

theorem fillInjected_eq (hfits : InjectFits elf h) :
    fillInjected elf h (csOffset elf h) (newShstrOff elf h) (newShtOff elf h) (h.shnum + 1)
      (newTotal elf h) (strtabSize elf h % 2 ^ 32) (newShstr elf h) = .ok (injected elf h) := by
  obtain ⟨-, -, -, hb, hcs⟩ := hfits.bounds hp
  have hentry : ∀ i, i ≤ h.shnum →
      entryAt (newShtOff elf h) i = .ok (newShtOff elf h + i * 64) := fun i hi => by
    have hle : i * 64 ≤ h.shnum * 64 := Nat.mul_le_mul_right 64 hi
    rw [entryAt, mul64_of_lt (by omega), ok_bind, add64_of_lt (by omega)]
  have hndx := hp.shstrndx_lt
  have hle := shstrndx_entry_le hp
  have hpage := page_le_csOffset hp
  have hsht := newShtOff_eq elf h
  have hfront := front_window hcs
  have htake : (elf.take (csOffset elf h)).length ≤ csOffset elf h := by simp
  have hpad : csOffset elf h - (elf.take (csOffset elf h)).length = csOffset elf h - elf.length := by
    rw [List.length_take]
    omega
  have hentries := length_entries hp
  have horiginal : (original elf h).length = csOffset elf h :=
    length_original elf h
  rw [fillInjected, alloc_of_lt (by rw [List.length_replicate]; exact hfits.total_lt), ok_bind]
  dsimp only
  rw [read_of_le (by omega), ok_bind, hfront, zeros_eq_assemble,
    write_front (by rw [List.length_replicate]; simp), ok_bind, patch_zeros, hpad, ← original,
    write_strs (by rw [newShstrOff, length_original, List.length_replicate]) (by simp), ok_bind,
    mul64_of_lt (by omega), ok_bind, read_of_le hp.table, ok_bind,
    write_entries (o := 0) (by simp [length_original, hsht]) (by simp [hentries]), ok_bind,
    patch_self (by simp [hentries]), hentry _ (Nat.le_refl _), ok_bind,
    write_last (o := 0) (by simp [length_original, hsht, hentries]) (by simp), ok_bind]
  -- the entry of the section
  have hl₁ := length_patch 0 (leBytes 4 (strtabSize elf h % 2 ^ 32))
    (List.length_replicate (n := 64) (a := (0 : UInt8))) (by simp)
  have hl₂ := length_patch 4 (leBytes 4 1) hl₁ (by simp)
  have hl₃ := length_patch 24 (leBytes 8 (csOffset elf h)) hl₂ (by simp)
  have hl₄ := length_patch 32 (leBytes 8 PAGE) hl₃ (by simp)
  have hstart : ∀ off, newShtOff elf h + h.shnum * 64 + off =
      (original elf h).length +
      (List.replicate PAGE (0 : UInt8)).length + (newShstr elf h).length +
      (List.replicate (padding elf h) (0 : UInt8)).length +
      (window elf h.shoff (h.shnum * 64)).length + off := fun off => by
    rw [length_original, List.length_replicate, List.length_replicate, hentries, hsht]
  rw [writeField_of (by omega) (write_last (hstart 4) (by rw [hl₁]; simp)), ok_bind,
    writeField_of (by omega) (write_last (hstart 24) (by rw [hl₂]; simp)), ok_bind,
    writeField_of (by omega) (write_last (hstart 32) (by rw [hl₃]; simp)), ok_bind,
    writeField_of (by omega) (write_last (hstart 48) (by rw [hl₄]; simp)), ok_bind,
    hentry _ hndx.le, ok_bind]
  -- the entry of the string table
  have he₁ := length_patch (h.shstrndx * 64 + 24) (leBytes 8 (newShstrOff elf h))
    hentries (by rw [leBytes_length]; omega)
  have htstart : ∀ off, newShtOff elf h + h.shstrndx * 64 + off =
      (original elf h).length +
      (List.replicate PAGE (0 : UInt8)).length + (newShstr elf h).length +
      (List.replicate (padding elf h) (0 : UInt8)).length + (h.shstrndx * 64 + off) := fun off => by
    rw [length_original, List.length_replicate, List.length_replicate, hsht, Nat.add_assoc _ _ off]
  rw [writeField_of (by omega) (write_entries (htstart 24) (by rw [hentries, leBytes_length]; omega)),
    ok_bind,
    writeField_of (by omega) (write_entries (htstart 32) (by rw [he₁, leBytes_length]; omega)),
    ok_bind]
  -- the header
  have hh₁ := length_patch E_SHOFF (leBytes 8 (newShtOff elf h)) horiginal (by simp only [leBytes_length, E_SHOFF, PAGE] at *; omega)
  rw [write_front (by simp only [leBytes_length, E_SHOFF, PAGE] at *; omega), ok_bind,
    write_front (by rw [hh₁]; simp only [leBytes_length, E_SHNUM, PAGE] at *; omega)]
  rfl

variable (hlen : elf.length < maxLen)
  (hstr : strtabOff elf h + strtabSize elf h ≤ elf.length)
include hlen hstr

/-- What is left to compute once the header and the string table are read. -/
theorem injectCodesignSection_bind : injectCodesignSection elf = (do
    let curEnd ← sectionEnd elf h.shoff 0 h.shnum (h.shoff + h.shnum * 64)
    let csOff ← alignUp curEnd PAGE
    let shstr ← alloc (newShstr elf h)
    let newShstrOff ← add64 csOff PAGE
    let newShstrEnd ← add64 newShstrOff shstr.length
    let newShtOff ← alignUp newShstrEnd 8
    let newShnum ← add16 h.shnum 1
    let newTotal ← entryAt newShtOff newShnum
    let buf ← fillInjected elf h csOff newShstrOff newShtOff newShnum newTotal
      (strtabSize elf h % 2 ^ 32) shstr
    .ok (buf, csOff)) := by
  have hndx := hp.shstrndx_lt
  have hsum : (add64 (strtabOff elf h) (strtabSize elf h) : Res Nat) =
      .ok (strtabOff elf h + strtabSize elf h) := by
    simp only [maxLen] at hlen
    exact add64_of_lt (by omega)
  have hread : ∀ off, off + 8 ≤ 64 → readField elf (h.shoff + h.shstrndx * 64) off 8 =
      .ok (leAt elf (h.shoff + h.shstrndx * 64 + off) 8) :=
    fun off hoff => readField_entry hp hlen hndx hoff
  rw [injectCodesignSection, (parseHeader_eq_ok hlen).2 hp, ok_bind,
    entryAt_eq hp hlen hndx.le, ok_bind, hread 24 (by decide), ok_bind, hread 32 (by decide),
    ok_bind]
  change (add64 (strtabOff elf h) (strtabSize elf h) >>= _) = _
  rw [hsum, ok_bind, if_neg (by omega), entryAt_eq hp hlen (Nat.le_refl _), ok_bind]
  change (sectionEnd elf h.shoff 0 h.shnum _ >>= fun curEnd => alignUp curEnd PAGE >>= fun csOff =>
    read elf (strtabOff elf h) (strtabSize elf h) >>= _) = _
  simp only [read_of_le hstr, ok_bind]
  rfl

theorem injectCodesignSection_eq (hfits : InjectFits elf h) :
    injectCodesignSection elf = .ok (injected elf h, csOffset elf h) := by
  obtain ⟨hb₁, hb₂, hb₃, hb₄, hcs⟩ := hfits.bounds hp
  have hend := sectionEnd_eq hp hlen (i := 0) (k := h.shnum) (by omega)
    (h.shoff + h.shnum * 64) fun j _ hj => hfits.shEnd_lt j (by omega)
  have halloc : alloc (newShstr elf h) = .ok (newShstr elf h) := by
    refine alloc_of_lt (Nat.lt_of_le_of_lt ?_ hfits.total_lt)
    have hsht := newShtOff_eq elf h
    rw [newTotal]
    omega
  have htotal : entryAt (newShtOff elf h) (h.shnum + 1) = .ok (newTotal elf h) := by
    rw [entryAt, mul64_of_lt (by omega), ok_bind, add64_of_lt (by omega)]
    rfl
  rw [injectCodesignSection_bind hp hlen hstr, hend, ok_bind]
  change (alignUp (sectionsEnd elf h) PAGE >>= _) = _
  rw [(alignUp_eq_ok (by decide)).2 ⟨hb₁, rfl⟩, ok_bind, halloc, ok_bind]
  change (add64 (csOffset elf h) PAGE >>= _) = _
  rw [add64_of_lt hb₂, ok_bind]
  change (add64 (newShstrOff elf h) (newShstr elf h).length >>= _) = _
  rw [add64_of_lt (by omega), ok_bind, (alignUp_eq_ok (by decide)).2 ⟨hb₃, rfl⟩, ok_bind,
    add16_of_lt hfits.shnum_lt, ok_bind]
  change (entryAt (newShtOff elf h) (h.shnum + 1) >>= _) = _
  rw [htotal, ok_bind]
  change (fillInjected elf h (csOffset elf h) (newShstrOff elf h) (newShtOff elf h) (h.shnum + 1)
    (newTotal elf h) (strtabSize elf h % 2 ^ 32) (newShstr elf h) >>= _) = _
  rw [fillInjected_eq hp hfits, ok_bind]
  rfl

/-- Without a panic, every size of the layout was computed. -/
theorem injectFits_of_ne_panic (hne : injectCodesignSection elf ≠ .panic) : InjectFits elf h := by
  rw [injectCodesignSection_bind hp hlen hstr, bind_ne_panic] at hne
  obtain ⟨hsec, hne⟩ := hne
  have hfits := shEnd_lt_of_ne_panic hp hlen (by omega) hsec
  have hne := hne _ (sectionEnd_eq hp hlen (by omega) _ hfits)
  change (alignUp (sectionsEnd elf h) PAGE >>= _) ≠ _ at hne
  rw [bind_ne_panic, alignUp_ne_panic (by decide)] at hne
  obtain ⟨hb₁, hne⟩ := hne
  have hne := hne _ ((alignUp_eq_ok (by decide)).2 ⟨hb₁, rfl⟩)
  rw [bind_ne_panic, alloc_ne_panic] at hne
  obtain ⟨halloc, hne⟩ := hne
  have hne := hne _ (alloc_of_lt halloc)
  change (add64 (csOffset elf h) PAGE >>= _) ≠ _ at hne
  rw [bind_ne_panic, add64_ne_panic] at hne
  obtain ⟨hb₂, hne⟩ := hne
  have hne := hne _ (add64_of_lt hb₂)
  change (add64 (newShstrOff elf h) (newShstr elf h).length >>= _) ≠ _ at hne
  rw [bind_ne_panic, add64_ne_panic] at hne
  obtain ⟨hb₃, hne⟩ := hne
  have hne := hne _ (add64_of_lt hb₃)
  rw [bind_ne_panic, alignUp_ne_panic (by decide)] at hne
  obtain ⟨hb₄, hne⟩ := hne
  have hne := hne _ ((alignUp_eq_ok (by decide)).2 ⟨hb₄, rfl⟩)
  rw [bind_ne_panic, add16_ne_panic] at hne
  obtain ⟨hshnum, hne⟩ := hne
  have hne := hne _ (add16_of_lt hshnum)
  change (entryAt (newShtOff elf h) (h.shnum + 1) >>= _) ≠ _ at hne
  rw [bind_ne_panic] at hne
  obtain ⟨hentry, hne⟩ := hne
  rw [entryAt, mul64_of_lt (by omega), ok_bind, add64_ne_panic] at hentry
  have hne := hne (newTotal elf h)
    (by rw [entryAt, mul64_of_lt (by omega), ok_bind, add64_of_lt hentry]; rfl)
  rw [bind_ne_panic] at hne
  obtain ⟨hfill, -⟩ := hne
  rw [fillInjected, bind_ne_panic, alloc_ne_panic, List.length_replicate] at hfill
  exact ⟨fun i hi => hfits i (Nat.zero_le i) (by omega), hshnum, hfill.1⟩

end Fill

end OhosBun.OhosSign
