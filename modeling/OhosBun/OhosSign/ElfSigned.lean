/-
# `OhosBun.OhosSign.ElfSigned` — what a signed file says of itself

The signed file is read back the way a verifier reads it: its header and its
section-header table (`parsed_layout`), its names, its `.codesign` section and what stands
in it.  The payload is always the right one (`payload_verifies`).  The section is found
when no other name spells `.codesign` in the new string table (`sign_verifies`): the name
is put where the old table ends, and an entry that points there takes it over.
-/
import OhosBun.OhosSign.ElfTotal

namespace OhosBun.OhosSign

open OhosBun.Lib Outcome Merkle

/-! ## Reading the pieces -/

section Pieces
variable {front page strs pad entries last : Bytes} {off o len : Nat}

theorem window_front (h : off + len ≤ front.length) :
    window (assemble front page strs pad entries last) off len = window front off len := by
  simp only [assemble, List.append_assoc]
  exact window_append_left h

theorem window_page (hoff : off = front.length + o) (h : o + len ≤ page.length) :
    window (assemble front page strs pad entries last) off len = window page o len := by
  have hassoc : assemble front page strs pad entries last =
      front ++ page ++ (strs ++ pad ++ entries ++ last) := by simp [assemble]
  rw [hassoc, window_middle hoff h]

theorem window_strs (hoff : off = front.length + page.length + o) (h : o + len ≤ strs.length) :
    window (assemble front page strs pad entries last) off len = window strs o len := by
  have hassoc : assemble front page strs pad entries last =
      (front ++ page) ++ strs ++ (pad ++ entries ++ last) := by simp [assemble]
  rw [hassoc, window_middle (by simpa using hoff) h]

theorem window_entries
    (hoff : off = front.length + page.length + strs.length + pad.length + o)
    (h : o + len ≤ entries.length) :
    window (assemble front page strs pad entries last) off len = window entries o len := by
  rw [assemble, window_middle (by simpa [Nat.add_assoc] using hoff) h]

theorem window_last
    (hoff : off = front.length + page.length + strs.length + pad.length + entries.length + o) :
    window (assemble front page strs pad entries last) off len = window last o len := by
  have hpre : (front ++ page ++ strs ++ pad ++ entries).length =
      front.length + page.length + strs.length + pad.length + entries.length := by simp; omega
  rw [assemble, window_append_right (by omega), hpre, hoff, Nat.add_sub_cancel_left]

end Pieces

/-! ## The new section-header table -/

section Layout
variable {elf : Bytes} {h : Header} {page : Bytes} (hp : Parsed elf h)
  (hpage : page.length = PAGE)
include hp

/-- The header of the file with the section. -/
def newHeader (elf : Bytes) (h : Header) : Header := ⟨newShtOff elf h, h.shnum + 1, h.shstrndx⟩

variable {len i o : Nat}

/-- The file up to the section is as it was, but for two fields of the header. -/
theorem window_layout_front {off : Nat} (hcs : off + len ≤ csOffset elf h) (hlen : off + len ≤ elf.length)
    (hshoff : off + len ≤ E_SHOFF ∨ E_SHOFF + 8 ≤ off)
    (hshnum : off + len ≤ E_SHNUM ∨ E_SHNUM + 2 ≤ off) :
    window (layout elf h page) off len = window elf off len := by
  have hcsOff := page_le_csOffset hp
  have horiginal := length_original elf h
  have htake : off + len ≤ (elf.take (csOffset elf h)).length := by
    rw [List.length_take]
    omega
  simp only [PAGE] at hcsOff
  rw [layout, window_front (by rwa [length_front hp]), front, window_patch_of_disjoint
      (by rw [length_patch _ _ horiginal]
          · simp only [leBytes_length, E_SHNUM]; omega
          · simp only [leBytes_length, E_SHOFF]; omega)
      (by simpa using hshnum),
    window_patch_of_disjoint (by rw [horiginal]; simp only [leBytes_length, E_SHOFF]; omega)
      (by simpa using hshoff),
    original, window_append_left htake]
  rw [window, window, List.drop_take, List.take_take, Nat.min_eq_left (by omega)]

include hpage

/-- Where a field of an entry of the new table stands. -/
theorem window_layout_entry (hi : i < h.shnum) (ho : o + len ≤ 64) :
    window (layout elf h page) (newShtOff elf h + i * 64 + o) len =
      window (oldEntries elf h) (i * 64 + o) len := by
  have hsht := newShtOff_eq elf h
  have hle : (i + 1) * 64 ≤ h.shnum * 64 := Nat.mul_le_mul_right 64 hi
  refine window_entries ?_ ?_
  · rw [length_front hp, hpage, List.length_replicate]
    omega
  · rw [length_oldEntries hp]
    omega

theorem window_layout_csEntry :
    window (layout elf h page) (newShtOff elf h + h.shnum * 64 + o) len =
      window (csEntry elf h) o len := by
  have hsht := newShtOff_eq elf h
  refine window_last ?_
  rw [length_front hp, hpage, List.length_replicate, length_oldEntries hp]
  omega

omit hpage in
/-- A field of an entry that was there, other than the place of the string table. -/
theorem window_oldEntries (hi : i < h.shnum) (ho : o + len ≤ 64) (hfree : i ≠ h.shstrndx ∨ o + len ≤ 24) :
    window (oldEntries elf h) (i * 64 + o) len = window elf (h.shoff + i * 64 + o) len := by
  have hentries := length_entries hp
  have hle := shstrndx_entry_le hp
  have hi' : (i + 1) * 64 ≤ h.shnum * 64 := Nat.mul_le_mul_right 64 hi
  rw [oldEntries, window_patch_of_disjoint
      (by rw [length_patch _ _ hentries] <;> rw [leBytes_length] <;> omega)
      (by rw [leBytes_length]; omega),
    window_patch_of_disjoint (by rw [hentries, leBytes_length]; omega)
      (by rw [leBytes_length]; omega),
    window_window (by omega), Nat.add_assoc]

omit hpage in
theorem oldEntries_strtab :
    window (oldEntries elf h) (h.shstrndx * 64 + 24) 8 = leBytes 8 (newShstrOff elf h) ∧
      window (oldEntries elf h) (h.shstrndx * 64 + 32) 8 = leBytes 8 (newShstr elf h).length := by
  have hentries := length_entries hp
  have hle := shstrndx_entry_le hp
  have hlen := length_patch (h.shstrndx * 64 + 24) (leBytes 8 (newShstrOff elf h)) hentries
    (by rw [leBytes_length]; omega)
  constructor
  · rw [oldEntries, window_patch_of_disjoint (by rw [hlen, leBytes_length]; omega)
      (by rw [leBytes_length]; omega)]
    exact window_patch (leBytes_length 8 _) (by rw [hentries]; omega)
  · exact window_patch (leBytes_length 8 _) (by rw [hlen]; omega)

omit hp hpage in
/-- The fields of the section's entry. -/
theorem csEntry_fields (elf : Bytes) (h : Header) :
    window (csEntry elf h) 0 4 = leBytes 4 (strtabSize elf h % 2 ^ 32) ∧
      window (csEntry elf h) 4 4 = leBytes 4 1 ∧
      window (csEntry elf h) 24 8 = leBytes 8 (csOffset elf h) ∧
      window (csEntry elf h) 32 8 = leBytes 8 PAGE := by
  have h₀ : (List.replicate 64 (0 : UInt8)).length = 64 := List.length_replicate ..
  have h₁ := length_patch 0 (leBytes 4 (strtabSize elf h % 2 ^ 32)) h₀ (by simp)
  have h₂ := length_patch 4 (leBytes 4 1) h₁ (by simp)
  have h₃ := length_patch 24 (leBytes 8 (csOffset elf h)) h₂ (by simp)
  have h₄ := length_patch 32 (leBytes 8 PAGE) h₃ (by simp)
  have skip : ∀ {bs new : Bytes} {o off len : Nat}, bs.length = 64 → o + new.length ≤ 64 →
      off + len ≤ o ∨ o + new.length ≤ off →
      window (patch bs o new) off len = window bs off len := fun hbs ho hdisj =>
    window_patch_of_disjoint (by rw [hbs]; exact ho) hdisj
  have hit : ∀ {bs new : Bytes} {o len : Nat}, bs.length = 64 → new.length = len → o + len ≤ 64 →
      window (patch bs o new) o len = new := fun hbs hnew ho =>
    window_patch hnew (by rw [hbs]; exact ho)
  rw [csEntry]
  refine ⟨?_, ?_, ?_, ?_⟩
  · rw [skip h₄ (by simp) (by simp), skip h₃ (by simp) (by simp), skip h₂ (by simp) (by simp),
      skip h₁ (by simp) (by simp), hit h₀ (by simp) (by simp)]
  · rw [skip h₄ (by simp) (by simp), skip h₃ (by simp) (by simp), skip h₂ (by simp) (by simp),
      hit h₁ (by simp) (by simp)]
  · rw [skip h₄ (by simp) (by simp), skip h₃ (by simp) (by simp), hit h₂ (by simp) (by simp)]
  · rw [skip h₄ (by simp) (by simp), hit h₃ (by simp) (by simp)]

omit hp hpage in
/-- The sizes that are written down fit in their fields. -/
theorem newShtOff_lt (hfits : InjectFits elf h) :
    newShtOff elf h < 256 ^ 8 ∧ newShstrOff elf h < 256 ^ 8 ∧ (newShstr elf h).length < 256 ^ 8 ∧
      csOffset elf h < 256 ^ 8 ∧ h.shnum + 1 < 256 ^ 2 := by
  have htotal := hfits.total_lt
  have hshnum := hfits.shnum_lt
  have hsht := newShtOff_eq elf h
  simp only [newTotal, maxLen, newShstrOff] at *
  omega

theorem parsed_layout (hfits : InjectFits elf h) :
    Parsed (layout elf h page) (newHeader elf h) := by
  obtain ⟨hoff, -, -, -, hnum⟩ := newShtOff_lt hfits
  have hlen := length_layout hp hpage
  have hcs := page_le_csOffset hp
  have helf := hp.length
  have hsht := newShtOff_eq elf h
  have htotal : newTotal elf h = newShtOff elf h + (h.shnum + 1) * 64 := rfl
  simp only [PAGE] at hcs hsht
  have hkeep : ∀ off len, off + len ≤ 64 → (off + len ≤ E_SHOFF ∨ E_SHOFF + 8 ≤ off) →
      (off + len ≤ E_SHNUM ∨ E_SHNUM + 2 ≤ off) →
      window (layout elf h page) off len = window elf off len := fun off len h64 hshoff hshnum =>
    window_layout_front hp (by omega) (by omega) hshoff hshnum
  have horiginal := length_original elf h
  refine ⟨?_, ?_, ?_, ?_, ?_, ?_, ?_, ?_⟩
  · have hmagic := hp.elf64
    simp only [isElf64, decide_eq_true_eq] at hmagic ⊢
    obtain ⟨-, hmagic, hclass⟩ := hmagic
    have hwindow := congrArg (·[0]?) (hkeep 4 1 (by omega) (by decide) (by decide))
    simp only [getElem?_window] at hwindow
    refine ⟨by omega, ?_, ?_⟩
    · rw [hkeep _ _ (by omega) (by decide) (by decide), hmagic]
    · exact hwindow.trans hclass
  · rw [leAt, layout, window_front (by rw [length_front hp]; simp only [E_SHOFF]; omega), front,
      window_patch_of_disjoint
        (by rw [length_patch _ _ horiginal] <;> simp only [leBytes_length, E_SHNUM, E_SHOFF] <;> omega)
        (by simp only [E_SHOFF, E_SHNUM]; omega),
      window_patch (leBytes_length 8 _) (by rw [horiginal]; simp only [E_SHOFF]; omega),
      ofLe_leBytes_of_lt hoff, newHeader]
  · rw [leAt, hkeep _ _ (by decide) (by decide) (by decide), ← leAt, hp.shentsize]
  · rw [leAt, layout, window_front (by rw [length_front hp]; simp only [E_SHNUM]; omega), front,
      window_patch (leBytes_length 2 _)
        (by rw [length_patch _ _ horiginal] <;> simp only [leBytes_length, E_SHNUM, E_SHOFF] <;> omega),
      ofLe_leBytes_of_lt hnum, newHeader]
  · rw [leAt, hkeep _ _ (by decide) (by decide) (by decide), ← leAt, hp.shstrndx, newHeader]
  · simp only [newHeader]
    omega
  · have hlt := hp.shstrndx_lt
    simp only [newHeader]
    omega
  · simp only [newHeader]
    omega

/-! ## The sections of the new table -/

theorem shField_layout (hi : i < h.shnum) (ho : o + len ≤ 64) (hfree : i ≠ h.shstrndx ∨ o + len ≤ 24) :
    leAt (layout elf h page) (newShtOff elf h + i * 64 + o) len =
      leAt elf (h.shoff + i * 64 + o) len := by
  rw [leAt, window_layout_entry hp hpage hi ho, window_oldEntries hp hi ho hfree, leAt]

theorem shName_layout (hi : i < h.shnum) :
    shName (layout elf h page) (newHeader elf h) i = shName elf h i :=
  shField_layout hp hpage (o := 0) hi (by decide) (.inr (by decide))

theorem csEntry_layout (hfits : InjectFits elf h) :
    shName (layout elf h page) (newHeader elf h) h.shnum = strtabSize elf h % 2 ^ 32 ∧
      shType (layout elf h page) (newHeader elf h) h.shnum = 1 ∧
      shOffset (layout elf h page) (newHeader elf h) h.shnum = csOffset elf h ∧
      shSize (layout elf h page) (newHeader elf h) h.shnum = PAGE := by
  obtain ⟨hname, htype, hoff, hsize⟩ := csEntry_fields elf h
  obtain ⟨-, -, -, hcs, -⟩ := newShtOff_lt hfits
  refine ⟨?_, ?_, ?_, ?_⟩
  · have hread : window (layout elf h page) (newShtOff elf h + h.shnum * 64) 4 = _ :=
      window_layout_csEntry hp hpage (o := 0)
    rw [shName, leAt]
    exact (congrArg ofLe (hread.trans hname)).trans
      (ofLe_leBytes_of_lt (Nat.mod_lt _ (by decide)))
  · rw [shType, leAt]
    exact (congrArg ofLe ((window_layout_csEntry hp hpage).trans htype)).trans (by decide)
  · rw [shOffset, leAt]
    exact (congrArg ofLe ((window_layout_csEntry hp hpage).trans hoff)).trans
      (ofLe_leBytes_of_lt hcs)
  · rw [shSize, leAt]
    exact (congrArg ofLe ((window_layout_csEntry hp hpage).trans hsize)).trans (by decide)

theorem strtab_layout (hfits : InjectFits elf h) :
    strtabOff (layout elf h page) (newHeader elf h) = newShstrOff elf h ∧
      strtabSize (layout elf h page) (newHeader elf h) = (newShstr elf h).length ∧
      strtab (layout elf h page) (newHeader elf h) = newShstr elf h := by
  obtain ⟨-, hstrOff, hstrLen, -, -⟩ := newShtOff_lt hfits
  obtain ⟨hoffBytes, hsizeBytes⟩ := oldEntries_strtab hp
  have hndx := hp.shstrndx_lt
  have hoff : strtabOff (layout elf h page) (newHeader elf h) = newShstrOff elf h :=
    (congrArg ofLe ((window_layout_entry hp hpage hndx (by decide)).trans hoffBytes)).trans
      (ofLe_leBytes_of_lt hstrOff)
  have hsize : strtabSize (layout elf h page) (newHeader elf h) = (newShstr elf h).length :=
    (congrArg ofLe ((window_layout_entry hp hpage hndx (by decide)).trans hsizeBytes)).trans
      (ofLe_leBytes_of_lt hstrLen)
  refine ⟨hoff, hsize, ?_⟩
  rw [strtab, hoff, hsize, layout,
    window_strs (o := 0) (by rw [length_front hp, hpage, newShstrOff, Nat.add_zero]) (by omega)]
  exact window_zero_length _

/-- No entry's name spells `.codesign` in the new string table, and the new entry's does. -/
def NamesFree (elf : Bytes) (h : Header) : Prop :=
  (∀ i < h.shnum,
    window (newShstr elf h) (shName elf h i) CODESIGN_NAME.length ≠ CODESIGN_NAME) ∧
  window (newShstr elf h) (strtabSize elf h % 2 ^ 32) CODESIGN_NAME.length = CODESIGN_NAME

theorem sectionNamed_layout (hfits : InjectFits elf h) :
    sectionNamed (layout elf h page) (newHeader elf h) CODESIGN_NAME = some h.shnum ↔
      NamesFree elf h := by
  obtain ⟨hname, -, -, -⟩ := csEntry_layout hp hpage hfits
  obtain ⟨-, -, hstrtab⟩ := strtab_layout hp hpage hfits
  have hshnum : (newHeader elf h).shnum = h.shnum + 1 := rfl
  rw [sectionNamed, List.find?_range_eq_some, hname, hstrtab, hshnum, NamesFree]
  simp only [decide_eq_true_eq, List.mem_range, Bool.not_eq_true', decide_eq_false_iff_not]
  constructor
  · rintro ⟨hlast, -, hbefore⟩
    refine ⟨fun i hi => ?_, hlast⟩
    rw [← shName_layout hp hpage hi]
    exact hbefore i hi
  · rintro ⟨hbefore, hlast⟩
    refine ⟨hlast, by omega, fun i hi => ?_⟩
    rw [shName_layout hp hpage hi]
    exact hbefore i hi

/-- A section at the new section's offset that takes a page of the file is the new one. -/
theorem eq_of_shOffset_eq (hfits : InjectFits elf h) (hi : i < h.shnum + 1)
    (hoff : shOffset (layout elf h page) (newHeader elf h) i = csOffset elf h)
    (hsize : fileSize (layout elf h page) (newHeader elf h) i = PAGE) : i = h.shnum := by
  by_contra hne
  have hilt : i < h.shnum := by omega
  by_cases hndx : i = h.shstrndx
  · obtain ⟨hstr, -, -⟩ := strtab_layout hp hpage hfits
    rw [hndx] at hoff
    have heq : newShstrOff elf h = csOffset elf h := hstr.symm.trans hoff
    simp only [newShstrOff, PAGE] at heq
    omega
  · have hend : shEnd elf h i ≤ csOffset elf h := shEnd_le_csOffset hilt
    have hoff' : shOffset (layout elf h page) (newHeader elf h) i = shOffset elf h i :=
      shField_layout hp hpage hilt (by decide) (.inl hndx)
    have htype : shType (layout elf h page) (newHeader elf h) i = shType elf h i :=
      shField_layout hp hpage hilt (by decide) (.inl hndx)
    have hsize' : shSize (layout elf h page) (newHeader elf h) i = shSize elf h i :=
      shField_layout hp hpage hilt (by decide) (.inl hndx)
    rw [fileSize, htype, hsize', ← fileSize] at hsize
    rw [shEnd, ← hoff', hoff, hsize] at hend
    simp only [PAGE] at hend
    omega

end Layout

/-! ## Verifying a signed file -/

/-- The section-header table leads to a page of `.codesign` at an offset. -/
def FindsCodesign (out : Bytes) (csOff : Nat) : Prop :=
  csOff % PAGE = 0 ∧ ∃ h e, parseHeader out = .ok h ∧
    findSectionByName out h CODESIGN_NAME = .ok (some e) ∧
    readField out e 24 8 = .ok csOff ∧
    sectionSize out e (leAt out (e + 4) 4) = .ok PAGE

/-- The section holds a signature of the file. -/
structure PayloadVerifies (out : Bytes) (csOff : Nat) : Prop where
  type : leAt out csOff 4 = Descriptor.ELF_SIGN_INFO_TYPE
  length : leAt out (csOff + 4) 4 = 288
  fileSize : leAt (window out (csOff + 8) 256) 8 8 = out.length
  rootHash : window (window out (csOff + 8) 256) 16 32 = rootHash out csOff PAGE
  signature : window out (csOff + 264) 32 =
    Sha256.hash (patch (window out (csOff + 8) 256) 4 (leBytes 4 0))

def Verifies (out : Bytes) (csOff : Nat) : Prop :=
  FindsCodesign out csOff ∧ PayloadVerifies out csOff

section Verify
variable {elf : Bytes} {h : Header} {page : Bytes} (hp : Parsed elf h)
  (hpage : page.length = PAGE) (hfits : InjectFits elf h)
include hp hpage hfits

/-- The search of the new table. -/
theorem find_layout : findSectionByName (layout elf h page) (newHeader elf h) CODESIGN_NAME =
    .ok ((sectionNamed (layout elf h page) (newHeader elf h) CODESIGN_NAME).map
      (newShtOff elf h + · * 64)) := by
  obtain ⟨hoff, hsize, -⟩ := strtab_layout hp hpage hfits
  have hlen : (layout elf h page).length < maxLen := by
    rw [length_layout hp hpage]
    exact hfits.total_lt
  have hin : newShstrOff elf h + (newShstr elf h).length ≤ (layout elf h page).length := by
    have hsht := newShtOff_eq elf h
    rw [length_layout hp hpage, newTotal, newShstrOff]
    omega
  have hfind := find_codesign hlen (parsed_layout hp hpage hfits)
    (by rw [hoff, hsize]; simp only [maxLen] at hlen; omega)
  rw [hoff, hsize, if_neg (by omega)] at hfind
  exact hfind

/-- What is found at an offset. -/
theorem findsCodesign_iff {csOff : Nat} : FindsCodesign (layout elf h page) csOff ↔
    csOff % PAGE = 0 ∧
      ∃ i, sectionNamed (layout elf h page) (newHeader elf h) CODESIGN_NAME = some i ∧
        shOffset (layout elf h page) (newHeader elf h) i = csOff ∧
        fileSize (layout elf h page) (newHeader elf h) i = PAGE := by
  have hparsed := parsed_layout hp hpage hfits
  have hlen : (layout elf h page).length < maxLen := by
    rw [length_layout hp hpage]
    exact hfits.total_lt
  refine and_congr_right fun _ => ?_
  constructor
  · rintro ⟨h', e, hparse, hfound, hoffset, hsection⟩
    obtain rfl := parsed_unique hlen hparsed ((parseHeader_eq_ok hlen).1 hparse)
    rw [find_layout hp hpage hfits] at hfound
    obtain ⟨i, hi, rfl⟩ := Option.map_eq_some_iff.1 (Outcome.ok.inj hfound)
    have hilt := sectionNamed_lt hi
    have hoff := (readField_entry hparsed hlen hilt (by decide)).symm.trans hoffset
    have hsize := (sectionSize_eq hparsed hlen hilt).symm.trans hsection
    exact ⟨i, hi, Outcome.ok.inj hoff, Outcome.ok.inj hsize⟩
  · rintro ⟨i, hi, hoffset, hsection⟩
    have hilt := sectionNamed_lt hi
    refine ⟨newHeader elf h, newShtOff elf h + i * 64, (parseHeader_eq_ok hlen).2 hparsed,
      by rw [find_layout hp hpage hfits, hi, Option.map_some], ?_, ?_⟩
    · exact (readField_entry hparsed hlen hilt (by decide)).trans (congrArg _ hoffset)
    · exact (sectionSize_eq hparsed hlen hilt).trans (congrArg _ hsection)

theorem findsCodesign_layout :
    FindsCodesign (layout elf h page) (csOffset elf h) ↔ NamesFree elf h := by
  rw [findsCodesign_iff hp hpage hfits, ← sectionNamed_layout hp hpage hfits]
  constructor
  · rintro ⟨-, i, hi, hoffset, hsection⟩
    obtain rfl := eq_of_shOffset_eq hp hpage hfits (sectionNamed_lt hi) hoffset hsection
    exact hi
  · intro hnamed
    obtain ⟨-, htype, hcsOff, hcsSize⟩ := csEntry_layout hp hpage hfits
    refine ⟨csOffset_mod elf h, h.shnum, hnamed, hcsOff, ?_⟩
    rw [fileSize, htype, if_neg (by decide), hcsSize]

omit hfits in
/-- Files that differ in the section's page only. -/
theorem getElem?_layout {page' : Bytes} (hpage' : page'.length = PAGE) {i : Nat}
    (hi : i < csOffset elf h ∨ csOffset elf h + PAGE ≤ i) :
    (layout elf h page)[i]? = (layout elf h page')[i]? := by
  have hfront := length_front hp
  obtain ⟨rest, hassoc⟩ : ∃ rest, ∀ page, layout elf h page = front elf h ++ (page ++ rest) :=
    ⟨newShstr elf h ++ List.replicate (padding elf h) 0 ++ oldEntries elf h ++ csEntry elf h,
      fun page => by simp [layout, assemble]⟩
  rw [hassoc, hassoc]
  obtain hi | hi := hi
  · rw [List.getElem?_append_left (by omega), List.getElem?_append_left (by omega)]
  · rw [List.getElem?_append_right (by omega), List.getElem?_append_right (by omega),
      List.getElem?_append_right (by omega), List.getElem?_append_right (by omega), hpage, hpage']

end Verify

/-! ## The signature -/

/-- The root that a file is signed with. -/
def signedRoot (elf : Bytes) (h : Header) : Bytes :=
  rootHash (injected elf h) (csOffset elf h) PAGE

/-- The section with a signature. -/
def signedPage (elf : Bytes) (h : Header) : Bytes :=
  patch (List.replicate PAGE 0) 0 (payload (injected elf h).length (signedRoot elf h))

/-- The signed file. -/
def signed (elf : Bytes) (h : Header) : Bytes := layout elf h (signedPage elf h)

section Signature
variable {elf : Bytes} {h : Header}

theorem length_signedRoot (elf : Bytes) (h : Header) : (signedRoot elf h).length = 32 := length_rootHash _ _ _

theorem length_signedPage : (signedPage elf h).length = PAGE := by
  refine length_patch _ _ (List.length_replicate ..) ?_
  rw [length_payload _ (length_signedRoot elf h)]
  decide

/-- The parts of the payload. -/
theorem window_payload (fileSize : Nat) {root : Bytes} (hroot : root.length = 32) :
    window (payload fileSize root) 0 4 = leBytes 4 Descriptor.ELF_SIGN_INFO_TYPE ∧
      window (payload fileSize root) 4 4 = leBytes 4 (Descriptor.SIZE + 32) ∧
      window (payload fileSize root) 8 256 = Descriptor.build 32 fileSize root ∧
      window (payload fileSize root) 264 32 =
        Sha256.hash (Descriptor.build 0 fileSize root) := by
  have hbuild := Descriptor.length_build 32 fileSize hroot
  simp only [Descriptor.SIZE] at hbuild
  have hwhole : ∀ {bs : Bytes} {len : Nat}, bs.length = len → window bs 0 len = bs := by
    rintro bs _ rfl
    exact window_zero_length bs
  simp only [payload]
  refine ⟨?_, ?_, ?_, ?_⟩
  · rw [List.append_assoc, List.append_assoc, window_append_left (by simp), hwhole (by simp)]
  · rw [List.append_assoc _ (Descriptor.build 32 fileSize root),
      window_middle (o := 0) (by simp) (by simp), hwhole (by simp)]
  · rw [window_middle (o := 0) (by simp) (by rw [hbuild]), hwhole hbuild]
  · have hpre : (leBytes 4 Descriptor.ELF_SIGN_INFO_TYPE ++ leBytes 4 (Descriptor.SIZE + 32) ++
        Descriptor.build 32 fileSize root).length = 264 := by simp [hbuild]
    rw [window_append_right (by rw [hpre]), hpre, Nat.sub_self, hwhole (Sha256.length_hash _)]

variable (hp : Parsed elf h)
include hp

/-- The payload, read back from the signed file. -/
theorem window_signed {o len : Nat} (ho : o + len ≤ 296) :
    window (signed elf h) (csOffset elf h + o) len =
      window (payload (injected elf h).length (signedRoot elf h)) o len := by
  have hlen := length_payload (injected elf h).length (length_signedRoot elf h)
  rw [signed, layout, window_page (by rw [length_front hp])
      (by rw [length_signedPage]; simp only [PAGE]; omega),
    signedPage, patch_zeros, window_append_left (by omega)]

/-- What stands in the section is the signature of the file. -/
theorem payload_verifies (hfits : InjectFits elf h) :
    PayloadVerifies (signed elf h) (csOffset elf h) := by
  have hroot := length_signedRoot elf h
  have hblank : (List.replicate PAGE (0 : UInt8)).length = PAGE := List.length_replicate ..
  have hlen : (signed elf h).length = (injected elf h).length :=
    (length_layout hp length_signedPage).trans (length_layout hp hblank).symm
  have htotal : (injected elf h).length < 256 ^ 8 := by
    have hlt := hfits.total_lt
    rw [injected, length_layout hp hblank]
    simp only [maxLen] at hlt
    omega
  obtain ⟨htype, hsize, hdesc, hsig⟩ := window_payload (injected elf h).length hroot
  obtain ⟨hfile, hhash⟩ := Descriptor.window_build 32 (injected elf h).length hroot
  have hsame : rootHash (signed elf h) (csOffset elf h) PAGE = signedRoot elf h :=
    rootHash_congr (csOffset_mod elf h) hlen fun i hi =>
      getElem?_layout hp length_signedPage hblank hi
  refine ⟨?_, ?_, ?_, ?_, ?_⟩
  · have hzero := window_signed hp (o := 0) (by decide : 0 + 4 ≤ 296)
    rw [Nat.add_zero] at hzero
    rw [leAt, hzero, htype, ofLe_leBytes_of_lt (by decide)]
  · rw [leAt, window_signed hp (by decide), hsize, ofLe_leBytes_of_lt (by decide)]
    rfl
  · rw [leAt, window_signed hp (by decide), hdesc, hfile, ofLe_leBytes_of_lt htotal, hlen]
  · rw [window_signed hp (by decide), hdesc, hhash, hsame]
  · rw [window_signed hp (by decide), hsig, window_signed hp (by decide), hdesc,
      Descriptor.patch_build 32 0 _ hroot]

end Signature

/-- What a signed file is. -/
theorem sign_ok {elf : Bytes} {force : Bool} {out : Bytes} (hlen : elf.length < maxLen)
    (hsign : sign elf force = .ok out) :
    ∃ buf h, prepare elf force = .ok buf ∧ buf.length < maxLen ∧ Parsed buf h ∧
      InjectFits buf h ∧ out = signed buf h := by
  rw [sign] at hsign
  split at hsign
  next => simp at hsign
  next =>
    obtain ⟨buf, hbuf, hsign⟩ := bind_eq_ok.1 hsign
    have hlen' := length_of_prepare hlen hbuf
    obtain ⟨r, hr, hwrite⟩ := bind_eq_ok.1 hsign
    obtain ⟨h, hp, -, hfits, rfl⟩ := injectCodesignSection_ok hlen' hr
    dsimp only at hwrite
    rw [write_payload hp _ (length_rootHash _ _ _)] at hwrite
    exact ⟨buf, h, hbuf, hlen', hp, hfits, (Outcome.ok.inj hwrite).symm⟩

/-- A signed file verifies just when the entry that was added is the first that the new
string table names `.codesign`. -/
theorem sign_verifies (elf : Bytes) (force : Bool) (out : Bytes) (hlen : elf.length < maxLen)
    (hsign : sign elf force = .ok out) :
    ∃ buf h, prepare elf force = .ok buf ∧ parseHeader buf = .ok h ∧
      (Verifies out (csOffset buf h) ↔ NamesFree buf h) := by
  obtain ⟨buf, h, hbuf, hlen', hp, hfits, hout⟩ := sign_ok hlen hsign
  rw [hout]
  refine ⟨buf, h, hbuf, (parseHeader_eq_ok hlen').2 hp, ?_⟩
  rw [Verifies, signed, findsCodesign_layout hp length_signedPage hfits]
  exact and_iff_left (payload_verifies hp hfits)

/-- A file without the section is signed when its sizes fit. -/
theorem sign_unsigned {elf : Bytes} {h : Header} (force : Bool) (hlen : elf.length < maxLen)
    (hp : Parsed elf h) (hstr : strtabOff elf h + strtabSize elf h ≤ elf.length)
    (hno : hasCodesignSection elf = .ok false) (hfits : InjectFits elf h) :
    sign elf force = .ok (signed elf h) := by
  have hprepare : prepare elf force = .ok elf := by
    rw [prepare, hno, ok_bind]
    rfl
  rw [sign, if_neg (by simp [hp.elf64]), hprepare, ok_bind,
    injectCodesignSection_eq hp hlen hstr hfits, ok_bind]
  exact write_payload hp _ (length_rootHash _ _ _)

/-- A file with a null section and a string table. -/
def tinyElf : Bytes := elfHeader 2 1 ++ sectionHeader 0 0 0 0 ++ sectionHeader 0 3 192 1 ++ [0]

theorem length_tinyElf : tinyElf.length = 193 := by
  simp [tinyElf, elfHeader, sectionHeader]

theorem tinyElf_lt : tinyElf.length < maxLen := by
  rw [length_tinyElf]
  decide

theorem parsed_tinyElf : Parsed tinyElf ⟨64, 2, 1⟩ :=
  ⟨by rw [isElf64, length_tinyElf]; decide, by decide, by decide, by decide,
    by decide, by decide, by decide, by rw [length_tinyElf]; decide⟩

theorem sign_tinyElf : sign tinyElf false = .ok (signed tinyElf ⟨64, 2, 1⟩) := by
  have hlen := tinyElf_lt
  have hstr : strtabOff tinyElf ⟨64, 2, 1⟩ + strtabSize tinyElf ⟨64, 2, 1⟩ ≤ tinyElf.length := by
    rw [length_tinyElf]
    decide
  exact sign_unsigned false hlen parsed_tinyElf hstr
    (hasCodesignSection_of_unnamed hlen parsed_tinyElf hstr (by decide))
    ⟨by decide, by decide, by decide⟩

theorem sign_verifies_tinyElf : ∃ buf h, prepare tinyElf false = .ok buf ∧
    parseHeader buf = .ok h ∧
    (Verifies (signed tinyElf ⟨64, 2, 1⟩) (csOffset buf h) ↔ NamesFree buf h) :=
  sign_verifies tinyElf false _ tinyElf_lt sign_tinyElf

/-- A file with a null section only, which is also what its header names as string table. -/
def unnamedElf : Bytes := elfHeader 1 0 ++ sectionHeader 0 0 0 0

/-- The null section's name is where the new string table begins, and is found first. -/
theorem sign_unverified : ¬ ∀ elf force out, elf.length < maxLen →
    sign elf force = .ok out → ∃ csOff, Verifies out csOff := by
  intro hverifies
  set_option maxRecDepth 1024 in
  have hlen : unnamedElf.length < maxLen := by decide
  have hp : Parsed unnamedElf ⟨64, 1, 0⟩ := (parseHeader_eq_ok hlen).1 (by decide)
  have hfits : InjectFits unnamedElf ⟨64, 1, 0⟩ := ⟨by decide, by decide, by decide⟩
  have hsign := sign_unsigned false hlen hp (by decide) (by decide) hfits
  obtain ⟨csOff, hfinds, -⟩ := hverifies unnamedElf false _ hlen hsign
  obtain ⟨-, i, hi, -, hsize⟩ := (findsCodesign_iff hp length_signedPage hfits).1 hfinds
  obtain ⟨-, hstrSize, hstrtab⟩ := strtab_layout hp length_signedPage hfits
  have hname : shName (layout unnamedElf ⟨64, 1, 0⟩ (signedPage unnamedElf ⟨64, 1, 0⟩))
      (newHeader unnamedElf ⟨64, 1, 0⟩) 0 = 0 :=
    (shName_layout hp length_signedPage (by decide)).trans (by decide)
  have htype : shType (layout unnamedElf ⟨64, 1, 0⟩ (signedPage unnamedElf ⟨64, 1, 0⟩))
      (newHeader unnamedElf ⟨64, 1, 0⟩) 0 = 0 :=
    (shField_layout hp length_signedPage (i := 0) (by decide) (by decide)
      (.inr (by decide))).trans (by decide)
  have hzero : i = 0 := by
    rw [sectionNamed, List.find?_range_eq_some] at hi
    by_contra hpos
    have hfirst := hi.2.2 0 (by omega)
    rw [hname, hstrtab] at hfirst
    exact absurd hfirst (by decide)
  subst hzero
  rw [fileSize, htype, if_neg (by decide)] at hsize
  have hten : (newShstr unnamedElf ⟨64, 1, 0⟩).length = PAGE := hstrSize.symm.trans hsize
  exact absurd hten (by decide)

end OhosBun.OhosSign
