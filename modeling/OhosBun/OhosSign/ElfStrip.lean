/-
# `OhosBun.OhosSign.ElfStrip` — taking the section out without a panic

`strip` rebuilds the file from the entries it keeps.  Three things can go wrong on the
way, and no others (`strip_ne_panic`): the section to remove is the first one and also the
string table's; an entry's name lies behind the removed name but not by its length; the
new file is longer than a vector can be.
-/
import OhosBun.OhosSign.ElfInject

namespace OhosBun.OhosSign

open OhosBun.Lib Outcome Merkle

/-! ## The new section-header table -/

/-- The entries before the section's, and those behind it. -/
def keptEntries (elf : Bytes) (h : Header) (csIdx : Nat) : Bytes :=
  window elf h.shoff (csIdx * 64) ++
    window elf (h.shoff + (csIdx + 1) * 64) ((h.shnum - 1 - csIdx) * 64)

section Entries
variable {elf : Bytes} {h : Header} (hp : Parsed elf h) (hlen : elf.length < maxLen)
include hp hlen

variable {csIdx i k : Nat}

theorem keepEntries_after (hi : csIdx < i) (hk : i + k = h.shnum) :
    keepEntries elf h.shoff csIdx i k = .ok (window elf (h.shoff + i * 64) (k * 64)) := by
  induction k generalizing i with
  | zero => simp [keepEntries, window]
  | succ k ih =>
    have hle := entry_le hp (i := i) (by omega)
    have hsplit : (k + 1) * 64 = 64 + k * 64 := by omega
    have hnext : h.shoff + (i + 1) * 64 = h.shoff + i * 64 + 64 := by omega
    rw [keepEntries, if_neg (by omega), entryAt_eq hp hlen (by omega), ok_bind,
      read_of_le hle, ok_bind, ih (by omega) (by omega), ok_bind, hsplit, window_add, hnext]

theorem keepEntries_from (hi : i ≤ csIdx) (hcs : csIdx < h.shnum) (hk : i + k = h.shnum) :
    keepEntries elf h.shoff csIdx i k =
      .ok (window elf (h.shoff + i * 64) ((csIdx - i) * 64) ++
        window elf (h.shoff + (csIdx + 1) * 64) ((h.shnum - 1 - csIdx) * 64)) := by
  induction k generalizing i with
  | zero => omega
  | succ k ih =>
    rw [keepEntries]
    by_cases hics : i = csIdx
    · subst hics
      have hk' : h.shnum - 1 - i = k := by omega
      rw [if_pos rfl, keepEntries_after hp hlen (by omega) (by omega), hk']
      simp [window]
    · have hle := entry_le hp (i := i) (by omega)
      have hsplit : (csIdx - i) * 64 = 64 + (csIdx - (i + 1)) * 64 := by omega
      have hnext : h.shoff + (i + 1) * 64 = h.shoff + i * 64 + 64 := by omega
      rw [if_neg hics, entryAt_eq hp hlen (by omega), ok_bind, read_of_le hle, ok_bind,
        ih (by omega) (by omega), ok_bind, hsplit, window_add, hnext, List.append_assoc]

theorem keepEntries_eq (hcs : csIdx < h.shnum) :
    keepEntries elf h.shoff csIdx 0 h.shnum = .ok (keptEntries elf h csIdx) := by
  rw [keepEntries_from hp hlen (Nat.zero_le csIdx) hcs (Nat.zero_add _), keptEntries]
  simp

omit hlen in
theorem length_keptEntries (hcs : csIdx < h.shnum) :
    (keptEntries elf h csIdx).length = (h.shnum - 1) * 64 := by
  have htable := hp.table
  rw [keptEntries, List.length_append, length_window (by omega), length_window (by omega)]
  omega

/-- The entry that comes to stand at an index. -/
def keptIndex (csIdx j : Nat) : Nat := if j < csIdx then j else j + 1

omit hlen in
theorem leAt_keptEntries {j : Nat} (hcs : csIdx < h.shnum) (hj : j < h.shnum - 1) :
    leAt (keptEntries elf h csIdx) (j * 64) 4 = shName elf h (keptIndex csIdx j) := by
  have htable := hp.table
  have hbefore : (window elf h.shoff (csIdx * 64)).length = csIdx * 64 :=
    length_window (by omega)
  rw [leAt, keptEntries, shName, leAt, keptIndex]
  split
  next hlt => rw [window_append_left (by omega), window_window (by omega)]
  next hge =>
    rw [window_append_right (by omega), hbefore, window_window (by omega)]
    congr 2
    omega

end Entries

/-! ## Shifting the names -/

section Shift
variable (shtOff csNameOff : Nat)

theorem length_of_shiftNames {i k : Nat} {buf buf' : Bytes}
    (h : shiftNames shtOff csNameOff i k buf = .ok buf') : buf'.length = buf.length := by
  induction k generalizing i buf with
  | zero =>
    obtain rfl := Outcome.ok.inj h
    rfl
  | succ k ih =>
    simp only [shiftNames, bind_eq_ok] at h
    obtain ⟨e, -, noff, -, h⟩ := h
    split at h
    · obtain ⟨newNoff, -, buf₁, hwrite, h⟩ := bind_eq_ok.1 h |>.imp fun _ => And.imp_right bind_eq_ok.1
      obtain ⟨hle, rfl⟩ := write_eq_ok.1 hwrite
      rw [ih h, length_patch _ _ rfl hle]
    · exact ih h

/-- Shifting panics just when a name behind the removed one is not behind its end. -/
theorem shiftNames_ne_panic {i k : Nat} {buf : Bytes} (hbuf : shtOff + (i + k) * 64 ≤ buf.length)
    (hlen : buf.length < maxLen) :
    shiftNames shtOff csNameOff i k buf ≠ .panic ↔
      ∀ j, i ≤ j → j < i + k → csNameOff < leAt buf (shtOff + j * 64) 4 →
        CODESIGN_NAME.length ≤ leAt buf (shtOff + j * 64) 4 := by
  induction k generalizing i buf with
  | zero =>
    rw [shiftNames]
    exact iff_of_true (by simp) fun j hj hj' => by omega
  | succ k ih =>
    have hlen' := hlen
    simp only [maxLen] at hlen'
    have hentry : entryAt shtOff i = .ok (shtOff + i * 64) := by
      rw [entryAt, mul64_of_lt (by omega), ok_bind, add64_of_lt (by omega)]
    rw [shiftNames, hentry, ok_bind, readLe_of_le (by omega), ok_bind]
    -- the other entries, before and after this one's name is written
    have hsplit : ∀ p : Nat → Prop, (∀ j, i ≤ j → j < i + (k + 1) → p j) ↔
        p i ∧ ∀ j, i + 1 ≤ j → j < i + 1 + k → p j := fun p =>
      ⟨fun h => ⟨h i (by omega) (by omega), fun j hj hj' => h j (by omega) (by omega)⟩,
        fun h j hj hj' => (Nat.eq_or_lt_of_le hj).elim (fun heq => heq ▸ h.1)
          fun hlt => h.2 j hlt (by omega)⟩
    rw [hsplit]
    split
    next hlt =>
      by_cases hle : CODESIGN_NAME.length ≤ leAt buf (shtOff + i * 64) 4
      · have hnew : shtOff + i * 64 + (leBytes 4 (leAt buf (shtOff + i * 64) 4 -
            CODESIGN_NAME.length)).length ≤ buf.length := by
          rw [leBytes_length]
          omega
        have hsame : ∀ j, i + 1 ≤ j → leAt (patch buf (shtOff + i * 64) (leBytes 4
            (leAt buf (shtOff + i * 64) 4 - CODESIGN_NAME.length))) (shtOff + j * 64) 4 =
            leAt buf (shtOff + j * 64) 4 := fun j hj => by
          rw [leAt, window_patch_of_disjoint hnew (by rw [leBytes_length]; omega), leAt]
        have hpatch := length_patch _ _ rfl hnew
        rw [sub_of_le hle, ok_bind, write_of_le hnew, ok_bind, ih (by omega) (by omega)]
        constructor
        · exact fun h => ⟨fun _ => hle, fun j hj hj' => by
            have hj₁ := h j hj hj'
            rwa [hsame j hj] at hj₁⟩
        · exact fun h j hj hj' => by
            rw [hsame j hj]
            exact h.2 j hj hj'
      · rw [sub, if_neg hle, panic_bind]
        exact iff_of_false (fun h => h rfl) fun h => hle (h.1 hlt)
    next hge =>
      rw [ih (by omega) hlen]
      exact ⟨fun h => ⟨fun hlt => absurd hlt hge, h⟩, fun h => h.2⟩

end Shift

/-! ## The file without the section -/

section Strip
variable (elf : Bytes) (h : Header) (csIdx : Nat)

/-- Where the file is cut off. -/
def cutOff : Nat := min (shOffset elf h csIdx) elf.length

/-- The string table without the section's name. -/
def strippedShstr : Bytes := drainName (strtab elf h) (shName elf h csIdx)

def strippedShtOff : Nat := roundUp (cutOff elf h csIdx + (strippedShstr elf h csIdx).length) 8

/-- What taking the section with an entry out needs. -/
structure StripFits : Prop where
  /-- The string table has an entry that is left. -/
  index : csIdx ≠ 0 ∨ h.shstrndx ≠ 0
  /-- A name behind the removed one is behind its length. -/
  names : ∀ i < h.shnum, i ≠ csIdx → shName elf h csIdx < shName elf h i →
    CODESIGN_NAME.length ≤ shName elf h i
  total_lt : strippedShtOff elf h csIdx + (h.shnum - 1) * 64 < maxLen

variable {elf h csIdx} (hp : Parsed elf h) (hlen : elf.length < maxLen) (hcs : csIdx < h.shnum)
include hp hlen hcs

omit hlen hp in
/-- The names that are shifted are those of the entries that are kept. -/
theorem names_kept_iff : (∀ j, 0 ≤ j → j < 0 + (h.shnum - 1) →
      shName elf h csIdx < shName elf h (keptIndex csIdx j) →
      CODESIGN_NAME.length ≤ shName elf h (keptIndex csIdx j)) ↔
    ∀ i < h.shnum, i ≠ csIdx → shName elf h csIdx < shName elf h i →
      CODESIGN_NAME.length ≤ shName elf h i := by
  constructor
  · intro hj i hi hics
    have hindex : keptIndex csIdx (if i < csIdx then i else i - 1) = i := by
      unfold keptIndex
      by_cases hlt : i < csIdx
      · simp only [if_pos hlt]
      · rw [if_neg hlt, if_neg (by omega)]
        omega
    have hname := hj (if i < csIdx then i else i - 1) (Nat.zero_le _) (by split <;> omega)
    rwa [hindex] at hname
  · intro hi j _ hj
    refine hi _ ?_ ?_
    · unfold keptIndex
      split <;> omega
    · unfold keptIndex
      split <;> omega

omit hlen in
theorem shiftedIndex_eq (hindex : csIdx ≠ 0 ∨ h.shstrndx ≠ 0) :
    ∃ m, shiftedIndex h.shstrndx csIdx = .ok m ∧ m < h.shnum - 1 := by
  have hndx := hp.shstrndx_lt
  unfold shiftedIndex
  split
  next hlt => exact ⟨_, rfl, by omega⟩
  next hge => exact ⟨_, sub_of_le (by omega), by omega⟩

omit hlen in
/-- The file before the names are shifted: the cut file and its string table, and the entries. -/
theorem rebuildStripped_bind
    (htotal : strippedShtOff elf h csIdx + (h.shnum - 1) * 64 < maxLen) :
    ∃ pre, pre.length = strippedShtOff elf h csIdx ∧
      rebuildStripped elf h csIdx (shName elf h csIdx) (shOffset elf h csIdx) (h.shnum - 1)
        (strippedShstr elf h csIdx) (keptEntries elf h csIdx) = (do
      let newShstrndx ← shiftedIndex h.shstrndx csIdx
      let shstrE ← entryAt (strippedShtOff elf h csIdx) newShstrndx
      let buf ← writeField (pre ++ keptEntries elf h csIdx) shstrE 24 (leBytes 8 (cutOff elf h csIdx))
      let buf ← writeField buf shstrE 32 (leBytes 8 (strippedShstr elf h csIdx).length)
      let buf ← shiftNames (strippedShtOff elf h csIdx) (shName elf h csIdx) 0 (h.shnum - 1) buf
      let buf ← write buf E_SHOFF (leBytes 8 (strippedShtOff elf h csIdx))
      let buf ← write buf E_SHNUM (leBytes 2 (h.shnum - 1))
      if csIdx < h.shstrndx then write buf E_SHSTRNDX (leBytes 2 (h.shstrndx - 1))
      else .ok buf) := by
  have hhead : (elf.take (cutOff elf h csIdx) ++ strippedShstr elf h csIdx).length =
      cutOff elf h csIdx + (strippedShstr elf h csIdx).length := by
    rw [List.length_append, List.length_take, cutOff]
    omega
  have hle := le_roundUp (cutOff elf h csIdx + (strippedShstr elf h csIdx).length) (a := 8)
    (by decide)
  have hpre : (elf.take (cutOff elf h csIdx) ++ strippedShstr elf h csIdx ++
      List.replicate (strippedShtOff elf h csIdx - (cutOff elf h csIdx +
        (strippedShstr elf h csIdx).length)) 0).length = strippedShtOff elf h csIdx := by
    rw [List.length_append, hhead, List.length_replicate]
    simp only [strippedShtOff] at *
    omega
  have hkept := length_keptEntries hp hcs
  have hround : strippedShtOff elf h csIdx =
      roundUp (cutOff elf h csIdx + (strippedShstr elf h csIdx).length) 8 := rfl
  refine ⟨_, hpre, ?_⟩
  simp only [maxLen] at htotal
  rw [rebuildStripped]
  change (alloc (elf.take (cutOff elf h csIdx) ++ _) >>= _) = _
  rw [alloc_of_lt (by rw [hhead, maxLen]; omega), ok_bind, hhead,
    (alignUp_eq_ok (by decide)).2 ⟨by omega, rfl⟩, ok_bind, ← hround,
    alloc_of_lt (by rw [List.length_append, hpre, hkept, maxLen]; exact htotal), ok_bind]
  rfl

omit hlen in
theorem rebuildStripped_ne_panic :
    rebuildStripped elf h csIdx (shName elf h csIdx) (shOffset elf h csIdx) (h.shnum - 1)
      (strippedShstr elf h csIdx) (keptEntries elf h csIdx) ≠ .panic ↔ StripFits elf h csIdx := by
  have hkept := length_keptEntries hp hcs
  have hndx := hp.shstrndx_lt
  by_cases htotal : strippedShtOff elf h csIdx + (h.shnum - 1) * 64 < maxLen
  swap
  · refine iff_of_false (fun hne => ?_) fun hfits => htotal hfits.total_lt
    have hhead : (elf.take (cutOff elf h csIdx) ++ strippedShstr elf h csIdx).length =
        cutOff elf h csIdx + (strippedShstr elf h csIdx).length := by
      rw [List.length_append, List.length_take, cutOff]
      omega
    have hle := le_roundUp (cutOff elf h csIdx + (strippedShstr elf h csIdx).length) (a := 8)
      (by decide)
    rw [rebuildStripped] at hne
    change (alloc (elf.take (cutOff elf h csIdx) ++ _) >>= _) ≠ _ at hne
    rw [bind_ne_panic, alloc_ne_panic] at hne
    obtain ⟨halloc, hne⟩ := hne
    have hne := hne _ (alloc_of_lt halloc)
    rw [hhead] at halloc hne
    rw [bind_ne_panic, alignUp_ne_panic (by decide)] at hne
    obtain ⟨hb, hne⟩ := hne
    have hne := hne _ ((alignUp_eq_ok (by decide)).2 ⟨hb, rfl⟩)
    rw [bind_ne_panic, alloc_ne_panic, List.length_append, List.length_append, hhead,
      List.length_replicate, hkept] at hne
    refine htotal ?_
    simp only [strippedShtOff]
    omega
  obtain ⟨pre, hpre, hbind⟩ := rebuildStripped_bind hp hcs htotal
  rw [hbind]
  by_cases hindex : csIdx ≠ 0 ∨ h.shstrndx ≠ 0
  swap
  · refine iff_of_false (fun hne => ?_) fun hfits => hindex hfits.index
    rw [not_or, not_not, not_not] at hindex
    rw [shiftedIndex, hindex.1, hindex.2, if_neg (by decide)] at hne
    exact hne rfl
  obtain ⟨m, hm, hmlt⟩ := shiftedIndex_eq hp hcs hindex
  have htotal' := htotal
  simp only [maxLen] at htotal'
  have hlen₀ : (pre ++ keptEntries elf h csIdx).length =
      strippedShtOff elf h csIdx + (h.shnum - 1) * 64 := by
    rw [List.length_append, hpre, hkept]
  have hentry : entryAt (strippedShtOff elf h csIdx) m =
      .ok (strippedShtOff elf h csIdx + m * 64) := by
    rw [entryAt, mul64_of_lt (by omega), ok_bind, add64_of_lt (by omega)]
  have hroom : ∀ off, off + 8 ≤ 64 → strippedShtOff elf h csIdx + m * 64 + off + 8 ≤
      strippedShtOff elf h csIdx + (h.shnum - 1) * 64 := fun off hoff => by omega
  have hlen₁ := length_patch (strippedShtOff elf h csIdx + m * 64 + 24)
    (leBytes 8 (cutOff elf h csIdx)) hlen₀
    (by rw [leBytes_length]; exact hroom 24 (by decide))
  have hlen₂ := length_patch (strippedShtOff elf h csIdx + m * 64 + 32)
    (leBytes 8 (strippedShstr elf h csIdx).length) hlen₁
    (by rw [leBytes_length]; exact hroom 32 (by decide))
  -- the place of the string table is written behind the names
  have hname : ∀ j < h.shnum - 1, leAt (patch (patch (pre ++ keptEntries elf h csIdx)
      (strippedShtOff elf h csIdx + m * 64 + 24) (leBytes 8 (cutOff elf h csIdx)))
      (strippedShtOff elf h csIdx + m * 64 + 32)
      (leBytes 8 (strippedShstr elf h csIdx).length)) (strippedShtOff elf h csIdx + j * 64) 4 =
      shName elf h (keptIndex csIdx j) := fun j hj => by
    rw [leAt, window_patch_of_disjoint (by rw [hlen₁, leBytes_length]; exact hroom 32 (by decide))
        (by rw [leBytes_length]; omega),
      window_patch_of_disjoint (by rw [hlen₀, leBytes_length]; exact hroom 24 (by decide))
        (by rw [leBytes_length]; omega),
      window_append_right (by omega), hpre, Nat.add_sub_cancel_left, ← leAt_keptEntries hp hcs hj,
      leAt]
  have hshift := shiftNames_ne_panic (strippedShtOff elf h csIdx) (shName elf h csIdx)
    (i := 0) (k := h.shnum - 1) (by rw [hlen₂, Nat.zero_add]) (by rw [hlen₂]; exact htotal)
  rw [hm, ok_bind, hentry, ok_bind,
    writeField_of (by omega) (write_of_le (by rw [hlen₀, leBytes_length]; exact hroom 24 (by decide))),
    ok_bind,
    writeField_of (by omega) (write_of_le (by rw [hlen₁, leBytes_length]; exact hroom 32 (by decide))),
    ok_bind, bind_ne_panic, hshift]
  have hrest : ∀ buf, shiftNames (strippedShtOff elf h csIdx) (shName elf h csIdx) 0 (h.shnum - 1)
      (patch (patch (pre ++ keptEntries elf h csIdx)
        (strippedShtOff elf h csIdx + m * 64 + 24) (leBytes 8 (cutOff elf h csIdx)))
        (strippedShtOff elf h csIdx + m * 64 + 32)
        (leBytes 8 (strippedShstr elf h csIdx).length)) = .ok buf →
      (do
        let buf ← write buf E_SHOFF (leBytes 8 (strippedShtOff elf h csIdx))
        let buf ← write buf E_SHNUM (leBytes 2 (h.shnum - 1))
        if csIdx < h.shstrndx then write buf E_SHSTRNDX (leBytes 2 (h.shstrndx - 1))
        else .ok buf : Res Bytes) ≠ .panic := fun buf hbuf => by
    have hlen₃ := (length_of_shiftNames _ _ hbuf).trans hlen₂
    have h64 : 64 ≤ strippedShtOff elf h csIdx + (h.shnum - 1) * 64 := by omega
    have hlen₄ := length_patch E_SHOFF (leBytes 8 (strippedShtOff elf h csIdx)) hlen₃
      (by rw [leBytes_length, E_SHOFF]; omega)
    have hlen₅ := length_patch E_SHNUM (leBytes 2 (h.shnum - 1)) hlen₄
      (by rw [leBytes_length, E_SHNUM]; omega)
    rw [write_of_le (by rw [hlen₃, leBytes_length, E_SHOFF]; omega), ok_bind,
      write_of_le (by rw [hlen₄, leBytes_length, E_SHNUM]; omega), ok_bind]
    split
    · rw [write_of_le (by rw [hlen₅, leBytes_length, E_SHSTRNDX]; omega)]
      simp
    · simp
  constructor
  · rintro ⟨hnames, -⟩
    refine ⟨hindex, (names_kept_iff hcs).1 fun j hj hj' => ?_, htotal⟩
    rw [← hname j (by omega)]
    exact hnames j hj hj'
  · intro hfits
    refine ⟨fun j hj hj' => ?_, hrest⟩
    rw [hname j (by omega)]
    exact (names_kept_iff hcs).2 hfits.names j hj hj'

omit hp hlen hcs in
theorem length_of_rebuildStripped {csNameOff csSecOff newShnum : Nat} {newShstr newSht buf : Bytes}
    (hbuf : rebuildStripped elf h csIdx csNameOff csSecOff newShnum newShstr newSht = .ok buf) :
    buf.length < maxLen := by
  simp only [rebuildStripped, bind_eq_ok] at hbuf
  obtain ⟨_, -, _, -, buf₁, halloc, _, -, _, -, buf₂, h₂, buf₃, h₃, buf₄, h₄, buf₅, h₅, buf₆, h₆,
    hlast⟩ := hbuf
  have h₇ : buf.length = buf₆.length := by
    split at hlast
    · exact length_of_write hlast
    · exact congrArg List.length (Outcome.ok.inj hlast).symm
  rw [h₇, length_of_write h₆, length_of_write h₅, length_of_shiftNames _ _ h₄,
    length_of_writeField h₃, length_of_writeField h₂]
  exact length_of_alloc halloc

end Strip

end OhosBun.OhosSign
