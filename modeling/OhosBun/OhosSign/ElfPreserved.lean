/-
# `OhosBun.OhosSign.ElfPreserved` — what signing leaves of the program

The signer keeps the file up to the section's offset, but for the two fields of the header
that it updates (`getElem?_signed`), and writes the section, the string table and the
entries from there on (`appended`).  The offset is computed from the section-header table
alone: bytes of the input past it, which no section covers, are written over
(`sign_preserves`).
-/
import OhosBun.OhosSign.ElfSigned

namespace OhosBun.OhosSign

open OhosBun.Lib Outcome Merkle

/-- Every byte of the input is in the output, but for `e_shoff` and `e_shnum`. -/
def Preserved (elf out : Bytes) : Prop :=
  ∀ i < elf.length, (i < E_SHOFF ∨ E_SHOFF + 8 ≤ i) → (i < E_SHNUM ∨ E_SHNUM + 2 ≤ i) →
    out[i]? = elf[i]?

/-- What the signer writes from the section's offset on. -/
def appended (elf : Bytes) (h : Header) : Bytes :=
  signedPage elf h ++ newShstr elf h ++ List.replicate (padding elf h) 0 ++ oldEntries elf h ++
    csEntry elf h

section Preserve
variable {elf : Bytes} {h : Header}

theorem signed_eq (elf : Bytes) (h : Header) : signed elf h = front elf h ++ appended elf h := by
  simp only [signed, layout, assemble, appended, List.append_assoc]

/-- The byte at the section's offset is the first of the payload. -/
theorem getElem?_appended_zero (elf : Bytes) (h : Header) : (appended elf h)[0]? = some 1 := by
  have hpayload : (payload (injected elf h).length (signedRoot elf h))[0]? = some 1 := by
    simp only [payload, List.append_assoc]
    rfl
  have hpos : 0 < (signedPage elf h).length := by
    rw [length_signedPage]
    decide
  obtain ⟨hlt, -⟩ := List.getElem?_eq_some_iff.1 hpayload
  simp only [appended, List.append_assoc]
  rw [List.getElem?_append_left hpos, signedPage, patch_zeros, List.getElem?_append_left hlt,
    hpayload]

variable (hp : Parsed elf h)
include hp

/-- Up to the section's offset the file is as it was, but for two fields of its header. -/
theorem getElem?_signed {i : Nat} (hi : i < csOffset elf h) (hilt : i < elf.length)
    (hshoff : i < E_SHOFF ∨ E_SHOFF + 8 ≤ i) (hshnum : i < E_SHNUM ∨ E_SHNUM + 2 ≤ i) :
    (signed elf h)[i]? = elf[i]? := by
  have hcs := page_le_csOffset hp
  have horiginal := length_original elf h
  simp only [PAGE] at hcs
  have hshoffIn : E_SHOFF + (leBytes 8 (newShtOff elf h)).length ≤ csOffset elf h := by
    simp only [leBytes_length, E_SHOFF]
    omega
  have hshnumIn : E_SHNUM + (leBytes 2 (h.shnum + 1)).length ≤ csOffset elf h := by
    simp only [leBytes_length, E_SHNUM]
    omega
  rw [signed_eq, List.getElem?_append_left (by rw [length_front hp]; exact hi), front,
    getElem?_patch (by rwa [length_patch _ _ horiginal hshoffIn]),
    if_neg (by rw [leBytes_length]; omega), getElem?_patch (by rwa [horiginal]),
    if_neg (by rw [leBytes_length]; omega), original,
    List.getElem?_append_left (by rw [List.length_take]; omega),
    List.getElem?_take_of_lt hi]

/-- What follows the section's offset is kept just when it is what is written there. -/
theorem preserved_iff : Preserved elf (signed elf h) ↔
    elf.drop (csOffset elf h) <+: appended elf h := by
  have hcs := page_le_csOffset hp
  simp only [PAGE] at hcs
  have hpast (j : Nat) : (signed elf h)[csOffset elf h + j]? = (appended elf h)[j]? := by
    rw [signed_eq, List.getElem?_append_right (by rw [length_front hp]; omega), length_front hp,
      Nat.add_sub_cancel_left]
  rw [List.prefix_iff_getElem?]
  constructor
  · intro hkept j hj
    rw [List.length_drop] at hj
    have hbyte := hkept (csOffset elf h + j) (by omega) (by simp only [E_SHOFF]; omega)
      (by simp only [E_SHNUM]; omega)
    rw [hpast] at hbyte
    rw [hbyte, List.getElem_drop, List.getElem?_eq_getElem]
  · intro hoverlay i hi hshoff hshnum
    by_cases hlt : i < csOffset elf h
    · exact getElem?_signed hp hlt hi hshoff hshnum
    · obtain ⟨j, rfl⟩ := Nat.exists_eq_add_of_le (Nat.le_of_not_lt hlt)
      have hbyte := hoverlay j (by rw [List.length_drop]; omega)
      rw [hpast, hbyte, List.getElem_drop, List.getElem?_eq_getElem]

end Preserve

/-- Without `force` it is the input that is signed. -/
theorem prepare_false {elf buf : Bytes} (hbuf : prepare elf false = .ok buf) : buf = elf := by
  obtain ⟨has, -, hbuf⟩ := bind_eq_ok.1 hbuf
  cases has with
  | false => exact (Outcome.ok.inj hbuf).symm
  | true => simp at hbuf

/-- The same file with one more byte, a page from its start. -/
def overlaidElf : Bytes := tinyElf ++ List.replicate (PAGE - tinyElf.length) 0 ++ [0xff]

/-- The file is signed, and its last byte is where the section begins. -/
theorem sign_overlaidElf : overlaidElf.length < maxLen ∧ Parsed overlaidElf ⟨64, 2, 1⟩ ∧
    sign overlaidElf false = .ok (signed overlaidElf ⟨64, 2, 1⟩) ∧
    overlaidElf.drop (csOffset overlaidElf ⟨64, 2, 1⟩) = [0xff] := by
  have hlength : overlaidElf.length = PAGE + 1 := by
    rw [overlaidElf, List.length_append, List.length_append, List.length_replicate, length_tinyElf]
    decide
  have hlen : overlaidElf.length < maxLen := by
    rw [hlength]
    decide
  have hp : Parsed overlaidElf ⟨64, 2, 1⟩ := by
    refine ⟨?_, by decide, by decide, by decide, by decide,
      by decide, by decide, ?_⟩
    · rw [isElf64, hlength]
      decide
    · rw [hlength]
      decide
  have hstr : strtabOff overlaidElf ⟨64, 2, 1⟩ + strtabSize overlaidElf ⟨64, 2, 1⟩ ≤
      overlaidElf.length := by
    rw [hlength]
    decide
  exact ⟨hlen, hp, sign_unsigned false hlen hp hstr
    (hasCodesignSection_of_unnamed hlen hp hstr (by decide))
    ⟨by decide, by decide, by decide⟩, by decide +kernel⟩

end OhosBun.OhosSign
