/-
# `OhosBun.OhosSign.ElfTotal` — when the signer panics

A file whose header is accepted may still name a string table whose end overflows, or
sections that do, or a name that cannot be shifted.  `signer_ne_panic` says for each of
the three entry points exactly which files they do not panic on.
-/
import OhosBun.OhosSign.ElfStrip

namespace OhosBun.OhosSign

open OhosBun.Lib Outcome Merkle

/-- The end of the string table does not overflow. -/
def StrtabFits (elf : Bytes) : Prop :=
  ∀ h, Parsed elf h → strtabOff elf h + strtabSize elf h < 2 ^ 64

/-- The string table is inside the file and the entry is the first that it names
`.codesign`. -/
def Found (elf : Bytes) (h : Header) (csIdx : Nat) : Prop :=
  strtabOff elf h + strtabSize elf h ≤ elf.length ∧
    sectionNamed elf h CODESIGN_NAME = some csIdx

/-- The file has a `.codesign` section. -/
def Signed (elf : Bytes) : Prop := ∃ h csIdx, Parsed elf h ∧ Found elf h csIdx

/-- A `.codesign` section can be taken out. -/
def StripsFit (elf : Bytes) : Prop :=
  ∀ h csIdx, Parsed elf h → Found elf h csIdx → StripFits elf h csIdx

/-- A section can be put in. -/
def InjectsFit (elf : Bytes) : Prop :=
  ∀ h, Parsed elf h → strtabOff elf h + strtabSize elf h ≤ elf.length → InjectFits elf h

/-- The file can be signed: the section that is there can be taken out, if that is asked
for, and a section can be put in. -/
structure SignFits (elf : Bytes) (force : Bool) : Prop where
  strtab : StrtabFits elf
  unsigned : ¬ Signed elf → InjectsFit elf
  signed : Signed elf → force = true → StripsFit elf ∧
    ∀ buf, strip elf = .ok (true, buf) → StrtabFits buf ∧ InjectsFit buf

section Total
variable {elf : Bytes} (hlen : elf.length < maxLen)
include hlen

variable {h : Header} {csIdx : Nat} {buf root : Bytes} {force : Bool}

theorem parsed_unique {h' : Header} (hp : Parsed elf h) (hp' : Parsed elf h') : h' = h :=
  Outcome.ok.inj (((parseHeader_eq_ok hlen).2 hp').symm.trans ((parseHeader_eq_ok hlen).2 hp))

theorem parseHeader_err (hno : ∀ h, ¬ Parsed elf h) : ∃ e, parseHeader elf = .err e := by
  cases hparse : parseHeader elf with
  | panic => exact absurd hparse (parseHeader_ne_panic elf)
  | err e => exact ⟨e, rfl⟩
  | ok h => exact absurd ((parseHeader_eq_ok hlen).1 hparse) (hno h)

omit hlen in
theorem sectionNamed_lt {name : Bytes} {i : Nat} (hfound : sectionNamed elf h name = some i) :
    i < h.shnum :=
  List.mem_range.1 (List.mem_of_find?_eq_some hfound)

/-- What the search for `.codesign` finds. -/
theorem find_codesign (hp : Parsed elf h) (hstr : strtabOff elf h + strtabSize elf h < 2 ^ 64) :
    findSectionByName elf h CODESIGN_NAME =
      .ok (if elf.length < strtabOff elf h + strtabSize elf h then none
        else (sectionNamed elf h CODESIGN_NAME).map (h.shoff + · * 64)) := by
  have hno : ¬ 2 ^ 64 ≤ strtabOff elf h + strtabSize elf h := by omega
  rw [findSectionByName_eq hp hlen (by decide) (by decide), if_neg hno]
  split <;> rfl

theorem find_codesign_ne_panic (hp : Parsed elf h) :
    findSectionByName elf h CODESIGN_NAME ≠ .panic ↔
      strtabOff elf h + strtabSize elf h < 2 ^ 64 := by
  constructor
  · intro hne
    by_contra hge
    exact hne (by rw [findSectionByName_eq hp hlen (by decide) (by decide), if_pos (by omega)])
  · intro hstr
    rw [find_codesign hlen hp hstr]
    simp

theorem hasCodesignSection_ne_panic : hasCodesignSection elf ≠ .panic ↔ StrtabFits elf := by
  by_cases hparse : ∃ h, Parsed elf h
  · obtain ⟨h, hp⟩ := hparse
    have hfits : StrtabFits elf ↔ strtabOff elf h + strtabSize elf h < 2 ^ 64 :=
      ⟨fun hf => hf h hp, fun hf h' hp' => parsed_unique hlen hp hp' ▸ hf⟩
    rw [hasCodesignSection, (parseHeader_eq_ok hlen).2 hp, hfits, ← find_codesign_ne_panic hlen hp]
    dsimp only
    rw [bind_ne_panic]
    exact and_iff_left fun a _ => by simp
  · rw [not_exists] at hparse
    obtain ⟨e, he⟩ := parseHeader_err hlen hparse
    rw [hasCodesignSection, he]
    exact iff_of_true (by simp) fun h hp => absurd hp (hparse h)

theorem hasCodesignSection_eq (hstr : StrtabFits elf) :
    ∃ signed, hasCodesignSection elf = .ok signed ∧ (signed = true ↔ Signed elf) := by
  by_cases hparse : ∃ h, Parsed elf h
  · obtain ⟨h, hp⟩ := hparse
    rw [hasCodesignSection, (parseHeader_eq_ok hlen).2 hp]
    dsimp only
    rw [find_codesign hlen hp (hstr h hp), ok_bind]
    refine ⟨_, rfl, ?_⟩
    constructor
    · intro hsome
      split at hsome
      next => simp at hsome
      next hin =>
        obtain ⟨i, hi⟩ := Option.isSome_iff_exists.1 (by simpa using hsome)
        exact ⟨h, i, hp, by omega, hi⟩
    · rintro ⟨h', i, hp', hin, hi⟩
      obtain rfl := parsed_unique hlen hp hp'
      rw [if_neg (by omega), hi]
      rfl
  · rw [not_exists] at hparse
    obtain ⟨e, he⟩ := parseHeader_err hlen hparse
    rw [hasCodesignSection, he]
    refine ⟨false, rfl, iff_of_false (by simp) ?_⟩
    rintro ⟨h, _, hp, -⟩
    exact hparse h hp

theorem hasCodesignSection_of_unnamed (hp : Parsed elf h)
    (hstr : strtabOff elf h + strtabSize elf h ≤ elf.length)
    (hnone : sectionNamed elf h CODESIGN_NAME = none) : hasCodesignSection elf = .ok false := by
  have hlt : strtabOff elf h + strtabSize elf h < 2 ^ 64 := by
    rw [maxLen] at hlen
    omega
  rw [hasCodesignSection, (parseHeader_eq_ok hlen).2 hp]
  dsimp only
  rw [find_codesign hlen hp hlt, if_neg (Nat.not_lt.mpr hstr), hnone]
  rfl

theorem find_unsigned (hp : Parsed elf h) (hstr : strtabOff elf h + strtabSize elf h < 2 ^ 64)
    (hno : ¬ Signed elf) :
    findSectionByName elf h CODESIGN_NAME = .ok none := by
  rw [find_codesign hlen hp hstr]
  split
  next => rfl
  next hin =>
    cases hnamed : sectionNamed elf h CODESIGN_NAME with
    | none => rfl
    | some i => exact absurd ⟨h, i, hp, by omega, hnamed⟩ hno

/-- What taking the section out comes to once it is found. -/
theorem strip_eq (hp : Parsed elf h) (hfound : Found elf h csIdx) :
    strip elf = (do
      let buf ← rebuildStripped elf h csIdx (shName elf h csIdx) (shOffset elf h csIdx)
        (h.shnum - 1) (strippedShstr elf h csIdx) (keptEntries elf h csIdx)
      .ok (true, buf)) := by
  obtain ⟨hin, hnamed⟩ := hfound
  have hcs := sectionNamed_lt hnamed
  have hndx := hp.shstrndx_lt
  have hlen' := hlen
  simp only [maxLen] at hlen'
  have hidx : (h.shoff + csIdx * 64 - h.shoff) / 64 = csIdx := by omega
  have hread : ∀ off, off + 8 ≤ 64 → readField elf (h.shoff + h.shstrndx * 64) off 8 =
      .ok (leAt elf (h.shoff + h.shstrndx * 64 + off) 8) :=
    fun off hoff => readField_entry hp hlen hndx hoff
  rw [strip, (parseHeader_eq_ok hlen).2 hp, ok_bind, find_codesign hlen hp (by omega), ok_bind,
    if_neg (by omega), hnamed]
  dsimp only [Option.map_some]
  rw [sub_of_le (Nat.le_add_right _ _), ok_bind, hidx, entryAt_eq hp hlen hndx.le, ok_bind, hread 24 (by decide), ok_bind,
    hread 32 (by decide), ok_bind]
  change (add64 (strtabOff elf h) (strtabSize elf h) >>= _) = _
  rw [add64_of_lt (by omega), ok_bind, if_neg (by omega), readLe_name hp hcs, ok_bind]
  change (read elf (strtabOff elf h) (strtabSize elf h) >>= _) = _
  rw [read_of_le hin, ok_bind, sub_of_le (by omega), ok_bind, keepEntries_eq hp hlen hcs, ok_bind,
    readField_entry hp hlen hcs (by decide), ok_bind, readField_entry hp hlen hcs (by decide),
    ok_bind]
  rfl

theorem strip_unsigned (hstr : StrtabFits elf) (hno : ¬ Signed elf) :
    strip elf ≠ .panic := by
  by_cases hparse : ∃ h, Parsed elf h
  · obtain ⟨h, hp⟩ := hparse
    rw [strip, (parseHeader_eq_ok hlen).2 hp, ok_bind, find_unsigned hlen hp (hstr h hp) hno,
      ok_bind]
    simp
  · rw [not_exists] at hparse
    obtain ⟨e, he⟩ := parseHeader_err hlen hparse
    rw [strip, he]
    simp

theorem strip_ne_panic : strip elf ≠ .panic ↔ StrtabFits elf ∧ StripsFit elf := by
  constructor
  · intro hne
    have hstr : StrtabFits elf := fun h hp => by
      rw [strip, (parseHeader_eq_ok hlen).2 hp, ok_bind, bind_ne_panic] at hne
      exact (find_codesign_ne_panic hlen hp).1 hne.1
    refine ⟨hstr, fun h csIdx hp hfound => ?_⟩
    rw [strip_eq hlen hp hfound, bind_ne_panic] at hne
    exact (rebuildStripped_ne_panic hp (sectionNamed_lt hfound.2)).1 hne.1
  · rintro ⟨hstr, hfits⟩
    by_cases hsigned : Signed elf
    · obtain ⟨h, csIdx, hp, hfound⟩ := hsigned
      rw [strip_eq hlen hp hfound, bind_ne_panic,
        rebuildStripped_ne_panic hp (sectionNamed_lt hfound.2)]
      exact ⟨hfits h csIdx hp hfound, fun _ _ => by simp⟩
    · exact strip_unsigned hlen hstr hsigned

theorem injectCodesignSection_ne_panic :
    injectCodesignSection elf ≠ .panic ↔ StrtabFits elf ∧ InjectsFit elf := by
  by_cases hparse : ∃ h, Parsed elf h
  · obtain ⟨h, hp⟩ := hparse
    have hndx := hp.shstrndx_lt
    have hread : ∀ off, off + 8 ≤ 64 → readField elf (h.shoff + h.shstrndx * 64) off 8 =
        .ok (leAt elf (h.shoff + h.shstrndx * 64 + off) 8) :=
      fun off hoff => readField_entry hp hlen hndx hoff
    have hinject : injectCodesignSection elf =
        add64 (strtabOff elf h) (strtabSize elf h) >>= fun shstrEnd =>
          if elf.length < shstrEnd then .err .shstrtabOutOfBounds
          else injectCodesignSection elf := by
      by_cases hstr : strtabOff elf h + strtabSize elf h < 2 ^ 64
      swap
      · rw [add64, checked, if_neg hstr, panic_bind, injectCodesignSection,
          (parseHeader_eq_ok hlen).2 hp, ok_bind, entryAt_eq hp hlen hndx.le, ok_bind,
          hread 24 (by decide), ok_bind, hread 32 (by decide), ok_bind]
        change (add64 (strtabOff elf h) (strtabSize elf h) >>= _) = _
        rw [add64, checked, if_neg hstr, panic_bind]
      rw [add64_of_lt hstr, ok_bind]
      split
      next hout =>
        rw [injectCodesignSection, (parseHeader_eq_ok hlen).2 hp, ok_bind,
          entryAt_eq hp hlen hndx.le, ok_bind, hread 24 (by decide), ok_bind,
          hread 32 (by decide), ok_bind]
        change (add64 (strtabOff elf h) (strtabSize elf h) >>= _) = _
        rw [add64_of_lt hstr, ok_bind, if_pos hout]
      next => rfl
    constructor
    · intro hne
      rw [hinject, bind_ne_panic, add64_ne_panic] at hne
      obtain ⟨hstr, hne⟩ := hne
      have hne := hne _ (add64_of_lt hstr)
      refine ⟨fun h' hp' => parsed_unique hlen hp hp' ▸ hstr, fun h' hp' hin => ?_⟩
      obtain rfl := parsed_unique hlen hp hp'
      rw [if_neg (by omega)] at hne
      exact injectFits_of_ne_panic hp hlen hin hne
    · rintro ⟨hstr, hfits⟩
      rw [hinject, add64_of_lt (hstr h hp), ok_bind]
      split
      next => simp
      next hin =>
        rw [injectCodesignSection_eq hp hlen (by omega) (hfits h hp (by omega))]
        simp
  · rw [not_exists] at hparse
    obtain ⟨e, he⟩ := parseHeader_err hlen hparse
    rw [injectCodesignSection, he]
    exact iff_of_true (by simp) ⟨fun h hp => absurd hp (hparse h), fun h hp => absurd hp (hparse h)⟩

/-- A section is put in only as `injected` says. -/
theorem injectCodesignSection_ok {r : Bytes × Nat} (hr : injectCodesignSection elf = .ok r) :
    ∃ h, Parsed elf h ∧ strtabOff elf h + strtabSize elf h ≤ elf.length ∧ InjectFits elf h ∧
      r = (injected elf h, csOffset elf h) := by
  have hne : injectCodesignSection elf ≠ .panic := by simp [hr]
  obtain ⟨hstr, hfits⟩ := (injectCodesignSection_ne_panic hlen).1 hne
  obtain ⟨h, hparse, hrest⟩ := bind_eq_ok.1 hr
  have hp := (parseHeader_eq_ok hlen).1 hparse
  have hndx := hp.shstrndx_lt
  have hin : strtabOff elf h + strtabSize elf h ≤ elf.length := by
    by_contra hout
    rw [entryAt_eq hp hlen hndx.le, ok_bind, readField_entry hp hlen hndx (by decide), ok_bind,
      readField_entry hp hlen hndx (by decide), ok_bind] at hrest
    change (add64 (strtabOff elf h) (strtabSize elf h) >>= _) = _ at hrest
    rw [add64_of_lt (hstr h hp), ok_bind, if_pos (by omega)] at hrest
    simp at hrest
  refine ⟨h, hp, hin, hfits h hp hin, ?_⟩
  rw [injectCodesignSection_eq hp hlen hin (hfits h hp hin)] at hr
  exact (Outcome.ok.inj hr).symm

theorem length_of_strip {removed : Bool} (hstrip : strip elf = .ok (removed, buf)) :
    buf.length < maxLen := by
  have hne : strip elf ≠ .panic := by simp [hstrip]
  obtain ⟨hstr, -⟩ := (strip_ne_panic hlen).1 hne
  by_cases hsigned : Signed elf
  · obtain ⟨h, csIdx, hp, hfound⟩ := hsigned
    rw [strip_eq hlen hp hfound] at hstrip
    obtain ⟨buf', hbuf, heq⟩ := bind_eq_ok.1 hstrip
    obtain ⟨-, rfl⟩ := Prod.mk.inj (Outcome.ok.inj heq)
    exact length_of_rebuildStripped hbuf
  · obtain ⟨h, hparse, hrest⟩ := bind_eq_ok.1 hstrip
    have hp := (parseHeader_eq_ok hlen).1 hparse
    rw [find_unsigned hlen hp (hstr h hp) hsigned, ok_bind] at hrest
    obtain ⟨-, rfl⟩ := Prod.mk.inj (Outcome.ok.inj hrest)
    exact hlen

omit hlen in
theorem length_payload (fileSize : Nat) (hroot : root.length = 32) :
    (payload fileSize root).length = 296 := by
  simp only [payload, List.length_append, leBytes_length, Descriptor.length_build _ _ hroot,
    Sha256.length_hash, Descriptor.SIZE]

omit hlen in
/-- The signature is written into the section. -/
theorem write_payload (hp : Parsed elf h) (fileSize : Nat) (hroot : root.length = 32) :
    (write (injected elf h) (csOffset elf h) (payload fileSize root) : Res Bytes) =
      .ok (layout elf h (patch (List.replicate PAGE 0) 0 (payload fileSize root))) := by
  refine write_page (o := 0) (by rw [length_front hp, Nat.add_zero]) ?_
  rw [length_payload fileSize hroot, List.length_replicate]
  decide

theorem prepare_eq (force : Bool) (hstr : StrtabFits elf) :
    (¬ Signed elf → prepare elf force = .ok elf) ∧
    (Signed elf → prepare elf force = if force then
      strip elf >>= fun r => .ok r.2 else .err .alreadySigned) := by
  obtain ⟨signed, hhas, hiff⟩ := hasCodesignSection_eq hlen hstr
  rw [prepare, hhas, ok_bind]
  constructor
  · intro hno
    rw [if_neg (mt hiff.1 hno)]
  · intro hyes
    rw [if_pos (hiff.2 hyes)]
    cases force <;> rfl

theorem length_of_prepare (hbuf : prepare elf force = .ok buf) :
    buf.length < maxLen := by
  obtain ⟨signed, hhas, hrest⟩ := bind_eq_ok.1 hbuf
  split at hrest
  next =>
    split at hrest
    next => simp at hrest
    next =>
      obtain ⟨⟨removed, buf'⟩, hstrip, heq⟩ := bind_eq_ok.1 hrest
      obtain rfl := Outcome.ok.inj heq
      exact length_of_strip hlen hstrip
  next =>
    obtain rfl := Outcome.ok.inj hrest
    exact hlen

/-- Signing panics just when its first two stages do. -/
theorem sign_ne_panic_iff (helf : isElf64 elf = true) :
    sign elf force ≠ .panic ↔ prepare elf force ≠ .panic ∧
      ∀ buf, prepare elf force = .ok buf → injectCodesignSection buf ≠ .panic := by
  rw [sign, if_neg (by simp [helf]), bind_ne_panic]
  refine and_congr_right fun _ => forall_congr' fun buf => forall_congr' fun hbuf => ?_
  have hlen' := length_of_prepare hlen hbuf
  rw [bind_ne_panic]
  refine and_iff_left fun r hr => ?_
  obtain ⟨h, hp, -, -, rfl⟩ := injectCodesignSection_ok hlen' hr
  dsimp only
  rw [write_payload hp _ (length_rootHash _ _ _)]
  simp

theorem strip_signed {r : Bool × Bytes} (hp : Parsed elf h) (hfound : Found elf h csIdx)
    (hr : strip elf = .ok r) : r = (true, r.2) := by
  rw [strip_eq hlen hp hfound] at hr
  obtain ⟨_, -, heq⟩ := bind_eq_ok.1 hr
  obtain rfl := Outcome.ok.inj heq
  rfl

theorem sign_ne_panic (force : Bool) : sign elf force ≠ .panic ↔ SignFits elf force := by
  by_cases helf : isElf64 elf = true
  swap
  · have hno : ∀ h, ¬ Parsed elf h := fun h hp => helf hp.elf64
    have hunsigned : ¬ Signed elf := fun ⟨h, _, hp, _⟩ => hno h hp
    rw [sign, if_pos helf]
    exact iff_of_true (by simp) ⟨fun h hp => absurd hp (hno h),
      fun _ h hp => absurd hp (hno h), fun hsigned => absurd hsigned hunsigned⟩
  rw [sign_ne_panic_iff hlen helf]
  constructor
  · rintro ⟨hprepare, hinject⟩
    have hstr : StrtabFits elf := (hasCodesignSection_ne_panic hlen).1 (bind_ne_panic.1 hprepare).1
    obtain ⟨hunsigned, hsigned⟩ := prepare_eq hlen force hstr
    refine ⟨hstr, fun hno => ?_, fun hyes hforce => ?_⟩
    · exact ((injectCodesignSection_ne_panic hlen).1 (hinject _ (hunsigned hno))).2
    · have hprep := hsigned hyes
      rw [if_pos hforce] at hprep
      rw [hprep, bind_ne_panic] at hprepare
      refine ⟨((strip_ne_panic hlen).1 hprepare.1).2, fun buf hbuf => ?_⟩
      have hlen' := length_of_strip hlen hbuf
      refine (injectCodesignSection_ne_panic hlen').1 (hinject buf ?_)
      rw [hprep, hbuf, ok_bind]
  · intro hfits
    obtain ⟨hunsigned, hsigned⟩ := prepare_eq hlen force hfits.strtab
    by_cases hyes : Signed elf
    · have hprep := hsigned hyes
      cases force with
      | false => simp [hprep]
      | true =>
        obtain ⟨hstrips, hinjects⟩ := hfits.signed hyes rfl
        have hne := (strip_ne_panic hlen).2 ⟨hfits.strtab, hstrips⟩
        rw [hprep, if_pos rfl, bind_ne_panic]
        refine ⟨⟨hne, fun r _ => by simp⟩, fun buf hbuf => ?_⟩
        obtain ⟨r, hr, heq⟩ := bind_eq_ok.1 hbuf
        obtain rfl := Outcome.ok.inj heq
        obtain ⟨h, csIdx, hp, hfound⟩ := hyes
        have hstrip : strip elf = .ok (true, r.2) :=
          hr.trans (congrArg _ (strip_signed hlen hp hfound hr))
        exact (injectCodesignSection_ne_panic (length_of_strip hlen hstrip)).2 (hinjects _ hstrip)
    · rw [hunsigned hyes]
      refine ⟨by simp, fun buf hbuf => ?_⟩
      obtain rfl := Outcome.ok.inj hbuf
      exact (injectCodesignSection_ne_panic hlen).2 ⟨hfits.strtab, hfits.unsigned hyes⟩

end Total

/-- A string table that ends past the largest offset. -/
def overflowingElf : Bytes := elfHeader 1 0 ++ sectionHeader 0 3 (2 ^ 64 - 1) 1

end OhosBun.OhosSign
