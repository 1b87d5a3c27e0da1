/-
# `OhosBun.Semver.Parse` — the text of a version

`Version::parse` on the strings of the SemVer grammar.  The three numbers are read
back as they were written; the tag is split by a scan that turns to `pre` at every
`-` outside of one.  In the build part that is a slip: a hyphen there is a
character like any other (`parse_text_iff`).
-/
import Mathlib.Data.List.TakeWhile
import OhosBun.Semver.Precedence

namespace OhosBun.Semver

section Scan
variable {hash : List UInt8 → UInt64} {input : List UInt8} {initialPreCount : Nat}

/-- A byte that only moves the scan on. -/
def isPlain (c : UInt8) : Bool := isAsciiAlphabetic c || isDigit c || c = 46

variable {s : TagScan} {rest cs : List UInt8}

theorem tagScan_plain {c : UInt8} (hc : isPlain c = true) :
    tagScan hash input initialPreCount s (c :: rest) =
      tagScan hash input initialPreCount { s with i := s.i + 1 } rest := by
  have hplus : c ≠ 43 := by
    rintro rfl
    exact absurd hc (by decide)
  have hminus : c ≠ 45 := by
    rintro rfl
    exact absurd hc (by decide)
  rw [tagScan, if_neg hplus, if_neg hminus]
  exact if_pos hc

theorem tagScan_plains (hcs : ∀ c ∈ cs, isPlain c = true) :
    tagScan hash input initialPreCount s (cs ++ rest) =
      tagScan hash input initialPreCount { s with i := s.i + cs.length } rest := by
  induction cs generalizing s with
  | nil => rfl
  | cons c cs ih =>
    rw [List.cons_append, tagScan_plain (hcs c List.mem_cons_self),
      ih fun c hc => hcs c (List.mem_cons_of_mem _ hc)]
    simp [Nat.add_assoc, Nat.add_comm 1]

/-- Inside of a prerelease a hyphen is one of its bytes. -/
theorem tagScan_pre (hs : s.state = .pre) (hcs : ∀ c ∈ cs, isPlain c = true ∨ c = 45) :
    tagScan hash input initialPreCount s (cs ++ rest) =
      tagScan hash input initialPreCount { s with i := s.i + cs.length } rest := by
  induction cs generalizing s with
  | nil => rfl
  | cons c cs ih =>
    have hstep : tagScan hash input initialPreCount s (c :: (cs ++ rest)) =
        tagScan hash input initialPreCount { s with i := s.i + 1 } (cs ++ rest) := by
      rcases hcs c List.mem_cons_self with hc | rfl
      · exact tagScan_plain hc
      · rw [tagScan, if_neg (by decide), if_pos rfl, if_pos hs]
    rw [List.cons_append, hstep, ih]
    · simp [Nat.add_assoc, Nat.add_comm 1]
    · exact hs
    · exact fun c hc => hcs c (List.mem_cons_of_mem _ hc)

theorem externalSlice_append (a s b : List UInt8) :
    externalSlice hash (a ++ s ++ b) a.length (a.length + s.length) = external hash s := by
  simp [externalSlice]

end Scan

/-! ## The tag -/

/-- `-pre` or nothing. -/
def preText : Option (List UInt8) → List UInt8
  | some pre => 45 :: pre
  | none => []

/-- `+build` or nothing. -/
def buildText : Option (List UInt8) → List UInt8
  | some build => 43 :: build
  | none => []

section Tags
variable (hash : List UInt8 → UInt64)

def externalOr : Option (List UInt8) → ExternalString
  | some s => external hash s
  | none => default

variable {input b : List UInt8} {pre : Option (List UInt8)}

/-- The scan of the prerelease part. -/
theorem tagScan_preText (pre : Option (List UInt8)) (rest : List UInt8)
    (hpre : ∀ p ∈ pre, ∀ c ∈ p, isPlain c = true ∨ c = 45) :
    tagScan hash input 0 ⟨.none, 0, default, 0⟩ (preText pre ++ rest) =
      tagScan hash input 0
        (match pre with
        | some p => ⟨.pre, 1, default, 1 + p.length⟩
        | none => ⟨.none, 0, default, 0⟩) rest := by
  cases pre with
  | none => rfl
  | some p =>
    rw [preText, List.cons_append, tagScan, if_neg (by decide), if_pos rfl, if_neg (by decide),
      tagScan_pre rfl (hpre p rfl)]

/-- The state of the scan after `-pre+`. -/
def buildScan (pre : Option (List UInt8)) : TagScan :=
  ⟨.build, (preText pre).length + 1, ⟨externalOr hash pre, default⟩, (preText pre).length + 1⟩

theorem tagScan_plus (pre : Option (List UInt8)) (rest rest' : List UInt8)
    (hpre : ∀ p ∈ pre, ∀ c ∈ p, isPlain c = true ∨ c = 45) :
    tagScan hash (preText pre ++ rest) 0 ⟨.none, 0, default, 0⟩ (preText pre ++ 43 :: rest') =
      tagScan hash (preText pre ++ rest) 0 (buildScan hash pre) rest' := by
  rw [tagScan_preText hash pre _ hpre]
  cases pre with
  | none =>
    rw [tagScan, if_pos rfl]
    rfl
  | some p =>
    have hslice : externalSlice hash (45 :: p ++ rest) 1 (1 + p.length) = external hash p :=
      externalSlice_append [45] p rest
    rw [tagScan, if_pos rfl]
    simp only [true_or, if_true, preText]
    rw [if_neg (by decide), hslice]
    simp only [buildScan, externalOr, preText, List.length_cons, Nat.add_comm 1]
    rfl

/-- The scan ends inside of the build. -/
theorem tagScan_build (hpre : ∀ p ∈ pre, ∀ c ∈ p, isPlain c = true ∨ c = 45)
    (hb : ∀ c ∈ b, isPlain c = true) :
    tagScan hash (preText pre ++ 43 :: b) 0 ⟨.none, 0, default, 0⟩ (preText pre ++ 43 :: b) =
      { buildScan hash pre with i := (preText pre).length + 1 + b.length } := by
  have hplains : tagScan hash (preText pre ++ 43 :: b) 0 (buildScan hash pre) (b ++ []) =
      tagScan hash (preText pre ++ 43 :: b) 0
        { buildScan hash pre with i := (buildScan hash pre).i + b.length } [] := tagScan_plains hb
  rw [List.append_nil] at hplains
  rw [tagScan_plus hash pre _ b hpre, hplains, tagScan]
  rfl

/-- A hyphen in the build turns the scan to a prerelease. -/
theorem tagScan_hyphen {b' : List UInt8} (hpre : ∀ p ∈ pre, ∀ c ∈ p, isPlain c = true ∨ c = 45)
    (hb : ∀ c ∈ b, isPlain c = true) (hb' : ∀ c ∈ b', isPlain c = true ∨ c = 45)
    (hinput : input = preText pre ++ 43 :: (b ++ 45 :: b')) :
    ∃ start i, tagScan hash input 0 ⟨.none, 0, default, 0⟩ input =
      ⟨.pre, start, ⟨externalOr hash pre, default⟩, i⟩ := by
  have hplus : tagScan hash input 0 ⟨.none, 0, default, 0⟩ input =
      tagScan hash input 0 (buildScan hash pre) (b ++ 45 :: b') := by
    rw [hinput]
    exact tagScan_plus hash pre _ _ hpre
  have hpre' (start i : Nat) : tagScan hash input 0
        ⟨.pre, start, ⟨externalOr hash pre, default⟩, i⟩ (b' ++ []) =
      ⟨.pre, start, ⟨externalOr hash pre, default⟩, i + b'.length⟩ := by
    rw [tagScan_pre rfl hb', tagScan]
  have hnot : ¬ (buildScan hash pre).state = .pre := by simp [buildScan]
  rw [hplus, tagScan_plains hb, tagScan, if_neg (by decide), if_pos rfl, if_neg hnot,
    ← List.append_nil b']
  exact ⟨_, _, hpre' _ _⟩

theorem tagParse_eq {c : UInt8} (hhead : input.head? = some c) (hc : c = 43 ∨ c = 45) :
    Tag.parse hash input =
      ⟨(tagScan hash input 0 ⟨.none, 0, default, 0⟩ input).close hash input,
        (tagScan hash input 0 ⟨.none, 0, default, 0⟩ input).i⟩ := by
  have hcount : ¬ ((input.takeWhile (· ≠ 32)).count 43 = 0 ∧
      0 + (input.takeWhile (· ≠ 32)).count 45 = 0) := by
    cases input with
    | nil => exact absurd hhead (by simp)
    | cons a input =>
      obtain rfl := Option.some.inj hhead
      rcases hc with rfl | rfl
      · simp
      · simp
  rw [Tag.parse, Tag.parseWithPreCount, if_neg hcount]
  simp

theorem head_preText_append (pre : Option (List UInt8)) (b : List UInt8) :
    ∃ c, (preText pre ++ 43 :: b).head? = some c ∧ (c = 43 ∨ c = 45) := by
  cases pre with
  | none => exact ⟨43, rfl, .inl rfl⟩
  | some p => exact ⟨45, rfl, .inr rfl⟩

/-- **The tag**, when its build has no hyphen. -/
theorem tagParse_text {build : Option (List UInt8)} (hne : preText pre ++ buildText build ≠ [])
    (hpre : ∀ p ∈ pre, ∀ c ∈ p, isPlain c = true ∨ c = 45)
    (hbuild : ∀ b ∈ build, ∀ c ∈ b, isPlain c = true) :
    Tag.parse hash (preText pre ++ buildText build) =
      ⟨⟨externalOr hash pre, externalOr hash build⟩, (preText pre ++ buildText build).length⟩ := by
  cases build with
  | none =>
    cases pre with
    | none => exact absurd rfl hne
    | some p =>
      have hslice : externalSlice hash (preText (some p) ++ []) 1 (1 + p.length) =
          external hash p := externalSlice_append [45] p []
      have hscan : ∀ input, tagScan hash input 0 ⟨.none, 0, default, 0⟩ (preText (some p) ++ []) =
          ⟨.pre, 1, default, 1 + p.length⟩ := fun input => by
        rw [tagScan_preText hash (some p) [] hpre, tagScan]
      rw [buildText, tagParse_eq hash rfl (.inr rfl), hscan, TagScan.close]
      simp only [hslice]
      simp only [externalOr, preText, List.append_nil, List.length_cons, Nat.add_comm 1]
      rfl
  | some b =>
    obtain ⟨c, hhead, hc⟩ := head_preText_append pre b
    have hslice : externalSlice hash (preText pre ++ 43 :: b) ((preText pre).length + 1)
        ((preText pre).length + 1 + b.length) = external hash b := by
      have happend : externalSlice hash (preText pre ++ [43] ++ b ++ []) _ _ = external hash b :=
        externalSlice_append (preText pre ++ [43]) b []
      simpa using happend
    rw [buildText, tagParse_eq hash hhead hc, tagScan_build hash hpre (hbuild b rfl), TagScan.close]
    simp only [buildScan, hslice, externalOr, List.length_append, List.length_cons]
    congr 1
    omega

/-- A build with a hyphen is lost. -/
theorem tagParse_hyphen (hpre : ∀ p ∈ pre, ∀ c ∈ p, isPlain c = true ∨ c = 45)
    (hb : ∀ c ∈ b, isPlain c = true ∨ c = 45) (hhyphen : 45 ∈ b) :
    (Tag.parse hash (preText pre ++ buildText (some b))).tag.build = default := by
  obtain ⟨a, a', rfl, hfirst⟩ := List.eq_append_cons_of_mem hhyphen
  have ha : ∀ c ∈ a, isPlain c = true := by
    intro c hc
    rcases hb c (List.mem_append_left _ hc) with h | rfl
    · exact h
    · exact absurd hc hfirst
  obtain ⟨c, hhead, hc⟩ := head_preText_append pre (a ++ 45 :: a')
  obtain ⟨start, i, hscan⟩ := tagScan_hyphen hash hpre ha
    (fun c hc => hb c (List.mem_append_right _ (List.mem_cons_of_mem _ hc))) rfl
  rw [buildText, tagParse_eq hash hhead hc, hscan]
  rfl

end Tags

/-! ## The numbers -/

section Parts
variable {hash : List UInt8 → UInt64}

/-- A byte that ends a run of digits. -/
def NoDigitHead (rest : List UInt8) : Prop := ∀ c ∈ rest.head?, isDigit c = false

variable {ds rest : List UInt8} {fuel i partI : Nat} {c : UInt8} {result : ParseResult}

theorem takeWhile_digits (hds : ∀ c ∈ ds, isDigit c = true) (hrest : NoDigitHead rest) :
    (ds ++ rest).takeWhile isDigit = ds ∧ (ds ++ rest).dropWhile isDigit = rest := by
  rw [List.takeWhile_append_of_pos hds, List.dropWhile_append_of_pos hds]
  cases rest with
  | nil => simp
  | cons c rest => simp [hrest c rfl]

/-- A turn at a digit. -/
theorem parseParts_digit (hc : isDigit c = true) : parseParts hash (fuel + 1) (c :: rest) i partI result =
      let number := c :: rest.takeWhile isDigit
      let result := { result with
        version := result.version.setPart partI (parseVersionNumber number) }
      let partI := if partI < 3 then partI + 1 else partI
      match rest.dropWhile isDigit with
      | 46 :: after =>
        if partI ≠ 3 then parseParts hash fuel after (i + number.length + 1) partI result
        else parseParts hash fuel (rest.dropWhile isDigit) (i + number.length) partI result
      | _ => parseParts hash fuel (rest.dropWhile isDigit) (i + number.length) partI result := by
  have hne {k : UInt8} (hk : isDigit k = false) : c ≠ k := by
    rintro rfl
    exact absurd hc (by simp [hk])
  have hstop : ¬ (c = 124 ∨ c = 94 ∨ c = 35 ∨ c = 38 ∨ c = 37 ∨ c = 33) := by
    rintro (h | h | h | h | h | h)
    · exact hne (by decide) h
    · exact hne (by decide) h
    · exact hne (by decide) h
    · exact hne (by decide) h
    · exact hne (by decide) h
    · exact hne (by decide) h
  rw [parseParts, if_neg (hne (by decide)), if_neg hstop]
  exact if_pos hc

/-- A number and a dot, with another number to come. -/
theorem parseParts_dot (hne : ds ≠ []) (hds : ∀ c ∈ ds, isDigit c = true) (hpart : partI < 2) :
    parseParts hash (fuel + 1) (ds ++ 46 :: rest) i partI result =
      parseParts hash fuel rest (i + ds.length + 1) (partI + 1)
        { result with version := result.version.setPart partI (parseVersionNumber ds) } := by
  obtain ⟨c, ds, rfl⟩ := List.exists_cons_of_ne_nil hne
  have hrest : NoDigitHead (46 :: rest) := by
    rintro c ⟨⟩
    decide
  obtain ⟨htake, hdrop⟩ := takeWhile_digits (fun d hd => hds d (List.mem_cons_of_mem _ hd)) hrest
  rw [List.cons_append, parseParts_digit (hds c List.mem_cons_self), htake, hdrop]
  simp only
  rw [if_pos (show partI < 3 by omega), if_pos (show partI + 1 ≠ 3 by omega)]

/-- The last number. -/
theorem parseParts_last (hne : ds ≠ []) (hds : ∀ c ∈ ds, isDigit c = true) (hpart : partI < 3)
    (hrest : NoDigitHead rest) (hdot : rest.head? ≠ some 46) :
    parseParts hash (fuel + 1) (ds ++ rest) i partI result =
      parseParts hash fuel rest (i + ds.length) (partI + 1)
        { result with version := result.version.setPart partI (parseVersionNumber ds) } := by
  obtain ⟨c, ds, rfl⟩ := List.exists_cons_of_ne_nil hne
  obtain ⟨htake, hdrop⟩ := takeWhile_digits (fun d hd => hds d (List.mem_cons_of_mem _ hd)) hrest
  rw [List.cons_append, parseParts_digit (hds c List.mem_cons_self), htake, hdrop]
  simp only
  rw [if_pos hpart]
  split
  · next rest' => exact absurd rfl hdot
  · rfl

/-- A tag behind three numbers. -/
theorem parseParts_tag (hc : c = 43 ∨ c = 45) : parseParts hash (fuel + 1) (c :: rest) i 3 result =
      (i + (Tag.parse hash (c :: rest)).len, 3, { result with
        version := { result.version with tag := (Tag.parse hash (c :: rest)).tag } }) := by
  rcases hc with rfl | rfl
  · rfl
  · rfl

end Parts

/-! ## The grammar -/

variable {s : List UInt8}

theorem mem_splitOn (sep : UInt8) {c : UInt8} (hc : c ∈ s) :
    c = sep ∨ ∃ part ∈ s.splitOn sep, c ∈ part := by
  induction s with
  | nil => exact absurd hc List.not_mem_nil
  | cons a s ih =>
    rw [List.splitOn_cons_eq_if_modifyHead]
    obtain ⟨first, others, hsplit⟩ := List.exists_cons_of_ne_nil (List.splitOn_ne_nil sep s)
    rw [hsplit] at ih ⊢
    by_cases ha : a = sep
    · rw [if_pos (by simpa using ha)]
      rcases List.mem_cons.mp hc with rfl | hc
      · exact .inl ha
      · rcases ih hc with hc | ⟨part, hpart, hc⟩
        · exact .inl hc
        · exact .inr ⟨part, List.mem_cons_of_mem _ hpart, hc⟩
    · rw [if_neg (by simpa using ha), List.modifyHead_cons]
      rcases List.mem_cons.mp hc with rfl | hc
      · exact .inr ⟨_, List.mem_cons_self, List.mem_cons_self⟩
      · rcases ih hc with hc | ⟨part, hpart, hc⟩
        · exact .inl hc
        · rcases List.mem_cons.mp hpart with rfl | hpart
          · exact .inr ⟨_, List.mem_cons_self, List.mem_cons_of_mem _ hc⟩
          · exact .inr ⟨part, List.mem_cons_of_mem _ hpart, hc⟩

/-- A build of the SemVer grammar. -/
def IsBuild (s : List UInt8) : Prop :=
  ∀ id ∈ s.splitOn 46, id ≠ [] ∧ ∀ c ∈ id, isAlphanumeric c = true

instance (s : List UInt8) : Decidable (IsBuild s) :=
  decidable_of_iff (∀ id ∈ s.splitOn 46, id ≠ [] ∧ id.all isAlphanumeric = true)
    (forall₂_congr fun _ _ => and_congr_right fun _ => List.all_eq_true)

theorem IsBuild.of_prerelease (h : IsPrerelease s) : IsBuild s :=
  fun id hid => ⟨(h id hid).ne_nil, (h id hid).alphanumeric⟩

theorem IsBuild.ne_nil (h : IsBuild s) : s ≠ [] := by
  rintro rfl
  exact (h [] List.mem_cons_self).1 rfl

theorem IsBuild.plain (h : IsBuild s) : ∀ c ∈ s, isPlain c = true ∨ c = 45 := by
  intro c hc
  rcases mem_splitOn 46 hc with rfl | ⟨id, hid, hc⟩
  · exact .inl rfl
  · have halnum := (h id hid).2 c hc
    unfold isAlphanumeric at halnum
    unfold isPlain
    rcases Bool.or_eq_true_iff.mp halnum with hword | hminus
    · exact .inl (by rw [hword, Bool.true_or])
    · exact .inr (by simpa using hminus)

/-- A version of SemVer 2.0.0 whose numbers fit `u64`. -/
structure SemVer where
  major : Nat
  minor : Nat
  patch : Nat
  pre : Option (List UInt8)
  build : Option (List UInt8)
  major_lt : major < 2 ^ 64
  minor_lt : minor < 2 ^ 64
  patch_lt : patch < 2 ^ 64
  isPrerelease : ∀ p ∈ pre, IsPrerelease p
  isBuild : ∀ b ∈ build, IsBuild b

namespace SemVer
variable (hash : List UInt8 → UInt64) (v : SemVer)

/-- `MAJOR.MINOR.PATCH[-PRE][+BUILD]`. -/
def text : List UInt8 :=
  decimal v.major ++ 46 :: (decimal v.minor ++ 46 :: (decimal v.patch ++
    (preText v.pre ++ buildText v.build)))

def version : Version :=
  ⟨v.major, v.minor, v.patch, ⟨externalOr hash v.pre, externalOr hash v.build⟩⟩

theorem hasPre_version : (v.version hash).tag.hasPre = v.pre.isSome := by
  cases hpre : v.pre with
  | none => simp [version, hpre, externalOr, Tag.hasPre, ExternalString.isEmpty]; rfl
  | some p =>
    have hne := (IsBuild.of_prerelease (v.isPrerelease p hpre)).ne_nil
    simpa [version, hpre, externalOr, external, Tag.hasPre, ExternalString.isEmpty] using hne

theorem hasBuild_version : (v.version hash).tag.hasBuild = v.build.isSome := by
  cases hbuild : v.build with
  | none => simp [version, hbuild, externalOr, Tag.hasBuild, ExternalString.isEmpty]; rfl
  | some b =>
    have hne := (v.isBuild b hbuild).ne_nil
    simpa [version, hbuild, externalOr, external, Tag.hasBuild, ExternalString.isEmpty] using hne

/-- What is written is the text. -/
theorem fmt_version : (v.version hash).fmt = v.text := by
  have hpre : (if v.pre.isSome then 45 :: (externalOr hash v.pre).value else []) = preText v.pre := by
    cases v.pre with
    | none => rfl
    | some p => rfl
  have hbuild : (if v.build.isSome then 43 :: (externalOr hash v.build).value else []) =
      buildText v.build := by
    cases v.build with
    | none => rfl
    | some b => rfl
  rw [Version.fmt, hasPre_version, hasBuild_version]
  show decimal v.major ++ 46 :: decimal v.minor ++ 46 :: decimal v.patch ++
    (if v.pre.isSome then 45 :: (externalOr hash v.pre).value else []) ++
    (if v.build.isSome then 43 :: (externalOr hash v.build).value else []) = v.text
  rw [hpre, hbuild]
  simp [text]

theorem tagText_head : ∀ c ∈ (preText v.pre ++ buildText v.build).head?, c = 43 ∨ c = 45 := by
  intro c hc
  cases hpre : v.pre with
  | some p =>
    rw [hpre] at hc
    exact .inr (Option.some.inj hc).symm
  | none =>
    rw [hpre] at hc
    cases hbuild : v.build with
    | some b =>
      rw [hbuild] at hc
      exact .inl (Option.some.inj hc).symm
    | none =>
      rw [hbuild] at hc
      exact absurd hc (by simp [preText, buildText])

/-- No tag. -/
theorem tagParse_nil (hnil : preText v.pre ++ buildText v.build = []) :
    Tag.parse hash (preText v.pre ++ buildText v.build) =
      ⟨⟨externalOr hash v.pre, externalOr hash v.build⟩,
        (preText v.pre ++ buildText v.build).length⟩ := by
  have hparse : Tag.parse hash [] = default := by
    rw [Tag.parse, Tag.parseWithPreCount, if_pos (by simp)]
  obtain ⟨hpre, hbuild⟩ := List.append_eq_nil_iff.mp hnil
  have hpre' : v.pre = none := by
    cases h : v.pre with
    | none => rfl
    | some p => rw [h] at hpre; exact absurd hpre (List.cons_ne_nil _ _)
  have hbuild' : v.build = none := by
    cases h : v.build with
    | none => rfl
    | some b => rw [h] at hbuild; exact absurd hbuild (List.cons_ne_nil _ _)
  rw [hnil, hparse, hpre', hbuild']
  rfl

/-- The end of the scan: nothing or the tag. -/
theorem parseParts_tagText {fuel i : Nat} {version : PartialVersion} (htag : version.tag = default) :
    parseParts hash (fuel + 1) (preText v.pre ++ buildText v.build) i 3
        { (default : ParseResult) with version } =
      (i + (Tag.parse hash (preText v.pre ++ buildText v.build)).len, 3,
        { (default : ParseResult) with version := { version with
          tag := (Tag.parse hash (preText v.pre ++ buildText v.build)).tag } }) := by
  have hhead := v.tagText_head
  cases htext : preText v.pre ++ buildText v.build with
  | nil =>
    rw [parseParts]
    have hempty : Tag.parse hash [] = default := by
      rw [Tag.parse, Tag.parseWithPreCount, if_pos (by simp)]
    obtain ⟨major, minor, patch, tag⟩ := version
    obtain rfl : tag = default := htag
    rw [hempty]
    rfl
  | cons c rest =>
    rw [htext] at hhead
    exact parseParts_tag (hhead c rfl)

/-- What is read is the numbers, and the tag as the scan has it. -/
theorem parse_text : Version.parse hash v.text =
    ⟨.none, true, ⟨some v.major, some v.minor, some v.patch,
      (Tag.parse hash (preText v.pre ++ buildText v.build)).tag⟩,
      (decimal v.major).length + 1 + ((decimal v.minor).length + 1) + (decimal v.patch).length +
        (Tag.parse hash (preText v.pre ++ buildText v.build)).len⟩ := by
  have hne (n : Nat) := decimal_ne_nil n
  have hds (n : Nat) := decimal_digits n
  have hnumber {n : Nat} (hn : n < 2 ^ 64) : parseVersionNumber (decimal n) = some n := by
    rw [parseVersionNumber, parseAscii_decimal hn]
    rfl
  have htail : NoDigitHead (preText v.pre ++ buildText v.build) := by
    intro c hc
    rcases v.tagText_head c hc with rfl | rfl
    · decide
    · decide
  have hdot : (preText v.pre ++ buildText v.build).head? ≠ some 46 := by
    intro h
    rcases v.tagText_head 46 h with h | h
    · exact absurd h (by decide)
    · exact absurd h (by decide)
  have hparts (fuel : Nat) : parseParts hash (fuel + 4) v.text 0 0 default =
      (0 + (decimal v.major).length + 1 + (decimal v.minor).length + 1 + (decimal v.patch).length +
        (Tag.parse hash (preText v.pre ++ buildText v.build)).len, 3,
        { (default : ParseResult) with version := ⟨some v.major, some v.minor, some v.patch,
          (Tag.parse hash (preText v.pre ++ buildText v.build)).tag⟩ }) := by
    rw [text, parseParts_dot (hne _) (hds _) (by decide),
      parseParts_dot (hne _) (hds _) (by decide),
      parseParts_last (hne _) (hds _) (by decide) htail hdot, hnumber v.major_lt,
      hnumber v.minor_lt, hnumber v.patch_lt]
    exact v.parseParts_tagText hash rfl
  -- the first byte is a digit: nothing is skipped
  obtain ⟨c, cs, hcons⟩ := List.exists_cons_of_ne_nil (hne v.major)
  have hc : isDigit c = true := hds v.major c (hcons ▸ List.mem_cons_self)
  have hlead : isLeading c = false := by
    have hneq {k : UInt8} (hk : isDigit k = false) : c ≠ k := by
      rintro rfl
      exact absurd hc (by simp [hk])
    have hd (k : UInt8) (hk : isDigit k = false) : decide (c = k) = false :=
      decide_eq_false (hneq hk)
    rw [isLeading, hd 32 rfl, hd 9 rfl, hd 10 rfl, hd 13 rfl, hd 11 rfl, hd 12 rfl, hd 118 rfl,
      hd 61 rfl]
    rfl
  have htext : ∃ rest, v.text = c :: rest := ⟨_, by rw [text, hcons, List.cons_append]⟩
  have hlen : ∃ n, v.text.length + 1 = n + 4 := by
    have hmajor := List.length_pos_iff.mpr (hne v.major)
    refine ⟨v.text.length + 1 - 4, ?_⟩
    simp only [text, List.length_append, List.length_cons]
    omega
  obtain ⟨rest, hrest⟩ := htext
  obtain ⟨n, hn⟩ := hlen
  have hdrop : v.text.dropWhile isLeading = v.text := by rw [hrest]; simp [hlead]
  have htake : (v.text.takeWhile isLeading).length = 0 := by rw [hrest]; simp [hlead]
  have hnil : v.text.isEmpty = false := by rw [hrest]; rfl
  unfold Version.parse
  simp only [hdrop, hnil, htake, hn, hparts, Bool.false_eq_true, if_false]
  congr 1
  omega

/-- **The text of a version is read back exactly**, and so is what is written,
when the build has no hyphen and only then. -/
theorem parse_text_iff :
    (Version.parse hash v.text = ⟨.none, true, ⟨some v.major, some v.minor, some v.patch,
        ⟨externalOr hash v.pre, externalOr hash v.build⟩⟩, v.text.length⟩ ∧
      (Version.parse hash (v.version hash).fmt).version.min = v.version hash) ↔
      ∀ b ∈ v.build, 45 ∉ b := by
  have hpre : ∀ p ∈ v.pre, ∀ c ∈ p, isPlain c = true ∨ c = 45 := fun p hp =>
    (IsBuild.of_prerelease (v.isPrerelease p hp)).plain
  constructor
  · rintro ⟨hparse, -⟩ b hb hhyphen
    rw [parse_text] at hparse
    have htag := congrArg (fun r => r.version.tag.build.value) hparse
    simp only at htag
    rw [Option.mem_def.mp hb, tagParse_hyphen hash hpre (v.isBuild b hb).plain hhyphen] at htag
    exact (v.isBuild b hb).ne_nil htag.symm
  · intro hbuild
    have hplain : ∀ b ∈ v.build, ∀ c ∈ b, isPlain c = true := by
      intro b hb c hc
      rcases (v.isBuild b hb).plain c hc with h | rfl
      · exact h
      · exact absurd hc (hbuild b hb)
    have hparse : Version.parse hash v.text = ⟨.none, true, ⟨some v.major, some v.minor,
        some v.patch, ⟨externalOr hash v.pre, externalOr hash v.build⟩⟩, v.text.length⟩ := by
      have htag : Tag.parse hash (preText v.pre ++ buildText v.build) =
          ⟨⟨externalOr hash v.pre, externalOr hash v.build⟩,
            (preText v.pre ++ buildText v.build).length⟩ := by
        by_cases hne : preText v.pre ++ buildText v.build = []
        · exact v.tagParse_nil hash hne
        · exact tagParse_text hash hne hpre hplain
      rw [parse_text, htag]
      simp only [text, List.length_append, List.length_cons]
      congr 1
      omega
    rw [fmt_version, hparse]
    exact ⟨rfl, rfl⟩

/-- `1.0.0+a-b` -/
def hyphenated : SemVer where
  major := 1
  minor := 0
  patch := 0
  pre := none
  build := some [97, 45, 98]
  major_lt := by decide
  minor_lt := by decide
  patch_lt := by decide
  isPrerelease := by simp
  isBuild := by
    rintro b ⟨⟩
    decide

/-- Its build is read as the prerelease `b`, and what is written is not read back. -/
theorem parse_hyphenated_ne : hyphenated.text = [49, 46, 48, 46, 48, 43, 97, 45, 98] ∧ ∀ hash,
    (Version.parse hash hyphenated.text).version.tag = ⟨external hash [98], default⟩ ∧
      Version.parse hash hyphenated.text ≠ ⟨.none, true, ⟨some 1, some 0, some 0,
        ⟨default, external hash [97, 45, 98]⟩⟩, hyphenated.text.length⟩ ∧
      (Version.parse hash (hyphenated.version hash).fmt).version.min ≠ hyphenated.version hash := by
  refine ⟨by simp [text, hyphenated, decimal, preText, buildText], fun hash => ?_⟩
  have htag : (Version.parse hash hyphenated.text).version.tag = ⟨external hash [98], default⟩ := by
    rw [parse_text]
    rfl
  have hlost : (Version.parse hash hyphenated.text).version.tag.build.value = [] := by
    rw [htag]
    rfl
  refine ⟨htag, ?_, ?_⟩
  · intro h
    rw [h] at hlost
    exact List.cons_ne_nil _ _ hlost
  · intro h
    rw [fmt_version] at h
    have hbuild := congrArg (fun w => w.tag.build.value) h
    exact List.cons_ne_nil _ _ (hbuild.symm.trans hlost)

end SemVer

end OhosBun.Semver
