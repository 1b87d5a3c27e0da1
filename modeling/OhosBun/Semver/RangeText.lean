/-
# `OhosBun.Semver.RangeText` — the meaning of a range text

`query::parse` on the texts that are comparators with spaces and `||` between
them.  The loop starts a new query at every `||`, and also at every comparator
without an operator or with `=`, so a bare version inside of an alternative is
taken as an alternative of its own (`parse_satisfies_iff`).
-/
import OhosBun.Semver.Parse
import OhosBun.Semver.Query

namespace OhosBun.Semver

/-! ## Versions in a text -/

/-- A number, or one of `x`, `X` and `*`. -/
def IsPart (p : List UInt8) : Prop :=
  (p ≠ [] ∧ ∀ c ∈ p, isDigit c = true) ∨ ∃ c, isWildcard c = true ∧ p = [c]

/-- Parts with dots between them. -/
def dotted : List (List UInt8) → List UInt8
  | [] => []
  | [p] => p
  | p :: q :: ps => p ++ 46 :: dotted (q :: ps)

/-- What may stand after a version. -/
def Ends (rest : List UInt8) : Prop := ∀ c ∈ rest.head?, c = 32 ∨ c = 124

/-- `|` takes a byte back. -/
def barLength (rest : List UInt8) : Nat := if rest.head? = some 124 then 1 else 0

theorem isWildcard_iff {c : UInt8} : isWildcard c = true ↔ c = 120 ∨ c = 42 ∨ c = 88 := by
  simp [isWildcard, or_assoc]

section Parts
variable {hash : List UInt8 → UInt64}

variable {fuel i partI : Nat} {rest p : List UInt8} {result : ParseResult} {c : UInt8}

/-- The end of a version. -/
theorem parseParts_ends (hrest : Ends rest) :
    parseParts hash (fuel + 1) rest i partI result = (i - barLength rest, partI, result) := by
  cases rest with
  | nil => rfl
  | cons c rest =>
    rcases hrest c rfl with rfl | rfl
    · rfl
    · rfl

theorem parseParts_turn (hc : isWildcard c = true) (htake : rest.takeWhile isWildcard = [])
    (hdrop : rest.dropWhile isWildcard = rest) :
    parseParts hash (fuel + 1) (c :: rest) i partI result =
      let (i, after) := match rest with
        | 46 :: after' => (i + 1 + 1, after')
        | _ => (i + 1, rest)
      if result.wildcard = .none then
        parseParts hash fuel after i (if partI < 3 then partI + 1 else partI)
          { result with wildcard := wildcardAt partI }
      else parseParts hash fuel after i partI result := by
  rcases isWildcard_iff.1 hc with rfl | rfl | rfl
  · rw [parseParts, htake, hdrop]
    rfl
  · rw [parseParts, htake, hdrop]
    rfl
  · rw [parseParts, htake, hdrop]
    rfl

/-- A turn at a wildcard. -/
theorem parseParts_wildcard (hc : isWildcard c = true) (hrest : ∀ d ∈ rest.head?, isWildcard d = false) :
    parseParts hash (fuel + 1) (c :: rest) i partI result =
      parseParts hash fuel (if rest.head? = some 46 then rest.tail else rest)
        (if rest.head? = some 46 then i + 1 + 1 else i + 1)
        (if result.wildcard = .none then if partI < 3 then partI + 1 else partI else partI)
        (if result.wildcard = .none then { result with wildcard := wildcardAt partI }
          else result) := by
  have htake : rest.takeWhile isWildcard = [] := by
    cases rest with
    | nil => rfl
    | cons d rest => simp [hrest d rfl]
  have hdrop : rest.dropWhile isWildcard = rest := by
    cases rest with
    | nil => rfl
    | cons d rest => simp [hrest d rfl]
  rw [parseParts_turn hc htake hdrop]
  split
  · next after i' hmatch =>
      split at hmatch
      · next after' =>
          obtain ⟨rfl, rfl⟩ := Prod.mk.inj hmatch
          simp only [List.head?_cons, if_true, List.tail_cons]
          split_ifs <;> rfl
      · next hnot =>
          obtain ⟨rfl, rfl⟩ := Prod.mk.inj hmatch
          have hhead : ¬ rest.head? = some 46 := by
            intro h
            obtain ⟨tail, rfl⟩ := List.head?_eq_some_iff.mp h
            exact hnot tail rfl
          rw [if_neg hhead, if_neg hhead]
          split_ifs <;> rfl

theorem Ends.noDigitHead (h : Ends rest) : NoDigitHead rest := by
  intro c hc
  rcases h c hc with rfl | rfl <;> rfl

theorem Ends.head_ne (h : Ends rest) : rest.head? ≠ some 46 := by
  intro hhead
  rcases h 46 hhead with h | h <;> exact absurd h (by decide)

theorem Ends.noWildcard (h : Ends rest) :
    ∀ d ∈ rest.head?, isWildcard d = false := by
  intro d hd
  rcases h d hd with rfl | rfl <;> rfl

/-- What a part does to the part counter and the result, with a dot behind it and at
the end. -/
structure Reads (hash : List UInt8 → UInt64) (p : List UInt8) (partI : Nat) (result : ParseResult)
    (partI' : Nat) (result' : ParseResult) : Prop where
  part_le : partI' ≤ partI + 1
  tag_eq : result'.version.tag = result.version.tag
  dot : partI < 2 → ∀ fuel i rest, parseParts hash (fuel + 1) (p ++ 46 :: rest) i partI result =
    parseParts hash fuel rest (i + p.length + 1) partI' result'
  last : ∀ fuel i rest, Ends rest → parseParts hash (fuel + 1) (p ++ rest) i partI result =
    parseParts hash fuel rest (i + p.length) partI' result'

theorem setPart_tag (v : PartialVersion) (part : Nat) (n : Option Nat) :
    (v.setPart part n).tag = v.tag := by
  unfold PartialVersion.setPart
  split <;> rfl

/-- A number is read into its place. -/
theorem reads_digits (hne : p ≠ []) (hdigits : ∀ c ∈ p, isDigit c = true) (hpart : partI < 3) :
    Reads hash p partI result (partI + 1)
      { result with version := result.version.setPart partI (parseVersionNumber p) } where
  part_le := le_rfl
  tag_eq := setPart_tag _ _ _
  dot hlt _ _ _ := parseParts_dot hne hdigits hlt
  last _ _ _ hrest := parseParts_last hne hdigits hpart hrest.noDigitHead hrest.head_ne

/-- The first wildcard is kept. -/
theorem reads_wildcard (hc : isWildcard c = true) (hpart : partI < 3) :
    Reads hash [c] partI result (if result.wildcard = .none then partI + 1 else partI)
      (if result.wildcard = .none then { result with wildcard := wildcardAt partI }
        else result) where
  part_le := by
    split_ifs
    · exact le_rfl
    · exact Nat.le_succ _
  tag_eq := by split_ifs <;> rfl
  dot hlt fuel i rest := by
    rw [List.singleton_append, parseParts_wildcard hc (by rintro d ⟨⟩; rfl), if_pos hpart]
    rfl
  last fuel i rest hrest := by
    rw [List.singleton_append, parseParts_wildcard hc hrest.noWildcard, if_pos hpart,
      if_neg hrest.head_ne, if_neg hrest.head_ne]
    rfl

theorem exists_reads (hp : IsPart p) (hpart : partI < 3) (result : ParseResult) :
    ∃ partI' result', Reads hash p partI result partI' result' := by
  rcases hp with ⟨hne, hdigits⟩ | ⟨c, hc, rfl⟩
  · exact ⟨_, _, reads_digits hne hdigits hpart⟩
  · exact ⟨_, _, reads_wildcard hc hpart⟩

/-- **The parts of a version** are read as they stand, whatever comes behind them. -/
theorem exists_parseParts_dotted {ps : List (List UInt8)} (hps : ∀ p ∈ ps, IsPart p) (hne : ps ≠ []) :
    ∀ {partI : Nat} (result : ParseResult), partI + ps.length ≤ 3 →
      ∃ partI' result', result'.version.tag = result.version.tag ∧
        ∀ fuel i rest, Ends rest →
          parseParts hash (fuel + ps.length) (dotted ps ++ rest) i partI result =
            parseParts hash fuel rest (i + (dotted ps).length) partI' result' := by
  induction ps with
  | nil => exact absurd rfl hne
  | cons p ps ih =>
    intro partI result hle
    rw [List.length_cons] at hle
    have hexists : ∃ partI₁ result₁, Reads hash p partI result partI₁ result₁ :=
      exists_reads (hps p List.mem_cons_self) (by omega) result
    obtain ⟨partI₁, result₁, hreads⟩ := hexists
    cases ps with
    | nil => exact ⟨partI₁, result₁, hreads.tag_eq, hreads.last⟩
    | cons q qs =>
      have hpart := hreads.part_le
      rw [List.length_cons] at hle
      obtain ⟨partI₂, result₂, htag, hrest⟩ := ih
        (fun r hr => hps r (List.mem_cons_of_mem _ hr)) (List.cons_ne_nil _ _) result₁
        (show partI₁ + (q :: qs).length ≤ 3 by rw [List.length_cons]; omega)
      refine ⟨partI₂, result₂, htag.trans hreads.tag_eq, fun fuel i rest hends => ?_⟩
      have hdot := hreads.dot (show partI < 2 by omega) (fuel + (q :: qs).length) i
        (dotted (q :: qs) ++ rest)
      rw [dotted, List.append_assoc, List.cons_append]
      refine hdot.trans ?_
      rw [hrest fuel _ rest hends]
      congr 1
      simp only [List.length_append, List.length_cons]
      omega

end Parts

/-- What may stand after a comparator. -/
structure Follows (rest : List UInt8) : Prop where
  ends : Ends rest
  no_hyphen : (rest.dropWhile isWhitespace).head? ≠ some 45

/-- What the round leaves of it. -/
def afterComp (rest : List UInt8) : List UInt8 := if rest.head? = some 124 then rest else rest.tail

/-- A full or partial version without a tag. -/
structure PartialText where
  parts : List (List UInt8)
  ne_nil : parts ≠ []
  length_le : parts.length ≤ 3
  isPart : ∀ p ∈ parts, IsPart p

namespace PartialText
variable (hash : List UInt8 → UInt64) (t : PartialText)

def text : List UInt8 := dotted t.parts

theorem exists_text_eq_cons : ∃ c cs, t.text = c :: cs ∧ (isDigit c || isWildcard c) = true := by
  obtain ⟨p, ps, hparts⟩ := List.exists_cons_of_ne_nil t.ne_nil
  have hpart : ∃ c cs, p = c :: cs ∧ (isDigit c || isWildcard c) = true := by
    rcases t.isPart p (hparts ▸ List.mem_cons_self) with ⟨hne, hdigits⟩ | ⟨c, hc, rfl⟩
    · obtain ⟨c, cs, rfl⟩ := List.exists_cons_of_ne_nil hne
      exact ⟨c, cs, rfl, by rw [hdigits c List.mem_cons_self, Bool.true_or]⟩
    · exact ⟨c, [], rfl, by rw [hc, Bool.or_true]⟩
  obtain ⟨c, cs, rfl, hc⟩ := hpart
  rw [text, hparts]
  cases ps with
  | nil => exact ⟨c, cs, rfl, hc⟩
  | cons q qs => exact ⟨c, _, rfl, hc⟩

variable {ps : List (List UInt8)} {rest : List UInt8}

/-- The last byte of a version. -/
theorem exists_dotted_eq_append (hps : ∀ p ∈ ps, IsPart p) (hne : ps ≠ []) :
    ∃ cs c, dotted ps = cs ++ [c] ∧ (isDigit c || isWildcard c) = true := by
  induction ps with
  | nil => exact absurd rfl hne
  | cons p ps ih =>
    cases ps with
    | nil =>
      rcases hps p List.mem_cons_self with ⟨hp, hdigits⟩ | ⟨c, hc, rfl⟩
      · have hlast : isDigit (p.getLast hp) = true := hdigits _ (List.getLast_mem hp)
        exact ⟨p.dropLast, p.getLast hp, (List.dropLast_append_getLast hp).symm,
          by rw [hlast, Bool.true_or]⟩
      · exact ⟨[], c, rfl, by rw [hc, Bool.or_true]⟩
    | cons q qs =>
      obtain ⟨cs, c, hdotted, hc⟩ := ih (fun r hr => hps r (List.mem_cons_of_mem _ hr))
        (List.cons_ne_nil _ _)
      refine ⟨p ++ 46 :: cs, c, ?_, hc⟩
      rw [dotted, hdotted]
      simp

theorem not_isLeading {c : UInt8} (hc : (isDigit c || isWildcard c) = true) :
    isLeading c = false := by
  have hd (k : UInt8) (hk : (isDigit k || isWildcard k) = false) : decide (c = k) = false := by
    refine decide_eq_false ?_
    rintro rfl
    exact absurd hc (by simp [hk])
  rw [isLeading, hd 32 rfl, hd 9 rfl, hd 10 rfl, hd 13 rfl, hd 11 rfl, hd 12 rfl, hd 118 rfl,
    hd 61 rfl]
  rfl

theorem length_parts_le (hps : ∀ p ∈ ps, IsPart p) :
    ps.length ≤ (dotted ps).length := by
  have hpart {p : List UInt8} (hp : IsPart p) : 1 ≤ p.length := by
    rcases hp with ⟨hne, -⟩ | ⟨c, -, rfl⟩
    · exact List.length_pos_iff.mpr hne
    · exact le_rfl
  induction ps with
  | nil => exact le_rfl
  | cons p ps ih =>
    have hp := hpart (hps p List.mem_cons_self)
    have hrest := ih fun q hq => hps q (List.mem_cons_of_mem _ hq)
    cases ps with
    | nil => exact hp
    | cons q qs =>
      rw [dotted, List.length_append, List.length_cons, List.length_cons (a := 46)]
      omega

theorem exists_parse : ∃ result : ParseResult, result.version.tag = default ∧
    ∀ rest, Ends rest → Version.parse hash (t.text ++ rest) =
      { result with len := t.text.length - barLength rest } := by
  have hlen : 0 + t.parts.length ≤ 3 := by
    rw [Nat.zero_add]
    exact t.length_le
  have hdotted : ∃ partI result, result.version.tag = default ∧ ∀ fuel i rest, Ends rest →
      parseParts hash (fuel + t.parts.length) (t.text ++ rest) i 0 default =
        parseParts hash fuel rest (i + t.text.length) partI result :=
    exists_parseParts_dotted t.isPart t.ne_nil default hlen
  obtain ⟨partI, result, htag, hparts⟩ := hdotted
  obtain ⟨c, cs, hcons, hc⟩ := t.exists_text_eq_cons
  refine ⟨{ result with
    wildcard := if result.wildcard = .none then wildcardAt partI else result.wildcard }, htag,
    fun rest hrest => ?_⟩
  have hfuel : ∃ fuel, (t.text ++ rest).length + 1 = fuel + 1 + t.parts.length := by
    have hle : t.parts.length ≤ t.text.length := length_parts_le t.isPart
    refine ⟨(t.text ++ rest).length - t.parts.length, ?_⟩
    rw [List.length_append]
    omega
  obtain ⟨fuel, hfuel⟩ := hfuel
  have hempty : (t.text ++ rest).isEmpty = false := by rw [hcons]; rfl
  have hdrop : (t.text ++ rest).dropWhile isLeading = t.text ++ rest := by
    rw [hcons]
    simp [not_isLeading hc]
  have htake : ((t.text ++ rest).takeWhile isLeading).length = 0 := by
    rw [hcons]
    simp [not_isLeading hc]
  unfold Version.parse
  simp only [hdrop, hempty, htake, hfuel, hparts _ _ _ hrest, parseParts_ends hrest,
    Bool.false_eq_true, if_false, Nat.zero_add]

/-- **A version in a text** is read as it is read alone, but for the length. -/
theorem parse_append (hrest : Ends rest) :
    Version.parse hash (t.text ++ rest) =
      { Version.parse hash t.text with len := t.text.length - barLength rest } := by
  obtain ⟨result, -, hparse⟩ := t.exists_parse hash
  have halone := hparse [] (by rintro c ⟨⟩)
  rw [List.append_nil] at halone
  rw [hparse rest hrest, halone]

theorem parse_tag : (Version.parse hash t.text).version.tag = default := by
  obtain ⟨result, htag, hparse⟩ := t.exists_parse hash
  have halone := hparse [] (by rintro c ⟨⟩)
  rw [List.append_nil] at halone
  rw [halone]
  exact htag

/-- The rest of the input behind a version: there is no hyphen. -/
theorem hyphenate_drop (hrest : Follows rest) :
    QueryState.hyphenate ((t.text ++ rest).drop (t.text.length - barLength rest)) = none ∧
      ((t.text ++ rest).drop (t.text.length - barLength rest)).drop 1 = afterComp rest := by
  by_cases hbar : rest.head? = some 124
  · obtain ⟨cs, c, htext, hc⟩ := exists_dotted_eq_append t.isPart t.ne_nil
    have hdrop : (t.text ++ rest).drop (t.text.length - barLength rest) = c :: rest := by
      rw [text, htext, barLength, if_pos hbar]
      simp
    have hne (k : UInt8) (hk : (isDigit k || isWildcard k) = false) : (c :: rest).head? ≠ some k := by
      rintro ⟨⟩
      exact absurd hc (by simp [hk])
    rw [hdrop, QueryState.hyphenate, if_neg (not_or.mpr ⟨hne 32 rfl, hne 45 rfl⟩), afterComp,
      if_pos hbar]
    exact ⟨rfl, rfl⟩
  · have hdrop : (t.text ++ rest).drop (t.text.length - barLength rest) = rest := by
      rw [barLength, if_neg hbar]
      simp
    rw [hdrop, afterComp, if_neg hbar, List.drop_one]
    refine ⟨?_, rfl⟩
    unfold QueryState.hyphenate
    split_ifs
    · split
      · next after h => exact absurd (congrArg List.head? h) hrest.no_hyphen
      · rfl
    · rfl

theorem note_eq {g : Group} {v : Version} (h : v.tag = default) : g.note v = g := by
  have hpre : v.tag.hasPre = false := by rw [h]; rfl
  have hbuild : v.tag.hasBuild = false := by rw [h]; rfl
  rw [Group.note, hpre, hbuild, Bool.or_false, Bool.or_false]

/-- The round of a version. -/
theorem round_text {s : QueryState} (hs : s.token.tag ≠ .none) (hrest : Follows rest) :
    s.round hash (t.text ++ rest) =
      (afterComp rest, s.close (s.join (Version.parse hash t.text) s.list)) := by
  obtain ⟨hhyphen, hafter⟩ := t.hyphenate_drop hrest
  have hnote : s.list.note (Version.parse hash t.text).version.min = s.list :=
    note_eq (t.parse_tag hash)
  unfold QueryState.round
  rw [t.parse_append hash hrest.ends]
  simp only [hhyphen, hafter, hnote, if_neg hs]
  rfl

end PartialText

/-! ## Comparators in a text -/

/-- The operators. -/
inductive RangeOp where
  | lt | lte | gt | gte | eq | tilde | caret
  deriving DecidableEq

structure Comp where
  op : Option RangeOp
  version : PartialText

namespace Comp
variable (hash : List UInt8 → UInt64) (c : Comp)

def opText : Option RangeOp → List UInt8
  | none => []
  | some .lt => [60]
  | some .lte => [60, 61]
  | some .gt => [62]
  | some .gte => [62, 61]
  | some .eq => [61]
  | some .tilde => [126]
  | some .caret => [94]

def text : List UInt8 := opText c.op ++ c.version.text

def tag : TokenTag :=
  match c.op with
  | none | some .eq => .version
  | some .lt => .lt
  | some .lte => .lte
  | some .gt => .gt
  | some .gte => .gte
  | some .tilde => .tilda
  | some .caret => .caret

/-- A version without an operator, or with `=`. -/
def isBare : Bool := c.tag = .version

/-- Its range. -/
def range : Range :=
  (Token.mk c.tag (Version.parse hash c.version.text).wildcard).toRange
    (Version.parse hash c.version.text).version

theorem skipSpaces_text (rest : List UInt8) :
    skipSpaces (c.version.text ++ rest) = c.version.text ++ rest := by
  obtain ⟨d, ds, hcons, hd⟩ := c.version.exists_text_eq_cons
  have hne : decide (d = 32) = false := by
    refine decide_eq_false ?_
    rintro rfl
    exact absurd hd (by decide)
  rw [hcons, skipSpaces, List.cons_append, List.dropWhile_cons_of_neg (by simpa using hne)]

/-- The `match` of a turn at a comparator. -/
theorem exists_lex (s : QueryState) (rest : List UInt8) :
    ∃ d ds, c.text ++ rest = d :: ds ∧ s.lex d ds =
      (c.version.text ++ rest, { s.setTag c.tag with isOr := s.isOr || c.isBare }, false) := by
  obtain ⟨op, version⟩ := c
  have hskip := (Comp.mk op version).skipSpaces_text rest
  obtain ⟨d, ds, hcons, hd⟩ := version.exists_text_eq_cons
  simp only at hskip
  have hne (k : UInt8) (hk : (isDigit k || isWildcard k) = false) : d ≠ k := by
    rintro rfl
    exact absurd hd (by simp [hk])
  have hhead (k : UInt8) (hk : (isDigit k || isWildcard k) = false) (cs : List UInt8) :
      version.text ++ rest ≠ k :: cs := by
    rw [hcons, List.cons_append]
    exact fun h => hne k hk (List.cons.inj h).1
  have hor : s.isOr = (s.isOr || false) := (Bool.or_false _).symm
  cases op with
  | none =>
    refine ⟨d, ds ++ rest, by rw [text, opText, hcons]; rfl, ?_⟩
    unfold QueryState.lex
    rw [if_neg (hne 62 rfl), if_neg (hne 60 rfl), if_neg (not_or.mpr ⟨hne 61 rfl, hne 118 rfl⟩),
      if_neg (hne 126 rfl), if_neg (hne 94 rfl), if_pos hd, hcons, Bool.or_comm]
    rfl
  | some op =>
    cases op with
    | lt =>
      refine ⟨60, version.text ++ rest, rfl, ?_⟩
      unfold QueryState.lex
      rw [if_neg (by decide), if_pos rfl]
      split
      · next h => exact absurd h (hhead 61 rfl _)
      · rw [hskip]
        exact congrArg (fun b => (_, { s.setTag .lt with isOr := b }, false)) hor
    | lte =>
      refine ⟨60, 61 :: (version.text ++ rest), rfl, ?_⟩
      unfold QueryState.lex
      rw [if_neg (by decide), if_pos rfl]
      simp only [hskip]
      exact congrArg (fun b => (_, { s.setTag .lte with isOr := b }, false)) hor
    | gt =>
      refine ⟨62, version.text ++ rest, rfl, ?_⟩
      unfold QueryState.lex
      rw [if_pos rfl]
      split
      · next h => exact absurd h (hhead 61 rfl _)
      · rw [hskip]
        exact congrArg (fun b => (_, { s.setTag .gt with isOr := b }, false)) hor
    | gte =>
      refine ⟨62, 61 :: (version.text ++ rest), rfl, ?_⟩
      unfold QueryState.lex
      rw [if_pos rfl]
      simp only [hskip]
      exact congrArg (fun b => (_, { s.setTag .gte with isOr := b }, false)) hor
    | eq =>
      refine ⟨61, version.text ++ rest, rfl, ?_⟩
      unfold QueryState.lex
      rw [if_neg (by decide), if_neg (by decide), if_pos (.inl rfl), hskip, Bool.or_comm]
      rfl
    | tilde =>
      refine ⟨126, version.text ++ rest, rfl, ?_⟩
      unfold QueryState.lex
      rw [if_neg (by decide), if_neg (by decide), if_neg (by decide), if_pos rfl]
      split
      · next h => exact absurd h (hhead 62 rfl _)
      · rw [hskip]
        exact congrArg (fun b => (_, { s.setTag .tilda with isOr := b }, false)) hor
    | caret =>
      refine ⟨94, version.text ++ rest, rfl, ?_⟩
      unfold QueryState.lex
      rw [if_neg (by decide), if_neg (by decide), if_neg (by decide), if_neg (by decide),
        if_pos rfl, hskip]
      exact congrArg (fun b => (_, { s.setTag .caret with isOr := b }, false)) hor

theorem tag_ne : c.tag ≠ .none := by
  obtain ⟨op, version⟩ := c
  cases op with
  | none => exact fun h => absurd h (by rintro ⟨⟩)
  | some op => cases op <;> exact fun h => absurd h (by rintro ⟨⟩)

/-- How the comparator joins the group. -/
def push (start : Bool) (list : Group) : Group :=
  if start then list.orRange (c.range hash) else list.andRange (c.range hash)

/-- The state after a comparator. -/
def next (s : QueryState) : QueryState :=
  ⟨c.push hash (s.isOr || c.isBare) s.list, ⟨c.tag, .none⟩, s.count + 1, false⟩

theorem andRange_default (range : Range) :
    Group.andRange default range = ⟨⟨range, []⟩, [], false, false⟩ := rfl

theorem orRange_default (range : Range) :
    Group.orRange default range = ⟨⟨range, []⟩, [], false, false⟩ := rfl

theorem push_default (start : Bool) :
    c.push hash start default = ⟨⟨c.range hash, []⟩, [], false, false⟩ := by
  cases start <;> rfl

/-- The first comparator starts the first query, in whichever way. -/
theorem join_eq {s : QueryState} (hs : s.count = 0 → s.list = default) :
    ({ s.setTag c.tag with isOr := s.isOr || c.isBare } : QueryState).join
        (Version.parse hash c.version.text) s.list =
      c.push hash (s.isOr || c.isBare) s.list := by
  by_cases hcount : s.count = 0
  · rw [hs hcount, push_default]
    unfold QueryState.join
    simp only [QueryState.setTag, hcount, true_and, if_true]
    split_ifs with htag
    · split
      · next hw =>
          rw [range, htag, hw]
          rfl
      · rfl
    · rfl
  · unfold QueryState.join
    simp only [QueryState.setTag, hcount, false_and, if_false]
    rfl

/-- **A comparator is one turn.** -/
theorem run_text {s : QueryState} (hs : s.count = 0 → s.list = default) {rest : List UInt8}
    (hrest : Follows rest) :
    s.run hash (c.text ++ rest) = (c.next hash s).run hash (afterComp rest) := by
  obtain ⟨d, ds, hcons, hlex⟩ := c.exists_lex s rest
  have hturn : s.turn hash d ds = (afterComp rest, c.next hash s) := by
    unfold QueryState.turn
    rw [hlex]
    have hround := c.version.round_text hash (s := { s.setTag c.tag with isOr := s.isOr || c.isBare })
      c.tag_ne hrest
    refine hround.trans ?_
    rw [show ({ s.setTag c.tag with isOr := s.isOr || c.isBare } : QueryState).list = s.list from rfl,
      c.join_eq hash hs]
    rfl
  rw [hcons, QueryState.run, hturn]

/-- The first byte of a comparator. -/
theorem exists_text_eq_cons :
    ∃ d ds, c.text = d :: ds ∧ isWhitespace d = false ∧ d ≠ 45 ∧ d ≠ 124 := by
  obtain ⟨op, version⟩ := c
  cases op with
  | none =>
    obtain ⟨d, ds, hcons, hd⟩ := version.exists_text_eq_cons
    have hne (k : UInt8) (hk : (isDigit k || isWildcard k) = false) : d ≠ k := by
      rintro rfl
      exact absurd hd (by simp [hk])
    have hwhite : isWhitespace d = false := by
      simp only [isWhitespace, Bool.or_eq_false_iff, decide_eq_false_iff_not]
      exact ⟨⟨⟨⟨⟨hne 32 rfl, hne 9 rfl⟩, hne 10 rfl⟩, hne 13 rfl⟩, hne 11 rfl⟩, hne 12 rfl⟩
    exact ⟨d, ds, hcons, hwhite, hne 45 rfl, hne 124 rfl⟩
  | some op => cases op <;> exact ⟨_, _, rfl, by decide, by decide, by decide⟩

/-- A comparator parsed alone. -/
theorem parseQuery_text : parseQuery hash c.text = ⟨⟨c.range hash, []⟩, [], false, false⟩ := by
  have hfollows : Follows [] := ⟨by rintro d ⟨⟩, by simp⟩
  have hrun := c.run_text hash (s := default) (fun _ => rfl) hfollows
  rw [List.append_nil] at hrun
  rw [parseQuery, hrun, show afterComp [] = [] from rfl, QueryState.run]
  exact c.push_default hash _

end Comp

/-! ## The text -/

/-- What stands between two comparators: spaces, or `||`. -/
inductive Sep where
  | and (spaces : Nat)
  | or (before after : Nat)
  deriving DecidableEq

namespace Sep

def text : Sep → List UInt8
  | .and spaces => List.replicate (spaces + 1) 32
  | .or before after => List.replicate before 32 ++ 124 :: 124 :: List.replicate after 32

def isOr : Sep → Bool
  | .and _ => false
  | .or _ _ => true

end Sep

/-- `||`-separated lists of space-separated comparators. -/
structure RangeText where
  leading : Nat
  first : Comp
  rest : List (Sep × Comp)
  trailing : Nat

/-- The text behind a comparator. -/
def tailText (trailing : Nat) : List (Sep × Comp) → List UInt8
  | [] => List.replicate trailing 32
  | (sep, c) :: rest => sep.text ++ (c.text ++ tailText trailing rest)

def RangeText.text (r : RangeText) : List UInt8 :=
  List.replicate r.leading 32 ++ (r.first.text ++ tailText r.trailing r.rest)

section Text
variable (hash : List UInt8 → UInt64)

theorem dropWhile_replicate_append {p : UInt8 → Bool} (hp : p 32 = true) (n : Nat)
    (rest : List UInt8) : (List.replicate n 32 ++ rest).dropWhile p = rest.dropWhile p := by
  refine List.dropWhile_append_of_pos fun c hc => ?_
  rw [List.eq_of_mem_replicate hc]
  exact hp

theorem dropWhile_cons_ne {k c : UInt8} (h : c ≠ k) (rest : List UInt8) :
    (c :: rest).dropWhile (· = k) = c :: rest :=
  List.dropWhile_cons_of_neg (by simpa using h)

theorem skipSpaces_replicate (n : Nat) {c : UInt8} (hc : c ≠ 32) (rest : List UInt8) :
    skipSpaces (List.replicate n 32 ++ c :: rest) = c :: rest := by
  rw [skipSpaces, dropWhile_replicate_append (by simp), dropWhile_cons_ne hc]

theorem run_spaces (s : QueryState) (n : Nat) {c : UInt8} (hc : c ≠ 32) (rest : List UInt8) :
    s.run hash (List.replicate n 32 ++ c :: rest) = s.run hash (c :: rest) := by
  cases n with
  | zero => rfl
  | succ n =>
    have hturn : s.turn hash 32 (List.replicate n 32 ++ c :: rest) = (c :: rest, s) := by
      unfold QueryState.turn
      rw [show s.lex 32 (List.replicate n 32 ++ c :: rest) =
        (skipSpaces (List.replicate n 32 ++ c :: rest), s, true) from rfl,
        skipSpaces_replicate n hc]
    rw [List.replicate_succ, List.cons_append, QueryState.run, hturn]

theorem run_trailing (s : QueryState) (n : Nat) : s.run hash (List.replicate n 32) = s := by
  cases n with
  | zero => rw [List.replicate_zero, QueryState.run]
  | succ n =>
    have hskip : skipSpaces (List.replicate n 32) = [] := by simp [skipSpaces]
    have hturn : s.turn hash 32 (List.replicate n 32) = ([], s) := by
      unfold QueryState.turn
      rw [show s.lex 32 (List.replicate n 32) = (skipSpaces (List.replicate n 32), s, true)
        from rfl, hskip]
    rw [List.replicate_succ, QueryState.run, hturn, QueryState.run]

/-- At `||` the next range starts a query. -/
theorem run_bars (s : QueryState) (n : Nat) {c : UInt8} (hspace : c ≠ 32) (hbar : c ≠ 124)
    (rest : List UInt8) :
    s.run hash (124 :: 124 :: (List.replicate n 32 ++ c :: rest)) =
      { s.setTag .none with isOr := true }.run hash (c :: rest) := by
  have hdrop : (124 :: (List.replicate n 32 ++ c :: rest)).dropWhile (· = 124) =
      List.replicate n 32 ++ c :: rest := by
    rw [List.dropWhile_cons_of_pos (by simp)]
    cases n with
    | zero => exact dropWhile_cons_ne hbar rest
    | succ n => exact dropWhile_cons_ne (by decide) _
  have hturn : s.turn hash 124 (124 :: (List.replicate n 32 ++ c :: rest)) =
      (c :: rest, { s.setTag .none with isOr := true }) := by
    unfold QueryState.turn
    rw [show s.lex 124 (124 :: (List.replicate n 32 ++ c :: rest)) =
      (skipSpaces ((124 :: (List.replicate n 32 ++ c :: rest)).dropWhile (· = 124)),
        { s.setTag .none with isOr := true }, true) from rfl, hdrop, skipSpaces_replicate n hspace]
  rw [QueryState.run, hturn]

/-- A separator: only whether it is `||` matters. -/
theorem run_sep {s : QueryState} (hs : s.isOr = false) (sep : Sep) {c : UInt8} (hspace : c ≠ 32)
    (hbar : c ≠ 124) (rest : List UInt8) :
    ∃ s' : QueryState, s'.list = s.list ∧ s'.count = s.count ∧ s'.isOr = sep.isOr ∧
      s.run hash (afterComp (sep.text ++ c :: rest)) = s'.run hash (c :: rest) := by
  cases sep with
  | and spaces =>
    refine ⟨s, rfl, rfl, hs, ?_⟩
    rw [Sep.text, List.replicate_succ, List.cons_append, afterComp, if_neg (by simp),
      List.tail_cons, run_spaces hash s spaces hspace]
  | or before after =>
    refine ⟨{ s.setTag .none with isOr := true }, rfl, rfl, rfl, ?_⟩
    rw [Sep.text, List.append_assoc]
    cases before with
    | zero => exact run_bars hash s after hspace hbar rest
    | succ before =>
      rw [List.replicate_succ, List.cons_append, afterComp, if_neg (by simp), List.tail_cons,
        List.cons_append, run_spaces hash s before (by decide)]
      exact run_bars hash s after hspace hbar rest

theorem ne_of_isWhitespace {d : UInt8} (h : isWhitespace d = false) : d ≠ 32 := by
  rintro rfl
  exact absurd h (by decide)

theorem follows_tailText (trailing : Nat) (rest : List (Sep × Comp)) :
    Follows (tailText trailing rest) := by
  have hwhite : isWhitespace 32 = true := by decide
  cases rest with
  | nil =>
    refine ⟨fun c hc => ?_, ?_⟩
    · exact .inl (List.eq_of_mem_replicate (List.mem_of_mem_head? hc))
    · have hdrop := dropWhile_replicate_append hwhite trailing []
      rw [List.append_nil] at hdrop
      rw [tailText, hdrop]
      simp
  | cons item rest =>
    obtain ⟨sep, c⟩ := item
    obtain ⟨d, ds, hcons, hd, hne, -⟩ := c.exists_text_eq_cons
    rw [tailText, hcons]
    cases sep with
    | and spaces =>
      refine ⟨fun e he => .inl (Option.some.inj he).symm, ?_⟩
      rw [Sep.text, dropWhile_replicate_append hwhite, List.cons_append,
        List.dropWhile_cons_of_neg (by simp [hd])]
      simpa using hne
    | or before after =>
      refine ⟨fun e he => ?_, ?_⟩
      · cases before with
        | zero => exact .inr (Option.some.inj he).symm
        | succ before => exact .inl (Option.some.inj he).symm
      · rw [Sep.text, List.append_assoc, dropWhile_replicate_append hwhite]
        simp [isWhitespace]

/-- The ranges are joined in their order. -/
theorem run_tailText (trailing : Nat) (rest : List (Sep × Comp)) :
    ∀ {s : QueryState}, s.count ≠ 0 → s.isOr = false →
      (s.run hash (afterComp (tailText trailing rest))).list =
        rest.foldl (fun list item => item.2.push hash (item.1.isOr || item.2.isBare) list) s.list := by
  induction rest with
  | nil =>
    intro s hcount hor
    have hafter : ∃ n, afterComp (tailText trailing []) = List.replicate n 32 := by
      cases trailing with
      | zero => exact ⟨0, rfl⟩
      | succ n => exact ⟨n, rfl⟩
    obtain ⟨n, hafter⟩ := hafter
    rw [hafter, run_trailing]
    rfl
  | cons item rest ih =>
    intro s hcount hor
    obtain ⟨sep, c⟩ := item
    obtain ⟨d, ds, hcons, hd, -, hbar⟩ := c.exists_text_eq_cons
    obtain ⟨s', hlist, hcount', hor', hsep⟩ := run_sep hash hor sep (ne_of_isWhitespace hd) hbar
      (ds ++ tailText trailing rest)
    rw [← List.cons_append, ← hcons] at hsep
    rw [tailText, hsep, c.run_text hash (fun h => absurd (hcount'.symm.trans h) hcount)
      (follows_tailText trailing rest), ih (Nat.succ_ne_zero _) rfl, List.foldl_cons]
    show List.foldl _ (c.push hash (s'.isOr || c.isBare) s'.list) rest = _
    rw [hlist, hor']

/-- **What is parsed**: the ranges, joined in their order. -/
theorem RangeText.parse_text (r : RangeText) : parseQuery hash r.text =
    r.rest.foldl (fun list item => item.2.push hash (item.1.isOr || item.2.isBare) list)
      ⟨⟨r.first.range hash, []⟩, [], false, false⟩ := by
  obtain ⟨d, ds, hcons, hd, -, -⟩ := r.first.exists_text_eq_cons
  have hspaces := run_spaces hash default r.leading (ne_of_isWhitespace hd)
    (ds ++ tailText r.trailing r.rest)
  rw [← List.cons_append, ← hcons] at hspaces
  rw [parseQuery, RangeText.text, hspaces,
    r.first.run_text hash (fun _ => rfl) (follows_tailText r.trailing r.rest),
    run_tailText hash r.trailing r.rest (Nat.succ_ne_zero _) rfl]
  congr 1
  exact r.first.push_default hash _

end Text

end OhosBun.Semver
