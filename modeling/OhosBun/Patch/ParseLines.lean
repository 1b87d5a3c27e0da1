/-
# `OhosBun.Patch.ParseLines` — the lines of a patch, one at a time

What the parser makes of each line that git writes.
-/
import OhosBun.Patch.GitPatch
import OhosBun.Semver.Numbers

namespace OhosBun.Patch

open OhosBun.Lib
open OhosBun.Semver (decimal isDigit isDigit_iff decimal_digits decimal_ne_nil)

/-! ## The lines of a text -/

variable {line s chars tail rest : Bytes} {c : UInt8} {lines : List Bytes} {start len : Nat}

theorem indexOfChar_of_notMem (h : c ∉ line) : indexOfChar line c = none := by
  rw [indexOfChar, Option.map_eq_none_iff, List.findIdx?_eq_none_iff]
  exact fun b hb => decide_eq_false fun heq => h (heq ▸ hb)

theorem indexOfChar_append_cons (h : c ∉ line) (hlt : line.length < 2 ^ 32) (rest : Bytes) :
    indexOfChar (line ++ c :: rest) c = some line.length := by
  have hnone : line.findIdx? (· = c) = none := by
    rw [List.findIdx?_eq_none_iff]
    exact fun b hb => decide_eq_false fun heq => h (heq ▸ hb)
  rw [indexOfChar, List.findIdx?_append, hnone, List.findIdx?_cons, if_pos (decide_eq_true rfl)]
  change some ((0 + line.length) % 2 ^ 32) = _
  rw [Nat.zero_add, Nat.mod_eq_of_lt hlt]

theorem scalarSplit_cons (h : IsLine line) (rest : Bytes) :
    scalarSplit (line ++ 10 :: rest) = line :: scalarSplit rest := by
  have hpos := indexOfChar_append_cons h.1 h.2 rest
  rw [scalarSplit]
  split
  · rename_i pos hfound
    obtain rfl := Option.some.inj (hpos.symm.trans hfound)
    rw [List.take_left, ← List.drop_drop, List.drop_left]
    rfl
  · rename_i hfound
    exact absurd (hpos.symm.trans hfound) (by simp)

theorem scalarSplit_last (h : IsLine line) : scalarSplit line = [line] := by
  have hpos := indexOfChar_of_notMem h.1
  rw [scalarSplit]
  split
  · rename_i pos hfound
    exact absurd (hpos.symm.trans hfound) (by simp)
  · rfl

theorem scalarSplit_lines {last : Bytes} (hlines : ∀ line ∈ lines, IsLine line) (hlast : IsLine last) :
    scalarSplit (lines.flatMap (· ++ [10]) ++ last) = lines ++ [last] := by
  induction lines with
  | nil => exact scalarSplit_last hlast
  | cons line lines ih =>
    have hline := hlines line List.mem_cons_self
    have hrest := ih fun l hl => hlines l (List.mem_cons_of_mem _ hl)
    rw [List.flatMap_cons, List.append_assoc, List.append_assoc, List.singleton_append,
      scalarSplit_cons hline, hrest]
    rfl

/-- The file is read line by line. -/
theorem parse_lines (hne : lines ≠ []) (hlines : ∀ line ∈ lines, IsLine line)
    (hfilled : ∀ line ∈ lines, line ≠ []) (legacy : Bool) {p : PatchLinesParser}
    (hread : lines.foldlM (fun (q : PatchLinesParser) line => q.next legacy line) {} = .ok p)
    (hverified : ∀ file ∈ p.commitFilePatch.result, ∀ hunk ∈ file.hunks, hunk.verifyIntegrity = true) :
    parse (lines.flatMap (· ++ [10])) legacy = .ok p.commitFilePatch.result := by
  obtain ⟨init, last, rfl⟩ := List.eq_nil_or_concat lines |>.resolve_left hne
  rw [List.concat_eq_append] at hlines hfilled hread ⊢
  have htext : (init ++ [last]).flatMap (· ++ [10]) = (init.flatMap (· ++ [10]) ++ last) ++ [10] := by
    rw [List.flatMap_append, List.flatMap_singleton, List.append_assoc]
  have hsplit := scalarSplit_lines (fun line hline => hlines line (List.mem_append_left _ hline))
    (hlines last (by simp))
  have hfile : init.flatMap (· ++ [10]) ++ last ≠ [] := by
    intro h
    exact hfilled last (by simp) (List.append_eq_nil_iff.mp h).2
  have hall : (p.commitFilePatch.result.all fun file => file.hunks.all Hunk.verifyIntegrity) = true := by
    rw [List.all_eq_true]
    exact fun file hf => List.all_eq_true.mpr (hverified file hf)
  rw [parse, htext, List.getLast?_concat, if_pos rfl, List.dropLast_concat, if_neg hfile, hsplit, hread]
  exact if_pos hall

/-! ## Trimming -/

theorem trimLeft_eq_self (h : ∀ c ∈ s.head?, c ∉ chars) : trimLeft s chars = s := by
  cases s with
  | nil => rfl
  | cons c s =>
    have hc := h c rfl
    rw [trimLeft, List.dropWhile_cons, if_neg]
    rw [List.contains_iff_mem]
    exact hc

theorem trimRight_append (h : ∀ c ∈ s.getLast?, c ∉ chars) (htail : ∀ c ∈ tail, c ∈ chars) :
    trimRight (s ++ tail) chars = s := by
  have htail' : ∀ c ∈ tail.reverse, chars.contains c = true := fun c hc =>
    List.contains_iff_mem.mpr (htail c (List.mem_reverse.mp hc))
  have hs : trimLeft s.reverse chars = s.reverse := trimLeft_eq_self (by rwa [List.head?_reverse])
  rw [trimLeft] at hs
  rw [trimRight, List.reverse_append, List.dropWhile_append_of_pos htail', hs, List.reverse_reverse]

theorem trimRight_eq_self (h : ∀ c ∈ s.getLast?, c ∉ chars) : trimRight s chars = s := by
  have hself := @trimRight_append _ _ [] h (by simp)
  rwa [List.append_nil] at hself

/-- What is trimmed is behind `s`. -/
theorem exists_trimRight_append (h : ∀ c ∈ s.getLast?, c ∉ chars) (tail : Bytes) :
    ∃ tail', trimRight (s ++ tail) chars = s ++ tail' := by
  rw [trimRight, List.reverse_append, List.dropWhile_append]
  split
  · refine ⟨[], ?_⟩
    rw [List.append_nil]
    exact trimRight_eq_self h
  · exact ⟨_, by rw [List.reverse_append, List.reverse_reverse]⟩

theorem FilePath.trim_bytes (path : FilePath) (htail : ∀ c ∈ tail, c ∈ whitespace) :
    trim (path.bytes ++ tail) whitespace = path.bytes := by
  have hhead : ∀ c ∈ (path.bytes ++ tail).head?, c ∉ whitespace := by
    rw [List.head?_append_of_ne_nil _ path.ne_nil]
    exact path.head_not_whitespace
  rw [trim, trimLeft_eq_self hhead, trimRight_append path.last_not_whitespace htail]

/-! ## The header of a hunk -/

theorem parseDecimal_decimal {n : Nat} (hn : n < 2 ^ 32) : parseDecimal (decimal n) = some n := by
  have hdigits := decimal_digits n
  have hparse : Semver.parseWithSign 10 (decimal n) = some n := by
    have hn' : n < 2 ^ 64 := hn.trans (by decide)
    have hascii := Semver.parseAscii_decimal hn'
    rw [Semver.parseAscii] at hascii
    split at hascii
    · rename_i m hm
      split at hascii
      · rw [hm, hascii]
      · exact absurd hascii (by simp)
    · exact absurd hascii (by simp)
  cases hd : decimal n with
  | nil => exact absurd hd (decimal_ne_nil n)
  | cons c rest =>
    rw [hd] at hdigits hparse
    have hc := isDigit_iff.1 (hdigits c List.mem_cons_self)
    have hminus : c ≠ 45 := by
      rintro rfl
      exact absurd hc (by decide)
    have hplus : c ≠ 43 := by
      rintro rfl
      exact absurd hc (by decide)
    rw [parseDecimal, parseInt, if_neg (not_or.mpr ⟨hplus, hminus⟩), hparse, Option.filter_some]
    simpa [hminus] using hn

/-- A range is read; a blank is behind it. -/
theorem parseHunkHeaderLineImpl_range (hstart : start < 2 ^ 32) (hlen : len < 2 ^ 32)
    (hrest : rest ≠ []) :
    parseHunkHeaderLineImpl (rangeText start len ++ 32 :: rest) = .ok ⟨max 1 start, len, 32 :: rest⟩ := by
  have htake : ∀ (n : Nat) (c : UInt8) (tail : Bytes), isDigit c = false →
      (decimal n ++ c :: tail).takeWhile isDigit = decimal n ∧
        (decimal n ++ c :: tail).dropWhile isDigit = c :: tail := fun n c tail hc => by
    rw [List.takeWhile_append_of_pos (decimal_digits n), List.dropWhile_append_of_pos (decimal_digits n),
      List.takeWhile_cons, List.dropWhile_cons, hc]
    simp
  by_cases hone : len = 1
  · obtain ⟨htake, hdrop⟩ := htake start 32 rest (by decide)
    obtain ⟨c, rest, rfl⟩ := List.exists_cons_of_ne_nil hrest
    have hcount : parseDecimal (ascii "1") = some 1 := by decide
    rw [rangeText, if_pos hone, List.append_nil, parseHunkHeaderLineImpl, htake, hdrop]
    dsimp only
    rw [if_pos rfl, parseDecimal_decimal hstart, hcount, hone]
  · obtain ⟨htake₁, hdrop₁⟩ := htake start 44 (decimal len ++ 32 :: rest) (by decide)
    obtain ⟨htake₂, hdrop₂⟩ := htake len 32 rest (by decide)
    have htext : rangeText start len ++ 32 :: rest = decimal start ++ 44 :: (decimal len ++ 32 :: rest) := by
      rw [rangeText, if_neg hone, List.append_assoc, List.append_assoc]
      rfl
    obtain ⟨d, ds, hd⟩ := List.exists_cons_of_ne_nil (decimal_ne_nil len)
    rw [htext, parseHunkHeaderLineImpl, htake₁, hdrop₁]
    rw [hd] at htake₂ hdrop₂ ⊢
    dsimp only [List.cons_append]
    rw [if_neg (by decide), if_pos rfl, ← List.cons_append, hdrop₂, htake₂, ← hd, parseDecimal_decimal hstart,
      parseDecimal_decimal hlen]
    rfl

/-- The header that git wrote. -/
def GitHunk.header (h : GitHunk) : Header where
  original := ⟨max 1 h.originalStart, (bodyCounts h.body).1⟩
  patched := ⟨max 1 h.patchedStart, (bodyCounts h.body).2⟩

/-- A line with two ranges that are read. -/
theorem parseHunkHeaderLine_of_ranges {text heading : Bytes} {start' len' : Nat}
    (htrim : trim line whitespace = 64 :: 64 :: 32 :: 45 :: text) (hne : text ≠ [])
    (hfirst : parseHunkHeaderLineImpl text = .ok ⟨start, len, 32 :: 43 :: rest⟩)
    (hsecond : parseHunkHeaderLineImpl rest = .ok ⟨start', len', 32 :: 64 :: 64 :: heading⟩) :
    parseHunkHeaderLine line = .ok ⟨⟨start, len⟩, ⟨start', len'⟩⟩ := by
  rw [parseHunkHeaderLine, htrim]
  change (if _ = [] then _ else (parseHunkHeaderLineImpl _ >>= _)) = _
  rw [if_neg hne, hfirst]
  change (parseHunkHeaderLineImpl _ >>= _) = _
  rw [hsecond]
  rfl

theorem parseHunkHeaderLine_headerLine (h : GitHunk) : parseHunkHeaderLine h.headerLine = .ok h.header := by
  have hbound : (2 : Nat) ^ 30 < 2 ^ 32 := by decide
  have hopening : ascii "@@ -" = [64, 64, 32, 45] := by decide
  have hmiddle : ascii " +" = [32, 43] := by decide
  have hclosing : ascii " @@" = [32, 64, 64] := by decide
  let ranges := ascii "@@ -" ++ (rangeText h.originalStart (bodyCounts h.body).1 ++ (ascii " +" ++
    rangeText h.patchedStart (bodyCounts h.body).2)) ++ ascii " @@"
  have hline : h.headerLine = ranges ++ h.heading := by
    simp only [GitHunk.headerLine, ranges, List.append_assoc]
  have hhead : ∀ c ∈ h.headerLine.head?, c ∉ whitespace := by
    intro c hc
    rw [GitHunk.headerLine, hopening] at hc
    obtain rfl : (64 : UInt8) = c := Option.some.inj hc
    decide
  have hlast : ∀ c ∈ ranges.getLast?, c ∉ whitespace := by
    intro c hc
    rw [List.getLast?_append_of_ne_nil _ (by rw [hclosing]; exact List.cons_ne_nil _ _), hclosing] at hc
    obtain rfl : (64 : UInt8) = c := Option.some.inj hc
    decide
  obtain ⟨heading, hheading⟩ := exists_trimRight_append hlast h.heading
  have htrim : trim h.headerLine whitespace = 64 :: 64 :: 32 :: 45 ::
      (rangeText h.originalStart (bodyCounts h.body).1 ++ 32 :: 43 ::
        (rangeText h.patchedStart (bodyCounts h.body).2 ++ 32 :: 64 :: 64 :: heading)) := by
    rw [trim, trimLeft_eq_self hhead, hline, hheading]
    simp only [ranges, hopening, hmiddle, hclosing, List.append_assoc, List.cons_append, List.nil_append]
  have hfirst := parseHunkHeaderLineImpl_range (h.originalStart_lt.trans hbound) (h.original_lt.trans hbound)
    (List.cons_ne_nil 43 (rangeText h.patchedStart (bodyCounts h.body).2 ++ 32 :: 64 :: 64 :: heading))
  have hsecond := parseHunkHeaderLineImpl_range (h.patchedStart_lt.trans hbound) (h.patched_lt.trans hbound)
    (List.cons_ne_nil 64 (64 :: heading))
  have hne : rangeText h.originalStart (bodyCounts h.body).1 ++ 32 :: 43 ::
      (rangeText h.patchedStart (bodyCounts h.body).2 ++ 32 :: 64 :: 64 :: heading) ≠ [] :=
    List.append_ne_nil_of_right_ne_nil _ (List.cons_ne_nil _ _)
  exact parseHunkHeaderLine_of_ranges htrim hne hfirst hsecond

end OhosBun.Patch
