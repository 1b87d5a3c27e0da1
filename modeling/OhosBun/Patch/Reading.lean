/-
# `OhosBun.Patch.Reading` — a file of a patch is read

The lines of a file are read to the details of one file more (`GitFile.read`): its header
(`read_headerLines`), then hunk after hunk (`read_hunk`), line after line (`read_line`).
-/
import Mathlib.Algebra.Group.Prod
import OhosBun.Patch.DiffLine

namespace OhosBun.Patch

open OhosBun.Lib

/-- Lines are read. -/
def PatchLinesParser.read (p : PatchLinesParser) (lines : List Bytes) : Except ParseErr PatchLinesParser :=
  lines.foldlM (fun q line => q.next false line) p

section Read
variable {p q r : PatchLinesParser} {lines lines' : List Bytes}

theorem read_cons {line : Bytes} (h : p.next false line = .ok q) (hread : q.read lines = .ok r) :
    p.read (line :: lines) = .ok r := by
  rw [PatchLinesParser.read, List.foldlM_cons, h]
  exact hread

theorem read_append (h : p.read lines = .ok q) (hread : q.read lines' = .ok r) :
    p.read (lines ++ lines') = .ok r := by
  rw [PatchLinesParser.read, List.foldlM_append]
  rw [PatchLinesParser.read] at h
  rw [h]
  exact hread

theorem next_of_stay {line : Bytes} (h : p.onLine false line = .ok (q, false)) : p.next false line = .ok q := by
  rw [PatchLinesParser.next, h]
  rfl

theorem next_of_back {line : Bytes} {back : Bool} (h : p.onLine false line = .ok (q, true))
    (hagain : q.onLine false line = .ok (r, back)) : p.next false line = .ok r := by
  rw [PatchLinesParser.next, h]
  change (q.onLine false line >>= _) = _
  rw [hagain]
  rfl

end Read

/-! ## The header -/

theorem markerOf_text (m : Marker) (x : Bytes) : markerOf (m.text ++ x) = some m := by
  have hall : ∀ m : Marker, m ∈ Marker.all := fun m => by cases m <;> decide
  have hapart : ∀ m ∈ Marker.all, ∀ m' ∈ Marker.all, m'.text <+: m.text → m' = m := by decide
  have hpre : m.text.isPrefixOf (m.text ++ x) = true :=
    List.isPrefixOf_iff_prefix.mpr (List.prefix_append _ _)
  obtain ⟨m', hm'⟩ : ∃ m', markerOf (m.text ++ x) = some m' := by
    rw [← Option.isSome_iff_exists, markerOf, List.find?_isSome]
    exact ⟨m, hall m, hpre⟩
  have hstarts := List.isPrefixOf_iff_prefix.mp
    (List.find?_some (p := fun k : Marker => k.text.isPrefixOf (m.text ++ x)) hm')
  rw [hm', Option.some_inj]
  rcases List.prefix_or_prefix_of_prefix hstarts (List.prefix_append m.text x) with h | h
  · exact hapart m (hall m) m' (hall m') h
  · exact (hapart m' (hall m') m (hall m) h).symm

/-- What the header says about a file, its hunks apart. -/
structure GitFile.Said (f : GitFile) (before after : Bytes) (cur : FileDeets) : Prop where
  diffLineFromPath : cur.diffLineFromPath = some before
  diffLineToPath : cur.diffLineToPath = some after
  modes : (cur.oldMode, cur.newMode, cur.deletedFileMode, cur.newFileMode) =
    match f.what with
    | .creation mode => (none, none, none, some mode.text)
    | .deletion mode => (none, none, some mode.text, none)
    | .change (some (oldMode, newMode)) => (some oldMode.text, some newMode.text, none, none)
    | .change none => (none, none, none, none)
  renameFrom : cur.renameFrom = none
  toPath : ∀ modes, f.what = .change modes → cur.toPath = some f.path.bytes

section Header
variable {f : GitFile} {before after : Bytes} {result : List FileDeets} {cur : FileDeets}

/-- A parser in a header. -/
def inHeader (result : List FileDeets) (cur : FileDeets) : PatchLinesParser :=
  { result := result, currentFilePatch := cur }

theorem FileMode.trim_text (mode : FileMode) : trim mode.text whitespace = mode.text := by
  cases mode <;> decide

theorem FileMode.text_ne_nil (mode : FileMode) : mode.text ≠ [] := by
  cases mode <;> decide

theorem next_found {line : Bytes} {cur' : FileDeets}
    (h : (inHeader result cur).onHeaderLine line = .ok (inHeader result cur', false)) :
    (inHeader result cur).next false line = .ok (inHeader result cur') := next_of_stay h

/-- The details with a mode. -/
def FileDeets.withMode (cur : FileDeets) (mode : FileMode) : Marker → FileDeets
  | .oldMode => { cur with oldMode := some mode.text }
  | .newMode => { cur with newMode := some mode.text }
  | .deletedFileMode => { cur with deletedFileMode := some mode.text }
  | .newFileMode => { cur with newFileMode := some mode.text }
  | _ => cur

theorem next_mode {m : Marker} (hm : m ∈ [Marker.oldMode, .newMode, .deletedFileMode, .newFileMode])
    (mode : FileMode) : (inHeader result cur).next false (m.text ++ mode.text) =
      .ok (inHeader result (cur.withMode mode m)) := by
  refine next_found ?_
  rw [PatchLinesParser.onHeaderLine, markerOf_text]
  simp only [List.mem_cons, List.not_mem_nil, or_false] at hm
  rcases hm with rfl | rfl | rfl | rfl <;> dsimp only <;> rw [List.drop_left, mode.trim_text] <;> rfl

theorem next_index (text : Bytes) : ∃ beforeHash afterHash,
    (inHeader result cur).next false (Marker.index.text ++ text) =
      .ok (inHeader result { cur with beforeHash := beforeHash, afterHash := afterHash }) := by
  cases hhashes : parseDiffHashes text with
  | none =>
    refine ⟨cur.beforeHash, cur.afterHash, next_found ?_⟩
    rw [PatchLinesParser.onHeaderLine, markerOf_text]
    dsimp only
    rw [List.drop_left, hhashes]
  | some hashes =>
    refine ⟨some hashes.1, some hashes.2, next_found ?_⟩
    rw [PatchLinesParser.onHeaderLine, markerOf_text]
    dsimp only
    rw [List.drop_left, hhashes]
    rfl

theorem next_fromLine (f : GitFile) : ∃ fromPath,
    (inHeader result cur).next false f.fromLine = .ok (inHeader result { cur with fromPath := fromPath }) := by
  refine ⟨some (trim (f.fromLine.drop 6) whitespace), next_found ?_⟩
  rw [GitFile.fromLine, PatchLinesParser.onHeaderLine, markerOf_text]
  rfl

theorem next_toLine (f : GitFile) : ∃ toPath,
    (inHeader result cur).next false f.toLine = .ok (inHeader result { cur with toPath := toPath }) ∧
      ∀ modes, f.what = .change modes → toPath = some f.path.bytes := by
  refine ⟨some (trim (f.toLine.drop 6) whitespace), next_found ?_, fun modes hmodes => ?_⟩
  · rw [GitFile.toLine, PatchLinesParser.onHeaderLine, markerOf_text]
    rfl
  · have hname : f.toLine.drop 6 = f.path.bytes ++ if f.tab then [9] else [] := by
      have hopening : Marker.toPath.text ++ ascii "b/" = [43, 43, 43, 32, 98, 47] := by decide
      rw [GitFile.toLine, hmodes, GitFile.nameText, if_neg Bool.false_ne_true, ← List.append_assoc, hopening]
      rfl
    rw [hname, f.path.trim_bytes]
    intro c hc
    split at hc
    · obtain rfl := List.mem_singleton.mp hc
      decide
    · exact absurd hc List.not_mem_nil

/-- The lines between the two names and the hunks. -/
theorem read_headerRest (f : GitFile) (hcur : cur = { diffLineFromPath := some before, diffLineToPath := some after }) :
    ∃ cur', (inHeader result cur).read
        (f.what.modeLines ++ (f.index.toList.map (Marker.index.text ++ ·) ++ [f.fromLine, f.toLine])) =
          .ok (inHeader result cur') ∧ f.Said before after cur' := by
  subst hcur
  obtain ⟨cur₁, hread₁, hmodes, hpaths⟩ : ∃ cur₁ : FileDeets,
      (inHeader result { diffLineFromPath := some before, diffLineToPath := some after }).read f.what.modeLines =
        .ok (inHeader result cur₁) ∧
      (cur₁.oldMode, cur₁.newMode, cur₁.deletedFileMode, cur₁.newFileMode) =
        (match f.what with
        | .creation mode => (none, none, none, some mode.text)
        | .deletion mode => (none, none, some mode.text, none)
        | .change (some (oldMode, newMode)) => (some oldMode.text, some newMode.text, none, none)
        | .change none => (none, none, none, none)) ∧
      (cur₁.diffLineFromPath, cur₁.diffLineToPath, cur₁.renameFrom) = (some before, some after, none) := by
    cases f.what with
    | creation mode =>
      exact ⟨_, read_cons (next_mode (m := .newFileMode) (by decide) mode) rfl, rfl, rfl⟩
    | deletion mode =>
      exact ⟨_, read_cons (next_mode (m := .deletedFileMode) (by decide) mode) rfl, rfl, rfl⟩
    | change modes =>
      cases modes with
      | none => exact ⟨_, rfl, rfl, rfl⟩
      | some modes =>
        exact ⟨_, read_cons (next_mode (m := .oldMode) (by decide) modes.1)
          (read_cons (next_mode (m := .newMode) (by decide) modes.2) rfl), rfl, rfl⟩
  obtain ⟨beforeHash, afterHash, hread₂⟩ : ∃ beforeHash afterHash,
      (inHeader result cur₁).read (f.index.toList.map (Marker.index.text ++ ·)) =
        .ok (inHeader result { cur₁ with beforeHash := beforeHash, afterHash := afterHash }) := by
    cases f.index with
    | none => exact ⟨cur₁.beforeHash, cur₁.afterHash, rfl⟩
    | some text =>
      obtain ⟨beforeHash, afterHash, hnext⟩ := next_index text
      exact ⟨beforeHash, afterHash, read_cons hnext rfl⟩
  obtain ⟨fromPath, hfrom⟩ := next_fromLine
    f
  obtain ⟨toPath, hto, hchange⟩ := next_toLine
    f
  refine ⟨_, read_append hread₁ (read_append hread₂ (read_cons hfrom (read_cons hto rfl))), ?_⟩
  exact ⟨congrArg (·.1) hpaths, congrArg (·.2.1) hpaths, hmodes, congrArg (·.2.2) hpaths, hchange⟩

end Header

/-! ## The hunks -/

/-- Between two hunks, once the last one is committed. -/
def betweenHunks (result : List FileDeets) (cur : FileDeets) (hunks : List Hunk) : PatchLinesParser :=
  { result := result, currentFilePatch := { cur with hunks := hunks }, state := .parsingHunks }

/-- A hunk is read: its lines up to here are `counts` of the original and of the patched file. -/
structure InHunk (result : List FileDeets) (cur : FileDeets) (hunks : List Hunk) (header : Header)
    (counts : Nat × Nat) (p : PatchLinesParser) : Prop where
  exists_parts : ∃ parts part, lineCounts (parts ++ part.toList) = counts ∧
    p = { betweenHunks result cur hunks with
      currentHunk := some ⟨header, parts⟩
      currentHunkMutationPart := part }

section Hunks
variable {result : List FileDeets} {cur : FileDeets} {hunks : List Hunk} {header : Header} {counts : Nat × Nat}
  {p : PatchLinesParser}

/-- How many lines of the original and of the patched file `n` lines are. -/
def PartType.countsOf (ty : PartType) (n : Nat) : Nat × Nat :=
  match ty with
  | context => (n, n)
  | insertion => (0, n)
  | deletion => (n, 0)

theorem lineCounts_concat (parts : List PatchMutationPart) (part : PatchMutationPart) :
    lineCounts (parts ++ [part]) = lineCounts parts + part.ty.countsOf part.lines.length := by
  rw [lineCounts, List.foldl_append, ← lineCounts]
  obtain ⟨ty, lines, noNewline⟩ := part
  cases ty <;> rfl

theorem next_pushLine {hunk : Hunk} (hstate : p.state = .parsingHunks) (hhunk : p.currentHunk = some hunk)
    (ty : PartType) (text : Bytes) : p.next false (ty.sign :: text) = .ok (p.pushLine hunk ty text) := by
  refine next_of_stay ?_
  cases p
  cases hstate
  cases hhunk
  cases ty <;> rfl

/-- A line of a hunk is pushed. -/
theorem InHunk.push (h : InHunk result cur hunks header counts p) (ty : PartType) (text : Bytes) :
    ∃ q, p.next false (ty.sign :: text) = .ok q ∧ InHunk result cur hunks header (counts + ty.counts) q ∧
      q.currentHunkMutationPart.isSome = true := by
  obtain ⟨parts, part, rfl, rfl⟩ := h.exists_parts
  refine ⟨_, next_pushLine rfl rfl ty text, ?_⟩
  have hone : ty.countsOf 1 = ty.counts := by cases ty <;> rfl
  cases part with
  | none =>
    refine ⟨⟨parts, some { ty := ty, lines := [text] }, ?_, rfl⟩, rfl⟩
    rw [Option.toList_some, lineCounts_concat, ← hone, Option.toList_none, List.append_nil]
    rfl
  | some part =>
    rw [PatchLinesParser.pushLine]
    dsimp only
    split
    · rename_i hty
      refine ⟨⟨parts, some { part with lines := part.lines ++ [text] }, ?_, rfl⟩, rfl⟩
      have hsucc : ty.countsOf (part.lines.length + 1) = ty.countsOf part.lines.length + ty.counts := by
        cases ty <;> rfl
      rw [Option.toList_some, lineCounts_concat, Option.toList_some, lineCounts_concat, List.length_append,
        hty, add_assoc, ← hsucc]
      rfl
    · refine ⟨⟨parts ++ [part], some { ty := ty, lines := [text] }, ?_, rfl⟩, rfl⟩
      rw [Option.toList_some, lineCounts_concat, ← hone]
      rfl

theorem next_pragma (h : InHunk result cur hunks header counts p)
    (hpart : p.currentHunkMutationPart.isSome = true) :
    ∃ q, p.next false (ascii "\\ No newline at end of file") = .ok q ∧
      InHunk result cur hunks header counts q := by
  obtain ⟨parts, part, rfl, rfl⟩ := h.exists_parts
  obtain ⟨part, rfl⟩ := Option.isSome_iff_exists.mp hpart
  have hline : ascii "\\ No newline at end of file" = 92 :: (ascii "\\ No newline at end of file").tail := by
    decide
  refine ⟨{ betweenHunks result cur hunks with
    currentHunk := some ⟨header, parts⟩
    currentHunkMutationPart := some { part with noNewlineAtEndOfFile := true } }, next_of_stay ?_,
    ⟨parts, some { part with noNewlineAtEndOfFile := true }, ?_, rfl⟩⟩
  · have hpre : (ascii "\\ No newline at end of file").isPrefixOf (ascii "\\ No newline at end of file") = true :=
      List.isPrefixOf_iff_prefix.mpr (List.prefix_refl _)
    have htype : hunkLineType (ascii "\\ No newline at end of file") = some .pragma := by
      rw [hline]
      rfl
    rw [PatchLinesParser.onLine]
    change PatchLinesParser.onHunkLine _ _ _ = _
    rw [PatchLinesParser.onHunkLine, Bool.false_and, if_neg Bool.false_ne_true, htype]
    dsimp only
    rw [hpre]
    rfl
  · rw [Option.toList_some, lineCounts_concat, Option.toList_some, lineCounts_concat]

/-- A line of a hunk, and the pragma behind it. -/
theorem InHunk.read_line (h : InHunk result cur hunks header counts p) (l : GitLine) :
    ∃ q, p.read l.lines = .ok q ∧ InHunk result cur hunks header (counts + l.ty.counts) q := by
  obtain ⟨q, hnext, hq, hpart⟩ := h.push l.ty l.text
  rw [GitLine.lines]
  split
  · obtain ⟨r, hpragma, hr⟩ := next_pragma hq hpart
    exact ⟨r, read_cons hnext (read_cons hpragma rfl), hr⟩
  · exact ⟨q, read_cons hnext rfl, hq⟩

theorem InHunk.read_body (h : InHunk result cur hunks header counts p) (body : List GitLine) :
    ∃ q, p.read (body.flatMap GitLine.lines) = .ok q ∧
      InHunk result cur hunks header (counts + bodyCounts body) q := by
  induction body generalizing counts p with
  | nil => exact ⟨p, rfl, by rwa [bodyCounts, List.map_nil, List.sum_nil, add_zero]⟩
  | cons l body ih =>
    obtain ⟨q, hline, hq⟩ := h.read_line l
    obtain ⟨r, hbody, hr⟩ := ih hq
    refine ⟨r, read_append hline hbody, ?_⟩
    rwa [bodyCounts, List.map_cons, List.sum_cons, ← add_assoc]

/-- A hunk that was read is committed. -/
theorem InHunk.commitHunk (h : InHunk result cur hunks header counts p)
    (hcounts : counts = (header.original.len, header.patched.len)) :
    ∃ hunk : Hunk, hunk.verifyIntegrity = true ∧ p.state = .parsingHunks ∧
      p.commitHunk = betweenHunks result cur (hunks ++ [hunk]) := by
  obtain ⟨parts, part, rfl, rfl⟩ := h.exists_parts
  exact ⟨⟨header, parts ++ part.toList⟩, decide_eq_true hcounts, rfl, rfl⟩

theorem headerLine_marked (h : GitHunk) : ∃ x, h.headerLine = Marker.hunk.text ++ x := by
  have hopening : ascii "@@ -" = Marker.hunk.text ++ ascii " -" := by decide
  exact ⟨_, by rw [GitHunk.headerLine, hopening, List.append_assoc]⟩

/-- The header of a hunk ends the hunk before it. -/
theorem onLine_headerLine (hstate : p.state = .parsingHunks) (hcommit : p.commitHunk = betweenHunks result cur hunks)
    (h : GitHunk) : ∃ q, p.onLine false h.headerLine = .ok (q, false) ∧
      InHunk result cur hunks h.header 0 q := by
  have htype : hunkLineType h.headerLine = some .header := by
    have hopening : Marker.hunk.text = [64, 64] := by decide
    obtain ⟨x, hx⟩ := headerLine_marked h
    rw [hx, hopening]
    rfl
  refine ⟨{ betweenHunks result cur hunks with currentHunk := some { header := h.header } }, ?_, ⟨[], none, rfl, rfl⟩⟩
  rw [PatchLinesParser.onLine, hstate]
  dsimp only
  rw [PatchLinesParser.onHunkLine, Bool.false_and, if_neg Bool.false_ne_true, htype]
  dsimp only
  rw [parseHunkHeaderLine_headerLine, hcommit]
  rfl

theorem counts_header (h : GitHunk) :
    0 + bodyCounts h.body = (h.header.original.len, h.header.patched.len) := zero_add _

theorem read_hunk (hstate : p.state = .parsingHunks) (hcommit : p.commitHunk = betweenHunks result cur hunks)
    (h : GitHunk) : ∃ q hunk, p.read h.lines = .ok q ∧ hunk.verifyIntegrity = true ∧ q.state = .parsingHunks ∧
      q.commitHunk = betweenHunks result cur (hunks ++ [hunk]) := by
  obtain ⟨q, hline, hq⟩ := onLine_headerLine hstate hcommit h
  obtain ⟨r, hbody, hr⟩ := hq.read_body h.body
  obtain ⟨hunk, hunkOk, hstate', hcommit'⟩ := hr.commitHunk (counts_header h)
  exact ⟨r, hunk, read_cons (next_of_stay hline) hbody, hunkOk, hstate', hcommit'⟩

theorem read_hunks (hstate : p.state = .parsingHunks) (hcommit : p.commitHunk = betweenHunks result cur hunks)
    (hverified : ∀ hunk ∈ hunks, hunk.verifyIntegrity = true) (hs : List GitHunk) :
    ∃ q hunks', p.read (hs.flatMap GitHunk.lines) = .ok q ∧ hunks'.length = hunks.length + hs.length ∧
      (∀ hunk ∈ hunks', hunk.verifyIntegrity = true) ∧ q.state = .parsingHunks ∧
        q.commitHunk = betweenHunks result cur hunks' := by
  induction hs generalizing p hunks with
  | nil => exact ⟨p, hunks, rfl, rfl, hverified, hstate, hcommit⟩
  | cons h hs ih =>
    obtain ⟨q, hunk, hread, hunkOk, hstate', hcommit'⟩ := read_hunk hstate hcommit h
    have hverified' : ∀ k ∈ hunks ++ [hunk], k.verifyIntegrity = true := by
      intro k hk
      rcases List.mem_append.mp hk with hk | hk
      · exact hverified k hk
      · rwa [List.mem_singleton.mp hk]
    obtain ⟨r, hunks', hrest, hlength, hverified'', hstate'', hcommit''⟩ := ih hstate' hcommit' hverified'
    refine ⟨r, hunks', read_append hread hrest, ?_, hverified'', hstate'', hcommit''⟩
    rw [hlength]
    simp only [List.length_append, List.length_cons, List.length_nil]
    omega

/-- The first header ends the header of the file. -/
theorem next_firstHeaderLine (h : GitHunk) : ∃ q, (inHeader result cur).next false h.headerLine = .ok q ∧
    InHunk result cur [] h.header 0 q := by
  obtain ⟨q, hline, hq⟩ := onLine_headerLine (p := betweenHunks result cur []) rfl rfl h
  refine ⟨q, next_of_back (q := betweenHunks result cur []) ?_ hline, hq⟩
  obtain ⟨x, hx⟩ := headerLine_marked h
  rw [hx, PatchLinesParser.onLine]
  change PatchLinesParser.onHeaderLine _ _ = _
  rw [PatchLinesParser.onHeaderLine, markerOf_text]
  rfl

/-- The hunks behind the header of a file. -/
theorem read_fileHunks {hs : List GitHunk} (hne : hs ≠ []) :
    ∃ q hunks', (inHeader result cur).read (hs.flatMap GitHunk.lines) = .ok q ∧ hunks' ≠ [] ∧
      (∀ hunk ∈ hunks', hunk.verifyIntegrity = true) ∧ q.state = .parsingHunks ∧
        q.commitHunk = betweenHunks result cur hunks' := by
  obtain ⟨h, hs, rfl⟩ := List.exists_cons_of_ne_nil hne
  obtain ⟨q, hline, hq⟩ := next_firstHeaderLine h
  obtain ⟨r, hbody, hr⟩ := hq.read_body h.body
  obtain ⟨hunk, hunkOk, hstate, hcommit⟩ := hr.commitHunk (counts_header h)
  have hverified : ∀ k ∈ ([] ++ [hunk] : List Hunk), k.verifyIntegrity = true := by
    intro k hk
    rwa [List.mem_singleton.mp hk]
  obtain ⟨t, hunks', hrest, hlength, hverified', hstate', hcommit'⟩ := read_hunks hstate hcommit hverified hs
  refine ⟨t, hunks', read_append (read_cons hline hbody) hrest, ?_, hverified', hstate', hcommit'⟩
  exact List.ne_nil_of_length_pos (by rw [hlength, List.length_append]; exact Nat.lt_add_right _ (Nat.succ_pos _))

end Hunks

/-! ## The files -/

/-- The files that were read: the parser is new, or in the hunks of the last of them. -/
inductive Stands : List FileDeets → PatchLinesParser → Prop where
  | new : Stands [] {}
  | hunks {result : List FileDeets} {cur : FileDeets} {hunks : List Hunk} {p : PatchLinesParser}
      (hstate : p.state = .parsingHunks) (hcommit : p.commitHunk = betweenHunks result cur hunks) :
      Stands (result ++ [{ cur with hunks := hunks }.nullifyEmptyStrings]) p

section Files
variable {f : GitFile} {before after : Bytes} {files : List FileDeets} {p : PatchLinesParser}

theorem commitHunk_withState (p : PatchLinesParser) (state : ParserState) :
    { p with state := state }.commitHunk = { p.commitHunk with state := state } := by
  rcases p with ⟨_, _, _, _ | hunk, _⟩ <;> rfl

/-- The diff line ends the file before it. -/
theorem Stands.next_diffLine (h : Stands files p) (hborder : f.path.Border before after) :
    p.next false f.diffLine =
      .ok (inHeader files { diffLineFromPath := some before, diffLineToPath := some after }) := by
  have hopening : ascii "diff --git a/" = Marker.diff.text ++ ascii "a/" := by decide
  have hpaths := parseDiffLinePaths_diffLine hborder
  have hheader : (inHeader files {}).onLine false f.diffLine =
      .ok (inHeader files { diffLineFromPath := some before, diffLineToPath := some after }, false) := by
    rw [PatchLinesParser.onLine]
    change PatchLinesParser.onHeaderLine _ _ = _
    rw [PatchLinesParser.onHeaderLine, hpaths]
    rw [GitFile.diffLine, hopening, List.append_assoc, markerOf_text]
    rfl
  cases h with
  | new => exact next_of_stay hheader
  | @hunks result cur hunks p hstate hcommit =>
    refine next_of_back ?_ hheader
    have htype : hunkLineType f.diffLine = none := by
      have hd : ascii "diff --git a/" = 100 :: (ascii "diff --git a/").tail := by decide
      rw [GitFile.diffLine, hd]
      rfl
    rw [PatchLinesParser.onLine, hstate]
    dsimp only
    rw [PatchLinesParser.onHunkLine, Bool.false_and, if_neg Bool.false_ne_true, htype]
    dsimp only
    rw [PatchLinesParser.commitFilePatch, commitHunk_withState, hcommit]
    rfl

theorem nullify_some {x : Bytes} (h : x ≠ []) : nullify (some x) = some x := by
  rw [nullify, Option.filter_some, if_pos (decide_eq_true h)]

/-- Nothing that the header said is empty. -/
theorem GitFile.Said.nullify {cur : FileDeets} (h : f.Said before after cur) (hborder : f.path.Border before after)
    (hunks : List Hunk) : f.Said before after { cur with hunks := hunks }.nullifyEmptyStrings where
  diffLineFromPath := (congrArg Patch.nullify h.diffLineFromPath).trans (nullify_some hborder.before_ne_nil)
  diffLineToPath := (congrArg Patch.nullify h.diffLineToPath).trans (nullify_some hborder.after_ne_nil)
  modes := by
    have hmode := fun mode : FileMode => nullify_some mode.text_ne_nil
    refine (congrArg (fun m => (Patch.nullify m.1, Patch.nullify m.2.1, Patch.nullify m.2.2.1,
      Patch.nullify m.2.2.2)) h.modes).trans ?_
    rcases f.what with mode | mode | _ | ⟨oldMode, newMode⟩
    · exact congrArg (fun m => (none, none, none, m)) (hmode mode)
    · exact congrArg (fun m => (none, none, m, none)) (hmode mode)
    · rfl
    · exact congrArg₂ (fun m m' => (m, m', none, none)) (hmode oldMode) (hmode newMode)
  renameFrom := congrArg Patch.nullify h.renameFrom
  toPath modes hmodes := (congrArg Patch.nullify (h.toPath modes hmodes)).trans (nullify_some f.path.ne_nil)

/-- What is known of a file that was read. -/
structure GitFile.Read (f : GitFile) (before after : Bytes) (file : FileDeets) : Prop where
  said : f.Said before after file
  hunks_ne_nil : file.hunks ≠ []
  verified : ∀ hunk ∈ file.hunks, hunk.verifyIntegrity = true

theorem Stands.read_file (h : Stands files p) (hborder : f.path.Border before after) :
    ∃ q file, p.read f.lines = .ok q ∧ Stands (files ++ [file]) q ∧ f.Read before after file := by
  obtain ⟨cur, hheader, hsaid⟩ := read_headerRest f rfl
  obtain ⟨q, hunks, hhunks, hne, hverified, hstate, hcommit⟩ :=
    read_fileHunks f.hunks_ne_nil
  exact ⟨q, _, read_append (read_cons (h.next_diffLine hborder) hheader) hhunks, .hunks hstate hcommit,
    ⟨hsaid.nullify hborder hunks, hne, hverified⟩⟩

/-- The files of a patch are read. -/
theorem Stands.read_files (h : Stands files p) (patch : List GitFile) :
    ∃ q read, p.read (patchLines patch) = .ok q ∧ Stands (files ++ read) q ∧
      List.Forall₂ (fun f file => f.Read f.path.diffNames.1 f.path.diffNames.2 file) patch read := by
  induction patch generalizing files p with
  | nil => exact ⟨p, [], rfl, by rwa [List.append_nil], .nil⟩
  | cons f patch ih =>
    obtain ⟨q, file, hfile, hq, hread⟩ := h.read_file f.path.border_diffNames
    obtain ⟨r, read, hfiles, hr, hreads⟩ := ih hq
    refine ⟨r, file :: read, read_append hfile hfiles, ?_, .cons hread hreads⟩
    rwa [List.append_assoc] at hr

theorem Stands.commitFilePatch (h : Stands files p) (hne : files ≠ []) : p.commitFilePatch.result = files := by
  cases h with
  | new => exact absurd rfl hne
  | hunks hstate hcommit =>
    rw [PatchLinesParser.commitFilePatch, hcommit]
    rfl

end Files

end OhosBun.Patch
