/-
# `OhosBun.Patch.PatchNames` — the parts of a patch name its files

A file that is changed is named by its `+++` line; one that is created or deleted by the diff line, and
that is parted at the first ` b/`.
-/
import Mathlib.Data.List.Forall2
import OhosBun.Patch.Reading

namespace OhosBun.Patch

open OhosBun.Lib
open OhosBun.Semver (decimal isDigit decimal_digits decimal_induction decimal_of_lt decimal_snoc)

/-! ## What git writes are lines -/

theorem length_decimal_le (n : Nat) : (decimal n).length ≤ n / 2 + 1 := by
  induction n using decimal_induction with
  | hlast d hd =>
    rw [decimal_of_lt hd]
    exact Nat.le_add_left _ _
  | hsnoc n d hn hd ih =>
    rw [decimal_snoc hn hd, List.length_append, List.length_singleton]
    omega

theorem notMem_decimal (n : Nat) : 10 ∉ decimal n := fun h => absurd (decimal_digits n 10 h) (by decide)

theorem notMem_append {a b : Bytes} (ha : 10 ∉ a) (hb : 10 ∉ b) : 10 ∉ a ++ b :=
  fun h => (List.mem_append.mp h).elim ha hb

/-- Lines that are read as they are, and are not blank. -/
def AreLines (lines : List Bytes) : Prop := ∀ line ∈ lines, IsLine line ∧ line ≠ []

theorem AreLines.append {a b : List Bytes} (ha : AreLines a) (hb : AreLines b) : AreLines (a ++ b) :=
  fun line h => (List.mem_append.mp h).elim (ha line) (hb line)

theorem AreLines.cons {line : Bytes} {lines : List Bytes} (hline : 10 ∉ line) (hlt : line.length < 2 ^ 32)
    (hne : line ≠ []) (h : AreLines lines) : AreLines (line :: lines) :=
  List.forall_mem_cons.mpr ⟨⟨⟨hline, hlt⟩, hne⟩, h⟩

theorem areLines_nil : AreLines [] := fun _ h => absurd h (by simp)

theorem areLines_flatMap {α : Type} {items : List α} {lines : α → List Bytes} (h : ∀ x, AreLines (lines x)) :
    AreLines (items.flatMap lines) := by
  intro line hline
  obtain ⟨x, -, hx⟩ := List.mem_flatMap.mp hline
  exact h x line hx

theorem GitLine.areLines (l : GitLine) : AreLines l.lines := by
  have hlength := l.length_lt
  refine .cons (fun h => ?_) ?_ (List.cons_ne_nil _ _) ?_
  · rcases List.mem_cons.mp h with h | h
    · cases hty : l.ty <;> rw [hty] at h <;> exact absurd h (by decide)
    · exact l.no_line_end h
  · rw [List.length_cons]
    omega
  · split
    · exact .cons (by decide) (by decide) (by decide) areLines_nil
    · exact areLines_nil

theorem notMem_rangeText (start len : Nat) : 10 ∉ rangeText start len := by
  refine notMem_append (notMem_decimal start) ?_
  split
  · exact List.not_mem_nil
  · exact notMem_append (by decide) (notMem_decimal len)

theorem length_rangeText_le (start len : Nat) : (rangeText start len).length ≤ start / 2 + len / 2 + 3 := by
  have hstart := length_decimal_le start
  have hlen := length_decimal_le len
  rw [rangeText, List.length_append]
  split
  · rw [List.length_nil]
    omega
  · rw [List.length_append, List.length_singleton]
    omega

theorem GitHunk.areLines (h : GitHunk) : AreLines h.lines := by
  have hrange₁ := length_rangeText_le h.originalStart (bodyCounts h.body).1
  have hrange₂ := length_rangeText_le h.patchedStart (bodyCounts h.body).2
  have hbounds := And.intro (And.intro h.originalStart_lt h.patchedStart_lt) (And.intro h.original_lt h.patched_lt)
  have hheading := h.length_lt
  have hopening : ascii "@@ -" = [64, 64, 32, 45] := by decide
  have hmiddle : ascii " +" = [32, 43] := by decide
  have hclosing : ascii " @@" = [32, 64, 64] := by decide
  refine .cons ?_ ?_ ?_ (areLines_flatMap GitLine.areLines)
  · rw [headerLine, hopening, hmiddle, hclosing]
    exact notMem_append (by decide) (notMem_append (notMem_rangeText _ _) (notMem_append (by decide)
      (notMem_append (notMem_rangeText _ _) (notMem_append (by decide) h.no_line_end))))
  · rw [headerLine, hopening, hmiddle, hclosing]
    simp only [List.length_append, List.length_cons, List.length_nil]
    omega
  · rw [headerLine, hopening]
    exact List.cons_ne_nil _ _

/-- A marker is a short part of a line. -/
theorem Marker.plain (m : Marker) : 10 ∉ m.text ∧ m.text.length < 2 ^ 30 ∧ m.text ≠ [] := by
  cases m with
  | hunk | diff | oldMode | newMode | deletedFileMode | newFileMode | renameFrom | renameTo | index
  | fromPath | toPath =>
    rw [text, ascii_ofList]
    decide

theorem FileMode.plain (mode : FileMode) : 10 ∉ mode.text ∧ mode.text.length < 2 ^ 30 := by
  cases mode with
  | nonExecutable | executable =>
    rw [text, ascii_ofList]
    decide

theorem FileChange.areLines (what : FileChange) : AreLines what.modeLines := by
  have hline : ∀ (m : Marker) (mode : FileMode), IsLine (m.text ++ mode.text) ∧ m.text ++ mode.text ≠ [] := by
    intro m mode
    obtain ⟨hmarker, hmlength, hne⟩ := m.plain
    obtain ⟨hmode, hlength⟩ := mode.plain
    exact ⟨isLine_append hmarker hmode (by omega), List.append_ne_nil_of_left_ne_nil hne _⟩
  rcases what with mode | mode | _ | ⟨oldMode, newMode⟩
  · exact List.forall_mem_cons.mpr ⟨hline _ _, areLines_nil⟩
  · exact List.forall_mem_cons.mpr ⟨hline _ _, areLines_nil⟩
  · exact areLines_nil
  · exact List.forall_mem_cons.mpr ⟨hline _ _, List.forall_mem_cons.mpr ⟨hline _ _, areLines_nil⟩⟩

/-- A short marker, and a text. -/
theorem areLines_marked {opening text : Bytes} (hopening : 10 ∉ opening ∧ opening.length < 2 ^ 30 ∧ opening ≠ [])
    (htext : 10 ∉ text ∧ text.length < 2 ^ 31 + 2 ^ 30) : IsLine (opening ++ text) ∧ opening ++ text ≠ [] := by
  refine ⟨isLine_append hopening.1 htext.1 ?_, List.append_ne_nil_of_left_ne_nil hopening.2.2 _⟩
  have hlength := hopening.2.1
  have hlength' := htext.2
  omega

theorem GitFile.nameText_line (f : GitFile) {side : Bytes} (hside : 10 ∉ side ∧ side.length = 2) (gone : Bool) :
    10 ∉ f.nameText side gone ∧ (f.nameText side gone).length < 2 ^ 31 + 2 ^ 30 := by
  have hpath := f.path.length_lt
  rw [nameText]
  split
  · decide
  · refine ⟨notMem_append hside.1 (notMem_append f.path.no_line_end ?_), ?_⟩
    · split <;> decide
    · rw [List.length_append, List.length_append, hside.2]
      split
      · rw [List.length_singleton]
        omega
      · rw [List.length_nil]
        omega

theorem GitFile.areLines (f : GitFile) : AreLines f.lines := by
  have hpath := f.path.length_lt
  have hborder : 10 ∉ ascii " b/" ∧ (ascii " b/").length = 3 := by decide
  refine AreLines.append (List.forall_mem_cons.mpr ⟨?_, AreLines.append f.what.areLines (.append ?_ ?_)⟩)
    (areLines_flatMap GitHunk.areLines)
  · refine areLines_marked (by decide)
      ⟨notMem_append f.path.no_line_end (notMem_append hborder.1 f.path.no_line_end), ?_⟩
    rw [List.length_append, List.length_append, hborder.2]
    omega
  · intro line hline
    obtain ⟨text, htext, rfl⟩ := List.mem_map.mp hline
    have hlength := f.index_length_lt text (Option.mem_toList.mp htext)
    exact areLines_marked (Marker.plain .index)
      ⟨f.index_no_line_end text (Option.mem_toList.mp htext), hlength.trans (by decide)⟩
  · exact List.forall_mem_cons.mpr ⟨areLines_marked (Marker.plain .fromPath) (f.nameText_line (by decide) _),
      List.forall_mem_cons.mpr ⟨areLines_marked (Marker.plain .toPath) (f.nameText_line (by decide) _),
        areLines_nil⟩⟩

/-! ## The parts -/

theorem filled_some {x : Bytes} (h : x ≠ []) : filled (some x) = true := decide_eq_true h

theorem FileMode.parse_text (mode : FileMode) : parseFileMode mode.text = some mode := by
  cases mode with
  | nonExecutable | executable =>
    rw [text, ascii_ofList]
    decide

theorem FileMode.text_ne_iff (mode mode' : FileMode) : mode.text ≠ mode'.text ↔ mode ≠ mode' := by
  have hne : nonExecutable.text ≠ executable.text := by
    rw [text, text, ascii_ofList, ascii_ofList]
    decide
  cases mode with
  | nonExecutable =>
    cases mode' with
    | nonExecutable => exact iff_of_false (fun h => h rfl) fun h => h rfl
    | executable => exact iff_of_true hne (by simp)
  | executable =>
    cases mode' with
    | nonExecutable => exact iff_of_true hne.symm (by simp)
    | executable => exact iff_of_false (fun h => h rfl) fun h => h rfl

/-- The names that the parts of a file have. -/
def GitFile.namesRead (f : GitFile) : List Bytes :=
  match f.what with
  | .creation _ => [f.path.diffNames.2]
  | .deletion _ => [f.path.diffNames.1]
  | .change _ => f.names

theorem changeParts_names {file : FileDeets} {path : Bytes} (hhunks : file.hunks ≠ []) {modes : Option (FileMode × FileMode)}
    (hmodes : (file.oldMode, file.newMode) = (modes.map (·.1.text), modes.map (·.2.text))) :
    ∃ parts, changeParts file (some path) = .ok parts ∧
      parts.flatMap PatchFilePart.names = changeNames path modes := by
  have hold : file.oldMode = modes.map (·.1.text) := congrArg (·.1) hmodes
  have hnew : file.newMode = modes.map (·.2.text) := congrArg (·.2) hmodes
  obtain ⟨changed, hchanged, hnames⟩ : ∃ changed, modeChange file (some path) = .ok changed ∧
      changed.flatMap PatchFilePart.names ++ [path] = changeNames path modes := by
    unfold modeChange
    rw [hold, hnew]
    rcases modes with _ | ⟨oldMode, newMode⟩
    · exact ⟨_, rfl, rfl⟩
    · simp only [Option.map_some, oldMode.text_ne_iff newMode, changeNames]
      split
      · rw [oldMode.parse_text, newMode.parse_text]
        exact ⟨_, rfl, rfl⟩
      · exact ⟨_, rfl, rfl⟩
  rw [changeParts, hchanged]
  refine ⟨_, if_pos hhunks, ?_⟩
  rw [List.flatMap_append, ← hnames]
  rfl

theorem GitFile.Read.fileParts {f : GitFile} {file : FileDeets}
    (h : f.Read f.path.diffNames.1 f.path.diffNames.2 file) :
    ∃ parts, fileParts file = .ok parts ∧ parts.flatMap PatchFilePart.names = f.namesRead := by
  have hborder := f.path.border_diffNames
  have hsaid := h.said
  have hmodes := hsaid.modes
  rw [Patch.fileParts, hsaid.renameFrom, if_neg (by decide), hsaid.diffLineFromPath, hsaid.diffLineToPath,
    GitFile.namesRead]
  cases hwhat : f.what with
  | creation mode =>
    rw [hwhat] at hmodes
    have hdeleted : file.deletedFileMode = none := congrArg (·.2.2.1) hmodes
    have hnew : file.newFileMode = some mode.text := congrArg (·.2.2.2) hmodes
    rw [hdeleted, hnew, if_neg (by decide), if_pos (filled_some mode.text_ne_nil), Option.bind_some, mode.parse_text]
    exact ⟨_, rfl, rfl⟩
  | deletion mode =>
    rw [hwhat] at hmodes
    have hdeleted : file.deletedFileMode = some mode.text := congrArg (·.2.2.1) hmodes
    rw [hdeleted, if_pos (filled_some mode.text_ne_nil), Option.bind_some, mode.parse_text]
    exact ⟨_, rfl, rfl⟩
  | change modes =>
    rw [hwhat] at hmodes
    have hmodes' : (file.oldMode, file.newMode, file.deletedFileMode, file.newFileMode) =
        (modes.map (·.1.text), modes.map (·.2.text), none, none) := by
      rw [hmodes]
      cases modes <;> rfl
    have hdeleted : file.deletedFileMode = none := congrArg (·.2.2.1) hmodes'
    have hnew : file.newFileMode = none := congrArg (·.2.2.2) hmodes'
    have hpair : (file.oldMode, file.newMode) = (modes.map (·.1.text), modes.map (·.2.text)) :=
      congrArg (fun m => (m.1, m.2.1)) hmodes'
    obtain ⟨parts, hparts, hnames⟩ := changeParts_names h.hunks_ne_nil hpair
    rw [hdeleted, hnew, if_neg (by decide), hsaid.toPath modes hwhat]
    refine ⟨parts, hparts, ?_⟩
    rw [hnames, GitFile.names, hwhat]

theorem secondPass_names {patch : List GitFile} {files : List FileDeets}
    (h : List.Forall₂ (fun f file => f.Read f.path.diffNames.1 f.path.diffNames.2 file) patch files) :
    ∃ parts, files.mapM fileParts = .ok parts ∧
      parts.flatten.flatMap PatchFilePart.names = patch.flatMap GitFile.namesRead := by
  induction h with
  | nil => exact ⟨[], rfl, rfl⟩
  | @cons f file patch files hread _ ih =>
    obtain ⟨parts, hparts, hnames⟩ := hread.fileParts
    obtain ⟨rest, hrest, hrestNames⟩ := ih
    refine ⟨parts :: rest, ?_, ?_⟩
    · rw [List.mapM_cons, hparts, hrest]
      rfl
    · rw [List.flatten_cons, List.flatMap_append, hnames, hrestNames, List.flatMap_cons]

/-- The names of the parts of a patch. -/
theorem parsePatchFile_names (patch : List GitFile) : ∃ parts, parsePatchFile (patchText patch) = .ok parts ∧
    parts.flatMap PatchFilePart.names = patch.flatMap GitFile.namesRead := by
  cases patch with
  | nil => exact ⟨[], rfl, rfl⟩
  | cons f patch =>
    obtain ⟨p, files, hread, hstands, hfiles⟩ := Stands.new.read_files (f :: patch)
    have hne : files ≠ [] := by
      rintro rfl
      exact absurd hfiles.length_eq (by simp)
    have hresult := hstands.commitFilePatch hne
    rw [List.nil_append] at hresult
    have hlines := @areLines_flatMap _ (f :: patch) _ GitFile.areLines
    have hparse := @parse_lines (patchLines (f :: patch)) (List.cons_ne_nil _ _)
      (fun line hline => (hlines line hline).1) (fun line hline => (hlines line hline).2) false
      _ hread ?_
    · obtain ⟨parts, hparts, hnames⟩ := secondPass_names hfiles
      refine ⟨parts.flatten, ?_, hnames⟩
      rw [hresult] at hparse
      rw [parsePatchFile, patchText, hparse]
      dsimp only
      rw [patchFileSecondPass, hparts]
      rfl
    · rw [hresult]
      intro file hfile
      obtain ⟨i, hi, rfl⟩ := List.mem_iff_getElem.mp hfile
      exact (List.forall₂_iff_get.mp hfiles).2 i (by rwa [hfiles.length_eq]) hi |>.verified

/-- The parts of a patch are there, and name its files. -/
def Named (patch : List GitFile) : Prop :=
  ∃ parts, parsePatchFile (patchText patch) = .ok parts ∧
    parts.flatMap PatchFilePart.names = patch.flatMap GitFile.names

/-- A file is changed, or its path has no ` b/`. -/
def GitFile.Plain (f : GitFile) : Prop := (∃ modes, f.what = .change modes) ∨ ¬border <:+: f.path.bytes

theorem GitFile.namesRead_eq_iff (f : GitFile) : f.namesRead = f.names ↔ f.Plain := by
  have hborder := f.path.border_diffNames
  rw [namesRead, names, Plain]
  cases f.what with
  | creation mode => simp [hborder.after_eq_iff]
  | deletion mode => simp [hborder.before_eq_iff]
  | change modes => simp

theorem flatMap_eq_iff {α β : Type} {a b : α → List β} (hlength : ∀ x, (a x).length = (b x).length) (l : List α) :
    l.flatMap a = l.flatMap b ↔ ∀ x ∈ l, a x = b x := by
  induction l with
  | nil => exact ⟨fun _ => (by simp), fun _ => rfl⟩
  | cons x l ih =>
    rw [List.flatMap_cons, List.flatMap_cons, List.forall_mem_cons, ← ih]
    exact ⟨fun h => List.append_inj h (hlength x), fun h => by rw [h.1, h.2]⟩

/-- The parts of a patch name its files when no file that it creates or deletes has ` b/` in its path. -/
theorem named_iff (patch : List GitFile) : Named patch ↔ ∀ f ∈ patch, f.Plain := by
  obtain ⟨parts, hparts, hnames⟩ := parsePatchFile_names patch
  have hlength : ∀ f : GitFile, f.namesRead.length = f.names.length := fun f => by
    rw [GitFile.namesRead, GitFile.names]
    cases f.what <;> rfl
  have hall : patch.flatMap GitFile.namesRead = patch.flatMap GitFile.names ↔ ∀ f ∈ patch, f.Plain := by
    rw [flatMap_eq_iff hlength]
    exact forall₂_congr fun f _ => f.namesRead_eq_iff
  rw [← hall]
  constructor
  · rintro ⟨parts', hparts', hnames'⟩
    obtain rfl := Except.ok.inj (hparts.symm.trans hparts')
    exact hnames.symm.trans hnames'
  · intro heq
    exact ⟨parts, hparts, hnames.trans heq⟩

/-- The file `x b/y` is created, with one line. -/
def spacedFile : GitFile where
  path :=
    { bytes := ascii "x b/y"
      ne_nil := by decide
      no_line_end := by decide
      head_not_whitespace := by decide +kernel
      last_not_whitespace := by decide +kernel
      length_lt := by decide }
  what := .creation .nonExecutable
  index := none
  tab := true
  hunks := [
    { originalStart := 0
      patchedStart := 1
      heading := []
      body := [⟨.insertion, ascii "one", false, by decide, by decide⟩]
      originalStart_lt := by decide
      patchedStart_lt := by decide
      original_lt := by decide
      patched_lt := by decide
      no_line_end := by decide
      length_lt := by decide }]
  index_no_line_end := by simp
  index_length_lt := by simp
  hunks_ne_nil := List.cons_ne_nil _ _

/-- Its part names `y b/x b/y`. -/
theorem not_named_spacedFile : ¬Named [spacedFile] := by
  have hparse : (parsePatchFile (patchText [spacedFile])).map (·.flatMap PatchFilePart.names) =
      .ok [ascii "y b/x b/y"] := by with_unfolding_all decide
  rintro ⟨parts, hparts, hnames⟩
  rw [hparts] at hparse
  have hsame : [spacedFile].flatMap GitFile.names = [ascii "y b/x b/y"] :=
    hnames.symm.trans (Except.ok.inj hparse)
  exact absurd hsame (by decide)

end OhosBun.Patch
