/-
# `OhosBun.Patch.PostprocessLines` — the pass, line by line

What the pass makes of a line depends on the line, and on what was seen before it (`passLine`): the
text that is edited in place is the text of the lines that were passed (`gitDiffPostprocess_eq`).  A
line is as it was when nothing was taken out of it (`passLine_eq_self_iff`).

The index of a line end is a `u32`: what is in front of the cut of a longer line is a line for itself.
-/
import OhosBun.Lib.Split
import OhosBun.Patch.Postprocess

namespace OhosBun.Patch

open OhosBun.Lib

/-- How much of a line is looked at, where a line end is behind it or not. -/
def pieceLength (terminated : Bool) (line : Bytes) : Nat :=
  if terminated then line.length % 2 ^ 32 else line.length

theorem pieceLength_le (terminated : Bool) (line : Bytes) : pieceLength terminated line ≤ line.length := by
  rw [pieceLength]
  split
  · exact Nat.mod_le _ _
  · exact le_rfl

/-- A line behind the pass, and what was seen then. -/
def passLine (folders : Folders) (terminated : Bool) (saw : Saw) (line : Bytes) : Bytes × Saw :=
  let n := pieceLength terminated line
  match _hcut : cut folders saw (line.take n) with
  | some c =>
    let line' := drain line c.start (c.start + c.length)
    if c.again then passLine folders terminated c.saw line'
    else if n = line.length then (line', c.saw)
    else
      let (rest, saw) := passLine folders terminated c.saw (line'.drop (n - c.length + 1))
      (line'.take (n - c.length + 1) ++ rest, saw)
  | none =>
    if _hlast : n = line.length then (line, {})
    else
      let (rest, saw) := passLine folders terminated {} (line.drop (n + 1))
      (line.take (n + 1) ++ rest, saw)
termination_by line.length
decreasing_by
  · obtain ⟨hpos, hle⟩ := cut_le _hcut
    rw [List.length_take] at hle
    rw [length_drain (by omega)]
    omega
  · obtain ⟨hpos, hle⟩ := cut_le _hcut
    rw [List.length_take] at hle
    rw [List.length_drop, length_drain (by omega)]
    omega
  · have hle := pieceLength_le terminated line
    rw [List.length_drop]
    omega

/-- A folder is named in a line, in one of the ways that the pass looks for. -/
def namesFolder (folders : Folders) (saw : Saw) (line : Bytes) : Bool :=
  (indexOf line folders.aOldFolderSlash).isSome || (indexOf line folders.bNewFolderSlash).isSome ||
    !saw.a && (nameSlash line folders.old).isSome || !saw.b && (nameSlash line folders.new).isSome

/-- A line is one that the pass skips, or names no folder. -/
def untouched (folders : Folders) (terminated : Bool) (saw : Saw) (line : Bytes) : Bool :=
  let n := pieceLength terminated line
  if !shouldSkipLine (line.take n) && namesFolder folders saw (line.take n) then false
  else if _hlast : n = line.length then true
  else untouched folders terminated {} (line.drop (n + 1))
termination_by line.length
decreasing_by
  have hle := pieceLength_le terminated line
  rw [List.length_drop]
  omega

theorem cut_isSome (folders : Folders) (saw : Saw) (line : Bytes) :
    (cut folders saw line).isSome = (!shouldSkipLine line && namesFolder folders saw line) := by
  rw [cut, namesFolder]
  cases shouldSkipLine line with
  | true => rfl
  | false =>
    rw [if_neg (by decide)]
    cases indexOf line folders.aOldFolderSlash with
    | some idx => rfl
    | none =>
      cases indexOf line folders.bNewFolderSlash with
      | some idx => rfl
      | none =>
        obtain ⟨sawA, sawB⟩ := saw
        cases sawA <;> cases sawB <;> cases nameSlash line folders.old <;>
          cases nameSlash line folders.new <;> rfl

section Line
variable {folders : Folders} {terminated : Bool} {saw : Saw} {line : Bytes} {c : Cut}

theorem passLine_of_again (h : cut folders saw (line.take (pieceLength terminated line)) = some c)
    (hagain : c.again = true) : passLine folders terminated saw line =
      passLine folders terminated c.saw (drain line c.start (c.start + c.length)) := by
  rw [passLine]
  split
  · rename_i c' h'
    obtain rfl := Option.some.inj (h.symm.trans h')
    exact if_pos hagain
  · rename_i h'
    exact absurd (h.symm.trans h') (by simp)

theorem passLine_of_cut (h : cut folders saw (line.take (pieceLength terminated line)) = some c)
    (hagain : c.again = false) : passLine folders terminated saw line =
      let n := pieceLength terminated line
      let line' := drain line c.start (c.start + c.length)
      if n = line.length then (line', c.saw)
      else
        let (rest, saw) := passLine folders terminated c.saw (line'.drop (n - c.length + 1))
        (line'.take (n - c.length + 1) ++ rest, saw) := by
  rw [passLine]
  split
  · rename_i c' h'
    obtain rfl := Option.some.inj (h.symm.trans h')
    rw [hagain, if_neg (by decide)]
  · rename_i h'
    exact absurd (h.symm.trans h') (by simp)

theorem passLine_of_none (h : cut folders saw (line.take (pieceLength terminated line)) = none) :
    passLine folders terminated saw line =
      let n := pieceLength terminated line
      if n = line.length then (line, {})
      else
        let (rest, saw) := passLine folders terminated {} (line.drop (n + 1))
        (line.take (n + 1) ++ rest, saw) := by
  rw [passLine]
  split
  · rename_i c h'
    exact absurd (h.symm.trans h') (by simp)
  · dsimp only
    split_ifs <;> rfl

theorem drain_sublist (line : Bytes) {start stop : Nat} (h : start ≤ stop) :
    (drain line start stop).Sublist line := by
  have happend : line.take start ++ line.drop start = line := List.take_append_drop _ _
  conv_rhs => rw [← happend]
  rw [drain]
  refine List.Sublist.append_left ?_ _
  obtain ⟨k, rfl⟩ := Nat.exists_eq_add_of_le h
  rw [← List.drop_drop]
  exact List.drop_sublist _ _

/-- What is left of a line is of the line. -/
theorem passLine_sublist (terminated : Bool) (saw : Saw) (line : Bytes) :
    (passLine folders terminated saw line).1.Sublist line := by
  induction hlength : line.length using Nat.strong_induction_on generalizing saw line with
  | _ length ih =>
    subst hlength
    have hle := pieceLength_le terminated line
    cases hcut : cut folders saw (line.take (pieceLength terminated line)) with
    | none =>
      rw [passLine_of_none hcut]
      dsimp only
      split
      · exact List.Sublist.refl _
      · conv_rhs => rw [← List.take_append_drop (pieceLength terminated line + 1) line]
        refine List.Sublist.append_left (ih _ ?_ _ _ rfl) _
        rw [List.length_drop]
        omega
    | some c =>
      obtain ⟨hpos, hstop⟩ := cut_le hcut
      rw [List.length_take] at hstop
      have hdrain := drain_sublist line (Nat.le_add_right c.start c.length)
      have hlt : (drain line c.start (c.start + c.length)).length < line.length := by
        rw [length_drain (by omega)]
        omega
      cases hagain : c.again with
      | true =>
        rw [passLine_of_again hcut hagain]
        exact (ih _ hlt _ _ rfl).trans hdrain
      | false =>
        rw [passLine_of_cut hcut hagain]
        dsimp only
        split
        · exact hdrain
        · refine List.Sublist.trans ?_ hdrain
          conv_rhs => rw [← List.take_append_drop (pieceLength terminated line - c.length + 1)
            (drain line c.start (c.start + c.length))]
          refine List.Sublist.append_left (ih _ ?_ _ _ rfl) _
          rw [List.length_drop]
          omega

/-- A line is shorter when something was taken out of it. -/
theorem length_passLine_lt (h : cut folders saw (line.take (pieceLength terminated line)) = some c) :
    (passLine folders terminated saw line).1.length < line.length := by
  have hle := pieceLength_le terminated line
  obtain ⟨hpos, hstop⟩ := cut_le h
  rw [List.length_take] at hstop
  have hlt : (drain line c.start (c.start + c.length)).length < line.length := by
    rw [length_drain (by omega)]
    omega
  refine Nat.lt_of_le_of_lt ?_ hlt
  cases hagain : c.again with
  | true =>
    rw [passLine_of_again h hagain]
    exact (passLine_sublist _ _ _).length_le
  | false =>
    rw [passLine_of_cut h hagain]
    dsimp only
    split
    · exact le_rfl
    · conv_rhs => rw [← List.take_append_drop (pieceLength terminated line - c.length + 1)
        (drain line c.start (c.start + c.length))]
      exact (List.Sublist.append_left (passLine_sublist _ _ _) _).length_le

/-- A line that is as it was is one that nothing is taken out of. -/
theorem passLine_eq_self_iff (terminated : Bool) (saw : Saw) (line : Bytes) :
    (passLine folders terminated saw line).1 = line ↔ untouched folders terminated saw line = true := by
  induction hlength : line.length using Nat.strong_induction_on generalizing saw line with
  | _ length ih =>
    subst hlength
    have hle := pieceLength_le terminated line
    rw [untouched, ← cut_isSome]
    cases hcut : cut folders saw (line.take (pieceLength terminated line)) with
    | some c =>
      rw [Option.isSome_some, if_pos rfl]
      have hlt := length_passLine_lt hcut
      exact ⟨fun h => absurd (congrArg List.length h) hlt.ne, by simp⟩
    | none =>
      rw [Option.isSome_none, if_neg (by decide), passLine_of_none hcut]
      dsimp only
      by_cases hlast : pieceLength terminated line = line.length
      · rw [if_pos hlast, dif_pos hlast]
        exact ⟨fun _ => rfl, fun _ => rfl⟩
      · rw [if_neg hlast, dif_neg hlast, ← ih _ (by rw [List.length_drop]; omega) _ _ rfl]
        conv_lhs => rhs; rw [← List.take_append_drop (pieceLength terminated line + 1) line]
        exact List.append_right_inj _

/-! ## The text -/

/-- What is behind a line: nothing, or a line end and the rest of the text. -/
def ending (after : Option Bytes) : Bytes := after.elim [] (10 :: ·)

theorem indexOfChar_line (hline : 10 ∉ line) (after : Option Bytes) :
    indexOfChar (line ++ ending after) 10 = after.map fun _ => line.length % 2 ^ 32 := by
  have hnone : line.findIdx? (· = 10) = none :=
    List.findIdx?_eq_none_iff.mpr fun c hc => decide_eq_false fun heq => hline (heq ▸ hc)
  rw [indexOfChar, List.findIdx?_append, hnone]
  cases after with
  | none => rfl
  | some rest =>
    rw [ending, Option.elim_some, List.findIdx?_cons, if_pos (decide_eq_true rfl)]
    exact congrArg (fun n => some (n % 2 ^ 32)) (Nat.zero_add _)

/-- A turn in a line. -/
theorem turn_line {before : Bytes} (hline : 10 ∉ line) (after : Option Bytes) :
    turn folders ⟨before ++ (line ++ ending after), before.length, saw⟩ =
      let n := pieceLength after.isSome line
      match cut folders saw (line.take n) with
      | some c => (⟨before ++ (drain line c.start (c.start + c.length) ++ ending after),
          if c.again then before.length else before.length + n + after.isSome.toNat - c.length, c.saw⟩, true)
      | none => (⟨before ++ (line ++ ending after), before.length + if after.isSome then n + 1 else 0, {}⟩,
          after.isSome) := by
  have hdrop : (before ++ (line ++ ending after)).drop before.length = line ++ ending after := List.drop_left
  have hpiece : ∀ n ≤ line.length, ((before ++ (line ++ ending after)).take (before.length + n)).drop
      before.length = line.take n := fun n hn => by
    rw [List.take_length_add_append, List.drop_left, List.take_append_of_le_length hn]
  have hdrain : ∀ c : Cut, c.start + c.length ≤ line.length →
      drain (before ++ (line ++ ending after)) (before.length + c.start) (before.length + c.start + c.length) =
        before ++ (drain line c.start (c.start + c.length) ++ ending after) := fun c hc => by
    rw [drain, drain, List.take_length_add_append, Nat.add_assoc, List.drop_length_add_append,
      List.take_append_of_le_length (by omega), List.drop_append_of_le_length hc, List.append_assoc,
      List.append_assoc]
  rw [turn]
  dsimp only
  rw [hdrop, indexOfChar_line hline]
  cases after with
  | some rest =>
    have hn : pieceLength true line = line.length % 2 ^ 32 := rfl
    dsimp only [Option.map_some, Option.isSome_some]
    rw [← hn, hpiece _ (pieceLength_le true line)]
    cases hcut : cut folders saw (line.take (pieceLength true line)) with
    | none => rfl
    | some c =>
      have hle := (cut_le hcut).2
      rw [List.length_take] at hle
      dsimp only
      rw [hdrain c (by omega)]
      rfl
  | none =>
    have hn : pieceLength false line = line.length := rfl
    dsimp only [Option.map_none, Option.isSome_none]
    have hend : (before ++ (line ++ ending none)).length = before.length + line.length := by
      rw [List.length_append, List.length_append]
      rfl
    rw [hend, hpiece _ le_rfl, ← hn]
    cases hcut : cut folders saw (line.take (pieceLength false line)) with
    | none => rfl
    | some c =>
      have hle := (cut_le hcut).2
      rw [List.length_take] at hle
      dsimp only
      rw [hdrain c (by omega)]
      rfl

theorem run_of_turn {p p' : Pass} (hcursor : p.cursor ≤ p.stdout.length)
    (h : turn folders p = (p', true)) : p.run folders = p'.run folders := by
  rw [Pass.run, dif_pos hcursor]
  split
  · rename_i q hq
    rw [(Prod.mk.inj (hq.symm.trans h)).1]
  · rename_i q hq
    exact absurd (Prod.mk.inj (hq.symm.trans h)).2 (by simp)

theorem run_of_last {p p' : Pass} (hcursor : p.cursor ≤ p.stdout.length)
    (h : turn folders p = (p', false)) : p.run folders = p'.stdout := by
  rw [Pass.run, dif_pos hcursor]
  split
  · rename_i q hq
    exact absurd (Prod.mk.inj (hq.symm.trans h)).2 (by simp)
  · rename_i q hq
    rw [(Prod.mk.inj (hq.symm.trans h)).1]

/-- The rest of the pass, behind a line. -/
def runBehind (folders : Folders) (before : Bytes) (saw : Saw) : Option Bytes → Bytes
  | none => before
  | some rest => Pass.run folders ⟨before ++ [10] ++ rest, (before ++ [10]).length, saw⟩

theorem pass_ended (before line rest : Bytes) (saw : Saw) :
    Pass.mk (before ++ (line ++ ending (some rest))) (before.length + (line.length + 1)) saw =
      Pass.mk (before ++ line ++ [10] ++ rest) (before ++ line ++ [10]).length saw := by
  rw [List.length_append, List.length_append, Nat.add_assoc, List.append_assoc (before ++ line),
    List.append_assoc]
  rfl

theorem pass_behind (before rest : Bytes) {line : Bytes} {m : Nat} (h : m ≤ line.length) (saw : Saw) :
    Pass.mk (before ++ (line ++ rest)) (before.length + m) saw =
      Pass.mk (before ++ line.take m ++ (line.drop m ++ rest)) (before ++ line.take m).length saw := by
  rw [List.length_append, List.length_take, Nat.min_eq_left h, List.append_assoc,
    ← List.append_assoc (line.take m), List.take_append_drop]

theorem passLine_nil (terminated : Bool) (saw : Saw) : (passLine folders terminated saw []).1 = [] :=
  List.sublist_nil.mp (passLine_sublist terminated saw [])

/-- The turns in a line. -/
theorem run_line (before : Bytes) (saw : Saw) {line : Bytes} (hline : 10 ∉ line) (after : Option Bytes) :
    Pass.run folders ⟨before ++ (line ++ ending after), before.length, saw⟩ =
      runBehind folders (before ++ (passLine folders after.isSome saw line).1)
        (passLine folders after.isSome saw line).2 after := by
  induction hlength : line.length using Nat.strong_induction_on generalizing before saw line with
  | _ length ih =>
    subst hlength
    have hle := pieceLength_le after.isSome line
    have hcursor : before.length ≤ (before ++ (line ++ ending after)).length := by
      rw [List.length_append]
      exact Nat.le_add_right _ _
    have hturn : turn folders ⟨before ++ (line ++ ending after), before.length, saw⟩ = _ :=
      turn_line hline after
    dsimp only at hturn
    cases hcut : cut folders saw (line.take (pieceLength after.isSome line)) with
    | none =>
      rw [hcut] at hturn
      rw [passLine_of_none hcut]
      cases after with
      | none =>
        have hlast : pieceLength (none : Option Bytes).isSome line = line.length := rfl
        rw [run_of_last hcursor hturn]
        dsimp only
        rw [if_pos hlast, ending, Option.elim_none, List.append_nil]
        rfl
      | some rest =>
        rw [run_of_turn hcursor hturn]
        dsimp only [Option.isSome_some]
        rw [if_pos rfl]
        split
        · rename_i hlast
          rw [hlast, pass_ended]
          rfl
        · rename_i hlast
          have hm : pieceLength true line + 1 ≤ line.length := Nat.lt_of_le_of_ne hle hlast
          rw [pass_behind _ _ hm]
          have hrest := ih (line.drop (pieceLength true line + 1)).length
            (by rw [List.length_drop]; omega) (before ++ line.take (pieceLength true line + 1)) {}
            (fun h => hline (List.mem_of_mem_drop h)) rfl
          rw [hrest, List.append_assoc]
          rfl
    | some c =>
      obtain ⟨hpos, hstop⟩ := cut_le hcut
      rw [List.length_take] at hstop
      have hdrain := drain_sublist line (Nat.le_add_right c.start c.length)
      have hlt : (drain line c.start (c.start + c.length)).length = line.length - c.length :=
        length_drain (by omega)
      have hline' : 10 ∉ drain line c.start (c.start + c.length) := fun h => hline (hdrain.subset h)
      rw [hcut] at hturn
      rw [run_of_turn hcursor hturn]
      cases hagain : c.again with
      | true =>
        rw [passLine_of_again hcut hagain]
        exact ih _ (by omega) before c.saw hline' rfl
      | false =>
        rw [passLine_of_cut hcut hagain]
        dsimp only
        rw [if_neg (by decide)]
        generalize drain line c.start (c.start + c.length) = line' at hlt hline' ⊢
        cases after with
        | none =>
          have hlast : pieceLength (none : Option Bytes).isSome line = line.length := rfl
          have hm : before.length + pieceLength (none : Option Bytes).isSome line +
              (none : Option Bytes).isSome.toNat - c.length = before.length + line'.length := by
            have hstop' : c.start + c.length ≤ min line.length line.length := hstop
            rw [hlast, hlt]
            change before.length + line.length + 0 - c.length = _
            omega
          rw [hm, pass_behind _ _ le_rfl, List.take_length, List.drop_length, if_pos hlast,
            ih 0 (by omega) (before ++ line') c.saw List.not_mem_nil rfl, passLine_nil,
            List.append_nil]
          rfl
        | some rest =>
          have hn : pieceLength (some rest).isSome line + (some rest).isSome.toNat - c.length =
              pieceLength true line - c.length + 1 := by
            change pieceLength true line + 1 - c.length = _
            have hstop' : c.start + c.length ≤ min (pieceLength true line) line.length := hstop
            omega
          have hm : before.length + pieceLength (some rest).isSome line +
              (some rest).isSome.toNat - c.length =
                before.length + (pieceLength true line - c.length + 1) := by
            rw [← hn, Nat.add_assoc]
            refine Nat.add_sub_assoc ?_ _
            change c.length ≤ pieceLength true line + 1
            have hstop' : c.start + c.length ≤ min (pieceLength true line) line.length := hstop
            omega
          rw [hm]
          split
          · rename_i hlast
            have hlast' : pieceLength true line = line.length := hlast
            rw [hlast', ← hlt, pass_ended]
            rfl
          · rename_i hlast
            have hle' : pieceLength true line ≤ line.length := hle
            have hlast' : pieceLength true line ≠ line.length := hlast
            have hstop' : c.start + c.length ≤ min (pieceLength true line) line.length := hstop
            have hrest := ih (line'.drop (pieceLength true line - c.length + 1)).length
              (by rw [List.length_drop]; omega)
              (before ++ line'.take (pieceLength true line - c.length + 1)) c.saw
              (fun h => hline' (List.mem_of_mem_drop h)) rfl
            rw [pass_behind _ _ (by omega), hrest, List.append_assoc]
            rfl

end Line

/-- The lines behind the pass. -/
def passLines (folders : Folders) : Saw → List Bytes → List Bytes
  | _, [] => []
  | saw, [line] => [(passLine folders false saw line).1]
  | saw, line :: next :: lines =>
    (passLine folders true saw line).1 ::
      passLines folders (passLine folders true saw line).2 (next :: lines)

/-- What was seen when a line is reached. -/
def sawAt (folders : Folders) : Saw → List Bytes → Nat → Saw
  | saw, line :: lines, i + 1 => sawAt folders (passLine folders true saw line).2 lines i
  | saw, _, _ => saw

section Lines
variable {folders : Folders} {lines : List Bytes}

theorem getElem?_passLines (saw : Saw) (lines : List Bytes) (i : Nat) :
    (passLines folders saw lines)[i]? = lines[i]?.map fun line =>
      (passLine folders (i + 1 < lines.length) (sawAt folders saw lines i) line).1 := by
  induction lines generalizing saw i with
  | nil => rfl
  | cons line lines ih =>
    cases lines with
    | nil =>
      cases i with
      | zero => rfl
      | succ i => rfl
    | cons next lines =>
      cases i with
      | zero =>
        rw [passLines, List.getElem?_cons_zero, List.getElem?_cons_zero, Option.map_some,
          decide_eq_true (by simp)]
        rfl
      | succ i =>
        rw [passLines, List.getElem?_cons_succ, List.getElem?_cons_succ, ih, sawAt]
        congr 2
        simp

theorem length_passLines (saw : Saw) (lines : List Bytes) :
    (passLines folders saw lines).length = lines.length := by
  induction lines generalizing saw with
  | nil => rfl
  | cons line lines ih =>
    cases lines with
    | nil => rfl
    | cons next lines => rw [passLines, List.length_cons, ih, ← List.length_cons]

theorem run_lines (before : Bytes) (saw : Saw) (hne : lines ≠ []) (hlines : ∀ line ∈ lines, 10 ∉ line) :
    Pass.run folders ⟨before ++ [10].intercalate lines, before.length, saw⟩ =
      before ++ [10].intercalate (passLines folders saw lines) := by
  induction lines generalizing before saw with
  | nil => exact absurd rfl hne
  | cons line lines ih =>
    have hline := hlines line List.mem_cons_self
    cases lines with
    | nil =>
      have hrun : Pass.run folders ⟨before ++ (line ++ []), before.length, saw⟩ = _ :=
        run_line before saw hline none
      rw [passLines, List.intercalate_singleton, List.intercalate_singleton]
      rw [List.append_nil] at hrun
      exact hrun
    | cons next lines =>
      have hrun := @run_line folders before saw _ hline
        (some ([10].intercalate (next :: lines)))
      have hrest := ih (before ++ (passLine folders true saw line).1 ++ [10])
        (passLine folders true saw line).2 (List.cons_ne_nil _ _) fun l hl => hlines l (List.mem_cons_of_mem _ hl)
      have hne : passLines folders (passLine folders true saw line).2 (next :: lines) ≠ [] := by
        refine List.ne_nil_of_length_pos ?_
        rw [length_passLines]
        exact Nat.succ_pos _
      have hpassed : before ++ [10].intercalate (passLines folders saw (line :: next :: lines)) =
          before ++ (passLine folders true saw line).1 ++ [10] ++
            [10].intercalate (passLines folders (passLine folders true saw line).2 (next :: lines)) := by
        rw [passLines, List.intercalate_cons_of_ne_nil hne]
        simp only [List.append_assoc]
      rw [hpassed, ← hrest, List.intercalate_cons_cons, List.append_assoc line]
      exact hrun

/-- The text of the lines that were passed. -/
theorem splitOn_gitDiffPostprocess (stdout : Bytes) (folders : Folders) :
    (gitDiffPostprocess stdout folders).splitOn 10 = passLines folders {} (stdout.splitOn 10) := by
  have hrun := @run_lines folders _ [] {} (List.splitOn_ne_nil 10 stdout)
    fun line hline => notMem_of_mem_splitOn hline
  rw [List.intercalate_splitOn, List.nil_append, List.nil_append] at hrun
  have heq : gitDiffPostprocess stdout folders = [10].intercalate (passLines folders {} (stdout.splitOn 10)) :=
    hrun
  rw [heq]
  refine List.splitOn_intercalate 10 (fun line hline => ?_) ?_
  · obtain ⟨i, hi, rfl⟩ := List.mem_iff_getElem.mp hline
    have hget := @getElem?_passLines folders {} (stdout.splitOn 10) i
    rw [List.getElem?_eq_getElem hi] at hget
    obtain ⟨source, hsource, hpassed⟩ := Option.map_eq_some_iff.mp hget.symm
    rw [← hpassed]
    exact fun h => notMem_of_mem_splitOn (List.mem_of_getElem? hsource)
      ((passLine_sublist _ _ _).subset h)
  · refine List.ne_nil_of_length_pos ?_
    rw [length_passLines]
    exact List.length_pos_iff.mpr (List.splitOn_ne_nil 10 stdout)

end Lines

end OhosBun.Patch
