/-
# `OhosBun.SourceMap.Lookups` — a blob and a list, looked up alike

The loops of `from_vlq` and of `parse` go through a string in step: when neither
fails they leave the same input at every turn, and what one has appended to its
list the other has given to its builder (`Agree`).

From there a lookup in the blob is a lookup in the builder's rows (`decode_finalize`,
`find_eq`) and `List::find` is one in the list's (`findMapping_eq`), which are the
same rows but for the names.  Rows in order are not moved by the sort.

The limit is that of the blob: a window that starts beyond `u32::MAX` is misplaced.
-/
import OhosBun.SourceMap.RoundTrip
import OhosBun.SourceMap.Mapping

namespace OhosBun.SourceMap

open OhosBun.Lib

/-! ## The loops side by side -/

variable {ε α β : Type} {s s' : FromVlq.State} {t u t' : Parse.State} {err : ε} {remain rest r r' : Bytes}
  {d a v sourcesCount : Int32} {total k : Nat} {options : ParseOptions}

theorem except_bind_ok {x : Except ε α} {f : α → Except ε β} {b : β} :
    x >>= f = .ok b ↔ ∃ a, x = .ok a ∧ f a = .ok b := by
  cases x with
  | error e => exact ⟨fun h => (absurd h (by rintro ⟨⟩)), fun ⟨_, h, _⟩ => (absurd h (by simp))⟩
  | ok a => exact ⟨fun h => ⟨a, rfl, h⟩, fun ⟨_, h, hf⟩ => (Except.ok.inj h) ▸ hf⟩

/-- All of a mapping but the name. -/
def Mapping.place (m : Mapping) : LineColumnOffset × LineColumnOffset × Int32 :=
  (m.generated, m.original, m.sourceIndex)

/-- The state of one loop is that of the other. -/
structure Agree (s : FromVlq.State) (t : Parse.State) : Prop where
  column : t.generated.columns = s.generatedColumn
  lines : t.generated.lines = Int32.ofNat (separatorCount s.calls)
  sourceIndex : t.sourceIndex = s.sourceIndex
  originalLine : t.original.lines = s.originalLine
  originalColumn : t.original.columns = s.originalColumn
  rows : t.mappings.map Mapping.place = (appended 0 s.calls).map fun r => r.toMapping.place

/-- The second loop, in one step. -/
theorem semicolons_eq (remain : Bytes) : ∀ lines, Parse.semicolons lines remain =
    (lines + Int32.ofNat (remain.takeWhile (· = semicolon)).length,
      remain.dropWhile (· = semicolon)) := by
  induction remain with
  | nil => intro lines; simp [Parse.semicolons]
  | cons c remain ih =>
    intro lines
    by_cases hc : c = semicolon
    · rw [Parse.semicolons, if_pos hc, ih, List.takeWhile_cons_of_pos (by simpa using hc),
        List.dropWhile_cons_of_pos (by simpa using hc), List.length_cons, Int32.ofNat_add,
        Int32.add_assoc, Int32.add_comm 1]
      rfl
    · rw [Parse.semicolons, if_neg hc, List.takeWhile_cons_of_neg (by simpa using hc),
        List.dropWhile_cons_of_neg (by simpa using hc)]
      simp

/-- Four at a time and then one at a time is one at a time. -/
theorem semicolons_semicolonRuns (lines : Int32) (remain : Bytes) :
    Parse.semicolons (Parse.semicolonRuns lines remain).1 (Parse.semicolonRuns lines remain).2 =
      Parse.semicolons lines remain := by
  induction lines, remain using Parse.semicolonRuns.induct with
  | case1 lines a b c d rest h ih =>
    obtain ⟨rfl, rfl, rfl, rfl⟩ := h
    rw [Parse.semicolonRuns, if_pos ⟨rfl, rfl, rfl, rfl⟩, ih]
    simp only [Parse.semicolons, if_true]
    rw [Int32.add_assoc, Int32.add_assoc, Int32.add_assoc]
    rfl
  | case2 lines a b c d rest h => rw [Parse.semicolonRuns, if_neg h]
  | case3 lines rest h => rw [Parse.semicolonRuns]; exact h

theorem Agree.separators (h : Agree s t) (remain : Bytes) :
    (FromVlq.separators s remain).2 = (Parse.separators t remain).2 ∧
      Agree (FromVlq.separators s remain).1 (Parse.separators t remain).1 := by
  unfold FromVlq.separators Parse.separators
  by_cases hhead : remain.head? = some semicolon
  · rw [if_pos hhead, if_pos hhead]
    simp only [semicolons_semicolonRuns]
    rw [semicolons_eq]
    refine ⟨rfl, rfl, ?_, h.sourceIndex, h.originalLine, h.originalColumn, ?_⟩
    · show t.generated.lines + _ = _
      rw [h.lines, separatorCount, separatorCount, List.count_append, List.count_replicate_self,
        Int32.ofNat_add]
    · show t.mappings.map Mapping.place = _
      rw [appended_append, appended_separators, List.append_nil, h.rows]
  · rw [if_neg hhead, if_neg hhead]
    exact ⟨rfl, h⟩

theorem readVlq_eq_ok :
    readVlq err remain = .ok (d, rest) ↔ (Vlq.decode remain 0).start ≠ 0 ∧
      (Vlq.decode remain 0).value = d ∧ remain.drop (Vlq.decode remain 0).start = rest := by
  unfold readVlq
  simp only
  split
  · next h => simp [h]
  · next h => simp [h]

/-- The two readers of one VLQ. -/
theorem readVlq_unique {δ : Type} {err' : δ} {rest' : Bytes} {d' : Int32}
    (h : readVlq err remain = .ok (d, rest)) (h' : readVlq err' remain = .ok (d', rest')) :
    d = d' ∧ rest = rest' := by
  obtain ⟨-, rfl, rfl⟩ := readVlq_eq_ok.1 h
  obtain ⟨-, rfl, rfl⟩ := readVlq_eq_ok.1 h'
  exact ⟨rfl, rfl⟩

theorem accumulate_eq_ok (h : accumulate a d = .ok v) : v = a + d := by
  unfold accumulate at h
  split at h
  · next w hw =>
      obtain ⟨hadd, -⟩ := Option.filter_eq_some_iff.mp hw
      unfold checkedAdd at hadd
      split at hadd
      · rw [← Except.ok.inj h, ← Option.some.inj hadd]
      · exact absurd hadd (by simp)
  · exact absurd h (by simp)

theorem add_eq_ok {err : ParseError} (h : Parse.add total err remain a d = .ok v) : v = a + d := by
  unfold Parse.add at h
  split at h
  · exact absurd h (by simp)
  · exact (Except.ok.inj h).symm

theorem addSource_eq_ok (h : Parse.addSource total sourcesCount remain a d = .ok v) : v = a + d := by
  unfold Parse.addSource at h
  split at h
  · exact absurd h (by simp)
  · exact (Except.ok.inj h).symm

/-- The fifth field changes nothing that the other loop has. -/
theorem name_agree (hs : FromVlq.name remain = .ok r)
    (ht : Parse.name total options t remain = .ok (u, r')) :
    r = r' ∧ ∃ n b, u = { t with nameIndex := n, hasNames := b } := by
  unfold FromVlq.name at hs
  unfold Parse.name at ht
  split at hs
  · next hend =>
      rw [if_pos hend] at ht
      obtain ⟨rfl, rfl⟩ := Prod.mk.inj (Except.ok.inj ht)
      exact ⟨(Except.ok.inj hs).symm, t.nameIndex, t.hasNames, rfl⟩
  · next hend =>
      rw [if_neg hend] at ht
      obtain ⟨⟨d, rest⟩, hread, hs⟩ := except_bind_ok.1 hs
      obtain ⟨⟨e, rest'⟩, hread', ht⟩ := except_bind_ok.1 ht
      obtain ⟨rfl, rfl⟩ := readVlq_unique hread hread'
      obtain rfl := Except.ok.inj hs
      simp only at ht
      split at ht
      · obtain ⟨rfl, rfl⟩ := Prod.mk.inj (Except.ok.inj ht)
        exact ⟨rfl, _, _, rfl⟩
      · obtain ⟨rfl, rfl⟩ := Prod.mk.inj (Except.ok.inj ht)
        exact ⟨rfl, t.nameIndex, t.hasNames, rfl⟩

/-- The fields behind the generated column. -/
theorem Agree.fields (h : Agree s t) (hs : FromVlq.fields s remain = .ok (s', r))
    (ht : Parse.fields total sourcesCount options t remain = .ok (t', r')) :
    r = r' ∧ Agree s' t' := by
  unfold FromVlq.fields at hs
  obtain ⟨⟨d₁, r₁⟩, hread₁, hs⟩ := except_bind_ok.1 hs
  obtain ⟨source, hsource, hs⟩ := except_bind_ok.1 hs
  obtain ⟨⟨d₂, r₂⟩, hread₂, hs⟩ := except_bind_ok.1 hs
  obtain ⟨line, hline, hs⟩ := except_bind_ok.1 hs
  obtain ⟨⟨d₃, r₃⟩, hread₃, hs⟩ := except_bind_ok.1 hs
  obtain ⟨column, hcolumn, hs⟩ := except_bind_ok.1 hs
  obtain ⟨r₄, hend, hs⟩ := except_bind_ok.1 hs
  obtain ⟨rfl, rfl⟩ := Prod.mk.inj (Except.ok.inj hs)
  unfold Parse.fields at ht
  obtain ⟨⟨e₁, q₁⟩, hread₁', ht⟩ := except_bind_ok.1 ht
  obtain ⟨rfl, rfl⟩ := readVlq_unique hread₁ hread₁'
  obtain ⟨source', hsource', ht⟩ := except_bind_ok.1 ht
  obtain ⟨⟨e₂, q₂⟩, hread₂', ht⟩ := except_bind_ok.1 ht
  obtain ⟨rfl, rfl⟩ := readVlq_unique hread₂ hread₂'
  obtain ⟨line', hline', ht⟩ := except_bind_ok.1 ht
  obtain ⟨⟨e₃, q₃⟩, hread₃', ht⟩ := except_bind_ok.1 ht
  obtain ⟨rfl, rfl⟩ := readVlq_unique hread₃ hread₃'
  obtain ⟨column', hcolumn', ht⟩ := except_bind_ok.1 ht
  obtain ⟨⟨u, q₄⟩, hname, ht⟩ := except_bind_ok.1 ht
  obtain ⟨rfl, rfl⟩ := Prod.mk.inj (Except.ok.inj ht)
  have hsource₂ := (accumulate_eq_ok hsource).trans (h.sourceIndex ▸ (addSource_eq_ok hsource').symm)
  have hline₂ := (accumulate_eq_ok hline).trans (h.originalLine ▸ (add_eq_ok hline').symm)
  have hcolumn₂ := (accumulate_eq_ok hcolumn).trans (h.originalColumn ▸ (add_eq_ok hcolumn').symm)
  subst hsource₂ hline₂ hcolumn₂
  obtain ⟨rfl, hu⟩ := name_agree hend hname
  obtain ⟨n, b, rfl⟩ := hu
  refine ⟨rfl, h.column, ?_, rfl, rfl, rfl, ?_⟩
  · show t.generated.lines = _
    rw [h.lines, separatorCount, separatorCount, List.count_append]
    rfl
  · show (t.mappings ++ [_]).map Mapping.place = _
    rw [appended_append, List.map_append, List.map_append, h.rows, Nat.zero_add]
    show _ ++ [(t.generated, _, source)] = _ ++ [_]
    have hgen : t.generated = ⟨Int32.ofNat (separatorCount s.calls), s.generatedColumn⟩ := by
      rw [← h.lines, ← h.column]
    rw [hgen]
    rfl

theorem Agree.segment (h : Agree s t) (hs : FromVlq.segment s remain = .ok (s', r))
    (ht : Parse.segment total sourcesCount options t remain = .ok (t', r')) :
    r = r' ∧ Agree s' t' := by
  unfold FromVlq.segment at hs
  obtain ⟨⟨d, rest⟩, hread, hs⟩ := except_bind_ok.1 hs
  obtain ⟨column, hcolumn, hs⟩ := except_bind_ok.1 hs
  unfold Parse.segment at ht
  obtain ⟨⟨e, rest'⟩, hread', ht⟩ := except_bind_ok.1 ht
  obtain ⟨rfl, rfl⟩ := readVlq_unique hread hread'
  obtain ⟨column', hcolumn', ht⟩ := except_bind_ok.1 ht
  have hcol := (add_eq_ok hcolumn').trans (h.column ▸ (accumulate_eq_ok hcolumn).symm)
  subst hcol
  have hagree : Agree { s with generatedColumn := column' } { t with
      needsSort := t.needsSort || d < 0
      generated := ⟨t.generated.lines, column'⟩ } :=
    ⟨rfl, h.lines, h.sourceIndex, h.originalLine, h.originalColumn, h.rows⟩
  simp only at hs ht
  split at hs
  · next hend =>
      rw [if_pos hend] at ht
      obtain ⟨rfl, rfl⟩ := Prod.mk.inj (Except.ok.inj hs)
      obtain ⟨rfl, rfl⟩ := Prod.mk.inj (Except.ok.inj ht)
      exact ⟨rfl, hagree⟩
  · next hend =>
      rw [if_neg hend] at ht
      exact hagree.fields hs ht

theorem Agree.turn (h : Agree s t) (hs : FromVlq.turn s remain = .ok (s', r))
    (ht : Parse.turn total sourcesCount options t remain = .ok (t', r')) :
    r = r' ∧ Agree s' t' := by
  obtain ⟨hremain, hagree⟩ := h.separators remain
  simp only [FromVlq.turn] at hs
  simp only [Parse.turn, ← hremain] at ht
  split at hs
  · next hnil =>
      rw [if_pos hnil] at ht
      rw [Except.ok.injEq] at hs ht
      rw [hs, ht] at hremain hagree
      exact ⟨hremain, hagree⟩
  · next hne =>
      rw [if_neg hne] at ht
      exact hagree.segment hs ht

theorem Agree.init : Agree FromVlq.init Parse.init := ⟨rfl, rfl, rfl, rfl, rfl, rfl⟩

/-! ## Rows in order are not sorted again -/

theorem foldl_sink (rows : List Mapping) : ∀ {before : List Mapping},
    (before.reverse ++ rows).Pairwise (fun a b => b.lessThan a = false) →
      rows.foldl (fun before x => Mapping.sink x before) before = rows.reverse ++ before := by
  induction rows with
  | nil => exact fun _ => rfl
  | cons x rows ih =>
    intro before h
    have hsink : Mapping.sink x before = x :: before := by
      cases before with
      | nil => rfl
      | cons y before =>
        have hxy := (List.pairwise_append.mp h).2.2 y (by simp) x List.mem_cons_self
        rw [Mapping.sink, hxy]
        rfl
    rw [List.foldl_cons, hsink, ih (by simpa using h)]
    simp

theorem sortMappings_eq {rows : List Mapping}
    (h : rows.Pairwise fun a b => b.lessThan a = false) : sortMappings rows = rows := by
  have hfold := foldl_sink rows (show ([].reverse ++ rows).Pairwise _ from h)
  rw [sortMappings, hfold, List.append_nil, List.reverse_reverse]

theorem lessThan_eq_false {a b : Mapping}
    (h : a.generated.lessOrEqual b.generated.lines b.generated.columns = true) :
    b.lessThan a = false := by
  have hcases : a.generated.lines < b.generated.lines ∨
      a.generated.lines = b.generated.lines ∧ a.generated.columns ≤ b.generated.columns := by
    simpa [LineColumnOffset.lessOrEqual] using h
  unfold Mapping.lessThan
  rcases hcases with hlt | ⟨heq, hle⟩
  · rw [if_pos (Int32.ne_of_lt hlt).symm]
    exact decide_eq_false (Int32.lt_asymm hlt)
  · rw [if_neg (not_not.mpr heq.symm)]
    exact decide_eq_false (Int32.not_lt.mpr hle)

/-! ## The lookups -/

section Lookup
variable {mappings : List Mapping} {rows : List State}
  (hplace : mappings.map Mapping.place = rows.map fun r => r.toMapping.place)
include hplace

theorem generated_eq : mappings.map Mapping.generated = rows.map fun r => r.toMapping.generated := by
  have h := congrArg (List.map Prod.fst) hplace
  rwa [List.map_map, List.map_map] at h

theorem sortMappings_of_inOrder (horder : InOrder rows) : sortMappings mappings = mappings := by
  refine sortMappings_eq ?_
  have hpair : (mappings.map Mapping.generated).Pairwise fun p q =>
      p.lessOrEqual q.lines q.columns = true := by
    rw [generated_eq hplace]
    exact List.pairwise_map.mpr horder
  exact (List.pairwise_map.mp hpair).imp lessThan_eq_false

/-- `List::find` finds the last mapping at or before the position. -/
theorem findMapping_eq (horder : InOrder rows) (line column : Int32) :
    (findMapping mappings line column).map Mapping.place =
      (lookup rows line column).map Mapping.place := by
  have hfalls := horder.falls line column
  have hindex : upperBound (fun i => ((rows.map fun r : State => r.toMapping.generated).getD i
      ⟨0, 0⟩).lessOrEqual line column) 0 (rows.map fun r : State => r.toMapping.generated).length =
        (rows.takeWhile fun s => s.lessOrEqual line column).length := by
    refine upperBound_eq 0 _ (Nat.zero_le _) ?_ fun i _ hi => ?_
    · rw [Nat.zero_add, List.length_map]
      exact (List.takeWhile_sublist _).length_le
    · have hi' : i < rows.length := by simpa using hi
      rw [List.getD_eq_getElem?_getD, List.getElem?_map, List.getElem?_eq_getElem hi']
      exact hfalls.getElem?_iff (List.getElem?_eq_getElem hi')
  unfold findMapping findIndexFromGenerated
  rw [generated_eq hplace]
  simp only [hindex]
  rw [lookup, List.getLast?_eq_getElem?]
  cases hk : (rows.takeWhile fun s => s.lessOrEqual line column).length with
  | zero =>
    rw [List.length_eq_zero_iff.mp hk]
    rfl
  | succ k =>
    have hlast : (rows.takeWhile fun s => s.lessOrEqual line column)[k]? = rows[k]? := by
      have hlt : k < (rows.takeWhile fun s => s.lessOrEqual line column).length := by omega
      rw [List.getElem?_eq_getElem hlt]
      exact (List.prefix_iff_getElem?.mp (List.takeWhile_prefix _) k hlt).symm
    have hk' : k < rows.length := by
      have := (List.takeWhile_sublist (l := rows) fun s => s.lessOrEqual line column).length_le
      omega
    have hplace' : (mappings[k]?).map Mapping.place =
        (rows[k]?).map fun r => r.toMapping.place := by
      rw [← List.getElem?_map, hplace, List.getElem?_map]
    rw [Nat.add_sub_cancel, hlast, List.getElem?_eq_getElem hk', Option.bind_some,
      InternalSourceMap.onLine, List.getD_eq_getElem?_getD, List.getElem?_map,
      List.getElem?_eq_getElem hk', Option.map_some, Option.getD_some]
    rw [List.getElem?_eq_getElem hk', Option.map_some] at hplace'
    by_cases hline : rows[k].generatedLine = line
    · rw [if_pos ⟨Nat.succ_pos k, hline⟩, if_neg (not_not.mpr hline), Option.bind_some, hplace',
        Option.map_some]
    · rw [if_neg fun h => hline h.2, if_pos hline]
      rfl

end Lookup

/-! ## A turn shortens the input -/

theorem length_readVlq (h : readVlq err remain = .ok (d, rest)) : rest.length < remain.length := by
  obtain ⟨hstart, -, rfl⟩ := readVlq_eq_ok.1 h
  obtain ⟨pre, post, rfl, hne, hpre⟩ := Vlq.decode_prefix hstart
  have hpos := List.length_pos_of_ne_nil hne
  rw [hpre post]
  simp only [List.length_drop, List.length_append]
  omega

theorem length_skipComma (remain : Bytes) : (skipComma remain).length ≤ remain.length := by
  cases remain with
  | nil => exact Nat.le_refl _
  | cons c rest =>
    rw [skipComma]
    split
    · exact Nat.le_succ _
    · exact Nat.le_refl _

theorem length_name (h : FromVlq.name remain = .ok rest) :
    rest.length ≤ remain.length := by
  unfold FromVlq.name at h
  split at h
  · rw [← Except.ok.inj h]
  · obtain ⟨⟨d, r⟩, hread, h⟩ := except_bind_ok.1 h
    rw [← Except.ok.inj h]
    exact Nat.le_of_lt (length_readVlq hread)

theorem fromVlq_shortens : Shortens FromVlq.turn := by
  intro s remain s' rest hne h
  have hsep : (FromVlq.separators s remain).2.length ≤ remain.length := by
    unfold FromVlq.separators
    split
    · exact (List.dropWhile_sublist _).length_le
    · exact Nat.le_refl _
  simp only [FromVlq.turn] at h
  split at h
  · next hnil =>
      rw [Except.ok.injEq] at h
      rw [h] at hnil
      rw [show rest = [] from hnil]
      exact List.length_pos_of_ne_nil hne
  · refine Nat.lt_of_lt_of_le ?_ hsep
    unfold FromVlq.segment at h
    obtain ⟨⟨d, r₁⟩, hread₁, h⟩ := except_bind_ok.1 h
    obtain ⟨column, -, h⟩ := except_bind_ok.1 h
    refine Nat.lt_of_le_of_lt ?_ (length_readVlq hread₁)
    simp only at h
    split at h
    · obtain ⟨-, rfl⟩ := Prod.mk.inj (Except.ok.inj h)
      exact length_skipComma _
    · unfold FromVlq.fields at h
      obtain ⟨⟨d₂, r₂⟩, hread₂, h⟩ := except_bind_ok.1 h
      obtain ⟨_, -, h⟩ := except_bind_ok.1 h
      obtain ⟨⟨d₃, r₃⟩, hread₃, h⟩ := except_bind_ok.1 h
      obtain ⟨_, -, h⟩ := except_bind_ok.1 h
      obtain ⟨⟨d₄, r₄⟩, hread₄, h⟩ := except_bind_ok.1 h
      obtain ⟨_, -, h⟩ := except_bind_ok.1 h
      obtain ⟨r₅, hname, h⟩ := except_bind_ok.1 h
      obtain ⟨-, rfl⟩ := Prod.mk.inj (Except.ok.inj h)
      have h₂ := length_readVlq hread₂
      have h₃ := length_readVlq hread₃
      have h₄ := length_readVlq hread₄
      have h₅ := length_name hname
      have h₆ := length_skipComma r₅
      omega

theorem length_parse_name (h : Parse.name total options t remain = .ok (u, rest)) :
    rest.length ≤ remain.length := by
  unfold Parse.name at h
  split at h
  · obtain ⟨-, rfl⟩ := Prod.mk.inj (Except.ok.inj h)
    exact Nat.le_refl _
  · obtain ⟨⟨d, r⟩, hread, h⟩ := except_bind_ok.1 h
    have hlt := length_readVlq hread
    simp only at h
    split at h <;>
    · obtain ⟨-, rfl⟩ := Prod.mk.inj (Except.ok.inj h)
      exact Nat.le_of_lt hlt

theorem parse_shortens (total : Nat) (sourcesCount : Int32) (options : ParseOptions) :
    Shortens (Parse.turn total sourcesCount options) := by
  intro t remain t' rest hne h
  have hsep : (Parse.separators t remain).2.length ≤ remain.length := by
    unfold Parse.separators
    split
    · simp only [semicolons_semicolonRuns]
      rw [semicolons_eq]
      exact (List.dropWhile_sublist _).length_le
    · exact Nat.le_refl _
  simp only [Parse.turn] at h
  split at h
  · next hnil =>
      rw [Except.ok.injEq] at h
      rw [h] at hnil
      rw [show rest = [] from hnil]
      exact List.length_pos_of_ne_nil hne
  · refine Nat.lt_of_lt_of_le ?_ hsep
    unfold Parse.segment at h
    obtain ⟨⟨d, r₁⟩, hread₁, h⟩ := except_bind_ok.1 h
    obtain ⟨column, -, h⟩ := except_bind_ok.1 h
    refine Nat.lt_of_le_of_lt ?_ (length_readVlq hread₁)
    simp only at h
    split at h
    · obtain ⟨-, rfl⟩ := Prod.mk.inj (Except.ok.inj h)
      exact length_skipComma _
    · unfold Parse.fields at h
      obtain ⟨⟨d₂, r₂⟩, hread₂, h⟩ := except_bind_ok.1 h
      obtain ⟨_, -, h⟩ := except_bind_ok.1 h
      obtain ⟨⟨d₃, r₃⟩, hread₃, h⟩ := except_bind_ok.1 h
      obtain ⟨_, -, h⟩ := except_bind_ok.1 h
      obtain ⟨⟨d₄, r₄⟩, hread₄, h⟩ := except_bind_ok.1 h
      obtain ⟨_, -, h⟩ := except_bind_ok.1 h
      obtain ⟨⟨_, r₅⟩, hname, h⟩ := except_bind_ok.1 h
      obtain ⟨-, rfl⟩ := Prod.mk.inj (Except.ok.inj h)
      have h₂ := length_readVlq hread₂
      have h₃ := length_readVlq hread₃
      have h₄ := length_readVlq hread₄
      have h₅ := length_parse_name hname
      have h₆ := length_skipComma r₅
      omega

/-! ## Both lookups find the same -/

/-- `parse` with its kernel is the scalar loop, and a sort. -/
theorem parse_eq {kernel : Kernel} (hkernel : kernel.Resumes) (disableSimd : Bool) (bytes : Bytes)
    (sourcesCount : Int32) (inputLineCount : Nat) (options : ParseOptions) :
    parse kernel disableSimd bytes sourcesCount inputLineCount options =
      (scan (Parse.turn bytes.length sourcesCount options) Parse.init bytes).map fun t =>
        ⟨if t.needsSort && options.sort then sortMappings t.mappings else t.mappings,
          inputLineCount⟩ := by
  unfold parse
  by_cases hsimd : bytes.length ≥ simdThreshold ∧ disableSimd = false
  · rw [if_pos hsimd, ← hkernel bytes sourcesCount options hsimd.1]
    rfl
  · rw [if_neg hsimd]
    rfl

/-- **One mapping from two formats.**  While no window of the blob starts beyond
`u32::MAX`, a lookup in it and in the parsed list find the same mapping: the last
at or before the position, on the position's line. -/
theorem find_fromVlq_eq_findMapping {kernel : Kernel} (hkernel : kernel.Resumes)
    {disableSimd : Bool} {vlq : Bytes} {hint : UInt32} {m : InternalSourceMap}
    {sourcesCount : Int32} {inputLineCount : Nat} {options : ParseOptions} {psm : ParsedSourceMap}
    (hvlq : fromVlq vlq hint = some (.ok m))
    (hparse : parse kernel disableSimd vlq sourcesCount inputLineCount options = .ok psm)
    (horder : InOrder (appended 0 (vlqCalls vlq))) (hfit : OffsetsFit (vlqCalls vlq))
    (line column : Int32) :
    ∃ found, m.find line column = some found ∧
      found.map Mapping.place = (findMapping psm.mappings line column).map Mapping.place ∧
      found = lookup (appended 0 (vlqCalls vlq)) line column := by
  obtain ⟨s, hs⟩ : ∃ s, scan FromVlq.turn FromVlq.init vlq = .ok s := by
    unfold fromVlq at hvlq
    split at hvlq
    · exact absurd (Option.some.inj hvlq) (by simp)
    · next s hs => exact ⟨s, hs⟩
  have hcalls : vlqCalls vlq = s.calls := by rw [vlqCalls, hs]
  rw [hcalls] at horder hfit ⊢
  rw [parse_eq hkernel] at hparse
  obtain ⟨t, ht⟩ : ∃ t, scan (Parse.turn vlq.length sourcesCount options) Parse.init vlq = .ok t := by
    revert hparse
    rcases scan (Parse.turn vlq.length sourcesCount options) Parse.init vlq with e | t
    · exact fun h => absurd h (by rintro ⟨⟩)
    · exact fun _ => ⟨t, rfl⟩
  have hagree := scan_lockstep Agree Agree.init hs ht fun _ h hs ht => h.turn hs ht
  refine ⟨lookup (appended 0 s.calls) line column, ?_, ?_, rfl⟩
  · obtain ⟨blob, hblob, hdecode⟩ := decode_finalize s.calls (Builder.init.run s.calls).count.toNat
      (max hint.toNat (s.maxOriginalLine.toInt.toNat + 1)) hfit
    simp only [fromVlq, hs, hblob, Option.map_some, Option.some.injEq, Except.ok.injEq] at hvlq
    rw [hvlq] at hdecode
    obtain ⟨ws, hm, hrows⟩ := windows_of_decode hdecode
    rw [hrows] at horder ⊢
    exact find_eq hm horder
  · have hsorted : psm.mappings = t.mappings := by
      rw [ht] at hparse
      rw [← Except.ok.inj hparse]
      simp only [sortMappings_of_inOrder hagree.rows horder, ite_self]
    rw [hsorted]
    exact (findMapping_eq hagree.rows horder line column).symm

/-- A kernel that leaves everything to the scalar loop. -/
def idleKernel : Kernel := fun _ _ => ⟨[], 0, 0, 0, 0, 0, 0, false, false, 0⟩

theorem idleKernel_resumes : idleKernel.Resumes := by
  intro bytes sourcesCount options _
  have hstate : (parseSimd idleKernel bytes sourcesCount options).1 = Parse.init := by
    unfold parseSimd
    cases options.allowNames <;> rfl
  rw [hstate]
  rfl

/-- `AAAA,KAAA;CACA`. -/
def threeSegments : Bytes := [65, 65, 65, 65, 44, 75, 65, 65, 65, 59, 67, 65, 67, 65]

theorem threeSegments_calls : vlqCalls threeSegments =
    [.mapping ⟨0, 0, 0, 0⟩, .mapping ⟨5, 0, 0, 0⟩, .lineSeparator, .mapping ⟨1, 0, 1, 0⟩] := by
  decide

theorem find_fromVlq_eq_findMapping_three_segments :
    ∃ m psm, fromVlq threeSegments 3 = some (.ok m) ∧
      parse idleKernel false threeSegments 1 3 ⟨true, true⟩ = .ok psm ∧
      ∃ found, m.find 0 9 = some found ∧
        found.map Mapping.place = (findMapping psm.mappings 0 9).map Mapping.place ∧
        found = lookup (appended 0 (vlqCalls threeSegments)) 0 9 := by
  obtain ⟨m, hm⟩ : ∃ m, fromVlq threeSegments 3 = some (.ok m) := by
    have h : (fromVlq threeSegments 3).any (fun r => r.toOption.isSome) = true := by
      decide
    revert h
    rcases fromVlq threeSegments 3 with _ | _ | m
    · exact fun h => absurd h (by simp)
    · exact fun h => absurd h (by rintro ⟨⟩)
    · exact fun _ => ⟨m, rfl⟩
  obtain ⟨psm, hpsm⟩ : ∃ psm, parse idleKernel false threeSegments 1 3 ⟨true, true⟩ = .ok psm := by
    have h : (parse idleKernel false threeSegments 1 3 ⟨true, true⟩).toOption.isSome = true := by
      decide
    revert h
    rcases parse idleKernel false threeSegments 1 3 ⟨true, true⟩ with _ | psm
    · exact fun h => absurd h (by rintro ⟨⟩)
    · exact fun _ => ⟨psm, rfl⟩
  refine ⟨m, psm, hm, hpsm, find_fromVlq_eq_findMapping idleKernel_resumes hm hpsm ?_ ?_ 0 9⟩
  · rw [threeSegments_calls]
    simp [InOrder, appended]
    decide
  · rw [threeSegments_calls]
    have hall : ∀ pre ∈ [Call.mapping ⟨0, 0, 0, 0⟩, .mapping ⟨5, 0, 0, 0⟩, .lineSeparator,
        .mapping ⟨1, 0, 1, 0⟩].inits, (Builder.init.run pre).winStream.length < 2 ^ 32 := by
      decide
    exact fun pre hpre _ => hall pre ((List.mem_inits _ _).mpr hpre)

/-! ## Beyond 4 GiB

The blob of `AAAA,AAAA,..,AAAA,KAAA`: windows of equal rows, and one more that
starts 89 bytes beyond `u32::MAX + 1`.  `find` seeds itself there and stops. -/

theorem readVlq_encode (err : ε) (h : v ≠ Int32.minValue) (post : Bytes) :
    readVlq err (Vlq.encode v ++ post) = .ok (v, post) := by
  have hdecode := Vlq.decode_encode h post
  have hne := List.length_pos_of_ne_nil (Vlq.encode_subset v).1
  refine readVlq_eq_ok.2 ?_
  rw [hdecode]
  exact ⟨Nat.ne_of_gt hne, rfl, by simp⟩

theorem readVlq_zero (err : ε) (post : Bytes) :
    readVlq err (65 :: post) = .ok (0, post) := readVlq_encode err (show (0 : Int32) ≠ _ by decide) post

theorem readVlq_five (err : ε) (post : Bytes) :
    readVlq err (75 :: post) = .ok (5, post) := readVlq_encode err (show (5 : Int32) ≠ _ by decide) post

theorem except_ok_bind (a : α) (f : α → Except ε β) :
    ((Except.ok a : Except ε α) >>= f) = f a := rfl

/-- The first byte decides whether a turn is at the end of a segment. -/
theorem atEnd_zero (rest : Bytes) : atEnd (65 :: rest) = false := rfl

theorem accumulate_zero : accumulate 0 0 = .ok 0 := by decide

theorem accumulate_five : accumulate 0 5 = .ok 5 := by decide

/-- `AAAA,` in front. -/
theorem fromVlq_turn_zero (calls : List Call) (rest : Bytes) :
    FromVlq.turn ⟨0, 0, 0, 0, 0, calls⟩ (65 :: 65 :: 65 :: 65 :: 44 :: rest) =
      .ok (⟨0, 0, 0, 0, 0, calls ++ [zeroCall]⟩, rest) := by
  have hsep : FromVlq.separators ⟨0, 0, 0, 0, 0, calls⟩ (65 :: 65 :: 65 :: 65 :: 44 :: rest) =
      (⟨0, 0, 0, 0, 0, calls⟩, 65 :: 65 :: 65 :: 65 :: 44 :: rest) := if_neg (by simp [semicolon])
  simp only [FromVlq.turn, hsep, List.cons_ne_nil, if_false, FromVlq.segment, readVlq_zero,
    except_ok_bind, accumulate_zero, atEnd_zero, Bool.false_eq_true, FromVlq.fields]
  rfl

theorem fromVlq_turn_five (calls : List Call) :
    FromVlq.turn ⟨0, 0, 0, 0, 0, calls⟩ [75, 65, 65, 65] =
      .ok (⟨5, 0, 0, 0, 0, calls ++ [.mapping ⟨5, 0, 0, 0⟩]⟩, []) := by
  have hsep : FromVlq.separators ⟨0, 0, 0, 0, 0, calls⟩ [75, 65, 65, 65] =
      (⟨0, 0, 0, 0, 0, calls⟩, [75, 65, 65, 65]) := if_neg (by simp [semicolon])
  simp only [FromVlq.turn, hsep, List.cons_ne_nil, if_false, FromVlq.segment, readVlq_zero,
    readVlq_five, except_ok_bind, accumulate_zero, accumulate_five, atEnd_zero, Bool.false_eq_true,
    FromVlq.fields]
  rfl


theorem parse_turn_zero (total : Nat) (mappings : List Mapping) (rest : Bytes) :
    Parse.turn total 1 ⟨false, false⟩ ⟨⟨0, 0⟩, ⟨0, 0⟩, 0, 0, false, false, mappings⟩
        (65 :: 65 :: 65 :: 65 :: 44 :: rest) =
      .ok (⟨⟨0, 0⟩, ⟨0, 0⟩, 0, 0, false, false, mappings ++ [⟨⟨0, 0⟩, ⟨0, 0⟩, 0, -1⟩]⟩, rest) := by
  have hsep : Parse.separators ⟨⟨0, 0⟩, ⟨0, 0⟩, 0, 0, false, false, mappings⟩
      (65 :: 65 :: 65 :: 65 :: 44 :: rest) =
      (⟨⟨0, 0⟩, ⟨0, 0⟩, 0, 0, false, false, mappings⟩, 65 :: 65 :: 65 :: 65 :: 44 :: rest) :=
    if_neg (by simp [semicolon])
  simp only [Parse.turn, hsep, List.cons_ne_nil, if_false, Parse.segment, readVlq_zero,
    except_ok_bind, Parse.add, atEnd_zero, Bool.false_eq_true, Parse.fields]
  rfl

theorem parse_turn_five (total : Nat) (mappings : List Mapping) :
    Parse.turn total 1 ⟨false, false⟩ ⟨⟨0, 0⟩, ⟨0, 0⟩, 0, 0, false, false, mappings⟩
        [75, 65, 65, 65] =
      .ok (⟨⟨0, 5⟩, ⟨0, 0⟩, 0, 0, false, false, mappings ++ [⟨⟨0, 5⟩, ⟨0, 0⟩, 0, -1⟩]⟩, []) := by
  have hsep : Parse.separators ⟨⟨0, 0⟩, ⟨0, 0⟩, 0, 0, false, false, mappings⟩ [75, 65, 65, 65] =
      (⟨⟨0, 0⟩, ⟨0, 0⟩, 0, 0, false, false, mappings⟩, [75, 65, 65, 65]) :=
    if_neg (by simp [semicolon])
  simp only [Parse.turn, hsep, List.cons_ne_nil, if_false, Parse.segment, readVlq_zero,
    readVlq_five, except_ok_bind, Parse.add, atEnd_zero, Bool.false_eq_true, Parse.fields]
  rfl

/-- `AAAA,`, `n` times, and `AAAA,KAAA`. -/
def zerosThenFive (n : Nat) : Bytes :=
  (List.replicate n [65, 65, 65, 65, 44]).flatten ++ [65, 65, 65, 65, 44, 75, 65, 65, 65]

def fiveCall : Call := .mapping ⟨5, 0, 0, 0⟩

theorem fromVlq_scan_zerosThenFive (n : Nat) :
    scan FromVlq.turn FromVlq.init (zerosThenFive n) =
      .ok ⟨5, 0, 0, 0, 0, List.replicate n zeroCall ++ [zeroCall, fiveCall]⟩ := by
  have hzero := scan_replicate fromVlq_shortens [65, 65, 65, 65, 44] (by simp)
    (f := fun i => ⟨0, 0, 0, 0, 0, List.replicate i zeroCall⟩)
    (fun i rest => by rw [List.replicate_succ']; exact fromVlq_turn_zero _ rest) n
    [65, 65, 65, 65, 44, 75, 65, 65, 65] 0
  rw [Nat.zero_add] at hzero
  refine hzero.trans ?_
  rw [scan_turn fromVlq_shortens (by simp) (fromVlq_turn_zero _ [75, 65, 65, 65]),
    scan_turn fromVlq_shortens (by simp) (fromVlq_turn_five _), scan_nil, List.append_assoc]
  rfl

theorem parse_scan_zerosThenFive (n total : Nat) :
    ∃ t, scan (Parse.turn total 1 ⟨false, false⟩) Parse.init (zerosThenFive n) = .ok t := by
  have hzero := scan_replicate (parse_shortens total 1 ⟨false, false⟩) [65, 65, 65, 65, 44]
    (by simp)
    (f := fun i => ⟨⟨0, 0⟩, ⟨0, 0⟩, 0, 0, false, false, List.replicate i ⟨⟨0, 0⟩, ⟨0, 0⟩, 0, -1⟩⟩)
    (fun i rest => by rw [List.replicate_succ']; exact parse_turn_zero total _ rest) n
    [65, 65, 65, 65, 44, 75, 65, 65, 65] 0
  have hlast := scan_turn (parse_shortens total 1 ⟨false, false⟩) (by simp)
    (parse_turn_zero total (List.replicate (0 + n) ⟨⟨0, 0⟩, ⟨0, 0⟩, 0, -1⟩) [75, 65, 65, 65])
  have hfive := scan_turn (parse_shortens total 1 ⟨false, false⟩) (by simp) (parse_turn_five total
    (List.replicate (0 + n) ⟨⟨0, 0⟩, ⟨0, 0⟩, 0, -1⟩ ++ [⟨⟨0, 0⟩, ⟨0, 0⟩, 0, -1⟩]))
  exact ⟨_, hzero.trans (hlast.trans hfive)⟩

def fiveRow : State := ⟨0, 5, 0, 0, 0⟩

theorem appended_zerosThenFive (n : Nat) :
    appended 0 (List.replicate n zeroCall ++ [zeroCall, fiveCall]) =
      List.replicate n zeroRow ++ [zeroRow, fiveRow] := by
  have hsep : separatorCount (List.replicate n zeroCall) = 0 := by
    rw [separatorCount, List.count_replicate]
    rfl
  rw [appended_append, appended_zero, hsep]
  rfl

theorem zerosThenFive_inOrder (n : Nat) : InOrder (List.replicate n zeroRow ++ [zeroRow, fiveRow]) := by
  refine List.pairwise_append.mpr ⟨List.pairwise_replicate.mpr (.inr (by decide)), ?_, ?_⟩
  · simp
    decide
  · intro a ha b hb
    obtain rfl := (List.mem_replicate.mp ha).2
    rcases List.mem_cons.mp hb with rfl | hb
    · decide
    · obtain rfl := List.mem_singleton.mp hb
      decide

/-- The lookup that is wanted at column 10. -/
theorem lookup_zerosThenFive (n : Nat) :
    lookup (List.replicate n zeroRow ++ [zeroRow, fiveRow]) 0 10 = some fiveRow.toMapping := by
  have hall : (List.replicate n zeroRow ++ [zeroRow, fiveRow]).takeWhile
      (fun s => s.lessOrEqual 0 10) = List.replicate n zeroRow ++ [zeroRow, fiveRow] := by
    rw [List.takeWhile_append_of_pos]
    · rfl
    · intro s hs
      obtain rfl := (List.mem_replicate.mp hs).2
      decide
  rw [lookup, hall, List.getLast?_append]
  rfl

/-- The blob: the windows of equal rows and the last. -/
theorem zerosThenFive_committed (k : Nat) : Committed (fun _ => True)
    (Builder.init.run (List.replicate (64 * k) zeroCall ++ [zeroCall, fiveCall])).flushWindow
    (List.replicate k zeroWindow ++ [⟨zeroRow, [fiveRow]⟩]) := by
  obtain ⟨hws, hpending⟩ := zero_windows_append k
    (show (appended 0 [zeroCall, fiveCall]).length < 64 by decide)
  have hrows : appended 0 [zeroCall, fiveCall] = [zeroRow, fiveRow] := rfl
  rw [hrows] at hpending
  exact hws.flushWindow_cons hpending (by decide) trivial

/-- A window whose count byte is zero is done at its seed. -/
theorem parse_done {bytes : Bytes} {start : Nat} (hcount : bytes[start]? = some 0)
    (hflags : bytes[start + 1]? = some 0) (hlen : start + 8 ≤ bytes.length) :
    ∃ r, WindowReader.dangling.parse bytes start = some r ∧ r.done = true := by
  have hu16 (off : Nat) (hoff : off + 2 ≤ bytes.length) : ∃ v, u16At bytes off = some v := by
    rw [u16At, slice, if_pos hoff]
    exact ⟨_, rfl⟩
  obtain ⟨gc, hgc⟩ := hu16 (start + 2) (by omega)
  obtain ⟨ol, hol⟩ := hu16 (start + 4) (by omega)
  obtain ⟨oc, hoc⟩ := hu16 (start + 6) (by omega)
  simp only [WindowReader.parse, WinHdr.countOff, WinHdr.flagsOff, WinHdr.genColLenOff,
    WinHdr.origLineLenOff, WinHdr.origColLenOff, Nat.add_zero, hcount, hflags, hgc, hol, hoc,
    Option.bind_eq_bind, Option.bind_some, if_true]
  exact ⟨_, rfl, by rfl⟩

theorem findLoop_of_done {r : WindowReader} (h : r.done = true) (line column : Int32) (fuel : Nat)
    (s : State) : InternalSourceMap.findLoop line column fuel r s = some s := by
  cases fuel <;> rw [InternalSourceMap.findLoop, if_pos h]

theorem zeroWindow_zeros : zeroWindow.bytes[89]? = some 0 ∧ zeroWindow.bytes[90]? = some 0 := by
  decide +kernel

/-- The stream begins as its first window does. -/
theorem getElem?_zerosFirst {i : Nat} (hk : k ≠ 0) (ws : List Window) (tail : Bytes) (hi : i < 95) :
    ((List.replicate k zeroWindow ++ ws).flatMap Window.bytes ++ tail)[i]? = zeroWindow.bytes[i]? := by
  obtain ⟨j, rfl⟩ := Nat.exists_eq_succ_of_ne_zero hk
  have hlen : i < zeroWindow.bytes.length := by rwa [zeroWindow_length]
  rw [List.replicate_succ, List.cons_append, List.flatMap_cons, List.append_assoc,
    List.getElem?_append_left hlen]

/-- The lookup in the blob stops at the seed of the misplaced window. -/
theorem find_zerosThenFive (hk : k * 95 < 2 ^ 32 + 95) (hlast : k * 95 % 2 ^ 32 = 89) (hint : UInt32) :
    ∃ m, fromVlq (zerosThenFive (64 * k)) hint = some (.ok m) ∧
      m.find 0 10 = some (some zeroRow.toMapping) := by
  have hws := zerosThenFive_committed k
  set ws := List.replicate k zeroWindow ++ [⟨zeroRow, [fiveRow]⟩] with hwsdef
  set b := (Builder.init.run (List.replicate (64 * k) zeroCall ++ [zeroCall, fiveCall])).flushWindow
    with hb
  have hbytes := length_zeroWindows k
  have hlen : b.syncEntries.length = k + 1 := by
    rw [hws.entries, syncEntriesFrom_length, hwsdef]
    simp
  have hstream : k * 95 ≤ b.winStream.length ∧ b.winStream.length < 2 ^ 63 := by
    have hsmall := (windowBytes_bounds zeroRow (show [fiveRow].length < 64 by decide)).2
    rw [hws.stream, hwsdef, List.flatMap_append, List.length_append, hbytes]
    simp only [List.flatMap_singleton, Window.bytes]
    omega
  have htable : headerSize + b.syncEntries.length * syncEntrySize < 2 ^ 32 := by
    rw [hlen, headerSize, syncEntrySize]
    omega
  -- the blob
  have hscan := fromVlq_scan_zerosThenFive (64 * k)
  have hfinalize : (Builder.init.run (List.replicate (64 * k) zeroCall ++
      [zeroCall, fiveCall])).finalize = some _ := if_pos ⟨htable, by rw [← hb, hlen]; omega⟩
  simp only [fromVlq, hscan, hfinalize, Option.map_some]
  refine ⟨_, rfl, ?_⟩
  rw [← hb]
  have hblob := finalize_blobOf b.winStream htable hstream.2
    (Builder.init.run (List.replicate (64 * k) zeroCall ++ [zeroCall, fiveCall])).count.toNat
    (max hint.toNat ((0 : Int32).toInt.toNat + 1))
  set m := fillHeader (List.replicate 24 0 ++ leBytes 4 b.syncEntries.length ++
      leBytes 4 (headerSize + b.syncEntries.length * syncEntrySize) ++
      b.syncEntries.flatMap SyncEntry.bytes ++ b.winStream ++ List.replicate streamTailPad 0)
    (Builder.init.run (List.replicate (64 * k) zeroCall ++ [zeroCall, fiveCall])).count.toNat
    (max hint.toNat ((0 : Int32).toInt.toNat + 1))
  have hcount : (UInt32.ofNat b.syncEntries.length).toNat = k + 1 := by
    rw [UInt32.toNat_ofNat_of_lt' hblob.count_lt, hlen]
  -- every entry is at the start of the file
  have hentry {i : Nat} (hi : i < k + 1) :
      m.syncEntry i = some (syncEntryOf zeroRow (UInt32.ofNat (windowStart ws i))) := by
    refine hblob.syncEntry ?_
    obtain ⟨w, hw, hfirst⟩ : ∃ w, ws[i]? = some w ∧ w.first = zeroRow := by
      rcases Nat.lt_succ_iff_lt_or_eq.mp hi with hi | rfl
      · refine ⟨zeroWindow, ?_, rfl⟩
        rw [hwsdef, List.getElem?_append_left (by simpa using hi), List.getElem?_replicate,
          if_pos hi]
      · refine ⟨⟨zeroRow, [fiveRow]⟩, ?_, rfl⟩
        rw [hwsdef, List.getElem?_append_right (by simp)]
        simp
    rw [hws.entries, syncEntriesFrom_get ws 0 hw, hfirst, Nat.zero_add]
  have hbisect : bisect (fun mid => (m.syncEntry mid).map (·.lessOrEqual 0 10)) 0 (k + 1) =
      some (k + 1) := by
    refine bisect_eq 0 _ (Nat.zero_le _) (Nat.le_refl _) fun i _ hi => ?_
    rw [hentry hi, decide_eq_true hi]
    rfl
  have hne : ¬ UInt32.ofNat b.syncEntries.length = 0 := by
    intro h
    rw [h] at hcount
    exact absurd hcount (by simp)
  have hlocate : m.locateWindow 0 10 = some (some k) := by
    simp only [InternalSourceMap.locateWindow, hblob.syncCount, Option.bind_eq_bind,
      Option.bind_some, if_neg hne, hcount, hbisect, Nat.add_one_ne_zero, if_false,
      Nat.add_sub_cancel]
    rfl
  -- the last one points into the first window
  have hstart : windowStart ws k = k * 95 := by
    rw [windowStart, hwsdef, List.take_left' (by simp), hbytes]
  have hoff : (syncEntryOf zeroRow (UInt32.ofNat (windowStart ws k))).byteOffset.toNat = 89 := by
    rw [hstart]
    show (UInt32.ofNat (k * 95)).toNat = 89
    rw [UInt32.toNat_ofNat', hlast]
  have hne : k ≠ 0 := by
    rintro rfl
    exact absurd hlast (by decide)
  have hfront {i : Nat} (hi : i < 95) : (b.winStream ++ [0])[i]? = zeroWindow.bytes[i]? := by
    rw [hws.stream, hwsdef]
    exact getElem?_zerosFirst hne _ _ hi
  obtain ⟨r, hparse, hdone⟩ := parse_done
    ((hfront (show 89 < 95 by decide)).trans zeroWindow_zeros.1)
    ((hfront (show 90 < 95 by decide)).trans zeroWindow_zeros.2)
    (by rw [List.length_append]; omega)
  have hseed : m.seedWindow k .dangling = some (zeroRow, r) := by
    simp only [InternalSourceMap.seedWindow, hentry (Nat.lt_succ_self k), hblob.stream, hoff,
      hparse, Option.bind_eq_bind, Option.bind_some]
    rfl
  rw [InternalSourceMap.find, hlocate, Option.bind_eq_bind, Option.bind_some]
  simp only [hseed, Option.bind_eq_bind, Option.bind_some, findLoop_of_done hdone]
  rfl

/-- `AAAA,` 2893451712 times and `AAAA,KAAA`: at column 10 the list has the mapping
of column 5, and the blob that of column 0. -/
theorem find_fromVlq_zeros_ne :
    (∃ m, fromVlq (zerosThenFive 2893451712) 0 = some (.ok m) ∧
      m.find 0 10 = some (some ⟨⟨0, 0⟩, ⟨0, 0⟩, 0, -1⟩)) ∧
    InOrder (appended 0 (vlqCalls (zerosThenFive 2893451712))) ∧
    ∀ kernel : Kernel, kernel.Resumes → ∃ psm,
      parse kernel false (zerosThenFive 2893451712) 1 0 ⟨false, false⟩ = .ok psm ∧
      (findMapping psm.mappings 0 10).map Mapping.place = some (⟨0, 5⟩, ⟨0, 0⟩, 0) := by
  have hscan := fromVlq_scan_zerosThenFive 2893451712
  have hcalls : appended 0 (vlqCalls (zerosThenFive 2893451712)) =
      List.replicate 2893451712 zeroRow ++ [zeroRow, fiveRow] := by
    rw [vlqCalls, hscan, appended_zerosThenFive]
  refine ⟨?_, ?_, fun kernel hkernel => ?_⟩
  · exact find_zerosThenFive (k := 45210183) (by decide) (by decide) 0
  · rw [hcalls]
    exact zerosThenFive_inOrder _
  · obtain ⟨t, ht⟩ := parse_scan_zerosThenFive 2893451712 (zerosThenFive 2893451712).length
    have hagree := scan_lockstep Agree Agree.init hscan ht fun _ h hs ht => h.turn hs ht
    have hrows := hagree.rows
    simp only [appended_zerosThenFive] at hrows
    refine ⟨⟨t.mappings, 0⟩, ?_, ?_⟩
    · rw [parse_eq hkernel, ht, Except.map, Bool.and_false]
      rfl
    · rw [findMapping_eq hrows (zerosThenFive_inOrder _), lookup_zerosThenFive]
      rfl

end OhosBun.SourceMap
