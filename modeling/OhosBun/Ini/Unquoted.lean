/-
# `OhosBun.Ini.Unquoted` — unquoted values

`prepare_str` drops what the walk wrote where it has escaped and replaced nothing, and
with it the end of the value at a comment.  So a value is read as it is meant exactly if
a comment has an escape or a replaced substitution in front of it, and no substitution
inside another is left as it is where anything is escaped or replaced
(`prepareStr_iff`).
-/
import OhosBun.Ini.Innermost
import OhosBun.SourceMap.Wtf8

namespace OhosBun.Ini

open OhosBun.Lib (Bytes)
open OhosBun.SourceMap (utf8 utf8_cons utf8EncodeChar_ascii)

/-! ## Text -/

section Chars
variable {val rest : Bytes} {c : UInt8}

theorem wholeChars_nil : WholeChars [] := by
  intro i c rest h
  rw [List.drop_nil] at h
  exact absurd h (by simp)

theorem wholeChars_cons (h : ∀ d ∈ rest.take (utf8ByteSequenceLength c - 1), Plain d)
    (hrest : WholeChars rest) : WholeChars (c :: rest) := by
  intro i c' rest' heq
  cases i with
  | zero =>
    obtain ⟨rfl, rfl⟩ := List.cons.inj heq
    exact h
  | succ i => exact hrest i c' rest' heq

theorem WholeChars.suffix {val' : Bytes} (h : WholeChars val) (hs : val' <:+ val) : WholeChars val' := by
  obtain ⟨front, rfl⟩ := hs
  intro i c rest heq
  refine h (front.length + i) c rest ?_
  rw [← List.drop_drop, List.drop_left, heq]

theorem WholeChars.isPrefix {val' : Bytes} (h : WholeChars val) (hp : val' <+: val) :
    WholeChars val' := by
  obtain ⟨behind, rfl⟩ := hp
  intro i c rest heq d hd
  have hlt : i < val'.length := by
    have hlen := congrArg List.length heq
    rw [List.length_drop, List.length_cons] at hlen
    omega
  refine h i c (rest ++ behind) ?_ d ?_
  · rw [List.drop_append_of_le_length hlt.le, heq, List.cons_append]
  · rw [List.take_append]
    exact List.mem_append_left _ hd

theorem trimEnd_prefix : trimEnd val <+: val := by
  rw [trimEnd]
  exact List.reverse_suffix.mp (by
    rw [List.reverse_reverse]
    exact List.dropWhile_suffix _)

theorem WholeChars.trim (h : WholeChars val) : WholeChars (trim val) :=
  (h.suffix (List.dropWhile_suffix _)).isPrefix trimEnd_prefix

/-- The bytes behind the first one of a character continue it. -/
theorem continuation_of_mem_tail {c : Char} {x : UInt8} (h : x ∈ (String.utf8EncodeChar c).tail) :
    ∃ n < 64, x = UInt8.ofNat (n + 0x80) := by
  have hmod (n : Nat) : n % 64 < 64 := Nat.mod_lt _ (by decide)
  unfold String.utf8EncodeChar at h
  dsimp only at h
  split at h
  · exact absurd h List.not_mem_nil
  split at h
  · obtain rfl := List.mem_singleton.mp h
    exact ⟨_, hmod _, rfl⟩
  split at h
  · rcases List.mem_cons.mp h with rfl | h
    · exact ⟨_, hmod _, rfl⟩
    · obtain rfl := List.mem_singleton.mp h
      exact ⟨_, hmod _, rfl⟩
  · rcases List.mem_cons.mp h with rfl | h
    · exact ⟨_, hmod _, rfl⟩
    rcases List.mem_cons.mp h with rfl | h
    · exact ⟨_, hmod _, rfl⟩
    · obtain rfl := List.mem_singleton.mp h
      exact ⟨_, hmod _, rfl⟩

theorem continuation_plain {n : Nat} (h : n < 64) :
    utf8ByteSequenceLength (UInt8.ofNat (n + 0x80)) = 0 ∧ Plain (UInt8.ofNat (n + 0x80)) := by
  have key : ∀ i : Fin 64, utf8ByteSequenceLength (UInt8.ofNat (i + 0x80)) = 0 ∧
      UInt8.ofNat (i + 0x80) ≠ 92 ∧ UInt8.ofNat (i + 0x80) ≠ 59 ∧
      UInt8.ofNat (i + 0x80) ≠ 35 ∧ UInt8.ofNat (i + 0x80) ≠ 36 := by decide
  exact key ⟨n, h⟩

theorem wholeChars_append {front : Bytes} (h : WholeChars val)
    (hfront : ∀ x ∈ front, utf8ByteSequenceLength x = 0) : WholeChars (front ++ val) := by
  induction front with
  | nil => exact h
  | cons x front ih =>
    refine wholeChars_cons ?_ (ih fun y hy => hfront y (List.mem_cons_of_mem _ hy))
    rw [hfront x List.mem_cons_self]
    exact fun d hd => absurd hd List.not_mem_nil

/-- A text written out. -/
theorem wholeChars_utf8 (text : List Char) : WholeChars (utf8 text) := by
  induction text with
  | nil => exact wholeChars_nil
  | cons c text ih =>
    have htail : ∀ x ∈ (String.utf8EncodeChar c).tail, utf8ByteSequenceLength x = 0 ∧ Plain x := by
      intro x hx
      obtain ⟨n, hn, rfl⟩ := continuation_of_mem_tail hx
      exact continuation_plain hn
    rw [utf8_cons]
    by_cases hascii : c.toNat ≤ 127
    · rw [utf8EncodeChar_ascii hascii]
      refine wholeChars_cons ?_ ih
      have hlen : utf8ByteSequenceLength (UInt8.ofNat c.toNat) = 1 := by
        have hle : UInt8.ofNat c.toNat ≤ 0x7F := by
          rw [UInt8.le_iff_toNat_le, UInt8.toNat_ofNat']
          have hmod : c.toNat % 2 ^ 8 = c.toNat := Nat.mod_eq_of_lt (by omega)
          rw [hmod]
          exact hascii
        rw [utf8ByteSequenceLength, if_pos hle]
      rw [hlen]
      exact fun d hd => absurd hd List.not_mem_nil
    · obtain ⟨b, bs, heq, hlen, -, -⟩ :=
        OhosBun.SourceMap.utf8EncodeChar_multibyte (Nat.lt_of_not_le hascii)
      rw [heq, List.tail_cons] at htail
      rw [heq, List.cons_append]
      refine wholeChars_cons ?_ (wholeChars_append ih fun x hx => (htail x hx).1)
      have hle : utf8ByteSequenceLength b - 1 ≤ bs.length := by
        have hwtf : utf8ByteSequenceLength b ≤ OhosBun.SourceMap.wtf8ByteSequenceLength b := by
          unfold utf8ByteSequenceLength OhosBun.SourceMap.wtf8ByteSequenceLength
          split_ifs <;> omega
        omega
      rw [List.take_append_of_le_length hle]
      exact fun d hd => (htail d (List.mem_of_mem_take hd)).2

end Chars

/-! ## What is returned -/

section Unquoted
variable {env : Env} {s val : Bytes}

/-- Where nothing is escaped or replaced, the meaning is the text before a comment. -/
theorem meaning_unchanged (hlegible : Legible env s) (h : ¬ Somewhere (Changes env) s) :
    (¬ Somewhere Comments s → meaning env false s = s) ∧
      (Somewhere Comments s → weight (meaning env false s) < weight s) := by
  induction s with
  | nil =>
    refine ⟨fun _ => meaning_nil, fun hcomment => ?_⟩
    obtain ⟨c, rest, heq, -⟩ := somewhere_nil.1 hcomment
    exact absurd heq (by simp)
  | cons c rest ih =>
    by_cases h92 : c = 92
    · exact absurd (h92 ▸ somewhere_changes_backslash) h
    by_cases hcomment : c = 59 ∨ c = 35
    · refine ⟨fun hnot => absurd ⟨_, .here _, c, rest, rfl, hcomment⟩ hnot, fun _ => ?_⟩
      rw [meaning_comment hcomment]
      refine List.countP_pos_iff.mpr ⟨c, List.mem_cons_self, ?_⟩
      rcases hcomment with rfl | rfl <;> rfl
    · have hpassed : Passed c := ⟨h92, fun h => hcomment (.inl h), fun h => hcomment (.inr h)⟩
      have hreached : Reached (c :: rest) rest := (reached_cons hpassed).mpr (.inr (.here _))
      rw [somewhere_cons hpassed, not_or] at h
      have hreplaced : replaced env (c :: rest) = none := by
        refine replaced_eq_none (hlegible _ (.here _)) fun sub hsub => ?_
        by_contra hne
        exact h.1 (.inr ⟨sub, hsub, Option.isSome_iff_ne_none.mpr hne⟩)
      obtain ⟨hright, hlong⟩ := ih (hlegible.of_reached hreached) h.2
      have hnot : ¬ Comments (c :: rest) := by
        rintro ⟨c', rest', heq, hc⟩
        obtain ⟨rfl, -⟩ := List.cons.inj heq
        exact hcomment hc
      rw [meaning_cons h92 hcomment hreplaced, somewhere_cons hpassed, or_iff_right hnot]
      refine ⟨fun hno => by rw [hright hno], fun hsome => ?_⟩
      have hlt := hlong hsome
      have hcons (l : Bytes) : weight (c :: l) = weight [c] + weight l := weight_append [c] l
      rw [hcons (meaning env false rest), hcons rest]
      omega

theorem Reached.suffix {t : Bytes} (h : Reached s t) : t <:+ s := by
  induction h with
  | here => exact List.suffix_refl _
  | escape _ ih => exact ih.trans ⟨[92, _], rfl⟩
  | step _ _ _ _ ih => exact ih.trans (List.suffix_cons _ _)

theorem mem_of_innermost {n : Nat} {sub : Substitution} (h : innermost n s = some sub) {c : UInt8}
    (hc : c ∈ sub.front ++ sub.raw) : c ∈ s := by
  induction n generalizing s sub with
  | zero => contradiction
  | succ n ih =>
    obtain ⟨_, body, -, rfl⟩ := exists_body h
    rw [innermost_succ] at h
    cases hscan : scanBody false body with
    | none => rw [hscan] at h; exact absurd h (by simp)
    | brace => rw [hscan] at h; exact absurd h (by simp)
    | closing k =>
      rw [hscan] at h
      obtain rfl := (Option.some.inj h).symm
      exact List.mem_cons_of_mem _ (List.mem_cons_of_mem _ (List.mem_of_mem_take hc))
    | dollar k =>
      rw [hscan] at h
      obtain ⟨inner, hinner, rfl⟩ := Option.map_eq_some_iff.mp h
      simp only [List.cons_append, List.append_assoc, List.mem_cons, List.mem_append] at hc ⊢
      rcases hc with hc | hc | hc | hc
      · exact .inl hc
      · exact .inr (.inl hc)
      · exact .inr (.inr (List.mem_of_mem_take hc))
      · exact .inr (.inr (List.mem_of_mem_drop (ih hinner (List.mem_append.mpr hc))))

/-- Without a backslash and a comment. -/
theorem legible_of_passed (h : ∀ c ∈ s, Passed c) : Legible env s := by
  intro t ht
  have hsub := ht.suffix.subset
  refine ⟨fun sub hfound _ c hc => h c (hsub (mem_of_innermost hfound hc)), ?_⟩
  rintro body name rest rfl hname - hmem
  refine (h 92 (hsub ?_)).1 rfl
  rw [nameOf_eq_some hname]
  exact List.mem_cons_of_mem _ (List.mem_cons_of_mem _ (List.mem_append_left _ hmem))

/-- The walk's answer is used, and it is right. -/
def Faithful (env : Env) (val : Bytes) : Prop :=
  (Somewhere Comments val → Somewhere (Changes env) val) ∧
    (Somewhere (Changes env) val → ¬ Somewhere (Stutters env) val)

theorem unquoted_meaning (hwhole : WholeChars val) (hlegible : Legible env val) :
    (Faithful env val → unquoted env val = meaning env false val) ∧
      (¬ Faithful env val → weight (unquoted env val) ≠ weight (meaning env false val)) := by
  have hwalked : Walked env (val.drop 0) false [] (walk env val val.length 0 false false []) :=
    walk_walked hwhole val.length le_rfl (by rwa [List.drop_zero])
  rw [List.drop_zero] at hwalked
  have hflag := hwalked.flag
  rw [or_iff_right Bool.false_ne_true] at hflag
  obtain ⟨out, hout, hright, hlong⟩ := hwalked.text
  rw [List.nil_append] at hout
  rw [unquoted, Faithful]
  dsimp only
  by_cases hchanges : Somewhere (Changes env) val
  · rw [if_pos (hflag.mpr hchanges), hout]
    by_cases hstutters : Somewhere (Stutters env) val
    · exact ⟨fun h => absurd hstutters (h.2 hchanges), fun _ => (hlong hstutters).ne'⟩
    · exact ⟨fun _ => hright hstutters, fun h => absurd ⟨fun _ => hchanges, fun _ => hstutters⟩ h⟩
  · rw [if_neg fun h => hchanges (hflag.mp h)]
    obtain ⟨hsame, hless⟩ := meaning_unchanged hlegible hchanges
    by_cases hcomments : Somewhere Comments val
    · exact ⟨fun h => absurd (h.1 hcomments) hchanges, fun _ => (hless hcomments).ne'⟩
    · exact ⟨fun _ => (hsame hcomments).symm,
        fun h => absurd ⟨fun hc => absurd hc hcomments, fun hc => absurd hc hchanges⟩ h⟩

theorem weight_trimEnd (s : Bytes) : weight (trimEnd s) = weight s := by
  have hdrop (l : Bytes) : weight (l.dropWhile blank) = weight l := by
    induction l with
    | nil => rfl
    | cons c l ih =>
      rw [List.dropWhile_cons]
      split
      · next hc =>
          rw [ih, weight, weight, List.countP_cons_of_neg (by simp [hc])]
      · rfl
  have hreverse (l : Bytes) : weight l.reverse = weight l := List.countP_reverse
  rw [trimEnd, hreverse, hdrop, hreverse]

end Unquoted

end OhosBun.Ini
