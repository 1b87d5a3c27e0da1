/-
# `OhosBun.Ini.Value` — what an unquoted `.npmrc` value means

`meaning` reads a value once: an unescaped `;` or `#` ends it, a backslash escapes, and
an innermost substitution whose name is set, or that is optional, is replaced.  The walk
of `prepare_str` gives this text, except that it writes the text in front of a nested
substitution once more where that is not replaced (`Stutters`), and that it forgets what
it read where nothing was escaped or replaced.
-/
import OhosBun.Ini.EnvSubstitution

namespace OhosBun.Ini

open OhosBun.Lib (Bytes)

/-! ## The meaning of a value -/

/-- The name behind `${` and the text behind its `}`; there is none where a `$`, a `{` or
the end of the value comes first. -/
def nameOf (esc : Bool) : Bytes → Option (Bytes × Bytes)
  | [] => none
  | c :: rest =>
    let inName (esc : Bool) := (nameOf esc rest).map fun found => (c :: found.1, found.2)
    if esc then inName false
    else if c = 92 then inName true
    else if c = 125 then some ([], rest)
    else if c = 36 ∨ c = 123 ∨ c = 59 ∨ c = 35 then none
    else inName false

/-- What the substitution that the text starts with is replaced by, and the text behind
it. -/
def replaced (env : Env) (s : Bytes) : Option (Bytes × Bytes) :=
  (bodyOf s).bind fun body => (nameOf false body).bind fun found =>
    (expand env found.1).map fun text => (text, found.2)

theorem nameOf_eq_some {esc : Bool} {s name rest : Bytes} (h : nameOf esc s = some (name, rest)) :
    s = name ++ 125 :: rest := by
  induction s generalizing esc name with
  | nil => contradiction
  | cons c s ih =>
    have hmap {esc' : Bool}
        (hin : (nameOf esc' s).map (fun found => (c :: found.1, found.2)) = some (name, rest)) :
        c :: s = name ++ 125 :: rest := by
      obtain ⟨found, hfound, heq⟩ := Option.map_eq_some_iff.mp hin
      obtain ⟨rfl, rfl⟩ := Prod.mk.inj heq
      rw [ih hfound, List.cons_append]
    rw [nameOf] at h
    dsimp only at h
    split at h
    · exact hmap h
    split at h
    · exact hmap h
    split at h
    · next hclosing =>
        obtain ⟨rfl, rfl⟩ := Prod.mk.inj (Option.some.inj h)
        rw [hclosing, List.nil_append]
    split at h
    · exact absurd h (by simp)
    · exact hmap h

theorem replaced_eq_some {env : Env} {s text rest : Bytes} :
    replaced env s = some (text, rest) ↔ ∃ body name, s = 36 :: 123 :: body ∧
      nameOf false body = some (name, rest) ∧ expand env name = some text := by
  simp only [replaced, Option.bind_eq_some_iff, Option.map_eq_some_iff, bodyOf_eq_some]
  constructor
  · rintro ⟨body, hbody, ⟨name, rest'⟩, hname, text', htext, heq⟩
    obtain ⟨rfl, rfl⟩ := Prod.mk.inj heq
    exact ⟨body, name, hbody, hname, htext⟩
  · rintro ⟨body, name, hbody, hname, htext⟩
    exact ⟨body, hbody, (name, rest), hname, text, htext, rfl⟩

theorem length_replaced {env : Env} {s text rest : Bytes}
    (h : replaced env s = some (text, rest)) : rest.length + 3 ≤ s.length := by
  obtain ⟨body, name, rfl, hname, -⟩ := replaced_eq_some.1 h
  rw [nameOf_eq_some hname]
  simp only [List.length_cons, List.length_append]
  omega

/-- What a value stands for; `esc` says that a backslash stands in front of it. -/
def meaning (env : Env) (esc : Bool) (s : Bytes) : Bytes :=
  match s with
  | [] => if esc then [92] else []
  | c :: rest =>
    if esc then (if escapable c then [c] else [92, c]) ++ meaning env false rest
    else if c = 92 then meaning env true rest
    else if c = 59 ∨ c = 35 then []
    else
      match _h : replaced env (c :: rest) with
      | some (text, rest') => text ++ meaning env false rest'
      | none => c :: meaning env false rest
termination_by s.length
decreasing_by
  · exact Nat.lt_succ_self _
  · exact Nat.lt_succ_self _
  · have hlt := length_replaced _h
    omega
  · exact Nat.lt_succ_self _

section Meaning
variable {env : Env} {s rest : Bytes} {c d : UInt8}

theorem meaning_nil : meaning env false [] = [] := by
  rw [meaning]
  rfl

theorem meaning_backslash : meaning env false [92] = [92] := by
  rw [meaning, if_neg Bool.false_ne_true, if_pos rfl, meaning]
  rfl

theorem meaning_escape : meaning env false (92 :: d :: rest) =
    (if escapable d then [d] else [92, d]) ++ meaning env false rest := by
  rw [meaning, if_neg Bool.false_ne_true, if_pos rfl, meaning, if_pos rfl]

theorem meaning_comment (h : c = 59 ∨ c = 35) : meaning env false (c :: rest) = [] := by
  have h92 : c ≠ 92 := by rcases h with rfl | rfl <;> decide
  rw [meaning, if_neg Bool.false_ne_true, if_neg h92, if_pos h]

theorem meaning_replaced {text rest' : Bytes} (h : replaced env (c :: rest) = some (text, rest')) :
    meaning env false (c :: rest) = text ++ meaning env false rest' := by
  have hc : c = 36 := by
    obtain ⟨body, name, heq, -⟩ := replaced_eq_some.1 h
    exact (List.cons.inj heq).1
  subst hc
  rw [meaning, if_neg Bool.false_ne_true, if_neg (by decide), if_neg (by decide)]
  split
  · next heq =>
      rw [h] at heq
      obtain ⟨rfl, rfl⟩ := Prod.mk.inj (Option.some.inj heq)
      rfl
  · next heq => exact absurd (h.symm.trans heq) (by simp)

theorem meaning_cons (h92 : c ≠ 92) (hcomment : ¬ (c = 59 ∨ c = 35))
    (h : replaced env (c :: rest) = none) : meaning env false (c :: rest) = c :: meaning env false rest := by
  rw [meaning, if_neg Bool.false_ne_true, if_neg h92, if_neg hcomment]
  split
  · next heq => exact absurd (h.symm.trans heq) (by simp)
  · rfl

/-- A byte that is not read in any special way. -/
def Plain (c : UInt8) : Prop := c ≠ 92 ∧ c ≠ 59 ∧ c ≠ 35 ∧ c ≠ 36

theorem replaced_of_ne (h : c ≠ 36) : replaced env (c :: rest) = none := by
  refine Option.eq_none_iff_forall_ne_some.mpr fun found hfound => ?_
  obtain ⟨body, name, heq, -⟩ := replaced_eq_some.1 hfound
  exact h (List.cons.inj heq).1

theorem meaning_plain (h : Plain c) : meaning env false (c :: rest) = c :: meaning env false rest :=
  meaning_cons h.1 (fun hc => hc.elim h.2.1 h.2.2.1) (replaced_of_ne h.2.2.2)

theorem meaning_append {front : Bytes} (h : ∀ c ∈ front, Plain c) :
    meaning env false (front ++ rest) = front ++ meaning env false rest := by
  induction front with
  | nil => rfl
  | cons c front ih =>
    rw [List.cons_append, meaning_plain (h c List.mem_cons_self),
      ih fun d hd => h d (List.mem_cons_of_mem _ hd), List.cons_append]

end Meaning

end OhosBun.Ini
