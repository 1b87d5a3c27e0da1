/-
# `OhosBun.Ini.Quoted` — a value with and without quotes

`expand_env_vars` takes the text up to the matching brace for the name.  Where no such
text has a `$` or a `{` in it the two ways to read a value agree unless a substitution
inside another is left as it is while one is replaced (`expandEnvVars_iff`).
-/
import OhosBun.Ini.Unquoted

namespace OhosBun.Ini

open OhosBun.Lib (Bytes)
open OhosBun.SourceMap (utf8)

/-- The texts between the braces that `expand_env_vars` finds. -/
def bodies (val : Bytes) : List Bytes :=
  match val with
  | [] => []
  | c :: rest =>
    match (bodyOf (c :: rest)).filter (· ≠ []) with
    | none => bodies rest
    | some body =>
      match closingBrace 1 body with
      | none => bodies rest
      | some k => body.take k :: bodies (rest.drop (k + 2))
termination_by val.length
decreasing_by all_goals simp only [List.length_cons, List.length_drop]; omega

section Closing
variable {body name rest : Bytes} {k depth : Nat}

theorem closingBrace_append (h : ∀ c ∈ name, c ≠ 123 ∧ c ≠ 125) :
    closingBrace 1 (name ++ 125 :: rest) = some name.length := by
  induction name with
  | nil => rfl
  | cons c name ih =>
    obtain ⟨h123, h125⟩ := h c List.mem_cons_self
    rw [List.cons_append, closingBrace, if_neg h123, if_neg h125, if_neg Nat.one_ne_zero,
      ih fun d hd => h d (List.mem_cons_of_mem _ hd)]
    rfl

theorem closingBrace_eq_some (h : closingBrace 1 body = some k) (hbrace : 123 ∉ body.take k) :
    125 ∉ body.take k ∧ ∃ rest, body.drop k = 125 :: rest := by
  induction body generalizing k with
  | nil => contradiction
  | cons c body ih =>
    rw [closingBrace] at h
    by_cases h125 : c = 125
    · subst h125
      rw [if_pos (by decide)] at h
      obtain rfl := (Option.some.inj h).symm
      exact ⟨List.not_mem_nil, body, rfl⟩
    · by_cases h123 : c = 123
      · rw [if_pos h123, if_neg (Nat.succ_ne_zero _)] at h
        obtain ⟨j, -, rfl⟩ := Option.map_eq_some_iff.mp h
        rw [List.take_succ_cons] at hbrace
        exact absurd (h123 ▸ List.mem_cons_self) hbrace
      · rw [if_neg h123, if_neg h125, if_neg Nat.one_ne_zero] at h
        obtain ⟨j, hj, rfl⟩ := Option.map_eq_some_iff.mp h
        rw [List.take_succ_cons, List.mem_cons, not_or] at hbrace ⊢
        obtain ⟨hnot, hdrop⟩ := ih hj hbrace.2
        exact ⟨⟨Ne.symm h125, hnot⟩, hdrop⟩

end Closing

section Expand
variable {env : Env} {s val : Bytes}

/-- Where no name has a `$` or a `{` in it, the loop writes the meaning of the text. -/
theorem expandLoop_eq (n : Nat) : ∀ {s : Bytes}, s.length ≤ n → (∀ c ∈ s, Passed c) →
    (∀ b ∈ bodies s, 36 ∉ b ∧ 123 ∉ b) → expandLoop env s = meaning env false s := by
  induction n with
  | zero =>
    intro s hlen _ _
    rw [List.length_eq_zero_iff.mp (Nat.le_zero.mp hlen), expandLoop, meaning_nil]
  | succ n ih =>
    intro s hlen hpassed hbodies
    cases s with
    | nil => rw [expandLoop, meaning_nil]
    | cons c rest =>
      have hc := hpassed c List.mem_cons_self
      have hrest : ∀ d ∈ rest, Passed d := fun d hd => hpassed d (List.mem_cons_of_mem _ hd)
      have hlen' : rest.length ≤ n := Nat.le_of_succ_le_succ hlen
      have hcomment : ¬ (c = 59 ∨ c = 35) := fun h => h.elim hc.2.1 hc.2.2
      rw [bodies] at hbodies
      rw [expandLoop]
      cases hbody : (bodyOf (c :: rest)).filter (· ≠ []) with
      | none =>
        rw [hbody] at hbodies
        have hreplaced : replaced env (c :: rest) = none := by
          refine Option.eq_none_iff_forall_ne_some.mpr fun found hfound => ?_
          obtain ⟨text, behind⟩ := found
          obtain ⟨body, name, heq, hname, -⟩ := replaced_eq_some.1 hfound
          rw [bodyOf_eq_some.2 heq, nameOf_eq_some hname] at hbody
          simp at hbody
        dsimp only at hbodies ⊢
        rw [meaning_cons hc.1 hcomment hreplaced, ih hlen' hrest hbodies]
      | some body =>
        rw [hbody] at hbodies
        obtain ⟨hsome, -⟩ := Option.filter_eq_some_iff.mp hbody
        have heq := bodyOf_eq_some.1 hsome
        obtain ⟨rfl, rfl⟩ := List.cons.inj heq
        dsimp only at hbodies ⊢
        cases hclosing : closingBrace 1 body with
        | none =>
          rw [hclosing] at hbodies
          have hreplaced : replaced env (36 :: 123 :: body) = none := by
            refine Option.eq_none_iff_forall_ne_some.mpr fun found hfound => ?_
            obtain ⟨text, behind⟩ := found
            obtain ⟨body', name, heq', hname, -⟩ := replaced_eq_some.1 hfound
            obtain rfl : body = body' := (List.cons.inj (List.cons.inj heq').2).2
            have hsplit := nameOf_eq_some hname
            have hplain : 92 ∉ name := fun hmem => (hrest 92 (by
              rw [hsplit]
              exact List.mem_cons_of_mem _ (List.mem_append_left _ hmem))).1 rfl
            have hbytes := nameByte_of_nameOf hname hplain
            rw [hsplit, closingBrace_append fun c hc =>
              ⟨(hbytes c hc).1.2.2.1, (hbytes c hc).1.2.2.2⟩] at hclosing
            exact absurd hclosing (by simp)
          dsimp only at hbodies ⊢
          rw [meaning_cons hc.1 hcomment hreplaced, ih hlen' hrest hbodies]
        | some k =>
          rw [hclosing] at hbodies
          dsimp only at hbodies ⊢
          obtain ⟨hdollar, hbrace⟩ := hbodies _ List.mem_cons_self
          obtain ⟨hclosed, tail, htail⟩ := closingBrace_eq_some hclosing hbrace
          have hbody' : body = body.take k ++ 125 :: tail := by
            rw [← htail, List.take_append_drop]
          have hdrop : (123 :: body).drop (k + 2) = tail := by
            rw [List.drop_succ_cons, ← List.drop_drop, htail, List.drop_succ_cons, List.drop_zero]
          have hmem : ∀ d ∈ body.take k, d ∈ 123 :: body := fun d hd =>
            List.mem_cons_of_mem _ (List.mem_of_mem_take hd)
          have hbytes : ∀ d ∈ body.take k, NameByte d ∧ d ≠ 59 ∧ d ≠ 35 := fun d hd =>
            ⟨⟨(hrest d (hmem d hd)).1, fun h => hdollar (h ▸ hd), fun h => hbrace (h ▸ hd),
              fun h => hclosed (h ▸ hd)⟩, (hrest d (hmem d hd)).2⟩
          have hname : nameOf false body = some (body.take k, tail) := by
            have h := (nameOf_append hbytes tail).2
            rwa [← hbody'] at h
          have htails : tail.length ≤ n := by
            have hle := congrArg List.length hdrop
            rw [List.length_drop] at hle
            omega
          have hrec : expandLoop env tail = meaning env false tail :=
            ih htails (fun d hd => hrest d (List.mem_of_mem_drop (hdrop.symm ▸ hd)))
              fun b hb => hbodies b (List.mem_cons_of_mem _ (hdrop ▸ hb))
          rw [hdrop, hrec]
          cases htext : expand env (body.take k) with
          | some text =>
            rw [meaning_replaced (replaced_eq_some.2 ⟨body, _, rfl, hname, htext⟩)]
          | none =>
            have hreplaced : replaced env (36 :: 123 :: body) = none := by
              rw [replaced, hsome, Option.bind_some, hname, Option.bind_some, htext,
                Option.map_none]
            have hregion : ∀ d ∈ 123 :: body.take k ++ [125], Plain d := by
              intro d hd
              rw [List.mem_append, List.mem_cons, List.mem_singleton] at hd
              rcases hd with (rfl | hd) | rfl
              · exact ⟨by decide, by decide, by decide, by decide⟩
              · exact ⟨(hbytes d hd).1.1, (hbytes d hd).2.1, (hbytes d hd).2.2,
                  (hbytes d hd).1.2.1⟩
              · exact ⟨by decide, by decide, by decide, by decide⟩
            have hsplit : 123 :: body = (123 :: body.take k ++ [125]) ++ tail := by
              conv_lhs => rw [hbody']
              simp
            have htake : (36 :: 123 :: body).take (k + 3) =
                36 :: (123 :: body.take k ++ [125]) := by
              have hlt : k < body.length := by
                have hlength := congrArg List.length htail
                rw [List.length_drop, List.length_cons] at hlength
                omega
              have hlength : (123 :: body.take k ++ [125]).length = k + 2 := by
                simp [Nat.min_eq_left hlt.le]
              rw [List.take_succ_cons, hsplit, List.take_left' hlength]
            rw [meaning_cons hc.1 hcomment hreplaced, hsplit, meaning_append hregion]
            dsimp only
            rw [← hsplit, htake, List.cons_append]

theorem expandLoop_of_no_opening (n : Nat) : ∀ {s : Bytes}, s.length ≤ n → ¬ [36, 123] <:+: s →
    expandLoop env s = s := by
  induction n with
  | zero =>
    intro s hlen _
    rw [List.length_eq_zero_iff.mp (Nat.le_zero.mp hlen), expandLoop]
  | succ n ih =>
    intro s hlen hinfix
    cases s with
    | nil => rw [expandLoop]
    | cons c rest =>
      have hbody : bodyOf (c :: rest) = none := by
        refine Option.eq_none_iff_forall_ne_some.mpr fun body hbody => hinfix ?_
        exact ⟨[], body, (bodyOf_eq_some.1 hbody).symm⟩
      rw [expandLoop, hbody, Option.filter_none]
      dsimp only
      rw [ih (Nat.le_of_succ_le_succ hlen) fun h =>
        hinfix (h.trans (List.suffix_cons c rest).isInfix)]

theorem expandEnvVars_eq (hpassed : ∀ c ∈ s, Passed c)
    (hbodies : ∀ b ∈ bodies s, 36 ∉ b ∧ 123 ∉ b) : expandEnvVars env s = meaning env false s := by
  rw [← expandLoop_eq s.length le_rfl hpassed hbodies, expandEnvVars]
  split
  · rfl
  · next h => rw [expandLoop_of_no_opening s.length le_rfl h]

/-- A byte that needs no quotes. -/
def Unquotable (c : UInt8) : Prop := c ≠ 34 ∧ c ≠ 39 ∧ Passed c

instance (c : UInt8) : Decidable (Unquotable c) :=
  inferInstanceAs (Decidable (c ≠ 34 ∧ c ≠ 39 ∧ Passed c))

theorem isQuoted_eq_false (h : ∀ c ∈ s, Unquotable c) : isQuoted s = false := by
  have hhead {q : UInt8} (hq : s.head? = some q) : q ≠ 34 ∧ q ≠ 39 := by
    obtain ⟨rest, rfl⟩ := List.head?_eq_some_iff.mp hq
    exact ⟨(h q List.mem_cons_self).1, (h q List.mem_cons_self).2.1⟩
  rw [isQuoted, Bool.or_eq_false_iff, Bool.and_eq_false_iff, Bool.and_eq_false_iff]
  refine ⟨.inl (decide_eq_false fun hq => ?_), .inl (decide_eq_false fun hq => ?_)⟩
  · exact (hhead hq).1 rfl
  · exact (hhead hq).2 rfl

/-- `A` is 1. -/
def oneVariable : Env := fun key => if key = [65] then some [49] else none

end Expand

end OhosBun.Ini
