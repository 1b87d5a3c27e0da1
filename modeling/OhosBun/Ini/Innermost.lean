/-
# `OhosBun.Ini.Innermost` — the walk over an unquoted value

`innermost` is what `parse_env_substitution` finds (`parseEnvSubstitution_eq`).  Where no
substitution that is replaced has a backslash or a comment inside (`Legible`), the walk
of `prepare_str` writes the meaning of the value, and more than that if a substitution
inside another is not replaced (`walk_walked`).
-/
import OhosBun.Ini.Value

namespace OhosBun.Ini

open OhosBun.Lib (Bytes)

/-! ## The substitution that the walk finds -/

/-- No `$`, brace or backslash. -/
def NameByte (c : UInt8) : Prop := c ≠ 92 ∧ c ≠ 36 ∧ c ≠ 123 ∧ c ≠ 125

/-- A substitution: the text in front of the innermost `${`, what stands between its
braces, and the text behind. -/
structure Substitution where
  front : Bytes
  raw : Bytes
  behind : Bytes
  deriving DecidableEq

/-- What `parse_env_substitution` finds in a text that starts with `$`. -/
def innermost : (depthLeft : Nat) → Bytes → Option Substitution
  | 0, _ => none
  | depthLeft + 1, s =>
    (bodyOf s).bind fun body =>
      match scanBody false body with
      | .dollar k => (innermost depthLeft (body.drop k)).map fun sub =>
        { sub with front := 36 :: 123 :: body.take k ++ sub.front }
      | .brace | .none => none
      | .closing k => some ⟨[], body.take k, body.drop (k + 1)⟩

section Scan
variable {esc : Bool} {body : Bytes} {k : Nat}

theorem later_eq_dollar {e : BodyEnd} : e.later = .dollar k ↔ ∃ j, e = .dollar j ∧ k = j + 1 := by
  cases e <;> simp [BodyEnd.later, eq_comm]

theorem later_eq_closing {e : BodyEnd} : e.later = .closing k ↔ ∃ j, e = .closing j ∧ k = j + 1 := by
  cases e <;> simp [BodyEnd.later, eq_comm]

theorem scanBody_dollar (h : scanBody esc body = .dollar k) :
    ∃ rest, body.drop k = 36 :: rest := by
  induction body generalizing esc k with
  | nil => contradiction
  | cons c body ih =>
    rw [scanBody] at h
    split at h
    · obtain ⟨j, hj, rfl⟩ := later_eq_dollar.1 h
      exact ih hj
    split at h
    · next hdollar =>
        obtain rfl := (BodyEnd.dollar.inj h).symm
        exact ⟨body, by rw [List.drop_zero, hdollar.1]⟩
    split at h
    · exact absurd h (by simp)
    split at h
    · exact absurd h (by simp)
    · obtain ⟨j, hj, rfl⟩ := later_eq_dollar.1 h
      exact ih hj

theorem scanBody_closing (h : scanBody esc body = .closing k) :
    ∃ rest, body.drop k = 125 :: rest := by
  induction body generalizing esc k with
  | nil => contradiction
  | cons c body ih =>
    rw [scanBody] at h
    split at h
    · obtain ⟨j, hj, rfl⟩ := later_eq_closing.1 h
      exact ih hj
    split at h
    · exact absurd h (by simp)
    split at h
    · exact absurd h (by simp)
    split at h
    · next hclosing =>
        obtain rfl := (BodyEnd.closing.inj h).symm
        exact ⟨body, by rw [List.drop_zero, hclosing.1]⟩
    · obtain ⟨j, hj, rfl⟩ := later_eq_closing.1 h
      exact ih hj

/-- Where there is no backslash nothing is escaped, so the loop has passed names only. -/
theorem nameByte_of_scanBody (h : scanBody false body = .dollar k ∨ scanBody false body = .closing k)
    (hplain : 92 ∉ body.take k) : ∀ c ∈ body.take k, NameByte c := by
  induction body generalizing k with
  | nil => simp
  | cons c body ih =>
    cases k with
    | zero => simp
    | succ k =>
      rw [List.take_succ_cons, List.mem_cons, not_or] at hplain
      rw [List.take_succ_cons]
      obtain ⟨h92, hplain⟩ := hplain
      rw [scanBody, if_neg (Ne.symm h92)] at h
      split at h
      · rcases h with h | h <;> exact absurd h (by simp)
      split at h
      · rcases h with h | h <;> exact absurd h (by simp)
      split at h
      · rcases h with h | h <;> exact absurd h (by simp)
      · next h36 h123 h125 =>
          have hrest : scanBody false body = .dollar k ∨ scanBody false body = .closing k := by
            refine h.imp (fun h => ?_) fun h => ?_
            · obtain ⟨j, hj, heq⟩ := later_eq_dollar.1 h
              rw [hj, Nat.succ.inj heq]
            · obtain ⟨j, hj, heq⟩ := later_eq_closing.1 h
              rw [hj, Nat.succ.inj heq]
          intro d hd
          rcases List.mem_cons.mp hd with rfl | hd
          · exact ⟨Ne.symm h92, fun h => h36 ⟨h, rfl⟩, fun h => h123 ⟨h, rfl⟩,
              fun h => h125 ⟨h, rfl⟩⟩
          · exact ih hrest hplain d hd

theorem scanBody_append {name : Bytes} (h : ∀ c ∈ name, NameByte c) (rest : Bytes) :
    scanBody false (name ++ 36 :: rest) = .dollar name.length ∧
      scanBody false (name ++ 125 :: rest) = .closing name.length := by
  induction name with
  | nil => exact ⟨rfl, rfl⟩
  | cons c name ih =>
    obtain ⟨h92, h36, h123, h125⟩ := h c List.mem_cons_self
    obtain ⟨hdollar, hclosing⟩ := ih fun d hd => h d (List.mem_cons_of_mem _ hd)
    have hstep (tail : Bytes) : scanBody false (c :: tail) = (scanBody false tail).later := by
      rw [scanBody, if_neg h92, if_neg fun h => h36 h.1, if_neg fun h => h123 h.1,
        if_neg fun h => h125 h.1]
    rw [List.cons_append, List.cons_append, hstep, hstep, hdollar, hclosing]
    exact ⟨rfl, rfl⟩

/-- A name that has no backslash. -/
theorem nameOf_append {name : Bytes}
    (h : ∀ c ∈ name, NameByte c ∧ c ≠ 59 ∧ c ≠ 35) (rest : Bytes) :
    nameOf false (name ++ 36 :: rest) = none ∧
      nameOf false (name ++ 125 :: rest) = some (name, rest) := by
  induction name with
  | nil => exact ⟨rfl, rfl⟩
  | cons c name ih =>
    obtain ⟨⟨h92, h36, h123, h125⟩, h59, h35⟩ := h c List.mem_cons_self
    obtain ⟨hdollar, hclosing⟩ := ih fun d hd => h d (List.mem_cons_of_mem _ hd)
    have hstep (tail : Bytes) : nameOf false (c :: tail) =
        (nameOf false tail).map fun found => (c :: found.1, found.2) := by
      rw [nameOf]
      dsimp only
      rw [if_neg Bool.false_ne_true, if_neg h92, if_neg h125, if_neg]
      rintro (h | h | h | h)
      · exact h36 h
      · exact h123 h
      · exact h59 h
      · exact h35 h
    rw [List.cons_append, List.cons_append, hstep, hstep, hdollar, hclosing]
    exact ⟨rfl, rfl⟩

/-- The bytes of a name without backslashes. -/
theorem nameByte_of_nameOf {s name rest : Bytes} (h : nameOf false s = some (name, rest))
    (hplain : 92 ∉ name) : ∀ c ∈ name, NameByte c ∧ c ≠ 59 ∧ c ≠ 35 := by
  induction s generalizing name with
  | nil => contradiction
  | cons c s ih =>
    rw [nameOf] at h
    dsimp only at h
    rw [if_neg Bool.false_ne_true] at h
    split at h
    · next h92 =>
        obtain ⟨found, -, heq⟩ := Option.map_eq_some_iff.mp h
        obtain ⟨rfl, -⟩ := Prod.mk.inj heq
        exact absurd (h92 ▸ List.mem_cons_self) hplain
    · next h92 =>
        split at h
        · obtain ⟨rfl, -⟩ := Prod.mk.inj (Option.some.inj h)
          exact fun c hc => absurd hc List.not_mem_nil
        · next h125 =>
            split at h
            · exact absurd h (by simp)
            · next hstop =>
                obtain ⟨found, hfound, heq⟩ := Option.map_eq_some_iff.mp h
                obtain ⟨rfl, rfl⟩ := Prod.mk.inj heq
                rw [not_or, not_or, not_or] at hstop
                intro d hd
                rcases List.mem_cons.mp hd with rfl | hd
                · exact ⟨⟨h92, hstop.1, hstop.2.1, h125⟩, hstop.2.2⟩
                · exact ih hfound (fun hmem => hplain (List.mem_cons_of_mem _ hmem)) d hd

end Scan

section Find
variable {env : Env} {val : Bytes} {start i n : Nat} {unesc s : Bytes} {sub : Substitution}

theorem innermost_succ {body : Bytes} : innermost (n + 1) (36 :: 123 :: body) =
    match scanBody false body with
    | .dollar k => (innermost n (body.drop k)).map fun sub =>
      { sub with front := 36 :: 123 :: body.take k ++ sub.front }
    | .brace | .none => none
    | .closing k => some ⟨[], body.take k, body.drop (k + 1)⟩ := by
  rw [innermost, bodyOf_eq_some.2 rfl, Option.bind_some]

theorem exists_body (h : innermost n s = some sub) : ∃ m body, n = m + 1 ∧ s = 36 :: 123 :: body := by
  cases n with
  | zero => contradiction
  | succ m =>
    obtain ⟨body, hbody, -⟩ := Option.bind_eq_some_iff.mp h
    exact ⟨m, body, rfl, bodyOf_eq_some.1 hbody⟩

/-- What the search finds and appends. -/
theorem parseEnvSubstitution_eq (n : Nat) (hstart : start ≤ i)
    (hdollar : (val.drop i).head? = some 36) :
    match innermost n (val.drop i) with
    | none => parseEnvSubstitution env val start n i unesc = (none, unesc)
    | some sub =>
      match expand env sub.raw with
      | none => parseEnvSubstitution env val start n i unesc =
          (none, unesc ++ ((val.drop start).take (i - start) ++ sub.front))
      | some text => ∃ j, i ≤ j ∧ val.drop (j + 1) = sub.behind ∧
          parseEnvSubstitution env val start n i unesc =
            (some j, unesc ++ ((val.drop start).take (i - start) ++ sub.front ++ text)) := by
  induction n generalizing i with
  | zero => rfl
  | succ n ih =>
    rw [parseEnvSubstitution]
    by_cases hopen : i + 2 < val.length ∧ val[i + 1]? = some 123
    · have hbody : val.drop i = 36 :: 123 :: val.drop (i + 2) := by
        obtain ⟨rest, hrest⟩ := List.head?_eq_some_iff.mp hdollar
        have hnext : val.drop (i + 1) = rest := by
          rw [← List.drop_drop, hrest, List.drop_succ_cons, List.drop_zero]
        rw [hrest, ← hnext, List.drop_eq_getElem_cons (by omega : i + 1 < val.length),
          (List.getElem?_eq_some_iff.mp hopen.2).2]
      rw [if_pos hopen, hbody, innermost_succ]
      cases hscan : scanBody false (val.drop (i + 2)) with
      | none => rfl
      | brace => rfl
      | closing k =>
        have hmissed : (if start ≠ i then unesc ++ (val.drop start).take (i - start) else unesc) =
            unesc ++ (val.drop start).take (i - start) := by
          split
          · rfl
          · next heq =>
              rw [not_not.mp heq, Nat.sub_self, List.take_zero, List.append_nil]
        dsimp only
        rw [hmissed, List.append_nil]
        cases expand env ((val.drop (i + 2)).take k) with
        | none => rfl
        | some text =>
          refine ⟨i + 2 + k, by omega, ?_, ?_⟩
          · rw [List.drop_drop, Nat.add_assoc (i + 2)]
          · rw [← List.append_assoc]
      | dollar k =>
        have hdrop : (val.drop (i + 2)).drop k = val.drop (i + 2 + k) := List.drop_drop
        obtain ⟨rest, hrest⟩ := scanBody_dollar hscan
        have hinner := @ih (i + 2 + k) (by omega) (by rw [← hdrop, hrest]; rfl)
        have hmissed : (val.drop start).take (i + 2 + k - start) =
            (val.drop start).take (i - start) ++ 36 :: 123 :: (val.drop (i + 2)).take k := by
          have hsum : i + 2 + k - start = (i - start) + (2 + k) := by omega
          rw [hsum, List.take_add, List.drop_drop, Nat.add_sub_cancel' hstart, hbody,
            Nat.add_comm 2 k]
          rfl
        dsimp only
        rw [hdrop]
        rw [hmissed] at hinner
        cases hsub : innermost n (val.drop (i + 2 + k)) with
        | none =>
          rw [hsub] at hinner
          exact hinner
        | some sub =>
          rw [hsub] at hinner
          rw [Option.map_some]
          dsimp only at hinner ⊢
          cases htext : expand env sub.raw with
          | none =>
            rw [htext] at hinner
            dsimp only at hinner ⊢
            rw [hinner, List.append_assoc ((val.drop start).take (i - start))]
          | some text =>
            rw [htext] at hinner
            obtain ⟨j, hle, hj, heq⟩ := hinner
            refine ⟨j, by omega, hj, ?_⟩
            rw [heq, List.append_assoc ((val.drop start).take (i - start))]
    · rw [if_neg hopen]
      cases hsub : innermost (n + 1) (val.drop i) with
      | none => rfl
      | some sub =>
        obtain ⟨m, body, -, hbody⟩ := exists_body hsub
        have hempty : body = [] := by
          by_contra hne
          refine hopen ⟨?_, ?_⟩
          · have hlen := congrArg List.length hbody
            have hpos := List.length_pos_iff.mpr hne
            simp only [List.length_drop, List.length_cons] at hlen
            omega
          · have hget : (val.drop i)[1]? = some 123 := by rw [hbody]; rfl
            rwa [List.getElem?_drop] at hget
        rw [hbody, hempty, innermost_succ] at hsub
        contradiction

theorem innermost_mono {m : Nat} (hle : n ≤ m) (h : innermost n s = some sub) :
    innermost m s = some sub := by
  induction n generalizing m s sub with
  | zero => contradiction
  | succ n ih =>
    obtain ⟨m, rfl⟩ : ∃ k, m = k + 1 := ⟨m - 1, by omega⟩
    obtain ⟨_, body, -, rfl⟩ := exists_body h
    rw [innermost_succ] at h ⊢
    cases hscan : scanBody false body with
    | none => rw [hscan] at h; exact absurd h (by simp)
    | brace => rw [hscan] at h; exact absurd h (by simp)
    | closing k => rw [hscan] at h; exact h
    | dollar k =>
      rw [hscan] at h
      obtain ⟨inner, hinner, heq⟩ := Option.map_eq_some_iff.mp h
      exact Option.map_eq_some_iff.mpr ⟨inner, ih (by omega) hinner, heq⟩

theorem innermost_of_ne {c : UInt8} {rest : Bytes} (h : c ≠ 36) : innermost n (c :: rest) = none := by
  refine Option.eq_none_iff_forall_ne_some.mpr fun found hfound => ?_
  obtain ⟨_, body, -, heq⟩ := exists_body hfound
  exact h (List.cons.inj heq).1

end Find

/-! ## What is read -/

/-- The texts that the reading of a value comes to. -/
inductive Reached : Bytes → Bytes → Prop where
  | here (s : Bytes) : Reached s s
  | escape {d : UInt8} {rest t : Bytes} : Reached rest t → Reached (92 :: d :: rest) t
  | step {c : UInt8} {rest t : Bytes} : c ≠ 92 → c ≠ 59 → c ≠ 35 → Reached rest t →
      Reached (c :: rest) t

/-- A byte that neither escapes nor ends the value. -/
def Passed (c : UInt8) : Prop := c ≠ 92 ∧ c ≠ 59 ∧ c ≠ 35

instance (c : UInt8) : Decidable (Passed c) :=
  inferInstanceAs (Decidable (c ≠ 92 ∧ c ≠ 59 ∧ c ≠ 35))

section Reading
variable {s t u rest front : Bytes} {c d : UInt8} {P : Bytes → Prop}

theorem Reached.trans (h : Reached s t) (h' : Reached t u) : Reached s u := by
  induction h with
  | here => exact h'
  | escape _ ih => exact .escape (ih h')
  | step h92 h59 h35 _ ih => exact .step h92 h59 h35 (ih h')

theorem reached_nil : Reached [] t ↔ t = [] := by
  constructor
  · rintro ⟨⟩
    rfl
  · rintro rfl
    exact .here _

theorem reached_backslash : Reached [92] t ↔ t = [92] := by
  constructor
  · intro h
    cases h with
    | here => rfl
    | step h92 => exact absurd rfl h92
  · rintro rfl
    exact .here _

theorem reached_escape : Reached (92 :: d :: rest) t ↔ t = 92 :: d :: rest ∨ Reached rest t := by
  constructor
  · intro h
    cases h with
    | here => exact .inl rfl
    | escape h => exact .inr h
    | step h92 => exact absurd rfl h92
  · rintro (rfl | h)
    · exact .here _
    · exact .escape h

theorem reached_comment (hc : c = 59 ∨ c = 35) : Reached (c :: rest) t ↔ t = c :: rest := by
  constructor
  · intro h
    cases h with
    | here => rfl
    | escape => exact absurd hc (by decide)
    | step _ h59 h35 => exact (hc.elim h59 h35).elim
  · rintro rfl
    exact .here _

theorem reached_cons (hc : Passed c) : Reached (c :: rest) t ↔ t = c :: rest ∨ Reached rest t := by
  constructor
  · intro h
    cases h with
    | here => exact .inl rfl
    | escape => exact absurd rfl hc.1
    | step _ _ _ h => exact .inr h
  · rintro (rfl | h)
    · exact .here _
    · exact .step hc.1 hc.2.1 hc.2.2 h

theorem reached_append (h : ∀ c ∈ front, Passed c) : Reached (front ++ s) s := by
  induction front with
  | nil => exact .here s
  | cons c front ih =>
    exact (reached_cons (h c List.mem_cons_self)).mpr
      (.inr (ih fun d hd => h d (List.mem_cons_of_mem _ hd)))

/-- What is reached behind some bytes or starts with one of them. -/
theorem Reached.append_cases (h : ∀ c ∈ front, Passed c) (hr : Reached (front ++ s) t) :
    (∃ c ∈ front, ∃ rest, t = c :: rest) ∨ Reached s t := by
  induction front with
  | nil => exact .inr hr
  | cons c front ih =>
    rcases (reached_cons (h c List.mem_cons_self)).mp hr with rfl | hr
    · exact .inl ⟨c, List.mem_cons_self, _, rfl⟩
    · refine (ih (fun d hd => h d (List.mem_cons_of_mem _ hd)) hr).imp_left ?_
      rintro ⟨d, hd, rest, rfl⟩
      exact ⟨d, List.mem_cons_of_mem _ hd, rest, rfl⟩

/-- It holds of some text that is reached. -/
def Somewhere (P : Bytes → Prop) (s : Bytes) : Prop := ∃ t, Reached s t ∧ P t

theorem somewhere_nil : Somewhere P [] ↔ P [] := by simp [Somewhere, reached_nil]

theorem somewhere_backslash : Somewhere P [92] ↔ P [92] := by simp [Somewhere, reached_backslash]

theorem somewhere_escape :
    Somewhere P (92 :: d :: rest) ↔ P (92 :: d :: rest) ∨ Somewhere P rest := by
  simp [Somewhere, reached_escape, or_and_right, exists_or]

theorem somewhere_comment (hc : c = 59 ∨ c = 35) : Somewhere P (c :: rest) ↔ P (c :: rest) := by
  simp [Somewhere, reached_comment hc]

theorem somewhere_cons (hc : Passed c) :
    Somewhere P (c :: rest) ↔ P (c :: rest) ∨ Somewhere P rest := by
  simp [Somewhere, reached_cons hc, or_and_right, exists_or]

end Reading

/-! ## Where the walk goes wrong -/

section Faults
variable (env : Env)

/-- A backslash, or a substitution that is replaced. -/
def Changes (t : Bytes) : Prop :=
  (∃ rest, t = 92 :: rest) ∨
    ∃ sub, innermost maxEnvSubstitutionDepth t = some sub ∧ (expand env sub.raw).isSome

/-- A comment. -/
def Comments (t : Bytes) : Prop := ∃ c rest, t = c :: rest ∧ (c = 59 ∨ c = 35)

/-- A substitution inside another that is not replaced. -/
def Stutters (t : Bytes) : Prop :=
  ∃ sub, innermost maxEnvSubstitutionDepth t = some sub ∧ sub.front ≠ [] ∧
    expand env sub.raw = none

/-- In what is replaced there is no backslash, and no comment starts. -/
structure LegibleAt (t : Bytes) : Prop where
  found : ∀ sub, innermost maxEnvSubstitutionDepth t = some sub → (expand env sub.raw).isSome →
    ∀ c ∈ sub.front ++ sub.raw, Passed c
  meant : ∀ body name rest, t = 36 :: 123 :: body → nameOf false body = some (name, rest) →
    (expand env name).isSome → 92 ∉ name

def Legible (s : Bytes) : Prop := ∀ t, Reached s t → LegibleAt env t

end Faults

section Replaced
variable {env : Env} {s t rest text : Bytes} {c : UInt8} {n : Nat} {sub : Substitution}

theorem Legible.of_reached (h : Legible env s) (hr : Reached s t) : Legible env t :=
  fun u hu => h u (hr.trans hu)

/-- A substitution that is replaced, read byte by byte. -/
theorem replaces (hn : n ≤ maxEnvSubstitutionDepth) (h : innermost n s = some sub)
    (hpassed : ∀ c ∈ sub.front ++ sub.raw, Passed c) (htext : expand env sub.raw = some text) :
    meaning env false s = sub.front ++ text ++ meaning env false sub.behind ∧
      Reached s sub.behind ∧ ∀ t, Reached s t → ¬ Stutters env t ∨ Reached sub.behind t := by
  induction n generalizing s sub with
  | zero => contradiction
  | succ n ih =>
    have hself : ¬ Stutters env s := by
      rintro ⟨sub', hsub', -, hnone⟩
      obtain rfl := Option.some.inj ((innermost_mono hn h).symm.trans hsub')
      exact absurd (htext.symm.trans hnone) (by simp)
    have hother {t : Bytes} {c : UInt8} {rest : Bytes} (ht : t = c :: rest) (hc : c ≠ 36) :
        ¬ Stutters env t := by
      rintro ⟨sub', hsub', -⟩
      rw [ht, innermost_of_ne hc] at hsub'
      exact absurd hsub' (by simp)
    obtain ⟨_, body, -, rfl⟩ := exists_body h
    have hbrace : Passed 123 := by decide
    have hdollar : Passed 36 := by decide
    rw [innermost_succ] at h
    cases hscan : scanBody false body with
    | none => rw [hscan] at h; exact absurd h (by simp)
    | brace => rw [hscan] at h; exact absurd h (by simp)
    | closing k =>
      rw [hscan] at h
      obtain rfl := (Option.some.inj h).symm
      rw [List.nil_append] at hpassed ⊢
      dsimp only at hpassed htext ⊢
      obtain ⟨tail, htail⟩ := scanBody_closing hscan
      have hdrop : body.drop (k + 1) = tail := by
        rw [← List.drop_drop, htail, List.drop_succ_cons, List.drop_zero]
      have hbody : body = body.take k ++ 125 :: tail := by
        rw [← htail, List.take_append_drop]
      have hname : ∀ c ∈ body.take k, NameByte c :=
        nameByte_of_scanBody (.inr hscan) fun h92 => (hpassed 92 h92).1 rfl
      have hfound := (nameOf_append (fun c hc => ⟨hname c hc, (hpassed c hc).2⟩) tail).2
      rw [← hbody] at hfound
      rw [hdrop]
      have hreplaced : replaced env (36 :: 123 :: body) = some (text, tail) :=
        replaced_eq_some.2 ⟨body, _, rfl, hfound, htext⟩
      have hregion : ∀ c ∈ 123 :: body.take k ++ [125], Passed c := by
        intro c hc
        rw [List.mem_append, List.mem_cons, List.mem_singleton] at hc
        rcases hc with (rfl | hc) | rfl
        · exact hbrace
        · exact hpassed c hc
        · decide
      have hsplit : 123 :: body = (123 :: body.take k ++ [125]) ++ tail := by
        conv_lhs => rw [hbody]
        simp
      refine ⟨meaning_replaced hreplaced, ?_, fun t ht => ?_⟩
      · rw [reached_cons hdollar, hsplit]
        exact .inr (reached_append hregion)
      · rcases (reached_cons hdollar).mp ht with rfl | ht
        · exact .inl hself
        · rw [hsplit] at ht
          refine (ht.append_cases hregion).imp_left ?_
          rintro ⟨c, hc, rest, rfl⟩
          refine hother rfl ?_
          rw [List.mem_append, List.mem_cons, List.mem_singleton] at hc
          rcases hc with (rfl | hc) | rfl
          · decide
          · exact (hname c hc).2.1
          · decide
    | dollar k =>
      rw [hscan] at h
      obtain ⟨inner, hinner, heq⟩ := Option.map_eq_some_iff.mp h
      obtain rfl := heq.symm
      dsimp only at hpassed htext ⊢
      obtain ⟨tail, htail⟩ := scanBody_dollar hscan
      have hbody : body = body.take k ++ body.drop k := (List.take_append_drop k body).symm
      have htake : ∀ c ∈ body.take k, Passed c := fun c hc => hpassed c (by simp [hc])
      have hname : ∀ c ∈ body.take k, NameByte c :=
        nameByte_of_scanBody (.inl hscan) fun h92 => (htake 92 h92).1 rfl
      obtain ⟨hmeaning, hreached, hcases⟩ := ih (by omega) hinner
        (fun c hc => hpassed c (by
          rw [List.mem_append] at hc ⊢
          exact hc.imp_left fun hc => by simp [hc])) htext
      have hfound : nameOf false body = none := by
        have hnone := (nameOf_append (fun c hc => ⟨hname c hc, (htake c hc).2⟩) tail).1
        rwa [← htail, ← hbody] at hnone
      have hreplaced : replaced env (36 :: 123 :: body) = none := by
        rw [replaced, bodyOf_eq_some.2 rfl, Option.bind_some, hfound, Option.bind_none]
      have hregion : ∀ c ∈ 123 :: body.take k, Passed c := by
        intro c hc
        rcases List.mem_cons.mp hc with rfl | hc
        · exact hbrace
        · exact htake c hc
      have hsplit : 123 :: body = (123 :: body.take k) ++ body.drop k := by
        rw [List.cons_append, List.take_append_drop]
      refine ⟨?_, ?_, fun t ht => ?_⟩
      · rw [meaning_cons (by decide) (by decide) hreplaced, hsplit, meaning_append, hmeaning]
        · simp only [List.cons_append, List.append_assoc]
        · intro c hc
          refine ⟨(hregion c hc).1, (hregion c hc).2.1, (hregion c hc).2.2, ?_⟩
          rcases List.mem_cons.mp hc with rfl | hc
          · decide
          · exact (hname c hc).2.1
      · rw [reached_cons hdollar, hsplit]
        exact .inr ((reached_append hregion).trans hreached)
      · rcases (reached_cons hdollar).mp ht with rfl | ht
        · exact .inl hself
        · rw [hsplit] at ht
          rcases ht.append_cases hregion with ⟨c, hc, rest, rfl⟩ | ht
          · refine .inl (hother rfl ?_)
            rcases List.mem_cons.mp hc with rfl | hc
            · decide
            · exact (hname c hc).2.1
          · exact hcases t ht

end Replaced

/-! ## The walk -/

/-- How many bytes are not blank. -/
def weight (s : Bytes) : Nat := s.countP fun c => !blank c

theorem weight_append (a b : Bytes) : weight (a ++ b) = weight a + weight b := List.countP_append

/-- The walk has read `s` behind `unesc`: the flag, and the text, which is longer than it
should be where there was a stutter. -/
structure Walked (env : Env) (s : Bytes) (didAnyEscape : Bool) (unesc : Bytes)
    (r : Bool × Bytes) : Prop where
  flag : r.1 = true ↔ didAnyEscape = true ∨ Somewhere (Changes env) s
  text : ∃ out, r.2 = unesc ++ out ∧
    (¬ Somewhere (Stutters env) s → out = meaning env false s) ∧
    (Somewhere (Stutters env) s → weight (meaning env false s) < weight out)

section Walk
variable {env : Env} {val s rest x unesc : Bytes} {did did' : Bool} {r : Bool × Bytes}
  {P : Bytes → Prop}

theorem Walked.prepend (h : Walked env rest did' (unesc ++ x) r)
    (hmeaning : meaning env false s = x ++ meaning env false rest)
    (hstutters : Somewhere (Stutters env) s ↔ Somewhere (Stutters env) rest)
    (hchanges : did' = true ∨ Somewhere (Changes env) rest ↔
      did = true ∨ Somewhere (Changes env) s) : Walked env s did unesc r where
  flag := h.flag.trans hchanges
  text := by
    obtain ⟨out, hout, hright, hlong⟩ := h.text
    refine ⟨x ++ out, by rw [hout, List.append_assoc], fun hnot => ?_, fun hsome => ?_⟩
    · rw [hmeaning, hright fun h => hnot (hstutters.mpr h)]
    · have hlt := hlong (hstutters.mp hsome)
      rw [hmeaning, weight_append, weight_append]
      omega

/-- The value ends, with the text that is left of it. -/
theorem walked_end (hmeaning : meaning env false s = x) (hstutters : ¬ Somewhere (Stutters env) s)
    (hchanges : did' = true ↔ did = true ∨ Somewhere (Changes env) s) :
    Walked env s did unesc (did', unesc ++ x) where
  flag := hchanges
  text := ⟨x, rfl, fun _ => hmeaning.symm, fun h => absurd h hstutters⟩

variable {c d : UInt8} {front tail : Bytes} {sub : Substitution}

theorem not_stutters_of_ne (h : c ≠ 36) : ¬ Stutters env (c :: rest) := by
  rintro ⟨sub, hsub, -⟩
  rw [innermost_of_ne h] at hsub
  exact absurd hsub (by simp)

theorem not_changes_of_ne (h92 : c ≠ 92) (h36 : c ≠ 36) : ¬ Changes env (c :: rest) := by
  rintro (⟨rest', heq⟩ | ⟨sub, hsub, -⟩)
  · exact h92 (List.cons.inj heq).1
  · rw [innermost_of_ne h36] at hsub
    exact absurd hsub (by simp)

theorem somewhere_plain (hP : ∀ c rest, Plain c → ¬ P (c :: rest)) (h : ∀ c ∈ front, Plain c) :
    Somewhere P (front ++ s) ↔ Somewhere P s := by
  induction front with
  | nil => rfl
  | cons c front ih =>
    have hc := h c List.mem_cons_self
    rw [List.cons_append, somewhere_cons ⟨hc.1, hc.2.1, hc.2.2.1⟩, or_iff_right (hP _ _ hc)]
    exact ih fun d hd => h d (List.mem_cons_of_mem _ hd)

theorem stutters_plain (h : ∀ c ∈ front, Plain c) :
    Somewhere (Stutters env) (front ++ s) ↔ Somewhere (Stutters env) s :=
  somewhere_plain (fun _ _ hc => not_stutters_of_ne hc.2.2.2) h

theorem changes_plain (h : ∀ c ∈ front, Plain c) :
    Somewhere (Changes env) (front ++ s) ↔ Somewhere (Changes env) s :=
  somewhere_plain (fun _ _ hc => not_changes_of_ne hc.1 hc.2.2.2) h

/-- Behind the first byte of a character there are bytes of no other meaning. -/
def WholeChars (val : Bytes) : Prop :=
  ∀ i c rest, val.drop i = c :: rest → ∀ d ∈ rest.take (utf8ByteSequenceLength c - 1), Plain d

theorem somewhere_changes_backslash : Somewhere (Changes env) (92 :: rest) :=
  ⟨_, .here _, .inl ⟨rest, rfl⟩⟩

/-- A character that stands for itself. -/
theorem Walked.char (hc : c ≠ 92 ∧ c ≠ 59 ∧ c ≠ 35 ∧ c ≠ 36) (htail : ∀ d ∈ tail, Plain d)
    (h : Walked env rest did (unesc ++ c :: tail) r) :
    Walked env (c :: (tail ++ rest)) did unesc r := by
  have hplain : ∀ d ∈ c :: tail, Plain d := by
    intro d hd
    rcases List.mem_cons.mp hd with rfl | hd
    · exact hc
    · exact htail d hd
  refine h.prepend ?_ ?_ ?_
  · rw [← List.cons_append, meaning_append hplain]
  · rw [← List.cons_append, stutters_plain hplain]
  · rw [← List.cons_append, changes_plain hplain]

/-- A backslash that is kept, with the character behind it. -/
theorem Walked.backslash (hd : escapable d = false) (htail : ∀ c ∈ tail, Plain c)
    (h : Walked env rest true (unesc ++ 92 :: d :: tail) r) :
    Walked env (92 :: d :: (tail ++ rest)) did unesc r := by
  refine h.prepend ?_ ?_ (iff_of_true (.inl rfl) (.inr somewhere_changes_backslash))
  · rw [meaning_escape, if_neg (by rw [hd]; decide), meaning_append htail]
    rfl
  · rw [somewhere_escape, or_iff_right (not_stutters_of_ne (by decide)), stutters_plain htail]

/-- A character without its backslash. -/
theorem Walked.escaped (hd : escapable d = true) (h : Walked env rest true (unesc ++ [d]) r) :
    Walked env (92 :: d :: rest) did unesc r := by
  refine h.prepend ?_ ?_ (iff_of_true (.inl rfl) (.inr somewhere_changes_backslash))
  · rw [meaning_escape, if_pos hd]
  · rw [somewhere_escape, or_iff_right (not_stutters_of_ne (by decide))]

/-- A substitution that is replaced. -/
theorem Walked.substituted {text : Bytes} (hlegible : Legible env s)
    (hsub : innermost maxEnvSubstitutionDepth s = some sub) (htext : expand env sub.raw = some text)
    (h : Walked env sub.behind true (unesc ++ (sub.front ++ text)) r) : Walked env s did unesc r := by
  have hsome : (expand env sub.raw).isSome := by rw [htext]; rfl
  obtain ⟨hmeaning, hreached, hcases⟩ :=
    replaces le_rfl hsub ((hlegible s (.here s)).found sub hsub hsome) htext
  refine h.prepend hmeaning ?_
    (iff_of_true (.inl rfl) (.inr ⟨s, .here s, .inr ⟨sub, hsub, hsome⟩⟩))
  constructor
  · rintro ⟨t, ht, hstutters⟩
    exact ⟨t, (hcases t ht).resolve_left (not_not.mpr hstutters), hstutters⟩
  · rintro ⟨t, ht, hstutters⟩
    exact ⟨t, hreached.trans ht, hstutters⟩

/-- Where nothing is replaced, a `$` stands for itself. -/
theorem replaced_eq_none (hlegible : LegibleAt env s)
    (h : ∀ sub, innermost maxEnvSubstitutionDepth s = some sub → expand env sub.raw = none) :
    replaced env s = none := by
  refine Option.eq_none_iff_forall_ne_some.mpr fun ⟨text, rest⟩ hfound => ?_
  obtain ⟨body, name, rfl, hname, htext⟩ := replaced_eq_some.1 hfound
  have hplain := hlegible.meant body name rest rfl hname (by rw [htext]; rfl)
  have hbytes : ∀ c ∈ name, NameByte c := fun c hc => (nameByte_of_nameOf hname hplain c hc).1
  have hbody := nameOf_eq_some hname
  have hinner : innermost maxEnvSubstitutionDepth (36 :: 123 :: body) =
      some ⟨[], name, rest⟩ := by
    rw [maxEnvSubstitutionDepth, innermost_succ, hbody, (scanBody_append hbytes rest).2]
    simp
  exact absurd ((h _ hinner).symm.trans htext) (by simp)

/-- A `$` that is kept, behind what was appended in front of it. -/
theorem Walked.dollar (hreplaced : replaced env (36 :: rest) = none)
    (hnone : ∀ sub, innermost maxEnvSubstitutionDepth (36 :: rest) = some sub →
      expand env sub.raw = none) (hfront : front ≠ [] ↔ Stutters env (36 :: rest))
    (hweight : front ≠ [] → 0 < weight front) (h : Walked env rest did (unesc ++ (front ++ [36])) r) :
    Walked env (36 :: rest) did unesc r := by
  have hmeaning : meaning env false (36 :: rest) = 36 :: meaning env false rest :=
    meaning_cons (by decide) (by decide) hreplaced
  have hchanges : ¬ Changes env (36 :: rest) := by
    rintro (⟨rest', heq⟩ | ⟨sub, hsub, hsome⟩)
    · exact absurd (List.cons.inj heq).1 (by decide)
    · rw [hnone sub hsub] at hsome
      exact absurd hsome Bool.false_ne_true
  refine ⟨?_, ?_⟩
  · rw [h.flag, somewhere_cons (by decide : Passed 36), or_iff_right hchanges]
  · obtain ⟨out, hout, hright, hlong⟩ := h.text
    have hle : weight (meaning env false rest) ≤ weight out := by
      by_cases hrest : Somewhere (Stutters env) rest
      · exact (hlong hrest).le
      · rw [hright hrest]
    refine ⟨front ++ 36 :: out, by rw [hout]; simp, fun hnot => ?_, fun hsome => ?_⟩
    · rw [somewhere_cons (by decide : Passed 36), not_or] at hnot
      rw [not_not.mp fun hne => hnot.1 (hfront.mp hne), hright hnot.2, hmeaning, List.nil_append]
    · have hsplit : weight (front ++ 36 :: out) = weight front + (weight [36] + weight out) := by
        rw [weight_append, ← List.singleton_append, weight_append]
      have hsplit' : weight (36 :: meaning env false rest) =
          weight [36] + weight (meaning env false rest) := by
        rw [← List.singleton_append, weight_append]
      rw [hmeaning, hsplit, hsplit']
      rcases (somewhere_cons (by decide : Passed 36)).mp hsome with hhere | hrest
      · have hpos := hweight (hfront.mpr hhere)
        omega
      · have hlt := hlong hrest
        omega

theorem weight_front {n : Nat} (h : innermost n s = some sub) (hne : sub.front ≠ []) :
    0 < weight sub.front := by
  obtain ⟨m, body, rfl, rfl⟩ := exists_body h
  rw [innermost_succ] at h
  cases hscan : scanBody false body with
  | none => rw [hscan] at h; exact absurd h (by simp)
  | brace => rw [hscan] at h; exact absurd h (by simp)
  | closing k =>
    rw [hscan] at h
    exact absurd (congrArg Substitution.front (Option.some.inj h)).symm hne
  | dollar k =>
    rw [hscan] at h
    obtain ⟨inner, -, rfl⟩ := Option.map_eq_some_iff.mp h
    exact List.countP_pos_iff.mpr ⟨36, List.mem_cons_self, rfl⟩

/-- What the walk gives for the rest of a value. -/
theorem walk_walked (hwhole : WholeChars val) (fuel : Nat) : ∀ {i : Nat} {did : Bool}
    {unesc : Bytes}, (val.drop i).length ≤ fuel → Legible env (val.drop i) →
    Walked env (val.drop i) did unesc (walk env val fuel i false did unesc) := by
  induction fuel using Nat.strong_induction_on with
  | _ fuel ih =>
    intro i did unesc hlen hlegible
    cases hs : val.drop i with
    | nil =>
      have hwalk : walk env val fuel i false did unesc = (did, unesc ++ []) := by
        cases fuel with
        | zero => rw [walk, if_neg Bool.false_ne_true, List.append_nil]
        | succ fuel => rw [walk, hs, List.append_nil]; rfl
      rw [hwalk]
      refine walked_end meaning_nil ?_ ?_
      · rw [somewhere_nil]
        rintro ⟨sub, hsub, -⟩
        contradiction
      · rw [somewhere_nil, or_iff_left]
        rintro (⟨rest, heq⟩ | ⟨sub, hsub, -⟩)
        · exact absurd heq (by simp)
        · contradiction
    | cons c rest =>
      have hnext : val.drop (i + 1) = rest := by rw [← List.drop_drop, hs]; rfl
      have hrest : rest.length < fuel := by
        rw [hs, List.length_cons] at hlen
        omega
      obtain ⟨fuel, rfl⟩ : ∃ k, fuel = k + 1 := ⟨fuel - 1, by omega⟩
      have hchar {j : Nat} {d : UInt8} {rest : Bytes} (hj : val.drop j = d :: rest) :
          ∃ tail rest', charBytes d rest = d :: tail ∧ rest = tail ++ rest' ∧
            val.drop (j + (charBytes d rest).length) = rest' ∧ ∀ e ∈ tail, Plain e := by
        refine ⟨rest.take _, rest.drop _, rfl, (List.take_append_drop _ _).symm, ?_,
          hwhole j d rest hj⟩
        rw [← List.drop_drop, hj, charBytes, List.length_cons, List.drop_succ_cons,
          List.length_take]
        rcases Nat.le_total (utf8ByteSequenceLength d - 1) rest.length with hle | hle
        · rw [Nat.min_eq_left hle]
        · rw [Nat.min_eq_right hle, List.drop_of_length_le le_rfl, List.drop_of_length_le hle]
      rw [walk, hs]
      dsimp only
      rw [if_neg Bool.false_ne_true]
      have hlegible' : Legible env (c :: rest) := hs ▸ hlegible
      have hstep {j : Nat} {rest' : Bytes} (hj : val.drop j = rest')
          (hreached : Reached (c :: rest) rest') {k : Nat} (hk : k < fuel + 1)
          (hlt : rest'.length ≤ k) (did' : Bool) (unesc' : Bytes) :
          Walked env rest' did' unesc' (walk env val k j false did' unesc') :=
        hj ▸ ih k hk (hj ▸ hlt) (hj ▸ hlegible'.of_reached hreached)
      by_cases h36 : c = 36
      · subst h36
        rw [if_pos rfl]
        have hreached : Reached (36 :: rest) rest := (reached_cons (by decide)).mpr (.inr (.here _))
        have hparse := @parseEnvSubstitution_eq env val i i unesc maxEnvSubstitutionDepth le_rfl
          (by rw [hs]; rfl)
        rw [hs, Nat.sub_self, List.take_zero] at hparse
        cases hsub : innermost maxEnvSubstitutionDepth (36 :: rest) with
        | none =>
          rw [hsub] at hparse
          dsimp only at hparse
          rw [hparse]
          have hnone : ∀ sub, innermost maxEnvSubstitutionDepth (36 :: rest) = some sub →
              expand env sub.raw = none := fun sub h => absurd (hsub.symm.trans h) (by simp)
          have hstutters : ([] : Bytes) ≠ [] ↔ Stutters env (36 :: rest) := by
            refine iff_of_false (fun h => h rfl) ?_
            rintro ⟨sub, h, -⟩
            exact absurd (hsub.symm.trans h) (by simp)
          exact .dollar (replaced_eq_none (hlegible' _ (.here _)) hnone) hnone hstutters
            (fun h => absurd rfl h)
            (hstep hnext hreached (Nat.lt_succ_self _) (Nat.le_of_lt_succ hrest) did _)
        | some sub =>
          rw [hsub] at hparse
          dsimp only at hparse
          cases htext : expand env sub.raw with
          | none =>
            rw [htext] at hparse
            dsimp only at hparse
            rw [hparse, List.nil_append]
            dsimp only
            have hnone : ∀ sub', innermost maxEnvSubstitutionDepth (36 :: rest) = some sub' →
                expand env sub'.raw = none := fun sub' h =>
              Option.some.inj (hsub.symm.trans h) ▸ htext
            have hstutters : sub.front ≠ [] ↔ Stutters env (36 :: rest) := by
              refine ⟨fun hne => ⟨sub, hsub, hne, htext⟩, ?_⟩
              rintro ⟨sub', hsub', hne, -⟩
              rwa [← Option.some.inj (hsub.symm.trans hsub')] at hne
            refine .dollar (replaced_eq_none (hlegible' _ (.here _)) hnone) hnone hstutters
              (weight_front hsub) ?_
            rw [← List.append_assoc]
            exact hstep hnext hreached (Nat.lt_succ_self _) (Nat.le_of_lt_succ hrest) did _
          | some text =>
            rw [htext] at hparse
            obtain ⟨j, hij, hj, heq⟩ := hparse
            rw [heq, List.nil_append]
            have hsome : (expand env sub.raw).isSome := by rw [htext]; rfl
            obtain ⟨-, hbehind, -⟩ := replaces le_rfl hsub
              ((hlegible' _ (.here _)).found sub hsub hsome) htext
            refine Walked.substituted hlegible' hsub htext
              (hstep hj hbehind (Nat.lt_succ_self _) ?_ true _)
            have hdrop : (val.drop (j + 1)).length < (val.drop i).length := by
              rw [List.length_drop, List.length_drop]
              rw [hs, List.length_cons] at hlen
              have hpos : 0 < (val.drop i).length := by rw [hs]; exact Nat.succ_pos _
              rw [List.length_drop] at hpos
              omega
            rw [hj] at hdrop
            omega
      by_cases hcomment : c = 59 ∨ c = 35
      · rw [if_neg h36, if_pos hcomment]
        conv_rhs => rw [← List.append_nil unesc]
        have h92 : c ≠ 92 := by rcases hcomment with rfl | rfl <;> decide
        refine walked_end (meaning_comment hcomment) ?_ ?_
        · rw [somewhere_comment hcomment]
          exact not_stutters_of_ne h36
        · rw [somewhere_comment hcomment, or_iff_left (not_changes_of_ne h92 h36)]
      by_cases h92 : c = 92
      · subst h92
        rw [if_neg (by decide), if_neg (by decide), if_pos rfl]
        cases rest with
        | nil =>
          have hwalk : walk env val fuel (i + 1) true true unesc = (true, unesc ++ [92]) := by
            cases fuel with
            | zero => rfl
            | succ fuel => rw [walk, hnext]; rfl
          rw [hwalk]
          refine walked_end meaning_backslash ?_
            (iff_of_true rfl (.inr somewhere_changes_backslash))
          rw [somewhere_backslash]
          exact not_stutters_of_ne (by decide)
        | cons d rest =>
          rw [List.length_cons] at hrest
          obtain ⟨fuel, rfl⟩ : ∃ k, fuel = k + 1 := ⟨fuel - 1, by omega⟩
          have hnext' : val.drop (i + 1 + 1) = rest := by rw [← List.drop_drop, hnext]; rfl
          rw [walk, hnext]
          dsimp only
          rw [if_pos rfl]
          cases hd : escapable d with
          | true =>
            rw [if_pos rfl]
            exact Walked.escaped hd
              (hstep hnext' (.escape (.here _)) (by omega) (by omega) true _)
          | false =>
            rw [if_neg Bool.false_ne_true]
            obtain ⟨tail, rest', hbytes, rfl, hdrop, htail⟩ := hchar hnext
            rw [hbytes] at hdrop ⊢
            have htail' : ∀ c ∈ tail, Passed c := fun c hc =>
              ⟨(htail c hc).1, (htail c hc).2.1, (htail c hc).2.2.1⟩
            rw [List.length_append] at hrest
            exact Walked.backslash hd htail (hstep hdrop (.escape (reached_append htail'))
              (by omega) (by omega) true _)
      · rw [if_neg h36, if_neg hcomment, if_neg h92]
        obtain ⟨tail, rest', hbytes, rfl, hdrop, htail⟩ := hchar hs
        rw [not_or] at hcomment
        rw [hbytes] at hdrop ⊢
        refine Walked.char ⟨h92, hcomment.1, hcomment.2, h36⟩ htail (hstep hdrop ?_ (Nat.lt_succ_self _) ?_ did _)
        · refine .step h92 hcomment.1 hcomment.2 (reached_append fun e he => ?_)
          exact ⟨(htail e he).1, (htail e he).2.1, (htail e he).2.2.1⟩
        · rw [List.length_append] at hrest
          omega

end Walk

end OhosBun.Ini
