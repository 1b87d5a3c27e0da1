/-
# `OhosBun.Lib.Reader` — readers of input that is still arriving

A reader takes a result off the front of a list, or fails; one of the errors says that the
list is too short.  `Stable`: more input changes neither a result nor any other error.
`Skips`: a second reader, with less to show for it, takes off as much as the first one.
Both hold of what is composed of readers of which they hold.
-/
import Mathlib.Data.List.Basic

namespace OhosBun.Lib

/-- A result or an error, with the input that is left. -/
abbrev Reader (β ε α : Type) := List β → Except ε α × List β

namespace Reader
variable {β ε α γ δ : Type}

protected def pure (a : α) : Reader β ε α := fun rest => (.ok a, rest)

def fail (e : ε) : Reader β ε α := fun rest => (.error e, rest)

protected def bind (p : Reader β ε α) (f : α → Reader β ε γ) : Reader β ε γ := fun rest =>
  match p rest with
  | (.ok a, left) => f a left
  | (.error e, left) => (.error e, left)

protected def map (f : α → γ) (p : Reader β ε α) : Reader β ε γ := p.bind fun a => .pure (f a)

/-- One result after the other. -/
def many (p : Reader β ε α) : Nat → Reader β ε (List α)
  | 0 => .pure []
  | n + 1 => p.bind fun a => (p.many n).map (a :: ·)

section Bind
variable {p : Reader β ε α} {f : α → Reader β ε γ} {rest left : List β}

theorem bind_of_ok {a : α} (h : p rest = (.ok a, left)) : p.bind f rest = f a left := by
  rw [Reader.bind, h]

theorem bind_of_error {e : ε} (h : p rest = (.error e, left)) :
    p.bind f rest = (.error e, left) := by
  rw [Reader.bind, h]

theorem bind_eq_ok {c : γ} : p.bind f rest = (.ok c, left) ↔
    ∃ a mid, p rest = (.ok a, mid) ∧ f a mid = (.ok c, left) := by
  rw [Reader.bind]
  constructor
  · intro h
    split at h
    next a mid hp => exact ⟨a, mid, hp, h⟩
    next => simp at h
  · rintro ⟨a, mid, hp, hf⟩
    rw [hp]
    exact hf

theorem bind_eq_error {e : ε} : p.bind f rest = (.error e, left) ↔
    p rest = (.error e, left) ∨ ∃ a mid, p rest = (.ok a, mid) ∧ f a mid = (.error e, left) := by
  rw [Reader.bind]
  constructor
  · intro h
    split at h
    next a mid hp => exact .inr ⟨a, mid, hp, h⟩
    next e' mid hp =>
      obtain ⟨herr, rfl⟩ := Prod.mk.inj h
      rw [Except.error.inj herr] at hp
      exact .inl hp
  · rintro (hp | ⟨a, mid, hp, hf⟩)
    · rw [hp]
    · rw [hp]
      exact hf

theorem bind_bind (p : Reader β ε α) (f : α → Reader β ε γ) (g : γ → Reader β ε δ) :
    (p.bind f).bind g = p.bind fun a => (f a).bind g := by
  funext rest
  cases h : p rest with
  | mk r left =>
    cases r with
    | ok a => rw [bind_of_ok h, Reader.bind, bind_of_ok h, Reader.bind]
    | error e => rw [bind_of_error h, bind_of_error (bind_of_error h)]

theorem pure_bind (a : α) (f : α → Reader β ε γ) : (Reader.pure a).bind f = f a := rfl

theorem map_eq_ok {g : α → γ} {c : γ} : p.map g rest = (.ok c, left) ↔
    ∃ a, p rest = (.ok a, left) ∧ g a = c := by
  rw [Reader.map, bind_eq_ok]
  constructor
  · rintro ⟨a, mid, hp, hpure⟩
    obtain ⟨hok, rfl⟩ := Prod.mk.inj hpure
    exact ⟨a, hp, Except.ok.inj hok⟩
  · rintro ⟨a, hp, rfl⟩
    exact ⟨a, left, hp, rfl⟩

end Bind

/-- What is written one after the other is read one after the other. -/
theorem many_flatMap {p : Reader β ε α} {emit : δ → List β} {value : δ → α} {items : List δ}
    (h : ∀ item ∈ items, ∀ rest, p (emit item ++ rest) = (.ok (value item), rest)) (rest : List β) :
    p.many items.length (items.flatMap emit ++ rest) = (.ok (items.map value), rest) := by
  induction items with
  | nil => rfl
  | cons item items ih =>
    rw [List.flatMap_cons, List.append_assoc, List.length_cons, many,
      bind_of_ok (h item List.mem_cons_self _)]
    have hitems := ih fun item hmem => h item (List.mem_cons_of_mem _ hmem)
    exact map_eq_ok.2 ⟨_, hitems, rfl⟩

theorem many_add (p : Reader β ε α) (a b : Nat) :
    p.many (a + b) = (p.many a).bind fun as => (p.many b).map (as ++ ·) := by
  induction a with
  | zero =>
    rw [Nat.zero_add]
    funext rest
    change _ = (p.many b).map ([] ++ ·) rest
    cases h : p.many b rest with
    | mk r left =>
      cases r with
      | ok as => exact (map_eq_ok.2 ⟨as, h, List.nil_append as⟩).symm
      | error e => exact (bind_of_error h).symm
  | succ a ih =>
    rw [Nat.succ_add, many, many, bind_bind, ih]
    congr 1
    funext x
    rw [Reader.map, Reader.map, bind_bind, bind_bind]
    congr 1
    funext as
    rw [Reader.map, bind_bind]
    rfl

/-! ## More input -/

/-- A reader takes from the front, and more input changes a result or an error only where
`more` was asked for. -/
structure Stable (more : ε) (p : Reader β ε α) : Prop where
  suffix : ∀ rest, (p rest).2 <:+ rest
  ok : ∀ {rest left a}, p rest = (.ok a, left) → ∀ extra, p (rest ++ extra) = (.ok a, left ++ extra)
  error : ∀ {rest left e}, p rest = (.error e, left) → e ≠ more → ∀ extra,
    ∃ left', p (rest ++ extra) = (.error e, left')

namespace Stable
variable {more : ε} {p : Reader β ε α} {f : α → Reader β ε γ}

theorem length_le (hp : Stable more p) {rest left : List β} {r : Except ε α}
    (h : p rest = (r, left)) : left.length ≤ rest.length := by
  have hsuffix := (hp.suffix rest).length_le
  rwa [h] at hsuffix

theorem pure (a : α) : Stable more (Reader.pure a : Reader β ε α) where
  suffix rest := List.suffix_refl rest
  ok h extra := by
    obtain ⟨hok, rfl⟩ := Prod.mk.inj h
    rw [← hok]
    rfl
  error h := by
    obtain ⟨herr, _⟩ := Prod.mk.inj h
    exact absurd herr (by simp)

theorem fail (e : ε) : Stable more (Reader.fail e : Reader β ε α) where
  suffix rest := List.suffix_refl rest
  ok h := by
    obtain ⟨hok, _⟩ := Prod.mk.inj h
    exact absurd hok (by simp)
  error h _ extra := by
    obtain ⟨herr, rfl⟩ := Prod.mk.inj h
    exact ⟨_ ++ extra, by rw [← herr]; rfl⟩

theorem bind (hp : Stable more p) (hf : ∀ a, Stable more (f a)) : Stable more (p.bind f) where
  suffix rest := by
    have hsuffix := hp.suffix rest
    rw [Reader.bind]
    split
    next a left h =>
      rw [h] at hsuffix
      exact ((hf a).suffix left).trans hsuffix
    next e left h =>
      rw [h] at hsuffix
      exact hsuffix
  ok h extra := by
    obtain ⟨a, mid, hp', hf'⟩ := bind_eq_ok.1 h
    exact bind_eq_ok.2 ⟨a, mid ++ extra, hp.ok hp' extra, (hf a).ok hf' extra⟩
  error h hne extra := by
    rcases bind_eq_error.1 h with hp' | ⟨a, mid, hp', hf'⟩
    · obtain ⟨left', hleft'⟩ := hp.error hp' hne extra
      exact ⟨left', bind_of_error hleft'⟩
    · obtain ⟨left', hleft'⟩ := (hf a).error hf' hne extra
      exact ⟨left', bind_eq_error.2 (.inr ⟨a, mid ++ extra, hp.ok hp' extra, hleft'⟩)⟩

theorem map (hp : Stable more p) (g : α → γ) : Stable more (p.map g) := hp.bind fun a => .pure (g a)

theorem many (hp : Stable more p) (n : Nat) : Stable more (p.many n) := by
  induction n with
  | zero => exact .pure _
  | succ n ih => exact hp.bind fun a => ih.map _

/-- What is read to its end was not read before its end was there. -/
theorem error_more_of_isPrefix (hp : Stable more p) {start extra : List β} {a : α}
    (h : p (start ++ extra) = (.ok a, [])) (hextra : extra ≠ []) :
    ∃ left, p start = (.error more, left) := by
  cases hstart : p start with
  | mk r left =>
    cases r with
    | ok b =>
      have hok := hp.ok hstart extra
      rw [h, Prod.mk.injEq] at hok
      exact absurd (List.append_eq_nil_iff.mp hok.2.symm).2 hextra
    | error e =>
      by_cases hne : e = more
      · exact ⟨left, by rw [hne]⟩
      · obtain ⟨left', hleft'⟩ := hp.error hstart hne extra
        rw [h, Prod.mk.injEq] at hleft'
        exact absurd hleft'.1 (by simp)

end Stable

/-! ## A stream in pieces -/

section Stream
variable {more : ε} {p : Reader β ε α}

/-- What is read to its end, and what is read of it. -/
def Complete (p : Reader β ε α) (frame : List β × α) : Prop := p frame.1 = (.ok frame.2, [])

/-- The start of what would be read to its end if there were more. -/
def Incomplete (p : Reader β ε α) (start : List β) : Prop :=
  ∃ extra frame, extra ≠ [] ∧ p.Complete (start ++ extra, frame)

variable {frame : List β × α} {start : List β}

theorem Stable.read_complete (hp : Stable more p) (h : p.Complete frame) (rest : List β) :
    p (frame.1 ++ rest) = (.ok frame.2, rest) := hp.ok h rest

theorem Stable.read_incomplete (hp : Stable more p) (h : p.Incomplete start) :
    ∃ left, p start = (.error more, left) := by
  obtain ⟨extra, a, hextra, hcomplete⟩ := h
  exact hp.error_more_of_isPrefix hcomplete hextra

/-- A start that is incomplete has no frame at its front. -/
theorem Stable.ne_append (hp : Stable more p) (h : p.Incomplete start) (hframe : p.Complete frame)
    (rest : List β) : start ≠ frame.1 ++ rest := by
  rintro rfl
  obtain ⟨left, hleft⟩ := hp.read_incomplete h
  rw [hp.read_complete hframe] at hleft
  exact absurd (Prod.mk.inj hleft).1 (by simp)

theorem Stable.length_le_complete (hp : Stable more p) {extra rest : List β} (h : p.Incomplete start)
    (hframe : p.Complete frame) (heq : start ++ extra = frame.1 ++ rest) :
    start.length ≤ frame.1.length := by
  rcases List.append_eq_append_iff.mp heq with ⟨mid, hmid, -⟩ | ⟨mid, hmid, -⟩
  · rw [hmid, List.length_append]
    exact Nat.le_add_right _ _
  · exact absurd hmid (hp.ne_append h hframe mid)

/-- A cut of a stream is a cut of one of its frames, or of what comes after the last. -/
theorem exists_cut {frames : List (List β × α)} {tail front back : List β}
    (hframes : ∀ frame ∈ frames, p.Complete frame) (htail : p.Incomplete tail)
    (h : front ++ back = frames.flatMap (·.1) ++ tail) :
    ∃ before after start, frames = before ++ after ∧ front = before.flatMap (·.1) ++ start ∧
      p.Incomplete start ∧ start ++ back = after.flatMap (·.1) ++ tail := by
  induction frames generalizing front with
  | nil =>
    obtain ⟨extra, a, hextra, hcomplete⟩ := htail
    refine ⟨[], [], front, rfl, rfl, ⟨back ++ extra, a, ?_, ?_⟩, h⟩
    · exact List.append_ne_nil_of_right_ne_nil back hextra
    · rw [← List.append_assoc, h]
      exact hcomplete
  | cons frame frames ih =>
    rw [List.flatMap_cons, List.append_assoc] at h
    rcases List.append_eq_append_iff.mp h with ⟨extra, hframe, hback⟩ | ⟨front', hfront, hrest⟩
    · by_cases hextra : extra = []
      · subst hextra
        rw [List.append_nil] at hframe
        obtain ⟨before, after, start, heq, hstart, hincomplete, hafter⟩ :=
          ih (fun f hf => hframes f (List.mem_cons_of_mem _ hf)) ((List.nil_append _).trans hback)
        refine ⟨frame :: before, after, start, by rw [heq]; rfl, ?_, hincomplete, hafter⟩
        rw [List.flatMap_cons, List.append_assoc, ← hstart, List.append_nil, hframe]
      · refine ⟨[], frame :: frames, front, rfl, rfl, ⟨extra, frame.2, hextra, ?_⟩, ?_⟩
        · rw [← hframe]
          exact hframes frame List.mem_cons_self
        · rw [List.flatMap_cons, List.append_assoc, h]
    · obtain ⟨before, after, start, heq, hstart, hincomplete, hafter⟩ :=
        ih (fun f hf => hframes f (List.mem_cons_of_mem _ hf)) hrest.symm
      refine ⟨frame :: before, after, start, by rw [heq]; rfl, ?_, hincomplete, hafter⟩
      rw [List.flatMap_cons, List.append_assoc, ← hstart, hfront]

end Stream

/-! ## Reading and skipping -/

/-- The second reader takes off what the first reads.  Where the first fails on input that
the second takes, it does not ask for more. -/
structure Skips (more : ε) (p : Reader β ε α) (q : Reader β ε γ) : Prop where
  of_ok : ∀ {rest left a}, p rest = (.ok a, left) → ∃ c, q rest = (.ok c, left)
  ok_or : ∀ {rest left c}, q rest = (.ok c, left) → (∃ a, p rest = (.ok a, left)) ∨
    ∃ e left', p rest = (.error e, left') ∧ e ≠ more

namespace Skips
variable {α' γ' : Type} {more : ε} {p : Reader β ε α} {q : Reader β ε γ} {f : α → Reader β ε α'}
  {g : γ → Reader β ε γ'}

theorem refl (p : Reader β ε α) : Skips more p p where
  of_ok h := ⟨_, h⟩
  ok_or h := .inl ⟨_, h⟩

/-- After the same reader, for the results that it has. -/
theorem bind_left {f : δ → Reader β ε α} {g : δ → Reader β ε γ} {r : Reader β ε δ}
    (h : ∀ {d rest left}, r rest = (.ok d, left) → Skips more (f d) (g d)) :
    Skips more (r.bind f) (r.bind g) where
  of_ok hok := by
    obtain ⟨d, mid, hr, hf⟩ := bind_eq_ok.1 hok
    obtain ⟨c, hg⟩ := (h hr).of_ok hf
    exact ⟨c, bind_eq_ok.2 ⟨d, mid, hr, hg⟩⟩
  ok_or hok := by
    obtain ⟨d, mid, hr, hg⟩ := bind_eq_ok.1 hok
    rcases (h hr).ok_or hg with ⟨a, hf⟩ | ⟨e, left', hf, hne⟩
    · exact .inl ⟨a, bind_eq_ok.2 ⟨d, mid, hr, hf⟩⟩
    · exact .inr ⟨e, left', bind_eq_error.2 (.inr ⟨d, mid, hr, hf⟩), hne⟩

theorem bind (h : Skips more p q) (hf : ∀ a c, Skips more (f a) (g c)) :
    Skips more (p.bind f) (q.bind g) where
  of_ok hok := by
    obtain ⟨a, mid, hp, hfa⟩ := bind_eq_ok.1 hok
    obtain ⟨c, hq⟩ := h.of_ok hp
    obtain ⟨c', hg⟩ := (hf a c).of_ok hfa
    exact ⟨c', bind_eq_ok.2 ⟨c, mid, hq, hg⟩⟩
  ok_or hok := by
    obtain ⟨c, mid, hq, hg⟩ := bind_eq_ok.1 hok
    rcases h.ok_or hq with ⟨a, hp⟩ | ⟨e, left', hp, hne⟩
    · rcases (hf a c).ok_or hg with ⟨a', hfa⟩ | ⟨e, left', hfa, hne⟩
      · exact .inl ⟨a', bind_eq_ok.2 ⟨a, mid, hp, hfa⟩⟩
      · exact .inr ⟨e, left', bind_eq_error.2 (.inr ⟨a, mid, hp, hfa⟩), hne⟩
    · exact .inr ⟨e, left', bind_of_error hp, hne⟩

theorem pure (a : α) (c : γ) : Skips more (Reader.pure a : Reader β ε α) (Reader.pure c) where
  of_ok h := by
    obtain ⟨_, rfl⟩ := Prod.mk.inj h
    exact ⟨c, rfl⟩
  ok_or h := by
    obtain ⟨_, rfl⟩ := Prod.mk.inj h
    exact .inl ⟨a, rfl⟩

/-- After a result the first may make something of it or reject it for good. -/
theorem bind_check (h : Skips more p q)
    (hf : ∀ a, (∃ b, f a = Reader.pure b) ∨ ∃ e, e ≠ more ∧ f a = Reader.fail e) :
    Skips more (p.bind f) q where
  of_ok hok := by
    obtain ⟨a, mid, hp, hfa⟩ := bind_eq_ok.1 hok
    rcases hf a with ⟨b, hb⟩ | ⟨e, _, he⟩
    · rw [hb] at hfa
      obtain ⟨_, rfl⟩ := Prod.mk.inj hfa
      exact h.of_ok hp
    · rw [he] at hfa
      exact absurd (Prod.mk.inj hfa).1 (by simp)
  ok_or hq := by
    rcases h.ok_or hq with ⟨a, hp⟩ | ⟨e, left', hp, hne⟩
    · rcases hf a with ⟨b, hb⟩ | ⟨e, hne, he⟩
      · exact .inl ⟨b, bind_eq_ok.2 ⟨a, _, hp, by rw [hb]; rfl⟩⟩
      · exact .inr ⟨e, _, bind_eq_error.2 (.inr ⟨a, _, hp, by rw [he]; rfl⟩), hne⟩
    · exact .inr ⟨e, left', bind_of_error hp, hne⟩

/-- A reader that fails for good may stand for anything that the other does after. -/
theorem fail {e : ε} (hne : e ≠ more) (q : Reader β ε γ) :
    Skips more (Reader.fail e : Reader β ε α) q where
  of_ok h := absurd (Prod.mk.inj h).1 (by simp)
  ok_or _ := .inr ⟨e, _, rfl, hne⟩

theorem fail_fail (e e' : ε) :
    Skips more (Reader.fail e : Reader β ε α) (Reader.fail e' : Reader β ε γ) where
  of_ok h := absurd (Prod.mk.inj h).1 (by simp)
  ok_or h := absurd (Prod.mk.inj h).1 (by simp)

theorem map_left (h : Skips more p q) (f : α → α') : Skips more (p.map f) q :=
  h.bind_check fun a => .inl ⟨f a, rfl⟩

theorem map_right (h : Skips more p q) (g : γ → γ') : Skips more p (q.map g) where
  of_ok hp := by
    obtain ⟨c, hq⟩ := h.of_ok hp
    exact ⟨g c, map_eq_ok.2 ⟨c, hq, rfl⟩⟩
  ok_or hok := by
    obtain ⟨c, hq, _⟩ := map_eq_ok.1 hok
    exact h.ok_or hq

theorem many (h : Skips more p q) (n : Nat) : Skips more (p.many n) (q.many n) := by
  induction n with
  | zero => exact .pure _ _
  | succ n ih => exact h.bind fun a c => (ih.map_left _).map_right _

theorem many_one (h : Skips more p q) : Skips more p (q.many 1) := h.map_right fun c => [c]

/-- Each result of the first is so many of the second. -/
theorem many_mul {k : Nat} (h : Skips more p (q.many k)) (n : Nat) :
    Skips more (p.many n) (q.many (k * n)) := by
  induction n with
  | zero => exact .pure _ _
  | succ n ih =>
    rw [Nat.mul_succ, Nat.add_comm (k * n) k, many_add q k (k * n)]
    exact h.bind fun a c => (ih.map_left _).map_right _

end Skips

end Reader

end OhosBun.Lib
