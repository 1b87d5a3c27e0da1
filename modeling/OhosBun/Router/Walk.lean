/-
# `OhosBun.Router.Walk` — the matching loop, segment by segment

`walk` is what the loop of `match_` does, said of the segments of the name and of the
path and not of their texts (`matchLoop_eq_walk`).  It is the loop's own behaviour, odd
ends included, and not what a route means.

In a name of 65535 bytes that ends in `[p]` the offset wraps, and no path matches
(`matchLoop_of_wraps`).
-/
import OhosBun.Router.Tokens

namespace OhosBun.Router

/-! ## The loop on segments -/

/-- At most one byte of the name is left: `isEnd` holds before it. -/
def IsEnd (rest : List Segment) : Prop := (nameText rest).length ≤ 1

instance (rest : List Segment) : Decidable (IsEnd rest) := by
  unfold IsEnd
  infer_instance

def startsOptional : List Segment → Bool
  | .optionalCatchAll _ :: _ => true
  | _ => false

def walk : List Segment → List (List UInt8) → List Param → Bool × List Param
  | [], _, params => (false, params)
  | .literal l :: rest, xs, params =>
    if l.length = 1 ∧ rest = [] ∨ l ≠ xs.headD [] then (false, [])
    else if xs.tail = [] ∧ IsEnd rest then (true, params)
    else walk rest xs.tail params
  | .param p :: rest, x :: y :: ys, params =>
    if IsEnd rest then (false, []) else walk rest (y :: ys) (params ++ [⟨p, x⟩])
  | .param p :: rest, xs, params =>
    if IsEnd rest ∨ startsOptional rest then (true, params ++ [⟨p, xs.headD []⟩])
    else (false, [])
  | .catchAll p :: _, xs, params =>
    if xs = [] then (false, params) else (true, params ++ [⟨p, joined xs⟩])
  | .optionalCatchAll p :: _, xs, params =>
    (true, if xs = [] then params else params ++ [⟨p, joined xs⟩])

/-! ## A turn -/

section Turn
variable (hash : List UInt8 → UInt32) {before text : List UInt8} {rest : List Segment}
  {xs : List (List UInt8)} {params : List Param} {turns : Nat}

theorem nameText_cons (s : Segment) (rest : List Segment) :
    nameText (s :: rest) = s.text ++ after (rest.map Segment.text) := rfl

variable {s : Segment} {l p : List UInt8}

theorem nameText_next (hne : rest ≠ []) :
    before ++ nameText (s :: rest) = (before ++ s.text ++ [slash]) ++ nameText rest := by
  obtain ⟨r, rs, rfl⟩ := List.exists_cons_of_ne_nil hne
  rw [nameText_cons, List.map_cons, after_cons]
  simp [nameText]

theorem text_ne_nil (h : s.Valid) : s.text ≠ [] := by
  obtain ⟨c, cs, htext, -⟩ := h.text_head
  rw [htext]
  exact List.cons_ne_nil _ _

theorem map_text_ne_nil (h : ∀ s ∈ rest, s.Valid) : ∀ x ∈ rest.map Segment.text, x ≠ [] := by
  intro x hx
  obtain ⟨s, hs, rfl⟩ := List.mem_map.mp hx
  exact text_ne_nil (h s hs)

theorem length_nameText_pos (hne : rest ≠ []) (h : ∀ s ∈ rest, s.Valid) :
    0 < (nameText rest).length := by
  obtain ⟨s, rs, rfl⟩ := List.exists_cons_of_ne_nil hne
  have hs := List.length_pos_iff.mpr (text_ne_nil (h s List.mem_cons_self))
  rw [nameText_cons, List.length_append]
  omega

theorem segmentOf_joined (h : ∀ x ∈ xs, IsPart x) : segmentOf (joined xs) = xs.headD [] := by
  cases xs with
  | nil => rfl
  | cons x xs => exact segmentOf_joined_cons (h x List.mem_cons_self)

/-- What is left of the path after its first segment. -/
theorem joined_tail (h : ∀ x ∈ xs, IsPart x) :
    (if (xs.headD []).length < (joined xs).length then
      (joined xs).drop ((xs.headD []).length + 1) else []) = joined xs.tail := by
  cases xs with
  | nil => rfl
  | cons x xs =>
    cases xs with
    | nil => simp [joined]
    | cons y ys =>
      rw [List.headD_cons, drop_joined_cons, if_pos, List.tail_cons]
      simp [joined_cons, after_cons]

theorem eqlBytes_init (l other : List UInt8) :
    (HashedString.init hash l).eqlBytes hash other = decide (l = other) := by
  by_cases h : l = other
  · subst h
    simp [HashedString.eqlBytes, HashedString.init]
  · simp [HashedString.eqlBytes, HashedString.init, h]

/-- The offset after a literal. -/
def afterLiteral (before l : List UInt8) (rest : List Segment) : Nat :=
  if rest = [] then (before ++ l).length else (before ++ l ++ [slash]).length

theorem init_literal (hl : (Segment.literal l).Valid) (hrest : ∀ s ∈ rest, s.Valid)
    (htext : text = before ++ nameText (.literal l :: rest)) (hlen : text.length < 65536)
    (hlong : l.length ≠ 1 ∨ rest ≠ []) :
    Pattern.init hash text before.length =
      some (.ok ⟨.static (.init hash l), afterLiteral before l rest⟩) := by
  subst htext
  cases rest with
  | nil =>
    have hpos := List.length_pos_iff.mpr hl.1
    have hone : l.length ≠ 1 := hlong.resolve_right (fun h => h rfl)
    have heq : nameText [.literal l] = l := by simp [nameText, joined, Segment.text]
    rw [heq] at hlen ⊢
    exact init_literal_last hash hl (by omega) hlen
  | cons s rest =>
    have hs := text_ne_nil (hrest s List.mem_cons_self)
    have h := init_literal_next hash hl hs hlen
    rw [afterLiteral, if_neg (List.cons_ne_nil _ _)]
    simp only [List.length_append, List.length_singleton, Nat.add_assoc]
    exact h

theorem isEnd_afterLiteral (htext : text = before ++ nameText (.literal l :: rest)) (v : Value) :
    (Pattern.mk v (afterLiteral before l rest)).isEnd text = decide (IsEnd rest) := by
  subst htext
  rw [Pattern.isEnd, decide_eq_decide, IsEnd, afterLiteral]
  split
  · next hnil =>
      subst hnil
      simp [nameText, joined, Segment.text]
  · next hne =>
      rw [nameText_next hne]
      simp only [Segment.text, List.length_append, List.length_singleton]
      omega

theorem matchLoop_literal (hl : (Segment.literal l).Valid) (hrest : ∀ s ∈ rest, s.Valid)
    (htext : text = before ++ nameText (.literal l :: rest)) (hlen : text.length < 65536)
    (hlong : l.length ≠ 1 ∨ rest ≠ []) (hxs : ∀ x ∈ xs, IsPart x) :
    matchLoop hash true text text (turns + 1) before.length (joined xs) params =
      if l ≠ xs.headD [] then .answer false []
      else if xs.tail = [] ∧ IsEnd rest then .answer true params
      else matchLoop hash true text text turns (afterLiteral before l rest) (joined xs.tail)
        params := by
  have hpos : before.length < text.length := by
    have hpos := List.length_pos_iff.mpr hl.1
    rw [htext, nameText_cons, Segment.text]
    simp only [List.length_append]
    omega
  have htail : ∀ x ∈ xs.tail, IsPart x := fun x hx => hxs x (List.mem_of_mem_tail hx)
  rw [matchLoop, if_pos hpos, init_literal hash hl hrest htext hlen hlong]
  simp only [segmentOf_joined hxs, joined_tail hxs, eqlBytes_init hash,
    isEnd_afterLiteral htext, joined_eq_nil htail, decide_eq_true_eq]
  simp

/-- The empty token matches no segment of a path. -/
theorem matchLoop_lastByte {c : UInt8} (hc : (Segment.literal [c]).Valid)
    (htext : text = before ++ [c]) (hlen : text.length < 65536) (hxs : ∀ x ∈ xs, IsPart x)
    (hne : xs ≠ []) :
    matchLoop hash true text text (turns + 1) before.length (joined xs) params =
      .answer false [] := by
  obtain ⟨x, xs, rfl⟩ := List.exists_cons_of_ne_nil hne
  have hx := (hxs x List.mem_cons_self).1
  subst htext
  have hinit := init_lastByte hash c (hc.2 c List.mem_cons_self).1
    (by simpa using hlen)
  rw [matchLoop, if_pos (by simp), hinit]
  simp [segmentOf_joined hxs, HashedString.eqlBytes, HashedString.EMPTY, Ne.symm hx]

theorem length_lt_text (hs : s.Valid) (htext : text = before ++ nameText (s :: rest)) :
    before.length < text.length := by
  have hpos := List.length_pos_iff.mpr (text_ne_nil hs)
  rw [htext, nameText_cons]
  simp only [List.length_append]
  omega

/-- The offset after `[p]` wraps to the start of the name. -/
def Wraps (text : List UInt8) (rest : List Segment) : Prop := rest = [] ∧ text.length = 65535

instance (text : List UInt8) (rest : List Segment) : Decidable (Wraps text rest) := by
  unfold Wraps
  infer_instance

section Param
variable {p : List UInt8} (hp : (Segment.param p).Valid) (hrest : ∀ s ∈ rest, s.Valid)
  (htext : text = before ++ nameText (.param p :: rest)) (hlen : text.length < 65536)
include hp hrest htext hlen

theorem init_param_text : Pattern.init hash text before.length =
    some (.ok ⟨.dynamic ⟨before.length + 1, p.length⟩,
      afterParam before p (rest.map Segment.text)⟩) := by
  subst htext
  exact init_param hash hp (map_text_ne_nil hrest) hlen

omit hrest hlen in
theorem str_param_text : TinyPtr.str ⟨before.length + 1, p.length⟩ text = p := by
  subst htext
  rw [nameText_cons]
  refine str_param (closeBracket :: after (rest.map Segment.text)) hp.1
    ⟨[openBracket], ?_, rfl⟩
  simp [Segment.text]

omit hp hrest hlen in
theorem length_param_text : text.length =
    before.length + (p.length + 2 + (after (rest.map Segment.text)).length) := by
  rw [htext, nameText_cons, Segment.text]
  simp
  omega

omit hp hrest in
theorem afterParam_eq (hwraps : ¬ Wraps text rest) :
    afterParam before p (rest.map Segment.text) =
      if rest = [] then text.length - 1
      else (before ++ (Segment.param p).text ++ [slash]).length := by
  have htotal := length_param_text htext
  simp only [afterParam, List.map_eq_nil_iff]
  split
  · next hnil =>
      subst hnil
      have hne : text.length ≠ 65535 := fun h => hwraps ⟨rfl, h⟩
      rw [List.map_nil, after, List.flatMap_nil, List.length_nil] at htotal
      rw [if_pos (by omega)]
      omega
  · simp [Segment.text]

omit hp hrest hlen in
theorem afterParam_of_wraps (hwraps : Wraps text rest) :
    afterParam before p (rest.map Segment.text) = 0 := by
  obtain ⟨rfl, hmax⟩ := hwraps
  have htotal := length_param_text htext
  rw [List.map_nil, after, List.flatMap_nil, List.length_nil] at htotal
  rw [afterParam, List.map_nil, if_pos rfl, if_neg (by omega)]

omit hp in
theorem isEnd_afterParam (v : Value) :
    (Pattern.mk v (afterParam before p (rest.map Segment.text))).isEnd text =
      decide (IsEnd rest ∧ ¬ Wraps text rest) := by
  rw [Pattern.isEnd, decide_eq_decide]
  by_cases hwraps : Wraps text rest
  · simp only [afterParam_of_wraps htext hwraps, hwraps, not_true_eq_false, and_false, iff_false]
    have hmax := hwraps.2
    omega
  · simp only [afterParam_eq htext hlen hwraps, hwraps, not_false_eq_true, and_true]
    unfold IsEnd
    split
    · next hnil =>
        subst hnil
        simp [nameText, joined]
    · next hne =>
        have hpos := length_nameText_pos hne hrest
        rw [htext, nameText_next hne]
        simp only [List.length_append]
        omega

theorem matchLoop_param_more {x y : List UInt8} {ys : List (List UInt8)}
    (hxs : ∀ z ∈ x :: y :: ys, IsPart z) :
    matchLoop hash true text text (turns + 1) before.length (joined (x :: y :: ys)) params =
      if IsEnd rest ∧ ¬ Wraps text rest then .answer false []
      else matchLoop hash true text text turns (afterParam before p (rest.map Segment.text))
        (joined (y :: ys)) (params ++ [⟨p, x⟩]) := by
  have hx := hxs x List.mem_cons_self
  rw [matchLoop, if_pos (length_lt_text hp htext), init_param_text hash hp hrest htext hlen]
  simp only [(slash_mem_joined_cons hx).mpr (List.cons_ne_nil y ys), if_true,
    segmentOf_joined_cons hx, drop_joined_cons, isEnd_afterParam hrest htext hlen,
    str_param_text hp htext, decide_eq_true_eq]

theorem matchLoop_param_one (hxs : ∀ z ∈ xs, IsPart z) (hone : xs.tail = []) :
    matchLoop hash true text text (turns + 1) before.length (joined xs) params =
      if IsEnd rest ∧ ¬ Wraps text rest then .answer true (params ++ [⟨p, xs.headD []⟩])
      else
        match Pattern.init hash text (afterParam before p (rest.map Segment.text)) with
        | some (.ok next) =>
          if next.value.isOptionalCatchAll then .answer true (params ++ [⟨p, xs.headD []⟩])
          else .answer false []
        | _ => .panic := by
  have hslash : slash ∉ joined xs := by
    cases xs with
    | nil => exact List.not_mem_nil
    | cons x xs =>
      rw [slash_mem_joined_cons (hxs x List.mem_cons_self)]
      exact fun h => h hone
  have hhead : joined xs = xs.headD [] := by
    cases xs with
    | nil => rfl
    | cons x xs =>
      rw [List.tail_cons] at hone
      subst hone
      simp [joined]
  rw [hhead] at hslash
  rw [matchLoop, if_pos (length_lt_text hp htext), init_param_text hash hp hrest htext hlen]
  simp only [hslash, if_false, isEnd_afterParam hrest htext hlen, str_param_text hp htext,
    decide_eq_true_eq, if_true, hhead] <;> rfl

end Param

/-- The next token, looked at from a `[p]` before it: all that counts is whether it is a
`[[...q]]`. -/
theorem init_text (hs : s.Valid) (hrest : ∀ r ∈ rest, r.Valid) (hsingle : rest ≠ [] → s.Single)
    (htext : text = before ++ nameText (s :: rest)) (hlen : text.length < 65536) :
    ∃ token, Pattern.init hash text before.length = some (.ok token) ∧
      token.value.isOptionalCatchAll = startsOptional (s :: rest) := by
  cases s with
  | literal l =>
    by_cases hlong : l.length ≠ 1 ∨ rest ≠ []
    · exact ⟨_, init_literal hash hs hrest htext hlen hlong, rfl⟩
    · rw [not_or, not_not, not_not] at hlong
      obtain ⟨hone, rfl⟩ := hlong
      obtain ⟨c, rfl⟩ := List.length_eq_one_iff.mp hone
      have heq : nameText [.literal [c]] = [c] := by simp [nameText, joined, Segment.text]
      rw [heq] at htext
      subst htext
      exact ⟨_, init_lastByte hash c (hs.2 c List.mem_cons_self).1 (by simpa using hlen), rfl⟩
  | param p => exact ⟨_, init_param_text hash hs hrest htext hlen, rfl⟩
  | catchAll p =>
    have hnil : rest = [] := by
      by_contra hne
      exact hsingle hne
    subst hnil
    have heq : nameText [.catchAll p] = (Segment.catchAll p).text := by simp [nameText, joined]
    rw [heq] at htext
    subst htext
    obtain ⟨len, hinit⟩ := init_catchAll hash hs hlen
    exact ⟨_, hinit, rfl⟩
  | optionalCatchAll p =>
    have hnil : rest = [] := by
      by_contra hne
      exact hsingle hne
    subst hnil
    have heq : nameText [.optionalCatchAll p] = (Segment.optionalCatchAll p).text := by
      simp [nameText, joined]
    rw [heq] at htext
    subst htext
    obtain ⟨len, hinit⟩ := init_optionalCatchAll hash hs hlen
    exact ⟨_, hinit, rfl⟩

theorem matchLoop_catchAll (hp : (Segment.catchAll p).Valid)
    (htext : text = before ++ nameText [.catchAll p]) (hlen : text.length < 65536)
    (hxs : ∀ x ∈ xs, IsPart x) :
    matchLoop hash true text text (turns + 1) before.length (joined xs) params =
      if xs = [] then .answer false params
      else .answer true (params ++ [⟨p, joined xs⟩]) := by
  have hpos := length_lt_text hp htext
  have heq : nameText [.catchAll p] = (Segment.catchAll p).text := by simp [nameText, joined]
  rw [heq] at htext
  subst htext
  obtain ⟨len, hinit⟩ := init_catchAll hash hp hlen
  have hstr : TinyPtr.str ⟨before.length + 4, p.length⟩ (before ++ (Segment.catchAll p).text) = p :=
    str_param [closeBracket] hp.1 ⟨[openBracket, dot, dot, dot], rfl, rfl⟩
  rw [matchLoop, if_pos hpos, hinit]
  simp only [hstr, ne_eq, joined_eq_nil hxs]
  by_cases h : xs = []
  · simp [h]
  · simp [h]

theorem matchLoop_optionalCatchAll (hp : (Segment.optionalCatchAll p).Valid)
    (htext : text = before ++ nameText [.optionalCatchAll p]) (hlen : text.length < 65536)
    (hxs : ∀ x ∈ xs, IsPart x) :
    matchLoop hash true text text (turns + 1) before.length (joined xs) params =
      .answer true (if xs = [] then params else params ++ [⟨p, joined xs⟩]) := by
  have hpos := length_lt_text hp htext
  have heq : nameText [.optionalCatchAll p] = (Segment.optionalCatchAll p).text := by
    simp [nameText, joined]
  rw [heq] at htext
  subst htext
  obtain ⟨len, hinit⟩ := init_optionalCatchAll hash hp hlen
  have hstr : TinyPtr.str ⟨before.length + 5, p.length⟩
      (before ++ (Segment.optionalCatchAll p).text) = p :=
    str_param [closeBracket, closeBracket] hp.1
      ⟨[openBracket, openBracket, dot, dot, dot], rfl, rfl⟩
  rw [matchLoop, if_pos hpos, hinit]
  simp only [hstr, ne_eq, joined_eq_nil hxs, if_true]
  by_cases h : xs = []
  · simp [h]
  · simp [h]

end Turn

/-! ## The loop -/

section Loop
variable (hash : List UInt8 → UInt32) {text : List UInt8}

/-- An offset in a name, by what is before it and the segments after. -/
structure At (text before : List UInt8) (rest : List Segment) : Prop where
  valid : ∀ s ∈ rest, s.Valid
  single : ∀ s ∈ rest.dropLast, s.Single
  text_eq : text = before ++ nameText rest
  short : text.length < 65536

namespace At
variable {before : List UInt8} {s : Segment} {rest : List Segment}

theorem next (h : At text before (s :: rest)) (hne : rest ≠ []) :
    At text (before ++ s.text ++ [slash]) rest where
  valid := fun r hr => h.valid r (List.mem_cons_of_mem _ hr)
  single := fun r hr => h.single r (by
    rw [List.dropLast_cons_of_ne_nil hne]
    exact List.mem_cons_of_mem _ hr)
  text_eq := h.text_eq.trans (nameText_next hne)
  short := h.short

theorem head (h : At text before (s :: rest)) : s.Valid := h.valid s List.mem_cons_self

theorem tail (h : At text before (s :: rest)) : ∀ r ∈ rest, r.Valid :=
  fun r hr => h.valid r (List.mem_cons_of_mem _ hr)

theorem head_single (h : At text before (s :: rest)) (hne : rest ≠ []) : s.Single :=
  h.single s (by
    rw [List.dropLast_cons_of_ne_nil hne]
    exact List.mem_cons_self)

theorem eq_nil_of_not_single (h : At text before (s :: rest)) (hs : ¬ s.Single) : rest = [] := by
  by_contra hne
  exact hs (h.head_single hne)

theorem init (h : At text before (s :: rest)) :
    ∃ token, Pattern.init hash text before.length = some (.ok token) ∧
      token.value.isOptionalCatchAll = startsOptional (s :: rest) :=
  init_text hash h.head h.tail h.head_single h.text_eq h.short

end At

/-- A name of which at most one byte is left. -/
theorem isEnd_iff {rest : List Segment} (h : ∀ s ∈ rest, s.Valid) :
    IsEnd rest ↔ rest = [] ∨ ∃ c, rest = [.literal [c]] := by
  constructor
  · intro hend
    cases rest with
    | nil => exact .inl rfl
    | cons s rest =>
      have hs := h s List.mem_cons_self
      have hpos := List.length_pos_iff.mpr (text_ne_nil hs)
      rw [IsEnd, nameText_cons, List.length_append] at hend
      have hnil : rest = [] := by
        by_contra hne
        obtain ⟨r, rs, rfl⟩ := List.exists_cons_of_ne_nil hne
        rw [List.map_cons, after_cons, List.length_cons] at hend
        omega
      subst hnil
      cases s with
      | literal l =>
        rw [Segment.text] at hpos hend
        obtain ⟨c, rfl⟩ := List.length_eq_one_iff.mp (by omega : l.length = 1)
        exact .inr ⟨c, rfl⟩
      | param p =>
        simp only [Segment.text, List.length_cons, List.length_append] at hend
        omega
      | catchAll p =>
        simp only [Segment.text, List.length_cons, List.length_append] at hend
        omega
      | optionalCatchAll p =>
        simp only [Segment.text, List.length_cons, List.length_append] at hend
        omega
  · rintro (rfl | ⟨c, rfl⟩)
    · exact Nat.zero_le _
    · simp [IsEnd, nameText, joined, Segment.text]

/-- **The loop goes as `walk` says**, when its offset does not wrap and the path has
not ended before a last literal of one byte. -/
theorem matchLoop_eq_walk {rest : List Segment} {before : List UInt8} (h : At text before rest)
    (hwraps : text.length = 65535 → ∀ p, rest.getLast? ≠ some (.param p)) :
    ∀ {turns : Nat} {xs : List (List UInt8)} {params : List Param}, xs.length < turns →
      (∀ x ∈ xs, IsPart x) → (∀ c, rest = [.literal [c]] → xs ≠ []) →
      matchLoop hash true text text turns before.length (joined xs) params =
        .answer (walk rest xs params).1 (walk rest xs params).2 := by
  induction rest generalizing before with
  | nil =>
    intro turns xs params hturns _ _
    obtain ⟨turns, rfl⟩ := Nat.exists_eq_succ_of_ne_zero (Nat.ne_of_gt (Nat.zero_lt_of_lt hturns))
    have htext : text.length = before.length := by simp [h.text_eq, nameText, joined]
    rw [matchLoop, if_neg (by omega), walk]
  | cons s rest ih =>
    intro turns xs params hturns hxs hbyte
    obtain ⟨turns, rfl⟩ := Nat.exists_eq_succ_of_ne_zero (Nat.ne_of_gt (Nat.zero_lt_of_lt hturns))
    have hend := isEnd_iff h.tail
    have hlast (hne : rest ≠ []) : text.length = 65535 → ∀ p, rest.getLast? ≠ some (.param p) := by
      rw [List.getLast?_cons_of_ne_nil hne] at hwraps
      exact hwraps
    cases s with
    | literal l =>
      by_cases hlong : l.length ≠ 1 ∨ rest ≠ []
      · have hshort : ¬ (l.length = 1 ∧ rest = []) := by
          rw [not_and_or]
          exact hlong
        have htail : ∀ x ∈ xs.tail, IsPart x := fun x hx => hxs x (List.mem_of_mem_tail hx)
        rw [matchLoop_literal hash h.head h.tail h.text_eq h.short hlong hxs, walk]
        by_cases hl : l ≠ xs.headD []
        · rw [if_pos hl, if_pos (.inr hl)]
        · have hl' : ¬ (l.length = 1 ∧ rest = [] ∨ l ≠ xs.headD []) := not_or.mpr ⟨hshort, hl⟩
          rw [if_neg hl, if_neg hl']
          by_cases hdone : xs.tail = [] ∧ IsEnd rest
          · rw [if_pos hdone, if_pos hdone]
          · rw [if_neg hdone, if_neg hdone]
            have hne : xs ≠ [] := by
              rintro rfl
              exact hl h.head.1
            have hturns' : xs.tail.length < turns := by
              have hpos := List.length_pos_iff.mpr hne
              rw [List.length_tail]
              omega
            by_cases hrest : rest = []
            · subst hrest
              obtain ⟨turns, rfl⟩ :=
                Nat.exists_eq_succ_of_ne_zero (Nat.ne_of_gt (Nat.zero_lt_of_lt hturns'))
              have htext : text.length = (before ++ l).length := by
                simp [h.text_eq, nameText, joined, Segment.text]
              rw [afterLiteral, if_pos rfl, matchLoop, if_neg (by omega), walk]
            · rw [afterLiteral, if_neg hrest]
              exact ih (h.next hrest) (hlast hrest) hturns' htail fun c hc hnil =>
                hdone ⟨hnil, hend.mpr (.inr ⟨c, hc⟩)⟩
      · rw [not_or, not_not, not_not] at hlong
        obtain ⟨hone, rfl⟩ := hlong
        obtain ⟨c, rfl⟩ := List.length_eq_one_iff.mp hone
        have htext := h.text_eq
        rw [show nameText [.literal [c]] = [c] by simp [nameText, joined, Segment.text]] at htext
        rw [matchLoop_lastByte hash h.head htext h.short hxs (hbyte c rfl), walk,
          if_pos (.inl ⟨rfl, rfl⟩)]
    | param p =>
      have hwrap : ¬ Wraps text rest := by
        rintro ⟨rfl, hmax⟩
        exact hwraps hmax p rfl
      have hnext (hne : rest ≠ []) : afterParam before p (rest.map Segment.text) =
          (before ++ (Segment.param p).text ++ [slash]).length := by
        rw [afterParam_eq h.text_eq h.short hwrap, if_neg hne]
      have hne_of_not (hnot : ¬ IsEnd rest) : rest ≠ [] := fun hnil => hnot (hend.mpr (.inl hnil))
      by_cases hone : xs.tail = []
      · have hwalk : walk (.param p :: rest) xs params =
            if IsEnd rest ∨ startsOptional rest then (true, params ++ [⟨p, xs.headD []⟩])
            else (false, []) := by
          cases xs with
          | nil => rw [walk]; exact fun _ _ _ => by simp
          | cons x xs =>
            rw [List.tail_cons] at hone
            subst hone
            rw [walk]
            exact fun _ _ _ => by simp
        rw [matchLoop_param_one hash h.head h.tail h.text_eq h.short hxs hone, hwalk]
        by_cases hrest : IsEnd rest
        · rw [if_pos ⟨hrest, hwrap⟩, if_pos (.inl hrest)]
        · have hne := hne_of_not hrest
          obtain ⟨r, rs, rfl⟩ := List.exists_cons_of_ne_nil hne
          obtain ⟨token, hinit, hoptional⟩ := (h.next hne).init hash
          rw [if_neg fun h => hrest h.1, hnext hne, hinit]
          simp only [hoptional, hrest, false_or]
          split <;> rfl
      · obtain ⟨x, y, ys, rfl⟩ : ∃ x y ys, xs = x :: y :: ys := by
          rcases xs with _ | ⟨x, _ | ⟨y, ys⟩⟩
          · exact absurd rfl hone
          · exact absurd rfl hone
          · exact ⟨x, y, ys, rfl⟩
        rw [matchLoop_param_more hash h.head h.tail h.text_eq h.short hxs, walk]
        by_cases hrest : IsEnd rest
        · rw [if_pos ⟨hrest, hwrap⟩, if_pos hrest]
        · have hne := hne_of_not hrest
          rw [if_neg fun h => hrest h.1, if_neg hrest, hnext hne]
          refine ih (h.next hne) (hlast hne) ?_ (fun z hz => hxs z (List.mem_cons_of_mem _ hz))
            fun _ _ => List.cons_ne_nil _ _
          simp only [List.length_cons] at hturns ⊢
          omega
    | catchAll p =>
      obtain rfl := h.eq_nil_of_not_single id
      rw [matchLoop_catchAll hash h.head h.text_eq h.short hxs, walk]
      split <;> rfl
    | optionalCatchAll p =>
      obtain rfl := h.eq_nil_of_not_single id
      rw [matchLoop_optionalCatchAll hash h.head h.text_eq h.short hxs, walk]

/-- A name whose offset wraps matches no path: after its last `[p]` it is read again
from the start. -/
theorem matchLoop_of_wraps {segments : List Segment} (hall : At text [] segments)
    (hmax : text.length = 65535) {q : List UInt8} (hq : segments.getLast? = some (.param q)) :
    ∀ {turns : Nat} {rest : List Segment} {before : List UInt8} {xs : List (List UInt8)}
      {params : List Param}, At text before rest → rest.getLast? = some (.param q) →
      xs.length < turns → (∀ x ∈ xs, IsPart x) →
      matchLoop hash true text text turns before.length (joined xs) params = .answer false [] := by
  intro turns
  induction turns with
  | zero => exact fun _ _ hturns => absurd hturns (Nat.not_lt_zero _)
  | succ turns ih =>
    intro rest before xs params h hlast hturns hxs
    have hend {s : Segment} {rest : List Segment} (h : ∀ r ∈ rest, r.Valid)
        (hlast : (s :: rest).getLast? = some (.param q)) : IsEnd rest → rest = [] := by
      intro hend
      rcases (isEnd_iff h).mp hend with hnil | ⟨c, rfl⟩
      · exact hnil
      · simp at hlast
    cases rest with
    | nil => exact absurd hlast (by simp)
    | cons s rest =>
      have hrest : rest ≠ [] → rest.getLast? = some (.param q) := by
        intro hne
        rwa [List.getLast?_cons_of_ne_nil hne] at hlast
      cases s with
      | literal l =>
        have hne : rest ≠ [] := by
          rintro rfl
          simp at hlast
        rw [matchLoop_literal hash h.head h.tail h.text_eq h.short (.inr hne) hxs]
        by_cases hl : l ≠ xs.headD []
        · rw [if_pos hl]
        · have hxs0 : xs ≠ [] := by
            rintro rfl
            exact hl h.head.1
          have hpos := List.length_pos_iff.mpr hxs0
          rw [if_neg hl, if_neg fun hdone => hne (hend h.tail hlast hdone.2), afterLiteral,
            if_neg hne]
          refine ih (h.next hne) (hrest hne) ?_ fun x hx => hxs x (List.mem_of_mem_tail hx)
          rw [List.length_tail]
          omega
      | param p =>
        have hstart (hnil : rest = []) :
            afterParam before p (rest.map Segment.text) = ([] : List UInt8).length :=
          afterParam_of_wraps h.text_eq ⟨hnil, hmax⟩
        have hnext (hne : rest ≠ []) : afterParam before p (rest.map Segment.text) =
            (before ++ (Segment.param p).text ++ [slash]).length := by
          rw [afterParam_eq h.text_eq h.short fun hw => hne hw.1, if_neg hne]
        have hgoes : ¬ (IsEnd rest ∧ ¬ Wraps text rest) := fun hdone =>
          hdone.2 ⟨hend h.tail hlast hdone.1, hmax⟩
        by_cases hone : xs.tail = []
        · rw [matchLoop_param_one hash h.head h.tail h.text_eq h.short hxs hone, if_neg hgoes]
          have hno {before' : List UInt8} {rest' : List Segment} (h' : At text before' rest')
              (hlast' : rest'.getLast? = some (.param q)) :
              ∃ token, Pattern.init hash text before'.length = some (.ok token) ∧
                token.value.isOptionalCatchAll = false := by
            obtain ⟨r, rs, rfl⟩ := List.exists_cons_of_ne_nil
              (show rest' ≠ [] by rintro rfl; simp at hlast')
            obtain ⟨token, hinit, hoptional⟩ := h'.init hash
            refine ⟨token, hinit, ?_⟩
            rw [hoptional]
            cases r with
            | optionalCatchAll o =>
              obtain rfl := h'.eq_nil_of_not_single id
              simp at hlast'
            | literal l => rfl
            | param p => rfl
            | catchAll p => rfl
          by_cases hnil : rest = []
          · obtain ⟨token, hinit, hoptional⟩ := hno hall hq
            rw [hstart hnil, hinit]
            simp [hoptional]
          · obtain ⟨token, hinit, hoptional⟩ := hno (h.next hnil) (hrest hnil)
            rw [hnext hnil, hinit]
            simp [hoptional]
        · obtain ⟨x, y, ys, rfl⟩ : ∃ x y ys, xs = x :: y :: ys := by
            rcases xs with _ | ⟨x, _ | ⟨y, ys⟩⟩
            · exact absurd rfl hone
            · exact absurd rfl hone
            · exact ⟨x, y, ys, rfl⟩
          have hys : ∀ z ∈ y :: ys, IsPart z := fun z hz => hxs z (List.mem_cons_of_mem _ hz)
          have hlt : (y :: ys).length < turns := by
            simp only [List.length_cons] at hturns ⊢
            omega
          rw [matchLoop_param_more hash h.head h.tail h.text_eq h.short hxs, if_neg hgoes]
          by_cases hnil : rest = []
          · rw [hstart hnil]
            exact ih hall hq hlt hys
          · rw [hnext hnil]
            exact ih (h.next hnil) (hrest hnil) hlt hys
      | catchAll p =>
        obtain rfl := h.eq_nil_of_not_single id
        simp at hlast
      | optionalCatchAll p =>
        obtain rfl := h.eq_nil_of_not_single id
        simp at hlast

end Loop

end OhosBun.Router
