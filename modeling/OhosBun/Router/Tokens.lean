/-
# `OhosBun.Router.Tokens` — route names by their segments

A route name is a list of segments with slashes between: literals, `[p]`, and as the
last `[...p]` or `[[...p]]`.  Here is what a name means, `bind`, and what the tokeniser
gives at the start of each segment.

Two of its answers are odd.  A literal of one byte at the end of the name is taken for
the end: its token is empty.  And after a bracketed segment that ends at the last byte
of a name of 65535 the offset wraps to the start of the name.
-/
import OhosBun.Router.Pattern
import Mathlib.Data.List.TakeWhile

namespace OhosBun.Router

/-! ## Names and paths -/

inductive Segment where
  | literal (bytes : List UInt8)
  | param (name : List UInt8)
  | catchAll (name : List UInt8)
  | optionalCatchAll (name : List UInt8)
  deriving DecidableEq

namespace Segment

def text : Segment → List UInt8
  | literal l => l
  | param p => openBracket :: (p ++ [closeBracket])
  | catchAll p => openBracket :: dot :: dot :: dot :: (p ++ [closeBracket])
  | optionalCatchAll p =>
    openBracket :: openBracket :: dot :: dot :: dot :: (p ++ [closeBracket, closeBracket])

/-- A parameter's name does not end its brackets, nor does it start as those of another
kind of segment. -/
def Valid : Segment → Prop
  | literal l => l ≠ [] ∧ ∀ c ∈ l, c ≠ slash ∧ c ≠ openBracket ∧ c ≠ closeBracket
  | param p => p ≠ [] ∧ (∀ c ∈ p, c ≠ slash ∧ c ≠ closeBracket) ∧
      p.head? ≠ some openBracket ∧ p.head? ≠ some dot
  | catchAll p => p ≠ [] ∧ ∀ c ∈ p, c ≠ slash ∧ c ≠ closeBracket
  | optionalCatchAll p => p ≠ [] ∧ ∀ c ∈ p, c ≠ slash ∧ c ≠ closeBracket

/-- A test of all bytes of a name goes through the name, not through all bytes. -/
local instance {p : UInt8 → Prop} [DecidablePred p] (l : List UInt8) : Decidable (∀ c ∈ l, p c) :=
  List.decidableBAll p l

instance (s : Segment) : Decidable s.Valid := by
  cases s <;> exact inferInstanceAs (Decidable (_ ∧ _))

/-- The segment stands for one segment of a path. -/
def Single : Segment → Prop
  | literal _ => True
  | param _ => True
  | catchAll _ => False
  | optionalCatchAll _ => False

instance (s : Segment) : Decidable s.Single := by
  cases s <;> unfold Single <;> infer_instance

end Segment

/-- Segments with slashes between. -/
def joined : List (List UInt8) → List UInt8
  | [] => []
  | x :: xs => x ++ xs.flatMap (slash :: ·)

def nameText (segments : List Segment) : List UInt8 := joined (segments.map Segment.text)

structure RouteName where
  segments : List Segment
  ne_nil : segments ≠ []
  valid : ∀ s ∈ segments, s.Valid
  single : ∀ s ∈ segments.dropLast, s.Single
  short : (nameText segments).length < 65536

def RouteName.text (name : RouteName) : List UInt8 := nameText name.segments

/-- A segment of a path. -/
def IsPart (x : List UInt8) : Prop := x ≠ [] ∧ slash ∉ x

instance (x : List UInt8) : Decidable (IsPart x) := by
  unfold IsPart
  infer_instance

structure RoutePath where
  segments : List (List UInt8)
  ne_nil : segments ≠ []
  parts : ∀ x ∈ segments, IsPart x

def RoutePath.text (path : RoutePath) : List UInt8 := joined path.segments

/-- What the segments of a name bind on the segments of a path; `none` when they do not
match it. -/
def bind : List Segment → List (List UInt8) → Option (List Param)
  | [], [] => some []
  | [], _ :: _ => none
  | .literal l :: rest, x :: xs => if l = x then bind rest xs else none
  | .literal _ :: _, [] => none
  | .param p :: rest, x :: xs => (bind rest xs).map (⟨p, x⟩ :: ·)
  | .param _ :: _, [] => none
  | [.catchAll p], x :: xs => some [⟨p, joined (x :: xs)⟩]
  | .catchAll _ :: _, _ => none
  | [.optionalCatchAll _], [] => some []
  | [.optionalCatchAll p], x :: xs => some [⟨p, joined (x :: xs)⟩]
  | .optionalCatchAll _ :: _ :: _, _ => none

/-! ## Text -/

section Text

/-- What follows a segment. -/
def after (rest : List (List UInt8)) : List UInt8 := rest.flatMap (slash :: ·)

theorem joined_cons (x : List UInt8) (xs : List (List UInt8)) : joined (x :: xs) = x ++ after xs :=
  rfl

theorem after_cons (x : List UInt8) (xs : List (List UInt8)) :
    after (x :: xs) = slash :: joined (x :: xs) := rfl

variable {xs : List (List UInt8)} {x : List UInt8}

theorem joined_eq_nil (h : ∀ x ∈ xs, IsPart x) :
    joined xs = [] ↔ xs = [] := by
  cases xs with
  | nil => exact ⟨fun _ => rfl, fun _ => rfl⟩
  | cons x xs =>
    have hne := (h x List.mem_cons_self).1
    simp [joined_cons, hne]

theorem slice_append (a b c : List UInt8) :
    slice (a ++ (b ++ c)) a.length (a.length + b.length) = b := by
  rw [slice, List.drop_take, List.drop_left, Nat.add_sub_cancel_left, List.take_left]

theorem segmentOf_joined_cons (h : IsPart x) :
    segmentOf (joined (x :: xs)) = x := by
  have hx : ∀ c ∈ x, decide (c ≠ slash) = true := by
    intro c hc
    exact decide_eq_true fun he => h.2 (he ▸ hc)
  rw [segmentOf, joined_cons, List.takeWhile_append_of_pos hx]
  cases xs with
  | nil => simp [after]
  | cons y ys => rw [after_cons, List.takeWhile_cons_of_neg (by simp), List.append_nil]

theorem slash_mem_joined_cons (h : IsPart x) :
    slash ∈ joined (x :: xs) ↔ xs ≠ [] := by
  rw [joined_cons, List.mem_append]
  cases xs with
  | nil => simp [after, h.2]
  | cons y ys => simp [after_cons]

theorem drop_joined_cons (x y : List UInt8) (ys : List (List UInt8)) :
    (joined (x :: y :: ys)).drop (x.length + 1) = joined (y :: ys) := by
  rw [joined_cons, after_cons, List.drop_append]
  simp

end Text

/-! ## Tokens -/

section Tokens
variable (hash : List UInt8 → UInt32) {before : List UInt8} {rest : List (List UInt8)}

variable {s : Segment} {hashed atEnd : List UInt8 → HashedString} {input l tail q p : List UInt8}
  {offset last i : Nat} {param : TinyPtr}

theorem Segment.Valid.text_head (h : s.Valid) :
    ∃ c cs, s.text = c :: cs ∧ c ≠ slash := by
  cases s with
  | literal l =>
    obtain ⟨hne, hl⟩ := h
    obtain ⟨c, cs, rfl⟩ := List.exists_cons_of_ne_nil hne
    exact ⟨c, cs, rfl, (hl c List.mem_cons_self).1⟩
  | param p => exact ⟨_, _, rfl, by decide⟩
  | catchAll p => exact ⟨_, _, rfl, by decide⟩
  | optionalCatchAll p => exact ⟨_, _, rfl, by decide⟩

/-- At a segment the tokeniser skips nothing and goes on to scan, unless the offset is the
last byte. -/
theorem initMaybeHash_at (hs : s.Valid) (hlen : (before ++ (s.text ++ after rest)).length < 65536)
    (hlast : before.length + 1 < (before ++ (s.text ++ after rest)).length) :
    Pattern.init hash (before ++ (s.text ++ after rest)) before.length =
      some (scan (.init hash) (.init hash) (before ++ (s.text ++ after rest)) before.length
        ((before ++ (s.text ++ after rest)).length - 1) (s.text ++ after rest) before.length) := by
  obtain ⟨c, cs, htext, hc⟩ := hs.text_head
  have hskip : skipSlashes ((before ++ (s.text ++ after rest)).drop before.length)
      before.length = before.length := by
    rw [List.drop_left, htext, List.cons_append, skipSlashes, if_neg hc]
  have hne : before ++ (s.text ++ after rest) ≠ [] := by
    intro h0
    rw [h0] at hlast
    exact absurd hlast (by simp)
  rw [Pattern.init, initMaybeHash]
  simp only [hskip, if_true]
  rw [if_neg (by rw [not_or]; exact ⟨hne, by omega⟩), if_neg (by omega), if_neg (by omega),
    List.drop_left]

/-- A one-byte literal at the end of the name has an empty token. -/
theorem init_lastByte (c : UInt8) (hc : c ≠ slash) (hlen : before.length + 1 < 65536) :
    Pattern.init hash (before ++ [c]) before.length =
      some (.ok ⟨.static .EMPTY, before.length⟩) := by
  have hskip : skipSlashes ((before ++ [c]).drop before.length) before.length = before.length := by
    rw [List.drop_left, skipSlashes, if_neg hc]
  rw [Pattern.init, initMaybeHash]
  simp only [hskip, List.length_append, List.length_singleton]
  rw [if_neg (by simp), if_neg (by omega), if_pos (by omega)]

theorem scan_literal (hl : ∀ c ∈ l, c ≠ slash ∧ c ≠ openBracket ∧ c ≠ closeBracket) :
    ∀ i, i + l.length < 65536 →
      scan hashed atEnd input offset last (l ++ tail) i =
        scan hashed atEnd input offset last tail (i + l.length) := by
  induction l with
  | nil => exact fun i _ => rfl
  | cons c l ih =>
    intro i hi
    obtain ⟨hslash, hopen, -⟩ := hl c List.mem_cons_self
    rw [List.length_cons] at hi ⊢
    rw [List.cons_append, scan, if_neg hslash, if_neg hopen, add16_eq (by omega),
      ih (fun c hc => hl c (List.mem_cons_of_mem _ hc)) _ (by omega),
      Nat.add_assoc, Nat.add_comm 1]

theorem init_literal_last (hl : (Segment.literal l).Valid) (hlong : 1 < l.length)
    (hlen : (before ++ l).length < 65536) :
    Pattern.init hash (before ++ l) before.length =
      some (.ok ⟨.static (.init hash l), (before ++ l).length⟩) := by
  have htext : before ++ l = before ++ ((Segment.literal l).text ++ after []) := by
    simp [Segment.text, after]
  rw [List.length_append] at hlen
  rw [htext, initMaybeHash_at hash hl (by rw [← htext, List.length_append]; exact hlen)
    (by rw [← htext, List.length_append]; omega), ← htext, Segment.text,
    scan_literal hl.2 _ hlen]
  simp only [after, List.flatMap_nil, scan, List.length_append]
  rw [show before ++ l = before ++ (l ++ []) by rw [List.append_nil], slice_append]

theorem init_literal_next {y : List UInt8} {ys : List (List UInt8)} (hl : (Segment.literal l).Valid)
    (hy : y ≠ []) (hlen : (before ++ (l ++ after (y :: ys))).length < 65536) :
    Pattern.init hash (before ++ (l ++ after (y :: ys))) before.length =
      some (.ok ⟨.static (.init hash l), before.length + (l.length + 1)⟩) := by
  have hypos := List.length_pos_iff.mpr hy
  have hlpos := List.length_pos_iff.mpr hl.1
  have htotal : (before ++ (l ++ after (y :: ys))).length =
      before.length + (l.length + (1 + (y.length + (after ys).length))) := by
    simp [after_cons, joined_cons]
    omega
  have hat := initMaybeHash_at hash hl hlen
    (by rw [Segment.text, htotal]; omega)
  rw [Segment.text] at hat
  rw [hat, scan_literal hl.2 _ (by omega), after_cons, scan, if_pos rfl, ← after_cons,
    slice_append, htotal, add16_eq (by omega)]
  congr 4
  omega

theorem findClosing_append (hq : ∀ c ∈ q, c ≠ slash ∧ c ≠ closeBracket) :
    ∀ i, i + q.length < 65536 →
      findClosing (q ++ closeBracket :: tail) i = .ok (i + q.length) := by
  induction q with
  | nil => exact fun i _ => by rw [List.nil_append, findClosing, if_pos rfl]; rfl
  | cons c q ih =>
    intro i hi
    obtain ⟨hslash, hclose⟩ := hq c List.mem_cons_self
    rw [List.length_cons] at hi ⊢
    rw [List.cons_append, findClosing, if_neg hclose, if_neg hslash, add16_eq (by omega),
      ih (fun c hc => hq c (List.mem_cons_of_mem _ hc)) _ (by omega),
      Nat.add_assoc, Nat.add_comm 1]

theorem drop_before (k : Nat) (text : List UInt8) :
    (before ++ text).drop (before.length + k) = text.drop k := by
  rw [List.drop_append, List.drop_eq_nil_of_le (Nat.le_add_right _ _), List.nil_append,
    Nat.add_sub_cancel_left]

theorem getElem?_before (k : Nat) (text : List UInt8) :
    (before ++ text)[before.length + k]? = text[k]? := by
  rw [List.getElem?_append_right (Nat.le_add_right _ _), Nat.add_sub_cancel_left]

/-- The token of a bracketed segment, once its kind and its name are known. -/
theorem bracket_eq {start : Nat} {tag : Tag} (hopen : openTag input last (add16 i 1) = .ok (tag, start))
    (hdrop : input.drop (start + 1) = q ++ closeBracket :: tail)
    (hq : ∀ c ∈ q, c ≠ slash ∧ c ≠ closeBracket) (hlen : start + q.length + 1 < 65536)
    (hlast : start + 1 + q.length ≤ last) :
    bracket input last i =
      closeTag input last tag ⟨start, q.length + 1⟩ (add16 (start + 1 + q.length) 1) := by
  rw [bracket, hopen]
  simp only
  rw [add16_eq (a := start) (b := 1) (by omega), hdrop, findClosing_append hq _ (by omega)]
  simp only
  rw [if_neg (by omega), show start + 1 + q.length - start = q.length + 1 by omega]

theorem scan_bracket :
    scan hashed atEnd input offset last (openBracket :: tail) offset = bracket input last offset := by
  rw [scan, if_neg (by decide), if_pos rfl, if_neg (Nat.lt_irrefl _)]

/-- The offset after `[p]`: the start of the next segment, or the last byte of the name
unless the offset wraps. -/
def afterParam (before p : List UInt8) (rest : List (List UInt8)) : Nat :=
  if rest = [] then (if before.length + p.length + 3 < 65536 then before.length + p.length + 1 else 0)
  else before.length + (p.length + 3)

theorem init_param (hp : (Segment.param p).Valid) (hrest : ∀ x ∈ rest, x ≠ [])
    (hlen : (before ++ ((Segment.param p).text ++ after rest)).length < 65536) :
    Pattern.init hash (before ++ ((Segment.param p).text ++ after rest)) before.length =
      some (.ok ⟨.dynamic ⟨before.length + 1, p.length⟩, afterParam before p rest⟩) := by
  have hvalid := hp
  obtain ⟨hne, hchars, hopen, hdot⟩ := hp
  obtain ⟨c, q, rfl⟩ := List.exists_cons_of_ne_nil hne
  obtain ⟨hcslash, hcclose⟩ := hchars c List.mem_cons_self
  rw [List.head?_cons, ne_eq, Option.some.injEq] at hopen hdot
  have htotal : (before ++ ((Segment.param (c :: q)).text ++ after rest)).length =
      before.length + (q.length + 3 + (after rest).length) := by
    simp [Segment.text]
    omega
  rw [htotal] at hlen
  rw [initMaybeHash_at hash hvalid (by rw [htotal]; exact hlen) (by rw [htotal]; omega), htotal]
  have hopenTag : openTag (before ++ ((Segment.param (c :: q)).text ++ after rest))
      (before.length + (q.length + 3 + (after rest).length) - 1) (add16 before.length 1) =
        .ok (.dynamic, before.length + 1) := by
    rw [add16_eq (by omega), openTag, if_neg (by omega), getElem?_before]
    simp [Segment.text, hcslash, hcclose, hopen, hdot]
  have hdrop : (before ++ ((Segment.param (c :: q)).text ++ after rest)).drop
      (before.length + 1 + 1) = q ++ closeBracket :: after rest := by
    rw [Nat.add_assoc, drop_before]
    simp [Segment.text]
  change some (scan _ _ _ _ _ (openBracket :: (c :: q ++ [closeBracket] ++ after rest)) _) = _
  rw [scan_bracket, bracket_eq hopenTag hdrop (fun d hd => hchars d (List.mem_cons_of_mem _ hd))
    (by omega) (by omega), closeTag, if_neg (by simp)]
  simp only [reduceCtorEq, if_false, ne_eq, not_true_eq_false, false_and, Tag.value,
    List.length_cons, afterParam]
  congr 3
  split
  · next hnil =>
      rw [hnil, after, List.flatMap_nil, List.length_nil] at hlen ⊢
      rw [add16_eq (a := before.length + 1 + 1 + q.length) (by omega)]
      split
      · rw [add16_eq (by omega)]
        omega
      · rw [show add16 (before.length + 1 + 1 + q.length + 1) 1 = 0 by unfold add16; omega]
        exact Nat.zero_min _
  · next hcons =>
      obtain ⟨y, ys, rfl⟩ := List.exists_cons_of_ne_nil hcons
      have hy := List.length_pos_iff.mpr (hrest y List.mem_cons_self)
      have hafter : (after (y :: ys)).length = 1 + (y.length + (after ys).length) := by
        simp [after_cons, joined_cons]
        omega
      rw [hafter] at hlen ⊢
      rw [add16_eq (a := before.length + 1 + 1 + q.length) (by omega), add16_eq (by omega)]
      omega

theorem closeTag_catchAll (h : last < i) :
    closeTag input last .catchAll param i =
      .ok ⟨.catchAll param, min (add16 i 1) last⟩ := by
  simp [closeTag, Nat.not_le.mpr h, Tag.value]

theorem closeTag_optionalCatchAll (hclose : input[i]? = some closeBracket) (h : i = last)
    (hlen : i + 1 < 65536) :
    closeTag input last .optionalCatchAll param i =
      .ok ⟨.optionalCatchAll param, min (add16 (i + 1) 1) last⟩ := by
  subst h
  simp [closeTag, hclose, Tag.value, add16_eq hlen]

theorem init_catchAll (hp : (Segment.catchAll p).Valid)
    (hlen : (before ++ (Segment.catchAll p).text).length < 65536) :
    ∃ len, Pattern.init hash (before ++ (Segment.catchAll p).text) before.length =
      some (.ok ⟨.catchAll ⟨before.length + 4, p.length⟩, len⟩) := by
  have hvalid := hp
  obtain ⟨hne, hchars⟩ := hp
  obtain ⟨c, q, rfl⟩ := List.exists_cons_of_ne_nil hne
  have htotal : (before ++ (Segment.catchAll (c :: q)).text).length =
      before.length + (q.length + 6) := by
    simp [Segment.text]
  rw [htotal] at hlen
  have hnil : (Segment.catchAll (c :: q)).text = (Segment.catchAll (c :: q)).text ++ after [] := by
    rw [after, List.flatMap_nil, List.append_nil]
  rw [hnil, initMaybeHash_at hash hvalid (by rw [← hnil, htotal]; exact hlen)
    (by rw [← hnil, htotal]; omega), ← hnil, htotal]
  have hopenTag : openTag (before ++ (Segment.catchAll (c :: q)).text)
      (before.length + (q.length + 6) - 1) (add16 before.length 1) =
        .ok (.catchAll, before.length + 4) := by
    rw [add16_eq (by omega), openTag, if_neg (by omega), getElem?_before,
      add16_eq (a := before.length + 1) (b := 4) (by omega),
      add16_eq (a := before.length + 1) (b := 1) (by omega),
      add16_eq (a := before.length + 1 + 1) (b := 2) (by omega),
      Nat.add_assoc before.length 1 1, drop_before]
    simp [Segment.text, dot, slash, closeBracket, openBracket]
    omega
  have hdrop : (before ++ (Segment.catchAll (c :: q)).text).drop
      (before.length + 4 + 1) = q ++ closeBracket :: [] := by
    rw [Nat.add_assoc, drop_before]
    simp [Segment.text]
  change ∃ len, some (scan _ _ _ _ _ (openBracket :: _) _) = _
  rw [scan_bracket, bracket_eq hopenTag hdrop (fun d hd => hchars d (List.mem_cons_of_mem _ hd))
    (by omega) (by omega), add16_eq (a := before.length + 4 + 1 + q.length) (by omega)]
  exact ⟨_, congrArg some (closeTag_catchAll (by omega))⟩

theorem init_optionalCatchAll (hp : (Segment.optionalCatchAll p).Valid)
    (hlen : (before ++ (Segment.optionalCatchAll p).text).length < 65536) :
    ∃ len, Pattern.init hash (before ++ (Segment.optionalCatchAll p).text) before.length =
      some (.ok ⟨.optionalCatchAll ⟨before.length + 5, p.length⟩, len⟩) := by
  have hvalid := hp
  obtain ⟨hne, hchars⟩ := hp
  obtain ⟨c, q, rfl⟩ := List.exists_cons_of_ne_nil hne
  have htotal : (before ++ (Segment.optionalCatchAll (c :: q)).text).length =
      before.length + (q.length + 8) := by
    simp [Segment.text]
  rw [htotal] at hlen
  have hnil : (Segment.optionalCatchAll (c :: q)).text =
      (Segment.optionalCatchAll (c :: q)).text ++ after [] := by
    rw [after, List.flatMap_nil, List.append_nil]
  rw [hnil, initMaybeHash_at hash hvalid (by rw [← hnil, htotal]; exact hlen)
    (by rw [← hnil, htotal]; omega), ← hnil, htotal]
  have hopenTag : openTag (before ++ (Segment.optionalCatchAll (c :: q)).text)
      (before.length + (q.length + 8) - 1) (add16 before.length 1) =
        .ok (.optionalCatchAll, before.length + 5) := by
    rw [add16_eq (by omega), openTag, if_neg (by omega), getElem?_before,
      add16_eq (a := before.length + 1) (b := 4) (by omega),
      add16_eq (a := before.length + 1) (b := 1) (by omega),
      add16_eq (a := before.length + 1 + 1) (b := 3) (by omega),
      Nat.add_assoc before.length 1 1, drop_before]
    simp [Segment.text, dot, slash, closeBracket, openBracket]
    omega
  have hdrop : (before ++ (Segment.optionalCatchAll (c :: q)).text).drop
      (before.length + 5 + 1) = q ++ closeBracket :: [closeBracket] := by
    rw [Nat.add_assoc, drop_before]
    simp [Segment.text]
  have hsecond : (before ++ (Segment.optionalCatchAll (c :: q)).text)[
      before.length + 5 + 1 + q.length + 1]? = some closeBracket := by
    rw [show before.length + 5 + 1 + q.length + 1 = before.length + (q.length + 7) by omega,
      getElem?_before]
    simp [Segment.text]
  change ∃ len, some (scan _ _ _ _ _ (openBracket :: _) _) = _
  rw [scan_bracket, bracket_eq hopenTag hdrop (fun d hd => hchars d (List.mem_cons_of_mem _ hd))
    (by omega) (by omega), add16_eq (a := before.length + 5 + 1 + q.length) (by omega)]
  exact ⟨_, congrArg some (closeTag_optionalCatchAll hsecond (by omega) (by omega))⟩

/-- The name of a parameter is read back from the name of the route. -/
theorem str_param (tail : List UInt8) (hp : p ≠ []) {k : Nat} {text : List UInt8}
    (htext : ∃ o, text = o ++ (p ++ tail) ∧ o.length = k) :
    TinyPtr.str ⟨before.length + k, p.length⟩ (before ++ text) = p := by
  obtain ⟨o, rfl, rfl⟩ := htext
  have hpos := List.length_pos_iff.mpr hp
  have hslice := slice_append (before ++ o) p tail
  rw [List.length_append, List.append_assoc] at hslice
  rw [TinyPtr.str, if_pos hpos]
  exact hslice

end Tokens

end OhosBun.Router
