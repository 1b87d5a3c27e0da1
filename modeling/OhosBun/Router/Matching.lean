/-
# `OhosBun.Router.Matching` — which routes match segment by segment

A route should match a path when their segments do, bind each parameter to its
segments, and leave no parameter behind when it does not match: the list of parameters
is handed to the next route that is tried.

The loop does this unless it comes to one of the places of `Wrong`.  A literal of one
byte at the end of the name is never seen.  A path that ends after a literal is still
given to `[p]`, which is then bound to the empty text.  And two ways out of the loop
leave the parameters that have been bound.
-/
import OhosBun.Router.Walk

namespace OhosBun.Router

/-! ## Where the loop goes wrong -/

def EndsLiteral (front : List Segment) : Prop := ∃ l, front.getLast? = some (.literal l)

/-- The loop goes wrong after the segments `front`, which bound `bound`: with this much
of the name and of the path left. -/
inductive Wrong (front : List Segment) (bound : List Param) :
    List Segment → List (List UInt8) → Prop
  /-- A last literal of one byte is not seen where it is, … -/
  | lastByte (c : UInt8) : Wrong front bound [.literal [c]] [[c]]
  /-- … and taken to be there where the path has ended. -/
  | beforeLastByte (c : UInt8) : Wrong front bound [.literal [c]] []
  /-- The path goes on after the name: the parameters stay. -/
  | pathLeft (l x : List UInt8) (xs : List (List UInt8)) : 1 < l.length → bound ≠ [] →
      Wrong front bound [.literal l] (l :: x :: xs)
  /-- Nothing is left for `[...p]`: the parameters stay. -/
  | nothingLeft (p : List UInt8) : EndsLiteral front → bound ≠ [] →
      Wrong front bound [.catchAll p] []
  /-- Nothing is left for `[p]`, which takes it. -/
  | emptyLast (p : List UInt8) : EndsLiteral front → Wrong front bound [.param p] []
  | emptyBeforeOptional (p q : List UInt8) : EndsLiteral front →
      Wrong front bound [.param p, .optionalCatchAll q] []
  | emptyBeforeLastByte (p : List UInt8) (c : UInt8) : EndsLiteral front →
      Wrong front bound [.param p, .literal [c]] []

/-- The loop goes wrong on the way: some first segments of the name match the first
segments of the path, and what is left of both is `Wrong`. -/
def Slips (front : List Segment) (bound : List Param) (rest : List Segment)
    (ys : List (List UInt8)) : Prop :=
  ∃ f r xs zs b, rest = f ++ r ∧ ys = xs ++ zs ∧ bind f xs = some b ∧
    Wrong (front ++ f) (bound ++ b) r zs

section Steps
variable {front rest : List Segment} {bound : List Param} {ys : List (List UInt8)}
  {l p : List UInt8}

theorem Slips.here (h : Wrong front bound rest ys) : Slips front bound rest ys :=
  ⟨[], rest, [], ys, [], rfl, rfl, by rw [bind], by rwa [List.append_nil, List.append_nil]⟩

theorem slips_literal : Slips front bound (.literal l :: rest) ys ↔
    Wrong front bound (.literal l :: rest) ys ∨
      ∃ zs, ys = l :: zs ∧ Slips (front ++ [.literal l]) bound rest zs := by
  constructor
  · rintro ⟨f, r, xs, zs, b, hrest, rfl, hb, hwrong⟩
    cases f with
    | nil =>
      cases xs with
      | nil =>
        rw [bind, Option.some.injEq] at hb
        subst hb
        rw [List.nil_append] at hrest
        subst hrest
        rw [List.append_nil, List.append_nil] at hwrong
        exact .inl hwrong
      | cons x xs => exact absurd hb (by simp [bind])
    | cons s f =>
      obtain ⟨rfl, rfl⟩ := List.cons.inj hrest
      cases xs with
      | nil => exact absurd hb (by simp [bind])
      | cons x xs =>
        rw [bind] at hb
        split at hb
        · next hl =>
            subst hl
            exact .inr ⟨xs ++ zs, rfl, f, r, xs, zs, b, rfl, rfl, hb, by
              rwa [List.append_assoc]⟩
        · exact absurd hb (by simp)
  · rintro (hwrong | ⟨zs, rfl, f, r, xs, zs, b, rfl, rfl, hb, hwrong⟩)
    · exact .here hwrong
    · refine ⟨.literal l :: f, r, l :: xs, zs, b, rfl, rfl, ?_, ?_⟩
      · rw [bind, if_pos rfl, hb]
      · rwa [List.append_assoc] at hwrong

theorem slips_param : Slips front bound (.param p :: rest) ys ↔
    Wrong front bound (.param p :: rest) ys ∨
      ∃ x zs, ys = x :: zs ∧ Slips (front ++ [.param p]) (bound ++ [⟨p, x⟩]) rest zs := by
  constructor
  · rintro ⟨f, r, xs, zs, b, hrest, rfl, hb, hwrong⟩
    cases f with
    | nil =>
      cases xs with
      | nil =>
        rw [bind, Option.some.injEq] at hb
        subst hb
        rw [List.nil_append] at hrest
        subst hrest
        rw [List.append_nil, List.append_nil] at hwrong
        exact .inl hwrong
      | cons x xs => exact absurd hb (by simp [bind])
    | cons s f =>
      obtain ⟨rfl, rfl⟩ := List.cons.inj hrest
      cases xs with
      | nil => exact absurd hb (by simp [bind])
      | cons x xs =>
        rw [bind, Option.map_eq_some_iff] at hb
        obtain ⟨b, hb, rfl⟩ := hb
        exact .inr ⟨x, xs ++ zs, rfl, f, r, xs, zs, b, rfl, rfl, hb, by
          rwa [List.append_assoc, List.append_assoc]⟩
  · rintro (hwrong | ⟨x, zs, rfl, f, r, xs, zs, b, rfl, rfl, hb, hwrong⟩)
    · exact .here hwrong
    · refine ⟨.param p :: f, r, x :: xs, zs, ⟨p, x⟩ :: b, rfl, rfl, ?_, ?_⟩
      · rw [bind, hb, Option.map_some]
      · rwa [List.append_assoc, List.append_assoc] at hwrong

/-- At the end of the name nothing goes wrong. -/
theorem not_slips_nil : ¬ Slips front bound [] ys := by
  rintro ⟨f, r, xs, zs, b, hrest, -, -, hwrong⟩
  obtain ⟨-, rfl⟩ := List.append_eq_nil_iff.mp hrest.symm
  cases hwrong

/-- At the last segment. -/
theorem slips_last {s : Segment} : Slips front bound [s] ys ↔ Wrong front bound [s] ys := by
  refine ⟨?_, .here⟩
  rintro ⟨f, r, xs, zs, b, hrest, rfl, hb, hwrong⟩
  cases f with
  | nil =>
    cases xs with
    | nil =>
      rw [bind, Option.some.injEq] at hb
      subst hb
      rw [List.nil_append] at hrest
      subst hrest
      rw [List.append_nil, List.append_nil] at hwrong
      exact hwrong
    | cons x xs => exact absurd hb (by simp [bind])
  | cons t f =>
    obtain ⟨-, hnil⟩ := List.cons.inj hrest
    obtain ⟨-, rfl⟩ := List.append_eq_nil_iff.mp hnil.symm
    cases hwrong

/-- Where the path has ended. -/
theorem wrong_of_slips_nil (hsingle : ∀ s ∈ rest.dropLast, s.Single)
    (h : Slips front bound rest []) : Wrong front bound rest [] := by
  obtain ⟨f, r, xs, zs, b, rfl, hnil, hb, hwrong⟩ := h
  obtain ⟨rfl, rfl⟩ := List.append_eq_nil_iff.mp hnil.symm
  cases f with
  | nil =>
    rw [bind, Option.some.injEq] at hb
    subst hb
    rw [List.append_nil, List.append_nil] at hwrong
    exact hwrong
  | cons s f =>
    have hr : r ≠ [] := by
      rintro rfl
      cases hwrong
    cases s with
    | literal l => exact absurd hb (by simp [bind])
    | param p => exact absurd hb (by simp [bind])
    | catchAll p => cases f <;> exact absurd hb (by simp [bind])
    | optionalCatchAll p =>
      refine absurd (hsingle (.optionalCatchAll p) ?_) id
      rw [List.cons_append, List.dropLast_cons_of_ne_nil (by simp [hr])]
      exact List.mem_cons_self

end Steps

/-! ## The loop against the segments -/

/-- What the match should give, with `params` bound before. -/
def answer (bound : Option (List Param)) (params : List Param) : Bool × List Param :=
  match bound with
  | some more => (true, params ++ more)
  | none => (false, [])

theorem answer_map (bound : Option (List Param)) (params : List Param) (a : Param) :
    answer (bound.map (a :: ·)) params = answer bound (params ++ [a]) := by
  cases bound with
  | none => rfl
  | some more => simp [answer]

/-- A state the loop can be in before a segment. -/
structure Reached (front rest : List Segment) (ys : List (List UInt8)) : Prop where
  valid : ∀ s ∈ rest, s.Valid
  single : ∀ s ∈ rest.dropLast, s.Single
  ne_nil : rest ≠ []
  /-- The path ends after a literal only, not before the last byte of the name. -/
  ended : ys = [] → EndsLiteral front ∧ ∀ c, rest ≠ [.literal [c]]

variable {front rest : List Segment} {ys : List (List UInt8)} {s : Segment}

theorem Reached.tail {zs : List (List UInt8)} (h : Reached front (s :: rest) ys) (hne : rest ≠ [])
    (hended : zs = [] → EndsLiteral (front ++ [s]) ∧ ∀ c, rest ≠ [.literal [c]]) :
    Reached (front ++ [s]) rest zs where
  valid := fun r hr => h.valid r (List.mem_cons_of_mem _ hr)
  single := fun r hr => h.single r (by
    rw [List.dropLast_cons_of_ne_nil hne]
    exact List.mem_cons_of_mem _ hr)
  ne_nil := hne
  ended := hended

theorem Reached.eq_nil (h : Reached front (s :: rest) ys) (hs : ¬ s.Single) : rest = [] := by
  by_contra hne
  exact hs (h.single s (by
    rw [List.dropLast_cons_of_ne_nil hne]
    exact List.mem_cons_self))

theorem not_endsLiteral_param {p : List UInt8} :
    ¬ EndsLiteral (front ++ [.param p]) := by
  rintro ⟨l, hl⟩
  simp at hl

section Walk
variable {front rest : List Segment} {ys : List (List UInt8)} {bound : List Param}

/-- A literal at the end of the name. -/
theorem walk_last_literal_iff {l : List UInt8} (h : Reached front [.literal l] ys) :
    walk [.literal l] ys bound = answer (bind [.literal l] ys) bound ↔
      ¬ Slips front bound [.literal l] ys := by
  have hl := h.valid _ List.mem_cons_self
  rw [slips_last, walk]
  cases ys with
  | nil =>
    refine iff_of_true ?_ ?_
    · rw [if_pos (.inr hl.1), bind, answer]
    · intro hwrong
      cases hwrong with
      | beforeLastByte c => exact (h.ended rfl).2 c rfl
  | cons x zs =>
    rw [List.headD_cons, List.tail_cons, bind]
    by_cases hx : l = x
    · subst hx
      rw [if_pos rfl]
      cases zs with
      | nil =>
        rw [bind]
        by_cases hone : l.length = 1
        · obtain ⟨c, rfl⟩ := List.length_eq_one_iff.mp hone
          rw [if_pos (.inl ⟨hone, rfl⟩)]
          exact iff_of_false (by simp [answer]) fun hnot => hnot (.lastByte c)
        · rw [if_neg (by simp [hone]), if_pos ⟨rfl, by simp [IsEnd, nameText, joined]⟩]
          refine iff_of_true (by simp [answer]) fun hwrong => ?_
          cases hwrong with
          | lastByte c => exact hone rfl
      | cons z zs =>
        rw [bind, answer]
        by_cases hone : l.length = 1
        · rw [if_pos (.inl ⟨hone, rfl⟩)]
          refine iff_of_true rfl fun hwrong => ?_
          cases hwrong with
          | pathLeft _ _ _ hlong => omega
        · have hpos := List.length_pos_iff.mpr hl.1
          rw [if_neg (by simp [hone]), if_neg (by simp), walk, Prod.mk.injEq]
          constructor
          · rintro ⟨-, hbound⟩ hwrong
            cases hwrong with
            | pathLeft _ _ _ _ hne => exact hne hbound
          · intro hnot
            refine ⟨rfl, ?_⟩
            by_contra hne
            exact hnot (.pathLeft l z zs (by omega) hne)
    · rw [if_pos (.inr hx), if_neg hx, answer]
      refine iff_of_true rfl fun hwrong => ?_
      cases hwrong with
      | lastByte c => exact hx rfl
      | pathLeft _ _ _ => exact hx rfl

/-- A literal with more of the name after it. -/
theorem walk_literal_iff {l : List UInt8} (h : Reached front (.literal l :: rest) ys)
    (hne : rest ≠ [])
    (ih : ∀ {zs}, Reached (front ++ [.literal l]) rest zs → (walk rest zs bound =
      answer (bind rest zs) bound ↔ ¬ Slips (front ++ [.literal l]) bound rest zs)) :
    walk (.literal l :: rest) ys bound = answer (bind (.literal l :: rest) ys) bound ↔
      ¬ Slips front bound (.literal l :: rest) ys := by
  have hl := h.valid _ List.mem_cons_self
  have hend := isEnd_iff fun r hr => h.valid r (List.mem_cons_of_mem _ hr)
  have hhere : ¬ Wrong front bound (.literal l :: rest) ys := by
    intro hwrong
    cases hwrong <;> exact hne rfl
  rw [slips_literal, walk]
  simp only [hhere, hne, and_false, false_or]
  cases ys with
  | nil =>
    rw [List.headD_nil, if_pos hl.1, bind, answer]
    exact iff_of_true rfl (by simp)
  | cons x zs =>
    rw [List.headD_cons, List.tail_cons, bind]
    by_cases hx : l = x
    · subst hx
      rw [if_neg (not_not.mpr rfl), if_pos rfl]
      have hexists : (∃ zs', l :: zs = l :: zs' ∧
          Slips (front ++ [.literal l]) bound rest zs') ↔
          Slips (front ++ [.literal l]) bound rest zs := by simp
      rw [hexists]
      by_cases hdone : zs = [] ∧ IsEnd rest
      · obtain ⟨c, rfl⟩ := (hend.mp hdone.2).resolve_left hne
        rw [if_pos hdone, hdone.1, bind, answer]
        exact iff_of_false (by simp) fun hnot => hnot (.here (.beforeLastByte c))
      · rw [if_neg hdone]
        refine ih (h.tail hne fun hnil => ⟨⟨l, by simp⟩, fun c hc => ?_⟩)
        exact hdone ⟨hnil, hend.mpr (.inr ⟨c, hc⟩)⟩
    · rw [if_pos hx, if_neg hx, answer]
      refine iff_of_true rfl ?_
      rintro ⟨zs', hys, -⟩
      exact hx (List.cons.inj hys).1.symm

/-- A parameter. -/
theorem walk_param_iff {p : List UInt8} (h : Reached front (.param p :: rest) ys)
    (ih : rest ≠ [] → ∀ {zs x}, Reached (front ++ [.param p]) rest zs →
      (walk rest zs (bound ++ [⟨p, x⟩]) = answer (bind rest zs) (bound ++ [⟨p, x⟩]) ↔
        ¬ Slips (front ++ [.param p]) (bound ++ [⟨p, x⟩]) rest zs)) :
    walk (.param p :: rest) ys bound = answer (bind (.param p :: rest) ys) bound ↔
      ¬ Slips front bound (.param p :: rest) ys := by
  have hend := isEnd_iff fun r hr => h.valid r (List.mem_cons_of_mem _ hr)
  have hsingle : ∀ s ∈ rest.dropLast, s.Single := by
    intro s hs
    refine h.single s ?_
    rw [List.dropLast_cons_of_ne_nil (by rintro rfl; simp at hs)]
    exact List.mem_cons_of_mem _ hs
  have hoptional_last (hoptional : startsOptional rest) : ∃ q, rest = [.optionalCatchAll q] := by
    obtain ⟨q, r, rfl⟩ : ∃ q r, rest = .optionalCatchAll q :: r := by
      cases rest with
      | nil => exact absurd hoptional Bool.false_ne_true
      | cons s r =>
        cases s with
        | optionalCatchAll q => exact ⟨q, r, rfl⟩
        | literal l => exact absurd hoptional Bool.false_ne_true
        | param q => exact absurd hoptional Bool.false_ne_true
        | catchAll q => exact absurd hoptional Bool.false_ne_true
    refine ⟨q, ?_⟩
    by_cases hr : r = []
    · rw [hr]
    · refine absurd (hsingle (.optionalCatchAll q) ?_) id
      rw [List.dropLast_cons_of_ne_nil hr]
      exact List.mem_cons_self
  rw [slips_param]
  rcases ys with _ | ⟨x, _ | ⟨y, ys⟩⟩
  · have hliteral := (h.ended rfl).1
    simp only [List.nil_eq, reduceCtorEq, false_and, exists_false, or_false]
    rw [walk, bind, answer]
    · split
      · next htakes =>
          refine iff_of_false (by simp) fun hnot => hnot ?_
          rcases htakes with hdone | hoptional
          · rcases hend.mp hdone with rfl | ⟨c, rfl⟩
            · exact .emptyLast p hliteral
            · exact .emptyBeforeLastByte p c hliteral
          · obtain ⟨q, rfl⟩ := hoptional_last hoptional
            exact .emptyBeforeOptional p q hliteral
      · next hnot =>
          refine iff_of_true rfl fun hwrong => hnot ?_
          cases hwrong with
          | emptyLast => exact .inl (hend.mpr (.inl rfl))
          | emptyBeforeOptional => exact .inr rfl
          | emptyBeforeLastByte => exact .inl (hend.mpr (.inr ⟨_, rfl⟩))
    · exact fun _ _ _ => by simp
  · have hhere : ¬ Wrong front bound (.param p :: rest) [x] := by rintro ⟨⟩
    simp only [hhere, List.cons.injEq, false_or]
    rw [show (∃ x' zs, (x = x' ∧ [] = zs) ∧
        Slips (front ++ [.param p]) (bound ++ [⟨p, x'⟩]) rest zs) ↔
        Slips (front ++ [.param p]) (bound ++ [⟨p, x⟩]) rest [] by simp, walk, bind, answer_map]
    · split
      · next htakes =>
          rcases htakes with hdone | hoptional
          · rcases hend.mp hdone with rfl | ⟨c, rfl⟩
            · exact iff_of_true (by simp [bind, answer]) not_slips_nil
            · exact iff_of_false (by simp [bind, answer]) fun hnot => hnot (.here (.beforeLastByte c))
          · obtain ⟨q, rfl⟩ := hoptional_last hoptional
            rw [slips_last]
            exact iff_of_true (by simp [bind, answer]) (by rintro ⟨⟩)
      · next hnot =>
          obtain ⟨hgoes, hoptional⟩ := not_or.mp hnot
          have hne : rest ≠ [] := fun hnil => hgoes (hend.mpr (.inl hnil))
          have hnone : bind rest [] = none := by
            obtain ⟨s, r, rfl⟩ := List.exists_cons_of_ne_nil hne
            cases s with
            | optionalCatchAll q => exact absurd rfl hoptional
            | literal l => rw [bind]
            | param q => rw [bind]
            | catchAll q => cases r <;> simp [bind]
          rw [hnone, answer]
          refine iff_of_true rfl fun hslips => ?_
          have hwrong := wrong_of_slips_nil hsingle hslips
          cases hwrong with
          | beforeLastByte c => exact hgoes (hend.mpr (.inr ⟨c, rfl⟩))
          | nothingLeft q hends => exact not_endsLiteral_param hends
          | emptyLast q hends => exact not_endsLiteral_param hends
          | emptyBeforeOptional q o hends => exact not_endsLiteral_param hends
          | emptyBeforeLastByte q c hends => exact not_endsLiteral_param hends
    · exact fun _ _ _ => by simp
  · have hhere : ¬ Wrong front bound (.param p :: rest) (x :: y :: ys) := by rintro ⟨⟩
    simp only [hhere, List.cons.injEq, false_or]
    rw [show (∃ x' zs, (x = x' ∧ y :: ys = zs) ∧
        Slips (front ++ [.param p]) (bound ++ [⟨p, x'⟩]) rest zs) ↔
        Slips (front ++ [.param p]) (bound ++ [⟨p, x⟩]) rest (y :: ys) by simp, walk, bind,
      answer_map]
    split
    · next hdone =>
        rcases hend.mp hdone with rfl | ⟨c, rfl⟩
        · exact iff_of_true (by simp [bind, answer]) not_slips_nil
        · rw [slips_last, bind]
          by_cases hy : [c] = y ∧ ys = []
          · obtain ⟨rfl, rfl⟩ := hy
            exact iff_of_false (by simp [bind, answer]) fun hnot => hnot (.lastByte c)
          · have hnone : (if [c] = y then bind [] ys else none) = none := by
              split
              · next hc =>
                  cases ys with
                  | nil => exact absurd ⟨hc, rfl⟩ hy
                  | cons z zs => rw [bind]
              · rfl
            rw [hnone, answer]
            refine iff_of_true rfl fun hwrong => ?_
            cases hwrong with
            | lastByte => exact hy ⟨rfl, rfl⟩
            | pathLeft _ _ _ hlong => simp at hlong
    · next hgoes =>
        have hne : rest ≠ [] := fun hnil => hgoes (hend.mpr (.inl hnil))
        exact ih hne (h.tail hne (by simp))

/-- **The loop against the segments**: it gives the match and its parameters, or
neither, exactly when it does not come to a place where it goes wrong. -/
theorem walk_iff : ∀ {rest front ys bound}, Reached front rest ys →
    (walk rest ys bound = answer (bind rest ys) bound ↔ ¬ Slips front bound rest ys) := by
  intro rest
  induction rest with
  | nil => exact fun h => absurd rfl h.ne_nil
  | cons s rest ih =>
    intro front ys bound h
    cases s with
    | literal l =>
      by_cases hne : rest = []
      · subst hne
        exact walk_last_literal_iff h
      · exact walk_literal_iff h hne ih
    | param p => exact walk_param_iff h fun _ => ih
    | catchAll p =>
      obtain rfl := h.eq_nil id
      rw [slips_last, walk]
      cases ys with
      | nil =>
        rw [if_pos rfl, bind, answer, Prod.mk.injEq]
        · constructor
          · rintro ⟨-, hbound⟩ hwrong
            cases hwrong with
            | nothingLeft _ _ hne => exact hne hbound
          · intro hnot
            refine ⟨rfl, ?_⟩
            by_contra hne
            exact hnot (.nothingLeft p (h.ended rfl).1 hne)
        · exact fun _ _ => by simp
      | cons x xs =>
        rw [if_neg (List.cons_ne_nil _ _), bind, answer]
        exact iff_of_true rfl (by rintro ⟨⟩)
    | optionalCatchAll p =>
      obtain rfl := h.eq_nil id
      rw [slips_last, walk]
      cases ys with
      | nil =>
        rw [if_pos rfl, bind, answer, List.append_nil]
        exact iff_of_true rfl (by rintro ⟨⟩)
      | cons x xs =>
        rw [if_neg (List.cons_ne_nil _ _), bind, answer]
        exact iff_of_true rfl (by rintro ⟨⟩)

end Walk

/-! ## Routes -/

section Routes
variable (hash : List UInt8 → UInt32) (name : RouteName) (path : RoutePath)

/-- The match says whether the segments match, and leaves the bound parameters or none. -/
def MatchesBySegment : Prop :=
  match_ hash true path.text name.text name.text [] =
    .answer (bind name.segments path.segments).isSome
      ((bind name.segments path.segments).getD [])

instance : Decidable (MatchesBySegment hash name path) := by
  unfold MatchesBySegment
  infer_instance

/-- The offset after the last `[p]` does not fit a `u16`. -/
def RouteName.Overflows : Prop :=
  name.text.length = 65535 ∧ ∃ p, name.segments.getLast? = some (.param p)

/-- A name whose offset overflows misses the paths that match; the others go wrong at
the places of `Wrong`. -/
def RouteName.SlipsOn : Prop :=
  name.Overflows ∧ bind name.segments path.segments ≠ none ∨
    ¬ name.Overflows ∧ Slips [] [] name.segments path.segments

theorem answer_nil (bound : Option (List Param)) :
    answer bound [] = (bound.isSome, bound.getD []) := by
  cases bound <;> rfl

/-- A path has at least a byte for each segment. -/
theorem length_segments_le {xs : List (List UInt8)} (h : ∀ x ∈ xs, IsPart x) :
    xs.length ≤ (joined xs).length := by
  induction xs with
  | nil => exact Nat.zero_le _
  | cons x xs ih =>
    have hx := List.length_pos_iff.mpr (h x List.mem_cons_self).1
    have hxs := ih fun y hy => h y (List.mem_cons_of_mem _ hy)
    rw [joined_cons, List.length_cons, List.length_append]
    cases xs with
    | nil => exact Nat.le_add_right_of_le hx
    | cons y ys =>
      simp only [after_cons, List.length_cons] at hxs ⊢
      omega

/-- **Routes match segment by segment** on the paths on which the loop does not go
wrong, and on no other. -/
theorem matchesBySegment_iff :
    MatchesBySegment hash name path ↔ ¬ name.SlipsOn path := by
  have hat : At name.text [] name.segments := ⟨name.valid, name.single, rfl, name.short⟩
  have hturns : path.segments.length < path.text.length + 1 :=
    Nat.lt_succ_of_le (length_segments_le path.parts)
  rw [MatchesBySegment, match_, RouteName.SlipsOn]
  by_cases hover : name.Overflows
  · obtain ⟨hmax, q, hq⟩ := hover
    have hfalse : matchLoop hash true name.text name.text _ 0 path.text [] = .answer false [] :=
      matchLoop_of_wraps hash hat hmax hq hat hq hturns path.parts
    simp only [show name.Overflows from ⟨hmax, q, hq⟩, true_and, not_true_eq_false, false_and,
      or_false, not_not]
    rw [hfalse, Matching.answer.injEq]
    constructor
    · rintro ⟨hnone, -⟩
      exact Option.not_isSome_iff_eq_none.mp (by rw [← hnone]; exact Bool.false_ne_true)
    · intro hnone
      rw [hnone]
      exact ⟨rfl, rfl⟩
  · have hwraps : name.text.length = 65535 → ∀ p, name.segments.getLast? ≠ some (.param p) :=
      fun hmax p hp => hover ⟨hmax, p, hp⟩
    have hwalk : matchLoop hash true name.text name.text _ 0 path.text [] = _ :=
      matchLoop_eq_walk hash hat hwraps hturns path.parts fun _ _ => path.ne_nil
    have hiff : walk name.segments path.segments [] = answer (bind name.segments path.segments) []
        ↔ ¬ Slips [] [] name.segments path.segments :=
      walk_iff ⟨name.valid, name.single, name.ne_nil, fun hnil => absurd hnil path.ne_nil⟩
    rw [answer_nil] at hiff
    simp only [hover, false_and, false_or, not_false_eq_true, true_and]
    rw [← hiff, hwalk, Matching.answer.injEq, Prod.ext_iff]

end Routes

/-- `[id]/a` -/
def shortRoute : RouteName where
  segments := [.param [105, 100], .literal [97]]
  ne_nil := by decide
  valid := by decide
  single := by decide
  short := by decide

/-- `x/a` -/
def shortPath : RoutePath where
  segments := [[120], [97]]
  ne_nil := by decide
  parts := by decide

/-- The segments of `[id]/a` match those of `x/a`, and the route does not match. -/
theorem not_matchesBySegment_short : ¬ MatchesBySegment (fun _ => 1) shortRoute shortPath := by
  decide

end OhosBun.Router
