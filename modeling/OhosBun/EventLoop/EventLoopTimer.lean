/-
# `OhosBun.EventLoop.EventLoopTimer` — the order the timers are drained in

`EventLoopTimer::less` compares deadlines; a timer that a program set (a JS timer) has its
deadline collapsed to the millisecond, and two JS timers of one millisecond are told apart by
the 25-bit epochs `All::insert` numbers them with.

The heap asks for a strict weak order.  `less` is one on all timers but those with a JS
timer on both sides of a tie with another timer (`Separate`): a timer of the runtime that is
due on a whole millisecond is level with every JS timer of that millisecond, which are not
level with each other.  `less_orders_iff` says that this is the only exception, and that the
epochs do what they are for, also after they have wrapped around.
-/
import Mathlib.Algebra.Ring.Nat
import Mathlib.Data.List.Basic
import Mathlib.Data.Fintype.Basic
import Mathlib.Data.UInt
import OhosBun.Io.HeapRuns

namespace OhosBun.EventLoop

/-! ## Timers -/

structure Timespec where
  sec : Int
  nsec : Int
deriving DecidableEq

/-- `NS_PER_MS` -/
def nsPerMs : Int := 1000000

inductive Tag
  | timeoutObject
  | immediateObject
  | statWatcherScheduler
  | upgradedDuplex
  | dnsResolver
  | dnsSdConnection
  | windowsNamedPipe
  | wtfTimer
  | postgresSQLConnectionTimeout
  | postgresSQLConnectionMaxLifetime
  | mySQLConnectionTimeout
  | mySQLConnectionMaxLifetime
  | valkeyConnectionTimeout
  | valkeyConnectionReconnect
  | subprocessTimeout
  | devServerSweepSourceMaps
  | devServerMemoryVisualizerTick
  | abortSignalTimeout
  | dateHeaderTimer
  | bunTest
  | eventLoopDelayMonitor
  | cronJob
  | gcRepeating
  | quicEndpoint
deriving DecidableEq

/-- The packed state of a JS timer. -/
structure TimerFlags where
  bits : UInt32
deriving DecidableEq

namespace TimerFlags

def epochMask : UInt32 := ((1 : UInt32) <<< 25) - 1

def epoch (f : TimerFlags) : UInt32 := f.bits &&& epochMask

def setEpoch (f : TimerFlags) (v : UInt32) : TimerFlags :=
  ⟨(f.bits &&& ~~~epochMask) ||| (v &&& epochMask)⟩

end TimerFlags

/-- A timer; `flags` are those of the object it is part of, which only JS timers have. -/
structure EventLoopTimer where
  next : Timespec
  tag : Tag
  flags : TimerFlags
deriving DecidableEq

namespace EventLoopTimer

/-- `js_timer_epoch` -/
def jsTimerEpoch (t : EventLoopTimer) : Option UInt32 :=
  match t.tag with
  | .timeoutObject | .immediateObject | .abortSignalTimeout => some t.flags.epoch
  | _ => none

/-- The nanoseconds that are compared: whole milliseconds for a JS timer. -/
def ns (t : EventLoopTimer) : Int :=
  if t.jsTimerEpoch.isSome then nsPerMs * t.next.nsec.tdiv nsPerMs else t.next.nsec

/-- `U25_MAX` -/
def u25Max : UInt32 := ((1 : UInt32) <<< 25) - 1

def less (a b : EventLoopTimer) : Bool :=
  if a.next.sec ≠ b.next.sec then a.next.sec < b.next.sec
  else if a.ns = b.ns then
    match a.jsTimerEpoch, b.jsTimerEpoch with
    | some aEpoch, some bEpoch => (bEpoch - aEpoch) &&& u25Max < u25Max / 2
    | _, _ => false
  else a.ns < b.ns

end EventLoopTimer

open EventLoopTimer

/-- `All::insert`, as far as the epoch goes: the epoch of the last JS timer, and the timer as
it is put into the heap. -/
def insert (epoch : UInt32) (t : EventLoopTimer) : UInt32 × EventLoopTimer :=
  match t.jsTimerEpoch with
  | some _ =>
    let epoch : UInt32 := (epoch + (1 : UInt32)) &&& u25Max
    (epoch, { t with flags := t.flags.setEpoch epoch })
  | none => (epoch, t)

/-! ## What the order is to be -/

section Order
variable {ι : Type*}

/-- Neither comes before the other. -/
def Level (less : ι → ι → Bool) (i j : ι) : Prop := ¬ less i j ∧ ¬ less j i

/-- A strict weak order on the pairs of distinct elements. -/
structure WeakOrder (less : ι → ι → Bool) : Prop where
  asymm : ∀ i j, i ≠ j → less i j → ¬ less j i
  trans : ∀ i j k, less i j → less j k → less i k
  level_trans : ∀ i j k, i ≠ j → j ≠ k → i ≠ k → Level less i j → Level less j k → Level less i k

variable (timer : ι → EventLoopTimer)

/-- Two timers are due in the same millisecond, or at the same time if they are no JS
timers. -/
def SameDue (i j : ι) : Prop :=
  (timer i).next.sec = (timer j).next.sec ∧ (timer i).ns = (timer j).ns

/-- A timer was set by a program. -/
def IsJs (i : ι) : Prop := (timer i).jsTimerEpoch.isSome

/-- The epochs of the JS timers were assigned in the order of `age`, by counting up from
`start` modulo 2^25; they differ, and lie within a window of fewer than 2^24 - 1 values. -/
structure Numbered (age : ι → Nat) (start window : Nat) : Prop where
  window_lt : window < 2 ^ 24 - 1
  age_lt : ∀ i, IsJs timer i → age i < window
  epoch_eq : ∀ i e, (timer i).jsTimerEpoch = some e → e.toNat = (start + age i) % 2 ^ 25
  distinct : ∀ i j, i ≠ j → IsJs timer i → IsJs timer j →
    (timer i).jsTimerEpoch ≠ (timer j).jsTimerEpoch

/-- The order of the timers is a strict weak order, and JS timers that are due in the same
millisecond come in the order their epochs were assigned in. -/
structure Orders (age : ι → Nat) : Prop where
  weakOrder : WeakOrder fun i j => less (timer i) (timer j)
  byAge : ∀ i j, i ≠ j → IsJs timer i → IsJs timer j → SameDue timer i j →
    (less (timer i) (timer j) ↔ age i < age j)

instance (i j : ι) : Decidable (SameDue timer i j) := inferInstanceAs (Decidable (_ ∧ _))

instance (i : ι) : Decidable (IsJs timer i) := inferInstanceAs (Decidable (_ = true))

/-- The second timer is no JS timer, and is due with two that are. -/
def Between (i j k : ι) : Prop :=
  i ≠ k ∧ (IsJs timer i ∧ ¬ IsJs timer j ∧ IsJs timer k) ∧ SameDue timer i j ∧ SameDue timer j k

instance [DecidableEq ι] (i j k : ι) : Decidable (Between timer i j k) :=
  inferInstanceAs (Decidable (_ ∧ _))

/-- No timer that is not a JS timer is due with two that are. -/
def Separate : Prop := ∀ i j k, ¬ Between timer i j k

instance [Fintype ι] [DecidableEq ι] : Decidable (Separate timer) :=
  inferInstanceAs (Decidable (∀ i j k, ¬ Between timer i j k))

end Order

/-! ## Epochs -/

theorem toNat_and_u25Max (v : UInt32) : (v &&& u25Max).toNat = v.toNat % 2 ^ 25 := by
  rw [UInt32.toNat_and, show u25Max.toNat = 2 ^ 25 - 1 by decide, Nat.and_two_pow_sub_one_eq_mod]

theorem TimerFlags.epoch_setEpoch (f : TimerFlags) (v : UInt32) :
    (f.setEpoch v).epoch = v &&& epochMask := by
  have hbits : ∀ a b m : UInt32, ((a &&& ~~~m) ||| (b &&& m)) &&& m = b &&& m := by
    intro a b m
    apply UInt32.toBitVec_inj.mp
    ext i hi
    simp only [UInt32.toBitVec_and, UInt32.toBitVec_or, UInt32.toBitVec_not,
      BitVec.getElem_and, BitVec.getElem_or, BitVec.getElem_not]
    cases a.toBitVec[i] <;> cases b.toBitVec[i] <;> cases m.toBitVec[i] <;> rfl
  exact hbits f.bits v epochMask

variable {a b : UInt32} {start x y i : Nat} {ts : List EventLoopTimer} {t : EventLoopTimer}

/-- The distance that `less` looks at: how far the second epoch is ahead, around 2^25. -/
theorem toNat_distance (ha : a.toNat = (start + x) % 2 ^ 25) (hb : b.toNat = (start + y) % 2 ^ 25) :
    ((b - a) &&& u25Max).toNat = (2 ^ 25 + b.toNat - a.toNat) % 2 ^ 25 := by
  rw [toNat_and_u25Max, UInt32.toNat_sub]
  omega

theorem distance_lt_iff {window : Nat} (hwindow : window < 2 ^ 24 - 1) (hx : x < window) (hy : y < window)
    (ha : a.toNat = (start + x) % 2 ^ 25) (hb : b.toNat = (start + y) % 2 ^ 25) (hab : a ≠ b) :
    (b - a) &&& u25Max < u25Max / 2 ↔ x < y := by
  have hne : x ≠ y := fun h => hab (UInt32.toNat_inj.mp (by rw [ha, hb, h]))
  rw [UInt32.lt_iff_toNat_lt, toNat_distance ha hb, show (u25Max / 2).toNat = 2 ^ 24 - 1 by decide,
    ha, hb]
  omega

/-! ## The order -/

section Order
variable {ι : Type*} {timer : ι → EventLoopTimer} {age : ι → Nat} {start window : Nat} {i j k : ι}

/-- A timer is due before another. -/
def DueBefore (timer : ι → EventLoopTimer) (i j : ι) : Prop :=
  (timer i).next.sec < (timer j).next.sec ∨
    (timer i).next.sec = (timer j).next.sec ∧ (timer i).ns < (timer j).ns

theorem dueBefore_or_sameDue (timer : ι → EventLoopTimer) (i j : ι) :
    DueBefore timer i j ∨ SameDue timer i j ∨ DueBefore timer j i := by
  unfold DueBefore SameDue
  omega

theorem DueBefore.not_sameDue (h : DueBefore timer i j) : ¬ SameDue timer i j := by
  unfold DueBefore at h
  unfold SameDue
  omega

theorem DueBefore.asymm (h : DueBefore timer i j) : ¬ DueBefore timer j i := by
  unfold DueBefore at *
  omega

theorem DueBefore.trans (hij : DueBefore timer i j) (hjk : DueBefore timer j k) :
    DueBefore timer i k := by
  unfold DueBefore at *
  omega

theorem DueBefore.of_left (hij : SameDue timer i j) (hjk : DueBefore timer j k) :
    DueBefore timer i k := by
  unfold DueBefore SameDue at *
  omega

theorem DueBefore.of_right (hij : DueBefore timer i j) (hjk : SameDue timer j k) :
    DueBefore timer i k := by
  unfold DueBefore SameDue at *
  omega

theorem SameDue.symm (h : SameDue timer i j) : SameDue timer j i := ⟨h.1.symm, h.2.symm⟩

theorem SameDue.trans (hij : SameDue timer i j) (hjk : SameDue timer j k) : SameDue timer i k :=
  ⟨hij.1.trans hjk.1, hij.2.trans hjk.2⟩

/-- What `less` says: the earlier deadline, and on a tie of two JS timers the older epoch. -/
theorem less_iff : less (timer i) (timer j) ↔ DueBefore timer i j ∨ SameDue timer i j ∧
    ∃ a b, (timer i).jsTimerEpoch = some a ∧ (timer j).jsTimerEpoch = some b ∧
      (b - a) &&& u25Max < u25Max / 2 := by
  unfold less DueBefore SameDue
  by_cases hsec : (timer i).next.sec = (timer j).next.sec
  · by_cases hns : (timer i).ns = (timer j).ns
    · rw [if_neg (not_not_intro hsec), if_pos hns]
      cases (timer i).jsTimerEpoch with
      | none => simp [hsec, hns]
      | some a =>
        cases (timer j).jsTimerEpoch with
        | none => simp [hsec, hns]
        | some b => simp [hsec, hns]
    · rw [if_neg (not_not_intro hsec), if_neg hns]
      simp [hsec, hns]
  · rw [if_pos hsec]
    simp [hsec]

namespace Numbered

/-- A tie of two JS timers goes to the one that was numbered first. -/
theorem older_iff (h : Numbered timer age start window) (hij : i ≠ j) :
    (∃ a b, (timer i).jsTimerEpoch = some a ∧ (timer j).jsTimerEpoch = some b ∧
      (b - a) &&& u25Max < u25Max / 2) ↔ IsJs timer i ∧ IsJs timer j ∧ age i < age j := by
  have hdistance : ∀ a b, (timer i).jsTimerEpoch = some a → (timer j).jsTimerEpoch = some b →
      ((b - a) &&& u25Max < u25Max / 2 ↔ age i < age j) := by
    intro a b ha hb
    have hi : IsJs timer i := by rw [IsJs, ha, Option.isSome_some]
    have hj : IsJs timer j := by rw [IsJs, hb, Option.isSome_some]
    have hab : a ≠ b := by
      intro hab
      exact h.distinct i j hij hi hj (by rw [ha, hb, hab])
    exact distance_lt_iff h.window_lt (h.age_lt i hi) (h.age_lt j hj) (h.epoch_eq i a ha)
      (h.epoch_eq j b hb) hab
  constructor
  · rintro ⟨a, b, ha, hb, hlt⟩
    exact ⟨by rw [IsJs, ha, Option.isSome_some], by rw [IsJs, hb, Option.isSome_some],
      (hdistance a b ha hb).mp hlt⟩
  · rintro ⟨hi, hj, hlt⟩
    obtain ⟨a, ha⟩ := Option.isSome_iff_exists.mp hi
    obtain ⟨b, hb⟩ := Option.isSome_iff_exists.mp hj
    exact ⟨a, b, ha, hb, (hdistance a b ha hb).mpr hlt⟩

theorem less_iff (h : Numbered timer age start window) (hij : i ≠ j) :
    less (timer i) (timer j) ↔
      DueBefore timer i j ∨ SameDue timer i j ∧ IsJs timer i ∧ IsJs timer j ∧ age i < age j := by
  rw [EventLoop.less_iff, h.older_iff hij]

theorem age_ne (h : Numbered timer age start window) (hij : i ≠ j) (hi : IsJs timer i)
    (hj : IsJs timer j) : age i ≠ age j := by
  intro hage
  obtain ⟨a, ha⟩ := Option.isSome_iff_exists.mp hi
  obtain ⟨b, hb⟩ := Option.isSome_iff_exists.mp hj
  have hab : a = b := UInt32.toNat_inj.mp (by rw [h.epoch_eq i a ha, h.epoch_eq j b hb, hage])
  exact h.distinct i j hij hi hj (by rw [ha, hb, hab])

/-- Two timers are level when they are due together, unless both are JS timers. -/
theorem level_iff (h : Numbered timer age start window) (hij : i ≠ j) :
    Level (fun i j => less (timer i) (timer j)) i j ↔
      SameDue timer i j ∧ ¬ (IsJs timer i ∧ IsJs timer j) := by
  rw [Level, h.less_iff hij, h.less_iff hij.symm]
  constructor
  · rintro ⟨hnot, hnot'⟩
    have hsame : SameDue timer i j := by
      rcases dueBefore_or_sameDue timer i j with hlt | hsame | hgt
      · exact absurd (.inl hlt) hnot
      · exact hsame
      · exact absurd (.inl hgt) hnot'
    refine ⟨hsame, ?_⟩
    rintro ⟨hi, hj⟩
    rcases Nat.lt_or_gt_of_ne (h.age_ne hij hi hj) with hlt | hgt
    · exact hnot (.inr ⟨hsame, hi, hj, hlt⟩)
    · exact hnot' (.inr ⟨hsame.symm, hj, hi, hgt⟩)
  · rintro ⟨hsame, hnot⟩
    constructor
    · rintro (hlt | ⟨-, hi, hj, -⟩)
      · exact hlt.not_sameDue hsame
      · exact hnot ⟨hi, hj⟩
    · rintro (hgt | ⟨-, hj, hi, -⟩)
      · exact hgt.not_sameDue hsame.symm
      · exact hnot ⟨hi, hj⟩

theorem asymm (h : Numbered timer age start window) (hij : i ≠ j)
    (hless : less (timer i) (timer j)) : ¬ less (timer j) (timer i) := by
  rw [h.less_iff hij] at hless
  rw [h.less_iff hij.symm]
  rintro (hgt | ⟨hsame, -, -, hage⟩)
  · rcases hless with hlt | ⟨hsame, -⟩
    · exact hlt.asymm hgt
    · exact hgt.not_sameDue hsame.symm
  · rcases hless with hlt | ⟨-, -, -, hage'⟩
    · exact hlt.not_sameDue hsame.symm
    · omega

theorem trans (h : Numbered timer age start window) (hij : less (timer i) (timer j))
    (hjk : less (timer j) (timer k)) : less (timer i) (timer k) := by
  by_cases hij' : i = j
  · rwa [hij']
  by_cases hjk' : j = k
  · rwa [← hjk']
  by_cases hik : i = k
  · subst hik
    exact absurd hjk (h.asymm hij' hij)
  rw [h.less_iff hij'] at hij
  rw [h.less_iff hjk'] at hjk
  rw [h.less_iff hik]
  rcases hij with hlt | ⟨hsame, hi, -, hage⟩
  · rcases hjk with hlt' | ⟨hsame', -⟩
    · exact .inl (hlt.trans hlt')
    · exact .inl (hlt.of_right hsame')
  · rcases hjk with hlt' | ⟨hsame', -, hk, hage'⟩
    · exact .inl (.of_left hsame hlt')
    · exact .inr ⟨hsame.trans hsame', hi, hk, hage.trans hage'⟩

theorem byAge (h : Numbered timer age start window) (hij : i ≠ j) (hi : IsJs timer i)
    (hj : IsJs timer j) (hsame : SameDue timer i j) :
    less (timer i) (timer j) ↔ age i < age j := by
  rw [h.less_iff hij]
  constructor
  · rintro (hlt | ⟨-, -, -, hage⟩)
    · exact absurd hsame hlt.not_sameDue
    · exact hage
  · exact fun hage => .inr ⟨hsame, hi, hj, hage⟩

end Numbered

/-- For timers numbered by `insert`, the order is as it has to be exactly when no other timer
is due together with two JS timers. -/
theorem less_orders_iff (h : Numbered timer age start window) :
    Orders timer age ↔ Separate timer := by
  constructor
  · rintro ho i j k ⟨hik, ⟨hi, hj, hk⟩, hij, hjk⟩
    have hij' : i ≠ j := fun heq => hj (heq ▸ hi)
    have hjk' : j ≠ k := fun heq => hj (heq ▸ hk)
    have hlevel := ho.weakOrder.level_trans i j k hij' hjk' hik
      ((h.level_iff hij').mpr ⟨hij, fun hboth => hj hboth.2⟩)
      ((h.level_iff hjk').mpr ⟨hjk, fun hboth => hj hboth.1⟩)
    exact ((h.level_iff hik).mp hlevel).2 ⟨hi, hk⟩
  · intro hsep
    refine ⟨⟨fun i j hij => h.asymm hij, fun i j k => h.trans, ?_⟩, fun i j hij => h.byAge hij⟩
    intro i j k hij hjk hik hlevel hlevel'
    rw [h.level_iff hij] at hlevel
    rw [h.level_iff hjk] at hlevel'
    rw [h.level_iff hik]
    refine ⟨hlevel.1.trans hlevel'.1, ?_⟩
    rintro ⟨hi, hk⟩
    by_cases hj : IsJs timer j
    · exact hlevel.2 ⟨hi, hj⟩
    · exact hsep i j k ⟨hik, ⟨hi, hj, hk⟩, hlevel.1, hlevel'.1⟩

end Order

/-! ## Timers numbered by `insert` -/

/-- Timers as they are put into the heap, one after the other. -/
def insertAll (epoch : UInt32) : List EventLoopTimer → List EventLoopTimer
  | [] => []
  | t :: ts => (insert epoch t).2 :: insertAll (insert epoch t).1 ts

/-- How many JS timers were put into the heap before. -/
def ageAt (ts : List EventLoopTimer) (i : Nat) : Nat :=
  (ts.take i).countP fun t => t.jsTimerEpoch.isSome

theorem toNat_insert (epoch : UInt32) (t : EventLoopTimer) :
    (insert epoch t).1.toNat % 2 ^ 25 =
      (epoch.toNat + if t.jsTimerEpoch.isSome then 1 else 0) % 2 ^ 25 := by
  unfold insert
  cases t.jsTimerEpoch with
  | none => simp
  | some e =>
    show ((epoch + 1) &&& u25Max).toNat % 2 ^ 25 = _
    rw [toNat_and_u25Max, UInt32.toNat_add, UInt32.toNat_one, Option.isSome_some, if_pos rfl]
    omega

theorem jsTimerEpoch_insert (epoch : UInt32) (t : EventLoopTimer) :
    (insert epoch t).2.jsTimerEpoch = t.jsTimerEpoch.map fun _ => (epoch + 1) &&& u25Max := by
  have hmask : (epoch + 1) &&& u25Max &&& TimerFlags.epochMask = (epoch + 1) &&& u25Max := by
    rw [UInt32.and_assoc]
    rfl
  cases htag : t.tag <;> simp [insert, jsTimerEpoch, htag, TimerFlags.epoch_setEpoch, hmask]

theorem length_insertAll (epoch : UInt32) (ts : List EventLoopTimer) :
    (insertAll epoch ts).length = ts.length := by
  induction ts generalizing epoch with
  | nil => rfl
  | cons t ts ih => rw [insertAll, List.length_cons, ih, List.length_cons]

theorem ageAt_cons (t : EventLoopTimer) (ts : List EventLoopTimer) (i : Nat) :
    ageAt (t :: ts) (i + 1) = (if t.jsTimerEpoch.isSome then 1 else 0) + ageAt ts i := by
  rw [ageAt, List.take_succ_cons, List.countP_cons, Nat.add_comm, ageAt]

/-- The epochs of the timers in the heap count up from the one after the start. -/
theorem epoch_insertAll {epoch : UInt32} (ht : (insertAll epoch ts)[i]? = some t) :
    ∃ u, ts[i]? = some u ∧ u.jsTimerEpoch.isSome = t.jsTimerEpoch.isSome ∧
      ∀ e, t.jsTimerEpoch = some e → e.toNat = (epoch.toNat + 1 + ageAt ts i) % 2 ^ 25 := by
  induction ts generalizing epoch i with
  | nil => simp [insertAll] at ht
  | cons u ts ih =>
    cases i with
    | zero =>
      obtain rfl : (insert epoch u).2 = t := by simpa [insertAll] using ht
      refine ⟨u, rfl, ?_, ?_⟩
      · rw [jsTimerEpoch_insert, Option.isSome_map]
      · intro e he
        rw [jsTimerEpoch_insert] at he
        obtain ⟨-, -, rfl⟩ := Option.map_eq_some_iff.mp he
        rw [toNat_and_u25Max, UInt32.toNat_add, UInt32.toNat_one, ageAt, List.take_zero,
          List.countP_nil]
        omega
    | succ i =>
      obtain ⟨v, hv, hjs, hepoch⟩ := ih (by simpa [insertAll] using ht)
      refine ⟨v, by simpa using hv, hjs, fun e he => ?_⟩
      have hstep := toNat_insert epoch u
      have he' := hepoch e he
      rw [ageAt_cons]
      omega

theorem ageAt_lt_ageAt {j : Nat} (ht : ts[i]? = some t) (hjs : t.jsTimerEpoch.isSome) (hij : i < j) :
    ageAt ts i < ageAt ts j := by
  have hsplit : ts.take j = ts.take i ++ (ts.take j).drop i := by
    conv_lhs => rw [← List.take_append_drop i (ts.take j)]
    rw [List.take_take, Nat.min_eq_left hij.le]
  have hmem : t ∈ (ts.take j).drop i := by
    refine List.mem_of_getElem? (i := 0) ?_
    rw [List.getElem?_drop, Nat.add_zero, List.getElem?_take_of_lt hij, ht]
  have hpos : 0 < ((ts.take j).drop i).countP fun t => t.jsTimerEpoch.isSome :=
    List.countP_pos_iff.mpr ⟨t, hmem, hjs⟩
  rw [ageAt, ageAt, hsplit, List.countP_append]
  omega

/-- What `insert` does makes timers numbered, as long as fewer than 2^24 - 1 of them are JS
timers. -/
theorem numbered_insertAll (epoch : UInt32) (ts : List EventLoopTimer)
    (hfew : (ts.countP fun t => t.jsTimerEpoch.isSome) < 2 ^ 24 - 1) :
    Numbered (fun i : Fin (insertAll epoch ts).length => (insertAll epoch ts)[i])
      (fun i => ageAt ts i) (epoch.toNat + 1) (ts.countP fun t => t.jsTimerEpoch.isSome) := by
  have hget : ∀ i : Fin (insertAll epoch ts).length, ∃ u, ts[i.val]? = some u ∧
      u.jsTimerEpoch.isSome = ((insertAll epoch ts)[i]).jsTimerEpoch.isSome ∧
      ∀ e, ((insertAll epoch ts)[i]).jsTimerEpoch = some e →
        e.toNat = (epoch.toNat + 1 + ageAt ts i) % 2 ^ 25 :=
    fun i => epoch_insertAll (List.getElem?_eq_getElem i.isLt)
  have hage : ∀ i : Fin (insertAll epoch ts).length, ((insertAll epoch ts)[i]).jsTimerEpoch.isSome →
      ∀ j, i.val < j → ageAt ts i < ageAt ts j := by
    intro i hi j hij
    obtain ⟨u, hu, hjs, -⟩ := hget i
    exact ageAt_lt_ageAt hu (hjs.trans hi) hij
  have hlt : ∀ i : Fin (insertAll epoch ts).length, ((insertAll epoch ts)[i]).jsTimerEpoch.isSome →
      ageAt ts i < ts.countP fun t => t.jsTimerEpoch.isSome := by
    intro i hi
    have h := hage i hi ts.length (by rw [← length_insertAll epoch ts]; exact i.isLt)
    rwa [ageAt, ageAt, List.take_length] at h
  refine ⟨hfew, hlt, fun i e he => (hget i).choose_spec.2.2 e he, fun i j hij hi hj heq => ?_⟩
  obtain ⟨a, ha⟩ := Option.isSome_iff_exists.mp hi
  have ha' := (hget i).choose_spec.2.2 a ha
  have hb' := (hget j).choose_spec.2.2 a (heq.symm.trans ha)
  have hi' := hlt i hi
  have hj' := hlt j hj
  rcases Nat.lt_or_gt_of_ne (Fin.val_ne_of_ne hij) with hlt' | hgt'
  · have := hage i hi j hlt'
    omega
  · have := hage j hj i hgt'
    omega

/-! ## A tie with a timer of the runtime

Two timeouts and a cron job, all of them due at 5 ms; the second timeout was set after the
epoch had wrapped around. -/

def timeoutAt (nsec : Int) : EventLoopTimer := ⟨⟨0, nsec⟩, .timeoutObject, ⟨0⟩⟩

def cronJobAt (nsec : Int) : EventLoopTimer := ⟨⟨0, nsec⟩, .cronJob, ⟨0⟩⟩

/-- The epoch before the first of the timers. -/
def lastEpoch : UInt32 := 2 ^ 25 - 2

def tied : List EventLoopTimer := [timeoutAt 5300000, cronJobAt 5000000, timeoutAt 5000000]

theorem tied_not_orders :
    Numbered (fun i : Fin (insertAll lastEpoch tied).length => (insertAll lastEpoch tied)[i])
      (fun i => ageAt tied i) (lastEpoch.toNat + 1) 2 ∧
    ¬ Orders (fun i : Fin (insertAll lastEpoch tied).length => (insertAll lastEpoch tied)[i])
      (fun i => ageAt tied i) := by
  refine ⟨numbered_insertAll lastEpoch tied (by decide), fun ho => ?_⟩
  have hlevel := ho.weakOrder.level_trans ⟨0, by decide⟩ ⟨1, by decide⟩ ⟨2, by decide⟩
    (by decide) (by decide) (by decide) ⟨by decide, by decide⟩ ⟨by decide, by decide⟩
  exact hlevel.1 (by decide)

/-- The cron job is due a nanosecond later. -/
def untied : List EventLoopTimer := [timeoutAt 5300000, cronJobAt 5000001, timeoutAt 5000000]

theorem less_orders_iff_untied :
    Orders (fun i : Fin (insertAll lastEpoch untied).length => (insertAll lastEpoch untied)[i])
      (fun i => ageAt untied i) :=
  (less_orders_iff (numbered_insertAll lastEpoch untied (by decide))).mpr (by decide)

end OhosBun.EventLoop
