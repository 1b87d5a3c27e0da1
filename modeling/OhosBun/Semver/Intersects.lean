/-
# `OhosBun.Semver.Intersects` — ranges that have a version in common

`intersects.rs`: an interval of versions is narrowed by the comparators of two queries.
Prereleases are compared like other versions.
-/
import OhosBun.Semver.Query

namespace OhosBun.Semver

structure Bound where
  version : Version
  inclusive : Bool
  deriving DecidableEq

structure Interval where
  lower : Option Bound := none
  upper : Option Bound := none
  deriving DecidableEq

namespace Interval

/-- The bound takes the place of the lower one when it leaves out more. -/
def raise (i : Interval) (b : Bound) : Interval :=
  let replace := match i.lower with
    | none => true
    | some cur => match b.version.orderWithoutBuild cur.version with
      | .gt => true
      | .eq => !b.inclusive
      | .lt => false
  if replace then { i with lower := some b } else i

def cap (i : Interval) (b : Bound) : Interval :=
  let replace := match i.upper with
    | none => true
    | some cur => match b.version.orderWithoutBuild cur.version with
      | .lt => true
      | .eq => !b.inclusive
      | .gt => false
  if replace then { i with upper := some b } else i

def narrow (i : Interval) (c : Comparator) : Interval :=
  match c.op with
  | .unset => i
  | .eql => (i.raise ⟨c.version, true⟩).cap ⟨c.version, true⟩
  | .gt => i.raise ⟨c.version, false⟩
  | .gte => i.raise ⟨c.version, true⟩
  | .lt => i.cap ⟨c.version, false⟩
  | .lte => i.cap ⟨c.version, true⟩

def andQuery (i : Interval) (query : Query) : Interval :=
  (query.range :: query.next).foldl (fun i range => (i.narrow range.left).narrow range.right) i

def isNonEmpty (i : Interval) : Bool :=
  match i.lower, i.upper with
  | some l, some u => match l.version.orderWithoutBuild u.version with
    | .lt => true
    | .eq => l.inclusive && u.inclusive
    | .gt => false
  | _, _ => true

end Interval

/-- Whether some version satisfies both groups. -/
def Group.intersects (self other : Group) : Bool :=
  (self.head :: self.next).any fun a =>
    let base := Interval.andQuery {} a
    base.isNonEmpty && (other.head :: other.next).any fun b => (base.andQuery b).isNonEmpty

end OhosBun.Semver
