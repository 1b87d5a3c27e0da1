/-
# `OhosBun.MySql.Query` — a query and its statement

`MySQLQuery`, with the identity of the `JSMySQLQuery` it is in, and `MySQLStatement`.  Queries of
one signature share a statement of the connection's table; a simple query has one of its own.
Parameters, columns and rows are counted only: what they hold decides nothing here.
-/
import Mathlib.Init

namespace OhosBun.MySql

inductive StatementStatus
  | pending
  | parsing
  | prepared
  | failed
deriving DecidableEq

inductive QueryStatus
  | pending
  | binding
  | running
  | partialResponse
  | success
  | fail
deriving DecidableEq

/-- What a statement is prepared for: the query and the types of its parameters. -/
abbrev SignatureName := List UInt8

structure Statement where
  status : StatementStatus
  statementId : Nat
  params : Nat
  paramsReceived : Nat
  columns : Nat
  columnsReceived : Nat
  headerReceived : Bool
  columnsEofReceived : Bool
deriving DecidableEq

namespace Statement

def new (status : StatementStatus) : Statement := ⟨status, 0, 0, 0, 0, 0, false, false⟩

/-- Ready for the next result set. -/
def reset (s : Statement) : Statement :=
  { s with columnsReceived := 0, headerReceived := false, columnsEofReceived := false }

end Statement

/-- `PreparedStatementsMap`; nothing is ever removed from it. -/
abbrev Statements := SignatureName → Option Statement

def Statements.set (statements : Statements) (name : SignatureName) (s : Statement) : Statements :=
  fun other => if other = name then some s else statements other

namespace Statements
variable {statements : Statements} {name other : SignatureName} {s : Statement}

@[simp] theorem set_self : statements.set name s name = some s := if_pos rfl

theorem set_of_ne (h : other ≠ name) : statements.set name s other = statements other := if_neg h

end Statements

/-- A pointer to a statement: that of a simple query, or one in the table. -/
inductive Handle
  | own (s : Statement)
  | shared (name : SignatureName)
deriving DecidableEq

/-- `signature` is what `Signature::generate` makes of the query, if it does not fail. -/
structure Query where
  id : Nat
  simple : Bool
  signature : Option SignatureName
  statement : Option Handle
  status : QueryStatus
  pipelined : Bool
deriving DecidableEq

namespace Query

def init (id : Nat) (simple : Bool) (signature : Option SignatureName) : Query :=
  ⟨id, simple, signature, none, .pending, false⟩

def isPending (q : Query) : Bool := q.status = .pending

def isCompleted (q : Query) : Bool := q.status = .success ∨ q.status = .fail

def isRunning (q : Query) : Bool :=
  match q.status with
  | .running | .binding | .partialResponse => true
  | .success | .fail | .pending => false

/-- A result, the last one or not, unless the query is over. -/
def result (q : Query) (isLastResult : Bool) : Query :=
  if q.isCompleted then q
  else { q with status := if isLastResult then .success else .partialResponse }

def fail (q : Query) : Query := if q.isCompleted then q else { q with status := .fail }

def getStatement (statements : Statements) (q : Query) : Option Statement :=
  match q.statement with
  | none => none
  | some (.own s) => some s
  | some (.shared name) => statements name

/-- The statement behind the pointer changes. -/
def putStatement (statements : Statements) (q : Query) (s : Statement) : Statements × Query :=
  match q.statement with
  | none => (statements, q)
  | some (.own _) => (statements, { q with statement := some (.own s) })
  | some (.shared name) => (statements.set name s, q)

def isBeingPrepared (statements : Statements) (q : Query) : Bool :=
  q.isPending && (q.getStatement statements).any fun s => s.status = .parsing

theorem isCompleted_fail (q : Query) : q.fail.isCompleted = true := by
  rw [fail]
  split
  next h => exact h
  next => rfl

@[simp] theorem id_fail (q : Query) : q.fail.id = q.id := by
  rw [fail]
  split
  · rfl
  · rfl

@[simp] theorem id_result (q : Query) (isLastResult : Bool) : (q.result isLastResult).id = q.id := by
  rw [result]
  split
  · rfl
  · rfl

end Query

end OhosBun.MySql
